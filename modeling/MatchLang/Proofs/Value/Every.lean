import MatchLang.Machine.Call
import MatchLang.Machine.Test
import MatchLang.Proofs.Value.Sound

/-! The functions inside a value. Nothing that is done with values makes functions, so a property of those
that go in is one of those that come out. -/

namespace MatchLang

mutual

/-- Every function in a value has a property. -/
def Value.Every (P : Closure → Prop) : Value → Prop
  | .function c => P c
  | .record _ fields => EveryValue P fields
  | .partialCall _ callee args => callee.Every P ∧ EveryValue P args
  | .number _ => True
  | .text _ => True
  | .constant _ => True
  | .constructor _ => True
  | .native _ => True

def EveryValue (P : Closure → Prop) : List Value → Prop
  | [] => True
  | v :: vs => v.Every P ∧ EveryValue P vs

end

section

variable {P : Closure → Prop} {v : Value} {vs ws os args rest : List Value} {n : Nat}

theorem everyValue_iff : EveryValue P vs ↔ ∀ v ∈ vs, v.Every P := by
  induction vs with
  | nil => simp [EveryValue]
  | cons v vs ih => simp [EveryValue, ih]

theorem everyValue_append : EveryValue P (vs ++ ws) ↔ EveryValue P vs ∧ EveryValue P ws := by
  simp only [everyValue_iff, List.mem_append]
  exact ⟨fun h => ⟨fun v hv => h v (.inl hv), fun v hv => h v (.inr hv)⟩,
    fun h v hv => hv.elim (h.1 v) (h.2 v)⟩

mutual

theorem Value.every_of_forall (h : ∀ c, P c) : (v : Value) → v.Every P
  | .function c => h c
  | .record _ fields => everyValue_of_forall h fields
  | .partialCall _ callee args => ⟨Value.every_of_forall h callee, everyValue_of_forall h args⟩
  | .number _ | .text _ | .constant _ | .constructor _ | .native _ => by trivial

theorem everyValue_of_forall (h : ∀ c, P c) : (vs : List Value) → EveryValue P vs
  | [] => by trivial
  | v :: vs => ⟨Value.every_of_forall h v, everyValue_of_forall h vs⟩

end

theorem takeOperands_eq_some (h : takeOperands n os = some (args, rest)) :
    os = args ++ rest ∧ args.length = n := by
  induction n generalizing os args with
  | zero =>
    cases h
    exact ⟨rfl, rfl⟩
  | succ n ih =>
    cases os with
    | nil => cases h
    | cons v os =>
      obtain ⟨r, hr, he⟩ := Option.map_eq_some_iff.mp h
      cases he
      obtain ⟨hos, hl⟩ := ih hr
      exact ⟨congrArg (v :: ·) hos, congrArg (· + 1) hl⟩

theorem EveryValue.take (ho : EveryValue P os) (h : takeOperands n os = some (args, rest)) :
    EveryValue P args ∧ EveryValue P rest :=
  everyValue_append.mp ((takeOperands_eq_some h).1 ▸ ho)

/-- The same for the values that an application is about. -/
def Application.Every (P : Closure → Prop) : Application → Prop
  | .enter c os => P c ∧ EveryValue P os
  | .build _ fields rest => EveryValue P fields ∧ EveryValue P rest
  | .compute _ _ rest => EveryValue P rest
  | .fault _ => True

theorem applyFull_every : {callee : Value} → {os : List Value} → callee.Every P → EveryValue P os →
    (applyFull callee os).Every P
  | .function c, os, hc, ho => ⟨hc, ho⟩
  | .constructor c, os, _, ho => by
    rw [applyFull]
    cases h : takeOperands c.arity os with
    | none => trivial
    | some r => exact ho.take h
  | .native f, os, _, ho => by
    rw [applyFull]
    cases h : takeOperands f.arity os with
    | none => trivial
    | some r => exact (ho.take h).2
  | .partialCall _ callee args, os, hc, ho => by
    rw [applyFull]
    exact applyFull_every hc.1 (everyValue_append.mpr ⟨hc.2, ho⟩)
  | .number _, _, _, _ | .text _, _, _, _ | .record _ _, _, _, _ | .constant _, _, _, _ => by trivial

theorem Native.run_every {f : Native} {console console' : Console}
    (h : f.run args console = .ok (v, console')) : v.Every P := by
  have hcompute : ∀ {v : Value}, f.compute args = .ok v → v.Every P := by
    intro v h
    cases f with
    | printLine | readLine => cases h
    | raise =>
      simp only [compute, raiseValue] at h
      split at h <;> cases h
    | add | subtract | multiply | divide | remainder =>
      simp only [compute, twoNumbers] at h
      split at h <;> cases h
      trivial
    | concat =>
      simp only [compute, joinTexts] at h
      split at h <;> cases h
      trivial
    | equal | different =>
      simp only [compute, compareEqual] at h
      split at h <;> cases h
      trivial
    | less | lessEqual | greater | greaterEqual =>
      simp only [compute, compareOrder] at h
      split at h
      · split at h <;> cases h
        trivial
      · cases h
        trivial
      · cases h
      · cases h
    | toNumber =>
      simp only [compute, readNumber] at h
      split at h
      · cases h
        trivial
      · split at h <;> cases h
        trivial
      · cases h
      · cases h
    | toText =>
      simp only [compute, showValue] at h
      split at h <;> cases h
      trivial
  unfold run at h
  split at h
  · cases h
    trivial
  · split at h <;> cases h <;> trivial
  · obtain ⟨w, hw, he⟩ : ∃ w, f.compute args = .ok w ∧ (w, console) = (v, console') := by
      cases hf : f.compute args with
      | error e =>
        rw [hf] at h
        cases h
      | ok w =>
        rw [hf] at h
        exact ⟨w, rfl, Except.ok.inj h⟩
    cases he
    exact hcompute hw

theorem decompose_every {t : DataType} {parts : Nat} (ho : EveryValue P os)
    (h : decompose t parts os = .ok vs) : EveryValue P vs := by
  unfold decompose at h
  split at h
  · split at h
    · cases h
    · split at h
      · cases h
      · rename_i v rest
        split at h
        · split at h
          · cases h
            exact everyValue_append.mpr ⟨ho.1, ho.2⟩
          · cases h
        · split at h
          · cases h
            exact ho.2
          · cases h
        · cases h
  · split at h
    · cases h
    · split at h
      · cases h
      · split at h
        · cases h
          exact ho
        · cases h

end

end MatchLang
