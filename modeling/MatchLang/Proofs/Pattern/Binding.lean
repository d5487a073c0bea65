import MatchLang.Proofs.Lowering.Code
import MatchLang.Proofs.Machine.Passes
import MatchLang.Proofs.Pattern.Keeper

/-! The code that stores the top of the stack under a pattern keeps the pieces of the value. It
raises what stops the pieces, or what comes up when a piece is published under a path that is not
there. -/

namespace MatchLang

/-- Where the running function keeps what its patterns bind. -/
def Machine.keeper (m : Machine) (l : Links) (publishAt : Option (List String)) : Keeper :=
  { links := l, publishAt, root := m.task.root, scope := m.frame.scope }

section

variable {host : Host} {m : Machine} {σ : Store} {v : Value} {os : List Value} {l : Links}
  {publishAt : Option (List String)} {k : List Instr}

theorem leaf_passes {id line line' : Nat} {name : String} {slot : Slot}
    (h : l.get? id = some slot) :
    m.Passes host (leafCode publishAt name line slot).length σ (v :: os)
      (leafCode publishAt name line slot ++ k)
      ((m.keeper l publishAt).bind ⟨[{ id, name, line := line', value := v }], none⟩ σ) os k := by
  have hs : ∀ τ : Store, m.Passes host 1 τ (v :: os) (.mk line (.saveLocal slot) :: k)
      (τ.save m.frame.scope slot.id v, none) os k := fun τ => .of_step rfl
  cases publishAt with
  | none =>
    have hb : (m.keeper l none).bind ⟨[{ id, name, line := line', value := v }], none⟩ σ =
        (σ.save m.frame.scope slot.id v, none) := by
      simp [Keeper.bind, Keeper.keepAll, Keeper.keep, Keeper.assign, Machine.keeper, h]
    rw [hb]
    exact hs σ
  | some path =>
    have hd : m.Passes host 1 σ (v :: os)
        (leafCode (some path) name line slot ++ k) (σ, none) (v :: v :: os)
        (.mk line (.publish name path) :: .mk line (.saveLocal slot) :: k) := .of_step rfl
    cases hn : Machine.publishIn (σ.root m.task.root) path name v with
    | error f =>
      have hb : (m.keeper l (some path)).bind ⟨[{ id, name, line := line', value := v }], none⟩ σ =
          (σ, some f) := by
        simp [Keeper.bind, Keeper.keepAll, Keeper.keep, Machine.keeper, hn, Except.map]
      rw [hb]
      exact hd.trans (Machine.Passes.of_fault (n := 1) (perform_publish_error hn))
    | ok ns =>
      have hb : (m.keeper l (some path)).bind ⟨[{ id, name, line := line', value := v }], none⟩ σ =
          ((σ.setRoot m.task.root ns).save m.frame.scope slot.id v, none) := by
        simp [Keeper.bind, Keeper.keepAll, Keeper.keep, Keeper.assign, Machine.keeper, h, hn,
          Except.map]
      rw [hb]
      exact hd.trans ((Machine.Passes.of_step (perform_publish_ok hn)).trans (hs _))

end

section

variable {host : Host} {m : Machine} {l : Links} {publishAt : Option (List String)}
  {κ : Registry} {P : Closure → Prop} {find : List String → Except Fault DataType}

theorem length_cons_sub {i : Instr} {k : List Instr} : (i :: k).length - k.length = 1 := by
  rw [List.length_cons, Nat.add_sub_cancel_left]

/-- One piece after another: the second is bound where the first has left off. -/
theorem Machine.Passes.bind_andThen {n j : Nat} {σ : Store} {os os' os'' : List Value}
    {is is' k : List Instr} {a b : Pieces} {w : Keeper}
    (ha : m.Passes host n σ os is (w.bind a σ) os' is')
    (hb : ∀ σ', w.bind a σ = (σ', none) → m.Passes host j σ' os' is' (w.bind b σ') os'' k) :
    m.Passes host (n + j) σ os is (w.bind (a.andThen b) σ) os'' k := by
  rcases hr : w.bind a σ with ⟨σ', _ | f⟩
  · rw [hr] at ha
    rw [Keeper.bind_andThen_ok hr]
    exact ha.trans (hb σ' hr)
  · rw [hr] at ha
    rw [Keeper.bind_andThen_fault hr]
    exact ha.fault_trans

mutual

/-- The code of a pattern is at least one instruction. -/
theorem PatternCode.length_lt : (p : Pattern) → {line : Nat} → {is k : List Instr} →
    PatternCode l publishAt p line is k → k.length < is.length
  | .wildcard, _, _, _, h => by
    rw [PatternCode] at h
    simp [h]
  | .name _ _ _, _, _, _, h => by
    obtain ⟨slot, _, rfl⟩ := h
    cases publishAt <;> simp [leafCode]
    omega
  | .literal _ _, _, _, _, h => by
    rw [PatternCode] at h
    simp [h]
  | .list items, _, _, _, h => ItemPatternsCode.length_lt items h
  | .type _ params, _, _, _, h => by
    obtain ⟨r, rfl, hr⟩ := h
    have hl := PatternsCode.length_le params hr
    rw [List.length_cons]
    omega

theorem ItemPatternsCode.length_lt : (ps : List Pattern) → {line : Nat} → {is k : List Instr} →
    ItemPatternsCode l publishAt ps line is k → k.length < is.length
  | [], _, _, _, h => by
    rw [ItemPatternsCode] at h
    simp [h]
  | p :: ps, _, _, _, h => by
    obtain ⟨r, r', rfl, hp, hps⟩ := h
    have h₁ := PatternCode.length_lt p hp
    have h₂ := ItemPatternsCode.length_lt ps hps
    rw [List.length_cons]
    omega

theorem PatternsCode.length_le : (ps : List Pattern) → {line : Nat} → {is k : List Instr} →
    PatternsCode l publishAt ps line is k → k.length ≤ is.length
  | [], _, _, _, h => by
    rw [PatternsCode] at h
    exact Nat.le_of_eq (congrArg List.length h.symm)
  | p :: ps, _, _, _, h => by
    obtain ⟨r, hp, hps⟩ := h
    have h₁ := PatternCode.length_lt p hp
    have h₂ := PatternsCode.length_le ps hps
    omega

end

mutual

/-- The code of a pattern binds the pieces of the value on top of the stack. -/
theorem PatternCode.passes (ht : SoundTypes κ find) :
    (p : Pattern) → {line : Nat} → {is k : List Instr} → {σ : Store} → {v : Value} →
      {os : List Value} → PatternCode l publishAt p line is k → v.Sound κ P →
      (σ.root m.frame.closure.home).findType = find →
      m.Passes host (is.length - k.length) σ (v :: os) is
        ((m.keeper l publishAt).bind (p.pieces find v) σ) os k
  | .wildcard, line, is, k, σ, v, os, hc, _, _ => by
    rw [PatternCode] at hc
    rw [hc, length_cons_sub]
    exact .of_step rfl
  | .name id name nameLine, line, is, k, σ, v, os, hc, _, _ => by
    obtain ⟨slot, hs, rfl⟩ := hc
    rw [List.length_append, Nat.add_sub_cancel]
    exact leaf_passes hs
  | .literal value literalLine, line, is, k, σ, v, os, hc, _, hf => by
    rw [PatternCode] at hc
    rw [hc, length_cons_sub, Pattern.pieces]
    rcases ha : value.shape.accepts find v with f | b
    · exact .of_fault (n := 0) (perform_require_error (hf ▸ ha))
    · have hp : (m.resume σ (v :: os) literalLine k).perform host (.require value.shape) =
          if b then .running (m.resume σ os literalLine k)
          else .raised (m.resume σ os literalLine k) .failedMatch := perform_require_ok (hf ▸ ha)
      cases b with
      | true => exact .of_step hp
      | false => exact .of_fault (n := 0) hp
  | .list items, line, is, k, σ, v, os, hc, hv, hf => ItemPatternsCode.passes ht items hc hv hf
  | .type q params, line, is, k, σ, v, os, hc, hv, hf => by
    obtain ⟨r, rfl, hr⟩ := hc
    have hl := PatternsCode.length_le params hr
    have hn : (Instr.mk q.line (.decompose q.parts params.length) :: r).length - k.length =
        r.length - k.length + 1 := by
      rw [List.length_cons]
      omega
    rw [hn, Pattern.pieces]
    cases ha : takeApart find q.parts params.length v with
    | error f => exact .of_fault (perform_decompose_error (hf ▸ ha))
    | ok parts =>
      have hp : (m.resume σ (v :: os) q.line r).perform host (.decompose q.parts params.length) =
          .running (m.resume σ (parts ++ os) q.line r) := perform_decompose_ok (hf ▸ ha)
      obtain ⟨hlp, hs⟩ := takeApart_eq_ok ht hv ha
      rw [Nat.add_comm]
      exact (Machine.Passes.of_step hp).trans (PatternsCode.passes ht params hr hlp hs hf)

theorem ItemPatternsCode.passes (ht : SoundTypes κ find) :
    (ps : List Pattern) → {line : Nat} → {is k : List Instr} → {σ : Store} → {v : Value} →
      {os : List Value} → ItemPatternsCode l publishAt ps line is k → v.Sound κ P →
      (σ.root m.frame.closure.home).findType = find →
      m.Passes host (is.length - k.length) σ (v :: os) is
        ((m.keeper l publishAt).bind (itemPieces find ps v) σ) os k
  | [], line, is, k, σ, v, os, hc, hv, hf => by
    rw [ItemPatternsCode] at hc
    rw [hc, length_cons_sub, itemPieces]
    cases ha : takeApart find [emptyName] 0 v with
    | error f => exact .of_fault (n := 0) (perform_decompose_error (hf ▸ ha))
    | ok parts =>
      have hl := List.length_eq_zero_iff.mp (takeApart_eq_ok ht hv ha).1
      subst hl
      exact .of_step (perform_decompose_ok (hf ▸ ha))
  | p :: ps, line, is, k, σ, v, os, hc, hv, hf => by
    obtain ⟨r, r', rfl, hc₁, hc₂⟩ := hc
    have hl₁ := PatternCode.length_lt p hc₁
    have hl₂ := ItemPatternsCode.length_lt ps hc₂
    have hn : (Instr.mk line (.decompose [consName] 2) :: r).length - k.length =
        r.length - k.length + 1 := by
      rw [List.length_cons]
      omega
    rw [hn, itemPieces]
    cases ha : takeApart find [consName] 2 v with
    | error f => exact .of_fault (perform_decompose_error (hf ▸ ha))
    | ok parts =>
      have hp : (m.resume σ (v :: os) line r).perform host (.decompose [consName] 2) =
          .running (m.resume σ (parts ++ os) line r) := perform_decompose_ok (hf ▸ ha)
      obtain ⟨hlp, hs⟩ := takeApart_eq_ok ht hv ha
      obtain ⟨head, tail, rfl⟩ := List.length_eq_two.mp hlp
      obtain ⟨hh, htl, _⟩ := hs
      have hk : r.length - k.length + 1 = 1 + (r.length - r'.length + (r'.length - k.length)) := by
        omega
      rw [hk]
      refine (Machine.Passes.of_step hp).trans
        ((PatternCode.passes ht p hc₁ hh hf).bind_andThen fun σ' hσ => ?_)
      exact ItemPatternsCode.passes ht ps hc₂ htl ((Keeper.findType_bind hσ).trans hf)

theorem PatternsCode.passes (ht : SoundTypes κ find) :
    (ps : List Pattern) → {line : Nat} → {is k : List Instr} → {σ : Store} → {vs : List Value} →
      {os : List Value} → PatternsCode l publishAt ps line is k → vs.length = ps.length →
      SoundAll κ P vs → (σ.root m.frame.closure.home).findType = find →
      m.Passes host (is.length - k.length) σ (vs ++ os) is
        ((m.keeper l publishAt).bind (patternPieces find ps vs) σ) os k
  | [], line, is, k, σ, vs, os, hc, hl, _, _ => by
    rw [PatternsCode] at hc
    have hv := List.length_eq_zero_iff.mp hl
    subst hc hv
    rw [Nat.sub_self]
    exact .refl
  | p :: ps, line, is, k, σ, vs, os, hc, hl, hv, hf => by
    obtain ⟨r, hc₁, hc₂⟩ := hc
    have hl₁ := PatternCode.length_lt p hc₁
    have hl₂ := PatternsCode.length_le ps hc₂
    have hn : is.length - k.length = is.length - r.length + (r.length - k.length) := by omega
    cases vs with
    | nil => simp at hl
    | cons v vs =>
      rw [hn, patternPieces]
      refine (PatternCode.passes ht p hc₁ hv.1 hf).bind_andThen fun σ' hσ => ?_
      exact PatternsCode.passes ht ps hc₂ (by simpa using hl) hv.2
        ((Keeper.findType_bind hσ).trans hf)

end

end

end MatchLang
