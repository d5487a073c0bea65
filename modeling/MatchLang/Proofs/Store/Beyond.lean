import Mathlib.Logic.Relation
import MatchLang.Proofs.Machine.Activations

/-! What is found in a store and the scopes around a scope, and what is left of it when a store has only been added
to. -/

namespace MatchLang

namespace Store

/-- The scope around a scope. -/
def parent? (σ : Store) (scope : Nat) : Option Nat :=
  σ.scopes[scope]?.bind (·.parent)

/-- A store that has been added to: the roots are as they were, and so is every scope that was there. -/
structure Beyond (σ τ : Store) : Prop where
  size : σ.scopes.size ≤ τ.scopes.size
  slots : ∀ t n, t < σ.scopes.size → τ.slot? t n = σ.slot? t n
  parents : ∀ t, t < σ.scopes.size → τ.parent? t = σ.parent? t
  roots : τ.roots = σ.roots

variable {σ τ υ : Store} {t p n scope slot : Nat} {v : Value} {parent : Option Nat}

namespace Beyond

theorem refl (σ : Store) : σ.Beyond σ :=
  ⟨Nat.le_refl _, fun _ _ _ => rfl, fun _ _ => rfl, rfl⟩

theorem trans (h : σ.Beyond τ) (h' : τ.Beyond υ) : σ.Beyond υ where
  size := Nat.le_trans h.size h'.size
  slots t n ht := (h'.slots t n (Nat.lt_of_lt_of_le ht h.size)).trans (h.slots t n ht)
  parents t ht := (h'.parents t (Nat.lt_of_lt_of_le ht h.size)).trans (h.parents t ht)
  roots := h'.roots.trans h.roots

theorem root (h : σ.Beyond τ) (r : Nat) : τ.root r = σ.root r := by
  rw [Store.root, h.roots, ← Store.root]

end Beyond

theorem parent?_save : (σ.save scope slot v).parent? t = σ.parent? t := by
  unfold parent? save
  rw [Array.getElem?_modify]
  split
  · rename_i ht
    subst ht
    cases σ.scopes[scope]? <;> rfl
  · rfl

theorem parent?_newScope (ht : t < σ.scopes.size) : (σ.newScope parent).2.parent? t = σ.parent? t := by
  unfold parent? newScope
  rw [Array.getElem?_push, if_neg (Nat.ne_of_lt ht)]

theorem parent?_newScope_self : (σ.newScope parent).2.parent? σ.scopes.size = parent := by
  unfold parent? newScope
  rw [Array.getElem?_push, if_pos rfl]
  rfl

theorem slot?_size (ht : σ.scopes.size ≤ t) : σ.slot? t n = none := by
  unfold slot?
  rw [Array.getElem?_eq_none ht]
  rfl

theorem Beyond.newScope : σ.Beyond (σ.newScope parent).2 where
  size := by
    rw [size_newScope]
    exact Nat.le_succ _
  slots _ _ _ := slot?_newScope
  parents _ ht := parent?_newScope ht
  roots := rfl

/-- What is saved to a scope that was not there. -/
theorem Beyond.save (h : σ.Beyond τ) (hs : σ.scopes.size ≤ scope) : σ.Beyond (τ.save scope slot v) where
  size := by
    rw [size_save]
    exact h.size
  slots t n ht := by
    rw [slot?_save, if_neg fun he => ?_]
    · exact h.slots t n ht
    · exact absurd ht (Nat.not_lt.mpr (he.1 ▸ hs))
  parents t ht := by
    rw [parent?_save]
    exact h.parents t ht
  roots := h.roots

theorem Beyond.newIdentity (h : σ.Beyond τ) : σ.Beyond τ.newIdentity.2 :=
  ⟨h.size, h.slots, h.parents, h.roots⟩

theorem lookupFrom_mono {scopes : Array Scope} {i j : Nat} (h : lookupFrom scopes i t n = some v)
    (hij : i ≤ j) : lookupFrom scopes j t n = some v := by
  induction i generalizing j t with
  | zero => cases h
  | succ i ih =>
    obtain ⟨j, rfl⟩ := Nat.exists_eq_add_of_lt (Nat.lt_of_succ_le hij)
    rw [lookupFrom] at h ⊢
    cases hs : scopes[t]? with
    | none =>
      rw [hs] at h
      cases h
    | some s =>
      rw [hs] at h
      simp only at h ⊢
      cases hg : s.get? n with
      | some w =>
        rw [hg] at h
        exact h
      | none =>
        rw [hg] at h
        obtain ⟨p, hp, hl⟩ := Option.bind_eq_some_iff.mp h
        exact Option.bind_eq_some_iff.mpr ⟨p, hp, ih hl (Nat.le_add_right i j)⟩

/-- What a scope does not have is found in the one around it. -/
theorem lookup_parent (h : σ.slot? t n = none) (hp : σ.parent? t = some p) (hlt : p < t)
    (hv : σ.lookup p n = some v) : σ.lookup t n = some v := by
  unfold slot? at h
  unfold parent? at hp
  obtain ⟨s, hs, hp⟩ := Option.bind_eq_some_iff.mp hp
  rw [hs, Option.bind_some] at h
  rw [lookup, lookupFrom, hs]
  simp only [h, hp, Option.bind_some]
  exact lookupFrom_mono hv hlt

end Store

/-- No scope gets another one around it. -/
theorem Activity.Moves.parent {a a' : Activity} {t : Nat} (hm : Moves a a') (ht : t < a.scopes.size) :
    a'.scopes[t]?.bind (·.parent) = a.scopes[t]?.bind (·.parent) ∧ t < a'.scopes.size := by
  have hpush : ∀ {σ : Array Scope} {s : Scope}, t < σ.size →
      (σ.push s)[t]?.bind (·.parent) = σ[t]?.bind (·.parent) ∧ t < (σ.push s).size := by
    intro σ s ht
    rw [Array.getElem?_push, if_neg (Nat.ne_of_lt ht), Array.size_push]
    exact ⟨rfl, Nat.lt_succ_of_lt ht⟩
  cases hm with
  | @saves σ b bs slot v =>
    show (σ.modify b.scope _)[t]?.bind _ = _ ∧ t < (σ.modify b.scope _).size
    rw [Array.getElem?_modify, Array.size_modify]
    refine ⟨?_, ht⟩
    split
    · cases σ[t]? <;> rfl
    · rfl
  | begins c => exact hpush ht
  | loads c _ => exact hpush ht
  | leaves => exact ⟨rfl, ht⟩

theorem Machine.step_parent {host : Host} {m m' : Machine} {t : Nat} (hs : m.step host = .running m')
    (ht : t < m.store.scopes.size) : m'.store.parent? t = m.store.parent? t := by
  suffices h : ∀ a : Activity, Relation.ReflTransGen Activity.Moves m.activity a →
      a.scopes[t]?.bind (·.parent) = m.store.parent? t ∧ t < a.scopes.size from
    (h _ (step_moves hs)).1
  intro a ha
  induction ha with
  | refl => exact ⟨rfl, ht⟩
  | tail _ hm ih =>
    obtain ⟨he, hlt⟩ := hm.parent ih.2
    exact ⟨he.trans ih.1, hlt⟩

/-! The scopes around a scope. A scope is made after the one around it, so what is looked up in a scope is found
in the first one of those around it that has it. -/

namespace Store

/-- From a scope to itself and to those around it. -/
def Outward (σ : Store) : Nat → Nat → Prop :=
  Relation.ReflTransGen fun s p => σ.parent? s = some p

variable {σ τ : Store} {s t t' n p i k : Nat} {v : Value}

/-- Of two scopes around a third, one is around the other. -/
theorem Outward.total (h : σ.Outward s t) (h' : σ.Outward s t') : σ.Outward t t' ∨ σ.Outward t' t :=
  Relation.ReflTransGen.total_of_right_unique (fun _ _ _ hp hq => Option.some.inj (hp.symm.trans hq)) h h'

/-- Where nothing is around a scope there is no other scope around it. -/
theorem Outward.eq_of_none (ho : σ.Outward s t) (hp : σ.parent? s = none) : t = s := by
  cases ho.cases_head with
  | inl h => exact h.symm
  | inr h =>
    obtain ⟨u, hu, _⟩ := h
    rw [hp] at hu
    cases hu

theorem Outward.le (h : ∀ s p, σ.parent? s = some p → p < s) (ho : σ.Outward s t) : t ≤ s := by
  induction ho with
  | refl => exact Nat.le_refl _
  | tail _ hp ih => exact Nat.le_trans (Nat.le_of_lt (h _ _ hp)) ih

/-- The scopes around one that was there are as they were, if those that were there have kept their places. -/
theorem Outward.iff_of_parents (h : ∀ s p, σ.parent? s = some p → p < s)
    (hp : ∀ s < σ.scopes.size, τ.parent? s = σ.parent? s) (hs : s < σ.scopes.size) :
    τ.Outward s t ↔ σ.Outward s t := by
  induction s using Nat.strong_induction_on with
  | _ s ih =>
    rw [Outward, Outward, Relation.ReflTransGen.cases_head_iff, Relation.ReflTransGen.cases_head_iff]
    refine or_congr Iff.rfl (exists_congr fun u => ?_)
    rw [hp s hs]
    refine and_congr_right fun hu => ?_
    exact ih u (h s u hu) (Nat.lt_trans (h s u hu) hs)

/-- How far a value may be looked for does not matter, as long as it is far enough. -/
theorem lookupFrom_eq (h : ∀ s p, σ.parent? s = some p → p < s) (hk : i < k) :
    lookupFrom σ.scopes k i n = σ.lookup i n := by
  have hfrom : ∀ j k i, i < j → i < k → lookupFrom σ.scopes j i n = lookupFrom σ.scopes k i n := by
    intro j
    induction j with
    | zero => exact fun k i hj _ => absurd hj (Nat.not_lt_zero i)
    | succ j ih =>
      intro k i hj hk
      obtain ⟨k, rfl⟩ : ∃ l, k = l + 1 := Nat.exists_eq_add_one_of_ne_zero (Nat.ne_zero_of_lt hk)
      rw [lookupFrom, lookupFrom]
      cases hs : σ.scopes[i]? with
      | none => rfl
      | some s =>
        simp only
        cases s.get? n with
        | some v => rfl
        | none =>
          cases hp : s.parent with
          | none => rfl
          | some p =>
            have hlt : p < i := h i p (by rw [parent?, hs, Option.bind_some, hp])
            exact ih k p (by omega) (by omega)
  exact hfrom k (i + 1) i hk (Nat.lt_succ_self i)

/-- What a scope does not have is looked for in the one around it. -/
theorem lookup_outer (h : ∀ s p, σ.parent? s = some p → p < s) (hs : σ.slot? i n = none)
    (hp : σ.parent? i = some p) : σ.lookup i n = σ.lookup p n := by
  obtain ⟨s, hi, hparent⟩ := Option.bind_eq_some_iff.mp hp
  rw [slot?, hi, Option.bind_some] at hs
  rw [lookup, lookupFrom, hi]
  simp only [hs, hparent, Option.bind_some]
  exact lookupFrom_eq h (h i p hp)

/-- What is found is in the scope that was asked or in one around it. -/
theorem lookup_found (h : ∀ s p, σ.parent? s = some p → p < s) (hv : σ.lookup s n = some v) :
    ∃ t, σ.Outward s t ∧ σ.slot? t n = some v := by
  induction s using Nat.strong_induction_on with
  | _ s ih =>
    cases hs : σ.slot? s n with
    | some w =>
      rw [lookup_of_slot? hs] at hv
      exact ⟨s, .refl, hs.trans hv⟩
    | none =>
      cases hp : σ.parent? s with
      | some p =>
        rw [lookup_outer h hs hp] at hv
        obtain ⟨t, hout, ht⟩ := ih p (h s p hp) hv
        exact ⟨t, .head hp hout, ht⟩
      | none =>
        rw [lookup, lookupFrom] at hv
        rw [slot?] at hs
        rw [parent?] at hp
        cases hscope : σ.scopes[s]? with
        | none =>
          rw [hscope] at hv
          cases hv
        | some scope =>
          rw [hscope, Option.bind_some] at hs hp
          rw [hscope] at hv
          simp only [hs, hp, Option.bind_none] at hv
          cases hv

/-- What is in a scope around the one that was asked is found, or something in a scope before it. -/
theorem lookup_isSome (h : ∀ s p, σ.parent? s = some p → p < s) (hout : σ.Outward s t)
    (ht : σ.slot? t n = some v) : (σ.lookup s n).isSome := by
  induction hout using Relation.ReflTransGen.head_induction_on with
  | refl => exact Option.isSome_iff_exists.mpr ⟨v, lookup_of_slot? ht⟩
  | @head s p hp _ ih =>
    cases hs : σ.slot? s n with
    | some w => exact Option.isSome_iff_exists.mpr ⟨w, lookup_of_slot? hs⟩
    | none =>
      rw [lookup_outer h hs hp]
      exact ih

/-- A slot that one scope at most has among those around is looked up in that scope. -/
theorem lookup_only (h : ∀ s p, σ.parent? s = some p → p < s) (hout : σ.Outward s t)
    (honly : ∀ t', σ.Outward s t' → (σ.slot? t' n).isSome → t' = t) : σ.lookup s n = σ.slot? t n := by
  cases hl : σ.lookup s n with
  | some v =>
    obtain ⟨t', hout', ht'⟩ := lookup_found h hl
    rw [← honly t' hout' (Option.isSome_iff_exists.mpr ⟨v, ht'⟩), ht']
  | none =>
    cases ht : σ.slot? t n with
    | none => rfl
    | some v =>
      have hsome := lookup_isSome h hout ht
      rw [hl] at hsome
      cases hsome

end Store

end MatchLang
