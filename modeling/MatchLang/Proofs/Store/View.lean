import MatchLang.Machine.Store

/-! What a store holds: the value of a slot in a scope, and the root of a number. One lemma for each
change. -/

namespace MatchLang

theorem Scope.get?_set {s : Scope} {slot n : Nat} {v : Value} :
    (s.set slot v).get? n = if n = slot then some v else s.get? n := by
  obtain ⟨parent, slots⟩ := s
  simp only [get?, set]
  induction slots with
  | nil =>
    by_cases h : n = slot
    · simp [setSlot, h]
    · have hb : (n == slot) = false := by simp [h]
      simp [setSlot, List.lookup_cons, h, hb]
  | cons e slots ih =>
    obtain ⟨k, w⟩ := e
    by_cases hk : k = slot
    · subst hk
      by_cases h : n = k
      · simp [setSlot, h]
      · have hb : (n == k) = false := by simp [h]
        simp [setSlot, List.lookup_cons, h, hb]
    · by_cases hn : n = k
      · subst hn
        simp [setSlot, hk]
      · have hb : (n == k) = false := by simp [hn]
        simp only [setSlot, hk, if_false, List.lookup_cons, hb, ih]

namespace Store

variable {σ : Store} {i r t n scope slot : Nat} {ns : Namespace} {v : Value} {parent : Option Nat}
  {change : Namespace → Namespace}

/-- The value in a slot of one scope, without the scopes around it. -/
def slot? (σ : Store) (scope slot : Nat) : Option Value :=
  σ.scopes[scope]?.bind (·.get? slot)

theorem slot?_save :
    (σ.save scope slot v).slot? t n =
      if t = scope ∧ n = slot ∧ scope < σ.scopes.size then some v else σ.slot? t n := by
  by_cases ht : t = scope
  · subst ht
    by_cases hs : t < σ.scopes.size
    · by_cases hn : n = slot <;>
        simp [slot?, save, hs, hn, Array.getElem_modify, Scope.get?_set]
    · simp [slot?, save, hs]
  · simp [slot?, save, ht, Array.getElem?_modify, Ne.symm ht]

theorem size_save : (σ.save scope slot v).scopes.size = σ.scopes.size := by
  simp [save]

theorem slot?_newScope : (σ.newScope parent).2.slot? t n = σ.slot? t n := by
  unfold slot? newScope
  rw [Array.getElem?_push]
  by_cases ht : t = σ.scopes.size
  · simp [ht, Scope.get?]
  · simp [ht]

theorem size_newScope : (σ.newScope parent).2.scopes.size = σ.scopes.size + 1 := by
  simp [newScope]

/-- A scope comes before those around it. -/
theorem lookup_of_slot? {σ : Store} {scope n : Nat} {v : Value} (h : σ.slot? scope n = some v) :
    σ.lookup scope n = some v := by
  unfold slot? at h
  unfold lookup lookupFrom
  cases hs : σ.scopes[scope]? with
  | none => simp [hs] at h
  | some s =>
    rw [hs, Option.bind_some] at h
    simp only [h]

theorem lookup_eq_some (h : σ.lookup scope slot = some v) : ∃ t, σ.slot? t slot = some v := by
  have hf : ∀ k t, lookupFrom σ.scopes k t slot = some v → ∃ t, σ.slot? t slot = some v := by
    intro k
    induction k with
    | zero => exact nofun
    | succ k ih =>
      intro t ht
      rw [lookupFrom] at ht
      cases hs : σ.scopes[t]? with
      | none =>
        rw [hs] at ht
        cases ht
      | some s =>
        rw [hs] at ht
        cases hg : s.get? slot with
        | some w =>
          simp only [hg, Option.some.injEq] at ht
          exact ⟨t, by rw [slot?, hs, Option.bind_some, hg, ht]⟩
        | none =>
          simp only [hg] at ht
          obtain ⟨p, _, hp⟩ := Option.bind_eq_some_iff.mp ht
          exact ih p hp
  exact hf _ _ h

theorem root_updateRoot :
    (σ.updateRoot r change).root i =
      if i = r ∧ r < σ.roots.size then change (σ.root r) else σ.root i := by
  by_cases hi : i = r
  · subst hi
    by_cases h : i < σ.roots.size <;>
      simp [root, updateRoot, Array.getD, h, Array.getElem_modify]
  · simp [root, updateRoot, Array.getD, hi, Array.getElem_modify, Ne.symm hi]

theorem root_setRoot :
    (σ.setRoot r ns).root i = if i = r ∧ r < σ.roots.size then ns else σ.root i :=
  root_updateRoot

/-- A root that is set to what it is leaves the store as it is. -/
theorem setRoot_root : σ.setRoot r (σ.root r) = σ := by
  have ha : (σ.roots.modify r fun _ => σ.root r) = σ.roots := by
    refine Array.ext_getElem? fun i => ?_
    rw [Array.getElem?_modify]
    by_cases hi : r = i
    · subst hi
      cases hr : σ.roots[r]? with
      | none => simp
      | some ns => simp [root, hr]
    · rw [if_neg hi]
  show { σ with roots := _ } = σ
  rw [ha]

theorem size_updateRoot : (σ.updateRoot r change).roots.size = σ.roots.size := by
  simp [updateRoot]

theorem size_setRoot : (σ.setRoot r ns).roots.size = σ.roots.size :=
  size_updateRoot

theorem root_newRoot :
    (σ.newRoot ns).2.root i = if i = σ.roots.size then ns else σ.root i := by
  unfold root newRoot
  by_cases hi : i = σ.roots.size
  · simp [hi, Array.getD]
  · by_cases hlt : i < σ.roots.size
    · simp [Array.getD, hi, hlt, Nat.lt_succ_of_lt hlt, Array.getElem_push]
    · have hn : ¬ i < σ.roots.size + 1 := by omega
      simp [Array.getD, hi, hlt, hn]

theorem root_save : (σ.save scope slot v).root i = σ.root i := rfl

end Store

end MatchLang
