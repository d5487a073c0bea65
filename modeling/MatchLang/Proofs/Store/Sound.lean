import MatchLang.Machine.Load
import MatchLang.Proofs.Code.Balance
import MatchLang.Proofs.Namespace.Growth
import MatchLang.Proofs.Namespace.Sound
import MatchLang.Proofs.Store.View

/-! Stores that hold well-formed values only, with the functions among them balanced. New data types
extend the registry of cases, whose numbers have not been given out before. -/

namespace MatchLang

namespace Registry

variable {κ : Registry} {id i k : Nat} {cases : List CaseShape} {c : Case}

/-- The cases of a new data type, numbered from `id` on, behind all that are registered. -/
def enter (κ : Registry) (id : Nat) (cases : List CaseShape) : Registry :=
  fun i => if id ≤ i then (numberCases id cases)[i - id]? else κ i

theorem length_numberCases : (numberCases id cases).length = cases.length := by
  induction cases generalizing id with
  | nil => rfl
  | cons s cases ih => rw [numberCases, List.length_cons, ih, List.length_cons]

theorem id_numberCases (h : (numberCases id cases)[k]? = some c) : c.id = id + k := by
  induction cases generalizing id k with
  | nil => simp [numberCases] at h
  | cons s cases ih =>
    rw [numberCases] at h
    cases k with
    | zero =>
      rw [List.getElem?_cons_zero, Option.some.injEq] at h
      rw [← h]
      rfl
    | succ k =>
      rw [List.getElem?_cons_succ] at h
      rw [ih h]
      omega

theorem enter_has (hf : ∀ i, id ≤ i → κ i = none) (h : κ.Has c) : (κ.enter id cases).Has c := by
  have hlt : ¬ id ≤ c.id := by
    intro hle
    rw [Has, hf c.id hle] at h
    cases h
  rw [Has, enter, if_neg hlt]
  exact h

theorem enter_new (h : c ∈ numberCases id cases) : (κ.enter id cases).Has c := by
  obtain ⟨k, hk⟩ := List.getElem?_of_mem h
  have hi := id_numberCases hk
  have hle : id ≤ c.id := by omega
  rw [Has, enter, if_pos hle, hi, Nat.add_sub_cancel_left]
  exact hk

theorem enter_fresh (hi : id + cases.length ≤ i) : κ.enter id cases i = none := by
  have hle : id ≤ i := by omega
  rw [enter, if_pos hle, List.getElem?_eq_none_iff, length_numberCases]
  omega

end Registry

/-- Everything in the store is well-formed, and no case has a number yet to be given out. -/
structure Store.Sound (κ : Registry) (σ : Store) : Prop where
  fresh : ∀ i, σ.nextIdentity ≤ i → κ i = none
  builtin : ∀ c, builtinRegistry.Has c → κ.Has c
  slots : ∀ t n v, σ.slot? t n = some v → v.Sound κ Closure.Balanced
  roots : ∀ r, (σ.root r).Sound κ Closure.Balanced

/-- A well-formed value of a run. -/
abbrev Value.Ok (κ : Registry) (v : Value) : Prop :=
  v.Sound κ Closure.Balanced

namespace Store

variable {κ κ' : Registry} {σ : Store} {r t n scope slot : Nat} {ns : Namespace} {v : Value}
  {parent : Option Nat} {change : Namespace → Namespace}

theorem initial_sound (console : Console) : (initial console).Sound builtinRegistry where
  fresh := by
    intro i hi
    have hle : 5 ≤ i := hi
    exact List.getElem?_eq_none hle
  builtin _ h := h
  slots _ _ _ h := by simp [slot?, initial] at h
  roots r := by
    have he : (initial console).root r = .empty true := by simp [root, initial]
    rw [he]
    exact Namespace.empty_sound

namespace Sound

theorem lookup (h : σ.Sound κ) (hv : σ.lookup scope slot = some v) : v.Ok κ := by
  obtain ⟨t, ht⟩ := lookup_eq_some hv
  exact h.slots t slot v ht

theorem save (h : σ.Sound κ) (hv : v.Ok κ) : (σ.save scope slot v).Sound κ where
  fresh := h.fresh
  builtin := h.builtin
  slots t n w hw := by
    rw [slot?_save] at hw
    split at hw
    · exact Option.some.inj hw ▸ hv
    · exact h.slots t n w hw
  roots := h.roots

theorem newScope (h : σ.Sound κ) : (σ.newScope parent).2.Sound κ where
  fresh := h.fresh
  builtin := h.builtin
  slots t n w hw := h.slots t n w (slot?_newScope ▸ hw)
  roots := h.roots

theorem newIdentity (h : σ.Sound κ) : σ.newIdentity.2.Sound κ where
  fresh i hi := h.fresh i (Nat.le_of_succ_le hi)
  builtin := h.builtin
  slots := h.slots
  roots := h.roots

theorem updateRoot (h : σ.Sound κ) (hc : (change (σ.root r)).Sound κ Closure.Balanced) :
    (σ.updateRoot r change).Sound κ where
  fresh := h.fresh
  builtin := h.builtin
  slots := h.slots
  roots i := by
    rw [root_updateRoot]
    split
    · exact hc
    · exact h.roots i

theorem setRoot (h : σ.Sound κ) (hn : ns.Sound κ Closure.Balanced) : (σ.setRoot r ns).Sound κ :=
  h.updateRoot hn

theorem newRoot (h : σ.Sound κ) (hn : ns.Sound κ Closure.Balanced) : (σ.newRoot ns).2.Sound κ where
  fresh := h.fresh
  builtin := h.builtin
  slots := h.slots
  roots i := by
    rw [root_newRoot]
    split
    · exact hn
    · exact h.roots i

theorem newSeededRoot (h : σ.Sound κ) : σ.newSeededRoot.2.Sound κ :=
  h.newRoot ((seed_sound Closure.Balanced).mono h.builtin fun _ h => h)

/-- What is neither a value nor a name may change. -/
theorem congr {τ : Store} (h : σ.Sound κ) (hs : τ.scopes = σ.scopes) (hr : τ.roots = σ.roots)
    (hi : σ.nextIdentity ≤ τ.nextIdentity) : τ.Sound κ where
  fresh i hle := h.fresh i (Nat.le_trans hi hle)
  builtin := h.builtin
  slots t n v hv := h.slots t n v (by rwa [slot?, hs] at hv)
  roots r := by
    rw [root, hr]
    exact h.roots r

/-- With a new data type the registry is extended. -/
theorem enter {cases : List CaseShape} (h : σ.Sound κ) :
    Store.Sound (κ.enter σ.nextIdentity cases)
      { σ with nextIdentity := σ.nextIdentity + cases.length } where
  fresh _ hi := Registry.enter_fresh hi
  builtin c hc := Registry.enter_has h.fresh (h.builtin c hc)
  slots t n v hv := (h.slots t n v hv).mono (fun _ => Registry.enter_has h.fresh) fun _ h => h
  roots r := (h.roots r).mono (fun _ => Registry.enter_has h.fresh) fun _ h => h

end Sound

end Store

end MatchLang
