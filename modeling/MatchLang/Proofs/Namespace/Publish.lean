import MatchLang.Machine.Step
import MatchLang.Proofs.Store.View

/-! What publishing a value leaves alone: the types of a tree of names, and its namespaces. -/

namespace MatchLang

namespace Namespace

variable {ns c : Namespace} {path p walked : List String} {name n : String} {v : Value}

theorem child?_setChild : (ns.setChild name c).child? n = if n = name then some c else ns.child? n :=
  Table.get?_set _ _ _ _

theorem at?_cons : ns.at? (name :: path) = (ns.child? name).bind (·.at? path) := rfl

theorem at?_setChild : (ns.setChild name c).at? (n :: path) =
    if n = name then c.at? path else ns.at? (n :: path) := by
  rw [at?_cons, child?_setChild]
  split <;> rfl

theorem findFrom_eq_ok : ns.findFrom walked path = .ok c ↔ ns.at? path = some c := by
  induction path generalizing ns walked with
  | nil => simp [findFrom, at?]
  | cons name path ih =>
    rw [at?_cons]
    cases h : ns.child? name with
    | none => simp [findFrom, h]
    | some d => simp [findFrom, h, ih]

theorem find_eq_ok : ns.find path = .ok c ↔ ns.at? path = some c :=
  findFrom_eq_ok

theorem findType_eq_ok {t : DataType} :
    ns.findType path = .ok t ↔ ∃ n, path.getLast? = some n ∧ ns.typeAt? path.dropLast n = some t := by
  unfold findType
  cases hl : path.getLast? with
  | none => simp
  | some n => cases ht : ns.typeAt? path.dropLast n <;> simp [ht]

theorem findValue_eq_ok :
    ns.findValue path = .ok v ↔ ∃ n, path.getLast? = some n ∧ ns.valueAt? path.dropLast n = some v := by
  unfold findValue
  cases hl : path.getLast? with
  | none => simp
  | some n => cases hv : ns.valueAt? path.dropLast n <;> simp [hv]

/-- A change at a path that leaves alone what is seen of a namespace, and its children, leaves alone what is seen
of all namespaces. -/
theorem at?_updateAt {change : Namespace → Namespace} {view : Namespace → α}
    (hc : ∀ ns n, (change ns).child? n = ns.child? n)
    (hv : ∀ ns, view (change ns) = view ns) (hs : ∀ ns n c, view (ns.setChild n c) = view ns) :
    ((ns.updateAt change path).at? p).map view = (ns.at? p).map view := by
  induction path generalizing ns p with
  | nil => cases p <;> simp [updateAt, at?, hc, hv]
  | cons name path ih =>
    cases h : ns.child? name with
    | none => simp [updateAt, h]
    | some d =>
      cases p with
      | nil => simp [updateAt, h, at?, hs]
      | cons q p =>
        rw [updateAt, h, at?_setChild]
        by_cases hq : q = name
        · subst hq
          rw [if_pos rfl, ih, at?_cons, h, Option.bind_some]
        · rw [if_neg hq]

theorem typeAt?_updateAt {change : Namespace → Namespace}
    (ht : ∀ ns n, (change ns).type? n = ns.type? n)
    (hc : ∀ ns n, (change ns).child? n = ns.child? n) :
    (ns.updateAt change path).typeAt? p n = ns.typeAt? p n := by
  have h : ((ns.updateAt change path).at? p).map (·.type? n) = (ns.at? p).map (·.type? n) :=
    at?_updateAt hc (ht · n) fun _ _ _ => rfl
  simpa [typeAt?, Option.bind_map] using congrArg (·.bind id) h

theorem at?_updateAt_isSome {change : Namespace → Namespace}
    (hc : ∀ ns n, (change ns).child? n = ns.child? n) :
    ((ns.updateAt change path).at? p).isSome = (ns.at? p).isSome := by
  have h : ((ns.updateAt change path).at? p).map (fun _ => ()) = (ns.at? p).map fun _ => () :=
    at?_updateAt hc (fun _ => rfl) fun _ _ _ => rfl
  simpa using congrArg Option.isSome h

theorem findType_updateAt {change : Namespace → Namespace}
    (ht : ∀ ns n, (change ns).type? n = ns.type? n)
    (hc : ∀ ns n, (change ns).child? n = ns.child? n) :
    (ns.updateAt change path).findType = ns.findType := by
  funext p
  unfold findType
  have h : (ns.updateAt change path).typeAt? p.dropLast = ns.typeAt? p.dropLast :=
    funext fun n => typeAt?_updateAt ht hc
  rw [h]

end Namespace

open Machine in
/-- A value is published under a path that is there. -/
theorem publishIn_eq_ok {ns ns' : Namespace} {path : List String} {name : String} {v : Value} :
    publishIn ns path name v = .ok ns' ↔
      (ns.at? path).isSome ∧ ns' = ns.updateAt (·.setValue name v) path := by
  unfold publishIn
  cases h : ns.find path with
  | error f =>
    have hn : ns.at? path = none := by
      cases ha : ns.at? path with
      | none => rfl
      | some c =>
        rw [Namespace.find_eq_ok.mpr ha] at h
        cases h
    simp [Except.map, hn]
  | ok c => simp [Except.map, Namespace.find_eq_ok.mp h, eq_comm]

/-- A path that is there stays when a value is published. -/
theorem at?_setValue_isSome {ns : Namespace} {path p : List String} {name : String} {v : Value} :
    ((ns.updateAt (·.setValue name v) path).at? p).isSome = (ns.at? p).isSome :=
  Namespace.at?_updateAt_isSome fun _ _ => rfl

open Machine in
theorem findType_publishIn {ns ns' : Namespace} {path : List String} {name : String} {v : Value}
    (h : publishIn ns path name v = .ok ns') : ns'.findType = ns.findType := by
  obtain ⟨_, rfl⟩ := publishIn_eq_ok.mp h
  exact Namespace.findType_updateAt (fun _ _ => rfl) fun _ _ => rfl

namespace Store

variable {σ : Store} {i r : Nat} {ns : Namespace} {v : Value}

open Machine in
/-- Publishing in one root leaves the types of all roots alone. -/
theorem findType_setRoot {path : List String} {name : String}
    (h : publishIn (σ.root r) path name v = .ok ns) :
    ((σ.setRoot r ns).root i).findType = (σ.root i).findType := by
  rw [root_setRoot]
  by_cases hi : i = r ∧ r < σ.roots.size
  · rw [if_pos hi, hi.1, findType_publishIn h]
  · rw [if_neg hi]

end Store

end MatchLang
