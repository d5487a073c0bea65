import MatchLang.Proofs.Namespace.Growth
import MatchLang.Proofs.Value.Sound

/-! The tree of names that every module starts with. -/

namespace MatchLang

theorem Table.mem_of_get? {α : Type} {t : List (String × α)} {name : String} {a : α}
    (h : Table.get? t name = some a) : (name, a) ∈ t := by
  induction t with
  | nil => simp [get?_nil] at h
  | cons e t ih =>
    rw [get?_cons] at h
    by_cases he : name = e.1
    · rw [if_pos he, Option.some.injEq] at h
      rw [he, ← h]
      exact List.mem_cons_self
    · rw [if_neg he] at h
      exact List.mem_cons_of_mem _ (ih h)

theorem seed_children : (builtins.seed (.empty true)).children = [] := rfl

theorem extends_seed : (Namespace.empty true).Extends (builtins.seed (.empty true)) :=
  .of_children rfl fun n => by rw [Namespace.child?, seed_children, Namespace.child?]; rfl

theorem seed_at? {path : List String} {ns : Namespace}
    (h : (builtins.seed (.empty true)).at? path = some ns) :
    path = [] ∧ ns = builtins.seed (.empty true) := by
  cases path with
  | nil => exact ⟨rfl, by simpa [Namespace.at?] using h.symm⟩
  | cons name path =>
    rw [Namespace.at?_cons, Namespace.child?, seed_children] at h
    cases h

theorem soundTypes_seed : SoundTypes builtinRegistry (builtins.seed (.empty true)).findType := by
  intro path t h
  obtain ⟨n, _, ht⟩ := Namespace.findType_eq_ok.mp h
  obtain ⟨ns, hn, ht⟩ := Option.bind_eq_some_iff.mp ht
  obtain ⟨_, rfl⟩ := seed_at? hn
  exact seed_types_sound (Table.mem_of_get? ht)

theorem seed_findType_cons :
    (builtins.seed (.empty true)).findType ["::"] = .ok (.case builtins.cons) := rfl

theorem seed_findType_empty :
    (builtins.seed (.empty true)).findType ["Empty"] = .ok (.case builtins.empty) := rfl

end MatchLang
