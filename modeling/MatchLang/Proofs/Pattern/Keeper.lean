import MatchLang.Proofs.Namespace.Publish
import MatchLang.Proofs.Pattern.Pieces

/-! Keeping the pieces of a value in the order of the pattern: each in the slot of its name, and
under a path before that if the names are published. -/

namespace MatchLang

/-- Where the names of a pattern are kept: in slots of a scope, and under a path of a root if they
are published. -/
structure Keeper where
  links : Links
  publishAt : Option (List String)
  root : Nat
  scope : Nat

namespace Keeper

variable (w : Keeper)

def assign (p : Piece) (σ : Store) : Store :=
  match w.links.get? p.id with
  | some slot => σ.save w.scope slot.id p.value
  | none => σ

/-- The store with a value kept under a name; the name is published first. -/
def keep (p : Piece) (σ : Store) : Except Fault Store :=
  match w.publishAt with
  | some path =>
    (Machine.publishIn (σ.root w.root) path p.name p.value).map fun ns =>
      w.assign p (σ.setRoot w.root ns)
  | none => .ok (w.assign p σ)

/-- The store after the last value kept, and what has come up then. -/
def keepAll : List Piece → Store → Store × Option Fault
  | [], σ => (σ, none)
  | p :: ps, σ =>
    match w.keep p σ with
    | .ok σ' => keepAll ps σ'
    | .error f => (σ, some f)

def bind (ps : Pieces) (σ : Store) : Store × Option Fault :=
  ((w.keepAll ps.found σ).1, (w.keepAll ps.found σ).2.or ps.fault)

end Keeper

section

variable {w : Keeper} {σ σ' : Store} {ps qs : List Piece} {a b : Pieces} {f : Fault}

theorem Keeper.keepAll_append :
    w.keepAll (ps ++ qs) σ =
      match w.keepAll ps σ with
      | (σ', none) => w.keepAll qs σ'
      | (σ', some f) => (σ', some f) := by
  induction ps generalizing σ with
  | nil => rfl
  | cons p ps ih =>
    cases h : w.keep p σ with
    | error f => simp [keepAll, h]
    | ok σ' => simp [keepAll, h, ih]

theorem Keeper.bind_andThen_ok (h : w.bind a σ = (σ', none)) :
    w.bind (a.andThen b) σ = w.bind b σ' := by
  simp only [bind, Prod.mk.injEq, Option.or_eq_none_iff] at h
  obtain ⟨rfl, hk, ha⟩ := h
  have he : w.keepAll a.found σ = ((w.keepAll a.found σ).1, none) := by rw [← hk]
  simp only [bind, Pieces.andThen, ha, keepAll_append]
  rw [he]

theorem Keeper.bind_andThen_fault (h : w.bind a σ = (σ', some f)) :
    w.bind (a.andThen b) σ = (σ', some f) := by
  rw [← h]
  cases ha : a.fault with
  | some g => simp [bind, Pieces.andThen, ha]
  | none =>
    simp only [bind, ha, Option.or_none, Prod.mk.injEq] at h
    simp only [bind, Pieces.andThen, ha, keepAll_append]
    have he : w.keepAll a.found σ = (σ', some f) := by rw [← h.1, ← h.2]
    rw [he]
    rfl

/-- Keeping a value leaves all types alone. -/
theorem Keeper.findType_keep {p : Piece} {i : Nat} (h : w.keep p σ = .ok σ') :
    (σ'.root i).findType = (σ.root i).findType := by
  have ha : ∀ σ : Store, (w.assign p σ).root i = σ.root i := by
    intro σ
    unfold assign
    split
    · exact Store.root_save
    · rfl
  unfold keep at h
  cases hp : w.publishAt with
  | none =>
    simp only [hp, Except.ok.injEq] at h
    rw [← h, ha]
  | some path =>
    simp only [hp] at h
    cases hn : Machine.publishIn (σ.root w.root) path p.name p.value with
    | error f => simp [hn, Except.map] at h
    | ok ns =>
      simp only [hn, Except.map, Except.ok.injEq] at h
      rw [← h, ha, Store.findType_setRoot hn]

theorem Keeper.findType_keepAll {i : Nat} :
    ((w.keepAll ps σ).1.root i).findType = (σ.root i).findType := by
  induction ps generalizing σ with
  | nil => rfl
  | cons p ps ih =>
    cases h : w.keep p σ with
    | error f => simp [keepAll, h]
    | ok σ' =>
      simp only [keepAll, h]
      rw [ih, findType_keep h]

theorem Keeper.findType_bind {i : Nat} (h : w.bind a σ = (σ', none)) :
    (σ'.root i).findType = (σ.root i).findType := by
  have hs : (w.keepAll a.found σ).1 = σ' := congrArg Prod.fst h
  rw [← hs]
  exact w.findType_keepAll

end

end MatchLang
