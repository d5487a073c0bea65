import MatchLang.Code

/-! The units of some code: the code itself, and the bodies of the functions that it makes. A unit runs
forward where all its jumps do. -/

namespace MatchLang

/-- Code contains a unit: it is the unit itself, or makes a function in whose code the unit is. -/
inductive Code.Holds (c : Code) : Code → Prop where
  | self : Holds c c
  | makes {d e : Code} {line arity : Nat} : Holds c d → .mk line (.loadFunction e arity) ∈ d.instrs →
    Holds c e

/-- All units of some code have a property. -/
def Code.EveryUnit (P : Code → Prop) (c : Code) : Prop :=
  ∀ u, c.Holds u → P u

namespace Code

variable {P : Code → Prop} {c d u : Code} {line arity : Nat}

theorem Holds.trans (h : c.Holds d) (h' : d.Holds u) : c.Holds u := by
  induction h' with
  | self => exact h
  | makes _ hi ih => exact .makes ih hi

/-- A unit other than the code itself is in a function that the code makes. -/
theorem Holds.cases_inner (h : c.Holds u) :
    u = c ∨ ∃ line e arity, .mk line (.loadFunction e arity) ∈ c.instrs ∧ e.Holds u := by
  induction h with
  | self => exact .inl rfl
  | @makes d e line arity _ hi ih =>
    rcases ih with rfl | ⟨line', e', arity', hi', hd⟩
    · exact .inr ⟨line, e, arity, hi, .self⟩
    · exact .inr ⟨line', e', arity', hi', hd.makes hi⟩

theorem EveryUnit.self (h : c.EveryUnit P) : P c :=
  h c .self

theorem EveryUnit.inner (h : c.EveryUnit P) (hi : .mk line (.loadFunction d arity) ∈ c.instrs) :
    d.EveryUnit P :=
  fun u hu => h u ((Holds.self.makes hi).trans hu)

theorem EveryUnit.of_inner (hc : P c)
    (hi : ∀ line d arity, .mk line (.loadFunction d arity) ∈ c.instrs → d.EveryUnit P) :
    c.EveryUnit P := by
  intro u hu
  rcases hu.cases_inner with rfl | ⟨line, d, arity, hmem, hd⟩
  · exact hc
  · exact hi line d arity hmem u hd

end Code

/-- The label that an instruction may go on from. -/
def Op.label? : Op → Option Nat
  | .jump label => some label
  | .jumpIf _ label => some label
  | _ => none

/-- Every jump of the unit leads to an instruction that stands behind it. -/
def Code.Forward (c : Code) : Prop :=
  ∀ (i : Nat) instr label, c.instrs[i]? = some instr → instr.op.label? = some label →
    ∃ target, c.targets[label]? = some target ∧ i < target ∧ target < c.length

end MatchLang
