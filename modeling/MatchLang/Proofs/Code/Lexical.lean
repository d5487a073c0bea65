import MatchLang.Proofs.Code.Units
import MatchLang.Proofs.Machine.Stack

/-! Slots and the nesting of units. Code reads lexically if a slot that it reads is saved by the unit that reads it
or by one around it, and a unit is shielded if none of the functions inside it saves to a slot of its own. -/

namespace MatchLang

/-- Code that makes a function with some other code. -/
def Code.Makes (c d : Code) : Prop :=
  ∃ line arity, .mk line (.loadFunction d arity) ∈ c.instrs

/-- Every slot that is read in a unit of the code, and not saved outside, is saved by that unit or by one around. -/
inductive Code.Lexical : (outside : Nat → Prop) → Code → Prop where
  | mk {outside : Nat → Prop} {c : Code} :
    (∀ line slot, .mk line (.loadLocal slot) ∈ c.instrs → outside slot.id ∨ c.Saves slot.id) →
    (∀ d, c.Makes d → Lexical (fun n => outside n ∨ c.Saves n) d) → Lexical outside c

/-- The code or a function in it saves to a slot. -/
def Code.SavesWithin (c : Code) (n : Nat) : Prop :=
  ∃ u, c.Holds u ∧ u.Saves n

/-- The functions in a unit leave its slots alone. -/
def Code.Shielded (c : Code) : Prop :=
  ∀ d n, c.Makes d → d.SavesWithin n → ¬ c.Saves n

/-- A unit that cannot begin again by itself. -/
def Code.Steady (c : Code) : Prop :=
  ∀ i ∈ c.instrs, ∀ argc, i.op ≠ .tailCall argc

/-- Code of a whole program: its slots are lexical, and it does not begin again by itself. -/
structure Code.Whole (c : Code) : Prop where
  lexical : c.Lexical fun _ => False
  shielded : c.EveryUnit Code.Shielded
  steady : c.Steady

namespace Code

variable {c d : Code} {outside outside' : Nat → Prop} {n : Nat}

theorem Lexical.mono (h : c.Lexical outside) (ho : ∀ n, outside n → outside' n) : c.Lexical outside' := by
  induction h generalizing outside' with
  | mk hr _ ih =>
    exact .mk (fun line slot hi => (hr line slot hi).imp_left (ho _)) fun d hd =>
      ih d hd fun n hn => hn.imp_left (ho n)

theorem Saves.within (h : c.Saves n) : c.SavesWithin n :=
  ⟨c, .self, h⟩

theorem Makes.holds (h : c.Makes d) : c.Holds d := by
  obtain ⟨line, arity, hi⟩ := h
  exact .makes .self hi

theorem SavesWithin.of_holds (h : d.SavesWithin n) (hd : c.Holds d) : c.SavesWithin n := by
  obtain ⟨u, hu, hn⟩ := h
  exact ⟨u, hd.trans hu, hn⟩

/-- What is saved within code is saved by the code itself or within a function that it makes. -/
theorem SavesWithin.cases_inner (h : c.SavesWithin n) : c.Saves n ∨ ∃ d, c.Makes d ∧ d.SavesWithin n := by
  obtain ⟨u, hu, hn⟩ := h
  rcases hu.cases_inner with rfl | ⟨line, d, arity, hi, hd⟩
  · exact .inl hn
  · exact .inr ⟨d, ⟨line, arity, hi⟩, u, hd, hn⟩

theorem Lexical.inner (h : c.Lexical outside) (hd : c.Makes d) : d.Lexical fun n => outside n ∨ c.Saves n := by
  cases h with
  | mk _ hi => exact hi d hd

theorem empty_whole : Code.empty.Whole where
  lexical := .mk (fun _ _ hi => by cases hi) fun d ⟨_, _, hi⟩ => by cases hi
  shielded := .of_inner (fun d n ⟨_, _, hi⟩ => by cases hi) fun _ _ _ hi => by cases hi
  steady i hi := by cases hi

theorem EverySlot.savesWithin {P : Slot → Prop} (h : c.EverySlot P) (hn : c.SavesWithin n) :
    ∃ slot, P slot ∧ slot.id = n := by
  obtain ⟨u, hu, hn⟩ := hn
  suffices hs : u.EverySlot P from hs.saves hn
  clear hn
  induction hu with
  | self => exact h
  | makes _ hi ih => exact Code.everySlot_iff.mp ih _ hi

end Code

end MatchLang
