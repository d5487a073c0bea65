import MatchLang.Code.Builder

/-! The state of lowering to instructions: the unit being built and the next free slot. -/

namespace MatchLang

structure Emitting where
  unit : Builder
  nextSlot : Nat

abbrev Emitter := StateT Emitting (Except CompileError)

def emit (line : Nat) (op : Op) : Emitter Unit :=
  modify fun s => { s with unit := s.unit.emit line op }

def freshLabel (line : Nat) : Emitter Nat :=
  modifyGet fun s =>
    let (label, unit) := s.unit.freshLabel line
    (label, { s with unit })

def attach (label line : Nat) : Emitter Unit := do
  let s ← get
  let unit ← s.unit.attach label line
  set { s with unit }

def reject (failure : CompileFailure) (line : Nat) : Emitter α :=
  throw ⟨failure, line⟩

/-- A slot that no name of the program has. -/
def freshSlot (name : String) (line : Nat) : Emitter Slot :=
  modifyGet fun s => ({ id := s.nextSlot, name, line }, { s with nextSlot := s.nextSlot + 1 })

/-- Build a unit of its own, then go on with the one at hand. -/
def inOwnUnit (build : Emitter Unit) : Emitter Code := do
  let outer := (← get).unit
  modify fun s => { s with unit := .empty }
  build
  let code ← (← get).unit.finish
  modify fun s => { s with unit := outer }
  return code

end MatchLang
