import MatchLang.Code.Builder

/-! The slots that code reads and writes, changed throughout. -/

namespace MatchLang

section

variable (f : Slot → Slot)

mutual

def Op.mapSlots : Op → Op
  | .loadLocal slot => .loadLocal (f slot)
  | .saveLocal slot => .saveLocal (f slot)
  | .loadFunction code arity => .loadFunction code.mapSlots arity
  | op => op

def Instr.mapSlots : Instr → Instr
  | .mk line op => .mk line op.mapSlots

/-- Code with other slots, also in the functions it makes. -/
def Code.mapSlots : Code → Code
  | .mk instrs targets => .mk (instrsMapSlots instrs) targets

def instrsMapSlots : List Instr → List Instr
  | [] => []
  | i :: is => i.mapSlots :: instrsMapSlots is

end

theorem instrsMapSlots_eq (is : List Instr) : instrsMapSlots f is = is.map (·.mapSlots f) := by
  induction is with
  | nil => rfl
  | cons i is ih => rw [instrsMapSlots, List.map_cons, ih]

@[simp] theorem Code.instrs_mapSlots (c : Code) :
    (c.mapSlots f).instrs = c.instrs.map (·.mapSlots f) := by
  obtain ⟨is, ts⟩ := c
  exact instrsMapSlots_eq f is

@[simp] theorem Code.targets_mapSlots (c : Code) : (c.mapSlots f).targets = c.targets := by
  obtain ⟨is, ts⟩ := c
  rfl

end

section

variable (f g : Slot → Slot)

mutual

theorem Op.mapSlots_mapSlots (op : Op) :
    (op.mapSlots f).mapSlots g = op.mapSlots fun s => g (f s) := by
  match op with
  | .loadFunction code arity => exact congrArg (Op.loadFunction · arity) (Code.mapSlots_mapSlots code)
  | .nothing | .fail _ | .pop | .duplicate | .decompose _ _ | .jump _ | .require _ | .jumpIf _ _
  | .loadLocal _ | .loadName _ | .loadNumber _ | .loadText _ | .saveLocal _ | .publish _ _ | .call _
  | .tailCall _ | .makeNamespace _ _ | .makeType _ _ _ | .importAll _ | .importEntry _ _ => rfl

theorem Instr.mapSlots_mapSlots (i : Instr) :
    (i.mapSlots f).mapSlots g = i.mapSlots fun s => g (f s) := by
  match i with
  | .mk line op => exact congrArg (Instr.mk line) (Op.mapSlots_mapSlots op)

theorem Code.mapSlots_mapSlots (c : Code) :
    (c.mapSlots f).mapSlots g = c.mapSlots fun s => g (f s) := by
  match c with
  | .mk is ts => exact congrArg (Code.mk · ts) (instrsMapSlots_mapSlots is)

theorem instrsMapSlots_mapSlots (is : List Instr) :
    instrsMapSlots g (instrsMapSlots f is) = instrsMapSlots (fun s => g (f s)) is := by
  match is with
  | [] => rfl
  | i :: is =>
    rw [instrsMapSlots, instrsMapSlots, instrsMapSlots, Instr.mapSlots_mapSlots i,
      instrsMapSlots_mapSlots is]

end

end

end MatchLang
