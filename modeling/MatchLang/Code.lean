import MatchLang.Links
import MatchLang.Text.Quoted

/-! Instructions. A unit of code is the body of a module or of one function: its instructions, and
for each label the index it stands for, which may be one past the end. Paths are looked up from the
root namespace of the module that the running function was made in. -/

namespace MatchLang

/-- A test of a value, made from a pattern. A type with more than one way to be built leaves the
value whole for its one inner test; a case tests each of its fields. -/
inductive Shape where
  | any
  | number (value : Float)
  | text (value : String)
  | emptyList
  | unit
  | type (path : List String) (inners : List Shape)
  deriving Inhabited

structure CaseShape where
  name : String
  arity : Nat
  deriving DecidableEq, Inhabited, Repr

mutual

inductive Op where
  | nothing
  | fail (message : String)
  | pop
  | duplicate
  | decompose (path : List String) (parts : Nat)
  | jump (label : Nat)
  | require (shape : Shape)
  | jumpIf (shape : Shape) (label : Nat)
  | loadLocal (slot : Slot)
  | loadName (path : List String)
  | loadNumber (value : Float)
  | loadText (value : String)
  | loadFunction (code : Code) (arity : Nat)
  | saveLocal (slot : Slot)
  | publish (name : String) (path : List String)
  | call (argc : Nat)
  | tailCall (argc : Nat)
  | makeNamespace (path : List String) (isPublic : Bool)
  | makeType (name : String) (path : List String) (cases : List CaseShape)
  | importAll (file : String)
  | importEntry (file : String) (path : List String)

inductive Instr where
  | mk (line : Nat) (op : Op)

inductive Code where
  | mk (instrs : List Instr) (targets : List Nat)

end

instance : Inhabited Code := ⟨.mk [] []⟩
instance : Inhabited Op := ⟨.nothing⟩

def Instr.line : Instr → Nat
  | .mk l _ => l

def Instr.op : Instr → Op
  | .mk _ o => o

def Code.instrs : Code → List Instr
  | .mk is _ => is

/-- The index of each label. -/
def Code.targets : Code → List Nat
  | .mk _ ts => ts

def Code.empty : Code := .mk [] []

def Code.length (c : Code) : Nat :=
  c.instrs.length

/-- The instructions from a label on. -/
def Code.from? (c : Code) (label : Nat) : Option (List Instr) :=
  c.targets[label]?.map (c.instrs.drop ·)

def labelText (label : Nat) : String :=
  "L" ++ toString label

end MatchLang
