import MatchLang.Machine.Call
import MatchLang.Machine.Load
import MatchLang.Machine.Test

/-! One step of the machine: one instruction, or the return from a function that has none left.
Names and types are looked up from the module the running function was made in; what a module
declares goes into the root of the module that is running. -/

namespace MatchLang

/-- A function made from code in the scope of a frame. -/
def Frame.closeOver (f : Frame) (id : Nat) (code : Code) (arity : Nat) : Closure :=
  { id, code, scope := f.scope, home := f.closure.home, arity, module := f.closure.module,
    line := f.line }

namespace Machine

def jump (m : Machine) (label : Nat) : Transition :=
  match m.frame.closure.code.from? label with
  | some rest => .running (m.updateFrame fun f => { f with rest })
  | none => m.raise (.unattachedLabel label)

/-- Take the top operand and test it. -/
def test (m : Machine) (shape : Shape) (whenTested : Machine → Bool → Transition) : Transition :=
  match m.operands with
  | [] => m.raise .stackUnderflow
  | v :: rest =>
    match shape.accepts m.home.findType v with
    | .ok fits => whenTested (m.withOperands rest) fits
    | .error f => m.raise f

/-- Change the root of the running module. -/
def declare (m : Machine) (change : Namespace → Except Fault Namespace) : Transition :=
  let root := m.task.root
  match change (m.store.root root) with
  | .ok ns => .running (m.updateStore (·.setRoot root ns))
  | .error f => m.raise f

/-- Make the namespaces of a path in the root of the running module. -/
def makeNamespace (m : Machine) (path : List String) (isPublic : Bool) : Transition :=
  let root := m.task.root
  let (ns, fault) := (m.store.root root).makeAlong path isPublic
  let m := m.updateStore (·.setRoot root ns)
  match fault with
  | none => .running m
  | some f => m.raise f

/-- The root with a value at a path. -/
def publishIn (ns : Namespace) (path : List String) (name : String) (v : Value) :
    Except Fault Namespace :=
  (ns.find path).map fun _ => ns.updateAt (·.setValue name v) path

/-- The root with a new data type at a path. -/
def defineIn (ns : Namespace) (path : List String) (name : String) (cases : List Case) :
    Except Fault Namespace :=
  (ns.find path).map fun _ => ns.updateAt (·.addFamily name cases) path

def perform (host : Host) (m : Machine) : Op → Transition
  | .nothing => .running m
  | .fail message => m.raise (.failed message)
  | .pop =>
    match m.operands with
    | [] => m.raise .stackUnderflow
    | _ :: rest => .running (m.withOperands rest)
  | .duplicate =>
    match m.operands with
    | [] => m.raise .stackUnderflow
    | v :: _ => .running (m.push v)
  | .decompose path parts =>
    match m.home.findType path with
    | .error f => m.raise f
    | .ok t =>
      match MatchLang.decompose t parts m.operands with
      | .ok operands => .running (m.withOperands operands)
      | .error f => m.raise f
  | .jump label => m.jump label
  | .require shape =>
    m.test shape fun m fits => if fits then .running m else m.raise .failedMatch
  | .jumpIf shape label => m.test shape fun m fits => if fits then m.jump label else .running m
  | .loadLocal slot =>
    match m.store.lookup m.frame.scope slot.id with
    | some v => .running (m.push v)
    | none => m.raise (.unassigned slot.name)
  | .loadName path =>
    match m.home.findValue path with
    | .ok v => .running (m.push v)
    | .error f => m.raise f
  | .loadNumber x => .running (m.push (.number x))
  | .loadText s => .running (m.push (.text s))
  | .loadFunction code arity =>
    let (id, store) := m.store.newIdentity
    .running ({ m with store }.push (.function (m.frame.closeOver id code arity)))
  | .saveLocal slot =>
    match m.operands with
    | [] => m.raise .stackUnderflow
    | v :: rest =>
      let scope := m.frame.scope
      .running ((m.withOperands rest).updateStore (·.save scope slot.id v))
  | .publish name path =>
    match m.operands with
    | [] => m.raise .stackUnderflow
    | v :: rest => (m.withOperands rest).declare fun ns => publishIn ns path name v
  | .call argc => m.call host argc
  | .tailCall argc => m.tailCall argc
  | .makeNamespace path isPublic => m.makeNamespace path isPublic
  | .makeType name path cases =>
    let id := m.store.nextIdentity
    (m.updateStore fun s => { s with nextIdentity := id + cases.length }).declare fun ns =>
      defineIn ns path name (numberCases id cases)
  | .importAll file => m.load host file .whole
  | .importEntry file path => m.load host file (.entry path)

def step (host : Host) (m : Machine) : Transition :=
  match m.frame.rest with
  | i :: rest => (m.updateFrame fun f => { f with line := i.line, rest }).perform host i.op
  | [] =>
    match m.task.frames.pop? with
    | some frames => .running (m.withFrames frames)
    | none => m.finish

end Machine

/-- How a run ends. A run that is cut short keeps its state. -/
inductive Ending where
  | finished (store : Store) (value : Option Value)
  | failed (store : Store) (failure : Failure)
  | cut (machine : Machine)

/-- Run for at most the given number of steps. -/
def Machine.run (host : Host) : Nat → Machine → Ending
  | 0, m => .cut m
  | n + 1, m =>
    match m.step host with
    | .running m => run host n m
    | .finished store v => .finished store v
    | .raised m f => .failed m.store (m.failure f)

end MatchLang
