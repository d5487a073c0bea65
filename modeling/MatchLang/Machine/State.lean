import MatchLang.Machine.Store

/-! The state of a run: one task for the module that is running, and the tasks that wait for it,
because they import it. -/

namespace MatchLang

/-- A function that is running: its scope, the last line reached, and the instructions left. -/
structure Frame where
  closure : Closure
  scope : Nat
  line : Nat
  rest : List Instr

def Frame.entry (f : Frame) : TraceEntry :=
  { function := f.closure.text, line := f.line }

/-- The frame that is running and those it returns to, innermost first, with their number. -/
structure Frames where
  current : Frame
  callers : List Frame
  depth : Nat
  depth_eq : depth = callers.length + 1

namespace Frames

def single (f : Frame) : Frames :=
  { current := f, callers := [], depth := 1, depth_eq := rfl }

def push (fs : Frames) (f : Frame) : Frames :=
  { current := f
    callers := fs.current :: fs.callers
    depth := fs.depth + 1
    depth_eq := by simp [fs.depth_eq] }

/-- Without the frame that is running; none if no other is left. -/
def pop? (fs : Frames) : Option Frames :=
  match fs with
  | ⟨_, [], _, _⟩ => none
  | ⟨_, f :: rest, depth, h⟩ =>
    some
      { current := f
        callers := rest
        depth := depth - 1
        depth_eq := by simp [h] }

@[inline] def update (fs : Frames) (change : Frame → Frame) : Frames :=
  { fs with current := change fs.current }

def toList (fs : Frames) : List Frame :=
  fs.current :: fs.callers

theorem depth_eq_length (fs : Frames) : fs.depth = fs.toList.length := fs.depth_eq

@[simp] theorem toList_single (f : Frame) : (single f).toList = [f] := rfl

@[simp] theorem toList_push (fs : Frames) (f : Frame) : (fs.push f).toList = f :: fs.toList := rfl

end Frames

/-- A module that is running: its name, its root namespace, the operands with the top first, and the
frames. -/
structure Task where
  module : String
  root : Nat
  operands : List Value
  frames : Frames

def Task.trace (t : Task) : List TraceEntry :=
  t.frames.toList.map Frame.entry

/-- What an import takes from a module. -/
inductive Delivery where
  | whole
  | entry (path : List String)
  deriving DecidableEq, Repr

/-- A task that waits for the module it imports. -/
structure Suspended where
  task : Task
  delivery : Delivery

structure Machine where
  store : Store
  task : Task
  waiting : List Suspended

/-- What a step leads to. -/
inductive Transition where
  | running (machine : Machine)
  | finished (store : Store) (value : Option Value)
  | raised (machine : Machine) (fault : Fault)

/-- Where a program runs: the directory of its imports, whether modules start with the prelude, how
deep calls may nest, and the contents of files. -/
structure Host where
  appRoot : String
  withPrelude : Bool
  callLimit : Option Nat
  read : String → Except ReadError String

def defaultCallLimit : Nat := 100000

namespace Machine

def operands (m : Machine) : List Value := m.task.operands

def frame (m : Machine) : Frame := m.task.frames.current

/-- The root namespace of the module that the running function was made in. -/
def home (m : Machine) : Namespace :=
  m.store.root m.frame.closure.home

@[inline] def updateTask (m : Machine) (change : Task → Task) : Machine :=
  { m with task := change m.task }

@[inline] def updateStore (m : Machine) (change : Store → Store) : Machine :=
  { m with store := change m.store }

def withOperands (m : Machine) (operands : List Value) : Machine :=
  m.updateTask fun t => { t with operands }

def push (m : Machine) (v : Value) : Machine :=
  m.updateTask fun t => { t with operands := v :: t.operands }

@[inline] def updateFrames (m : Machine) (change : Frames → Frames) : Machine :=
  m.updateTask fun t => { t with frames := change t.frames }

def withFrames (m : Machine) (frames : Frames) : Machine :=
  m.updateFrames fun _ => frames

@[inline] def updateFrame (m : Machine) (change : Frame → Frame) : Machine :=
  m.updateFrames (·.update change)

end Machine

/-- A fault ends the task it comes up in. The task that waits for it has the report as a fault of
its own, and the first task of all ends the run. -/
def unwind (task : Task) (fault : Fault) : List Suspended → Failure
  | [] => { fault, trace := task.trace }
  | w :: ws =>
    unwind w.task (.moduleRun task.module { fault, trace := task.trace : Failure }.report) ws

/-- How a run fails in which a fault comes up. -/
def Machine.failure (m : Machine) (fault : Fault) : Failure :=
  unwind m.task fault m.waiting

def Machine.raise (m : Machine) (fault : Fault) : Transition :=
  .raised m fault

end MatchLang
