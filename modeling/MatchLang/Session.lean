import MatchLang.Machine.Step

/-! Whole programs, modules and lines of a session, run against one store. Each comes as a
beginning, which makes a machine, and a settlement, which takes the end of its run; between the two
the machine runs. -/

namespace MatchLang

/-- Why a program has no result. -/
inductive RunError where
  | parse (error : ParseError)
  | compile (error : CompileError)
  | runtime (failure : Failure)
  | unfinished

def RunError.message : RunError → String
  | .parse e => e.message
  | .compile e => e.message
  | .runtime f => f.fault.message
  | .unfinished => "unfinished"

/-- A failure is reported on its way out; other errors are left to the caller. -/
def RunError.isReported : RunError → Bool
  | .runtime _ => true
  | _ => false

def Transition.follow (host : Host) (fuel : Nat) : Transition → Ending
  | .running m => m.run host fuel
  | .finished store v => .finished store v
  | .raised m f => .failed m.store (m.failure f)

/-- The code of a program and the next free slot. -/
def compileText (source : String) (publishRoot : Bool) (nextSlot : Nat) :
    Except RunError (Code × Nat) :=
  match Program.read source with
  | .error e => .error (.parse e)
  | .ok p =>
    match p.compile publishRoot nextSlot with
    | .error e => .error (.compile e)
    | .ok r => .ok r

/-- Begin a module's body in a root namespace of its own. -/
def beginCode (store : Store) (withPrelude : Bool) (module : String) (code : Code) : Transition :=
  let (task, store) := store.newTask module code
  let m : Machine := { store, task, waiting := [] }
  if withPrelude then m.loadPrelude .whole else .running m

/-- The result of a run; a failure has been reported on the console. -/
def settle : Ending → Except RunError (Option Value) × Store
  | .finished store v => (.ok v, store)
  | .failed store f => (.error (.runtime f), store.updateConsole (·.complain f.report))
  | .cut m => (.error .unfinished, m.store)

/-- Begin a program text as a module. -/
def beginSource (host : Host) (store : Store) (module source : String) :
    Except RunError Transition :=
  (compileText source false store.nextSlot).map fun (code, nextSlot) =>
    beginCode { store with nextSlot } host.withPrelude module code

def runSource (host : Host) (fuel : Nat) (store : Store) (module source : String) :
    Except RunError (Option Value) × Store :=
  match beginSource host store module source with
  | .ok t => settle (t.follow host fuel)
  | .error e => (.error e, store)

/-- A root namespace and a scope that code can be run in again and again. -/
structure Workspace where
  module : String
  root : Nat
  scope : Nat

/-- The workspace whose root and scope are the next ones to be made. -/
def Workspace.next (store : Store) (module : String) : Workspace :=
  { module, root := store.roots.size, scope := store.scopes.size }

/-- A workspace that has the built-in names, and the prelude if asked for. -/
def openWorkspace (host : Host) (fuel : Nat) (store : Store) (withPrelude : Bool)
    (module : String) : Except RunError Workspace × Store :=
  let w := Workspace.next store module
  match (beginCode store withPrelude module .empty).follow host fuel with
  | .finished store _ => (.ok w, store)
  | .failed store f => (.error (.runtime f), store)
  | .cut m => (.error .unfinished, m.store)

namespace Workspace

/-- Begin some code in the workspace. -/
def begin (w : Workspace) (store : Store) (code : Code) : Machine :=
  { store, task := bodyTask w.module code w.scope w.root, waiting := [] }

def runCode (w : Workspace) (host : Host) (fuel : Nat) (store : Store) (code : Code) :
    Except RunError (Option Value) × Store :=
  settle ((w.begin store code).run host fuel)

/-- The same root with a new scope. -/
def withNewScope (w : Workspace) (store : Store) : Workspace × Store :=
  let (scope, store) := store.newScope none
  ({ w with scope }, store)

/-- Begin a line of a session. All its bindings at the root are published, which is how later lines
see them. -/
def beginLine (w : Workspace) (store : Store) (line : String) : Except RunError Machine :=
  (compileText line true store.nextSlot).map fun (code, nextSlot) =>
    w.begin { store with nextSlot } code

/-- Unit counts as no result. -/
def shownResult : Option Value → Option Value :=
  Option.filter (!builtins.isUnit ·)

def settleLine (e : Ending) : Except RunError (Option Value) × Store :=
  let (r, store) := settle e
  (r.map shownResult, store)

def runLine (w : Workspace) (host : Host) (fuel : Nat) (store : Store) (line : String) :
    Except RunError (Option Value) × Store :=
  match w.beginLine store line with
  | .ok m => settleLine (m.run host fuel)
  | .error e => (.error e, store)

end Workspace

/-- A machine with nothing to do but to wait for a module. -/
def idleMachine (store : Store) : Machine :=
  let (root, store) := store.newRoot (.empty true)
  let (scope, store) := store.newScope none
  { store, task := bodyTask "" .empty scope root, waiting := [] }

/-- The root of a module after a machine has waited for it. -/
def settleModule (file : String) : Ending → Except Fault (Option Nat) × Store
  | .finished store _ => (.ok (store.module? file), store)
  | .failed store f => (.error f.fault, store)
  | .cut m => (.ok none, m.store)

/-- The root of a module, which is run unless it has been before. -/
def loadModule (host : Host) (fuel : Nat) (store : Store) (file : String) :
    Except Fault (Option Nat) × Store :=
  settleModule file (((idleMachine store).load host file .whole).follow host fuel)

/-- Run a text as a module and remember it, in place of any module of that name. -/
def loadText (host : Host) (fuel : Nat) (store : Store) (file source : String) :
    Except Fault (Option Nat) × Store :=
  match compileModule file source store.nextSlot with
  | .error f => (.error f, store)
  | .ok (code, nextSlot) =>
    let m := (idleMachine { store with nextSlot }).suspend .whole file code
    let t := if host.withPrelude then m.loadPrelude .whole else .running m
    settleModule file (t.follow host fuel)

end MatchLang
