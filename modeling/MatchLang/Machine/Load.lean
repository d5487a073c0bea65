import MatchLang.Grammar.Program
import MatchLang.Lowering.Program
import MatchLang.Machine.State
import MatchLang.Prelude

/-! Starting modules. A module runs in a task of its own, with a root namespace that holds the
built-in names; when it has run, it is remembered under its file name and not run again. -/

namespace MatchLang

/-- The code of a module's text. -/
def compileModule (file source : String) (nextSlot : Nat) : Except Fault (Code × Nat) :=
  match Program.read source with
  | .error e => .error (.moduleSyntax file e)
  | .ok p =>
    match p.compile false nextSlot with
    | .error e => .error (.moduleCompile file e)
    | .ok r => .ok r

/-- A path below a directory; an absolute path stays as it is. -/
def joinPath (directory file : String) : String :=
  if file.startsWith "/" || directory.isEmpty then file
  else if directory.endsWith "/" then directory ++ file
  else directory ++ "/" ++ file

/-- The function that a module's body is. -/
def moduleBody (module : String) (code : Code) (scope home : Nat) : Closure :=
  { id := 0, code, scope, home, arity := 0, module, line := 0 }

/-- The task that runs a module's body in a scope that exists already. -/
def bodyTask (module : String) (code : Code) (scope root : Nat) : Task :=
  { module, root, operands := []
    frames := .single
      { closure := moduleBody module code scope root, scope, line := 0, rest := code.instrs } }

/-- A new root namespace with the built-in names. -/
def Store.newSeededRoot (s : Store) : Nat × Store :=
  s.newRoot (builtins.seed (.empty true))

/-- A task for a module, with a new root and a new scope. -/
def Store.newTask (s : Store) (module : String) (code : Code) : Task × Store :=
  let (root, s) := s.newSeededRoot
  let (scope, s) := s.newScope none
  (bodyTask module code scope root, s)

namespace Machine

/-- Give the running task what it takes from a module that has been loaded. -/
def deliver (m : Machine) (source : Nat) : Delivery → Transition
  | .whole =>
    let target := m.task.root
    .running (m.updateStore fun s => s.updateRoot target (s.root source).overlay)
  | .entry path =>
    let target := m.task.root
    let (ns, fault) := (m.store.root source).importEntry (m.store.root target) path
    let m := m.updateStore (·.setRoot target ns)
    match fault with
    | none => .running m
    | some f => m.raise f

/-- Let the running task wait for a module. -/
def suspend (m : Machine) (delivery : Delivery) (file : String) (code : Code) : Machine :=
  let (task, store) := m.store.newTask file code
  { store, task, waiting := { task := m.task, delivery } :: m.waiting }

/-- Give the running task the prelude, after running it if need be. -/
def loadPrelude (m : Machine) (delivery : Delivery) : Transition :=
  match m.store.module? preludeName with
  | some root => m.deliver root delivery
  | none =>
    match compileModule preludeName preludeSource m.store.nextSlot with
    | .ok (code, nextSlot) =>
      .running ((m.updateStore fun s => { s with nextSlot }).suspend delivery preludeName code)
    | .error f => m.raise f

/-- Import a file: from memory if it has been loaded, else by running it first. -/
def load (host : Host) (m : Machine) (file : String) (delivery : Delivery) : Transition :=
  match m.store.module? file with
  | some root => m.deliver root delivery
  | none =>
    if file = preludeName then m.loadPrelude delivery
    else
      match host.read (joinPath host.appRoot file) with
      | .error e => m.raise (.moduleRead file e)
      | .ok source =>
        match compileModule file source m.store.nextSlot with
        | .error f => m.raise f
        | .ok (code, nextSlot) =>
          let m := (m.updateStore fun s => { s with nextSlot }).suspend delivery file code
          if host.withPrelude then m.loadPrelude .whole else .running m

/-- The running task has come to its end. A module that another task waits for is remembered. -/
def finish (m : Machine) : Transition :=
  match m.waiting with
  | [] => .finished m.store m.operands.head?
  | w :: ws =>
    let store := m.store.remember m.task.module m.task.root
    deliver { store, task := w.task, waiting := ws } m.task.root w.delivery

end Machine

end MatchLang
