import MatchLang.Machine.Step

/-! What the next step of a machine will ask of the world outside: a line of input, or a file.
Whoever runs a machine against real files and a real terminal fetches that first, and then takes
the step. -/

namespace MatchLang

inductive Request where
  | line
  | file (path : String)
  deriving DecidableEq, Repr

/-- The function inside a value that is called. -/
def innermostCallee : Value → Value
  | .partialCall _ callee _ => innermostCallee callee
  | v => v

def readsLine (argc : Nat) : List Value → Bool
  | [] => false
  | callee :: _ =>
    callee.arity? == some argc &&
      match innermostCallee callee with
      | .native .readLine => true
      | _ => false

def Machine.requestFile? (host : Host) (m : Machine) (file : String) : Option Request :=
  if (m.store.module? file).isSome || file = preludeName then none
  else some (.file (joinPath host.appRoot file))

def Machine.request? (host : Host) (m : Machine) : Option Request :=
  match m.frame.rest.head?.map Instr.op with
  | some (.call argc) =>
    if m.store.console.input.isEmpty && readsLine argc m.operands then some .line else none
  | some (.importAll file) => m.requestFile? host file
  | some (.importEntry file _) => m.requestFile? host file
  | _ => none

/-- The host with the contents of one more file. -/
def Host.withFile (host : Host) (path : String) (contents : Except ReadError String) : Host :=
  { host with read := fun p => if p = path then contents else host.read p }

end MatchLang
