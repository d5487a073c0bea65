import MatchLang.Command
import MatchLang.Machine.Request

/-! The command line on a real terminal. Before each step of a program the line or the file that the
step asks for is read, and after it everything written so far is shown. -/

namespace MatchLang

/-- A file of the real file system. -/
def readRealFile (path : String) : IO (Except ReadError String) := do
  try
    return .ok (← IO.FS.readFile path)
  catch e =>
    return .error <| match e with
      | .noFileOrDirectory _ _ _ => .missing
      | .inappropriateType _ code _ =>
        if code = 21 ∨ code = 0 - 21 then .isDirectory else .notDirectory
      | e => .other (toString e)

/-- Show what has been written since the last time. -/
def showOutput (store : Store) : IO Store := do
  if store.console.output.isEmpty && store.console.errors.isEmpty then return store
  let out ← IO.getStdout
  out.putStr store.console.transcript
  out.flush
  (← IO.getStderr).putStr store.console.complaints
  return store.updateConsole Console.cleared

/-- One line of the terminal into the input, unless it is at its end. -/
def fetchLine (store : Store) : IO Store := do
  let text ← (← IO.getStdin).getLine
  return store.updateConsole fun c => { c with input := terminalLines text }

/-- Step by step to the end. -/
partial def runOnTerminal (host : Host) : Transition → IO (Host × Ending)
  | .finished store v => return (host, .finished store v)
  | .raised m f => return (host, .failed m.store (m.failure f))
  | .running m => do
    match m.request? host with
    | some .line =>
      let store ← fetchLine m.store
      forward host { m with store }
    | some (.file path) => forward (host.withFile path (← readRealFile path)) m
    | none => forward host m
where
  forward (host : Host) (m : Machine) : IO (Host × Ending) := do
    match m.step host with
    | .running m =>
      let store ← showOutput m.store
      runOnTerminal host (.running { m with store })
    | t => runOnTerminal host t

def report (result : CommandResult) : IO UInt32 := do
  IO.print result.printed
  IO.eprint result.complaints
  return UInt32.ofNat result.exitCode

/-- Show what is left to show, complain of an error, and answer the exit code. -/
def conclude (r : Except CommandError Unit) (store : Store) : IO UInt32 :=
  report (.of r store)

def runFileOnTerminal (host : Host) (store : Store) (path : String) : IO UInt32 := do
  let host := host.withFile path (← readRealFile path)
  match readProgram host.read path with
  | .error e => conclude (.error e) store
  | .ok source =>
    match beginSource host store (fileName path) source with
    | .error e => conclude (.error (.program e)) store
    | .ok t =>
      let (_, ending) ← runOnTerminal host t
      let (r, store) := settle ending
      conclude (r.map (fun _ => ()) |>.mapError .program) store

partial def converseOnTerminal (host : Host) (w : Workspace) (store : Store) : IO UInt32 := do
  let _ ← showOutput (store.updateConsole (·.prompt promptText))
  let store ← fetchLine (store.updateConsole Console.cleared)
  let (line, console) := store.console.read
  let store := { store with console }
  match line.filter (!isAllBlank ·) with
  | none => conclude (.ok ()) store
  | some line =>
    match w.beginLine store line with
    | .error e => continueWith host (.error e) store
    | .ok m =>
      let (host, ending) ← runOnTerminal host (.running m)
      let (r, store) := Workspace.settleLine ending
      continueWith host r store
where
  continueWith (host : Host) (r : Except RunError (Option Value)) (store : Store) : IO UInt32 := do
    converseOnTerminal host w (← showOutput (answerLine r store))

def Command.performOnTerminal (c : Command) : IO UInt32 := do
  let store := Store.initial (.listening [])
  let environmentRoot ← IO.getEnv "SNEK_ROOT"
  let nothing := fun _ => .error .missing
  match c with
  | .run file options =>
    runFileOnTerminal (options.host environmentRoot (some file) nothing) store file
  | .converse =>
    let host := Options.default.host environmentRoot none nothing
    let w := Workspace.next store "repl"
    let (host, ending) ← runOnTerminal host (beginCode store host.withPrelude "repl" .empty)
    match ending with
    | .finished store _ => converseOnTerminal host w store
    | ending => conclude ((settle ending).1.map (fun _ => ()) |>.mapError .program) store
  | .list file =>
    let contents ← readRealFile file
    report (c.perform 0 environmentRoot (fun _ => contents) [])
  | c => report (c.perform 0 environmentRoot nothing [])

end MatchLang

def main (arguments : List String) : IO UInt32 :=
  match MatchLang.Command.ofArguments arguments with
  | .ok c => c.performOnTerminal
  | .error e => MatchLang.report e.result
