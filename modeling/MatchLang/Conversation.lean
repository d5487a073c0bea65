import MatchLang.Session
import MatchLang.Text.Blank

/-! A conversation on the console: prompt, read a line, run it, print what it gives. It ends with
the input or with a blank line. -/

namespace MatchLang

def promptText : String := ">>> "

/-- Prompt and read. No line means that the conversation is over. -/
def askLine (store : Store) : Option String × Store :=
  let (line, console) := (store.console.prompt promptText).read
  (line.filter (!isAllBlank ·), { store with console })

/-- Print the result of a line. What was not reported before is a complaint. -/
def answerLine (r : Except RunError (Option Value)) (store : Store) : Store :=
  match r with
  | .ok (some v) => store.updateConsole (·.print v.display)
  | .ok none => store
  | .error e =>
    if e.isReported then store else store.updateConsole (·.complain ("error: " ++ e.message))

/-- At most the given number of lines. -/
def converseFor (host : Host) (fuel : Nat) (w : Workspace) : Nat → Store → Store
  | 0, store => store
  | n + 1, store =>
    match askLine store with
    | (none, store) => store
    | (some line, store) =>
      let (r, store) := w.runLine host fuel store line
      converseFor host fuel w n (answerLine r store)

/-- A whole conversation. Every line is taken from the input, which bounds their number. -/
def converse (host : Host) (fuel : Nat) (store : Store) : Except RunError Unit × Store :=
  match openWorkspace host fuel store host.withPrelude "repl" with
  | (.ok w, store) => (.ok (), converseFor host fuel w (store.console.input.length + 1) store)
  | (.error e, store) => (.error e, store)

end MatchLang
