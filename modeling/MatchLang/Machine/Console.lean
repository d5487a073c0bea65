/-! What a program reads and writes. -/

namespace MatchLang

/-- A line of output, or the prompt of a session, which does not end its line. -/
inductive Output where
  | line (text : String)
  | prompt (text : String)
  deriving DecidableEq, Repr

/-- A silent console keeps nothing and has nothing to read. -/
structure Console where
  silent : Bool
  output : Array Output
  errors : Array String
  input : List String

namespace Console

def listening (input : List String) : Console :=
  { silent := false, output := #[], errors := #[], input }

def deaf : Console :=
  { silent := true, output := #[], errors := #[], input := [] }

def print (c : Console) (s : String) : Console :=
  if c.silent then c else { c with output := c.output.push (.line s) }

def prompt (c : Console) (s : String) : Console :=
  { c with output := c.output.push (.prompt s) }

def complain (c : Console) (s : String) : Console :=
  if c.silent then c else { c with errors := c.errors.push s }

/-- The next line of input, which is then gone. -/
def read (c : Console) : Option String × Console :=
  match c.input with
  | [] => (none, c)
  | s :: rest => (some s, { c with input := rest })

/-- Nothing written yet. -/
def cleared (c : Console) : Console :=
  { c with output := #[], errors := #[] }

def joinLines (ls : List String) : String :=
  String.join (ls.map (· ++ "\n"))

/-- The lines printed. -/
def printed (c : Console) : String :=
  joinLines (c.output.toList.filterMap fun
    | .line s => some s
    | .prompt _ => none)

def prompts (c : Console) : String :=
  String.join (c.output.toList.filterMap fun
    | .line _ => none
    | .prompt s => some s)

/-- Lines and prompts as they were written. -/
def transcript (c : Console) : String :=
  String.join (c.output.toList.map fun
    | .line s => s ++ "\n"
    | .prompt s => s)

def complaints (c : Console) : String :=
  joinLines c.errors.toList

end Console

/-- The lines of a text; the end of the last one may be missing. -/
def linesFrom : (current : List Char) → List Char → List (List Char)
  | [], [] => []
  | current, [] => [current.reverse]
  | current, '\n' :: s => current.reverse :: linesFrom [] s
  | current, c :: s => linesFrom (c :: current) s

/-- The lines of a text that was given beforehand: one carriage return before a line end goes with
it. -/
def preparedLines (s : String) : List String :=
  let ls := linesFrom [] s.toList
  let endsClosed := s.toList.getLast? == some '\n'
  let trimmed := fun (l : List Char) => if l.getLast? == some '\r' then l.dropLast else l
  match ls.getLast? with
  | some last =>
    ((ls.dropLast.map trimmed) ++ [if endsClosed then trimmed last else last]).map String.ofList
  | none => []

/-- The lines of a text that is read from a terminal: all carriage returns at a line's end go with
it. -/
def terminalLines (s : String) : List String :=
  (linesFrom [] s.toList).map fun l =>
    String.ofList (l.reverse.dropWhile (· = '\r')).reverse

example : preparedLines "a\r\nb\r" = ["a", "b\r"] := by decide

example : terminalLines "a\r\r\n\nb" = ["a", "", "b"] := by decide

end MatchLang
