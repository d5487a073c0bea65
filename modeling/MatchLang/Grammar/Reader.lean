import MatchLang.ParseError
import MatchLang.Program

/-! Readers of lexemes: what is left to read, and the next number for an occurrence of a name. -/

namespace MatchLang

/-- What is left to read. The end is reported at `lastLine`, the line of the last lexeme of the
whole text. -/
structure Reading where
  rest : List Lexeme
  nextId : Nat
  lastLine : Nat

abbrev Reader := StateT Reading (Except ParseError)

/-- The next token, not yet read. -/
def peek : Reader (Option Token) := do
  return (← get).rest.head?.map (·.token)

/-- The token after the next one. -/
def peekSecond : Reader (Option Token) := do
  return ((← get).rest.drop 1).head?.map (·.token)

def Reading.line (r : Reading) : Nat :=
  match r.rest with
  | [] => r.lastLine
  | l :: _ => l.line

def currentLine : Reader Nat := do
  return (← get).line

/-- Take the next token, if there is one. -/
def advance : Reader Unit :=
  modify fun r => { r with rest := r.rest.drop 1 }

def atEnd : Reader Bool := do
  return (← get).rest.isEmpty

def unexpected (expected : Expected) : Reader α := do
  let r ← get
  throw ⟨.unexpected expected (r.rest.head?.map (·.token)), r.line⟩

def nextIs (t : Token) : Reader Bool := do
  return (← peek) == some t

/-- Take the token `t` if it is next. -/
def take? (t : Token) : Reader Bool := do
  if ← nextIs t then
    advance
    return true
  else return false

/-- Take the token `t`, which must be next, and answer its line. -/
def expect (t : Token) (expected : Expected) : Reader Nat := do
  let line ← currentLine
  if ← take? t then return line else unexpected expected

def expectName (expected : Expected) : Reader (String × Nat) := do
  let line ← currentLine
  match ← peek with
  | some (.name s) =>
    advance
    return (s, line)
  | _ => unexpected expected

def expectText (expected : Expected) : Reader String := do
  match ← peek with
  | some (.text s) =>
    advance
    return s
  | _ => unexpected expected

def freshId : Reader Nat :=
  modifyGet fun r => (r.nextId, { r with nextId := r.nextId + 1 })

/-- How many lexemes are left. -/
def remaining : Reader Nat := do
  return (← get).rest.length

/-- The parts of a name after its first: a dot counts only before another part. -/
def nameParts : Nat → Reader (List String)
  | 0 => return []
  | n + 1 => do
    match ← peek, ← peekSecond with
    | some .dot, some (.name s) =>
      advance
      advance
      return s :: (← nameParts n)
    | _, _ => return []

/-- A qualified name, `name ('.' name)*`. -/
def qname : Reader QName := do
  let (first, line) ← expectName .name
  let parts ← nameParts (← remaining)
  return { id := ← freshId, parts := first :: parts, line }

/-- A number, a string, `()` or `[]`, if one is next. -/
def literal? : Reader (Option (Literal × Nat)) := do
  let line ← currentLine
  match ← peek with
  | some (.number x) =>
    advance
    return some (.number x, line)
  | some (.text s) =>
    advance
    return some (.text s, line)
  | some .unit =>
    advance
    return some (.unit, line)
  | some .emptyList =>
    advance
    return some (.emptyList, line)
  | _ => return none

end MatchLang
