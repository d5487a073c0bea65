import MatchLang.Number.Reading
import MatchLang.ParseError
import MatchLang.Text.Blank

/-! Cutting a text into tokens. Layout and comments are skipped; then the longest token wins, and of
two readings of one stretch a word, a sign or a number wins over a name. -/

namespace MatchLang

/-- Layout inside a line; line ends are counted apart. -/
def isLayout (c : Char) : Bool :=
  c = ' ' || c = '\t' || c = '\r' || c = '\x0c'

def isNameChar (c : Char) : Bool :=
  !isBlank c && !"()[]\x7b\x7d.|\"'#".toList.contains c

/-- The text after layout and comments, with the line it begins on. In a comment everything is
skipped up to the end of the line. -/
def skipLayout : Bool → List Char → Nat → List Char × Nat
  | _, [], line => ([], line)
  | inComment, c :: s, line =>
    if c = '\n' then skipLayout false s (line + 1)
    else if inComment then skipLayout true s line
    else if c = '#' then skipLayout true s line
    else if isLayout c then skipLayout false s line
    else (c :: s, line)

def endsLine (c : Char) : Bool :=
  c = '\n' || c = '\r'

/-- What a stretch of name characters stands for. -/
def wordToken (w : List Char) : Token :=
  match String.ofList w with
  | "import" => .wordImport
  | "from" => .wordFrom
  | "public" => .wordPublic
  | "namespace" => .wordNamespace
  | "type" => .wordType
  | "let" => .wordLet
  | "=" => .equals
  | "->" => .arrow
  | s => .name s

/-- A number has a point only after digits, and digits after the point only if there are any. -/
def numberToken (whole : List Char) : List Char → Token × List Char
  | '.' :: s =>
    let fraction := s.takeWhile Char.isDigit
    (.number (decimalFloat false (digitsValue (whole ++ fraction)) (-(fraction.length : Int))),
      s.dropWhile Char.isDigit)
  | s => (.number (decimalFloat false (digitsValue whole) 0), s)

/-- A string ends with the quote it began with, on the same line; there are no escapes. -/
def textToken? (quote : Char) (s : List Char) : Option (Token × List Char) :=
  let inside := fun c => c != quote && !endsLine c
  match s.dropWhile inside with
  | [] => none
  | c :: rest =>
    if c = quote then some (.text (String.ofList (s.takeWhile inside)), rest) else none

/-- The token that begins with `c`, and the text after it. -/
def readToken? (c : Char) (s : List Char) : Option (Token × List Char) :=
  match c, s with
  | '(', ')' :: r => some (.unit, r)
  | '(', r => some (.openParen, r)
  | ')', r => some (.closeParen, r)
  | '[', ']' :: r => some (.emptyList, r)
  | '[', r => some (.openBracket, r)
  | ']', r => some (.closeBracket, r)
  | '\x7b', r => some (.openBrace, r)
  | '\x7d', r => some (.closeBrace, r)
  | '|', r => some (.bar, r)
  | '.', r => some (.dot, r)
  | '"', r => textToken? '"' r
  | '\'', r => textToken? '\'' r
  | c, r =>
    if isNameChar c then
      let w := c :: r.takeWhile isNameChar
      let rest := r.dropWhile isNameChar
      if w.all Char.isDigit then some (numberToken w rest) else some (wordToken w, rest)
    else none

/-- The text an error shows: an open string up to the end of its line, else one character. -/
def strangeText (c : Char) (s : List Char) : String :=
  if c = '"' || c = '\'' then String.ofList (c :: s.takeWhile (!endsLine ·)) else String.singleton c

/-- The tokens of a text that begins on line `line`. The first argument bounds their number. -/
def scanFrom : Nat → List Char → Nat → Except ParseError (List Lexeme)
  | 0, _, _ => .ok []
  | n + 1, s, line =>
    match skipLayout false s line with
    | ([], _) => .ok []
    | (c :: rest, line) =>
      match readToken? c rest with
      | none => .error ⟨.strangeText (strangeText c rest), line⟩
      | some (t, rest) => (scanFrom n rest line).map (⟨t, line⟩ :: ·)

/-- The tokens of a program text. A token has at least one character, so the length of the text
bounds their number. -/
def scan (source : String) : Except ParseError (List Lexeme) :=
  let s := source.toList
  scanFrom (s.length + 1) s 1

end MatchLang
