import MatchLang.Number.Shortest

/-! The words of a program text. Operators are not special: `+` and `::` are names like any
other. -/

namespace MatchLang

inductive Token where
  | wordImport
  | wordFrom
  | wordPublic
  | wordNamespace
  | wordType
  | wordLet
  | equals
  | bar
  | dot
  | openBrace
  | closeBrace
  | unit
  | openParen
  | closeParen
  | emptyList
  | openBracket
  | closeBracket
  | arrow
  | number (value : Float)
  | text (value : String)
  | name (value : String)
  deriving BEq, Inhabited

/-- A token as an error message quotes it. -/
def Token.describe : Token → String
  | .wordImport => "`import`"
  | .wordFrom => "`from`"
  | .wordPublic => "`public`"
  | .wordNamespace => "`namespace`"
  | .wordType => "`type`"
  | .wordLet => "`let`"
  | .equals => "`=`"
  | .bar => "`|`"
  | .dot => "`.`"
  | .openBrace => "`\x7b`"
  | .closeBrace => "`\x7d`"
  | .unit => "`()`"
  | .openParen => "`(`"
  | .closeParen => "`)`"
  | .emptyList => "`[]`"
  | .openBracket => "`[`"
  | .closeBracket => "`]`"
  | .arrow => "`->`"
  | .number x => "number " ++ numberText x
  | .text s => "string \"" ++ s ++ "\""
  | .name s => "identifier `" ++ s ++ "`"

/-- A token and the line it begins on. -/
structure Lexeme where
  token : Token
  line : Nat
  deriving Inhabited

end MatchLang
