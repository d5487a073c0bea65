import MatchLang.Token

/-! What can be wrong with a program text: a character no token begins with, or a token where the
grammar wants another. -/

namespace MatchLang

/-- What the grammar wanted at the place of an error. -/
inductive Expected where
  | declarationOrCall
  | fileName
  | declaration
  | openBrace
  | closeBraceOrDeclaration
  | closeBrace
  | equals
  | caseName
  | letWord
  | openParen
  | closeParenOrArgument
  | closeParen
  | arrow
  | openBracket
  | closeBracketOrElement
  | closeBracket
  | name
  | expression
  | pattern
  deriving DecidableEq, Repr

def Expected.describe : Expected → String
  | .declarationOrCall => "a declaration or a call"
  | .fileName => "a file name"
  | .declaration => "`namespace`, `type` or `let`"
  | .openBrace => "`\x7b`"
  | .closeBraceOrDeclaration => "`\x7d` or a declaration"
  | .closeBrace => "`\x7d`"
  | .equals => "`=`"
  | .caseName => "a case name"
  | .letWord => "`let`"
  | .openParen => "`(`"
  | .closeParenOrArgument => "`)` or an argument"
  | .closeParen => "`)`"
  | .arrow => "`->`"
  | .openBracket => "`[`"
  | .closeBracketOrElement => "`]` or a list element"
  | .closeBracket => "`]`"
  | .name => "a name"
  | .expression => "an expression"
  | .pattern => "a pattern"

inductive ParseFailure where
  | strangeText (text : String)
  | unexpected (expected : Expected) (found : Option Token)

structure ParseError where
  failure : ParseFailure
  line : Nat

def ParseFailure.describe : ParseFailure → String
  | .strangeText text => "unexpected character `" ++ text ++ "`"
  | .unexpected expected (some found) =>
    "expected " ++ expected.describe ++ ", found " ++ found.describe
  | .unexpected expected none => "expected " ++ expected.describe ++ ", found end of input"

def ParseError.message (e : ParseError) : String :=
  e.failure.describe ++ " at line " ++ toString e.line

end MatchLang
