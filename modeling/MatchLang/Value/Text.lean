import MatchLang.Number.Shortest
import MatchLang.Text.Quoted
import MatchLang.Value

/-! The text of a value. A text by itself is shown as it is; inside another value it is quoted. -/

namespace MatchLang

mutual

/-- The text of a value inside another, written after `before`. -/
def Value.writeInner : Value → (before : String) → String
  | .number x, before => before ++ numberText x
  | .text s, before => before ++ quoted s
  | .constant c, before => before ++ c.name
  | .record c fields, before => writeFields fields (before ++ "(" ++ c.name) ++ ")"
  | .function c, before => before ++ c.text
  | .partialCall _ callee _, before => callee.writeInner (before ++ "<partial ") ++ ">"
  | .constructor c, before => before ++ "<constructor " ++ c.name ++ ">"
  | .native f, before => before ++ "<builtin " ++ f.name ++ ">"

def writeFields : List Value → (before : String) → String
  | [], before => before
  | v :: vs, before => writeFields vs (v.writeInner (before ++ " "))

end

/-- The text of a value with every text in it quoted. -/
def Value.innerText (v : Value) : String :=
  v.writeInner ""

/-- The text of a value as a program prints it. -/
def Value.display : Value → String
  | .text s => s
  | v => v.innerText

end MatchLang
