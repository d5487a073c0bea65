import MatchLang.Builtins
import MatchLang.Machine.Console
import MatchLang.Number.Reading
import MatchLang.Number.Remainder
import MatchLang.Text.Blank
import MatchLang.Value.Text

/-! What the native functions compute. Only printing and reading touch the console. -/

namespace MatchLang

namespace Native

def wrongArgument (f : Native) (expected got : String) : Fault :=
  .badArgument f.name expected got

def twoNumbers (f : Native) (op : Float → Float → Float) : List Value → Except Fault Value
  | [.number x, .number y] => .ok (.number (op x y))
  | [.number _, w] => .error (f.wrongArgument "a Number" w.typeName)
  | [v, _] => .error (f.wrongArgument "a Number" v.typeName)
  | _ => .error .stackUnderflow

def joinTexts (f : Native) : List Value → Except Fault Value
  | [.text s, .text t] => .ok (.text (s ++ t))
  | [.text _, w] => .error (f.wrongArgument "a String" w.typeName)
  | [v, _] => .error (f.wrongArgument "a String" v.typeName)
  | _ => .error .stackUnderflow

def compareEqual (keep : Bool → Bool) : List Value → Except Fault Value
  | [v, w] => .ok (builtins.boolValue (keep (v.equal w)))
  | _ => .error .stackUnderflow

/-- The order of two numbers, unless one of them is not a number. -/
def numberOrder? (x y : Float) : Option Ordering :=
  if x < y then some .lt else if x == y then some .eq else if y < x then some .gt else none

/-- Texts are ordered by their characters, in the order of their numbers. -/
def textOrder (s t : String) : Ordering :=
  if s < t then .lt else if s = t then .eq else .gt

def compareOrder (f : Native) (keep : Ordering → Bool) : List Value → Except Fault Value
  | [.number x, .number y] =>
    match numberOrder? x y with
    | some o => .ok (builtins.boolValue (keep o))
    | none => .error (f.wrongArgument "comparable Numbers" "NaN")
  | [.text s, .text t] => .ok (builtins.boolValue (keep (textOrder s t)))
  | [v, w] =>
    .error (f.wrongArgument "two Numbers or two Strings" (v.typeName ++ " and " ++ w.typeName))
  | _ => .error .stackUnderflow

def readNumber (f : Native) : List Value → Except Fault Value
  | [.number x] => .ok (.number x)
  | [.text s] =>
    match readNumber? (trimBlanks s.toList) with
    | some x => .ok (.number x)
    | none => .error (.notANumber s)
  | [v] => .error (f.wrongArgument "a String" v.typeName)
  | _ => .error .stackUnderflow

def showValue : List Value → Except Fault Value
  | [v] => .ok (.text v.display)
  | _ => .error .stackUnderflow

def raiseValue : List Value → Except Fault Value
  | [v] => .error (.raised v.display)
  | _ => .error .stackUnderflow

/-- The functions that leave the console alone. -/
def compute (f : Native) (args : List Value) : Except Fault Value :=
  match f with
  | .add => f.twoNumbers (· + ·) args
  | .subtract => f.twoNumbers (· - ·) args
  | .multiply => f.twoNumbers (· * ·) args
  | .divide => f.twoNumbers (· / ·) args
  | .remainder => f.twoNumbers floatRemainder args
  | .concat => f.joinTexts args
  | .equal => compareEqual id args
  | .different => compareEqual (!·) args
  | .less => f.compareOrder (· == .lt) args
  | .lessEqual => f.compareOrder (· != .gt) args
  | .greater => f.compareOrder (· == .gt) args
  | .greaterEqual => f.compareOrder (· != .lt) args
  | .toNumber => f.readNumber args
  | .toText => showValue args
  | .raise => raiseValue args
  | .printLine => .error .stackUnderflow
  | .readLine => .error .stackUnderflow

/-- The result of a call, and the console after it. Reading prints its argument first and answers
unit at the end of the input. -/
def run (f : Native) (args : List Value) (console : Console) : Except Fault (Value × Console) :=
  match f, args with
  | .printLine, [v] => .ok (builtins.unitValue, console.print v.display)
  | .readLine, [v] =>
    match (console.print v.display).read with
    | (some s, console) => .ok (.text s, console)
    | (none, console) => .ok (builtins.unitValue, console)
  | f, args => (f.compute args).map (·, console)

end Native

end MatchLang
