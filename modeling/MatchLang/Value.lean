import MatchLang.Code
import MatchLang.Native

/-! Values while a program runs, and the types that are tested for. Cases, functions and partial
calls have numbers of their own, and are the same only if their numbers are. -/

namespace MatchLang

/-- One way to build a value of a data type, with a fixed number of fields. -/
structure Case where
  id : Nat
  name : String
  arity : Nat
  deriving DecidableEq, Inhabited, Repr

/-- A function: its code, the scope it was made in, and the root namespace of the module it was made
in, by their numbers. The line is that of the expression, or 0 for the body of a module. -/
structure Closure where
  id : Nat
  code : Code
  scope : Nat
  home : Nat
  arity : Nat
  module : String
  line : Nat
  deriving Inhabited

/-- The name of a function in messages. -/
def Closure.text (c : Closure) : String :=
  if c.line = 0 then "<module " ++ c.module ++ ">"
  else "<function " ++ c.module ++ ":" ++ toString c.line ++ ">"

/-- A `constant` is the only value of a case without fields; a `constructor` builds the values of a
case with fields; a `partialCall` has the first arguments of a call, in order. -/
inductive Value where
  | number (value : Float)
  | text (value : String)
  | record (case : Case) (fields : List Value)
  | constant (case : Case)
  | function (closure : Closure)
  | partialCall (id : Nat) (callee : Value) (args : List Value)
  | constructor (case : Case)
  | native (function : Native)
  deriving Inhabited

namespace Value

/-- How many arguments a call must supply, if the value can be called. -/
def arity? : Value → Option Nat
  | .function c => some c.arity
  | .partialCall _ callee args => callee.arity?.map (· - args.length)
  | .constructor c => some c.arity
  | .native f => some f.arity
  | .number _ => none
  | .text _ => none
  | .record _ _ => none
  | .constant _ => none

def isCallable (v : Value) : Bool :=
  v.arity?.isSome

/-- The case that built a value. -/
def case? : Value → Option Case
  | .record c _ => some c
  | .constant c => some c
  | _ => none

def typeName : Value → String
  | .number _ => "Number"
  | .text _ => "String"
  | .record c _ => c.name
  | .constant c => c.name
  | _ => "Function"

end Value

mutual

/-- Numbers and texts are equal by value, values of cases field by field, and what can be called
only to itself. -/
def Value.equal : Value → Value → Bool
  | .number a, .number b => a == b
  | .text a, .text b => a == b
  | .constant a, .constant b => a.id == b.id
  | .record a fs, .record b gs => a.id == b.id && equalFields fs gs
  | .function a, .function b => a.id == b.id
  | .partialCall a _ _, .partialCall b _ _ => a == b
  | .constructor a, .constructor b => a.id == b.id
  | .native a, .native b => a == b
  | _, _ => false

def equalFields : List Value → List Value → Bool
  | [], [] => true
  | v :: vs, w :: ws => v.equal w && equalFields vs ws
  | _, _ => false

end

/-- A `family` is a data type with all its cases. -/
inductive DataType where
  | number
  | text
  | function
  | family (name : String) (cases : List Case)
  | case (case : Case)
  deriving DecidableEq, Inhabited, Repr

namespace DataType

def name : DataType → String
  | .number => "Number"
  | .text => "String"
  | .function => "Function"
  | .family n _ => n
  | .case c => c.name

/-- Whether a value is of a type. -/
def admits : DataType → Value → Bool
  | .number, .number _ => true
  | .number, _ => false
  | .text, .text _ => true
  | .text, _ => false
  | .function, v => v.isCallable
  | .family _ cases, v => v.case?.any fun c => cases.any (·.id == c.id)
  | .case c, v => v.case?.any (·.id == c.id)

end DataType

/-- The value that stands for a case before it has fields. -/
def Case.value (c : Case) : Value :=
  if c.arity = 0 then .constant c else .constructor c

end MatchLang
