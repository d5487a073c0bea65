import MatchLang.Namespace

/-! The data types and functions that every root namespace starts with. -/

namespace MatchLang

/-- The cases of the built-in data types. -/
structure Builtins where
  unit : Case
  cons : Case
  empty : Case
  yes : Case
  no : Case
  deriving DecidableEq, Repr

namespace Builtins

/-- The built-in cases with the five numbers from `id` on. -/
def numberedFrom (id : Nat) : Builtins :=
  { unit := { id, name := "Unit", arity := 0 }
    cons := { id := id + 1, name := "::", arity := 2 }
    empty := { id := id + 2, name := "Empty", arity := 0 }
    yes := { id := id + 3, name := "True", arity := 0 }
    no := { id := id + 4, name := "False", arity := 0 } }

/-- How many numbers the built-in cases take. -/
def count : Nat := 5

def unitCases (b : Builtins) : List Case := [b.unit]
def listCases (b : Builtins) : List Case := [b.cons, b.empty]
def boolCases (b : Builtins) : List Case := [b.yes, b.no]

def unitValue (b : Builtins) : Value := .constant b.unit

def emptyList (b : Builtins) : Value := .constant b.empty

def boolValue (b : Builtins) (p : Bool) : Value := .constant (if p then b.yes else b.no)

def pair (b : Builtins) (head tail : Value) : Value := .record b.cons [head, tail]

/-- A list of values in order. -/
def list (b : Builtins) (vs : List Value) : Value :=
  vs.foldr b.pair b.emptyList

def isUnit (b : Builtins) : Value → Bool
  | .constant c => c.id == b.unit.id
  | _ => false

def isEmptyList (b : Builtins) : Value → Bool
  | .constant c => c.id == b.empty.id
  | _ => false

def addNative (ns : Namespace) (f : Native) : Namespace :=
  ns.setValue f.name (.native f)

/-- Enter everything built in. -/
def seed (b : Builtins) (ns : Namespace) : Namespace :=
  let ns := ((ns.setType "Number" .number).setType "String" .text).setType "Function" .function
  let ns := ns.addFamily "UnitT" b.unitCases
  let ns := ns.addFamily "List" b.listCases
  let ns := ns.addFamily "Bool" b.boolCases
  Native.all.foldl addNative ns

end Builtins

/-- The built-in cases of running programs. All their modules share them, so a list made in one is a
list in another. -/
def builtins : Builtins := .numberedFrom 0

end MatchLang
