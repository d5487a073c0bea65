import MatchLang.Builtins
import MatchLang.Machine.Console
import MatchLang.Namespace.Import

/-! What outlives a call: scopes, root namespaces, loaded modules, and the console. Scopes and roots
are kept under numbers, so that functions can share them while they change. -/

namespace MatchLang

/-- The storage places of one activation. -/
structure Scope where
  parent : Option Nat
  slots : List (Nat × Value)
  deriving Inhabited

namespace Scope

def get? (s : Scope) (slot : Nat) : Option Value :=
  s.slots.lookup slot

def setSlot : List (Nat × Value) → Nat → Value → List (Nat × Value)
  | [], slot, v => [(slot, v)]
  | (k, w) :: rest, slot, v => if k = slot then (slot, v) :: rest else (k, w) :: setSlot rest slot v

def set (s : Scope) (slot : Nat) (v : Value) : Scope :=
  { s with slots := setSlot s.slots slot v }

end Scope

/-- A module is entered in `modules` with the number of its root once it has run. -/
structure Store where
  scopes : Array Scope
  roots : Array Namespace
  modules : List (String × Nat)
  nextIdentity : Nat
  nextSlot : Nat
  console : Console

namespace Store

def initial (console : Console) : Store :=
  { scopes := #[], roots := #[], modules := [], nextIdentity := Builtins.count, nextSlot := 0,
    console }

def newScope (s : Store) (parent : Option Nat) : Nat × Store :=
  (s.scopes.size, { s with scopes := s.scopes.push { parent, slots := [] } })

def newRoot (s : Store) (ns : Namespace) : Nat × Store :=
  (s.roots.size, { s with roots := s.roots.push ns })

/-- A number that nothing else has. -/
def newIdentity (s : Store) : Nat × Store :=
  (s.nextIdentity, { s with nextIdentity := s.nextIdentity + 1 })

def root (s : Store) (id : Nat) : Namespace :=
  s.roots.getD id (.empty true)

def updateRoot (s : Store) (id : Nat) (change : Namespace → Namespace) : Store :=
  { s with roots := s.roots.modify id change }

def setRoot (s : Store) (id : Nat) (ns : Namespace) : Store :=
  s.updateRoot id fun _ => ns

def updateConsole (s : Store) (change : Console → Console) : Store :=
  { s with console := change s.console }

def save (s : Store) (scope slot : Nat) (v : Value) : Store :=
  { s with scopes := s.scopes.modify scope (·.set slot v) }

/-- Look in a scope and then in the ones around it, at most as many as the first number says. -/
def lookupFrom (scopes : Array Scope) : Nat → (scope slot : Nat) → Option Value
  | 0, _, _ => none
  | n + 1, scope, slot =>
    match scopes[scope]? with
    | none => none
    | some s =>
      match s.get? slot with
      | some v => some v
      | none => s.parent.bind fun p => lookupFrom scopes n p slot

/-- A scope is made after its parent, so a chain of parents is no longer than its first number. -/
def lookup (s : Store) (scope slot : Nat) : Option Value :=
  lookupFrom s.scopes (scope + 1) scope slot

def module? (s : Store) (file : String) : Option Nat :=
  Table.get? s.modules file

def remember (s : Store) (file : String) (root : Nat) : Store :=
  { s with modules := Table.set s.modules file root }

end Store

end MatchLang
