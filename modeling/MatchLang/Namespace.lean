import MatchLang.Fault
import MatchLang.Table
import MatchLang.Value

/-! Trees of names. A namespace holds values, types and further namespaces, each under a name; one
name may stand for all three. Whether a namespace is public matters to importers only. -/

namespace MatchLang

structure Namespace where
  isPublic : Bool
  values : List (String × Value)
  types : List (String × DataType)
  children : List (String × Namespace)

namespace Namespace

def empty (isPublic : Bool) : Namespace :=
  { isPublic, values := [], types := [], children := [] }

instance : Inhabited Namespace := ⟨empty true⟩

def value? (ns : Namespace) (name : String) : Option Value :=
  Table.get? ns.values name

def type? (ns : Namespace) (name : String) : Option DataType :=
  Table.get? ns.types name

def child? (ns : Namespace) (name : String) : Option Namespace :=
  Table.get? ns.children name

def setValue (ns : Namespace) (name : String) (v : Value) : Namespace :=
  { ns with values := Table.set ns.values name v }

def setType (ns : Namespace) (name : String) (t : DataType) : Namespace :=
  { ns with types := Table.set ns.types name t }

def setChild (ns : Namespace) (name : String) (c : Namespace) : Namespace :=
  { ns with children := Table.set ns.children name c }

/-- The child of a name, new with the given visibility if there is none. -/
def childOr (ns : Namespace) (name : String) (isPublic : Bool) : Namespace :=
  (ns.child? name).getD (empty isPublic)

/-- The namespace at the end of a path. -/
def at? : Namespace → List String → Option Namespace
  | ns, [] => some ns
  | ns, name :: path => (ns.child? name).bind (·.at? path)

def valueAt? (ns : Namespace) (path : List String) (name : String) : Option Value :=
  (ns.at? path).bind (·.value? name)

def typeAt? (ns : Namespace) (path : List String) (name : String) : Option DataType :=
  (ns.at? path).bind (·.type? name)

/-- The namespace at a path; a fault names the path up to the first name that is missing. The names
already walked come first. -/
def findFrom (walked : List String) : Namespace → List String → Except Fault Namespace
  | ns, [] => .ok ns
  | ns, name :: path =>
    match ns.child? name with
    | some c => c.findFrom (walked ++ [name]) path
    | none => .error (.namespaceNotFound (dotted (walked ++ [name])))

def find (ns : Namespace) (path : List String) : Except Fault Namespace :=
  ns.findFrom [] path

def findValue (ns : Namespace) (path : List String) : Except Fault Value :=
  match path.getLast?.bind (ns.valueAt? path.dropLast) with
  | some v => .ok v
  | none => .error (.nameNotFound (dotted path))

def findType (ns : Namespace) (path : List String) : Except Fault DataType :=
  match path.getLast?.bind (ns.typeAt? path.dropLast) with
  | some t => .ok t
  | none => .error (.typeNotFound (dotted path))

/-- Change the namespace at a path, if there is one. -/
def updateAt (change : Namespace → Namespace) : List String → Namespace → Namespace
  | [], ns => change ns
  | name :: path, ns =>
    match ns.child? name with
    | some c => ns.setChild name (updateAt change path c)
    | none => ns

/-- The tree with every missing namespace of a path, each with the given visibility; none if a
public one would come under a private one. -/
def make? (isPublic : Bool) : List String → Namespace → Option Namespace
  | [], ns => some ns
  | name :: path, ns =>
    if isPublic && !ns.isPublic then none
    else (make? isPublic path (ns.childOr name isPublic)).map (ns.setChild name)

def make (ns : Namespace) (path : List String) (isPublic : Bool) : Except Fault Namespace :=
  match make? isPublic path ns with
  | some ns => .ok ns
  | none => .error (.publicUnderPrivate (dotted path))

/-- Make the missing namespaces of a path one after another, each with the given visibility, up to the
place where a public one would come under a private one. What has been made by then stays. -/
def makeWithin (whole : List String) (isPublic : Bool) :
    List String → Namespace → Namespace × Option Fault
  | [], ns => (ns, none)
  | name :: path, ns =>
    if isPublic && !ns.isPublic then (ns, some (.publicUnderPrivate (dotted whole)))
    else
      let (c, fault) := makeWithin whole isPublic path (ns.childOr name isPublic)
      (ns.setChild name c, fault)

def makeAlong (ns : Namespace) (path : List String) (isPublic : Bool) : Namespace × Option Fault :=
  makeWithin path isPublic path ns

def addCase (ns : Namespace) (c : Case) : Namespace :=
  (ns.setType c.name (.case c)).setValue c.name c.value

/-- Enter a data type, and each of its cases as a type and as a value. A case of the name of its
type takes the type's place. -/
def addFamily (ns : Namespace) (name : String) (cases : List Case) : Namespace :=
  cases.foldl addCase (ns.setType name (.family name cases))

end Namespace

/-- Cases with fresh numbers, from `id` on. -/
def numberCases (id : Nat) : List CaseShape → List Case
  | [] => []
  | s :: ss => { id, name := s.name, arity := s.arity } :: numberCases (id + 1) ss

end MatchLang
