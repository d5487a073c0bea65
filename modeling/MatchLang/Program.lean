import MatchLang.Number.Shortest

/-! The tree of a program: imports, a root namespace of declarations, and a call at the end. A block
is a run of local bindings before one expression. Names and name patterns carry a number of their
own, since two occurrences of `x` need not mean the same thing. -/

namespace MatchLang

/-- A name with its namespaces in front, `Outer.Inner.x`. -/
structure QName where
  id : Nat
  parts : List String
  line : Nat
  deriving DecidableEq, Inhabited

def dotted (parts : List String) : String :=
  ".".intercalate parts

def QName.text (n : QName) : String :=
  dotted n.parts

/-- The only part of a name that has one. -/
def QName.single? (n : QName) : Option String :=
  match n.parts with
  | [s] => some s
  | _ => none

inductive Literal where
  | number (value : Float)
  | text (value : String)
  | unit
  | emptyList
  deriving Inhabited

def Literal.describe : Literal → String
  | .number x => numberText x
  | .text s => "\"" ++ s ++ "\""
  | .unit => "()"
  | .emptyList => "[]"

inductive Pattern where
  | wildcard
  | name (id : Nat) (name : String) (line : Nat)
  | literal (value : Literal) (line : Nat)
  | list (items : List Pattern)
  | type (name : QName) (params : List Pattern)
  deriving Inhabited

mutual

def Pattern.describe : Pattern → String
  | .wildcard => "_"
  | .name _ s _ => s
  | .literal value _ => value.describe
  | .list items => "[" ++ " ".intercalate (describePatterns items) ++ "]"
  | .type n params => "(" ++ " ".intercalate (n.text :: describePatterns params) ++ ")"

def describePatterns : List Pattern → List String
  | [] => []
  | p :: ps => p.describe :: describePatterns ps

end

mutual

/-- The expression `self` is the dot, which stands for the enclosing function. -/
inductive Expr where
  | call (callee : Expr) (args : List Expr) (line : Nat)
  | function (params : List Pattern) (body : Block) (line : Nat)
  | list (elements : List Block) (line : Nat)
  | literal (value : Literal) (line : Nat)
  | name (name : QName)
  | self (line : Nat)

/-- In `bind p b isPublic rest` the binding `let p = b` comes before `rest`. -/
inductive Block where
  | result (value : Expr)
  | bind (pattern : Pattern) (value : Block) (isPublic : Bool) (rest : Block)

end

instance : Inhabited Expr := ⟨.self 0⟩
instance : Inhabited Block := ⟨.result default⟩

def Expr.line : Expr → Nat
  | .call _ _ l => l
  | .function _ _ l => l
  | .list _ l => l
  | .literal _ l => l
  | .name n => n.line
  | .self l => l

/-- The expression a block ends with. -/
def Block.value : Block → Expr
  | .result e => e
  | .bind _ _ _ rest => rest.value

def Block.hasBindings : Block → Bool
  | .result _ => false
  | .bind .. => true

/-- The patterns of a block's own bindings, in order. -/
def Block.patterns : Block → List Pattern
  | .result _ => []
  | .bind p _ _ rest => p :: rest.patterns

/-- The name that is not called but compiled to a choice between patterns. -/
def matchWord : String := "match"

def Expr.isMatchName : Expr → Bool
  | .name n => n.parts == [matchWord]
  | _ => false

structure CaseDecl where
  name : String
  params : List String
  deriving DecidableEq, Inhabited

def CaseDecl.arity (c : CaseDecl) : Nat :=
  c.params.length

mutual

/-- A type may carry a body of declarations, which is a namespace of its own. -/
inductive Decl where
  | space (space : NamespaceDecl)
  | type (name : QName) (isPublic : Bool) (cases : List CaseDecl) (body : Option NamespaceDecl)
  | binding (pattern : Pattern) (value : Block) (isPublic : Bool)

inductive NamespaceDecl where
  | mk (name : QName) (isPublic : Bool) (decls : List Decl)

end

instance : Inhabited NamespaceDecl := ⟨.mk default true []⟩
instance : Inhabited Decl := ⟨.space default⟩

def NamespaceDecl.name : NamespaceDecl → QName
  | .mk n _ _ => n

def NamespaceDecl.isPublic : NamespaceDecl → Bool
  | .mk _ p _ => p

def NamespaceDecl.decls : NamespaceDecl → List Decl
  | .mk _ _ ds => ds

/-- The patterns of the bindings that stand directly among some declarations. -/
def bindingPatterns (decls : List Decl) : List Pattern :=
  decls.filterMap fun
    | .binding p _ _ => some p
    | _ => none

/-- No names means everything public. -/
structure Import where
  file : String
  names : List QName
  line : Nat
  deriving Inhabited

/-- The call at the end of a program. -/
structure TrailingCall where
  callee : Expr
  args : List Expr
  line : Nat
  deriving Inhabited

def TrailingCall.toExpr (c : TrailingCall) : Expr :=
  .call c.callee c.args c.line

structure Program where
  imports : List Import
  root : NamespaceDecl
  trailing : Option TrailingCall

end MatchLang
