import MatchLang.Grammar.Program

/-! The tokens that spell a tree, and the trees that the grammar has. What a tree says about its text
besides the tokens, the numbers of its names and the lines, is set aside. -/

namespace MatchLang

/-- The parts of a name after its first. -/
def dottedTokens : List String → List Token
  | [] => []
  | s :: parts => .dot :: .name s :: dottedTokens parts

def QName.tokens (n : QName) : List Token :=
  match n.parts with
  | [] => []
  | s :: parts => .name s :: dottedTokens parts

def Literal.token : Literal → Token
  | .number x => .number x
  | .text s => .text s
  | .unit => .unit
  | .emptyList => .emptyList

mutual

def Pattern.tokens : Pattern → List Token
  | .wildcard => [.name "_"]
  | .name _ s _ => [.name s]
  | .literal value _ => [value.token]
  | .list items => .openBracket :: (patternsTokens items ++ [.closeBracket])
  | .type n params => .openParen :: (n.tokens ++ (patternsTokens params ++ [.closeParen]))

def patternsTokens : List Pattern → List Token
  | [] => []
  | p :: ps => p.tokens ++ patternsTokens ps

end

mutual

def Expr.tokens : Expr → List Token
  | .call callee args _ => .openParen :: (callee.tokens ++ (exprsTokens args ++ [.closeParen]))
  | .function params body _ =>
    .openBrace :: (patternsTokens params ++ .arrow :: (body.tokens ++ [.closeBrace]))
  | .list elements _ => .openBracket :: (blocksTokens elements ++ [.closeBracket])
  | .literal value _ => [value.token]
  | .name n => n.tokens
  | .self _ => [.dot]

def exprsTokens : List Expr → List Token
  | [] => []
  | e :: es => e.tokens ++ exprsTokens es

def blocksTokens : List Block → List Token
  | [] => []
  | b :: bs => b.tokens ++ blocksTokens bs

def Block.tokens : Block → List Token
  | .result e => e.tokens
  | .bind p value _ rest => .wordLet :: (p.tokens ++ .equals :: (value.tokens ++ rest.tokens))

end

def nameTokens (names : List String) : List Token :=
  names.map Token.name

def CaseDecl.tokens (c : CaseDecl) : List Token :=
  .name c.name :: nameTokens c.params

/-- The cases after the first. -/
def barredTokens : List CaseDecl → List Token
  | [] => []
  | c :: cs => .bar :: (c.tokens ++ barredTokens cs)

def casesTokens : List CaseDecl → List Token
  | [] => []
  | c :: cs => c.tokens ++ barredTokens cs

def publicTokens (isPublic : Bool) : List Token :=
  if isPublic then [.wordPublic] else []

mutual

def declsTokens : List Decl → List Token
  | [] => []
  | d :: ds => d.tokens ++ declsTokens ds

def Decl.tokens : Decl → List Token
  | .space ns => ns.tokens
  | .type n isPublic cases none =>
    publicTokens isPublic ++ .wordType :: (n.tokens ++ .equals :: casesTokens cases)
  | .type n isPublic cases (some ns) =>
    publicTokens isPublic ++
      .wordType :: (n.tokens ++ .equals :: (casesTokens cases ++ ns.bodyTokens))
  | .binding p value isPublic =>
    publicTokens isPublic ++ .wordLet :: (p.tokens ++ .equals :: value.tokens)

def NamespaceDecl.tokens : NamespaceDecl → List Token
  | .mk n isPublic decls =>
    publicTokens isPublic ++
      .wordNamespace :: (n.tokens ++ .openBrace :: (declsTokens decls ++ [.closeBrace]))

/-- The declarations in their braces, as a namespace and a type both have them. -/
def NamespaceDecl.bodyTokens : NamespaceDecl → List Token
  | .mk _ _ decls => .openBrace :: (declsTokens decls ++ [.closeBrace])

end

def namesTokens : List QName → List Token
  | [] => []
  | n :: ns => n.tokens ++ namesTokens ns

def Import.tokens (i : Import) : List Token :=
  match i.names with
  | [] => [.wordImport, .text i.file]
  | n :: ns => .wordImport :: (n.tokens ++ (namesTokens ns ++ [.wordFrom, .text i.file]))

def importsTokens : List Import → List Token
  | [] => []
  | i :: is => i.tokens ++ importsTokens is

def TrailingCall.tokens (c : TrailingCall) : List Token :=
  c.toExpr.tokens

def trailingTokens : Option TrailingCall → List Token
  | some c => c.tokens
  | none => []

/-- The tokens that spell a program. -/
def Program.tokens (p : Program) : List Token :=
  importsTokens p.imports ++ (declsTokens p.root.decls ++ trailingTokens p.trailing)

section

/-! The shape of the trees that the grammar has. -/

def QName.Shaped (n : QName) : Prop :=
  n.parts ≠ []

mutual

/-- The name `_` stands for the wildcard. -/
def Pattern.Shaped : Pattern → Prop
  | .wildcard => True
  | .name _ s _ => s ≠ "_"
  | .literal _ _ => True
  | .list items => patternsShaped items
  | .type n params => n.Shaped ∧ patternsShaped params

def patternsShaped : List Pattern → Prop
  | [] => True
  | p :: ps => p.Shaped ∧ patternsShaped ps

end

def Expr.isSelf : Expr → Bool
  | .self _ => true
  | _ => false

mutual

/-- The dot can only be called, and what is bound in a block is never public. -/
def Expr.Shaped : Expr → Prop
  | .call callee args _ => (callee.isSelf = true ∨ callee.Shaped) ∧ exprsShaped args
  | .function params body _ => patternsShaped params ∧ body.Shaped
  | .list elements _ => blocksShaped elements
  | .literal _ _ => True
  | .name n => n.Shaped
  | .self _ => False

def exprsShaped : List Expr → Prop
  | [] => True
  | e :: es => e.Shaped ∧ exprsShaped es

def blocksShaped : List Block → Prop
  | [] => True
  | b :: bs => b.Shaped ∧ blocksShaped bs

def Block.Shaped : Block → Prop
  | .result e => e.Shaped
  | .bind p value isPublic rest => p.Shaped ∧ value.Shaped ∧ isPublic = false ∧ rest.Shaped

end

mutual

def declsShaped : List Decl → Prop
  | [] => True
  | d :: ds => d.Shaped ∧ declsShaped ds

/-- A type has a case, and its body goes by the type's own name and is as public as the type. -/
def Decl.Shaped : Decl → Prop
  | .space ns => ns.Shaped
  | .type n _ cases none => n.Shaped ∧ cases ≠ []
  | .type n isPublic cases (some ns) =>
    n.Shaped ∧ cases ≠ [] ∧ ns.name.parts = n.parts ∧ ns.isPublic = isPublic ∧ ns.Shaped
  | .binding p value _ => p.Shaped ∧ value.Shaped

def NamespaceDecl.Shaped : NamespaceDecl → Prop
  | .mk n _ decls => n.Shaped ∧ declsShaped decls

end

def TrailingCall.Shaped (c : TrailingCall) : Prop :=
  c.toExpr.Shaped

structure Program.Shaped (p : Program) : Prop where
  imports : ∀ i ∈ p.imports, ∀ n ∈ i.names, n.Shaped
  root_name : p.root.name.parts = []
  root_public : p.root.isPublic = true
  decls : declsShaped p.root.decls
  trailing : ∀ c ∈ p.trailing, c.Shaped

end

section

/-! Trees without the numbers of their names and without their lines. -/

def QName.plain (n : QName) : QName :=
  { id := 0, parts := n.parts, line := 0 }

mutual

def Pattern.plain : Pattern → Pattern
  | .wildcard => .wildcard
  | .name _ s _ => .name 0 s 0
  | .literal value _ => .literal value 0
  | .list items => .list (plainPatterns items)
  | .type n params => .type n.plain (plainPatterns params)

def plainPatterns : List Pattern → List Pattern
  | [] => []
  | p :: ps => p.plain :: plainPatterns ps

end

mutual

def Expr.plain : Expr → Expr
  | .call callee args _ => .call callee.plain (plainExprs args) 0
  | .function params body _ => .function (plainPatterns params) body.plain 0
  | .list elements _ => .list (plainBlocks elements) 0
  | .literal value _ => .literal value 0
  | .name n => .name n.plain
  | .self _ => .self 0

def plainExprs : List Expr → List Expr
  | [] => []
  | e :: es => e.plain :: plainExprs es

def plainBlocks : List Block → List Block
  | [] => []
  | b :: bs => b.plain :: plainBlocks bs

def Block.plain : Block → Block
  | .result e => .result e.plain
  | .bind p value isPublic rest => .bind p.plain value.plain isPublic rest.plain

end

mutual

def plainDecls : List Decl → List Decl
  | [] => []
  | d :: ds => d.plain :: plainDecls ds

def Decl.plain : Decl → Decl
  | .space ns => .space ns.plain
  | .type n isPublic cases none => .type n.plain isPublic cases none
  | .type n isPublic cases (some ns) => .type n.plain isPublic cases (some ns.plain)
  | .binding p value isPublic => .binding p.plain value.plain isPublic

def NamespaceDecl.plain : NamespaceDecl → NamespaceDecl
  | .mk n isPublic decls => .mk n.plain isPublic (plainDecls decls)

end

def Import.plain (i : Import) : Import :=
  { file := i.file, names := i.names.map QName.plain, line := 0 }

def TrailingCall.plain (c : TrailingCall) : TrailingCall :=
  { callee := c.callee.plain, args := plainExprs c.args, line := 0 }

def Program.plain (p : Program) : Program where
  imports := p.imports.map Import.plain
  root := p.root.plain
  trailing := p.trailing.map TrailingCall.plain

end

section

/-! The first token of a tree. -/

def startsPattern : Token → Bool
  | .openParen | .openBracket | .number _ | .text _ | .unit | .emptyList | .name _ => true
  | _ => false

theorem QName.starts {n : QName} (h : n.Shaped) : ∃ s ts, n.tokens = .name s :: ts := by
  unfold QName.tokens
  cases hp : n.parts with
  | nil => exact absurd hp h
  | cons s parts => exact ⟨s, _, rfl⟩

theorem Pattern.starts (p : Pattern) : ∃ t ts, p.tokens = t :: ts ∧ startsPattern t = true := by
  cases p with
  | literal value line => exact ⟨_, _, rfl, by cases value <;> rfl⟩
  | _ => exact ⟨_, _, rfl, rfl⟩

theorem Expr.starts {e : Expr} (h : e.Shaped) :
    ∃ t ts, e.tokens = t :: ts ∧ startsExpression t = true := by
  cases e with
  | literal value line => exact ⟨_, _, rfl, by cases value <;> rfl⟩
  | name n =>
    obtain ⟨s, ts, he⟩ := QName.starts h
    exact ⟨_, _, he, rfl⟩
  | self line => exact absurd h id
  | _ => exact ⟨_, _, rfl, rfl⟩

theorem Block.starts {b : Block} (h : b.Shaped) :
    ∃ t ts, b.tokens = t :: ts ∧ (t = .wordLet ∨ startsExpression t = true) := by
  cases b with
  | result e =>
    obtain ⟨t, ts, he, ht⟩ := Expr.starts h
    exact ⟨t, ts, he, .inr ht⟩
  | bind p value isPublic rest => exact ⟨_, _, rfl, .inl rfl⟩

theorem Decl.starts (d : Decl) : ∃ t ts, d.tokens = t :: ts ∧ startsDeclaration t = true := by
  have key : ∀ isPublic t ts, startsDeclaration t = true →
      ∃ t' ts', publicTokens isPublic ++ t :: ts = t' :: ts' ∧ startsDeclaration t' = true := by
    intro isPublic t ts ht
    cases isPublic with
    | true => exact ⟨_, _, rfl, rfl⟩
    | false => exact ⟨_, _, rfl, ht⟩
  cases d with
  | space ns =>
    cases ns
    exact key _ _ _ rfl
  | type n isPublic cases body =>
    cases body
    · exact key _ _ _ rfl
    · exact key _ _ _ rfl
  | binding p value isPublic => exact key _ _ _ rfl

theorem Import.starts (i : Import) : ∃ ts, i.tokens = .wordImport :: ts := by
  unfold Import.tokens
  split
  · exact ⟨_, rfl⟩
  · exact ⟨_, rfl⟩

end

end MatchLang
