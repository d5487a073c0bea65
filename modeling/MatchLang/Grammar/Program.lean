import MatchLang.Grammar.Expression
import MatchLang.Token.Scan

/-! Reading declarations, imports and whole programs. -/

namespace MatchLang

/-- The fields of a case, one name each. -/
def caseFields : Nat → Reader (List String)
  | 0 => return []
  | n + 1 => do
    match ← peek with
    | some (.name s) =>
      advance
      return s :: (← caseFields n)
    | _ => return []

def caseRule : Reader CaseDecl := do
  let (name, _) ← expectName .caseName
  return { name, params := ← caseFields (← remaining) }

/-- Further cases, `('|' case)*`. -/
def moreCases : Nat → Reader (List CaseDecl)
  | 0 => return []
  | n + 1 => do
    if ← take? .bar then
      let c ← caseRule
      return c :: (← moreCases n)
    else return []

def startsDeclaration : Token → Bool
  | .wordPublic | .wordNamespace | .wordType | .wordLet => true
  | _ => false

def atDeclaration : Reader Bool := do
  return (← peek).any startsDeclaration

mutual

def declarationsRule : Nat → Reader (List Decl)
  | 0 => unexpected .declaration
  | n + 1 => do
    if ← atDeclaration then
      let d ← declarationRule n
      return d :: (← declarationsRule n)
    else return []

/-- A declaration, `'public'? (namespace | type | binding)`. -/
def declarationRule : Nat → Reader Decl
  | 0 => unexpected .declaration
  | n + 1 => do
    let isPublic ← take? .wordPublic
    match ← peek with
    | some .wordNamespace => return .space (← namespaceRule n isPublic)
    | some .wordType => typeRule n isPublic
    | some .wordLet =>
      let (p, value) ← bindingRule n
      return .binding p value isPublic
    | _ => unexpected .declaration

/-- The body of a namespace or a type, `'{' declaration* '}'`. -/
def bodyRule : Nat → Reader (List Decl)
  | 0 => unexpected .openBrace
  | n + 1 => do
    let _ ← expect .openBrace .openBrace
    let decls ← declarationsRule n
    let _ ← expect .closeBrace .closeBraceOrDeclaration
    return decls

/-- A namespace, `'namespace' qname body`. -/
def namespaceRule : Nat → Bool → Reader NamespaceDecl
  | 0, _ => unexpected .declaration
  | n + 1, isPublic => do
    let _ ← expect .wordNamespace .declaration
    let name ← qname
    return .mk name isPublic (← bodyRule n)

/-- A type, `'type' qname '=' case ('|' case)* body?`. -/
def typeRule : Nat → Bool → Reader Decl
  | 0, _ => unexpected .declaration
  | n + 1, isPublic => do
    let _ ← expect .wordType .declaration
    let name ← qname
    let _ ← expect .equals .equals
    let first ← caseRule
    let cases ← moreCases (← remaining)
    if ← nextIs .openBrace then
      let decls ← bodyRule n
      return .type name isPublic (first :: cases) (some (.mk name isPublic decls))
    else return .type name isPublic (first :: cases) none

end

/-- The names of an import, `qname+ 'from'`. -/
def importNames : Nat → Reader (List QName)
  | 0 => unexpected .name
  | n + 1 => do
    let name ← qname
    if ← take? .wordFrom then return [name]
    else return name :: (← importNames n)

/-- An import, `'import' (qname+ 'from')? text`. -/
def importRule : Reader Import := do
  let line ← currentLine
  advance
  let names ← match ← peek with
    | some (.text _) => pure []
    | _ => do importNames ((← remaining) + 1)
  return { file := ← expectText .fileName, names, line }

def importsRule : Nat → Reader (List Import)
  | 0 => return []
  | n + 1 => do
    if ← nextIs .wordImport then
      let i ← importRule
      return i :: (← importsRule n)
    else return []

/-- A program, `import* declaration* call?` and then the end. Between two tokens read, no more than
four rules nest. -/
def programRule : Reader Program := do
  let imports ← importsRule (← remaining)
  let decls ← declarationsRule (4 * (← remaining) + 4)
  let root := NamespaceDecl.mk { id := ← freshId, parts := [], line := 1 } true decls
  let trailing ← if ← nextIs .openParen then
      some <$> callRule (4 * (← remaining) + 4)
    else pure none
  if ← atEnd then return { imports, root, trailing } else unexpected .declarationOrCall

/-- The program a sequence of lexemes spells. -/
def Program.ofLexemes (ls : List Lexeme) : Except ParseError Program :=
  let lastLine := (ls.getLast?.map (·.line)).getD 1
  (programRule.run { rest := ls, nextId := 0, lastLine }).map (·.1)

/-- The program a text spells. -/
def Program.read (source : String) : Except ParseError Program := do
  Program.ofLexemes (← scan source)

end MatchLang
