import MatchLang.Grammar.Pattern

/-! Reading blocks and expressions. -/

namespace MatchLang

def startsExpression : Token → Bool
  | .openParen | .openBrace | .openBracket | .number _ | .text _ | .unit | .emptyList | .name _ =>
    true
  | _ => false

def atExpression : Reader Bool := do
  return (← peek).any startsExpression

mutual

/-- A block, `binding* expression`. -/
def blockRule : Nat → Reader Block
  | 0 => unexpected .expression
  | n + 1 => do
    if ← nextIs .wordLet then
      let (p, value) ← bindingRule n
      return .bind p value false (← blockRule n)
    else return .result (← expressionRule n)

/-- A binding, `'let' pattern '=' block`. -/
def bindingRule : Nat → Reader (Pattern × Block)
  | 0 => unexpected .letWord
  | n + 1 => do
    let _ ← expect .wordLet .letWord
    let p ← patternRule n
    let _ ← expect .equals .equals
    return (p, ← blockRule n)

/-- An expression, `call | function | list | qname | literal`. -/
def expressionRule : Nat → Reader Expr
  | 0 => unexpected .expression
  | n + 1 => do
    match ← peek with
    | some .openParen =>
      let c ← callRule n
      return c.toExpr
    | some .openBrace => functionRule n
    | some .openBracket => listRule n
    | some (.name _) => return .name (← qname)
    | _ =>
      match ← literal? with
      | some (value, line) => return .literal value line
      | none => unexpected .expression

/-- A call, `'(' ('.' | expression) expression* ')'`. -/
def callRule : Nat → Reader TrailingCall
  | 0 => unexpected .openParen
  | n + 1 => do
    let line ← expect .openParen .openParen
    let callee ← calleeRule n
    let args ← argumentsRule n
    let _ ← expect .closeParen .closeParenOrArgument
    return { callee, args, line }

def calleeRule : Nat → Reader Expr
  | 0 => unexpected .expression
  | n + 1 => do
    if ← nextIs .dot then
      let line ← currentLine
      advance
      return .self line
    else expressionRule n

def argumentsRule : Nat → Reader (List Expr)
  | 0 => unexpected .closeParenOrArgument
  | n + 1 => do
    if ← atExpression then
      let e ← expressionRule n
      return e :: (← argumentsRule n)
    else return []

/-- A function, `'{' pattern* '->' block '}'`. -/
def functionRule : Nat → Reader Expr
  | 0 => unexpected .openBrace
  | n + 1 => do
    let line ← expect .openBrace .openBrace
    let params ← patternsUntil n .arrow .arrow
    let body ← blockRule n
    let _ ← expect .closeBrace .closeBrace
    return .function params body line

/-- A list, `'[' block* ']'`. -/
def listRule : Nat → Reader Expr
  | 0 => unexpected .openBracket
  | n + 1 => do
    let line ← expect .openBracket .openBracket
    let elements ← elementsRule n
    let _ ← expect .closeBracket .closeBracketOrElement
    return .list elements line

def elementsRule : Nat → Reader (List Block)
  | 0 => unexpected .closeBracketOrElement
  | n + 1 => do
    if (← nextIs .wordLet) || (← atExpression) then
      let b ← blockRule n
      return b :: (← elementsRule n)
    else return []

end

end MatchLang
