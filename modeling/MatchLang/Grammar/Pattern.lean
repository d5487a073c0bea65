import MatchLang.Grammar.Reader

/-! Reading patterns. Each rule takes a bound on its nesting, which the number of lexemes
supplies. -/

namespace MatchLang

mutual

/-- A pattern, `'_' | name | '[' pattern* ']' | '(' qname pattern* ')' | literal`. -/
def patternRule : Nat → Reader Pattern
  | 0 => unexpected .pattern
  | n + 1 => do
    let line ← currentLine
    match ← peek with
    | some (.name "_") =>
      advance
      return .wildcard
    | some (.name s) =>
      advance
      return .name (← freshId) s line
    | some .openBracket =>
      advance
      return .list (← patternsUntil n .closeBracket .closeBracket)
    | some .openParen =>
      advance
      let name ← qname
      return .type name (← patternsUntil n .closeParen .closeParen)
    | _ =>
      match ← literal? with
      | some (value, line) => return .literal value line
      | none => unexpected .pattern

/-- Patterns up to a closing token, which is taken too. -/
def patternsUntil : Nat → Token → Expected → Reader (List Pattern)
  | 0, _, expected => unexpected expected
  | n + 1, close, expected => do
    if ← take? close then return []
    else if ← atEnd then unexpected expected
    else
      let p ← patternRule n
      return p :: (← patternsUntil n close expected)

end

end MatchLang
