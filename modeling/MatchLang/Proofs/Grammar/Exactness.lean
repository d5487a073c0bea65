import MatchLang.Proofs.Grammar.Complete

/-! The reader and the grammar. What is read is spelled by exactly the tokens there were, and whatever
the grammar spells can be read, in one way only. -/

namespace MatchLang

open Reader

/-- Reading the whole of some lexemes begins here. -/
def Reading.start (ls : List Lexeme) : Reading :=
  { rest := ls, nextId := 0, lastLine := (ls.getLast?.map (·.line)).getD 1 }

theorem Program.ofLexemes_eq_ok {ls : List Lexeme} {p : Program} :
    Program.ofLexemes ls = .ok p ↔ ∃ r, programRule.run (.start ls) = .ok (p, r) := by
  change (programRule.run (.start ls)).map (·.1) = .ok p ↔ _
  cases programRule.run (.start ls) with
  | error e => simp [Except.map]
  | ok x => simp [Except.map, Prod.ext_iff]

theorem Program.faithful_of_ofLexemes {ls : List Lexeme} {p : Program}
    (h : Program.ofLexemes ls = .ok p) : p.tokens = ls.map (·.token) ∧ p.Shaped := by
  obtain ⟨r, hr⟩ := ofLexemes_eq_ok.mp h
  rw [programRule_eq_within (Nat.le_refl _)] at hr
  obtain ⟨he, hshape⟩ := programRuleWithin_faithful hr
  exact ⟨he.symm, hshape⟩

theorem Program.ofLexemes_of_tokens {ls : List Lexeme} {p : Program} (hp : p.Shaped)
    (h : p.tokens = ls.map (·.token)) :
    ∃ q, Program.ofLexemes ls = .ok q ∧ q.plain = p.plain := by
  have hstart : (Reading.start ls).tokens = p.tokens := h.symm
  obtain ⟨q, r, hrun, hq, _⟩ := programRuleWithin_reads hstart hp (Nat.le_refl _)
  rw [← programRule_eq_within (Nat.le_refl _)] at hrun
  exact ⟨q, ofLexemes_eq_ok.mpr ⟨r, hrun⟩, hq⟩

/-- The grammar is not ambiguous: programs with the same tokens are the same. -/
theorem Program.plain_eq_of_tokens {p q : Program} (hp : p.Shaped) (hq : q.Shaped)
    (h : p.tokens = q.tokens) : p.plain = q.plain := by
  have hls : (p.tokens.map fun t => (⟨t, 1⟩ : Lexeme)).map (·.token) = p.tokens := by
    rw [List.map_map]
    exact List.map_id _
  obtain ⟨p', hp', hpp⟩ := ofLexemes_of_tokens hp hls.symm
  obtain ⟨q', hq', hqq⟩ := ofLexemes_of_tokens hq (h.symm.trans hls.symm)
  rw [hp'] at hq'
  cases hq'
  rw [← hpp, hqq]

/-- Reading accepts what its grammar spells and nothing else, and loses nothing: a program that has
been read is spelled by all the tokens, in their order, and has the shape of the grammar; from tokens
that spell a program of that shape this program is read, but for numbers and lines; all others are
refused. No loop and no rule is cut short by its bound, as the bounds that they are given settle what
they answer. -/
theorem reading_is_exact :
    (∀ ls p, Program.ofLexemes ls = .ok p → p.tokens = ls.map (·.token) ∧ p.Shaped) ∧
    (∀ (ls : List Lexeme) (p : Program), p.Shaped → p.tokens = ls.map (·.token) →
      ∃ q, Program.ofLexemes ls = .ok q ∧ q.plain = p.plain) ∧
    (∀ ls : List Lexeme, (∀ p : Program, p.Shaped → p.tokens ≠ ls.map (·.token)) →
      ∃ e, Program.ofLexemes ls = .error e) ∧
    (Settles nameParts id ∧ Settles caseFields id ∧ Settles moreCases id ∧
      Settles importNames (· + 1) ∧ Settles importsRule id ∧
      Settles declarationsRule (4 * · + 4) ∧ Settles callRule (4 * · + 4)) := by
  refine ⟨fun ls p => Program.faithful_of_ofLexemes, fun ls p => Program.ofLexemes_of_tokens, ?_, ?_⟩
  · intro ls hne
    cases h : Program.ofLexemes ls with
    | error e => exact ⟨e, rfl⟩
    | ok p =>
      obtain ⟨he, hp⟩ := Program.faithful_of_ofLexemes h
      exact absurd he (hne p hp)
  · exact ⟨settles_of_step fun _ _ => nameParts_enough, settles_of_step fun _ _ => caseFields_enough,
      settles_of_step fun _ _ => moreCases_enough, settles_of_step fun _ _ => importNames_enough,
      importsRule_settles, declarationsRule_settles, callRule_settles⟩

/-- The tokens of `type T = A | B x { let f = { [y _] -> (. y) } } (T.f "a")`, all on one line. -/
def everyBracket : List Lexeme :=
  [.wordType, .name "T", .equals, .name "A", .bar, .name "B", .name "x",
    .openBrace, .wordLet, .name "f", .equals,
      .openBrace, .openBracket, .name "y", .name "_", .closeBracket, .arrow,
        .openParen, .dot, .name "y", .closeParen, .closeBrace, .closeBrace,
    .openParen, .name "T", .dot, .name "f", .text "a", .closeParen].map fun t => ⟨t, 1⟩

def everyBracketProgram : Program where
  imports := []
  root := .mk ⟨4, [], 1⟩ true
    [.type ⟨0, ["T"], 1⟩ false [⟨"A", []⟩, ⟨"B", ["x"]⟩] (some (.mk ⟨0, ["T"], 1⟩ false
      [.binding (.name 1 "f" 1)
        (.result (.function [.list [.name 2 "y" 1, .wildcard]]
          (.result (.call (.self 1) [.name ⟨3, ["y"], 1⟩] 1)) 1)) false]))]
  trailing := some ⟨.name ⟨5, ["T", "f"], 1⟩, [.literal (.text "a") 1], 1⟩

/-- With other numbers and lines this is the same program, and an equals sign alone is none. -/
theorem everyBracket_is_read_exactly :
    (everyBracketProgram.tokens = everyBracket.map (·.token) ∧ everyBracketProgram.Shaped) ∧
    (∃ q, Program.ofLexemes everyBracket = .ok q ∧ q.plain = everyBracketProgram.plain.plain) ∧
    ∃ e, Program.ofLexemes [⟨.equals, 1⟩] = .error e := by
  have hread := reading_is_exact.1 everyBracket everyBracketProgram rfl
  have hshaped : everyBracketProgram.plain.Shaped := by
    refine ⟨by simp [everyBracketProgram, Program.plain], rfl, rfl, ?_, ?_⟩
    · simp [everyBracketProgram, Program.plain, NamespaceDecl.plain, NamespaceDecl.decls,
        NamespaceDecl.name, NamespaceDecl.isPublic, plainDecls, Decl.plain, declsShaped,
        Decl.Shaped, NamespaceDecl.Shaped, QName.plain, QName.Shaped, Pattern.plain,
        plainPatterns, Block.plain, Expr.plain, plainExprs, Pattern.Shaped, patternsShaped,
        Block.Shaped, Expr.Shaped, exprsShaped, Expr.isSelf]
    · simp [everyBracketProgram, Program.plain, TrailingCall.plain, TrailingCall.Shaped,
        TrailingCall.toExpr, Expr.plain, plainExprs, Expr.Shaped, exprsShaped, QName.plain,
        QName.Shaped]
  refine ⟨hread, reading_is_exact.2.1 everyBracket everyBracketProgram.plain hshaped rfl, ?_⟩
  refine reading_is_exact.2.2.1 [⟨.equals, 1⟩] fun p hp h => ?_
  obtain ⟨q, hq, _⟩ := Program.ofLexemes_of_tokens hp h
  cases hq

end MatchLang
