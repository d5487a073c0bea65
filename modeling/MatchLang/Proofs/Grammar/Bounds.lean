import MatchLang.Proofs.Grammar.Faithful

/-! The bounds of the rules. A rule bounds its nesting, and a loop its turns, by a number that comes
from how many tokens are left. A larger number changes nothing, so no reading is cut short: neither one
that succeeds nor one that fails. -/

namespace MatchLang

open Reader Reading

section

/-! How much the readers take. -/

variable {r r' : Reading}

theorem length_lt_of_tokens {t : Token} {ts us : List Token} (h : r.tokens = us ++ r'.tokens)
    (hus : us = t :: ts) : r'.tokens.length < r.tokens.length := by
  rw [h, hus, List.length_append, List.length_cons]
  omega

theorem expect_takes {t : Token} {e : Expected} {line : Nat} (ht : t.isSign = true)
    (h : (expect t e).run r = .ok (line, r')) : r'.tokens.length < r.tokens.length := by
  rw [expect_faithful ht h, List.length_cons]
  omega

theorem qname_takes {n : QName} (h : qname.run r = .ok (n, r')) :
    r'.tokens.length < r.tokens.length := by
  obtain ⟨he, hshape⟩ := qname_faithful h
  obtain ⟨s, ts, hn⟩ := QName.starts hshape
  exact length_lt_of_tokens he hn

theorem patternRule_takes {n : Nat} {p : Pattern} (h : (patternRule n).run r = .ok (p, r')) :
    r'.tokens.length < r.tokens.length := by
  obtain ⟨t, ts, hp, _⟩ := p.starts
  exact length_lt_of_tokens (patternRule_faithful h).1 hp

theorem patternsUntil_takes {n : Nat} {close : Token} {e : Expected} {ps : List Pattern}
    (hc : close.isSign = true) (h : (patternsUntil n close e).run r = .ok (ps, r')) :
    r'.tokens.length < r.tokens.length := by
  rw [(patternsUntil_faithful hc h).1, List.length_append, List.length_cons]
  omega

theorem expressionRule_takes {n : Nat} {e : Expr} (h : (expressionRule n).run r = .ok (e, r')) :
    r'.tokens.length < r.tokens.length := by
  obtain ⟨he, hshape⟩ := expressionRule_faithful h
  obtain ⟨t, ts, ht, _⟩ := Expr.starts hshape
  exact length_lt_of_tokens he ht

theorem calleeRule_takes {n : Nat} {e : Expr} (h : (calleeRule n).run r = .ok (e, r')) :
    r'.tokens.length ≤ r.tokens.length := by
  rw [(calleeRule_faithful h).1, List.length_append]
  omega

theorem blockRule_takes {n : Nat} {b : Block} (h : (blockRule n).run r = .ok (b, r')) :
    r'.tokens.length < r.tokens.length := by
  obtain ⟨he, hshape⟩ := blockRule_faithful h
  obtain ⟨t, ts, ht, _⟩ := Block.starts hshape
  exact length_lt_of_tokens he ht

theorem bindingRule_takes {n : Nat} {x : Pattern × Block}
    (h : (bindingRule n).run r = .ok (x, r')) : r'.tokens.length < r.tokens.length := by
  rw [(bindingRule_faithful h).1]
  simp only [List.length_cons, List.length_append]
  omega

theorem caseRule_takes {c : CaseDecl} (h : caseRule.run r = .ok (c, r')) :
    r'.tokens.length < r.tokens.length :=
  length_lt_of_tokens (caseRule_faithful h) rfl

theorem moreCases_takes {n : Nat} {cs : List CaseDecl}
    (h : (moreCases n).run r = .ok (cs, r')) : r'.tokens.length ≤ r.tokens.length := by
  rw [moreCases_faithful h, List.length_append]
  omega

theorem declarationRule_takes {n : Nat} {d : Decl} (h : (declarationRule n).run r = .ok (d, r')) :
    r'.tokens.length < r.tokens.length := by
  obtain ⟨t, ts, hd, _⟩ := d.starts
  exact length_lt_of_tokens (declarationRule_faithful h).1 hd

theorem takePublic_takes {isPublic : Bool}
    (h : (take? .wordPublic).run r = .ok (isPublic, r')) :
    r'.tokens.length ≤ r.tokens.length := by
  rw [takePublic_faithful h, List.length_append]
  omega

theorem importRule_takes {i : Import} (hn : r.nextIs .wordImport = true)
    (h : importRule.run r = .ok (i, r')) : r'.tokens.length < r.tokens.length := by
  obtain ⟨ts, hi⟩ := i.starts
  exact length_lt_of_tokens (importRule_faithful hn h).1 hi

end

section

variable {r : Reading} {n : Nat}

theorem length_of_head {t : Token} (h : r.tokens.head? = some t) :
    r.tokens.length = r.next.tokens.length + 1 := by
  rw [tokens_of_head h, List.length_cons]

theorem length_of_nextIs {t : Token} (ht : t.isSign = true) (h : r.nextIs t = true) :
    r.tokens.length = r.next.tokens.length + 1 :=
  length_of_head ((nextIs_iff ht).mp h)

theorem nameParts_enough (hn : r.tokens.length ≤ n) :
    (nameParts (n + 1)).run r = (nameParts n).run r := by
  induction n generalizing r with
  | zero =>
    have hr : r.tokens = [] := List.eq_nil_of_length_eq_zero (by omega)
    rw [Nat.zero_add, nameParts.eq_2, peek_bind, hr]
    rfl
  | succ n ih =>
    rw [nameParts, nameParts, peek_bind, peek_bind, peekSecond_bind, peekSecond_bind]
    split
    · next s hdot hs =>
      rw [← next_tokens] at hs
      have h₁ := length_of_head hdot
      have h₂ := length_of_head hs
      rw [advance_bind, advance_bind, advance_bind, advance_bind]
      exact bind_congr (ih (by omega)) fun _ _ _ => rfl
    · rfl

theorem caseFields_enough (hn : r.tokens.length ≤ n) :
    (caseFields (n + 1)).run r = (caseFields n).run r := by
  induction n generalizing r with
  | zero =>
    have hr : r.tokens = [] := List.eq_nil_of_length_eq_zero (by omega)
    rw [Nat.zero_add, caseFields.eq_2, peek_bind, hr]
    rfl
  | succ n ih =>
    rw [caseFields, caseFields, peek_bind, peek_bind]
    split
    · next s hs =>
      have hlen := length_of_head hs
      rw [advance_bind, advance_bind]
      exact bind_congr (ih (by omega)) fun _ _ _ => rfl
    · rfl

theorem moreCases_enough (hn : r.tokens.length ≤ n) :
    (moreCases (n + 1)).run r = (moreCases n).run r := by
  induction n generalizing r with
  | zero =>
    have hr : r.tokens = [] := List.eq_nil_of_length_eq_zero (by omega)
    rw [Nat.zero_add, moreCases.eq_2, take?_bind, Reading.nextIs, hr]
    rfl
  | succ n ih =>
    rw [moreCases, moreCases, take?_bind, take?_bind]
    split
    · next hn =>
      have h₁ := length_of_nextIs rfl hn
      refine bind_congr rfl fun c r₁ hc => ?_
      have h₂ := caseRule_takes hc
      exact bind_congr (ih (by omega)) fun _ _ _ => rfl
    · rfl

mutual

theorem patternRule_enough {r : Reading} {n : Nat} (hn : 2 * r.tokens.length + 1 ≤ n) :
    (patternRule (n + 1)).run r = (patternRule n).run r := by
  match n with
  | n + 1 =>
    rw [patternRule, patternRule, currentLine_bind, currentLine_bind, peek_bind, peek_bind]
    split
    · rfl
    · rfl
    · next hs =>
      have hlen := length_of_head hs
      rw [advance_bind, advance_bind]
      exact bind_congr (patternsUntil_enough rfl (by omega)) fun _ _ _ => rfl
    · next hs =>
      have hlen := length_of_head hs
      rw [advance_bind, advance_bind]
      refine bind_congr rfl fun name r₁ hname => ?_
      have hlen' := qname_takes hname
      exact bind_congr (patternsUntil_enough rfl (by omega)) fun _ _ _ => rfl
    · rfl

theorem patternsUntil_enough {r : Reading} {n : Nat} {close : Token} {e : Expected}
    (hc : close.isSign = true) (hn : 2 * r.tokens.length + 2 ≤ n) :
    (patternsUntil (n + 1) close e).run r = (patternsUntil n close e).run r := by
  match n with
  | n + 1 =>
    rw [patternsUntil, patternsUntil, take?_bind, take?_bind]
    split
    · rfl
    · simp only [Bool.false_eq_true, if_false, atEnd_bind]
      split
      · rfl
      · refine bind_congr (patternRule_enough (by omega)) fun p r₁ hp => ?_
        have hlen := patternRule_takes hp
        exact bind_congr (patternsUntil_enough hc (by omega)) fun _ _ _ => rfl

end

mutual

theorem blockRule_enough {r : Reading} {n : Nat} (hn : 4 * r.tokens.length + 3 ≤ n) :
    (blockRule (n + 1)).run r = (blockRule n).run r := by
  match n with
  | n + 1 =>
    rw [blockRule, blockRule, nextIs_bind, nextIs_bind]
    split
    · refine bind_congr (bindingRule_enough (by omega)) fun x r₁ hx => ?_
      have hlen := bindingRule_takes hx
      exact bind_congr (blockRule_enough (by omega)) fun _ _ _ => rfl
    · exact bind_congr (expressionRule_enough (by omega)) fun _ _ _ => rfl

theorem bindingRule_enough {r : Reading} {n : Nat} (hn : 4 * r.tokens.length + 1 ≤ n) :
    (bindingRule (n + 1)).run r = (bindingRule n).run r := by
  match n with
  | n + 1 =>
    rw [bindingRule, bindingRule]
    refine bind_congr rfl fun _ r₁ hlet => ?_
    have h₁ := expect_takes rfl hlet
    refine bind_congr (patternRule_enough (by omega)) fun p r₂ hp => ?_
    have h₂ := patternRule_takes hp
    refine bind_congr rfl fun _ r₃ hequals => ?_
    have h₃ := expect_takes rfl hequals
    exact bind_congr (blockRule_enough (by omega)) fun _ _ _ => rfl

theorem expressionRule_enough {r : Reading} {n : Nat} (hn : 4 * r.tokens.length + 2 ≤ n) :
    (expressionRule (n + 1)).run r = (expressionRule n).run r := by
  match n with
  | n + 1 =>
    rw [expressionRule, expressionRule, peek_bind, peek_bind]
    split
    · exact bind_congr (callRule_enough (by omega)) fun _ _ _ => rfl
    · exact functionRule_enough (by omega)
    · exact listRule_enough (by omega)
    · rfl
    · rfl

theorem callRule_enough {r : Reading} {n : Nat} (hn : 4 * r.tokens.length + 1 ≤ n) :
    (callRule (n + 1)).run r = (callRule n).run r := by
  match n with
  | n + 1 =>
    rw [callRule, callRule]
    refine bind_congr rfl fun line r₁ hopen => ?_
    have h₁ := expect_takes rfl hopen
    refine bind_congr (calleeRule_enough (by omega)) fun callee r₂ hcallee => ?_
    have h₂ := calleeRule_takes hcallee
    exact bind_congr (argumentsRule_enough (by omega)) fun _ _ _ => rfl

theorem calleeRule_enough {r : Reading} {n : Nat} (hn : 4 * r.tokens.length + 3 ≤ n) :
    (calleeRule (n + 1)).run r = (calleeRule n).run r := by
  match n with
  | n + 1 =>
    rw [calleeRule, calleeRule, nextIs_bind, nextIs_bind]
    split
    · rfl
    · exact expressionRule_enough (by omega)

theorem argumentsRule_enough {r : Reading} {n : Nat} (hn : 4 * r.tokens.length + 3 ≤ n) :
    (argumentsRule (n + 1)).run r = (argumentsRule n).run r := by
  match n with
  | n + 1 =>
    rw [argumentsRule, argumentsRule, atExpression_bind, atExpression_bind]
    split
    · refine bind_congr (expressionRule_enough (by omega)) fun e r₁ he => ?_
      have hlen := expressionRule_takes he
      exact bind_congr (argumentsRule_enough (by omega)) fun _ _ _ => rfl
    · rfl

theorem functionRule_enough {r : Reading} {n : Nat} (hn : 4 * r.tokens.length + 1 ≤ n) :
    (functionRule (n + 1)).run r = (functionRule n).run r := by
  match n with
  | n + 1 =>
    rw [functionRule, functionRule]
    refine bind_congr rfl fun line r₁ hopen => ?_
    have h₁ := expect_takes rfl hopen
    refine bind_congr (patternsUntil_enough rfl (by omega)) fun params r₂ hparams => ?_
    have h₂ := patternsUntil_takes rfl hparams
    exact bind_congr (blockRule_enough (by omega)) fun _ _ _ => rfl

theorem listRule_enough {r : Reading} {n : Nat} (hn : 4 * r.tokens.length + 1 ≤ n) :
    (listRule (n + 1)).run r = (listRule n).run r := by
  match n with
  | n + 1 =>
    rw [listRule, listRule]
    refine bind_congr rfl fun line r₁ hopen => ?_
    have h₁ := expect_takes rfl hopen
    exact bind_congr (elementsRule_enough (by omega)) fun _ _ _ => rfl

theorem elementsRule_enough {r : Reading} {n : Nat} (hn : 4 * r.tokens.length + 4 ≤ n) :
    (elementsRule (n + 1)).run r = (elementsRule n).run r := by
  match n with
  | n + 1 =>
    rw [elementsRule, elementsRule, nextIs_bind, nextIs_bind, atExpression_bind, atExpression_bind]
    split
    · refine bind_congr (blockRule_enough (by omega)) fun b r₁ hb => ?_
      have hlen := blockRule_takes hb
      exact bind_congr (elementsRule_enough (by omega)) fun _ _ _ => rfl
    · rfl

end

mutual

theorem declarationsRule_enough {r : Reading} {n : Nat} (hn : 4 * r.tokens.length + 3 ≤ n) :
    (declarationsRule (n + 1)).run r = (declarationsRule n).run r := by
  match n with
  | n + 1 =>
    rw [declarationsRule, declarationsRule, atDeclaration_bind, atDeclaration_bind]
    split
    · refine bind_congr (declarationRule_enough (by omega)) fun d r₁ hd => ?_
      have hlen := declarationRule_takes hd
      exact bind_congr (declarationsRule_enough (by omega)) fun _ _ _ => rfl
    · rfl

theorem declarationRule_enough {r : Reading} {n : Nat} (hn : 4 * r.tokens.length + 2 ≤ n) :
    (declarationRule (n + 1)).run r = (declarationRule n).run r := by
  match n with
  | n + 1 =>
    rw [declarationRule, declarationRule]
    refine bind_congr rfl fun isPublic r₁ hpublic => ?_
    have hlen := takePublic_takes hpublic
    rw [peek_bind, peek_bind]
    split
    · exact bind_congr (namespaceRule_enough (by omega)) fun _ _ _ => rfl
    · exact typeRule_enough (by omega)
    · exact bind_congr (bindingRule_enough (by omega)) fun _ _ _ => rfl
    · rfl

theorem bodyRule_enough {r : Reading} {n : Nat} (hn : 4 * r.tokens.length + 1 ≤ n) :
    (bodyRule (n + 1)).run r = (bodyRule n).run r := by
  match n with
  | n + 1 =>
    rw [bodyRule, bodyRule]
    refine bind_congr rfl fun _ r₁ hopen => ?_
    have h₁ := expect_takes rfl hopen
    exact bind_congr (declarationsRule_enough (by omega)) fun _ _ _ => rfl

theorem namespaceRule_enough {r : Reading} {n : Nat} {isPublic : Bool}
    (hn : 4 * r.tokens.length + 1 ≤ n) :
    (namespaceRule (n + 1) isPublic).run r = (namespaceRule n isPublic).run r := by
  match n with
  | n + 1 =>
    rw [namespaceRule, namespaceRule]
    refine bind_congr rfl fun _ r₁ hword => ?_
    have h₁ := expect_takes rfl hword
    refine bind_congr rfl fun name r₂ hname => ?_
    have h₂ := qname_takes hname
    exact bind_congr (bodyRule_enough (by omega)) fun _ _ _ => rfl

theorem typeRule_enough {r : Reading} {n : Nat} {isPublic : Bool}
    (hn : 4 * r.tokens.length + 1 ≤ n) :
    (typeRule (n + 1) isPublic).run r = (typeRule n isPublic).run r := by
  match n with
  | n + 1 =>
    rw [typeRule, typeRule]
    refine bind_congr rfl fun _ r₁ hword => ?_
    have h₁ := expect_takes rfl hword
    refine bind_congr rfl fun name r₂ hname => ?_
    have h₂ := qname_takes hname
    refine bind_congr rfl fun _ r₃ hequals => ?_
    have h₃ := expect_takes rfl hequals
    refine bind_congr rfl fun first r₄ hfirst => ?_
    have h₄ := caseRule_takes hfirst
    rw [remaining_bind, remaining_bind]
    refine bind_congr rfl fun more r₅ hmore => ?_
    have h₅ := moreCases_takes hmore
    rw [nextIs_bind, nextIs_bind]
    split
    · exact bind_congr (bodyRule_enough (by omega)) fun _ _ _ => rfl
    · rfl

end

theorem importNames_enough (hn : r.tokens.length + 1 ≤ n) :
    (importNames (n + 1)).run r = (importNames n).run r := by
  induction n generalizing r with
  | zero => omega
  | succ n ih =>
    rw [importNames, importNames]
    refine bind_congr rfl fun name r₁ hname => ?_
    have hlen := qname_takes hname
    rw [take?_bind, take?_bind]
    split
    · rfl
    · exact bind_congr (ih (by omega)) fun _ _ _ => rfl

theorem importsRule_enough (hn : r.tokens.length ≤ n) :
    (importsRule (n + 1)).run r = (importsRule n).run r := by
  induction n generalizing r with
  | zero =>
    have hr : r.tokens = [] := List.eq_nil_of_length_eq_zero (by omega)
    rw [Nat.zero_add, importsRule.eq_2, nextIs_bind, Reading.nextIs, hr]
    rfl
  | succ n ih =>
    rw [importsRule, importsRule, nextIs_bind, nextIs_bind]
    split
    · next hn =>
      refine bind_congr rfl fun i r₁ hi => ?_
      have hlen := importRule_takes hn hi
      exact bind_congr (ih (by omega)) fun _ _ _ => rfl
    · rfl

end

/-- Beyond `bound`, for so many tokens left, a larger bound changes nothing. -/
def Reader.Settles {α : Type} (m : Nat → Reader α) (bound : Nat → Nat) : Prop :=
  ∀ r n, bound r.tokens.length ≤ n → (m n).run r = (m (bound r.tokens.length)).run r

theorem Reader.settles_of_step {α : Type} {m : Nat → Reader α} {bound : Nat → Nat}
    (h : ∀ r n, bound r.tokens.length ≤ n → (m (n + 1)).run r = (m n).run r) :
    Settles m bound := by
  intro r n hn
  induction hn with
  | refl => rfl
  | step hn ih => rw [h r _ hn, ih]

theorem declarationsRule_settles : Settles declarationsRule fun k => 4 * k + 4 :=
  settles_of_step fun _ _ hn => declarationsRule_enough (by omega)

theorem callRule_settles : Settles callRule fun k => 4 * k + 4 :=
  settles_of_step fun _ _ hn => callRule_enough (by omega)

theorem importsRule_settles : Settles importsRule id :=
  settles_of_step fun _ _ hn => importsRule_enough hn

/-- One bound does for the whole of a program as well as the bounds that its parts have. -/
theorem programRule_eq_within {r : Reading} {n : Nat} (hn : 4 * r.tokens.length + 4 ≤ n) :
    programRule.run r = (programRuleWithin n).run r := by
  rw [programRule, programRuleWithin, remaining_bind]
  have hi : r.tokens.length ≤ n := by omega
  refine bind_congr (importsRule_settles r n hi).symm fun imports r₁ himports => ?_
  rw [remaining_bind]
  have h₁ : r₁.tokens.length ≤ r.tokens.length := by
    rw [(importsRule_faithful himports).1, List.length_append]
    omega
  have hd : 4 * r₁.tokens.length + 4 ≤ n := by omega
  refine bind_congr (declarationsRule_settles r₁ n hd).symm fun decls r₂ hdecls => ?_
  have h₂ : r₂.tokens.length ≤ r₁.tokens.length := by
    rw [(declarationsRule_faithful hdecls).1, List.length_append]
    omega
  rw [freshId_bind, freshId_bind, nextIs_bind, trailingRule, bind_assoc, nextIs_bind]
  split
  · have hc : 4 * r₂.drawn.tokens.length + 4 ≤ n := by
      rw [drawn_tokens]
      omega
    rw [remaining_bind]
    refine bind_congr ?_ fun _ _ _ => rfl
    rw [map_eq_pure_bind]
    exact bind_congr (callRule_settles r₂.drawn n hc).symm fun _ _ _ => rfl
  · rfl

end MatchLang
