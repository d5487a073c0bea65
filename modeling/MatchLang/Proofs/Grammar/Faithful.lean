import MatchLang.Proofs.Grammar.Running
import MatchLang.Proofs.Grammar.Spelling

/-! What has been read. A rule that answers a tree has taken the tokens that spell it and no others,
and the tree has the shape of the grammar. -/

namespace MatchLang

open Reader Reading

variable {r r' : Reading}

theorem expect_faithful {t : Token} {e : Expected} {line : Nat} (ht : t.isSign = true)
    (h : (expect t e).run r = .ok (line, r')) : r.tokens = t :: r'.tokens := by
  rw [← bind_pure (expect t e), expect_bind] at h
  split at h
  · next hn =>
    cases h
    exact tokens_of_nextIs ht hn
  · exact absurd h unexpected_ne_ok

theorem expectName_faithful {e : Expected} {x : String × Nat}
    (h : (expectName e).run r = .ok (x, r')) : r.tokens = .name x.1 :: r'.tokens := by
  rw [expectName, currentLine_bind, peek_bind] at h
  split at h
  · next s hs =>
    cases h
    exact tokens_of_head hs
  · exact absurd h unexpected_ne_ok

theorem expectText_faithful {e : Expected} {s : String}
    (h : (expectText e).run r = .ok (s, r')) : r.tokens = .text s :: r'.tokens := by
  rw [expectText, peek_bind] at h
  split at h
  · next s hs =>
    cases h
    exact tokens_of_head hs
  · exact absurd h unexpected_ne_ok

theorem nameParts_faithful {n : Nat} {parts : List String}
    (h : (nameParts n).run r = .ok (parts, r')) : r.tokens = dottedTokens parts ++ r'.tokens := by
  induction n generalizing r parts with
  | zero =>
    cases h
    rfl
  | succ n ih =>
    rw [nameParts, peek_bind, peekSecond_bind] at h
    split at h
    · next s hdot hs =>
      rw [advance_bind, advance_bind] at h
      obtain ⟨ps, r₁, hps, h⟩ := exists_of_bind h
      cases h
      rw [← next_tokens] at hs
      rw [tokens_of_head hdot, tokens_of_head hs, ih hps]
      rfl
    · cases h
      rfl

theorem qname_faithful {n : QName} (h : qname.run r = .ok (n, r')) :
    r.tokens = n.tokens ++ r'.tokens ∧ n.Shaped := by
  obtain ⟨x, r₁, hx, h⟩ := exists_of_bind h
  rw [remaining_bind] at h
  obtain ⟨parts, r₂, hparts, h⟩ := exists_of_bind h
  cases h
  constructor
  · rw [expectName_faithful hx, nameParts_faithful hparts]
    rfl
  · exact List.cons_ne_nil _ _

theorem literal?_faithful {value : Literal} {line : Nat}
    (h : literal?.run r = .ok (some (value, line), r')) :
    r.tokens = value.token :: r'.tokens := by
  rw [literal?, currentLine_bind, peek_bind] at h
  split at h
  case h_5 => cases h
  all_goals
    next ht =>
    cases h
    exact tokens_of_head ht

mutual

theorem patternRule_faithful {r r' : Reading} {n : Nat} {p : Pattern}
    (h : (patternRule n).run r = .ok (p, r')) : r.tokens = p.tokens ++ r'.tokens ∧ p.Shaped := by
  match n with
  | 0 => exact absurd h unexpected_ne_ok
  | n + 1 =>
    rw [patternRule, currentLine_bind, peek_bind] at h
    split at h
    · next hs =>
      cases h
      exact ⟨tokens_of_head hs, trivial⟩
    · next s hne hs =>
      cases h
      exact ⟨tokens_of_head hs, hne⟩
    · next hs =>
      rw [advance_bind] at h
      obtain ⟨items, r₁, hitems, h⟩ := exists_of_bind h
      cases h
      obtain ⟨he, hshape⟩ := patternsUntil_faithful rfl hitems
      rw [tokens_of_head hs, he]
      exact ⟨by simp [Pattern.tokens], hshape⟩
    · next hs =>
      rw [advance_bind] at h
      obtain ⟨name, r₁, hname, h⟩ := exists_of_bind h
      obtain ⟨params, r₂, hparams, h⟩ := exists_of_bind h
      cases h
      obtain ⟨he, hn⟩ := qname_faithful hname
      obtain ⟨he', hshape⟩ := patternsUntil_faithful rfl hparams
      rw [tokens_of_head hs, he, he']
      exact ⟨by simp [Pattern.tokens], hn, hshape⟩
    · obtain ⟨x, r₁, hx, h⟩ := exists_of_bind h
      cases x with
      | none => exact absurd h unexpected_ne_ok
      | some x =>
        cases h
        exact ⟨literal?_faithful hx, trivial⟩

theorem patternsUntil_faithful {r r' : Reading} {n : Nat} {close : Token} {e : Expected}
    {ps : List Pattern} (hc : close.isSign = true)
    (h : (patternsUntil n close e).run r = .ok (ps, r')) :
    r.tokens = patternsTokens ps ++ close :: r'.tokens ∧ patternsShaped ps := by
  match n with
  | 0 => exact absurd h unexpected_ne_ok
  | n + 1 =>
    rw [patternsUntil, take?_bind] at h
    split at h
    · next hn =>
      cases h
      exact ⟨tokens_of_nextIs hc hn, trivial⟩
    · simp only [Bool.false_eq_true, if_false, atEnd_bind] at h
      split at h
      · exact absurd h unexpected_ne_ok
      · obtain ⟨p, r₁, hp, h⟩ := exists_of_bind h
        obtain ⟨ps, r₂, hps, h⟩ := exists_of_bind h
        cases h
        obtain ⟨he, hshape⟩ := patternRule_faithful hp
        obtain ⟨he', hshape'⟩ := patternsUntil_faithful hc hps
        rw [he, he', patternsTokens, List.append_assoc]
        exact ⟨rfl, hshape, hshape'⟩

end

mutual

theorem blockRule_faithful {r r' : Reading} {n : Nat} {b : Block}
    (h : (blockRule n).run r = .ok (b, r')) : r.tokens = b.tokens ++ r'.tokens ∧ b.Shaped := by
  match n with
  | 0 => exact absurd h unexpected_ne_ok
  | n + 1 =>
    rw [blockRule, nextIs_bind] at h
    split at h
    · obtain ⟨x, r₁, hx, h⟩ := exists_of_bind h
      obtain ⟨rest, r₂, hrest, h⟩ := exists_of_bind h
      cases h
      obtain ⟨he, hp, hv⟩ := bindingRule_faithful hx
      obtain ⟨he', hr⟩ := blockRule_faithful hrest
      rw [he, he']
      exact ⟨by simp [Block.tokens], hp, hv, rfl, hr⟩
    · obtain ⟨e, r₁, he, h⟩ := exists_of_bind h
      cases h
      exact expressionRule_faithful he

theorem bindingRule_faithful {r r' : Reading} {n : Nat} {x : Pattern × Block}
    (h : (bindingRule n).run r = .ok (x, r')) :
    r.tokens = .wordLet :: (x.1.tokens ++ .equals :: (x.2.tokens ++ r'.tokens)) ∧
      x.1.Shaped ∧ x.2.Shaped := by
  match n with
  | 0 => exact absurd h unexpected_ne_ok
  | n + 1 =>
    obtain ⟨_, r₁, hlet, h⟩ := exists_of_bind h
    obtain ⟨p, r₂, hp, h⟩ := exists_of_bind h
    obtain ⟨_, r₃, heq, h⟩ := exists_of_bind h
    obtain ⟨value, r₄, hvalue, h⟩ := exists_of_bind h
    cases h
    obtain ⟨he, hshape⟩ := patternRule_faithful hp
    obtain ⟨he', hshape'⟩ := blockRule_faithful hvalue
    rw [expect_faithful rfl hlet, he, expect_faithful rfl heq, he']
    exact ⟨rfl, hshape, hshape'⟩

theorem expressionRule_faithful {r r' : Reading} {n : Nat} {e : Expr}
    (h : (expressionRule n).run r = .ok (e, r')) :
    r.tokens = e.tokens ++ r'.tokens ∧ e.Shaped := by
  match n with
  | 0 => exact absurd h unexpected_ne_ok
  | n + 1 =>
    rw [expressionRule, peek_bind] at h
    split at h
    · obtain ⟨c, r₁, hc, h⟩ := exists_of_bind h
      cases h
      exact callRule_faithful hc
    · exact functionRule_faithful h
    · exact listRule_faithful h
    · obtain ⟨name, r₁, hname, h⟩ := exists_of_bind h
      cases h
      exact qname_faithful hname
    · obtain ⟨x, r₁, hx, h⟩ := exists_of_bind h
      cases x with
      | none => exact absurd h unexpected_ne_ok
      | some x =>
        cases h
        exact ⟨literal?_faithful hx, trivial⟩

theorem callRule_faithful {r r' : Reading} {n : Nat} {c : TrailingCall}
    (h : (callRule n).run r = .ok (c, r')) : r.tokens = c.tokens ++ r'.tokens ∧ c.Shaped := by
  match n with
  | 0 => exact absurd h unexpected_ne_ok
  | n + 1 =>
    obtain ⟨line, r₁, hopen, h⟩ := exists_of_bind h
    obtain ⟨callee, r₂, hcallee, h⟩ := exists_of_bind h
    obtain ⟨args, r₃, hargs, h⟩ := exists_of_bind h
    obtain ⟨_, r₄, hclose, h⟩ := exists_of_bind h
    cases h
    obtain ⟨he, hshape⟩ := calleeRule_faithful hcallee
    obtain ⟨he', hshape'⟩ := argumentsRule_faithful hargs
    rw [expect_faithful rfl hopen, he, he', expect_faithful rfl hclose]
    exact ⟨by simp [TrailingCall.tokens, TrailingCall.toExpr, Expr.tokens], hshape, hshape'⟩

theorem calleeRule_faithful {r r' : Reading} {n : Nat} {e : Expr}
    (h : (calleeRule n).run r = .ok (e, r')) :
    r.tokens = e.tokens ++ r'.tokens ∧ (e.isSelf = true ∨ e.Shaped) := by
  match n with
  | 0 => exact absurd h unexpected_ne_ok
  | n + 1 =>
    rw [calleeRule, nextIs_bind] at h
    split at h
    · next hn =>
      cases h
      exact ⟨tokens_of_nextIs rfl hn, .inl rfl⟩
    · obtain ⟨he, hshape⟩ := expressionRule_faithful h
      exact ⟨he, .inr hshape⟩

theorem argumentsRule_faithful {r r' : Reading} {n : Nat} {es : List Expr}
    (h : (argumentsRule n).run r = .ok (es, r')) :
    r.tokens = exprsTokens es ++ r'.tokens ∧ exprsShaped es := by
  match n with
  | 0 => exact absurd h unexpected_ne_ok
  | n + 1 =>
    rw [argumentsRule, atExpression_bind] at h
    split at h
    · obtain ⟨e, r₁, he, h⟩ := exists_of_bind h
      obtain ⟨es, r₂, hes, h⟩ := exists_of_bind h
      cases h
      obtain ⟨he, hshape⟩ := expressionRule_faithful he
      obtain ⟨he', hshape'⟩ := argumentsRule_faithful hes
      rw [he, he', exprsTokens, List.append_assoc]
      exact ⟨rfl, hshape, hshape'⟩
    · cases h
      exact ⟨rfl, trivial⟩

theorem functionRule_faithful {r r' : Reading} {n : Nat} {e : Expr}
    (h : (functionRule n).run r = .ok (e, r')) :
    r.tokens = e.tokens ++ r'.tokens ∧ e.Shaped := by
  match n with
  | 0 => exact absurd h unexpected_ne_ok
  | n + 1 =>
    obtain ⟨line, r₁, hopen, h⟩ := exists_of_bind h
    obtain ⟨params, r₂, hparams, h⟩ := exists_of_bind h
    obtain ⟨body, r₃, hbody, h⟩ := exists_of_bind h
    obtain ⟨_, r₄, hclose, h⟩ := exists_of_bind h
    cases h
    obtain ⟨he, hshape⟩ := patternsUntil_faithful rfl hparams
    obtain ⟨he', hshape'⟩ := blockRule_faithful hbody
    rw [expect_faithful rfl hopen, he, he', expect_faithful rfl hclose]
    exact ⟨by simp [Expr.tokens], hshape, hshape'⟩

theorem listRule_faithful {r r' : Reading} {n : Nat} {e : Expr}
    (h : (listRule n).run r = .ok (e, r')) : r.tokens = e.tokens ++ r'.tokens ∧ e.Shaped := by
  match n with
  | 0 => exact absurd h unexpected_ne_ok
  | n + 1 =>
    obtain ⟨line, r₁, hopen, h⟩ := exists_of_bind h
    obtain ⟨elements, r₂, helements, h⟩ := exists_of_bind h
    obtain ⟨_, r₃, hclose, h⟩ := exists_of_bind h
    cases h
    obtain ⟨he, hshape⟩ := elementsRule_faithful helements
    rw [expect_faithful rfl hopen, he, expect_faithful rfl hclose]
    exact ⟨by simp [Expr.tokens], hshape⟩

theorem elementsRule_faithful {r r' : Reading} {n : Nat} {bs : List Block}
    (h : (elementsRule n).run r = .ok (bs, r')) :
    r.tokens = blocksTokens bs ++ r'.tokens ∧ blocksShaped bs := by
  match n with
  | 0 => exact absurd h unexpected_ne_ok
  | n + 1 =>
    rw [elementsRule, nextIs_bind, atExpression_bind] at h
    split at h
    · obtain ⟨b, r₁, hb, h⟩ := exists_of_bind h
      obtain ⟨bs, r₂, hbs, h⟩ := exists_of_bind h
      cases h
      obtain ⟨he, hshape⟩ := blockRule_faithful hb
      obtain ⟨he', hshape'⟩ := elementsRule_faithful hbs
      rw [he, he', blocksTokens, List.append_assoc]
      exact ⟨rfl, hshape, hshape'⟩
    · cases h
      exact ⟨rfl, trivial⟩

end

theorem caseFields_faithful {n : Nat} {names : List String}
    (h : (caseFields n).run r = .ok (names, r')) : r.tokens = nameTokens names ++ r'.tokens := by
  induction n generalizing r names with
  | zero =>
    cases h
    rfl
  | succ n ih =>
    rw [caseFields, peek_bind] at h
    split at h
    · next s hs =>
      rw [advance_bind] at h
      obtain ⟨ss, r₁, hss, h⟩ := exists_of_bind h
      cases h
      rw [tokens_of_head hs, ih hss]
      rfl
    · cases h
      rfl

theorem caseRule_faithful {c : CaseDecl} (h : caseRule.run r = .ok (c, r')) :
    r.tokens = c.tokens ++ r'.tokens := by
  obtain ⟨x, r₁, hx, h⟩ := exists_of_bind h
  rw [remaining_bind] at h
  obtain ⟨names, r₂, hnames, h⟩ := exists_of_bind h
  cases h
  rw [expectName_faithful hx, caseFields_faithful hnames]
  rfl

theorem moreCases_faithful {n : Nat} {cs : List CaseDecl}
    (h : (moreCases n).run r = .ok (cs, r')) : r.tokens = barredTokens cs ++ r'.tokens := by
  induction n generalizing r cs with
  | zero =>
    cases h
    rfl
  | succ n ih =>
    rw [moreCases, take?_bind] at h
    split at h
    · next hn =>
      obtain ⟨c, r₁, hc, h⟩ := exists_of_bind h
      obtain ⟨cs, r₂, hcs, h⟩ := exists_of_bind h
      cases h
      rw [tokens_of_nextIs rfl hn, caseRule_faithful hc, ih hcs]
      simp [barredTokens]
    · cases h
      rfl

theorem takePublic_faithful {isPublic : Bool} (h : (take? .wordPublic).run r = .ok (isPublic, r')) :
    r.tokens = publicTokens isPublic ++ r'.tokens := by
  rw [take?_run] at h
  split at h
  · next hn =>
    cases h
    exact tokens_of_nextIs rfl hn
  · cases h
    rfl

mutual

theorem declarationsRule_faithful {r r' : Reading} {n : Nat} {ds : List Decl}
    (h : (declarationsRule n).run r = .ok (ds, r')) :
    r.tokens = declsTokens ds ++ r'.tokens ∧ declsShaped ds := by
  match n with
  | 0 => exact absurd h unexpected_ne_ok
  | n + 1 =>
    rw [declarationsRule, atDeclaration_bind] at h
    split at h
    · obtain ⟨d, r₁, hd, h⟩ := exists_of_bind h
      obtain ⟨ds, r₂, hds, h⟩ := exists_of_bind h
      cases h
      obtain ⟨he, hshape⟩ := declarationRule_faithful hd
      obtain ⟨he', hshape'⟩ := declarationsRule_faithful hds
      rw [he, he', declsTokens, List.append_assoc]
      exact ⟨rfl, hshape, hshape'⟩
    · cases h
      exact ⟨rfl, trivial⟩

theorem declarationRule_faithful {r r' : Reading} {n : Nat} {d : Decl}
    (h : (declarationRule n).run r = .ok (d, r')) :
    r.tokens = d.tokens ++ r'.tokens ∧ d.Shaped := by
  match n with
  | 0 => exact absurd h unexpected_ne_ok
  | n + 1 =>
    obtain ⟨isPublic, r₁, hpublic, h⟩ := exists_of_bind h
    rw [takePublic_faithful hpublic]
    rw [peek_bind] at h
    split at h
    · obtain ⟨ns, r₂, hns, h⟩ := exists_of_bind h
      cases h
      exact namespaceRule_faithful hns
    · exact typeRule_faithful h
    · obtain ⟨x, r₂, hx, h⟩ := exists_of_bind h
      cases h
      obtain ⟨he, hshape⟩ := bindingRule_faithful hx
      rw [he]
      exact ⟨by simp [Decl.tokens], hshape⟩
    · exact absurd h unexpected_ne_ok

theorem bodyRule_faithful {r r' : Reading} {n : Nat} {ds : List Decl}
    (h : (bodyRule n).run r = .ok (ds, r')) :
    r.tokens = .openBrace :: (declsTokens ds ++ .closeBrace :: r'.tokens) ∧ declsShaped ds := by
  match n with
  | 0 => exact absurd h unexpected_ne_ok
  | n + 1 =>
    obtain ⟨_, r₁, hopen, h⟩ := exists_of_bind h
    obtain ⟨decls, r₂, hdecls, h⟩ := exists_of_bind h
    obtain ⟨_, r₃, hclose, h⟩ := exists_of_bind h
    cases h
    obtain ⟨he, hshape⟩ := declarationsRule_faithful hdecls
    rw [expect_faithful rfl hopen, he, expect_faithful rfl hclose]
    exact ⟨rfl, hshape⟩

theorem namespaceRule_faithful {r r' : Reading} {n : Nat} {isPublic : Bool} {ns : NamespaceDecl}
    (h : (namespaceRule n isPublic).run r = .ok (ns, r')) :
    publicTokens isPublic ++ r.tokens = ns.tokens ++ r'.tokens ∧ ns.Shaped := by
  match n with
  | 0 => exact absurd h unexpected_ne_ok
  | n + 1 =>
    obtain ⟨_, r₁, hword, h⟩ := exists_of_bind h
    obtain ⟨name, r₂, hname, h⟩ := exists_of_bind h
    obtain ⟨decls, r₃, hdecls, h⟩ := exists_of_bind h
    cases h
    obtain ⟨he, hshape⟩ := qname_faithful hname
    obtain ⟨he', hshape'⟩ := bodyRule_faithful hdecls
    rw [expect_faithful rfl hword, he, he']
    exact ⟨by simp [NamespaceDecl.tokens], hshape, hshape'⟩

theorem typeRule_faithful {r r' : Reading} {n : Nat} {isPublic : Bool} {d : Decl}
    (h : (typeRule n isPublic).run r = .ok (d, r')) :
    publicTokens isPublic ++ r.tokens = d.tokens ++ r'.tokens ∧ d.Shaped := by
  match n with
  | 0 => exact absurd h unexpected_ne_ok
  | n + 1 =>
    obtain ⟨_, r₁, hword, h⟩ := exists_of_bind h
    obtain ⟨name, r₂, hname, h⟩ := exists_of_bind h
    obtain ⟨_, r₃, hequals, h⟩ := exists_of_bind h
    obtain ⟨first, r₄, hfirst, h⟩ := exists_of_bind h
    rw [remaining_bind] at h
    obtain ⟨more, r₅, hcases, h⟩ := exists_of_bind h
    obtain ⟨he, hshape⟩ := qname_faithful hname
    rw [expect_faithful rfl hword, he, expect_faithful rfl hequals, caseRule_faithful hfirst,
      moreCases_faithful hcases]
    rw [nextIs_bind] at h
    split at h
    · obtain ⟨decls, r₆, hdecls, h⟩ := exists_of_bind h
      cases h
      obtain ⟨he', hshape'⟩ := bodyRule_faithful hdecls
      rw [he']
      exact ⟨by simp [Decl.tokens, NamespaceDecl.bodyTokens, casesTokens], hshape,
        List.cons_ne_nil _ _, rfl, rfl, hshape, hshape'⟩
    · cases h
      exact ⟨by simp [Decl.tokens, casesTokens], hshape, List.cons_ne_nil _ _⟩

end

theorem importNames_faithful {n : Nat} {names : List QName}
    (h : (importNames n).run r = .ok (names, r')) :
    r.tokens = namesTokens names ++ .wordFrom :: r'.tokens ∧ names ≠ [] ∧
      ∀ name ∈ names, name.Shaped := by
  induction n generalizing r names with
  | zero => exact absurd h unexpected_ne_ok
  | succ n ih =>
    obtain ⟨name, r₁, hname, h⟩ := exists_of_bind h
    obtain ⟨he, hshape⟩ := qname_faithful hname
    rw [he]
    rw [take?_bind] at h
    split at h
    · next hn =>
      cases h
      rw [tokens_of_nextIs rfl hn]
      exact ⟨by simp [namesTokens], List.cons_ne_nil _ _, by simpa using hshape⟩
    · obtain ⟨names, r₂, hnames, h⟩ := exists_of_bind h
      cases h
      obtain ⟨he', _, hshapes⟩ := ih hnames
      rw [he']
      exact ⟨by simp [namesTokens], List.cons_ne_nil _ _, by simpa using ⟨hshape, hshapes⟩⟩

theorem importRule_faithful {i : Import} (hn : r.nextIs .wordImport = true)
    (h : importRule.run r = .ok (i, r')) :
    r.tokens = i.tokens ++ r'.tokens ∧ ∀ n ∈ i.names, n.Shaped := by
  rw [importRule, currentLine_bind, advance_bind, peek_bind] at h
  rw [tokens_of_nextIs rfl hn]
  split at h
  · obtain ⟨names, r₁, hnames, h⟩ := exists_of_bind h
    cases hnames
    obtain ⟨file, r₂, hfile, h⟩ := exists_of_bind h
    cases h
    rw [expectText_faithful hfile]
    exact ⟨rfl, by simp⟩
  · rw [remaining_bind] at h
    obtain ⟨names, r₁, hnames, h⟩ := exists_of_bind h
    obtain ⟨file, r₂, hfile, h⟩ := exists_of_bind h
    cases h
    obtain ⟨he, hne, hshape⟩ := importNames_faithful hnames
    rw [he, expectText_faithful hfile]
    refine ⟨?_, hshape⟩
    cases names with
    | nil => exact absurd rfl hne
    | cons n ns => simp [Import.tokens, namesTokens]

theorem importsRule_faithful {n : Nat} {is : List Import}
    (h : (importsRule n).run r = .ok (is, r')) :
    r.tokens = importsTokens is ++ r'.tokens ∧ ∀ i ∈ is, ∀ n ∈ i.names, n.Shaped := by
  induction n generalizing r is with
  | zero =>
    cases h
    exact ⟨rfl, by simp⟩
  | succ n ih =>
    rw [importsRule, nextIs_bind] at h
    split at h
    · next hn =>
      obtain ⟨i, r₁, hi, h⟩ := exists_of_bind h
      obtain ⟨is, r₂, his, h⟩ := exists_of_bind h
      cases h
      obtain ⟨he, hshape⟩ := importRule_faithful hn hi
      obtain ⟨he', hshape'⟩ := ih his
      rw [he, he', importsTokens, List.append_assoc]
      exact ⟨rfl, List.forall_mem_cons.mpr ⟨hshape, hshape'⟩⟩
    · cases h
      exact ⟨rfl, by simp⟩

theorem trailingRule_faithful {n : Nat} {trailing : Option TrailingCall}
    (h : (trailingRule n).run r = .ok (trailing, r')) :
    r.tokens = trailingTokens trailing ++ r'.tokens ∧ ∀ c ∈ trailing, c.Shaped := by
  rw [trailingRule, nextIs_bind] at h
  split at h
  · obtain ⟨c, r₁, hc, h⟩ := exists_of_bind h
    cases h
    obtain ⟨he, hshape⟩ := callRule_faithful hc
    exact ⟨he, by simpa using hshape⟩
  · cases h
    exact ⟨rfl, by simp⟩

/-- A program that has been read is spelled by all the tokens there were. -/
theorem programRuleWithin_faithful {n : Nat} {p : Program}
    (h : (programRuleWithin n).run r = .ok (p, r')) : r.tokens = p.tokens ∧ p.Shaped := by
  obtain ⟨imports, r₁, himports, h⟩ := exists_of_bind h
  obtain ⟨decls, r₂, hdecls, h⟩ := exists_of_bind h
  rw [freshId_bind] at h
  obtain ⟨trailing, r₃, htrailing, h⟩ := exists_of_bind h
  rw [atEnd_bind] at h
  split at h
  · next hend =>
    cases h
    obtain ⟨he, hshape⟩ := importsRule_faithful himports
    obtain ⟨he', hshape'⟩ := declarationsRule_faithful hdecls
    obtain ⟨he'', hshape''⟩ := trailingRule_faithful htrailing
    rw [drawn_tokens] at he''
    rw [he, he', he'', List.isEmpty_iff.mp hend, List.append_nil]
    exact ⟨rfl, hshape, rfl, rfl, hshape', hshape''⟩
  · exact absurd h unexpected_ne_ok

end MatchLang
