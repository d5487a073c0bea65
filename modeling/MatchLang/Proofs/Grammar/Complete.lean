import MatchLang.Proofs.Grammar.Bounds

/-! What can be read. Tokens that spell a tree of the grammar's shape are read as that tree, whatever
comes after them, as long as that cannot be taken for more of the tree. -/

namespace MatchLang

open Reading

/-- From `r` the reader answers something of which `P` holds and leaves the tokens `ts`. -/
def Reader.Reads {α : Type} (m : Reader α) (r : Reading) (P : α → Prop) (ts : List Token) : Prop :=
  ∃ a r', m.run r = .ok (a, r') ∧ P a ∧ r'.tokens = ts

open Reader

section

variable {α β : Type} {m : Reader α} {k : α → Reader β} {r : Reading} {P : α → Prop}
  {Q : β → Prop} {ts us : List Token}

theorem Reader.Reads.pure {a : α} (ha : P a) (hr : r.tokens = ts) : Reads (pure a) r P ts :=
  ⟨a, r, rfl, ha, hr⟩

theorem Reader.Reads.bind (hm : Reads m r P ts)
    (hk : ∀ a r', P a → r'.tokens = ts → Reads (k a) r' Q us) : Reads (m >>= k) r Q us := by
  obtain ⟨a, r', hrun, ha, hr'⟩ := hm
  obtain ⟨b, r'', hrun', hb, hr''⟩ := hk a r' ha hr'
  exact ⟨b, r'', by rw [bind_of_ok hrun, hrun'], hb, hr''⟩

theorem Reader.Reads.of_run {m' : Reader α} {r' : Reading} (h : m.run r = m'.run r')
    (hm : Reads m' r' P ts) : Reads m r P ts := by
  obtain ⟨a, r'', hrun, ha, hr''⟩ := hm
  exact ⟨a, r'', h.trans hrun, ha, hr''⟩

theorem nextIs_of_cons {t : Token} (ht : t.isSign = true) (h : r.tokens = t :: ts) :
    r.nextIs t = true := by
  rw [nextIs_iff ht, h]
  rfl

theorem not_nextIs {t : Token} (ht : t.isSign = true) (h : r.tokens.head? ≠ some t) :
    r.nextIs t = false := by
  rw [← Bool.not_eq_true, nextIs_iff ht]
  exact h

theorem Reader.Reads.after_peek {t : Token} {k : Option Token → Reader β} (h : r.tokens = t :: ts)
    (hk : Reads (k (some t)) r Q us) : Reads (peek >>= k) r Q us :=
  .of_run (by rw [peek_bind, h]; rfl) hk

theorem Reader.Reads.after_line {k : Nat → Reader β} (hk : ∀ line, Reads (k line) r Q us) :
    Reads (currentLine >>= k) r Q us :=
  .of_run currentLine_bind (hk r.line)

theorem Reader.Reads.after_advance {t : Token} {k : Unit → Reader β} (h : r.tokens = t :: ts)
    (hk : ∀ r', r'.tokens = ts → Reads (k ()) r' Q us) : Reads (advance >>= k) r Q us :=
  .of_run advance_bind (hk r.next (by rw [next_tokens, h]; rfl))

theorem Reader.Reads.after_freshId {k : Nat → Reader β} (h : r.tokens = ts)
    (hk : ∀ id r', r'.tokens = ts → Reads (k id) r' Q us) : Reads (freshId >>= k) r Q us :=
  .of_run freshId_bind (hk r.nextId r.drawn h)

theorem Reader.Reads.after_nextIs {t : Token} {k : Bool → Reader β} (ht : t.isSign = true)
    (h : r.tokens = t :: ts) (hk : Reads (k true) r Q us) : Reads (nextIs t >>= k) r Q us :=
  .of_run (by rw [nextIs_bind, nextIs_of_cons ht h]) hk

theorem Reader.Reads.after_not_nextIs {t : Token} {k : Bool → Reader β} (ht : t.isSign = true)
    (h : r.tokens.head? ≠ some t) (hk : Reads (k false) r Q us) : Reads (nextIs t >>= k) r Q us :=
  .of_run (by rw [nextIs_bind, not_nextIs ht h]) hk

theorem Reader.Reads.after_take? {t : Token} {k : Bool → Reader β} (ht : t.isSign = true)
    (h : r.tokens = t :: ts) (hk : ∀ r', r'.tokens = ts → Reads (k true) r' Q us) :
    Reads (take? t >>= k) r Q us :=
  .of_run (by rw [take?_bind, if_pos (nextIs_of_cons ht h)])
    (hk r.next (by rw [next_tokens, h]; rfl))

theorem Reader.Reads.after_not_take? {t : Token} {k : Bool → Reader β} (ht : t.isSign = true)
    (h : r.tokens.head? ≠ some t) (hk : Reads (k false) r Q us) : Reads (take? t >>= k) r Q us :=
  .of_run (by rw [take?_bind, not_nextIs ht h]; rfl) hk

theorem Reader.Reads.after_expect {t : Token} {e : Expected} {k : Nat → Reader β}
    (ht : t.isSign = true) (h : r.tokens = t :: ts)
    (hk : ∀ line r', r'.tokens = ts → Reads (k line) r' Q us) : Reads (expect t e >>= k) r Q us :=
  .of_run (by rw [expect_bind, if_pos (nextIs_of_cons ht h)])
    (hk r.line r.next (by rw [next_tokens, h]; rfl))

theorem expectName_reads {s : String} {e : Expected} (h : r.tokens = .name s :: ts) :
    Reads (expectName e) r (fun x => x.1 = s) ts :=
  .after_line fun _ => .after_peek h (.after_advance h fun _ hr => .pure rfl hr)

theorem expectText_reads {s : String} {e : Expected} (h : r.tokens = .text s :: ts) :
    Reads (expectText e) r (fun x => x = s) ts :=
  .after_peek h (.after_advance h fun _ hr => .pure rfl hr)

theorem nameParts_reads {parts : List String} {n : Nat} (h : r.tokens = dottedTokens parts ++ ts)
    (hts : ts.head? ≠ some .dot) (hn : r.tokens.length ≤ n) :
    Reads (nameParts n) r (fun x => x = parts) ts := by
  induction parts generalizing r n with
  | nil =>
    refine ⟨[], r, ?_, rfl, h⟩
    cases n with
    | zero => rfl
    | succ n =>
      rw [nameParts, peek_bind, peekSecond_bind]
      split
      · next hdot hs =>
        rw [h] at hdot
        exact absurd hdot hts
      · rfl
  | cons s parts ih =>
    have hlen := congrArg List.length h
    simp only [dottedTokens, List.cons_append, List.length_cons] at hlen
    cases n with
    | zero => omega
    | succ n =>
      have hsecond : r.tokens.tail.head? = some (.name s) := by rw [h]; rfl
      refine .after_peek h (.of_run peekSecond_bind ?_)
      rw [hsecond]
      refine .after_advance h fun r₁ h₁ => .after_advance h₁ fun r₂ h₂ => ?_
      have hlen₂ : r₂.tokens.length = (dottedTokens parts ++ ts).length := by
        rw [h₂]
        rfl
      refine .bind (ih h₂ (by omega)) fun x r₃ hx h₃ => .pure ?_ h₃
      rw [hx]

theorem qname_reads {n : QName} (h : r.tokens = n.tokens ++ ts) (hn : n.Shaped)
    (hts : ts.head? ≠ some .dot) : Reads qname r (fun x => x.plain = n.plain) ts := by
  obtain ⟨id, parts, line⟩ := n
  cases parts with
  | nil => exact absurd rfl hn
  | cons s parts =>
    refine .bind (expectName_reads h) fun x r₁ hx h₁ => .of_run remaining_bind ?_
    refine .bind (nameParts_reads h₁ hts (Nat.le_refl _)) fun ss r₂ hss h₂ => ?_
    refine .after_freshId h₂ fun id r₃ h₃ => .pure ?_ h₃
    rw [QName.plain, QName.plain, hx, hss]

theorem literal?_reads {value : Literal} (h : r.tokens = value.token :: ts) :
    Reads literal? r (fun x => ∃ line, x = some (value, line)) ts := by
  refine .after_line fun line => .after_peek h ?_
  cases value with
  | _ => exact .after_advance h fun _ hr => .pure ⟨line, rfl⟩ hr

end

/-! What may come after the tokens of a tree begins with none of the tokens the tree could go on
with. -/

theorem head_append_cons {t : Token} {ts us vs : List Token} (h : us = t :: vs) :
    (us ++ ts).head? = some t := by
  rw [h]
  rfl

theorem patterns_not_dot {ps : List Pattern} {close : Token} {ts : List Token}
    (hc : close ≠ .dot) : (patternsTokens ps ++ close :: ts).head? ≠ some .dot := by
  cases ps with
  | nil => simpa [patternsTokens] using hc
  | cons p ps =>
    obtain ⟨t, us, hp, ht⟩ := p.starts
    rw [patternsTokens, hp]
    intro h
    cases h
    exact Bool.false_ne_true ht

mutual

theorem patternRule_reads {r : Reading} {n : Nat} {p : Pattern} {ts : List Token}
    (h : r.tokens = p.tokens ++ ts) (hp : p.Shaped) (hn : 2 * r.tokens.length + 1 ≤ n) :
    Reads (patternRule n) r (fun x => x.plain = p.plain) ts := by
  match n with
  | n + 1 =>
    rw [patternRule]
    refine .after_line fun line => ?_
    cases p with
    | wildcard => exact .after_peek h (.after_advance h fun r₁ h₁ => .pure rfl h₁)
    | name id s line =>
      refine .after_peek h ?_
      split
      · next hs =>
        cases hs
        exact absurd rfl hp
      · next hs =>
        cases hs
        exact .after_advance h fun r₁ h₁ => .after_freshId h₁ fun id r₂ h₂ => .pure rfl h₂
      · next hs => cases hs
      · next hs => cases hs
      · next hs _ _ => exact absurd rfl (hs _)
    | literal value line =>
      have hr := literal?_reads h
      cases value with
      | _ =>
        refine .after_peek h (.bind hr fun x r₁ hx h₁ => ?_)
        obtain ⟨line, rfl⟩ := hx
        exact .pure rfl h₁
    | list items =>
      have h : r.tokens = .openBracket :: (patternsTokens items ++ .closeBracket :: ts) := by
        simpa [Pattern.tokens] using h
      refine .after_peek h (.after_advance h fun r₁ h₁ => ?_)
      have hlen : r.tokens.length = r₁.tokens.length + 1 := by rw [h, h₁, List.length_cons]
      refine .bind (patternsUntil_reads rfl rfl h₁ hp (by omega)) fun ps r₂ hps h₂ => .pure ?_ h₂
      rw [Pattern.plain, Pattern.plain, hps]
    | type name params =>
      have h : r.tokens =
          .openParen :: (name.tokens ++ (patternsTokens params ++ .closeParen :: ts)) := by
        simpa [Pattern.tokens] using h
      refine .after_peek h (.after_advance h fun r₁ h₁ => ?_)
      refine .bind (qname_reads h₁ hp.1 (patterns_not_dot nofun)) fun x r₂ hx h₂ => ?_
      have hlen : r.tokens.length = (name.tokens ++ r₂.tokens).length + 1 := by
        rw [h, h₂, List.length_cons]
      rw [List.length_append] at hlen
      refine .bind (patternsUntil_reads rfl rfl h₂ hp.2 (by omega)) fun ps r₃ hps h₃ => .pure ?_ h₃
      rw [Pattern.plain, Pattern.plain, hx, hps]

theorem patternsUntil_reads {r : Reading} {n : Nat} {close : Token} {e : Expected}
    {ps : List Pattern} {ts : List Token} (hc : close.isSign = true)
    (hc' : startsPattern close = false) (h : r.tokens = patternsTokens ps ++ close :: ts)
    (hps : patternsShaped ps) (hn : 2 * r.tokens.length + 2 ≤ n) :
    Reads (patternsUntil n close e) r (fun x => plainPatterns x = plainPatterns ps) ts := by
  match n with
  | n + 1 =>
    rw [patternsUntil]
    cases ps with
    | nil => exact .after_take? hc h fun r₁ h₁ => .pure rfl h₁
    | cons p ps =>
      obtain ⟨t, us, ht, hstart⟩ := p.starts
      have h : r.tokens = p.tokens ++ (patternsTokens ps ++ close :: ts) := by
        rw [h, patternsTokens, List.append_assoc]
      have hne : r.tokens.head? ≠ some close := by
        rw [h, head_append_cons ht]
        intro he
        cases he
        rw [hc'] at hstart
        exact Bool.false_ne_true hstart
      have hlen := congrArg List.length h
      rw [List.length_append, ht, List.length_cons] at hlen
      refine .after_not_take? hc hne (.of_run atEnd_bind ?_)
      have hend : r.tokens.isEmpty = false := by
        rw [h, ht]
        rfl
      simp only [hend, Bool.false_eq_true, if_false]
      refine .bind (patternRule_reads h hps.1 (by omega)) fun x r₁ hx h₁ => ?_
      rw [← h₁] at hlen
      refine .bind (patternsUntil_reads hc hc' h₁ hps.2 (by omega)) fun xs r₂ hxs h₂ => .pure ?_ h₂
      rw [plainPatterns, plainPatterns, hx, hxs]

end

theorem startsExpression_ne_dot {t : Token} (h : startsExpression t = true) : t ≠ .dot := by
  intro he
  rw [he] at h
  exact Bool.false_ne_true h

theorem exprs_not_dot {es : List Expr} {ts : List Token} (hes : exprsShaped es)
    (hts : ts.head? ≠ some .dot) : (exprsTokens es ++ ts).head? ≠ some .dot := by
  cases es with
  | nil => exact hts
  | cons e es =>
    obtain ⟨t, us, he, ht⟩ := Expr.starts hes.1
    rw [exprsTokens, List.append_assoc, head_append_cons he]
    simpa using startsExpression_ne_dot ht

theorem block_not_dot {b : Block} (hb : b.Shaped) (ts : List Token) :
    (b.tokens ++ ts).head? ≠ some .dot := by
  obtain ⟨t, us, he, ht⟩ := Block.starts hb
  rw [head_append_cons he]
  rcases ht with rfl | ht
  · simp
  · simpa using startsExpression_ne_dot ht

theorem blocks_not_dot {bs : List Block} {ts : List Token} (hbs : blocksShaped bs)
    (hts : ts.head? ≠ some .dot) : (blocksTokens bs ++ ts).head? ≠ some .dot := by
  cases bs with
  | nil => exact hts
  | cons b bs =>
    rw [blocksTokens, List.append_assoc]
    exact block_not_dot hbs.1 _

mutual

theorem blockRule_reads {r : Reading} {n : Nat} {b : Block} {ts : List Token}
    (h : r.tokens = b.tokens ++ ts) (hb : b.Shaped) (hts : ts.head? ≠ some .dot)
    (hn : 4 * r.tokens.length + 3 ≤ n) : Reads (blockRule n) r (fun x => x.plain = b.plain) ts := by
  match n with
  | n + 1 =>
    rw [blockRule]
    cases b with
    | result e =>
      obtain ⟨t, us, he, ht⟩ := Expr.starts hb
      have hne : r.tokens.head? ≠ some .wordLet := by
        rw [h, Block.tokens, head_append_cons he]
        intro hlet
        cases hlet
        exact Bool.false_ne_true ht
      refine .after_not_nextIs rfl hne ?_
      refine .bind (expressionRule_reads h hb hts (by omega)) fun x r₁ hx h₁ => .pure ?_ h₁
      rw [Block.plain, Block.plain, hx]
    | bind p value isPublic rest =>
      obtain ⟨hp, hvalue, hpublic, hrest⟩ := hb
      have h : r.tokens = .wordLet ::
          (p.tokens ++ .equals :: (value.tokens ++ (rest.tokens ++ ts))) := by
        simpa [Block.tokens] using h
      refine .after_nextIs rfl h ?_
      have hread := bindingRule_reads (n := n) h hp hvalue (block_not_dot hrest ts) (by omega)
      refine .bind hread fun x r₁ hx h₁ => ?_
      have hlen : 4 * r₁.tokens.length + 3 ≤ n := by
        simp only [h, h₁, List.length_cons, List.length_append] at hn ⊢
        omega
      refine .bind (blockRule_reads h₁ hrest hts hlen) fun y r₂ hy h₂ => .pure ?_ h₂
      rw [Block.plain, Block.plain, hx.1, hx.2, hy, hpublic]

theorem bindingRule_reads {r : Reading} {n : Nat} {p : Pattern} {value : Block} {ts : List Token}
    (h : r.tokens = .wordLet :: (p.tokens ++ .equals :: (value.tokens ++ ts))) (hp : p.Shaped)
    (hvalue : value.Shaped) (hts : ts.head? ≠ some .dot) (hn : 4 * r.tokens.length + 1 ≤ n) :
    Reads (bindingRule n) r (fun x => x.1.plain = p.plain ∧ x.2.plain = value.plain) ts := by
  match n with
  | n + 1 =>
    rw [bindingRule]
    refine .after_expect rfl h fun _ r₁ h₁ => ?_
    have hlen : r.tokens.length = r₁.tokens.length + 1 := by rw [h, h₁, List.length_cons]
    refine .bind (patternRule_reads h₁ hp (by omega)) fun x r₂ hx h₂ => ?_
    refine .after_expect rfl h₂ fun _ r₃ h₃ => ?_
    have hlen' : 4 * r₃.tokens.length + 3 ≤ n := by
      simp only [h, h₃, List.length_cons, List.length_append] at hn ⊢
      omega
    exact .bind (blockRule_reads h₃ hvalue hts hlen') fun y r₄ hy h₄ => .pure ⟨hx, hy⟩ h₄

theorem expressionRule_reads {r : Reading} {n : Nat} {e : Expr} {ts : List Token}
    (h : r.tokens = e.tokens ++ ts) (he : e.Shaped) (hts : ts.head? ≠ some .dot)
    (hn : 4 * r.tokens.length + 2 ≤ n) :
    Reads (expressionRule n) r (fun x => x.plain = e.plain) ts := by
  match n with
  | n + 1 =>
    rw [expressionRule]
    cases e with
    | call callee args line =>
      have hread := callRule_reads (n := n) (c := ⟨callee, args, line⟩) h he (by omega)
      refine .after_peek h (.bind hread fun c r₁ hc h₁ => .pure ?_ h₁)
      exact congrArg TrailingCall.toExpr hc
    | function params body line =>
      exact .after_peek h (functionRule_reads h he (by omega))
    | list elements line => exact .after_peek h (listRule_reads h he (by omega))
    | literal value line =>
      have hr := literal?_reads h
      cases value with
      | _ =>
        refine .after_peek h (.bind hr fun x r₁ hx h₁ => ?_)
        obtain ⟨line, rfl⟩ := hx
        exact .pure rfl h₁
    | name name =>
      obtain ⟨s, us, hs⟩ := QName.starts he
      have hpeek : r.tokens = .name s :: (us ++ ts) := by
        rw [h, Expr.tokens, hs]
        rfl
      refine .after_peek hpeek (.bind (qname_reads h he hts) fun x r₁ hx h₁ => .pure ?_ h₁)
      rw [Expr.plain, Expr.plain, hx]
    | self line => exact absurd he id

theorem callRule_reads {r : Reading} {n : Nat} {c : TrailingCall} {ts : List Token}
    (h : r.tokens = c.tokens ++ ts) (hc : c.Shaped) (hn : 4 * r.tokens.length + 1 ≤ n) :
    Reads (callRule n) r (fun x => x.plain = c.plain) ts := by
  match n with
  | n + 1 =>
    obtain ⟨callee, args, line⟩ := c
    have h : r.tokens =
        .openParen :: (callee.tokens ++ (exprsTokens args ++ .closeParen :: ts)) := by
      simpa [TrailingCall.tokens, TrailingCall.toExpr, Expr.tokens] using h
    rw [callRule]
    refine .after_expect rfl h fun line r₁ h₁ => ?_
    have hlen : r.tokens.length = r₁.tokens.length + 1 := by rw [h, h₁, List.length_cons]
    have hargs : (exprsTokens args ++ .closeParen :: ts).head? ≠ some .dot :=
      exprs_not_dot hc.2 (by simp)
    refine .bind (calleeRule_reads h₁ hc.1 hargs (by omega)) fun x r₂ hx h₂ => ?_
    have hlen' : 4 * r₂.tokens.length + 3 ≤ n := by
      simp only [h, h₂, List.length_cons, List.length_append] at hn ⊢
      omega
    refine .bind (argumentsRule_reads h₂ hc.2 hlen') fun xs r₃ hxs h₃ => ?_
    refine .after_expect rfl h₃ fun _ r₄ h₄ => .pure ?_ h₄
    rw [TrailingCall.plain, TrailingCall.plain, hx, hxs]

theorem calleeRule_reads {r : Reading} {n : Nat} {e : Expr} {ts : List Token}
    (h : r.tokens = e.tokens ++ ts) (he : e.isSelf = true ∨ e.Shaped)
    (hts : ts.head? ≠ some .dot) (hn : 4 * r.tokens.length + 3 ≤ n) :
    Reads (calleeRule n) r (fun x => x.plain = e.plain) ts := by
  match n with
  | n + 1 =>
    rw [calleeRule]
    rcases he with hself | he
    · cases e with
      | self line =>
        refine .after_nextIs rfl h (.after_line fun line => ?_)
        exact .after_advance h fun r₁ h₁ => .pure rfl h₁
      | _ => exact absurd hself Bool.false_ne_true
    · obtain ⟨t, us, hus, ht⟩ := Expr.starts he
      have hne : r.tokens.head? ≠ some .dot := by
        rw [h, head_append_cons hus]
        simpa using startsExpression_ne_dot ht
      exact .after_not_nextIs rfl hne (expressionRule_reads h he hts (by omega))

theorem argumentsRule_reads {r : Reading} {n : Nat} {es : List Expr} {ts : List Token}
    (h : r.tokens = exprsTokens es ++ .closeParen :: ts) (hes : exprsShaped es)
    (hn : 4 * r.tokens.length + 3 ≤ n) :
    Reads (argumentsRule n) r (fun x => plainExprs x = plainExprs es) (.closeParen :: ts) := by
  match n with
  | n + 1 =>
    rw [argumentsRule]
    refine .of_run atExpression_bind ?_
    cases es with
    | nil =>
      rw [h]
      exact .pure rfl h
    | cons e es =>
      obtain ⟨t, us, hus, ht⟩ := Expr.starts hes.1
      have h : r.tokens = e.tokens ++ (exprsTokens es ++ .closeParen :: ts) := by
        rw [h, exprsTokens, List.append_assoc]
      have hat : r.tokens.head?.any startsExpression = true := by
        rw [h, head_append_cons hus]
        exact ht
      rw [hat, if_pos rfl]
      have hnext : (exprsTokens es ++ .closeParen :: ts).head? ≠ some .dot :=
        exprs_not_dot hes.2 (by simp)
      refine .bind (expressionRule_reads h hes.1 hnext (by omega)) fun x r₁ hx h₁ => ?_
      have hlen : 4 * r₁.tokens.length + 3 ≤ n := by
        simp only [h, h₁, hus, List.length_cons, List.length_append] at hn ⊢
        omega
      refine .bind (argumentsRule_reads h₁ hes.2 hlen) fun xs r₂ hxs h₂ => .pure ?_ h₂
      rw [plainExprs, plainExprs, hx, hxs]

theorem functionRule_reads {r : Reading} {n : Nat} {params : List Pattern} {body : Block}
    {line : Nat} {ts : List Token}
    (h : r.tokens = (Expr.function params body line).tokens ++ ts)
    (he : (Expr.function params body line).Shaped) (hn : 4 * r.tokens.length + 1 ≤ n) :
    Reads (functionRule n) r (fun x => x.plain = (Expr.function params body line).plain) ts := by
  match n with
  | n + 1 =>
    have h : r.tokens =
        .openBrace :: (patternsTokens params ++ .arrow :: (body.tokens ++ .closeBrace :: ts)) := by
      simpa [Expr.tokens] using h
    rw [functionRule]
    refine .after_expect rfl h fun line r₁ h₁ => ?_
    have hlen : r.tokens.length = r₁.tokens.length + 1 := by rw [h, h₁, List.length_cons]
    refine .bind (patternsUntil_reads rfl rfl h₁ he.1 (by omega)) fun x r₂ hx h₂ => ?_
    have hlen' : 4 * r₂.tokens.length + 3 ≤ n := by
      simp only [h, h₂, List.length_cons, List.length_append] at hn ⊢
      omega
    refine .bind (blockRule_reads h₂ he.2 (by simp) hlen') fun y r₃ hy h₃ => ?_
    refine .after_expect rfl h₃ fun _ r₄ h₄ => .pure ?_ h₄
    rw [Expr.plain, Expr.plain, hx, hy]

theorem listRule_reads {r : Reading} {n : Nat} {elements : List Block} {line : Nat}
    {ts : List Token} (h : r.tokens = (Expr.list elements line).tokens ++ ts)
    (he : (Expr.list elements line).Shaped) (hn : 4 * r.tokens.length + 1 ≤ n) :
    Reads (listRule n) r (fun x => x.plain = (Expr.list elements line).plain) ts := by
  match n with
  | n + 1 =>
    have h : r.tokens = .openBracket :: (blocksTokens elements ++ .closeBracket :: ts) := by
      simpa [Expr.tokens] using h
    rw [listRule]
    refine .after_expect rfl h fun line r₁ h₁ => ?_
    have hlen : r.tokens.length = r₁.tokens.length + 1 := by rw [h, h₁, List.length_cons]
    refine .bind (elementsRule_reads h₁ he (by omega)) fun x r₂ hx h₂ => ?_
    refine .after_expect rfl h₂ fun _ r₃ h₃ => .pure ?_ h₃
    rw [Expr.plain, Expr.plain, hx]

theorem elementsRule_reads {r : Reading} {n : Nat} {bs : List Block} {ts : List Token}
    (h : r.tokens = blocksTokens bs ++ .closeBracket :: ts) (hbs : blocksShaped bs)
    (hn : 4 * r.tokens.length + 4 ≤ n) :
    Reads (elementsRule n) r (fun x => plainBlocks x = plainBlocks bs) (.closeBracket :: ts) := by
  match n with
  | n + 1 =>
    rw [elementsRule]
    refine .of_run nextIs_bind (.of_run atExpression_bind ?_)
    cases bs with
    | nil =>
      rw [not_nextIs rfl (by rw [h]; simp [blocksTokens]), h]
      exact .pure rfl h
    | cons b bs =>
      obtain ⟨t, us, hus, ht⟩ := Block.starts hbs.1
      have h : r.tokens = b.tokens ++ (blocksTokens bs ++ .closeBracket :: ts) := by
        rw [h, blocksTokens, List.append_assoc]
      have hat : (r.nextIs .wordLet || r.tokens.head?.any startsExpression) = true := by
        have hhead : r.tokens.head? = some t := by rw [h, head_append_cons hus]
        rcases ht with rfl | ht
        · rw [(nextIs_iff rfl).mpr hhead, Bool.true_or]
        · rw [hhead, Option.any_some, ht, Bool.or_true]
      rw [hat, if_pos rfl]
      have hnext : (blocksTokens bs ++ .closeBracket :: ts).head? ≠ some .dot :=
        blocks_not_dot hbs.2 (by simp)
      refine .bind (blockRule_reads h hbs.1 hnext (by omega)) fun x r₁ hx h₁ => ?_
      have hlen : 4 * r₁.tokens.length + 4 ≤ n := by
        simp only [h, h₁, hus, List.length_cons, List.length_append] at hn ⊢
        omega
      refine .bind (elementsRule_reads h₁ hbs.2 hlen) fun xs r₂ hxs h₂ => .pure ?_ h₂
      rw [plainBlocks, plainBlocks, hx, hxs]

end

def typeBodyTokens : Option NamespaceDecl → List Token
  | none => []
  | some ns => ns.bodyTokens

/-- The tokens that may come after a declaration. -/
def followsDeclaration : Token → Bool
  | .closeBrace | .openParen => true
  | t => startsDeclaration t

section

variable {r : Reading} {n : Nat} {ts : List Token}

theorem caseFields_reads {names : List String} (h : r.tokens = nameTokens names ++ ts)
    (hts : ∀ s, ts.head? ≠ some (.name s)) (hn : r.tokens.length ≤ n) :
    Reads (caseFields n) r (fun x => x = names) ts := by
  induction names generalizing r n with
  | nil =>
    refine ⟨[], r, ?_, rfl, h⟩
    cases n with
    | zero => rfl
    | succ n =>
      rw [caseFields, peek_bind]
      split
      · next s hs =>
        rw [h] at hs
        exact absurd hs (hts s)
      · rfl
  | cons s names ih =>
    cases n with
    | zero =>
      rw [h] at hn
      cases hn
    | succ n =>
      rw [caseFields]
      refine .after_peek h (.after_advance h fun r₁ h₁ => ?_)
      have hlen : r.tokens.length = r₁.tokens.length + 1 := by
        rw [h, h₁]
        rfl
      refine .bind (ih h₁ (by omega)) fun x r₂ hx h₂ => .pure ?_ h₂
      rw [hx]

theorem caseRule_reads {c : CaseDecl} (h : r.tokens = c.tokens ++ ts)
    (hts : ∀ s, ts.head? ≠ some (.name s)) : Reads caseRule r (fun x => x = c) ts := by
  refine .bind (expectName_reads h) fun x r₁ hx h₁ => .of_run remaining_bind ?_
  refine .bind (caseFields_reads h₁ hts (Nat.le_refl _)) fun names r₂ hnames h₂ => .pure ?_ h₂
  rw [hx, hnames]

theorem moreCases_reads {cs : List CaseDecl} (h : r.tokens = barredTokens cs ++ ts)
    (hts : ∀ s, ts.head? ≠ some (.name s)) (hbar : ts.head? ≠ some .bar)
    (hn : r.tokens.length ≤ n) : Reads (moreCases n) r (fun x => x = cs) ts := by
  induction cs generalizing r n with
  | nil =>
    cases n with
    | zero => exact .pure rfl h
    | succ n =>
      rw [moreCases]
      refine .after_not_take? rfl ?_ (.pure rfl h)
      rw [h]
      exact hbar
  | cons c cs ih =>
    have h : r.tokens = .bar :: (c.tokens ++ (barredTokens cs ++ ts)) := by
      simpa [barredTokens] using h
    cases n with
    | zero =>
      rw [h] at hn
      cases hn
    | succ n =>
      rw [moreCases]
      refine .after_take? rfl h fun r₁ h₁ => ?_
      have hnames : ∀ s, (barredTokens cs ++ ts).head? ≠ some (.name s) := by
        intro s
        cases cs with
        | nil => exact hts s
        | cons c cs => simp [barredTokens]
      refine .bind (caseRule_reads h₁ hnames) fun x r₂ hx h₂ => ?_
      have hlen : r₂.tokens.length ≤ n := by
        simp only [h, h₂, List.length_cons, List.length_append] at hn ⊢
        omega
      refine .bind (ih h₂ hlen) fun xs r₃ hxs h₃ => .pure ?_ h₃
      rw [hx, hxs]

theorem takePublic_reads {isPublic : Bool} {t : Token}
    (h : r.tokens = publicTokens isPublic ++ t :: ts) (ht : t ≠ .wordPublic) :
    Reads (take? .wordPublic) r (fun x => x = isPublic) (t :: ts) := by
  cases isPublic with
  | true => exact .after_nextIs rfl h (.after_advance h fun r₁ h₁ => .pure rfl h₁)
  | false =>
    have hne : r.tokens.head? ≠ some .wordPublic := by
      rw [h]
      simpa [publicTokens] using ht
    exact .after_not_nextIs rfl hne (.pure rfl h)

end

theorem decls_follow {ds : List Decl} {ts : List Token}
    (hts : ∀ t ∈ ts.head?, t = .closeBrace ∨ t = .openParen) :
    ∀ t ∈ (declsTokens ds ++ ts).head?, followsDeclaration t = true := by
  intro t ht
  cases ds with
  | nil => rcases hts t ht with rfl | rfl <;> rfl
  | cons d ds =>
    obtain ⟨u, us, hus, hu⟩ := d.starts
    rw [declsTokens, List.append_assoc, head_append_cons hus] at ht
    cases ht
    cases t <;> first | rfl | exact absurd hu Bool.false_ne_true

theorem body_head {body : Option NamespaceDecl} {ts : List Token} {t : Token}
    (hts : ∀ t ∈ ts.head?, followsDeclaration t = true) (ht : followsDeclaration t = false)
    (hbrace : t ≠ .openBrace) : (typeBodyTokens body ++ ts).head? ≠ some t := by
  intro h
  cases body with
  | none =>
    rw [hts t h] at ht
    cases ht
  | some ns =>
    cases ns
    cases h
    exact hbrace rfl

mutual

theorem declarationsRule_reads {r : Reading} {n : Nat} {ds : List Decl} {ts : List Token}
    (h : r.tokens = declsTokens ds ++ ts) (hds : declsShaped ds)
    (hts : ∀ t ∈ ts.head?, t = .closeBrace ∨ t = .openParen) (hn : 4 * r.tokens.length + 3 ≤ n) :
    Reads (declarationsRule n) r (fun x => plainDecls x = plainDecls ds) ts := by
  match n with
  | n + 1 =>
    rw [declarationsRule]
    refine .of_run atDeclaration_bind ?_
    cases ds with
    | nil =>
      have hat : r.tokens.head?.any startsDeclaration = false := by
        rw [h]
        cases ts with
        | nil => rfl
        | cons t ts => rcases hts t rfl with rfl | rfl <;> rfl
      simp only [hat, Bool.false_eq_true, if_false]
      exact .pure rfl h
    | cons d ds =>
      obtain ⟨t, us, hus, ht⟩ := d.starts
      have h : r.tokens = d.tokens ++ (declsTokens ds ++ ts) := by
        rw [h, declsTokens, List.append_assoc]
      have hat : r.tokens.head?.any startsDeclaration = true := by
        rw [h, head_append_cons hus]
        exact ht
      rw [hat, if_pos rfl]
      have hd := declarationRule_reads (n := n) h hds.1 (decls_follow hts) (by omega)
      refine .bind hd fun x r₁ hx h₁ => ?_
      have hlen : 4 * r₁.tokens.length + 3 ≤ n := by
        simp only [h, h₁, hus, List.length_cons, List.length_append] at hn ⊢
        omega
      refine .bind (declarationsRule_reads h₁ hds.2 hts hlen) fun xs r₂ hxs h₂ => .pure ?_ h₂
      rw [plainDecls, plainDecls, hx, hxs]

theorem declarationRule_reads {r : Reading} {n : Nat} {d : Decl} {ts : List Token}
    (h : r.tokens = d.tokens ++ ts) (hd : d.Shaped)
    (hts : ∀ t ∈ ts.head?, followsDeclaration t = true) (hn : 4 * r.tokens.length + 2 ≤ n) :
    Reads (declarationRule n) r (fun x => x.plain = d.plain) ts := by
  match n with
  | n + 1 =>
    rw [declarationRule]
    cases d with
    | space ns =>
      obtain ⟨name, isPublic, decls⟩ := ns
      have h : r.tokens = publicTokens isPublic ++ .wordNamespace ::
          (name.tokens ++ .openBrace :: (declsTokens decls ++ .closeBrace :: ts)) := by
        simpa [Decl.tokens, NamespaceDecl.tokens] using h
      refine .bind (takePublic_reads h nofun) fun b r₁ hb h₁ => ?_
      have hlen : 4 * r₁.tokens.length + 1 ≤ n := by
        simp only [h, h₁, List.length_append] at hn ⊢
        omega
      refine .after_peek h₁ (.bind (namespaceRule_reads h₁ hd.1 hd.2 hlen) fun x r₂ hx h₂ => ?_)
      exact .pure (by rw [Decl.plain, Decl.plain, hx, hb]) h₂
    | type name isPublic cases body =>
      have h : r.tokens = publicTokens isPublic ++ .wordType ::
          (name.tokens ++ .equals :: (casesTokens cases ++ (typeBodyTokens body ++ ts))) := by
        cases body <;> simpa [Decl.tokens, typeBodyTokens] using h
      refine .bind (takePublic_reads h nofun) fun b r₁ hb h₁ => ?_
      have hlen : 4 * r₁.tokens.length + 1 ≤ n := by
        simp only [h, h₁, List.length_append] at hn ⊢
        omega
      rw [hb]
      exact .after_peek h₁ (typeRule_reads h₁ hd hts hlen)
    | binding p value isPublic =>
      have h : r.tokens = publicTokens isPublic ++ .wordLet ::
          (p.tokens ++ .equals :: (value.tokens ++ ts)) := by
        simpa [Decl.tokens] using h
      refine .bind (takePublic_reads h nofun) fun b r₁ hb h₁ => ?_
      have hlen : 4 * r₁.tokens.length + 1 ≤ n := by
        simp only [h, h₁, List.length_append] at hn ⊢
        omega
      have hdot : ts.head? ≠ some .dot := fun hdot => absurd (hts .dot hdot) Bool.false_ne_true
      refine .after_peek h₁ (.bind (bindingRule_reads h₁ hd.1 hd.2 hdot hlen) fun x r₂ hx h₂ => ?_)
      exact .pure (by rw [Decl.plain, Decl.plain, hx.1, hx.2, hb]) h₂

theorem bodyRule_reads {r : Reading} {n : Nat} {ds : List Decl} {ts : List Token}
    (h : r.tokens = .openBrace :: (declsTokens ds ++ .closeBrace :: ts)) (hds : declsShaped ds)
    (hn : 4 * r.tokens.length + 1 ≤ n) :
    Reads (bodyRule n) r (fun x => plainDecls x = plainDecls ds) ts := by
  match n with
  | n + 1 =>
    rw [bodyRule]
    refine .after_expect rfl h fun _ r₁ h₁ => ?_
    have hlen : r.tokens.length = r₁.tokens.length + 1 := by rw [h, h₁, List.length_cons]
    refine .bind (declarationsRule_reads h₁ hds (by simp) (by omega)) fun x r₂ hx h₂ => ?_
    exact .after_expect rfl h₂ fun _ r₃ h₃ => .pure hx h₃

theorem namespaceRule_reads {r : Reading} {n : Nat} {name : QName} {isPublic : Bool}
    {decls : List Decl} {ts : List Token}
    (h : r.tokens =
      .wordNamespace :: (name.tokens ++ .openBrace :: (declsTokens decls ++ .closeBrace :: ts)))
    (hname : name.Shaped) (hdecls : declsShaped decls) (hn : 4 * r.tokens.length + 1 ≤ n) :
    Reads (namespaceRule n isPublic) r
      (fun x => x.plain = (NamespaceDecl.mk name isPublic decls).plain) ts := by
  match n with
  | n + 1 =>
    rw [namespaceRule]
    refine .after_expect rfl h fun _ r₁ h₁ => ?_
    refine .bind (qname_reads h₁ hname (by simp)) fun x r₂ hx h₂ => ?_
    have hlen : 4 * r₂.tokens.length + 1 ≤ n := by
      simp only [h, h₂, List.length_cons, List.length_append] at hn ⊢
      omega
    refine .bind (bodyRule_reads h₂ hdecls hlen) fun xs r₃ hxs h₃ => .pure ?_ h₃
    rw [NamespaceDecl.plain, NamespaceDecl.plain, hx, hxs]

theorem typeRule_reads {r : Reading} {n : Nat} {name : QName} {isPublic : Bool}
    {cases : List CaseDecl} {body : Option NamespaceDecl} {ts : List Token}
    (h : r.tokens = .wordType ::
      (name.tokens ++ .equals :: (casesTokens cases ++ (typeBodyTokens body ++ ts))))
    (hd : (Decl.type name isPublic cases body).Shaped)
    (hts : ∀ t ∈ ts.head?, followsDeclaration t = true) (hn : 4 * r.tokens.length + 1 ≤ n) :
    Reads (typeRule n isPublic) r
      (fun x => x.plain = (Decl.type name isPublic cases body).plain) ts := by
  match n with
  | n + 1 =>
    obtain ⟨hname, hcases⟩ : name.Shaped ∧ cases ≠ [] := by
      cases body with
      | none => exact hd
      | some ns => exact ⟨hd.1, hd.2.1⟩
    obtain ⟨c, cs, rfl⟩ := List.exists_cons_of_ne_nil hcases
    rw [casesTokens, List.append_assoc] at h
    rw [typeRule]
    refine .after_expect rfl h fun _ r₁ h₁ => ?_
    refine .bind (qname_reads h₁ hname (by simp)) fun x r₂ hx h₂ => ?_
    refine .after_expect rfl h₂ fun _ r₃ h₃ => ?_
    have hnames : ∀ s, (typeBodyTokens body ++ ts).head? ≠ some (.name s) :=
      fun s => body_head hts rfl nofun
    have hnames' : ∀ s, (barredTokens cs ++ (typeBodyTokens body ++ ts)).head? ≠ some (.name s) := by
      intro s
      cases cs with
      | nil => exact hnames s
      | cons c cs => simp [barredTokens]
    refine .bind (caseRule_reads h₃ hnames') fun first r₄ hfirst h₄ => .of_run remaining_bind ?_
    have hbar : (typeBodyTokens body ++ ts).head? ≠ some .bar := body_head hts rfl nofun
    refine .bind (moreCases_reads h₄ hnames hbar (Nat.le_refl _)) fun more r₅ hmore h₅ => ?_
    cases body with
    | none =>
      have hne : r₅.tokens.head? ≠ some .openBrace := by
        rw [h₅]
        exact fun hbrace => absurd (hts .openBrace hbrace) Bool.false_ne_true
      refine .after_not_nextIs rfl hne (.pure ?_ h₅)
      rw [Decl.plain, Decl.plain, hx, hfirst, hmore]
    | some ns =>
      obtain ⟨name', isPublic', decls⟩ := ns
      obtain ⟨_, _, hparts, hpublic, _, hdecls⟩ := hd
      have h₅ : r₅.tokens = .openBrace :: (declsTokens decls ++ .closeBrace :: ts) := by
        simpa [typeBodyTokens, NamespaceDecl.bodyTokens] using h₅
      have hlen : 4 * r₅.tokens.length + 1 ≤ n := by
        simp only [h, h₅, typeBodyTokens, NamespaceDecl.bodyTokens, List.length_cons,
          List.length_append] at hn ⊢
        omega
      refine .after_nextIs rfl h₅ ?_
      refine .bind (bodyRule_reads h₅ hdecls hlen) fun xs r₆ hxs h₆ => .pure ?_ h₆
      have hplain : name'.plain = name.plain := congrArg (QName.mk 0 · 0) hparts
      have hpublic : isPublic' = isPublic := hpublic
      rw [Decl.plain, Decl.plain, NamespaceDecl.plain, NamespaceDecl.plain, hx, hxs, hfirst, hmore,
        hplain, hpublic]

end

section

variable {r : Reading} {n : Nat} {ts : List Token}

theorem importNames_reads {names : List QName}
    (h : r.tokens = namesTokens names ++ .wordFrom :: ts) (hne : names ≠ [])
    (hnames : ∀ name ∈ names, name.Shaped) (hn : r.tokens.length ≤ n) :
    Reads (importNames n) r (fun x => x.map QName.plain = names.map QName.plain) ts := by
  induction names generalizing r n with
  | nil => exact absurd rfl hne
  | cons name names ih =>
    obtain ⟨hname, hnames⟩ := List.forall_mem_cons.mp hnames
    obtain ⟨s, us, hs⟩ := QName.starts hname
    have h : r.tokens = name.tokens ++ (namesTokens names ++ .wordFrom :: ts) := by
      rw [h, namesTokens, List.append_assoc]
    cases n with
    | zero =>
      rw [h, hs] at hn
      cases hn
    | succ n =>
      rw [importNames]
      cases names with
      | nil =>
        refine .bind (qname_reads h hname (by simp [namesTokens])) fun x r₁ hx h₁ => ?_
        exact .after_take? rfl h₁ fun r₂ h₂ => .pure (by simp [hx]) h₂
      | cons name' names' =>
        obtain ⟨s', us', hs'⟩ := QName.starts (hnames name' (List.mem_cons_self ..))
        have hhead : (namesTokens (name' :: names') ++ .wordFrom :: ts).head? = some (.name s') := by
          rw [namesTokens, List.append_assoc, head_append_cons hs']
        refine .bind (qname_reads h hname (by simp [hhead])) fun x r₁ hx h₁ => ?_
        refine .after_not_take? rfl (by simp [h₁, hhead]) ?_
        have hlen : r₁.tokens.length ≤ n := by
          simp only [h, h₁, hs, List.length_cons, List.length_append] at hn ⊢
          omega
        refine .bind (ih h₁ (List.cons_ne_nil _ _) hnames hlen) fun xs r₂ hxs h₂ => .pure ?_ h₂
        rw [List.map_cons, List.map_cons, hx, hxs]

theorem importRule_reads {i : Import} (h : r.tokens = i.tokens ++ ts)
    (hi : ∀ n ∈ i.names, n.Shaped) : Reads importRule r (fun x => x.plain = i.plain) ts := by
  obtain ⟨file, names, line⟩ := i
  rw [importRule]
  refine .after_line fun line => ?_
  cases names with
  | nil =>
    refine .after_advance h fun r₁ h₁ => .after_peek h₁ ?_
    have hnone : Reads (pure ([] : List QName)) r₁ (fun x => x = []) r₁.tokens := .pure rfl rfl
    refine .bind hnone fun xs r₂ hxs h₂ => ?_
    refine .bind (expectText_reads (h₂.trans h₁)) fun x r₃ hx h₃ => .pure ?_ h₃
    rw [Import.plain, Import.plain, hx, hxs]
  | cons name names =>
    obtain ⟨s, us, hs⟩ := QName.starts (hi name (List.mem_cons_self ..))
    have h : r.tokens =
        .wordImport :: (namesTokens (name :: names) ++ .wordFrom :: .text file :: ts) := by
      simpa [Import.tokens, namesTokens] using h
    refine .after_advance h fun r₁ h₁ => ?_
    have hpeek : r₁.tokens = .name s :: (us ++ (namesTokens names ++ .wordFrom :: .text file :: ts)) := by
      rw [h₁, namesTokens, hs, List.append_assoc]
      rfl
    refine .after_peek hpeek (.of_run remaining_bind ?_)
    have hread := importNames_reads h₁ (List.cons_ne_nil _ _) hi (Nat.le_succ _)
    refine .bind hread fun xs r₂ hxs h₂ => ?_
    refine .bind (expectText_reads h₂) fun x r₃ hx h₃ => .pure ?_ h₃
    rw [Import.plain, Import.plain, hx, hxs]

theorem importsRule_reads {is : List Import} (h : r.tokens = importsTokens is ++ ts)
    (his : ∀ i ∈ is, ∀ n ∈ i.names, n.Shaped) (hts : ts.head? ≠ some .wordImport)
    (hn : r.tokens.length ≤ n) :
    Reads (importsRule n) r (fun x => x.map Import.plain = is.map Import.plain) ts := by
  induction is generalizing r n with
  | nil =>
    cases n with
    | zero => exact .pure rfl h
    | succ n =>
      rw [importsRule]
      refine .after_not_nextIs rfl ?_ (.pure rfl h)
      rw [h]
      exact hts
  | cons i is ih =>
    obtain ⟨hi, his⟩ := List.forall_mem_cons.mp his
    obtain ⟨us, hus⟩ := i.starts
    have h : r.tokens = i.tokens ++ (importsTokens is ++ ts) := by
      rw [h, importsTokens, List.append_assoc]
    have hnext : r.tokens = .wordImport :: (us ++ (importsTokens is ++ ts)) := by
      rw [h, hus]
      rfl
    cases n with
    | zero =>
      rw [hnext] at hn
      cases hn
    | succ n =>
      rw [importsRule]
      refine .after_nextIs rfl hnext (.bind (importRule_reads h hi) fun x r₁ hx h₁ => ?_)
      have hlen : r₁.tokens.length ≤ n := by
        simp only [hnext, h₁, List.length_cons, List.length_append] at hn ⊢
        omega
      refine .bind (ih h₁ his hlen) fun xs r₂ hxs h₂ => .pure ?_ h₂
      rw [List.map_cons, List.map_cons, hx, hxs]

theorem trailingRule_reads {trailing : Option TrailingCall} (h : r.tokens = trailingTokens trailing)
    (ht : ∀ c ∈ trailing, c.Shaped) (hn : 4 * r.tokens.length + 1 ≤ n) :
    Reads (trailingRule n) r
      (fun x => x.map TrailingCall.plain = trailing.map TrailingCall.plain) [] := by
  rw [trailingRule]
  cases trailing with
  | none =>
    refine .after_not_nextIs rfl ?_ (.pure rfl h)
    rw [h]
    simp [trailingTokens]
  | some c =>
    have h' : r.tokens = c.tokens ++ [] := by
      rw [h, List.append_nil]
      rfl
    refine .after_nextIs rfl h (.bind (callRule_reads h' (ht c rfl) hn) fun x r₁ hx h₁ => ?_)
    exact .pure (congrArg some hx) h₁

/-- A program of the grammar's shape is read from the tokens that spell it. -/
theorem programRuleWithin_reads {p : Program} (h : r.tokens = p.tokens) (hp : p.Shaped)
    (hn : 4 * r.tokens.length + 4 ≤ n) :
    Reads (programRuleWithin n) r (fun x => x.plain = p.plain) [] := by
  obtain ⟨imports, ⟨name, isPublic, decls⟩, trailing⟩ := p
  obtain ⟨himports, hname, hpublic, hdecls, htrailing⟩ := hp
  have h : r.tokens = importsTokens imports ++ (declsTokens decls ++ trailingTokens trailing) := h
  have htail : ∀ t ∈ (trailingTokens trailing).head?, t = .closeBrace ∨ t = .openParen := by
    intro t ht
    cases trailing with
    | none => cases ht
    | some c =>
      cases ht
      exact .inr rfl
  have hfirst : (declsTokens decls ++ trailingTokens trailing).head? ≠ some .wordImport :=
    fun hhead => absurd (decls_follow htail _ hhead) Bool.false_ne_true
  refine .bind (importsRule_reads h himports hfirst (by omega)) fun is r₁ his h₁ => ?_
  have hlen : 4 * r₁.tokens.length + 3 ≤ n := by
    simp only [h, h₁, List.length_append] at hn ⊢
    omega
  refine .bind (declarationsRule_reads h₁ hdecls htail hlen) fun ds r₂ hds h₂ => ?_
  refine .after_freshId h₂ fun id r₃ h₃ => ?_
  have hlen' : 4 * r₃.tokens.length + 1 ≤ n := by
    simp only [h, h₃, List.length_append] at hn ⊢
    omega
  refine .bind (trailingRule_reads h₃ htrailing hlen') fun c r₄ hc h₄ => .of_run atEnd_bind ?_
  rw [h₄]
  refine .pure ?_ h₄
  have hname : name.parts = [] := hname
  have hpublic : isPublic = true := hpublic
  simp only [Program.plain, NamespaceDecl.plain, QName.plain, his, hds, hc, hname, hpublic]

end

end MatchLang
