import MatchLang.Proofs.Grammar.Exactness
import MatchLang.Proofs.Links.Occurrences
import MatchLang.Proofs.Lowering.Emission

/-! The numbers of occurrences. Every rule of the grammar draws the numbers for the names that it reads
from one supply, so the names of a program that has been read are numbered in their order. -/

namespace MatchLang

/-- What the reader answers has, after the numbers in `before`, those that it has drawn. -/
def Reader.Draws {α : Type} (before : List Nat) (m : Reader α) (ids : α → List Nat) : Prop :=
  ∀ r a r', m.run r = .ok (a, r') →
    ∃ k, r'.nextId = r.nextId + k ∧ ids a = before ++ List.range' r.nextId k

/-- What the reader answers has no numbers. -/
abbrev Reader.Silent {α : Type} (m : Reader α) : Prop :=
  Draws [] m fun _ => []

namespace Reader

variable {α β : Type} {before : List Nat} {m : Reader α} {k : α → Reader β} {f : α → List Nat}
  {g : β → List Nat}

theorem Draws.pure {a : α} (h : f a = before) : Draws before (pure a) f := by
  intro r b r' hr
  cases hr
  exact ⟨0, rfl, by rw [h, List.range'_zero, List.append_nil]⟩

theorem Draws.unexpected {e : Expected} : Draws before (unexpected e) f := by
  intro r a r' hr
  cases hr

theorem Draws.bind (hm : Draws [] m f) (hk : ∀ a, Draws (before ++ f a) (k a) g) :
    Draws before (m >>= k) g := by
  intro r b r' hr
  rw [StateT.run_bind] at hr
  cases hm' : m.run r with
  | error e =>
    rw [hm'] at hr
    cases hr
  | ok x =>
    obtain ⟨a, r₁⟩ := x
    rw [hm'] at hr
    obtain ⟨j, hj, hf⟩ := hm r a r₁ hm'
    obtain ⟨k, hk, hg⟩ := hk a r₁ b r' hr
    refine ⟨j + k, by rw [hk, hj, Nat.add_assoc], ?_⟩
    rw [hg, hf, hj, List.nil_append, List.append_assoc, List.range'_append_1]

theorem Draws.silent_bind (hm : Silent m) (hk : ∀ a, Draws before (k a) g) :
    Draws before (m >>= k) g := by
  refine .bind hm fun a => ?_
  rw [List.append_nil]
  exact hk a

theorem Draws.ite {p : Prop} [Decidable p] {m' : Reader α} (h : Draws before m f)
    (h' : Draws before m' f) : Draws before (if p then m else m') f := by
  split
  · exact h
  · exact h'

theorem Draws.map {h : α → β} (hm : Draws before m fun a => g (h a)) :
    Draws before (h <$> m) g := by
  intro r b r' hr
  rw [StateT.run_map] at hr
  cases hm' : m.run r with
  | error e =>
    rw [hm'] at hr
    cases hr
  | ok x =>
    rw [hm'] at hr
    cases hr
    exact hm r _ _ hm'

end Reader

section

open Reader

theorem peek_silent : Silent peek := fun r _ _ h => by
  cases h
  exact ⟨0, rfl, rfl⟩

theorem peekSecond_silent : Silent peekSecond := fun r _ _ h => by
  cases h
  exact ⟨0, rfl, rfl⟩

theorem currentLine_silent : Silent currentLine := fun r _ _ h => by
  cases h
  exact ⟨0, rfl, rfl⟩

theorem advance_silent : Silent advance := fun r _ _ h => by
  cases h
  exact ⟨0, rfl, rfl⟩

theorem atEnd_silent : Silent atEnd := fun r _ _ h => by
  cases h
  exact ⟨0, rfl, rfl⟩

theorem remaining_silent : Silent remaining := fun r _ _ h => by
  cases h
  exact ⟨0, rfl, rfl⟩

theorem freshId_draws : Draws [] freshId fun id => [id] := fun r _ _ h => by
  cases h
  exact ⟨1, rfl, rfl⟩

theorem nextIs_silent (t : Token) : Silent (nextIs t) :=
  .silent_bind peek_silent fun _ => .pure rfl

theorem atExpression_silent : Silent atExpression :=
  .silent_bind peek_silent fun _ => .pure rfl

theorem atDeclaration_silent : Silent atDeclaration :=
  .silent_bind peek_silent fun _ => .pure rfl

theorem take?_silent (t : Token) : Silent (take? t) :=
  .silent_bind (nextIs_silent t) fun _ =>
    .ite (.silent_bind advance_silent fun _ => .pure rfl) (.pure rfl)

theorem expect_silent (t : Token) (e : Expected) : Silent (expect t e) :=
  .silent_bind currentLine_silent fun _ => .silent_bind (take?_silent t) fun _ =>
    .ite (.pure rfl) .unexpected

theorem expectName_silent (e : Expected) : Silent (expectName e) := by
  refine .silent_bind currentLine_silent fun line => .silent_bind peek_silent fun t => ?_
  split
  · exact .silent_bind advance_silent fun _ => .pure rfl
  · exact .unexpected

theorem expectText_silent (e : Expected) : Silent (expectText e) := by
  refine .silent_bind peek_silent fun t => ?_
  split
  · exact .silent_bind advance_silent fun _ => .pure rfl
  · exact .unexpected

theorem nameParts_silent (n : Nat) : Silent (nameParts n) := by
  induction n with
  | zero => exact .pure rfl
  | succ n ih =>
    refine .silent_bind peek_silent fun t => .silent_bind peekSecond_silent fun t' => ?_
    split
    · exact .silent_bind advance_silent fun _ => .silent_bind advance_silent fun _ =>
        .silent_bind ih fun _ => .pure rfl
    · exact .pure rfl

theorem qname_draws : Draws [] qname fun n => [n.id] := by
  refine .silent_bind (expectName_silent _) fun x => .silent_bind remaining_silent fun n =>
    .silent_bind (nameParts_silent n) fun parts => ?_
  exact .bind freshId_draws fun id => .pure rfl

theorem literal?_silent : Silent literal? := by
  refine .silent_bind currentLine_silent fun line => .silent_bind peek_silent fun t => ?_
  split
  · exact .silent_bind advance_silent fun _ => .pure rfl
  · exact .silent_bind advance_silent fun _ => .pure rfl
  · exact .silent_bind advance_silent fun _ => .pure rfl
  · exact .silent_bind advance_silent fun _ => .pure rfl
  · exact .pure rfl

mutual

theorem patternRule_draws (n : Nat) : Draws [] (patternRule n) fun p => mentionIds p.mentions := by
  match n with
  | 0 => exact .unexpected
  | n + 1 =>
    rw [patternRule]
    refine .silent_bind currentLine_silent fun line => .silent_bind peek_silent fun t => ?_
    split
    · exact .silent_bind advance_silent fun _ => .pure rfl
    · exact .silent_bind advance_silent fun _ => .bind freshId_draws fun id => .pure rfl
    · exact .silent_bind advance_silent fun _ =>
        .bind (patternsUntil_draws n _ _) fun ps => .pure rfl
    · exact .silent_bind advance_silent fun _ => .bind qname_draws fun name =>
        .bind (patternsUntil_draws n _ _) fun ps => .pure rfl
    · refine .silent_bind literal?_silent fun value => ?_
      split
      · exact .pure rfl
      · exact .unexpected

theorem patternsUntil_draws (n : Nat) (close : Token) (e : Expected) :
    Draws [] (patternsUntil n close e) fun ps => mentionIds (patternsMentions ps) := by
  match n with
  | 0 => exact .unexpected
  | n + 1 =>
    rw [patternsUntil]
    refine .silent_bind (take?_silent close) fun _ => .ite (.pure rfl) ?_
    refine .silent_bind atEnd_silent fun _ => .ite .unexpected ?_
    refine .bind (patternRule_draws n) fun p => .bind (patternsUntil_draws n close e) fun ps => ?_
    exact .pure (by simp [patternsMentions])

end

mutual

theorem blockRule_draws (n : Nat) :
    Draws [] (blockRule n) fun b => mentionIds (b.mentions []) := by
  match n with
  | 0 => exact .unexpected
  | n + 1 =>
    rw [blockRule]
    refine .silent_bind (nextIs_silent _) fun _ => .ite ?_ ?_
    · refine .bind (bindingRule_draws n) fun x => .bind (blockRule_draws n) fun rest => .pure ?_
      simp [Block.mentions]
    · exact .bind (expressionRule_draws n) fun e => .pure rfl

theorem bindingRule_draws (n : Nat) :
    Draws [] (bindingRule n) fun x =>
      mentionIds x.1.mentions ++ mentionIds (x.2.mentions []) := by
  match n with
  | 0 => exact .unexpected
  | n + 1 =>
    rw [bindingRule]
    exact .silent_bind (expect_silent _ _) fun _ => .bind (patternRule_draws n) fun p =>
      .silent_bind (expect_silent _ _) fun _ => .bind (blockRule_draws n) fun value => .pure rfl

theorem expressionRule_draws (n : Nat) :
    Draws [] (expressionRule n) fun e => mentionIds (e.mentions []) := by
  match n with
  | 0 => exact .unexpected
  | n + 1 =>
    rw [expressionRule]
    refine .silent_bind peek_silent fun t => ?_
    split
    · exact .bind (callRule_draws n) fun c => .pure rfl
    · exact functionRule_draws n
    · exact listRule_draws n
    · exact .bind qname_draws fun name => .pure rfl
    · refine .silent_bind literal?_silent fun value => ?_
      split
      · exact .pure rfl
      · exact .unexpected

theorem callRule_draws (n : Nat) :
    Draws [] (callRule n) fun c => mentionIds (c.toExpr.mentions []) := by
  match n with
  | 0 => exact .unexpected
  | n + 1 =>
    rw [callRule]
    exact .silent_bind (expect_silent _ _) fun _ => .bind (calleeRule_draws n) fun callee =>
      .bind (argumentsRule_draws n) fun args => .silent_bind (expect_silent _ _) fun _ =>
        .pure (by simp [TrailingCall.toExpr, Expr.mentions])

theorem calleeRule_draws (n : Nat) :
    Draws [] (calleeRule n) fun e => mentionIds (e.mentions []) := by
  match n with
  | 0 => exact .unexpected
  | n + 1 =>
    rw [calleeRule]
    refine .silent_bind (nextIs_silent _) fun _ => .ite ?_ (expressionRule_draws n)
    exact .silent_bind currentLine_silent fun _ => .silent_bind advance_silent fun _ => .pure rfl

theorem argumentsRule_draws (n : Nat) :
    Draws [] (argumentsRule n) fun es => mentionIds (exprsMentions [] es) := by
  match n with
  | 0 => exact .unexpected
  | n + 1 =>
    rw [argumentsRule]
    refine .silent_bind atExpression_silent fun _ => .ite ?_ (.pure rfl)
    exact .bind (expressionRule_draws n) fun e => .bind (argumentsRule_draws n) fun es =>
      .pure (by simp [exprsMentions])

theorem functionRule_draws (n : Nat) :
    Draws [] (functionRule n) fun e => mentionIds (e.mentions []) := by
  match n with
  | 0 => exact .unexpected
  | n + 1 =>
    rw [functionRule]
    exact .silent_bind (expect_silent _ _) fun _ => .bind (patternsUntil_draws n _ _) fun params =>
      .bind (blockRule_draws n) fun body => .silent_bind (expect_silent _ _) fun _ =>
        .pure (by simp [Expr.mentions])

theorem listRule_draws (n : Nat) :
    Draws [] (listRule n) fun e => mentionIds (e.mentions []) := by
  match n with
  | 0 => exact .unexpected
  | n + 1 =>
    rw [listRule]
    exact .silent_bind (expect_silent _ _) fun _ => .bind (elementsRule_draws n) fun elements =>
      .silent_bind (expect_silent _ _) fun _ => .pure rfl

theorem elementsRule_draws (n : Nat) :
    Draws [] (elementsRule n) fun bs => mentionIds (blocksMentions [] bs) := by
  match n with
  | 0 => exact .unexpected
  | n + 1 =>
    rw [elementsRule]
    refine .silent_bind (nextIs_silent _) fun _ => .silent_bind atExpression_silent fun _ =>
      .ite ?_ (.pure rfl)
    exact .bind (blockRule_draws n) fun b => .bind (elementsRule_draws n) fun bs =>
      .pure (by simp [blocksMentions])

end

theorem caseFields_silent (n : Nat) : Silent (caseFields n) := by
  induction n with
  | zero => exact .pure rfl
  | succ n ih =>
    refine .silent_bind peek_silent fun t => ?_
    split
    · exact .silent_bind advance_silent fun _ => .silent_bind ih fun _ => .pure rfl
    · exact .pure rfl

theorem caseRule_silent : Silent caseRule :=
  .silent_bind (expectName_silent _) fun _ => .silent_bind remaining_silent fun n =>
    .silent_bind (caseFields_silent n) fun _ => .pure rfl

theorem moreCases_silent (n : Nat) : Silent (moreCases n) := by
  induction n with
  | zero => exact .pure rfl
  | succ n ih =>
    exact .silent_bind (take?_silent _) fun _ => .ite
      (.silent_bind caseRule_silent fun _ => .silent_bind ih fun _ => .pure rfl) (.pure rfl)

mutual

theorem declarationsRule_draws (n : Nat) :
    Draws [] (declarationsRule n) fun ds => mentionIds (declsMentions [] ds) := by
  match n with
  | 0 => exact .unexpected
  | n + 1 =>
    rw [declarationsRule]
    refine .silent_bind atDeclaration_silent fun _ => .ite ?_ (.pure rfl)
    exact .bind (declarationRule_draws n) fun d => .bind (declarationsRule_draws n) fun ds =>
      .pure (by simp [declsMentions])

theorem declarationRule_draws (n : Nat) :
    Draws [] (declarationRule n) fun d => mentionIds (d.mentions []) := by
  match n with
  | 0 => exact .unexpected
  | n + 1 =>
    rw [declarationRule]
    refine .silent_bind (take?_silent _) fun isPublic => .silent_bind peek_silent fun t => ?_
    split
    · exact .bind (namespaceRule_draws n isPublic) fun ns => .pure rfl
    · exact typeRule_draws n isPublic
    · exact .bind (bindingRule_draws n) fun x => .pure (by simp [Decl.mentions])
    · exact .unexpected

theorem bodyRule_draws (n : Nat) :
    Draws [] (bodyRule n) fun ds => mentionIds (declsMentions [] ds) := by
  match n with
  | 0 => exact .unexpected
  | n + 1 =>
    rw [bodyRule]
    exact .silent_bind (expect_silent _ _) fun _ => .bind (declarationsRule_draws n) fun ds =>
      .silent_bind (expect_silent _ _) fun _ => .pure rfl

theorem namespaceRule_draws (n : Nat) (isPublic : Bool) :
    Draws [] (namespaceRule n isPublic) fun ns =>
      ns.name.id :: mentionIds (ns.mentions []) := by
  match n with
  | 0 => exact .unexpected
  | n + 1 =>
    rw [namespaceRule]
    exact .silent_bind (expect_silent _ _) fun _ => .bind qname_draws fun name =>
      .bind (bodyRule_draws n) fun ds => .pure (by simp [NamespaceDecl.mentions, NamespaceDecl.name])

theorem typeRule_draws (n : Nat) (isPublic : Bool) :
    Draws [] (typeRule n isPublic) fun d => mentionIds (d.mentions []) := by
  match n with
  | 0 => exact .unexpected
  | n + 1 =>
    rw [typeRule]
    refine .silent_bind (expect_silent _ _) fun _ => .bind qname_draws fun name =>
      .silent_bind (expect_silent _ _) fun _ => .silent_bind caseRule_silent fun first =>
      .silent_bind remaining_silent fun k => .silent_bind (moreCases_silent k) fun cases =>
      .silent_bind (nextIs_silent _) fun _ => .ite ?_ (.pure rfl)
    exact .bind (bodyRule_draws n) fun ds =>
      .pure (by simp [Decl.mentions, NamespaceDecl.mentions, Mention.id])

end

theorem importNames_draws (n : Nat) :
    Draws [] (importNames n) fun ns => mentionIds (ns.map .title) := by
  induction n with
  | zero => exact .unexpected
  | succ n ih =>
    exact .bind qname_draws fun _ => .silent_bind (take?_silent _) fun _ =>
      .ite (.pure rfl) (.bind ih fun _ => .pure rfl)

theorem importRule_draws : Draws [] importRule fun i => mentionIds (i.names.map .title) := by
  refine .silent_bind currentLine_silent fun _ => .silent_bind advance_silent fun _ => ?_
  refine .silent_bind peek_silent fun t => ?_
  have hfile (line : Nat) (names : List QName) : Draws ([] ++ mentionIds (names.map .title))
      (expectText .fileName >>= fun file => pure ({ file, names, line } : Import)) fun i =>
        mentionIds (i.names.map .title) :=
    .silent_bind (expectText_silent _) fun _ => .pure rfl
  split
  · exact .bind (f := fun names => mentionIds (names.map .title)) (.pure rfl) (hfile _)
  · exact .silent_bind remaining_silent fun n => .bind (importNames_draws (n + 1)) (hfile _)

theorem importsRule_draws (n : Nat) :
    Draws [] (importsRule n) fun is => mentionIds (importsMentions is) := by
  induction n with
  | zero => exact .pure rfl
  | succ n ih =>
    refine .silent_bind (nextIs_silent _) fun _ => .ite ?_ (.pure rfl)
    exact .bind importRule_draws fun i => .bind ih fun is => .pure (by simp [importsMentions])

theorem trailingRule_draws (n : Nat) :
    Draws [] (trailingRule n) fun t => t.elim [] fun c => mentionIds (c.toExpr.mentions []) := by
  refine .silent_bind (nextIs_silent _) fun _ => .ite ?_ (.pure rfl)
  exact .bind (callRule_draws n) fun c => .pure rfl

theorem programRuleWithin_draws (n : Nat) :
    Draws [] (programRuleWithin n) fun p => mentionIds p.mentions := by
  refine .bind (importsRule_draws n) fun imports => .bind (declarationsRule_draws n) fun decls =>
    .bind freshId_draws fun id => .bind (trailingRule_draws n) fun trailing =>
    .silent_bind atEnd_silent fun _ => ?_
  refine .ite (.pure ?_) .unexpected
  cases trailing with
  | none => simp [Program.mentions, NamespaceDecl.mentions, Mention.id, NamespaceDecl.name]
  | some c => simp [Program.mentions, NamespaceDecl.mentions, Mention.id, NamespaceDecl.name]

end

/-- The names of a program that has been read are numbered in their order. -/
theorem Program.mentionIds_eq {ls : List Lexeme} {p : Program}
    (h : Program.ofLexemes ls = .ok p) :
    mentionIds p.mentions = List.range p.mentions.length := by
  obtain ⟨r, hr⟩ := ofLexemes_eq_ok.mp h
  rw [programRule_eq_within (Nat.le_refl _)] at hr
  obtain ⟨k, _, (he : mentionIds p.mentions = _)⟩ := programRuleWithin_draws _ _ _ _ hr
  have hk : p.mentions.length = k := by
    simpa [mentionIds] using congrArg List.length he
  rw [he, hk, List.range_eq_range']
  rfl

/-- No two names of a program that has been read have the same number. -/
theorem Program.ids_nodup {ls : List Lexeme} {p : Program} (h : Program.ofLexemes ls = .ok p) :
    p.ids.Nodup := by
  refine List.Nodup.sublist p.ids_sublist ?_
  rw [Program.mentionIds_eq h]
  exact List.nodup_range

theorem Program.read_ids_nodup {source : String} {p : Program} (h : Program.read source = .ok p) : p.ids.Nodup := by
  obtain ⟨ls, -, h⟩ := Except.bind_eq_ok h
  exact Program.ids_nodup h

mutual

/-- The body of every type goes by the name of the type itself, its number included. -/
def declsTitled : List Decl → Prop
  | [] => True
  | d :: ds => d.Titled ∧ declsTitled ds

def Decl.Titled : Decl → Prop
  | .space ns => ns.Titled
  | .type n _ _ (some ns) => ns.name = n ∧ ns.Titled
  | .type _ _ _ none => True
  | .binding _ _ _ => True

def NamespaceDecl.Titled : NamespaceDecl → Prop
  | .mk _ _ decls => declsTitled decls

end

section

open Reader

mutual

theorem declarationsRule_titled {r r' : Reading} {n : Nat} {ds : List Decl}
    (h : (declarationsRule n).run r = .ok (ds, r')) : declsTitled ds := by
  match n with
  | 0 => exact absurd h unexpected_ne_ok
  | n + 1 =>
    rw [declarationsRule, atDeclaration_bind] at h
    split at h
    · obtain ⟨d, r₁, hd, h⟩ := exists_of_bind h
      obtain ⟨ds, r₂, hds, h⟩ := exists_of_bind h
      cases h
      exact ⟨declarationRule_titled hd, declarationsRule_titled hds⟩
    · cases h
      exact trivial

theorem declarationRule_titled {r r' : Reading} {n : Nat} {d : Decl}
    (h : (declarationRule n).run r = .ok (d, r')) : d.Titled := by
  match n with
  | 0 => exact absurd h unexpected_ne_ok
  | n + 1 =>
    obtain ⟨isPublic, r₁, _, h⟩ := exists_of_bind h
    rw [peek_bind] at h
    split at h
    · obtain ⟨ns, r₂, hns, h⟩ := exists_of_bind h
      cases h
      exact namespaceRule_titled hns
    · exact typeRule_titled h
    · obtain ⟨x, r₂, _, h⟩ := exists_of_bind h
      cases h
      exact trivial
    · exact absurd h unexpected_ne_ok

theorem bodyRule_titled {r r' : Reading} {n : Nat} {ds : List Decl}
    (h : (bodyRule n).run r = .ok (ds, r')) : declsTitled ds := by
  match n with
  | 0 => exact absurd h unexpected_ne_ok
  | n + 1 =>
    obtain ⟨_, r₁, _, h⟩ := exists_of_bind h
    obtain ⟨decls, r₂, hdecls, h⟩ := exists_of_bind h
    obtain ⟨_, r₃, _, h⟩ := exists_of_bind h
    cases h
    exact declarationsRule_titled hdecls

theorem namespaceRule_titled {r r' : Reading} {n : Nat} {isPublic : Bool} {ns : NamespaceDecl}
    (h : (namespaceRule n isPublic).run r = .ok (ns, r')) : ns.Titled := by
  match n with
  | 0 => exact absurd h unexpected_ne_ok
  | n + 1 =>
    obtain ⟨_, r₁, _, h⟩ := exists_of_bind h
    obtain ⟨name, r₂, _, h⟩ := exists_of_bind h
    obtain ⟨decls, r₃, hdecls, h⟩ := exists_of_bind h
    cases h
    exact bodyRule_titled hdecls

theorem typeRule_titled {r r' : Reading} {n : Nat} {isPublic : Bool} {d : Decl}
    (h : (typeRule n isPublic).run r = .ok (d, r')) : d.Titled := by
  match n with
  | 0 => exact absurd h unexpected_ne_ok
  | n + 1 =>
    obtain ⟨_, r₁, _, h⟩ := exists_of_bind h
    obtain ⟨name, r₂, _, h⟩ := exists_of_bind h
    obtain ⟨_, r₃, _, h⟩ := exists_of_bind h
    obtain ⟨first, r₄, _, h⟩ := exists_of_bind h
    rw [remaining_bind] at h
    obtain ⟨more, r₅, _, h⟩ := exists_of_bind h
    rw [nextIs_bind] at h
    split at h
    · obtain ⟨decls, r₆, hdecls, h⟩ := exists_of_bind h
      cases h
      exact ⟨rfl, bodyRule_titled hdecls⟩
    · cases h
      exact trivial

end

end

theorem Program.titled_of_ofLexemes {ls : List Lexeme} {p : Program}
    (h : Program.ofLexemes ls = .ok p) : p.root.Titled := by
  obtain ⟨r, hr⟩ := ofLexemes_eq_ok.mp h
  rw [programRule_eq_within (Nat.le_refl _)] at hr
  obtain ⟨imports, r₁, _, hr⟩ := Reader.exists_of_bind hr
  obtain ⟨decls, r₂, hdecls, hr⟩ := Reader.exists_of_bind hr
  rw [freshId_bind] at hr
  obtain ⟨trailing, r₃, _, hr⟩ := Reader.exists_of_bind hr
  rw [atEnd_bind] at hr
  split at hr
  · cases hr
    exact declarationsRule_titled hdecls
  · exact absurd hr unexpected_ne_ok

end MatchLang
