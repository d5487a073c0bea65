import MatchLang.Proofs.Grammar.Numbering

/-! Texts of one line. When all lexemes stand on one line, so does everything in the tree, so trees with
the same tokens differ in nothing but the numbers of their names. -/

namespace MatchLang

section

/-! Trees without the numbers of their names. -/

def QName.unnumbered (n : QName) : QName :=
  { n with id := 0 }

mutual

def Pattern.unnumbered : Pattern → Pattern
  | .wildcard => .wildcard
  | .name _ s line => .name 0 s line
  | .literal value line => .literal value line
  | .list items => .list (unnumberedPatterns items)
  | .type n params => .type n.unnumbered (unnumberedPatterns params)

def unnumberedPatterns : List Pattern → List Pattern
  | [] => []
  | p :: ps => p.unnumbered :: unnumberedPatterns ps

end

mutual

def Expr.unnumbered : Expr → Expr
  | .call callee args line => .call callee.unnumbered (unnumberedExprs args) line
  | .function params body line => .function (unnumberedPatterns params) body.unnumbered line
  | .list elements line => .list (unnumberedBlocks elements) line
  | .literal value line => .literal value line
  | .name n => .name n.unnumbered
  | .self line => .self line

def unnumberedExprs : List Expr → List Expr
  | [] => []
  | e :: es => e.unnumbered :: unnumberedExprs es

def unnumberedBlocks : List Block → List Block
  | [] => []
  | b :: bs => b.unnumbered :: unnumberedBlocks bs

def Block.unnumbered : Block → Block
  | .result e => .result e.unnumbered
  | .bind p value isPublic rest => .bind p.unnumbered value.unnumbered isPublic rest.unnumbered

end

mutual

def unnumberedDecls : List Decl → List Decl
  | [] => []
  | d :: ds => d.unnumbered :: unnumberedDecls ds

def Decl.unnumbered : Decl → Decl
  | .space ns => .space ns.unnumbered
  | .type n isPublic cases none => .type n.unnumbered isPublic cases none
  | .type n isPublic cases (some ns) => .type n.unnumbered isPublic cases (some ns.unnumbered)
  | .binding p value isPublic => .binding p.unnumbered value.unnumbered isPublic

def NamespaceDecl.unnumbered : NamespaceDecl → NamespaceDecl
  | .mk n isPublic decls => .mk n.unnumbered isPublic (unnumberedDecls decls)

end

end

section

/-! Trees without numbers and with everything on one line. -/

variable (l : Nat)

def QName.onLine (n : QName) : QName :=
  { id := 0, parts := n.parts, line := l }

mutual

def Pattern.onLine : Pattern → Pattern
  | .wildcard => .wildcard
  | .name _ s _ => .name 0 s l
  | .literal value _ => .literal value l
  | .list items => .list (patternsOnLine items)
  | .type n params => .type (n.onLine l) (patternsOnLine params)

def patternsOnLine : List Pattern → List Pattern
  | [] => []
  | p :: ps => p.onLine :: patternsOnLine ps

end

mutual

def Expr.onLine : Expr → Expr
  | .call callee args _ => .call callee.onLine (exprsOnLine args) l
  | .function params body _ => .function (patternsOnLine l params) body.onLine l
  | .list elements _ => .list (blocksOnLine elements) l
  | .literal value _ => .literal value l
  | .name n => .name (n.onLine l)
  | .self _ => .self l

def exprsOnLine : List Expr → List Expr
  | [] => []
  | e :: es => e.onLine :: exprsOnLine es

def blocksOnLine : List Block → List Block
  | [] => []
  | b :: bs => b.onLine :: blocksOnLine bs

def Block.onLine : Block → Block
  | .result e => .result e.onLine
  | .bind p value isPublic rest => .bind (p.onLine l) value.onLine isPublic rest.onLine

end

mutual

def declsOnLine : List Decl → List Decl
  | [] => []
  | d :: ds => d.onLine :: declsOnLine ds

def Decl.onLine : Decl → Decl
  | .space ns => .space ns.onLine
  | .type n isPublic cases none => .type (n.onLine l) isPublic cases none
  | .type n isPublic cases (some ns) => .type (n.onLine l) isPublic cases (some ns.onLine)
  | .binding p value isPublic => .binding (p.onLine l) (value.onLine l) isPublic

def NamespaceDecl.onLine : NamespaceDecl → NamespaceDecl
  | .mk n isPublic decls => .mk (n.onLine l) isPublic (declsOnLine decls)

end

end

section

variable {l : Nat}

theorem QName.onLine_plain (n : QName) : n.plain.onLine l = n.onLine l := rfl

mutual

theorem Pattern.onLine_plain (p : Pattern) : p.plain.onLine l = p.onLine l := by
  match p with
  | .wildcard | .name _ _ _ | .literal _ _ => rfl
  | .list items => simp only [Pattern.plain, Pattern.onLine, patternsOnLine_plain items]
  | .type n params =>
    simp only [Pattern.plain, Pattern.onLine, patternsOnLine_plain params, n.onLine_plain]

theorem patternsOnLine_plain (ps : List Pattern) :
    patternsOnLine l (plainPatterns ps) = patternsOnLine l ps := by
  match ps with
  | [] => rfl
  | p :: ps => simp only [plainPatterns, patternsOnLine, p.onLine_plain, patternsOnLine_plain ps]

end

mutual

theorem Expr.onLine_plain (e : Expr) : e.plain.onLine l = e.onLine l := by
  match e with
  | .call callee args _ =>
    simp only [Expr.plain, Expr.onLine, callee.onLine_plain, exprsOnLine_plain args]
  | .function params body _ =>
    simp only [Expr.plain, Expr.onLine, patternsOnLine_plain params, body.onLine_plain]
  | .list elements _ => simp only [Expr.plain, Expr.onLine, blocksOnLine_plain elements]
  | .literal _ _ | .self _ => rfl
  | .name n => simp only [Expr.plain, Expr.onLine, n.onLine_plain]

theorem exprsOnLine_plain (es : List Expr) :
    exprsOnLine l (plainExprs es) = exprsOnLine l es := by
  match es with
  | [] => rfl
  | e :: es => simp only [plainExprs, exprsOnLine, e.onLine_plain, exprsOnLine_plain es]

theorem blocksOnLine_plain (bs : List Block) :
    blocksOnLine l (plainBlocks bs) = blocksOnLine l bs := by
  match bs with
  | [] => rfl
  | b :: bs => simp only [plainBlocks, blocksOnLine, b.onLine_plain, blocksOnLine_plain bs]

theorem Block.onLine_plain (b : Block) : b.plain.onLine l = b.onLine l := by
  match b with
  | .result e => simp only [Block.plain, Block.onLine, e.onLine_plain]
  | .bind p value _ rest =>
    simp only [Block.plain, Block.onLine, p.onLine_plain, value.onLine_plain, rest.onLine_plain]

end

mutual

theorem declsOnLine_plain (ds : List Decl) :
    declsOnLine l (plainDecls ds) = declsOnLine l ds := by
  match ds with
  | [] => rfl
  | d :: ds => simp only [plainDecls, declsOnLine, d.onLine_plain, declsOnLine_plain ds]

theorem Decl.onLine_plain (d : Decl) : d.plain.onLine l = d.onLine l := by
  match d with
  | .space ns => simp only [Decl.plain, Decl.onLine, ns.onLine_plain]
  | .type n _ _ none => simp only [Decl.plain, Decl.onLine, n.onLine_plain]
  | .type n _ _ (some ns) => simp only [Decl.plain, Decl.onLine, n.onLine_plain, ns.onLine_plain]
  | .binding p value _ =>
    simp only [Decl.plain, Decl.onLine, p.onLine_plain, value.onLine_plain]

theorem NamespaceDecl.onLine_plain (ns : NamespaceDecl) : ns.plain.onLine l = ns.onLine l := by
  match ns with
  | .mk n _ decls =>
    simp only [NamespaceDecl.plain, NamespaceDecl.onLine, n.onLine_plain, declsOnLine_plain decls]

end

end

/-- All that is left stands on the line `l`. -/
structure Reading.OnLine (r : Reading) (l : Nat) : Prop where
  last : r.lastLine = l
  rest : ∀ x ∈ r.rest, x.line = l

theorem Reading.OnLine.line {r : Reading} {l : Nat} (h : r.OnLine l) : r.line = l := by
  unfold Reading.line
  cases hr : r.rest with
  | nil => exact h.last
  | cons x rest => exact h.rest x (hr ▸ List.mem_cons_self)

theorem Reading.OnLine.drop {r : Reading} {l : Nat} (h : r.OnLine l) (n : Nat) :
    Reading.OnLine { r with rest := r.rest.drop n } l :=
  ⟨h.last, fun x hx => h.rest x (List.mem_of_mem_drop hx)⟩

/-- What the reader answers about lexemes on the line `l` has the property `P`. -/
def Reader.Lined {α : Type} (l : Nat) (m : Reader α) (P : α → Prop) : Prop :=
  ∀ r a r', r.OnLine l → m.run r = .ok (a, r') → r'.OnLine l ∧ P a

namespace Reader

variable {α β : Type} {l : Nat} {m : Reader α} {k : α → Reader β} {P : α → Prop} {Q : β → Prop}

theorem Lined.pure {a : α} (h : P a) : Lined l (pure a) P := by
  intro r b r' hr hrun
  cases hrun
  exact ⟨hr, h⟩

theorem Lined.unexpected {e : Expected} : Lined l (unexpected e) P := by
  intro r a r' _ hrun
  cases hrun

theorem Lined.bind (hm : Lined l m P) (hk : ∀ a, P a → Lined l (k a) Q) : Lined l (m >>= k) Q := by
  intro r b r' hr hrun
  obtain ⟨a, r₁, h₁, h₂⟩ := exists_of_bind hrun
  obtain ⟨hr₁, ha⟩ := hm r a r₁ hr h₁
  exact hk a ha r₁ b r' hr₁ h₂

theorem Lined.ite {p : Prop} [Decidable p] {m' : Reader α} (h : Lined l m P) (h' : Lined l m' P) :
    Lined l (if p then m else m') P := by
  split
  · exact h
  · exact h'

end Reader

section

open Reader

variable {l : Nat}

theorem peek_lined : Lined l peek fun _ => True := fun r _ _ hr h => by
  cases h
  exact ⟨hr, trivial⟩

theorem peekSecond_lined : Lined l peekSecond fun _ => True := fun r _ _ hr h => by
  cases h
  exact ⟨hr, trivial⟩

theorem currentLine_lined : Lined l currentLine (· = l) := fun r _ _ hr h => by
  cases h
  exact ⟨hr, hr.line⟩

theorem advance_lined : Lined l advance fun _ => True := fun r _ _ hr h => by
  cases h
  exact ⟨hr.drop 1, trivial⟩

theorem atEnd_lined : Lined l atEnd fun _ => True := fun r _ _ hr h => by
  cases h
  exact ⟨hr, trivial⟩

theorem remaining_lined : Lined l remaining fun _ => True := fun r _ _ hr h => by
  cases h
  exact ⟨hr, trivial⟩

theorem freshId_lined : Lined l freshId fun _ => True := fun r _ _ hr h => by
  cases h
  exact ⟨⟨hr.last, hr.rest⟩, trivial⟩

theorem nextIs_lined (t : Token) : Lined l (nextIs t) fun _ => True :=
  .bind peek_lined fun _ _ => .pure trivial

theorem atExpression_lined : Lined l atExpression fun _ => True :=
  .bind peek_lined fun _ _ => .pure trivial

theorem atDeclaration_lined : Lined l atDeclaration fun _ => True :=
  .bind peek_lined fun _ _ => .pure trivial

theorem take?_lined (t : Token) : Lined l (take? t) fun _ => True :=
  .bind (nextIs_lined t) fun _ _ =>
    .ite (.bind advance_lined fun _ _ => .pure trivial) (.pure trivial)

theorem expect_lined (t : Token) (e : Expected) : Lined l (expect t e) (· = l) :=
  .bind currentLine_lined fun _ hl => .bind (take?_lined t) fun _ _ => .ite (.pure hl) .unexpected

theorem expectName_lined (e : Expected) : Lined l (expectName e) fun x => x.2 = l := by
  refine .bind currentLine_lined fun line hl => .bind peek_lined fun t _ => ?_
  split
  · exact .bind advance_lined fun _ _ => .pure hl
  · exact .unexpected

theorem expectText_lined (e : Expected) : Lined l (expectText e) fun _ => True := by
  refine .bind peek_lined fun t _ => ?_
  split
  · exact .bind advance_lined fun _ _ => .pure trivial
  · exact .unexpected

theorem nameParts_lined (n : Nat) : Lined l (nameParts n) fun _ => True := by
  induction n with
  | zero => exact .pure trivial
  | succ n ih =>
    refine .bind peek_lined fun t _ => .bind peekSecond_lined fun t' _ => ?_
    split
    · exact .bind advance_lined fun _ _ => .bind advance_lined fun _ _ =>
        .bind ih fun _ _ => .pure trivial
    · exact .pure trivial

theorem qname_lined : Lined l qname fun n => n.unnumbered = n.onLine l := by
  refine .bind (expectName_lined _) fun x hx => .bind remaining_lined fun n _ =>
    .bind (nameParts_lined n) fun parts _ => .bind freshId_lined fun id _ => .pure ?_
  rw [QName.unnumbered, QName.onLine, hx]

theorem literal?_lined : Lined l literal? fun o => ∀ x, o = some x → x.2 = l := by
  have hsome : ∀ {line} {value : Literal}, line = l → ∀ x, some (value, line) = some x → x.2 = l := by
    intro line value hl x hx
    cases hx
    exact hl
  refine .bind currentLine_lined fun line hl => .bind peek_lined fun t _ => ?_
  split
  · exact .bind advance_lined fun _ _ => .pure (hsome hl)
  · exact .bind advance_lined fun _ _ => .pure (hsome hl)
  · exact .bind advance_lined fun _ _ => .pure (hsome hl)
  · exact .bind advance_lined fun _ _ => .pure (hsome hl)
  · exact .pure nofun

mutual

theorem patternRule_lined (n : Nat) :
    Lined l (patternRule n) fun p => p.unnumbered = p.onLine l := by
  match n with
  | 0 => exact .unexpected
  | n + 1 =>
    rw [patternRule]
    refine .bind currentLine_lined fun line hl => .bind peek_lined fun t _ => ?_
    split
    · exact .bind advance_lined fun _ _ => .pure rfl
    · exact .bind advance_lined fun _ _ => .bind freshId_lined fun id _ =>
        .pure (by simp only [Pattern.unnumbered, Pattern.onLine, hl])
    · exact .bind advance_lined fun _ _ => .bind (patternsUntil_lined n _ _) fun ps hps =>
        .pure (by simp only [Pattern.unnumbered, Pattern.onLine, hps])
    · exact .bind advance_lined fun _ _ => .bind qname_lined fun name hn =>
        .bind (patternsUntil_lined n _ _) fun ps hps =>
        .pure (by simp only [Pattern.unnumbered, Pattern.onLine, hn, hps])
    · refine .bind literal?_lined fun value hv => ?_
      split
      · exact .pure (congrArg (Pattern.literal _) (hv _ rfl))
      · exact .unexpected

theorem patternsUntil_lined (n : Nat) (close : Token) (e : Expected) :
    Lined l (patternsUntil n close e) fun ps => unnumberedPatterns ps = patternsOnLine l ps := by
  match n with
  | 0 => exact .unexpected
  | n + 1 =>
    rw [patternsUntil]
    refine .bind (take?_lined close) fun _ _ => .ite (.pure rfl) ?_
    refine .bind atEnd_lined fun _ _ => .ite .unexpected ?_
    refine .bind (patternRule_lined n) fun p hp => .bind (patternsUntil_lined n close e) fun ps hps => ?_
    exact .pure (by simp only [unnumberedPatterns, patternsOnLine, hp, hps])

end

mutual

theorem blockRule_lined (n : Nat) :
    Lined l (blockRule n) fun b => b.unnumbered = b.onLine l := by
  match n with
  | 0 => exact .unexpected
  | n + 1 =>
    rw [blockRule]
    refine .bind (nextIs_lined _) fun _ _ => .ite ?_ ?_
    · refine .bind (bindingRule_lined n) fun x hx => .bind (blockRule_lined n) fun rest hr => .pure ?_
      simp only [Block.unnumbered, Block.onLine, hx.1, hx.2, hr]
    · refine .bind (expressionRule_lined n) fun e he => .pure ?_
      simp only [Block.unnumbered, Block.onLine, he]

theorem bindingRule_lined (n : Nat) :
    Lined l (bindingRule n) fun x =>
      x.1.unnumbered = x.1.onLine l ∧ x.2.unnumbered = x.2.onLine l := by
  match n with
  | 0 => exact .unexpected
  | n + 1 =>
    rw [bindingRule]
    exact .bind (expect_lined _ _) fun _ _ => .bind (patternRule_lined n) fun p hp =>
      .bind (expect_lined _ _) fun _ _ => .bind (blockRule_lined n) fun value hv => .pure ⟨hp, hv⟩

theorem expressionRule_lined (n : Nat) :
    Lined l (expressionRule n) fun e => e.unnumbered = e.onLine l := by
  match n with
  | 0 => exact .unexpected
  | n + 1 =>
    rw [expressionRule]
    refine .bind peek_lined fun t _ => ?_
    split
    · exact .bind (callRule_lined n) fun c hc => .pure hc
    · exact functionRule_lined n
    · exact listRule_lined n
    · refine .bind qname_lined fun name hn => .pure ?_
      simp only [Expr.unnumbered, Expr.onLine, hn]
    · refine .bind literal?_lined fun value hv => ?_
      split
      · exact .pure (congrArg (Expr.literal _) (hv _ rfl))
      · exact .unexpected

theorem callRule_lined (n : Nat) :
    Lined l (callRule n) fun c => c.toExpr.unnumbered = c.toExpr.onLine l := by
  match n with
  | 0 => exact .unexpected
  | n + 1 =>
    rw [callRule]
    refine .bind (expect_lined _ _) fun line hl => .bind (calleeRule_lined n) fun callee hc =>
      .bind (argumentsRule_lined n) fun args ha => .bind (expect_lined _ _) fun _ _ => .pure ?_
    simp only [TrailingCall.toExpr, Expr.unnumbered, Expr.onLine, hl, hc, ha]

theorem calleeRule_lined (n : Nat) :
    Lined l (calleeRule n) fun e => e.unnumbered = e.onLine l := by
  match n with
  | 0 => exact .unexpected
  | n + 1 =>
    rw [calleeRule]
    refine .bind (nextIs_lined _) fun _ _ => .ite ?_ (expressionRule_lined n)
    refine .bind currentLine_lined fun line hl => .bind advance_lined fun _ _ => .pure ?_
    simp only [Expr.unnumbered, Expr.onLine, hl]

theorem argumentsRule_lined (n : Nat) :
    Lined l (argumentsRule n) fun es => unnumberedExprs es = exprsOnLine l es := by
  match n with
  | 0 => exact .unexpected
  | n + 1 =>
    rw [argumentsRule]
    refine .bind atExpression_lined fun _ _ => .ite ?_ (.pure rfl)
    refine .bind (expressionRule_lined n) fun e he => .bind (argumentsRule_lined n) fun es hes => ?_
    exact .pure (by simp only [unnumberedExprs, exprsOnLine, he, hes])

theorem functionRule_lined (n : Nat) :
    Lined l (functionRule n) fun e => e.unnumbered = e.onLine l := by
  match n with
  | 0 => exact .unexpected
  | n + 1 =>
    rw [functionRule]
    refine .bind (expect_lined _ _) fun line hl => .bind (patternsUntil_lined n _ _) fun params hp =>
      .bind (blockRule_lined n) fun body hb => .bind (expect_lined _ _) fun _ _ => .pure ?_
    simp only [Expr.unnumbered, Expr.onLine, hl, hp, hb]

theorem listRule_lined (n : Nat) :
    Lined l (listRule n) fun e => e.unnumbered = e.onLine l := by
  match n with
  | 0 => exact .unexpected
  | n + 1 =>
    rw [listRule]
    refine .bind (expect_lined _ _) fun line hl => .bind (elementsRule_lined n) fun elements he =>
      .bind (expect_lined _ _) fun _ _ => .pure ?_
    simp only [Expr.unnumbered, Expr.onLine, hl, he]

theorem elementsRule_lined (n : Nat) :
    Lined l (elementsRule n) fun bs => unnumberedBlocks bs = blocksOnLine l bs := by
  match n with
  | 0 => exact .unexpected
  | n + 1 =>
    rw [elementsRule]
    refine .bind (nextIs_lined _) fun _ _ => .bind atExpression_lined fun _ _ => .ite ?_ (.pure rfl)
    refine .bind (blockRule_lined n) fun b hb => .bind (elementsRule_lined n) fun bs hbs => .pure ?_
    simp only [unnumberedBlocks, blocksOnLine, hb, hbs]

end

theorem caseFields_lined (n : Nat) : Lined l (caseFields n) fun _ => True := by
  induction n with
  | zero => exact .pure trivial
  | succ n ih =>
    refine .bind peek_lined fun t _ => ?_
    split
    · exact .bind advance_lined fun _ _ => .bind ih fun _ _ => .pure trivial
    · exact .pure trivial

theorem caseRule_lined : Lined l caseRule fun _ => True :=
  .bind (expectName_lined _) fun _ _ => .bind remaining_lined fun n _ =>
    .bind (caseFields_lined n) fun _ _ => .pure trivial

theorem moreCases_lined (n : Nat) : Lined l (moreCases n) fun _ => True := by
  induction n with
  | zero => exact .pure trivial
  | succ n ih =>
    exact .bind (take?_lined _) fun _ _ => .ite
      (.bind caseRule_lined fun _ _ => .bind ih fun _ _ => .pure trivial) (.pure trivial)

mutual

theorem declarationsRule_lined (n : Nat) :
    Lined l (declarationsRule n) fun ds => unnumberedDecls ds = declsOnLine l ds := by
  match n with
  | 0 => exact .unexpected
  | n + 1 =>
    rw [declarationsRule]
    refine .bind atDeclaration_lined fun _ _ => .ite ?_ (.pure rfl)
    refine .bind (declarationRule_lined n) fun d hd => .bind (declarationsRule_lined n) fun ds hds => ?_
    exact .pure (by simp only [unnumberedDecls, declsOnLine, hd, hds])

theorem declarationRule_lined (n : Nat) :
    Lined l (declarationRule n) fun d => d.unnumbered = d.onLine l := by
  match n with
  | 0 => exact .unexpected
  | n + 1 =>
    rw [declarationRule]
    refine .bind (take?_lined _) fun isPublic _ => .bind peek_lined fun t _ => ?_
    split
    · refine .bind (namespaceRule_lined n isPublic) fun ns hns => .pure ?_
      simp only [Decl.unnumbered, Decl.onLine, hns]
    · exact typeRule_lined n isPublic
    · refine .bind (bindingRule_lined n) fun x hx => .pure ?_
      simp only [Decl.unnumbered, Decl.onLine, hx.1, hx.2]
    · exact .unexpected

theorem bodyRule_lined (n : Nat) :
    Lined l (bodyRule n) fun ds => unnumberedDecls ds = declsOnLine l ds := by
  match n with
  | 0 => exact .unexpected
  | n + 1 =>
    rw [bodyRule]
    exact .bind (expect_lined _ _) fun _ _ => .bind (declarationsRule_lined n) fun ds hds =>
      .bind (expect_lined _ _) fun _ _ => .pure hds

theorem namespaceRule_lined (n : Nat) (isPublic : Bool) :
    Lined l (namespaceRule n isPublic) fun ns => ns.unnumbered = ns.onLine l := by
  match n with
  | 0 => exact .unexpected
  | n + 1 =>
    rw [namespaceRule]
    refine .bind (expect_lined _ _) fun _ _ => .bind qname_lined fun name hn =>
      .bind (bodyRule_lined n) fun ds hds => .pure ?_
    simp only [NamespaceDecl.unnumbered, NamespaceDecl.onLine, hn, hds]

theorem typeRule_lined (n : Nat) (isPublic : Bool) :
    Lined l (typeRule n isPublic) fun d => d.unnumbered = d.onLine l := by
  match n with
  | 0 => exact .unexpected
  | n + 1 =>
    rw [typeRule]
    refine .bind (expect_lined _ _) fun _ _ => .bind qname_lined fun name hn =>
      .bind (expect_lined _ _) fun _ _ => .bind caseRule_lined fun first _ =>
      .bind remaining_lined fun k _ => .bind (moreCases_lined k) fun cases _ =>
      .bind (nextIs_lined _) fun _ _ => .ite ?_ ?_
    · refine .bind (bodyRule_lined n) fun ds hds => .pure ?_
      simp only [Decl.unnumbered, Decl.onLine, NamespaceDecl.unnumbered, NamespaceDecl.onLine, hn, hds]
    · exact .pure (by simp only [Decl.unnumbered, Decl.onLine, hn])

end

theorem importNames_lined (n : Nat) : Lined l (importNames n) fun _ => True := by
  induction n with
  | zero => exact .unexpected
  | succ n ih =>
    exact .bind qname_lined fun _ _ => .bind (take?_lined _) fun _ _ =>
      .ite (.pure trivial) (.bind ih fun _ _ => .pure trivial)

theorem importRule_lined : Lined l importRule fun _ => True := by
  refine .bind currentLine_lined fun _ _ => .bind advance_lined fun _ _ => ?_
  refine .bind peek_lined fun t _ => ?_
  split
  · exact .bind (P := fun _ => True) (.pure trivial) fun _ _ =>
      .bind (expectText_lined _) fun _ _ => .pure trivial
  · exact .bind remaining_lined fun n _ => .bind (importNames_lined (n + 1)) fun _ _ =>
      .bind (expectText_lined _) fun _ _ => .pure trivial

theorem importsRule_lined (n : Nat) : Lined l (importsRule n) fun _ => True := by
  induction n with
  | zero => exact .pure trivial
  | succ n ih =>
    exact .bind (nextIs_lined _) fun _ _ => .ite
      (.bind importRule_lined fun _ _ => .bind ih fun _ _ => .pure trivial) (.pure trivial)

theorem trailingRule_lined (n : Nat) : Lined l (trailingRule n) fun t =>
    ∀ c, t = some c → c.toExpr.unnumbered = c.toExpr.onLine l := by
  refine .bind (nextIs_lined _) fun _ _ => .ite ?_ (.pure nofun)
  refine .bind (callRule_lined n) fun c hc => .pure fun c' he => ?_
  cases he
  exact hc

theorem programRuleWithin_lined (n : Nat) : Lined l (programRuleWithin n) fun p =>
    unnumberedDecls p.root.decls = declsOnLine l p.root.decls ∧
      ∀ c, p.trailing = some c → c.toExpr.unnumbered = c.toExpr.onLine l := by
  refine .bind (importsRule_lined n) fun imports _ => .bind (declarationsRule_lined n) fun decls hd =>
    .bind freshId_lined fun id _ => .bind (trailingRule_lined n) fun trailing ht =>
    .bind atEnd_lined fun _ _ => .ite (.pure ⟨hd, ht⟩) .unexpected

end

theorem Program.onLine_of_ofLexemes {ls : List Lexeme} {p : Program} {l : Nat} (hne : ls ≠ [] ∨ l = 1)
    (hl : ∀ x ∈ ls, x.line = l) (h : Program.ofLexemes ls = .ok p) :
    unnumberedDecls p.root.decls = declsOnLine l p.root.decls ∧
      ∀ c, p.trailing = some c → c.toExpr.unnumbered = c.toExpr.onLine l := by
  obtain ⟨r, hr⟩ := ofLexemes_eq_ok.mp h
  rw [programRule_eq_within (Nat.le_refl _)] at hr
  have hstart : (Reading.start ls).OnLine l := by
    refine ⟨?_, hl⟩
    cases hg : ls.getLast? with
    | none =>
      have hnil := List.getLast?_eq_none_iff.mp hg
      simp [Reading.start, hg, hne.resolve_left (absurd hnil)]
    | some x =>
      have hx := hl x (List.mem_of_getLast? hg)
      simp [Reading.start, hg, hx]
  exact (programRuleWithin_lined _ _ _ _ hstart hr).2

end MatchLang
