import MatchLang.Grammar.Program

/-! Running readers. What a rule of the grammar does depends on the tokens that are left, so the small
readers are described by what they make of those, and every rule by the runs of its parts. -/

namespace MatchLang

namespace Reading

/-- The tokens that are left. -/
def tokens (r : Reading) : List Token :=
  r.rest.map (·.token)

/-- The reading after its next token. -/
def next (r : Reading) : Reading :=
  { r with rest := r.rest.drop 1 }

/-- The reading after a number has been drawn. -/
def drawn (r : Reading) : Reading :=
  { r with nextId := r.nextId + 1 }

variable {r : Reading} {t : Token} {ts : List Token}

@[simp] theorem next_tokens : r.next.tokens = r.tokens.tail := by
  simp [next, tokens]

@[simp] theorem drawn_tokens : r.drawn.tokens = r.tokens := rfl

theorem tokens_of_head (h : r.tokens.head? = some t) : r.tokens = t :: r.next.tokens := by
  obtain ⟨us, hus⟩ := List.head?_eq_some_iff.mp h
  rw [next_tokens, hus]
  rfl

end Reading

/-- The tokens that carry nothing, on which `==` is equality. -/
def Token.isSign : Token → Bool
  | .number _ | .text _ | .name _ => false
  | _ => true

theorem Token.eq_of_beq {t u : Token} (hu : u.isSign = true) (h : (t == u) = true) : t = u := by
  cases u <;> first
    | exact absurd hu Bool.false_ne_true
    | cases t <;> first | rfl | exact absurd h Bool.false_ne_true

theorem Token.beq_self {t : Token} (ht : t.isSign = true) : (t == t) = true := by
  cases t <;> first | rfl | exact absurd ht Bool.false_ne_true

/-- The next token is `t`. -/
def Reading.nextIs (r : Reading) (t : Token) : Bool :=
  r.tokens.head? == some t

theorem Reading.nextIs_iff {r : Reading} {t : Token} (ht : t.isSign = true) :
    r.nextIs t = true ↔ r.tokens.head? = some t := by
  unfold Reading.nextIs
  cases r.tokens.head? with
  | none => exact iff_of_false Bool.false_ne_true (fun h => by cases h)
  | some u =>
    constructor
    · intro h
      rw [Token.eq_of_beq ht h]
    · intro h
      cases h
      exact Token.beq_self ht

theorem Reading.tokens_of_nextIs {r : Reading} {t : Token} (ht : t.isSign = true)
    (h : r.nextIs t = true) : r.tokens = t :: r.next.tokens :=
  tokens_of_head ((nextIs_iff ht).mp h)

section

variable {α β : Type} {r r' : Reading} {m m' : Reader α} {k k' : α → Reader β} {b : β}

/-- A reader and what follows it succeed one after the other. -/
theorem Reader.exists_of_bind (h : (m >>= k).run r = .ok (b, r')) :
    ∃ a r₁, m.run r = .ok (a, r₁) ∧ (k a).run r₁ = .ok (b, r') := by
  rw [StateT.run_bind] at h
  cases hm : m.run r with
  | error e =>
    rw [hm] at h
    cases h
  | ok x =>
    rw [hm] at h
    exact ⟨x.1, x.2, rfl, h⟩

theorem Reader.bind_of_ok {a : α} {r₁ : Reading} (h : m.run r = .ok (a, r₁)) :
    (m >>= k).run r = (k a).run r₁ := by
  rw [StateT.run_bind, h]
  rfl

/-- Two readers that start alike and go on alike are alike. -/
theorem Reader.bind_congr (hm : m.run r = m'.run r)
    (hk : ∀ a r₁, m'.run r = .ok (a, r₁) → (k a).run r₁ = (k' a).run r₁) :
    (m >>= k).run r = (m' >>= k').run r := by
  rw [StateT.run_bind, StateT.run_bind, hm]
  cases hm' : m'.run r with
  | error e => rfl
  | ok x => exact hk x.1 x.2 hm'

theorem unexpected_ne_ok {e : Expected} {a : α} : (unexpected e : Reader α).run r ≠ .ok (a, r') := by
  intro h
  cases h

theorem peek_bind {k : Option Token → Reader β} :
    (peek >>= k).run r = (k r.tokens.head?).run r := by
  rw [Reading.tokens, List.head?_map]
  rfl

theorem peekSecond_bind {k : Option Token → Reader β} :
    (peekSecond >>= k).run r = (k r.tokens.tail.head?).run r := by
  rw [← Reading.next_tokens, Reading.tokens, List.head?_map]
  rfl

theorem currentLine_bind {k : Nat → Reader β} :
    (currentLine >>= k).run r = (k r.line).run r := rfl

theorem advance_bind {k : Unit → Reader β} : (advance >>= k).run r = (k ()).run r.next := rfl

theorem freshId_bind {k : Nat → Reader β} : (freshId >>= k).run r = (k r.nextId).run r.drawn := rfl

theorem remaining_bind {k : Nat → Reader β} :
    (remaining >>= k).run r = (k r.tokens.length).run r := by
  rw [Reading.tokens, List.length_map]
  rfl

theorem atEnd_bind {k : Bool → Reader β} :
    (atEnd >>= k).run r = (k r.tokens.isEmpty).run r := by
  rw [Reading.tokens, List.isEmpty_map]
  rfl

theorem nextIs_bind {t : Token} {k : Bool → Reader β} :
    (nextIs t >>= k).run r = (k (r.nextIs t)).run r := by
  rw [Reading.nextIs, Reading.tokens, List.head?_map]
  rfl

theorem atExpression_bind {k : Bool → Reader β} :
    (atExpression >>= k).run r = (k (r.tokens.head?.any startsExpression)).run r := by
  rw [Reading.tokens, List.head?_map]
  rfl

theorem atDeclaration_bind {k : Bool → Reader β} :
    (atDeclaration >>= k).run r = (k (r.tokens.head?.any startsDeclaration)).run r := by
  rw [Reading.tokens, List.head?_map]
  rfl

theorem take?_run {t : Token} :
    (take? t).run r = if r.nextIs t then .ok (true, r.next) else .ok (false, r) := by
  rw [take?, nextIs_bind]
  split <;> rfl

theorem take?_bind {t : Token} {k : Bool → Reader β} :
    (take? t >>= k).run r = if r.nextIs t then (k true).run r.next else (k false).run r := by
  rw [StateT.run_bind, take?_run]
  split <;> rfl

theorem expect_bind {t : Token} {e : Expected} {k : Nat → Reader β} :
    (expect t e >>= k).run r =
      if r.nextIs t then (k r.line).run r.next else (unexpected e).run r := by
  rw [StateT.run_bind, expect, currentLine_bind, take?_bind]
  split <;> rfl

end

/-- A call at the end, if one is next. -/
def trailingRule (n : Nat) : Reader (Option TrailingCall) := do
  if ← nextIs .openParen then
    let c ← callRule n
    return some c
  else return none

/-- A program, with one bound for all the nesting in it. -/
def programRuleWithin (n : Nat) : Reader Program := do
  let imports ← importsRule n
  let decls ← declarationsRule n
  let root := NamespaceDecl.mk { id := ← freshId, parts := [], line := 1 } true decls
  let trailing ← trailingRule n
  if ← atEnd then return { imports, root, trailing } else unexpected .declarationOrCall

end MatchLang
