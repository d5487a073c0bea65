import MatchLang.Proofs.Grammar.OneLine
import Mathlib.Data.List.Basic

/-! Texts put one behind the other. Behind a text without a line end or a comment, which ends with a
blank, the next one is cut into its own tokens, and the tokens all stand on one line. -/

namespace MatchLang

/-- Whether a comment begins somewhere in a text; the number bounds the tokens. -/
def commentsFrom : Nat → List Char → Bool
  | 0, _ => false
  | n + 1, s =>
    match s.dropWhile isLayout with
    | [] => false
    | c :: rest =>
      c = '#' || match readToken? c rest with
        | none => false
        | some (_, rest) => commentsFrom n rest

/-- A line of text with a comment in it. A number sign inside a string does not begin one. -/
def hasComment (line : String) : Bool :=
  commentsFrom (line.toList.length + 1) line.toList

section

variable {r s t : List Char} {c : Char} {line n m : Nat} {b : Bool}

/-- Layout alone is passed over. -/
theorem skipLayout_layout (hs : '\n' ∉ s) (hd : s.dropWhile isLayout = []) :
    skipLayout false (s ++ t) line = skipLayout false t line := by
  induction s with
  | nil => rfl
  | cons c s ih =>
    have hne : c ≠ '\n' := fun h => hs (h ▸ List.mem_cons_self)
    have hl : isLayout c = true := by
      by_contra hl
      simp [hl] at hd
    have hn : c ≠ '#' := by
      rintro rfl
      exact absurd hl (by decide)
    have hd' : s.dropWhile isLayout = [] := by simpa [hl] using hd
    rw [List.cons_append]
    simp only [skipLayout, hne, hn, hl, if_true, if_false, Bool.false_eq_true]
    exact ih (fun h => hs (List.mem_cons_of_mem c h)) hd'

/-- The layout before a token. -/
theorem skipLayout_token (hs : '\n' ∉ s) (hd : s.dropWhile isLayout = c :: r) (hc : c ≠ '#') :
    skipLayout false (s ++ t) line = (c :: (r ++ t), line) := by
  induction s with
  | nil => cases hd
  | cons d s ih =>
    have hne : d ≠ '\n' := fun h => hs (h ▸ List.mem_cons_self)
    have hs' : '\n' ∉ s := fun h => hs (List.mem_cons_of_mem d h)
    rw [List.cons_append]
    by_cases hl : isLayout d = true
    · have hn : d ≠ '#' := by
        rintro rfl
        exact absurd hl (by decide)
      have hd' : s.dropWhile isLayout = c :: r := by simpa [hl] using hd
      simp only [skipLayout, hne, hn, hl, if_true, if_false, Bool.false_eq_true]
      exact ih hs' hd'
    · have he : d = c ∧ s = r := by simpa [hl] using hd
      obtain ⟨rfl, rfl⟩ := he
      simp only [skipLayout, hne, hc, hl, if_false, Bool.false_eq_true]

theorem dropWhile_append_blank {p : Char → Bool} (hp : p ' ' = false) :
    (s ++ ' ' :: t).dropWhile p = s.dropWhile p ++ ' ' :: t := by
  induction s with
  | nil => simp [hp]
  | cons c s ih => by_cases hc : p c = true <;> simp [hc, ih]

theorem takeWhile_append_blank {p : Char → Bool} (hp : p ' ' = false) :
    (s ++ ' ' :: t).takeWhile p = s.takeWhile p := by
  induction s with
  | nil => simp [hp]
  | cons c s ih => by_cases hc : p c = true <;> simp [hc, ih]

/-- A string that is closed is closed whatever follows. -/
theorem textToken?_append {quote : Char} {x : Token} {rest : List Char}
    (h : textToken? quote s = some (x, rest)) : textToken? quote (s ++ t) = some (x, rest ++ t) := by
  unfold textToken? at h ⊢
  have hd := @List.dropWhile_append _ (fun c => c != quote && !endsLine c) s t
  have ht := @List.takeWhile_append _ (fun c => c != quote && !endsLine c) s t
  cases hs : s.dropWhile fun c => c != quote && !endsLine c with
  | nil => simp [hs] at h
  | cons c r =>
    have hlen : (s.takeWhile fun c => c != quote && !endsLine c).length ≠ s.length := by
      have hsum := congrArg List.length
        (List.takeWhile_append_dropWhile (p := fun c => c != quote && !endsLine c) (l := s))
      rw [List.length_append, hs, List.length_cons] at hsum
      omega
    simp only [hs, List.isEmpty_cons, Bool.false_eq_true, if_false] at h hd ht
    rw [if_neg hlen] at ht
    simp only [hd, ht, List.cons_append]
    split at h
    · next hq =>
      cases h
      simp [hq]
    · cases h

theorem numberToken_whole {w : List Char} (hs : ∀ r, s ≠ '.' :: r) :
    numberToken w s = (.number (decimalFloat false (digitsValue w) 0), s) := by
  unfold numberToken
  split
  · exact absurd rfl (hs _)
  · rfl

theorem numberToken_append {w rest : List Char} {x : Token} (h : numberToken w s = (x, rest)) :
    numberToken w (s ++ ' ' :: t) = (x, rest ++ ' ' :: t) := by
  by_cases hs : ∃ r, s = '.' :: r
  · obtain ⟨r, rfl⟩ := hs
    have hb : Char.isDigit ' ' = false := by decide
    simp only [numberToken, List.cons_append, takeWhile_append_blank hb, dropWhile_append_blank hb,
      Prod.mk.injEq] at h ⊢
    exact ⟨h.1, by rw [h.2]⟩
  · have hs' : ∀ r, s ≠ '.' :: r := fun r hr => hs ⟨r, hr⟩
    have hne : ∀ r, s ++ ' ' :: t ≠ '.' :: r := by
      intro r hr
      cases s with
      | nil => cases hr
      | cons c s =>
        cases hr
        exact hs' s rfl
    rw [numberToken_whole hs', Prod.mk.injEq] at h
    rw [numberToken_whole hne, h.1, h.2]

theorem readToken?_openParen (hs : ∀ r, s ≠ ')' :: r) :
    readToken? '(' s = some (.openParen, s) := by
  unfold readToken?
  split
  case h_1 => exact absurd rfl (hs _)
  case h_2 => rfl
  case h_13 hne _ _ _ _ _ _ _ _ _ _ _ => exact absurd rfl hne
  all_goals exact absurd ‹ '(' = _ › (by decide)

theorem readToken?_openBracket (hs : ∀ r, s ≠ ']' :: r) :
    readToken? '[' s = some (.openBracket, s) := by
  unfold readToken?
  split
  case h_4 => exact absurd rfl (hs _)
  case h_5 => rfl
  case h_13 _ _ hne _ _ _ _ _ _ _ _ _ => exact absurd rfl hne
  all_goals exact absurd ‹ '[' = _ › (by decide)

/-- A name, a word or a number goes as far as its characters do. -/
theorem readToken?_word (hc : isNameChar c = true) :
    readToken? c s = some (
      if (c :: s.takeWhile isNameChar).all Char.isDigit then
        numberToken (c :: s.takeWhile isNameChar) (s.dropWhile isNameChar)
      else (wordToken (c :: s.takeWhile isNameChar), s.dropWhile isNameChar)) := by
  unfold readToken?
  split
  case h_13 =>
    dsimp only
    rw [if_pos hc]
    split <;> rfl
  all_goals exact absurd hc (by decide)

/-- The blank ends every token but a string, which has its own end. -/
theorem readToken?_append {x : Token} {rest : List Char} (h : readToken? c s = some (x, rest)) :
    readToken? c (s ++ ' ' :: t) = some (x, rest ++ ' ' :: t) := by
  have hne : ∀ d, d ≠ ' ' → (∀ r, s ≠ d :: r) → ∀ r, s ++ ' ' :: t ≠ d :: r := by
    intro d hd hs r hr
    cases s with
    | nil =>
      cases hr
      exact hd rfl
    | cons e s =>
      cases hr
      exact hs s rfl
  unfold readToken? at h
  split at h
  case h_2 hs =>
    cases h
    exact readToken?_openParen (hne ')' (by decide) hs)
  case h_5 hs =>
    cases h
    exact readToken?_openBracket (hne ']' (by decide) hs)
  case h_11 => exact textToken?_append h
  case h_12 => exact textToken?_append h
  case h_13 =>
    have hn : isNameChar ' ' = false := by decide
    dsimp only at h
    split at h
    · next hc =>
      rw [readToken?_word hc, takeWhile_append_blank hn, dropWhile_append_blank hn]
      split at h
      · next hw => rw [if_pos hw, numberToken_append (Option.some.inj h)]
      · next hw =>
        rw [if_neg hw]
        cases h
        rfl
    · cases h
  all_goals
    cases h
    rfl

theorem numberToken_suffix {w rest : List Char} {x : Token} (h : numberToken w s = (x, rest)) :
    rest <:+ s := by
  unfold numberToken at h
  split at h
  · cases h
    exact (List.dropWhile_suffix _).trans (List.suffix_cons _ _)
  · cases h
    exact List.suffix_refl _

theorem textToken?_suffix {quote : Char} {x : Token} {rest : List Char}
    (h : textToken? quote s = some (x, rest)) : rest <:+ s := by
  unfold textToken? at h
  dsimp only at h
  split at h
  · cases h
  · next d after hd =>
    split at h
    · cases h
      have hs : d :: rest <:+ s := hd ▸ List.dropWhile_suffix _
      exact (List.suffix_cons d rest).trans hs
    · cases h

theorem readToken?_suffix {x : Token} {rest : List Char} (h : readToken? c s = some (x, rest)) :
    rest <:+ s := by
  unfold readToken? at h
  split at h
  case h_1 | h_4 =>
    cases h
    exact List.suffix_cons _ _
  case h_11 | h_12 => exact textToken?_suffix h
  case h_13 =>
    dsimp only at h
    split at h
    · split at h
      · exact (numberToken_suffix (Option.some.inj h)).trans (List.dropWhile_suffix _)
      · cases h
        exact List.dropWhile_suffix _
    · cases h
  all_goals
    cases h
    exact List.suffix_refl _

theorem skipLayout_suffix : (skipLayout b s line).1 <:+ s := by
  induction s generalizing b line with
  | nil => exact List.suffix_refl _
  | cons c s ih =>
    unfold skipLayout
    split
    · exact ih.trans (List.suffix_cons c s)
    · split
      · exact ih.trans (List.suffix_cons c s)
      · split
        · exact ih.trans (List.suffix_cons c s)
        · split
          · exact ih.trans (List.suffix_cons c s)
          · exact List.suffix_refl _

theorem skipLayout_line (hs : '\n' ∉ s) : (skipLayout b s line).2 = line := by
  induction s generalizing b with
  | nil => rfl
  | cons c s ih =>
    have hs' : '\n' ∉ s := fun h => hs (List.mem_cons_of_mem c h)
    unfold skipLayout
    split
    · next hc => exact absurd (hc ▸ List.mem_cons_self) hs
    · split
      · exact ih hs'
      · split
        · exact ih hs'
        · split
          · exact ih hs'
          · rfl

theorem scanFrom_line {ls : List Lexeme} (hs : '\n' ∉ s) (h : scanFrom n s line = .ok ls) :
    ∀ x ∈ ls, x.line = line := by
  induction n generalizing s ls with
  | zero =>
    cases h
    exact nofun
  | succ n ih =>
    have hskip : (skipLayout false s line).2 = line := skipLayout_line hs
    have hsuffix : (skipLayout false s line).1 <:+ s := skipLayout_suffix
    unfold scanFrom at h
    split at h
    · cases h
      exact nofun
    · next c rest line' hl =>
      rw [hl] at hskip hsuffix
      have hline : line' = line := hskip
      subst hline
      split at h
      · cases h
      · next x after hr =>
        have hafter : '\n' ∉ after := fun hm =>
          hs (hsuffix.mem (List.mem_cons_of_mem c ((readToken?_suffix hr).mem hm)))
        cases hrec : scanFrom n after line' with
        | error e => simp [hrec, Except.map] at h
        | ok ls' =>
          simp only [hrec, Except.map, Except.ok.injEq] at h
          subst h
          intro y hy
          rcases List.mem_cons.mp hy with rfl | hy
          · rfl
          · exact ih hafter hrec y hy

/-- A bound above the length of the text does not count. -/
theorem scanFrom_enough (hn : s.length < n) (hm : s.length < m) :
    scanFrom n s line = scanFrom m s line := by
  induction n generalizing s line m with
  | zero => omega
  | succ n ih =>
    cases m with
    | zero => omega
    | succ m =>
      have hlen : (skipLayout false s line).1.length ≤ s.length := skipLayout_suffix.length_le
      simp only [scanFrom]
      cases hs : skipLayout false s line with
      | mk u line' =>
        rw [hs] at hlen
        cases u with
        | nil => rfl
        | cons c rest =>
          cases hr : readToken? c rest with
          | none => simp only [hr]
          | some x =>
            have hle := (readToken?_suffix hr).length_le
            simp only [List.length_cons] at hlen
            simp only [hr]
            rw [ih (by omega) (m := m) (by omega)]

/-- The tokens of a text without a comment and a line end, however many follow. -/
theorem scanFrom_append {ls us : List Lexeme} (hs : '\n' ∉ s) (hn : s.length < n)
    (hc : commentsFrom n s = false) (h : scanFrom n s line = .ok ls)
    (hm : (s ++ ' ' :: t).length < m) (ht : scanFrom m t line = .ok us) :
    scanFrom m (s ++ ' ' :: t) line = .ok (ls ++ us) := by
  induction n generalizing s ls m with
  | zero => omega
  | succ n ih =>
    cases m with
    | zero => omega
    | succ m =>
      have hlen := (List.dropWhile_suffix isLayout (l := s)).length_le
      rw [List.length_append, List.length_cons] at hm
      cases hd : s.dropWhile isLayout with
      | nil =>
        have hskip : skipLayout false (s ++ []) line = skipLayout false [] line :=
          skipLayout_layout hs hd
        rw [List.append_nil] at hskip
        simp only [scanFrom, hskip, skipLayout] at h
        cases h
        have hb : skipLayout false (' ' :: t) line = skipLayout false t line := rfl
        simp only [scanFrom, skipLayout_layout hs hd, hb]
        exact ht
      | cons c rest =>
        simp only [commentsFrom, hd, Bool.or_eq_false_iff, decide_eq_false_iff_not] at hc
        obtain ⟨hne, hc⟩ := hc
        have hskip : skipLayout false (s ++ []) line = (c :: (rest ++ []), line) :=
          skipLayout_token hs hd hne
        have hskip' : skipLayout false (s ++ ' ' :: t) line = (c :: (rest ++ ' ' :: t), line) :=
          skipLayout_token hs hd hne
        have hrest : '\n' ∉ rest := fun hm =>
          hs ((List.dropWhile_suffix isLayout).mem (hd ▸ List.mem_cons_of_mem c hm))
        rw [hd, List.length_cons] at hlen
        rw [List.append_nil, List.append_nil] at hskip
        simp only [scanFrom, hskip] at h
        cases hr : readToken? c rest with
        | none => simp [hr] at h
        | some x =>
          obtain ⟨x, after⟩ := x
          simp only [hr] at h hc
          have hsuffix := readToken?_suffix hr
          have hle := hsuffix.length_le
          have hs' : '\n' ∉ after := fun hm => hrest (hsuffix.mem hm)
          cases hafter : scanFrom n after line with
          | error e => simp [hafter, Except.map] at h
          | ok ls' =>
            simp only [hafter, Except.map, Except.ok.injEq] at h
            subst h
            have ht' : scanFrom m t line = .ok us := by
              rw [← scanFrom_enough (n := m + 1) (by omega) (by omega)]
              exact ht
            have hih := ih hs' (by omega) hc hafter (m := m)
              (by rw [List.length_append, List.length_cons]; omega) ht'
            simp only [scanFrom, hskip', readToken?_append hr, hih, Except.map, List.cons_append]

end

/-- Lines of text, put one behind the other with a blank between two. -/
def joinWithBlanks (lines : List String) : String :=
  " ".intercalate lines

theorem joinWithBlanks_cons (l l' : String) (lines : List String) :
    (joinWithBlanks (l :: l' :: lines)).toList =
      l.toList ++ ' ' :: (joinWithBlanks (l' :: lines)).toList := by
  simp [joinWithBlanks, String.toList_intercalate, List.intercalate]

/-- The tokens of lines put one behind the other are the tokens of the lines. -/
theorem scan_joinWithBlanks {lines : List String} {xs : List (List Lexeme)}
    (hs : ∀ l ∈ lines, '\n' ∉ l.toList) (hc : ∀ l ∈ lines, hasComment l = false)
    (h : List.Forall₂ (fun l x => scan l = .ok x) lines xs) :
    scan (joinWithBlanks lines) = .ok xs.flatten := by
  induction h with
  | nil => rfl
  | @cons l x lines xs hl h ih =>
    cases h with
    | nil => simpa [joinWithBlanks] using hl
    | @cons l' x' lines xs hl' h =>
      have hrest := ih (fun l hm => hs l (List.mem_cons_of_mem _ hm))
        (fun l hm => hc l (List.mem_cons_of_mem _ hm))
      unfold scan at hl hrest ⊢
      rw [joinWithBlanks_cons]
      rw [scanFrom_enough (m := (l.toList ++ ' ' :: (joinWithBlanks (l' :: lines)).toList).length + 1)
        (by omega) (by simp only [List.length_append, List.length_cons]; omega)] at hrest
      exact scanFrom_append (hs l List.mem_cons_self) (Nat.lt_succ_self _)
        (hc l List.mem_cons_self) hl (Nat.lt_succ_self _) hrest

/-- The call at the end of the last of some programs. -/
def lastCall (ps : List Program) : Option TrailingCall :=
  ps.getLast?.bind (·.trailing)

/-- The declarations of some programs, and the call at the end of the last. -/
def Program.join (ps : List Program) : Program where
  imports := []
  root := .mk { id := 0, parts := [], line := 1 } true (ps.flatMap fun p => p.root.decls)
  trailing := lastCall ps

/-- Some programs that can be put one behind the other: they import nothing, and no call stands between
them. -/
structure Joinable (ps : List Program) : Prop where
  imports : ∀ p ∈ ps, p.imports = []
  calls : ∀ p ∈ ps.dropLast, p.trailing = none

theorem Joinable.tail {p : Program} {ps : List Program} (h : Joinable (p :: ps)) : Joinable ps where
  imports q hq := h.imports q (List.mem_cons_of_mem p hq)
  calls q hq := by
    cases ps with
    | nil => cases hq
    | cons q' ps => exact h.calls q (List.mem_cons_of_mem p hq)

theorem declsTokens_append (ds es : List Decl) :
    declsTokens (ds ++ es) = declsTokens ds ++ declsTokens es := by
  induction ds with
  | nil => rfl
  | cons d ds ih => simp only [List.cons_append, declsTokens, ih, List.append_assoc]

theorem declsShaped_append {ds es : List Decl} :
    declsShaped (ds ++ es) ↔ declsShaped ds ∧ declsShaped es := by
  induction ds with
  | nil => simp [declsShaped]
  | cons d ds ih => simp only [List.cons_append, declsShaped, ih, and_assoc]

theorem Program.join_tokens {ps : List Program} (h : Joinable ps) :
    (join ps).tokens = (ps.map tokens).flatten := by
  induction ps with
  | nil => rfl
  | cons p ps ih =>
    have hi := h.imports p List.mem_cons_self
    cases ps with
    | nil => simp [join, tokens, lastCall, hi, NamespaceDecl.decls]
    | cons q ps =>
      have ht := h.calls p List.mem_cons_self
      have hl : lastCall (p :: q :: ps) = lastCall (q :: ps) := by simp [lastCall]
      rw [List.map_cons, List.flatten_cons, ← ih h.tail]
      simp only [join, tokens, NamespaceDecl.decls, List.flatMap_cons, declsTokens_append, hl, hi,
        ht, trailingTokens, importsTokens, List.nil_append, List.append_nil, List.append_assoc]

theorem Program.join_shaped {ps : List Program} (h : ∀ p ∈ ps, p.Shaped) : (join ps).Shaped where
  imports := nofun
  root_name := rfl
  root_public := rfl
  decls := by
    induction ps with
    | nil => trivial
    | cons p ps ih =>
      have hp := h p List.mem_cons_self
      have hps := ih fun q hq => h q (List.mem_cons_of_mem p hq)
      exact declsShaped_append.mpr ⟨hp.decls, hps⟩
  trailing c hc := by
    obtain ⟨p, hp, ht⟩ := Option.bind_eq_some_iff.mp hc
    exact (h p (List.mem_of_getLast? hp)).trailing c ht

theorem Program.read_eq_ok {source : String} {p : Program} :
    Program.read source = .ok p ↔ ∃ ls, scan source = .ok ls ∧ Program.ofLexemes ls = .ok p := by
  change (scan source >>= Program.ofLexemes) = .ok p ↔ _
  cases scan source with
  | error e => simp [bind, Except.bind]
  | ok ls => simp [bind, Except.bind]

/-- A text of one line without comments, and the program that it spells. -/
structure Program.Spells (p : Program) (line : String) : Prop where
  oneLine : '\n' ∉ line.toList
  noComment : hasComment line = false
  read : Program.read line = .ok p

theorem Program.Spells.onLine {line : String} {p : Program} (h : p.Spells line) :
    unnumberedDecls p.root.decls = declsOnLine 1 p.root.decls ∧
      ∀ c, p.trailing = some c → c.toExpr.unnumbered = c.toExpr.onLine 1 := by
  obtain ⟨ls, hs, hp⟩ := read_eq_ok.mp h.read
  exact onLine_of_ofLexemes (.inr rfl) (scanFrom_line h.oneLine hs) hp

theorem unnumberedDecls_append (ds es : List Decl) :
    unnumberedDecls (ds ++ es) = unnumberedDecls ds ++ unnumberedDecls es := by
  induction ds with
  | nil => rfl
  | cons d ds ih => simp only [List.cons_append, unnumberedDecls, ih]

theorem declsOnLine_append (l : Nat) (ds es : List Decl) :
    declsOnLine l (ds ++ es) = declsOnLine l ds ++ declsOnLine l es := by
  induction ds with
  | nil => rfl
  | cons d ds ih => simp only [List.cons_append, declsOnLine, ih]

theorem TrailingCall.toExpr_plain (c : TrailingCall) : c.plain.toExpr = c.toExpr.plain := by
  simp only [toExpr, plain, Expr.plain]

theorem NamespaceDecl.decls_plain (ns : NamespaceDecl) : ns.plain.decls = plainDecls ns.decls := by
  cases ns
  rfl

section

variable {ps : List Program} {lines : List String}

theorem declsOnLine_of_spells (h : List.Forall₂ Program.Spells ps lines) :
    unnumberedDecls (ps.flatMap fun p => p.root.decls) =
      declsOnLine 1 (ps.flatMap fun p => p.root.decls) := by
  induction h with
  | nil => rfl
  | cons hp _ ih =>
    rw [List.flatMap_cons, unnumberedDecls_append, declsOnLine_append, hp.onLine.1, ih]

theorem lastCall_of_spells (h : List.Forall₂ Program.Spells ps lines) :
    ∀ c, lastCall ps = some c → c.toExpr.unnumbered = c.toExpr.onLine 1 := by
  induction h with
  | nil => exact nofun
  | @cons p l ps lines hp h ih =>
    cases h with
    | nil => exact hp.onLine.2
    | @cons q _ ps _ _ _ =>
      have hl : lastCall (p :: q :: ps) = lastCall (q :: ps) := by simp [lastCall]
      rw [hl]
      exact ih

end

/-- Lines put one behind the other spell the declarations of all of them, and the call at the end of the
last, but for the numbers of names. -/
theorem Program.read_joinWithBlanks {ps : List Program} {lines : List String}
    (h : List.Forall₂ Spells ps lines) (hj : Joinable ps) :
    ∃ q, Program.read (joinWithBlanks lines) = .ok q ∧ q.imports = [] ∧
      unnumberedDecls q.root.decls = unnumberedDecls (ps.flatMap fun p => p.root.decls) ∧
      q.trailing.map (fun c => c.toExpr.unnumbered) =
        (lastCall ps).map fun c => c.toExpr.unnumbered := by
  have hxs : ∃ xs, scan (joinWithBlanks lines) = .ok (List.flatten xs) ∧
      ps.map Program.tokens = xs.map (·.map Lexeme.token) ∧ (∀ p ∈ ps, p.Shaped) ∧
      ∀ x ∈ xs, ∀ y ∈ x, y.line = 1 := by
    obtain ⟨xs, hscan, hlines, h⟩ : ∃ xs, List.Forall₂ (fun l x => scan l = .ok x) lines xs ∧
        (∀ l ∈ lines, '\n' ∉ l.toList ∧ hasComment l = false) ∧
        ps.map Program.tokens = xs.map (·.map Lexeme.token) ∧ (∀ p ∈ ps, p.Shaped) ∧
        ∀ x ∈ xs, ∀ y ∈ x, y.line = 1 := by
      clear hj
      induction h with
      | nil => exact ⟨[], .nil, nofun, rfl, nofun, nofun⟩
      | cons hp _ ih =>
        obtain ⟨xs, hscan, hlines, htokens, hshaped, hone⟩ := ih
        obtain ⟨x, hx, hread⟩ := read_eq_ok.mp hp.read
        obtain ⟨he, hs⟩ := faithful_of_ofLexemes hread
        exact ⟨x :: xs, .cons hx hscan,
          List.forall_mem_cons.mpr ⟨⟨hp.oneLine, hp.noComment⟩, hlines⟩,
          by rw [List.map_cons, List.map_cons, he, htokens],
          List.forall_mem_cons.mpr ⟨hs, hshaped⟩,
          List.forall_mem_cons.mpr ⟨scanFrom_line hp.oneLine hx, hone⟩⟩
    exact ⟨xs, scan_joinWithBlanks (fun l hl => (hlines l hl).1) (fun l hl => (hlines l hl).2) hscan, h⟩
  obtain ⟨xs, hscan, htokens, hshaped, hlines⟩ := hxs
  have hjoin : (join ps).tokens = xs.flatten.map Lexeme.token := by
    rw [join_tokens hj, htokens, List.map_flatten]
  obtain ⟨q, hq, hplain⟩ := ofLexemes_of_tokens (join_shaped hshaped) hjoin
  have hone : ∀ x ∈ xs.flatten, x.line = 1 := by
    intro x hx
    obtain ⟨l, hl, hx⟩ := List.mem_flatten.mp hx
    exact hlines l hl x hx
  obtain ⟨hdecls, hcall⟩ := onLine_of_ofLexemes (.inr rfl) hone hq
  refine ⟨q, read_eq_ok.mpr ⟨_, hscan, hq⟩, ?_, ?_, ?_⟩
  · have hi : q.imports.map Import.plain = [] := congrArg Program.imports hplain
    exact List.map_eq_nil_iff.mp hi
  · have hd := congrArg (fun p => p.root.decls) hplain
    simp only [plain, NamespaceDecl.decls_plain] at hd
    rw [hdecls, ← declsOnLine_plain, hd, declsOnLine_plain]
    exact (declsOnLine_of_spells h).symm
  · have hc : q.trailing.map TrailingCall.plain = (lastCall ps).map TrailingCall.plain :=
      congrArg Program.trailing hplain
    have hmap : ∀ o : Option TrailingCall,
        (∀ c, o = some c → c.toExpr.unnumbered = c.toExpr.onLine 1) →
        o.map (fun c => c.toExpr.unnumbered) =
          (o.map TrailingCall.plain).map fun c => c.toExpr.onLine 1 := by
      intro o ho
      cases o with
      | none => rfl
      | some c => simp only [Option.map_some, ho c rfl, TrailingCall.toExpr_plain, Expr.onLine_plain]
    rw [hmap _ hcall, hmap _ (lastCall_of_spells h), hc]

end MatchLang
