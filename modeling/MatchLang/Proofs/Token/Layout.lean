import MatchLang.Proofs.Token.Spelling

/-! What stands between the tokens of a text. The scanner cuts a text into the characters of its
tokens and the gaps around them, and the gaps count for nothing but the lines: any layout in their
place, also where two tokens touch, leaves the tokens as they are. -/

namespace MatchLang

/-- Layout that is not empty: blanks, line ends and comments that have their line end. -/
inductive Layout : List Char → Prop where
  | blank {c : Char} (h : isLayout c = true ∨ c = '\n') : Layout [c]
  | comment {text : List Char} (h : '\n' ∉ text) : Layout ('#' :: text ++ ['\n'])
  | append {s t : List Char} (hs : Layout s) (ht : Layout t) : Layout (s ++ t)

/-- A token in a text: the gap before it and the characters it is read from. -/
structure Spelt where
  gap : List Char
  spelling : List Char
  token : Token

/-- The text of some pieces, and what stands after the last of them. -/
def textOf (pieces : List Spelt) (after : List Char) : List Char :=
  pieces.flatMap (fun p => p.gap ++ p.spelling) ++ after

/-- The tokens of some pieces. The line of each is one more than the line ends before its first
character. -/
def lexemesOf (pieces : List Spelt) : List Lexeme :=
  pieces.mapIdx fun i p => ⟨p.token, 1 + (textOf (pieces.take i) p.gap).count '\n'⟩

/-- The pieces with other gaps, given by the number of the piece. -/
def refill (gaps : Nat → List Char) (pieces : List Spelt) : List Spelt :=
  pieces.mapIdx fun i p => { p with gap := gaps i }

/-- How the scanner cuts a text: it skips a gap and reads a token, as long as there is one. What is left
is skipped as a whole. -/
inductive Cut : List Char → List Spelt → List Char → Prop where
  | last {s : List Char} (h : (skipLayout false s 1).1 = []) : Cut s [] s
  | piece {s gap after spelling rest last : List Char} {c : Char} {t : Token} {pieces : List Spelt}
      (skips : (skipLayout false s 1).1 = c :: after) (before : s = gap ++ c :: after)
      (reads : readToken? c after = some (t, rest)) (spells : c :: after = spelling ++ rest)
      (goes : Cut rest pieces last) : Cut s (⟨gap, spelling, t⟩ :: pieces) last

section

variable {s t gap after last : List Char} {c : Char} {b : Bool} {line n : Nat} {pieces : List Spelt}

theorem Cut.text (h : Cut s pieces last) : textOf pieces last = s := by
  induction h with
  | last => rfl
  | piece _ before _ spells _ ih =>
    rw [before, spells, ← ih]
    simp [textOf]

/-- There is one way to cut a text. -/
theorem Cut.unique {pieces' : List Spelt} {last' : List Char} (h : Cut s pieces last)
    (h' : Cut s pieces' last') : pieces = pieces' ∧ last = last' := by
  induction h generalizing pieces' with
  | last hs =>
    cases h' with
    | last => exact ⟨rfl, rfl⟩
    | piece skips => rw [hs] at skips; cases skips
  | piece skips before reads spells _ ih =>
    cases h' with
    | last hs => rw [hs] at skips; cases skips
    | piece skips' before' reads' spells' goes' =>
      rw [skips] at skips'
      obtain ⟨rfl, rfl⟩ := List.cons.inj skips'
      rw [reads] at reads'
      obtain ⟨rfl, rfl⟩ := Prod.mk.inj (Option.some.inj reads')
      obtain ⟨rfl, rfl⟩ := ih goes'
      rw [before] at before'
      rw [spells] at spells'
      exact ⟨by rw [List.append_cancel_right before', List.append_cancel_right spells'], rfl⟩

theorem skipLayout_stop (hc : isSeparator c = false) : skipLayout false (c :: s) line = (c :: s, line) := by
  simp only [isSeparator, Bool.or_eq_false_iff, decide_eq_false_iff_not] at hc
  obtain ⟨⟨hl, hn⟩, hh⟩ := hc
  simp [skipLayout, hn, hh, hl]

/-- A character other than a line end is skipped, or the layout ends before it. -/
theorem skipLayout_char (b : Bool) (hc : c ≠ '\n') :
    (∃ b', ∀ s line, skipLayout b (c :: s) line = skipLayout b' s line) ∨ b = false ∧ isSeparator c = false := by
  cases b with
  | true => exact .inl ⟨true, fun s line => by simp [skipLayout, hc]⟩
  | false =>
    by_cases hh : c = '#'
    · exact .inl ⟨true, fun s line => by simp [skipLayout, hh]⟩
    · by_cases hl : isLayout c = true
      · exact .inl ⟨false, fun s line => by simp [skipLayout, hc, hh, hl]⟩
      · exact .inr ⟨rfl, by simp [isSeparator, hc, hh, hl]⟩

/-- What is skipped is a gap, and its line ends are counted. -/
theorem skipLayout_gap (b : Bool) (s : List Char) (line : Nat) :
    ∃ gap, s = gap ++ (skipLayout b s 1).1 ∧
      skipLayout b s line = ((skipLayout b s 1).1, line + gap.count '\n') := by
  induction s generalizing b line with
  | nil => exact ⟨[], rfl, rfl⟩
  | cons c s ih =>
    by_cases hc : c = '\n'
    · subst hc
      obtain ⟨gap, hs, hl⟩ := ih false (line + 1)
      have hskip : ∀ line, skipLayout b ('\n' :: s) line = skipLayout false s (line + 1) :=
        fun line => by simp [skipLayout]
      have htext : (skipLayout false s 2).1 = (skipLayout false s 1).1 := by
        obtain ⟨_, -, h₂⟩ := ih false 2
        rw [h₂]
      refine ⟨'\n' :: gap, ?_, ?_⟩
      · rw [hskip, htext, List.cons_append, ← hs]
      · rw [hskip, hskip, htext, hl, List.count_cons_self]
        congr 1
        omega
    · rcases skipLayout_char b hc with ⟨b', hskip⟩ | ⟨rfl, hstop⟩
      · obtain ⟨gap, hs, hl⟩ := ih b' line
        refine ⟨c :: gap, ?_, ?_⟩
        · rw [hskip, List.cons_append, ← hs]
        · rw [hskip, hskip, hl, List.count_cons_of_ne hc]
      · exact ⟨[], by rw [skipLayout_stop hstop]; rfl, by rw [skipLayout_stop hstop, skipLayout_stop hstop]; rfl⟩

/-- The layout ends before a character that is none. -/
theorem skipLayout_head (h : skipLayout b s line = (c :: after, n)) : isSeparator c = false := by
  induction s generalizing b line with
  | nil => cases h
  | cons d s ih =>
    by_cases hd : d = '\n'
    · subst hd
      have h' : skipLayout false s (line + 1) = (c :: after, n) := by simpa [skipLayout] using h
      exact ih h'
    · rcases skipLayout_char b hd with ⟨b', hskip⟩ | ⟨rfl, hstop⟩
      · exact ih ((hskip s line).symm.trans h)
      · rw [skipLayout_stop hstop] at h
        cases h
        exact hstop

theorem Layout.ne_nil (h : Layout s) : s ≠ [] := by
  induction h with
  | blank | comment => exact List.cons_ne_nil _ _
  | append _ _ ihs => simp [ihs]

theorem Layout.separates (h : Layout s) : Separates s := by
  induction h with
  | blank hc =>
    refine separates_cons _ ?_
    rcases hc with hc | rfl
    · simp [isSeparator, hc]
    · rfl
  | comment => exact separates_cons _ rfl
  | append hs _ ihs => exact ihs.append hs.ne_nil _

theorem skipLayout_comment (hs : '\n' ∉ s) :
    skipLayout true (s ++ '\n' :: t) line = skipLayout false t (line + 1) := by
  induction s with
  | nil => simp [skipLayout]
  | cons c s ih =>
    obtain ⟨hc, hs⟩ : '\n' ≠ c ∧ '\n' ∉ s := by simpa using hs
    rw [List.cons_append]
    simp only [skipLayout, Ne.symm hc, if_true, if_false]
    exact ih hs

theorem Layout.skip (h : Layout s) (t : List Char) (line : Nat) :
    skipLayout false (s ++ t) line = skipLayout false t (line + s.count '\n') := by
  induction h generalizing t line with
  | @blank c hc =>
    rcases hc with hc | rfl
    · have hn : c ≠ '\n' := by rintro rfl; exact absurd hc (by decide)
      have hh : c ≠ '#' := by rintro rfl; exact absurd hc (by decide)
      simp [skipLayout, hn, hh, hc]
    · simp [skipLayout]
  | @comment text ht =>
    have hskip : skipLayout false ('#' :: text ++ ['\n'] ++ t) line
        = skipLayout true (text ++ '\n' :: t) line := by
      simp [skipLayout]
    have hcount : ('#' :: text ++ ['\n']).count '\n' = 1 := by
      simp [List.count_append, List.count_eq_zero.mpr ht]
    rw [hskip, skipLayout_comment ht, hcount]
  | append _ _ ihs iht =>
    rw [List.append_assoc, ihs, iht, List.count_append, Nat.add_assoc]

/-- The tokens of some pieces that begin on a line. -/
def lexemesFrom (line : Nat) : List Spelt → List Lexeme
  | [] => []
  | p :: pieces => ⟨p.token, line + p.gap.count '\n'⟩ ::
      lexemesFrom (line + (p.gap ++ p.spelling).count '\n') pieces

theorem lexemesFrom_eq (pieces : List Spelt) (line : Nat) :
    lexemesFrom line pieces = pieces.mapIdx fun i p =>
      ⟨p.token, line + (textOf (pieces.take i) p.gap).count '\n'⟩ := by
  induction pieces generalizing line with
  | nil => rfl
  | cons p pieces ih =>
    rw [lexemesFrom, ih, List.mapIdx_cons]
    simp [textOf, List.count_append, Nat.add_assoc]

theorem lexemesOf_eq (pieces : List Spelt) : lexemesOf pieces = lexemesFrom 1 pieces :=
  (lexemesFrom_eq pieces 1).symm

/-- A token has its first character where a gap ends, and no line end in it. -/
theorem readToken?_line {rest spelling : List Char} {x : Token} (hc : isSeparator c = false)
    (h : readToken? c after = some (x, rest)) (hs : c :: after = spelling ++ rest) :
    '\n' ∉ spelling := by
  obtain ⟨tail, ht, hn, -⟩ := readToken?_spelling h
  rw [ht, ← List.cons_append] at hs
  rw [← List.append_cancel_right hs]
  intro hm
  rcases List.mem_cons.mp hm with rfl | hm
  · exact absurd hc (by decide)
  · exact hn hm

theorem Cut.scanFrom (h : Cut s pieces last) (hn : s.length < n) (line : Nat) :
    scanFrom n s line = .ok (lexemesFrom line pieces) := by
  induction h generalizing n line with
  | @last s hs =>
    obtain ⟨n, rfl⟩ : ∃ m, n = m + 1 := ⟨n - 1, by omega⟩
    obtain ⟨_, -, hl⟩ := skipLayout_gap false s line
    rw [MatchLang.scanFrom, hl, hs]
    rfl
  | @piece s gap after spelling rest last c t pieces skips before reads spells _ ih =>
    obtain ⟨n, rfl⟩ : ∃ m, n = m + 1 := ⟨n - 1, by omega⟩
    obtain ⟨gap', hs, hl⟩ := skipLayout_gap false s line
    rw [skips] at hs hl
    obtain rfl : gap' = gap := List.append_cancel_right (hs.symm.trans before)
    have hline := readToken?_line (skipLayout_head hl) reads spells
    have hle := (readToken?_suffix reads).length_le
    rw [before, List.length_append, List.length_cons] at hn
    rw [MatchLang.scanFrom, hl]
    simp only [reads]
    rw [ih (by omega), lexemesFrom, List.count_append, List.count_eq_zero.mpr hline]
    rfl

theorem cut_of_scanFrom {lexemes : List Lexeme} (hn : s.length < n)
    (h : MatchLang.scanFrom n s line = .ok lexemes) : ∃ pieces last, Cut s pieces last := by
  induction n generalizing s line lexemes with
  | zero => omega
  | succ n ih =>
    obtain ⟨gap, hs, hl⟩ := skipLayout_gap false s line
    cases hskip : (skipLayout false s 1).1 with
    | nil => exact ⟨[], s, .last hskip⟩
    | cons c after =>
      rw [hskip] at hs hl
      rw [MatchLang.scanFrom, hl] at h
      cases hr : readToken? c after with
      | none => simp [hr] at h
      | some x =>
        obtain ⟨t, rest⟩ := x
        obtain ⟨tail, rfl, -⟩ := readToken?_spelling hr
        simp only [hr] at h
        cases hrest : MatchLang.scanFrom n rest (line + gap.count '\n') with
        | error e => simp [hrest, Except.map] at h
        | ok ls =>
          have hlen : rest.length < n := by
            rw [hs] at hn
            simp only [List.length_append, List.length_cons] at hn
            omega
          obtain ⟨pieces, last, hcut⟩ := ih hlen hrest
          exact ⟨_, last, .piece hskip hs hr (List.cons_append ..).symm hcut⟩

theorem refill_cons (gaps : Nat → List Char) (p : Spelt) (pieces : List Spelt) :
    refill gaps (p :: pieces) = { p with gap := gaps 0 } :: refill (fun i => gaps (i + 1)) pieces := by
  simp [refill]

theorem textOf_cons (p : Spelt) (pieces : List Spelt) (after : List Char) :
    textOf (p :: pieces) after = p.gap ++ (p.spelling ++ textOf pieces after) := by
  simp [textOf]

theorem separates_refill {gaps : Nat → List Char} (hg : ∀ i, Layout (gaps i)) (pieces : List Spelt) :
    Separates (textOf (refill gaps pieces) (gaps pieces.length)) := by
  cases pieces with
  | nil => exact (hg 0).separates
  | cons p pieces =>
    rw [refill_cons, textOf_cons]
    exact (hg 0).separates.append (hg 0).ne_nil _

/-- The pieces with other gaps are how the scanner cuts the text they make. -/
theorem Cut.refill (h : Cut s pieces last) {gaps : Nat → List Char} (hg : ∀ i, Layout (gaps i)) :
    Cut (textOf (refill gaps pieces) (gaps pieces.length)) (MatchLang.refill gaps pieces)
      (gaps pieces.length) := by
  induction h generalizing gaps with
  | last =>
    refine .last ?_
    have hskip := (hg 0).skip [] 1
    rw [List.append_nil] at hskip
    exact congrArg Prod.fst hskip
  | @piece s gap after spelling rest last c t pieces skips _ reads spells _ ih =>
    have hih := ih fun i => hg (i + 1)
    have hsep := separates_refill (fun i => hg (i + 1)) pieces
    obtain ⟨tail, rfl, -, hreads⟩ := readToken?_spelling reads
    obtain rfl : c :: tail = spelling := List.append_cancel_right spells
    have hstop : isSeparator c = false := skipLayout_head (Prod.ext skips rfl)
    rw [refill_cons, List.length_cons, textOf_cons]
    refine .piece ?_ rfl (hreads _ hsep) rfl hih
    rw [(hg 0).skip, List.cons_append, skipLayout_stop hstop]
    rfl

end

theorem refill_tokens (gaps : Nat → List Char) (pieces : List Spelt) :
    (lexemesOf (refill gaps pieces)).map (·.token) = (lexemesOf pieces).map (·.token) := by
  apply List.ext_getElem <;> simp [lexemesOf, refill]

/-- Layout is free. A text with tokens is cut in one way, each token stands on the line on which its first
character does, and any layout in place of the gaps leaves the tokens as they are. -/
theorem layout_is_free {source : String} {lexemes : List Lexeme} (h : scan source = .ok lexemes) :
    ∃ pieces last,
      (∀ ps l, Cut source.toList ps l ↔ ps = pieces ∧ l = last) ∧
      textOf pieces last = source.toList ∧ lexemes = lexemesOf pieces ∧
      ∀ gaps : Nat → List Char, (∀ i, Layout (gaps i)) →
        ∃ lexemes', scan (String.ofList (textOf (refill gaps pieces) (gaps pieces.length))) = .ok lexemes' ∧
          lexemes' = lexemesOf (refill gaps pieces) ∧
          lexemes'.map (·.token) = lexemes.map (·.token) := by
  unfold scan at h
  obtain ⟨pieces, last, hcut⟩ := cut_of_scanFrom (Nat.lt_succ_self _) h
  have hlexemes : lexemes = lexemesOf pieces := by
    rw [hcut.scanFrom (Nat.lt_succ_self _)] at h
    rw [lexemesOf_eq]
    exact (Except.ok.inj h).symm
  refine ⟨pieces, last, fun ps l => ⟨fun hc => hc.unique hcut, ?_⟩, hcut.text, hlexemes,
    fun gaps hg => ⟨_, ?_, rfl, ?_⟩⟩
  · rintro ⟨rfl, rfl⟩
    exact hcut
  · unfold scan
    rw [String.toList_ofList, (hcut.refill hg).scanFrom (Nat.lt_succ_self _), lexemesOf_eq]
  · rw [hlexemes, refill_tokens]

/-- Tokens that touch can be written apart, with a comment between them. -/
theorem touching_tokens_are_parted :
    scan "f()x" = .ok [⟨.name "f", 1⟩, ⟨.unit, 1⟩, ⟨.name "x", 1⟩] ∧
      scan "\n#g\nf\n#g\n()\n#g\nx\n#g\n" = .ok [⟨.name "f", 3⟩, ⟨.unit, 5⟩, ⟨.name "x", 7⟩] := by
  have hscan : scan "f()x" = .ok [⟨.name "f", 1⟩, ⟨.unit, 1⟩, ⟨.name "x", 1⟩] := by rfl
  obtain ⟨pieces, last, hcut, -, -, hfree⟩ := layout_is_free hscan
  have hpieces : Cut "f()x".toList
      [⟨[], ['f'], .name "f"⟩, ⟨[], ['(', ')'], .unit⟩, ⟨[], ['x'], .name "x"⟩] [] :=
    .piece rfl rfl rfl rfl (.piece rfl rfl rfl rfl (.piece rfl rfl rfl rfl (.last rfl)))
  obtain ⟨rfl, rfl⟩ := (hcut _ _).mp hpieces
  have hgap : Layout ['\n', '#', 'g', '\n'] :=
    .append (.blank (.inr rfl)) (@Layout.comment ['g'] (by decide))
  obtain ⟨lexemes, hs, hl, -⟩ := hfree (fun _ => ['\n', '#', 'g', '\n']) fun _ => hgap
  refine ⟨hscan, ?_⟩
  rw [hl] at hs
  exact hs

end MatchLang
