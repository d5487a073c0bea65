import MatchLang.Proofs.Grammar.Joining
import Mathlib.Data.List.TakeWhile

/-! The characters a token is read from. They decide it together with the next character alone: where
layout or the end of the text follows, the same token is read from the same characters. -/

namespace MatchLang

/-- Layout, a line end or the beginning of a comment. No token but a string goes on with it. -/
def isSeparator (c : Char) : Bool :=
  isLayout c || c = '\n' || c = '#'

theorem isSeparator_iff {c : Char} : isSeparator c = true ↔
    c = ' ' ∨ c = '\t' ∨ c = '\r' ∨ c = '\x0c' ∨ c = '\n' ∨ c = '#' := by
  simp [isSeparator, isLayout, or_assoc]

theorem isNameChar_of_isSeparator {c : Char} (h : isSeparator c = true) : isNameChar c = false := by
  rcases isSeparator_iff.mp h with rfl | rfl | rfl | rfl | rfl | rfl <;> decide

theorem isDigit_of_isSeparator {c : Char} (h : isSeparator c = true) : c.isDigit = false := by
  rcases isSeparator_iff.mp h with rfl | rfl | rfl | rfl | rfl | rfl <;> decide

/-- A text that no token before it goes on with. -/
def Separates (r : List Char) : Prop :=
  ∀ c t, r = c :: t → isSeparator c = true

theorem separates_cons {c : Char} (t : List Char) (hc : isSeparator c = true) : Separates (c :: t) := by
  rintro _ _ ⟨⟩
  exact hc

section

variable {c : Char} {s r rest : List Char} {x : Token}

theorem Separates.append (hs : s ≠ []) (h : Separates s) (t : List Char) : Separates (s ++ t) := by
  cases s with
  | nil => exact absurd rfl hs
  | cons c s => exact separates_cons _ (h c s rfl)

theorem Separates.ne_cons (h : Separates r) (hc : isSeparator c = false) (t : List Char) : r ≠ c :: t := by
  intro hr
  rw [h c t hr] at hc
  cases hc

theorem takeWhile_stop {p : Char → Bool} (hr : ∀ c t, r = c :: t → p c = false) :
    (s.takeWhile p ++ r).takeWhile p = s.takeWhile p := by
  have hnil : r.takeWhile p = [] := by
    cases r with
    | nil => rfl
    | cons c t => simp [hr c t rfl]
  rw [List.takeWhile_append_of_pos fun _ => List.mem_takeWhile_imp, hnil, List.append_nil]

theorem dropWhile_stop {p : Char → Bool} (hr : ∀ c t, r = c :: t → p c = false) :
    (s.takeWhile p ++ r).dropWhile p = r := by
  rw [List.dropWhile_append_of_pos fun _ => List.mem_takeWhile_imp]
  cases r with
  | nil => rfl
  | cons c t => simp [hr c t rfl]

/-- A string has its own end: nothing that follows counts. -/
theorem textToken?_spelling {quote : Char} (h : textToken? quote s = some (x, rest)) :
    ∃ spelling, s = spelling ++ rest ∧ (quote ≠ '\n' → '\n' ∉ spelling) ∧
      ∀ r, textToken? quote (spelling ++ r) = some (x, r) := by
  unfold textToken? at h
  dsimp only at h
  split at h
  · cases h
  · next c after hd =>
    split at h
    · next hc =>
      subst hc
      simp only [Option.some.injEq, Prod.mk.injEq] at h
      obtain ⟨rfl, rfl⟩ := h
      have hin : ∀ d ∈ s.takeWhile (fun d => d != c && !endsLine d), (d != c && !endsLine d) = true :=
        fun d hm => List.mem_takeWhile_imp (p := fun d => d != c && !endsLine d) hm
      refine ⟨s.takeWhile (fun d => d != c && !endsLine d) ++ [c], ?_, ?_, ?_⟩
      · rw [List.append_assoc, List.singleton_append, ← hd, List.takeWhile_append_dropWhile]
      · intro hq hm
        rcases List.mem_append.mp hm with hm | hm
        · exact absurd (hin _ hm) (by simp [endsLine])
        · exact hq (List.mem_singleton.mp hm).symm
      · intro r
        unfold textToken?
        dsimp only
        rw [List.append_assoc, List.singleton_append, List.dropWhile_append_of_pos hin,
          List.dropWhile_cons_of_neg (by simp), List.takeWhile_append_of_pos hin,
          List.takeWhile_cons_of_neg (by simp), List.append_nil]
        simp
    · cases h

theorem numberToken_spelling {w : List Char} (h : numberToken w s = (x, rest)) :
    ∃ spelling, s = spelling ++ rest ∧ '\n' ∉ spelling ∧
      ∀ r, Separates r → numberToken w (spelling ++ r) = (x, r) := by
  by_cases hs : ∃ s', s = '.' :: s'
  · obtain ⟨s', rfl⟩ := hs
    simp only [numberToken, Prod.mk.injEq] at h
    obtain ⟨rfl, rfl⟩ := h
    refine ⟨'.' :: s'.takeWhile Char.isDigit, ?_, ?_, ?_⟩
    · rw [List.cons_append, List.takeWhile_append_dropWhile]
    · intro hm
      rcases List.mem_cons.mp hm with hm | hm
      · cases hm
      · exact absurd (List.mem_takeWhile_imp hm) (by decide)
    · intro r hr
      have hstop : ∀ d t, r = d :: t → d.isDigit = false :=
        fun d t hd => isDigit_of_isSeparator (hr d t hd)
      simp only [numberToken, List.cons_append, takeWhile_stop hstop, dropWhile_stop hstop]
  · rw [numberToken_whole fun s' h' => hs ⟨s', h'⟩, Prod.mk.injEq] at h
    obtain ⟨rfl, rfl⟩ := h
    refine ⟨[], rfl, List.not_mem_nil, fun r hr => numberToken_whole ?_⟩
    exact hr.ne_cons (by decide)

/-- A name, a word or a number. After the digits of a number, a point and more of them may belong to it. -/
theorem readToken?_word_spelling (hc : isNameChar c = true) (h : readToken? c s = some (x, rest)) :
    ∃ spelling, s = spelling ++ rest ∧ '\n' ∉ spelling ∧
      ∀ r, Separates r → readToken? c (spelling ++ r) = some (x, r) := by
  have hword : '\n' ∉ s.takeWhile isNameChar := fun hm =>
    absurd (List.mem_takeWhile_imp hm) (by decide)
  rw [readToken?_word hc, Option.some.injEq] at h
  split at h
  · next hw =>
    obtain ⟨spelling, hs, hn, hr⟩ := numberToken_spelling h
    refine ⟨s.takeWhile isNameChar ++ spelling, ?_, ?_, fun r hsep => ?_⟩
    · rw [List.append_assoc, ← hs, List.takeWhile_append_dropWhile]
    · exact fun hm => (List.mem_append.mp hm).elim hword hn
    · have hstop : ∀ d t, spelling ++ r = d :: t → isNameChar d = false := by
        intro d t hd
        cases spelling with
        | nil => exact isNameChar_of_isSeparator (hsep d t hd)
        | cons e spelling =>
          obtain ⟨rfl, -⟩ := List.cons.inj hd
          simpa [hs] using List.head?_dropWhile_not isNameChar s
      rw [readToken?_word hc, List.append_assoc, takeWhile_stop hstop, dropWhile_stop hstop, if_pos hw, hr r hsep]
  · next hw =>
    obtain ⟨rfl, rfl⟩ := Prod.mk.inj h
    refine ⟨s.takeWhile isNameChar, List.takeWhile_append_dropWhile.symm, hword, fun r hsep => ?_⟩
    have hstop : ∀ d t, r = d :: t → isNameChar d = false :=
      fun d t hd => isNameChar_of_isSeparator (hsep d t hd)
    rw [readToken?_word hc, takeWhile_stop hstop, dropWhile_stop hstop, if_neg hw]

/-- What a token is read from: any text that does not go on with it may follow. -/
theorem readToken?_spelling (h : readToken? c s = some (x, rest)) :
    ∃ spelling, s = spelling ++ rest ∧ '\n' ∉ spelling ∧
      ∀ r, Separates r → readToken? c (spelling ++ r) = some (x, r) := by
  unfold readToken? at h
  split at h
  case h_1 => 
    cases h
    exact ⟨[')'], rfl, by decide, fun r _ => rfl⟩
  case h_4 => 
    cases h
    exact ⟨[']'], rfl, by decide, fun r _ => rfl⟩
  case h_2 => 
    cases h
    exact ⟨[], rfl, List.not_mem_nil, fun r hr => readToken?_openParen (hr.ne_cons (by decide))⟩
  case h_5 =>
    cases h
    exact ⟨[], rfl, List.not_mem_nil, fun r hr => readToken?_openBracket (hr.ne_cons (by decide))⟩
  case h_11 | h_12 => 
    obtain ⟨spelling, hs, hn, hr⟩ := textToken?_spelling h
    exact ⟨spelling, hs, hn (by decide), fun r _ => hr r⟩
  case h_13 =>
    dsimp only at h
    split at h
    · next hc => exact readToken?_word_spelling hc (by rw [readToken?_word hc, ← h]; split <;> rfl)
    · cases h
  all_goals
    cases h
    exact ⟨[], rfl, List.not_mem_nil, fun r _ => rfl⟩

end

end MatchLang
