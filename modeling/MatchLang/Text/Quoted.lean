import MatchLang.Text.Extending
import MatchLang.Text.Unprintable

/-! A text written between double quotes, so that every character in it can be seen. -/

namespace MatchLang

/-- A character by its number, `\x75\x7b41\x7d` for `A`. -/
def numberedEscape (c : Char) : List Char :=
  '\\' :: 'u' :: '\x7b' :: (Nat.toDigits 16 c.toNat ++ ['\x7d'])

/-- The written form of one character: the double quote, the backslash and four controls have short
escapes, and what does not stand alone on paper is written by its number. -/
def quotedChar (c : Char) : List Char :=
  if c = '"' then ['\\', '"']
  else if c = '\\' then ['\\', '\\']
  else if c = '\n' then ['\\', 'n']
  else if c = '\r' then ['\\', 'r']
  else if c = '\t' then ['\\', 't']
  else if c.toNat = 0 then ['\\', '0']
  else if 0x20 ≤ c.toNat && c.toNat < 0x7F then [c]
  else if isExtending c || isUnprintable c then numberedEscape c
  else [c]

def quoted (s : String) : String :=
  String.ofList ('"' :: (s.toList.flatMap quotedChar ++ ['"']))

theorem quotedChar_of_plain {c : Char} (h : 0x20 ≤ c.toNat ∧ c.toNat < 0x7F) (hq : c ≠ '"')
    (hb : c ≠ '\\') : quotedChar c = [c] := by
  have h0 : c.toNat ≠ 0 := by omega
  have hn : c ≠ '\n' := fun e => by subst e; exact absurd h.1 (by decide)
  have hr : c ≠ '\r' := fun e => by subst e; exact absurd h.1 (by decide)
  have ht : c ≠ '\t' := fun e => by subst e; exact absurd h.1 (by decide)
  simp [quotedChar, hq, hb, hn, hr, ht, h0, h.1, h.2]

end MatchLang
