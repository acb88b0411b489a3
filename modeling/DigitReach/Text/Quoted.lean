import DigitReach.Text.Hidden

/-!
# Quoted characters

A character is quoted between apostrophes. Apostrophes and backslashes are marked by a
backslash, the common control characters have names of one letter, and any other
character that does not show is given by its code point in hexadecimal.
-/

namespace DigitReach.Text

/-- The text of a character between apostrophes. -/
def shownChar (c : Char) : String :=
  if c.toNat = 0 then "\\0"
  else if c = '\t' then "\\t"
  else if c = '\n' then "\\n"
  else if c = '\r' then "\\r"
  else if c = '\\' then "\\\\"
  else if c = Char.ofNat 39 then "\\'"
  else if isHidden c then
    "\\u\x7b" ++ String.ofList (Nat.toDigits 16 c.toNat) ++ "\x7d"
  else c.toString

/-- A character in quotes. -/
def quotedChar (c : Char) : String := "'" ++ shownChar c ++ "'"

end DigitReach.Text
