import TemporalCheck.Text.Invisible
import TemporalCheck.Text.Combining

/-!
# Quoted text

A text between double quotes. The quote, the backslash and every character that
a reader could not tell from the text around it are written as escapes, all
others stand for themselves.
-/

namespace TemporalCheck.Text

def hexadecimal (n : Nat) : String := String.ofList (Nat.toDigits 16 n)

def isPrintable (c : Char) : Bool := !isInvisible c && !isCombining c

def escaped (c : Char) : String :=
  if c = '"' then "\\\""
  else if c = '\\' then "\\\\"
  else if c = '\n' then "\\n"
  else if c = '\r' then "\\r"
  else if c = '\t' then "\\t"
  else if c.toNat = 0 then "\\0"
  else if isPrintable c then c.toString
  else "\\u\x7b" ++ hexadecimal c.toNat ++ "\x7d"

def quoted (s : String) : String := "\"" ++ String.join (s.toList.map escaped) ++ "\""

end TemporalCheck.Text
