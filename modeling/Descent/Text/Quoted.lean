import Descent.Text.Printable

/-!
# Quoted texts

A quoted text stands between single quotes, or between double quotes if it holds
a single quote and no double one. Inside, the quote and the backslash follow a
backslash, tab, line feed and carriage return are `\t`, `\n` and `\r`, and every
other unprintable code point is written by its number, with as few of two, four
or eight hexadecimal digits as hold it.
-/

namespace Descent

/-- The last `width` hexadecimal digits of `n`. -/
def hexDigits (n : Nat) : Nat → Text
  | 0 => []
  | width + 1 => hexDigits (n / 16) width ++ [CodePoint.ofChar (Nat.digitChar (n % 16))]

namespace CodePoint

/-- A code point inside the quote `quote`. -/
def escaped (quote c : CodePoint) : Text :=
  if c = quote ∨ c = ofChar '\\' then [ofChar '\\', c]
  else if c = ofChar '\t' then text "\\t"
  else if c = ofChar '\n' then text "\\n"
  else if c = ofChar '\r' then text "\\r"
  else if c.isPrintable then [c]
  else if c.val < 0x100 then text "\\x" ++ hexDigits c.val 2
  else if c.val < 0x10000 then text "\\u" ++ hexDigits c.val 4
  else text "\\U" ++ hexDigits c.val 8

end CodePoint

namespace Text

/-- The quote that a text is written in. -/
def quoteMark (t : Text) : CodePoint :=
  if t.contains (CodePoint.ofChar '\'') && !t.contains (CodePoint.ofChar '"') then
    CodePoint.ofChar '"'
  else CodePoint.ofChar '\''

def quoted (t : Text) : Text :=
  t.quoteMark :: (t.flatMap (CodePoint.escaped t.quoteMark) ++ [t.quoteMark])

@[simp] theorem quoted_nil : quoted [] = text "''" := rfl

end Text

end Descent
