import Descent.Number.Binary64
import Descent.Text.Basic

/-!
# Number literals

A literal has an optional minus sign, a whole part that is `0` or starts with no
zero, an optional fraction and an optional exponent. `read?` takes a text that is
a literal from end to end apart, and `render` puts it together again. The value
is a ratio of natural numbers, and its number is the nearest binary64 one.
-/

namespace Descent

namespace NumberLiteral

/-- The exponent of a literal: its mark, its sign if one is written, its digits. -/
structure Exponent where
  mark : CodePoint
  sign : Option CodePoint
  digits : Text
deriving DecidableEq

end NumberLiteral

structure NumberLiteral where
  negative : Bool
  whole : Text
  fraction : Option Text
  exponent : Option NumberLiteral.Exponent
deriving DecidableEq

/-- The natural number that a text of digits denotes in base ten. -/
def digitsValue (digits : Text) : Nat :=
  digits.foldl (fun n c => 10 * n + (c.val - 48)) 0

@[simp] theorem digitsValue_nil : digitsValue [] = 0 := rfl

theorem digitsValue_concat (digits : Text) (c : CodePoint) :
    digitsValue (digits ++ [c]) = 10 * digitsValue digits + (c.val - 48) := by
  simp [digitsValue]

namespace NumberLiteral

/-- A sign that may stand before the digits of an exponent. -/
def isExponentSign (c : CodePoint) : Bool :=
  c = CodePoint.ofChar '+' || c = CodePoint.ofChar '-'

def isExponentMark (c : CodePoint) : Bool :=
  c = CodePoint.ofChar 'e' || c = CodePoint.ofChar 'E'

def Exponent.render (e : Exponent) : Text := e.mark :: (e.sign.toList ++ e.digits)

def render (l : NumberLiteral) : Text :=
  (if l.negative then [CodePoint.ofChar '-'] else []) ++ l.whole ++
    (match l.fraction with
      | some digits => CodePoint.ofChar '.' :: digits
      | none => []) ++
    (match l.exponent with
      | some e => e.render
      | none => [])

/-- A whole part is a single zero, or digits of which the first is no zero. -/
def isWhole (digits : Text) : Bool :=
  match digits with
  | [] => false
  | [_] => true
  | c :: _ :: _ => decide (c ≠ CodePoint.ofChar '0')

/-- The sign at the front, if there is one, and the rest. -/
def takeSign (isSign : CodePoint → Bool) : Text → Option CodePoint × Text
  | [] => (none, [])
  | c :: t => if isSign c then (some c, t) else (none, c :: t)

/-- An exponent that reaches to the end of the text; the empty text has none. -/
def readExponent? : Text → Option (Option Exponent)
  | [] => some none
  | mark :: t =>
    let (sign, digits) := takeSign isExponentSign t
    if isExponentMark mark && !digits.isEmpty && digits.all CodePoint.isDigit then
      some (some ⟨mark, sign, digits⟩)
    else none

/-- The digits of a fraction at the front, if a point stands there, and the rest. -/
def readFraction? : Text → Option (Option Text × Text)
  | [] => some (none, [])
  | c :: t =>
    if c = CodePoint.ofChar '.' then
      let digits := t.takeWhile CodePoint.isDigit
      if digits.isEmpty then none else some (some digits, t.dropWhile CodePoint.isDigit)
    else some (none, c :: t)

/-- The literal that the whole text is. -/
def read? (t : Text) : Option NumberLiteral := do
  let (sign, t) := takeSign (· = CodePoint.ofChar '-') t
  let whole := t.takeWhile CodePoint.isDigit
  if !isWhole whole then none
  else
    let (fraction, t) ← readFraction? (t.dropWhile CodePoint.isDigit)
    let exponent ← readExponent? t
    some ⟨sign.isSome, whole, fraction, exponent⟩

/-- The digits before the exponent. -/
def digits (l : NumberLiteral) : Text := l.whole ++ l.fraction.getD []

/-- The digits before the exponent, read as one natural number. -/
def significand (l : NumberLiteral) : Nat := digitsValue l.digits

def Exponent.value (e : Exponent) : Int :=
  if e.sign = some (CodePoint.ofChar '-') then -(digitsValue e.digits : Int)
  else digitsValue e.digits

/-- The power of ten by which the significand is multiplied. -/
def scale (l : NumberLiteral) : Int :=
  (l.exponent.map Exponent.value).getD 0 - ((l.fraction.getD []).length : Int)

/-- Numerator and denominator of the exact absolute value. -/
def ratio (l : NumberLiteral) : Nat × Nat :=
  (l.significand * Nat.pow 10 l.scale.toNat, Nat.pow 10 (-l.scale).toNat)

/-- The nearest binary64 number. A significand of `n` digits lies between `1` and
`10 ^ n` unless it is zero, so a scale far off either way decides at once. -/
def toBinary64 (l : NumberLiteral) : Binary64 :=
  if l.significand = 0 then .ofMagnitude l.negative 0
  else if 400 < l.scale then .ofMagnitude l.negative Binary64.infinity
  else if l.scale + l.digits.length < -400 then .ofMagnitude l.negative 0
  else .ofRatio l.negative l.ratio.1 l.ratio.2

end NumberLiteral

end Descent
