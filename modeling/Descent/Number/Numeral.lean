import Descent.Text.DecimalDigit

/-!
# Written integers

An integer is written with an optional sign and decimal digits of any script,
between which single underscores may stand; blanks may surround it. A numeral of
more than 4300 digits, leading zeros counted, is refused.
-/

namespace Descent

namespace Numeral

/-- Why a text is not read as an integer. -/
inductive Refusal where
  | malformed
  | tooLong (digits : Nat)
deriving DecidableEq

/-- The largest number of digits of a numeral. -/
def maxDigits : Nat := 4300

def isUnderscore (c : CodePoint) : Bool := decide (c = CodePoint.ofChar '_')

/-- Digits or underscores. -/
def isNumeralPart (c : CodePoint) : Bool := isUnderscore c || c.decimalValue?.isSome

/-- Of digits and underscores: every underscore stands between two digits. -/
def isSeparated : Text → Bool
  | [] => false
  | [c] => !isUnderscore c
  | c :: d :: t =>
    !isUnderscore c && (if isUnderscore d then isSeparated t else isSeparated (d :: t))

/-- The natural number of decimal digits, the most significant one first. -/
def ofDigits (digits : List Nat) : Nat := digits.foldl (fun n d => 10 * n + d) 0

@[simp] theorem ofDigits_nil : ofDigits [] = 0 := rfl

theorem ofDigits_concat (digits : List Nat) (d : Nat) :
    ofDigits (digits ++ [d]) = 10 * ofDigits digits + d := by
  simp [ofDigits]

/-- Digits with separators, to the end of the text but for blanks. -/
def readNat (t : Text) : Except Refusal Nat :=
  let numeral := t.takeWhile isNumeralPart
  let digits := numeral.filterMap CodePoint.decimalValue?
  if !isSeparated numeral then .error .malformed
  else if maxDigits < digits.length then .error (.tooLong digits.length)
  else if !(t.dropWhile isNumeralPart).all CodePoint.isBlank then .error .malformed
  else .ok (ofDigits digits)

def readInt (t : Text) : Except Refusal Int :=
  match t.dropWhile CodePoint.isBlank with
  | [] => .error .malformed
  | c :: r =>
    if c = CodePoint.ofChar '-' then (readNat r).map (fun n => -(n : Int))
    else if c = CodePoint.ofChar '+' then (readNat r).map Int.ofNat
    else (readNat (c :: r)).map Int.ofNat

end Numeral

end Descent
