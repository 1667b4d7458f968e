import Descent.Text.Basic

/-!
# UTF-16 code units

A code point below U+10000 is one unit, any other one is a high surrogate
followed by a low one. Reading units back joins each high surrogate with a low
one that follows it and keeps every other unit, so it combines the surrogate
pairs of a text and leaves lone surrogates alone.
-/

namespace Descent

namespace CodePoint

def units (c : CodePoint) : List UInt16 :=
  if c.val < 0x10000 then [UInt16.ofNat c.val]
  else [UInt16.ofNat (0xD7C0 + c.val / 0x400), UInt16.ofNat (0xDC00 + c.val % 0x400)]

/-- The code point of one unit, which may be a surrogate. -/
def ofUnit (u : UInt16) : CodePoint :=
  ⟨u.toNat, Nat.lt_trans u.toNat_lt (by decide)⟩

@[simp] theorem val_ofUnit (u : UInt16) : (ofUnit u).val = u.toNat := rfl

/-- The code point of a high surrogate and a low one. -/
def ofPair (high low : UInt16) : CodePoint :=
  ofNat (0x10000 + (high.toNat - 0xD800) * 0x400 + (low.toNat - 0xDC00))

end CodePoint

namespace Text

/-- The units of all code points in order. -/
def units (t : Text) : List UInt16 := t.flatMap CodePoint.units

@[simp] theorem units_nil : units [] = [] := rfl

@[simp] theorem units_cons (c : CodePoint) (t : Text) :
    units (c :: t) = c.units ++ units t := rfl

@[simp] theorem units_append (s t : Text) : units (s ++ t) = units s ++ units t := by
  simp [units]

/-- Reads units, joining each high surrogate with the low one after it. -/
def ofUnits : List UInt16 → Text
  | [] => []
  | [u] => [CodePoint.ofUnit u]
  | u :: v :: us =>
    if (CodePoint.ofUnit u).isHighSurrogate && (CodePoint.ofUnit v).isLowSurrogate then
      CodePoint.ofPair u v :: ofUnits us
    else CodePoint.ofUnit u :: ofUnits (v :: us)

@[simp] theorem ofUnits_nil : ofUnits [] = [] := rfl

@[simp] theorem ofUnits_singleton (u : UInt16) : ofUnits [u] = [CodePoint.ofUnit u] := rfl

/-- The text with each surrogate pair joined into the code point that it encodes. -/
def combineSurrogates (t : Text) : Text := ofUnits (units t)

@[simp] theorem combineSurrogates_nil : combineSurrogates [] = [] := rfl

end Text

end Descent
