/-!
# Texts

A text is a list of code points. Unlike a `String`, a text may hold lone
surrogates, so a code point is any number below `0x110000`. The remaining input
of a parser is a text too: a suffix of the text it started from.
-/

namespace Descent

/-- A code point, surrogates included. -/
structure CodePoint where
  val : Nat
  isLt : val < 0x110000
deriving DecidableEq

abbrev Text := List CodePoint

namespace CodePoint

theorem ext_val {a b : CodePoint} (h : a.val = b.val) : a = b := by
  cases a; cases b; cases h; rfl

def ofChar (c : Char) : CodePoint :=
  ⟨c.toNat, by
    rcases c.valid with h | h
    · exact Nat.lt_trans h (by decide)
    · exact h.2⟩

@[simp] theorem val_ofChar (c : Char) : (ofChar c).val = c.toNat := rfl

/-- The code point of that number, and U+FFFD where there is none. -/
def ofNat (n : Nat) : CodePoint :=
  if h : n < 0x110000 then ⟨n, h⟩ else ⟨0xFFFD, by decide⟩

theorem val_ofNat {n : Nat} (h : n < 0x110000) : (ofNat n).val = n := by
  simp [ofNat, h]

/-- Between two characters, both included. -/
def between (lo hi : Char) (c : CodePoint) : Bool :=
  decide (lo.toNat ≤ c.val) && decide (c.val ≤ hi.toNat)

theorem between_iff {lo hi : Char} {c : CodePoint} :
    c.between lo hi = true ↔ lo.toNat ≤ c.val ∧ c.val ≤ hi.toNat := by
  simp [between]

/-- One of `0` to `9`. -/
def isDigit (c : CodePoint) : Bool := c.between '0' '9'

/-- One of the unaccented letters, of either case. -/
def isLetter (c : CodePoint) : Bool := c.between 'a' 'z' || c.between 'A' 'Z'

def isHighSurrogate (c : CodePoint) : Bool :=
  decide (0xD800 ≤ c.val) && decide (c.val < 0xDC00)

def isLowSurrogate (c : CodePoint) : Bool :=
  decide (0xDC00 ≤ c.val) && decide (c.val < 0xE000)

def isSurrogate (c : CodePoint) : Bool := c.isHighSurrogate || c.isLowSurrogate

/-- The character, where there is one: a surrogate is none. -/
def toChar? (c : CodePoint) : Option Char :=
  if h : c.val.isValidChar then some (Char.ofNatAux c.val h) else none

/-- The value of a hexadecimal digit of either case. -/
def hexValue? (c : CodePoint) : Option Nat :=
  if c.isDigit then some (c.val - 48)
  else if c.between 'a' 'f' then some (c.val - 87)
  else if c.between 'A' 'F' then some (c.val - 55)
  else none

end CodePoint

/-- The text of a string. -/
def text (s : String) : Text := s.toList.map CodePoint.ofChar

namespace Text

/-- The string of a text without surrogates. -/
def toString? (t : Text) : Option String :=
  (t.mapM CodePoint.toChar?).map String.ofList

/-- Order by code point, a proper prefix first. -/
def le : Text → Text → Bool
  | [], _ => true
  | _ :: _, [] => false
  | a :: s, b :: t => decide (a.val < b.val) || (decide (a.val = b.val) && le s t)

@[simp] theorem le_nil_left (t : Text) : le [] t = true := by cases t <;> rfl

@[simp] theorem le_cons_nil (a : CodePoint) (s : Text) : le (a :: s) [] = false := rfl

/-- The rest of a text that starts with `head`. -/
def after? : Text → Text → Option Text
  | [], t => some t
  | _ :: _, [] => none
  | a :: head, b :: t => if a = b then after? head t else none

@[simp] theorem after?_nil (t : Text) : after? [] t = some t := rfl

theorem after?_eq_some_iff {head t r : Text} : after? head t = some r ↔ t = head ++ r := by
  induction head generalizing t with
  | nil => simp [eq_comm]
  | cons a head ih =>
      cases t with
      | nil => simp [after?]
      | cons b t =>
          by_cases h : a = b
          · simp [after?, h, ih]
          · simp [after?, h, Ne.symm h]

/-- The items with the separator between each two neighbours. -/
def join (separator : Text) (items : List Text) : Text :=
  List.intercalate separator items

/-- The pieces between line feeds; what follows the last one counts only if it is not empty. -/
def lines (t : Text) : List Text :=
  match splitLines t with
  | ([], ls) => ls.reverse
  | (last, ls) => (last.reverse :: ls).reverse
where
  /-- The unfinished line backwards, and the finished ones, the newest first. -/
  splitLines (t : Text) : Text × List Text :=
    t.foldl (fun (line, ls) c =>
      if c.val = 10 then ([], line.reverse :: ls) else (c :: line, ls)) ([], [])

/-- A natural number in base ten. -/
def ofNat (n : Nat) : Text := (Nat.toDigits 10 n).map CodePoint.ofChar

def ofInt : Int → Text
  | .ofNat n => ofNat n
  | .negSucc n => CodePoint.ofChar '-' :: ofNat (n + 1)

end Text

end Descent
