import Descent.Json.Document
import Descent.Json.Rule
import Descent.Proofs.Span
import Mathlib.Data.List.TakeWhile

/-!
# What the rules of the JSON grammar read

Each rule of the grammar has a reading that knows nothing of parsers, cells and
choices: what it takes from the input, and which depth this needs. The depth given
to the reading of a token is the one left when its rule has been entered;
`valueReading` counts its own entry too. A container hands its items a depth that
is smaller by four, which is what the recursion is on.
-/

namespace Descent

namespace Json

open Reading Recipe

/-- The text without the blanks in front. -/
def skipBlanks (t : Text) : Text := t.dropWhile isBlank

theorem skipBlanks_append {blank : Text} (h : IsBlank blank) (t : Text) :
    skipBlanks (blank ++ t) = skipBlanks t := by
  rw [skipBlanks, skipBlanks, List.dropWhile_append_of_pos h]

theorem skipBlanks_of_isBlank {blank : Text} (h : IsBlank blank) : skipBlanks blank = [] := by
  simpa [skipBlanks] using skipBlanks_append h []

theorem skipBlanks_cons {c : CodePoint} (h : isBlank c = false) (t : Text) :
    skipBlanks (c :: t) = c :: t := by
  simp [skipBlanks, h]

@[simp] theorem skipBlanks_skipBlanks (t : Text) : skipBlanks (skipBlanks t) = skipBlanks t := by
  induction t with
  | nil => rfl
  | cons c t ih =>
      cases h : isBlank c with
      | true =>
          have hc : skipBlanks (c :: t) = skipBlanks t := by simp [skipBlanks, h]
          rw [hc, ih]
      | false => rw [skipBlanks_cons h, skipBlanks_cons h]

/-- A text is the blanks in front and the rest. -/
theorem exists_blanks (t : Text) : ∃ blank, IsBlank blank ∧ t = blank ++ skipBlanks t :=
  ⟨t.takeWhile isBlank, fun _ h => List.mem_takeWhile_imp h,
    List.takeWhile_append_dropWhile.symm⟩

/-! ## Numbers -/

namespace Number

/-- A single zero, or digits of which the first is no zero. -/
def takeWhole : Text → Option (Text × Text)
  | [] => none
  | c :: t =>
    if c = CodePoint.ofChar '0' then some ([c], t)
    else if c.between '1' '9' then
      some (c :: t.takeWhile CodePoint.isDigit, t.dropWhile CodePoint.isDigit)
    else none

/-- A point and all digits after it. -/
def takeFraction : Text → Text × Text
  | [] => ([], [])
  | c :: t =>
    if c = CodePoint.ofChar '.' then
      (c :: t.takeWhile CodePoint.isDigit, t.dropWhile CodePoint.isDigit)
    else ([], c :: t)

/-- A mark, a sign if there is one, and all digits after it. -/
def takeExponent : Text → Text × Text
  | [] => ([], [])
  | c :: t =>
    if NumberLiteral.isExponentMark c then
      let signed := NumberLiteral.takeSign NumberLiteral.isExponentSign t
      (c :: (signed.1.toList ++ signed.2.takeWhile CodePoint.isDigit),
        signed.2.dropWhile CodePoint.isDigit)
    else ([], c :: t)

end Number

/-- The number of the literal, if the text is one. -/
def literalNumber (t rest : Text) : Reading Value :=
  match NumberLiteral.read? t with
  | some l => .reads (.float l.toBinary64) rest
  | none => .fails

/-- The parts of a number are taken as far as they go, and have to be a literal. -/
def numberReading (depth : Nat) (cur : Text) : Reading Value :=
  enter depth fun depth =>
    let signed := NumberLiteral.takeSign (· = CodePoint.ofChar '-') cur
    match Number.takeWhole signed.2 with
    | none => .fails
    | some (whole, t) =>
      let (fraction, t) := Number.takeFraction t
      enter depth fun _ =>
        let (exponent, t) := Number.takeExponent t
        literalNumber (signed.1.toList ++ whole ++ fraction ++ exponent) t

/-! ## Strings -/

/-- The code point stands for itself in a string. -/
def isRaw (c : CodePoint) : Bool := c.val ≠ 34 && c.val ≠ 92 && 32 ≤ c.val

theorem isRaw_backslash : isRaw (CodePoint.ofChar '\\') = false := by decide

def isHex (c : CodePoint) : Bool := c.hexValue?.isSome

/-- Four hexadecimal digits. -/
def unitReading : Text → Reading Text
  | a :: b :: c :: d :: t =>
    if isHex a && isHex b && isHex c && isHex d then
      .reads [(StringPiece.unit a b c d).value] t
    else .fails
  | _ => .fails

/-- What follows a backslash. The letters other than the solidus are tried by a
choice of their own, and code units after them. -/
def escapeReading (depth : Nat) : Text → Reading Text
  | [] => enter depth fun _ => .fails
  | c :: t =>
    if c = CodePoint.ofChar '/' then .reads [c] t
    else enter depth fun _ =>
      match letterValue? c with
      | some v => .reads [v] t
      | none => if c = CodePoint.ofChar 'u' then unitReading t else .fails

/-- All code points that stand for themselves, or one escape. -/
def pieceReading (depth : Nat) (cur : Text) : Reading Text :=
  enter depth fun depth =>
    match cur with
    | [] => .fails
    | c :: t =>
      if isRaw c then .reads (c :: t.takeWhile isRaw) (t.dropWhile isRaw)
      else if c = CodePoint.ofChar '\\' then escapeReading depth t
      else .fails

/-- What the strings of a grammar go through. -/
def Options.decode (o : Options) (t : Text) : Text :=
  if o.combine then t.combineSurrogates else t

/-- A string without its opening quote: the pieces and the closing quote. -/
def bodyReading (o : Options) (depth : Nat) (cur : Text) : Reading Text :=
  (Reading.many1 (pieceReading depth) cur).bind fun ts t =>
    (literalReading (text "\"") t).map fun _ => o.decode ts.flatten

def stringReading (o : Options) (depth : Nat) (cur : Text) : Reading Text :=
  enter depth fun depth =>
    (literalReading (text "\"") cur).bind fun _ t =>
      ((literalReading (text "\"") t).map fun _ => []).orElse (bodyReading o depth t)

/-! ## Containers -/

/-- The text without a comma in front. -/
def skipComma (t : Text) : Text := (NumberLiteral.takeSign (· = CodePoint.ofChar ',') t).2

section

variable {α : Type}

/-- An item after a comma. -/
def nextItemReading (item : Text → Reading α) (cur : Text) : Reading α :=
  (literalReading (text ",") cur).bind fun _ t => item t

/-- An item, and a comma if there is one. -/
def looseItemReading (depth : Nat) (item : Text → Reading α) (cur : Text) : Reading α :=
  (item cur).bind fun a t => enter depth fun _ => .reads a (skipComma t)

/-- One or more items with their commas. -/
def itemsReading (strict : Bool) (depth : Nat) (item : Text → Reading α) (cur : Text) :
    Reading (List α) :=
  if strict then
    (item cur).bind fun a t => (Reading.many (nextItemReading item) t).map (a :: ·)
  else Reading.many1 (looseItemReading depth item) cur

/-- Brackets with blanks between them, or else with items. -/
def containerReading (opening closing : Text) (depth : Nat) (items : Text → Reading (List α))
    (cur : Text) : Reading (List α) :=
  enter depth fun depth =>
    (literalReading opening cur).bind fun _ t =>
      (enter depth fun _ => (literalReading closing (skipBlanks t)).map fun _ => []).orElse
        ((items t).bind fun as t => (literalReading closing t).map fun _ => as)

end

/-- A key, a colon and a value. -/
def pairReading (o : Options) (depth : Nat) (value : Text → Reading Value) (cur : Text) :
    Reading (Text × Value) :=
  enter depth fun depth =>
    (stringReading o depth (skipBlanks cur)).bind fun k t =>
      (literalReading (text ":") (skipBlanks t)).bind fun _ t => (value t).map fun v => (k, v)

/-- The brackets are read at `depth + 1`, the items at `depth`. -/
def arrayReading (o : Options) (depth : Nat) (value : Text → Reading Value) (cur : Text) :
    Reading Value :=
  (containerReading (text "[") (text "]") (depth + 1) (itemsReading o.strict depth value) cur).map
    .list

/-- The value of a list of members. -/
def dictOf (members : List (Text × Value)) : Value :=
  .dict (Value.entriesOfPairs (members.map fun m => (.str m.1, m.2)))

def objectReading (o : Options) (depth : Nat) (value : Text → Reading Value) (cur : Text) :
    Reading Value :=
  (containerReading (text "\x7b") (text "\x7d") (depth + 1)
    (itemsReading o.strict depth (pairReading o depth value)) cur).map dictOf

/-! ## Values -/

def constantReading (word : String) (v : Value) (cur : Text) : Reading Value :=
  (literalReading (text word) cur).map fun _ => v

/-- A value without the blanks around it, if the depth is `depth + 1` when a token is
entered, and `value` reads the values inside a container. -/
def tokenReading (o : Options) (depth : Nat) (value : Text → Reading Value) :
    Text → Reading Value :=
  choice [fun cur => (stringReading o (depth + 1) cur).map .str, numberReading (depth + 1),
    arrayReading o depth value, objectReading o depth value, constantReading "true" (.bool true),
    constantReading "false" (.bool false), constantReading "null" .null]

/-- A value and the blanks around it. Less than four entries are not enough to find
out that something is no string. -/
def valueReading (o : Options) : Nat → Text → Reading Value
  | depth + 4, cur =>
    (tokenReading o depth (valueReading o depth) (skipBlanks cur)).bind fun v t =>
      .reads v (skipBlanks t)
  | _, _ => .overrun

theorem valueReading_add_four (o : Options) (depth : Nat) (cur : Text) :
    valueReading o (depth + 4) cur =
      (tokenReading o depth (valueReading o depth) (skipBlanks cur)).bind fun v t =>
        .reads v (skipBlanks t) := by
  rw [valueReading]

theorem valueReading_of_lt (o : Options) {depth : Nat} (h : depth < 4) (cur : Text) :
    valueReading o depth cur = .overrun := by
  match depth, h with
  | 0, _ => rfl
  | 1, _ => rfl
  | 2, _ => rfl
  | 3, _ => rfl

end Json

end Descent
