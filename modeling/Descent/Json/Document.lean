import Descent.Number.Literal
import Descent.Text.Units
import Descent.Value.Dict

/-!
# JSON documents

A document is a JSON value as it is written: with its number literals, the pieces
of its strings, its whitespace and its commas. `text` is what is written and
`value` what it stands for; both are read off the document, and neither knows of
a parser. Each item of a container carries the whitespace around it and says
whether a comma follows.

Strict documents have a comma after every item but the last one. In loose ones a
comma may follow any item, so a document is not known from its text, and a number
has to end where it stands: `endsBefore` says that what follows a literal does not
go on with it.
-/

namespace Descent

namespace NumberLiteral

/-- A text of digits only, and of at least one. -/
def IsDigits (t : Text) : Prop := t ≠ [] ∧ ∀ c ∈ t, c.isDigit = true

/-- The parts of a literal are what a literal is made of. -/
structure WellFormed (l : NumberLiteral) : Prop where
  whole_digits : IsDigits l.whole
  whole_zero : l.whole.head? = some (CodePoint.ofChar '0') → l.whole.length = 1
  fraction_digits : ∀ t ∈ l.fraction, IsDigits t
  exponent_mark : ∀ e ∈ l.exponent, isExponentMark e.mark = true
  exponent_sign : ∀ e ∈ l.exponent, ∀ c ∈ e.sign, isExponentSign c = true
  exponent_digits : ∀ e ∈ l.exponent, IsDigits e.digits

/-- The text does not go on with the literal: no digit follows unless the literal is
zero without more, no point follows a bare whole part, and no exponent mark follows
a literal without exponent. -/
structure EndsBefore (l : NumberLiteral) (next : Text) : Prop where
  digit : ∀ c ∈ next.head?, c.isDigit = true →
    l.whole = text "0" ∧ l.fraction = none ∧ l.exponent = none
  point : ∀ c ∈ next.head?, c = CodePoint.ofChar '.' → l.fraction.isSome ∨ l.exponent.isSome
  mark : ∀ c ∈ next.head?, isExponentMark c = true → l.exponent.isSome

end NumberLiteral

namespace Json

/-- Space, tab, line feed or carriage return. -/
def isBlank (c : CodePoint) : Bool := [32, 9, 10, 13].contains c.val

def IsBlank (t : Text) : Prop := ∀ c ∈ t, isBlank c = true

/-- What a backslash and the letter stand for. -/
def letterValue? (c : CodePoint) : Option CodePoint :=
  match c.val with
  | 34 => some c
  | 92 => some c
  | 47 => some c
  | 98 => some (CodePoint.ofNat 8)
  | 102 => some (CodePoint.ofNat 12)
  | 110 => some (CodePoint.ofNat 10)
  | 114 => some (CodePoint.ofNat 13)
  | 116 => some (CodePoint.ofNat 9)
  | _ => none

/-- One piece of a string. -/
inductive StringPiece where
  /-- A code point that stands for itself. -/
  | raw (c : CodePoint)
  /-- A backslash and a letter. -/
  | letter (c : CodePoint)
  /-- A code unit by its four hexadecimal digits. -/
  | unit (a b c d : CodePoint)
deriving DecidableEq

namespace StringPiece

def text : StringPiece → Text
  | .raw c => [c]
  | .letter c => [CodePoint.ofChar '\\', c]
  | .unit a b c d => [CodePoint.ofChar '\\', CodePoint.ofChar 'u', a, b, c, d]

def digitValue (c : CodePoint) : Nat := (c.hexValue?).getD 0

def value : StringPiece → CodePoint
  | .raw c => c
  | .letter c => (letterValue? c).getD c
  | .unit a b c d =>
    CodePoint.ofNat
      (((digitValue a * 16 + digitValue b) * 16 + digitValue c) * 16 + digitValue d)

/-- A raw code point is no quote, no backslash and no control; a letter has a
meaning; the digits are hexadecimal. -/
def WellFormed : StringPiece → Prop
  | .raw c => c.val ≠ 34 ∧ c.val ≠ 92 ∧ 32 ≤ c.val
  | .letter c => (letterValue? c).isSome
  | .unit a b c d => ∀ x ∈ [a, b, c, d], x.hexValue?.isSome

end StringPiece

/-- The pieces between quotes. -/
def stringText (pieces : List StringPiece) : Text :=
  CodePoint.ofChar '"' :: (pieces.flatMap StringPiece.text ++ [CodePoint.ofChar '"'])

def stringValue (pieces : List StringPiece) : Text := pieces.map StringPiece.value

mutual

inductive Document where
  | null
  | bool (b : Bool)
  | number (l : NumberLiteral)
  | string (pieces : List StringPiece)
  | emptyArray (blank : Text)
  | array (items : List Item)
  | emptyObject (blank : Text)
  | object (members : List Member)

/-- An item of an array, with the whitespace around it. -/
inductive Item where
  | mk (before : Text) (value : Document) (after : Text) (comma : Bool)

/-- A member of an object, with the whitespace around its key and its value. -/
inductive Member where
  | mk (beforeKey : Text) (key : List StringPiece) (afterKey : Text)
    (before : Text) (value : Document) (after : Text) (comma : Bool)

end

namespace Document

/-- What follows an item. -/
def commaText (comma : Bool) : Text := if comma then text "," else []

mutual

/-- What is written. -/
def text : Document → Text
  | .null => Descent.text "null"
  | .bool b => Descent.text (if b then "true" else "false")
  | .number l => l.render
  | .string pieces => stringText pieces
  | .emptyArray blank => Descent.text "[" ++ blank ++ Descent.text "]"
  | .array items => Descent.text "[" ++ itemsText items ++ Descent.text "]"
  | .emptyObject blank => Descent.text "\x7b" ++ blank ++ Descent.text "\x7d"
  | .object members => Descent.text "\x7b" ++ membersText members ++ Descent.text "\x7d"

def itemsText : List Item → Text
  | [] => []
  | .mk before d after comma :: items =>
    before ++ d.text ++ after ++ commaText comma ++ itemsText items

def membersText : List Member → Text
  | [] => []
  | .mk beforeKey key afterKey before d after comma :: members =>
    beforeKey ++ stringText key ++ afterKey ++ Descent.text ":" ++ before ++ d.text ++ after ++
      commaText comma ++ membersText members

end

mutual

/-- What the document stands for, if `decode` is what its strings go through. -/
def value (decode : Text → Text) : Document → Value
  | .null => .null
  | .bool b => .bool b
  | .number l => .float l.toBinary64
  | .string pieces => .str (decode (stringValue pieces))
  | .emptyArray _ => .list []
  | .array items => .list (itemValues decode items)
  | .emptyObject _ => .dict []
  | .object members => .dict (Value.entriesOfPairs (memberValues decode members))

def itemValues (decode : Text → Text) : List Item → List Value
  | [] => []
  | .mk _ d _ _ :: items => d.value decode :: itemValues decode items

/-- The pairs of an object in the order of the text, none left out. -/
def memberValues (decode : Text → Text) : List Member → List (Value × Value)
  | [] => []
  | .mk _ key _ _ d _ _ :: members =>
    (.str (decode (stringValue key)), d.value decode) :: memberValues decode members

end

mutual

/-- Numbers, strings and whitespace are what they should be, and containers that
are not written as empty ones have an item. -/
def WellFormed : Document → Prop
  | .null => True
  | .bool _ => True
  | .number l => l.WellFormed
  | .string pieces => ∀ p ∈ pieces, p.WellFormed
  | .emptyArray blank => IsBlank blank
  | .array items => items ≠ [] ∧ ItemsWellFormed items
  | .emptyObject blank => IsBlank blank
  | .object members => members ≠ [] ∧ MembersWellFormed members

def ItemsWellFormed : List Item → Prop
  | [] => True
  | .mk before d after _ :: items =>
    IsBlank before ∧ d.WellFormed ∧ IsBlank after ∧ ItemsWellFormed items

def MembersWellFormed : List Member → Prop
  | [] => True
  | .mk beforeKey key afterKey before d after _ :: members =>
    IsBlank beforeKey ∧ (∀ p ∈ key, p.WellFormed) ∧ IsBlank afterKey ∧
      IsBlank before ∧ d.WellFormed ∧ IsBlank after ∧ MembersWellFormed members

end

mutual

/-- A comma stands after every item but the last, in every container. -/
def Strict : Document → Prop
  | .array items => ItemsStrict items
  | .object members => MembersStrict members
  | _ => True

def ItemsStrict : List Item → Prop
  | [] => True
  | .mk _ d _ comma :: items =>
    d.Strict ∧ (comma = true ↔ items ≠ []) ∧ ItemsStrict items

def MembersStrict : List Member → Prop
  | [] => True
  | .mk _ _ _ _ d _ comma :: members =>
    d.Strict ∧ (comma = true ↔ members ≠ []) ∧ MembersStrict members

end

mutual

/-- Every number ends where it stands, if `next` follows the document. -/
def NumbersEnd : Document → Text → Prop
  | .number l, next => l.EndsBefore next
  | .array items, next => ItemNumbersEnd items (Descent.text "]" ++ next)
  | .object members, next => MemberNumbersEnd members (Descent.text "\x7d" ++ next)
  | _, _ => True

def ItemNumbersEnd : List Item → Text → Prop
  | [], _ => True
  | .mk _ d after comma :: items, next =>
    d.NumbersEnd (after ++ commaText comma ++ itemsText items ++ next) ∧ ItemNumbersEnd items next

def MemberNumbersEnd : List Member → Text → Prop
  | [], _ => True
  | .mk _ _ _ _ d after comma :: members, next =>
    d.NumbersEnd (after ++ commaText comma ++ membersText members ++ next) ∧
      MemberNumbersEnd members next

end

mutual

/-- How deep arrays and objects are nested. -/
def depth : Document → Nat
  | .emptyArray _ => 1
  | .array items => itemsDepth items + 1
  | .emptyObject _ => 1
  | .object members => membersDepth members + 1
  | _ => 0

def itemsDepth : List Item → Nat
  | [] => 0
  | .mk _ d _ _ :: items => max d.depth (itemsDepth items)

def membersDepth : List Member → Nat
  | [] => 0
  | .mk _ _ _ _ d _ _ :: members => max d.depth (membersDepth members)

end

mutual

/-- The document with strict commas and all else unchanged. -/
def withCommas : Document → Document
  | .array items => .array (itemsWithCommas items)
  | .object members => .object (membersWithCommas members)
  | d => d

def itemsWithCommas : List Item → List Item
  | [] => []
  | .mk before d after _ :: items =>
    .mk before d.withCommas after (!items.isEmpty) :: itemsWithCommas items

def membersWithCommas : List Member → List Member
  | [] => []
  | .mk beforeKey key afterKey before d after _ :: members =>
    .mk beforeKey key afterKey before d.withCommas after (!members.isEmpty) ::
      membersWithCommas members

end

end Document

end Json

end Descent
