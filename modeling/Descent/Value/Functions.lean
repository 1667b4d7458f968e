import Descent.Fault
import Descent.Text.Units
import Descent.Value.Dict

/-!
# Functions on values

The functions that a parser applies to the value of a result. Each one takes the
types of value that it is about and ends in a fault on any other.
-/

namespace Descent

namespace Value

def ofNumeral (r : Except Numeral.Refusal Int) (t : Text) : Except Fault Value :=
  match r with
  | .ok i => .ok (.int i)
  | .error .malformed => .error (.malformedInteger t)
  | .error (.tooLong digits) => .error (.integerTooLong digits)

/-- The integer that a text denotes, or a number without its fraction. -/
def toInt : Value → Except Fault Value
  | .str t => ofNumeral (Numeral.readInt t) t
  | .int i => .ok (.int i)
  | .bool b => .ok (.int b.toNat)
  | .float x =>
    match (float x).finiteUnits? with
    | some u => .ok (.int (Int.tdiv u Binary64.unitsOfOne))
    | none => .error .integerInfinite
  | v => .error (.unsuitable .integer v.typeName)

/-- The number of code points, items or entries. -/
def length : Value → Except Fault Value
  | .str t => .ok (.int t.length)
  | .list items => .ok (.int items.length)
  | .dict entries => .ok (.int entries.length)
  | v => .error (.noLength v.typeName)

/-- The place of an index in a sequence of that length: a negative one counts from the end. -/
def place? (i : Int) (length : Nat) : Option Nat :=
  let j := if i < 0 then i + length else i
  if 0 ≤ j ∧ j < length then some j.toNat else none

/-- The item at an index, or the value under a key that is an integer. -/
def index (i : Int) : Value → Except Fault Value
  | .str t =>
    match (place? i t.length).bind (t[·]?) with
    | some c => .ok (.str [c])
    | none => .error .textIndex
  | .list items =>
    match (place? i items.length).bind (items[·]?) with
    | some v => .ok v
    | none => .error .listIndex
  | .dict entries =>
    match entries.find? fun e => sameKey e.1 (.int i) with
    | some e => .ok e.2
    | none => .error (.missingKey (.int i))
  | v => .error (.unsuitable .indexed v.typeName)

/-- The parts of a sequence backwards. A dictionary has no stretches: what stands
for one does not do as a key. -/
def reverse : Value → Except Fault Value
  | .str t => .ok (.str t.reverse)
  | .list items => .ok (.list items.reverse)
  | .dict _ => .error (.unsuitable .key "slice")
  | v => .error (.unsuitable .indexed v.typeName)

/-- Small unaccented letters become capitals. -/
def upperCase : Value → Except Fault Value
  | .str t => .ok (.str (t.map fun c => if c.between 'a' 'z' then .ofNat (c.val - 32) else c))
  | v => .error (.unsuitable (.receiver "upper") v.typeName)

def combine : Value → Except Fault Value
  | .str t => .ok (.str t.combineSurrogates)
  | v => .error (.unsuitable (.receiver "encode") v.typeName)

/-- What a value holds one after another: code points, items or keys. -/
def parts? : Value → Option (List Value)
  | .str t => some (t.map fun c => .str [c])
  | .list items => some items
  | .dict entries => some (entries.map Prod.fst)
  | _ => none

/-- The texts of a list of texts; `position` is the place of the first one. -/
def textsFrom (position : Nat) : List Value → Except Fault (List Text)
  | [] => .ok []
  | .str t :: vs => (textsFrom (position + 1) vs).map (t :: ·)
  | v :: _ => .error (.joinsNoText position v.typeName)

@[simp] theorem textsFrom_nil (position : Nat) : textsFrom position [] = .ok [] := rfl

/-- The texts of a list joined into one text. -/
def joinItems (separator : Text) (items : List Value) : Except Fault Value :=
  (textsFrom 0 items).map fun ts => .str (Text.join separator ts)

/-- The parts of a value joined into one text. -/
def join (separator : Text) (v : Value) : Except Fault Value :=
  match v.parts? with
  | some parts => joinItems separator parts
  | none => .error .notJoinable

/-- Key and value of a value of two parts; `position` is its place. -/
def toPair (position : Nat) (v : Value) : Except Fault (Value × Value) :=
  match v.parts? with
  | some [k, w] => if k.isKey then .ok (k, w) else .error (.unsuitable .key k.typeName)
  | some parts => .error (.pairLength position parts.length)
  | none => .error (.pairWithoutParts position)

/-- The pairs of a list of pairs; `position` is the place of the first one. -/
def pairsFrom (position : Nat) : List Value → Except Fault (List (Value × Value))
  | [] => .ok []
  | v :: vs =>
    match toPair position v with
    | .ok pair => (pairsFrom (position + 1) vs).map (pair :: ·)
    | .error f => .error f

@[simp] theorem pairsFrom_nil (position : Nat) : pairsFrom position [] = .ok [] := rfl

/-- The dictionary of a list of pairs. -/
def toDict : Value → Except Fault Value
  | .dict entries => .ok (.dict entries)
  | v =>
    match v.parts? with
    | some parts => (pairsFrom 0 parts).map fun pairs => .dict (entriesOfPairs pairs)
    | none => .error (.unsuitable .items v.typeName)

end Value

end Descent
