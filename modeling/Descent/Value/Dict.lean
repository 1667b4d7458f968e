import Descent.Value.Basic

/-!
# Dictionary entries

Keys are equal as texts or as numbers: a truth value counts as zero or one, and
an integer may equal a binary64 number. `insert` keeps the place and the key of
an entry that is there and changes its value; a new key comes last. So the
entries of a list of pairs are its distinct keys in the order of their first
occurrences, each with the value of its last one.
-/

namespace Descent

namespace Value

/-- A finite number in units of `2 ^ (-1074)`, of which every one is a multiple. -/
def finiteUnits? : Value → Option Int
  | .bool b => some (b.toNat * Binary64.unitsOfOne)
  | .int i => some (i * Binary64.unitsOfOne)
  | .float x =>
    if x.isFinite then
      some (if x.negative then -(Binary64.units x.magnitude : Int) else Binary64.units x.magnitude)
    else none
  | _ => none

/-- Equality of keys. -/
def sameKey : Value → Value → Bool
  | .null, .null => true
  | .str s, .str t => decide (s = t)
  | .float x, .float y =>
    decide (x = y) ||
      (x.isFinite && y.isFinite && decide ((float x).finiteUnits? = (float y).finiteUnits?))
  | v, w => v.finiteUnits?.isSome && decide (v.finiteUnits? = w.finiteUnits?)

@[simp] theorem sameKey_str (s t : Text) : sameKey (.str s) (.str t) = decide (s = t) := rfl

/-- Whether a value may be a key. -/
def isKey : Value → Bool
  | .list _ => false
  | .dict _ => false
  | _ => true

/-- The entries with the key set to the value. -/
def insert (key value : Value) : List (Value × Value) → List (Value × Value)
  | [] => [(key, value)]
  | (k, v) :: entries =>
    if sameKey k key then (k, value) :: entries else (k, v) :: insert key value entries

@[simp] theorem insert_nil (key value : Value) : insert key value [] = [(key, value)] := rfl

/-- The entries after setting each pair in turn. -/
def entriesOfPairs (pairs : List (Value × Value)) : List (Value × Value) :=
  pairs.foldl (fun entries (k, v) => insert k v entries) []

@[simp] theorem entriesOfPairs_nil : entriesOfPairs [] = [] := rfl

theorem entriesOfPairs_concat (pairs : List (Value × Value)) (k v : Value) :
    entriesOfPairs (pairs ++ [(k, v)]) = insert k v (entriesOfPairs pairs) := by
  simp [entriesOfPairs]

end Value

end Descent
