import Descent.Number.Written
import Descent.Text.Quoted

/-!
# Values

The values that parsers make: nothing, truth values, integers, binary64 numbers,
texts, lists and dictionaries. A dictionary is a list of entries in the order in
which their keys came first. A value is written with its texts quoted; shown
alone, a text stands for itself.
-/

namespace Descent

inductive Value where
  | null
  | bool (b : Bool)
  | int (i : Int)
  | float (x : Binary64)
  | str (t : Text)
  | list (items : List Value)
  | dict (entries : List (Value × Value))

namespace Value

/-- The name of the kind of a value, as messages give it. -/
def typeName : Value → String
  | .null => "NoneType"
  | .bool _ => "bool"
  | .int _ => "int"
  | .float _ => "float"
  | .str _ => "str"
  | .list _ => "list"
  | .dict _ => "dict"

mutual

def written : Value → Text
  | .null => text "None"
  | .bool b => text (if b then "True" else "False")
  | .int i => Text.ofInt i
  | .float x => x.written
  | .str t => t.quoted
  | .list items => text "[" ++ Text.join (text ", ") (writtenItems items) ++ text "]"
  | .dict entries => text "\x7b" ++ Text.join (text ", ") (writtenEntries entries) ++ text "\x7d"

def writtenItems : List Value → List Text
  | [] => []
  | v :: vs => written v :: writtenItems vs

def writtenEntries : List (Value × Value) → List Text
  | [] => []
  | (k, v) :: es => (written k ++ text ": " ++ written v) :: writtenEntries es

end

/-- A text stands for itself, every other value as written. -/
def shown : Value → Text
  | .str t => t
  | v => v.written

@[simp] theorem shown_str (t : Text) : shown (.str t) = t := rfl

end Value

end Descent
