import Descent.Number.Numeral
import Descent.Value.Basic

/-!
# Faults

What can end a run without an answer, by cause, and the message of each cause.
The first four are about parsing and the depth limit; the others come from
patterns, from lazy parsers, and from the functions that parsers call. A function
that is given a value of a type it is not about names the role in which it needed
the value.
-/

namespace Descent

/-- What a value was needed as. -/
inductive Role where
  | integer
  /-- A sequence of items. -/
  | items
  /-- Something with an item at each index. -/
  | indexed
  /-- A key of a dictionary. -/
  | key
  /-- Something that has the operation. -/
  | receiver (operation : String)
  /-- What the remaining input starts with. -/
  | opening
  /-- What a pattern is matched with. -/
  | subject
deriving DecidableEq

inductive Fault where
  /-- The parser of that description has no result. -/
  | noParse (parser : Text)
  /-- The parser of that description ran out of depth. -/
  | nestedTooDeep (parser : Text)
  /-- A result, but not of the whole text. -/
  | leftover (value : Value) (rest : Text)
  /-- The depth is used up. -/
  | depthExceeded
  /-- The lazy parser of that description is entered while its builder runs. -/
  | notReady (parser : Text)
  | builderFailed
  | badPattern
  | tooManyRounds
  | noSuchGroup
  /-- A parser without a parsing function. -/
  | notImplemented
  /-- Nothing is found under the key. -/
  | missingKey (key : Value)
  /-- The number of no cell of the store. -/
  | noCell
  | malformedInteger (t : Text)
  | integerTooLong (digits : Nat)
  | integerInfinite
  | listIndex
  | textIndex
  | noLength (typeName : String)
  | notJoinable
  | joinsNoText (position : Nat) (typeName : String)
  /-- The item in that place is not one that has parts. -/
  | pairWithoutParts (position : Nat)
  /-- The item in that place has not two parts but so many. -/
  | pairLength (position length : Nat)
  /-- A value of that type does not do in the role. -/
  | unsuitable (role : Role) (typeName : String)
  /-- Raised by a function given to a parser. -/
  | raised (kind : String) (message : Text)
  /-- No more lines. -/
  | endOfInput

namespace Role

/-- The message on a value of that type. -/
def refusal (typeName : Text) : Role → Text
  | .integer =>
    text "int() argument must be a string, a bytes-like object or a real number, not " ++
      typeName.quoted
  | .items => typeName.quoted ++ text " object is not iterable"
  | .indexed => typeName.quoted ++ text " object is not subscriptable"
  | .key => text "unhashable type: " ++ typeName.quoted
  | .receiver operation =>
    typeName.quoted ++ text " object has no attribute " ++ (text operation).quoted
  | .opening => text "startswith first arg must be str or a tuple of str, not " ++ typeName
  | .subject => text "expected string or bytes-like object, got " ++ typeName.quoted

end Role

namespace Fault

def message : Fault → Text
  | .noParse parser => text "Failed to parse on " ++ parser
  | .nestedTooDeep parser => text "Failed to parse on " ++ parser ++ text ": nesting too deep"
  | .leftover _ rest => text "Failed to parse, as there is remainder: " ++ rest.quoted
  | .depthExceeded => []
  | .notReady parser => parser ++ text " is invoked while being built"
  | .builderFailed => text "builder failed"
  | .badPattern => []
  | .tooManyRounds => text "the repetition number is too large"
  | .noSuchGroup => text "no such group"
  | .notImplemented => []
  | .missingKey key => key.written
  | .noCell => text "no such cell"
  | .malformedInteger t =>
    text "invalid literal for int() with base 10: " ++ t.quoted.take 200
  | .integerTooLong digits =>
    text "Exceeds the limit (" ++ Text.ofNat Numeral.maxDigits ++
      text " digits) for integer string conversion: value has " ++ Text.ofNat digits ++
      text " digits; use sys.set_int_max_str_digits() to increase the limit"
  | .integerInfinite => text "cannot convert float infinity to integer"
  | .listIndex => text "list index out of range"
  | .textIndex => text "string index out of range"
  | .noLength typeName => text "object of type " ++ (text typeName).quoted ++ text " has no len()"
  | .notJoinable => text "can only join an iterable"
  | .joinsNoText position typeName =>
    text "sequence item " ++ Text.ofNat position ++ text ": expected str instance, " ++
      text typeName ++ text " found"
  | .pairWithoutParts position =>
    text "cannot convert dictionary update sequence element #" ++ Text.ofNat position ++
      text " to a sequence"
  | .pairLength position length =>
    text "dictionary update sequence element #" ++ Text.ofNat position ++ text " has length " ++
      Text.ofNat length ++ text "; 2 is required"
  | .unsuitable role typeName => role.refusal (text typeName)
  | .raised kind message => if kind = "KeyError" then message.quoted else message
  | .endOfInput => text "EOF when reading a line"

end Fault

end Descent
