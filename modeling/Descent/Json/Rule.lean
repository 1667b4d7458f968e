import Descent.Parser.Basic

/-!
# Rules of a JSON grammar

A grammar has nine rules. Six of them are lazy parsers, in cells that follow each
other from `base` on; the three constants are parsers of their own. The options
say whether separators are strict and whether the surrogate pairs of a string are
combined.
-/

namespace Descent

namespace Json

/-- With `strict` items are separated by exactly one comma; else a comma may follow
any item. With `combine` the surrogate pairs of a string are combined. -/
structure Options where
  strict : Bool := false
  combine : Bool := false
deriving DecidableEq

inductive Rule where
  | whitespace
  | number
  | string
  | true
  | false
  | null
  | array
  | object
  | value
deriving DecidableEq

namespace Rule

/-- The rules that are lazy parsers, in the order of their cells. -/
def lazyRules : List Rule := [.whitespace, .number, .string, .array, .object, .value]

/-- The name of a rule. -/
def name : Rule → String
  | .whitespace => "whitespace"
  | .number => "number"
  | .string => "string"
  | .true => "true"
  | .false => "false"
  | .null => "null"
  | .array => "array"
  | .object => "object"
  | .value => "value"

end Rule

/-- A grammar whose lazy rules stand in the cells from `base` on. -/
structure Grammar where
  options : Options
  base : Nat
deriving DecidableEq

namespace Grammar

/-- A constant: the word stands for the value. -/
def constant (word : String) (v : Value) : Parser :=
  .map (.literal (text word)) fun _ => .ok v

/-- The parser of a rule. -/
def parser (g : Grammar) : Rule → Parser
  | .whitespace => .lazy g.base
  | .number => .lazy (g.base + 1)
  | .string => .lazy (g.base + 2)
  | .true => constant "true" (.bool Bool.true)
  | .false => constant "false" (.bool Bool.false)
  | .null => constant "null" .null
  | .array => .lazy (g.base + 3)
  | .object => .lazy (g.base + 4)
  | .value => .lazy (g.base + 5)

end Grammar

end Json

end Descent
