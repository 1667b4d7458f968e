import Descent.Parser.Continuation
import Descent.Parser.Regex
import Descent.Store

/-!
# The JSON grammar

The recipe of each lazy rule. A string takes each escape of a code unit as a code
point of its own, so a pair of escapes may be two surrogates; with the option
`combine` they are combined when the string is complete. Items are read with
their separators by `items`, in a strict or a loose way. Whitespace belongs to
the values, to the keys of pairs, and to empty containers.
-/

namespace Descent

namespace Json

/-- The code points that are escaped by one letter, and what they stand for. -/
def escapeValues : List (Text × Text) :=
  [(text "\"", text "\""), (text "\\", text "\\"), (text "b", [CodePoint.ofNat 8]),
    (text "f", [CodePoint.ofNat 12]), (text "n", text "\n"), (text "r", text "\r"),
    (text "t", text "\t")]

/-- What an escaped letter stands for. -/
def escapeValue : Value → Except Fault Value
  | .str t =>
    match escapeValues.find? fun e => e.1 = t with
    | some e => .ok (.str e.2)
    | none => .error (.missingKey (.str t))
  | v => .error (.missingKey v)

/-- The number that hexadecimal digits denote. -/
def hexNumber? (t : Text) : Option Nat :=
  t.foldlM (fun n c => (c.hexValue?).map (16 * n + ·)) 0

/-- The code unit of hexadecimal digits. -/
def unitValue : Value → Except Fault Value
  | .str t =>
    match hexNumber? t with
    | some n => .ok (.str [CodePoint.ofNat n])
    | none => .error (.malformedInteger t)
  | v => .error (.unsuitable .integer v.typeName)

/-- The value in that place, changed. -/
def itemWith (i : Int) (f : Value → Except Fault Value) (vs : List Value) : Parser :=
  .liftExcept (((Value.list vs).index i).bind f)

/-- A first item and a list of further ones, as one list. -/
def consItems (vs : List Value) : Parser :=
  .liftExcept do
    let v ← (Value.list vs).index 0
    let rest ← (Value.list vs).index 1
    match rest.parts? with
    | some items => .ok (.list (v :: items))
    | none => .error (.unsuitable .items rest.typeName)

/-- Key and value of a pair among its five parts. -/
def pairItems (vs : List Value) : Parser :=
  .liftExcept do
    let k ← (Value.list vs).index 1
    let v ← (Value.list vs).index 4
    .ok (.list [k, v])

/-- A literal, by its string. -/
def word (s : String) : Recipe := .given (.literal (text s))

def pattern (s : String) : Recipe := .ready (Parser.regex (text s))

/-- The recipe, or nothing. -/
def optional (p : Recipe) : Recipe := .first [p, .given (.lift (.str []))]

/-- One or more items. Strict: further ones follow a separator each. Loose: each
one may be followed by a separator. -/
def items (strict : Bool) (item : Recipe) : Recipe :=
  if strict then
    .pipeTo [item, .many (.pipeTo [word ",", item] (Parser.itemOf 1))] consItems
  else
    .many1 (.pipeTo [item, optional (word ",")] (Parser.itemOf 0))

def whitespaceRecipe : Recipe := pattern "^[ \\t\\n\\r]*"

def numberRecipe : Recipe :=
  let digits := .given Parser.digits
  let zero := .given (.char (text "0"))
  let oneToNine := .given (.satisfy (·.between '1' '9'))
  let fraction := .joinAll [word ".", digits] []
  let exponent :=
    .joinAll [.first [word "e", word "E"], .first [word "+", word "-", .given (.lift (.str []))],
      digits] []
  .chainTo
    (.joinAll [optional (word "-"), .first [zero, .joinAll [oneToNine, digits] []],
      optional fraction, optional exponent] [])
    Parser.toNumber

/-- The pieces of a string: raw code points, the escaped solidus, the other
escaped letters, and escaped code units. -/
def stringPieces : List Recipe :=
  [pattern "^[^\"\\\\\\x00-\\x1f]+",
    .map (word "\\/") fun _ => .ok (.str (text "/")),
    .pipeTo [word "\\", .first (escapeValues.map fun e => .given (.literal e.1))]
      (itemWith 1 escapeValue),
    .pipeTo [word "\\u", pattern "^[0-9a-fA-F]\x7b4\x7d"] (itemWith 1 unitValue)]

def stringBody (combine : Bool) : Recipe :=
  let body := .join (.many1 (.first stringPieces)) []
  if combine then .map body Value.combine else body

def stringRecipe (combine : Bool) : Recipe :=
  .first [.pipeTo [word "\"", word "\""] fun _ => .lift (.str []),
    .pipeTo [word "\"", stringBody combine, word "\""] (Parser.itemOf 1)]

namespace Grammar

variable (g : Grammar)

/-- A rule as it stands in the recipe of another one. -/
def rule (r : Rule) : Recipe := .given (g.parser r)

def arrayRecipe : Recipe :=
  .first [.pipeTo [word "[", g.rule .whitespace, word "]"] fun _ => .lift (.list []),
    .pipeTo [word "[", items g.options.strict (g.rule .value), word "]"] (Parser.itemOf 1)]

/-- A pair: a key, a colon and a value. -/
def pairRecipe : Recipe :=
  .pipeTo [g.rule .whitespace, g.rule .string, g.rule .whitespace, word ":", g.rule .value]
    pairItems

def objectRecipe : Recipe :=
  .first [.pipeTo [word "\x7b", g.rule .whitespace, word "\x7d"] fun _ => .lift (.dict []),
    .pipeTo [word "\x7b", items g.options.strict g.pairRecipe, word "\x7d"]
      (itemWith 1 Value.toDict)]

def valueRecipe : Recipe :=
  .pipeTo [g.rule .whitespace,
    .first [g.rule .string, g.rule .number, g.rule .array, g.rule .object, g.rule .true,
      g.rule .false, g.rule .null],
    g.rule .whitespace] (Parser.itemOf 1)

/-- The recipe of a rule. -/
def recipe : Rule → Recipe
  | .whitespace => whitespaceRecipe
  | .number => numberRecipe
  | .string => stringRecipe g.options.combine
  | .array => g.arrayRecipe
  | .object => g.objectRecipe
  | .value => g.valueRecipe
  | r => g.rule r

/-- The cell of a lazy rule that is not built yet. -/
def cell (r : Rule) : LazyCell :=
  { label := text r.name, builder := ⟨none, 0, [], g.recipe r⟩ }

/-- A new grammar: nothing of it is built. -/
def create (options : Options) : Eval Grammar := do
  let s ← get
  let g : Grammar := ⟨options, s.lazies.size⟩
  set { s with lazies := s.lazies ++ (Rule.lazyRules.map g.cell).toArray }
  pure g

end Grammar

end Json

end Descent
