import Descent.Value.Functions

/-!
# Parsers

A parser reads the remaining input and makes any number of outcomes, each with a
value and what remains after it; no outcome means no parse. A parser made of a
plain function carries a name. A lazy parser and an ordered choice are cells of a
store and are known here by their numbers: a lazy parser is built on its first
use, and a choice may grow. The other parsers are put together from parsers and
from functions of the values that these make.

What a function of values gives back is run at once, so one that ends in a fault
is one that gives back a parser which ends in it (`Parser.raise`).
-/

namespace Descent

/-- One result of a parser. -/
structure Outcome where
  value : Value
  rest : Text

inductive Parser where
  | plain (name : Text) (run : Text → Except Fault (List Outcome))
  | lazy (cell : Nat)
  | first (cell : Nat)
  /-- The values are changed. -/
  | map (p : Parser) (f : Value → Except Fault Value)
  /-- After each outcome the parser of its value reads on. -/
  | chain (p : Parser) (f : Value → Parser)
  /-- The first outcomes of a parser that reads again and again, as one list. -/
  | many (p : Parser)
  /-- Parsers one after the other, then the parser of the list of their values. -/
  | pipe (ps : List Parser) (handler : List Value → Parser)

namespace Parser

/-- The name of the kind of a parser, as messages give it. -/
def kindName : Parser → String
  | .lazy _ => "Lazy"
  | .first _ => "First"
  | _ => "Parser"

/-- Always the value, and nothing is consumed. -/
def lift (v : Value) : Parser := .plain (text "lift") fun cur => .ok [⟨v, cur⟩]

/-- Never an outcome. -/
def fail : Parser := .plain (text "fail") fun _ => .ok []

/-- Always the fault. -/
def raise (f : Fault) : Parser := .plain (text "raise") fun _ => .error f

/-- The parser, or the one that ends in the fault. -/
def ofExcept (r : Except Fault Parser) : Parser :=
  match r with
  | .ok p => p
  | .error f => raise f

/-- The value without reading, or the fault. -/
def liftExcept (r : Except Fault Value) : Parser := ofExcept (r.map lift)

/-- The first code point. -/
def oneChar : Parser := .plain (text "one_char") fun cur =>
  match cur with
  | [] => .ok []
  | c :: rest => .ok [⟨.str [c], rest⟩]

/-- A test of a code point, which may end in a fault. -/
abbrev CharTest := CodePoint → Except Fault Bool

/-- One code point that passes the test. -/
def check (test : CharTest) : Parser := .chain oneChar fun v =>
  match v with
  | .str [c] =>
    match test c with
    | .ok true => lift v
    | .ok false => fail
    | .error f => raise f
  | _ => fail

/-- One code point of the kind. -/
def satisfy (test : CodePoint → Bool) : Parser := check fun c => .ok (test c)

/-- The code point that is all of the text; a text of any other length has none. -/
def char (t : Text) : Parser := satisfy fun c => decide ([c] = t)

/-- The text itself. -/
def literal (t : Text) : Parser := .plain (text "literal:" ++ t) fun cur =>
  match Text.after? t cur with
  | some rest => .ok [⟨.str t, rest⟩]
  | none => .ok []

/-- One or more times: as `many`, but an empty list is no parse. -/
def many1 (p : Parser) : Parser := .chain (.many p) fun v =>
  match v with
  | .list [] => fail
  | v => lift v

/-- The parts of each value joined into one text. -/
def join (p : Parser) (separator : Text) : Parser := .map p (Value.join separator)

/-- Parsers one after the other, their texts joined into one. -/
def joinAll (ps : List Parser) (separator : Text) : Parser :=
  .pipe ps fun vs => liftExcept (Value.joinItems separator vs)

def digit : Parser := satisfy CodePoint.isDigit

def letter : Parser := satisfy CodePoint.isLetter

/-- All digits that come next, as a text. -/
def digits : Parser := join (.many digit) []

/-- A natural number of at least one digit. -/
def naturalNum : Parser := .map (join (many1 digit) []) Value.toInt

/-- The name of a parser or a lazy parser: the one given unless it is empty, else
that of the function it is made of. -/
def label (name functionName : Option Text) : Text :=
  match name, functionName with
  | some (c :: t), _ => c :: t
  | _, some t => t
  | _, none => text "?"

/-- An outcome for each pair whose number of code points can be dropped. -/
def outcomes (name : Text) (results : List (Value × Nat)) : Parser := .plain name fun cur =>
  .ok <| results.filterMap fun (v, n) =>
    if n ≤ cur.length then some ⟨v, cur.drop n⟩ else none

/-- The text as the value, and in front of the input. -/
def push (name : Text) (t : Text) : Parser := .plain name fun cur => .ok [⟨.str t, t ++ cur⟩]

/-- A parser without a parsing function. -/
def undefined : Parser := .plain (text "?") fun _ => .error .notImplemented

end Parser

end Descent
