import Descent.Json.Rule

/-!
# Recipes

A recipe makes a parser: each time it is carried out it makes new lazy parsers
and choices. What a chain or a pipe is given may use parsers of its own
(`inner`), which are made once, together with it.

The builder of a lazy parser carries out steps first and then its body, so it may
define, run and change parsers; it may also be one that fails a number of times.
-/

namespace Descent

/-- How a parser is run: through what it keeps for its entry, through the method
of its kind, for a value of the whole text, or for a value of a part of it. -/
inductive Mode where
  | stored
  | method
  | whole
  | part
deriving DecidableEq

mutual

inductive Recipe where
  /-- A parser that needs no making, or the fault that making it ends in. -/
  | ready (r : Except Fault Parser)
  /-- The parser of that name. -/
  | named (name : String)
  /-- A rule of a grammar that is named, or else of a new one. -/
  | rule (grammar : Option String) (options : Json.Options) (rule : Json.Rule)
  | map (of : Recipe) (f : Value → Except Fault Value)
  | chain (of : Recipe) (inner : List Recipe) (next : List Parser → Value → Parser)
  | many (of : Recipe)
  | first (of : List Recipe)
  | pipe (of : List Recipe) (inner : List Recipe) (handler : List Parser → List Value → Parser)
  /-- A lazy parser. Its builder counts its starts under `id`, fails the first
  `failTimes` times, and then carries out the steps and the body. -/
  | lazy (label : Text) (id : Option Int) (failTimes : Nat) (before : List Step) (body : Recipe)

inductive Step where
  | define (name : String) (p : Recipe)
  | grammar (name : String) (options : Json.Options)
  /-- Switches the trace on or off. -/
  | trace (on : Bool)
  | run (p : Recipe) (cur : Text) (mode : Mode)
  /-- Adds an alternative to a choice. -/
  | add (p alternative : Recipe)
  | describe (p : Recipe)
  | isBuilt (p : Recipe)
  /-- Builds a lazy parser if need be, and describes what it is built to. -/
  | force (p : Recipe)
  /-- How many times the builders with that number were started. -/
  | starts (id : Int)

end

namespace Recipe

def given (p : Parser) : Recipe := .ready (.ok p)

def many1 (of : Recipe) : Recipe :=
  .chain (.many of) [] fun _ v =>
    match v with
    | .list [] => .fail
    | v => .lift v

def join (of : Recipe) (separator : Text) : Recipe := .map of (Value.join separator)

def joinAll (of : List Recipe) (separator : Text) : Recipe :=
  .pipe of [] fun _ vs => .liftExcept (Value.joinItems separator vs)

/-- A pipe whose handler uses no parsers of its own. -/
def pipeTo (of : List Recipe) (handler : List Value → Parser) : Recipe :=
  .pipe of [] fun _ => handler

/-- A chain whose function uses no parsers of its own. -/
def chainTo (of : Recipe) (next : Value → Parser) : Recipe := .chain of [] fun _ => next

end Recipe

end Descent
