import Descent.Recipe

/-!
# The store

The store holds the lazy parsers and the ordered choices, the parsers and
grammars that have names, and the trace. A lazy parser is idle, or its builder is
running, or it is built for good. `Eval` is a computation over a store that may
end in a fault; the changes made before the fault stay.
-/

namespace Descent

/-- The builder of a lazy parser. -/
structure Builder where
  id : Option Int
  failTimes : Nat
  before : List Step
  body : Recipe

inductive Phase where
  | idle
  | building
  /-- Built to `parser`; `entry` is what is run when the lazy parser is entered. -/
  | built (parser entry : Parser)

structure LazyCell where
  label : Text
  builder : Builder
  phase : Phase := .idle
  /-- How many times the builder was started. -/
  starts : Nat := 0
  /-- How many of these starts ended in a fault. -/
  failures : Nat := 0

structure Store where
  lazies : Array LazyCell := #[]
  choices : Array (List Parser) := #[]
  names : List (String × Parser) := []
  grammars : List (String × Json.Grammar) := []
  tracing : Bool := false
  /-- The pieces of the trace, the newest first. -/
  pieces : List Text := []
  /-- How many times a parser was not entered because the depth was used up. -/
  overruns : Nat := 0
  /-- How many times the trace was switched on or off. -/
  switches : Nat := 0

abbrev Eval := EStateM Fault Store

namespace LazyCell

def isBuilt (c : LazyCell) : Bool :=
  match c.phase with
  | .built _ _ => true
  | _ => false

def isBuilding (c : LazyCell) : Bool :=
  match c.phase with
  | .building => true
  | _ => false

/-- How a lazy parser is described. -/
def description (c : LazyCell) : Text := text "<Lazy:" ++ c.label ++ text ">"

end LazyCell

namespace Store

/-- The lines of the trace. -/
def trace (s : Store) : List Text := Text.lines s.pieces.reverse.flatten

/-- The value under a name, the newest first. -/
def lookup? {α : Type} (name : String) (entries : List (String × α)) : Option α :=
  (entries.find? fun e => e.1 = name).map Prod.snd

/-- The starts of all builders with that number. -/
def startsOf (s : Store) (id : Int) : Nat :=
  s.lazies.foldl (fun n c => if c.builder.id = some id then n + c.starts else n) 0

end Store

namespace Eval

def ofExcept {α : Type} (r : Except Fault α) : Eval α :=
  match r with
  | .ok a => pure a
  | .error f => throw f

def lazyCell (c : Nat) : Eval LazyCell := do
  match (← get).lazies[c]? with
  | some cell => pure cell
  | none => throw .noCell

/-- How a lazy parser is described, which is by its cell. -/
def describeLazy (c : Nat) : Eval Text := do
  let s ← get
  pure (s.lazies[c]?.elim [] LazyCell.description)

def modifyLazy (c : Nat) (f : LazyCell → LazyCell) : Eval Unit :=
  modify fun s => { s with lazies := s.lazies.modify c f }

def setPhase (c : Nat) (phase : Phase) : Eval Unit :=
  modifyLazy c fun cell => { cell with phase := phase }

/-- The alternatives of a choice. -/
def alternatives (c : Nat) : Eval (List Parser) := do
  match (← get).choices[c]? with
  | some ps => pure ps
  | none => throw .noCell

/-- The alternatives by which a choice is described. -/
def listed (c : Nat) : Eval (List Parser) := do
  let s ← get
  pure (s.choices[c]?.getD [])

/-- A new lazy parser. -/
def newLazy (label : Text) (builder : Builder) : Eval Parser := do
  let s ← get
  set { s with lazies := s.lazies.push { label := label, builder := builder } }
  pure (.lazy s.lazies.size)

/-- A new choice. -/
def newChoice (ps : List Parser) : Eval Parser := do
  let s ← get
  set { s with choices := s.choices.push ps }
  pure (.first s.choices.size)

def addAlternative (c : Nat) (p : Parser) : Eval Unit :=
  modify fun s => { s with choices := s.choices.modify c (· ++ [p]) }

def parserNamed (name : String) : Eval Parser := do
  match Store.lookup? name (← get).names with
  | some p => pure p
  | none => throw (.missingKey (.str (text name)))

def grammarNamed (name : String) : Eval Json.Grammar := do
  match Store.lookup? name (← get).grammars with
  | some g => pure g
  | none => throw (.missingKey (.str (text name)))

def write (t : Text) : Eval Unit := modify fun s => { s with pieces := t :: s.pieces }

/-- Switches the trace on or off. -/
def switchTrace (on : Bool) : Eval Unit :=
  modify fun s => { s with tracing := on, switches := s.switches + 1 }

/-- A line of the trace of two words, if the trace is on. The second word is found
only after the first one is written. -/
def traceLine (head : Text) (last : Eval Text) : Eval Unit := do
  if (← get).tracing then
    write (head ++ text " ")
    let t ← last
    write (t ++ text "\n")

/-- No depth is left. -/
def overrun {α : Type} : Eval α := do
  modify fun s => { s with overruns := s.overruns + 1 }
  throw .depthExceeded

end Eval

end Descent
