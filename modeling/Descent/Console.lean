import Descent.Json.Parse

/-!
# The console

With arguments the console parses them as one JSON text, joined by spaces, and
prints the value. Without arguments it answers its input line by line, until an
empty line: with the value, or with the fault and the outcomes at the start of
the line. A line that ends in another fault ends the console, and so does the end
of the input.
-/

namespace Descent

/-- What is printed, and the fault that ends it if there is one. -/
structure Transcript where
  printed : Text
  fault : Option Fault

namespace Console

/-- The name of a fault of parsing, which the console answers; it has no answer to
the others. -/
def faultName? : Fault → Option String
  | .noParse _ => some "ParseFailed"
  | .nestedTooDeep _ => some "ParseFailed"
  | .leftover _ _ => some "NotAllCharsUsed"
  | .notReady _ => some "LazyParserNotReady"
  | _ => none

def writtenOutcome (o : Outcome) : Text :=
  text "ParseResult(value=" ++ o.value.written ++ text ", remainder=" ++ o.rest.quoted ++ text ")"

def writtenOutcomes (os : List Outcome) : Text :=
  text "[" ++ Text.join (text ", ") (os.map writtenOutcome) ++ text "]"

def line (t : Text) : Text := t ++ text "\n"

/-- The answer to a line, and the store after it. -/
def reply (e : Entry) (g : Json.Grammar) (t : Text) (s : Store) : Transcript × Store :=
  match (g.parseText e t).run s with
  | .ok v s => (⟨line v.shown, none⟩, s)
  | .error f s =>
    match faultName? f with
    | none => (⟨[], some f⟩, s)
    | some name =>
      let report := line (text "Exception: " ++ text name ++ text ": " ++ f.message)
      match (g.parseStart e t).run s with
      | .ok os s => (⟨report ++ line (text "Partial: " ++ writtenOutcomes os), none⟩, s)
      | .error f s => (⟨report, some f⟩, s)

/-- The answers to lines up to the first empty one. -/
def converse (e : Entry) (g : Json.Grammar) : List Text → Store → Transcript
  | [], _ => ⟨[], some .endOfInput⟩
  | [] :: _, _ => ⟨[], none⟩
  | t :: ts, s =>
    match reply e g t s with
    | (⟨printed, some f⟩, _) => ⟨printed, some f⟩
    | (⟨printed, none⟩, s) =>
      let rest := converse e g ts s
      ⟨printed ++ rest.printed, rest.fault⟩

/-- The value of the arguments. -/
def answer (e : Entry) (g : Json.Grammar) (args : List Text) (s : Store) : Transcript :=
  match (g.parseText e (Text.join (text " ") args)).run s with
  | .ok v _ => ⟨line v.shown, none⟩
  | .error f _ => ⟨[], some f⟩

/-- The console on arguments and input, with the default grammar. -/
def run (args : List Text) (input : Text) : Transcript :=
  let e := Entry.ofDepth depthLimit
  match (Json.Grammar.create {}).run {} with
  | .ok g s => if args.isEmpty then converse e g input.lines s else answer e g args s
  | .error f _ => ⟨[], some f⟩

end Console

end Descent
