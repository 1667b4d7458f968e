import Descent.Console

/-!
# The command line

`main` prints the value of its arguments as one JSON text, or answers the lines of
the standard input as they come.
-/

open Descent

/-- The text for the terminal, which has no lone surrogates. -/
def shownText (t : Text) : String :=
  String.ofList (t.map fun c => (c.toChar?).getD (Char.ofNat 0xFFFD))

/-- Prints a transcript. The result is whether nothing ended it. -/
def printTranscript (t : Transcript) : IO Bool := do
  IO.print (shownText t.printed)
  match t.fault with
  | none => pure true
  | some f =>
    IO.eprintln (shownText f.message)
    pure false

/-- Answers lines until an empty one, or until something ends it. -/
partial def answerLines (e : Entry) (g : Json.Grammar) (s : Store) : IO Bool := do
  let input ← (← IO.getStdin).getLine
  if input.isEmpty then printTranscript ⟨[], some .endOfInput⟩
  else
    let t := text (if input.endsWith "\n" then (input.dropEnd 1).toString else input)
    if t.isEmpty then pure true
    else
      let (transcript, s) := Console.reply e g t s
      if ← printTranscript transcript then answerLines e g s else pure false

def main (args : List String) : IO UInt32 := do
  let e := Entry.ofDepth depthLimit
  match (Json.Grammar.create {}).run {} with
  | .ok g s =>
    let done ←
      if args.isEmpty then answerLines e g s
      else printTranscript (Console.answer e g (args.map text) s)
    pure (if done then 0 else 1)
  | .error _ _ => pure 1
