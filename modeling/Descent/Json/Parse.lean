import Descent.Run

/-!
# Parsing JSON texts

A JSON text is parsed from end to end by the value rule of a grammar. The fault is
that of the value rule: no parse, a parse that leaves something, or a nesting that
is too deep.
-/

namespace Descent

namespace Json

namespace Grammar

/-- The value of a whole text. -/
def parseText (g : Grammar) (e : Entry) (t : Text) : Eval Value :=
  (g.parser .value).tryParse e t true

/-- The outcomes at the start of a text. -/
def parseStart (g : Grammar) (e : Entry) (t : Text) : Eval (List Outcome) :=
  (g.parser .value).parse e t

end Grammar

/-- The value of a whole text, by a new grammar. -/
def parse (options : Options) (t : Text) : Except Fault Value :=
  let parsed : Eval Value := do
    let g ← Grammar.create options
    g.parseText (.ofDepth depthLimit) t
  match parsed.run {} with
  | .ok v _ => .ok v
  | .error f _ => .error f

end Json

end Descent
