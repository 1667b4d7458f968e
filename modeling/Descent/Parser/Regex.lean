import Descent.Parser.Basic
import Descent.Pattern.Reader
import Descent.Pattern.Search

/-!
# Parsers of patterns

The parser of a pattern takes its leftmost match, wherever in the input that is:
the value is the text of a group and what remains is what follows the whole
match. A group that the pattern does not have is noticed only when there is a
match.
-/

namespace Descent

namespace Regex

/-- The text of a group of a match, if the pattern has the group. -/
def groupText? (r : Regex) (key : GroupKey) (f : Found) : Option Text :=
  match r.groupNumber? key with
  | none => none
  | some 0 => some f.text
  | some (n + 1) => some (f.groupText (n + 1))

def outcomes (r : Regex) (key : GroupKey) (cur : Text) : Except Fault (List Outcome) :=
  match r.pattern.search? cur with
  | none => .ok []
  | some f =>
    match r.groupText? key f with
    | some t => .ok [⟨.str t, f.last.rest⟩]
    | none => .error .noSuchGroup

end Regex

namespace Parser

/-- The parser of a written pattern. -/
def regex (pattern : Text) (key : Regex.GroupKey := .number 0) (flags : PatternFlags := {}) :
    Except Fault Parser :=
  match Regex.read flags pattern with
  | .ok r => .ok (.plain (text "regex:" ++ pattern) (r.outcomes key))
  | .error .malformed => .error .badPattern
  | .error .tooManyRounds => .error .tooManyRounds

end Parser

end Descent
