import Descent.Text.Case

/-!
# Patterns

A pattern says which stretches of a text match. The line anchors `start` and
`stop` look at the neighbours of a place and consume nothing. A repetition of a
single set is a `span`, every other repetition is `repeated`. Groups are numbered
from one, in the order of their opening brackets.

Positions are `Place`s: the number of code points before it, the last one of them
and the rest of the text.
-/

namespace Descent

/-- A set of code points: those in some range, or with `negated` those in none.
With `ignoreCase` a code point counts as each of its variants. -/
structure CharSet where
  ranges : List (CodePoint × CodePoint)
  negated : Bool
  ignoreCase : Bool
deriving DecidableEq

namespace CharSet

def inRanges (s : CharSet) (c : CodePoint) : Bool :=
  s.ranges.any fun (lo, hi) => decide (lo.val ≤ c.val) && decide (c.val ≤ hi.val)

def contains (s : CharSet) (c : CodePoint) : Bool :=
  (if s.ignoreCase then c.variants.any s.inRanges else s.inRanges c) != s.negated

end CharSet

inductive Pattern where
  /-- Matches the empty text. -/
  | empty
  /-- Matches one code point of the set. -/
  | set (s : CharSet)
  /-- The start of the text, or with `everyLine` of a line. -/
  | start (everyLine : Bool)
  /-- The end of the text or before a line feed that ends it, or with `everyLine`
  the end of a line. -/
  | stop (everyLine : Bool)
  | seq (p q : Pattern)
  | alt (p q : Pattern)
  | group (number : Nat) (p : Pattern)
  /-- At least `least` and at most `most` code points of the set. -/
  | span (s : CharSet) (least : Nat) (most : Option Nat) (greedy : Bool)
  /-- At least `least` and at most `most` matches of the pattern. -/
  | repeated (p : Pattern) (least : Nat) (most : Option Nat) (greedy : Bool)
deriving DecidableEq

namespace Pattern

/-- One pattern after the other; nothing after a pattern is the pattern itself. -/
def andThen (p q : Pattern) : Pattern :=
  match q with
  | .empty => p
  | q => .seq p q

/-- A repetition, which is a span if a set is repeated. -/
def repetition (p : Pattern) (least : Nat) (most : Option Nat) (greedy : Bool) : Pattern :=
  match p with
  | .set s => .span s least most greedy
  | p => .repeated p least most greedy

/-- Every match starts at the start of the text. -/
def isAnchored : Pattern → Bool
  | .start everyLine => !everyLine
  | .seq p _ => p.isAnchored
  | .alt p q => p.isAnchored && q.isAnchored
  | .group _ p => p.isAnchored
  | _ => false

end Pattern

structure Place where
  index : Nat
  previous : Option CodePoint
  rest : Text
deriving DecidableEq

namespace Place

/-- The place before the whole text. -/
def first (t : Text) : Place := ⟨0, none, t⟩

/-- The place after `c`, where `rest` follows. -/
def after (s : Place) (c : CodePoint) (rest : Text) : Place := ⟨s.index + 1, some c, rest⟩

def isLineFeed (c : CodePoint) : Bool := decide (c.val = 10)

def isStart (everyLine : Bool) (s : Place) : Bool :=
  match s.previous with
  | none => true
  | some c => everyLine && isLineFeed c

def isStop (everyLine : Bool) (s : Place) : Bool :=
  match s.rest with
  | [] => true
  | [c] => isLineFeed c
  | c :: _ :: _ => everyLine && isLineFeed c

end Place

end Descent
