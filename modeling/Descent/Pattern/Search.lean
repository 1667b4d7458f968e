import Descent.Pattern.Basic

/-!
# Searching for a match

`Pattern.run` tries the ways in which a pattern matches at a place one after the
other and hands each of them on, until what follows accepts one: greedy
repetitions try more rounds before fewer, and lazy ones fewer before more. In a
repetition a round that consumes nothing is the last one. `search` takes the
leftmost place at which there is a match, and of its matches the first one.
-/

namespace Descent

/-- Where a group matched last: the text that starts there, and the length. -/
structure Capture where
  number : Nat
  start : Text
  length : Nat
deriving DecidableEq

namespace Capture

def text (c : Capture) : Text := c.start.take c.length

end Capture

/-- The captures so far, the newest first. -/
abbrev Captures := List Capture

namespace Pattern

/-- What is done with a match: it ends at that place, with these captures. -/
abbrev Next (α : Type) := Place → Captures → Option α

/-- Exactly `n` rounds of `body`. -/
def rounds {α : Type} (body : Place → Captures → Next α → Option α) :
    Nat → Place → Captures → Next α → Option α
  | 0, s, g, next => next s g
  | n + 1, s, g, next => body s g fun s g => rounds body n s g next

@[simp] theorem rounds_zero {α : Type} (body : Place → Captures → Next α → Option α)
    (s : Place) (g : Captures) (next : Next α) : rounds body 0 s g next = next s g := rfl

theorem rounds_succ {α : Type} (body : Place → Captures → Next α → Option α) (n : Nat)
    (s : Place) (g : Captures) (next : Next α) :
    rounds body (n + 1) s g next = body s g fun s g => rounds body n s g next := rfl

/-- Up to `n` rounds of `body`; one that consumes nothing is the last. -/
def upTo {α : Type} (greedy : Bool) (body : Place → Captures → Next α → Option α) :
    Nat → Place → Captures → Next α → Option α
  | 0, s, g, next => next s g
  | n + 1, s, g, next =>
    let more : Unit → Option α := fun _ => body s g fun s' g' =>
      if s'.index = s.index then next s' g' else upTo greedy body n s' g' next
    if greedy then
      match more () with
      | some r => some r
      | none => next s g
    else
      match next s g with
      | some r => some r
      | none => more ()

@[simp] theorem upTo_zero {α : Type} (greedy : Bool)
    (body : Place → Captures → Next α → Option α) (s : Place) (g : Captures) (next : Next α) :
    upTo greedy body 0 s g next = next s g := rfl

/-- The places after none, one, and up to `most` code points of the set, put in
front of those given, so that the farthest comes first. -/
def spanPlaces (c : CharSet) : Option Nat → Nat → Option CodePoint → Text → List Place → List Place
  | _, index, previous, [], places => ⟨index, previous, []⟩ :: places
  | most, index, previous, x :: t, places =>
    if most = some 0 || !c.contains x then ⟨index, previous, x :: t⟩ :: places
    else spanPlaces c (most.map (· - 1)) (index + 1) (some x) t
      (⟨index, previous, x :: t⟩ :: places)

/-- The place after `n` code points of the set. -/
def skip? (c : CharSet) : Nat → Place → Option Place
  | 0, s => some s
  | n + 1, s =>
    match s.rest with
    | [] => none
    | x :: t => if c.contains x then skip? c n (s.after x t) else none

/-- The optional rounds of a repetition; more than one for every code point that
is left, and one that consumes nothing, cannot be. -/
def optionalRounds (least : Nat) (most : Option Nat) (left : Nat) : Nat :=
  match most with
  | some m => min (m - least) (left + 1)
  | none => left + 1

def run {α : Type} : Pattern → Place → Captures → Next α → Option α
  | .empty, s, g, next => next s g
  | .set c, s, g, next =>
    match s.rest with
    | [] => none
    | x :: t => if c.contains x then next (s.after x t) g else none
  | .start everyLine, s, g, next => if s.isStart everyLine then next s g else none
  | .stop everyLine, s, g, next => if s.isStop everyLine then next s g else none
  | .seq p q, s, g, next => p.run s g fun s g => q.run s g next
  | .alt p q, s, g, next =>
    match p.run s g next with
    | some r => some r
    | none => q.run s g next
  | .group n p, s, g, next =>
    p.run s g fun s' g' => next s' (⟨n, s.rest, s'.index - s.index⟩ :: g')
  | .span c least most greedy, s, g, next =>
    match skip? c least s with
    | none => none
    | some s =>
      let places := spanPlaces c (most.map (· - least)) s.index s.previous s.rest []
      (if greedy then places else places.reverse).findSome? fun s => next s g
  | .repeated p least most greedy, s, g, next =>
    rounds p.run least s g fun s g =>
      upTo greedy p.run (optionalRounds least most s.rest.length) s g next

/-- The first match at the place: where it ends, and its captures. -/
def matchAt? (p : Pattern) (s : Place) : Option (Place × Captures) :=
  p.run s [] fun s g => some (s, g)

end Pattern

/-- A match of a pattern in a text. -/
structure Found where
  first : Place
  last : Place
  captures : Captures
deriving DecidableEq

namespace Found

/-- The matched text. -/
def text (f : Found) : Text := f.first.rest.take (f.last.index - f.first.index)

/-- The text of a group, which is empty if the group took no part. -/
def groupText (f : Found) (number : Nat) : Text :=
  match f.captures.find? fun c => c.number = number with
  | some c => c.text
  | none => []

end Found

namespace Pattern

/-- The match at the leftmost place from `s` on that has one. -/
def searchFrom? (p : Pattern) : Nat → Option CodePoint → Text → Option Found
  | index, previous, t =>
    match p.matchAt? ⟨index, previous, t⟩ with
    | some (last, captures) => some ⟨⟨index, previous, t⟩, last, captures⟩
    | none =>
      match t with
      | [] => none
      | c :: t => searchFrom? p (index + 1) (some c) t

/-- The leftmost match in the text. An anchored pattern is tried at the start only. -/
def search? (p : Pattern) (t : Text) : Option Found :=
  if p.isAnchored then
    (p.matchAt? (.first t)).map fun (last, captures) => ⟨.first t, last, captures⟩
  else p.searchFrom? 0 none t

end Pattern

end Descent
