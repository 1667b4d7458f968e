import Descent.Pattern.Basic
import Descent.Text.Identifier

/-!
# Written patterns

The reader of patterns: literals and escaped characters, `.`, sets in square
brackets, groups `( )`, `(?: )` and `(?P<name> )`, the bar, the repetitions
`*`, `+`, `?` and those that give their numbers in curly brackets, each of them
lazy if a question mark follows, and the anchors `^` and `$`. A curly bracket
that opens no repetition stands for itself.

A repetition needs an item to repeat, and the item is no bare anchor and no bare
repetition. A group may be repeated whatever it holds.
-/

namespace Descent

/-- How a pattern is read: with `ignoreCase` letters match in either case, with
`everyLine` the anchors stand at every line, with `dotAll` the dot is any code
point at all. -/
structure PatternFlags where
  ignoreCase : Bool := false
  everyLine : Bool := false
  dotAll : Bool := false
deriving DecidableEq

/-- A pattern with the number of its groups and the names of some of them. -/
structure Regex where
  pattern : Pattern
  groups : Nat
  names : List (Text × Nat)
deriving DecidableEq

namespace Regex

/-- What is left to read, and the groups so far. -/
structure ReadState where
  rest : Text
  groups : Nat := 0
  names : List (Text × Nat) := []

/-- Why a text is not read as a pattern. -/
inductive Refusal where
  | malformed
  | tooManyRounds
deriving DecidableEq

abbrev Reader := StateT ReadState (Except Refusal)

def refuse {α : Type} : Reader α := throw .malformed

def isChar (ch : Char) (c : CodePoint) : Bool := decide (c = CodePoint.ofChar ch)

/-- Skips the string if it comes next. -/
def accept (s : String) : Reader Bool := do
  let state ← get
  match Text.after? (text s) state.rest with
  | some rest =>
    set { state with rest := rest }
    pure true
  | none => pure false

def expect (s : String) : Reader Unit := do
  if !(← accept s) then refuse

def peek? : Reader (Option CodePoint) := do
  return (← get).rest.head?

def next : Reader CodePoint := do
  let state ← get
  match state.rest with
  | [] => refuse
  | c :: rest =>
    set { state with rest := rest }
    pure c

/-- The code points in front that satisfy the test. -/
def takeWhile (test : CodePoint → Bool) : Reader Text := do
  let state ← get
  set { state with rest := state.rest.dropWhile test }
  pure (state.rest.takeWhile test)

/-- The number that `n` hexadecimal digits denote, after those read so far. -/
def hexNumber : Nat → Nat → Reader Nat
  | 0, value => pure value
  | n + 1, value => do
    match (← next).hexValue? with
    | some d => hexNumber n (16 * value + d)
    | none => refuse

/-- What follows a backslash. A letter or digit that has no meaning is refused. -/
def escape : Reader CodePoint := do
  let c ← next
  if isChar 'n' c then pure (CodePoint.ofChar '\n')
  else if isChar 't' c then pure (CodePoint.ofChar '\t')
  else if isChar 'r' c then pure (CodePoint.ofChar '\r')
  else if isChar 'f' c then pure (CodePoint.ofNat 12)
  else if isChar 'v' c then pure (CodePoint.ofNat 11)
  else if isChar 'a' c then pure (CodePoint.ofNat 7)
  else if isChar 'x' c then return CodePoint.ofNat (← hexNumber 2 0)
  else if isChar 'u' c then return CodePoint.ofNat (← hexNumber 4 0)
  else if c.isLetter || c.isDigit then refuse
  else pure c

/-- A code point of a set, escaped or not. -/
def setChar : Reader CodePoint := do
  let c ← next
  if isChar '\\' c then escape else pure c

/-- The ranges of a set up to its closing bracket, after those read so far. A
closing bracket that comes first stands for itself, and so does a hyphen that
comes last. -/
def setRanges : Nat → List (CodePoint × CodePoint) → Reader (List (CodePoint × CodePoint))
  | 0, _ => refuse
  | fuel + 1, ranges => do
    let closed ← if ranges.isEmpty then pure false else accept "]"
    if closed then return ranges.reverse
    let lo ← setChar
    if ← accept "-" then
      if ← accept "]" then
        return ((CodePoint.ofChar '-', CodePoint.ofChar '-') :: (lo, lo) :: ranges).reverse
      let hi ← setChar
      if hi.val < lo.val then refuse
      setRanges fuel ((lo, hi) :: ranges)
    else setRanges fuel ((lo, lo) :: ranges)

/-- Least and greatest number of a repetition. -/
structure Bounds where
  least : Nat
  most : Option Nat

/-- The least number that is too large for a bound. -/
def maxRounds : Nat := 0xFFFFFFFF

def Bounds.isTooLarge (b : Bounds) : Bool :=
  decide (maxRounds ≤ b.least) || b.most.any (maxRounds ≤ ·)

def digitsNat? (digits : Text) : Option Nat :=
  if digits.isEmpty then none
  else some (digits.foldl (fun n c => 10 * n + (c.val - 48)) 0)

/-- The bounds between curly brackets, if a repetition stands there. -/
def curlyBounds? (t : Text) : Option (Bounds × Text) := do
  let t ← Text.after? (text "\x7b") t
  if t.head?.any (isChar '\x7d') then none
  else
    let least := t.takeWhile CodePoint.isDigit
    let t := t.dropWhile CodePoint.isDigit
    let (most, t) := match Text.after? (text ",") t with
      | some t => (t.takeWhile CodePoint.isDigit, t.dropWhile CodePoint.isDigit)
      | none => (least, t)
    let t ← Text.after? (text "\x7d") t
    pure (⟨(digitsNat? least).getD 0, digitsNat? most⟩, t)

/-- The bounds of the repetition that comes next, if one does. -/
def bounds? : Reader (Option Bounds) := do
  if ← accept "*" then return some ⟨0, none⟩
  if ← accept "+" then return some ⟨1, none⟩
  if ← accept "?" then return some ⟨0, some 1⟩
  let state ← get
  match curlyBounds? state.rest with
  | some (b, rest) =>
    if b.isTooLarge then throw .tooManyRounds
    set { state with rest := rest }
    pure (some b)
  | none => pure none

/-- An item that is written with this code point first is a bare anchor. -/
def isAnchor (c : CodePoint) : Bool := isChar '^' c || isChar '$' c

/-- The item, repeated if a repetition comes next; `c` is the first code point of
what is written. -/
def withRepetition (c : CodePoint) (p : Pattern) : Reader Pattern := do
  match ← bounds? with
  | none => pure p
  | some b =>
    if isAnchor c || b.most.any (· < b.least) then refuse
    let greedy := !(← accept "?")
    if (← bounds?).isSome then refuse
    pure (p.repetition b.least b.most greedy)

/-- The name of a group and the angle bracket after it; a name is new. -/
def groupName : Reader Text := do
  let name ← takeWhile fun c => !isChar '>' c
  expect ">"
  if !name.isIdentifier then refuse
  if (← get).names.any (fun n => n.1 = name) then refuse
  pure name

/-- Counts a group that opens, under its name if it has one. -/
def openGroup (name : Option Text) : Reader Nat := do
  let state ← get
  let number := state.groups + 1
  set { state with
    groups := number, names := state.names ++ (name.toList.map fun n => (n, number)) }
  pure number

/-- What follows an opening bracket up to the content of the group: the number of a
group that captures. -/
def groupHead : Reader (Option Nat) := do
  if ← accept "?:" then return none
  if ← accept "?P<" then
    let name ← groupName
    let number ← openGroup (some name)
    return some number
  if ← accept "?" then refuse
  let number ← openGroup none
  return some number

mutual

/-- Alternatives up to a closing bracket or the end. -/
def alternatives (flags : PatternFlags) : Nat → Reader Pattern
  | 0 => refuse
  | fuel + 1 => do
    let p ← sequence flags fuel
    if ← accept "|" then
      let q ← alternatives flags fuel
      pure (.alt p q)
    else pure p

/-- Items up to a bar, a closing bracket or the end. -/
def sequence (flags : PatternFlags) : Nat → Reader Pattern
  | 0 => refuse
  | fuel + 1 => do
    match ← peek? with
    | none => pure .empty
    | some c =>
      if isChar '|' c || isChar ')' c then pure .empty
      else
        if (← bounds?).isSome then refuse
        let p ← item flags fuel
        let p ← withRepetition c p
        let q ← sequence flags fuel
        pure (p.andThen q)

/-- One item without its repetition. -/
def item (flags : PatternFlags) : Nat → Reader Pattern
  | 0 => refuse
  | fuel + 1 => do
    let c ← next
    if isChar '(' c then
      let group ← groupHead
      let p ← alternatives flags fuel
      expect ")"
      match group with
      | some number => pure (.group number p)
      | none => pure p
    else if isChar '[' c then
      let negated ← accept "^"
      let ranges ← setRanges ((← get).rest.length + 1) []
      pure (.set ⟨ranges, negated, flags.ignoreCase⟩)
    else if isChar '.' c then
      let lineFeed := CodePoint.ofChar '\n'
      pure (.set ⟨if flags.dotAll then [] else [(lineFeed, lineFeed)], true, false⟩)
    else if isChar '^' c then pure (.start flags.everyLine)
    else if isChar '$' c then pure (.stop flags.everyLine)
    else
      let c ← if isChar '\\' c then escape else pure c
      pure (.set ⟨[(c, c)], false, flags.ignoreCase⟩)

end

/-- The pattern that a text is from end to end. -/
def read (flags : PatternFlags) (t : Text) : Except Refusal Regex := do
  let (pattern, state) ← (alternatives flags (3 * t.length + 3)).run ⟨t, 0, []⟩
  if state.rest.isEmpty then .ok ⟨pattern, state.groups, state.names⟩ else .error .malformed

/-- A group by number or by name. Number zero is the whole match. -/
inductive GroupKey where
  | number (i : Int)
  | name (t : Text)
deriving DecidableEq

/-- The number of a group that the pattern has. -/
def groupNumber? (r : Regex) : GroupKey → Option Nat
  | .number i => if 0 ≤ i ∧ i ≤ r.groups then some i.toNat else none
  | .name t => (r.names.find? fun n => n.1 = t).map Prod.snd

end Regex

end Descent
