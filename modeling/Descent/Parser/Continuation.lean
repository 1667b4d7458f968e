import Descent.Number.Literal
import Descent.Parser.Basic

/-!
# What follows an outcome

Functions from the value of an outcome, or from the values of several, to the
parser that reads on: those that `chain` and `pipe` are given.
-/

namespace Descent

namespace Parser

/-- The binary64 number of a number literal; any other text is no parse. -/
def toNumber : Value → Parser
  | .str t =>
    match NumberLiteral.read? t with
    | some l => lift (.float l.toBinary64)
    | none => fail
  | v => raise (.unsuitable .subject v.typeName)

/-- The literal that a text is. -/
def literalOf : Value → Parser
  | .str t => literal t
  | v => raise (.unsuitable .opening v.typeName)

/-- The code point that a text is. -/
def charOf : Value → Parser
  | .str t => char t
  | _ => satisfy fun _ => false

/-- As many code points as a number says, as one text. -/
def takeCount (v : Value) : Parser :=
  match v.toInt with
  | .ok (.int n) => joinAll (List.replicate n.toNat oneChar) []
  | .ok v => raise (.unsuitable .integer v.typeName)
  | .error f => raise f

/-- `yes` after the text, and `no` after any other value. -/
def ifText (t : Text) (yes no : Parser) : Value → Parser
  | .str s => if s = t then yes else no
  | _ => no

/-- The next value in a list after this one. -/
def pairWith (p : Parser) (v : Value) : Parser := .map p fun w => .ok (.list [v, w])

/-- The list of the values. -/
def listOf (vs : List Value) : Parser := lift (.list vs)

def itemOf (i : Int) (vs : List Value) : Parser := liftExcept ((Value.list vs).index i)

/-- The texts joined into one. -/
def textOf (separator : Text) (vs : List Value) : Parser :=
  liftExcept (Value.joinItems separator vs)

/-- The literal of the texts joined into one. -/
def literalOfItems (vs : List Value) : Parser :=
  match Value.joinItems [] vs with
  | .ok v => literalOf v
  | .error f => raise f

end Parser

namespace Parser.CharTest

/-- Between two texts, by code points, both included. -/
def range (lo hi : Text) : CharTest := fun c => .ok (Text.le lo [c] && Text.le [c] hi)

def oneOf (t : Text) : CharTest := fun c => .ok (t.contains c)

def not (test : CharTest) : CharTest := fun c => (test c).map (!·)

def always (b : Bool) : CharTest := fun _ => .ok b

def raise (f : Fault) : CharTest := fun _ => .error f

end Parser.CharTest

end Descent
