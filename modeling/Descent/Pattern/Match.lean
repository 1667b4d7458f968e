import Descent.Pattern.Search

/-!
# Matches of a pattern

`Match p s g s' g'` says that `p` matches the text between the places `s` and
`s'`, and that the captures `g` before the match are `g'` after it. It says which
matches there are and nothing about the order in which they are tried. `Rounds`
is a number of matches one after the other.
-/

namespace Descent

namespace Pattern

mutual

inductive Match : Pattern → Place → Captures → Place → Captures → Prop where
  | empty {s : Place} {g : Captures} : Match .empty s g s g
  | set {c : CharSet} {s : Place} {g : Captures} {x : CodePoint} {t : Text} :
      s.rest = x :: t → c.contains x = true → Match (.set c) s g (s.after x t) g
  | start {everyLine : Bool} {s : Place} {g : Captures} :
      s.isStart everyLine = true → Match (.start everyLine) s g s g
  | stop {everyLine : Bool} {s : Place} {g : Captures} :
      s.isStop everyLine = true → Match (.stop everyLine) s g s g
  | seq {p q : Pattern} {s u v : Place} {g h k : Captures} :
      Match p s g u h → Match q u h v k → Match (.seq p q) s g v k
  | left {p q : Pattern} {s u : Place} {g h : Captures} :
      Match p s g u h → Match (.alt p q) s g u h
  | right {p q : Pattern} {s u : Place} {g h : Captures} :
      Match q s g u h → Match (.alt p q) s g u h
  | group {n : Nat} {p : Pattern} {s u : Place} {g h : Captures} :
      Match p s g u h → Match (.group n p) s g u (⟨n, s.rest, u.index - s.index⟩ :: h)
  | span {c : CharSet} {least : Nat} {most : Option Nat} {greedy : Bool} {n : Nat}
      {s u : Place} {g h : Captures} :
      least ≤ n → (∀ m ∈ most, n ≤ max least m) → Rounds (.set c) n s g u h →
      Match (.span c least most greedy) s g u h
  | repeated {p : Pattern} {least : Nat} {most : Option Nat} {greedy : Bool} {n : Nat}
      {s u : Place} {g h : Captures} :
      least ≤ n → (∀ m ∈ most, n ≤ max least m) → Rounds p n s g u h →
      Match (.repeated p least most greedy) s g u h

inductive Rounds : Pattern → Nat → Place → Captures → Place → Captures → Prop where
  | none {p : Pattern} {s : Place} {g : Captures} : Rounds p 0 s g s g
  | next {p : Pattern} {n : Nat} {s u v : Place} {g h k : Captures} :
      Match p s g u h → Rounds p n u h v k → Rounds p (n + 1) s g v k

end

/-- The places of a text, from its start to its end. -/
inductive PlaceOf (t : Text) : Place → Prop where
  | first : PlaceOf t (.first t)
  | after {s : Place} {x : CodePoint} {r : Text} :
      PlaceOf t s → s.rest = x :: r → PlaceOf t (s.after x r)

end Pattern

end Descent
