import Descent.Parser.Regex
import Descent.Proofs.Combinators

/-!
# Spans at the start of a text

A parser of single code points that is repeated takes all code points of its kind that
stand in front, at every depth and in every store.

A pattern that is a span of a set at the start of the text takes as many code
points of the set as stand in front, as far as its bounds allow, and matches if
these are enough. The three patterns of the JSON grammar are spans of this kind:
of blanks, of the code points that stand for themselves in a string, and of
hexadecimal digits.
-/

namespace Descent

namespace Parser

open Eval

variable {e : Entry} {cur : Text}

/-! ## Code points of a kind -/

theorem parse_satisfy_nil (test : CodePoint → Bool) : (satisfy test).parse e [] = pure [] := rfl

theorem parse_satisfy_cons (test : CodePoint → Bool) (c : CodePoint) (t : Text) :
    (satisfy test).parse e (c :: t) = pure (if test c then [⟨.str [c], t⟩] else []) := by
  have hone : oneChar.parse e (c :: t) = pure [⟨.str [c], t⟩] := rfl
  rw [satisfy, check, parse_chain, hone, pure_bind, collect_singleton]
  cases htest : test c <;> simp [htest]

theorem repeatedly_satisfy (test : CodePoint → Bool) (cur : Text) (values : List Value) :
    repeatedly ((satisfy test).parse e) cur values =
      pure [⟨.list (values.reverse ++ (cur.takeWhile test).map fun c => .str [c]),
        cur.dropWhile test⟩] := by
  induction cur generalizing values with
  | nil =>
      rw [repeatedly, parse_satisfy_nil, pure_bind]
      simp
  | cons c t ih =>
      rw [repeatedly, parse_satisfy_cons, pure_bind]
      cases htest : test c <;> simp [htest, ih]

/-- All code points of the kind that stand in front are read, one by one. -/
theorem parse_many_satisfy (test : CodePoint → Bool) (cur : Text) :
    (many (satisfy test)).parse e cur =
      pure [⟨.list ((cur.takeWhile test).map fun c => .str [c]), cur.dropWhile test⟩] := by
  rw [parse_many, repeatedly_satisfy, List.reverse_nil, List.nil_append]

/-- Single code points are joined into the text that they are. -/
theorem parse_join_of_parse {p : Parser} {t rest : Text}
    (h : p.parse e cur = pure [⟨.list (t.map fun c => .str [c]), rest⟩]) :
    (join p []).parse e cur = pure [⟨.str t, rest⟩] := by
  have hjoin : Value.join [] (.list (t.map fun c => .str [c])) = .ok (.str t) :=
    Value.joinItems_map_singleton t
  rw [join, parse, h, pure_bind, List.mapM_cons, hjoin]
  rfl

theorem parse_digits (cur : Text) : digits.parse e cur =
    pure [⟨.str (cur.takeWhile CodePoint.isDigit), cur.dropWhile CodePoint.isDigit⟩] :=
  parse_join_of_parse (parse_many_satisfy CodePoint.isDigit cur)

end Parser

namespace Pattern

/-! ## Patterns -/

/-- How many code points of the set stand in front. -/
def leading (c : CharSet) (t : Text) : Nat := (t.takeWhile c.contains).length

@[simp] theorem leading_nil (c : CharSet) : leading c [] = 0 := rfl

theorem leading_cons (c : CharSet) (x : CodePoint) (t : Text) :
    leading c (x :: t) = if c.contains x then leading c t + 1 else 0 := by
  unfold leading
  rw [List.takeWhile_cons]
  split <;> rfl

theorem take_leading (c : CharSet) (t : Text) : t.take (leading c t) = t.takeWhile c.contains := by
  rw [leading, ← List.prefix_iff_eq_take.1 (List.takeWhile_prefix _)]

theorem drop_leading (c : CharSet) (t : Text) : t.drop (leading c t) = t.dropWhile c.contains := by
  have h : t = t.takeWhile c.contains ++ t.dropWhile c.contains :=
    List.takeWhile_append_dropWhile.symm
  calc t.drop (leading c t)
      = (t.takeWhile c.contains ++ t.dropWhile c.contains).drop (leading c t) := by rw [← h]
    _ = t.dropWhile c.contains := List.drop_left

theorem skip?_eq_none {c : CharSet} {n : Nat} {s : Place} (h : leading c s.rest < n) :
    skip? c n s = none := by
  induction n generalizing s with
  | zero => exact absurd h (Nat.not_lt_zero _)
  | succ n ih =>
      obtain ⟨i, prev, t⟩ := s
      cases t with
      | nil => rfl
      | cons x t =>
          simp only [leading_cons] at h
          by_cases hx : c.contains x = true
          · rw [if_pos hx] at h
            simp only [skip?, if_pos hx]
            exact ih (s := Place.after _ x t) (Nat.lt_of_succ_lt_succ h)
          · simp [skip?, hx]

theorem exists_skip? {c : CharSet} {n : Nat} {s : Place} (h : n ≤ leading c s.rest) :
    ∃ prev, skip? c n s = some ⟨s.index + n, prev, s.rest.drop n⟩ := by
  induction n generalizing s with
  | zero => exact ⟨s.previous, rfl⟩
  | succ n ih =>
      obtain ⟨i, prev, t⟩ := s
      cases t with
      | nil => exact absurd h (Nat.not_succ_le_zero n)
      | cons x t =>
          simp only [leading_cons] at h
          by_cases hx : c.contains x = true
          · rw [if_pos hx] at h
            obtain ⟨prev', hs⟩ :=
              ih (s := Place.after ⟨i, prev, x :: t⟩ x t) (Nat.le_of_succ_le_succ h)
            refine ⟨prev', ?_⟩
            simp only [skip?, if_pos hx]
            rw [hs]
            simp [Place.after, Nat.add_assoc, Nat.add_comm 1]
          · rw [if_neg hx] at h
            exact absurd h (Nat.not_succ_le_zero n)

/-- The farthest place of a span comes first. -/
theorem exists_spanPlaces (c : CharSet) (most : Option Nat) (i : Nat) (prev : Option CodePoint)
    (t : Text) (places : List Place) :
    ∃ prev' others, spanPlaces c most i prev t places =
      ⟨i + most.elim (leading c t) (min (leading c t)), prev',
        t.drop (most.elim (leading c t) (min (leading c t)))⟩ :: others := by
  induction t generalizing most i prev places with
  | nil => cases most <;> simp [spanPlaces]
  | cons x t ih =>
      by_cases hx : c.contains x = true
      · cases most with
        | none =>
            obtain ⟨prev', others, h⟩ :=
              ih none (i + 1) (some x) (⟨i, prev, x :: t⟩ :: places)
            refine ⟨prev', others, ?_⟩
            rw [spanPlaces]
            simp only [leading_cons, hx, Option.elim, Option.map_none] at h ⊢
            simpa [Nat.add_assoc, Nat.add_comm 1] using h
        | some m =>
            cases m with
            | zero => simp [spanPlaces]
            | succ m =>
                obtain ⟨prev', others, h⟩ :=
                  ih (some m) (i + 1) (some x) (⟨i, prev, x :: t⟩ :: places)
                refine ⟨prev', others, ?_⟩
                rw [spanPlaces]
                simp only [leading_cons, hx, Option.elim] at h ⊢
                simpa [Nat.add_assoc, Nat.add_comm 1, Nat.succ_min_succ] using h
      · refine ⟨prev, places, ?_⟩
        cases most <;> simp [spanPlaces, leading_cons, hx]

/-- The length of the span that a text starts with, if its bounds are `least` and
`most` and `n` code points of the set stand in front. -/
def spanLength (least : Nat) (most : Option Nat) (n : Nat) : Nat :=
  least + (most.map (· - least)).elim (n - least) (min (n - least))

theorem spanLength_none {least n : Nat} (h : least ≤ n) : spanLength least none n = n := by
  simp [spanLength]
  omega

theorem spanLength_self (least n : Nat) : spanLength least (some least) n = least := by
  simp [spanLength]

theorem leading_drop {c : CharSet} {n : Nat} {t : Text} (h : n ≤ leading c t) :
    leading c (t.drop n) = leading c t - n := by
  induction n generalizing t with
  | zero => rfl
  | succ n ih =>
      cases t with
      | nil => exact absurd h (Nat.not_succ_le_zero n)
      | cons x t =>
          rw [leading_cons] at h ⊢
          by_cases hx : c.contains x = true
          · rw [if_pos hx] at h ⊢
            rw [List.drop_succ_cons, ih (Nat.le_of_succ_le_succ h)]
            omega
          · rw [if_neg hx] at h
            exact absurd h (Nat.not_succ_le_zero n)

end Pattern

namespace Regex

open Pattern

/-- The pattern of a span at the start of the text. -/
def ofSpan (c : CharSet) (least : Nat) (most : Option Nat) : Regex :=
  ⟨.seq (.start false) (.span c least most true), 0, []⟩

theorem outcomes_ofSpan (c : CharSet) (least : Nat) (most : Option Nat) (t : Text) :
    (ofSpan c least most).outcomes (.number 0) t =
      if leading c t < least then .ok []
      else .ok [⟨.str (t.take (spanLength least most (leading c t))),
        t.drop (spanLength least most (leading c t))⟩] := by
  have hstart : (Place.first t).isStart false = true := rfl
  have hkey : (ofSpan c least most).groupNumber? (.number 0) = some 0 := rfl
  by_cases h : leading c t < least
  · have hskip : skip? c least (Place.first t) = none := skip?_eq_none h
    simp [outcomes, ofSpan, search?, isAnchored, matchAt?, run, hstart, hskip, h]
  · obtain ⟨prev, hskip⟩ := exists_skip? (s := Place.first t) (Nat.not_lt.1 h)
    obtain ⟨prev', others, hplaces⟩ := exists_spanPlaces c (most.map (· - least))
      ((Place.first t).index + least) prev ((Place.first t).rest.drop least) []
    rw [show (Place.first t).rest = t from rfl, leading_drop (Nat.not_lt.1 h)] at hplaces
    have hrun : (ofSpan c least most).pattern.matchAt? (Place.first t) = some
        (⟨spanLength least most (leading c t), prev',
          t.drop (spanLength least most (leading c t))⟩, []) := by
      simp only [ofSpan, matchAt?, run, hstart, hskip, if_true]
      rw [show (Place.first t).rest = t from rfl, hplaces]
      simp only [List.findSome?_cons, List.drop_drop, Place.first, Nat.zero_add]
      rfl
    have hsearch : (ofSpan c least most).pattern.search? t = some
        ⟨.first t, ⟨spanLength least most (leading c t), prev',
          t.drop (spanLength least most (leading c t))⟩, []⟩ := by
      rw [search?, show (ofSpan c least most).pattern.isAnchored = true from rfl, if_pos rfl, hrun]
      rfl
    rw [outcomes, hsearch, if_neg h]
    simp [groupText?, hkey, Found.text, Place.first]

/-- Blanks. -/
def blankSet : CharSet :=
  ⟨[(.ofNat 32, .ofNat 32), (.ofNat 9, .ofNat 9), (.ofNat 10, .ofNat 10), (.ofNat 13, .ofNat 13)],
    false, false⟩

/-- The code points that stand for themselves in a string. -/
def rawSet : CharSet :=
  ⟨[(.ofNat 34, .ofNat 34), (.ofNat 92, .ofNat 92), (.ofNat 0, .ofNat 31)], true, false⟩

def hexSet : CharSet :=
  ⟨[(.ofNat 48, .ofNat 57), (.ofNat 97, .ofNat 102), (.ofNat 65, .ofNat 70)], false, false⟩

theorem read_blanks :
    (read {} (text "^[ \\t\\n\\r]*")).toOption = some (ofSpan blankSet 0 none) := by
  decide +kernel

theorem read_raws : (read {} (text "^[^\"\\\\\\x00-\\x1f]+")).toOption =
    some (ofSpan rawSet 1 none) := by
  decide +kernel

theorem read_hexes : (read {} (text "^[0-9a-fA-F]\x7b4\x7d")).toOption =
    some (ofSpan hexSet 4 (some 4)) := by
  decide +kernel

end Regex

namespace Recipe

open Regex Pattern

variable {Inv : Store → Prop} {depth : Nat}

theorem regex_eq_ok {t : Text} {key : GroupKey} {flags : PatternFlags} {r : Regex}
    (h : (read flags t).toOption = some r) :
    Parser.regex t key flags = .ok (.plain (text "regex:" ++ t) (r.outcomes key)) := by
  cases hr : read flags t with
  | error f => simp [hr, Except.toOption] at h
  | ok q =>
      rw [hr] at h
      cases h
      simp [Parser.regex, hr]

/-- The span of a set that a text starts with, if it is long enough. -/
def spanReading (c : CharSet) (least : Nat) (most : Option Nat) (t : Text) : Reading Text :=
  if leading c t < least then .fails
  else .reads (t.take (spanLength least most (leading c t)))
    (t.drop (spanLength least most (leading c t)))

theorem reads_span {t : Text} {c : CharSet} {least : Nat} {most : Option Nat}
    (h : (read {} t).toOption = some (ofSpan c least most)) :
    (ready (Parser.regex t)).Reads Inv depth fun cur =>
      (spanReading c least most cur).map .str := by
  rw [regex_eq_ok h]
  refine reads_plain fun cur => ?_
  rw [outcomes_ofSpan, spanReading]
  split <;> rfl

theorem isDescribed_span {t : Text} {r : Regex} (h : (read {} t).toOption = some r) :
    (ready (Parser.regex t)).IsDescribed Inv := by
  rw [regex_eq_ok h]
  exact isDescribed_plain _ _

theorem isStatic_span {t : Text} {r : Regex} (h : (read {} t).toOption = some r) :
    (ready (Parser.regex t)).IsStatic :=
  ⟨_, regex_eq_ok h⟩

theorem spanReading_none {c : CharSet} {least : Nat} {t : Text} (h : least ≤ leading c t) :
    spanReading c least none t = .reads (t.takeWhile c.contains) (t.dropWhile c.contains) := by
  rw [spanReading, if_neg (Nat.not_lt.2 h), spanLength_none h, take_leading, drop_leading]

end Recipe

end Descent
