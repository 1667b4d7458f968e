import Descent.Proofs.Coverage
import Descent.Proofs.Groups
import Descent.Proofs.Span
import Descent.Run

/-!
# The leftmost match

A search tries the places of a text from the left, so it finds a match that starts no later
than any other one, and nothing only where there is no match at all. An anchored pattern
matches at the start of the text or not at all, which is why it is tried there only. The
parser of a pattern gives what the search finds.
-/

namespace Descent

namespace Place

/-- The place before the code point of that index. -/
def nth (t : Text) (i : Nat) : Place := ⟨i, (t.take i).getLast?, t.drop i⟩

variable {t r : Text} {i : Nat}

theorem nth_zero : nth t 0 = .first t := rfl

theorem after_nth {x : CodePoint} (h : t.drop i = x :: r) :
    (nth t i).after x r = nth t (i + 1) := by
  have hget : t[i]? = some x := by
    rw [← Nat.add_zero i, ← List.getElem?_drop, h, List.getElem?_cons_zero]
  have hprevious : (t.take (i + 1)).getLast? = some x := by
    rw [List.getLast?_take, if_neg (Nat.succ_ne_zero i), Nat.add_sub_cancel, hget, Option.some_or]
  have hrest : t.drop (i + 1) = r := by
    rw [← List.tail_drop, h, List.tail_cons]
  rw [nth, nth, after, hprevious, hrest]

theorem previous_nth_eq_none_iff (hi : i ≤ t.length) : (nth t i).previous = none ↔ i = 0 := by
  rw [nth, List.getLast?_eq_none_iff, List.take_eq_nil_iff]
  constructor
  · rintro (h | rfl)
    · exact h
    · exact Nat.le_zero.1 hi
  · exact .inl

theorem Reaches.exists_nth {u : Place} (hu : (nth t i).Reaches u) (hi : i ≤ t.length) :
    ∃ j, i ≤ j ∧ j ≤ t.length ∧ u = nth t j := by
  induction hu with
  | refl => exact ⟨i, Nat.le_refl i, hi, rfl⟩
  | after _ hrest ih =>
      obtain ⟨j, hij, hj, rfl⟩ := ih
      have hlt : j < t.length := by
        rw [← Nat.not_le, ← List.drop_eq_nil_iff]
        exact fun hnil => List.cons_ne_nil _ _ (hrest.symm.trans hnil)
      exact ⟨j + 1, Nat.le_succ_of_le hij, hlt, after_nth hrest⟩

end Place

namespace Pattern

variable {p : Pattern} {t : Text} {i j : Nat} {g : Captures}

/-- The pattern matches the text from the one index up to the other one where it stands
there, and its groups then hold what the captures say. -/
structure Spans (p : Pattern) (t : Text) (i j : Nat) (g : Captures) : Prop where
  le : i ≤ j
  le_length : j ≤ t.length
  isMatch : Match p (.nth t i) [] (.nth t j) g

theorem exists_spans_iff (hi : i ≤ t.length) :
    (∃ j g, Spans p t i j g) ↔ (p.matchAt? (.nth t i)).isSome = true := by
  rw [isSome_matchAt?]
  constructor
  · rintro ⟨j, g, hspans⟩
    exact ⟨_, _, _, hspans.isMatch⟩
  · rintro ⟨u, g, h, hmatch⟩
    obtain ⟨j, hij, hj, rfl⟩ := hmatch.reaches.exists_nth hi
    obtain ⟨k, hmatch⟩ := hmatch.exists_of_captures []
    exact ⟨j, k, hij, hj, hmatch⟩

theorem spans_of_matchAt? {u : Place} (hi : i ≤ t.length)
    (h : p.matchAt? (.nth t i) = some (u, g)) : ∃ j, u = .nth t j ∧ Spans p t i j g := by
  have hmatch := matchAt?_eq_some h
  obtain ⟨j, hij, hj, rfl⟩ := hmatch.reaches.exists_nth hi
  exact ⟨j, rfl, hij, hj, hmatch⟩

/-- An anchored pattern matches at the start of a text only. -/
theorem Match.previous_eq_none {p : Pattern} {s u : Place} {g h : Captures}
    (hmatch : Match p s g u h) (hp : p.isAnchored = true) : s.previous = none := by
  induction p generalizing u g h with
  | start everyLine =>
      cases hmatch with
      | start hs =>
          rw [isAnchored, Bool.not_eq_true'] at hp
          subst hp
          rw [Place.isStart] at hs
          split at hs
          · assumption
          · cases hs
  | seq p q ihp _ =>
      cases hmatch with
      | seq hfirst _ => exact ihp hfirst hp
  | alt p q ihp ihq =>
      rw [isAnchored, Bool.and_eq_true] at hp
      cases hmatch with
      | left hfirst => exact ihp hfirst hp.1
      | right hfirst => exact ihq hfirst hp.2
  | group n p ih =>
      cases hmatch with
      | group hfirst => exact ih hfirst hp
  | _ => cases hp

/-! ## Searching -/

/-- What a search from an index on may answer: nothing if no place from there on has a match,
and else the match that is tried first at the leftmost place that has one. -/
def Answers (p : Pattern) (t : Text) (i : Nat) : Option Found → Prop
  | none => ∀ k, i ≤ k → k ≤ t.length → p.matchAt? (.nth t k) = none
  | some f => ∃ k ≤ t.length, (∀ l, i ≤ l → l < k → p.matchAt? (.nth t l) = none) ∧
      f.first = .nth t k ∧ p.matchAt? (.nth t k) = some (f.last, f.captures)

theorem answers_succ {o : Option Found} (hi : p.matchAt? (.nth t i) = none)
    (h : Answers p t (i + 1) o) : Answers p t i o := by
  have hfrom (l : Nat) (hil : i ≤ l) (hnext : i + 1 ≤ l → p.matchAt? (.nth t l) = none) :
      p.matchAt? (.nth t l) = none := by
    rcases Nat.eq_or_lt_of_le hil with rfl | hlt
    · exact hi
    · exact hnext hlt
  cases o with
  | none => exact fun k hik hk => hfrom k hik fun hlt => h k hlt hk
  | some f =>
      obtain ⟨k, hk, hbefore, hf⟩ := h
      exact ⟨k, hk, fun l hil hl => hfrom l hil fun hlt => hbefore l hlt hl, hf⟩

theorem answers_some {u : Place} (hi : i ≤ t.length)
    (hm : p.matchAt? (.nth t i) = some (u, g)) : Answers p t i (some ⟨.nth t i, u, g⟩) :=
  ⟨i, hi, fun _ hil hl => absurd hil (Nat.not_le.2 hl), rfl, hm⟩

theorem answers_searchFrom? {index : Nat} {previous : Option CodePoint} {rest : Text}
    (hs : ⟨index, previous, rest⟩ = Place.nth t i) (hi : i ≤ t.length) :
    Answers p t i (p.searchFrom? index previous rest) := by
  induction rest generalizing i index previous with
  | nil =>
      have hlast : t.length ≤ i := List.drop_eq_nil_iff.1 (congrArg Place.rest hs).symm
      rw [searchFrom?, hs]
      split
      · rename_i hm
        exact answers_some hi hm
      · rename_i hm
        intro k hik hk
        obtain rfl : k = i := Nat.le_antisymm (Nat.le_trans hk hlast) hik
        exact hm
  | cons c rest ih =>
      have hrest : t.drop i = c :: rest := (congrArg Place.rest hs).symm
      have hnext : ⟨index + 1, some c, rest⟩ = Place.nth t (i + 1) := by
        rw [← Place.after_nth hrest, ← hs, Place.after]
      have hlt : i < t.length := by
        rw [← Nat.not_le, ← List.drop_eq_nil_iff, hrest]
        exact List.cons_ne_nil _ _
      rw [searchFrom?, hs]
      split
      · rename_i hm
        exact answers_some hi hm
      · rename_i hm
        exact answers_succ hm (ih hnext hlt)

theorem answers_search? (p : Pattern) (t : Text) : Answers p t 0 (p.search? t) := by
  rw [search?]
  split
  · rename_i hanchored
    cases hm : p.matchAt? (.first t) with
    | none =>
        intro k _ hk
        rcases Nat.eq_zero_or_pos k with rfl | hpos
        · exact hm
        · rw [← Option.not_isSome_iff_eq_none, isSome_matchAt?]
          rintro ⟨u, g, h, hmatch⟩
          have hprevious := hmatch.previous_eq_none hanchored
          exact Nat.ne_of_gt hpos ((Place.previous_nth_eq_none_iff hk).1 hprevious)
    | some m => exact ⟨0, Nat.zero_le _, fun l _ hl => absurd hl (Nat.not_lt_zero l), rfl, hm⟩
  · exact answers_searchFrom? Place.nth_zero.symm (Nat.zero_le _)

/-- A search finds nothing exactly if the pattern matches no part of the text. -/
theorem search?_eq_none_iff : p.search? t = none ↔ ¬∃ i j g, Spans p t i j g := by
  have hanswers := answers_search? p t
  constructor
  · intro hnone
    rw [hnone] at hanswers
    rintro ⟨i, j, g, hspans⟩
    have hi : i ≤ t.length := Nat.le_trans hspans.le hspans.le_length
    have hsome := (exists_spans_iff hi).1 ⟨j, g, hspans⟩
    rw [hanswers i (Nat.zero_le i) hi] at hsome
    cases hsome
  · intro hno
    cases hf : p.search? t with
    | none => rfl
    | some f =>
        rw [hf] at hanswers
        obtain ⟨i, hi, -, -, hm⟩ := hanswers
        obtain ⟨j, -, hspans⟩ := spans_of_matchAt? hi hm
        exact absurd ⟨i, j, _, hspans⟩ hno

/-- What a search finds is a match, and no match starts before it. -/
theorem exists_spans_of_search? {f : Found} (hf : p.search? t = some f) :
    ∃ i j, f.first = .nth t i ∧ f.last = .nth t j ∧ Spans p t i j f.captures ∧
      ∀ i' j' g, Spans p t i' j' g → i ≤ i' := by
  have hanswers := answers_search? p t
  rw [hf] at hanswers
  obtain ⟨i, hi, hbefore, hfirst, hm⟩ := hanswers
  obtain ⟨j, hlast, hspans⟩ := spans_of_matchAt? hi hm
  refine ⟨i, j, hfirst, hlast, hspans, fun i' j' g hother => Nat.le_of_not_lt fun hlt => ?_⟩
  have hi' : i' ≤ t.length := Nat.le_trans hother.le hother.le_length
  have hsome := (exists_spans_iff hi').1 ⟨j', g, hother⟩
  rw [hbefore i' (Nat.zero_le _) hlt] at hsome
  cases hsome

/-- What a group holds after a match of the text from the one index up to the other one: group
zero is what is matched, and a group that took no part holds the empty text. -/
def heldText (t : Text) (i j : Nat) (g : Captures) : Nat → Text
  | 0 => (t.take j).drop i
  | n + 1 => ((g.find? fun c => c.number = n + 1).map Capture.text).getD []

end Pattern

namespace Regex

open Pattern

variable {r : Regex} {key : GroupKey} {f : Found} {t : Text} {i j : Nat}

theorem groupText?_eq_some {n : Nat} (hfirst : f.first = .nth t i) (hlast : f.last = .nth t j)
    (hkey : r.groupNumber? key = some n) :
    r.groupText? key f = some (heldText t i j f.captures n) := by
  rw [groupText?, hkey]
  cases n with
  | zero =>
      have htext : f.text = (t.take j).drop i := by
        rw [Found.text, hfirst, hlast, Place.nth, Place.nth, List.drop_take]
      exact congrArg some htext
  | succ n =>
      have htext : f.groupText (n + 1) = heldText t i j f.captures (n + 1) := by
        rw [Found.groupText, heldText]
        split
        · rename_i c hc
          rw [hc, Option.map_some, Option.getD_some]
        · rename_i hc
          rw [hc, Option.map_none, Option.getD_none]
      exact congrArg some htext

theorem outcomes_eq_nil (hno : ¬∃ i j g, r.pattern.Spans t i j g) : r.outcomes key t = .ok [] := by
  rw [outcomes, search?_eq_none_iff.2 hno]

theorem exists_search? (hsome : ∃ i j g, r.pattern.Spans t i j g) :
    ∃ f, r.pattern.search? t = some f := by
  rw [← Option.isSome_iff_exists, Option.isSome_iff_ne_none]
  exact fun hnone => search?_eq_none_iff.1 hnone hsome

theorem outcomes_eq_error (hkey : r.groupNumber? key = none)
    (hsome : ∃ i j g, r.pattern.Spans t i j g) : r.outcomes key t = .error .noSuchGroup := by
  obtain ⟨f, hf⟩ := exists_search? hsome
  rw [outcomes, hf]
  dsimp only
  rw [groupText?, hkey]

theorem exists_outcome {n : Nat} (hkey : r.groupNumber? key = some n)
    (hsome : ∃ i j g, r.pattern.Spans t i j g) :
    ∃ i j g, r.pattern.Spans t i j g ∧ (∀ i' j' g', r.pattern.Spans t i' j' g' → i ≤ i') ∧
      r.outcomes key t = .ok [⟨.str (heldText t i j g n), t.drop j⟩] := by
  obtain ⟨f, hf⟩ := exists_search? hsome
  obtain ⟨i, j, hfirst, hlast, hspans, hleast⟩ := exists_spans_of_search? hf
  refine ⟨i, j, f.captures, hspans, hleast, ?_⟩
  rw [outcomes, hf]
  dsimp only
  rw [groupText?_eq_some hfirst hlast hkey, hlast, Place.nth]

/-- What a pattern is to answer to a text. There is no result exactly if the pattern matches no
part of the text, and a fault exactly if it matches one and does not have the group. Otherwise
there is one result, of a match that starts no later than any other one: the value is what the
group holds after it, and what follows it remains. -/
structure Finds (r : Regex) (key : GroupKey) (t : Text) (answer : Except Fault (List Outcome)) :
    Prop where
  nothing_iff : answer = .ok [] ↔ ¬∃ i j g, r.pattern.Spans t i j g
  noSuchGroup_iff : answer = .error .noSuchGroup ↔
    (¬∃ n, r.HasGroup key n) ∧ ∃ i j g, r.pattern.Spans t i j g
  leftmost : ∀ n, r.HasGroup key n → (∃ i j g, r.pattern.Spans t i j g) →
    ∃ i j g, r.pattern.Spans t i j g ∧ (∀ i' j' g', r.pattern.Spans t i' j' g' → i ≤ i') ∧
      answer = .ok [⟨.str (heldText t i j g n), t.drop j⟩]

theorem finds_outcomes {flags : PatternFlags} {pattern : Text}
    (hr : read flags pattern = .ok r) (key : GroupKey) (t : Text) :
    r.Finds key t (r.outcomes key t) := by
  by_cases hsome : ∃ i j g, r.pattern.Spans t i j g
  · cases hkey : r.groupNumber? key with
    | none =>
        have hgroup : ¬∃ n, r.HasGroup key n := (groupNumber?_eq_none_iff hr).1 hkey
        rw [outcomes_eq_error hkey hsome]
        exact ⟨iff_of_false nofun (not_not_intro hsome), iff_of_true rfl ⟨hgroup, hsome⟩,
          fun n hn => absurd ⟨n, hn⟩ hgroup⟩
    | some n =>
        have hgroup : r.HasGroup key n := (groupNumber?_eq_some_iff hr).1 hkey
        obtain ⟨i, j, g, hspans, hleast, houtcomes⟩ := exists_outcome hkey hsome
        refine ⟨iff_of_false ?_ (not_not_intro hsome), iff_of_false ?_ fun h => h.1 ⟨n, hgroup⟩,
          fun m hm _ => ⟨i, j, g, hspans, hleast, ?_⟩⟩
        · rw [houtcomes]
          nofun
        · rw [houtcomes]
          nofun
        · obtain rfl : n = m :=
            Option.some.inj (hkey.symm.trans ((groupNumber?_eq_some_iff hr).2 hm))
          exact houtcomes
  · rw [outcomes_eq_nil hsome]
    exact ⟨iff_of_true rfl hsome, iff_of_false nofun fun h => hsome h.2,
      fun _ _ h => absurd h hsome⟩

end Regex

namespace Parser

open Eval

/-- The parser of a pattern that is read answers what the pattern is to answer, and changes
nothing. -/
theorem regex_isLeftmost {pattern : Text} {key : Regex.GroupKey} {flags : PatternFlags}
    {p : Parser} (hp : regex pattern key flags = .ok p) (e : Entry) (cur : Text) (s : Store) :
    ∃ r answer, Regex.read flags pattern = .ok r ∧ r.Finds key cur answer ∧
      (p.parse e cur).run s = ended answer s := by
  rw [regex] at hp
  split at hp
  · rename_i r hr
    cases hp
    refine ⟨r, r.outcomes key cur, hr, Regex.finds_outcomes hr key cur, ?_⟩
    rw [parse]
    cases r.outcomes key cur with
    | error f => rfl
    | ok os => rfl
  · cases hp
  · cases hp

/-- Rounds that may consume nothing, and a group that takes no part in the match. -/
theorem regex_isLeftmost_rounds : ∃ p,
    regex (text "(?:x|(a|b*?)*)(?P<end>c)?$") (.name (text "end")) {} = .ok p ∧
      ∃ r answer, Regex.read {} (text "(?:x|(a|b*?)*)(?P<end>c)?$") = .ok r ∧
        r.Finds (.name (text "end")) (text "zabba") answer ∧
        (p.parse (.ofDepth 0) (text "zabba")).run {} = ended answer {} := by
  have hread : (Regex.read {} (text "(?:x|(a|b*?)*)(?P<end>c)?$")).toOption.isSome = true := by
    decide +kernel
  obtain ⟨r, hr⟩ := Option.isSome_iff_exists.1 hread
  exact ⟨_, Recipe.regex_eq_ok hr,
    regex_isLeftmost (Recipe.regex_eq_ok hr) (.ofDepth 0) (text "zabba") {}⟩

end Parser

end Descent
