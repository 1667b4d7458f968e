import Descent.Proofs.Span
import Descent.Proofs.Written
import Mathlib.Data.Nat.Digits.Defs

/-!
# Natural numbers at the cursor

A natural number is read from the basic digits that stand in front. Whatever stands behind these
ends them, also what the conversion to an integer would take: a digit of another script, an
underscore, a blank. So of the conversion the case of basic digits from end to end is left, and
there the length alone decides whether they are a number or too many.

No cell is entered, so the results are the same at every depth and in every store.
-/

namespace Descent

/-- The number that digits denote is the sum of their values, each one times its power of ten. -/
theorem digitsValue_eq_ofDigits (t : Text) :
    digitsValue t = Nat.ofDigits 10 (t.reverse.map fun c => c.val - 48) := by
  induction t using List.reverseRecOn with
  | nil => rfl
  | append_singleton t c ih =>
      rw [digitsValue_concat, ih, List.reverse_concat, List.map_cons, Nat.ofDigits_cons,
        Nat.add_comm]

theorem Text.length_ofNat_le {n k : Nat} (hk : 0 < k) (hn : n < 10 ^ k) :
    (ofNat n).length ≤ k := by
  rw [ofNat, List.length_map]
  exact Nat.toDigits_length 10 n k hk hn

theorem CodePoint.not_isBlank_of_isDigit {c : CodePoint} (h : c.isDigit = true) :
    c.isBlank = false := by
  obtain ⟨hlow, hhigh⟩ : 48 ≤ c.val ∧ c.val ≤ 57 := between_iff.1 h
  refine Bool.eq_false_iff.2 fun hblank => ?_
  simp only [isBlank, Bool.or_eq_true, Bool.and_eq_true, decide_eq_true_eq,
    List.contains_iff_mem, List.mem_cons, List.not_mem_nil, or_false] at hblank
  omega

/-! ## The conversion of digits -/

namespace Numeral

open NumberLiteral

theorem not_isUnderscore_of_isDigit {c : CodePoint} (h : c.isDigit = true) :
    isUnderscore c = false :=
  decide_eq_false (ne_of_isDigit h (by decide))

theorem isNumeralPart_of_isDigit {c : CodePoint} (h : c.isDigit = true) :
    isNumeralPart c = true := by
  rw [isNumeralPart, CodePoint.decimalValue?_of_isDigit h, Option.isSome_some, Bool.or_true]

variable {d : Text}

theorem isSeparated_of_isDigits (hd : IsDigits d) : isSeparated d = true := by
  obtain ⟨hne, hdigits⟩ := hd
  induction d with
  | nil => exact absurd rfl hne
  | cons c t ih =>
      obtain ⟨hc, ht⟩ := List.forall_mem_cons.1 hdigits
      cases t with
      | nil => rw [isSeparated, not_isUnderscore_of_isDigit hc, Bool.not_false]
      | cons x t =>
          have hx := not_isUnderscore_of_isDigit (ht x List.mem_cons_self)
          rw [isSeparated, not_isUnderscore_of_isDigit hc, hx, Bool.not_false, Bool.true_and,
            if_neg Bool.false_ne_true]
          exact ih (List.cons_ne_nil x t) ht

theorem ofDigits_filterMap (hd : ∀ c ∈ d, c.isDigit = true) :
    ofDigits (d.filterMap CodePoint.decimalValue?) = digitsValue d := by
  have hvalues : d.filterMap CodePoint.decimalValue? = d.map fun c => c.val - 48 := by
    rw [← List.filterMap_eq_map]
    exact List.filterMap_congr fun c hc => CodePoint.decimalValue?_of_isDigit (hd c hc)
  rw [hvalues]
  exact List.foldl_map

theorem length_filterMap (hd : ∀ c ∈ d, c.isDigit = true) :
    (d.filterMap CodePoint.decimalValue?).length = d.length := by
  refine List.filterMap_length_eq_length.2 fun c hc => ?_
  rw [CodePoint.decimalValue?_of_isDigit (hd c hc), Option.isSome_some]

/-- Basic digits are read as the number that they denote, unless there are too many. -/
theorem readNat_of_isDigits (hd : IsDigits d) :
    readNat d =
      if maxDigits < d.length then .error (.tooLong d.length) else .ok (digitsValue d) := by
  have hparts : ∀ c ∈ d, isNumeralPart c = true := fun c hc => isNumeralPart_of_isDigit (hd.2 c hc)
  rw [readNat, List.takeWhile_eq_self_iff.2 hparts, List.dropWhile_eq_nil_iff.2 hparts,
    isSeparated_of_isDigits hd, length_filterMap hd.2, ofDigits_filterMap hd.2]
  rfl

/-- No blank and no sign stands in front of digits. -/
theorem readInt_of_isDigits (hd : IsDigits d) : readInt d = (readNat d).map Int.ofNat := by
  cases d with
  | nil => exact absurd rfl hd.1
  | cons c t =>
      have hc := hd.2 c List.mem_cons_self
      have hblank : ¬ c.isBlank = true := by
        rw [CodePoint.not_isBlank_of_isDigit hc]
        exact Bool.false_ne_true
      rw [readInt, List.dropWhile_cons_of_neg hblank]
      dsimp only
      rw [if_neg (ne_of_isDigit hc (by decide)), if_neg (ne_of_isDigit hc (by decide))]

end Numeral

theorem Value.toInt_of_isDigits {d : Text} (hd : NumberLiteral.IsDigits d) :
    toInt (.str d) = if Numeral.maxDigits < d.length then .error (.integerTooLong d.length)
      else .ok (.int (digitsValue d)) := by
  rw [toInt, Numeral.readInt_of_isDigits hd, Numeral.readNat_of_isDigits hd]
  split <;> rfl

namespace Parser

open Eval

variable {e : Entry} {cur : Text}

/-! ## Natural numbers -/

theorem parse_many1_satisfy_nil {test : CodePoint → Bool} (h : cur.takeWhile test = []) :
    (many1 (satisfy test)).parse e cur = pure [] := by
  rw [many1, parse_chain, parse_many_satisfy, h, pure_bind, collect_singleton]
  rfl

theorem parse_many1_satisfy {test : CodePoint → Bool} (h : cur.takeWhile test ≠ []) :
    (many1 (satisfy test)).parse e cur =
      pure [⟨.list ((cur.takeWhile test).map fun c => .str [c]), cur.dropWhile test⟩] := by
  obtain ⟨c, t, ht⟩ := List.exists_cons_of_ne_nil h
  rw [many1, parse_chain, parse_many_satisfy, ht, pure_bind, collect_singleton]
  rfl

theorem parse_naturalNum_nil (h : cur.takeWhile CodePoint.isDigit = []) :
    naturalNum.parse e cur = pure [] := by
  have hmany1 : (many1 digit).parse e cur = pure [] := parse_many1_satisfy_nil h
  rw [naturalNum, join, parse, parse, hmany1]
  rfl

/-- Where a digit stands in front, all digits that come next are converted. -/
theorem parse_naturalNum (h : cur.takeWhile CodePoint.isDigit ≠ []) :
    naturalNum.parse e cur =
      if Numeral.maxDigits < (cur.takeWhile CodePoint.isDigit).length then
        throw (.integerTooLong (cur.takeWhile CodePoint.isDigit).length)
      else pure [⟨.int (digitsValue (cur.takeWhile CodePoint.isDigit)),
        cur.dropWhile CodePoint.isDigit⟩] := by
  have hjoin := parse_join_of_parse (parse_many1_satisfy (e := e) h)
  have hdigits : NumberLiteral.IsDigits (cur.takeWhile CodePoint.isDigit) :=
    ⟨h, fun _ => List.mem_takeWhile_imp⟩
  change (join (many1 digit) []).parse e cur = _ at hjoin
  rw [naturalNum, parse, hjoin, pure_bind, List.mapM_cons, Value.toInt_of_isDigits hdigits]
  split <;> rfl

/-- Zeros in front do not change what is read, as far as they leave room for the digits. -/
theorem parse_naturalNum_written {k n : Nat} {r : Text}
    (hlength : k + (Text.ofNat n).length ≤ Numeral.maxDigits) (hr : NoDigit r) :
    naturalNum.parse e (Text.zeros k ++ Text.ofNat n ++ r) = pure [⟨.int n, r⟩] := by
  have hdigits : NumberLiteral.IsDigits (Text.zeros k ++ Text.ofNat n) :=
    (Text.isDigits_ofNat n).append_left fun _ hc => Text.isDigit_of_mem_zeros hc
  have hvalue : digitsValue (Text.zeros k ++ Text.ofNat n) = n := by
    rw [digitsValue_append, Text.digitsValue_zeros, Text.digitsValue_ofNat, Nat.zero_mul,
      Nat.zero_add]
  have htake := takeWhile_digits hdigits.2 hr
  rw [parse_naturalNum (by rw [htake]; exact hdigits.1), htake, dropWhile_digits hdigits.2 hr,
    List.length_append, Text.length_zeros, if_neg (Nat.not_lt.2 hlength), hvalue]

/-- A natural number is the one that the basic digits in front of the cursor denote in base ten,
and all of them are taken. Without a digit there is no parse. More than 4300 digits, zeros in
front among them, are a fault, and `tryParse` lets it through. So whatever is written in base ten
is read back: every number less than `10 ^ 4300`, behind as many zeros as there is room for, and
before any text that starts with no digit. -/
theorem naturalNum_readsBack (e : Entry) :
    (∀ cur : Text,
      let d := cur.takeWhile CodePoint.isDigit
      let r := cur.dropWhile CodePoint.isDigit
      (d = [] → naturalNum.parse e cur = pure []) ∧
      (4300 < d.length → naturalNum.parse e cur = throw (.integerTooLong d.length) ∧
        ∀ whole, tryParse e naturalNum cur whole = throw (.integerTooLong d.length)) ∧
      (d ≠ [] → d.length ≤ 4300 → naturalNum.parse e cur =
        pure [⟨.int (Nat.ofDigits 10 (d.reverse.map fun c => c.val - 48) : Nat), r⟩])) ∧
    ∀ n < 10 ^ 4300, (Text.ofNat n).length ≤ 4300 ∧
      ∀ k, k + (Text.ofNat n).length ≤ 4300 → ∀ r, NoDigit r →
        naturalNum.parse e (Text.zeros k ++ Text.ofNat n ++ r) = pure [⟨.int n, r⟩] := by
  constructor
  · intro cur d r
    refine ⟨fun hnone => parse_naturalNum_nil hnone, fun hlong => ?_, fun hsome hlength => ?_⟩
    · have hsome : d ≠ [] := List.ne_nil_of_length_pos (Nat.zero_lt_of_lt hlong)
      have hparse : naturalNum.parse e cur = throw (.integerTooLong d.length) :=
        (parse_naturalNum hsome).trans (if_pos hlong)
      refine ⟨hparse, fun whole => ?_⟩
      rw [tryParse, hparse]
      rfl
    · rw [← digitsValue_eq_ofDigits]
      exact (parse_naturalNum hsome).trans (if_neg (Nat.not_lt.2 hlength))
  · intro n hn
    exact ⟨Text.length_ofNat_le (by decide) hn,
      fun k hlength r hr => parse_naturalNum_written hlength hr⟩

/-- At the limit: one zero too many, and before a digit of another script as many zeros as there
is room for. -/
theorem naturalNum_readsBack_atLimit :
    let read := naturalNum.parse .exhausted
    let three : Text := [.ofNat 0x663]
    let long : Text := Text.zeros 4301 ++ three
    read three = pure [] ∧
      (4300 < (long.takeWhile CodePoint.isDigit).length ∧ read long = throw (.integerTooLong 4301) ∧
        ∀ whole, tryParse .exhausted naturalNum long whole = throw (.integerTooLong 4301)) ∧
      read (text "0120_5") = pure [⟨.int 120, text "_5"⟩] ∧
      (42 < 10 ^ 4300 ∧ 4298 + (Text.ofNat 42).length ≤ 4300 ∧ NoDigit three) ∧
        read (Text.zeros 4298 ++ Text.ofNat 42 ++ three) = pure [⟨.int 42, three⟩] := by
  intro read three long
  obtain ⟨hreads, hback⟩ := naturalNum_readsBack .exhausted
  have hthree : NoDigit three := by
    rintro _ ⟨⟩
    decide
  have hzeros : (long.takeWhile CodePoint.isDigit).length = 4301 := by
    rw [takeWhile_digits (fun _ hc => Text.isDigit_of_mem_zeros hc) hthree, Text.length_zeros]
  have hlong : 4300 < (long.takeWhile CodePoint.isDigit).length := by
    rw [hzeros]
    decide
  have hsmall : 42 < 10 ^ 4300 :=
    (by decide : 42 < 10 ^ 2).trans_le (pow_le_pow_right₀ (by decide) (by decide))
  have hroom : 4298 + (Text.ofNat 42).length ≤ 4300 := Nat.le_refl 4300
  have hfault := (hreads long).2.1 hlong
  rw [hzeros] at hfault
  exact ⟨(hreads three).1 rfl, ⟨hlong, hfault⟩,
    (hreads (text "0120_5")).2.2 (by decide) (by decide), ⟨hsmall, hroom, hthree⟩,
    (hback 42 hsmall).2 4298 hroom three hthree⟩

end Parser

end Descent
