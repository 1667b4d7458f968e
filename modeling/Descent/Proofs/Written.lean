import Descent.Number.Written
import Descent.Proofs.Shortest

/-!
# Written numbers

What is written for a finite number is a number literal in each notation: with an
exponent, with zeros in front of the digits or behind them, and with a point between
them. The literal stands for the shortest decimal of the number exactly, and so it is
converted to the number that was written. No part of this looks at where positional
writing starts and ends.
-/

namespace Descent

/-! ## Texts of digits -/

namespace NumberLiteral

namespace IsDigits

variable {digits t : Text}

theorem append (hd : IsDigits digits) (ht : ∀ c ∈ t, c.isDigit = true) : IsDigits (digits ++ t) :=
  ⟨List.append_ne_nil_of_left_ne_nil hd.1 t, List.forall_mem_append.2 ⟨hd.2, ht⟩⟩

theorem append_left (hd : IsDigits digits) (ht : ∀ c ∈ t, c.isDigit = true) :
    IsDigits (t ++ digits) :=
  ⟨List.append_ne_nil_of_right_ne_nil t hd.1, List.forall_mem_append.2 ⟨ht, hd.2⟩⟩

theorem take (hd : IsDigits digits) {k : Nat} (hk : 0 < k) : IsDigits (digits.take k) :=
  ⟨fun h => hd.1 ((List.take_eq_nil_iff.1 h).resolve_left hk.ne'),
    fun c hc => hd.2 c (List.mem_of_mem_take hc)⟩

theorem drop (hd : IsDigits digits) {k : Nat} (hk : k < digits.length) :
    IsDigits (digits.drop k) :=
  ⟨fun h => absurd (List.drop_eq_nil_iff.1 h) (Nat.not_le.2 hk),
    fun c hc => hd.2 c (List.mem_of_mem_drop hc)⟩

end IsDigits

end NumberLiteral

/-! ## Natural numbers in base ten -/

namespace Text

open NumberLiteral

/-- The digit of a number less than ten. -/
def digit (d : Nat) : CodePoint := CodePoint.ofChar d.digitChar

theorem val_digit {d : Nat} (h : d < 10) : (digit d).val = 48 + d := by
  rw [digit, CodePoint.val_ofChar, Nat.toNat_digitChar_of_lt_ten h]

theorem isDigit_digit {d : Nat} (h : d < 10) : (digit d).isDigit = true := by
  rw [CodePoint.isDigit, CodePoint.between_iff, val_digit h]
  exact ⟨Nat.le_add_right 48 d, Nat.add_le_add_left (Nat.le_of_lt_succ h) 48⟩

/-- What holds of a single digit and goes on holding if a digit is written behind a number that is
not zero holds of every number and its digits. -/
theorem ofNat_induction {P : Nat → Text → Prop} (single : ∀ d < 10, P d [digit d])
    (behind : ∀ n d, 0 < n → d < 10 → P n (ofNat n) → P (10 * n + d) (ofNat n ++ [digit d]))
    (n : Nat) : P n (ofNat n) := by
  induction n using Nat.strongRecOn with
  | ind n ih =>
      rcases Nat.lt_or_ge n 10 with hlt | hle
      · rw [ofNat, Nat.toDigits_of_lt_base hlt]
        exact single n hlt
      · have hn : 10 * (n / 10) + n % 10 = n := Nat.div_add_mod n 10
        have hdigits : ofNat n = ofNat (n / 10) ++ [digit (n % 10)] := by
          rw [ofNat, Nat.toDigits_of_base_le (by decide) hle, List.map_append]
          rfl
        have hstep := behind (n / 10) (n % 10) (by omega) (by omega) (ih (n / 10) (by omega))
        rwa [hn, ← hdigits] at hstep

theorem isDigits_ofNat (n : Nat) : IsDigits (ofNat n) := by
  refine ofNat_induction (P := fun _ t => IsDigits t) (fun d hd => ?_) (fun _ d _ hd h => ?_) n
  · exact ⟨List.cons_ne_nil _ _, List.forall_mem_singleton.2 (isDigit_digit hd)⟩
  · exact h.append (List.forall_mem_singleton.2 (isDigit_digit hd))

/-- What is written in base ten is read again. -/
theorem digitsValue_ofNat (n : Nat) : digitsValue (ofNat n) = n := by
  refine ofNat_induction (P := fun n t => digitsValue t = n) (fun d hd => ?_)
    (fun m d _ hd h => ?_) n
  · rw [← List.nil_append [digit d], digitsValue_concat, digitsValue_nil, val_digit hd]
    omega
  · rw [digitsValue_concat, h, val_digit hd]
    omega

/-- There is no zero in front. -/
theorem head?_ofNat_ne {n : Nat} (hn : 0 < n) :
    (ofNat n).head? ≠ some (CodePoint.ofChar '0') := by
  refine ofNat_induction (P := fun n t => 0 < n → t.head? ≠ some (CodePoint.ofChar '0'))
    (fun d hd hpos hzero => ?_) (fun m d hm _ h _ => ?_) n hn
  · have hval : (digit d).val = 48 := congrArg CodePoint.val (Option.some.inj hzero)
    rw [val_digit hd] at hval
    omega
  · rw [List.head?_append_of_ne_nil _ (isDigits_ofNat m).1]
    exact h hm

/-- So many digits zero. -/
def zeros (k : Nat) : Text := List.replicate k (CodePoint.ofChar '0')

theorem isDigit_of_mem_zeros {k : Nat} {c : CodePoint} (h : c ∈ zeros k) : c.isDigit = true := by
  rw [List.eq_of_mem_replicate h]
  decide

@[simp] theorem length_zeros (k : Nat) : (zeros k).length = k := List.length_replicate

@[simp] theorem digitsValue_zeros (k : Nat) : digitsValue (zeros k) = 0 := by
  induction k with
  | zero => rfl
  | succ k ih =>
      rw [zeros, List.replicate_succ', digitsValue_concat]
      change 10 * digitsValue (zeros k) + 0 = 0
      rw [ih]

end Text

namespace NumberLiteral

open Binary64 Text

/-! ## Exponents -/

namespace Exponent

/-- An exponent with a sign and at least two digits. -/
def ofInt (e : Int) : Exponent :=
  { mark := CodePoint.ofChar 'e'
    sign := some (CodePoint.ofChar (if e < 0 then '-' else '+'))
    digits := zeros (2 - (ofNat e.natAbs).length) ++ ofNat e.natAbs }

theorem render_ofInt (e : Int) : (ofInt e).render = writtenExponent e := by
  have hpos := List.length_pos_of_ne_nil (isDigits_ofNat e.natAbs).1
  have hpad : zeros (2 - (ofNat e.natAbs).length) ++ ofNat e.natAbs =
      if (ofNat e.natAbs).length < 2 then text "0" ++ ofNat e.natAbs else ofNat e.natAbs := by
    split
    · next hlt =>
        have hone : 2 - (ofNat e.natAbs).length = 1 := by omega
        rw [hone]
        rfl
    · next hle =>
        rw [Nat.sub_eq_zero_of_le (Nat.not_lt.1 hle)]
        rfl
  have hsign : text (if e < 0 then "-" else "+") =
      [CodePoint.ofChar (if e < 0 then '-' else '+')] := by
    split <;> rfl
  rw [render, ofInt, hpad, writtenExponent, hsign]
  rfl

theorem isExponentSign_ofInt (e : Int) : ∀ c ∈ (ofInt e).sign, isExponentSign c = true := by
  rintro c ⟨⟩
  split <;> decide

theorem isDigits_ofInt (e : Int) : IsDigits (ofInt e).digits :=
  (isDigits_ofNat e.natAbs).append_left fun _ hc => isDigit_of_mem_zeros hc

theorem value_ofInt (e : Int) : (ofInt e).value = e := by
  have hdigits : digitsValue (ofInt e).digits = e.natAbs := by
    rw [ofInt, digitsValue_append, digitsValue_zeros, digitsValue_ofNat, Nat.zero_mul, Nat.zero_add]
  rw [value, hdigits]
  rcases Int.lt_or_le e 0 with hneg | hpos
  · have hsign : (ofInt e).sign = some (CodePoint.ofChar '-') := by
      rw [ofInt, if_pos hneg]
    rw [if_pos hsign]
    omega
  · have hsign : (ofInt e).sign ≠ some (CodePoint.ofChar '-') := by
      rw [ofInt, if_neg (Int.not_lt.2 hpos)]
      exact fun h => nomatch h
    rw [if_neg hsign]
    omega

end Exponent

/-! ## Digits in their notations -/

/-- The literal of digits of which the first one stands for `10 ^ e`. -/
def ofDigits (negative : Bool) (digits : Text) (e : Int) : NumberLiteral :=
  if e < layout.leastPositional ∨ layout.firstTooLarge ≤ e then
    ⟨negative, digits.take 1, if digits.length ≤ 1 then none else some (digits.drop 1),
      some (.ofInt e)⟩
  else if e < 0 then ⟨negative, text "0", some (zeros (-e - 1).toNat ++ digits), none⟩
  else if digits.length ≤ e.toNat + 1 then
    ⟨negative, digits ++ zeros (e.toNat + 1 - digits.length), some (text "0"), none⟩
  else ⟨negative, digits.take (e.toNat + 1), some (digits.drop (e.toNat + 1)), none⟩

section

variable {digits : Text}

theorem negative_ofDigits (negative : Bool) (digits : Text) (e : Int) :
    (ofDigits negative digits e).negative = negative := by
  unfold ofDigits
  split_ifs <;> rfl

/-- The literal is what is written for the digits, with a sign in front. -/
theorem render_ofDigits (negative : Bool) (digits : Text) (e : Int) :
    (ofDigits negative digits e).render =
      (ofDigits negative digits e).signText ++ writtenDigits digits e := by
  unfold ofDigits writtenDigits
  split_ifs <;>
    simp [render_eq, fractionText, exponentText, Exponent.render_ofInt, zeros, text]

theorem wellFormed_positional (negative : Bool) {whole fraction : Text} (hwhole : IsDigits whole)
    (hzero : whole.head? = some (CodePoint.ofChar '0') → whole.length = 1)
    (hfraction : IsDigits fraction) : WellFormed ⟨negative, whole, some fraction, none⟩ where
  whole_digits := hwhole
  whole_zero := hzero
  fraction_digits := by
    rintro t ⟨⟩
    exact hfraction
  exponent_mark _ he := nomatch he
  exponent_sign _ he := nomatch he
  exponent_digits _ he := nomatch he

theorem wellFormed_scientific (negative : Bool) {whole : Text} {fraction : Option Text}
    (hwhole : IsDigits whole) (hlength : whole.length = 1)
    (hfraction : ∀ t ∈ fraction, IsDigits t) (e : Int) :
    WellFormed ⟨negative, whole, fraction, some (.ofInt e)⟩ where
  whole_digits := hwhole
  whole_zero _ := hlength
  fraction_digits := hfraction
  exponent_mark := by
    rintro _ ⟨⟩
    exact (show isExponentMark (CodePoint.ofChar 'e') = true by decide)
  exponent_sign := by
    rintro _ ⟨⟩
    exact Exponent.isExponentSign_ofInt e
  exponent_digits := by
    rintro _ ⟨⟩
    exact Exponent.isDigits_ofInt e

/-- If the digits do not start with a zero, they make a literal in each notation. -/
theorem wellFormed_ofDigits (negative : Bool) (hd : IsDigits digits)
    (hhead : digits.head? ≠ some (CodePoint.ofChar '0')) (e : Int) :
    (ofDigits negative digits e).WellFormed := by
  have hzero : IsDigits (text "0") := by decide
  have htake {k : Nat} (hk : 0 < k) : (digits.take k).head? ≠ some (CodePoint.ofChar '0') := by
    rwa [List.head?_take, if_neg hk.ne']
  have hlength : (digits.take 1).length = 1 := by
    have hpos := List.length_pos_of_ne_nil hd.1
    rw [List.length_take]
    omega
  unfold ofDigits
  split_ifs with hexp hlen hneg hpad
  · refine wellFormed_scientific negative (hd.take Nat.one_pos) hlength ?_ e
    rintro _ ⟨⟩
  · refine wellFormed_scientific negative (hd.take Nat.one_pos) hlength ?_ e
    rintro _ ⟨⟩
    exact hd.drop (Nat.not_le.1 hlen)
  · exact wellFormed_positional negative hzero (fun _ => rfl)
      (hd.append_left fun _ hc => isDigit_of_mem_zeros hc)
  · refine wellFormed_positional negative (hd.append fun _ hc => isDigit_of_mem_zeros hc)
      (fun h => absurd h ?_) hzero
    rwa [List.head?_append_of_ne_nil _ hd.1]
  · exact wellFormed_positional negative (hd.take (Nat.succ_pos _))
      (fun h => absurd h (htake (Nat.succ_pos _))) (hd.drop (Nat.not_le.1 hpad))

/-- In each notation the first digit stands for `10 ^ e`. -/
theorem value_ofDigits (negative : Bool) (hd : digits ≠ []) (e : Int) :
    ((ofDigits negative digits e).significand : ℚ) * 10 ^ (ofDigits negative digits e).scale =
      digitsValue digits * 10 ^ (e + 1 - digits.length) := by
  have hpos := List.length_pos_of_ne_nil hd
  have hzero : digitsValue (text "0") = 0 := rfl
  -- but for zeros at the end, the significand is that of the digits
  have hsame {l : NumberLiteral} (hs : l.significand = digitsValue digits)
      (he : l.scale = e + 1 - digits.length) :
      (l.significand : ℚ) * 10 ^ l.scale = digitsValue digits * 10 ^ (e + 1 - digits.length) := by
    rw [hs, he]
  unfold ofDigits
  split_ifs with hexp hlen hneg hpad
  · refine hsame ?_ ?_
    · rw [significand, NumberLiteral.digits, Option.getD_none, List.append_nil,
        List.take_of_length_le hlen]
    · simp only [scale, Option.map_some, Exponent.value_ofInt, Option.getD_some, Option.getD_none,
        List.length_nil]
      omega
  · refine hsame ?_ ?_
    · rw [significand, NumberLiteral.digits, Option.getD_some, List.take_append_drop]
    · simp only [scale, Option.map_some, Exponent.value_ofInt, Option.getD_some, List.length_drop]
      omega
  · refine hsame ?_ ?_
    · rw [significand, NumberLiteral.digits, Option.getD_some, digitsValue_append,
        digitsValue_append, digitsValue_zeros, hzero, Nat.zero_mul, Nat.zero_mul, Nat.zero_add,
        Nat.zero_add]
    · simp only [scale, Option.map_none, Option.getD_none, Option.getD_some, List.length_append,
        length_zeros]
      omega
  · rw [significand, NumberLiteral.digits, Option.getD_some, digitsValue_append, hzero,
      digitsValue_append, digitsValue_zeros, length_zeros]
    have hexponent : e + 1 - digits.length = ((e.toNat + 1 - digits.length : Nat) : ℤ) := by omega
    have hscale (whole : Text) : scale ⟨negative, whole, some (text "0"), none⟩ = -1 := rfl
    have hlength : (text "0").length = 1 := rfl
    rw [hexponent, zpow_natCast, hscale, hlength, zpow_neg_one]
    push_cast
    field_simp
    ring
  · refine hsame ?_ ?_
    · rw [significand, NumberLiteral.digits, Option.getD_some, List.take_append_drop]
    · simp only [scale, Option.map_none, Option.getD_none, Option.getD_some, List.length_drop]
      omega

end

/-- The literal of a decimal, by the digits of its factor. -/
def ofDecimal (negative : Bool) (factor : Nat) (p : Int) : NumberLiteral :=
  ofDigits negative (ofNat factor) (p + (ofNat factor).length - 1)

theorem negative_ofDecimal (negative : Bool) (factor : Nat) (p : Int) :
    (ofDecimal negative factor p).negative = negative :=
  negative_ofDigits _ _ _

theorem wellFormed_ofDecimal (negative : Bool) {factor : Nat} (h : 0 < factor) (p : Int) :
    (ofDecimal negative factor p).WellFormed :=
  wellFormed_ofDigits negative (isDigits_ofNat factor) (head?_ofNat_ne h) _

theorem value_ofDecimal (negative : Bool) (factor : Nat) (p : Int) :
    ((ofDecimal negative factor p).significand : ℚ) * 10 ^ (ofDecimal negative factor p).scale =
      factor * 10 ^ p := by
  rw [ofDecimal, value_ofDigits _ (isDigits_ofNat factor).1, digitsValue_ofNat, sub_add_cancel,
    add_sub_cancel_right]

end NumberLiteral

/-! ## Written numbers -/

namespace Binary64

open NumberLiteral

/-- The literal that a finite number is written as. -/
def literal (x : Binary64) : NumberLiteral :=
  if x.magnitude = 0 then ⟨x.negative, text "0", some (text "0"), none⟩
  else .ofDecimal x.negative (shortestDecimal x.magnitude).1 (shortestDecimal x.magnitude).2

theorem negative_literal (x : Binary64) : x.literal.negative = x.negative := by
  unfold literal
  split_ifs
  · rfl
  · exact negative_ofDecimal _ _ _

theorem render_literal {x : Binary64} (hx : x.isFinite = true) : x.literal.render = x.written := by
  have hfinite : ¬ infinity ≤ x.magnitude := Nat.not_le.2 (of_decide_eq_true hx)
  have hsign : x.literal.signText = if x.negative then text "-" else [] := by
    rw [signText, negative_literal]
    rfl
  rw [written, writtenMagnitude, ← hsign]
  unfold literal
  split_ifs with hzero
  · rw [render_eq, List.append_assoc, List.append_assoc]
    rfl
  · generalize shortestDecimal x.magnitude = shortest
    obtain ⟨factor, p⟩ := shortest
    exact render_ofDigits _ _ _

theorem wellFormed_literal (x : Binary64) : x.literal.WellFormed := by
  unfold literal
  split_ifs with hzero
  · exact wellFormed_positional _ (by decide) (fun _ => rfl) (by decide)
  · have hpos := Nat.pos_of_ne_zero hzero
    exact wellFormed_ofDecimal _ (factor_pos hpos (isShortest_shortestDecimal hpos).rounds) _

/-- The literal stands for a decimal that is rounded to the number. -/
theorem isBetweenMidpoints_literal (x : Binary64) :
    IsBetweenMidpoints x.magnitude (x.literal.ratio.1 / x.literal.ratio.2) := by
  rw [ratio_eq]
  unfold literal
  split_ifs with hzero
  · have hvalue : significand ⟨x.negative, text "0", some (text "0"), none⟩ = 0 := rfl
    have habs := isBetweenMidpoints_absOf 0
    rw [absOf_zero] at habs
    rwa [hzero, hvalue, Nat.cast_zero, zero_mul]
  · rw [value_ofDecimal]
    exact (isShortest_shortestDecimal (Nat.pos_of_ne_zero hzero)).rounds

/-- What is written for a number is converted to the same number. -/
theorem toBinary64_literal (x : Binary64) : x.literal.toBinary64 = x := by
  rw [x.wellFormed_literal.toBinary64_eq, negative_literal]
  exact ofRatio_of_isBetweenMidpoints x.literal.ratio_snd_pos x.isBetweenMidpoints_literal

end Binary64

end Descent
