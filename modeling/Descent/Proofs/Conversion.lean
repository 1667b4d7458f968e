import Descent.Proofs.Literals
import Descent.Proofs.Rounding
import Descent.Run
import Mathlib.Tactic.Positivity

/-!
# The numbers of literals

The exact value of a literal is a rational number, and the number it is converted to is the
one that value is rounded to. A scale that is far off is not raised to a power of ten: the
bounds on the significand tell what the power would have led to.
-/

namespace Descent

open Binary64

/-! ## Digits in base ten -/

theorem digitsValue_append (s t : Text) :
    digitsValue (s ++ t) = digitsValue s * 10 ^ t.length + digitsValue t := by
  induction t using List.reverseRecOn with
  | nil => simp
  | append_singleton t c ih =>
      rw [← List.append_assoc, digitsValue_concat, ih, digitsValue_concat, List.length_append,
        List.length_singleton]
      ring

theorem digitsValue_lt {t : Text} (h : ∀ c ∈ t, c.isDigit = true) :
    digitsValue t < 10 ^ t.length := by
  induction t using List.reverseRecOn with
  | nil => exact Nat.one_pos
  | append_singleton t c ih =>
      have hc : c.val ≤ '9'.toNat := (CodePoint.between_iff.1 (h c (by simp))).2
      have ht := ih fun d hd => h d (List.mem_append_left _ hd)
      have hnine : '9'.toNat = 57 := rfl
      rw [digitsValue_concat, List.length_append, List.length_singleton, pow_succ]
      omega

namespace NumberLiteral

/-- The value that the literal is written for. -/
def exact (l : NumberLiteral) : ℚ :=
  let fraction := l.fraction.getD []
  let exponent : ℤ := (l.exponent.map Exponent.value).getD 0
  signOf l.negative *
    ((digitsValue l.whole + digitsValue fraction / 10 ^ fraction.length) * 10 ^ exponent)

theorem significand_eq (l : NumberLiteral) : (l.significand : ℚ) =
    (digitsValue l.whole + digitsValue (l.fraction.getD []) / 10 ^ (l.fraction.getD []).length) *
      10 ^ (l.fraction.getD []).length := by
  rw [significand, digits, digitsValue_append, Nat.cast_add, Nat.cast_mul, Nat.cast_pow]
  field_simp
  norm_num

/-- The two powers of ten of a ratio make one with a sign. -/
theorem pow_toNat_div_pow_toNat (n : ℤ) :
    (10 : ℚ) ^ n.toNat / 10 ^ (-n).toNat = 10 ^ n := by
  rw [← zpow_natCast, ← zpow_natCast, ← zpow_sub₀ (by norm_num), Int.toNat_sub_toNat_neg]

/-- A factor and a power of ten as a quotient of natural numbers. -/
theorem cast_mul_pow_div_cast_pow (c : Nat) (n : ℤ) :
    ((c * Nat.pow 10 n.toNat : Nat) : ℚ) / (Nat.pow 10 (-n).toNat : Nat) = c * 10 ^ n := by
  change ((c * 10 ^ n.toNat : Nat) : ℚ) / ((10 ^ (-n).toNat : Nat) : ℚ) = _
  rw [Nat.cast_mul, Nat.cast_pow, Nat.cast_pow, Nat.cast_ofNat, mul_div_assoc,
    pow_toNat_div_pow_toNat]

theorem ratio_eq (l : NumberLiteral) :
    (l.ratio.1 : ℚ) / l.ratio.2 = l.significand * 10 ^ l.scale :=
  cast_mul_pow_div_cast_pow l.significand l.scale

/-- The ratio is the exact value but for the sign. -/
theorem exact_eq (l : NumberLiteral) :
    l.exact = signOf l.negative * ((l.ratio.1 : ℚ) / l.ratio.2) := by
  have hten : (10 : ℚ) ≠ 0 := by norm_num
  rw [ratio_eq, significand_eq, scale, zpow_sub₀ hten, zpow_natCast, exact]
  field_simp

theorem ratio_snd_pos (l : NumberLiteral) : 0 < l.ratio.2 := Nat.pow_pos (by decide)

section

variable {l : NumberLiteral}

theorem WellFormed.significand_lt (h : l.WellFormed) : l.significand < 10 ^ l.digits.length := by
  refine digitsValue_lt fun c hc => ?_
  rcases List.mem_append.1 hc with hc | hc
  · exact h.whole_digits.2 c hc
  · cases hf : l.fraction with
    | none =>
        rw [hf] at hc
        cases hc
    | some ds =>
        rw [hf] at hc
        exact (h.fraction_digits ds hf).2 c hc

/-! ## Scales that are far off -/

theorem two_pow_le_ten_pow {e n : Nat} (h : e ≤ 3 * n) : 2 ^ e ≤ 10 ^ n :=
  calc 2 ^ e ≤ 2 ^ (3 * n) := Nat.pow_le_pow_right two_pos h
    _ = (2 ^ 3) ^ n := pow_mul 2 3 n
    _ ≤ 10 ^ n := Nat.pow_le_pow_left (by decide) n

/-- A scale that is too large leads beyond all numbers. -/
theorem le_ratio_fst (h : 0 < l.significand) (hscale : 400 < l.scale) :
    2 ^ 1024 * l.ratio.2 ≤ l.ratio.1 := by
  have hden : l.ratio.2 = 1 := by
    have hexp : (-l.scale).toNat = 0 := by omega
    change 10 ^ (-l.scale).toNat = 1
    rw [hexp, pow_zero]
  have hscale : 1024 ≤ 3 * l.scale.toNat := by omega
  rw [hden, Nat.mul_one]
  exact (two_pow_le_ten_pow hscale).trans (Nat.le_mul_of_pos_left _ h)

/-- A scale that is too small, for the number of digits, leads below half a unit. -/
theorem WellFormed.ratio_fst_lt (h : l.WellFormed) (hscale : l.scale + l.digits.length < -400) :
    2 * (l.ratio.1 * unitsOfOne) < l.ratio.2 := by
  have hnum : l.ratio.1 = l.significand := by
    have hexp : l.scale.toNat = 0 := by omega
    change l.significand * 10 ^ l.scale.toNat = l.significand
    rw [hexp, pow_zero, Nat.mul_one]
  obtain ⟨k, hk⟩ : ∃ k, (-l.scale).toNat = l.digits.length + k ∧ 401 ≤ k :=
    ⟨(-l.scale).toNat - l.digits.length, by omega, by omega⟩
  have hunits : 2 * unitsOfOne ≤ 10 ^ k := by
    rw [unitsOfOne_eq, ← pow_succ']
    exact two_pow_le_ten_pow (by omega)
  rw [hnum]
  calc 2 * (l.significand * unitsOfOne) = l.significand * (2 * unitsOfOne) := by
        rw [Nat.mul_left_comm]
    _ ≤ l.significand * 10 ^ k := Nat.mul_le_mul_left _ hunits
    _ < 10 ^ l.digits.length * 10 ^ k :=
        Nat.mul_lt_mul_of_pos_right h.significand_lt (Nat.pow_pos (by decide))
    _ = l.ratio.2 := by
        change _ = 10 ^ (-l.scale).toNat
        rw [hk.1, pow_add]

/-- What is decided by the scale alone is what the ratio is rounded to. -/
theorem WellFormed.toBinary64_eq (h : l.WellFormed) :
    l.toBinary64 = ofRatio l.negative l.ratio.1 l.ratio.2 := by
  unfold toBinary64
  split_ifs with hzero hlarge hsmall
  · have hnum : l.ratio.1 = 0 := Nat.mul_eq_zero.2 (.inl hzero)
    rw [ofRatio_of_lt _ (by rw [hnum, Nat.zero_mul]; exact l.ratio_snd_pos)]
  · rw [ofRatio_of_le _ l.ratio_snd_pos (le_ratio_fst (Nat.pos_of_ne_zero hzero) hlarge)]
  · rw [ofRatio_of_lt _ (h.ratio_fst_lt hsmall)]
  · rfl

theorem WellFormed.isRounded (h : l.WellFormed) : IsRounded l.exact l.toBinary64.toBits := by
  rw [exact_eq, h.toBinary64_eq]
  exact isRounded_ofRatio l.negative l.ratio_snd_pos

theorem negative_toBinary64 (l : NumberLiteral) : l.toBinary64.negative = l.negative := by
  unfold toBinary64
  split_ifs <;> rfl

theorem WellFormed.head_render (h : l.WellFormed) :
    l.render.head? = some (CodePoint.ofChar '-') ↔ l.negative = true := by
  rw [render_eq, signText]
  cases l.negative with
  | true => simp
  | false =>
      have hdigit := (wellFormed_iff.1 h).1.head_isDigit
        (fractionText l.fraction ++ exponentText l.exponent)
      rw [if_neg Bool.false_ne_true, List.nil_append, List.append_assoc]
      refine iff_of_false (fun hminus => ?_) Bool.false_ne_true
      exact ne_of_isDigit (hdigit _ hminus) (by decide) rfl

end

end NumberLiteral

namespace Parser

/-- A text is converted if it is a number literal from end to end, of any length and with any
exponent, and then to the one number that is the exact value correctly rounded, with the sign
that is written. Every other text is no parse, at every cursor. -/
theorem toNumber_isRounded (e : Entry) (t cur : Text) :
    (∀ l : NumberLiteral, l.WellFormed → t = l.render →
      ∃ x : Binary64, (toNumber (.str t)).parse e cur = pure [⟨.float x, cur⟩] ∧
        ∀ bits, x.toBits = bits ↔ IsRounded l.exact bits ∧
          (bits.testBit 63 = true ↔ t.head? = some (CodePoint.ofChar '-'))) ∧
    ((∀ l : NumberLiteral, l.WellFormed → t ≠ l.render) →
      (toNumber (.str t)).parse e cur = pure []) := by
  constructor
  · rintro l h rfl
    have hread : NumberLiteral.read? l.render = some l := NumberLiteral.read?_eq_some_iff.2 ⟨h, rfl⟩
    have hsign : l.toBinary64.toBits.testBit 63 = true ↔
        l.render.head? = some (CodePoint.ofChar '-') := by
      rw [testBit_toBits, l.negative_toBinary64, h.head_render]
    refine ⟨l.toBinary64, ?_, fun bits => ⟨?_, ?_⟩⟩
    · rw [toNumber, hread, parse_lift]
    · rintro rfl
      exact ⟨h.isRounded, hsign⟩
    · rintro ⟨hrounded, hbit⟩
      exact h.isRounded.unique hrounded (Bool.eq_iff_iff.2 (hsign.trans hbit.symm))
  · intro h
    have hread : NumberLiteral.read? t = none := by
      refine Option.eq_none_iff_forall_ne_some.2 fun l hl => ?_
      obtain ⟨hwf, htext⟩ := NumberLiteral.read?_eq_some_iff.1 hl
      exact h l hwf htext
    rw [toNumber, hread, parse_fail]

-- a tie, which goes to the even number, a zero that keeps its sign, and what is no literal
example :
    let bits (s : String) := (NumberLiteral.read? (text s)).map fun l => l.toBinary64.toBits
    bits "9007199254740993" = some 0x4340000000000000 ∧ bits "-1e-999" = some (2 ^ 63) ∧
      bits "1_0" = none := by
  decide +kernel

end Parser

end Descent
