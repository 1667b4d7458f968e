import Descent.Proofs.Magnitudes
import Mathlib.Algebra.Order.Field.Power
import Mathlib.Data.Rat.Cast.Order
import Mathlib.Tactic.FieldSimp
import Mathlib.Tactic.NormNum

/-!
# Correct rounding

What sixty-four bits stand for is told by their sign, exponent and fraction bits, and a
rational number is rounded to the bits whose value is nearest to it; of two nearest values
the one with the even bits is taken, and from `2 ^ 1024 - 2 ^ 970` on, which is half a step
beyond the largest value, the bits are those of infinity. None of this knows of `units` or
of how a quotient is rounded.
-/

namespace Descent

namespace Binary64

/-- Minus one for a negative number. -/
def signOf (negative : Bool) : ℚ := if negative then -1 else 1

/-- What the bits stand for, if it is finite: by the sign bit, the eleven exponent bits and
the fifty-two fraction bits. With the lowest exponent there is a fraction alone. -/
def valueOfBits? (bits : Nat) : Option ℚ :=
  let sign := signOf (bits.testBit 63)
  let exponent : Nat := bits / 2 ^ 52 % 2 ^ 11
  let fraction : Nat := bits % 2 ^ 52
  if exponent = 2047 then none
  else if exponent = 0 then some (sign * (fraction / 2 ^ 52 * 2 ^ (-1022 : ℤ)))
  else some (sign * ((1 + fraction / 2 ^ 52) * 2 ^ (exponent - 1023 : ℤ)))

/-- The bits of the number nearest to `q`, and of the even one if two are nearest. They are
infinite from the midpoint on that follows the largest finite number. -/
structure IsRounded (q : ℚ) (bits : Nat) : Prop where
  lt : bits < 2 ^ 64
  infinite : 2 ^ 1024 - 2 ^ 970 ≤ |q| → bits % 2 ^ 63 = 2047 * 2 ^ 52
  nearest : |q| < 2 ^ 1024 - 2 ^ 970 → ∃ v, valueOfBits? bits = some v ∧
    ∀ bits' v', valueOfBits? bits' = some v' →
      |v - q| ≤ |v' - q| ∧ (|v - q| = |v' - q| → v' = v ∨ bits % 2 = 0)

/-! ## Values by their units -/

theorem abs_signOf (negative : Bool) : |signOf negative| = 1 := by
  cases negative <;> norm_num [signOf]

theorem signOf_ne_zero (negative : Bool) : signOf negative ≠ 0 := by
  cases negative <;> norm_num [signOf]

/-- The absolute value of a magnitude. -/
def absOf (magnitude : Nat) : ℚ := units magnitude / 2 ^ 1074

theorem cast_two_pow (e : Nat) : ((Nat.pow 2 e : Nat) : ℚ) = 2 ^ e := Nat.cast_pow 2 e

theorem unitsOfOne_eq : unitsOfOne = 2 ^ 1074 := by
  unfold unitsOfOne
  -- as a literal the power is too large to be evaluated
  generalize 1074 = e
  rfl

theorem cast_unitsOfOne : (unitsOfOne : ℚ) = 2 ^ 1074 := by
  rw [unitsOfOne_eq, Nat.cast_pow, Nat.cast_two]

theorem absOf_of_lt {m : Nat} (h : m < fractions) :
    absOf m = (m : ℚ) / 2 ^ 52 * 2 ^ (-1022 : ℤ) := by
  have hexp : (2 : ℚ) ^ 1074 = 2 ^ 52 * 2 ^ 1022 := by rw [← pow_add]
  rw [absOf, units, if_pos h, hexp, zpow_neg, div_mul_eq_div_div, div_eq_mul_inv _ ((2 : ℚ) ^ 1022)]
  rfl

theorem absOf_of_le {m : Nat} (h : fractions ≤ m) :
    absOf m = (1 + (m % fractions : Nat) / 2 ^ 52) * 2 ^ ((m / fractions : Nat) - 1023 : ℤ) := by
  have hpos : 0 < m / fractions := Nat.div_pos h fractions_pos
  obtain ⟨e, he⟩ := Nat.exists_eq_add_one_of_ne_zero hpos.ne'
  have hfractions : (fractions : ℚ) = 2 ^ 52 := cast_two_pow 52
  have hexp : ((e + 1 : Nat) - 1023 : ℤ) = (e : ℤ) + 52 - 1074 := by omega
  have hpow : (2 : ℚ) ^ ((e + 1 : Nat) - 1023 : ℤ) = 2 ^ e * 2 ^ 52 / 2 ^ 1074 := by
    rw [hexp, zpow_sub₀ two_ne_zero, zpow_add₀ two_ne_zero]
    rfl
  rw [absOf, units, if_neg (Nat.not_lt.2 h), he, hpow, Nat.add_sub_cancel, Nat.cast_mul,
    Nat.cast_add, hfractions, cast_two_pow]
  field_simp

/-- The magnitude of the bits tells their value up to the sign. -/
theorem valueOfBits?_eq (bits : Nat) : valueOfBits? bits =
    if bits % 2 ^ 63 < infinity then
      some (signOf (bits.testBit 63) * absOf (bits % 2 ^ 63))
    else none := by
  have hexponent : bits / 2 ^ 52 % 2 ^ 11 = bits % 2 ^ 63 / fractions :=
    (Nat.mod_mul_right_div_self bits (2 ^ 52) (2 ^ 11)).symm
  have hfraction : bits % 2 ^ 52 = bits % 2 ^ 63 % fractions :=
    (Nat.mod_mul_right_mod bits (2 ^ 52) (2 ^ 11)).symm
  have hlt : bits % 2 ^ 63 < 2048 * fractions := Nat.mod_lt bits (Nat.two_pow_pos 63)
  have hinfinity : infinity = 2047 * fractions := rfl
  unfold valueOfBits?
  rw [hexponent, hfraction, hinfinity]
  generalize bits % 2 ^ 63 = m at hlt
  dsimp only
  by_cases hfinite : m < 2047 * fractions
  · have hne : m / fractions ≠ 2047 := ((Nat.div_lt_iff_lt_mul fractions_pos).2 hfinite).ne
    rw [if_neg hne, if_pos hfinite]
    by_cases hlow : m < fractions
    · rw [if_pos (Nat.div_eq_of_lt hlow), absOf_of_lt hlow, Nat.mod_eq_of_lt hlow]
    · have hle := Nat.not_lt.1 hlow
      rw [if_neg (Nat.div_pos hle fractions_pos).ne', absOf_of_le hle]
  · have heq : m / fractions = 2047 :=
      Nat.div_eq_of_lt_le (Nat.not_lt.1 hfinite) hlt
    rw [if_pos heq, if_neg hfinite]

theorem valueOfBits?_eq_some_iff {bits : Nat} {v : ℚ} : valueOfBits? bits = some v ↔
    bits % 2 ^ 63 < infinity ∧ v = signOf (bits.testBit 63) * absOf (bits % 2 ^ 63) := by
  rw [valueOfBits?_eq, Option.ite_none_right_eq_some, Option.some.injEq, eq_comm (b := v)]

/-! ## The bits of a number -/

theorem toBits_lt (x : Binary64) : x.toBits < 2 ^ 64 := by
  have hle : x.magnitude ≤ 0x7FF0000000000000 := x.le_infinity
  unfold toBits
  split <;> omega

theorem toBits_mod (x : Binary64) : x.toBits % 2 ^ 63 = x.magnitude := by
  have hle : x.magnitude ≤ 0x7FF0000000000000 := x.le_infinity
  unfold toBits
  split <;> omega

theorem testBit_toBits (x : Binary64) : x.toBits.testBit 63 = x.negative := by
  have hle : x.magnitude ≤ 0x7FF0000000000000 := x.le_infinity
  have hbit : x.toBits / 2 ^ 63 = if x.negative then 1 else 0 := by
    unfold toBits
    split <;> omega
  rw [Nat.testBit_eq_decide_div_mod_eq, hbit]
  cases x.negative <;> rfl

theorem toBits_mod_two (x : Binary64) : x.toBits % 2 = x.magnitude % 2 := by
  unfold toBits
  split <;> omega

/-! ## Nearest magnitudes -/

theorem strictMono_absOf : StrictMono absOf := fun _ _ h =>
  div_lt_div_of_pos_right (Nat.cast_lt.2 (strictMono_units h)) (pow_pos two_pos 1074)

@[simp] theorem absOf_zero : absOf 0 = 0 := by
  rw [absOf, units_zero, Nat.cast_zero, zero_div]

theorem absOf_nonneg (m : Nat) : 0 ≤ absOf m :=
  div_nonneg (Nat.cast_nonneg _) (pow_nonneg zero_le_two 1074)

/-- The absolute value lies between the midpoints to the two neighbours of the magnitude, and
off them if the magnitude is odd. -/
structure IsBetweenMidpoints (m : Nat) (r : ℚ) : Prop where
  low : absOf (m - 1) + absOf m ≤ 2 * r
  high : 2 * r ≤ absOf m + absOf (m + 1)
  odd : m % 2 = 1 → absOf (m - 1) + absOf m ≠ 2 * r ∧ 2 * r ≠ absOf m + absOf (m + 1)

/-- In units and in half units, the bounds of a magnitude are these midpoints. -/
theorem roundsTo_iff_isBetweenMidpoints {m a b : Nat} (hb : 0 < b) :
    roundsTo m (2 * (a * unitsOfOne)) b = true ↔ IsBetweenMidpoints m (a / b) := by
  have hunits : ((2 * (a * unitsOfOne) : Nat) : ℚ) = 2 * (a / b) * (2 ^ 1074 * b) := by
    have hne : (b : ℚ) ≠ 0 := Nat.cast_ne_zero.2 hb.ne'
    rw [Nat.cast_mul, Nat.cast_mul, cast_unitsOfOne, Nat.cast_two]
    generalize (2 : ℚ) ^ 1074 = one
    field_simp
  have hmid (k l : Nat) : (((units k + units l) * b : Nat) : ℚ) =
      (absOf k + absOf l) * (2 ^ 1074 * b) := by
    rw [absOf, absOf, Nat.cast_mul, Nat.cast_add]
    field_simp
  have hpos : (0 : ℚ) < 2 ^ 1074 * b := mul_pos (pow_pos two_pos 1074) (Nat.cast_pos.2 hb)
  have hlow (k l : Nat) : (units k + units l) * b ≤ 2 * (a * unitsOfOne) ↔
      absOf k + absOf l ≤ 2 * (a / b) := by
    rw [← Nat.cast_le (α := ℚ), hmid, hunits, mul_le_mul_iff_left₀ hpos]
  have hhigh (k l : Nat) : 2 * (a * unitsOfOne) ≤ (units k + units l) * b ↔
      2 * (a / b) ≤ absOf k + absOf l := by
    rw [← Nat.cast_le (α := ℚ), hmid, hunits, mul_le_mul_iff_left₀ hpos]
  have heq (k l : Nat) : (units k + units l) * b = 2 * (a * unitsOfOne) ↔
      absOf k + absOf l = 2 * (a / b) := by
    rw [← Nat.cast_inj (R := ℚ), hmid, hunits, mul_left_inj' hpos.ne']
  rw [roundsTo_iff, hlow, hhigh, ne_eq, heq, ne_comm, ne_eq, heq]
  constructor
  · rintro ⟨hlow, hhigh, hodd⟩
    exact ⟨hlow, hhigh, fun h => ⟨(hodd h).1, Ne.symm (hodd h).2⟩⟩
  · intro h
    exact ⟨h.low, h.high, fun hm => ⟨(h.odd hm).1, (h.odd hm).2.symm⟩⟩

theorem isBetweenMidpoints_roundUnits {a b : Nat} (hb : 0 < b) :
    IsBetweenMidpoints (roundUnits (a * unitsOfOne) b) (a / b) :=
  (roundsTo_iff_isBetweenMidpoints hb).1 (roundsTo_roundUnits hb)

section

variable {m : Nat} {r : ℚ}

/-- No magnitude is nearer, and an odd one is nearer than every other. -/
theorem IsBetweenMidpoints.nearest (h : IsBetweenMidpoints m r) (k : Nat) :
    |absOf m - r| ≤ |absOf k - r| ∧ (|absOf m - r| = |absOf k - r| → k = m ∨ m % 2 = 0) := by
  obtain ⟨hlow, hhigh, hodd⟩ := h
  obtain hlt | rfl | hlt := lt_trichotomy k m
  · have hkm : absOf k < absOf m := strictMono_absOf hlt
    have hle : absOf k ≤ absOf (m - 1) := strictMono_absOf.monotone (Nat.le_sub_one_of_lt hlt)
    have hk : |absOf k - r| = r - absOf k := by
      rw [abs_sub_comm, abs_of_nonneg]
      linarith
    rw [hk]
    refine ⟨abs_le.2 ⟨by linarith, by linarith⟩, fun heq => .inr ?_⟩
    refine (Nat.mod_two_eq_zero_or_one m).resolve_right fun h1 => (hodd h1).1 ?_
    rcases abs_choice (absOf m - r) with hm | hm <;> linarith
  · exact ⟨le_rfl, fun _ => .inl rfl⟩
  · have hkm : absOf m < absOf k := strictMono_absOf hlt
    have hle : absOf (m + 1) ≤ absOf k := strictMono_absOf.monotone hlt
    have hk : |absOf k - r| = absOf k - r := by
      rw [abs_of_nonneg]
      linarith
    rw [hk]
    refine ⟨abs_le.2 ⟨by linarith, by linarith⟩, fun heq => .inr ?_⟩
    refine (Nat.mod_two_eq_zero_or_one m).resolve_right fun h1 => (hodd h1).2 ?_
    rcases abs_choice (absOf m - r) with hm | hm <;> linarith

/-- A number lies between the midpoints of one magnitude only: the one midpoint that two
magnitudes have in common does not belong to the odd one. -/
theorem IsBetweenMidpoints.le_of_isBetweenMidpoints {k : Nat} (hm : IsBetweenMidpoints m r)
    (hk : IsBetweenMidpoints k r) : m ≤ k := by
  by_contra hlt
  have hnext : absOf (k + 1) ≤ absOf m := strictMono_absOf.monotone (Nat.not_le.1 hlt)
  have hpred : absOf k ≤ absOf (m - 1) :=
    strictMono_absOf.monotone (Nat.le_sub_one_of_lt (Nat.not_le.1 hlt))
  have hadjacent : m = k + 1 := strictMono_absOf.injective (by linarith [hm.low, hk.high])
  subst hadjacent
  rw [Nat.add_sub_cancel] at hpred
  rcases Nat.mod_two_eq_zero_or_one k with heven | hodd
  · exact (hm.odd (by omega)).1 (hm.low.antisymm hk.high)
  · exact (hk.odd hodd).2 (hk.high.antisymm hm.low)

theorem IsBetweenMidpoints.unique {k : Nat} (hm : IsBetweenMidpoints m r)
    (hk : IsBetweenMidpoints k r) : m = k :=
  (hm.le_of_isBetweenMidpoints hk).antisymm (hk.le_of_isBetweenMidpoints hm)

/-- What a significand is worth. -/
theorem IsSignificand.absOf_eq {s q : Nat} (h : IsSignificand s q) :
    absOf (s * fractions + q) = q * 2 ^ s / 2 ^ 1074 := by
  rw [absOf, h.units_eq, Nat.cast_mul, Nat.cast_pow, Nat.cast_two]

theorem absOf_infinity : absOf infinity = 2 ^ 1024 := by
  have hcarry : IsSignificand 2045 (2 * fractions) :=
    ⟨.inl (Nat.le_mul_of_pos_left _ two_pos), le_rfl⟩
  have hinfinity : infinity = 2045 * fractions + 2 * fractions := rfl
  have hfractions : ((2 * fractions : Nat) : ℚ) = 2 ^ 53 := Nat.cast_pow 2 53
  rw [hinfinity, hcarry.absOf_eq, hfractions, ← pow_add, div_eq_iff (pow_ne_zero _ two_ne_zero),
    ← pow_add]

theorem absOf_infinity_pred : absOf (infinity - 1) = 2 ^ 1024 - 2 ^ 971 := by
  have hlast : IsSignificand 2045 (2 * fractions - 1) := ⟨.inl (by decide), Nat.sub_le _ _⟩
  have hpred : infinity - 1 = 2045 * fractions + (2 * fractions - 1) := rfl
  have hfractions : ((2 * fractions - 1 : Nat) : ℚ) = 2 ^ 53 - 1 := Nat.cast_pred (by decide)
  have hscale : (2 : ℚ) ^ 2045 / 2 ^ 1074 = 2 ^ 971 := by
    rw [div_eq_iff (pow_ne_zero _ two_ne_zero), ← pow_add]
  have hexp : (2 : ℚ) ^ 1024 = 2 ^ 53 * 2 ^ 971 := by rw [← pow_add]
  rw [hpred, hlast.absOf_eq, hfractions, mul_div_assoc, hscale, hexp, sub_mul, one_mul]

/-- A magnitude is too large from the midpoint on that follows the largest finite one. -/
theorem IsBetweenMidpoints.infinity_le_iff (h : IsBetweenMidpoints m r) :
    infinity ≤ m ↔ 2 ^ 1024 - 2 ^ 970 ≤ r := by
  have hmid : absOf (infinity - 1) + absOf infinity = 2 * (2 ^ 1024 - 2 ^ 970) := by
    rw [absOf_infinity, absOf_infinity_pred, pow_succ' (2 : ℚ) 970]
    generalize (2 : ℚ) ^ 1024 = x, (2 : ℚ) ^ 970 = y
    ring
  generalize (2 : ℚ) ^ 1024 - 2 ^ 970 = mid at hmid ⊢
  constructor
  · intro hle
    have hpred : absOf (infinity - 1) ≤ absOf (m - 1) :=
      strictMono_absOf.monotone (Nat.sub_le_sub_right hle 1)
    have hm : absOf infinity ≤ absOf m := strictMono_absOf.monotone hle
    linarith [h.low]
  · intro hr
    by_contra hlt
    have hle : m ≤ infinity - 1 := Nat.le_sub_one_of_lt (Nat.not_le.1 hlt)
    have hpred : absOf m ≤ absOf (infinity - 1) := strictMono_absOf.monotone hle
    have hnext : absOf (m + 1) ≤ absOf infinity := strictMono_absOf.monotone (Nat.not_le.1 hlt)
    -- only the largest finite magnitude reaches the midpoint, and it is odd
    have heq : m = infinity - 1 := by
      refine hle.antisymm (Nat.not_lt.1 fun hm => ?_)
      linarith [h.high, strictMono_absOf hm]
    subst heq
    exact (h.odd (by decide)).2 (le_antisymm h.high (by linarith))

/-- A magnitude with the sign of the value is as near as the magnitude, and the sign cannot
bring another one nearer. -/
theorem IsBetweenMidpoints.nearest_signed (h : IsBetweenMidpoints m r) (hr : 0 ≤ r)
    {sign sign' : ℚ} (hsign : |sign| = 1) (hsign' : |sign'| = 1) (k : Nat) :
    |sign * absOf m - sign * r| ≤ |sign' * absOf k - sign * r| ∧
      (|sign * absOf m - sign * r| = |sign' * absOf k - sign * r| →
        sign' * absOf k = sign * absOf m ∨ m % 2 = 0) := by
  have hm : |sign * absOf m - sign * r| = |absOf m - r| := by
    rw [← mul_sub, abs_mul, hsign, one_mul]
  have hk : |absOf k - r| ≤ |sign' * absOf k - sign * r| := by
    have hle := abs_abs_sub_abs_le (sign' * absOf k) (sign * r)
    rwa [abs_mul, abs_mul, hsign, hsign', one_mul, one_mul, abs_of_nonneg (absOf_nonneg k),
      abs_of_nonneg hr] at hle
  obtain ⟨hle, htie⟩ := h.nearest k
  rw [hm]
  refine ⟨hle.trans hk, fun heq => ?_⟩
  refine (htie (hle.antisymm (hk.trans heq.ge))).imp_left fun hkm => ?_
  subst hkm
  by_cases hsame : sign' = sign
  · rw [hsame]
  · -- a value and its opposite are as near to each other as the nearest one only at zero
    have hopposite : sign' = -sign := (abs_eq_abs.1 (hsign'.trans hsign.symm)).resolve_left hsame
    have hsum : |sign' * absOf k - sign * r| = absOf k + r := by
      rw [hopposite, neg_mul, ← neg_add', abs_neg, ← mul_add, abs_mul, hsign, one_mul,
        abs_of_nonneg (add_nonneg (absOf_nonneg k) hr)]
    have hzero := (h.nearest 0).1
    rw [absOf_zero, zero_sub, abs_neg, abs_of_nonneg hr] at hzero
    have hk0 : absOf k = 0 := by
      refine le_antisymm ?_ (absOf_nonneg k)
      linarith
    rw [hk0, mul_zero, mul_zero]

end

/-! ## Quotients -/

/-- A quotient with a sign goes to the number nearest to it. -/
theorem isRounded_ofRatio (negative : Bool) {a b : Nat} (hb : 0 < b) :
    IsRounded (signOf negative * (a / b)) (ofRatio negative a b).toBits := by
  have hbetween := isBetweenMidpoints_roundUnits (a := a) hb
  have hr : (0 : ℚ) ≤ a / b := div_nonneg (Nat.cast_nonneg a) (Nat.cast_nonneg b)
  have hmagnitude : (ofRatio negative a b).magnitude =
    min (roundUnits (a * unitsOfOne) b) infinity := rfl
  have hnegative : (ofRatio negative a b).negative = negative := rfl
  generalize ofRatio negative a b = x at hmagnitude hnegative
  generalize roundUnits (a * unitsOfOne) b = m at hbetween hmagnitude
  generalize (a / b : ℚ) = r at hbetween hr
  have habs : |signOf negative * r| = r := by
    rw [abs_mul, abs_signOf, one_mul, abs_of_nonneg hr]
  refine ⟨toBits_lt x, fun hle => ?_, fun hlt => ?_⟩
  · rw [habs, ← hbetween.infinity_le_iff] at hle
    rw [toBits_mod, hmagnitude, Nat.min_eq_right hle]
    rfl
  · rw [habs, ← not_le, ← hbetween.infinity_le_iff, Nat.not_le] at hlt
    rw [Nat.min_eq_left hlt.le] at hmagnitude
    refine ⟨signOf negative * absOf m, ?_, fun bits' v' hv' => ?_⟩
    · rw [valueOfBits?_eq, toBits_mod, testBit_toBits, hmagnitude, hnegative, if_pos hlt]
    · obtain ⟨-, rfl⟩ := valueOfBits?_eq_some_iff.1 hv'
      rw [toBits_mod_two, hmagnitude]
      exact hbetween.nearest_signed hr (abs_signOf negative) (abs_signOf _) _

/-- A quotient goes to the number between whose midpoints it lies. -/
theorem ofRatio_of_isBetweenMidpoints {x : Binary64} {a b : Nat} (hb : 0 < b)
    (h : IsBetweenMidpoints x.magnitude (a / b)) : ofRatio x.negative a b = x := by
  rw [ofRatio, (isBetweenMidpoints_roundUnits hb).unique h, ofMagnitude]
  cases x with
  | mk negative magnitude le_infinity =>
      rw [Binary64.mk.injEq]
      exact ⟨rfl, Nat.min_eq_left le_infinity⟩

/-- Beyond all numbers a quotient goes to infinity. -/
theorem ofRatio_of_le (negative : Bool) {a b : Nat} (hb : 0 < b) (h : 2 ^ 1024 * b ≤ a) :
    ofRatio negative a b = ofMagnitude negative infinity := by
  have hr : (2 : ℚ) ^ 1024 ≤ a / b := by
    rw [le_div_iff₀ (Nat.cast_pos.2 hb)]
    exact_mod_cast h
  have hle : (2 : ℚ) ^ 1024 - 2 ^ 970 ≤ a / b :=
    (sub_le_self _ (pow_nonneg zero_le_two 970)).trans hr
  have hm := (isBetweenMidpoints_roundUnits hb).infinity_le_iff.2 hle
  rw [ofRatio, ofMagnitude, ofMagnitude, Binary64.mk.injEq, Nat.min_eq_right hm, Nat.min_self]
  exact ⟨rfl, rfl⟩

/-- Below half a unit a quotient goes to zero. -/
theorem ofRatio_of_lt (negative : Bool) {a b : Nat} (h : 2 * (a * unitsOfOne) < b) :
    ofRatio negative a b = ofMagnitude negative 0 := by
  have hlt : a * unitsOfOne < b := by omega
  have hround : roundUnits (a * unitsOfOne) b = 0 := by
    unfold roundUnits roundQuotient
    rw [Nat.div_eq_of_lt hlt]
    simp [Nat.div_eq_of_lt hlt, Nat.mod_eq_of_lt hlt, h]
  rw [ofRatio, hround]

/-! ## Uniqueness -/

theorem eq_of_testBit_of_mod {bits bits' : Nat} (hlt : bits < 2 ^ 64) (hlt' : bits' < 2 ^ 64)
    (hsign : bits.testBit 63 = bits'.testBit 63) (hmod : bits % 2 ^ 63 = bits' % 2 ^ 63) :
    bits = bits' := by
  rw [Nat.testBit_eq_decide_div_mod_eq, Nat.testBit_eq_decide_div_mod_eq, decide_eq_decide] at hsign
  omega

/-- The next bits stand for the next magnitude, which is finite if a larger one is. -/
theorem valueOfBits?_succ {bits m : Nat} (hlt : bits % 2 ^ 63 + 1 < m) (hm : m < infinity) :
    valueOfBits? (bits + 1) = some (signOf (bits.testBit 63) * absOf (bits % 2 ^ 63 + 1)) := by
  have hinfinity : infinity = 2047 * 2 ^ 52 := rfl
  have hmod : (bits + 1) % 2 ^ 63 = bits % 2 ^ 63 + 1 := by omega
  have hdiv : (bits + 1) / 2 ^ 63 = bits / 2 ^ 63 := by omega
  rw [valueOfBits?_eq, hmod, if_pos (hlt.trans hm), Nat.testBit_eq_decide_div_mod_eq, hdiv,
    ← Nat.testBit_eq_decide_div_mod_eq]

/-- What stands between two numbers is nearer than the farther one. -/
theorem abs_sub_lt_of_between {a b c q : ℚ} (hab : a < b) (hbc : b < c) :
    |b - q| < |a - q| ∨ |b - q| < |c - q| := by
  obtain hq | hq := le_total q b
  · right
    rw [abs_of_nonneg (sub_nonneg.2 hq)]
    exact (sub_lt_sub_right hbc q).trans_le (le_abs_self _)
  · left
    rw [abs_of_nonpos (sub_nonpos.2 hq), neg_sub, abs_sub_comm]
    exact (sub_lt_sub_left hab q).trans_le (le_abs_self _)

theorem abs_signOf_mul_sub (negative : Bool) (a q : ℚ) :
    |signOf negative * a - q| = |a - signOf negative * q| := by
  cases negative with
  | false => rw [signOf, if_neg Bool.false_ne_true, one_mul, one_mul]
  | true => rw [signOf, if_pos rfl, neg_one_mul, neg_one_mul, sub_neg_eq_add, ← neg_add', abs_neg]

/-- Of two magnitudes that are nearest the lower one is not even, for what follows it would be
nearer. -/
theorem IsRounded.not_mod_lt {q : ℚ} {bits bits' : Nat} (h : IsRounded q bits)
    (h' : IsRounded q bits') (hsign : bits.testBit 63 = bits'.testBit 63) :
    ¬ bits % 2 ^ 63 < bits' % 2 ^ 63 := by
  intro hlt
  by_cases hq : 2 ^ 1024 - 2 ^ 970 ≤ |q|
  · rw [h.infinite hq, h'.infinite hq] at hlt
    exact absurd hlt (lt_irrefl _)
  obtain ⟨v, hv, hnearest⟩ := h.nearest (not_le.1 hq)
  obtain ⟨v', hv', hnearest'⟩ := h'.nearest (not_le.1 hq)
  obtain ⟨hle, htie⟩ := hnearest bits' v' hv'
  obtain ⟨hle', htie'⟩ := hnearest' bits v hv
  have heq : |v - q| = |v' - q| := hle.antisymm hle'
  obtain ⟨-, rfl⟩ := valueOfBits?_eq_some_iff.1 hv
  obtain ⟨hfinite, rfl⟩ := valueOfBits?_eq_some_iff.1 hv'
  rw [← hsign] at heq htie htie' hnearest'
  have hne : signOf (bits.testBit 63) * absOf (bits' % 2 ^ 63) ≠
      signOf (bits.testBit 63) * absOf (bits % 2 ^ 63) := fun h0 =>
    (strictMono_absOf hlt).ne' (mul_left_cancel₀ (signOf_ne_zero _) h0)
  have heven : bits % 2 = 0 := (htie heq).resolve_left hne
  have heven' : bits' % 2 = 0 := (htie' heq.symm).resolve_left hne.symm
  have hbetween : bits % 2 ^ 63 + 1 < bits' % 2 ^ 63 := by omega
  have hw := valueOfBits?_succ hbetween hfinite
  have hnear := (hnearest _ _ hw).1
  have hnear' := (hnearest' _ _ hw).1
  rw [abs_signOf_mul_sub, abs_signOf_mul_sub] at hnear hnear'
  rcases abs_sub_lt_of_between (strictMono_absOf (Nat.lt_succ_self (bits % 2 ^ 63)))
    (strictMono_absOf hbetween) with hfar | hfar
  · exact absurd hnear (not_le.2 hfar)
  · exact absurd hnear' (not_le.2 hfar)

/-- A rational number and a sign have one rounding. -/
theorem IsRounded.unique {q : ℚ} {bits bits' : Nat} (h : IsRounded q bits)
    (h' : IsRounded q bits') (hsign : bits.testBit 63 = bits'.testBit 63) : bits = bits' := by
  have hle := Nat.not_lt.1 (h.not_mod_lt h' hsign)
  have hge := Nat.not_lt.1 (h'.not_mod_lt h hsign.symm)
  exact eq_of_testBit_of_mod h.lt h'.lt hsign (hge.antisymm hle)

end Binary64

end Descent
