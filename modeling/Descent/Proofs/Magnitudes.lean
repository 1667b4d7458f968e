import Descent.Number.Shortest
import Mathlib.Order.Monotone.Basic
import Mathlib.Tactic.Linarith
import Mathlib.Tactic.Ring

/-!
# Magnitudes and their units

A magnitude is `s` steps of `fractions` and a significand `q`, and then it is worth
`q * 2 ^ s` units. The significand may also be twice `fractions`, which is how a
significand that is rounded up past the last one is carried into the exponent. So
magnitudes are ordered as their units are, and `roundUnits` finds the magnitude that
`roundsTo` describes by the midpoints to the two neighbours.
-/

namespace Descent

namespace Binary64

theorem fractions_pos : 0 < fractions := Nat.two_pow_pos 52

/-! ## Significands -/

/-- The significand is full, unless the magnitude is one of the lowest. -/
structure IsSignificand (s q : Nat) : Prop where
  full : fractions ≤ q ∨ s = 0
  le : q ≤ 2 * fractions

/-- The units by the exponent bits, which are not zero here, and the fraction bits. -/
theorem units_mul_add (s : Nat) {f : Nat} (hf : f < fractions) :
    units ((s + 1) * fractions + f) = (fractions + f) * 2 ^ s := by
  have hdiv : ((s + 1) * fractions + f) / fractions = s + 1 := by
    rw [Nat.add_comm, Nat.add_mul_div_right _ _ fractions_pos, Nat.div_eq_of_lt hf, Nat.zero_add]
  have hmod : ((s + 1) * fractions + f) % fractions = f := by
    rw [Nat.add_comm, Nat.add_mul_mod_self_right, Nat.mod_eq_of_lt hf]
  have hle : ¬ (s + 1) * fractions + f < fractions := by
    rw [Nat.add_mul, Nat.one_mul]
    omega
  rw [units, if_neg hle, hdiv, hmod]
  rfl

theorem IsSignificand.units_eq {s q : Nat} (h : IsSignificand s q) :
    units (s * fractions + q) = q * 2 ^ s := by
  obtain ⟨hfull, hq⟩ := h
  by_cases hlow : q < fractions
  · obtain rfl : s = 0 := hfull.resolve_left (Nat.not_le.2 hlow)
    rw [Nat.zero_mul, Nat.zero_add, units, if_pos hlow, pow_zero, Nat.mul_one]
  obtain ⟨f, rfl⟩ := Nat.exists_eq_add_of_le (Nat.not_lt.1 hlow)
  by_cases hf : f < fractions
  · have hsplit : s * fractions + (fractions + f) = (s + 1) * fractions + f := by ring
    rw [hsplit, units_mul_add s hf]
  · -- the carry: the fraction is zero again, and the exponent is one more
    obtain rfl : f = fractions := by omega
    have hsplit : s * fractions + (fractions + fractions) = (s + 1 + 1) * fractions + 0 := by ring
    rw [hsplit, units_mul_add _ fractions_pos]
    ring

theorem exists_isSignificand (m : Nat) :
    ∃ s q, m = s * fractions + q ∧ IsSignificand s q ∧ q < 2 * fractions := by
  have hmod := Nat.mod_lt m fractions_pos
  have hsum := Nat.div_add_mod' m fractions
  cases hs : m / fractions with
  | zero =>
      rw [hs, Nat.zero_mul, Nat.zero_add] at hsum
      exact ⟨0, m, by omega, ⟨.inr rfl, by omega⟩, by omega⟩
  | succ s =>
      rw [hs, Nat.add_mul, Nat.one_mul] at hsum
      exact ⟨s, fractions + m % fractions, by omega,
        ⟨.inl (Nat.le_add_right _ _), by omega⟩, by omega⟩

/-- The next significand is worth one step more. -/
theorem IsSignificand.units_succ {s q : Nat} (h : IsSignificand s q) (hq : q < 2 * fractions) :
    units (s * fractions + q + 1) = (q + 1) * 2 ^ s := by
  have hnext : IsSignificand s (q + 1) := ⟨h.full.imp_left Nat.le_succ_of_le, hq⟩
  rw [Nat.add_assoc, hnext.units_eq]

/-- The next magnitude is worth at least as much as the next significand. -/
theorem IsSignificand.le_units_succ {s q : Nat} (h : IsSignificand s q) :
    (q + 1) * 2 ^ s ≤ units (s * fractions + q + 1) := by
  obtain hq | rfl := Nat.lt_or_eq_of_le h.le
  · exact (h.units_succ hq).ge
  · have hcarry : s * fractions + 2 * fractions + 1 = (s + 1) * fractions + (fractions + 1) := by
      ring
    have hnext : IsSignificand (s + 1) (fractions + 1) :=
      ⟨.inl (Nat.le_succ _), by have := fractions_pos; omega⟩
    rw [hcarry, hnext.units_eq, pow_succ]
    have hpow := Nat.two_pow_pos s
    nlinarith

/-- A magnitude is even if its significand is. -/
theorem mod_two_mul_add (s q : Nat) : (s * fractions + q) % 2 = q % 2 := by
  have heven : fractions = 2 * 2 ^ 51 := by rfl
  rw [heven, Nat.mul_left_comm, Nat.mul_add_mod]

theorem units_lt_succ (m : Nat) : units m < units (m + 1) := by
  obtain ⟨s, q, rfl, h, hq⟩ := exists_isSignificand m
  rw [h.units_eq, h.units_succ hq]
  exact Nat.mul_lt_mul_of_pos_right (Nat.lt_succ_self q) (Nat.two_pow_pos s)

/-- Magnitudes are ordered as what they stand for. -/
theorem strictMono_units : StrictMono units := strictMono_nat_of_lt_succ units_lt_succ

/-! ## Rounding to a natural number -/

/-- The rounded quotient is no more than half away, and it is even if it is half away. -/
theorem roundQuotient_mul {a b : Nat} (hb : 0 < b) :
    2 * (roundQuotient a b * b) ≤ 2 * a + b ∧ 2 * a ≤ 2 * (roundQuotient a b * b) + b ∧
      (roundQuotient a b % 2 = 1 → 2 * (roundQuotient a b * b) ≠ 2 * a + b ∧
        2 * a ≠ 2 * (roundQuotient a b * b) + b) := by
  have hsum := Nat.div_add_mod' a b
  have hmod := Nat.mod_lt a hb
  have hsucc : (a / b + 1) * b = a / b * b + b := by ring
  unfold roundQuotient
  dsimp only
  split
  · omega
  · split
    · rw [hsucc]
      omega
    · obtain heven | hodd := Nat.mod_two_eq_zero_or_one (a / b)
      · rw [heven, Nat.add_zero]
        omega
      · rw [hodd, hsucc]
        omega

theorem le_roundQuotient {a b k : Nat} (hb : 0 < b) (h : k * b ≤ a) : k ≤ roundQuotient a b := by
  have hk : k ≤ a / b := (Nat.le_div_iff_mul_le hb).2 h
  unfold roundQuotient
  dsimp only
  split
  · exact hk
  · split <;> omega

theorem roundQuotient_le {a b k : Nat} (h : a < k * b) : roundQuotient a b ≤ k := by
  have hk : a / b < k := Nat.div_lt_of_lt_mul (by rwa [Nat.mul_comm])
  unfold roundQuotient
  dsimp only
  split
  · omega
  · split <;> omega

/-! ## Rounding to a magnitude -/

/-- The bounds between which a quotient, counted in half units, rounds to a magnitude. They
belong to the magnitude if it is even. -/
theorem roundsTo_iff {m a b : Nat} : roundsTo m a b = true ↔
    (units (m - 1) + units m) * b ≤ a ∧ a ≤ (units m + units (m + 1)) * b ∧
      (m % 2 = 1 → (units (m - 1) + units m) * b ≠ a ∧ a ≠ (units m + units (m + 1)) * b) := by
  unfold roundsTo
  dsimp only
  split
  · simp only [Bool.and_eq_true, decide_eq_true_eq]
    omega
  · simp only [Bool.and_eq_true, decide_eq_true_eq]
    omega

section

variable {a b : Nat}

/-- How far the quotient is scaled down, and what it is rounded to then. -/
theorem exists_roundUnits (hb : 0 < b) : ∃ s, IsSignificand s (roundQuotient a (b * 2 ^ s)) ∧
    (s = 0 ∨ fractions * (b * 2 ^ s) ≤ a) ∧
    roundUnits a b = s * fractions + roundQuotient a (b * 2 ^ s) := by
  let s := (a / b).log2 - 52
  have hscale : 0 < b * 2 ^ s := Nat.mul_pos hb (Nat.two_pow_pos s)
  have hlow : s = 0 ∨ fractions * (b * 2 ^ s) ≤ a := by
    refine or_iff_not_imp_left.2 fun hs => ?_
    have hlog : (a / b).log2 = 52 + s := by omega
    have hne : a / b ≠ 0 := by
      intro h
      rw [h, Nat.log2_zero] at hlog
      omega
    have hpow : 2 ^ (52 + s) ≤ a / b := by
      rw [← hlog]
      exact Nat.log2_self_le hne
    calc fractions * (b * 2 ^ s) = 2 ^ (52 + s) * b := by
          rw [pow_add]
          change 2 ^ 52 * _ = _
          ring
      _ ≤ a / b * b := Nat.mul_le_mul_right b hpow
      _ ≤ a := Nat.div_mul_le_self a b
  have hhigh : a < 2 * fractions * (b * 2 ^ s) := by
    have hlog : a / b < 2 ^ (53 + s) :=
      Nat.lt_of_lt_of_le Nat.lt_log2_self (Nat.pow_le_pow_right (by decide) (by omega))
    calc a < 2 ^ (53 + s) * b := (Nat.div_lt_iff_lt_mul hb).1 hlog
      _ = 2 * fractions * (b * 2 ^ s) := by
          rw [pow_add]
          change 2 * 2 ^ 52 * _ * _ = _
          change _ = 2 * 2 ^ 52 * _
          ring
  refine ⟨s, ⟨?_, roundQuotient_le hhigh⟩, hlow, rfl⟩
  rcases hlow with hs | hlow
  · exact .inr hs
  · exact .inl (le_roundQuotient hscale hlow)

/-- A quotient that is at most half a step below a significand is above the midpoint to the
magnitude before. -/
theorem IsSignificand.midpoint_le {s q : Nat} (h : IsSignificand s q) (hb : 0 < b)
    (hs : s = 0 ∨ fractions * (b * 2 ^ s) ≤ a)
    (hq : 2 * (q * (b * 2 ^ s)) ≤ 2 * a + b * 2 ^ s) :
    (units (s * fractions + q - 1) + units (s * fractions + q)) * b ≤ 2 * a ∧
      (2 * (q * (b * 2 ^ s)) ≠ 2 * a + b * 2 ^ s →
        (units (s * fractions + q - 1) + units (s * fractions + q)) * b ≠ 2 * a ∨ q = 0) := by
  have hfractions := fractions_pos
  have hstep : 0 < b * 2 ^ s := Nat.mul_pos hb (Nat.two_pow_pos s)
  cases q with
  | zero =>
      obtain rfl : s = 0 := h.full.resolve_left (by omega)
      simp
  | succ k =>
      by_cases hk : fractions ≤ k ∨ s = 0
      · -- the significand before belongs to the same exponent
        have hpred : IsSignificand s k := ⟨hk, Nat.le_of_succ_le h.le⟩
        have hmid : (units (s * fractions + (k + 1) - 1) + units (s * fractions + (k + 1))) * b =
            2 * (k * (b * 2 ^ s)) + b * 2 ^ s := by
          rw [h.units_eq, Nat.add_sub_assoc (Nat.le_add_left 1 k), Nat.add_sub_cancel,
            hpred.units_eq]
          ring
        have hsucc : (k + 1) * (b * 2 ^ s) = k * (b * 2 ^ s) + b * 2 ^ s := by ring
        rw [hmid]
        omega
      · -- the significand before is the last one of the exponent before
        obtain ⟨hlt, hne⟩ := not_or.1 hk
        obtain ⟨r, rfl⟩ := Nat.exists_eq_add_one_of_ne_zero hne
        have hfull : k + 1 = fractions := by
          have := h.full.resolve_right hne
          omega
        have hpred : IsSignificand r (fractions + k) := ⟨.inl (Nat.le_add_right _ _), by omega⟩
        have hsplit : (r + 1) * fractions + (k + 1) - 1 = r * fractions + (fractions + k) := by
          rw [Nat.add_sub_assoc (Nat.le_add_left 1 k), Nat.add_sub_cancel]
          ring
        have hmid : 2 * ((units ((r + 1) * fractions + (k + 1) - 1) +
            units ((r + 1) * fractions + (k + 1))) * b) + b * 2 ^ (r + 1) =
              4 * (fractions * (b * 2 ^ (r + 1))) := by
          rw [h.units_eq, hsplit, hpred.units_eq, ← hfull, pow_succ]
          ring
        have hle := hs.resolve_left hne
        omega

/-- The magnitude that is found lies between the midpoints to its neighbours. -/
theorem roundsTo_roundUnits (hb : 0 < b) : roundsTo (roundUnits a b) (2 * a) b = true := by
  obtain ⟨s, hq, hscaled, hround⟩ := exists_roundUnits (a := a) hb
  obtain ⟨hbelow, habove, htie⟩ := roundQuotient_mul (a := a) (Nat.mul_pos hb (Nat.two_pow_pos s))
  rw [roundsTo_iff, hround, mod_two_mul_add]
  generalize roundQuotient a (b * 2 ^ s) = q at hq hbelow habove htie
  obtain ⟨hlow, hlowtie⟩ := hq.midpoint_le hb hscaled hbelow
  have hhigh : 2 * (q * (b * 2 ^ s)) + b * 2 ^ s ≤
      (units (s * fractions + q) + units (s * fractions + q + 1)) * b :=
    calc 2 * (q * (b * 2 ^ s)) + b * 2 ^ s = (q * 2 ^ s + (q + 1) * 2 ^ s) * b := by ring
      _ ≤ (units (s * fractions + q) + units (s * fractions + q + 1)) * b := by
          rw [hq.units_eq]
          exact Nat.mul_le_mul_right b (Nat.add_le_add_left hq.le_units_succ _)
  refine ⟨hlow, habove.trans hhigh, fun hodd => ⟨?_, ?_⟩⟩
  · exact (hlowtie (htie hodd).1).resolve_right (by omega)
  · exact ((Nat.lt_of_le_of_ne habove (htie hodd).2).trans_le hhigh).ne

end

end Binary64

end Descent
