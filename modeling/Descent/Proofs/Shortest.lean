import Descent.Number.Shortest
import Descent.Proofs.Conversion

/-!
# Shortest decimals

The decimal that is found for a magnitude lies between the midpoints to its neighbours, so
it is rounded back to the magnitude. On each grid only the two points around the magnitude
have to be tried: what lies between the midpoints is an interval that the magnitude is in.
The search starts at a grid that is too coarse and ends at one that is fine enough, so the
grid that it stops at is the coarsest one that has such a point, and then no decimal that
is rounded to the magnitude has fewer digits.
-/

namespace Descent

namespace Binary64

/-! ## The interval of a magnitude -/

section

variable {m : Nat} {r : ℚ}

theorem absOf_pos (hm : 0 < m) : 0 < absOf m := by
  rw [← absOf_zero]
  exact strictMono_absOf hm

/-- A magnitude lies between its own midpoints. -/
theorem isBetweenMidpoints_absOf (m : Nat) : IsBetweenMidpoints m (absOf m) := by
  have hpred : absOf (m - 1) ≤ absOf m := strictMono_absOf.monotone (Nat.sub_le m 1)
  have hnext : absOf m < absOf (m + 1) := strictMono_absOf (Nat.lt_succ_self m)
  refine ⟨by linarith, by linarith, fun hodd => ?_⟩
  have hlt : absOf (m - 1) < absOf m := strictMono_absOf (by omega)
  exact ⟨by linarith, by linarith⟩

/-- What lies between the midpoints is an interval. -/
theorem IsBetweenMidpoints.of_le_of_le {a b : ℚ} (ha : IsBetweenMidpoints m a)
    (hb : IsBetweenMidpoints m b) (har : a ≤ r) (hrb : r ≤ b) : IsBetweenMidpoints m r := by
  have hlow := ha.low
  have hhigh := hb.high
  refine ⟨by linarith, by linarith, fun hodd => ⟨?_, ?_⟩⟩
  · have hlt := hlow.lt_of_ne (ha.odd hodd).1
    linarith
  · have hlt := hhigh.lt_of_ne (hb.odd hodd).2
    linarith

theorem IsBetweenMidpoints.pos (h : IsBetweenMidpoints m r) (hm : 0 < m) : 0 < r := by
  have hpred := absOf_nonneg (m - 1)
  have hpos := absOf_pos hm
  linarith [h.low]

/-- Neighbours are at least a unit apart. -/
theorem absOf_pred_add_le (hm : 0 < m) : absOf (m - 1) + 1 / 2 ^ 1074 ≤ absOf m := by
  have hunits : units (m - 1) + 1 ≤ units m := strictMono_units (Nat.sub_lt hm Nat.one_pos)
  have hcast : (units (m - 1) : ℚ) + 1 ≤ units m := by exact_mod_cast hunits
  rw [absOf, absOf, ← add_div]
  exact div_le_div_of_nonneg_right hcast (pow_nonneg zero_le_two 1074)

/-- The next magnitude is worth at most twice as much. -/
theorem absOf_succ_le (hm : 0 < m) : absOf (m + 1) ≤ 2 * absOf m := by
  obtain ⟨s, q, rfl, h, hq⟩ := exists_isSignificand m
  have hpos : 1 ≤ q := by
    have hfractions := fractions_pos
    rcases h.full with hfull | rfl
    · omega
    · omega
  have hunits : units (s * fractions + q + 1) ≤ 2 * units (s * fractions + q) := by
    rw [h.units_eq, h.units_succ hq, ← Nat.mul_assoc]
    exact Nat.mul_le_mul_right _ (by omega)
  have hcast : (units (s * fractions + q + 1) : ℚ) ≤ 2 * units (s * fractions + q) := by
    exact_mod_cast hunits
  rw [absOf, absOf, ← mul_div_assoc]
  exact div_le_div_of_nonneg_right hcast (pow_nonneg zero_le_two 1074)

end

/-! ## One grid -/

/-- The factor of the last multiple of `10 ^ p` that is not above the magnitude. -/
structure IsBelow (m : Nat) (p : ℤ) (k : Nat) : Prop where
  le : k * 10 ^ p ≤ absOf m
  lt : absOf m < (k + 1 : Nat) * (10 : ℚ) ^ p

/-- The multiple of `10 ^ p` is rounded to the magnitude, and none that is lies nearer. -/
structure IsNearestOnGrid (m : Nat) (p : ℤ) (c : Nat) : Prop where
  rounds : IsBetweenMidpoints m (c * 10 ^ p)
  nearest : ∀ c' : Nat, IsBetweenMidpoints m (c' * 10 ^ p) →
    |c * 10 ^ p - absOf m| ≤ |c' * 10 ^ p - absOf m|

section

variable {m k c : Nat} {p : ℤ}

theorem ten_zpow_pos (p : ℤ) : (0 : ℚ) < 10 ^ p := zpow_pos (by norm_num) p

theorem mul_ten_zpow_mono {a b : Nat} (h : a ≤ b) : (a * 10 ^ p : ℚ) ≤ b * 10 ^ p :=
  mul_le_mul_of_nonneg_right (Nat.cast_le.2 h) (ten_zpow_pos p).le

theorem factor_pos (hm : 0 < m) (h : IsBetweenMidpoints m (c * 10 ^ p)) : 0 < c :=
  Nat.cast_pos.1 (pos_of_mul_pos_left (h.pos hm) (ten_zpow_pos p).le)

/-- A point of the grid is no nearer than the last one below the magnitude or the first one
above, and if it is rounded to the magnitude, so is this one. -/
theorem IsBelow.cases (hk : IsBelow m p k) (hc : IsBetweenMidpoints m (c * 10 ^ p)) :
    (IsBetweenMidpoints m (k * 10 ^ p) ∧ absOf m - k * 10 ^ p ≤ |c * 10 ^ p - absOf m|) ∨
      IsBetweenMidpoints m ((k + 1 : Nat) * 10 ^ p) ∧
        (k + 1 : Nat) * 10 ^ p - absOf m ≤ |c * 10 ^ p - absOf m| := by
  obtain ⟨hle, hlt⟩ := hk
  rcases Nat.lt_or_ge k c with hkc | hck
  · right
    have hmono : ((k + 1 : Nat) * 10 ^ p : ℚ) ≤ c * 10 ^ p := mul_ten_zpow_mono hkc
    refine ⟨(isBetweenMidpoints_absOf m).of_le_of_le hc hlt.le hmono, ?_⟩
    exact (sub_le_sub_right hmono _).trans (le_abs_self _)
  · left
    have hmono : (c * 10 ^ p : ℚ) ≤ k * 10 ^ p := mul_ten_zpow_mono hck
    refine ⟨hc.of_le_of_le (isBetweenMidpoints_absOf m) hmono hle, ?_⟩
    rw [abs_sub_comm]
    exact (sub_le_sub_left hmono _).trans (le_abs_self _)

theorem IsBelow.isNearestOnGrid (hk : IsBelow m p k) (hround : IsBetweenMidpoints m (k * 10 ^ p))
    (h : IsBetweenMidpoints m ((k + 1 : Nat) * 10 ^ p) →
      absOf m - k * 10 ^ p ≤ (k + 1 : Nat) * 10 ^ p - absOf m) : IsNearestOnGrid m p k := by
  refine ⟨hround, fun c hc => ?_⟩
  rw [abs_sub_comm, abs_of_nonneg (sub_nonneg.2 hk.le)]
  rcases hk.cases hc with ⟨-, hle⟩ | ⟨habove, hle⟩
  · exact hle
  · exact (h habove).trans hle

theorem IsBelow.isNearestOnGrid_succ (hk : IsBelow m p k)
    (hround : IsBetweenMidpoints m ((k + 1 : Nat) * 10 ^ p))
    (h : IsBetweenMidpoints m (k * 10 ^ p) →
      (k + 1 : Nat) * 10 ^ p - absOf m ≤ absOf m - k * 10 ^ p) : IsNearestOnGrid m p (k + 1) := by
  refine ⟨hround, fun c hc => ?_⟩
  rw [abs_of_pos (sub_pos.2 hk.lt)]
  rcases hk.cases hc with ⟨hbelow, hle⟩ | ⟨-, hle⟩
  · exact (h hbelow).trans hle
  · exact hle

/-- The step of the grid and the magnitude, scaled up to natural numbers. -/
def gridStep (p : ℤ) : Nat := 2 * unitsOfOne * Nat.pow 10 p.toNat

def gridValue (m : Nat) (p : ℤ) : Nat := 2 * units m * Nat.pow 10 (-p).toNat

/-- Both are scaled up in the same way. -/
theorem exists_grid_scale (m : Nat) (p : ℤ) : ∃ w : ℚ, 0 < w ∧
    (gridValue m p : ℚ) = absOf m * w ∧ (gridStep p : ℚ) = 10 ^ p * w := by
  have hone : (0 : ℚ) < 2 ^ 1074 := pow_pos two_pos 1074
  have hscale : (0 : ℚ) < (Nat.pow 10 (-p).toNat : Nat) :=
    Nat.cast_pos.2 (Nat.pow_pos (by decide))
  have hpow : ((Nat.pow 10 p.toNat : Nat) : ℚ) = 10 ^ p * (Nat.pow 10 (-p).toNat : Nat) := by
    have hquotient := NumberLiteral.cast_mul_pow_div_cast_pow 1 p
    rw [Nat.one_mul, Nat.cast_one, one_mul] at hquotient
    rw [← hquotient, div_mul_cancel₀ _ hscale.ne']
  rw [gridValue, gridStep, Nat.cast_mul, Nat.cast_mul, Nat.cast_mul, Nat.cast_mul, Nat.cast_two,
    cast_unitsOfOne, hpow, absOf]
  generalize (2 : ℚ) ^ 1074 = one at hone ⊢
  generalize ((Nat.pow 10 (-p).toNat : Nat) : ℚ) = scale at hscale ⊢
  refine ⟨2 * one * scale, mul_pos (mul_pos two_pos hone) hscale, ?_, ?_⟩
  · field_simp
  · ring

theorem gridStep_pos (p : ℤ) : 0 < gridStep p := by
  obtain ⟨w, hw, -, hstep⟩ := exists_grid_scale 0 p
  have hcast : (0 : ℚ) < gridStep p := hstep ▸ mul_pos (ten_zpow_pos p) hw
  exact_mod_cast hcast

/-- The remainder tells how far the magnitude is above the grid point below it. -/
theorem exists_grid_remainder (m : Nat) (p : ℤ) : ∃ w : ℚ, 0 < w ∧
    (gridStep p : ℚ) = 10 ^ p * w ∧
    ((gridValue m p % gridStep p : Nat) : ℚ) =
      (absOf m - (gridValue m p / gridStep p : Nat) * 10 ^ p) * w := by
  obtain ⟨w, hw, hvalue, hstep⟩ := exists_grid_scale m p
  have hsum : ((gridValue m p / gridStep p : Nat) : ℚ) * gridStep p +
      (gridValue m p % gridStep p : Nat) = gridValue m p := by
    exact_mod_cast Nat.div_add_mod' (gridValue m p) (gridStep p)
  refine ⟨w, hw, hstep, ?_⟩
  rw [hvalue, hstep] at hsum
  linarith

theorem isBelow_div (m : Nat) (p : ℤ) : IsBelow m p (gridValue m p / gridStep p) := by
  obtain ⟨w, hw, hstep, hrest⟩ := exists_grid_remainder m p
  have hlt : ((gridValue m p % gridStep p : Nat) : ℚ) < gridStep p :=
    Nat.cast_lt.2 (Nat.mod_lt _ (gridStep_pos p))
  have hnonneg : (0 : ℚ) ≤ (gridValue m p % gridStep p : Nat) := Nat.cast_nonneg _
  rw [hrest] at hnonneg
  rw [hrest, hstep, mul_lt_mul_iff_left₀ hw] at hlt
  constructor
  · exact sub_nonneg.1 (nonneg_of_mul_nonneg_left hnonneg hw)
  · rw [Nat.cast_succ]
    linarith

/-- Which of the two grid points around the magnitude is nearer. -/
theorem nearer_of_remainder (m : Nat) (p : ℤ) :
    let k := gridValue m p / gridStep p
    (2 * (gridValue m p % gridStep p) ≤ gridStep p →
      absOf m - k * 10 ^ p ≤ (k + 1 : Nat) * 10 ^ p - absOf m) ∧
    (gridStep p ≤ 2 * (gridValue m p % gridStep p) →
      (k + 1 : Nat) * 10 ^ p - absOf m ≤ absOf m - k * 10 ^ p) := by
  obtain ⟨w, hw, hstep, hrest⟩ := exists_grid_remainder m p
  rw [← Nat.cast_le (α := ℚ), ← Nat.cast_le (α := ℚ), Nat.cast_mul, Nat.cast_two, hrest, hstep,
    ← mul_assoc, mul_le_mul_iff_left₀ hw, mul_le_mul_iff_left₀ hw]
  constructor
  · intro hle
    rw [Nat.cast_succ]
    linarith
  · intro hle
    rw [Nat.cast_succ]
    linarith

theorem roundsTo_grid_iff : roundsTo m (c * gridStep p) (Nat.pow 10 (-p).toNat) = true ↔
    IsBetweenMidpoints m (c * 10 ^ p) := by
  have hunits : c * gridStep p = 2 * (c * Nat.pow 10 p.toNat * unitsOfOne) := by
    rw [gridStep]
    ring
  rw [hunits, roundsTo_iff_isBetweenMidpoints (b := Nat.pow 10 (-p).toNat)
    (Nat.pow_pos (by decide)), NumberLiteral.cast_mul_pow_div_cast_pow]

/-- What is found on a grid whose point below the magnitude has the factor `k`: nothing, or one of
the two points around the magnitude, and the nearer one if both are rounded to it. -/
inductive Finds (m : Nat) (p : ℤ) (k : Nat) : Option Nat → Prop
  | nothing (hbelow : ¬ IsBetweenMidpoints m (k * 10 ^ p))
      (habove : ¬ IsBetweenMidpoints m ((k + 1 : Nat) * 10 ^ p)) : Finds m p k none
  | below (hround : IsBetweenMidpoints m (k * 10 ^ p))
      (h : IsBetweenMidpoints m ((k + 1 : Nat) * 10 ^ p) →
        absOf m - k * 10 ^ p ≤ (k + 1 : Nat) * 10 ^ p - absOf m) : Finds m p k (some k)
  | above (hround : IsBetweenMidpoints m ((k + 1 : Nat) * 10 ^ p))
      (h : IsBetweenMidpoints m (k * 10 ^ p) →
        (k + 1 : Nat) * 10 ^ p - absOf m ≤ absOf m - k * 10 ^ p) : Finds m p k (some (k + 1))

theorem finds_nearestOnGrid? (m : Nat) (p : ℤ) :
    Finds m p (gridValue m p / gridStep p) (nearestOnGrid? m p) := by
  obtain ⟨hnearer, hfarther⟩ := nearer_of_remainder m p
  have hbelow := roundsTo_grid_iff (m := m) (c := gridValue m p / gridStep p) (p := p)
  have habove := roundsTo_grid_iff (m := m) (c := gridValue m p / gridStep p + 1) (p := p)
  have hstep : 2 * unitsOfOne * Nat.pow 10 p.toNat = gridStep p := rfl
  have hvalue : 2 * units m * Nat.pow 10 (-p).toNat = gridValue m p := rfl
  unfold nearestOnGrid?
  simp only [hstep, hvalue]
  generalize gridValue m p / gridStep p = k at *
  by_cases hb : IsBetweenMidpoints m (k * 10 ^ p) <;>
    by_cases ha : IsBetweenMidpoints m ((k + 1 : Nat) * 10 ^ p)
  · rw [hbelow.2 hb, habove.2 ha]
    dsimp only
    split_ifs with hlt hgt
    · exact .below hb fun _ => hnearer hlt.le
    · exact .above ha fun _ => hfarther hgt.le
    · rcases Nat.mod_two_eq_zero_or_one k with heven | hodd
      · rw [heven]
        exact .below hb fun _ => hnearer (Nat.not_lt.1 hgt)
      · rw [hodd]
        exact .above ha fun _ => hfarther (Nat.not_lt.1 hlt)
  · rw [hbelow.2 hb, Bool.eq_false_iff.2 (mt habove.1 ha)]
    exact .below hb fun h => absurd h ha
  · rw [Bool.eq_false_iff.2 (mt hbelow.1 hb), habove.2 ha]
    exact .above ha fun h => absurd h hb
  · rw [Bool.eq_false_iff.2 (mt hbelow.1 hb), Bool.eq_false_iff.2 (mt habove.1 ha)]
    exact .nothing hb ha

theorem isNearestOnGrid_of_eq_some (h : nearestOnGrid? m p = some c) : IsNearestOnGrid m p c := by
  have hfinds := finds_nearestOnGrid? m p
  rw [h] at hfinds
  cases hfinds with
  | below hround hnearer => exact (isBelow_div m p).isNearestOnGrid hround hnearer
  | above hround hnearer => exact (isBelow_div m p).isNearestOnGrid_succ hround hnearer

/-- If nothing is found on a grid, no point of it is rounded to the magnitude. -/
theorem not_isBetweenMidpoints_of_eq_none (h : nearestOnGrid? m p = none) (c : Nat) :
    ¬ IsBetweenMidpoints m (c * 10 ^ p) := by
  intro hc
  have hfinds := finds_nearestOnGrid? m p
  rw [h] at hfinds
  cases hfinds with
  | nothing hbelow habove =>
      rcases (isBelow_div m p).cases hc with ⟨hround, -⟩ | ⟨hround, -⟩
      · exact hbelow hround
      · exact habove hround

end

/-! ## The first and the last grid -/

/-- The unit is at least two steps of the finest grid. -/
theorem two_mul_finest_le : 2 * (10 : ℚ) ^ (-324 : ℤ) ≤ 1 / 2 ^ 1074 := by
  have hpow : 2 * 2 ^ 1074 ≤ 10 ^ 324 := by decide +kernel
  have hcast : (2 : ℚ) * 2 ^ 1074 ≤ 10 ^ 324 := by exact_mod_cast hpow
  have hgrid : (10 : ℚ) ^ (-324 : ℤ) = 1 / 10 ^ 324 := by
    rw [zpow_neg, one_div]
    rfl
  rw [hgrid, mul_one_div, div_le_div_iff₀ (pow_pos (by norm_num) 324) (pow_pos two_pos 1074),
    one_mul]
  exact hcast

/-- Two units are at most a thousand steps of it. -/
theorem two_mul_unit_le : 2 * (1 / 2 ^ 1074) ≤ (10 : ℚ) ^ (-321 : ℤ) := by
  have hpow : 2 * 10 ^ 321 ≤ 2 ^ 1074 := by decide +kernel
  have hcast : (2 : ℚ) * 10 ^ 321 ≤ 2 ^ 1074 := by exact_mod_cast hpow
  have hgrid : (10 : ℚ) ^ (-321 : ℤ) = 1 / 10 ^ 321 := by
    rw [zpow_neg, one_div]
    rfl
  rw [hgrid, mul_one_div, div_le_div_iff₀ (pow_pos two_pos 1074) (pow_pos (by norm_num) 321),
    one_mul]
  exact hcast

/-- The finest grid has a point for every magnitude. -/
theorem nearestOnGrid?_finest_ne_none {m : Nat} (hm : 0 < m) : nearestOnGrid? m (-324) ≠ none := by
  intro hnone
  have hunit : absOf (m - 1) + 2 * (10 : ℚ) ^ (-324 : ℤ) ≤ absOf m :=
    (add_le_add_right two_mul_finest_le _).trans (absOf_pred_add_le hm)
  have hnext : absOf m < absOf (m + 1) := strictMono_absOf (Nat.lt_succ_self m)
  obtain ⟨hle, hlt⟩ := isBelow_div m (-324)
  have hnone := not_isBetweenMidpoints_of_eq_none hnone (gridValue m (-324) / gridStep (-324))
  generalize gridValue m (-324) / gridStep (-324) = k at hnone hle hlt
  rw [Nat.cast_succ] at hlt
  have hlow : absOf (m - 1) + absOf m < 2 * (k * 10 ^ (-324 : ℤ)) := by linarith
  have hhigh : 2 * (k * 10 ^ (-324 : ℤ)) < absOf m + absOf (m + 1) := by linarith
  exact hnone ⟨hlow.le, hhigh.le, fun _ => ⟨hlow.ne, hhigh.ne⟩⟩

/-- A power of ten with so many digits is at least a power of two, if this is known of one
power of two. -/
theorem two_pow_le_ten_pow_div {k n : Nat} (hk : 0 < k) (h : 2 ^ k ≤ 10 ^ n) (b : Nat) :
    2 ^ b ≤ 10 ^ (b * n / k + 1) := by
  rw [← Nat.pow_le_pow_iff_left hk.ne']
  calc (2 ^ b) ^ k = (2 ^ k) ^ b := Nat.pow_right_comm 2 b k
    _ ≤ (10 ^ n) ^ b := Nat.pow_le_pow_left h b
    _ = 10 ^ (b * n) := by rw [← pow_mul, Nat.mul_comm]
    _ ≤ 10 ^ ((b * n / k + 1) * k) := by
        refine Nat.pow_le_pow_right (by decide) ?_
        rw [Nat.add_mul, Nat.one_mul]
        exact (Nat.lt_div_mul_add hk).le
    _ = (10 ^ (b * n / k + 1)) ^ k := pow_mul 10 _ k

/-- A grid that is coarser than the first one has no point for a magnitude. -/
theorem not_isBetweenMidpoints_of_coarsestGrid_lt {m : Nat} (hm : 0 < m) {p : ℤ}
    (hp : (coarsestGrid m : ℤ) - 324 < p) (c : Nat) : ¬ IsBetweenMidpoints m (c * 10 ^ p) := by
  intro hc
  let n := ((units m).log2 + 1) * 30103 / 100000 + 1
  have hunits : (units m : ℚ) < 10 ^ n := by
    have hlog : units m < 2 ^ ((units m).log2 + 1) := Nat.lt_log2_self
    have hpow : 2 ^ 100000 ≤ 10 ^ 30103 := by decide +kernel
    exact_mod_cast hlog.trans_le (two_pow_le_ten_pow_div (by decide) hpow _)
  have habs : 2 * absOf m < 10 ^ p :=
    calc 2 * absOf m = units m * (2 * (1 / 2 ^ 1074)) := by
          rw [absOf, mul_one_div, mul_div_assoc', mul_div_assoc', mul_comm]
      _ < 10 ^ n * (2 * (1 / 2 ^ 1074)) :=
          mul_lt_mul_of_pos_right hunits
            (mul_pos two_pos (one_div_pos.2 (pow_pos two_pos 1074)))
      _ ≤ 10 ^ n * 10 ^ (-321 : ℤ) :=
          mul_le_mul_of_nonneg_left two_mul_unit_le (pow_nonneg (by norm_num) n)
      _ = 10 ^ ((n : ℤ) - 321) := by
          rw [← zpow_natCast, ← zpow_add₀ (by norm_num), sub_eq_add_neg]
      _ ≤ 10 ^ p := by
          have hgrid : (n : ℤ) - 321 ≤ p := by
            have hcoarsest : coarsestGrid m = n + 2 := rfl
            omega
          exact zpow_le_zpow_right₀ (by norm_num) hgrid
  have hfactor : (1 : ℚ) ≤ c := Nat.one_le_cast.2 (factor_pos hm hc)
  have hle : (10 : ℚ) ^ p ≤ c * 10 ^ p := le_mul_of_one_le_left (ten_zpow_pos p).le hfactor
  linarith [hc.high, absOf_succ_le hm, absOf_pos hm]

/-! ## The search -/

/-- The multiple of `10 ^ p` is rounded to the magnitude, no point of the same grid that is lies
nearer, and no point of a coarser grid is rounded to it. -/
structure IsShortest (m c : Nat) (p : ℤ) : Prop extends IsNearestOnGrid m p c where
  coarser : ∀ q : ℤ, p < q → ∀ c' : Nat, ¬ IsBetweenMidpoints m (c' * 10 ^ q)

theorem searchGrids_isShortest {m : Nat} (hm : 0 < m) (n : Nat)
    (hn : ∀ q : ℤ, (n : ℤ) - 324 < q → ∀ c : Nat, ¬ IsBetweenMidpoints m (c * 10 ^ q)) :
    IsShortest m (searchGrids m n).1 (searchGrids m n).2 := by
  induction n with
  | zero =>
      obtain ⟨c, hc⟩ := Option.ne_none_iff_exists'.1 (nearestOnGrid?_finest_ne_none hm)
      rw [searchGrids, hc]
      exact ⟨isNearestOnGrid_of_eq_some hc, hn⟩
  | succ n ih =>
      rw [searchGrids]
      cases hc : nearestOnGrid? m ((n + 1 : Nat) - 324) with
      | some c => exact ⟨isNearestOnGrid_of_eq_some hc, hn⟩
      | none =>
          refine ih fun q hq => ?_
          obtain rfl | hlt := (show ((n + 1 : Nat) : ℤ) - 324 ≤ q by omega).eq_or_lt
          · exact not_isBetweenMidpoints_of_eq_none hc
          · exact hn q hlt

/-- What is found is rounded back, and it is the shortest decimal that is. -/
theorem isShortest_shortestDecimal {m : Nat} (hm : 0 < m) :
    IsShortest m (shortestDecimal m).1 (shortestDecimal m).2 :=
  searchGrids_isShortest hm _ fun _ hq => not_isBetweenMidpoints_of_coarsestGrid_lt hm hq

section

variable {m c : Nat} {p : ℤ}

/-- A decimal that is rounded to the magnitude has no fewer digits. With fewer it would be on the
other side of a power of ten, and this would be a point of a coarser grid. -/
theorem IsShortest.length_le (h : IsShortest m c p) {c' : Nat} {q : ℤ}
    (hc' : IsBetweenMidpoints m (c' * 10 ^ q)) :
    (Text.ofNat c).length ≤ (Text.ofNat c').length := by
  have hqp : q ≤ p := not_lt.1 fun hlt => h.coarser q hlt c' hc'
  rw [Text.ofNat, Text.ofNat, List.length_map, List.length_map]
  have hpos : 0 < (Nat.toDigits 10 c').length := Nat.length_toDigits_pos
  have hlt : c' < 10 ^ (Nat.toDigits 10 c').length :=
    (Nat.length_toDigits_le_iff (by decide) hpos).1 le_rfl
  generalize (Nat.toDigits 10 c').length = k at hpos hlt ⊢
  rw [Nat.length_toDigits_le_iff (by decide) hpos]
  by_contra hle
  have hpower : (10 : ℚ) ^ k * 10 ^ p = (1 : Nat) * 10 ^ (p + k) := by
    rw [zpow_add₀ (by norm_num), zpow_natCast, Nat.cast_one, one_mul, mul_comm]
  have hbelow : (c' * 10 ^ q : ℚ) ≤ 10 ^ k * 10 ^ p :=
    mul_le_mul (by exact_mod_cast hlt.le) (zpow_le_zpow_right₀ (by norm_num) hqp)
      (ten_zpow_pos q).le (pow_nonneg (by norm_num) k)
  have habove : (10 ^ k * 10 ^ p : ℚ) ≤ c * 10 ^ p :=
    mul_le_mul_of_nonneg_right (by exact_mod_cast Nat.not_lt.1 hle) (ten_zpow_pos p).le
  have hround := hc'.of_le_of_le h.rounds hbelow habove
  rw [hpower] at hround
  exact h.coarser (p + k) (by omega) 1 hround

end

end Binary64

end Descent
