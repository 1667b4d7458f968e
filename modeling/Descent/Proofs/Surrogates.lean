import Descent.Value.Functions
import Mathlib.Data.List.Chain

/-!
# Surrogate pairs

Combining joins each high surrogate that a low one follows, and it leaves every other code
point as it is: one that is two units long is read back from its units, and a lone surrogate
stands for itself. The result is the normal form of the texts with these units: of all of them
it is the one in which no pair is left.
-/

namespace Descent

namespace CodePoint

/-- The units of a code point beyond the first plane. -/
theorem exists_units_of_le {c : CodePoint} (h : 0x10000 ≤ c.val) :
    ∃ high low : UInt16, c.units = [high, low] ∧ (ofUnit high).isHighSurrogate = true ∧
      (ofUnit low).isLowSurrogate = true ∧ ofPair high low = c := by
  have hlt := c.isLt
  have hsize : UInt16.size = 0x10000 := rfl
  have hhigh : (UInt16.ofNat (0xD7C0 + c.val / 0x400)).toNat = 0xD7C0 + c.val / 0x400 :=
    UInt16.toNat_ofNat_of_lt (by omega)
  have hlow : (UInt16.ofNat (0xDC00 + c.val % 0x400)).toNat = 0xDC00 + c.val % 0x400 :=
    UInt16.toNat_ofNat_of_lt (by omega)
  refine ⟨_, _, if_neg (Nat.not_lt.2 h), ?_, ?_, ?_⟩
  · rw [isHighSurrogate, val_ofUnit, hhigh, Bool.and_eq_true, decide_eq_true_iff,
      decide_eq_true_iff]
    omega
  · rw [isLowSurrogate, val_ofUnit, hlow, Bool.and_eq_true, decide_eq_true_iff,
      decide_eq_true_iff]
    omega
  · have hval : 0x10000 + (0xD7C0 + c.val / 0x400 - 0xD800) * 0x400 +
        (0xDC00 + c.val % 0x400 - 0xDC00) = c.val := by omega
    refine ext_val ?_
    rw [ofPair, hhigh, hlow, hval, val_ofNat hlt]

theorem exists_units_of_lt {c : CodePoint} (h : c.val < 0x10000) :
    ∃ u : UInt16, c.units = [u] ∧ ofUnit u = c :=
  ⟨UInt16.ofNat c.val, if_pos h, ext_val (UInt16.toNat_ofNat_of_lt h)⟩

theorem isLowSurrogate_of_isHighSurrogate {c : CodePoint} (h : c.isHighSurrogate = true) :
    c.isLowSurrogate = false := by
  rw [isHighSurrogate, Bool.and_eq_true, decide_eq_true_iff, decide_eq_true_iff] at h
  rw [isLowSurrogate, decide_eq_false (Nat.not_le.2 h.2), Bool.false_and]

theorem not_surrogate_of_le {c : CodePoint} (h : 0x10000 ≤ c.val) :
    c.isHighSurrogate = false ∧ c.isLowSurrogate = false := by
  have hhigh : ¬ c.val < 0xDC00 := by omega
  have hlow : ¬ c.val < 0xE000 := by omega
  rw [isHighSurrogate, isLowSurrogate, decide_eq_false hhigh, decide_eq_false hlow,
    Bool.and_false, Bool.and_false]
  exact ⟨rfl, rfl⟩

end CodePoint

namespace Text

open CodePoint

/-- A unit stands for itself if it does not open a pair. -/
theorem ofUnits_cons {u : UInt16} {us : List UInt16}
    (h : (ofUnit u).isHighSurrogate = true → ∀ v ∈ us.head?, (ofUnit v).isLowSurrogate = false) :
    ofUnits (u :: us) = ofUnit u :: ofUnits us := by
  cases us with
  | nil => rfl
  | cons v us =>
      have hpair : ((ofUnit u).isHighSurrogate && (ofUnit v).isLowSurrogate) = false := by
        cases hu : (ofUnit u).isHighSurrogate with
        | false => rfl
        | true => rw [h hu v rfl, Bool.and_false]
      rw [ofUnits, hpair]
      rfl

/-- If the units start with a low surrogate, so does the text. -/
theorem isLowSurrogate_head_units {t : Text} (h : ∀ d ∈ t.head?, d.isLowSurrogate = false) :
    ∀ v ∈ (units t).head?, (ofUnit v).isLowSurrogate = false := by
  cases t with
  | nil => exact nofun
  | cons d t =>
      intro v hv
      by_cases hd : d.val < 0x10000
      · obtain ⟨u, hunits, hu⟩ := exists_units_of_lt hd
        rw [units_cons, hunits] at hv
        cases hv
        rw [hu]
        exact h d rfl
      · obtain ⟨high, low, hunits, hhigh, -⟩ := exists_units_of_le (Nat.not_lt.1 hd)
        rw [units_cons, hunits] at hv
        cases hv
        exact isLowSurrogate_of_isHighSurrogate hhigh

/-- A code point stands for itself if it does not open a pair. -/
theorem combineSurrogates_cons {c : CodePoint} {t : Text}
    (h : c.isHighSurrogate = true → ∀ d ∈ t.head?, d.isLowSurrogate = false) :
    combineSurrogates (c :: t) = c :: combineSurrogates t := by
  by_cases hc : c.val < 0x10000
  · obtain ⟨u, hunits, rfl⟩ := exists_units_of_lt hc
    rw [combineSurrogates, units_cons, hunits, List.singleton_append,
      ofUnits_cons fun hu => isLowSurrogate_head_units (h hu)]
    rfl
  · obtain ⟨high, low, hunits, hhigh, hlow, rfl⟩ := exists_units_of_le (Nat.not_lt.1 hc)
    rw [combineSurrogates, units_cons, hunits, List.cons_append, List.singleton_append, ofUnits,
      hhigh, hlow]
    rfl

/-- A pair becomes the code point with these two units. -/
theorem combineSurrogates_pair {c d : CodePoint} (hc : c.isHighSurrogate = true)
    (hd : d.isLowSurrogate = true) (t : Text) :
    ∃ e : CodePoint, 0x10000 ≤ e.val ∧ e.units = c.units ++ d.units ∧
      combineSurrogates (c :: d :: t) = e :: combineSurrogates t := by
  have hc' := hc
  have hd' := hd
  rw [isHighSurrogate, Bool.and_eq_true, decide_eq_true_iff, decide_eq_true_iff] at hc'
  rw [isLowSurrogate, Bool.and_eq_true, decide_eq_true_iff, decide_eq_true_iff] at hd'
  obtain ⟨u, hu, rfl⟩ := exists_units_of_lt (c := c) (by omega)
  obtain ⟨v, hv, rfl⟩ := exists_units_of_lt (c := d) (by omega)
  rw [val_ofUnit] at hc' hd'
  have hval : (ofPair u v).val =
      0x10000 + (u.toNat - 0xD800) * 0x400 + (v.toNat - 0xDC00) := val_ofNat (by omega)
  refine ⟨ofPair u v, by omega, ?_, ?_⟩
  · have hhigh : 0xD7C0 + (ofPair u v).val / 0x400 = u.toNat := by omega
    have hlow : 0xDC00 + (ofPair u v).val % 0x400 = v.toNat := by omega
    rw [CodePoint.units, if_neg (by omega), hhigh, hlow, hu, hv, UInt16.ofNat_toNat,
      UInt16.ofNat_toNat]
    rfl
  · rw [combineSurrogates, units_cons, units_cons, hu, hv, List.singleton_append,
      List.singleton_append, ofUnits, hc, hd]
    rfl

/-- No high surrogate is followed by a low one. -/
def Unpaired (t : Text) : Prop :=
  t.IsChain fun c d => c.isHighSurrogate = true → d.isLowSurrogate = false

theorem combineSurrogates_of_unpaired {t : Text} (h : t.Unpaired) : t.combineSurrogates = t := by
  induction t with
  | nil => rfl
  | cons c t ih =>
      obtain ⟨hhead, htail⟩ := List.isChain_cons.1 h
      rw [combineSurrogates_cons fun hc d hd => hhead d hd hc, ih htail]

/-- A text is built up from its end by code points that open no pair and by pairs. -/
theorem pairs_induction {P : Text → Prop} (nil : P [])
    (cons : ∀ c t, (c.isHighSurrogate = true → ∀ d ∈ t.head?, d.isLowSurrogate = false) →
      P t → P (c :: t))
    (pair : ∀ c d t, c.isHighSurrogate = true → d.isLowSurrogate = true → P t → P (c :: d :: t))
    (t : Text) : P t := by
  induction hn : t.length using Nat.strongRecOn generalizing t with
  | ind n ih =>
      cases t with
      | nil => exact nil
      | cons c t =>
          by_cases hpair : c.isHighSurrogate = true → ∀ d ∈ t.head?, d.isLowSurrogate = false
          · exact cons c t hpair (ih t.length (hn ▸ Nat.lt_succ_self _) t rfl)
          · simp only [Classical.not_imp, not_forall, Bool.not_eq_false] at hpair
            rcases hpair with ⟨hc, d, hd, hlow⟩
            rcases List.head?_eq_some_iff.1 hd with ⟨u, rfl⟩
            have hlt : u.length < n := by
              rw [← hn]
              exact Nat.lt_succ_of_lt (Nat.lt_succ_self _)
            exact pair c d u hc hlow (ih u.length hlt u rfl)

/-- What is combined starts with a low surrogate only if the text does, and it has no pairs. -/
theorem unpaired_combineSurrogates (t : Text) : t.combineSurrogates.Unpaired ∧
    ((∀ d ∈ t.head?, d.isLowSurrogate = false) →
      ∀ d ∈ t.combineSurrogates.head?, d.isLowSurrogate = false) := by
  induction t using pairs_induction with
  | nil => exact ⟨List.isChain_nil, fun h => h⟩
  | cons c t hpair ih =>
      obtain ⟨htail, hhead⟩ := ih
      rw [combineSurrogates_cons hpair]
      exact ⟨List.isChain_cons.2 ⟨fun d hd hc => hhead (hpair hc) d hd, htail⟩, fun h => h⟩
  | pair c d t hc hd ih =>
      obtain ⟨e, he, -, hcombine⟩ := combineSurrogates_pair hc hd t
      obtain ⟨hehigh, helow⟩ := not_surrogate_of_le he
      rw [hcombine]
      constructor
      · refine List.isChain_cons.2 ⟨fun _ _ h => ?_, ih.1⟩
        rw [hehigh] at h
        cases h
      · rintro - _ ⟨⟩
        exact helow

/-! ## The normal form of the units -/

/-- Combining keeps the units. -/
theorem units_combineSurrogates (t : Text) : units t.combineSurrogates = units t := by
  induction t using pairs_induction with
  | nil => rfl
  | cons c t hpair ih => rw [combineSurrogates_cons hpair, units_cons, units_cons, ih]
  | pair c d t hc hd ih =>
      obtain ⟨e, -, hunits, hcombine⟩ := combineSurrogates_pair hc hd t
      rw [hcombine, units_cons, hunits, ih, units_cons, units_cons, List.append_assoc]

/-- A text without pairs is told by its units. -/
theorem eq_combineSurrogates_of_units {s t : Text} (hunits : units t = units s)
    (ht : t.Unpaired) : t = s.combineSurrogates :=
  calc t = t.combineSurrogates := (combineSurrogates_of_unpaired ht).symm
    _ = ofUnits (units s) := congrArg ofUnits hunits
    _ = s.combineSurrogates := rfl

theorem combineSurrogates_eq_iff {s t : Text} :
    s.combineSurrogates = t.combineSurrogates ↔ units s = units t := by
  constructor
  · intro h
    rw [← units_combineSurrogates s, h, units_combineSurrogates]
  · intro h
    exact congrArg ofUnits h

/-- Without surrogates there is no pair. -/
theorem unpaired_of_forall {t : Text} (h : ∀ c ∈ t, c.isSurrogate = false) : t.Unpaired := by
  induction t with
  | nil => exact List.isChain_nil
  | cons c t ih =>
      have hc : c.isHighSurrogate = false := by
        have hneither := h c List.mem_cons_self
        rw [isSurrogate, Bool.or_eq_false_iff] at hneither
        exact hneither.1
      apply List.isChain_cons.2
      constructor
      · intro d _ hhigh
        rw [hc] at hhigh
        cases hhigh
      · exact ih fun d hd => h d (List.mem_cons_of_mem c hd)

/-! ## Texts end to end -/

/-- The last code point is a high surrogate. -/
def EndsHigh (t : Text) : Prop := ∃ c ∈ t.getLast?, c.isHighSurrogate = true

/-- The first code point is a low surrogate. -/
def StartsLow (t : Text) : Prop := ∃ c ∈ t.head?, c.isLowSurrogate = true

theorem endsHigh_iff_units {t : Text} :
    t.EndsHigh ↔ ∃ u ∈ (units t).getLast?, (ofUnit u).isHighSurrogate = true := by
  rcases List.eq_nil_or_concat t with rfl | ⟨t, c, rfl⟩
  · exact ⟨nofun, nofun⟩
  · rw [EndsHigh, List.concat_eq_append, List.getLast?_concat, units_append, units_cons, units_nil,
      List.append_nil]
    by_cases hc : c.val < 0x10000
    · obtain ⟨u, hunits, rfl⟩ := exists_units_of_lt hc
      rw [hunits, List.getLast?_concat]
      simp
    · obtain ⟨high, low, hunits, -, hlow, -⟩ := exists_units_of_le (Nat.not_lt.1 hc)
      have hlast : (ofUnit low).isHighSurrogate = false := by
        cases hhigh : (ofUnit low).isHighSurrogate with
        | false => rfl
        | true => exact absurd hlow (by simp [isLowSurrogate_of_isHighSurrogate hhigh])
      rw [hunits, List.getLast?_append_of_ne_nil _ (List.cons_ne_nil _ _)]
      simp [not_surrogate_of_le (Nat.not_lt.1 hc), hlast]

theorem startsLow_iff_units {t : Text} :
    t.StartsLow ↔ ∃ u ∈ (units t).head?, (ofUnit u).isLowSurrogate = true := by
  cases t with
  | nil => exact ⟨nofun, nofun⟩
  | cons c t =>
      rw [StartsLow, units_cons]
      by_cases hc : c.val < 0x10000
      · obtain ⟨u, hunits, rfl⟩ := exists_units_of_lt hc
        rw [hunits]
        simp
      · obtain ⟨high, low, hunits, hhigh, -, -⟩ := exists_units_of_le (Nat.not_lt.1 hc)
        rw [hunits]
        simp [not_surrogate_of_le (Nat.not_lt.1 hc), isLowSurrogate_of_isHighSurrogate hhigh]

theorem unpaired_append_iff {s t : Text} :
    Unpaired (s ++ t) ↔ s.Unpaired ∧ t.Unpaired ∧ ¬ (s.EndsHigh ∧ t.StartsLow) := by
  rw [Unpaired, List.isChain_append]
  refine and_congr_right fun _ => and_congr_right fun _ => ?_
  constructor
  · rintro h ⟨⟨c, hc, hhigh⟩, d, hd, hlow⟩
    rw [h c hc d hd hhigh] at hlow
    cases hlow
  · intro h c hc d hd hhigh
    apply Bool.eq_false_iff.2
    intro hlow
    exact h ⟨⟨c, hc, hhigh⟩, d, hd, hlow⟩

/-- Two texts are combined one by one, unless a pair stands across their border. -/
theorem combineSurrogates_append_iff {s t : Text} :
    combineSurrogates (s ++ t) = s.combineSurrogates ++ t.combineSurrogates ↔
      ¬ (s.EndsHigh ∧ t.StartsLow) := by
  have hborder : s.combineSurrogates.EndsHigh ∧ t.combineSurrogates.StartsLow ↔
      s.EndsHigh ∧ t.StartsLow := by
    rw [endsHigh_iff_units, startsLow_iff_units, units_combineSurrogates, units_combineSurrogates,
      ← endsHigh_iff_units, ← startsLow_iff_units]
  constructor
  · intro h
    have hunpaired := (unpaired_combineSurrogates (s ++ t)).1
    rw [h, unpaired_append_iff, hborder] at hunpaired
    exact hunpaired.2.2
  · intro h
    have hunits : units (s.combineSurrogates ++ t.combineSurrogates) = units (s ++ t) := by
      rw [units_append, units_append, units_combineSurrogates, units_combineSurrogates]
    refine (eq_combineSurrogates_of_units hunits (unpaired_append_iff.2 ⟨?_, ?_, ?_⟩)).symm
    · exact (unpaired_combineSurrogates s).1
    · exact (unpaired_combineSurrogates t).1
    · rwa [hborder]

/-- Combining surrogates has a value for every text: of all texts with the same units it is the
one in which no pair is left. So two texts are combined to the same text just if their units
agree, a text that is combined or has no surrogates stays as it is, and two texts end to end may
be combined one by one, just if the first one does not end in a high surrogate where the second
one starts with a low one. -/
theorem combineSurrogates_isNormalForm (s t : Text) :
    Value.combine (.str s) = .ok (.str s.combineSurrogates) ∧
    (∀ u : Text, u = s.combineSurrogates ↔ units u = units s ∧ u.Unpaired) ∧
    (s.combineSurrogates = t.combineSurrogates ↔ units s = units t) ∧
    s.combineSurrogates.combineSurrogates = s.combineSurrogates ∧
    ((∀ c ∈ s, c.isSurrogate = false) → s.combineSurrogates = s) ∧
    (combineSurrogates (s ++ t) = s.combineSurrogates ++ t.combineSurrogates ↔
      ¬ (s.EndsHigh ∧ t.StartsLow)) := by
  have hunpaired := (unpaired_combineSurrogates s).1
  refine ⟨rfl, fun u => ⟨?_, ?_⟩, combineSurrogates_eq_iff,
    combineSurrogates_of_unpaired hunpaired, ?_, combineSurrogates_append_iff⟩
  · rintro rfl
    exact ⟨units_combineSurrogates s, hunpaired⟩
  · rintro ⟨hunits, hu⟩
    exact eq_combineSurrogates_of_units hunits hu
  · intro h
    exact combineSurrogates_of_unpaired (unpaired_of_forall h)

/-- In a run of two high surrogates and two low ones the pair is the one in the middle. -/
example :
    combineSurrogates [.ofNat 0xD83D, .ofNat 0xD83D, .ofNat 0xDE00, .ofNat 0xDE00] =
      [.ofNat 0xD83D, .ofNat 0x1F600, .ofNat 0xDE00] := by
  decide

end Text

end Descent
