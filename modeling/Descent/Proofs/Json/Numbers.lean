import Descent.Proofs.Json.Reading
import Descent.Proofs.Literals

/-!
# Number tokens

A number is taken as far as it goes, and what is taken has the parts of a literal,
of which those of the fraction and of the exponent may lack their digits. Such a
literal is complete or no number. So the number rule reads the literals that end
where they stand, and these only.
-/

namespace Descent

namespace NumberLiteral

/-! ## Parts -/

/-- What follows the whole part does not go on with it. -/
theorem takeWhole_append {whole t : Text} (hw : IsDigits whole)
    (hz : whole.head? = some (CodePoint.ofChar '0') → whole.length = 1)
    (ht : NoDigit t ∨ whole = text "0") : Json.Number.takeWhole (whole ++ t) = some (whole, t) := by
  obtain ⟨hne, hd⟩ := hw
  cases whole with
  | nil => exact absurd rfl hne
  | cons c ds =>
      by_cases hc : c = CodePoint.ofChar '0'
      · have hds : ds = [] := by
          rw [hc] at hz
          simpa using hz rfl
        simp [Json.Number.takeWhole, hc, hds]
      · have hnodigit : NoDigit t := by
          rcases ht with ht | ht
          · exact ht
          · exact absurd (List.cons.inj ht).1 hc
        have hone : c.between '1' '9' = true := by
          have hdigit := CodePoint.between_iff.1 (hd c List.mem_cons_self)
          have hval : c.val ≠ 48 := fun h => hc (CodePoint.ext_val h)
          refine CodePoint.between_iff.2 ⟨?_, hdigit.2⟩
          exact Nat.lt_of_le_of_ne hdigit.1 (Ne.symm hval)
        have hds : ∀ d ∈ ds, d.isDigit = true := fun d h => hd d (List.mem_cons_of_mem c h)
        simp [Json.Number.takeWhole, hc, hone, takeWhile_digits hds hnodigit,
          dropWhile_digits hds hnodigit]

theorem takeFraction_append {fraction : Option Text} {t : Text} (h : FractionBefore fraction t) :
    Json.Number.takeFraction (fractionText fraction ++ t) = (fractionText fraction, t) := by
  cases fraction with
  | some ds =>
      have hds := h.digits ds rfl
      simp [fractionText, Json.Number.takeFraction, takeWhile_digits hds (h.ends rfl),
        dropWhile_digits hds (h.ends rfl)]
  | none =>
      cases t with
      | nil => rfl
      | cons c t => simp [fractionText, Json.Number.takeFraction, h.absent rfl c rfl]

theorem takeExponent_append {exponent : Option Exponent} {t : Text} (h : ExponentBefore exponent t)
    (hhead : ∀ e ∈ exponent, e.sign = none → ∀ c ∈ (e.digits ++ t).head?, isExponentSign c = false) :
    Json.Number.takeExponent (exponentText exponent ++ t) = (exponentText exponent, t) := by
  cases exponent with
  | some e =>
      obtain ⟨mark, sign, ds⟩ := e
      have hds : ∀ c ∈ ds, c.isDigit = true := h.digits _ rfl
      have hsign : takeSign isExponentSign (sign.toList ++ (ds ++ t)) = (sign, ds ++ t) :=
        takeSign_append (h.sign _ rfl) (hhead _ rfl)
      have hmark : isExponentMark mark = true := h.mark _ rfl
      simp [exponentText, Exponent.render, Json.Number.takeExponent, hmark, hsign,
        takeWhile_digits hds (h.ends rfl), dropWhile_digits hds (h.ends rfl)]
  | none =>
      cases t with
      | nil => rfl
      | cons c t => simp [exponentText, Json.Number.takeExponent, h.absent rfl c rfl]

/-! ## Parts that are taken -/

theorem takeWhole_eq_some {t whole rest : Text} (h : Json.Number.takeWhole t = some (whole, rest)) :
    t = whole ++ rest ∧ IsDigits whole ∧
      (whole.head? = some (CodePoint.ofChar '0') → whole.length = 1) ∧
      (NoDigit rest ∨ whole = text "0") := by
  cases t with
  | nil => cases h
  | cons c t =>
      by_cases hc : c = CodePoint.ofChar '0'
      · simp only [Json.Number.takeWhole, hc, if_true, Option.some.injEq, Prod.mk.injEq] at h
        obtain ⟨rfl, rfl⟩ := h
        refine ⟨by rw [hc]; rfl, ⟨by simp, ?_⟩, fun _ => rfl, .inr rfl⟩
        intro d hd
        rw [List.mem_singleton.1 hd]
        decide
      · by_cases hone : c.between '1' '9' = true
        · simp only [Json.Number.takeWhole, hc, hone, if_true, if_false, Option.some.injEq,
            Prod.mk.injEq] at h
          obtain ⟨rfl, rfl⟩ := h
          have hdigit : c.isDigit = true := by
            obtain ⟨hlo, hhi⟩ := CodePoint.between_iff.1 hone
            exact CodePoint.between_iff.2 ⟨Nat.le_of_succ_le hlo, hhi⟩
          refine ⟨?_, ⟨by simp, ?_⟩, fun h => absurd (Option.some.inj h) hc,
            .inl (noDigit_dropWhile t)⟩
          · rw [List.cons_append, List.takeWhile_append_dropWhile]
          · intro d hd
            rcases List.mem_cons.1 hd with rfl | hd
            · exact hdigit
            · exact List.mem_takeWhile_imp hd
        · simp [Json.Number.takeWhole, hc, hone] at h

theorem exists_takeFraction (t : Text) :
    ∃ fraction rest, Json.Number.takeFraction t = (fractionText fraction, rest) ∧
      t = fractionText fraction ++ rest ∧ FractionBefore fraction rest := by
  cases t with
  | nil => exact ⟨none, [], rfl, rfl, by simp, by simp, by simp⟩
  | cons c t =>
      by_cases hc : c = CodePoint.ofChar '.'
      · refine ⟨some (t.takeWhile CodePoint.isDigit), t.dropWhile CodePoint.isDigit, ?_, ?_, ?_,
          fun _ => noDigit_dropWhile t, by simp⟩
        · simp [Json.Number.takeFraction, fractionText, hc]
        · simp [fractionText, hc, List.takeWhile_append_dropWhile]
        · rintro _ ⟨⟩ d hd
          exact List.mem_takeWhile_imp hd
      · refine ⟨none, c :: t, ?_, rfl, by simp, by simp, by simp [hc]⟩
        simp [Json.Number.takeFraction, fractionText, hc]

theorem exists_takeExponent (t : Text) :
    ∃ exponent rest, Json.Number.takeExponent t = (exponentText exponent, rest) ∧
      t = exponentText exponent ++ rest ∧ ExponentBefore exponent rest := by
  cases t with
  | nil => exact ⟨none, [], rfl, rfl, by simp, by simp, by simp, by simp, by simp⟩
  | cons c t =>
      cases hc : isExponentMark c with
      | true =>
          obtain ⟨ht, hsign⟩ := takeSign_eq isExponentSign t
          generalize hsigned : takeSign isExponentSign t = signed at ht hsign
          obtain ⟨sign, u⟩ := signed
          refine ⟨some ⟨c, sign, u.takeWhile CodePoint.isDigit⟩, u.dropWhile CodePoint.isDigit,
            ?_, ?_, ?_, ?_, ?_, fun _ => noDigit_dropWhile u, by simp⟩
          · simp [Json.Number.takeExponent, exponentText, Exponent.render, hc, hsigned]
          · simp [exponentText, Exponent.render, List.takeWhile_append_dropWhile, ht]
          · rintro _ ⟨⟩
            exact hc
          · rintro _ ⟨⟩
            exact hsign
          · rintro _ ⟨⟩ d hd
            exact List.mem_takeWhile_imp hd
      | false =>
          refine ⟨none, c :: t, ?_, rfl, by simp, by simp, by simp, by simp, by simp [hc]⟩
          simp [Json.Number.takeExponent, exponentText, hc]

end NumberLiteral

namespace Json

open NumberLiteral Reading

/-! ## The number rule -/

theorem literalNumber_render {l : NumberLiteral} (h : l.Scanned) (rest : Text) :
    literalNumber l.render rest =
      if l.IsComplete then .reads (.float l.toBinary64) rest else .fails := by
  by_cases hc : l.IsComplete <;> simp [literalNumber, read?_render h, hc]

/-- The parts of a number that are taken, put together. -/
theorem numberReading_of_parts {l : NumberLiteral} {cur t u rest : Text}
    (hsign : takeSign (· = CodePoint.ofChar '-') cur =
      (if l.negative then some (CodePoint.ofChar '-') else none, t))
    (hwhole : Number.takeWhole t = some (l.whole, u))
    (hfraction : Number.takeFraction u = (fractionText l.fraction, exponentText l.exponent ++ rest))
    (hexponent : Number.takeExponent (exponentText l.exponent ++ rest) =
      (exponentText l.exponent, rest)) (depth : Nat) :
    numberReading depth cur =
      enter depth fun n => enter n fun _ => literalNumber l.render rest := by
  have htext : l.signText = (if l.negative then some (CodePoint.ofChar '-') else none).toList := by
    cases hn : l.negative <;> simp [signText, hn]
  simp only [numberReading, hsign, hwhole, hfraction, hexponent, render_eq, htext]

theorem exponentBefore_of_endsBefore {l : NumberLiteral} {rest : Text} (h : l.Scanned)
    (hend : l.EndsBefore rest) : ExponentBefore l.exponent rest where
  mark := h.exponent_mark
  sign := h.exponent_sign
  digits := h.exponent_digits
  ends hsome c hc := by
    by_contra hdigit
    obtain ⟨-, -, hnone⟩ := hend.digit c hc (by simpa using hdigit)
    rw [hnone] at hsome
    cases hsome
  absent hnone c hc := by
    by_contra hmark
    have hsome := hend.mark c hc (by simpa using hmark)
    rw [hnone] at hsome
    cases hsome

theorem fractionBefore_of_endsBefore {l : NumberLiteral} {rest : Text} (h : l.Scanned)
    (hend : l.EndsBefore rest) : FractionBefore l.fraction (exponentText l.exponent ++ rest) where
  digits := h.fraction_digits
  ends hsome c hc := by
    cases he : l.exponent with
    | some e =>
        rw [he] at hc
        cases hc
        exact isDigit_of_isExponentMark (h.exponent_mark e he)
    | none =>
        rw [he] at hc
        by_contra hdigit
        obtain ⟨-, hnone, -⟩ := hend.digit c hc (by simpa using hdigit)
        rw [hnone] at hsome
        cases hsome
  absent hnone c hc := by
    cases he : l.exponent with
    | some e =>
        rw [he] at hc
        cases hc
        exact ne_of_isExponentMark (h.exponent_mark e he) (by decide)
    | none =>
        rw [he] at hc
        rintro hpoint
        rcases hend.point c hc hpoint with hsome | hsome
        · rw [hnone] at hsome
          cases hsome
        · rw [he] at hsome
          cases hsome

theorem wholeBefore_of_endsBefore {l : NumberLiteral} {rest : Text} (h : l.Scanned)
    (hend : l.EndsBefore rest) :
    NoDigit (fractionText l.fraction ++ (exponentText l.exponent ++ rest)) ∨
      l.whole = text "0" := by
  by_cases hzero : l.whole = text "0"
  · exact .inr hzero
  · refine .inl (noDigit_fractionText fun _ => ?_)
    intro c hc
    cases he : l.exponent with
    | some e =>
        rw [he] at hc
        cases hc
        exact isDigit_of_isExponentMark (h.exponent_mark e he)
    | none =>
        rw [he] at hc
        by_contra hdigit
        exact hzero (hend.digit c hc (by simpa using hdigit)).1

/-- A literal that is written out is taken part by part, if what follows does not go on with it.
An exponent without a sign and without digits must not get a sign. -/
theorem numberReading_of_scanned {l : NumberLiteral} {rest : Text} (h : l.Scanned)
    (hend : l.EndsBefore rest)
    (hhead : ∀ e ∈ l.exponent, e.sign = none →
      ∀ c ∈ (e.digits ++ rest).head?, isExponentSign c = false) (depth : Nat) :
    numberReading depth (l.render ++ rest) =
      enter depth fun n => enter n fun _ => literalNumber l.render rest := by
  have hsign := takeSign_signText (l := l)
    (h.head_isDigit (fractionText l.fraction ++ (exponentText l.exponent ++ rest)))
  have hparts := numberReading_of_parts hsign
    (takeWhole_append h.whole_digits h.whole_zero (wholeBefore_of_endsBefore h hend))
    (takeFraction_append (fractionBefore_of_endsBefore h hend))
    (takeExponent_append (exponentBefore_of_endsBefore h hend) hhead) depth
  rw [← hparts, render_eq, List.append_assoc, List.append_assoc, List.append_assoc]

/-- The first digit of an exponent is no sign. -/
theorem isExponentSign_head {l : NumberLiteral} (h : l.WellFormed) (rest : Text) :
    ∀ e ∈ l.exponent, e.sign = none →
      ∀ c ∈ (e.digits ++ rest).head?, isExponentSign c = false := by
  intro e he _ c hc
  obtain ⟨hne, hdigits⟩ := h.exponent_digits e he
  rw [List.head?_append_of_ne_nil _ hne] at hc
  exact isExponentSign_of_isDigit (hdigits c (List.mem_of_mem_head? hc))

/-- A literal that ends where it stands is read. -/
theorem numberReading_render {l : NumberLiteral} {rest : Text} (h : l.WellFormed)
    (hend : l.EndsBefore rest) (depth : Nat) :
    numberReading depth (l.render ++ rest) =
      if 2 ≤ depth then .reads (.float l.toBinary64) rest else .overrun := by
  obtain ⟨hs, hc⟩ := wellFormed_iff.1 h
  rw [numberReading_of_scanned hs hend (isExponentSign_head h rest)]
  match depth with
  | 0 => rfl
  | 1 => rfl
  | n + 2 =>
    rw [enter_succ, enter_succ, literalNumber_render hs, if_pos hc]
    simp

theorem endsBefore_of_taken {l : NumberLiteral} {rest : Text}
    (hw : NoDigit (fractionText l.fraction ++ (exponentText l.exponent ++ rest)) ∨
      l.whole = text "0")
    (hf : FractionBefore l.fraction (exponentText l.exponent ++ rest))
    (he : ExponentBefore l.exponent rest) : l.EndsBefore rest where
  digit c hc hdigit := by
    have hexponent : l.exponent = none := by
      by_contra hne
      have hno := he.ends (Option.isSome_iff_ne_none.2 hne) c hc
      rw [hdigit] at hno
      cases hno
    rw [hexponent] at hf hw
    have hfraction : l.fraction = none := by
      by_contra hne
      have hno := hf.ends (Option.isSome_iff_ne_none.2 hne) c hc
      rw [hdigit] at hno
      cases hno
    rw [hfraction] at hw
    refine ⟨?_, hfraction, hexponent⟩
    rcases hw with hw | hw
    · have hno := hw c hc
      rw [hdigit] at hno
      cases hno
    · exact hw
  point c hc hpoint := by
    cases hx : l.exponent with
    | some e => exact .inr rfl
    | none =>
        cases hy : l.fraction with
        | some ds => exact .inl rfl
        | none =>
            rw [hx] at hf
            exact absurd hpoint (hf.absent hy c hc)
  mark c hc hmark := by
    cases hx : l.exponent with
    | some e => rfl
    | none =>
        have hno := he.absent hx c hc
        rw [hmark] at hno
        cases hno

/-- What is taken as a number is a literal, which ends where it stands. -/
theorem exists_scanned {cur t whole u : Text} {sign : Option CodePoint}
    (hsign : takeSign (· = CodePoint.ofChar '-') cur = (sign, t))
    (hwhole : Number.takeWhole t = some (whole, u)) :
    ∃ (l : NumberLiteral) (rest : Text), l.Scanned ∧ l.EndsBefore rest ∧ cur = l.render ++ rest ∧
      ∀ depth, numberReading depth cur =
        enter depth fun n => enter n fun _ => literalNumber l.render rest := by
  obtain ⟨hcur, hminus⟩ := takeSign_eq (· = CodePoint.ofChar '-') cur
  rw [hsign] at hcur hminus
  obtain ⟨ht, hdigits, hzero, hends⟩ := takeWhole_eq_some hwhole
  obtain ⟨fraction, w, hfraction, hu, hf⟩ := exists_takeFraction u
  obtain ⟨exponent, rest, hexponent, hw, he⟩ := exists_takeExponent w
  have hsome : sign = if sign.isSome then some (CodePoint.ofChar '-') else none := by
    cases sign with
    | none => rfl
    | some c => simpa using hminus c rfl
  let l : NumberLiteral := ⟨sign.isSome, whole, fraction, exponent⟩
  have hl : l.Scanned := ⟨hdigits, hzero, hf.digits, he.mark, he.sign, he.digits⟩
  subst hw hu
  refine ⟨l, rest, hl, endsBefore_of_taken hends hf he, ?_, ?_⟩
  · have hsigntext : l.signText = sign.toList := by
      rw [hsome]
      cases sign <;> rfl
    rw [hcur, ht, render_eq, hsigntext]
    simp [l]
  · refine numberReading_of_parts (l := l) ?_ hwhole hfraction hexponent
    rw [hsign, hsome]

/-- A number that is read is a literal that ends where it stands. -/
theorem exists_literal_of_numberReading {depth : Nat} {cur rest : Text} {v : Value}
    (h : numberReading depth cur = .reads v rest) :
    ∃ l : NumberLiteral, l.WellFormed ∧ l.EndsBefore rest ∧ v = .float l.toBinary64 ∧
      cur = l.render ++ rest := by
  cases hwhole : Number.takeWhole (takeSign (· = CodePoint.ofChar '-') cur).2 with
  | none =>
      simp only [numberReading, hwhole] at h
      cases depth <;> cases h
  | some w =>
      obtain ⟨l, t, hl, hend, hcur, hreading⟩ := exists_scanned rfl hwhole
      rw [hreading, enter_eq_reads_iff] at h
      obtain ⟨n, -, h⟩ := h
      rw [enter_eq_reads_iff] at h
      obtain ⟨-, -, h⟩ := h
      rw [literalNumber_render hl] at h
      by_cases hc : l.IsComplete
      · rw [if_pos hc] at h
        cases h
        exact ⟨l, wellFormed_iff.2 ⟨hl, hc⟩, hend, rfl, hcur⟩
      · rw [if_neg hc] at h
        cases h

/-- Nothing else starts as a number does. -/
theorem numberReading_of_head {c : CodePoint} {t : Text} (hminus : c ≠ CodePoint.ofChar '-')
    (hdigit : c.isDigit = false) (depth : Nat) :
    numberReading depth (c :: t) = enter depth fun _ => .fails := by
  have hsign : takeSign (· = CodePoint.ofChar '-') (c :: t) = (none, c :: t) := by
    simp [takeSign, hminus]
  have hzero : c ≠ CodePoint.ofChar '0' := by
    rintro rfl
    cases hdigit
  have hone : c.between '1' '9' = false := by
    by_contra h
    obtain ⟨hlo, hhi⟩ := CodePoint.between_iff.1 (by simpa using h)
    have : c.isDigit = true := CodePoint.between_iff.2 ⟨Nat.le_of_succ_le hlo, hhi⟩
    rw [hdigit] at this
    cases this
  have hwhole : Number.takeWhole (c :: t) = none := by simp [Number.takeWhole, hzero, hone]
  simp only [numberReading, hsign, hwhole]

end Json

end Descent
