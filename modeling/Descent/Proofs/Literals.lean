import Descent.Json.Document
import Mathlib.Data.List.Basic
import Mathlib.Data.List.TakeWhile

/-!
# Literals as they are written

A literal that was scanned has digits where digits stand, but the fraction and the
exponent may lack them; it is well-formed if they do not. A scanned literal that is
written out is read again if nothing is lacking, and else it is no number.
-/

namespace Descent

/-- No digit comes next. -/
def NoDigit (t : Text) : Prop := ∀ c ∈ t.head?, c.isDigit = false

theorem noDigit_dropWhile (t : Text) : NoDigit (t.dropWhile CodePoint.isDigit) := by
  intro c hc
  have hhead := List.head?_dropWhile_not CodePoint.isDigit t
  rw [Option.mem_def] at hc
  rw [hc] at hhead
  simpa using hhead

section

variable {digits t : Text}

theorem takeWhile_digits (hd : ∀ c ∈ digits, c.isDigit = true) (ht : NoDigit t) :
    (digits ++ t).takeWhile CodePoint.isDigit = digits := by
  rw [List.takeWhile_append_of_pos hd]
  cases t with
  | nil => simp
  | cons c t => simp [ht c rfl]

theorem dropWhile_digits (hd : ∀ c ∈ digits, c.isDigit = true) (ht : NoDigit t) :
    (digits ++ t).dropWhile CodePoint.isDigit = t := by
  rw [List.dropWhile_append_of_pos hd]
  cases t with
  | nil => rfl
  | cons c t => simp [ht c rfl]

end

namespace NumberLiteral

instance (t : Text) : Decidable (IsDigits t) :=
  inferInstanceAs (Decidable (t ≠ [] ∧ ∀ c ∈ t, c.isDigit = true))

/-- The parts of a literal, of which those after the whole part may lack their digits. -/
structure Scanned (l : NumberLiteral) : Prop where
  whole_digits : IsDigits l.whole
  whole_zero : l.whole.head? = some (CodePoint.ofChar '0') → l.whole.length = 1
  fraction_digits : ∀ t ∈ l.fraction, ∀ c ∈ t, c.isDigit = true
  exponent_mark : ∀ e ∈ l.exponent, isExponentMark e.mark = true
  exponent_sign : ∀ e ∈ l.exponent, ∀ c ∈ e.sign, isExponentSign c = true
  exponent_digits : ∀ e ∈ l.exponent, ∀ c ∈ e.digits, c.isDigit = true

/-- No digits are lacking. -/
def IsComplete (l : NumberLiteral) : Prop := l.fraction ≠ some [] ∧ ∀ e ∈ l.exponent, e.digits ≠ []

instance (l : NumberLiteral) : Decidable l.IsComplete :=
  inferInstanceAs (Decidable (l.fraction ≠ some [] ∧ ∀ e ∈ l.exponent, e.digits ≠ []))

theorem wellFormed_iff {l : NumberLiteral} : l.WellFormed ↔ l.Scanned ∧ l.IsComplete := by
  constructor
  · intro h
    refine ⟨⟨h.whole_digits, h.whole_zero, fun t ht => (h.fraction_digits t ht).2,
      h.exponent_mark, h.exponent_sign, fun e he => (h.exponent_digits e he).2⟩, ?_,
      fun e he => (h.exponent_digits e he).1⟩
    intro hf
    exact (h.fraction_digits [] hf).1 rfl
  · rintro ⟨h, hf, he⟩
    refine ⟨h.whole_digits, h.whole_zero, fun t ht => ⟨?_, h.fraction_digits t ht⟩, h.exponent_mark,
      h.exponent_sign, fun e hm => ⟨he e hm, h.exponent_digits e hm⟩⟩
    rintro rfl
    exact hf ht

def signText (l : NumberLiteral) : Text := if l.negative then [CodePoint.ofChar '-'] else []

def fractionText : Option Text → Text
  | some digits => CodePoint.ofChar '.' :: digits
  | none => []

def exponentText : Option Exponent → Text
  | some e => e.render
  | none => []

theorem render_eq (l : NumberLiteral) :
    l.render = l.signText ++ l.whole ++ fractionText l.fraction ++ exponentText l.exponent := rfl

/-- A fraction that is taken as far as it goes, or that is not there. -/
structure FractionBefore (fraction : Option Text) (rest : Text) : Prop where
  digits : ∀ ds ∈ fraction, ∀ c ∈ ds, c.isDigit = true
  ends : fraction.isSome → NoDigit rest
  absent : fraction = none → ∀ c ∈ rest.head?, c ≠ CodePoint.ofChar '.'

/-- An exponent that is taken as far as it goes, or that is not there. -/
structure ExponentBefore (exponent : Option Exponent) (rest : Text) : Prop where
  mark : ∀ e ∈ exponent, isExponentMark e.mark = true
  sign : ∀ e ∈ exponent, ∀ c ∈ e.sign, isExponentSign c = true
  digits : ∀ e ∈ exponent, ∀ c ∈ e.digits, c.isDigit = true
  ends : exponent.isSome → NoDigit rest
  absent : exponent = none → ∀ c ∈ rest.head?, isExponentMark c = false

/-! ## Signs and marks -/

theorem takeSign_append {isSign : CodePoint → Bool} {sign : Option CodePoint} {t : Text}
    (hs : ∀ c ∈ sign, isSign c = true) (ht : sign = none → ∀ c ∈ t.head?, isSign c = false) :
    takeSign isSign (sign.toList ++ t) = (sign, t) := by
  cases sign with
  | some c => simp [takeSign, hs c rfl]
  | none =>
      cases t with
      | nil => rfl
      | cons c t => simp [takeSign, ht rfl c rfl]

theorem takeSign_eq (isSign : CodePoint → Bool) (t : Text) :
    t = (takeSign isSign t).1.toList ++ (takeSign isSign t).2 ∧
      (∀ c ∈ (takeSign isSign t).1, isSign c = true) := by
  cases t with
  | nil => exact ⟨rfl, fun c hc => nomatch hc⟩
  | cons c t =>
      cases h : isSign c with
      | false => simp [takeSign, h]
      | true => simp [takeSign, h]

theorem ne_of_isDigit {c : CodePoint} {d : Char} (h : c.isDigit = true)
    (hd : (CodePoint.ofChar d).isDigit = false) : c ≠ CodePoint.ofChar d := by
  rintro rfl
  rw [h] at hd
  cases hd

theorem ne_of_isExponentMark {c : CodePoint} {d : Char} (h : isExponentMark c = true)
    (hd : isExponentMark (CodePoint.ofChar d) = false) : c ≠ CodePoint.ofChar d := by
  rintro rfl
  rw [h] at hd
  cases hd

theorem isDigit_of_isExponentMark {c : CodePoint} (h : isExponentMark c = true) :
    c.isDigit = false := by
  have hc : c = CodePoint.ofChar 'e' ∨ c = CodePoint.ofChar 'E' := by
    simpa [isExponentMark] using h
  rcases hc with rfl | rfl
  · decide
  · decide

theorem isExponentSign_of_isDigit {c : CodePoint} (h : c.isDigit = true) :
    isExponentSign c = false := by
  have hplus : c ≠ CodePoint.ofChar '+' := ne_of_isDigit h (by decide)
  have hminus : c ≠ CodePoint.ofChar '-' := ne_of_isDigit h (by decide)
  simp [isExponentSign, hplus, hminus]

/-! ## Literals that are read -/

theorem noDigit_exponentText {exponent : Option Exponent}
    (h : ∀ e ∈ exponent, isExponentMark e.mark = true) : NoDigit (exponentText exponent) := by
  cases exponent with
  | none => simp [NoDigit, exponentText]
  | some e =>
      rintro _ ⟨⟩
      exact isDigit_of_isExponentMark (h e rfl)

theorem noDigit_fractionText {fraction : Option Text} {t : Text} (h : fraction = none → NoDigit t) :
    NoDigit (fractionText fraction ++ t) := by
  cases fraction with
  | none => exact h rfl
  | some ds =>
      rintro _ ⟨⟩
      decide

theorem Scanned.isWhole {l : NumberLiteral} (h : l.Scanned) : isWhole l.whole = true := by
  obtain ⟨hne, -⟩ := h.whole_digits
  have hz := h.whole_zero
  match l.whole, hne, hz with
  | [_], _, _ => rfl
  | c :: d :: ds, _, hz =>
    have hc : c ≠ CodePoint.ofChar '0' := by
      rintro rfl
      simp at hz
    simp [NumberLiteral.isWhole, hc]

theorem readExponent?_exponentText {exponent : Option Exponent}
    (hm : ∀ e ∈ exponent, isExponentMark e.mark = true)
    (hs : ∀ e ∈ exponent, ∀ c ∈ e.sign, isExponentSign c = true)
    (hd : ∀ e ∈ exponent, ∀ c ∈ e.digits, c.isDigit = true) :
    readExponent? (exponentText exponent) =
      if ∀ e ∈ exponent, e.digits ≠ [] then some exponent else none := by
  cases exponent with
  | none => simp [readExponent?, exponentText]
  | some e =>
      obtain ⟨mark, sign, ds⟩ := e
      have hdigits : ∀ c ∈ ds, c.isDigit = true := hd _ rfl
      have hhead : ∀ c ∈ ds.head?, isExponentSign c = false := fun c hc =>
        isExponentSign_of_isDigit (hdigits c (List.mem_of_mem_head? hc))
      have hsign : takeSign isExponentSign (sign.toList ++ ds) = (sign, ds) :=
        takeSign_append (hs _ rfl) fun _ => hhead
      have hmark : isExponentMark mark = true := hm _ rfl
      have hall : ds.all CodePoint.isDigit = true := List.all_eq_true.2 hdigits
      by_cases hds : ds = []
      · rw [hds, List.append_nil] at hsign
        simp [readExponent?, exponentText, Exponent.render, hsign, hds]
      · simp [readExponent?, exponentText, Exponent.render, hsign, hmark, hall, hds]

theorem readFraction?_append {fraction : Option Text} {t : Text} (h : FractionBefore fraction t) :
    readFraction? (fractionText fraction ++ t) =
      if fraction = some [] then none else some (fraction, t) := by
  cases fraction with
  | some ds =>
      have htake := takeWhile_digits (h.digits ds rfl) (h.ends rfl)
      have hdrop := dropWhile_digits (h.digits ds rfl) (h.ends rfl)
      by_cases hne : ds = []
      · rw [hne, List.nil_append] at htake
        simp [readFraction?, fractionText, htake, hne]
      · simp [readFraction?, fractionText, htake, hdrop, hne]
  | none =>
      cases t with
      | nil => rfl
      | cons c t => simp [readFraction?, fractionText, h.absent rfl c rfl]

theorem takeSign_signText {l : NumberLiteral} {t : Text} (h : ∀ c ∈ t.head?, c.isDigit = true) :
    takeSign (· = CodePoint.ofChar '-') (l.signText ++ t) =
      (if l.negative then some (CodePoint.ofChar '-') else none, t) := by
  have hsign : l.signText = (if l.negative then some (CodePoint.ofChar '-') else none).toList := by
    cases hn : l.negative <;> simp [signText, hn]
  rw [hsign]
  refine takeSign_append ?_ fun _ c hc => ?_
  · cases l.negative <;> simp
  · have hne : c ≠ CodePoint.ofChar '-' := ne_of_isDigit (h c hc) (by decide)
    simpa using hne

theorem Scanned.head_isDigit {l : NumberLiteral} (h : l.Scanned) (t : Text) :
    ∀ c ∈ (l.whole ++ t).head?, c.isDigit = true := by
  obtain ⟨hne, hd⟩ := h.whole_digits
  intro c hc
  rw [List.head?_append_of_ne_nil _ hne] at hc
  exact hd c (List.mem_of_mem_head? hc)

theorem Scanned.fractionBefore {l : NumberLiteral} (h : l.Scanned) :
    FractionBefore l.fraction (exponentText l.exponent) where
  digits := h.fraction_digits
  ends _ := noDigit_exponentText h.exponent_mark
  absent _ := by
    intro c hc
    cases he : l.exponent with
    | none =>
        rw [he] at hc
        cases hc
    | some e =>
        rw [he] at hc
        cases hc
        exact ne_of_isExponentMark (h.exponent_mark e he) (by decide)

/-- A literal is read from end to end, if no digits are lacking. -/
theorem read?_render {l : NumberLiteral} (h : l.Scanned) :
    read? l.render = if l.IsComplete then some l else none := by
  have hrest : NoDigit (fractionText l.fraction ++ exponentText l.exponent) :=
    noDigit_fractionText fun _ => noDigit_exponentText h.exponent_mark
  have hsign := takeSign_signText (l := l)
    (h.head_isDigit (fractionText l.fraction ++ exponentText l.exponent))
  have htake := takeWhile_digits h.whole_digits.2 hrest
  have hdrop := dropWhile_digits h.whole_digits.2 hrest
  have hfraction := readFraction?_append h.fractionBefore
  have hexponent := readExponent?_exponentText h.exponent_mark h.exponent_sign h.exponent_digits
  rw [render_eq, List.append_assoc, List.append_assoc]
  simp only [read?, hsign, htake, hdrop, h.isWhole, hfraction, Bool.not_true]
  by_cases hf : l.fraction = some []
  · simp [hf, IsComplete]
  · by_cases he : ∀ e ∈ l.exponent, e.digits ≠ []
    · have hc : l.IsComplete := ⟨hf, he⟩
      have hnegative : (if l.negative then some (CodePoint.ofChar '-') else none).isSome =
          l.negative := by
        cases l.negative <;> rfl
      rw [if_pos he] at hexponent
      simp [hf, hexponent, hc, hnegative]
    · have hc : ¬ l.IsComplete := fun hc => he hc.2
      rw [if_neg he] at hexponent
      simp [hf, hexponent, hc]

/-! ## Texts that are literals -/

theorem eq_of_readExponent? {t : Text} {exponent : Option Exponent}
    (h : readExponent? t = some exponent) :
    t = exponentText exponent ∧ ∀ e ∈ exponent, isExponentMark e.mark = true ∧
      (∀ c ∈ e.sign, isExponentSign c = true) ∧ IsDigits e.digits := by
  cases t with
  | nil =>
      cases h
      exact ⟨rfl, fun e he => nomatch he⟩
  | cons mark t =>
      obtain ⟨htext, hsign⟩ := takeSign_eq isExponentSign t
      simp only [readExponent?, Option.ite_none_right_eq_some, Bool.and_eq_true, Bool.not_eq_true',
        List.isEmpty_eq_false_iff, List.all_eq_true, Option.some.injEq] at h
      obtain ⟨⟨⟨hmark, hne⟩, hdigits⟩, rfl⟩ := h
      refine ⟨congrArg (mark :: ·) htext, ?_⟩
      rintro _ ⟨⟩
      exact ⟨hmark, hsign, hne, hdigits⟩

theorem eq_of_readFraction? {t rest : Text} {fraction : Option Text}
    (h : readFraction? t = some (fraction, rest)) :
    t = fractionText fraction ++ rest ∧ ∀ ds ∈ fraction, IsDigits ds := by
  cases t with
  | nil =>
      cases h
      exact ⟨rfl, fun ds hds => nomatch hds⟩
  | cons c t =>
      by_cases hc : c = CodePoint.ofChar '.'
      · subst hc
        simp only [readFraction?, if_pos, Option.ite_none_left_eq_some, Option.some.injEq,
          Prod.mk.injEq, List.isEmpty_iff] at h
        obtain ⟨hne, rfl, rfl⟩ := h
        refine ⟨?_, ?_⟩
        · rw [fractionText, List.cons_append, List.takeWhile_append_dropWhile]
        · rintro _ ⟨⟩
          exact ⟨hne, fun c hc => List.mem_takeWhile_imp hc⟩
      · rw [readFraction?, if_neg hc] at h
        cases h
        exact ⟨rfl, fun ds hds => nomatch hds⟩

theorem head_of_isWhole {t : Text} (h : isWhole t = true) :
    t ≠ [] ∧ (t.head? = some (CodePoint.ofChar '0') → t.length = 1) := by
  match t, h with
  | [c], _ => exact ⟨List.cons_ne_nil c [], fun _ => rfl⟩
  | c :: d :: ds, h =>
    refine ⟨List.cons_ne_nil c _, fun hz => ?_⟩
    exact absurd (Option.some.inj hz) (of_decide_eq_true h)

/-- The texts that are read are those of the well-formed literals. -/
theorem read?_eq_some_iff {t : Text} {l : NumberLiteral} :
    read? t = some l ↔ l.WellFormed ∧ t = l.render := by
  constructor
  · intro h
    obtain ⟨htext, hsign⟩ := takeSign_eq (· = CodePoint.ofChar '-') t
    unfold read? at h
    generalize takeSign (· = CodePoint.ofChar '-') t = signed at h htext hsign
    obtain ⟨sign, u⟩ := signed
    simp only [Option.ite_none_left_eq_some, Bool.not_eq_true', Bool.not_eq_false,
      Option.bind_eq_bind, Option.bind_eq_some_iff, Option.some.injEq, Prod.exists] at h
    obtain ⟨hwhole, fraction, v, hfraction, exponent, hexponent, rfl⟩ := h
    obtain ⟨hv, hfractionDigits⟩ := eq_of_readFraction? hfraction
    obtain ⟨rfl, hexponentDigits⟩ := eq_of_readExponent? hexponent
    obtain ⟨hne, hzero⟩ := head_of_isWhole hwhole
    refine ⟨⟨⟨hne, fun c hc => List.mem_takeWhile_imp hc⟩, hzero, hfractionDigits,
      fun e he => (hexponentDigits e he).1, fun e he => (hexponentDigits e he).2.1,
      fun e he => (hexponentDigits e he).2.2⟩, ?_⟩
    have hsigntext : sign.toList = if sign.isSome then [CodePoint.ofChar '-'] else [] := by
      cases sign with
      | none => rfl
      | some c => rw [of_decide_eq_true (hsign c rfl)]; rfl
    rw [htext, render_eq, signText, ← hsigntext, List.append_assoc, List.append_assoc, ← hv,
      List.takeWhile_append_dropWhile]
  · rintro ⟨h, rfl⟩
    obtain ⟨hscanned, hcomplete⟩ := wellFormed_iff.1 h
    rw [read?_render hscanned, if_pos hcomplete]

end NumberLiteral

end Descent
