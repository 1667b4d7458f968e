import Descent.Proofs.Json.Answers
import Descent.Proofs.Json.Endings
import Descent.Proofs.Json.Uniqueness

/-!
# The languages of the grammars

A text that is parsed is derived: it is a document between blanks, and the value is
that of the document. Conversely a text that is derived is parsed, up to the depth
that it needs. With strict separators the documents are those of the standard, where
numbers always end where they stand; without, commas are free and it has to be said
that they do. The derivations of one text differ in their blanks alone.
-/

namespace Descent

namespace Json

open Reading Document

/-- A derivation of a text: blanks, a document that is allowed there, and blanks. -/
structure Derivation (Allowed : Document → Text → Prop) (t : Text) where
  before : Text
  document : Document
  after : Text
  before_isBlank : IsBlank before
  after_isBlank : IsBlank after
  allowed : Allowed document after
  text_eq : before ++ (document.text ++ after) = t

/-- A document of RFC 8259, whatever follows. -/
def IsStandard (d : Document) (_ : Text) : Prop := d.WellFormed ∧ d.Strict

/-- A document whose commas are free and whose numbers end where they stand. -/
def IsLoose (d : Document) (next : Text) : Prop := d.WellFormed ∧ d.NumbersEnd next

namespace Derivation

variable {Allowed Other : Document → Text → Prop} {t : Text}

/-- The same derivation, if more is known of the documents. -/
def imp (D : Derivation Allowed t)
    (h : ∀ {d next}, IsBlank next → Allowed d next → Other d next) : Derivation Other t :=
  { D with allowed := h D.after_isBlank D.allowed }

end Derivation

/-! ## Texts with a derivation -/

section

variable {o : Options} {t : Text}

/-- A text that is derived is read, if the depth that it needs is there. -/
theorem valueReading_of_derivation (D : Derivation (fun d => d.Fits o) t) (n : Nat) :
    valueReading o n t =
      if D.document.need ≤ n then .reads (D.document.value o.decode) [] else .overrun := by
  have htext := valueReading_document (n := n) D.before_isBlank D.allowed
  rwa [D.text_eq, skipBlanks_of_isBlank D.after_isBlank] at htext

/-- A text that is derived is parsed, if the depth that it needs is there. -/
theorem parse_of_derivation (D : Derivation (fun d => d.Fits o) t) :
    parse o t = if D.document.need ≤ depthLimit then .ok (D.document.value o.decode)
      else .error (.nestedTooDeep Rule.value.description) := by
  rw [parse_eq_tried, valueReading_of_derivation D]
  by_cases hn : D.document.need ≤ depthLimit
  · rw [if_pos hn, if_pos hn]
    rfl
  · rw [if_neg hn, if_neg hn]
    rfl

theorem need_le_depthLimit {d : Document} (h : d.depth ≤ 100) : d.need ≤ depthLimit := by
  have hle := d.need_le
  have hlimit : depthLimit = 500 := rfl
  omega

/-- A hundred containers in each other are not too deep. -/
theorem parse_ne_nestedTooDeep (D : Derivation (fun d => d.Fits o) t) (h : D.document.depth ≤ 100)
    (p : Text) : parse o t ≠ .error (.nestedTooDeep p) := by
  rw [parse_of_derivation D, if_pos (need_le_depthLimit h)]
  exact fun h => nomatch h

/-- A text that is read to its end is derived. -/
theorem exists_derivation_of_valueReading {n : Nat} {v : Value}
    (h : valueReading o n t = .reads v []) :
    ∃ D : Derivation (fun d => d.Fits o) t, D.document.value o.decode = v := by
  rcases exists_document h with ⟨before, after, d, hbefore, hafter, hd, hv, ht, -⟩
  rw [List.append_nil] at hd ht
  exact ⟨⟨before, d, after, hbefore, hafter, hd, ht.symm⟩, hv.symm⟩

/-- A text that is parsed is derived. -/
theorem exists_derivation {v : Value} (h : parse o t = .ok v) :
    ∃ D : Derivation (fun d => d.Fits o) t, D.document.value o.decode = v := by
  rw [parse_eq_tried] at h
  exact exists_derivation_of_valueReading (eq_of_tried h)

/-- The ways in which a parse can be refused. -/
theorem exists_of_tried_error {p : Text} {r : Reading Value} {f : Fault}
    (h : tried p true r = .error f) :
    f = .noParse p ∨ f = .nestedTooDeep p ∨ ∃ v rest, f = .leftover v rest := by
  cases r with
  | overrun =>
      cases h
      exact .inr (.inl rfl)
  | fails =>
      cases h
      exact .inl rfl
  | reads v rest =>
      cases rest with
      | nil => cases h
      | cons c rest =>
          cases h
          exact .inr (.inr ⟨v, c :: rest, rfl⟩)

/-- A text without a derivation is refused. -/
theorem refused_of_isEmpty (h : IsEmpty (Derivation (fun d => d.Fits o) t)) :
    ∃ f, parse o t = .error f ∧ (f = .noParse Rule.value.description ∨
      f = .nestedTooDeep Rule.value.description ∨ ∃ v rest, f = .leftover v rest) := by
  cases hparse : parse o t with
  | ok v =>
      rcases exists_derivation hparse with ⟨D, -⟩
      exact (h.false D).elim
  | error f =>
      have htried := hparse
      rw [parse_eq_tried] at htried
      exact ⟨f, rfl, exists_of_tried_error htried⟩

/-- Two derivations of one text have the same value, and differ in their blanks alone. -/
theorem Derivation.unique (D E : Derivation (fun d => d.Fits o) t) :
    D.document.value o.decode = E.document.value o.decode ∧
      D.document.bare = E.document.bare := by
  have hskip (F : Derivation (fun d => d.Fits o) t) :
      F.document.text ++ F.after = skipBlanks t := by
    have hF := skipBlanks_text F.allowed.wellFormed F.before_isBlank F.after
    rw [F.text_eq] at hF
    exact hF.symm
  have htext : D.document.text ++ D.after = E.document.text ++ E.after :=
    (hskip D).trans (hskip E).symm
  exact ⟨(value_unique D.allowed E.allowed htext).1, bare_unique o _ _ D.allowed E.allowed htext⟩

end

/-! ## Strict separators -/

/-- What a strict grammar allows is what the standard does. -/
theorem fits_strict_iff {o : Options} (h : o.strict = true) {d : Document} {next : Text}
    (hnext : IsBlank next) : d.Fits o next ↔ IsStandard d next := by
  constructor
  · intro hd
    exact ⟨hd.wellFormed, hd.strict h⟩
  · intro hd
    have hend := numbersEnd_of_strict d hd.1 hd.2 (isDelimited_of_isBlank hnext)
    exact ⟨hd.1, fun _ => hd.2, hend⟩

/-- A strict grammar parses the texts of RFC 8259 with their values, if containers are nested
at most a hundred deep, and refuses all other texts. -/
theorem parse_standard (t : Text) :
    (∀ v, parse { strict := true } t = .ok v → Nonempty (Derivation IsStandard t) ∧
      ∀ D : Derivation IsStandard t, D.document.value id = v) ∧
    (∀ D : Derivation IsStandard t, D.document.depth ≤ 100 →
      parse { strict := true } t = .ok (D.document.value id)) ∧
    (IsEmpty (Derivation IsStandard t) → ∃ f, parse { strict := true } t = .error f ∧
      (f = .noParse Rule.value.description ∨ f = .nestedTooDeep Rule.value.description ∨
        ∃ v rest, f = .leftover v rest)) := by
  let o : Options := { strict := true }
  have hto (D : Derivation IsStandard t) : ∃ E : Derivation (fun d => d.Fits o) t,
      E.document = D.document :=
    ⟨D.imp fun hnext hd => (fits_strict_iff rfl hnext).2 hd, rfl⟩
  have hfrom (E : Derivation (fun d => d.Fits o) t) : Nonempty (Derivation IsStandard t) :=
    ⟨E.imp fun hnext hd => (fits_strict_iff rfl hnext).1 hd⟩
  have hdecode : o.decode = id := rfl
  constructor
  · intro v h
    rcases exists_derivation h with ⟨E, hE⟩
    constructor
    · exact hfrom E
    · intro D
      rcases hto D with ⟨F, hF⟩
      rw [← hF, ← hdecode, (F.unique E).1, hE]
  constructor
  · intro D hdepth
    rcases hto D with ⟨E, hE⟩
    have hparse := parse_of_derivation E
    rw [hE, if_pos (need_le_depthLimit hdepth), hdecode] at hparse
    exact hparse
  · intro h
    apply refused_of_isEmpty
    constructor
    intro E
    rcases hfrom E with ⟨D⟩
    exact h.false D

/-! ## Free separators -/

/-- What a loose grammar allows. -/
theorem fits_loose_iff {o : Options} (h : o.strict = false) {d : Document} {next : Text} :
    d.Fits o next ↔ IsLoose d next := by
  constructor
  · intro hd
    exact ⟨hd.wellFormed, hd.numbersEnd⟩
  · intro hd
    refine ⟨hd.1, fun hstrict => ?_, hd.2⟩
    rw [h] at hstrict
    cases hstrict

/-- A loose grammar parses the texts of loose documents, each with its one value. -/
theorem parse_loose (t : Text) (h : ∀ p, parse {} t ≠ .error (.nestedTooDeep p)) :
    (∀ v, parse {} t = .ok v ↔ ∃ D : Derivation IsLoose t, D.document.value id = v) ∧
    ∀ D E : Derivation IsLoose t,
      D.document.value id = E.document.value id ∧ D.document.bare = E.document.bare := by
  let o : Options := {}
  have hto (D : Derivation IsLoose t) : ∃ E : Derivation (fun d => d.Fits o) t,
      E.document = D.document :=
    ⟨D.imp fun _ hd => (fits_loose_iff rfl).2 hd, rfl⟩
  have hdecode : o.decode = id := rfl
  constructor
  · intro v
    constructor
    · intro hparse
      rcases exists_derivation hparse with ⟨E, hE⟩
      exact ⟨E.imp fun _ hd => (fits_loose_iff rfl).1 hd, hE⟩
    · rintro ⟨D, hD⟩
      rcases hto D with ⟨E, hE⟩
      have hparse := parse_of_derivation E
      by_cases hneed : E.document.need ≤ depthLimit
      · rw [if_pos hneed, hE, hdecode, hD] at hparse
        exact hparse
      · rw [if_neg hneed] at hparse
        exact absurd hparse (h _)
  · intro D E
    rcases hto D with ⟨F, hF⟩
    rcases hto E with ⟨G, hG⟩
    rw [← hF, ← hG]
    exact F.unique G

/-- Two items with nothing between them. -/
def Document.adjacent (d e : Document) : Document :=
  .array [.mk [] d [] false, .mk [] e [] false]

theorem isLoose_adjacent {d e : Document} (hd : IsLoose d (e.text ++ text "]"))
    (he : IsLoose e (text "]")) : IsLoose (adjacent d e) [] := by
  constructor
  · have hblank : IsBlank [] := fun _ hc => nomatch hc
    exact ⟨List.cons_ne_nil _ _, hblank, hd.1, hblank, hblank, he.1, hblank, trivial⟩
  · constructor
    · simpa [itemsText, commaText] using hd.2
    · exact ⟨by simpa [itemsText, commaText] using he.2, trivial⟩

/-- A literal of one digit. -/
def digitLiteral (negative : Bool) (c : Char) : NumberLiteral :=
  ⟨negative, [CodePoint.ofChar c], none, none⟩

theorem isLoose_digit (negative : Bool) {c : Char} (hc : (CodePoint.ofChar c).isDigit = true)
    {next : Text} (hnext : (digitLiteral negative c).EndsBefore next) :
    IsLoose (.number (digitLiteral negative c)) next := by
  constructor
  · constructor
    · exact ⟨List.cons_ne_nil _ _, by simpa [digitLiteral] using hc⟩
    · exact fun _ => rfl
    all_goals exact fun _ h => nomatch h
  · exact hnext

/-- Adjacent numbers and strings are items of their own. -/
theorem parse_adjacent :
    (parse {} (text "[01]") = .ok (.list [.float (digitLiteral false '0').toBinary64,
      .float (digitLiteral false '1').toBinary64])) ∧
    (parse {} (text "[1-2]") = .ok (.list [.float (digitLiteral false '1').toBinary64,
      .float (digitLiteral true '2').toBinary64])) ∧
    parse {} (text "[\"a\"\"b\"]") = .ok (.list [.str (text "a"), .str (text "b")]) := by
  have hparse (d e : Document) {t : Text} (ht : (adjacent d e).text = t)
      (hd : IsLoose d (e.text ++ text "]")) (he : IsLoose e (text "]"))
      (hdepth : (adjacent d e).depth ≤ 100) :
      parse {} t = .ok (.list [d.value id, e.value id]) := by
    have hblank : IsBlank [] := fun _ hc => nomatch hc
    have htext : [] ++ ((adjacent d e).text ++ []) = t := by
      rw [List.nil_append, List.append_nil, ht]
    let D : Derivation IsLoose t :=
      ⟨[], adjacent d e, [], hblank, hblank, isLoose_adjacent hd he, htext⟩
    let E : Derivation (fun d => d.Fits {}) t := D.imp fun _ hd => (fits_loose_iff rfl).2 hd
    exact ((parse_loose t (parse_ne_nestedTooDeep E hdepth)).1 _).2 ⟨D, rfl⟩
  constructor
  · exact hparse (.number (digitLiteral false '0')) (.number (digitLiteral false '1')) rfl
      (isLoose_digit false rfl ⟨by decide, by decide, by decide⟩)
      (isLoose_digit false rfl ⟨by decide, by decide, by decide⟩) (by decide)
  constructor
  · exact hparse (.number (digitLiteral false '1')) (.number (digitLiteral true '2')) rfl
      (isLoose_digit false rfl ⟨by decide, by decide, by decide⟩)
      (isLoose_digit true rfl ⟨by decide, by decide, by decide⟩) (by decide)
  · exact hparse (.string [.raw (CodePoint.ofChar 'a')]) (.string [.raw (CodePoint.ofChar 'b')]) rfl
      ⟨by simp [WellFormed, StringPiece.WellFormed], trivial⟩
      ⟨by simp [WellFormed, StringPiece.WellFormed], trivial⟩ (by decide)

end Json

end Descent
