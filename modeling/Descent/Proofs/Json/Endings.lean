import Descent.Proofs.Json.Documents

/-!
# Where numbers end

Whether a number ends where it stands is seen from what follows it, and only the
first code point matters. Behind a blank, a comma or a closing bracket there is
nothing to go on with, so in strict documents all numbers end; and a number that
ends goes on doing so if blanks are put in somewhere behind it.
-/

namespace Descent

namespace Json

namespace Document

/-- What follows starts nothing that a number could go on with. -/
def IsDelimited (t : Text) : Prop := ∀ c ∈ t.head?, isStart c = false

theorem isDelimited_append {blank t : Text} (hblank : IsBlank blank) (ht : IsDelimited t) :
    IsDelimited (blank ++ t) := by
  cases blank with
  | nil => exact ht
  | cons c blank =>
      intro d hd
      have hc : isBlank c = true := hblank c List.mem_cons_self
      cases hd
      simp [isStart, hc]

theorem endsBefore_of_isDelimited (l : NumberLiteral) {t : Text} (ht : IsDelimited t) :
    l.EndsBefore t where
  digit c hc hdigit := by
    have hstart := isStart_of_isDigit hdigit
    rw [ht c hc] at hstart
    cases hstart
  point c hc hpoint := by
    have hstart := ht c hc
    rw [hpoint] at hstart
    cases hstart
  mark c hc hmark := by
    have hstart := ht c hc
    have hmark : c = CodePoint.ofChar 'e' ∨ c = CodePoint.ofChar 'E' := by
      simpa [NumberLiteral.isExponentMark] using hmark
    rcases hmark with rfl | rfl
    · cases hstart
    · cases hstart

theorem isDelimited_of_isBlank {blank : Text} (h : IsBlank blank) : IsDelimited blank := by
  have hnil : IsDelimited [] := fun _ hc => nomatch hc
  have happend := isDelimited_append h hnil
  rwa [List.append_nil] at happend

/-! ## Strict documents -/

/-- What follows an item of a strict row is a comma or the end of the row. -/
theorem isDelimited_comma {ι : Type} {comma : Bool} {xs : List ι} (h : comma = true ↔ xs ≠ [])
    {f : List ι → Text} (hnil : f [] = []) {next : Text} (hnext : IsDelimited next) :
    IsDelimited (commaText comma ++ f xs ++ next) := by
  cases comma with
  | true =>
      intro c hc
      cases hc
      decide
  | false =>
      have hxs : xs = [] := by simpa using h
      rw [hxs, hnil]
      exact hnext

mutual

/-- In a strict document numbers end where they stand. -/
theorem numbersEnd_of_strict : ∀ (d : Document) {next : Text}, d.WellFormed → d.Strict →
    IsDelimited next → d.NumbersEnd next
  | .null, _, _, _, _ => trivial
  | .bool _, _, _, _, _ => trivial
  | .number l, _, _, _, hnext => endsBefore_of_isDelimited l hnext
  | .string _, _, _, _, _ => trivial
  | .emptyArray _, _, _, _, _ => trivial
  | .array items, _, hwf, hstrict, _ =>
      itemNumbersEnd_of_strict items hwf.2 hstrict fun c hc => by
        cases hc
        decide
  | .emptyObject _, _, _, _, _ => trivial
  | .object members, _, hwf, hstrict, _ =>
      memberNumbersEnd_of_strict members hwf.2 hstrict fun c hc => by
        cases hc
        decide

theorem itemNumbersEnd_of_strict : ∀ (items : List Item) {next : Text}, ItemsWellFormed items →
    ItemsStrict items → IsDelimited next → ItemNumbersEnd items next
  | [], _, _, _, _ => trivial
  | .mk _ d after comma :: items, next, hwf, hstrict, hnext => by
      rcases hwf with ⟨-, hd, hafter, hitems⟩
      rcases hstrict with ⟨hdstrict, hcomma, hitemsStrict⟩
      have hdelimited :=
        isDelimited_append hafter (isDelimited_comma hcomma (f := itemsText) rfl hnext)
      rw [← List.append_assoc, ← List.append_assoc] at hdelimited
      exact ⟨numbersEnd_of_strict d hd hdstrict hdelimited,
        itemNumbersEnd_of_strict items hitems hitemsStrict hnext⟩

theorem memberNumbersEnd_of_strict : ∀ (members : List Member) {next : Text},
    MembersWellFormed members → MembersStrict members → IsDelimited next →
    MemberNumbersEnd members next
  | [], _, _, _, _ => trivial
  | .mk _ _ _ _ d after comma :: members, next, hwf, hstrict, hnext => by
      rcases hwf with ⟨-, -, -, -, hd, hafter, hmembers⟩
      rcases hstrict with ⟨hdstrict, hcomma, hmembersStrict⟩
      have hdelimited :=
        isDelimited_append hafter (isDelimited_comma hcomma (f := membersText) rfl hnext)
      rw [← List.append_assoc, ← List.append_assoc] at hdelimited
      exact ⟨numbersEnd_of_strict d hd hdstrict hdelimited,
        memberNumbersEnd_of_strict members hmembers hmembersStrict hnext⟩

end

/-! ## More blanks -/

/-- What follows starts as before, or else with nothing that goes on. -/
def Loosens (t u : Text) : Prop := t.head? = u.head? ∨ IsDelimited u

theorem loosens_insert {w : Text} (hw : IsBlank w) (p q : Text) :
    Loosens (p ++ q) (p ++ (w ++ q)) := by
  cases p with
  | nil =>
      cases w with
      | nil => exact .inl rfl
      | cons c w =>
          apply Or.inr
          intro d hd
          cases hd
          have hc : isBlank c = true := hw c List.mem_cons_self
          simp [isStart, hc]
  | cons c p => exact .inl rfl

theorem Loosens.append_left {t u : Text} (h : Loosens t u) (a : Text) :
    Loosens (a ++ t) (a ++ u) := by
  cases a with
  | nil => exact h
  | cons c a => exact .inl rfl

theorem Loosens.endsBefore {t u : Text} (h : Loosens t u) {l : NumberLiteral}
    (hl : l.EndsBefore t) : l.EndsBefore u := by
  rcases h with h | h
  · constructor
    · rw [← h]
      exact hl.digit
    · rw [← h]
      exact hl.point
    · rw [← h]
      exact hl.mark
  · exact endsBefore_of_isDelimited l h

mutual

theorem numbersEnd_of_loosens : ∀ (d : Document) {t u : Text}, Loosens t u → d.NumbersEnd t →
    d.NumbersEnd u
  | .null, _, _, _, _ => trivial
  | .bool _, _, _, _, _ => trivial
  | .number _, _, _, h, hd => h.endsBefore hd
  | .string _, _, _, _, _ => trivial
  | .emptyArray _, _, _, _, _ => trivial
  | .array items, _, _, h, hd => itemNumbersEnd_of_loosens items (h.append_left _) hd
  | .emptyObject _, _, _, _, _ => trivial
  | .object members, _, _, h, hd => memberNumbersEnd_of_loosens members (h.append_left _) hd

theorem itemNumbersEnd_of_loosens : ∀ (items : List Item) {t u : Text}, Loosens t u →
    ItemNumbersEnd items t → ItemNumbersEnd items u
  | [], _, _, _, _ => trivial
  | .mk _ d _ _ :: items, _, _, h, hitems =>
      ⟨numbersEnd_of_loosens d (h.append_left _) hitems.1,
        itemNumbersEnd_of_loosens items h hitems.2⟩

theorem memberNumbersEnd_of_loosens : ∀ (members : List Member) {t u : Text}, Loosens t u →
    MemberNumbersEnd members t → MemberNumbersEnd members u
  | [], _, _, _, _ => trivial
  | .mk _ _ _ _ d _ _ :: members, _, _, h, hmembers =>
      ⟨numbersEnd_of_loosens d (h.append_left _) hmembers.1,
        memberNumbersEnd_of_loosens members h hmembers.2⟩

end

theorem Fits.of_loosens {o : Options} {d : Document} {t u : Text} (hd : d.Fits o t)
    (h : Loosens t u) : d.Fits o u :=
  ⟨hd.wellFormed, hd.strict, numbersEnd_of_loosens d h hd.numbersEnd⟩

end Document

end Json

end Descent
