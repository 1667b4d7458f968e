import Descent.Proofs.Json.Language
import Descent.Proofs.Json.Use

/-!
# Where a value ends

What follows a value is looked at, but nothing of it gets into the value: a document that
fits before one rest fits before every other one that starts with nothing to go on with. So
a text that starts with a value is cut in two, and the first part is that value by itself
and in front of any such rest.
-/

namespace Descent

namespace Json

/-- The text starts with no blank and with nothing that a number goes on with. -/
def IsInert (t : Text) : Prop :=
  ∀ c ∈ t.head?, isBlank c = false ∧ c.isDigit = false ∧ c ∉ text ".eE"

theorem isInert_nil : IsInert [] := nofun

section

variable {t : Text}

theorem IsInert.skipBlanks_eq (h : IsInert t) : skipBlanks t = t := by
  cases t with
  | nil => rfl
  | cons c t => exact skipBlanks_cons (h c rfl).1 t

theorem isBlank_head_of_skipBlanks (h : skipBlanks t = t) : ∀ c ∈ t.head?, isBlank c = false := by
  intro c hc
  have hhead := List.head?_dropWhile_not isBlank t
  rw [skipBlanks] at h
  rw [h, Option.mem_def.1 hc] at hhead
  simpa using hhead

theorem IsInert.endsBefore (h : IsInert t) (l : NumberLiteral) : l.EndsBefore t where
  digit c hc hdigit := by
    rw [(h c hc).2.1] at hdigit
    cases hdigit
  point c hc hpoint := by
    subst hpoint
    exact absurd (by decide) (h _ hc).2.2
  mark c hc hmark := by
    have hmark : c = CodePoint.ofChar 'e' ∨ c = CodePoint.ofChar 'E' := by
      simpa [NumberLiteral.isExponentMark] using hmark
    rcases hmark with rfl | rfl <;> exact absurd (by decide) (h _ hc).2.2

end

namespace Document

section

variable {o : Options} {d : Document} {t u after : Text}

/-- A container closes itself, and only a number at the very end sees what follows. -/
theorem NumbersEnd.of_isInert (hd : d.NumbersEnd t) (hafter : IsBlank after) (hu : IsInert u) :
    d.NumbersEnd (after ++ u) := by
  cases d with
  | number l =>
      cases after with
      | nil => exact hu.endsBefore l
      | cons c after =>
          refine endsBefore_of_isDelimited l fun _ hc => ?_
          cases hc
          simp [isStart, hafter c List.mem_cons_self]
  | array items =>
      have hclose : Loosens (Descent.text "]" ++ t) (Descent.text "]" ++ (after ++ u)) := .inl rfl
      exact itemNumbersEnd_of_loosens items hclose hd
  | object members =>
      have hclose : Loosens (Descent.text "\x7d" ++ t) (Descent.text "\x7d" ++ (after ++ u)) :=
        .inl rfl
      exact memberNumbersEnd_of_loosens members hclose hd
  | _ => trivial

theorem Fits.of_isInert (hd : d.Fits o t) (hafter : IsBlank after) (hu : IsInert u) :
    d.Fits o (after ++ u) :=
  ⟨hd.wellFormed, hd.strict, hd.numbersEnd.of_isInert hafter hu⟩

end

end Document

/-- What is read up to a rest is read in the same way up to every inert one. -/
theorem valueReading_split {o : Options} {n : Nat} {t rest : Text} {v : Value}
    (h : valueReading o n t = .reads v rest) :
    skipBlanks rest = rest ∧ ∃ c, t = c ++ rest ∧
      ∀ more, IsInert more → valueReading o n (c ++ more) = .reads v more := by
  have hread := h
  obtain ⟨before, after, d, hbefore, hafter, hd, rfl, rfl, hrest⟩ := exists_document h
  refine ⟨hrest, before ++ (d.text ++ after), by simp, fun more hmore => ?_⟩
  have hneed : d.need ≤ n := by
    rw [valueReading_document hbefore hd] at hread
    by_contra hlt
    rw [if_neg hlt] at hread
    cases hread
  have hfits : d.Fits o (after ++ more) := hd.of_isInert hafter hmore
  rw [List.append_assoc, List.append_assoc, valueReading_document hbefore hfits, if_pos hneed,
    skipBlanks_append hafter, hmore.skipBlanks_eq]

namespace Grammar

variable {g : Grammar} {s : Store}

/-- What is left over after a whole text is what a value leaves at its start. -/
theorem InUse.leftover_iff (h : g.InUse s) {n : Nat} {t rest : Text} {v : Value} :
    (∃ u, (g.parseText (.ofDepth n) t).run s = .error (.leftover v rest) u) ↔
      rest ≠ [] ∧ ∃ u, (g.parseStart (.ofDepth n) t).run s = .ok [⟨v, rest⟩] u := by
  rw [h.parseStart_eq_ok_iff]
  obtain ⟨u, -, hrun⟩ := h.exists_run_tryParse n .value t
  rw [ruleReading_value] at hrun
  rw [parseText, hrun]
  cases valueReading g.options n t with
  | overrun => simp [tried]
  | fails => simp [tried]
  | reads w more =>
      cases more with
      | nil =>
          refine iff_of_false ?_ ?_
          · rintro ⟨_, ⟨⟩⟩
          · rintro ⟨hne, ⟨⟩⟩
            exact hne rfl
      | cons c more =>
          constructor
          · rintro ⟨_, ⟨⟩⟩
            exact ⟨List.cons_ne_nil c more, rfl⟩
          · rintro ⟨-, ⟨⟩⟩
            exact ⟨u, rfl⟩

/-- A value and what remains after it split the text, with a grammar in use at every depth.
What remains starts with no blank. The first part is parsed to the value at any later time,
by itself and in front of every rest that is empty or starts with no blank and with nothing
that a number goes on with. A whole text is refused for a remainder just if a value leaves
it at the start, so the value that is reported is that of the part that was consumed. -/
theorem parseStart_splits (h : g.InUse s) (n : Nat) (t rest : Text) (v : Value) :
    ((∃ u, (g.parseStart (.ofDepth n) t).run s = .ok [⟨v, rest⟩] u) →
      (∀ x ∈ rest.head?, isBlank x = false) ∧ ∃ c, t = c ++ rest ∧ ∀ s', g.InUse s' →
        (∃ u, (g.parseText (.ofDepth n) c).run s' = .ok v u) ∧
        ∀ more, IsInert more →
          ∃ u, (g.parseStart (.ofDepth n) (c ++ more)).run s' = .ok [⟨v, more⟩] u) ∧
    ((∃ u, (g.parseText (.ofDepth n) t).run s = .error (.leftover v rest) u) ↔
      rest ≠ [] ∧ ∃ u, (g.parseStart (.ofDepth n) t).run s = .ok [⟨v, rest⟩] u) := by
  refine ⟨fun hparse => ?_, h.leftover_iff⟩
  obtain ⟨hrest, c, ht, hsplit⟩ := valueReading_split (h.parseStart_eq_ok_iff.1 hparse)
  refine ⟨isBlank_head_of_skipBlanks hrest, c, ht, fun s' h' => ⟨?_, fun more hmore => ?_⟩⟩
  · have hread := hsplit [] isInert_nil
    rw [List.append_nil] at hread
    exact h'.parseText_eq_ok_iff.2 hread
  · exact h'.parseStart_eq_ok_iff.2 (hsplit more hmore)

/-- A number with a bracket that is left over, and the same number with another one right
behind its blank. -/
theorem parseStart_splits_number :
    let g : Grammar := ⟨{}, 0⟩
    let s := (create {}).leaves {}
    let v := Value.float (digitLiteral false '7').toBinary64
    g.InUse s ∧
      (∃ u, (g.parseText (.ofDepth depthLimit) (text "7 ]")).run s =
        .error (.leftover v (text "]")) u) ∧
      ∃ u, (g.parseStart (.ofDepth depthLimit) (text "7 -7")).run s = .ok [⟨v, text "-7"⟩] u := by
  intro g s v
  have huse : g.InUse s := .created (s := {}) rfl
  have hblank : IsBlank [] := nofun
  have hfits : (Document.number (digitLiteral false '7')).Fits {} (text " ]") :=
    (fits_loose_iff rfl).2 (isLoose_digit false rfl ⟨by decide, by decide, by decide⟩)
  have hread : valueReading {} depthLimit (text "7 ]") = .reads v (text "]") :=
    (valueReading_document hblank hfits).trans rfl
  have hstart := huse.parseStart_eq_ok_iff.2 hread
  obtain ⟨hsplit, hleftover⟩ := parseStart_splits huse depthLimit (text "7 ]") (text "]") v
  obtain ⟨-, c, hc, hlater⟩ := hsplit hstart
  obtain rfl : c = text "7 " := (List.append_cancel_right hc).symm
  exact ⟨huse, hleftover.2 ⟨List.cons_ne_nil _ _, hstart⟩,
    (hlater s huse).2 (text "-7") (by unfold IsInert; decide)⟩

end Grammar

end Json

end Descent
