import Descent.Proofs.Json.Language
import Descent.Proofs.Json.Use

/-!
# Strict and loose commas

What a strict grammar reads is read by a loose one in the same way. Conversely a text
that a loose grammar parses may be written with strict commas: one after each item that
another one follows, none after the last, and all else as it was. Numbers that ended
where they stood end before a comma too, so a strict grammar parses that text to the
same value.
-/

namespace Descent

namespace Json

open Eval Reading Document

namespace Document

theorem itemsWithCommas_eq_nil_iff {items : List Item} :
    itemsWithCommas items = [] ↔ items = [] := by
  cases items with
  | nil => exact ⟨fun _ => rfl, fun _ => rfl⟩
  | cons x items =>
      cases x
      exact ⟨fun h => (nomatch h), fun h => (nomatch h)⟩

theorem membersWithCommas_eq_nil_iff {members : List Member} :
    membersWithCommas members = [] ↔ members = [] := by
  cases members with
  | nil => exact ⟨fun _ => rfl, fun _ => rfl⟩
  | cons x members =>
      cases x
      exact ⟨fun h => (nomatch h), fun h => (nomatch h)⟩

mutual

theorem wellFormed_withCommas : ∀ d : Document, d.WellFormed → d.withCommas.WellFormed
  | .null, h => h
  | .bool _, h => h
  | .number _, h => h
  | .string _, h => h
  | .emptyArray _, h => h
  | .array items, h => by
      rw [withCommas]
      exact ⟨itemsWithCommas_eq_nil_iff.not.2 h.1, wellFormed_itemsWithCommas items h.2⟩
  | .emptyObject _, h => h
  | .object members, h => by
      rw [withCommas]
      exact ⟨membersWithCommas_eq_nil_iff.not.2 h.1, wellFormed_membersWithCommas members h.2⟩

theorem wellFormed_itemsWithCommas :
    ∀ items : List Item, ItemsWellFormed items → ItemsWellFormed (itemsWithCommas items)
  | [], h => h
  | .mk _ d _ _ :: items, ⟨hbefore, hd, hafter, hitems⟩ =>
      ⟨hbefore, wellFormed_withCommas d hd, hafter, wellFormed_itemsWithCommas items hitems⟩

theorem wellFormed_membersWithCommas :
    ∀ members : List Member, MembersWellFormed members →
      MembersWellFormed (membersWithCommas members)
  | [], h => h
  | .mk _ _ _ _ d _ _ :: members, ⟨hbeforeKey, hkey, hafterKey, hbefore, hd, hafter, hmembers⟩ =>
      ⟨hbeforeKey, hkey, hafterKey, hbefore, wellFormed_withCommas d hd, hafter,
        wellFormed_membersWithCommas members hmembers⟩

end

mutual

theorem strict_withCommas : ∀ d : Document, d.withCommas.Strict
  | .null => trivial
  | .bool _ => trivial
  | .number _ => trivial
  | .string _ => trivial
  | .emptyArray _ => trivial
  | .array items => by
      rw [withCommas]
      exact strict_itemsWithCommas items
  | .emptyObject _ => trivial
  | .object members => by
      rw [withCommas]
      exact strict_membersWithCommas members

theorem strict_itemsWithCommas : ∀ items : List Item, ItemsStrict (itemsWithCommas items)
  | [] => trivial
  | .mk _ d _ _ :: items => by
      refine ⟨strict_withCommas d, ?_, strict_itemsWithCommas items⟩
      rw [ne_eq, itemsWithCommas_eq_nil_iff, ← List.isEmpty_iff]
      simp

theorem strict_membersWithCommas :
    ∀ members : List Member, MembersStrict (membersWithCommas members)
  | [] => trivial
  | .mk _ _ _ _ d _ _ :: members => by
      refine ⟨strict_withCommas d, ?_, strict_membersWithCommas members⟩
      rw [ne_eq, membersWithCommas_eq_nil_iff, ← List.isEmpty_iff]
      simp

end

mutual

theorem value_withCommas (decode : Text → Text) :
    ∀ d : Document, d.withCommas.value decode = d.value decode
  | .null => rfl
  | .bool _ => rfl
  | .number _ => rfl
  | .string _ => rfl
  | .emptyArray _ => rfl
  | .array items => by rw [withCommas, value, value, itemValues_withCommas decode items]
  | .emptyObject _ => rfl
  | .object members => by rw [withCommas, value, value, memberValues_withCommas decode members]

theorem itemValues_withCommas (decode : Text → Text) :
    ∀ items : List Item, itemValues decode (itemsWithCommas items) = itemValues decode items
  | [] => rfl
  | .mk _ d _ _ :: items => by
      rw [itemsWithCommas, itemValues, itemValues, value_withCommas decode d,
        itemValues_withCommas decode items]

theorem memberValues_withCommas (decode : Text → Text) :
    ∀ members : List Member,
      memberValues decode (membersWithCommas members) = memberValues decode members
  | [] => rfl
  | .mk _ _ _ _ d _ _ :: members => by
      rw [membersWithCommas, memberValues, memberValues, value_withCommas decode d,
        memberValues_withCommas decode members]

end

mutual

/-- Commas need no depth. -/
theorem need_withCommas : ∀ d : Document, d.withCommas.need = d.need
  | .null => rfl
  | .bool _ => rfl
  | .number _ => rfl
  | .string _ => rfl
  | .emptyArray _ => rfl
  | .array items => by rw [withCommas, need, need, itemsNeed_withCommas items]
  | .emptyObject _ => rfl
  | .object members => by rw [withCommas, need, need, membersNeed_withCommas members]

theorem itemsNeed_withCommas :
    ∀ items : List Item, itemsNeed (itemsWithCommas items) = itemsNeed items
  | [] => rfl
  | .mk _ d _ _ :: items => by
      rw [itemsWithCommas, itemsNeed, itemsNeed, need_withCommas d, itemsNeed_withCommas items]

theorem membersNeed_withCommas :
    ∀ members : List Member, membersNeed (membersWithCommas members) = membersNeed members
  | [] => rfl
  | .mk _ _ _ _ d _ _ :: members => by
      rw [membersWithCommas, membersNeed, membersNeed, need_withCommas d,
        membersNeed_withCommas members]

end

/-- With its commas a document is one of the standard, so every grammar takes it. -/
theorem fits_withCommas {d : Document} (h : d.WellFormed) (o : Options) {next : Text}
    (hnext : IsBlank next) : d.withCommas.Fits o next where
  wellFormed := wellFormed_withCommas d h
  strict _ := strict_withCommas d
  numbersEnd := numbersEnd_of_strict _ (wellFormed_withCommas d h) (strict_withCommas d)
    (isDelimited_of_isBlank hnext)

end Document

namespace Derivation

variable {Allowed : Document → Text → Prop} {t : Text}

/-- The derived text with strict commas and all else unchanged. -/
def textWithCommas (D : Derivation Allowed t) : Text :=
  D.before ++ (D.document.withCommas.text ++ D.after)

/-- The text with strict commas is derived, whatever the grammar. -/
def withCommas (D : Derivation IsLoose t) (o : Options) :
    Derivation (fun d => d.Fits o) D.textWithCommas :=
  ⟨D.before, D.document.withCommas, D.after, D.before_isBlank, D.after_isBlank,
    fits_withCommas D.allowed.1 o D.after_isBlank, rfl⟩

end Derivation

variable {o p : Options} {n : Nat} {t : Text} {v : Value}

theorem decode_congr (h : o.combine = p.combine) : o.decode = p.decode := by
  funext u
  rw [Options.decode, Options.decode, h]

/-- What any grammar reads at the start of a text is read by a loose one. -/
theorem valueReading_of_loose (hloose : p.strict = false) (hcombine : o.combine = p.combine)
    {rest : Text} (h : valueReading o n t = .reads v rest) :
    valueReading p n t = .reads v rest := by
  obtain ⟨before, after, d, hbefore, -, hd, rfl, rfl, -⟩ := exists_document h
  have hp : d.Fits p (after ++ rest) := (fits_loose_iff hloose).2 ⟨hd.wellFormed, hd.numbersEnd⟩
  rw [valueReading_document hbefore hd] at h
  rw [valueReading_document hbefore hp, ← decode_congr hcombine]
  exact h

/-- What a loose grammar parses is parsed by any with strict commas. -/
theorem valueReading_textWithCommas (hloose : p.strict = false) (hcombine : o.combine = p.combine)
    (h : valueReading p n t = .reads v []) (D : Derivation IsLoose t) :
    valueReading o n D.textWithCommas = .reads v [] := by
  let E : Derivation (fun d => d.Fits p) t := D.imp fun _ hd => (fits_loose_iff hloose).2 hd
  have hE : valueReading p n t =
      if D.document.need ≤ n then .reads (D.document.value p.decode) [] else .overrun :=
    valueReading_of_derivation E n
  calc valueReading o n D.textWithCommas
      = if D.document.withCommas.need ≤ n then
          .reads (D.document.withCommas.value o.decode) [] else .overrun :=
        valueReading_of_derivation (D.withCommas o) n
    _ = if D.document.need ≤ n then .reads (D.document.value p.decode) [] else .overrun := by
        rw [need_withCommas, value_withCommas, decode_congr hcombine]
    _ = .reads v [] := by rw [← hE, h]

/-- Strict and loose grammars agree up to commas. The outcome of a strict grammar `g` at the
start of a text is the one of a loose grammar `k`. If `k` parses a text, then the text is
derived, and with exactly one comma after each item that has a successor, none after the last
and all else unchanged, it is parsed by `g` to the same value. (If `g` is loose too, both hold
as well.) -/
theorem parse_strict_loose {g k : Grammar} {s s' : Store} (hg : g.InUse s) (hk : k.InUse s')
    (hloose : k.options.strict = false) (hcombine : g.options.combine = k.options.combine)
    (depth : Nat) (t : Text) :
    (∀ v rest, (∃ u, (g.parseStart (.ofDepth depth) t).run s = .ok [⟨v, rest⟩] u) →
      ∃ u, (k.parseStart (.ofDepth depth) t).run s' = .ok [⟨v, rest⟩] u) ∧
    ∀ v, (∃ u, (k.parseText (.ofDepth depth) t).run s' = .ok v u) →
      Nonempty (Derivation IsLoose t) ∧ ∀ D : Derivation IsLoose t,
        ∃ u, (g.parseText (.ofDepth depth) D.textWithCommas).run s = .ok v u := by
  constructor
  · intro v rest h
    rw [hg.parseStart_eq_ok_iff] at h
    rw [hk.parseStart_eq_ok_iff]
    exact valueReading_of_loose hloose hcombine h
  · intro v h
    rw [hk.parseText_eq_ok_iff] at h
    obtain ⟨D, -⟩ := exists_derivation_of_valueReading h
    refine ⟨⟨D.imp fun _ hd => (fits_loose_iff hloose).1 hd⟩, fun E => ?_⟩
    rw [hg.parseText_eq_ok_iff]
    exact valueReading_textWithCommas hloose hcombine h E

/-- Two numbers without anything between them get their comma. -/
theorem parse_strict_loose_digits :
    let g : Grammar := ⟨{ strict := true }, 0⟩
    let k : Grammar := ⟨{}, 0⟩
    let s := (Grammar.create g.options).leaves {}
    let s' := (Grammar.create k.options).leaves {}
    let v : Value := .list [.float (digitLiteral false '0').toBinary64,
      .float (digitLiteral false '1').toBinary64]
    (g.InUse s ∧ k.InUse s' ∧ k.options.strict = false ∧ g.options.combine = k.options.combine) ∧
      (∃ u, (k.parseText (.ofDepth depthLimit) (text "[01]")).run s' = .ok v u) ∧
      ∃ u, (g.parseText (.ofDepth depthLimit) (text "[0,1]")).run s = .ok v u := by
  intro g k s s' v
  have hg : g.InUse s := .created (o := g.options) (s := {}) rfl
  have hk : k.InUse s' := .created (o := k.options) (s := {}) rfl
  let d : Document := adjacent (.number (digitLiteral false '0')) (.number (digitLiteral false '1'))
  have hloose : IsLoose d [] := isLoose_adjacent
    (isLoose_digit false rfl ⟨by decide, by decide, by decide⟩)
    (isLoose_digit false rfl ⟨by decide, by decide, by decide⟩)
  let D : Derivation IsLoose (text "[01]") :=
    ⟨[], d, [], List.forall_mem_nil _, List.forall_mem_nil _, hloose, rfl⟩
  let E : Derivation (fun d => d.Fits {}) (text "[01]") :=
    D.imp fun _ hd => (fits_loose_iff rfl).2 hd
  have hparse : ∃ u, (k.parseText (.ofDepth depthLimit) (text "[01]")).run s' = .ok v u :=
    hk.parseText_eq_ok_iff.2 ((valueReading_of_derivation E depthLimit).trans rfl)
  exact ⟨⟨hg, hk, rfl, rfl⟩, hparse,
    ((parse_strict_loose hg hk rfl rfl depthLimit (text "[01]")).2 v hparse).2 D⟩

end Json

end Descent
