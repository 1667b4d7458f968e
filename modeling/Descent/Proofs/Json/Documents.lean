import Descent.Proofs.Json.Numbers
import Descent.Proofs.Json.Pieces
import Descent.Proofs.Json.Rows

/-!
# What a document asks of a grammar

`need` is the depth that a document needs: four for each container that it is
nested in, and what its innermost tokens ask for. `Fits` is what a grammar asks of
the document in turn. Items and members stand in rows, and what a container asks
is what its row does.
-/

namespace Descent

namespace Json

open Reading Recipe

namespace Document

mutual

/-- The depth that reading the document needs. -/
def need : Document → Nat
  | .null => 4
  | .bool _ => 4
  | .number _ => 5
  | .string pieces => piecesNeed pieces + 3
  | .emptyArray _ => 5
  | .array items => itemsNeed items + 4
  | .emptyObject _ => 5
  | .object members => membersNeed members + 4

def itemsNeed : List Item → Nat
  | [] => 0
  | .mk _ d _ _ :: items => max d.need (itemsNeed items)

def membersNeed : List Member → Nat
  | [] => 0
  | .mk _ _ _ _ d _ _ :: members => max d.need (membersNeed members)

end

theorem four_le_need (d : Document) : 4 ≤ d.need := by
  cases d with
  | string pieces =>
      have h := one_le_piecesNeed pieces
      rw [need]
      omega
  | _ => simp [need]

mutual

theorem need_le : ∀ d : Document, d.need ≤ 4 * d.depth + 6
  | .null => by simp [need]
  | .bool _ => by simp [need]
  | .number _ => by simp [need]
  | .string pieces => by
      have h := piecesNeed_le pieces
      rw [need, depth]
      · omega
      · exact fun _ h => nomatch h
      · exact fun _ h => nomatch h
      · exact fun _ h => nomatch h
      · exact fun _ h => nomatch h
  | .emptyArray _ => by simp [need, depth]
  | .array items => by
      have h := itemsNeed_le items
      rw [need, depth]
      omega
  | .emptyObject _ => by simp [need, depth]
  | .object members => by
      have h := membersNeed_le members
      rw [need, depth]
      omega

theorem itemsNeed_le : ∀ items : List Item, itemsNeed items ≤ 4 * itemsDepth items + 6
  | [] => by simp [itemsNeed]
  | .mk _ d _ _ :: items => by
      have hd := need_le d
      have h := itemsNeed_le items
      rw [itemsNeed, itemsDepth]
      omega

theorem membersNeed_le :
    ∀ members : List Member, membersNeed members ≤ 4 * membersDepth members + 6
  | [] => by simp [membersNeed]
  | .mk _ _ _ _ d _ _ :: members => by
      have hd := need_le d
      have h := membersNeed_le members
      rw [membersNeed, membersDepth]
      omega

end

/-- What a grammar asks of a document, if `next` follows it. -/
structure Fits (o : Options) (d : Document) (next : Text) : Prop where
  wellFormed : d.WellFormed
  strict : o.strict = true → d.Strict
  numbersEnd : d.NumbersEnd next

end Document

/-! ## Items and members in rows -/

namespace Item

def text : Item → Text
  | .mk before d after _ => before ++ d.text ++ after

def comma : Item → Bool
  | .mk _ _ _ comma => comma

def value (decode : Text → Text) : Item → Value
  | .mk _ d _ _ => d.value decode

def need : Item → Nat
  | .mk _ d _ _ => d.need

def Fits (o : Options) : Item → Text → Prop
  | .mk before d after _, next => IsBlank before ∧ IsBlank after ∧ d.Fits o (after ++ next)

end Item

namespace Member

def text : Member → Text
  | .mk beforeKey key afterKey before d after _ =>
    beforeKey ++ stringText key ++ afterKey ++ Descent.text ":" ++ before ++ d.text ++ after

def comma : Member → Bool
  | .mk _ _ _ _ _ _ comma => comma

def value (decode : Text → Text) : Member → Text × Value
  | .mk _ key _ _ d _ _ => (decode (stringValue key), d.value decode)

/-- The key needs less than any value does. -/
def need : Member → Nat
  | .mk _ _ _ _ d _ _ => d.need

def Fits (o : Options) : Member → Text → Prop
  | .mk beforeKey key afterKey before d after _, next =>
    IsBlank beforeKey ∧ (∀ p ∈ key, p.WellFormed) ∧ IsBlank afterKey ∧ IsBlank before ∧
      IsBlank after ∧ d.Fits o (after ++ next)

end Member

def itemRow (o : Options) : Row Item Value :=
  ⟨Item.text, Item.comma, Item.value o.decode, Item.need, Item.Fits o⟩

def memberRow (o : Options) : Row Member (Text × Value) :=
  ⟨Member.text, Member.comma, Member.value o.decode, Member.need, Member.Fits o⟩

namespace Document

variable (o : Options)

theorem itemsText_eq (items : List Item) : itemsText items = (itemRow o).allText items := by
  induction items with
  | nil => rfl
  | cons x items ih =>
      cases x
      rw [itemsText, Row.allText, ih]
      rfl

theorem membersText_eq (members : List Member) :
    membersText members = (memberRow o).allText members := by
  induction members with
  | nil => rfl
  | cons x members ih =>
      cases x
      rw [membersText, Row.allText, ih]
      rfl

theorem itemValues_eq (items : List Item) :
    itemValues o.decode items = items.map (itemRow o).value := by
  induction items with
  | nil => rfl
  | cons x items ih =>
      cases x
      rw [itemValues, ih]
      rfl

/-- The pairs of the members make the dictionary of the object. -/
theorem dictOf_members (members : List Member) :
    dictOf (members.map (memberRow o).value) =
      .dict (Value.entriesOfPairs (memberValues o.decode members)) := by
  have h : (members.map (memberRow o).value).map (fun m => (Value.str m.1, m.2)) =
      memberValues o.decode members := by
    induction members with
    | nil => rfl
    | cons x members ih =>
        cases x
        rw [memberValues, ← ih]
        rfl
  rw [dictOf, h]

theorem itemsNeed_eq (items : List Item) : itemsNeed items = (itemRow o).allNeed items := by
  induction items with
  | nil => rfl
  | cons x items ih =>
      cases x
      rw [itemsNeed, Row.allNeed, ih]
      rfl

theorem membersNeed_eq (members : List Member) :
    membersNeed members = (memberRow o).allNeed members := by
  induction members with
  | nil => rfl
  | cons x members ih =>
      cases x
      rw [membersNeed, Row.allNeed, ih]
      rfl

variable {o}

theorem fits_items {items : List Item} {next : Text} :
    (itemRow o).AllFit items next ∧ (o.strict = true → (itemRow o).IsStrict items) ↔
      ItemsWellFormed items ∧ (o.strict = true → ItemsStrict items) ∧
        ItemNumbersEnd items next := by
  induction items with
  | nil => simp [Row.AllFit, Row.IsStrict, ItemsWellFormed, ItemsStrict, ItemNumbersEnd]
  | cons x items ih =>
      obtain ⟨before, d, after, comma⟩ := x
      rw [ItemsWellFormed, ItemsStrict, ItemNumbersEnd, itemsText_eq o]
      constructor
      · rintro ⟨⟨⟨hbefore, hafter, hd⟩, hall⟩, hstrict⟩
        obtain ⟨hwf, hs, hend⟩ := ih.1 ⟨hall, fun h => (hstrict h).2⟩
        refine ⟨⟨hbefore, hd.wellFormed, hafter, hwf⟩,
          fun h => ⟨hd.strict h, (hstrict h).1, hs h⟩, ?_, hend⟩
        have hnumbers := hd.numbersEnd
        rwa [← List.append_assoc, ← List.append_assoc] at hnumbers
      · rintro ⟨⟨hbefore, hd, hafter, hwf⟩, hstrict, hnumbers, hend⟩
        obtain ⟨hall, hs⟩ := ih.2 ⟨hwf, fun h => (hstrict h).2.2, hend⟩
        refine ⟨⟨⟨hbefore, hafter, hd, fun h => (hstrict h).1, ?_⟩, hall⟩,
          fun h => ⟨(hstrict h).2.1, hs h⟩⟩
        rwa [← List.append_assoc, ← List.append_assoc]

theorem fits_members {members : List Member} {next : Text} :
    (memberRow o).AllFit members next ∧ (o.strict = true → (memberRow o).IsStrict members) ↔
      MembersWellFormed members ∧ (o.strict = true → MembersStrict members) ∧
        MemberNumbersEnd members next := by
  induction members with
  | nil => simp [Row.AllFit, Row.IsStrict, MembersWellFormed, MembersStrict, MemberNumbersEnd]
  | cons x members ih =>
      obtain ⟨beforeKey, key, afterKey, before, d, after, comma⟩ := x
      rw [MembersWellFormed, MembersStrict, MemberNumbersEnd, membersText_eq o]
      constructor
      · rintro ⟨⟨⟨hbeforeKey, hkey, hafterKey, hbefore, hafter, hd⟩, hall⟩, hstrict⟩
        obtain ⟨hwf, hs, hend⟩ := ih.1 ⟨hall, fun h => (hstrict h).2⟩
        refine ⟨⟨hbeforeKey, hkey, hafterKey, hbefore, hd.wellFormed, hafter, hwf⟩,
          fun h => ⟨hd.strict h, (hstrict h).1, hs h⟩, ?_, hend⟩
        have hnumbers := hd.numbersEnd
        rwa [← List.append_assoc, ← List.append_assoc] at hnumbers
      · rintro ⟨⟨hbeforeKey, hkey, hafterKey, hbefore, hd, hafter, hwf⟩, hstrict, hnumbers, hend⟩
        obtain ⟨hall, hs⟩ := ih.2 ⟨hwf, fun h => (hstrict h).2.2, hend⟩
        refine ⟨⟨⟨hbeforeKey, hkey, hafterKey, hbefore, hafter, hd, fun h => (hstrict h).1, ?_⟩,
          hall⟩, fun h => ⟨(hstrict h).2.1, hs h⟩⟩
        rwa [← List.append_assoc, ← List.append_assoc]

variable {d : Document} {items : List Item} {members : List Member} {next : Text}

theorem fits_array_iff : (array items).Fits o next ↔
    items ≠ [] ∧ (itemRow o).AllFit items (CodePoint.ofChar ']' :: next) ∧
      (o.strict = true → (itemRow o).IsStrict items) := by
  rw [fits_items]
  constructor
  · intro h
    exact ⟨h.wellFormed.1, h.wellFormed.2, h.strict, h.numbersEnd⟩
  · rintro ⟨hne, hwf, hstrict, hend⟩
    exact ⟨⟨hne, hwf⟩, hstrict, hend⟩

theorem fits_object_iff : (object members).Fits o next ↔
    members ≠ [] ∧ (memberRow o).AllFit members (CodePoint.ofChar '\x7d' :: next) ∧
      (o.strict = true → (memberRow o).IsStrict members) := by
  rw [fits_members]
  constructor
  · intro h
    exact ⟨h.wellFormed.1, h.wellFormed.2, h.strict, h.numbersEnd⟩
  · rintro ⟨hne, hwf, hstrict, hend⟩
    exact ⟨⟨hne, hwf⟩, hstrict, hend⟩

/-! ## What is written between brackets -/

theorem text_emptyArray (blank next : Text) : (emptyArray blank).text ++ next =
    CodePoint.ofChar '[' :: blank ++ CodePoint.ofChar ']' :: next := by
  simp [text, Descent.text]

theorem text_emptyObject (blank next : Text) : (emptyObject blank).text ++ next =
    CodePoint.ofChar '\x7b' :: blank ++ CodePoint.ofChar '\x7d' :: next := by
  simp [text, Descent.text]

theorem text_array (o : Options) (items : List Item) (next : Text) : (array items).text ++ next =
    CodePoint.ofChar '[' :: (itemRow o).allText items ++ CodePoint.ofChar ']' :: next := by
  simp [text, Descent.text, itemsText_eq o]

theorem text_object (o : Options) (members : List Member) (next : Text) :
    (object members).text ++ next = CodePoint.ofChar '\x7b' :: (memberRow o).allText members ++
      CodePoint.ofChar '\x7d' :: next := by
  simp [text, Descent.text, membersText_eq o]

end Document

/-! ## Heads -/

/-- What a document starts with is neither blank nor a stop. -/
def isStart (c : CodePoint) : Bool := !isBlank c && !isStop c

theorem isStart_of_isDigit {c : CodePoint} (h : c.isDigit = true) : isStart c = true := by
  obtain ⟨hlo, hhi⟩ := CodePoint.between_iff.1 h
  have hlo : 48 ≤ c.val := hlo
  have hhi : c.val ≤ 57 := hhi
  simp only [isStart, isBlank, isStop, List.contains_eq_mem, List.mem_cons, List.not_mem_nil,
    or_false, Bool.and_eq_true, Bool.not_eq_true', decide_eq_false_iff_not]
  omega

theorem isStart_iff {c : CodePoint} : isStart c = true ↔ isBlank c = false ∧ isStop c = false := by
  simp [isStart]

/-- A literal starts with a minus or a digit. -/
theorem exists_render_head {l : NumberLiteral} (h : l.WellFormed) :
    ∃ c t, l.render = c :: t ∧ (c = CodePoint.ofChar '-' ∨ c.isDigit = true) := by
  obtain ⟨c, w, hw⟩ := List.exists_cons_of_ne_nil h.whole_digits.1
  have hc : c.isDigit = true := h.whole_digits.2 c (by simp [hw])
  rw [NumberLiteral.render_eq, NumberLiteral.signText, hw]
  cases l.negative with
  | true => exact ⟨_, _, rfl, .inl rfl⟩
  | false => exact ⟨_, _, rfl, .inr hc⟩

namespace Document

theorem exists_start {d : Document} (h : d.WellFormed) :
    ∃ c t, d.text = c :: t ∧ isStart c = true := by
  cases d with
  | null => exact ⟨_, _, rfl, by decide⟩
  | bool b => cases b <;> exact ⟨_, _, rfl, by decide⟩
  | number l =>
      obtain ⟨c, t, hl, hc⟩ := exists_render_head h
      refine ⟨c, t, hl, ?_⟩
      rcases hc with rfl | hc
      · decide
      · exact isStart_of_isDigit hc
  | string pieces => exact ⟨_, _, rfl, by decide⟩
  | emptyArray blank => exact ⟨_, _, rfl, by decide⟩
  | array items => exact ⟨_, _, rfl, by decide⟩
  | emptyObject blank => exact ⟨_, _, rfl, by decide⟩
  | object members => exact ⟨_, _, rfl, by decide⟩

/-- The blanks in front of a document are all that is skipped. -/
theorem skipBlanks_text {d : Document} (h : d.WellFormed) {blank : Text} (hblank : IsBlank blank)
    (next : Text) : skipBlanks (blank ++ (d.text ++ next)) = d.text ++ next := by
  obtain ⟨c, t, htext, hc⟩ := exists_start h
  rw [skipBlanks_append hblank, htext, List.cons_append]
  exact skipBlanks_cons (isStart_iff.1 hc).1 _

end Document

end Json

end Descent
