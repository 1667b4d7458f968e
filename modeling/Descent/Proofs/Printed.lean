import Descent.Proofs.Lines
import Descent.Proofs.Written

/-!
# Printed numbers and arrays

A value of finite numbers and arrays is written as a strict document: a number as its
literal, and between two items a comma and a space. So what the console prints for such
a value is parsed by every grammar, and each number is the same one again. The printed
document is nested as the text was that had the value, and it needs no more depth.
-/

namespace Descent

namespace Value

open Json

/-- Finite numbers and arrays of such values. -/
inductive IsNumeric : Value → Prop
  | float {x : Binary64} (h : x.isFinite = true) : IsNumeric (.float x)
  | list {vs : List Value} (h : ∀ v ∈ vs, IsNumeric v) : IsNumeric (.list vs)

mutual

/-- The document that a value of numbers and arrays is written as. -/
def document : Value → Document
  | .float x => .number x.literal
  | .list vs => if vs.isEmpty then .emptyArray [] else .array (documentItems [] vs)
  | _ => .null

/-- The items of an array, the first one with the blank given in front of it. -/
def documentItems (blank : Text) : List Value → List Item
  | [] => []
  | v :: vs => .mk blank v.document [] (!vs.isEmpty) :: documentItems (text " ") vs

end

/-- The document is strict, and it is what is written for the value and what has it. -/
structure IsWrittenAs (v : Value) (d : Document) : Prop where
  text_eq : d.text = v.written
  wellFormed : d.WellFormed
  strict : d.Strict
  value_eq : ∀ decode, d.value decode = v

theorem isBlank_space : IsBlank (text " ") :=
  List.forall_mem_singleton.2 (show isBlank (CodePoint.ofChar ' ') = true by decide)

/-- Items that are written one after the other, with what stands between them. -/
theorem itemsText_documentItems (blank : Text) (v : Value) (vs : List Value)
    (h : ∀ w ∈ v :: vs, w.document.text = w.written) :
    Document.itemsText (documentItems blank (v :: vs)) =
      blank ++ Text.join (text ", ") (writtenItems (v :: vs)) := by
  induction vs generalizing blank v with
  | nil =>
      rw [documentItems, Document.itemsText, h v List.mem_cons_self]
      simp [documentItems, Document.itemsText, Document.commaText, writtenItems, Text.join]
  | cons w vs ih =>
      have hrest := ih (text " ") w fun u hu => h u (List.mem_cons_of_mem v hu)
      have hjoin : Text.join (text ", ") (writtenItems (v :: w :: vs)) =
          v.written ++ text ", " ++ Text.join (text ", ") (writtenItems (w :: vs)) :=
        List.intercalate_cons_cons
      rw [documentItems, Document.itemsText, h v List.mem_cons_self, hrest, hjoin]
      simp [Document.commaText, text]

/-- The items stand in a strict row and have the values that they are written for. -/
theorem items_documentItems {blank : Text} (hblank : IsBlank blank) {vs : List Value}
    (h : ∀ v ∈ vs, v.IsWrittenAs v.document) (decode : Text → Text) :
    Document.ItemsWellFormed (documentItems blank vs) ∧
      Document.ItemsStrict (documentItems blank vs) ∧
      Document.itemValues decode (documentItems blank vs) = vs := by
  induction vs generalizing blank with
  | nil => exact ⟨trivial, trivial, rfl⟩
  | cons v vs ih =>
      have hv := h v List.mem_cons_self
      obtain ⟨hwell, hstrict, hvalues⟩ :=
        ih isBlank_space fun w hw => h w (List.mem_cons_of_mem v hw)
      have hcomma : (!vs.isEmpty) = true ↔ documentItems (text " ") vs ≠ [] := by
        cases vs with
        | nil => simp [documentItems]
        | cons w vs => simp [documentItems]
      rw [documentItems]
      refine ⟨⟨hblank, hv.wellFormed, List.forall_mem_nil _, hwell⟩,
        ⟨hv.strict, hcomma, hstrict⟩, ?_⟩
      rw [Document.itemValues, hv.value_eq, hvalues]

/-- A value of finite numbers and arrays is written as its document. -/
theorem IsNumeric.isWrittenAs_document {v : Value} (h : v.IsNumeric) :
    v.IsWrittenAs v.document := by
  induction h with
  | @float x hx =>
      refine ⟨Binary64.render_literal hx, x.wellFormed_literal, trivial, fun _ => ?_⟩
      rw [document, Document.value, x.toBinary64_literal]
  | @list vs _ ih =>
      cases vs with
      | nil => exact ⟨rfl, List.forall_mem_nil _, trivial, fun _ => rfl⟩
      | cons v vs =>
          have hitems := items_documentItems (List.forall_mem_nil _) ih
          have htext := itemsText_documentItems [] v vs fun w hw => (ih w hw).text_eq
          refine ⟨?_, ⟨List.cons_ne_nil _ _, (hitems id).1⟩, (hitems id).2.1, fun decode => ?_⟩
          · change text "[" ++ Document.itemsText (documentItems [] (v :: vs)) ++ text "]" = _
            rw [htext, written, List.nil_append]
          · exact congrArg Value.list (hitems decode).2.2

mutual

/-- What is written for the value of a document needs no more depth than the document. -/
theorem need_document_le (decode : Text → Text) : ∀ d : Document, d.WellFormed →
    (d.value decode).IsNumeric → (d.value decode).document.need ≤ d.need
  | .null, _, h => nomatch h
  | .bool _, _, h => nomatch h
  | .number _, _, _ => Nat.le_refl 5
  | .string _, _, h => nomatch h
  | .emptyArray _, _, _ => Nat.le_refl 5
  | .array [], hwell, _ => absurd rfl hwell.1
  | .array (x :: items), hwell, h => by
      cases h with
      | list h =>
          have hitems := itemsNeed_documentItems_le decode [] (x :: items) hwell.2 h
          cases x
          exact Nat.add_le_add_right hitems 4
  | .emptyObject _, _, h => nomatch h
  | .object _, _, h => nomatch h

theorem itemsNeed_documentItems_le (decode : Text → Text) (blank : Text) : ∀ items : List Item,
    Document.ItemsWellFormed items → (∀ v ∈ Document.itemValues decode items, v.IsNumeric) →
    Document.itemsNeed (documentItems blank (Document.itemValues decode items)) ≤
      Document.itemsNeed items
  | [], _, _ => Nat.le_refl 0
  | .mk _ d _ _ :: items, hwell, h => by
      obtain ⟨-, hd, -, hitems⟩ := hwell
      obtain ⟨hv, hvs⟩ := List.forall_mem_cons.1 h
      have hneed := need_document_le decode d hd hv
      have hrest := itemsNeed_documentItems_le decode (text " ") items hitems hvs
      rw [Document.itemValues, documentItems, Document.itemsNeed, Document.itemsNeed]
      omega

end

end Value

namespace Json

/-- A text that has a value of finite numbers and arrays: what is written for the value has it
again, by every grammar and whatever blanks follow. -/
theorem parse_written_of_parse {o : Options} {t : Text} {v : Value} (hparse : parse o t = .ok v)
    (hv : v.IsNumeric) (o' : Options) {blank : Text} (hblank : IsBlank blank) :
    parse o' (v.written ++ blank) = .ok v := by
  obtain ⟨D, hD⟩ := exists_derivation hparse
  have hneed : D.document.need ≤ depthLimit := by
    by_contra hdeep
    rw [parse_of_derivation D, if_neg hdeep] at hparse
    cases hparse
  have hwritten := hv.isWrittenAs_document
  have hend := Document.numbersEnd_of_strict v.document hwritten.wellFormed hwritten.strict
    (Document.isDelimited_of_isBlank hblank)
  let E : Derivation (fun d => d.Fits o') (v.written ++ blank) :=
    ⟨[], v.document, blank, List.forall_mem_nil _, hblank,
      ⟨hwritten.wellFormed, fun _ => hwritten.strict, hend⟩, by
        rw [List.nil_append, hwritten.text_eq]⟩
  have hle : v.document.need ≤ D.document.need := by
    have hle := Value.need_document_le o.decode D.document D.allowed.wellFormed (hD ▸ hv)
    rwa [hD] at hle
  rw [parse_of_derivation E, if_pos (hle.trans hneed)]
  exact congrArg Except.ok (hwritten.value_eq o'.decode)

end Json

namespace Console

open Json Eval

/-- With arguments the console prints the value of the text that they make. -/
theorem run_of_ne_nil {args : List Text} (hargs : args ≠ []) (input : Text) :
    run args input =
      match Json.parse {} (Text.join (text " ") args) with
      | .ok v => ⟨line v.shown, none⟩
      | .error f => ⟨[], some f⟩ := by
  obtain ⟨u, hcreate, -, -⟩ := Grammar.exists_create {} {}
  generalize ht : Text.join (text " ") args = t
  obtain ⟨w, -, hrun⟩ :=
    (Grammar.InUse.created hcreate).exists_run_tryParse depthLimit .value t
  rw [ruleReading_value, ← parse_eq_tried] at hrun
  have hempty : args.isEmpty = false := List.isEmpty_eq_false_iff.2 hargs
  rw [run, hcreate]
  simp only [hempty, Bool.false_eq_true, if_false, answer, ht, Grammar.parseText, hrun]
  cases Json.parse {} t with
  | ok v => rfl
  | error f => rfl

variable {t : Text} {v : Value}

/-- The answer to a line that has a value stands behind the answers to the lines before it. -/
theorem prefix_printed (hparse : Json.parse {} t = .ok v) (ht : t ≠ []) {input : Text}
    {before after : List Text} (hinput : input.lines = before ++ t :: after)
    (hne : ∀ u ∈ before, u ≠ []) (hdeep : ∀ u ∈ before, ¬ IsTooDeep u) :
    before.flatMap answerTo ++ line v.shown <+: (run [] input).printed := by
  have hvalue : ¬ IsTooDeep t := by
    intro h
    rw [IsTooDeep, hparse] at h
    cases h
  have hsplit : input.lines = (before ++ [t]) ++ after := by simp [hinput]
  obtain ⟨g, u, hrun⟩ := exists_run_eq_append hsplit
    (List.forall_mem_append.2 ⟨hne, List.forall_mem_singleton.2 ht⟩)
    (List.forall_mem_append.2 ⟨hdeep, List.forall_mem_singleton.2 hvalue⟩)
  rw [hrun, List.flatMap_append, List.flatMap_singleton, answerTo_of_ok hparse]
  exact List.prefix_append _ _

theorem isBlank_lineFeed : IsBlank (text "\n") :=
  List.forall_mem_singleton.2 (show isBlank (CodePoint.ofChar '\n') = true by decide)

/-- Printed numbers and arrays read back. The console prints the value of a text in one line,
whether the text is made of its arguments or is a line of its input. If the value consists of
finite numbers and arrays, the line is parsed by every grammar, strict or not and with the line
feed or without, and it has the same value, each number with the same bits. However deep the text
is nested, the line is not too deep. -/
theorem printed_reads_back (hparse : Json.parse {} t = .ok v) (hv : v.IsNumeric) :
    (∀ args input, args ≠ [] → Text.join (text " ") args = t →
      run args input = ⟨line v.shown, none⟩) ∧
    (∀ input before after, input.lines = before ++ t :: after → t ≠ [] →
      (∀ u ∈ before, u ≠ []) → (∀ u ∈ before, ¬ IsTooDeep u) →
      before.flatMap answerTo ++ line v.shown <+: (run [] input).printed) ∧
    ∀ o : Options, Json.parse o v.shown = .ok v ∧ Json.parse o (line v.shown) = .ok v := by
  have hshown : v.shown = v.written := by
    cases hv with
    | float _ => rfl
    | list _ => rfl
  refine ⟨fun args input hargs hjoin => ?_, fun input before after hinput ht hne hdeep => ?_,
    fun o => ?_⟩
  · rw [run_of_ne_nil hargs, hjoin, hparse]
  · exact prefix_printed hparse ht hinput hne hdeep
  · have hnil : IsBlank [] := List.forall_mem_nil _
    have hplain := parse_written_of_parse hparse hv o hnil
    rw [List.append_nil] at hplain
    rw [hshown]
    exact ⟨hplain, parse_written_of_parse hparse hv o isBlank_lineFeed⟩

/-- A zero with a sign, the least and the largest number, and one number on either side of those
that are written without an exponent. -/
theorem printed_reads_back_extremes :
    let t := text "[-0.0,5e-324,17976931348623157e292,[1e16,0.00001,[]]]"
    let v : Value := .list [.float ⟨true, 0, by decide⟩, .float ⟨false, 1, by decide⟩,
      .float ⟨false, Binary64.infinity - 1, by decide⟩,
      .list [.float ⟨false, 0x4341C37937E08000, by decide⟩,
        .float ⟨false, 0x3EE4F8B588E368F1, by decide⟩, .list []]]
    let printed := text "[-0.0, 5e-324, 1.7976931348623157e+308, [1e+16, 1e-05, []]]"
    Json.parse {} t = .ok v ∧ v.IsNumeric ∧ run [t] [] = ⟨line printed, none⟩ ∧
      line printed <+: (run [] (line t)).printed ∧ Json.parse { strict := true } printed = .ok v := by
  intro t v printed
  let scientific (whole : String) (sign : Option CodePoint) (digits : String) : NumberLiteral :=
    ⟨false, text whole, none, some ⟨CodePoint.ofChar 'e', sign, text digits⟩⟩
  let zero : NumberLiteral := ⟨true, text "0", some (text "0"), none⟩
  let least := scientific "5" (some (CodePoint.ofChar '-')) "324"
  let largest := scientific "17976931348623157" none "292"
  let high := scientific "1" none "16"
  let low : NumberLiteral := ⟨false, text "0", some (text "00001"), none⟩
  let item (d : Document) (comma : Bool) := Item.mk [] d [] comma
  let d : Document := .array [item (.number zero) true, item (.number least) true,
    item (.number largest) true, item (.array [item (.number high) true,
      item (.number low) true, item (.emptyArray []) false]) false]
  have hvalue : d.value id = v := by
    have hbits : [zero, least, largest, high, low].map NumberLiteral.toBinary64 =
        [⟨true, 0, by decide⟩, ⟨false, 1, by decide⟩,
          ⟨false, Binary64.infinity - 1, by decide⟩, ⟨false, 0x4341C37937E08000, by decide⟩,
          ⟨false, 0x3EE4F8B588E368F1, by decide⟩] := by decide +kernel
    simp only [List.map_cons, List.map_nil, List.cons.injEq, and_true] at hbits
    obtain ⟨hzero, hleast, hlargest, hhigh, hlow⟩ := hbits
    simp only [d, item, Document.value, Document.itemValues, hzero, hleast, hlargest, hhigh, hlow]
    rfl
  have hread : ∀ l ∈ [zero, least, largest, high, low], NumberLiteral.read? l.render = some l := by
    decide +kernel
  have hliteral : ∀ l ∈ [zero, least, largest, high, low], l.WellFormed := fun l hl =>
    (NumberLiteral.read?_eq_some_iff.1 (hread l hl)).1
  simp only [List.forall_mem_cons] at hliteral
  obtain ⟨hzero, hleast, hlargest, hhigh, hlow, -⟩ := hliteral
  have hnil : IsBlank [] := List.forall_mem_nil _
  have hwell : d.WellFormed :=
    ⟨List.cons_ne_nil _ _, hnil, hzero, hnil, hnil, hleast, hnil, hnil, hlargest, hnil, hnil,
      ⟨List.cons_ne_nil _ _, hnil, hhigh, hnil, hnil, hlow, hnil, hnil, hnil, hnil, trivial⟩,
      hnil, trivial⟩
  have hstrict : d.Strict := by
    simp [d, item, Document.Strict, Document.ItemsStrict]
  let D : Derivation (fun d => d.Fits {}) t :=
    ⟨[], d, [], hnil, hnil, ⟨hwell, fun _ => hstrict,
      Document.numbersEnd_of_strict d hwell hstrict (Document.isDelimited_of_isBlank hnil)⟩,
      by decide +kernel⟩
  have hdepth : d.depth ≤ 100 := by decide +kernel
  have hparse : Json.parse {} t = .ok v := by
    rw [← hvalue, parse_of_derivation D, if_pos (need_le_depthLimit hdepth)]
    rfl
  have hnumeric : v.IsNumeric := by
    have hinner : ∀ w ∈ [Value.float ⟨false, 0x4341C37937E08000, by decide⟩,
        .float ⟨false, 0x3EE4F8B588E368F1, by decide⟩, .list []], w.IsNumeric := by
      simp only [List.forall_mem_cons]
      exact ⟨.float (by decide), .float (by decide), .list (List.forall_mem_nil _),
        List.forall_mem_nil _⟩
    refine .list ?_
    simp only [List.forall_mem_cons]
    exact ⟨.float (by decide), .float (by decide), .float (by decide), .list hinner,
      List.forall_mem_nil _⟩
  have hshown : v.shown = printed := by decide +kernel
  have hfeed : ∀ c ∈ t, c.val ≠ 10 := by decide +kernel
  obtain ⟨hargs, hline, hread⟩ := printed_reads_back hparse hnumeric
  rw [hshown] at hargs hline hread
  exact ⟨hparse, hnumeric, hargs [t] [] (List.cons_ne_nil _ _) rfl,
    hline (line t) [] [] (Text.lines_line hfeed) (List.cons_ne_nil _ _) (List.forall_mem_nil _)
      (List.forall_mem_nil _), (hread _).1⟩

end Console

end Descent
