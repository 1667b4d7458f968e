import Descent.Proofs.Json.Cells

/-!
# Runs of the rules

Every rule of a grammar that stands in its store comes to the reading of the rule,
whatever else is in the store and whichever rules are built. Values are read at a
depth that is smaller inside a container, so the proof is by induction on the
depth.
-/

namespace Descent

namespace Json

open Reading Recipe

variable {Inv : Store → Prop} {depth : Nat} {α : Type} {ι : α → Value} {item : Recipe}
  {f : Text → Reading α}

/-! ## Items -/

theorem reads_nextItem (h : item.Reads Inv depth fun cur => (f cur).map ι) :
    (pipeTo [word ",", item] (Parser.itemOf 1)).Reads Inv depth fun cur =>
      (nextItemReading f cur).map ι := by
  have hpipe := reads_itemOf (i := 1) .null
    (forall₂_values (.cons (reads_literal (text ",")) (.cons h .nil))) (by simp)
  refine hpipe.congr fun cur => ?_
  simp only [nextItemReading, sequence_cons, sequence_nil, map_bind, map_map, bind_map]
  rfl

theorem comma_orElse (cur : Text) :
    (literalReading (text ",") cur).orElse (.reads [] cur) =
      .reads (NumberLiteral.takeSign (· = CodePoint.ofChar ',') cur).1.toList (skipComma cur) := by
  rw [show text "," = [CodePoint.ofChar ','] from rfl, literalReading_singleton, skipComma]
  cases cur with
  | nil => rfl
  | cons c t => by_cases h : c = CodePoint.ofChar ',' <;> simp [NumberLiteral.takeSign, h]

theorem reads_looseItem (hInv : Store.Quiet Inv)
    (h : item.Reads Inv depth fun cur => (f cur).map ι) :
    (pipeTo [item, optional (word ",")] (Parser.itemOf 0)).Reads Inv depth fun cur =>
      (looseItemReading depth f cur).map ι := by
  have hcomma := reads_optional hInv (g := fun _ => literalReading (text ","))
    (fun _ => reads_literal _) (isDescribed_plain _ _) depth
  have hpipe := reads_itemOf (i := 0) .null (forall₂_values (.cons h (.cons hcomma .nil))) (by simp)
  refine hpipe.congr fun cur => ?_
  simp only [looseItemReading, sequence_cons, sequence_nil, map_bind, map_map, bind_map,
    comma_orElse]
  congr 1
  funext a t
  cases depth <;> rfl

theorem reads_strictItems (h : item.Reads Inv depth fun cur => (f cur).map ι) :
    (items true item).Reads Inv depth fun cur =>
      (itemsReading true depth f cur).map fun as => .list (as.map ι) := by
  have hpipe := reads_pipeTo_parts (l := consItems)
    (f := fun cur => (f cur).bind fun a t =>
      (Reading.many (nextItemReading f) t).map fun as => (a, as))
    (P := fun c => [ι c.1, .list (c.2.map ι)]) (κ := fun c => .list ((c.1 :: c.2).map ι))
    (.cons h (.cons (reads_many (reads_nextItem h)) .nil)) ?_ fun _ _ _ _ => rfl
  · refine hpipe.congr fun cur => ?_
    simp only [itemsReading, map_bind, map_map, if_true]
    rfl
  · intro cur
    simp only [sequence_cons, sequence_nil, map_bind, map_map, bind_map]
    rfl

theorem reads_looseItems (hInv : Store.Quiet Inv)
    (h : item.Reads Inv depth fun cur => (f cur).map ι) :
    (items false item).Reads Inv depth fun cur =>
      (itemsReading false depth f cur).map fun as => .list (as.map ι) :=
  reads_many1 (reads_looseItem hInv h)

theorem reads_items (hInv : Store.Quiet Inv) (strict : Bool)
    (h : item.Reads Inv depth fun cur => (f cur).map ι) :
    (items strict item).Reads Inv depth fun cur =>
      (itemsReading strict depth f cur).map fun as => .list (as.map ι) := by
  cases strict with
  | true => exact reads_strictItems h
  | false => exact reads_looseItems hInv h

/-! ## Tokens as rules -/

namespace Grammar

variable {g : Grammar}

theorem reads_rule_whitespace (depth : Nat) : (g.rule .whitespace).Reads g.Stands depth fun cur =>
    (enter depth fun _ => .reads (cur.takeWhile isBlank) (skipBlanks cur)).map .str :=
  reads_rule (r := .whitespace) rfl fun _ _ => reads_whitespace

theorem reads_rule_number (depth : Nat) :
    (g.rule .number).Reads g.Stands depth fun cur => enter depth fun n => numberReading n cur := by
  refine (reads_rule (r := .number) (ι := id) (f := fun n cur => numberReading n cur) rfl
    fun n _ => (reads_number quiet_stands).congr fun cur => (map_id _).symm).congr fun cur => ?_
  rw [map_id]

theorem reads_rule_string (depth : Nat) : (g.rule .string).Reads g.Stands depth fun cur =>
    (enter depth fun n => stringReading g.options n cur).map .str :=
  reads_rule (r := .string) rfl fun _ _ => reads_string quiet_stands g.options

theorem reads_constant (word : String) (v : Value) :
    (given (constant word v)).Reads g.Stands depth (constantReading word v) := by
  have hmap : (map (Json.word word) fun _ => .ok v).Reads g.Stands depth fun cur =>
      (literalReading (text word) cur).map fun _ => v :=
    reads_map (reads_literal _) fun _ _ _ _ => rfl
  rintro s p ⟨⟩ cur
  exact hmap s _ ⟨_, rfl, rfl⟩ cur

/-! ## Containers -/

/-- Brackets with nothing but blanks between them. -/
theorem reads_empty (opening closing : String) (v : Value) (n : Nat) :
    (pipeTo [word opening, g.rule .whitespace, word closing] fun _ => .lift v).Reads g.Stands n
      fun cur => ((literalReading (text opening) cur).bind fun _ t =>
        enter n fun _ => literalReading (text closing) (skipBlanks t)).map fun _ => v := by
  have hpipe := reads_pipeTo_parts (l := fun _ => .lift v)
    (f := fun cur => (literalReading (text opening) cur).bind fun a t => enter n fun _ =>
      (literalReading (text closing) (skipBlanks t)).map fun b => [a, t.takeWhile isBlank, b])
    (P := List.map .str) (κ := fun _ => v)
    (.cons (reads_literal (text opening)) (.cons (reads_rule_whitespace (g := g) n)
      (.cons (reads_literal (text closing)) .nil))) ?_ fun _ _ _ _ => rfl
  · refine hpipe.congr fun cur => ?_
    simp only [map_bind, map_enter, map_map]
    rfl
  · intro cur
    simp only [sequence_cons, sequence_nil, map_bind, bind_map, map_map]
    congr 1
    funext a t
    cases n with
    | zero => rfl
    | succ n =>
        rw [enter_succ, enter_succ, map_map]
        rfl

/-- Brackets with items between them. -/
theorem reads_brackets {close : List Value → Parser} (opening closing : String) {items : Recipe}
    {f : Text → Reading (List α)} {ι κ : List α → Value} {n : Nat}
    (hitems : items.Reads Inv n fun cur => (f cur).map ι)
    (hclose : ∀ a as b, close [.str a, ι as, .str b] = .lift (κ as)) :
    (pipeTo [word opening, items, word closing] close).Reads Inv n fun cur =>
      ((literalReading (text opening) cur).bind fun _ t =>
        (f t).bind fun as t => (literalReading (text closing) t).map fun _ => as).map κ := by
  have hpipe := reads_pipeTo_parts (l := close)
    (f := fun cur => (literalReading (text opening) cur).bind fun a t => (f t).bind fun as t =>
      (literalReading (text closing) t).map fun b => (a, as, b))
    (P := fun c => [.str c.1, ι c.2.1, .str c.2.2]) (κ := fun c => κ c.2.1)
    (.cons (reads_literal (text opening)) (.cons hitems
      (.cons (reads_literal (text closing)) .nil))) ?_ fun _ c _ _ => hclose c.1 c.2.1 c.2.2
  · refine hpipe.congr fun cur => ?_
    simp only [map_bind, map_map]
    rfl
  · intro cur
    simp only [sequence_cons, sequence_nil, map_bind, bind_map, map_map]
    rfl

theorem reads_container {close : List Value → Parser} {opening closing : String} {items : Recipe}
    {f : Text → Reading (List α)} {ι κ : List α → Value} {n : Nat}
    (hitems : items.Reads g.Stands n fun cur => (f cur).map ι)
    (hclose : ∀ a as b, close [.str a, ι as, .str b] = .lift (κ as)) :
    (first [pipeTo [word opening, g.rule .whitespace, word closing] fun _ => .lift (κ []),
      pipeTo [word opening, items, word closing] close]).Reads g.Stands (n + 1) fun cur =>
      (containerReading (text opening) (text closing) (n + 1) f cur).map κ := by
  have hfirst := reads_first quiet_stands
    (.cons ⟨reads_empty opening closing (κ []) n, isDescribed_pipeTo _ _⟩
      (.cons ⟨reads_brackets opening closing hitems hclose, isDescribed_pipeTo _ _⟩ .nil))
  refine hfirst.congr fun cur => ?_
  rw [containerReading, enter_succ, choice_cons, choice_cons, choice_nil, orElse_fails_right,
    map_bind, map_bind, map_bind, orElse_bind]
  congr 1
  funext _ t
  rw [map_orElse, map_enter, map_enter]
  simp only [map_map]
  rfl

theorem reads_array {n : Nat}
    (h : (g.rule .value).Reads g.Stands n (valueReading g.options n)) :
    g.arrayRecipe.Reads g.Stands (n + 1) (arrayReading g.options n (valueReading g.options n)) := by
  have hvalue : (g.rule .value).Reads g.Stands n fun cur =>
      (valueReading g.options n cur).map id := h.congr fun cur => (map_id _).symm
  refine reads_container (κ := .list) (reads_items quiet_stands g.options.strict hvalue) ?_
  intro a vs b
  rw [List.map_id]
  rfl

/-! ## Objects -/

/-- A member as a list of two values. -/
def memberValue (m : Text × Value) : Value := .list [.str m.1, m.2]

theorem reads_pair {n : Nat}
    (h : (g.rule .value).Reads g.Stands n (valueReading g.options n)) :
    g.pairRecipe.Reads g.Stands n fun cur =>
      (pairReading g.options n (valueReading g.options n) cur).map memberValue := by
  let f (cur : Text) : Reading (Text × Text × Text × Text × Value) := enter n fun n' =>
    (stringReading g.options n' (skipBlanks cur)).bind fun k t =>
      (literalReading (text ":") (skipBlanks t)).bind fun c u =>
        (valueReading g.options n u).map fun v =>
          (cur.takeWhile isBlank, k, t.takeWhile isBlank, c, v)
  have hpipe := reads_pipeTo_parts (l := pairItems) (f := f)
    (P := fun c => [.str c.1, .str c.2.1, .str c.2.2.1, .str c.2.2.2.1, c.2.2.2.2])
    (κ := fun c => memberValue (c.2.1, c.2.2.2.2))
    (.cons (reads_rule_whitespace (g := g) n) (.cons (reads_rule_string n)
      (.cons (reads_rule_whitespace n) (.cons (reads_literal (text ":")) (.cons h .nil)))))
    ?_ fun _ _ _ _ => rfl
  · refine hpipe.congr fun cur => ?_
    cases n with
    | zero => rfl
    | succ n =>
        simp only [f, pairReading, enter_succ, map_bind, map_map]
        rfl
  · intro cur
    cases n with
    | zero => rfl
    | succ n =>
        simp only [f, sequence_cons, sequence_nil, enter_succ, map_bind, bind_map, map_map,
          map_reads, bind_reads]
        rfl

theorem pairsFrom_members (position : Nat) (ms : List (Text × Value)) :
    Value.pairsFrom position (ms.map memberValue) = .ok (ms.map fun m => (.str m.1, m.2)) := by
  induction ms generalizing position with
  | nil => rfl
  | cons m ms ih =>
      have hm : Value.toPair position (memberValue m) = .ok (.str m.1, m.2) := rfl
      rw [List.map_cons, Value.pairsFrom, hm, ih]
      rfl

theorem toDict_members (ms : List (Text × Value)) :
    Value.toDict (.list (ms.map memberValue)) = .ok (dictOf ms) := by
  simp only [Value.toDict, Value.parts?, pairsFrom_members]
  rfl

theorem reads_object {n : Nat}
    (h : (g.rule .value).Reads g.Stands n (valueReading g.options n)) :
    g.objectRecipe.Reads g.Stands (n + 1)
      (objectReading g.options n (valueReading g.options n)) := by
  refine reads_container (κ := dictOf) (reads_items quiet_stands g.options.strict (reads_pair h)) ?_
  intro a ms b
  change Parser.liftExcept (Value.toDict (.list (ms.map memberValue))) = _
  rw [toDict_members]
  rfl

/-! ## Values -/

/-- What is between the blanks of a value, if `value` reads a value at a smaller depth. -/
def alternatives (o : Options) (value : Nat → Text → Reading Value) (depth : Nat) :
    List (Text → Reading Value) :=
  [fun cur => (enter depth fun n => stringReading o n cur).map .str,
    fun cur => enter depth fun n => numberReading n cur,
    fun cur => enter depth fun n => enter n fun n => arrayReading o n (value n) cur,
    fun cur => enter depth fun n => enter n fun n => objectReading o n (value n) cur,
    constantReading "true" (.bool true), constantReading "false" (.bool false),
    constantReading "null" .null]

theorem reads_rule_array {n : Nat}
    (h : ∀ d < n, (g.rule .value).Reads g.Stands d (valueReading g.options d)) :
    (g.rule .array).Reads g.Stands n fun cur =>
      enter n fun n => enter n fun n =>
        arrayReading g.options n (valueReading g.options n) cur := by
  refine (reads_rule (r := .array) (ι := id)
    (f := fun n cur => enter n fun n => arrayReading g.options n (valueReading g.options n) cur)
    rfl fun m hm => ?_).congr fun cur => map_id _
  cases m with
  | zero => exact reads_first_zero quiet_stands _
  | succ d =>
      refine (reads_array (h d (Nat.lt_of_succ_lt hm))).congr fun cur => ?_
      rw [map_id, enter_succ]

theorem reads_rule_object {n : Nat}
    (h : ∀ d < n, (g.rule .value).Reads g.Stands d (valueReading g.options d)) :
    (g.rule .object).Reads g.Stands n fun cur =>
      enter n fun n => enter n fun n =>
        objectReading g.options n (valueReading g.options n) cur := by
  refine (reads_rule (r := .object) (ι := id)
    (f := fun n cur => enter n fun n => objectReading g.options n (valueReading g.options n) cur)
    rfl fun m hm => ?_).congr fun cur => map_id _
  cases m with
  | zero => exact reads_first_zero quiet_stands _
  | succ d =>
      refine (reads_object (h d (Nat.lt_of_succ_lt hm))).congr fun cur => ?_
      rw [map_id, enter_succ]

theorem reads_alternatives {n : Nat}
    (h : ∀ d < n, (g.rule .value).Reads g.Stands d (valueReading g.options d)) :
    (first [g.rule .string, g.rule .number, g.rule .array, g.rule .object, g.rule .true,
      g.rule .false, g.rule .null]).Reads g.Stands n fun cur =>
      enter n fun n => choice (alternatives g.options (valueReading g.options) n) cur := by
  cases n with
  | zero => exact reads_first_zero quiet_stands _
  | succ m =>
      have hlt (d : Nat) (hd : d < m) := h d (Nat.lt_succ_of_lt hd)
      exact reads_first quiet_stands
        (.cons ⟨reads_rule_string m, isDescribed_rule _⟩
          (.cons ⟨reads_rule_number m, isDescribed_rule _⟩
            (.cons ⟨reads_rule_array hlt, isDescribed_rule _⟩
              (.cons ⟨reads_rule_object hlt, isDescribed_rule _⟩
                (.cons ⟨reads_constant _ _, isDescribed_rule _⟩
                  (.cons ⟨reads_constant _ _, isDescribed_rule _⟩
                    (.cons ⟨reads_constant _ _, isDescribed_rule _⟩ .nil)))))))

theorem reads_valueRecipe {n : Nat}
    (h : ∀ d < n, (g.rule .value).Reads g.Stands d (valueReading g.options d)) :
    g.valueRecipe.Reads g.Stands n (valueReading g.options (n + 1)) := by
  have hpipe := reads_itemOf (i := 1) .null (forall₂_values (.cons (reads_rule_whitespace n)
    (.cons (reads_alternatives h) (.cons (reads_rule_whitespace n) .nil)))) (by simp)
  refine hpipe.congr fun cur => ?_
  rw [map_id]
  match n with
  | 0 => rfl
  | 1 => rfl
  | 2 => rfl
  | d + 3 =>
    rw [valueReading_add_four]
    simp only [sequence_cons, sequence_nil, map_bind, enter_succ, bind_reads, map_reads]
    rfl

theorem reads_value (n : Nat) : (g.rule .value).Reads g.Stands n (valueReading g.options n) := by
  induction n using Nat.strongRecOn with
  | ind n ih =>
      refine (reads_rule (r := .value) (ι := id)
        (f := fun n cur => valueReading g.options (n + 1) cur)
        rfl fun m hm => ?_).congr fun cur => ?_
      · refine (reads_valueRecipe fun d hd => ih d (Nat.lt_trans hd hm)).congr fun cur => ?_
        rw [map_id]
      · rw [map_id]
        cases n <;> rfl

end Grammar

end Json

end Descent
