import Descent.Proofs.Json.Answers
import Descent.Proofs.Json.Use
import Descent.Proofs.Json.Values

/-!
# Progress of the rules

What a rule reads is taken from the front of its text, and all rules but whitespace take
something. So do the steps of the loops in a container and in a string, and the loops end
where their steps fail. Which alternative of a value can be read is known from the first
code point, so their order does not matter.
-/

namespace Descent

namespace Json

open Eval Reading Recipe

variable {α : Type}

/-! ## Rules -/

section

variable (o : Options) (n : Nat)

theorem text_ne_nil {d : Document} (h : d.WellFormed) : d.text ≠ [] := by
  obtain ⟨c, t, htext, -⟩ := Document.exists_start h
  rw [htext]
  exact List.cons_ne_nil c t

theorem consumes_string : Consumes (stringReading o n) := by
  intro cur t rest h
  obtain ⟨pieces, -, hcur, -⟩ := exists_pieces_of_stringReading h
  exact suffix_of_eq_append hcur (List.cons_ne_nil _ _)

theorem consumes_number : Consumes (numberReading n) := by
  intro cur v rest h
  obtain ⟨l, hwf, -, -, hcur⟩ := exists_literal_of_numberReading h
  exact suffix_of_eq_append hcur (text_ne_nil (d := .number l) hwf)

theorem consumes_constant (word : String) (hword : text word ≠ []) (v : Value) :
    Consumes (constantReading word v) := fun _ _ _ h =>
  suffix_of_eq_append (Document.eq_of_constantReading h).2 hword

theorem consumes_array : Consumes (arrayReading o n (valueReading o n)) := by
  intro cur v rest h
  obtain ⟨d, hd, -, hcur⟩ := Document.exists_array (isReadBy o n).1 h
  exact suffix_of_eq_append hcur (text_ne_nil hd.wellFormed)

theorem consumes_object : Consumes (objectReading o n (valueReading o n)) := by
  intro cur v rest h
  obtain ⟨d, hd, -, hcur⟩ := Document.exists_object (isReadBy o n).2 h
  exact suffix_of_eq_append hcur (text_ne_nil hd.wellFormed)

theorem consumes_value : Consumes (valueReading o n) := by
  intro cur v rest h
  obtain ⟨before, after, d, -, -, hd, -, hcur, -⟩ := exists_document h
  have htext : cur = (before ++ d.text ++ after) ++ rest := by
    rw [hcur, List.append_assoc, List.append_assoc]
  refine suffix_of_eq_append htext ?_
  simp [text_ne_nil hd.wellFormed]

theorem consumes_pair : Consumes (pairReading o n (valueReading o n)) := by
  intro cur m rest h
  obtain ⟨-, x, -, -, -, hcur⟩ := exists_of_pairReading (isReadBy o n).1 h false
  refine suffix_of_eq_append hcur ?_
  cases x
  simp [Member.text, stringText]

/-- A run of raw code points is not empty, and an escape has its backslash. -/
theorem consumes_piece : Consumes (pieceReading n) := by
  intro cur t rest h
  cases n with
  | zero => cases h
  | succ m =>
      cases cur with
      | nil => cases h
      | cons c u =>
          cases hraw : isRaw c with
          | true =>
              rw [pieceReading_raw hraw] at h
              cases h
              refine suffix_of_eq_append (p := c :: u.takeWhile isRaw) ?_ (List.cons_ne_nil _ _)
              rw [List.cons_append, List.takeWhile_append_dropWhile]
          | false =>
              by_cases hc : c = CodePoint.ofChar '\\'
              · rw [hc, pieceReading_backslash] at h
                obtain ⟨p, -, htext, -⟩ := exists_piece_of_escapeReading h
                rw [hc]
                exact suffix_of_eq_append htext p.text_ne_nil
              · rw [pieceReading_other hraw hc] at h
                cases h

theorem consumes_recipe {r : Rule} (hr : r ≠ .whitespace) : Consumes (recipeReading o n r) := by
  cases r with
  | whitespace => exact absurd rfl hr
  | number => exact consumes_number n
  | string => exact (consumes_string o n).map _
  | array =>
      intro cur v rest h
      obtain ⟨m, -, h⟩ := enter_eq_reads_iff.1 h
      exact consumes_array o m cur v rest h
  | object =>
      intro cur v rest h
      obtain ⟨m, -, h⟩ := enter_eq_reads_iff.1 h
      exact consumes_object o m cur v rest h
  | value => exact consumes_value o (n + 1)
  | true => exact consumes_constant "true" (List.cons_ne_nil _ _) _
  | false => exact consumes_constant "false" (List.cons_ne_nil _ _) _
  | null => exact consumes_constant "null" (List.cons_ne_nil _ _) _

theorem consumes_rule {r : Rule} (hr : r ≠ .whitespace) : Consumes (ruleReading o n r) := by
  intro cur v rest h
  unfold ruleReading at h
  split at h
  · obtain ⟨m, -, h⟩ := enter_eq_reads_iff.1 h
    exact consumes_recipe o m hr cur v rest h
  · exact consumes_recipe o n hr cur v rest h

end

section

variable {o : Options} {n : Nat} {r q : Rule} {cur rest : Text} {v : Value}

theorem suffix_of_ruleReading (h : ruleReading o n r cur = .reads v rest) :
    rest <:+ cur ∧ (r ≠ .whitespace → rest.length < cur.length) := by
  by_cases hr : r = .whitespace
  · subst hr
    obtain ⟨m, -, h⟩ := enter_eq_reads_iff.1 h
    cases h
    exact ⟨List.dropWhile_suffix isBlank, fun hne => absurd rfl hne⟩
  · obtain ⟨hsuffix, hlt⟩ := consumes_rule o n hr cur v rest h
    exact ⟨hsuffix, fun _ => hlt⟩

/-! ## The alternatives of a value -/

namespace Rule

/-- The rules that the value rule tries, in the order in which it does. -/
def alternatives : List Rule := [.string, .number, .array, .object, .true, .false, .null]

/-- The alternative that a text starts like, by its first code point. -/
def startedBy? : Text → Option Rule
  | [] => none
  | c :: _ =>
    if c = CodePoint.ofChar '"' then some .string
    else if c = CodePoint.ofChar '-' || c.isDigit then some .number
    else if c = CodePoint.ofChar '[' then some .array
    else if c = CodePoint.ofChar '\x7b' then some .object
    else if c = CodePoint.ofChar 't' then some .true
    else if c = CodePoint.ofChar 'f' then some .false
    else if c = CodePoint.ofChar 'n' then some .null
    else none

end Rule

/-- An alternative that the text does not start like fails, if it can be entered. -/
theorem recipeReading_of_startedBy_ne (hr : r ∈ Rule.alternatives)
    (h : Rule.startedBy? cur ≠ some r) :
    recipeReading o n r cur = if r.isLazy then enter n fun _ => .fails else .fails := by
  simp only [Rule.alternatives, List.mem_cons, List.not_mem_nil, or_false] at hr
  cases cur with
  | nil => rcases hr with rfl | rfl | rfl | rfl | rfl | rfl | rfl <;> cases n <;> rfl
  | cons c t =>
      have hne {d : Char} (hd : Rule.startedBy? (CodePoint.ofChar d :: t) = some r) :
          c ≠ CodePoint.ofChar d := by
        rintro rfl
        exact h hd
      rcases hr with rfl | rfl | rfl | rfl | rfl | rfl | rfl
      · rw [recipeReading, stringReading_of_head (hne rfl), map_enter]
        rfl
      · have hdigit : c.isDigit = false := by
          by_contra hdigit
          rw [Bool.not_eq_false] at hdigit
          have hquote := NumberLiteral.ne_of_isDigit (d := '"') hdigit (by decide)
          exact h (by simp [Rule.startedBy?, hquote, hdigit])
        exact numberReading_of_head (hne rfl) hdigit n
      · rw [recipeReading]
        simp only [arrayReading_of_head o _ _ t (hne rfl)]
        rfl
      · rw [recipeReading]
        simp only [objectReading_of_head o _ _ t (hne rfl)]
        rfl
      · exact constantReading_of_head t rfl (hne rfl) _
      · exact constantReading_of_head t rfl (hne rfl) _
      · exact constantReading_of_head t rfl (hne rfl) _

theorem ruleReading_of_startedBy_ne (hr : r ∈ Rule.alternatives)
    (h : Rule.startedBy? cur ≠ some r) : ruleReading o n r cur =
      if r.isLazy then enter n fun n => enter n fun _ => .fails else .fails := by
  unfold ruleReading
  simp only [recipeReading_of_startedBy_ne hr h]
  split <;> rfl

theorem startedBy_of_reads (hr : r ∈ Rule.alternatives)
    (h : ruleReading o n r cur = .reads v rest) : Rule.startedBy? cur = some r := by
  by_contra hne
  rw [ruleReading_of_startedBy_ne hr hne] at h
  split at h
  · obtain ⟨m, -, h⟩ := enter_eq_reads_iff.1 h
    obtain ⟨k, -, h⟩ := enter_eq_reads_iff.1 h
    cases h
  · cases h

end

/-- What the alternatives of a value come to: the one that the text starts like, if there is
one. -/
def startedReading (o : Options) (n : Nat) (cur : Text) : Reading Value :=
  match Rule.startedBy? cur with
  | some r => ruleReading o n r cur
  | none => .fails

theorem mem_alternatives_of_startedBy {cur : Text} {r : Rule}
    (h : Rule.startedBy? cur = some r) : r ∈ Rule.alternatives := by
  cases cur with
  | nil => cases h
  | cons c t =>
      rw [Rule.startedBy?] at h
      split_ifs at h <;> cases h <;> decide

/-- The order in which the alternatives are tried does not matter. -/
theorem choice_alternatives {rs : List Rule} (hrs : ∀ r, r ∈ rs ↔ r ∈ Rule.alternatives)
    (o : Options) (n : Nat) (cur : Text) :
    choice (rs.map (ruleReading o (n + 2))) cur = startedReading o (n + 2) cur := by
  refine choice_eq (List.forall_mem_map.2 fun r hr hne => ?_) ?_
  · by_cases hstart : Rule.startedBy? cur = some r
    · rw [startedReading, hstart]
    · rw [ruleReading_of_startedBy_ne ((hrs r).1 hr) hstart] at hne
      split at hne <;> exact absurd rfl hne
  · rw [startedReading]
    cases hstart : Rule.startedBy? cur with
    | none => exact .inl rfl
    | some r =>
        have hr := (hrs r).2 (mem_alternatives_of_startedBy hstart)
        exact .inr ⟨_, List.mem_map_of_mem hr, rfl⟩

namespace Grammar

variable {g : Grammar} {s : Store}

/-! ## Other orders -/

/-- The value rule with its alternatives in another order. -/
def valueRecipeOf (g : Grammar) (rs : List Rule) : Recipe :=
  .pipeTo [g.rule .whitespace, .first (rs.map g.rule), g.rule .whitespace] (Parser.itemOf 1)

theorem valueRecipeOf_alternatives : g.valueRecipeOf Rule.alternatives = g.valueRecipe := rfl

theorem reads_first_rules (rs : List Rule) (n : Nat) :
    (first (rs.map g.rule)).Reads g.Stands (n + 1)
      (choice (rs.map (ruleReading g.options n))) := by
  refine reads_first quiet_stands ?_
  induction rs with
  | nil => exact .nil
  | cons r rs ih => exact .cons ⟨reads_ruleReading r n, isDescribed_rule r⟩ ih

theorem reads_valueRecipeOf {rs : List Rule} (hrs : ∀ r, r ∈ rs ↔ r ∈ Rule.alternatives) (n : Nat) :
    (g.valueRecipeOf rs).Reads g.Stands (n + 3) (valueReading g.options (n + 4)) := by
  have halternatives : (first (rs.map g.rule)).Reads g.Stands (n + 3)
      (tokenReading g.options n (valueReading g.options n)) :=
    (reads_first_rules rs (n + 2)).congr fun cur =>
      (choice_alternatives hrs g.options n cur).trans
        (choice_alternatives (fun _ => .rfl) g.options n cur).symm
  have hpipe := reads_itemOf (i := 1) .null (forall₂_values (.cons
    (reads_rule_whitespace (g := g) (n + 3)) (.cons halternatives
      (.cons (reads_rule_whitespace (n + 3)) .nil)))) (by simp)
  refine hpipe.congr fun cur => ?_
  rw [map_id, valueReading_add_four]
  simp only [sequence_cons, sequence_nil, map_bind, enter_succ, bind_reads, map_reads]
  rfl

/-! ## Loops -/

/-- What is repeated in a row of items: an item with the comma before it, or with the comma
that may follow it. -/
def itemStep (strict : Bool) (item : Recipe) : Recipe :=
  if strict then .pipeTo [word ",", item] (Parser.itemOf 1)
  else .pipeTo [item, optional (word ",")] (Parser.itemOf 0)

theorem items_eq (strict : Bool) (item : Recipe) : items strict item =
    if strict then .pipeTo [item, .many (itemStep true item)] consItems
    else .many1 (itemStep false item) := rfl

/-- The steps of the loops in arrays, in objects and in strings. -/
def loopSteps (g : Grammar) : List Recipe :=
  [itemStep g.options.strict (g.rule .value), itemStep g.options.strict g.pairRecipe,
    .first stringPieces]

theorem consumes_itemStep {item : Recipe} {n : Nat} {f : Text → Reading α} {ι : α → Value}
    (hreads : item.Reads g.Stands n fun cur => (f cur).map ι) (hf : Consumes f) (strict : Bool) :
    ∃ k : Text → Reading Value, (itemStep strict item).Reads g.Stands n k ∧ Consumes k := by
  cases strict with
  | true => exact ⟨_, reads_nextItem hreads, hf.nextItem.map ι⟩
  | false => exact ⟨_, reads_looseItem quiet_stands hreads, (hf.looseItem n).map ι⟩

theorem isStatic_itemStep {item : Recipe} (h : item.IsStatic) (strict : Bool) :
    (itemStep strict item).IsStatic := by
  cases strict with
  | true => exact ⟨⟨isStatic_given _, h, trivial⟩, trivial⟩
  | false => exact ⟨⟨h, ⟨isStatic_given _, isStatic_given _, trivial⟩, trivial⟩, trivial⟩

theorem exists_reading_of_loopStep {step : Recipe} (h : step ∈ g.loopSteps) (n : Nat) :
    step.IsStatic ∧
      ∃ f : Text → Reading Value, step.Reads g.Stands n f ∧ Consumes f := by
  have hvalue : (g.rule .value).Reads g.Stands n fun cur =>
      (valueReading g.options n cur).map id := (reads_value n).congr fun cur => (map_id _).symm
  simp only [loopSteps, List.mem_cons, List.not_mem_nil, or_false] at h
  rcases h with rfl | rfl | rfl
  · exact ⟨isStatic_itemStep (isStatic_given _) _, consumes_itemStep hvalue (consumes_value _ n) _⟩
  · have hpair : g.pairRecipe.IsStatic :=
      ⟨⟨isStatic_given _, isStatic_given _, isStatic_given _, isStatic_given _, isStatic_given _,
        trivial⟩, trivial⟩
    exact ⟨isStatic_itemStep hpair _, consumes_itemStep (reads_pair (reads_value n))
      (consumes_pair _ n) _⟩
  · exact ⟨(isStatic_stringBody false).1, _, reads_pieces quiet_stands, (consumes_piece n).map _⟩

/-- What a run ends in that is never undecided: it runs out of depth, or it has no outcome, or
it has one. What remains then is an end of the text, and a proper one if it has to be. -/
inductive Advance (cur : Text) (proper : Prop) : Except Fault (List Outcome) → Prop where
  | overrun : Advance cur proper (.error .depthExceeded)
  | noOutcome : Advance cur proper (.ok [])
  | outcome (v : Value) {rest : Text} (hsuffix : rest <:+ cur)
    (hlt : proper → rest.length < cur.length) : Advance cur proper (.ok [⟨v, rest⟩])

/-- Makes the parser of a recipe and runs it. -/
def runMade (r : Recipe) (depth : Nat) (cur : Text) : Eval (List Outcome) :=
  r.make >>= fun p => p.parse (.ofDepth depth) cur

/-- A parser that is made while a grammar is in use comes to its reading. -/
theorem exists_runMade {r : Recipe} {n : Nat} {f : Text → Reading Value} (hstatic : r.IsStatic)
    (hreads : r.Reads g.Stands n f) (hs : g.Stands s) (cur : Text) :
    ∃ u, (runMade r n cur).run s = ended (f cur).outcomes u := by
  obtain ⟨p, cs, hmake, hp⟩ := exists_make r hstatic s
  have hstands : g.Stands (s.addChoices cs) := fun q c hq => by
    obtain ⟨cell, hcell, his⟩ := hs q c hq
    exact ⟨cell, hcell, his.extend (s.extends_addChoices cs)⟩
  obtain ⟨u, -, -, hrun⟩ := hreads _ p hp cur _ (.refl _) hstands
  exact ⟨u, (run_bind_ok hmake).trans hrun⟩

theorem isStatic_valueRecipeOf (rs : List Rule) : (g.valueRecipeOf rs).IsStatic := by
  have hrules : AllStatic (rs.map g.rule) := by
    induction rs with
    | nil => trivial
    | cons r rs ih => exact ⟨isStatic_given _, ih⟩
  exact ⟨⟨isStatic_given _, hrules, isStatic_given _, trivial⟩, trivial⟩

theorem InUse.ruleReading_of_run (h : g.InUse s) {r : Rule} {n : Nat} {cur : Text} {o : Outcome}
    {u : Store} (hrun : ((g.parser r).parse (.ofDepth n) cur).run s = .ok [o] u) :
    ruleReading g.options n r cur = .reads o.value o.rest := by
  obtain ⟨u', -, hreading⟩ := h.exists_run_parse n r cur
  rw [hrun] at hreading
  cases hread : ruleReading g.options n r cur with
  | reads v rest =>
      rw [hread] at hreading
      cases hreading
      rfl
  | _ =>
      rw [hread] at hreading
      cases hreading

theorem advance_outcomes {r : Reading Value} {cur : Text} {proper : Prop}
    (h : ∀ v rest, r = .reads v rest → rest <:+ cur ∧ (proper → rest.length < cur.length)) :
    Advance cur proper r.outcomes := by
  cases r with
  | overrun => exact .overrun
  | fails => exact .noOutcome
  | reads v rest =>
      obtain ⟨hsuffix, hlt⟩ := h v rest rfl
      exact .outcome v hsuffix hlt

/-- The rules of a grammar in use are deterministic and make progress. Each has one outcome at
most, which leaves an end of the text, and a shorter text if the rule is not whitespace. No two
alternatives of a value have outcomes on the same text, and with four entries or more a value
comes to the same if they are tried in another order. The step of each loop has one outcome at
most, which leaves a shorter text, so a loop ends where its step has none. -/
theorem rules_advance (h : g.InUse s) :
    (∀ (r : Rule) (n : Nat) (cur : Text), ∃ e u,
      ((g.parser r).parse (.ofDepth n) cur).run s = ended e u ∧ g.InUse u ∧
        Advance cur (r ≠ .whitespace) e) ∧
    (∀ r ∈ Rule.alternatives, ∀ q ∈ Rule.alternatives, ∀ (n m : Nat) (cur : Text) o o' u u',
      ((g.parser r).parse (.ofDepth n) cur).run s = .ok [o] u →
      ((g.parser q).parse (.ofDepth m) cur).run s = .ok [o'] u' → r = q) ∧
    (∀ (n : Nat) (cur : Text), ∃ e,
      (∃ u, ((g.parser .value).parse (.ofDepth (n + 4)) cur).run s = ended e u) ∧
      ∀ rs, rs.Perm Rule.alternatives →
        ∃ u, (runMade (g.valueRecipeOf rs) (n + 3) cur).run s = ended e u) ∧
    ∀ step ∈ g.loopSteps, ∀ (n : Nat) (cur : Text),
      (∃ e u, (runMade step n cur).run s = ended e u ∧ Advance cur True e) ∧
      ∃ e u, (runMade (.many step) n cur).run s = ended e u ∧
        (e = .error .depthExceeded ∨ ∃ vs rest, e = .ok [⟨.list vs, rest⟩] ∧ rest <:+ cur ∧
          ∃ u', (runMade step n rest).run s = .ok [] u') := by
  refine ⟨fun r n cur => ?_, ?_, fun n cur => ?_, fun step hstep n cur => ⟨?_, ?_⟩⟩
  · obtain ⟨u, huse, hrun⟩ := h.exists_run_parse n r cur
    exact ⟨_, u, hrun, huse, advance_outcomes fun v rest => suffix_of_ruleReading⟩
  · intro r hr q hq n m cur o o' u u' hrun hrun'
    have hstart := startedBy_of_reads hr (h.ruleReading_of_run hrun)
    exact Option.some.inj (hstart.symm.trans (startedBy_of_reads hq (h.ruleReading_of_run hrun')))
  · obtain ⟨u, -, hrun⟩ := h.exists_run_parse (n + 4) .value cur
    rw [ruleReading_value] at hrun
    refine ⟨_, ⟨u, hrun⟩, fun rs hrs => ?_⟩
    exact exists_runMade (isStatic_valueRecipeOf rs) (reads_valueRecipeOf (fun _ => hrs.mem_iff) n)
      h.stands cur
  · obtain ⟨hstatic, f, hreads, hf⟩ := exists_reading_of_loopStep hstep n
    obtain ⟨u, hrun⟩ := exists_runMade hstatic hreads h.stands cur
    exact ⟨_, u, hrun, advance_outcomes fun v rest hread =>
      ⟨(hf cur v rest hread).1, fun _ => (hf cur v rest hread).2⟩⟩
  · obtain ⟨hstatic, f, hreads, hf⟩ := exists_reading_of_loopStep hstep n
    have hmany := reads_many (ι := id) (hreads.congr fun cur => (map_id _).symm)
    obtain ⟨u, hrun⟩ := exists_runMade (r := .many step) hstatic hmany h.stands cur
    refine ⟨_, u, hrun, ?_⟩
    cases hread : Reading.many f cur with
    | overrun => exact .inl rfl
    | fails => exact absurd hread (many_ne_fails cur)
    | reads vs rest =>
        obtain ⟨hsuffix, hfails⟩ := hf.many_ends hread
        obtain ⟨u', hlast⟩ := exists_runMade hstatic hreads h.stands rest
        rw [hfails] at hlast
        exact .inr ⟨_, rest, rfl, hsuffix, u', hlast⟩

/-- A constant, read by the value rule with its alternatives from the last to the first. -/
theorem rules_advance_reversed :
    let g : Grammar := ⟨{}, 0⟩
    let s := (create {}).leaves {}
    g.InUse s ∧ ∃ u, (runMade (g.valueRecipeOf Rule.alternatives.reverse) (depthLimit - 1)
      (text "true]")).run s = .ok [⟨.bool true, text "]"⟩] u := by
  intro g s
  have huse : g.InUse s := .created (s := {}) rfl
  have hblank : IsBlank [] := nofun
  have hfits : (Document.bool true).Fits {} (text "]") := ⟨trivial, fun _ => trivial, trivial⟩
  have hread : valueReading {} depthLimit (text "true]") = .reads (.bool true) (text "]") :=
    (valueReading_document hblank hfits).trans rfl
  obtain ⟨w, hstart⟩ := huse.parseStart_eq_ok_iff.2 hread
  obtain ⟨-, -, horder, -⟩ := rules_advance huse
  obtain ⟨e, ⟨u, hrun⟩, hrs⟩ := horder 496 (text "true]")
  obtain ⟨u', hreversed⟩ := hrs _ (List.reverse_perm _)
  have hend : ended e u = ended (.ok [⟨.bool true, text "]"⟩]) w := hrun.symm.trans hstart
  obtain ⟨rfl, -⟩ := ended_inj hend
  exact ⟨huse, u', hreversed⟩

end Grammar

end Json

end Descent
