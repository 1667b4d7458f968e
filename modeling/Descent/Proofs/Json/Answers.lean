import Descent.Json.Parse
import Descent.Proofs.Json.Rules

/-!
# Answers of a grammar

Whatever is asked of a rule of a grammar that stands, the answer is a function of
the options, the depth, the rule, the text and the mode alone. The value of a
whole text is the case of `parse`.
-/

namespace Descent

namespace Json

open Eval Reading Recipe

/-- What a rule reads once it has been entered. -/
def recipeReading (o : Options) (depth : Nat) : Rule → Text → Reading Value
  | .whitespace, cur => .reads (.str (cur.takeWhile isBlank)) (skipBlanks cur)
  | .number, cur => numberReading depth cur
  | .string, cur => (stringReading o depth cur).map .str
  | .true, cur => constantReading "true" (.bool true) cur
  | .false, cur => constantReading "false" (.bool false) cur
  | .null, cur => constantReading "null" .null cur
  | .array, cur => enter depth fun n => arrayReading o n (valueReading o n) cur
  | .object, cur => enter depth fun n => objectReading o n (valueReading o n) cur
  | .value, cur => valueReading o (depth + 1) cur

namespace Rule

/-- The constants are no lazy rules, and entering them takes no depth. -/
def isLazy : Rule → Bool
  | .true => Bool.false
  | .false => Bool.false
  | .null => Bool.false
  | _ => Bool.true

/-- How the parser of a rule is described. -/
def description (r : Rule) : Text :=
  if r.isLazy then text "<Lazy:" ++ text r.name ++ text ">" else Parser.describeName (text "map")

end Rule

/-- What a rule reads. -/
def ruleReading (o : Options) (depth : Nat) (r : Rule) (cur : Text) : Reading Value :=
  if r.isLazy then enter depth fun n => recipeReading o n r cur else recipeReading o depth r cur

/-- The value of a reading, or the fault that tells why there is none. -/
def tried (description : Text) (whole : Bool) : Reading Value → Except Fault Value
  | .overrun => .error (.nestedTooDeep description)
  | .fails => .error (.noParse description)
  | .reads v rest => if whole && !rest.isEmpty then .error (.leftover v rest) else .ok v

theorem eq_of_tried {p : Text} {r : Reading Value} {v : Value} (h : tried p true r = .ok v) :
    r = .reads v [] := by
  cases r with
  | overrun => cases h
  | fails => cases h
  | reads w rest =>
      cases rest with
      | nil =>
          cases h
          rfl
      | cons c rest => cases h

/-- What a rule answers. A rule that is run by its method is forced first, and then what it
is built to is run. -/
def answer (o : Options) (depth : Nat) (r : Rule) (cur : Text) : Mode → Except Fault Answer
  | .stored => (ruleReading o depth r cur).outcomes.map .outcomes
  | .method =>
    (if depth = 0 then ruleReading o 0 r cur
      else recipeReading o depth r cur).outcomes.map .outcomes
  | .whole => (tried r.description true (ruleReading o depth r cur)).map .value
  | .part => (tried r.description false (ruleReading o depth r cur)).map .value

namespace Grammar

variable {g : Grammar}

theorem reads_recipe (r : Rule) (depth : Nat) :
    (g.recipe r).Reads g.Stands depth (recipeReading g.options depth r) := by
  cases r with
  | whitespace => exact reads_whitespace
  | number => exact reads_number quiet_stands
  | string => exact reads_string quiet_stands g.options
  | true => exact reads_constant "true" (.bool true)
  | false => exact reads_constant "false" (.bool false)
  | null => exact reads_constant "null" .null
  | array =>
      cases depth with
      | zero => exact reads_first_zero quiet_stands _
      | succ n => exact reads_array (reads_value n)
  | object =>
      cases depth with
      | zero => exact reads_first_zero quiet_stands _
      | succ n => exact reads_object (reads_value n)
  | value => exact reads_valueRecipe fun d _ => reads_value d

theorem exists_cell {r : Rule} (h : r.isLazy = true) : ∃ c, g.parser r = .lazy c := by
  cases r with
  | true => cases h
  | false => cases h
  | null => cases h
  | _ => exact ⟨_, rfl⟩

theorem reads_ruleReading (r : Rule) (depth : Nat) :
    (g.rule r).Reads g.Stands depth (ruleReading g.options depth r) := by
  cases h : r.isLazy with
  | false =>
      cases r with
      | true => exact reads_recipe .true depth
      | false => exact reads_recipe .false depth
      | null => exact reads_recipe .null depth
      | _ => cases h
  | true =>
      obtain ⟨c, hr⟩ := exists_cell (g := g) h
      refine (reads_rule (ι := id) (f := fun n cur => recipeReading g.options n r cur) hr
        fun n _ => (reads_recipe r n).congr fun cur => (map_id _).symm).congr fun cur => ?_
      rw [map_id, ruleReading, if_pos h]

theorem computes_parse (depth : Nat) (r : Rule) (cur : Text) (s : Store) :
    Computes g.Stands s ((g.parser r).parse (.ofDepth depth) cur)
      (ruleReading g.options depth r cur).outcomes :=
  reads_ruleReading r depth s _ rfl cur

theorem computes_description (r : Rule) (e : Entry) (s : Store) :
    Computes g.Stands s ((g.parser r).describe e) (.ok r.description) := by
  cases r with
  | true => exact Computes.pure _
  | false => exact Computes.pure _
  | null => exact Computes.pure _
  | _ => exact computes_describe rfl e s

/-! ## Modes -/

/-- A fault that names the rule, after a line of the trace that names it. -/
theorem computes_refusal {β : Type} (r : Rule) (e : Entry) (head : Text) (f : Text → Fault)
    (s : Store) :
    Computes g.Stands s
      (traceLine head ((g.parser r).describe e) >>= fun _ => (g.parser r).describe e >>= fun d =>
        (throw (f d) : Eval β))
      (.error (f r.description)) := by
  refine Computes.bind (k := fun _ => .error (f r.description))
    (computes_traceLine quiet_stands (computes_description r e s)) fun _ _ => ?_
  refine Computes.bind (k := fun d => .error (f d)) (computes_description r e s) fun d _ => ?_
  exact Computes.ofExcept (.error (f d))

theorem computes_tryParse (depth : Nat) (r : Rule) (cur : Text) (whole : Bool) (s : Store) :
    Computes g.Stands s ((g.parser r).tryParse (.ofDepth depth) cur whole)
      (tried r.description whole (ruleReading g.options depth r cur)) := by
  have hparse := computes_parse (g := g) depth r cur s
  cases hr : ruleReading g.options depth r cur with
  | overrun =>
      rw [hr] at hparse
      have hrefusal := computes_refusal (g := g) (β := List Outcome) r (.ofDepth depth)
        (text "tryparse: recursion limit on") .nestedTooDeep s
      refine Computes.bind (k := fun _ => .error .depthExceeded)
        (r := .error (.nestedTooDeep r.description)) ?_ fun _ h => nomatch h
      exact hparse.tryCatch_error hrefusal
  | fails =>
      rw [hr] at hparse
      refine Computes.bind (k := fun _ => .error (.noParse r.description)) hparse.tryCatch_ok ?_
      rintro _ ⟨⟩
      exact computes_refusal r _ (text "tryparse: no parse on") .noParse s
  | reads v rest =>
      rw [hr] at hparse
      refine Computes.bind (k := fun _ => tried r.description whole (.reads v rest))
        hparse.tryCatch_ok ?_
      rintro _ ⟨⟩
      cases hw : whole && !rest.isEmpty with
      | false =>
          simp only [tried, hw, Bool.false_eq_true, if_false]
          exact Computes.pure v
      | true =>
          simp only [tried, hw, if_true]
          refine Computes.bind (k := fun _ => .error _)
            (computes_traceLine quiet_stands (Computes.pure rest.quoted)) fun _ _ => ?_
          exact Computes.ofExcept (.error (.leftover v rest))

theorem computes_method (depth : Nat) (r : Rule) (cur : Text) (s : Store) :
    Computes g.Stands s ((g.parser r).parseByMethod (.ofDepth depth) cur)
      (if depth = 0 then ruleReading g.options 0 r cur
        else recipeReading g.options depth r cur).outcomes := by
  cases h : r.isLazy with
  | false =>
      have hparse := computes_parse (g := g) depth r cur s
      have hreading : ruleReading g.options depth r cur = recipeReading g.options depth r cur := by
        rw [ruleReading, h]
        rfl
      have hsame : (if depth = 0 then ruleReading g.options 0 r cur
          else recipeReading g.options depth r cur) = ruleReading g.options depth r cur := by
        split
        case isTrue h0 => rw [h0]
        case isFalse => rw [hreading]
      rw [hsame]
      cases r with
      | true => exact hparse
      | false => exact hparse
      | null => exact hparse
      | _ => cases h
  | true =>
      obtain ⟨c, hr⟩ := exists_cell (g := g) h
      rw [hr]
      cases depth with
      | zero =>
          rw [if_pos rfl, ruleReading, if_pos h]
          exact Computes.bind (k := fun _ => .ok []) (computes_overrun quiet_stands)
            fun _ h => nomatch h
      | succ n =>
          rw [if_neg (Nat.succ_ne_zero n)]
          intro t _ ht
          obtain ⟨p, u, hforce, htu, hu, hp⟩ := exists_force hr (Entry.ofDepth n) ht
          obtain ⟨v, huv, hv, hrun⟩ := reads_recipe r (n + 1) u p hp cur u (.refl u) hu
          exact ⟨v, htu.trans huv, hv, (run_bind_ok hforce).trans hrun⟩

theorem computes_answer (depth : Nat) (r : Rule) (cur : Text) (mode : Mode) (s : Store) :
    Computes g.Stands s ((g.parser r).runMode (.ofDepth depth) cur mode)
      (answer g.options depth r cur mode) := by
  have hmap {β : Type} {m : Eval β} {x : Except Fault β} (f : β → Answer)
      (h : Computes g.Stands s m x) :
      Computes g.Stands s (m >>= fun b => pure (f b)) (x.map f) := by
    have hbind : Computes g.Stands s (m >>= fun b => pure (f b)) (x >>= fun b => .ok (f b)) :=
      h.bind fun b _ => Computes.pure (f b)
    cases x <;> exact hbind
  cases mode with
  | stored => exact hmap _ (computes_parse depth r cur s)
  | method => exact hmap _ (computes_method depth r cur s)
  | whole => exact hmap _ (computes_tryParse depth r cur true s)
  | part => exact hmap _ (computes_tryParse depth r cur false s)

end Grammar

theorem ruleReading_value (o : Options) (depth : Nat) (cur : Text) :
    ruleReading o depth .value cur = valueReading o depth cur := by
  cases depth <;> rfl

/-- A new grammar reads a whole text as the value rule does. -/
theorem exists_run_parseText (o : Options) (depth : Nat) (t : Text) (s : Store) :
    ∃ u, (Grammar.create o >>= fun g => g.parseText (.ofDepth depth) t).run s =
      ended (tried Rule.value.description true (valueReading o depth t)) u := by
  obtain ⟨u, hcreate, -, hu⟩ := Grammar.exists_create o s
  obtain ⟨v, -, -, hrun⟩ := Grammar.computes_tryParse depth .value t true u u (.refl u) hu
  rw [ruleReading_value] at hrun
  exact ⟨v, (run_bind_ok hcreate).trans hrun⟩

theorem parse_of_run {o : Options} {t : Text} {r : Except Fault Value} {u : Store}
    (h : (Grammar.create o >>= fun g => g.parseText (.ofDepth depthLimit) t).run {} = ended r u) :
    parse o t = r := by
  unfold parse
  simp only [h]
  cases r <;> rfl

/-- The value of a whole text, as the value rule reads it. -/
theorem parse_eq_tried (o : Options) (t : Text) :
    parse o t = tried Rule.value.description true (valueReading o depthLimit t) := by
  obtain ⟨u, hrun⟩ := exists_run_parseText o depthLimit t {}
  exact parse_of_run hrun

end Json

end Descent
