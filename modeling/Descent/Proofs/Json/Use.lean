import Descent.Proofs.Json.History

/-!
# Grammars in use

`InUse` says in which stores a grammar can be met: it was made, its rules were
asked for anything or built, and all else may have changed but the grammar itself.
Its cells are then as they were made or built, none is in between. So a whole text
has a value or is refused as no parse, as too deep or with something left over; it
does not matter what the text is and what was asked before.
-/

namespace Descent

namespace Json

open Eval

namespace Grammar

variable {g : Grammar} {s t : Store}

/-- The cells of the grammar are the same in the second store, and what its rules are built to
is still made of the same choices. All else may differ: other cells, choices and grammars,
names, the trace. -/
structure SparedBy (g : Grammar) (s t : Store) : Prop where
  cells : ∀ r c, g.parser r = .lazy c → t.lazies[c]? = s.lazies[c]?
  made : ∀ r c p, g.parser r = .lazy c → s.lazies[c]? = some (g.builtCell r p) →
    (g.recipe r).IsMade s p → (g.recipe r).IsMade t p

/-- The stores in which a grammar is met between runs of its rules. -/
inductive InUse (g : Grammar) : Store → Prop
  | created {o : Options} {s u : Store} : (create o).run s = .ok g u → InUse g u
  /-- A rule was asked, at any depth, and answered or ended in a fault. -/
  | asked {s : Store} (depth : Nat) (r : Rule) (cur : Text) (mode : Mode) :
      InUse g s → InUse g (((g.parser r).runMode (.ofDepth depth) cur mode).leaves s)
  /-- A rule was built without a text, or there was no depth to build it. -/
  | forced {s : Store} (depth : Nat) {r : Rule} {c : Nat} (hr : g.parser r = .lazy c) :
      InUse g s → InUse g (((Entry.ofDepth depth).force c).leaves s)
  /-- Something else happened. -/
  | elsewhere {s t : Store} : InUse g s → g.SparedBy s t → InUse g t

theorem Stands.of_sparedBy (h : g.Stands s) (hst : g.SparedBy s t) : g.Stands t := by
  intro r c hr
  obtain ⟨cell, hcell, hmade⟩ := h r c hr
  refine ⟨cell, (hst.cells r c hr).trans hcell, ?_⟩
  rcases hmade with hidle | ⟨p, hp, hbuilt⟩
  · exact .inl hidle
  · exact .inr ⟨p, hst.made r c p hr (hbuilt ▸ hcell) hp, hbuilt⟩

/-- A grammar stands in every store in which it is met. -/
theorem InUse.stands (h : g.InUse s) : g.Stands s := by
  induction h with
  | @created o s u hcreate =>
      obtain ⟨w, hrun, -, hw⟩ := exists_create o s
      rw [hrun] at hcreate
      cases hcreate
      exact hw
  | @asked s depth r cur mode _ ih =>
      obtain ⟨u, -, hu, hrun⟩ := computes_answer depth r cur mode s s (.refl s) ih
      rw [leaves_of_run hrun]
      exact hu
  | @forced s depth r c hr _ ih =>
      cases depth with
      | zero => exact quiet_stands s s.pieces (s.overruns + 1) ih
      | succ n =>
          obtain ⟨p, u, hforce, -, hu, -⟩ := exists_force hr (Entry.ofDepth n) ih
          change g.Stands (((Entry.ofDepth n).buildLazy c).leaves s)
          rw [leaves, hforce]
          exact hu
  | elsewhere _ hst ih => exact ih.of_sparedBy hst

/-- Nothing is done to the grammar if no cell and no choice changes. -/
theorem sparedBy_of_eq (g : Grammar) (hlazies : t.lazies = s.lazies)
    (hchoices : t.choices = s.choices) : g.SparedBy s t where
  cells _ c _ := by rw [hlazies]
  made _ _ _ _ _ hp := hp.of_choices fun c ps h => by rwa [hchoices]

/-! ## Sessions -/

theorem leaves_step {name : String} (h : Knows name g s) (e : Entry) (q : Request) :
    ((q.step name).perform e).leaves s =
      ((g.parser q.rule).runMode e q.text q.mode).leaves s := by
  have hmake : (Recipe.rule (some name) {} q.rule).make.run s = .ok (g.parser q.rule) s := by
    rw [Recipe.make, run_bind_ok h.run_grammarNamed]
    rfl
  have hrun : ((q.step name).perform e).run s =
      ((g.parser q.rule).runMode e q.text q.mode).run s :=
    run_bind_ok hmake
  rw [leaves, leaves, hrun]

theorem InUse.history {name : String} (depth : Nat) (hknows : Knows name g s) (h : g.InUse s)
    (history : List Request) :
    g.InUse (Session.run (.ofDepth depth) (history.map (Request.step name)) s).2 := by
  induction history generalizing s with
  | nil => exact h
  | cons q history ih =>
      obtain ⟨u, hrun, -, hu⟩ := exists_perform depth hknows q
      have hleaves : u = ((q.step name).perform (.ofDepth depth)).leaves
          (s.withLog [] s.overruns) :=
        (congrArg Prod.snd hrun).symm.trans (Session.perform_snd _ _ s)
      rw [leaves_step (hknows.withLog [] s.overruns)] at hleaves
      have hlog : g.InUse (s.withLog [] s.overruns) := h.elsewhere (g.sparedBy_of_eq rfl rfl)
      have huse : g.InUse u := by
        rw [hleaves]
        exact hlog.asked depth q.rule q.text q.mode
      rw [List.map_cons, Session.run_snd_cons, hrun]
      exact ih hu huse

/-- A session that makes a grammar and asks it leaves the grammar in use. -/
theorem inUse_storeAfter (depth : Nat) (name : String) (o : Options) (history : List Request)
    (s : Store) :
    (Grammar.mk o s.lazies.size).InUse (storeAfter (.ofDepth depth) name o history s) := by
  obtain ⟨u, hcreate, -, -⟩ := exists_create o (s.withLog [] s.overruns)
  let g : Grammar := ⟨o, s.lazies.size⟩
  let v : Store := { u with grammars := (name, g) :: u.grammars }
  have hstart : Session.perform (.ofDepth depth) (.grammar name o) s = (.ok .done, v) :=
    Session.perform_of_run (run_bind_ok hcreate)
  have hv : g.InUse v :=
    (InUse.created hcreate).elsewhere (g.sparedBy_of_eq rfl rfl)
  have hknows : Knows name g v := ⟨by simp [Store.lookup?, v], hv.stands⟩
  rw [storeAfter, Session.run_snd_cons, hstart]
  exact hv.history depth hknows history

/-! ## Whole texts -/

/-- What can come of a whole text: a value, no parse, a nesting that is too deep, or a value
with something left over. -/
inductive Ending (description : Text) : Except Fault Value → Prop
  | value (v : Value) : Ending description (.ok v)
  | noParse : Ending description (.error (.noParse description))
  | nestedTooDeep : Ending description (.error (.nestedTooDeep description))
  | leftover (v : Value) (c : CodePoint) (rest : Text) :
      Ending description (.error (.leftover v (c :: rest)))

theorem ending_tried (description : Text) (r : Reading Value) :
    Ending description (tried description true r) := by
  cases r with
  | overrun => exact .nestedTooDeep
  | fails => exact .noParse
  | reads v rest =>
      cases rest with
      | nil => exact .value v
      | cons c rest => exact .leftover v c rest

/-- A rule that is asked for its outcomes has those of its reading, and the grammar is in use
again then. -/
theorem InUse.exists_run_parse (h : g.InUse s) (depth : Nat) (r : Rule) (cur : Text) :
    ∃ u, g.InUse u ∧ ((g.parser r).parse (.ofDepth depth) cur).run s =
      ended (ruleReading g.options depth r cur).outcomes u := by
  obtain ⟨u, -, -, hrun⟩ := computes_parse depth r cur s s (.refl s) h.stands
  have huse := h.asked depth r cur .stored
  rw [Parser.runMode, leaves_bind_pure, leaves_of_run hrun] at huse
  exact ⟨u, huse, hrun⟩

theorem InUse.exists_run_tryParse (h : g.InUse s) (depth : Nat) (r : Rule) (cur : Text) :
    ∃ u, g.InUse u ∧ ((g.parser r).tryParse (.ofDepth depth) cur true).run s =
      ended (tried r.description true (ruleReading g.options depth r cur)) u := by
  obtain ⟨u, -, -, hrun⟩ := computes_tryParse depth r cur true s s (.refl s) h.stands
  have huse := h.asked depth r cur .whole
  rw [Parser.runMode, leaves_bind_pure, leaves_of_run hrun] at huse
  exact ⟨u, huse, hrun⟩

theorem InUse.parseStart_eq_ok_iff (h : g.InUse s) {depth : Nat} {t rest : Text} {v : Value} :
    (∃ u, (g.parseStart (.ofDepth depth) t).run s = .ok [⟨v, rest⟩] u) ↔
      valueReading g.options depth t = .reads v rest := by
  obtain ⟨u, -, hrun⟩ := h.exists_run_parse depth .value t
  rw [ruleReading_value] at hrun
  rw [parseStart, hrun]
  cases valueReading g.options depth t with
  | overrun => exact ⟨fun ⟨_, h⟩ => (nomatch h), fun h => (nomatch h)⟩
  | fails => exact ⟨fun ⟨_, h⟩ => (nomatch h), fun h => (nomatch h)⟩
  | reads w more =>
      constructor
      · rintro ⟨_, ⟨⟩⟩
        rfl
      · rintro ⟨⟩
        exact ⟨u, rfl⟩

theorem InUse.parseText_eq_ok_iff (h : g.InUse s) {depth : Nat} {t : Text} {v : Value} :
    (∃ u, (g.parseText (.ofDepth depth) t).run s = .ok v u) ↔
      valueReading g.options depth t = .reads v [] := by
  obtain ⟨u, -, hrun⟩ := h.exists_run_tryParse depth .value t
  rw [ruleReading_value] at hrun
  rw [parseText, hrun]
  constructor
  · rintro ⟨_, hok⟩
    cases htried : tried Rule.value.description true (valueReading g.options depth t) with
    | error f =>
        rw [htried] at hok
        cases hok
    | ok w =>
        rw [htried] at hok
        cases hok
        exact eq_of_tried htried
  · intro hread
    rw [hread]
    exact ⟨u, rfl⟩

/-- A grammar parses any text to a value or refuses it in one of the three ways, whatever has
happened before, and no other fault leaves the parse. The grammar is in use again then. -/
theorem parseText_ends (h : g.InUse s) (depth : Nat) (t : Text) :
    ∃ r u, (g.parseText (.ofDepth depth) t).run s = ended r u ∧
      Ending Rule.value.description r ∧ g.InUse u := by
  obtain ⟨u, huse, hrun⟩ := h.exists_run_tryParse depth .value t
  exact ⟨_, u, hrun, ending_tried _ _, huse⟩

/-- A surrogate half without its string's end, asked of a grammar that ran out of depth. -/
theorem parseText_ends_after_overrun :
    let g : Grammar := ⟨{ combine := true }, 0⟩
    let s := ((g.parser .value).runMode (.ofDepth 2) (text "[[") .stored).leaves
      ((create g.options).leaves {})
    g.InUse s ∧ ∃ r u, (g.parseText (.ofDepth depthLimit) (text "\"\\ud83d")).run s = ended r u ∧
      Ending Rule.value.description r ∧ g.InUse u :=
  have huse := (InUse.created (g := ⟨{ combine := true }, 0⟩) (s := {}) rfl).asked 2 .value
    (text "[[") .stored
  ⟨huse, parseText_ends huse depthLimit (text "\"\\ud83d")⟩

end Grammar

end Json

end Descent
