import Descent.Proofs.Json.Answers

/-!
# Grammars have no memory

A session makes a grammar and then runs its rules, in any order, on any texts and
in any mode. Every run keeps the cells of the grammar as `Stands` says and all
that is built, so its answer is the one of a new grammar, and a builder that has
ended is not started again.
-/

namespace Descent

namespace Json

open Eval

/-- What is asked of a grammar. -/
structure Request where
  rule : Rule
  text : Text
  mode : Mode

/-- The step that asks it of the grammar of that name. -/
def Request.step (name : String) (q : Request) : Step :=
  .run (.rule (some name) {} q.rule) q.text q.mode

/-- The grammar has the name, and stands. -/
def Knows (name : String) (g : Grammar) (s : Store) : Prop :=
  Store.lookup? name s.grammars = some g ∧ g.Stands s

/-- The store after a grammar is made and then asked. -/
def storeAfter (e : Entry) (name : String) (o : Options) (history : List Request) (s : Store) :
    Store :=
  (Session.run e (.grammar name o :: history.map (Request.step name)) s).2

variable {name : String} {g : Grammar} {s : Store}

theorem Knows.withLog (h : Knows name g s) (pieces : List Text) (overruns : Nat) :
    Knows name g (s.withLog pieces overruns) :=
  ⟨h.1, Grammar.quiet_stands s pieces overruns h.2⟩

theorem Knows.run_grammarNamed (h : Knows name g s) : (grammarNamed name).run s = .ok g s := by
  rw [grammarNamed, run_bind_ok (EStateM.run_get s), h.1]
  rfl

/-- A step that asks a grammar has the answer of its rule, and keeps the grammar. -/
theorem exists_perform (depth : Nat) (h : Knows name g s) (q : Request) :
    ∃ u, Session.perform (.ofDepth depth) (q.step name) s =
        (answer g.options depth q.rule q.text q.mode, u) ∧ s.Extends u ∧ Knows name g u := by
  let t : Store := s.withLog [] s.overruns
  have ht : Knows name g t := h.withLog [] s.overruns
  obtain ⟨u, htu, hu, hrun⟩ :=
    Grammar.computes_answer depth q.rule q.text q.mode t t (.refl t) ht.2
  have hmake : (Recipe.rule (some name) {} q.rule).make.run t = .ok (g.parser q.rule) t := by
    rw [Recipe.make, run_bind_ok ht.run_grammarNamed]
    rfl
  refine ⟨u, Session.perform_of_run ((run_bind_ok hmake).trans hrun), ?_, ?_, hu⟩
  · exact (s.extends_withLog [] s.overruns).trans htu
  · rw [htu.grammars]
    exact ht.1

theorem exists_history (depth : Nat) (h : Knows name g s) (history : List Request) :
    s.Extends (Session.run (.ofDepth depth) (history.map (Request.step name)) s).2 ∧
      Knows name g (Session.run (.ofDepth depth) (history.map (Request.step name)) s).2 := by
  induction history generalizing s with
  | nil => exact ⟨.refl s, h⟩
  | cons q history ih =>
      obtain ⟨u, hrun, hsu, hu⟩ := exists_perform depth h q
      obtain ⟨hext, hknows⟩ := ih hu
      rw [List.map_cons, Session.run_snd_cons, hrun]
      exact ⟨hsu.trans hext, hknows⟩

theorem exists_start (depth : Nat) (name : String) (o : Options) (s : Store) :
    ∃ u, Session.perform (.ofDepth depth) (.grammar name o) s = (.ok .done, u) ∧
      Knows name ⟨o, s.lazies.size⟩ u := by
  obtain ⟨u, hcreate, -, hu⟩ := Grammar.exists_create o (s.withLog [] s.overruns)
  let g : Grammar := ⟨o, s.lazies.size⟩
  refine ⟨{ u with grammars := (name, g) :: u.grammars },
    Session.perform_of_run (run_bind_ok hcreate), ?_, ?_⟩
  · simp [Store.lookup?, g]
  · intro r c hr
    obtain ⟨cell, hcell, his | ⟨p, hp, his⟩⟩ := hu r c hr
    · exact ⟨cell, hcell, .inl his⟩
    · have hmade := Recipe.IsMade.of_choices (s := u)
        (t := { u with grammars := (name, g) :: u.grammars }) (fun _ _ h => h) hp
      exact ⟨cell, hcell, .inr ⟨p, hmade, his⟩⟩

/-- After any history the grammar stands, and what is built then stays. -/
theorem exists_storeAfter (depth : Nat) (name : String) (o : Options)
    (history more : List Request) (s : Store) :
    Knows name ⟨o, s.lazies.size⟩ (storeAfter (.ofDepth depth) name o history s) ∧
      (storeAfter (.ofDepth depth) name o history s).Extends
        (storeAfter (.ofDepth depth) name o (history ++ more) s) := by
  obtain ⟨u, hstart, hu⟩ := exists_start depth name o s
  have hafter (history : List Request) : storeAfter (.ofDepth depth) name o history s =
      (Session.run (.ofDepth depth) (history.map (Request.step name)) u).2 := by
    rw [storeAfter, Session.run_snd_cons, hstart]
  have hknows := (exists_history depth hu history).2
  rw [hafter, hafter, List.map_append, Session.run_snd_append]
  exact ⟨hknows, (exists_history depth hknows more).1⟩

/-- A grammar has no memory: after any history of runs a rule answers as on a new grammar of
the same options. The builder of a rule is started at most once in the whole history, and a
rule that is built stays as it is. -/
theorem answer_after_history (depth : Nat) (name : String) (o : Options) (history : List Request)
    (q : Request) (s fresh : Store) :
    (Session.perform (.ofDepth depth) (q.step name)
        (storeAfter (.ofDepth depth) name o history s)).1 =
      (Session.perform (.ofDepth depth) (q.step name)
        (storeAfter (.ofDepth depth) name o [] fresh)).1 ∧
    ∀ before after, history = before ++ after → ∀ r c,
      (Grammar.mk o s.lazies.size).parser r = .lazy c →
      ∃ earlier later : LazyCell,
        (storeAfter (.ofDepth depth) name o before s).lazies[c]? = some earlier ∧
        (storeAfter (.ofDepth depth) name o history s).lazies[c]? = some later ∧
        later.starts = (if later.isBuilt then 1 else 0) ∧ later.failures = 0 ∧
        later.isBuilding = false ∧ (earlier.isBuilt = true → later = earlier) := by
  constructor
  · obtain ⟨hknows, -⟩ := exists_storeAfter depth name o history [] s
    obtain ⟨hfresh, -⟩ := exists_storeAfter depth name o [] [] fresh
    obtain ⟨u, hrun, -, -⟩ := exists_perform depth hknows q
    obtain ⟨v, hrun', -, -⟩ := exists_perform depth hfresh q
    rw [hrun, hrun']
  · rintro before after rfl r c hr
    obtain ⟨hearly, hext⟩ := exists_storeAfter depth name o before after s
    obtain ⟨hlate, -⟩ := exists_storeAfter depth name o (before ++ after) [] s
    obtain ⟨earlier, hearlier, -⟩ := hearly.2 r c hr
    obtain ⟨later, hlater, his⟩ := hlate.2 r c hr
    have hkept (hb : earlier.isBuilt = true) : later = earlier := by
      have hsame := hext.built c earlier hearlier hb
      rw [hlater] at hsame
      exact Option.some.inj hsame
    refine ⟨earlier, later, hearlier, hlater, ?_, ?_, ?_, hkept⟩
    all_goals
      rcases his with rfl | ⟨p, -, rfl⟩
      · rfl
      · rfl

end Json

end Descent
