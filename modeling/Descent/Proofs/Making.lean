import Descent.Proofs.Store

/-!
# What recipes make

A static recipe uses no names and makes no lazy
parser; carrying it out adds choices to the store and does nothing else.
`IsMade s p` says that `p` is a parser that the recipe makes, with its choices in
the store `s`, and it stays so in every store that extends `s`.
-/

namespace Descent

mutual

/-- The recipe uses no names, no faults and no lazy parsers of its own. -/
def Recipe.IsStatic : Recipe → Prop
  | .ready r => ∃ p, r = .ok p
  | .map of _ => of.IsStatic
  | .chain of inner _ => of.IsStatic ∧ Recipe.AllStatic inner
  | .many of => of.IsStatic
  | .first of => Recipe.AllStatic of
  | .pipe of inner _ => Recipe.AllStatic of ∧ Recipe.AllStatic inner
  | _ => False

def Recipe.AllStatic : List Recipe → Prop
  | [] => True
  | r :: rs => r.IsStatic ∧ Recipe.AllStatic rs

end

mutual

/-- The parser is one that the recipe makes, and its choices are in the store. -/
def Recipe.IsMade (s : Store) : Recipe → Parser → Prop
  | .ready r, p => r = .ok p
  | .map of f, p => ∃ q, of.IsMade s q ∧ p = .map q f
  | .chain of inner next, p =>
    ∃ q ps, of.IsMade s q ∧ Recipe.AllMade s inner ps ∧ p = .chain q (next ps)
  | .many of, p => ∃ q, of.IsMade s q ∧ p = .many q
  | .first of, p => ∃ c ps, Recipe.AllMade s of ps ∧ s.choices[c]? = some ps ∧ p = .first c
  | .pipe of inner handler, p =>
    ∃ ps qs, Recipe.AllMade s of ps ∧ Recipe.AllMade s inner qs ∧ p = .pipe ps (handler qs)
  | _, _ => False

def Recipe.AllMade (s : Store) : List Recipe → List Parser → Prop
  | [], ps => ps = []
  | r :: rs, ps => ∃ q qs, r.IsMade s q ∧ Recipe.AllMade s rs qs ∧ ps = q :: qs

end

namespace Recipe

mutual

/-- What is made needs its choices only. -/
theorem IsMade.of_choices {s t : Store}
    (h : ∀ (c : Nat) ps, s.choices[c]? = some ps → t.choices[c]? = some ps) :
    ∀ {r : Recipe} {p : Parser}, r.IsMade s p → r.IsMade t p
  | .ready _, _, hp => hp
  | .map _ _, _, ⟨q, hq, hp⟩ => ⟨q, hq.of_choices h, hp⟩
  | .chain _ _ _, _, ⟨q, ps, hq, hps, hp⟩ => ⟨q, ps, hq.of_choices h, AllMade.of_choices h hps, hp⟩
  | .many _, _, ⟨q, hq, hp⟩ => ⟨q, hq.of_choices h, hp⟩
  | .first _, _, ⟨c, ps, hps, hc, hp⟩ => ⟨c, ps, AllMade.of_choices h hps, h c ps hc, hp⟩
  | .pipe _ _ _, _, ⟨ps, qs, hps, hqs, hp⟩ =>
    ⟨ps, qs, AllMade.of_choices h hps, AllMade.of_choices h hqs, hp⟩

theorem AllMade.of_choices {s t : Store}
    (h : ∀ (c : Nat) ps, s.choices[c]? = some ps → t.choices[c]? = some ps) :
    ∀ {rs : List Recipe} {ps : List Parser}, AllMade s rs ps → AllMade t rs ps
  | [], _, hps => hps
  | _ :: _, _, ⟨q, qs, hq, hqs, hps⟩ => ⟨q, qs, hq.of_choices h, AllMade.of_choices h hqs, hps⟩

end

theorem IsMade.extend {s t : Store} (h : s.Extends t) {r : Recipe} {p : Parser}
    (hp : r.IsMade s p) : r.IsMade t p :=
  hp.of_choices h.choices

theorem AllMade.extend {s t : Store} (h : s.Extends t) {rs : List Recipe} {ps : List Parser}
    (hps : AllMade s rs ps) : AllMade t rs ps :=
  AllMade.of_choices h.choices hps

mutual

/-- A static recipe makes a parser and adds choices. -/
theorem exists_make : ∀ r : Recipe, r.IsStatic → ∀ s : Store,
    ∃ p cs, r.make.run s = .ok p (s.addChoices cs) ∧ r.IsMade (s.addChoices cs) p
  | .ready _, ⟨p, hp⟩, s => ⟨p, #[], by
      rw [make, hp, Store.addChoices_empty]
      rfl, hp⟩
  | .map of f, h, s => by
      obtain ⟨q, cs, hrun, hq⟩ := exists_make of h s
      refine ⟨.map q f, cs, ?_, q, hq, rfl⟩
      rw [make, Eval.run_bind_ok hrun]
      rfl
  | .chain of inner next, h, s => by
      obtain ⟨q, cs, hrun, hq⟩ := exists_make of h.1 s
      obtain ⟨ps, ds, hruns, hps⟩ := exists_makeAll inner h.2 (s.addChoices cs)
      refine ⟨.chain q (next ps), cs ++ ds, ?_, q, ps, ?_, ?_, rfl⟩
      · rw [make, Eval.run_bind_ok hrun, Eval.run_bind_ok hruns, Store.addChoices_addChoices]
        rfl
      · rw [← Store.addChoices_addChoices]
        exact hq.extend (Store.extends_addChoices _ _)
      · rwa [← Store.addChoices_addChoices]
  | .many of, h, s => by
      obtain ⟨q, cs, hrun, hq⟩ := exists_make of h s
      refine ⟨.many q, cs, ?_, q, hq, rfl⟩
      rw [make, Eval.run_bind_ok hrun]
      rfl
  | .first of, h, s => by
      obtain ⟨ps, cs, hrun, hps⟩ := exists_makeAll of h s
      refine ⟨.first (s.addChoices cs).choices.size, cs ++ #[ps], ?_, ?_⟩
      · rw [make, Eval.run_bind_ok hrun, ← Store.addChoices_addChoices, Store.addChoices_singleton]
        rfl
      · refine ⟨_, ps, ?_, ?_, rfl⟩
        · rw [← Store.addChoices_addChoices]
          exact hps.extend (Store.extends_addChoices _ _)
        · simp [Store.addChoices]
  | .pipe of inner handler, h, s => by
      obtain ⟨ps, cs, hrun, hps⟩ := exists_makeAll of h.1 s
      obtain ⟨qs, ds, hruns, hqs⟩ := exists_makeAll inner h.2 (s.addChoices cs)
      refine ⟨.pipe ps (handler qs), cs ++ ds, ?_, ps, qs, ?_, ?_, rfl⟩
      · rw [make, Eval.run_bind_ok hrun, Eval.run_bind_ok hruns, Store.addChoices_addChoices]
        rfl
      · rw [← Store.addChoices_addChoices]
        exact hps.extend (Store.extends_addChoices _ _)
      · rwa [← Store.addChoices_addChoices]

theorem exists_makeAll : ∀ rs : List Recipe, AllStatic rs → ∀ s : Store,
    ∃ ps cs, (makeAll rs).run s = .ok ps (s.addChoices cs) ∧ AllMade (s.addChoices cs) rs ps
  | [], _, s => ⟨[], #[], by
      rw [makeAll, Store.addChoices_empty]
      rfl, rfl⟩
  | r :: rs, h, s => by
      obtain ⟨q, cs, hrun, hq⟩ := exists_make r h.1 s
      obtain ⟨qs, ds, hruns, hqs⟩ := exists_makeAll rs h.2 (s.addChoices cs)
      refine ⟨q :: qs, cs ++ ds, ?_, q, qs, ?_, ?_, rfl⟩
      · rw [makeAll, Eval.run_bind_ok hrun, Eval.run_bind_ok hruns, Store.addChoices_addChoices]
        rfl
      · rw [← Store.addChoices_addChoices]
        exact hq.extend (Store.extends_addChoices _ _)
      · rwa [← Store.addChoices_addChoices]

end

end Recipe

end Descent
