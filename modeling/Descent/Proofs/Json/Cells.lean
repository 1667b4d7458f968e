import Descent.Proofs.Json.Strings

/-!
# Cells of a grammar

Each lazy rule of a grammar has a cell, which is either as it was made or built to
a parser of its rule for good. `Stands` says this of all cells of a grammar. It is
all that a run needs of the store and a run keeps it, so it does not matter which
runs came before. Entering a rule takes one entry of the depth, whether the rule
is built already or not.
-/

namespace Descent

open Eval

namespace Json

open Recipe Regex

theorem isStatic_given (p : Parser) : (given p).IsStatic := ⟨p, rfl⟩

theorem isStatic_items {strict : Bool} {item : Recipe} (h : item.IsStatic) :
    (items strict item).IsStatic := by
  cases strict with
  | true => exact ⟨⟨h, ⟨⟨isStatic_given _, h, trivial⟩, trivial⟩, trivial⟩, trivial⟩
  | false =>
      exact ⟨⟨⟨h, ⟨isStatic_given _, isStatic_given _, trivial⟩, trivial⟩, trivial⟩, trivial⟩

theorem isStatic_escapeValues :
    AllStatic (escapeValues.map fun e => given (.literal e.1)) := by
  refine ⟨isStatic_given _, isStatic_given _, isStatic_given _, isStatic_given _, isStatic_given _,
    isStatic_given _, isStatic_given _, trivial⟩

theorem isStatic_stringBody (combine : Bool) : (stringBody combine).IsStatic := by
  have hpieces : AllStatic stringPieces :=
    ⟨isStatic_span read_raws, isStatic_given _,
      ⟨⟨isStatic_given _, isStatic_escapeValues, trivial⟩, trivial⟩,
      ⟨⟨isStatic_given _, isStatic_span read_hexes, trivial⟩, trivial⟩, trivial⟩
  cases combine with
  | true => exact ⟨hpieces, trivial⟩
  | false => exact ⟨hpieces, trivial⟩

theorem isStatic_numberRecipe : numberRecipe.IsStatic := by
  refine ⟨⟨⟨⟨isStatic_given _, isStatic_given _, trivial⟩, ?_, ?_, ?_, trivial⟩, trivial⟩, trivial⟩
  · exact ⟨isStatic_given _, ⟨⟨isStatic_given _, isStatic_given _, trivial⟩, trivial⟩, trivial⟩
  · exact ⟨⟨⟨isStatic_given _, isStatic_given _, trivial⟩, trivial⟩, isStatic_given _, trivial⟩
  · refine ⟨⟨⟨⟨isStatic_given _, isStatic_given _, trivial⟩, ?_, isStatic_given _, trivial⟩,
      trivial⟩, isStatic_given _, trivial⟩
    exact ⟨isStatic_given _, isStatic_given _, isStatic_given _, trivial⟩

namespace Grammar

variable (g : Grammar)

/-- A recipe of a lazy rule makes no lazy parser. -/
theorem isStatic_recipe (r : Rule) : (g.recipe r).IsStatic := by
  have hrule (r : Rule) : (g.rule r).IsStatic := isStatic_given _
  have hpair : g.pairRecipe.IsStatic :=
    ⟨⟨hrule _, hrule _, hrule _, isStatic_given _, hrule _, trivial⟩, trivial⟩
  cases r with
  | whitespace => exact isStatic_span read_blanks
  | number => exact isStatic_numberRecipe
  | string =>
      exact ⟨⟨⟨isStatic_given _, isStatic_given _, trivial⟩, trivial⟩,
        ⟨⟨isStatic_given _, isStatic_stringBody _, isStatic_given _, trivial⟩, trivial⟩, trivial⟩
  | array =>
      exact ⟨⟨⟨isStatic_given _, hrule _, isStatic_given _, trivial⟩, trivial⟩,
        ⟨⟨isStatic_given _, isStatic_items (hrule _), isStatic_given _, trivial⟩, trivial⟩, trivial⟩
  | object =>
      exact ⟨⟨⟨isStatic_given _, hrule _, isStatic_given _, trivial⟩, trivial⟩,
        ⟨⟨isStatic_given _, isStatic_items hpair, isStatic_given _, trivial⟩, trivial⟩, trivial⟩
  | value =>
      exact ⟨⟨hrule _, ⟨hrule _, hrule _, hrule _, hrule _, hrule _, hrule _, hrule _, trivial⟩,
        hrule _, trivial⟩, trivial⟩
  | true => exact hrule _
  | false => exact hrule _
  | null => exact hrule _

/-- What a lazy rule is built to is not lazy itself. -/
theorem ne_lazy_of_isMade {r : Rule} {c : Nat} (h : g.parser r = .lazy c) {s : Store} {p : Parser}
    (hp : (g.recipe r).IsMade s p) (d : Nat) : p ≠ .lazy d := by
  rintro rfl
  cases r with
  | whitespace =>
      obtain ⟨⟩ := (regex_eq_ok read_blanks).symm.trans hp
  | number =>
      obtain ⟨_, _, _, _, ⟨⟩⟩ := hp
  | string =>
      obtain ⟨_, _, _, _, ⟨⟩⟩ := hp
  | array =>
      obtain ⟨_, _, _, _, ⟨⟩⟩ := hp
  | object =>
      obtain ⟨_, _, _, _, ⟨⟩⟩ := hp
  | value =>
      obtain ⟨_, _, _, _, ⟨⟩⟩ := hp
  | true => cases h
  | false => cases h
  | null => cases h

/-- Different rules have different cells. -/
theorem rule_eq_lazy {r q : Rule} {c : Nat} (hr : g.parser r = .lazy c)
    (hq : g.parser q = .lazy c) : r = q := by
  cases r <;> cases q <;> simp_all [parser, constant] <;> omega

/-- The cell of a rule that is built, after one start of its builder. -/
def builtCell (r : Rule) (p : Parser) : LazyCell :=
  { g.cell r with phase := .built p p, starts := 1 }

/-- The cell is as it was made, or built. -/
def IsCell (s : Store) (r : Rule) (cell : LazyCell) : Prop :=
  cell = g.cell r ∨ ∃ p, (g.recipe r).IsMade s p ∧ cell = g.builtCell r p

/-- All cells of the grammar are as they were made, or built. -/
def Stands (s : Store) : Prop :=
  ∀ r c, g.parser r = .lazy c → ∃ cell, s.lazies[c]? = some cell ∧ g.IsCell s r cell

variable {g}

theorem IsCell.extend {s t : Store} (h : s.Extends t) {r : Rule} {cell : LazyCell}
    (hcell : g.IsCell s r cell) : g.IsCell t r cell := by
  rcases hcell with hcell | ⟨p, hp, hcell⟩
  · exact .inl hcell
  · exact .inr ⟨p, hp.extend h, hcell⟩

theorem quiet_stands : Store.Quiet g.Stands := by
  intro s pieces overruns hs r c hr
  obtain ⟨cell, hcell, his⟩ := hs r c hr
  exact ⟨cell, hcell, his.extend (s.extends_withLog _ _)⟩

/-! ## Building -/

theorem exists_traceLine (head d : Text) (s : Store) :
    ∃ pieces, (traceLine head (pure d)).run s = .ok () (s.withLog pieces s.overruns) := by
  cases htr : s.tracing with
  | false =>
      refine ⟨s.pieces, ?_⟩
      rw [traceLine, run_bind_ok (EStateM.run_get s), htr]
      rfl
  | true =>
      refine ⟨(d ++ text "\n") :: (head ++ text " ") :: s.pieces, ?_⟩
      rw [traceLine, run_bind_ok (EStateM.run_get s), htr]
      rfl

theorem run_entryOf {p : Parser} (h : ∀ d, p ≠ .lazy d) (s : Store) :
    (entryOf p).run s = .ok p s := by
  cases p with
  | lazy d => exact absurd rfl (h d)
  | _ => rfl

/-- The builder of a rule ends with a parser of the rule, and the rule is built. -/
theorem exists_build {r : Rule} {c : Nat} (hr : g.parser r = .lazy c) (e : Entry) {s : Store}
    (hs : g.Stands s) (hidle : s.lazies[c]? = some (g.cell r)) :
    ∃ p u, (e.buildLazy c).run s = .ok p u ∧ s.Extends u ∧ g.Stands u ∧
      (g.recipe r).IsMade u p := by
  let started : Store := s.modifyCell c fun cell =>
    { cell with phase := .building, starts := cell.starts + 1 }
  obtain ⟨pieces, hline⟩ := exists_traceLine (text "Lazy: build") (g.cell r).description started
  obtain ⟨p, cs, hmake, hp⟩ := exists_make (g.recipe r) (g.isStatic_recipe r)
    (started.withLog pieces started.overruns)
  let made : Store := (started.withLog pieces started.overruns).addChoices cs
  let u : Store := made.modifyCell c fun cell => { cell with phase := .built p p }
  have hstarted : started.lazies[c]? = some { g.cell r with phase := .building, starts := 1 } :=
    Store.lazies_modifyCell_self _ hidle
  have hmade : made.lazies[c]? = some { g.cell r with phase := .building, starts := 1 } := hstarted
  have hbuilt : u.lazies[c]? = some (g.builtCell r p) := Store.lazies_modifyCell_self _ hmade
  have hmu : made.Extends u := Store.extends_modifyCell _ hmade rfl
  have hsu : s.Extends u :=
    (Store.extends_modifyCell _ hidle rfl).trans ((started.extends_withLog _ _).trans
      ((Store.extends_addChoices _ cs).trans hmu))
  refine ⟨p, u, ?_, hsu, ?_, hp.extend hmu⟩
  · rw [Entry.buildLazy, run_bind_ok (run_lazyCell hidle)]
    refine (run_bind_ok (run_modifyLazy c _ s)).trans ?_
    refine run_tryCatch_ok ?_
    rw [run_bind_ok hline]
    refine (run_bind_ok hmake).trans ?_
    rw [run_bind_ok (run_entryOf (g.ne_lazy_of_isMade hr hp) made)]
    rfl
  · intro q d hq
    by_cases hcd : c = d
    · subst hcd
      have hqr : r = q := g.rule_eq_lazy hr hq
      subst hqr
      exact ⟨_, hbuilt, .inr ⟨p, hp.extend hmu, rfl⟩⟩
    · obtain ⟨cell, hcell, his⟩ := hs q d hq
      have hkept : u.lazies[d]? = s.lazies[d]? :=
        (Store.lazies_modifyCell_of_ne hcd made _).trans (Store.lazies_modifyCell_of_ne hcd s _)
      exact ⟨cell, hkept.trans hcell, his.extend hsu⟩

/-- Whatever state a rule is in, forcing it ends with a parser of the rule. -/
theorem exists_force {r : Rule} {c : Nat} (hr : g.parser r = .lazy c) (e : Entry) {s : Store}
    (hs : g.Stands s) :
    ∃ p u, (e.buildLazy c).run s = .ok p u ∧ s.Extends u ∧ g.Stands u ∧
      (g.recipe r).IsMade u p := by
  obtain ⟨cell, hcell, rfl | ⟨p, hp, rfl⟩⟩ := hs r c hr
  · exact exists_build hr e hs hcell
  · refine ⟨p, s, ?_, .refl s, hs, hp⟩
    rw [Entry.buildLazy, run_bind_ok (run_lazyCell hcell)]
    rfl

/-! ## Entering -/

theorem enterLazy_of_built {r : Rule} {c : Nat} (hr : g.parser r = .lazy c) (e : Entry) {s : Store}
    {p : Parser} (hp : (g.recipe r).IsMade s p) (hcell : s.lazies[c]? = some (g.builtCell r p))
    (cur : Text) : (e.enterLazy c cur).run s = (p.parse e cur).run s := by
  have hmethod : p.parseByMethod { e with force := e.buildLazy } cur = p.parse e cur := by
    rw [← Parser.parse_withForce e e.buildLazy p cur]
    cases p with
    | lazy d => exact absurd rfl (g.ne_lazy_of_isMade hr hp d)
    | _ => rfl
  rw [Entry.enterLazy, run_bind_ok (run_lazyCell hcell), ← hmethod]
  rfl

theorem enterLazy_of_idle {r : Rule} {c : Nat} (e : Entry) {s u : Store} {p : Parser}
    (hcell : s.lazies[c]? = some (g.cell r)) (hbuild : (e.buildLazy c).run s = .ok p u)
    (cur : Text) : (e.enterLazy c cur).run s = (p.parse e cur).run u := by
  rw [Entry.enterLazy, run_bind_ok (run_lazyCell hcell)]
  exact run_bind_ok hbuild

/-- A rule takes one entry, and reads as its recipe does. -/
theorem computes_enterLazy {r : Rule} {c n : Nat} (hr : g.parser r = .lazy c)
    {f : Text → Reading Value} (h : (g.recipe r).Reads g.Stands n f) (s : Store) (cur : Text) :
    Computes g.Stands s ((Entry.ofDepth n).enterLazy c cur) (f cur).outcomes := by
  intro t ht hs
  obtain ⟨cell, hcell, rfl | ⟨p, hp, rfl⟩⟩ := hs r c hr
  · obtain ⟨p, u, hbuild, htu, hu, hp⟩ := exists_build hr (Entry.ofDepth n) hs hcell
    obtain ⟨v, huv, hv, hrun⟩ := h u p hp cur u (.refl u) hu
    exact ⟨v, htu.trans huv, hv, (enterLazy_of_idle _ hcell hbuild cur).trans hrun⟩
  · obtain ⟨v, htv, hv, hrun⟩ := h t p hp cur t (.refl t) hs
    exact ⟨v, htv, hv, (enterLazy_of_built hr _ hp hcell cur).trans hrun⟩

open Reading (enter) in
theorem reads_rule {α : Type} {ι : α → Value} {f : Nat → Text → Reading α} {r : Rule} {c : Nat}
    {depth : Nat} (hr : g.parser r = .lazy c)
    (h : ∀ n < depth, (g.recipe r).Reads g.Stands n fun cur => (f n cur).map ι) :
    (g.rule r).Reads g.Stands depth fun cur => (enter depth fun n => f n cur).map ι := by
  rintro s p ⟨⟩ cur
  rw [hr]
  cases depth with
  | zero => exact computes_overrun quiet_stands
  | succ n => exact computes_enterLazy hr (h n (Nat.lt_succ_self n)) s cur

/-- The description of a rule is known before it is built. -/
theorem computes_describe {r : Rule} {c : Nat} (hr : g.parser r = .lazy c) (e : Entry) (s : Store) :
    Computes g.Stands s ((g.parser r).describe e) (.ok (g.cell r).description) := by
  intro t _ hs
  rw [hr]
  obtain ⟨cell, hcell, rfl | ⟨p, -, rfl⟩⟩ := hs r c hr
  · exact ⟨t, .refl t, hs, run_describeLazy hcell⟩
  · exact ⟨t, .refl t, hs, (run_describeLazy hcell).trans rfl⟩

theorem isDescribed_rule (r : Rule) : (g.rule r).IsDescribed g.Stands := by
  rintro s p ⟨⟩ e
  cases r with
  | true => exact ⟨_, Computes.pure _⟩
  | false => exact ⟨_, Computes.pure _⟩
  | null => exact ⟨_, Computes.pure _⟩
  | _ => exact ⟨_, computes_describe rfl e s⟩

/-! ## Creation -/

/-- A new grammar stands, and what was there before is kept. -/
theorem exists_create (options : Options) (s : Store) :
    ∃ u, (create options).run s = .ok ⟨options, s.lazies.size⟩ u ∧ s.Extends u ∧
      Stands ⟨options, s.lazies.size⟩ u := by
  let g : Grammar := ⟨options, s.lazies.size⟩
  let u : Store := { s with lazies := s.lazies ++ (Rule.lazyRules.map g.cell).toArray }
  have hnew (i : Nat) : u.lazies[g.base + i]? = (Rule.lazyRules.map g.cell)[i]? := by
    rw [Array.getElem?_append_right (Nat.le_add_right _ _), Nat.add_sub_cancel_left]
    simp
  refine ⟨u, rfl, ⟨fun _ _ h => h, fun c cell hc _ => ?_, rfl, rfl⟩, fun r c hr => ?_⟩
  · have hlt : c < s.lazies.size := (Array.getElem?_eq_some_iff.1 hc).1
    rw [Array.getElem?_append_left hlt, hc]
  · refine ⟨g.cell r, ?_, .inl rfl⟩
    cases r with
    | whitespace =>
        cases hr
        exact hnew 0
    | number =>
        cases hr
        exact hnew 1
    | string =>
        cases hr
        exact hnew 2
    | array =>
        cases hr
        exact hnew 3
    | object =>
        cases hr
        exact hnew 4
    | value =>
        cases hr
        exact hnew 5
    | true => cases hr
    | false => cases hr
    | null => cases hr

end Grammar

end Json

end Descent
