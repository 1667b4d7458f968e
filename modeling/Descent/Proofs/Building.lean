import Descent.Proofs.Judgement

/-!
# The building of lazy parsers

What a run can do to the cells of lazy parsers. `LazyCell.Becomes` says what may have
become of a cell: it is idle for some time, while starts of its builder end in faults, and
it may be built in the end, which it stays. `Store.Leads` says this of all cells of a
store, and what else a run keeps. Nothing of this is undone: a run that ends with the content
that it started from had it all the time. A run of a builder stands between two changes of its
cell, and the second one undoes that the cell is being built.
-/

namespace Descent

open Eval

namespace LazyCell

/-- The cell when its builder is started. -/
def started (cell : LazyCell) : LazyCell :=
  { cell with phase := .building, starts := cell.starts + 1 }

/-- The cell after its builder ended so. -/
def settled (r : Except Fault (Parser × Parser)) (cell : LazyCell) : LazyCell :=
  match r with
  | .ok (p, entry) => { cell with phase := .built p entry }
  | .error _ => { cell with phase := .idle, failures := cell.failures + 1 }

theorem exists_phase_of_isBuilt {cell : LazyCell} (h : cell.isBuilt = true) :
    ∃ p entry, cell.phase = .built p entry := by
  unfold isBuilt at h
  split at h
  · exact ⟨_, _, ‹_›⟩
  · cases h

theorem phase_eq_idle {cell : LazyCell} (hbuilt : cell.isBuilt = false)
    (hbuilding : cell.isBuilding = false) : cell.phase = .idle := by
  unfold isBuilt at hbuilt
  unfold isBuilding at hbuilding
  cases hphase : cell.phase with
  | idle => rfl
  | building => simp [hphase] at hbuilding
  | built p entry => simp [hphase] at hbuilt

/-- How many starts of the builder ended well. -/
def builds (cell : LazyCell) : Nat := if cell.isBuilt then 1 else 0

/-- The builder of the cell does not run, and all its starts are counted by how they ended. -/
structure IsSettled (cell : LazyCell) : Prop where
  isBuilding : cell.isBuilding = false
  starts : cell.starts = cell.failures + cell.builds

theorem IsNew.isSettled {cell : LazyCell} (h : cell.IsNew) : cell.IsSettled where
  isBuilding := by rw [LazyCell.isBuilding, h.phase]
  starts := by rw [builds, isBuilt, h.starts, h.failures, h.phase]; rfl

/-- What may become of a cell while its builder does not run, or is not yet done. -/
structure Becomes (a b : LazyCell) : Prop where
  label : b.label = a.label
  builder : b.builder = a.builder
  /-- Only an idle cell changes, and it is never left while it is being built. -/
  phase : b = a ∨ a.phase = .idle ∧ b.isBuilding = false
  /-- The further starts ended in so many faults and otherwise built the cell. -/
  counts : ∃ k, b.failures = a.failures + k ∧ b.starts + a.builds = a.starts + k + b.builds

namespace Becomes

variable {a b c : LazyCell}

theorem refl (a : LazyCell) : a.Becomes a := ⟨rfl, rfl, .inl rfl, 0, rfl, rfl⟩

/-- A cell that is not idle stays as it is. -/
theorem eq_of_ne_idle (h : a.Becomes b) (ha : a.phase ≠ .idle) : b = a :=
  h.phase.resolve_right fun hidle => ha hidle.1

theorem trans (h : a.Becomes b) (h' : b.Becomes c) : a.Becomes c where
  label := h'.label.trans h.label
  builder := h'.builder.trans h.builder
  phase := by
    rcases h'.phase with rfl | ⟨-, hc⟩
    · exact h.phase
    · rcases h.phase with rfl | ⟨ha, -⟩
      · exact h'.phase
      · exact .inr ⟨ha, hc⟩
  counts := by
    obtain ⟨k, hfailures, hstarts⟩ := h.counts
    obtain ⟨l, hfailures', hstarts'⟩ := h'.counts
    exact ⟨k + l, by omega, by omega⟩

/-- Nothing that has become of a cell is undone: starts and failures are counted. -/
theorem antisymm (h : a.Becomes b) (h' : b.Becomes a) : b = a := by
  rcases h.phase with hsame | ⟨ha, -⟩
  · exact hsame
  · rcases h'.phase with hsame | ⟨hb, -⟩
    · exact hsame.symm
    · obtain ⟨k, hfailures, hstarts⟩ := h.counts
      obtain ⟨l, hfailures', hstarts'⟩ := h'.counts
      have hlabel := h.label
      have hbuilder := h.builder
      have hphase : b.phase = a.phase := hb.trans ha.symm
      have hbuilds : b.builds = a.builds := by rw [builds, builds, isBuilt, isBuilt, hphase]
      have hstartsEq : b.starts = a.starts := by omega
      have hfailuresEq : b.failures = a.failures := by omega
      cases a
      cases b
      cases hlabel
      cases hbuilder
      cases hphase
      cases hstartsEq
      cases hfailuresEq
      rfl

theorem isSettled (h : a.Becomes b) (ha : a.IsSettled) : b.IsSettled where
  isBuilding := by
    rcases h.phase with rfl | ⟨-, hb⟩
    · exact ha.isBuilding
    · exact hb
  starts := by
    obtain ⟨k, hfailures, hstarts⟩ := h.counts
    have := ha.starts
    omega

end Becomes

theorem builds_of_idle {cell : LazyCell} (h : cell.phase = .idle) : cell.builds = 0 := by
  rw [builds, isBuilt, h]
  rfl

theorem becomes_settled {cell : LazyCell} (h : cell.phase = .idle)
    (r : Except Fault (Parser × Parser)) : cell.Becomes (cell.started.settled r) := by
  cases r with
  | ok made => exact ⟨rfl, rfl, .inr ⟨h, rfl⟩, 0, rfl, by rw [builds_of_idle h]; rfl⟩
  | error f => exact ⟨rfl, rfl, .inr ⟨h, rfl⟩, 1, rfl, by rw [builds_of_idle h]; rfl⟩

end LazyCell

namespace Store

/-- What may become of the cells of a store. -/
structure Ripens (s t : Store) : Prop where
  old : ∀ (c : Nat) cell, s.lazies[c]? = some cell →
    ∃ cell', t.lazies[c]? = some cell' ∧ cell.Becomes cell'
  new : ∀ (c : Nat) cell, s.lazies[c]? = none → t.lazies[c]? = some cell → cell.IsSettled

/-- What a run makes of a store. -/
structure Leads (s t : Store) : Prop extends s.Ripens t where
  lengthens : s.content.Lengthens t.content
  overruns : s.overruns ≤ t.overruns
  switches : s.switches ≤ t.switches
  /-- Without a switch the trace stays on or off, and it has no lines if it is off. -/
  silent : t.switches = s.switches →
    t.tracing = s.tracing ∧ (s.tracing = false → t.pieces = s.pieces)

variable {s t u : Store}

theorem ripens_of_lazies (h : t.lazies = s.lazies) : s.Ripens t where
  old c cell hc := ⟨cell, h ▸ hc, .refl cell⟩
  new c cell hnone hc := by
    rw [h, hnone] at hc
    cases hc

theorem Ripens.trans (h : s.Ripens t) (h' : t.Ripens u) : s.Ripens u where
  old c cell hc := by
    obtain ⟨cell', hc', hbecomes⟩ := h.old c cell hc
    obtain ⟨cell'', hc'', hbecomes'⟩ := h'.old c cell' hc'
    exact ⟨cell'', hc'', hbecomes.trans hbecomes'⟩
  new c cell hnone hc := by
    cases ht : t.lazies[c]? with
    | none => exact h'.new c cell ht hc
    | some middle =>
        obtain ⟨cell', hc', hbecomes⟩ := h'.old c middle ht
        cases hc'.symm.trans hc
        exact hbecomes.isSettled (h.new c middle hnone ht)

/-- A cell that is not idle stays as it is. -/
theorem Ripens.eq_of_ne_idle (h : s.Ripens t) {c : Nat} {cell : LazyCell}
    (hc : s.lazies[c]? = some cell) (hne : cell.phase ≠ .idle) : t.lazies[c]? = some cell := by
  obtain ⟨cell', hc', hbecomes⟩ := h.old c cell hc
  exact hbecomes.eq_of_ne_idle hne ▸ hc'

/-- Cells that have changed do not become what they were. -/
theorem Ripens.lazies_eq (h : s.Ripens t) (h' : t.Ripens u) (hu : u.lazies = s.lazies) :
    t.lazies = s.lazies := by
  refine Array.ext_getElem? fun c => ?_
  cases hs : s.lazies[c]? with
  | none =>
      refine Option.eq_none_iff_forall_ne_some.2 fun cell ht => ?_
      obtain ⟨cell', hu', -⟩ := h'.old c cell ht
      rw [hu, hs] at hu'
      cases hu'
  | some cell =>
      obtain ⟨cell', ht, hbecomes⟩ := h.old c cell hs
      obtain ⟨cell'', hu', hbecomes'⟩ := h'.old c cell' ht
      rw [hu, hs] at hu'
      cases hu'
      rw [ht, hbecomes.antisymm hbecomes']

theorem leads_refl (s : Store) : s.Leads s where
  toRipens := ripens_of_lazies rfl
  lengthens := .refl _
  overruns := Nat.le_refl _
  switches := Nat.le_refl _
  silent _ := ⟨rfl, fun _ => rfl⟩

theorem Leads.trans (h : s.Leads t) (h' : t.Leads u) : s.Leads u where
  toRipens := h.toRipens.trans h'.toRipens
  lengthens := h.lengthens.trans h'.lengthens
  overruns := Nat.le_trans h.overruns h'.overruns
  switches := Nat.le_trans h.switches h'.switches
  silent hsame := by
    have hst : t.switches = s.switches := by have := h.switches; have := h'.switches; omega
    obtain ⟨htracing, hpieces⟩ := h.silent hst
    obtain ⟨htracing', hpieces'⟩ := h'.silent (hsame.trans hst.symm)
    exact ⟨htracing'.trans htracing, fun hoff =>
      (hpieces' (htracing.trans hoff)).trans (hpieces hoff)⟩

/-- A run that changes the content does not come back to it. -/
theorem Leads.content_eq (h : s.Leads t) (h' : t.Leads u) (hu : u.content = s.content) :
    t.content = s.content := by
  have hback : t.content.Lengthens s.content := hu ▸ h'.lengthens
  have hlazies : t.lazies = s.lazies :=
    h.toRipens.lazies_eq h'.toRipens (congrArg Content.lazies hu)
  have hchoices : t.choices = s.choices := h.lengthens.choices_eq hback
  have hnames : t.names = s.names := h.lengthens.names_eq hback
  have hgrammars : t.grammars = s.grammars := h.lengthens.grammars_eq hback
  rw [content, content, hlazies, hchoices, hnames, hgrammars]

/-- A store with the same content whose trace is as long as it may be. -/
theorem leads_of_content (h : t.content = s.content) (hoverruns : s.overruns ≤ t.overruns)
    (hswitches : s.switches ≤ t.switches)
    (hsilent : t.switches = s.switches →
      t.tracing = s.tracing ∧ (s.tracing = false → t.pieces = s.pieces)) : s.Leads t where
  toRipens := ripens_of_lazies (congrArg Content.lazies h)
  lengthens := h ▸ .refl _
  overruns := hoverruns
  switches := hswitches
  silent := hsilent

/-- With the trace on, something is written, and the depth may have been used up. -/
theorem leads_of_tracing (hon : s.tracing = true) (pieces : List Text) {overruns : Nat}
    (hoverruns : s.overruns ≤ overruns) :
    s.Leads { s with pieces := pieces, overruns := overruns } :=
  leads_of_content rfl hoverruns (Nat.le_refl _) fun _ =>
    ⟨rfl, fun hoff => absurd (hon.symm.trans hoff) Bool.noConfusion⟩

theorem leads_withContent {k : Content} (h : s.content.Grows k) : s.Leads (s.withContent k) where
  old c cell hc := ⟨cell, h.old c cell hc, .refl cell⟩
  new c cell hnone hc := (h.new c cell hnone hc).isSettled
  lengthens := h.toLengthens
  overruns := Nat.le_refl _
  switches := Nat.le_refl _
  silent _ := ⟨rfl, fun _ => rfl⟩

theorem modifyCell_eq_withContent (s : Store) (c : Nat) (f : LazyCell → LazyCell) :
    s.modifyCell c f =
      s.withContent { s.content with lazies := s.content.lazies.modify c f } := rfl

/-- A run between the start of a builder and what the cell is after it. -/
theorem leads_of_started {c : Nat} {cell : LazyCell} {f : LazyCell → LazyCell}
    (hcell : s.lazies[c]? = some cell) (h : (s.modifyCell c .started).Leads u)
    (hf : cell.Becomes (f cell.started)) : s.Leads (u.modifyCell c f) := by
  have hstarted : (s.modifyCell c .started).lazies[c]? = some cell.started :=
    lazies_modifyCell_self _ hcell
  have hcell' : u.lazies[c]? = some cell.started := h.eq_of_ne_idle hstarted (by rintro ⟨⟩)
  refine ⟨⟨fun d other hd => ?_, fun d other hnone hd => ?_⟩,
    ⟨h.lengthens.choices, h.lengthens.names, h.lengthens.grammars⟩, h.overruns, h.switches,
    h.silent⟩
  · by_cases hcd : c = d
    · subst hcd
      cases hcell.symm.trans hd
      exact ⟨_, lazies_modifyCell_self f hcell', hf⟩
    · rw [lazies_modifyCell_of_ne hcd]
      exact h.old d other ((lazies_modifyCell_of_ne hcd s _).trans hd)
  · have hcd : c ≠ d := by
      rintro rfl
      cases hcell.symm.trans hnone
    rw [lazies_modifyCell_of_ne hcd] at hd
    exact h.new d other ((lazies_modifyCell_of_ne hcd s _).trans hnone) hd

end Store

namespace Entry

variable {s : Store} {c : Nat} {cell : LazyCell}

theorem run_buildLazy_of_built (e : Entry) (h : s.lazies[c]? = some cell) {p entry : Parser}
    (hphase : cell.phase = .built p entry) : (e.buildLazy c).run s = .ok p s := by
  rw [buildLazy, run_bind_ok (run_lazyCell h), hphase]
  rfl

theorem run_buildLazy_of_building (e : Entry) (h : s.lazies[c]? = some cell)
    (hphase : cell.phase = .building) :
    (e.buildLazy c).run s = .error (.notReady cell.description) s := by
  rw [buildLazy, run_bind_ok (run_lazyCell h), hphase]
  rfl

/-- A build of an idle cell starts its builder once and settles the cell. -/
theorem run_buildLazy_of_idle (e : Entry) (h : s.lazies[c]? = some cell)
    (hphase : cell.phase = .idle) {r : Except Fault (Parser × Parser)} {u : Store}
    (hrun : (e.building cell).run (s.modifyCell c .started) = ended r u) :
    (e.buildLazy c).run s = ended (r.map Prod.fst) (u.modifyCell c (.settled r)) := by
  rw [buildLazy, run_bind_ok (run_lazyCell h), hphase]
  refine (run_bind_ok (run_modifyLazy c _ s)).trans ?_
  have hbuilding : (do
      Eval.traceLine (text "Lazy: build") (pure cell.description)
      let p ← cell.builder.run e (cell.starts + 1)
      let entry ← Eval.entryOf p
      Eval.setPhase c (.built p entry)
      pure p : Eval Parser) =
      (do
        let made ← e.building cell
        Eval.setPhase c (.built made.1 made.2)
        pure made.1) := by
    simp only [building, bind_assoc, pure_bind]
  rw [hbuilding]
  cases r with
  | ok made => exact run_tryCatch_ok (run_bind_ok hrun)
  | error f => exact run_tryCatch_error (run_bind_error hrun)

/-- A cell that is not idle is not changed by a build, which then ends in the same way at all
depths. -/
theorem buildLazy_cases (s : Store) (c : Nat) :
    (∃ cell, s.lazies[c]? = some cell ∧ cell.phase = .idle) ∨
      ∃ r, (∀ p, r = .ok p →
          ∃ cell entry, s.lazies[c]? = some cell ∧ cell.phase = .built p entry) ∧
        ∀ (e : Entry) t, t.lazies[c]? = s.lazies[c]? → (e.buildLazy c).run t = ended r t := by
  cases hcell : s.lazies[c]? with
  | none =>
      refine .inr ⟨.error .noCell, ?_, fun e t ht => run_bind_error ?_⟩
      · rintro _ ⟨⟩
      · rw [lazyCell, run_bind_ok (EStateM.run_get t), ht]
        rfl
  | some cell =>
      cases hphase : cell.phase with
      | idle => exact .inl ⟨cell, rfl, hphase⟩
      | building =>
          refine .inr ⟨.error (.notReady cell.description), ?_, fun e t ht =>
            run_buildLazy_of_building e ht hphase⟩
          rintro _ ⟨⟩
      | built p entry =>
          refine .inr ⟨.ok p, ?_, fun e t ht => run_buildLazy_of_built e ht hphase⟩
          rintro _ ⟨⟩
          exact ⟨cell, entry, rfl, hphase⟩

end Entry

end Descent
