import Descent.Proofs.Building

/-!
# Runs in lockstep

Two runs side by side from related stores: they end alike, in related stores, unless the
first one costs something. What the cost is, the relation and an invariant of the first
run are parameters; a relation must see equal contents and nothing else of them. Lockstep
is a judgement, once it is known of the trace and of its switch, and the store that the
first run leaves is one that its store leads to.
-/

namespace Descent

open Eval

/-- The property of stores is kept by runs and by the starts of builders. -/
structure Store.IsKept (Inv : Store → Prop) : Prop where
  of_leads : ∀ {s t : Store}, s.Leads t → Inv s → Inv t
  of_started : ∀ {s : Store} {c : Nat} {cell : LazyCell}, s.lazies[c]? = some cell →
    cell.phase = .idle → Inv s → Inv (s.modifyCell c .started)

theorem Store.isKept_true : IsKept fun _ => True := ⟨fun _ _ => trivial, fun _ _ _ => trivial⟩

/-- The number only grows in runs, and the content of the store does not matter. -/
structure Store.IsCost (cost : Store → Nat) : Prop where
  withContent : ∀ (s : Store) (k : Content), cost (s.withContent k) = cost s
  of_leads : ∀ {s t : Store}, s.Leads t → cost s ≤ cost t

theorem Store.isCost_zero : IsCost fun _ => 0 := ⟨fun _ _ => rfl, fun _ => Nat.le_refl 0⟩

theorem Store.isCost_overruns : IsCost Store.overruns := ⟨fun _ _ => rfl, fun h => h.overruns⟩

theorem Store.isCost_switches : IsCost Store.switches := ⟨fun _ _ => rfl, fun h => h.switches⟩

theorem Store.IsCost.add {cost cost' : Store → Nat} (h : IsCost cost) (h' : IsCost cost') :
    IsCost fun s => cost s + cost' s where
  withContent s k := by rw [h.withContent, h'.withContent]
  of_leads hst := Nat.add_le_add (h.of_leads hst) (h'.of_leads hst)

/-- A relation of stores, an invariant of the first one, and a cost of runs. -/
structure Lockstep where
  Rel : Store → Store → Prop
  Inv : Store → Prop
  cost : Store → Nat
  content {s s' : Store} : Rel s s' → s'.content = s.content
  withContent {s s' : Store} : Rel s s' → ∀ k, Rel (s.withContent k) (s'.withContent k)
  isKept : Store.IsKept Inv
  isCost : Store.IsCost cost

namespace Lockstep

variable (L : Lockstep) {α β : Type}

/-- From related stores both runs end alike, in related stores, unless the first one costs. -/
def InStep (m m' : Eval α) : Prop :=
  ∀ ⦃s s' r u⦄, L.Rel s s' → L.Inv s → m.run s = ended r u →
    L.cost s < L.cost u ∨ ∃ u', m'.run s' = ended r u' ∧ L.Rel u u'

/-- The runs are in step, the first one does to its store what runs do, and its values are as
the predicate says. -/
structure Holds (m m' : Eval α) (Q : α → Prop) : Prop where
  leads : ∀ ⦃s r u⦄, m.run s = ended r u → s.Leads u
  value : ∀ ⦃s a u⦄, m.run s = ended (.ok a) u → Q a
  inStep : L.InStep m m'

variable {L} {m m' : Eval α}

theorem Holds.weaken {P Q : α → Prop} (h : L.Holds m m' P) (hPQ : ∀ a, P a → Q a) :
    L.Holds m m' Q :=
  ⟨h.leads, fun _ a _ hm => hPQ a (h.value hm), h.inStep⟩

/-- What two computations go on with keeps step from where they are. -/
theorem Holds.resume {n n' : Eval β} {k k' : Except Fault α → Eval β} {P : α → Prop}
    {Q : β → Prop} (h : L.Holds m m' P) (hn : n.Resumes m k) (hn' : n'.Resumes m' k')
    (hok : ∀ a, P a → L.Holds (k (.ok a)) (k' (.ok a)) Q)
    (herror : ∀ f, L.Holds (k (.error f)) (k' (.error f)) Q) : L.Holds n n' Q := by
  have hnext {s : Store} {r : Except Fault α} {u : Store} (hm : m.run s = ended r u) :
      L.Holds (k r) (k' r) Q := by
    cases r with
    | ok a => exact hok a (h.value hm)
    | error f => exact herror f
  refine ⟨fun s r v hv => ?_, fun s b v hv => ?_, fun s s' r v hrel hinv hv => ?_⟩
  · obtain ⟨r, u, hm⟩ := exists_ended m s
    exact (h.leads hm).trans ((hnext hm).leads ((hn s r u hm).symm.trans hv))
  · obtain ⟨r, u, hm⟩ := exists_ended m s
    exact (hnext hm).value ((hn s r u hm).symm.trans hv)
  · obtain ⟨r, u, hm⟩ := exists_ended m s
    have hlast := (hn s r u hm).symm.trans hv
    rcases h.inStep hrel hinv hm with hcost | ⟨u', hm', hu⟩
    · exact .inl (Nat.lt_of_lt_of_le hcost (L.isCost.of_leads ((hnext hm).leads hlast)))
    · rcases (hnext hm).inStep hu (L.isKept.of_leads (h.leads hm) hinv) hlast with hcost | ⟨v', hv', hvv⟩
      · exact .inl (Nat.lt_of_le_of_lt (L.isCost.of_leads (h.leads hm)) hcost)
      · exact .inr ⟨v', (hn' s' r u' hm').trans hv', hvv⟩

theorem holds_manages {P : Parser → Prop} (hP : ∀ p, P p) {Q : α → Prop} (h : m.Manages P Q) :
    L.Holds m m Q := by
  obtain ⟨f, hrun, hf⟩ := h
  refine ⟨fun s r u hm => ?_, fun s a u hm => ?_, fun s s' r u hrel _ hm => ?_⟩
  · obtain ⟨rfl, rfl⟩ := ended_inj ((hrun s).symm.trans hm)
    exact Store.leads_withContent (hf s.content).1
  · obtain ⟨hr, -⟩ := ended_inj ((hrun s).symm.trans hm)
    exact ((hf s.content).2 (Content.within_of_forall hP _)).2 a hr
  · obtain ⟨rfl, rfl⟩ := ended_inj ((hrun s).symm.trans hm)
    refine .inr ⟨_, ?_, L.withContent hrel _⟩
    rw [hrun s', L.content hrel]

theorem rel_modifyCell {s s' : Store} (h : L.Rel s s') (c : Nat) (f : LazyCell → LazyCell) :
    L.Rel (s.modifyCell c f) (s'.modifyCell c f) := by
  rw [Store.modifyCell_eq_withContent, Store.modifyCell_eq_withContent, L.content h]
  exact L.withContent h _

theorem cost_modifyCell (s : Store) (c : Nat) (f : LazyCell → LazyCell) :
    L.cost (s.modifyCell c f) = L.cost s := by
  rw [Store.modifyCell_eq_withContent, L.isCost.withContent]

/-- If the runs of builders are in step, so are builds. -/
theorem holds_buildLazy {e e' : Entry}
    (h : ∀ cell, L.Holds (e.building cell) (e'.building cell) fun _ => True) (c : Nat) :
    L.Holds (e.buildLazy c) (e'.buildLazy c) fun _ => True := by
  refine ⟨fun s r v hv => ?_, fun _ _ _ _ => trivial, fun s s' r v hrel hinv hv => ?_⟩
  · rcases Entry.buildLazy_cases s c with ⟨cell, hcell, hidle⟩ | ⟨r', -, hbuild⟩
    · obtain ⟨made, u, hrun⟩ := exists_ended (e.building cell) (s.modifyCell c .started)
      obtain ⟨-, rfl⟩ := ended_inj ((e.run_buildLazy_of_idle hcell hidle hrun).symm.trans hv)
      exact Store.leads_of_started hcell ((h cell).leads hrun)
        (LazyCell.becomes_settled hidle made)
    · obtain ⟨-, rfl⟩ := ended_inj ((hbuild e s rfl).symm.trans hv)
      exact Store.leads_refl s
  · have hlazies : s'.lazies[c]? = s.lazies[c]? :=
      congrArg (fun k : Content => k.lazies[c]?) (L.content hrel)
    rcases Entry.buildLazy_cases s c with ⟨cell, hcell, hidle⟩ | ⟨r', -, hbuild⟩
    · obtain ⟨made, u, hrun⟩ := exists_ended (e.building cell) (s.modifyCell c .started)
      obtain ⟨rfl, rfl⟩ := ended_inj ((e.run_buildLazy_of_idle hcell hidle hrun).symm.trans hv)
      rcases (h cell).inStep (rel_modifyCell hrel c .started)
        (L.isKept.of_started hcell hidle hinv) hrun with hcost | ⟨u', hrun', hu⟩
      · rw [cost_modifyCell] at hcost
        exact .inl (cost_modifyCell u c _ ▸ hcost)
      · exact .inr ⟨_, e'.run_buildLazy_of_idle (hlazies.trans hcell) hidle hrun',
          rel_modifyCell hu c _⟩
    · obtain ⟨rfl, rfl⟩ := ended_inj ((hbuild e s rfl).symm.trans hv)
      exact .inr ⟨s', hbuild e' s' hlazies, hrel⟩

/-! ## The judgement -/

theorem leads_traceLine {m : Eval Text} (h : m.Observes) (head : Text) {s : Store}
    {r : Except Fault Unit} {u : Store} (hrun : (traceLine head m).run s = ended r u) :
    s.Leads u := by
  rcases h.run_traceLine head s with ⟨-, hline⟩ | ⟨hon, pieces, hline | hline⟩
  · obtain ⟨-, rfl⟩ := ended_inj (hline.symm.trans hrun)
    exact Store.leads_refl s
  · obtain ⟨-, rfl⟩ := ended_inj (hline.symm.trans hrun)
    exact Store.leads_of_tracing hon pieces (Nat.le_refl _)
  · obtain ⟨-, rfl⟩ := ended_inj (hline.symm.trans hrun)
    exact Store.leads_of_tracing hon pieces (Nat.le_succ _)

/-- Both runs write the same line if the trace is on, which they see alike, and if they find
the same last word. -/
theorem inStep_traceLine {m m' : Eval Text}
    (htracing : ∀ {s s'}, L.Rel s s' → s'.tracing = s.tracing)
    (hwrite : ∀ {s s'} (t : Text), L.Rel s s' →
      L.Rel { s with pieces := t :: s.pieces } { s' with pieces := t :: s'.pieces })
    (head : Text) (h : L.InStep m m') (ho : m.Observes) :
    L.InStep (traceLine head m) (traceLine head m') := by
  intro s s' r u hrel hinv hrun
  rw [traceLine, run_bind_ok (EStateM.run_get _)] at hrun ⊢
  rw [htracing hrel]
  by_cases hon : s.tracing = true
  · let begun (s : Store) : Store := { s with pieces := (head ++ text " ") :: s.pieces }
    have hbegun (s : Store) : (write (head ++ text " ")).run s = .ok () (begun s) := rfl
    have hleads : s.Leads (begun s) :=
      Store.leads_of_tracing hon (begun s).pieces (Nat.le_refl _)
    have hword {r : Except Fault Text} {v : Store} (hm : m.run (begun s) = ended r v) :
        L.cost (begun s) < L.cost v ∨ ∃ w, m'.run (begun s') = ended r w ∧ L.Rel v w :=
      h (hwrite _ hrel) (L.isKept.of_leads hleads hinv) hm
    rw [if_pos hon, run_bind_ok (hbegun _)] at hrun ⊢
    rcases ho (begun s) with ⟨t, hm⟩ | hm
    · rcases hword (r := .ok t) hm with hless | ⟨w, hm', hw⟩
      · exact absurd hless (Nat.lt_irrefl _)
      · rw [run_bind_ok hm] at hrun
        obtain ⟨rfl, rfl⟩ := ended_inj (r := .ok ()) hrun
        exact .inr ⟨_, run_bind_ok hm', hwrite _ hw⟩
    · rw [run_bind_error hm] at hrun
      obtain ⟨rfl, rfl⟩ := ended_inj (r := .error .depthExceeded) hrun
      rcases hword (r := .error .depthExceeded) hm with hless | ⟨w, hm', hw⟩
      · exact .inl (Nat.lt_of_le_of_lt (L.isCost.of_leads hleads) hless)
      · exact .inr ⟨w, run_bind_error hm', hw⟩
  · rw [if_neg hon] at hrun ⊢
    obtain ⟨rfl, rfl⟩ := ended_inj (r := .ok ()) hrun
    exact .inr ⟨s', rfl, hrel⟩

theorem holds_switchTrace {on : Bool} (h : L.InStep (switchTrace on) (switchTrace on)) :
    L.Holds (switchTrace on) (switchTrace on) fun _ => True where
  leads s r u hrun := by
    obtain ⟨-, rfl⟩ := ended_inj (r := .ok ()) hrun
    exact Store.leads_of_content rfl (Nat.le_refl _) (Nat.le_succ _) fun hsame =>
      absurd hsame (Nat.succ_ne_self _)
  value _ _ _ _ := trivial
  inStep := h

/-- What runs out of depth does nothing else. -/
theorem holds_overrun {Q : α → Prop} (h : L.InStep overrun m') : L.Holds overrun m' Q where
  leads s r u hrun := by
    obtain ⟨-, rfl⟩ := ended_inj (r := .error .depthExceeded) hrun
    exact Store.leads_of_content rfl (Nat.le_succ _) (Nat.le_refl _) fun _ => ⟨rfl, fun _ => rfl⟩
  value s a u hrun := nomatch (ended_inj (r := .error .depthExceeded) hrun).1
  inStep := h

variable (L) in
/-- What is done to the trace is in step. -/
structure Traced : Prop where
  traceLine : ∀ {m m' : Eval Text} (head : Text), L.InStep m m' → m.Observes →
    L.InStep (Eval.traceLine head m) (Eval.traceLine head m')
  switchTrace : ∀ on, L.InStep (Eval.switchTrace on) (Eval.switchTrace on)

/-- Runs in lockstep, where all parsers count as put together from plain functions. -/
def Traced.judgement (hL : L.Traced) : Judgement where
  Holds := L.Holds
  Made _ := True
  Given := Parser.IsPlain
  Leaves _ _ := True
  weaken := Holds.weaken
  resume h hn hn' hok herror _ := h.resume hn hn' hok herror
  manages := holds_manages fun _ => trivial
  traceLine head h ho :=
    ⟨fun _ _ _ hrun => leads_traceLine ho head hrun, fun _ _ _ _ => trivial,
      hL.traceLine head h.inStep ho⟩
  switchTrace on := holds_switchTrace (hL.switchTrace on)
  build h := holds_buildLazy fun cell =>
    (h cell (cell.within_of_forall fun _ => trivial)).weaken fun _ _ => trivial
  made_of_composedOf _ := trivial
  composedOf_of_made _ := Parser.composedOf_isPlain _
  made_recipe g r := (g.recipe r).within_of_forall fun _ => trivial
  isRemaining := isRemaining_true

section

variable (hL : L.Traced)
include hL

/-- Where no depth is left on the first side. -/
theorem Traced.entries_exhausted {e' : Entry} (hlazy : ∀ c cur, L.InStep overrun (e'.lazy c cur))
    (hfirst : ∀ c i cur, L.InStep overrun (e'.first c i cur))
    (hforce : ∀ c, L.InStep overrun (e'.force c))
    (hdescribe : ∀ c, L.InStep overrun (e'.describe c)) :
    hL.judgement.Entries .exhausted e' where
  lazy c cur := holds_overrun (hlazy c cur)
  first c i cur := holds_overrun (hfirst c i cur)
  force c := holds_overrun (hforce c)
  describe c := holds_overrun (hdescribe c)
  observes _ := observes_overrun
  given _ cur hp := hL.judgement.parse_plain hp _ _ cur fun _ _ _ => trivial

/-- Entries in step at one depth are in step at the next one. -/
theorem Traced.entries_deeper {e e' : Entry} (he : hL.judgement.Entries e e') :
    hL.judgement.Entries e.deeper e'.deeper :=
  he.deeper fun _ cur hp => hL.judgement.parse_plain hp _ _ cur fun _ _ _ => trivial

end

/-! ## Equal stores -/

/-- Both runs start from one store. -/
def ofEq {Inv : Store → Prop} {cost : Store → Nat} (hInv : Store.IsKept Inv)
    (hcost : Store.IsCost cost) : Lockstep where
  Rel s s' := s' = s
  Inv := Inv
  cost := cost
  content h := congrArg Store.content h
  withContent h k := congrArg (·.withContent k) h
  isKept := hInv
  isCost := hcost

section

variable {Inv : Store → Prop} {cost : Store → Nat} {hInv : Store.IsKept Inv}
  {hcost : Store.IsCost cost}

theorem inStep_of_run_eq (h : ∀ s, Inv s → m'.run s = m.run s) :
    (ofEq hInv hcost).InStep m m' := by
  rintro _ s r u rfl hinv hm
  exact .inr ⟨u, (h s hinv).trans hm, rfl⟩

theorem inStep_traceLine_ofEq {m m' : Eval Text} (head : Text)
    (h : (ofEq hInv hcost).InStep m m') (ho : m.Observes) :
    (ofEq hInv hcost).InStep (traceLine head m) (traceLine head m') :=
  inStep_traceLine (congrArg Store.tracing) (fun _ hss => hss ▸ rfl) head h ho

end

theorem traced_ofEq {Inv : Store → Prop} {cost : Store → Nat} (hInv : Store.IsKept Inv)
    (hcost : Store.IsCost cost) : (ofEq hInv hcost).Traced where
  traceLine head h ho := inStep_traceLine_ofEq head h ho
  switchTrace _ := inStep_of_run_eq fun _ _ => rfl

/-! ## Depths -/

/-- Two runs from one store, until the first one runs out of depth. -/
def byDepth : Lockstep := ofEq Store.isKept_true Store.isCost_overruns

theorem traced_byDepth : byDepth.Traced := traced_ofEq Store.isKept_true Store.isCost_overruns

theorem inStep_overrun_byDepth (m' : Eval α) : byDepth.InStep overrun m' := by
  intro s s' r u _ _ hrun
  obtain ⟨-, rfl⟩ := ended_inj (r := .error .depthExceeded) hrun
  exact .inl (Nat.lt_succ_self s.overruns)

theorem entries_byDepth : ∀ {depth depth' : Nat}, depth ≤ depth' →
    traced_byDepth.judgement.Entries (.ofDepth depth) (.ofDepth depth')
  | 0, _, _ =>
    traced_byDepth.entries_exhausted (fun _ _ => inStep_overrun_byDepth _)
      (fun _ _ _ => inStep_overrun_byDepth _) (fun _ => inStep_overrun_byDepth _)
      fun _ => inStep_overrun_byDepth _
  | _ + 1, _ + 1, h =>
    traced_byDepth.entries_deeper (entries_byDepth (Nat.le_of_succ_le_succ h))

end Lockstep

/-- What any step makes of a store. -/
theorem Step.leads_perform (depth : Nat) (step : Step) (s : Store) :
    s.Leads ((step.perform (.ofDepth depth)).leaves s) := by
  have hstep := Judgement.perform (Lockstep.entries_byDepth (Nat.le_refl depth))
    (step.within_of_forall fun _ => trivial)
  obtain ⟨r, u, hrun⟩ := exists_ended (step.perform (.ofDepth depth)) s
  rw [leaves_of_run hrun]
  exact hstep.leads hrun

/-- What any session makes of the cells of a store. -/
theorem Session.ripens_run (depth : Nat) (steps : List Step) (s : Store) :
    s.Ripens (Session.run (.ofDepth depth) steps s).2 := by
  induction steps generalizing s with
  | nil => exact Store.ripens_of_lazies rfl
  | cons step steps ih =>
      let start : Store := { s with pieces := [] }
      have hstart : s.Ripens start := Store.ripens_of_lazies rfl
      rw [run_snd_cons, perform_snd]
      exact (hstart.trans (step.leads_perform depth start).toRipens).trans (ih _)

end Descent
