import Descent.Proofs.Depth

/-!
# What is kept for the entry does not go stale

A lazy parser keeps what it is entered by from the moment when it is built: its parser, or what
this one was entered by if it was itself a lazy parser that was built. So a cell may keep an
unbuilt lazy parser that is built later, and a cell that was built before another one is entered
in more steps than that one. What is kept stays linked in this way to the parser of the cell, in
every store that a session comes to. A run through what is kept and a run through the method of
the kind of the parser then follow each other from depth to depth: the first one needs no more
depth than the second one and one entry, and the second one no more than the first one.
-/

namespace Descent

open Eval

namespace Store

variable {s t u : Store} {p q entry : Parser} {c : Nat} {cell : LazyCell}

/-- What a cell with this parser may be entered by: the parser, or what the cell of the parser is
entered by. -/
def Enters (s : Store) (p entry : Parser) : Prop :=
  entry = p ∨ ∃ (c : Nat) (cell : LazyCell) (q : Parser),
    p = .lazy c ∧ s.lazies[c]? = some cell ∧ cell.phase = .built q entry

/-- All cells that are built keep what their parsers may be entered by. -/
def IsLinked (s : Store) : Prop :=
  ∀ (c : Nat) (cell : LazyCell) p entry,
    s.lazies[c]? = some cell → cell.phase = .built p entry → s.Enters p entry

theorem Enters.of_kept (h : s.Enters p entry)
    (hkept : ∀ (c : Nat) (cell : LazyCell) p entry, s.lazies[c]? = some cell →
      cell.phase = .built p entry → t.lazies[c]? = some cell) : t.Enters p entry := by
  rcases h with rfl | ⟨c, cell, q, rfl, hcell, hphase⟩
  · exact .inl rfl
  · exact .inr ⟨c, cell, q, rfl, hkept c cell q entry hcell hphase, hphase⟩

theorem isLinked_of_lazies (h : t.lazies = s.lazies) (hs : s.IsLinked) : t.IsLinked := by
  intro c cell p entry hcell hphase
  rw [h] at hcell
  exact (hs c cell p entry hcell hphase).of_kept fun d other _ _ hother _ => h ▸ hother

theorem isLinked_withContent {k : Content} (h : s.content.Grows k) (hs : s.IsLinked) :
    (s.withContent k).IsLinked := by
  intro c cell p entry hcell hphase
  cases hold : s.lazies[c]? with
  | none =>
      have hnew : cell.phase = .idle := (h.new c cell hold hcell).phase
      cases hnew.symm.trans hphase
  | some old =>
      have hsame : cell = old := Option.some.inj (hcell.symm.trans (h.old c old hold))
      subst hsame
      exact (hs c cell p entry hold hphase).of_kept fun d other _ _ hother _ =>
        h.old d other hother

/-- A cell that is not built may change, if it keeps what its parser may be entered by. -/
theorem isLinked_modifyCell {f : LazyCell → LazyCell} (hs : s.IsLinked)
    (hcell : s.lazies[c]? = some cell) (hunbuilt : cell.isBuilt = false)
    (hf : ∀ p entry, (f cell).phase = .built p entry → s.Enters p entry) :
    (s.modifyCell c f).IsLinked := by
  have hkept (d : Nat) (other : LazyCell) (p entry : Parser) (hother : s.lazies[d]? = some other)
      (hphase : other.phase = .built p entry) : (s.modifyCell c f).lazies[d]? = some other := by
    have hbuilt : other.isBuilt = true := by rw [LazyCell.isBuilt, hphase]
    exact (extends_modifyCell f hcell hunbuilt).built d other hother hbuilt
  intro d other p entry hother hphase
  by_cases hcd : c = d
  · subst hcd
    rw [lazies_modifyCell_self f hcell] at hother
    cases hother
    exact (hf p entry hphase).of_kept hkept
  · rw [lazies_modifyCell_of_ne hcd] at hother
    exact (hs d other p entry hother hphase).of_kept hkept

theorem isLinked_started (hs : s.IsLinked) (hcell : s.lazies[c]? = some cell)
    (hidle : cell.phase = .idle) : (s.modifyCell c .started).IsLinked := by
  refine isLinked_modifyCell hs hcell ?_ ?_
  · rw [LazyCell.isBuilt, hidle]
  · rintro _ _ ⟨⟩

theorem isLinked_settled {r : Except Fault (Parser × Parser)} (hs : s.IsLinked)
    (hcell : s.lazies[c]? = some cell.started)
    (hr : ∀ made, r = .ok made → s.Enters made.1 made.2) :
    (s.modifyCell c (.settled r)).IsLinked := by
  refine isLinked_modifyCell hs hcell rfl fun p entry hphase => ?_
  cases r with
  | ok made =>
      cases hphase
      exact hr made rfl
  | error f => cases hphase

end Store

/-! ## Runs keep the links -/

theorem Eval.exists_of_run_bind {α β : Type} {m : Eval α} {k : α → Eval β} {s v : Store} {b : β}
    (h : (m >>= k).run s = ended (.ok b) v) :
    ∃ a u, m.run s = .ok a u ∧ (k a).run u = ended (.ok b) v := by
  obtain ⟨r, u, hm⟩ := exists_ended m s
  cases r with
  | ok a => exact ⟨a, u, hm, (run_bind_ok hm).symm.trans h⟩
  | error f =>
      have hsame := (run_bind_error hm).symm.trans h
      cases hsame

theorem Eval.enters_of_run_entryOf {p entry : Parser} {s u : Store}
    (h : (entryOf p).run s = ended (.ok entry) u) : u.Enters p entry := by
  cases p with
  | lazy c =>
      rw [entryOf] at h
      obtain ⟨cell, t, hlookup, h⟩ := exists_of_run_bind h
      cases hcell : s.lazies[c]? with
      | none =>
          rw [lazyCell, run_bind_ok (EStateM.run_get s), hcell] at hlookup
          cases hlookup
      | some found =>
          cases (run_lazyCell hcell).symm.trans hlookup
          split at h
          · rename_i q kept hphase
            cases h
            exact .inr ⟨c, cell, q, rfl, hcell, hphase⟩
          · cases h
            exact .inl rfl
  | _ =>
      cases h
      exact .inl rfl

theorem Entry.enters_of_run_building {e : Entry} {cell : LazyCell} {s u : Store}
    {made : Parser × Parser} (h : (e.building cell).run s = ended (.ok made) u) :
    u.Enters made.1 made.2 := by
  rw [building] at h
  obtain ⟨_, _, _, h⟩ := exists_of_run_bind h
  obtain ⟨p, _, _, h⟩ := exists_of_run_bind h
  obtain ⟨entry, _, hentry, h⟩ := exists_of_run_bind h
  cases h
  exact enters_of_run_entryOf hentry

namespace Eval

variable {α β : Type} {m : Eval α}

/-- A run does to the store what runs do, keeps it linked, and ends in a value as `Q` says. -/
def Links (m : Eval α) (Q : α → Prop) : Prop :=
  ∀ ⦃s r u⦄, m.run s = ended r u →
    s.Leads u ∧ (s.IsLinked → u.IsLinked) ∧ ∀ a, r = .ok a → Q a

namespace Links

variable {P : α → Prop} {Q : β → Prop}

theorem resume {n : Eval β} {k : Except Fault α → Eval β} (h : m.Links P) (hn : n.Resumes m k)
    (hok : ∀ a, P a → (k (.ok a)).Links Q) (herror : ∀ f, (k (.error f)).Links Q) : n.Links Q := by
  intro s r v hv
  obtain ⟨r', u, hm⟩ := exists_ended m s
  obtain ⟨hleads, hlinked, hvalue⟩ := h hm
  have hnext : (k r').Links Q := by
    cases r' with
    | ok a => exact hok a (hvalue a rfl)
    | error f => exact herror f
  obtain ⟨hleads', hlinked', hvalue'⟩ := hnext ((hn s r' u hm).symm.trans hv)
  exact ⟨hleads.trans hleads', fun hs => hlinked' (hlinked hs), hvalue'⟩

theorem manages {K : Parser → Prop} (hK : ∀ p, K p) (h : m.Manages K P) : m.Links P := by
  obtain ⟨f, hrun, hf⟩ := h
  intro s r u hm
  obtain ⟨rfl, rfl⟩ := ended_inj ((hrun s).symm.trans hm)
  obtain ⟨hgrows, hwithin⟩ := hf s.content
  exact ⟨Store.leads_withContent hgrows, Store.isLinked_withContent hgrows,
    (hwithin (Content.within_of_forall hK _)).2⟩

theorem traceLine {m : Eval Text} (head : Text) (h : m.Observes) :
    (Eval.traceLine head m).Links fun _ => True := by
  intro s r u hrun
  refine ⟨Lockstep.leads_traceLine h head hrun, Store.isLinked_of_lazies ?_, fun _ _ => trivial⟩
  rcases h.run_traceLine head s with ⟨-, hline⟩ | ⟨-, pieces, hline | hline⟩ <;>
  · obtain ⟨-, rfl⟩ := ended_inj (hline.symm.trans hrun)
    rfl

theorem of_holds {L : Lockstep} {m' : Eval α} {P : α → Prop} (h : L.Holds m m' P)
    (hlazies : ∀ s, (m.leaves s).lazies = s.lazies) : m.Links P := by
  intro s r u hrun
  refine ⟨h.leads hrun, Store.isLinked_of_lazies ?_, ?_⟩
  · rw [← leaves_of_run hrun, hlazies]
  · rintro a rfl
    exact h.value hrun

theorem switchTrace (on : Bool) : (Eval.switchTrace on).Links fun _ => True :=
  of_holds (Lockstep.traced_byDepth.judgement.switchTrace on) fun _ => rfl

theorem overrun : (Eval.overrun : Eval α).Links P :=
  of_holds (Lockstep.holds_overrun (Lockstep.inStep_overrun_byDepth Eval.overrun)) fun _ => rfl

/-- A cell is built to what its builder made, and keeps what this may be entered by. -/
theorem buildLazy {e : Entry} (h : ∀ cell, (e.building cell).Links fun _ => True) (c : Nat) :
    (e.buildLazy c).Links fun _ => True := by
  intro s r v hv
  rcases Entry.buildLazy_cases s c with ⟨cell, hcell, hidle⟩ | ⟨r', -, hbuild⟩
  · obtain ⟨made, u, hrun⟩ := exists_ended (e.building cell) (s.modifyCell c .started)
    obtain ⟨-, rfl⟩ := ended_inj ((e.run_buildLazy_of_idle hcell hidle hrun).symm.trans hv)
    obtain ⟨hleads, hlinked, -⟩ := h cell hrun
    have hstarted : u.lazies[c]? = some cell.started :=
      hleads.eq_of_ne_idle (Store.lazies_modifyCell_self _ hcell) (by rintro ⟨⟩)
    refine ⟨Store.leads_of_started hcell hleads (LazyCell.becomes_settled hidle made),
      fun hs => Store.isLinked_settled (hlinked (Store.isLinked_started hs hcell hidle)) hstarted ?_,
      fun _ _ => trivial⟩
    rintro pair rfl
    exact Entry.enters_of_run_building hrun
  · obtain ⟨-, rfl⟩ := ended_inj ((hbuild e s rfl).symm.trans hv)
    exact ⟨Store.leads_refl s, id, fun _ _ => trivial⟩

end Links

end Eval

namespace Judgement

/-- That stores stay linked, as a judgement about one run. All parsers count as put together
from plain functions, as in lockstep. -/
def linking : Judgement :=
  { Lockstep.traced_byDepth.judgement with
    Holds := fun m _ Q => m.Links Q
    weaken := fun h hPQ _ _ _ hm => ⟨(h hm).1, (h hm).2.1, fun a ha => hPQ a ((h hm).2.2 a ha)⟩
    resume := fun h hn _ hok herror _ => h.resume hn hok herror
    manages := Links.manages fun _ => trivial
    traceLine := fun head _ ho => Links.traceLine head ho
    switchTrace := Links.switchTrace
    build := fun h => Links.buildLazy fun cell _ _ _ hrun =>
      have hcell := h cell (cell.within_of_forall fun _ => trivial) hrun
      ⟨hcell.1, hcell.2.1, fun _ _ => trivial⟩ }

theorem entries_linking : ∀ depth, linking.Entries (.ofDepth depth) (.ofDepth depth)
  | 0 =>
    { lazy := fun _ _ => Links.overrun
      first := fun _ _ _ => Links.overrun
      force := fun _ => Links.overrun
      describe := fun _ => Links.overrun
      observes := fun _ => observes_overrun
      given := fun _ cur hp => linking.parse_plain hp _ _ cur fun _ _ _ => trivial }
  | depth + 1 =>
    (entries_linking depth).deeper fun _ cur hp =>
      linking.parse_plain hp _ _ cur fun _ _ _ => trivial

end Judgement

/-- The stores that sessions come to, also those that they come to while builders run. -/
inductive Store.IsReached : Store → Prop where
  | empty (tracing : Bool) : IsReached { tracing := tracing }
  | perform {s : Store} (depth : Nat) (step : Step) :
      IsReached s → IsReached ((step.perform (.ofDepth depth)).leaves s)
  | started {s : Store} {c : Nat} {cell : LazyCell} :
      IsReached s → s.lazies[c]? = some cell → cell.phase = .idle →
      IsReached (s.modifyCell c .started)
  /-- The trace is that of one step alone. -/
  | cleared {s : Store} : IsReached s → IsReached { s with pieces := [] }

theorem Store.IsReached.isLinked {s : Store} (hs : s.IsReached) : s.IsLinked := by
  induction hs with
  | empty tracing =>
      intro c cell p entry hcell
      cases hcell
  | @perform s depth step _ ih =>
      have hstep := Judgement.perform (Judgement.entries_linking depth)
        (step.within_of_forall fun _ => trivial)
      obtain ⟨r, u, hrun⟩ := exists_ended (step.perform (.ofDepth depth)) s
      rw [leaves_of_run hrun]
      exact (hstep hrun).2.1 ih
  | started _ hcell hidle ih => exact isLinked_started ih hcell hidle
  | cleared _ ih => exact isLinked_of_lazies rfl ih

/-! ## Two runs that follow each other -/

namespace Eval

variable {α : Type} {s : Store} {l m n : Eval α}

/-- From the store, `m` ends as `l` does, if `l` does not run out of depth. -/
def Follows (s : Store) (m l : Eval α) : Prop :=
  ∀ r u, l.run s = ended r u → u.overruns = s.overruns → m.run s = ended r u

theorem follows_of_run_eq (h : m.run s = l.run s) : Follows s m l :=
  fun _ _ hl _ => h.trans hl

theorem Follows.trans (h : Follows s n m) (h' : Follows s m l) : Follows s n l :=
  fun r u hl hs => h r u (h' r u hl hs) hs

theorem follows_overrun (m : Eval α) : Follows s m overrun := by
  intro r u hl hs
  obtain ⟨-, rfl⟩ := ended_inj (r := .error .depthExceeded) hl
  exact absurd hs (Nat.succ_ne_self _)

theorem follows_overrun_bind {β : Type} {k : β → Eval α} (m : Eval α) :
    Follows s m (overrun >>= k) := by
  intro r u hl hs
  obtain ⟨-, rfl⟩ := ended_inj (r := .error .depthExceeded) hl
  exact absurd hs (Nat.succ_ne_self _)

theorem follows_byDepth {Q : α → Prop} (h : Lockstep.byDepth.Holds l m Q) : Follows s m l :=
  fun _ _ hl hs => Lockstep.run_byDepth h hl hs

end Eval

namespace Entry

variable {s : Store} {c : Nat} {cell : LazyCell} {p q entry : Parser}

/-- Runs what a cell is entered by. -/
def runKept (e : Entry) (entry : Parser) (cur : Text) : Eval (List Outcome) :=
  entry.parseByMethod { e with force := e.buildLazy } cur

/-- Builds a cell if need be, and runs its parser. -/
def runBuilt (e : Entry) (c : Nat) (cur : Text) : Eval (List Outcome) := do
  let p ← e.buildLazy c
  p.parse e cur

theorem runKept_lazy (e : Entry) (c : Nat) (cur : Text) :
    e.runKept (.lazy c) cur = e.runBuilt c cur := by
  have hparse (p : Parser) : p.parse { e with force := e.buildLazy } cur = p.parse e cur :=
    p.parse_withForce e e.buildLazy cur
  simp only [runKept, Parser.parseByMethod, hparse, runBuilt]

/-- Only a lazy parser has a method that is not what is kept for its entry. -/
theorem parseByMethod_of_ne_lazy (e : Entry) (h : ∀ c, p ≠ .lazy c) (cur : Text) :
    p.parseByMethod e cur = p.parse e cur := by
  cases p with
  | lazy c => exact absurd rfl (h c)
  | _ => rfl

theorem runKept_of_ne_lazy (e : Entry) (h : ∀ c, p ≠ .lazy c) (cur : Text) :
    e.runKept p cur = p.parse e cur := by
  rw [runKept, parseByMethod_of_ne_lazy _ h, Parser.parse_withForce]

theorem run_enterLazy_of_built (e : Entry) (hcell : s.lazies[c]? = some cell)
    (hphase : cell.phase = .built p entry) (cur : Text) :
    (e.enterLazy c cur).run s = (e.runKept entry cur).run s := by
  rw [enterLazy, run_bind_ok (run_lazyCell hcell), hphase]
  rfl

theorem run_parseByMethod_of_built (e : Entry) (hcell : s.lazies[c]? = some cell)
    (hphase : cell.phase = .built p entry) (cur : Text) :
    ((Parser.lazy c).parseByMethod e.deeper cur).run s = (p.parse e.deeper cur).run s :=
  run_bind_ok (run_buildLazy_of_built e hcell hphase)

theorem run_runBuilt_of_built (e : Entry) (hcell : s.lazies[c]? = some cell)
    (hphase : cell.phase = .built p entry) (cur : Text) :
    (e.runBuilt c cur).run s = (p.parse e cur).run s :=
  run_bind_ok (run_buildLazy_of_built e hcell hphase)

/-- A cell that is not built is entered by its method. -/
theorem enterLazy_cases (s : Store) (c : Nat) :
    (∃ cell p entry, s.lazies[c]? = some cell ∧ cell.phase = .built p entry) ∨
      ∀ (e : Entry) cur, (e.enterLazy c cur).run s = (e.runBuilt c cur).run s := by
  cases hcell : s.lazies[c]? with
  | none =>
      refine .inr fun e cur => ?_
      have hnone : (lazyCell c).run s = .error .noCell s := by
        rw [lazyCell, run_bind_ok (EStateM.run_get s), hcell]
        rfl
      rw [enterLazy, run_bind_error hnone]
      exact (run_bind_error (run_bind_error hnone)).symm
  | some cell =>
      cases hphase : cell.phase with
      | built p entry => exact .inl ⟨cell, p, entry, rfl, hphase⟩
      | _ =>
          refine .inr fun e cur => ?_
          rw [enterLazy, run_bind_ok (run_lazyCell hcell), hphase]
          rfl

variable {depth depth' : Nat}

theorem follows_parse (h : depth ≤ depth') (p : Parser) (cur : Text) (s : Store) :
    Follows s (p.parse (ofDepth depth') cur) (p.parse (ofDepth depth) cur) :=
  follows_byDepth (Judgement.parse (Lockstep.entries_byDepth h) p.composedOf_isPlain cur)

theorem follows_build_parse {n n' : Nat} (h : depth ≤ depth') (hn : n ≤ n') (c : Nat) (cur : Text)
    (s : Store) :
    Follows s (do let p ← (ofDepth depth').buildLazy c; p.parse (ofDepth n') cur)
      (do let p ← (ofDepth depth).buildLazy c; p.parse (ofDepth n) cur) :=
  follows_byDepth (Judgement.bind _ (Judgement.buildLazy (Lockstep.entries_byDepth h) c)
    fun p _ => Judgement.parse (Lockstep.entries_byDepth hn) p.composedOf_isPlain cur)

/-- A run through what is kept needs no more depth than a run of the parser of the cell. -/
def KeptFollows (s : Store) (depth : Nat) : Prop :=
  ∀ p entry cur, s.Enters p entry →
    Follows s ((ofDepth depth).runKept entry cur) (p.parse (ofDepth depth) cur)

/-- A run of the parser of the cell needs at most one entry more than one through what is kept. -/
def ParserFollows (s : Store) (depth : Nat) : Prop :=
  ∀ p entry cur, s.Enters p entry →
    Follows s (p.parse (ofDepth (depth + 1)) cur) ((ofDepth depth).runKept entry cur)

theorem keptFollows_zero (s : Store) : KeptFollows s 0 := by
  intro p entry cur hentry
  rcases hentry with rfl | ⟨c, cell, q, rfl, -, -⟩
  · by_cases hlazy : ∃ c, entry = .lazy c
    · obtain ⟨c, rfl⟩ := hlazy
      exact follows_overrun _
    · rw [runKept_of_ne_lazy _ (not_exists.1 hlazy)]
      exact follows_of_run_eq rfl
  · exact follows_overrun _

theorem parserFollows (hs : s.IsLinked) (h : KeptFollows s depth) : ParserFollows s depth := by
  intro p entry cur hentry
  rcases hentry with rfl | ⟨c, cell, q, rfl, hcell, hphase⟩
  · by_cases hlazy : ∃ c, entry = .lazy c
    · obtain ⟨c, rfl⟩ := hlazy
      rw [runKept_lazy]
      change Follows s ((ofDepth depth).enterLazy c cur) _
      rcases enterLazy_cases s c with ⟨cell, p, entry, hcell, hphase⟩ | hmethod
      · have hkept := h p entry cur (hs c cell p entry hcell hphase)
        exact (follows_of_run_eq (run_enterLazy_of_built _ hcell hphase cur)).trans
          (hkept.trans (follows_of_run_eq (run_runBuilt_of_built _ hcell hphase cur).symm))
      · exact follows_of_run_eq (hmethod _ cur)
    · rw [runKept_of_ne_lazy _ (not_exists.1 hlazy)]
      exact follows_parse (Nat.le_succ depth) entry cur s
  · exact follows_of_run_eq (run_enterLazy_of_built _ hcell hphase cur)

theorem keptFollows_succ (hs : s.IsLinked) (h : ParserFollows s depth) :
    KeptFollows s (depth + 1) := by
  intro p entry cur hentry
  rcases hentry with rfl | ⟨c, cell, q, rfl, hcell, hphase⟩
  · by_cases hlazy : ∃ c, entry = .lazy c
    · obtain ⟨c, rfl⟩ := hlazy
      rw [runKept_lazy]
      change Follows s _ ((ofDepth depth).enterLazy c cur)
      rcases enterLazy_cases s c with ⟨cell, p, entry, hcell, hphase⟩ | hmethod
      · have hparser := h p entry cur (hs c cell p entry hcell hphase)
        exact (follows_of_run_eq (run_runBuilt_of_built _ hcell hphase cur)).trans
          (hparser.trans (follows_of_run_eq (run_enterLazy_of_built _ hcell hphase cur).symm))
      · exact (follows_build_parse (Nat.le_succ depth) (Nat.le_succ depth) c cur s).trans
          (follows_of_run_eq (hmethod _ cur).symm)
    · rw [runKept_of_ne_lazy _ (not_exists.1 hlazy)]
      exact follows_of_run_eq rfl
  · exact (follows_of_run_eq (run_enterLazy_of_built (ofDepth (depth + 1)) hcell hphase cur).symm).trans
      (follows_parse (Nat.le_succ (depth + 1)) (.lazy c) cur s)

theorem keptFollows (hs : s.IsLinked) (depth : Nat) : KeptFollows s depth := by
  induction depth with
  | zero => exact keptFollows_zero s
  | succ depth ih => exact keptFollows_succ hs (parserFollows hs ih)

end Entry

namespace Session

open Entry

theorem isReached_run {s : Store} (hs : s.IsReached) (depth : Nat) (steps : List Step) :
    (run (.ofDepth depth) steps s).2.IsReached := by
  induction steps generalizing s with
  | nil => exact hs
  | cons step steps ih =>
      rw [run_snd_cons, perform_snd]
      exact ih (.perform depth step (.cleared hs))

variable {s : Store}

theorem follows_method_stored (hs : s.IsLinked) (p : Parser) (cur : Text) (depth : Nat) :
    Follows s (p.parseByMethod (.ofDepth depth) cur) (p.parse (.ofDepth depth) cur) := by
  by_cases hlazy : ∃ c, p = .lazy c
  · obtain ⟨c, rfl⟩ := hlazy
    cases depth with
    | zero => exact follows_overrun _
    | succ depth =>
        change Follows s _ ((ofDepth depth).enterLazy c cur)
        rcases enterLazy_cases s c with ⟨cell, p, entry, hcell, hphase⟩ | hmethod
        · have hparser := parserFollows hs (keptFollows hs depth) p entry cur
            (hs c cell p entry hcell hphase)
          exact (follows_of_run_eq (run_parseByMethod_of_built _ hcell hphase cur)).trans
            (hparser.trans (follows_of_run_eq (run_enterLazy_of_built _ hcell hphase cur).symm))
        · exact (follows_build_parse (Nat.le_refl depth) (Nat.le_succ depth) c cur s).trans
            (follows_of_run_eq (hmethod _ cur).symm)
  · rw [parseByMethod_of_ne_lazy _ (not_exists.1 hlazy)]
    exact follows_of_run_eq rfl

theorem follows_stored_built (hs : s.IsLinked) {c : Nat} {cell : LazyCell} {p entry : Parser}
    (hcell : s.lazies[c]? = some cell) (hphase : cell.phase = .built p entry) (cur : Text)
    (depth : Nat) :
    Follows s ((Parser.lazy c).parse (.ofDepth (depth + 1)) cur) (p.parse (.ofDepth depth) cur) :=
  (follows_of_run_eq (run_enterLazy_of_built _ hcell hphase cur)).trans
    (keptFollows hs depth p entry cur (hs c cell p entry hcell hphase))

theorem follows_stored_method (hs : s.IsLinked) (p : Parser) (cur : Text) (depth : Nat) :
    Follows s (p.parse (.ofDepth (depth + 1)) cur) (p.parseByMethod (.ofDepth depth) cur) := by
  by_cases hlazy : ∃ c, p = .lazy c
  · obtain ⟨c, rfl⟩ := hlazy
    cases depth with
    | zero => exact follows_overrun_bind _
    | succ depth =>
        rcases enterLazy_cases s c with ⟨cell, p, entry, hcell, hphase⟩ | hmethod
        · exact (follows_stored_built hs hcell hphase cur (depth + 1)).trans
            (follows_of_run_eq (run_parseByMethod_of_built _ hcell hphase cur).symm)
        · exact (follows_of_run_eq (hmethod _ cur)).trans
            (follows_build_parse (Nat.le_succ depth) (Nat.le_refl (depth + 1)) c cur s)
  · rw [parseByMethod_of_ne_lazy _ (not_exists.1 hlazy)]
    exact follows_parse (Nat.le_succ depth) p cur s

/-- What is kept for the entry does not go stale. In every store that a session comes to, and for
every parser and text, the run through the method of its kind ends as the run through what is
kept for the entry does, with the same store and trace, unless this one runs out of depth; and
the other way round, with one entry more. If a lazy parser is built, its method runs the parser
that it is built to, and what it keeps follows that parser in the same way. -/
theorem stored_agrees_method (hs : s.IsReached) (p : Parser) (cur : Text) (depth : Nat) :
    Follows s (p.parseByMethod (.ofDepth depth) cur) (p.parse (.ofDepth depth) cur) ∧
      Follows s (p.parse (.ofDepth (depth + 1)) cur) (p.parseByMethod (.ofDepth depth) cur) ∧
      ∀ (c : Nat) (cell : LazyCell) q entry,
        p = .lazy c → s.lazies[c]? = some cell → cell.phase = .built q entry →
          ((Entry.ofDepth (depth + 1)).force c).run s = .ok q s ∧
          (p.parseByMethod (.ofDepth (depth + 1)) cur).run s =
            (q.parse (.ofDepth (depth + 1)) cur).run s ∧
          Follows s (q.parse (.ofDepth depth) cur) (p.parse (.ofDepth depth) cur) ∧
          Follows s (p.parse (.ofDepth (depth + 1)) cur) (q.parse (.ofDepth depth) cur) := by
  have hlinked := hs.isLinked
  refine ⟨follows_method_stored hlinked p cur depth, follows_stored_method hlinked p cur depth, ?_⟩
  rintro c cell q entry rfl hcell hphase
  refine ⟨run_buildLazy_of_built _ hcell hphase, run_parseByMethod_of_built _ hcell hphase cur, ?_,
    follows_stored_built hlinked hcell hphase cur depth⟩
  cases depth with
  | zero => exact follows_overrun _
  | succ depth =>
      exact (follows_of_run_eq (run_parseByMethod_of_built _ hcell hphase cur).symm).trans
        (follows_method_stored hlinked (.lazy c) cur (depth + 1))

/-- A lazy parser that is built to another one before this is built itself, and a choice at the
end of them that grows after that. -/
theorem stored_agrees_method_chain :
    let word (t : String) : Recipe := .given (.literal (text t))
    let chained (label target : String) : Recipe := .lazy (text label) none 0 [] (.named target)
    let steps := [.trace true, .define "choice" (.first [word "a"]),
      .define "back" (chained "back" "choice"), .define "front" (chained "front" "back"),
      .run (.named "front") (text "a") .stored, .add (.named "choice") (word "b")]
    let s := (run (.ofDepth 4) steps {}).2
    let stored := (Parser.lazy 1).parse (.ofDepth 4) (text "b")
    s.overruns = 0 ∧ (stored.leaves s).overruns = 0 ∧ ∃ r cell q entry,
      stored.run s = ended r (stored.leaves s) ∧
      ((Parser.lazy 1).parseByMethod (.ofDepth 4) (text "b")).run s = ended r (stored.leaves s) ∧
      ((Parser.lazy 1).parse (.ofDepth 5) (text "b")).run s = ended r (stored.leaves s) ∧
      s.lazies[1]? = some cell ∧ cell.phase = .built q entry ∧
      ((Entry.ofDepth 5).force 1).run s = .ok q s ∧
      (q.parse (.ofDepth 4) (text "b")).run s = ended r (stored.leaves s) := by
  intro word chained steps s stored
  have hs : s.overruns = 0 := by decide +kernel
  have hstored : (stored.leaves s).overruns = 0 := by decide +kernel
  have hbuilt : s.lazies[1]?.any fun cell => cell.isBuilt := by decide +kernel
  have hsame : (stored.leaves s).overruns = s.overruns := hstored.trans hs.symm
  have hreached : s.IsReached := isReached_run (.empty false) 4 steps
  obtain ⟨cell, hcell, hcellBuilt⟩ := (Option.any_eq_true ..).1 hbuilt
  obtain ⟨q, entry, hphase⟩ := LazyCell.exists_phase_of_isBuilt hcellBuilt
  obtain ⟨r, u, hrun⟩ := exists_ended stored s
  rw [← leaves_of_run hrun] at hrun
  obtain ⟨hmethod, hagain, hparser⟩ := stored_agrees_method hreached (.lazy 1) (text "b") 4
  obtain ⟨hforce, -, hq, -⟩ := hparser 1 cell q entry rfl hcell hphase
  exact ⟨hs, hstored, r, cell, q, entry, hrun, hmethod r _ hrun hsame,
    hagain r _ (hmethod r _ hrun hsame) hsame, hcell, hphase, hforce, hq r _ hrun hsame⟩

end Session

end Descent
