import Descent.Proofs.Lockstep

/-!
# Lazy parsers are built once

What every session does to its lazy parsers. Between steps no cell is being built, whatever
ended the last step, and a cell that is built stays as it is. While the builder of a cell
runs, the cell is barred: a run with entries that turn down this cell at once, without a look
at it, is the same run. So the builder is not started inside itself.
-/

namespace Descent

open Eval

namespace Entry

/-- One entry more than `e`, but to build or to enter the cell `c` ends in the fault at once. -/
def barring (c : Nat) (f : Fault) (e : Entry) : Entry :=
  let build (d : Nat) : Eval Parser := if d = c then throw f else e.buildLazy d
  { e.deeper with
    lazy := fun d cur => if d = c then throw f else e.enterWith build d cur
    force := build }

/-- As many nested entries as the depth says, none of which is one into the cell `c`. -/
def barred (c : Nat) (f : Fault) : Nat → Entry
  | 0 => exhausted
  | depth + 1 => (barred c f depth).barring c f

end Entry

namespace Lockstep

/-- A cell whose builder runs stays as it is. -/
theorem isKept_started (c : Nat) (cell : LazyCell) :
    Store.IsKept fun s => s.lazies[c]? = some cell.started where
  of_leads h hs := h.eq_of_ne_idle hs (by rintro ⟨⟩)
  of_started {s d other} hother hidle hs := by
    have hdc : d ≠ c := by
      rintro rfl
      cases hs.symm.trans hother
      cases hidle
    rw [Store.lazies_modifyCell_of_ne hdc, hs]

/-- Two runs from one store in which the builder of the cell runs. -/
def whileBuilding (c : Nat) (cell : LazyCell) : Lockstep :=
  ofEq (isKept_started c cell) Store.isCost_zero

variable {c : Nat} {cell : LazyCell}

theorem inStep_whileBuilding {α : Type} {m m' : Eval α}
    (h : ∀ s, s.lazies[c]? = some cell.started → m'.run s = m.run s) :
    (whileBuilding c cell).InStep m m' :=
  inStep_of_run_eq h

theorem traced_whileBuilding (c : Nat) (cell : LazyCell) : (whileBuilding c cell).Traced :=
  traced_ofEq (isKept_started c cell) Store.isCost_zero

section

variable {e e' : Entry} (he : (traced_whileBuilding c cell).judgement.Entries e e')
include he

theorem holds_barring_force (d : Nat) : (whileBuilding c cell).Holds (e.buildLazy d)
    ((e'.barring c (.notReady cell.description)).force d) fun _ => True := by
  have hd := Judgement.buildLazy he d
  by_cases hdc : d = c
  · subst hdc
    refine ⟨hd.leads, hd.value, inStep_whileBuilding fun s hs => ?_⟩
    rw [Entry.run_buildLazy_of_building e hs rfl]
    simp only [Entry.barring, if_true]
    rfl
  · simp only [Entry.barring, if_neg hdc]
    exact hd

theorem holds_barring_lazy (d : Nat) (cur : Text) : (whileBuilding c cell).Holds
    (e.enterLazy d cur) ((e'.barring c (.notReady cell.description)).lazy d cur)
    fun _ => True := by
  have hd := (Judgement.enterWith he (holds_barring_force he) d cur).weaken fun _ _ => trivial
  by_cases hdc : d = c
  · subst hdc
    refine ⟨hd.leads, hd.value, inStep_whileBuilding fun s hs => ?_⟩
    have hrun : (e.enterLazy d cur).run s = .error (.notReady cell.started.description) s := by
      rw [Entry.enterLazy, run_bind_ok (run_lazyCell hs)]
      exact run_bind_error (Entry.run_buildLazy_of_building e hs rfl)
    rw [hrun]
    simp only [Entry.barring, if_true]
    rfl
  · simp only [Entry.barring, if_neg hdc]
    exact hd

end

/-- While the builder runs, its cell may be barred. -/
theorem entries_barred (c : Nat) (cell : LazyCell) : ∀ depth,
    (traced_whileBuilding c cell).judgement.Entries (.ofDepth depth)
      (.barred c (.notReady cell.description) depth)
  | 0 =>
    have hover {α : Type} : (whileBuilding c cell).InStep (overrun : Eval α) overrun :=
      inStep_whileBuilding fun _ _ => rfl
    (traced_whileBuilding c cell).entries_exhausted (fun _ _ => hover) (fun _ _ _ => hover)
      (fun _ => hover) fun _ => hover
  | depth + 1 =>
    have he := entries_barred c cell depth
    { (traced_whileBuilding c cell).entries_deeper he with
      lazy := fun d cur => (holds_barring_lazy he d cur).weaken fun _ _ _ _ => trivial
      force := holds_barring_force he
      given := fun _ cur hp => Judgement.parse_plain _ hp _ _ cur fun _ _ _ => trivial }

end Lockstep

namespace Entry

/-- The builder of an idle cell is started once, with its cell barred, and the cell is as this
start left it when the builder ends. -/
theorem exists_run_buildLazy {s : Store} {c : Nat} {cell : LazyCell}
    (hcell : s.lazies[c]? = some cell) (hidle : cell.phase = .idle) (depth : Nat) :
    ∃ r u, ((barred c (.notReady cell.description) depth).building cell).run
        (s.modifyCell c .started) = ended r u ∧
      u.lazies[c]? = some cell.started ∧
      ((ofDepth depth).buildLazy c).run s =
        ended (r.map Prod.fst) (u.modifyCell c (.settled r)) := by
  have hbuilding := Judgement.building (Lockstep.entries_barred c cell depth) cell
    (cell.within_of_forall fun _ => trivial)
  obtain ⟨r, u, hrun⟩ := exists_ended ((ofDepth depth).building cell) (s.modifyCell c .started)
  have hstarted : (s.modifyCell c .started).lazies[c]? = some cell.started :=
    Store.lazies_modifyCell_self _ hcell
  refine ⟨r, u, ?_, (hbuilding.leads hrun).eq_of_ne_idle hstarted (by rintro ⟨⟩),
    run_buildLazy_of_idle _ hcell hidle hrun⟩
  rcases hbuilding.inStep rfl hstarted hrun with hcost | ⟨_, hrun', rfl⟩
  · exact absurd hcost (Nat.lt_irrefl 0)
  · exact hrun'

/-- To enter an idle cell is to build it and to run what it is built to. -/
theorem run_enterLazy_of_idle (e : Entry) {s : Store} {c : Nat} {cell : LazyCell}
    (hcell : s.lazies[c]? = some cell) (hidle : cell.phase = .idle) (cur : Text) :
    (e.enterLazy c cur).run s = (e.buildLazy c >>= fun p => p.parse e cur).run s := by
  rw [enterLazy, run_bind_ok (run_lazyCell hcell), hidle]

end Entry

namespace Session

/-- After the steps of any session no cell is being built, and the starts of its builder are
those that ended in a fault and one more if it is built. What is built stays as it is, so its
builder is not started again and it is built to the same parser for ever. A builder is started
from an idle cell alone, and while it runs all that comes to its cell is turned down. -/
theorem lazies_built_once (depth : Nat) (earlier later : List Step) :
    let s := (run (.ofDepth depth) earlier {}).2
    let t := (run (.ofDepth depth) (earlier ++ later) {}).2
    (∀ (c : Nat) (cell : LazyCell), s.lazies[c]? = some cell →
      cell.isBuilding = false ∧ cell.starts = cell.failures + if cell.isBuilt then 1 else 0) ∧
    (∀ (c : Nat) (cell : LazyCell) p entry, s.lazies[c]? = some cell → cell.phase = .built p entry →
      t.lazies[c]? = some cell ∧ ∀ n, ((Entry.ofDepth (n + 1)).force c).run t = .ok p t) ∧
    ∀ n (u : Store) (c : Nat) (cell : LazyCell), u.lazies[c]? = some cell → cell.phase = .idle →
      ∃ r v, ((Entry.barred c (.notReady cell.description) n).building cell).run
          (u.modifyCell c .started) = ended r v ∧
        v.lazies[c]? = some cell.started ∧
        ((Entry.ofDepth (n + 1)).force c).run u =
          ended (r.map Prod.fst) (v.modifyCell c (.settled r)) ∧
        ∀ cur, ((Entry.ofDepth (n + 1)).lazy c cur).run u =
          ((Entry.ofDepth (n + 1)).force c >>= fun p => p.parse (.ofDepth n) cur).run u := by
  intro s t
  have hst : s.Ripens t := by
    have ht : t = (run (.ofDepth depth) later s).2 := run_snd_append _ earlier later {}
    exact ht ▸ ripens_run depth later s
  refine ⟨fun c cell hcell => ?_, fun c cell p entry hcell hphase => ?_, ?_⟩
  · have hsettled : cell.IsSettled := (ripens_run depth earlier {}).new c cell rfl hcell
    exact ⟨hsettled.isBuilding, hsettled.starts⟩
  · have hkept : t.lazies[c]? = some cell := hst.eq_of_ne_idle hcell (by rw [hphase]; nofun)
    exact ⟨hkept, fun n => Entry.run_buildLazy_of_built _ hkept hphase⟩
  · intro n u c cell hcell hidle
    obtain ⟨r, v, hrun, hstarted, hforce⟩ := Entry.exists_run_buildLazy hcell hidle n
    exact ⟨r, v, hrun, hstarted, hforce, fun cur => Entry.run_enterLazy_of_idle _ hcell hidle cur⟩

/-- A builder that fails once, and one that runs its own parser. -/
theorem lazies_built_once_self :
    let digit : Recipe := .lazy (text "digit") (some 1) 1 [] (.given .digit)
    let self : Recipe := .lazy (text "self") none 0 [.run (.named "self") [] .stored] (.named "digit")
    let ask (name : String) : Step := .run (.named name) (text "1") .whole
    let earlier := [.define "digit" digit, .define "self" self, ask "digit", ask "digit", ask "self"]
    let s := (run (.ofDepth 2) earlier {}).2
    let t := (run (.ofDepth 2) (earlier ++ [ask "self"]) {}).2
    (∃ cell p entry, s.lazies[0]? = some cell ∧ cell.phase = .built p entry ∧
      cell.starts = 2 ∧ cell.failures = 1 ∧ cell.isBuilding = false ∧
      t.lazies[0]? = some cell ∧ ((Entry.ofDepth 1).force 0).run t = .ok p t) ∧
    ∃ cell, s.lazies[1]? = some cell ∧ cell.phase = .idle ∧ cell.starts = 1 ∧ cell.failures = 1 ∧
      ∃ r v, ((Entry.barred 1 (.notReady cell.description) 1).building cell).run
          (s.modifyCell 1 .started) = ended r v ∧
        ((Entry.ofDepth 2).force 1).run s =
          ended (r.map Prod.fst) (v.modifyCell 1 (.settled r)) := by
  intro digit self ask earlier s t
  obtain ⟨hsettled, hkept, hbarred⟩ := lazies_built_once 2 earlier [ask "self"]
  have hdigit : s.lazies[0]?.any fun cell =>
      cell.isBuilt && (cell.starts == 2 && cell.failures == 1) := by decide +kernel
  have hself : s.lazies[1]?.any fun cell =>
      !cell.isBuilt && (!cell.isBuilding && (cell.starts == 1 && cell.failures == 1)) := by
    decide +kernel
  simp only [Option.any_eq_true, Bool.and_eq_true, Bool.not_eq_true', beq_iff_eq] at hdigit hself
  obtain ⟨cell, hcell, hbuilt, hstarts, hfailures⟩ := hdigit
  obtain ⟨other, hother, hunbuilt, hrests, hstarts', hfailures'⟩ := hself
  obtain ⟨p, entry, hphase⟩ := LazyCell.exists_phase_of_isBuilt hbuilt
  have hidle : other.phase = .idle := LazyCell.phase_eq_idle hunbuilt hrests
  obtain ⟨hstays, hforced⟩ := hkept 0 cell p entry hcell hphase
  obtain ⟨r, v, hrun, -, hforce, -⟩ := hbarred 1 s 1 other hother hidle
  exact ⟨⟨cell, p, entry, hcell, hphase, hstarts, hfailures, (hsettled 0 cell hcell).1, hstays,
    hforced 0⟩, other, hother, hidle, hstarts', hfailures', r, v, hrun, hforce⟩

end Session

end Descent
