import Descent.Proofs.Lockstep

/-!
# Enough depth

The depth is a limit and nothing else. A run that does not use it up is the same run at every
greater depth, with the same answer or fault, the same store and the same trace. A run that
uses it up anywhere, also in a builder or in a choice that has further alternatives, ends in
a fault that says so. So no answer comes from the limit, and a session of which no step ends
in such a fault is the same session at every greater depth.
-/

namespace Descent

open Eval

namespace Eval

variable {α β : Type} {m : Eval α}

/-- A run that uses up the depth ends in a fault of depth, and the values of runs are as the
predicate says. -/
def Surfaces (m : Eval α) (Q : α → Prop) : Prop :=
  ∀ ⦃s r u⦄, m.run s = ended r u →
    (u.overruns = s.overruns ∨ ∃ f, r = .error f ∧ f.IsOfDepth) ∧ ∀ a, r = .ok a → Q a

namespace Surfaces

variable {P : α → Prop} {Q : β → Prop}

/-- What follows a fault of depth ends in one again, so nothing turns it into a value. -/
theorem resume {n : Eval β} {k : Except Fault α → Eval β} (h : m.Surfaces P) (hn : n.Resumes m k)
    (hok : ∀ a, P a → (k (.ok a)).Surfaces Q) (herror : ∀ f, (k (.error f)).Surfaces Q)
    (hagain : ∀ f, (k (.error f)).Rethrows f) : n.Surfaces Q := by
  intro s r v hv
  obtain ⟨r', u, hm⟩ := exists_ended m s
  obtain ⟨hover, hvalue⟩ := h hm
  have hlast := (hn s r' u hm).symm.trans hv
  cases r' with
  | ok a =>
      have hsame : u.overruns = s.overruns := hover.resolve_right (by rintro ⟨f, ⟨⟩, -⟩)
      exact hsame ▸ hok a (hvalue a rfl) hlast
  | error f =>
      obtain ⟨hlater, hQ⟩ := herror f hlast
      refine ⟨?_, hQ⟩
      rcases hover with hsame | ⟨_, ⟨⟩, hf⟩
      · exact hsame ▸ hlater
      · obtain ⟨f', w, hthrown, hf'⟩ := hagain f u
        have hsame : ended r v = ended (.error f') w := hlast.symm.trans hthrown
        obtain ⟨rfl, -⟩ := ended_inj hsame
        exact .inr ⟨f', rfl, hf' hf⟩

theorem manages {K : Parser → Prop} (hK : ∀ p, K p) (h : m.Manages K P) : m.Surfaces P := by
  obtain ⟨f, hrun, hf⟩ := h
  intro s r u hm
  obtain ⟨rfl, rfl⟩ := ended_inj ((hrun s).symm.trans hm)
  exact ⟨.inl rfl, ((hf s.content).2 (Content.within_of_forall hK _)).2⟩

theorem overrun : (overrun : Eval α).Surfaces P := by
  intro s r u hm
  obtain ⟨rfl, rfl⟩ := ended_inj (r := .error .depthExceeded) hm
  exact ⟨.inr ⟨_, rfl, trivial⟩, fun _ h => nomatch h⟩

theorem traceLine {m : Eval Text} (head : Text) (h : m.Observes) :
    (Eval.traceLine head m).Surfaces fun _ => True := by
  intro s r u hrun
  refine ⟨?_, fun _ _ => trivial⟩
  rcases h.run_traceLine head s with ⟨-, hline⟩ | ⟨-, pieces, hline | hline⟩
  · obtain ⟨-, rfl⟩ := ended_inj (hline.symm.trans hrun)
    exact .inl rfl
  · obtain ⟨-, rfl⟩ := ended_inj (hline.symm.trans hrun)
    exact .inl rfl
  · obtain ⟨rfl, -⟩ := ended_inj (hline.symm.trans hrun)
    exact .inr ⟨_, rfl, trivial⟩

theorem switchTrace (on : Bool) : (Eval.switchTrace on).Surfaces fun _ => True := by
  intro s r u hrun
  obtain ⟨-, rfl⟩ := ended_inj (r := .ok ()) hrun
  exact ⟨.inl rfl, fun _ _ => trivial⟩

/-- A build ends in the fault that its builder ends in. -/
theorem buildLazy {e : Entry} (h : ∀ cell, (e.building cell).Surfaces fun _ => True) (c : Nat) :
    (e.buildLazy c).Surfaces fun _ => True := by
  intro s r v hv
  refine ⟨?_, fun _ _ => trivial⟩
  rcases Entry.buildLazy_cases s c with ⟨cell, hcell, hidle⟩ | ⟨r', -, hbuild⟩
  · obtain ⟨made, u, hrun⟩ := exists_ended (e.building cell) (s.modifyCell c .started)
    obtain ⟨rfl, rfl⟩ := ended_inj ((e.run_buildLazy_of_idle hcell hidle hrun).symm.trans hv)
    rcases (h cell hrun).1 with hsame | ⟨f, rfl, hf⟩
    · exact .inl hsame
    · exact .inr ⟨f, rfl, hf⟩
  · obtain ⟨-, rfl⟩ := ended_inj ((hbuild e s rfl).symm.trans hv)
    exact .inl rfl

end Surfaces

end Eval

namespace Judgement

/-- That the limit surfaces, as a judgement about one run. All parsers count as put together
from plain functions, as in lockstep. -/
def surfacing : Judgement :=
  { Lockstep.traced_byDepth.judgement with
    Holds := fun m _ Q => m.Surfaces Q
    weaken := fun h hPQ _ _ _ hm => ⟨(h hm).1, fun a ha => hPQ a ((h hm).2 a ha)⟩
    resume := fun h hn _ hok herror hagain => h.resume hn hok herror hagain
    manages := Surfaces.manages fun _ => trivial
    traceLine := fun head _ ho => Surfaces.traceLine head ho
    switchTrace := Surfaces.switchTrace
    build := fun h => Surfaces.buildLazy fun cell _ _ _ hrun =>
      ⟨(h cell (cell.within_of_forall fun _ => trivial) hrun).1, fun _ _ => trivial⟩ }

theorem entries_surfacing : ∀ depth, surfacing.Entries (.ofDepth depth) (.ofDepth depth)
  | 0 =>
    { lazy := fun _ _ => Surfaces.overrun
      first := fun _ _ _ => Surfaces.overrun
      force := fun _ => Surfaces.overrun
      describe := fun _ => Surfaces.overrun
      observes := fun _ => observes_overrun
      given := fun _ cur hp => surfacing.parse_plain hp _ _ cur fun _ _ _ => trivial }
  | depth + 1 =>
    (entries_surfacing depth).deeper fun _ cur hp =>
      surfacing.parse_plain hp _ _ cur fun _ _ _ => trivial

end Judgement

/-- A run that does not use up its depth is the same at a greater one. -/
theorem Lockstep.run_byDepth {α : Type} {m m' : Eval α} {Q : α → Prop}
    (h : byDepth.Holds m m' Q) {s u : Store} {r : Except Fault α} (hm : m.run s = ended r u)
    (hs : u.overruns = s.overruns) : m'.run s = ended r u := by
  rcases h.inStep rfl trivial hm with hcost | ⟨_, hm', rfl⟩
  · exact absurd hs (Nat.ne_of_gt hcost)
  · exact hm'

/-- The answer of the step is a fault of depth. -/
def Report.IsOfDepth (report : Report) : Prop := ∃ f, report.answer = .error f ∧ f.IsOfDepth

namespace Session

/-! ## Steps -/

end Session

end Descent
