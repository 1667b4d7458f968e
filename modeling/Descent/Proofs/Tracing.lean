import Descent.Proofs.Lockstep

/-!
# The trace does not interfere

A run with the trace on and the same run with the trace off, side by side: the stores are
the same but for the trace, until the depth is used up or the trace is switched. So both
runs end alike. A run with the trace off leaves the trace as it was.
-/

namespace Descent

open Eval

namespace Store

/-- The store with the trace on or off. -/
def withTracing (s : Store) (on : Bool) : Store := { s with tracing := on }

/-- The store with the trace off, and with that trace. -/
def silenced (s : Store) (pieces : List Text) : Store :=
  { s with tracing := false, pieces := pieces }

end Store

namespace Lockstep

/-- The second store is silent and equal to the first one otherwise. What costs is to run out
of depth and to switch the trace. -/
def ofTracing (pieces : List Text) : Lockstep where
  Rel s s' := s.tracing = true ∧ s' = s.silenced pieces
  Inv _ := True
  cost s := s.overruns + s.switches
  content := by
    rintro s _ ⟨-, rfl⟩
    rfl
  withContent := by
    rintro s _ ⟨hon, rfl⟩ k
    exact ⟨hon, rfl⟩
  isKept := Store.isKept_true
  isCost := Store.isCost_overruns.add Store.isCost_switches

variable {pieces : List Text}

theorem inStep_overrun_ofTracing {α : Type} (m' : Eval α) :
    (ofTracing pieces).InStep overrun m' := by
  intro s s' r u _ _ hrun
  obtain ⟨-, rfl⟩ := ended_inj (r := .error .depthExceeded) hrun
  exact .inl (Nat.add_lt_add_right (Nat.lt_succ_self s.overruns) s.switches)

theorem inStep_switchTrace_ofTracing (on : Bool) :
    (ofTracing pieces).InStep (switchTrace on) (switchTrace on) := by
  intro s s' r u _ _ hrun
  obtain ⟨-, rfl⟩ := ended_inj (r := .ok ()) hrun
  exact .inl (Nat.add_lt_add_left (Nat.lt_succ_self s.switches) s.overruns)

/-- The run with the trace on writes a line, and the other one goes on. -/
theorem inStep_traceLine_ofTracing {m m' : Eval Text} (head : Text) (h : m.Observes) :
    (ofTracing pieces).InStep (traceLine head m) (traceLine head m') := by
  rintro s _ r u ⟨hon, rfl⟩ _ hrun
  have hsilent : (traceLine head m').run (s.silenced pieces) =
      ended (.ok ()) (s.silenced pieces) := by
    rw [traceLine, run_bind_ok (EStateM.run_get _)]
    rfl
  rcases h.run_traceLine head s with ⟨hoff, -⟩ | ⟨-, lines, hline | hline⟩
  · cases hoff.symm.trans hon
  · obtain ⟨rfl, rfl⟩ := ended_inj (hline.symm.trans hrun)
    exact .inr ⟨_, hsilent, hon, rfl⟩
  · obtain ⟨-, rfl⟩ := ended_inj (hline.symm.trans hrun)
    exact .inl (Nat.add_lt_add_right (Nat.lt_succ_self s.overruns) s.switches)

theorem traced_ofTracing (pieces : List Text) : (ofTracing pieces).Traced where
  traceLine head _ ho := inStep_traceLine_ofTracing head ho
  switchTrace := inStep_switchTrace_ofTracing

theorem entries_ofTracing (pieces : List Text) : ∀ depth,
    (traced_ofTracing pieces).judgement.Entries (.ofDepth depth) (.ofDepth depth)
  | 0 =>
    (traced_ofTracing pieces).entries_exhausted (fun _ _ => inStep_overrun_ofTracing _)
      (fun _ _ _ => inStep_overrun_ofTracing _) (fun _ => inStep_overrun_ofTracing _)
      fun _ => inStep_overrun_ofTracing _
  | depth + 1 => (traced_ofTracing pieces).entries_deeper (entries_ofTracing pieces depth)

end Lockstep

namespace Parser

/-- A run with the trace on and the run with the trace off end in the same answer or fault, and
in the same store but for the trace, unless the first one runs out of depth somewhere or
switches the trace. With the trace off nothing is written. -/
theorem runMode_withTracing (p : Parser) (cur : Text) (mode : Mode) (depth : Nat) (s : Store) :
    let m := p.runMode (.ofDepth depth) cur mode
    let on := m.leaves (s.withTracing true)
    let off := m.leaves (s.withTracing false)
    (on.overruns = s.overruns → on.switches = s.switches →
      ∃ r, m.run (s.withTracing true) = ended r on ∧ m.run (s.withTracing false) = ended r off ∧
        off = on.silenced s.pieces) ∧
    (off.switches = s.switches → off.pieces = s.pieces) := by
  intro m on off
  have hm := Judgement.runMode (Lockstep.entries_ofTracing s.pieces depth) p.composedOf_isPlain
    cur mode
  obtain ⟨r, u, hon⟩ := exists_ended m (s.withTracing true)
  obtain ⟨r', v, hoff⟩ := exists_ended m (s.withTracing false)
  have hu : on = u := leaves_of_run hon
  have hv : off = v := leaves_of_run hoff
  refine ⟨fun hoverruns hswitches => ⟨r, ?_⟩, fun hswitches => ?_⟩
  · have hrel : (Lockstep.ofTracing s.pieces).Rel (s.withTracing true) (s.withTracing false) :=
      ⟨rfl, rfl⟩
    rcases hm.inStep hrel trivial hon with hcost | ⟨v', hoff', -, rfl⟩
    · have hless : s.overruns + s.switches < u.overruns + u.switches := hcost
      rw [← hu, hoverruns, hswitches] at hless
      exact absurd hless (Nat.lt_irrefl _)
    · have hsilent : off = u.silenced s.pieces := leaves_of_run hoff'
      rw [hu, hsilent]
      exact ⟨hon, hoff', rfl⟩
  · rw [hv] at hswitches ⊢
    exact ((hm.leads hoff).silent hswitches).2 rfl

/-- A choice whose second alternative is not built yet. -/
theorem runMode_withTracing_choice :
    let digit : LazyCell := { label := text "digit", builder := ⟨some 1, 0, [], .given .digit⟩ }
    let s : Store := { lazies := #[digit], choices := #[[.literal (text "a"), .lazy 0]] }
    let m := (Parser.first 0).runMode (.ofDepth 2) (text "1") .whole
    let on := m.leaves (s.withTracing true)
    let off := m.leaves (s.withTracing false)
    on.overruns = s.overruns ∧ on.switches = s.switches ∧ off.switches = s.switches ∧
      on.trace = [text "Lazy: build <Lazy:digit>", text "First: alternative #1 <Lazy:digit>"] ∧
      (∃ r, m.run (s.withTracing true) = ended r on ∧ m.run (s.withTracing false) = ended r off ∧
        off = on.silenced s.pieces) ∧
      off.pieces = s.pieces := by
  intro digit s m on off
  have hruns := runMode_withTracing (.first 0) (text "1") .whole 2 s
  exact ⟨rfl, rfl, rfl, by decide +kernel, hruns.1 rfl rfl, hruns.2 rfl⟩

end Parser

end Descent
