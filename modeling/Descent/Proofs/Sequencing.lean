import Descent.Proofs.Combinators
import Descent.Proofs.Lockstep

/-!
# Sequencing

Two ways to put parsers together may run the same parsers in another order. A run that starts
no builder only adds to the log of its store, which is the trace and the count of overruns,
and no run looks at the log. So from such a store `Eval.Yields` tells of each part by itself
what it ends in, and the results of a whole are those of its parts, in whatever order these
are run. Only the fault may be another one, if several parts end in faults.
-/

namespace Descent

open Eval

/-! ## Logs -/

namespace Store

variable {s t : Store} {pieces : List Text} {overruns : Nat}

/-- On the way to a store that differs in the log alone, only the log differs. -/
theorem Leads.eq_withLog (h : s.Leads t) (h' : t.Leads (s.withLog pieces overruns)) :
    t = s.withLog t.pieces t.overruns := by
  have hcontent : t.content = s.content := h.content_eq h' rfl
  have hswitches : t.switches = s.switches := Nat.le_antisymm h'.switches h.switches
  have htracing : t.tracing = s.tracing := (h.silent hswitches).1
  have hlazies : t.lazies = s.lazies := congrArg Content.lazies hcontent
  have hchoices : t.choices = s.choices := congrArg Content.choices hcontent
  have hnames : t.names = s.names := congrArg Content.names hcontent
  have hgrammars : t.grammars = s.grammars := congrArg Content.grammars hcontent
  rw [withLog, ← hlazies, ← hchoices, ← hnames, ← hgrammars, ← htracing, ← hswitches]

end Store

namespace Lockstep

/-- Two runs from stores that differ in their logs alone. -/
def byLog : Lockstep where
  Rel s s' := ∃ pieces overruns, s' = s.withLog pieces overruns
  Inv _ := True
  cost _ := 0
  content := by
    rintro s _ ⟨pieces, overruns, rfl⟩
    rfl
  withContent := by
    rintro s _ ⟨pieces, overruns, rfl⟩ k
    exact ⟨pieces, overruns, rfl⟩
  isKept := Store.isKept_true
  isCost := Store.isCost_zero

theorem traced_byLog : byLog.Traced where
  traceLine head h ho := by
    refine inStep_traceLine ?_ ?_ head h ho
    · rintro s _ ⟨pieces, overruns, rfl⟩
      rfl
    · rintro s _ t ⟨pieces, overruns, rfl⟩
      exact ⟨t :: pieces, overruns, rfl⟩
  switchTrace on := by
    rintro s _ r u ⟨pieces, overruns, rfl⟩ - hrun
    obtain ⟨rfl, rfl⟩ := ended_inj (r := .ok ()) hrun
    exact .inr ⟨_, rfl, pieces, overruns, rfl⟩

theorem inStep_overrun_byLog {α : Type} : byLog.InStep (overrun : Eval α) overrun := by
  rintro s _ r u ⟨pieces, overruns, rfl⟩ - hrun
  obtain ⟨rfl, rfl⟩ := ended_inj (r := .error .depthExceeded) hrun
  exact .inr ⟨_, rfl, pieces, overruns + 1, rfl⟩

theorem entries_byLog : ∀ depth, traced_byLog.judgement.Entries (.ofDepth depth) (.ofDepth depth)
  | 0 =>
    traced_byLog.entries_exhausted (fun _ _ => inStep_overrun_byLog)
      (fun _ _ _ => inStep_overrun_byLog) (fun _ => inStep_overrun_byLog)
      fun _ => inStep_overrun_byLog
  | depth + 1 => traced_byLog.entries_deeper (entries_byLog depth)

end Lockstep

namespace Eval

variable {α β γ : Type} {m : Eval α} {s : Store}

/-! ## What a run yields -/

/-- The run does not depend on the log of its store, and leads from store to store. -/
def OverlooksLog (m : Eval α) : Prop := Lockstep.byLog.Holds m m fun _ => True

/-- From `s` the run ends so, and all that it leaves changed is the log. -/
def Yields (m : Eval α) (s : Store) (r : Except Fault α) : Prop :=
  ∃ pieces overruns, m.run s = ended r (s.withLog pieces overruns)

/-- From `s` the run starts no builder and changes no choice: all that it leaves changed is
the log. -/
def Spares (m : Eval α) (s : Store) : Prop :=
  ∃ pieces overruns, m.leaves s = s.withLog pieces overruns

theorem Spares.yields_iff (h : m.Spares s) {r : Except Fault α} :
    m.Yields s r ↔ ∃ u, m.run s = ended r u := by
  obtain ⟨pieces, overruns, hu⟩ := h
  constructor
  · rintro ⟨_, _, hm⟩
    exact ⟨_, hm⟩
  · rintro ⟨u, hm⟩
    exact ⟨pieces, overruns, hm.trans (congrArg (ended r) ((leaves_of_run hm).symm.trans hu))⟩

/-- A run ends in a fault if it has no value. -/
theorem exists_error_iff (m : Eval α) (s : Store) :
    (∃ f u, m.run s = .error f u) ↔ ¬ ∃ a u, m.run s = .ok a u := by
  cases h : m.run s <;> simp

theorem yields_pure {a : α} {r : Except Fault α} : (pure a : Eval α).Yields s r ↔ r = .ok a := by
  constructor
  · rintro ⟨pieces, overruns, hm⟩
    exact (ended_inj (r := .ok a) hm).1.symm
  · rintro rfl
    exact ⟨s.pieces, s.overruns, rfl⟩

/-- The log of the store that a run starts from does not matter. -/
theorem OverlooksLog.run_withLog (h : m.OverlooksLog) {r : Except Fault α} {u : Store}
    (hm : m.run s = ended r u) (pieces : List Text) (overruns : Nat) :
    ∃ pieces' overruns',
      m.run (s.withLog pieces overruns) = ended r (u.withLog pieces' overruns') := by
  rcases h.inStep ⟨pieces, overruns, rfl⟩ trivial hm with hcost | ⟨_, hm', pieces', overruns', rfl⟩
  · exact absurd hcost (Nat.lt_irrefl 0)
  · exact ⟨pieces', overruns', hm'⟩

/-- A value of two computations in a row, if neither starts a builder. -/
theorem yields_bind_ok {f : α → Eval β} {b : β} (h : m.OverlooksLog)
    (hf : ∀ a, (f a).OverlooksLog) :
    (m >>= f).Yields s (.ok b) ↔ ∃ a, m.Yields s (.ok a) ∧ (f a).Yields s (.ok b) := by
  constructor
  · rintro ⟨pieces, overruns, hrun⟩
    obtain ⟨r, t, hm⟩ := exists_ended m s
    cases r with
    | error fault => cases (run_bind_error hm).symm.trans hrun
    | ok a =>
        have hlast := (run_bind_ok hm).symm.trans hrun
        -- the second run ends where the first one started, but for the log
        have ht : t = s.withLog t.pieces t.overruns := (h.leads hm).eq_withLog ((hf a).leads hlast)
        obtain ⟨pieces', overruns', hfa⟩ := (hf a).run_withLog hlast s.pieces s.overruns
        have hs : t.withLog s.pieces s.overruns = s := by rw [ht]; rfl
        exact ⟨a, ⟨_, _, hm.trans (congrArg _ ht)⟩, pieces', overruns', hs ▸ hfa⟩
  · rintro ⟨a, ⟨pieces, overruns, hm⟩, ⟨_, _, hfa⟩⟩
    obtain ⟨pieces', overruns', hlast⟩ := (hf a).run_withLog hfa pieces overruns
    exact ⟨pieces', overruns', (run_bind_ok hm).trans hlast⟩

theorem overlooksLog_pure (a : α) : (pure a : Eval α).OverlooksLog :=
  Lockstep.traced_byLog.judgement.pure trivial

theorem OverlooksLog.bind {f : α → Eval β} (h : m.OverlooksLog)
    (hf : ∀ a, (f a).OverlooksLog) : (m >>= f).OverlooksLog :=
  Lockstep.traced_byLog.judgement.bind h fun a _ => hf a

theorem overlooksLog_collect {f : α → Eval (List β)} (hf : ∀ a, (f a).OverlooksLog)
    (as : List α) : (collect f as).OverlooksLog := by
  induction as with
  | nil => exact overlooksLog_pure []
  | cons a as ih => exact (hf a).bind fun bs => ih.bind fun cs => overlooksLog_pure (bs ++ cs)

theorem overlooksLog_parse (p : Parser) (depth : Nat) (cur : Text) :
    (p.parse (.ofDepth depth) cur).OverlooksLog :=
  (Judgement.parse (Lockstep.entries_byLog depth) p.composedOf_isPlain cur).weaken
    fun _ _ => trivial

/-! ## Results for several items -/

theorem collect_map (f : β → Eval (List γ)) (g : α → β) (as : List α) :
    collect f (as.map g) = collect (fun a => f (g a)) as := by
  induction as with
  | nil => rfl
  | cons a as ih => rw [List.map_cons, collect_cons, collect_cons, ih]

section

variable {f : α → Eval (List β)} {g : β → Eval (List γ)} {as : List α}

theorem yields_collect_cons (hf : ∀ a, (f a).OverlooksLog) {a : α} {cs : List β} :
    (collect f (a :: as)).Yields s (.ok cs) ↔
      ∃ bs ds, (f a).Yields s (.ok bs) ∧ (collect f as).Yields s (.ok ds) ∧ cs = bs ++ ds := by
  have hrest := overlooksLog_collect hf as
  rw [collect_cons, yields_bind_ok (hf a) fun bs => hrest.bind fun ds => overlooksLog_pure _]
  refine exists_congr fun bs => ?_
  rw [yields_bind_ok hrest fun ds => overlooksLog_pure _]
  simp only [yields_pure, Except.ok.injEq, exists_and_left]

theorem yields_collect_append (hf : ∀ a, (f a).OverlooksLog) {as' : List α} {cs : List β} :
    (collect f (as ++ as')).Yields s (.ok cs) ↔
      ∃ bs ds, (collect f as).Yields s (.ok bs) ∧ (collect f as').Yields s (.ok ds) ∧
        cs = bs ++ ds := by
  induction as generalizing cs with
  | nil => simp [yields_pure]
  | cons a as ih =>
      simp only [List.cons_append, yields_collect_cons hf, ih]
      constructor
      · rintro ⟨bs, _, ha, ⟨ds, es, has, has', rfl⟩, rfl⟩
        exact ⟨bs ++ ds, es, ⟨bs, ds, ha, has, rfl⟩, has', (List.append_assoc bs ds es).symm⟩
      · rintro ⟨_, es, ⟨bs, ds, ha, has, rfl⟩, has', rfl⟩
        exact ⟨bs, ds ++ es, ha, ⟨ds, es, has, has', rfl⟩, List.append_assoc bs ds es⟩

/-- One level after the other, or each item through both levels before the next one. -/
theorem yields_collect_bind_collect (hf : ∀ a, (f a).OverlooksLog)
    (hg : ∀ b, (g b).OverlooksLog) {cs : List γ} :
    (collect f as >>= collect g).Yields s (.ok cs) ↔
      (collect (fun a => f a >>= collect g) as).Yields s (.ok cs) := by
  have hlevel := overlooksLog_collect hg
  have hboth (a : α) : (f a >>= collect g).OverlooksLog := (hf a).bind hlevel
  rw [yields_bind_ok (overlooksLog_collect hf as) hlevel]
  induction as generalizing cs with
  | nil => simp [yields_pure]
  | cons a as ih =>
      rw [yields_collect_cons hboth]
      simp only [yields_collect_cons hf, ← ih, yields_bind_ok (hf a) hlevel]
      constructor
      · rintro ⟨_, ⟨bs, ds, ha, has, rfl⟩, hcs⟩
        obtain ⟨es, fs, hbs, hds, rfl⟩ := (yields_collect_append hg).1 hcs
        exact ⟨es, fs, ⟨bs, ha, hbs⟩, ⟨ds, has, hds⟩, rfl⟩
      · rintro ⟨es, fs, ⟨bs, ha, hbs⟩, ⟨ds, has, hds⟩, rfl⟩
        exact ⟨bs ++ ds, ⟨bs, ds, ha, has, rfl⟩,
          (yields_collect_append hg).2 ⟨es, fs, hbs, hds, rfl⟩⟩

end

end Eval

namespace Parser

/-! ## Pipes and nested chains -/

/-- The parsers `p₁, …, pₙ` and the handler as nested chains, after the values `vs`:
`p₁.chain (v₁ ↦ … pₙ.chain (vₙ ↦ handler (vs ++ [v₁, …, vₙ])))`. -/
def chainAll (handler : List Value → Parser) : List Parser → List Value → Parser
  | [], vs => handler vs
  | p :: ps, vs => .chain p fun v => chainAll handler ps (vs ++ [v])

/-- A run of the nested chains from a state of a pipe. -/
def chainFrom (e : Entry) (handler : List Value → Parser) (ps : List Parser)
    (state : List Value × Text) : Eval (List Outcome) :=
  (chainAll handler ps state.1).parse e state.2

variable {handler : List Value → Parser} {e : Entry}

/-- One step of a pipe from a state, and then the nested chains, are the nested chains. -/
theorem chainFrom_cons (p : Parser) (ps : List Parser) (state : List Value × Text) :
    chainFrom e handler (p :: ps) state =
      (p.parse e state.2 >>= fun os => pure (os.map fun o => (state.1 ++ [o.value], o.rest))) >>=
        collect (chainFrom e handler ps) := by
  simp only [bind_assoc, pure_bind, collect_map]
  rfl

theorem overlooksLog_chainFrom (depth : Nat) (handler : List Value → Parser) (ps : List Parser)
    (state : List Value × Text) :
    (chainFrom (.ofDepth depth) handler ps state).OverlooksLog :=
  overlooksLog_parse _ depth state.2

/-- One step of a pipe from a state. -/
theorem overlooksLog_advance (depth : Nat) (p : Parser) (state : List Value × Text) :
    (p.parse (.ofDepth depth) state.2 >>= fun os =>
      pure (os.map fun o => (state.1 ++ [o.value], o.rest))).OverlooksLog :=
  (overlooksLog_parse p depth state.2).bind fun _ => overlooksLog_pure _

theorem overlooksLog_parseAll (depth : Nat) (ps : List Parser)
    (states : List (List Value × Text)) :
    (parseAll (.ofDepth depth) ps states).OverlooksLog := by
  induction ps generalizing states with
  | nil => exact overlooksLog_pure states
  | cons p ps ih => exact (overlooksLog_collect (overlooksLog_advance depth p) states).bind ih

/-- From any states in flight the pipe, which takes one level after the other, has the results
of the nested chains, which follow each state to its end. -/
theorem yields_parseAll_iff (depth : Nat) (handler : List Value → Parser) (ps : List Parser)
    (states : List (List Value × Text)) (s : Store) (os : List Outcome) :
    (parseAll (.ofDepth depth) ps states >>= collect (chainFrom (.ofDepth depth) handler [])).Yields
        s (.ok os) ↔
      (collect (chainFrom (.ofDepth depth) handler ps) states).Yields s (.ok os) := by
  induction ps generalizing states with
  | nil => rw [parseAll_nil, pure_bind]
  | cons p ps ih =>
      have hstep := overlooksLog_advance depth p
      have hlast := overlooksLog_chainFrom depth handler
      have hpipe (next : List (List Value × Text)) :
          (parseAll (.ofDepth depth) ps next >>=
            collect (chainFrom (.ofDepth depth) handler [])).OverlooksLog :=
        (overlooksLog_parseAll depth ps next).bind (overlooksLog_collect (hlast []))
      rw [parseAll, bind_assoc, yields_bind_ok (overlooksLog_collect hstep states) hpipe]
      simp only [ih]
      rw [← yields_bind_ok (overlooksLog_collect hstep states) (overlooksLog_collect (hlast ps)),
        yields_collect_bind_collect hstep (hlast ps)]
      simp only [← chainFrom_cons]

/-- A pipe is nested chaining: if the run of neither starts a builder, both have the same
results, in the same order and as many times each, and one of them ends in a fault if and only
if the other one does. -/
theorem pipe_iff_chainAll (depth : Nat) (ps : List Parser) (handler : List Value → Parser)
    (cur : Text) (s : Store)
    (hpipe : ((pipe ps handler).parse (.ofDepth depth) cur).Spares s)
    (hchain : ((chainAll handler ps []).parse (.ofDepth depth) cur).Spares s) :
    (∀ os, (∃ u, ((pipe ps handler).parse (.ofDepth depth) cur).run s = .ok os u) ↔
      ∃ u, ((chainAll handler ps []).parse (.ofDepth depth) cur).run s = .ok os u) ∧
    ((∃ f u, ((pipe ps handler).parse (.ofDepth depth) cur).run s = .error f u) ↔
      ∃ f u, ((chainAll handler ps []).parse (.ofDepth depth) cur).run s = .error f u) := by
  have hsame (os : List Outcome) :
      ((pipe ps handler).parse (.ofDepth depth) cur).Yields s (.ok os) ↔
        ((chainAll handler ps []).parse (.ofDepth depth) cur).Yields s (.ok os) := by
    have hstates := yields_parseAll_iff depth handler ps [([], cur)] s os
    rwa [collect_singleton] at hstates
  have hvalue (os : List Outcome) :
      (∃ u, ((pipe ps handler).parse (.ofDepth depth) cur).run s = .ok os u) ↔
        ∃ u, ((chainAll handler ps []).parse (.ofDepth depth) cur).run s = .ok os u :=
    hpipe.yields_iff.symm.trans ((hsame os).trans hchain.yields_iff)
  refine ⟨hvalue, ?_⟩
  rw [exists_error_iff, exists_error_iff]
  simp only [hvalue]

/-- Two ambiguous parsers, of which the second one is a choice behind a lazy parser that is built:
all four results are kept in order. With a fault in the handler, which the nested chains meet
first, and one in a later state of the first level, which the pipe meets first, the two end in
different faults. -/
theorem pipe_iff_chainAll_outcomes :
    let two : Parser := outcomes (text "two") [(.int 1, 1), (.int 2, 2)]
    let late : Parser := .plain (text "late") fun cur =>
      if cur.length = 2 then .error .noCell else .ok [⟨.null, cur⟩]
    let inner : LazyCell :=
      { label := text "inner", builder := ⟨none, 0, [], .first [.given .fail, .given two]⟩
        phase := .built (.first 0) (.first 0), starts := 1 }
    let s : Store := { lazies := #[inner], choices := #[[.fail, two]], tracing := true }
    let keep : List Value → Parser := fun vs => .lift (.list vs)
    let refuse : List Value → Parser := fun _ => .raise .builderFailed
    let run (p : Parser) := (p.parse (.ofDepth 3) (text "abcd")).run s
    (∃ u, run (chainAll keep [two, .lazy 0] []) =
      .ok [⟨.list [.int 1, .int 1], text "cd"⟩, ⟨.list [.int 1, .int 2], text "d"⟩,
        ⟨.list [.int 2, .int 1], text "d"⟩, ⟨.list [.int 2, .int 2], []⟩] u) ∧
      run (pipe [two, late] refuse) = .error .noCell s ∧
      (∃ f u, run (chainAll refuse [two, late] []) = .error f u) ∧
      run (chainAll refuse [two, late] []) = .error .builderFailed s := by
  intro two late inner s keep refuse run
  obtain ⟨hkeep, -⟩ := pipe_iff_chainAll 3 [two, .lazy 0] keep (text "abcd") s
    ⟨_, _, rfl⟩ ⟨_, _, rfl⟩
  obtain ⟨-, hrefuse⟩ := pipe_iff_chainAll 3 [two, late] refuse (text "abcd") s
    ⟨_, _, rfl⟩ ⟨_, _, rfl⟩
  exact ⟨(hkeep _).1 ⟨_, rfl⟩, rfl, hrefuse.1 ⟨_, _, rfl⟩, rfl⟩

end Parser

end Descent
