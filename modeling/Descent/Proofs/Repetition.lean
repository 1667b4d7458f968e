import Descent.Proofs.Combinators

/-!
# Repetition

What is read again and again is a path of first outcomes, each one of a call on what the one
before leaves. `IsGreedy` describes the path without the loop: each step but the last one makes
the cursor shorter, and the path stops only where no outcome is left or where the last step did
not make it shorter. There is one such path, and `many` gives its values and its end, also if
outcomes leave more than they were given. The cursor bounds the number of calls.
-/

namespace Descent

open Eval

/-- Where a path of outcomes from `cur` ends. -/
def endOf (cur : Text) (path : List Outcome) : Text := (path.map Outcome.rest).getLastD cur

@[simp] theorem endOf_nil (cur : Text) : endOf cur [] = cur := rfl

@[simp] theorem endOf_cons (cur : Text) (o : Outcome) (path : List Outcome) :
    endOf cur (o :: path) = endOf o.rest path := by
  rw [endOf, List.map_cons, List.getLastD_cons, endOf]

/-- From `cur` and `s` each outcome of the path is the first one of a call on what the one before
leaves, and in the store that its call leaves. -/
inductive Firsts (step : Text → Eval (List Outcome)) : Text → Store → List Outcome → Store → Prop
  | nil (cur : Text) (s : Store) : Firsts step cur s [] s
  | cons {cur : Text} {s t u : Store} {o : Outcome} {os path : List Outcome} :
    (step cur).run s = .ok (o :: os) t → Firsts step o.rest t path u →
      Firsts step cur s (o :: path) u

/-- The path is as long as it can be without another step after one that is not shorter. -/
structure IsGreedy (step : Text → Eval (List Outcome)) (cur : Text) (s : Store)
    (path : List Outcome) (t : Store) : Prop where
  firsts : Firsts step cur s path t
  /-- All steps but the last one make the cursor shorter. -/
  shorter : ∀ before o next after, path = before ++ o :: next :: after →
    o.rest.length < (endOf cur before).length
  /-- There is no further outcome, or the last step did not make the cursor shorter. -/
  ends : (∃ u, (step (endOf cur path)).run t = .ok [] u) ∨
    ∃ before o, path = before ++ [o] ∧ (endOf cur before).length ≤ o.rest.length

namespace IsGreedy

variable {step : Text → Eval (List Outcome)} {cur : Text} {s t u : Store} {o : Outcome}
  {os path : List Outcome}

theorem nil (h : (step cur).run s = .ok [] u) : IsGreedy step cur s [] s where
  firsts := .nil cur s
  shorter before o next after hpath := by simp at hpath
  ends := .inl ⟨u, h⟩

/-- A step that does not make the cursor shorter is the last one. -/
theorem stalled (h : (step cur).run s = .ok (o :: os) t) (hle : cur.length ≤ o.rest.length) :
    IsGreedy step cur s [o] t where
  firsts := .cons h (.nil _ _)
  shorter before a next after hpath := by
    have hlength : 1 = (before ++ a :: next :: after).length := congrArg List.length hpath
    simp only [List.length_append, List.length_cons] at hlength
    omega
  ends := .inr ⟨[], o, rfl, hle⟩

theorem cons (h : (step cur).run s = .ok (o :: os) t) (hlt : o.rest.length < cur.length)
    (hpath : IsGreedy step o.rest t path u) : IsGreedy step cur s (o :: path) u where
  firsts := .cons h hpath.firsts
  shorter before a next after heq := by
    cases before with
    | nil =>
        cases heq
        exact hlt
    | cons b before =>
        cases heq
        rw [endOf_cons]
        exact hpath.shorter before a next after rfl
  ends := by
    rw [endOf_cons]
    rcases hpath.ends with hnone | ⟨before, a, rfl, hle⟩
    · exact .inl hnone
    · exact .inr ⟨o :: before, a, rfl, by rwa [endOf_cons]⟩

/-- After a step that makes the cursor shorter the rest of the path is greedy. -/
theorem tail (h : IsGreedy step cur s (o :: path) u) (hlt : o.rest.length < cur.length)
    (hpath : Firsts step o.rest t path u) : IsGreedy step o.rest t path u where
  firsts := hpath
  shorter before a next after heq := by
    have := h.shorter (o :: before) a next after (congrArg (o :: ·) heq)
    rwa [endOf_cons] at this
  ends := by
    rcases h.ends with hnone | ⟨before, a, heq, hle⟩
    · exact .inl (by rwa [endOf_cons] at hnone)
    · cases before with
      | nil =>
          cases heq
          exact absurd hlt (Nat.not_lt.2 hle)
      | cons b before =>
          cases heq
          exact .inr ⟨before, a, rfl, by rwa [endOf_cons] at hle⟩

theorem eq_nil_of_le (h : IsGreedy step cur s (o :: path) u)
    (hle : cur.length ≤ o.rest.length) : path = [] := by
  cases path with
  | nil => rfl
  | cons next after => exact absurd (h.shorter [] o next after rfl) (Nat.not_lt.2 hle)

theorem eq_nil (h : IsGreedy step cur s path t) (hnone : (step cur).run s = .ok [] u) :
    path = [] ∧ t = s := by
  cases h.firsts with
  | nil => exact ⟨rfl, rfl⟩
  | cons hstep _ => cases hnone.symm.trans hstep

theorem exists_run_nil (h : IsGreedy step cur s [] t) : ∃ u, (step cur).run s = .ok [] u := by
  cases h.firsts
  rcases h.ends with hnone | ⟨before, a, heq, -⟩
  · exact hnone
  · simp at heq

/-- A greedy path starts with the first outcome, if there is one. -/
theorem exists_cons (h : IsGreedy step cur s path u)
    (hstep : (step cur).run s = .ok (o :: os) t) :
    ∃ rest, path = o :: rest ∧ Firsts step o.rest t rest u := by
  cases h.firsts with
  | nil =>
      obtain ⟨v, hnone⟩ := h.exists_run_nil
      cases hnone.symm.trans hstep
  | cons hfirst hrest =>
      cases hfirst.symm.trans hstep
      exact ⟨_, rfl, hrest⟩

/-- There is one greedy path at most. -/
theorem unique {path' : List Outcome} {t' : Store} (h : IsGreedy step cur s path t)
    (h' : IsGreedy step cur s path' t') : path' = path ∧ t' = t := by
  induction path generalizing cur s path' with
  | nil =>
      obtain ⟨u, hnone⟩ := h.exists_run_nil
      obtain ⟨rfl, rfl⟩ := h'.eq_nil hnone
      exact ⟨rfl, (h.eq_nil hnone).2.symm⟩
  | cons o path ih =>
      cases h.firsts with
      | cons hstep hrest =>
          obtain ⟨path', rfl, hrest'⟩ := h'.exists_cons hstep
          by_cases hlt : o.rest.length < cur.length
          · obtain ⟨rfl, rfl⟩ := ih (h.tail hlt hrest) (h'.tail hlt hrest')
            exact ⟨rfl, rfl⟩
          · -- both paths stop after this step
            cases h.eq_nil_of_le (Nat.not_lt.1 hlt)
            cases h'.eq_nil_of_le (Nat.not_lt.1 hlt)
            cases hrest
            cases hrest'
            exact ⟨rfl, rfl⟩

end IsGreedy

/-! ## Calls -/

/-- The cursors of the calls along a greedy path from `cur`: all that are met, but no longer
after a step that did not make the cursor shorter. -/
def callsOf (cur : Text) : List Outcome → List Text
  | [] => [cur]
  | o :: path => cur :: if o.rest.length < cur.length then callsOf o.rest path else []

theorem length_callsOf_le (cur : Text) (path : List Outcome) :
    (callsOf cur path).length ≤ cur.length + 1 := by
  induction path generalizing cur with
  | nil => exact Nat.succ_le_succ (Nat.zero_le _)
  | cons o path ih =>
      rw [callsOf, List.length_cons]
      split
      · have := ih o.rest
        omega
      · exact Nat.succ_le_succ (Nat.zero_le _)

/-- Calls on these cursors, one after the other, for what they do to the store. -/
def callAll (step : Text → Eval (List Outcome)) (cursors : List Text) : Eval Unit :=
  cursors.forM fun cur => discard (step cur)

theorem run_callAll_cons {step : Text → Eval (List Outcome)} {cur : Text} {os : List Outcome}
    {s t : Store} (h : (step cur).run s = .ok os t) (cursors : List Text) :
    (callAll step (cur :: cursors)).run s = (callAll step cursors).run t := by
  have hdiscard : discard (step cur) = step cur >>= fun _ => pure () := rfl
  have hcall : (discard (step cur)).run s = .ok () t := by
    rw [hdiscard, run_bind_ok h, EStateM.run_pure]
  exact run_bind_ok hcall

/-! ## The loop -/

/-- A step that always returns is repeated along the greedy path. -/
theorem run_repeatedly {step : Text → Eval (List Outcome)} {Inv : Store → Prop}
    (hstep : ∀ s, Inv s → ∀ cur, ∃ os u, (step cur).run s = .ok os u ∧ Inv u)
    (cur : Text) {s : Store} (hs : Inv s) (values : List Value) :
    ∃ path t u, (repeatedly step cur values).run s =
        .ok [⟨.list (values.reverse ++ path.map Outcome.value), endOf cur path⟩] u ∧
      IsGreedy step cur s path t ∧ (callAll step (callsOf cur path)).run s = .ok () u := by
  induction hn : cur.length using Nat.strongRecOn generalizing cur s values with
  | ind n ih =>
      subst hn
      obtain ⟨os, v, hrun, hv⟩ := hstep s hs cur
      have hcall : (callAll step [cur]).run s = .ok () v := run_callAll_cons hrun []
      rw [repeatedly, run_bind_ok hrun]
      cases os with
      | nil =>
          refine ⟨[], s, v, ?_, .nil hrun, hcall⟩
          rw [List.map_nil, List.append_nil, endOf_nil]
          rfl
      | cons o os =>
          by_cases hlt : o.rest.length < cur.length
          · obtain ⟨path, t, u, hmany, hpath, hcalls⟩ :=
              ih _ hlt o.rest hv (o.value :: values) rfl
            refine ⟨o :: path, t, u, ?_, .cons hrun hlt hpath, ?_⟩
            · simpa [hlt] using hmany
            · rw [callsOf, if_pos hlt, run_callAll_cons hrun, hcalls]
          · refine ⟨[o], v, v, ?_, .stalled hrun (Nat.not_lt.1 hlt), ?_⟩
            · simp [hlt]
            · rw [callsOf, if_neg hlt, hcall]

namespace Parser

/-- A parser that returns on every cursor, in the stores of an invariant, is repeated greedily,
with any outcomes and any remainders. There is one greedy path, and `many` gives its values and
its end as the one result. The run is that of the calls along the path, at most one more than the
cursor has code points. At least one time gives the same result if there is an outcome at all,
else none. -/
theorem many_isGreedy {e : Entry} {p : Parser} {Inv : Store → Prop}
    (hp : ∀ s, Inv s → ∀ cur, ∃ os u, (p.parse e cur).run s = .ok os u ∧ Inv u)
    (cur : Text) {s : Store} (hs : Inv s) :
    ∃ path t u, ((many p).parse e cur).run s =
        .ok [⟨.list (path.map Outcome.value), endOf cur path⟩] u ∧
      IsGreedy (p.parse e) cur s path t ∧
      (∀ path' t', IsGreedy (p.parse e) cur s path' t' → path' = path ∧ t' = t) ∧
      (callAll (p.parse e) (callsOf cur path)).run s = .ok () u ∧
      (callsOf cur path).length ≤ cur.length + 1 ∧
      ∀ os v, (p.parse e cur).run s = .ok os v → ((many1 p).parse e cur).run s =
        .ok (if os.isEmpty then [] else [⟨.list (path.map Outcome.value), endOf cur path⟩]) u := by
  obtain ⟨path, t, u, hmany, hpath, hcalls⟩ := run_repeatedly hp cur hs []
  refine ⟨path, t, u, hmany, hpath, fun path' t' h' => hpath.unique h', hcalls,
    length_callsOf_le cur path, fun os v hrun => ?_⟩
  rw [many1, parse_chain, parse_many, run_bind_ok hmany, collect_singleton]
  cases os with
  | nil =>
      obtain ⟨rfl, -⟩ := hpath.eq_nil hrun
      rfl
  | cons o os =>
      obtain ⟨rest, rfl, -⟩ := hpath.exists_cons hrun
      rfl

/-- Two steps that read a code point, and a last one that leaves more than it was given: all
three values are kept, and the third call is the last one. -/
theorem many_isGreedy_growing :
    let p : Parser := .plain (text "a or longer") fun cur =>
      match Text.after? (text "a") cur with
      | some rest => .ok [⟨.int 1, rest⟩, ⟨.int 2, []⟩]
      | none => .ok [⟨.null, text "zz" ++ cur⟩]
    let step := p.parse (.ofDepth 1)
    let result : Outcome := ⟨.list [.int 1, .int 1, .null], text "zzb"⟩
    (∀ s cur, ∃ os, (step cur).run s = .ok os s) ∧
      ∃ u, ((many p).parse (.ofDepth 1) (text "aab")).run {} = .ok [result] u ∧
        ((many1 p).parse (.ofDepth 1) (text "aab")).run {} = .ok [result] u ∧
        (callAll step [text "aab", text "ab", text "b"]).run {} = .ok () u := by
  intro p step result
  have hp (s : Store) (cur : Text) : ∃ os, (step cur).run s = .ok os s := by
    dsimp only [step, p, parse]
    cases Text.after? (text "a") cur <;> exact ⟨_, rfl⟩
  have hreturns (s : Store) (_ : True) (cur : Text) :
      ∃ os u, (step cur).run s = .ok os u ∧ True :=
    (hp s cur).imp fun os h => ⟨s, h, trivial⟩
  obtain ⟨path, t, u, hmany, -, hunique, hcalls, -, hmany1⟩ :=
    many_isGreedy hreturns (text "aab") (s := {}) trivial
  have hfirst : (step (text "aab")).run {} = .ok [⟨.int 1, text "ab"⟩, ⟨.int 2, []⟩] {} := rfl
  have hsecond : (step (text "ab")).run {} = .ok [⟨.int 1, text "b"⟩, ⟨.int 2, []⟩] {} := rfl
  have hthird : (step (text "b")).run {} = .ok [⟨.null, text "zzb"⟩] {} := rfl
  have hpath : IsGreedy step (text "aab") {}
      [⟨.int 1, text "ab"⟩, ⟨.int 1, text "b"⟩, ⟨.null, text "zzb"⟩] {} :=
    .cons hfirst (by decide) (.cons hsecond (by decide) (.stalled hthird (by decide)))
  obtain ⟨rfl, rfl⟩ := hunique _ _ hpath
  exact ⟨hp, u, hmany, hmany1 _ _ hfirst, hcalls⟩

end Parser

end Descent
