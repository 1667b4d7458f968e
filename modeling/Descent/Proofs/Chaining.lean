import Descent.Proofs.Sequencing

/-!
# Chaining

With `lift` for its unit `chain` obeys the laws of a monad over parsers of any number of
results, and `map` is `chain` followed by `lift`. All of these but one are equations between
computations: the same results or the same fault, with the same marks left in the store. Only
where chains are regrouped are the parsers run in another order, and so the fault may be
another one.

Regrouping is therefore a law of parsers that depend on nothing but their arguments: there is
a set of stores that their runs do not leave, and among these stores a run on one input always
ends in the same way. For a parser that is built on its first use the set has the stores from
before and from after that.
-/

namespace Descent

open Eval

section Gather

variable {α β γ : Type} {k : α → Except Fault (List β)} {l : β → Except Fault (List γ)}
  {as : List α}

/-- What `collect` ends in, if what is run on each item ends as `k` says. -/
def gather (k : α → Except Fault (List β)) : List α → Except Fault (List β)
  | [] => .ok []
  | a :: as => do
    let bs ← k a
    let cs ← gather k as
    pure (bs ++ cs)

theorem Except.bind_eq_ok_iff {x : Except Fault α} {f : α → Except Fault β} {b : β} :
    x >>= f = .ok b ↔ ∃ a, x = .ok a ∧ f a = .ok b := by
  cases x with
  | error fault =>
      constructor
      · rintro ⟨⟩
      · rintro ⟨_, ⟨⟩, -⟩
  | ok a =>
      constructor
      · intro h
        exact ⟨a, rfl, h⟩
      · rintro ⟨_, ⟨⟩, h⟩
        exact h

theorem gather_cons_eq_ok_iff {a : α} {cs : List β} :
    gather k (a :: as) = .ok cs ↔
      ∃ bs ds, k a = .ok bs ∧ gather k as = .ok ds ∧ bs ++ ds = cs := by
  rw [gather, Except.bind_eq_ok_iff]
  refine exists_congr fun bs => ?_
  rw [Except.bind_eq_ok_iff]
  simp only [exists_and_left, pure, Except.pure, Except.ok.injEq]

theorem gather_append_eq_ok_iff {as' : List α} {cs : List β} :
    gather k (as ++ as') = .ok cs ↔
      ∃ bs ds, gather k as = .ok bs ∧ gather k as' = .ok ds ∧ bs ++ ds = cs := by
  induction as generalizing cs with
  | nil => simp [gather]
  | cons a as ih =>
      simp only [List.cons_append, gather_cons_eq_ok_iff, ih]
      constructor
      · rintro ⟨bs, _, ha, ⟨ds, es, has, has', rfl⟩, rfl⟩
        exact ⟨bs ++ ds, es, ⟨bs, ds, ha, has, rfl⟩, has', List.append_assoc bs ds es⟩
      · rintro ⟨_, es, ⟨bs, ds, ha, has, rfl⟩, has', rfl⟩
        exact ⟨bs, ds ++ es, ha, ⟨ds, es, has, has', rfl⟩, (List.append_assoc bs ds es).symm⟩

/-- One level after the other, or each item through both levels before the next one: the same
results. The faults may differ, as a later item of the first level may end in one and so may
an earlier item of the second. -/
theorem gather_bind_gather_eq_ok_iff {cs : List γ} :
    gather k as >>= gather l = .ok cs ↔ gather (fun a => k a >>= gather l) as = .ok cs := by
  rw [Except.bind_eq_ok_iff]
  induction as generalizing cs with
  | nil => simp [gather]
  | cons a as ih =>
      simp only [gather_cons_eq_ok_iff, ← ih, Except.bind_eq_ok_iff]
      constructor
      · rintro ⟨_, ⟨bs, ds, ha, has, rfl⟩, hcs⟩
        obtain ⟨es, fs, hbs, hds, rfl⟩ := gather_append_eq_ok_iff.1 hcs
        exact ⟨es, fs, ⟨bs, ha, hbs⟩, ⟨ds, has, hds⟩, rfl⟩
      · rintro ⟨es, fs, ⟨bs, ha, hbs⟩, ⟨ds, has, hds⟩, rfl⟩
        exact ⟨bs ++ ds, ⟨bs, ds, ha, has, rfl⟩,
          gather_append_eq_ok_iff.2 ⟨es, fs, hbs, hds, rfl⟩⟩

end Gather

namespace Eval

variable {α β : Type} {Inv : Store → Prop} {m : Eval α}

/-! ## Computations that depend on nothing else -/

/-- From every store of the invariant the computation ends as `r` says, in a store of the
invariant. -/
def Settles (Inv : Store → Prop) (m : Eval α) (r : Except Fault α) : Prop :=
  ∀ s, Inv s → ∃ u, Inv u ∧ m.run s = ended r u

/-- Among the stores of the invariant it does not matter which one the computation is run
from. -/
def IsSettled (Inv : Store → Prop) (m : Eval α) : Prop := ∃ r, Settles Inv m r

theorem settles_ofExcept (r : Except Fault α) : Settles Inv (ofExcept r) r := by
  intro s hs
  refine ⟨s, hs, ?_⟩
  cases r <;> rfl

theorem settles_pure (a : α) : Settles Inv (pure a : Eval α) (.ok a) := settles_ofExcept (.ok a)

namespace Settles

theorem bind {f : α → Eval β} {r : Except Fault α} {k : α → Except Fault β}
    (h : Settles Inv m r) (hf : ∀ a, Settles Inv (f a) (k a)) :
    Settles Inv (m >>= f) (r >>= k) := by
  intro s hs
  obtain ⟨u, hu, hrun⟩ := h s hs
  cases r with
  | error fault => exact ⟨u, hu, run_bind_error hrun⟩
  | ok a =>
      obtain ⟨v, hv, hlast⟩ := hf a u hu
      exact ⟨v, hv, (run_bind_ok hrun).trans hlast⟩

theorem collect {f : α → Eval (List β)} {k : α → Except Fault (List β)}
    (h : ∀ a, Settles Inv (f a) (k a)) (as : List α) :
    Settles Inv (collect f as) (gather k as) := by
  induction as with
  | nil => exact settles_pure []
  | cons a as ih => exact (h a).bind fun bs => ih.bind fun cs => settles_pure (bs ++ cs)

/-- What a computation ends in from a store of the invariant. -/
theorem exists_run_iff {r x : Except Fault α} (h : Settles Inv m r) {s : Store} (hs : Inv s) :
    (∃ u, m.run s = ended x u) ↔ r = x := by
  obtain ⟨u, -, hrun⟩ := h s hs
  constructor
  · rintro ⟨v, hv⟩
    exact (ended_inj (hrun.symm.trans hv)).1
  · rintro rfl
    exact ⟨u, hrun⟩

end Settles

namespace IsSettled

theorem pure (a : α) : IsSettled Inv (pure a : Eval α) := ⟨_, settles_pure a⟩

theorem bind {f : α → Eval β} (h : IsSettled Inv m) (hf : ∀ a, IsSettled Inv (f a)) :
    IsSettled Inv (m >>= f) := by
  obtain ⟨r, hr⟩ := h
  choose k hk using hf
  exact ⟨_, hr.bind hk⟩

theorem collect {f : α → Eval (List β)} (h : ∀ a, IsSettled Inv (f a)) (as : List α) :
    IsSettled Inv (collect f as) := by
  choose k hk using h
  exact ⟨_, .collect hk as⟩

theorem repeatedly {step : Text → Eval (List Outcome)} (h : ∀ cur, IsSettled Inv (step cur))
    (cur : Text) (values : List Value) : IsSettled Inv (repeatedly step cur values) := by
  induction hn : cur.length using Nat.strongRecOn generalizing cur values with
  | ind n ih =>
      rw [Descent.repeatedly]
      refine (h cur).bind fun os => ?_
      cases os with
      | nil => exact pure _
      | cons o os =>
          by_cases hlt : o.rest.length < cur.length
          · simp only [hlt, ↓reduceDIte]
            exact ih o.rest.length (hn ▸ hlt) o.rest _ rfl
          · simp only [hlt, ↓reduceDIte]
            exact pure _

end IsSettled

/-- Values that are changed without a look at the store. -/
theorem ofExcept_mapM (f : α → Except Fault β) (as : List α) :
    ofExcept (as.mapM f) = collect (fun a => ofExcept ((f a).map fun b => [b])) as := by
  induction as with
  | nil => rfl
  | cons a as ih =>
      rw [collect_cons, ← ih, List.mapM_cons]
      cases f a with
      | error fault => rfl
      | ok b => cases as.mapM f <;> rfl

theorem collect_pure (f : α → β) (as : List α) :
    collect (fun a => pure [f a]) as = (pure (as.map f) : Eval (List β)) := by
  induction as with
  | nil => rfl
  | cons a as ih =>
      rw [collect_cons, ih, pure_bind, pure_bind, List.map_cons, List.singleton_append]

end Eval

namespace Parser

variable {Inv : Store → Prop} {e : Entry} {p : Parser} {f g : Value → Parser}

/-- Among the stores of the invariant, what a run of the parser ends in depends on its input
alone. -/
def IsSettled (Inv : Store → Prop) (e : Entry) (p : Parser) : Prop :=
  ∀ cur, Eval.IsSettled Inv (p.parse e cur)

theorem isSettled_parseAll {ps : List Parser} (h : ∀ p ∈ ps, p.IsSettled Inv e)
    (states : List (List Value × Text)) : Eval.IsSettled Inv (parseAll e ps states) := by
  induction ps generalizing states with
  | nil => exact .pure states
  | cons p ps ih =>
      have hstep (state : List Value × Text) : Eval.IsSettled Inv (p.parse e state.2 >>= fun os =>
          pure (os.map fun o => (state.1 ++ [o.value], o.rest))) :=
        (h p List.mem_cons_self state.2).bind fun _ => .pure _
      rw [parseAll]
      exact (Eval.IsSettled.collect hstep states).bind fun next =>
        ih (fun q hq => h q (List.mem_cons_of_mem p hq)) next

/-- Only cells may depend on the store: if none of them does, then no parser does. -/
theorem isSettled_of_cells (hlazy : ∀ c, (lazy c).IsSettled Inv e)
    (hfirst : ∀ c, (first c).IsSettled Inv e) (p : Parser) : p.IsSettled Inv e := by
  induction p.composedOf_isPlain with
  | given hp =>
      obtain ⟨name, run, rfl⟩ := hp
      exact fun cur => ⟨run cur, settles_ofExcept _⟩
  | lazy c => exact hlazy c
  | first c => exact hfirst c
  | map f _ ih => exact fun cur => (ih cur).bind fun os => ⟨_, settles_ofExcept _⟩
  | chain _ _ ih ihf =>
      exact fun cur => (ih cur).bind (.collect fun o => ihf o.value o.rest)
  | many _ ih => exact fun cur => .repeatedly ih cur []
  | pipe _ _ ihs ihf =>
      exact fun cur => (isSettled_parseAll ihs [([], cur)]).bind
        (.collect fun state => ihf state.1 state.2)

/-! ## The laws -/

theorem parse_chain_of_lift (e : Entry) (v : Value) (f : Value → Parser) (cur : Text) :
    (chain (lift v) f).parse e cur = (f v).parse e cur := by
  rw [parse_chain, parse_lift, pure_bind, collect_singleton]

theorem parse_chain_to_lift (e : Entry) (p : Parser) (cur : Text) :
    (chain p lift).parse e cur = p.parse e cur := by
  have hunit : (collect fun o => (lift o.value).parse e o.rest) = pure :=
    funext fun os => (collect_pure id os).trans (congrArg pure (List.map_id os))
  rw [parse_chain, hunit, bind_pure]

theorem parse_liftExcept (e : Entry) (r : Except Fault Value) (cur : Text) :
    (liftExcept r).parse e cur = Eval.ofExcept (r.map fun v => [⟨v, cur⟩]) := by
  cases r <;> rfl

theorem parse_map_eq_chain (e : Entry) (p : Parser) (h : Value → Except Fault Value)
    (cur : Text) :
    (map p h).parse e cur = (chain p fun v => liftExcept (h v)).parse e cur := by
  rw [parse_chain, parse]
  refine bind_congr fun os => ?_
  rw [ofExcept_mapM]
  congr 1
  funext o
  rw [parse_liftExcept]
  cases h o.value <;> rfl

/-- Chains may be regrouped, as far as results go. -/
theorem exists_run_chain_chain_iff (hp : p.IsSettled Inv e) (hf : ∀ v, (f v).IsSettled Inv e)
    (hg : ∀ v, (g v).IsSettled Inv e) {s : Store} (hs : Inv s) (cur : Text) (os : List Outcome) :
    (∃ u, ((chain (chain p f) g).parse e cur).run s = .ok os u) ↔
      ∃ u, ((chain p fun v => chain (f v) g).parse e cur).run s = .ok os u := by
  choose first hfirst using hp
  choose next hnext using hf
  choose last hlast using hg
  -- the two sides are the two ways to gather the results
  have hleft := ((hfirst cur).bind (.collect fun o => hnext o.value o.rest)).bind
    (.collect fun o => hlast o.value o.rest)
  have hright := (hfirst cur).bind (.collect fun o =>
    (hnext o.value o.rest).bind (.collect fun o => hlast o.value o.rest))
  refine (hleft.exists_run_iff (x := .ok os) hs).trans
    (Iff.trans ?_ (hright.exists_run_iff (x := .ok os) hs).symm)
  cases first cur with
  | error fault => exact Iff.rfl
  | ok as => exact gather_bind_gather_eq_ok_iff

/-- `chain` and `lift` are a monad and `map` is its map. Three of the laws are equations
between the runs. Chains of parsers that depend on nothing but their arguments may be
regrouped: the results are the same, in the same order and as many times each, and one side
ends in a fault if and only if the other one does. -/
theorem chain_laws (e : Entry) (p : Parser) (f g : Value → Parser)
    (h : Value → Except Fault Value) (v : Value) (cur : Text) :
    (chain (lift v) f).parse e cur = (f v).parse e cur ∧
    (chain p lift).parse e cur = p.parse e cur ∧
    (map p h).parse e cur = (chain p fun v => liftExcept (h v)).parse e cur ∧
    ∀ Inv : Store → Prop, p.IsSettled Inv e → (∀ v, (f v).IsSettled Inv e) →
      (∀ v, (g v).IsSettled Inv e) → ∀ s, Inv s →
        (∀ os, (∃ u, ((chain (chain p f) g).parse e cur).run s = .ok os u) ↔
          ∃ u, ((chain p fun v => chain (f v) g).parse e cur).run s = .ok os u) ∧
        ((∃ fault u, ((chain (chain p f) g).parse e cur).run s = .error fault u) ↔
          ∃ fault u, ((chain p fun v => chain (f v) g).parse e cur).run s = .error fault u) := by
  refine ⟨parse_chain_of_lift e v f cur, parse_chain_to_lift e p cur, parse_map_eq_chain e p h cur,
    fun Inv hp hf hg s hs => ?_⟩
  have hresults := exists_run_chain_chain_iff hp hf hg hs cur
  refine ⟨hresults, ?_⟩
  rw [exists_error_iff, exists_error_iff]
  simp only [hresults]

/-- A choice behind a lazy parser, which is built in the first run: with two results of each
of the outer parsers all four are kept in order, although the first grouping enters the lazy
parser twice before the last parser runs at all. With a fault in the last parser, which the
second grouping meets first, and one after the second result, which the first grouping meets
first, the two end in different faults. -/
theorem chain_laws_two_results :
    let two : Parser := outcomes (text "two") [(.int 1, 1), (.int 2, 2)]
    let inner : LazyCell := { label := text "inner", builder := ⟨none, 0, [], .given (.first 0)⟩ }
    let s : Store := { lazies := #[inner], choices := #[[.fail, oneChar]] }
    let pair : Value → Parser := fun v => .chain (.lazy 0) fun w => .lift (.list [v, w])
    let twice : Value → Parser := fun v => outcomes (text "twice") [(v, 0), (v, 1)]
    let late : Value → Parser := fun
      | .int 1 => .lift .null
      | _ => .raise .noCell
    let refuse : Value → Parser := fun _ => .raise .builderFailed
    let run (p : Parser) := (p.parse (.ofDepth 3) (text "abcd")).run s
    (∃ u, run (chain two fun v => chain (pair v) twice) =
      .ok [⟨.list [.int 1, .str (text "b")], text "cd"⟩,
        ⟨.list [.int 1, .str (text "b")], text "d"⟩,
        ⟨.list [.int 2, .str (text "c")], text "d"⟩, ⟨.list [.int 2, .str (text "c")], []⟩] u) ∧
      run (chain (chain two late) refuse) = .error .noCell s ∧
      (∃ fault u, run (chain two fun v => chain (late v) refuse) = .error fault u) ∧
      run (chain two fun v => chain (late v) refuse) = .error .builderFailed s := by
  intro two inner s pair twice late refuse run
  let built : Store :=
    { s with lazies := #[{ inner with phase := .built (.first 0) (.first 0), starts := 1 }] }
  let Inv : Store → Prop := fun u => u = s ∨ u = built
  have hstays {m : Eval (List Outcome)} (r : Except Fault (List Outcome))
      (hs : m.run s = ended r s) (hbuilt : m.run built = ended r built) : m.IsSettled Inv := by
    refine ⟨r, ?_⟩
    rintro _ (rfl | rfl)
    · exact ⟨s, .inl rfl, hs⟩
    · exact ⟨built, .inr rfl, hbuilt⟩
  have hbuilds {m : Eval (List Outcome)} (r : Except Fault (List Outcome))
      (hs : m.run s = ended r built) (hbuilt : m.run built = ended r built) :
      m.IsSettled Inv := by
    refine ⟨r, ?_⟩
    rintro _ (rfl | rfl)
    · exact ⟨built, .inr rfl, hs⟩
    · exact ⟨built, .inr rfl, hbuilt⟩
  have hfirst : ∀ c, (first c).IsSettled Inv (.ofDepth 3)
    | 0, [] => hstays (.ok []) rfl rfl
    | 0, a :: cur => hstays (.ok [⟨.str [a], cur⟩]) rfl rfl
    | _ + 1, _ => hstays (.error .noCell) rfl rfl
  have hlazy : ∀ c, (lazy c).IsSettled Inv (.ofDepth 3)
    | 0, [] => hbuilds (.ok []) rfl rfl
    | 0, a :: cur => hbuilds (.ok [⟨.str [a], cur⟩]) rfl rfl
    | _ + 1, _ => hstays (.error .noCell) rfl rfl
  have hsettled (p : Parser) : p.IsSettled Inv (.ofDepth 3) := isSettled_of_cells hlazy hfirst p
  have hlaws (f g : Value → Parser) :=
    (chain_laws (.ofDepth 3) two f g .ok .null (text "abcd")).2.2.2 _ (hsettled two)
      (fun v => hsettled (f v)) (fun v => hsettled (g v)) s (.inl rfl)
  exact ⟨((hlaws pair twice).1 _).1 ⟨_, rfl⟩, rfl, (hlaws late refuse).2.1 ⟨_, _, rfl⟩, rfl⟩

end Parser

end Descent
