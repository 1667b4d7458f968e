import Descent.Proofs.Content

/-!
# Judgements about runs

A judgement speaks of two computations side by side and of the values that they end in.
If it is kept by a few ways to put computations together, by what is done to the content
of a store and by the building of a lazy parser, then it holds of all that can be asked
of a parser and of all steps: this is proved here once, along the definitions of the runs.
The two sides may be given different entries, so a judgement may compare depths. What an
entry does when nothing is left of the depth, and what is said of given parsers, is
`Entries`; it passes from one depth to the next.
-/

namespace Descent

open Eval

/-- The fault says that the depth is used up, or it was made of one that says so. -/
def Fault.IsOfDepth : Fault → Prop
  | .depthExceeded => True
  | .nestedTooDeep _ => True
  | _ => False

namespace Eval

/-- What is done after the fault ends in a fault again, and in one of depth if it was one. -/
def Rethrows {α : Type} (m : Eval α) (f : Fault) : Prop :=
  ∀ s, ∃ f' u, m.run s = .error f' u ∧ (f.IsOfDepth → f'.IsOfDepth)

theorem rethrows_throw {α : Type} (f : Fault) : (throw f : Eval α).Rethrows f :=
  fun s => ⟨f, s, rfl, id⟩

/-- The computation has a value and changes nothing, or it runs out of depth. -/
def Observes {α : Type} (m : Eval α) : Prop :=
  ∀ s, (∃ a, m.run s = .ok a s) ∨
    m.run s = .error .depthExceeded { s with overruns := s.overruns + 1 }

theorem observes_pure {α : Type} (a : α) : (pure a : Eval α).Observes :=
  fun _ => .inl ⟨a, rfl⟩

theorem observes_overrun {α : Type} : (overrun : Eval α).Observes :=
  fun _ => .inr rfl

/-- A line of the trace is written if the trace is on, unless its last word runs out of depth. -/
theorem Observes.run_traceLine {m : Eval Text} (h : m.Observes) (head : Text) (s : Store) :
    s.tracing = false ∧ (traceLine head m).run s = ended (.ok ()) s ∨
      s.tracing = true ∧ ∃ pieces,
        (traceLine head m).run s = ended (.ok ()) { s with pieces := pieces } ∨
          (traceLine head m).run s =
            ended (.error .depthExceeded)
              { s with pieces := pieces, overruns := s.overruns + 1 } := by
  rw [traceLine, run_bind_ok (EStateM.run_get s)]
  by_cases hon : s.tracing = true
  · refine .inr ⟨hon, ?_⟩
    let begun : Store := { s with pieces := (head ++ text " ") :: s.pieces }
    have hbegun : (write (head ++ text " ")).run s = .ok () begun := rfl
    rw [if_pos hon, run_bind_ok hbegun]
    rcases h begun with ⟨t, hm⟩ | hm
    · rw [run_bind_ok hm]
      exact ⟨(t ++ text "\n") :: begun.pieces, .inl rfl⟩
    · rw [run_bind_error hm]
      exact ⟨begun.pieces, .inr rfl⟩
  · rw [if_neg hon]
    exact .inl ⟨Bool.eq_false_iff.2 hon, rfl⟩

/-- A refusal ends in the fault that it is about, unless its words run out of depth. -/
theorem Observes.exists_refusal {α : Type} {m : Eval Text} (h : m.Observes) (head : Text)
    (fault : Text → Fault) (s : Store) :
    ∃ f u, (do traceLine head m
               let d ← m
               throw (fault d) : Eval α).run s = .error f u ∧
      (f = .depthExceeded ∨ ∃ d, f = fault d) := by
  have hlast (s : Store) : ∃ f u,
      (m >>= fun d => (throw (fault d) : Eval α)).run s = .error f u ∧
        (f = .depthExceeded ∨ ∃ d, f = fault d) := by
    rcases h s with ⟨d, hd⟩ | hd
    · exact ⟨fault d, s, run_bind_ok hd, .inr ⟨d, rfl⟩⟩
    · exact ⟨.depthExceeded, _, run_bind_error hd, .inl rfl⟩
  rcases h.run_traceLine head s with ⟨-, hline⟩ | ⟨-, pieces, hline | hline⟩
  · obtain ⟨f, u, hrun, hf⟩ := hlast s
    exact ⟨f, u, (run_bind_ok hline).trans hrun, hf⟩
  · obtain ⟨f, u, hrun, hf⟩ := hlast { s with pieces := pieces }
    exact ⟨f, u, (run_bind_ok hline).trans hrun, hf⟩
  · exact ⟨.depthExceeded, _, run_bind_error hline, .inl rfl⟩

theorem observes_describeLazy (c : Nat) : (describeLazy c).Observes :=
  fun _ => .inl ⟨_, rfl⟩

theorem observes_listed (c : Nat) : (listed c).Observes :=
  fun _ => .inl ⟨_, rfl⟩

theorem Observes.bind {α β : Type} {m : Eval α} {f : α → Eval β} (h : m.Observes)
    (hf : ∀ a, (f a).Observes) : (m >>= f).Observes := by
  intro s
  rcases h s with ⟨a, hm⟩ | hm
  · rw [run_bind_ok hm]
    exact hf a s
  · exact .inr (run_bind_error hm)

/-- The computation `n` goes on from what `m` ends in, as `k` says. -/
def Resumes {α β : Type} (n : Eval β) (m : Eval α) (k : Except Fault α → Eval β) : Prop :=
  ∀ s r u, m.run s = ended r u → n.run s = (k r).run u

theorem resumes_bind {α β : Type} (m : Eval α) (f : α → Eval β) :
    (m >>= f).Resumes m fun
      | .ok a => f a
      | .error fault => throw fault := by
  intro s r u hm
  cases r with
  | ok a => exact run_bind_ok hm
  | error fault => exact run_bind_error hm

theorem resumes_tryCatch {α : Type} (m : Eval α) (h : Fault → Eval α) :
    (tryCatch m h).Resumes m fun
      | .ok a => pure a
      | .error fault => h fault := by
  intro s r u hm
  cases r with
  | ok a => exact run_tryCatch_ok hm
  | error fault => exact run_tryCatch_error hm

end Eval

namespace Entry

/-- Enters a lazy cell that is built in some other way than `e` builds it. -/
def enterWith (e : Entry) (build : Nat → Eval Parser) (c : Nat) (cur : Text) :
    Eval (List Outcome) := do
  let cell ← Eval.lazyCell c
  match cell.phase with
  | .built _ entry => entry.parseByMethod { e with force := build } cur
  | _ => do
    let p ← build c
    p.parse e cur

/-- The run of the builder of a cell, and what the parser that it makes is entered by. -/
def building (e : Entry) (cell : LazyCell) : Eval (Parser × Parser) := do
  Eval.traceLine (text "Lazy: build") (pure cell.description)
  let p ← cell.builder.run e (cell.starts + 1)
  let entry ← Eval.entryOf p
  pure (p, entry)

end Entry

/-- A relation between an input and what may remain of it, after any number of parsers. -/
structure IsRemaining (Leaves : Text → Text → Prop) : Prop where
  refl : ∀ t, Leaves t t
  trans : ∀ {t u v}, Leaves t u → Leaves u v → Leaves t v

theorem isRemaining_true : IsRemaining fun _ _ => True := ⟨fun _ => trivial, fun _ _ => trivial⟩

/-- A way to judge two computations side by side, and what keeps it. -/
structure Judgement where
  /-- The two computations are judged well, and end in values as the predicate says. -/
  Holds : ∀ {α : Type}, Eval α → Eval α → (α → Prop) → Prop
  /-- The parsers that recipes make and that cells hold. -/
  Made : Parser → Prop
  /-- The parsers that are judged as they are, not by their parts. -/
  Given : Parser → Prop
  /-- What may remain of an input. -/
  Leaves : Text → Text → Prop
  weaken {α : Type} {m m' : Eval α} {P Q : α → Prop} :
    Holds m m' P → (∀ a, P a → Q a) → Holds m m' Q
  resume {α β : Type} {m m' : Eval α} {n n' : Eval β} {k k' : Except Fault α → Eval β}
    {P : α → Prop} {Q : β → Prop} :
    Holds m m' P → n.Resumes m k → n'.Resumes m' k' →
      (∀ a, P a → Holds (k (.ok a)) (k' (.ok a)) Q) →
      (∀ f, Holds (k (.error f)) (k' (.error f)) Q) → (∀ f, (k (.error f)).Rethrows f) →
      Holds n n' Q
  manages {α : Type} {m : Eval α} {P : α → Prop} : m.Manages Made P → Holds m m P
  traceLine {m m' : Eval Text} (head : Text) :
    Holds m m' (fun _ => True) → m.Observes →
      Holds (Eval.traceLine head m) (Eval.traceLine head m') fun _ => True
  switchTrace (on : Bool) : Holds (Eval.switchTrace on) (Eval.switchTrace on) fun _ => True
  build {e e' : Entry} :
    (∀ cell : LazyCell, cell.Within Made →
      Holds (e.building cell) (e'.building cell) fun made => Made made.1 ∧ Made made.2) →
    ∀ c, Holds (e.buildLazy c) (e'.buildLazy c) Made
  made_of_composedOf {p : Parser} : p.ComposedOf Made → Made p
  composedOf_of_made {p : Parser} : Made p → p.ComposedOf Given
  made_recipe (g : Json.Grammar) (r : Json.Rule) : (g.recipe r).Within Made
  isRemaining : IsRemaining Leaves

namespace Judgement

variable (J : Judgement) {α β : Type}

theorem ofExcept (r : Except Fault α) {Q : α → Prop} (h : ∀ a, r = .ok a → Q a) :
    J.Holds (Eval.ofExcept r) (Eval.ofExcept r) Q :=
  J.manages (manages_ofExcept r h)

theorem pure {a : α} {Q : α → Prop} (h : Q a) : J.Holds (Pure.pure a) (Pure.pure a) Q :=
  J.ofExcept (.ok a) fun _ hb => Except.ok.inj hb ▸ h

theorem throw (f : Fault) {Q : α → Prop} :
    J.Holds (MonadExcept.throw f) (MonadExcept.throw f) Q :=
  J.ofExcept (.error f) fun _ h => nomatch h

/-- A plain function does not see the store. -/
theorem parse_plain {p : Parser} (hp : p.IsPlain) (e e' : Entry) (cur : Text)
    {Q : List Outcome → Prop} (hQ : ∀ os, Q os) : J.Holds (p.parse e cur) (p.parse e' cur) Q := by
  obtain ⟨name, run, rfl⟩ := hp
  exact J.ofExcept (run cur) fun os _ => hQ os

theorem bind {m m' : Eval α} {f f' : α → Eval β} {P : α → Prop} {Q : β → Prop}
    (h : J.Holds m m' P) (hf : ∀ a, P a → J.Holds (f a) (f' a) Q) :
    J.Holds (m >>= f) (m' >>= f') Q :=
  J.resume h (resumes_bind m f) (resumes_bind m' f') hf (fun fault => J.throw fault)
    rethrows_throw

theorem tryCatch {m m' : Eval α} {h h' : Fault → Eval α} {P : α → Prop} (hm : J.Holds m m' P)
    (hh : ∀ f, J.Holds (h f) (h' f) P) (hagain : ∀ f, (h f).Rethrows f) :
    J.Holds (MonadExcept.tryCatch m h) (MonadExcept.tryCatch m' h') P :=
  J.resume hm (resumes_tryCatch m h) (resumes_tryCatch m' h') (fun _ ha => J.pure ha) hh hagain

/-- Only what remains after an outcome matters, not its value. -/
def Fits (cur : Text) (os : List Outcome) : Prop := ∀ o ∈ os, J.Leaves cur o.rest

theorem fits_singleton {cur rest : Text} (h : J.Leaves cur rest) (v : Value) :
    J.Fits cur [⟨v, rest⟩] :=
  List.forall_mem_singleton.2 h

variable {J}

theorem Fits.trans {t u : Text} {os : List Outcome} (h : J.Leaves t u) (hos : J.Fits u os) :
    J.Fits t os :=
  fun o ho => J.isRemaining.trans h (hos o ho)

variable (J)

/-- What must be known of the entries of both sides. -/
structure Entries (e e' : Entry) : Prop where
  lazy : ∀ c cur, J.Holds (e.lazy c cur) (e'.lazy c cur) (J.Fits cur)
  first : ∀ c i cur, J.Holds (e.first c i cur) (e'.first c i cur) (J.Fits cur)
  force : ∀ c, J.Holds (e.force c) (e'.force c) J.Made
  describe : ∀ c, J.Holds (e.describe c) (e'.describe c) fun _ => True
  observes : ∀ c, (e.describe c).Observes
  given : ∀ p cur, J.Given p → J.Holds (p.parse e cur) (p.parse e' cur) (J.Fits cur)

variable {J}

/-! ## Loops -/

theorem collect {R : β → Prop} {f f' : α → Eval (List β)} : ∀ {as : List α},
    (∀ a ∈ as, J.Holds (f a) (f' a) fun bs => ∀ b ∈ bs, R b) →
    J.Holds (Descent.collect f as) (Descent.collect f' as) fun bs => ∀ b ∈ bs, R b
  | [], _ => J.pure (List.forall_mem_nil R)
  | a :: as, h => by
      rw [collect_cons, collect_cons]
      refine J.bind (h a List.mem_cons_self) fun bs hbs => ?_
      refine J.bind (collect fun b hb => h b (List.mem_cons_of_mem a hb)) fun cs hcs => ?_
      exact J.pure (List.forall_mem_append.2 ⟨hbs, hcs⟩)

/-- Each round starts where the last one ended. -/
theorem repeatedly {step step' : Text → Eval (List Outcome)}
    (h : ∀ cur, J.Holds (step cur) (step' cur) (J.Fits cur)) (cur : Text) (values : List Value) :
    J.Holds (Descent.repeatedly step cur values) (Descent.repeatedly step' cur values)
      (J.Fits cur) := by
  induction hn : cur.length using Nat.strongRecOn generalizing cur values with
  | ind n ih =>
      subst hn
      rw [Descent.repeatedly, Descent.repeatedly]
      refine J.bind (h cur) fun os hos => ?_
      cases os with
      | nil => exact J.pure (J.fits_singleton (J.isRemaining.refl cur) _)
      | cons o os =>
          have ho : J.Leaves cur o.rest := hos o List.mem_cons_self
          by_cases hlt : o.rest.length < cur.length
          · simp only [hlt, ↓reduceDIte]
            exact J.weaken (ih _ hlt o.rest _ rfl) fun _ hrest => hrest.trans ho
          · simp only [hlt, ↓reduceDIte]
            exact J.pure (J.fits_singleton ho _)

/-! ## Parsers -/

/-- A change of values keeps what remains. -/
theorem exists_mem_of_mapM {f : Value → Except Fault Value} : ∀ {os results : List Outcome},
    (os.mapM fun o => (f o.value).map fun v => (⟨v, o.rest⟩ : Outcome)) = .ok results →
    ∀ {o : Outcome}, o ∈ results → ∃ o' ∈ os, o'.rest = o.rest
  | [], results, h, o, ho => by
      cases h
      cases ho
  | first :: os, results, h, o, ho => by
      rw [List.mapM_cons] at h
      cases hv : f first.value with
      | error fault =>
          rw [hv] at h
          cases h
      | ok v =>
          cases hrest : os.mapM fun o => (f o.value).map fun v => (⟨v, o.rest⟩ : Outcome) with
          | error fault =>
              rw [hv, hrest] at h
              cases h
          | ok others =>
              rw [hv, hrest] at h
              cases h
              rcases List.mem_cons.1 ho with rfl | ho
              · exact ⟨first, List.mem_cons_self, rfl⟩
              · obtain ⟨o', ho', hsame⟩ := exists_mem_of_mapM hrest ho
                exact ⟨o', List.mem_cons_of_mem first ho', hsame⟩

theorem parseAll {e e' : Entry} {cur : Text} : ∀ {ps : List Parser},
    (∀ p ∈ ps, ∀ t, J.Holds (p.parse e t) (p.parse e' t) (J.Fits t)) →
    ∀ {states : List (List Value × Text)}, (∀ s ∈ states, J.Leaves cur s.2) →
    J.Holds (Parser.parseAll e ps states) (Parser.parseAll e' ps states)
      fun states => ∀ s ∈ states, J.Leaves cur s.2
  | [], _, _, hstates => J.pure hstates
  | p :: ps, h, states, hstates => by
      rw [Parser.parseAll, Parser.parseAll]
      refine J.bind (J.collect fun s hs => ?_) fun states' hstates' =>
        parseAll (fun q hq => h q (List.mem_cons_of_mem p hq)) hstates'
      refine J.bind (h p List.mem_cons_self s.2) fun os hos => J.pure fun next hnext => ?_
      obtain ⟨o, ho, rfl⟩ := List.mem_map.1 hnext
      exact J.isRemaining.trans (hstates s hs) (hos o ho)

section

variable {e e' : Entry} (he : J.Entries e e')
include he

theorem parse {p : Parser} (hp : p.ComposedOf J.Given) (cur : Text) :
    J.Holds (p.parse e cur) (p.parse e' cur) (J.Fits cur) := by
  induction hp generalizing cur with
  | given hp => exact he.given _ cur hp
  | lazy c => exact he.lazy c cur
  | first c => exact he.first c 0 cur
  | map f _ ih =>
      refine J.bind (ih cur) fun os hos => J.ofExcept _ fun results hresults o ho => ?_
      obtain ⟨o', ho', hrest⟩ := exists_mem_of_mapM hresults ho
      exact hrest ▸ hos o' ho'
  | chain _ _ ih ihf =>
      exact J.bind (ih cur) fun os hos =>
        collect fun o ho => J.weaken (ihf o.value o.rest) fun _ h => h.trans (hos o ho)
  | many _ ih => exact repeatedly ih cur []
  | pipe _ _ ihs ihf =>
      have hstart : ∀ s ∈ [(([] : List Value), cur)], J.Leaves cur s.2 :=
        List.forall_mem_singleton.2 (J.isRemaining.refl cur)
      exact J.bind (parseAll ihs hstart) fun states hstates =>
        collect fun s hs => J.weaken (ihf s.1 s.2) fun _ h => h.trans (hstates s hs)

theorem describe : ∀ p : Parser, J.Holds (p.describe e) (p.describe e') fun _ => True
  | .lazy c => J.manages (manages_describeLazy c)
  | .first c => he.describe c
  | .plain _ _ => J.pure trivial
  | .map _ _ => J.pure trivial
  | .chain _ _ => J.pure trivial
  | .many _ => J.pure trivial
  | .pipe _ _ => J.pure trivial

theorem observes_describe : ∀ p : Parser, (p.describe e).Observes
  | .lazy c => observes_describeLazy c
  | .first c => he.observes c
  | .plain _ _ => observes_pure _
  | .map _ _ => observes_pure _
  | .chain _ _ => observes_pure _
  | .many _ => observes_pure _
  | .pipe _ _ => observes_pure _

theorem traceDescription (head : Text) (p : Parser) :
    J.Holds (Eval.traceLine head (p.describe e)) (Eval.traceLine head (p.describe e'))
      fun _ => True :=
  J.traceLine head (describe he p) (observes_describe he p)

theorem parseByMethod {p : Parser} (hp : p.ComposedOf J.Given) (cur : Text) :
    J.Holds (p.parseByMethod e cur) (p.parseByMethod e' cur) (J.Fits cur) := by
  cases p with
  | lazy c => exact J.bind (he.force c) fun q hq => parse he (J.composedOf_of_made hq) cur
  | _ => exact parse he hp cur

theorem tryParse {p : Parser} (hp : p.ComposedOf J.Given) (cur : Text) (whole : Bool) :
    J.Holds (p.tryParse e cur whole) (p.tryParse e' cur whole) fun _ => True := by
  have hdescribed (head : Text) (fault : Text → Fault) {α : Type} {Q : α → Prop} :
      J.Holds
        (do Eval.traceLine head (p.describe e)
            let d ← p.describe e
            MonadExcept.throw (fault d))
        (do Eval.traceLine head (p.describe e')
            let d ← p.describe e'
            MonadExcept.throw (fault d)) Q :=
    J.bind (traceDescription he head p) fun _ _ =>
      J.bind (describe he p) fun d _ => J.throw (fault d)
  refine J.bind (J.tryCatch (parse he hp cur) (fun f => ?_) fun f => ?_) fun os _ => ?_
  · cases f with
    | depthExceeded => exact hdescribed _ .nestedTooDeep
    | _ => exact J.throw _
  · cases f with
    | depthExceeded =>
        intro s
        obtain ⟨f, u, hrun, hf⟩ :=
          (observes_describe he p).exists_refusal _ .nestedTooDeep s
        refine ⟨f, u, hrun, fun _ => ?_⟩
        rcases hf with rfl | ⟨d, rfl⟩ <;> trivial
    | _ => exact rethrows_throw _
  · cases os with
    | nil => exact hdescribed _ .noParse
    | cons o os =>
        dsimp only
        split
        · refine J.bind (J.traceLine _ (J.pure trivial) (observes_pure _)) fun _ _ => ?_
          exact J.throw _
        · exact J.pure trivial

/-- The outcomes that an answer gives fit. -/
theorem runMode {p : Parser} (hp : p.ComposedOf J.Given) (cur : Text) (mode : Mode) :
    J.Holds (p.runMode e cur mode) (p.runMode e' cur mode)
      fun answer => ∀ os, answer = .outcomes os → J.Fits cur os := by
  cases mode with
  | stored =>
      refine J.bind (parse he hp cur) fun os hos => J.pure ?_
      rintro _ ⟨⟩
      exact hos
  | method =>
      refine J.bind (parseByMethod he hp cur) fun os hos => J.pure ?_
      rintro _ ⟨⟩
      exact hos
  | whole => exact J.bind (tryParse he hp cur true) fun v _ => J.pure (by rintro _ ⟨⟩)
  | part => exact J.bind (tryParse he hp cur false) fun v _ => J.pure (by rintro _ ⟨⟩)

end

/-! ## Recipes and steps -/

variable (J) in
/-- The parsers of the rules are among those that recipes make. -/
theorem made_rule (g : Json.Grammar) (r : Json.Rule) : J.Made (g.parser r) := by
  cases r with
  | true => exact J.made_recipe g .true _ rfl
  | false => exact J.made_recipe g .false _ rfl
  | null => exact J.made_recipe g .null _ rfl
  | _ => exact J.made_of_composedOf (.lazy _)

mutual

theorem make : ∀ {r : Recipe}, r.Within J.Made → J.Holds r.make r.make J.Made
  | .ready r, h => J.ofExcept r h
  | .named name, _ => J.manages (manages_parserNamed name)
  | .rule (some name) _ r, _ =>
    J.bind (J.manages (manages_grammarNamed name)) fun g _ => J.pure (J.made_rule g r)
  | .rule none options r, _ =>
    J.bind (J.manages (manages_create options J.made_recipe)) fun g _ =>
      J.pure (J.made_rule g r)
  | .map of f, h =>
    J.bind (make (r := of) h) fun _ hp => J.pure (J.made_of_composedOf (.map f (.given hp)))
  | .chain _ _ _, ⟨hof, hinner, hnext⟩ =>
    J.bind (make hof) fun _ hp => J.bind (makeAll hinner) fun ps hps =>
      J.pure (J.made_of_composedOf (.chain (.given hp) fun v => .given (hnext ps hps v)))
  | .many of, h =>
    J.bind (make (r := of) h) fun _ hp => J.pure (J.made_of_composedOf (.many (.given hp)))
  | .first of, h =>
    J.bind (makeAll (h : Recipe.AllWithin J.Made of)) fun _ hps =>
      J.weaken (J.manages (manages_newChoice hps)) fun _ ⟨c, hp⟩ =>
        hp ▸ J.made_of_composedOf (.first c)
  | .pipe _ _ _, ⟨hof, hinner, hhandler⟩ =>
    J.bind (makeAll hof) fun _ hps => J.bind (makeAll hinner) fun qs hqs =>
      J.pure (J.made_of_composedOf
        (.pipe (fun p hp => .given (hps p hp)) fun vs => .given (hhandler qs hqs vs)))
  | .lazy label _ _ _ _, ⟨hbefore, hbody⟩ =>
    J.weaken (J.manages (manages_newLazy label hbefore hbody)) fun _ ⟨c, hp⟩ =>
      hp ▸ J.made_of_composedOf (.lazy c)

theorem makeAll : ∀ {rs : List Recipe}, Recipe.AllWithin J.Made rs →
    J.Holds (Recipe.makeAll rs) (Recipe.makeAll rs) fun ps => ∀ p ∈ ps, J.Made p
  | [], _ => J.pure (List.forall_mem_nil _)
  | _ :: _, ⟨hr, hrs⟩ =>
    J.bind (make hr) fun _ hp => J.bind (makeAll hrs) fun _ hps =>
      J.pure (List.forall_mem_cons.2 ⟨hp, hps⟩)

end

/-- What a parser is entered by is a parser that some cell holds, or the parser itself. -/
theorem entryOf {p : Parser} (hp : J.Made p) : J.Holds (Eval.entryOf p) (Eval.entryOf p) J.Made := by
  cases p with
  | lazy c =>
      refine J.bind (J.manages (manages_lazyCell c)) fun cell hcell => ?_
      cases hphase : cell.phase with
      | built q entry => exact J.pure (hcell.built q entry hphase).2
      | idle => exact J.pure hp
      | building => exact J.pure hp
  | _ => exact J.pure hp

section

variable {e e' : Entry} (he : J.Entries e e')
include he

theorem perform : ∀ {step : Step}, step.Within J.Made →
    J.Holds (step.perform e) (step.perform e') fun _ => True
  | .define name p, h =>
    J.bind (make (r := p) h) fun q hq => J.bind (J.manages (manages_define name hq)) fun _ _ =>
      J.pure trivial
  | .grammar name options, _ =>
    J.bind (J.manages (manages_create options J.made_recipe)) fun g _ =>
      J.bind (J.manages (manages_nameGrammar name g)) fun _ _ => J.pure trivial
  | .trace on, _ => J.bind (J.switchTrace on) fun _ _ => J.pure trivial
  | .run p cur mode, h =>
    J.bind (make (r := p) h) fun q hq =>
      J.weaken (runMode he (J.composedOf_of_made hq) cur mode) fun _ _ => trivial
  | .add p alternative, ⟨hp, halternative⟩ => by
      refine J.bind (make hp) fun q _ => ?_
      cases q with
      | first c =>
          exact J.bind (make halternative) fun a ha =>
            J.bind (J.manages (manages_addAlternative c ha)) fun _ _ => J.pure trivial
      | _ => exact J.throw _
  | .describe p, h =>
    J.bind (make (r := p) h) fun q _ => J.bind (describe he q) fun _ _ => J.pure trivial
  | .isBuilt p, h => by
      refine J.bind (make (r := p) h) fun q _ => ?_
      cases q with
      | lazy c => exact J.bind (J.manages (manages_lazyCell c)) fun _ _ => J.pure trivial
      | _ => exact J.throw _
  | .force p, h => by
      refine J.bind (make (r := p) h) fun q _ => ?_
      cases q with
      | lazy c =>
          exact J.bind (he.force c) fun q _ => J.bind (describe he q) fun _ _ => J.pure trivial
      | _ => exact J.throw _
  | .starts id, _ => J.manages (manages_startsOf id)

theorem performAll : ∀ {steps : List Step}, Step.AllWithin J.Made steps →
    J.Holds (steps.forM fun step => discard (step.perform e))
      (steps.forM fun step => discard (step.perform e')) fun _ => True
  | [], _ => J.pure trivial
  | step :: steps, ⟨hstep, hsteps⟩ => by
      have hfirst : J.Holds (discard (step.perform e)) (discard (step.perform e'))
          fun _ => True :=
        J.bind (perform he hstep) fun _ _ => J.pure trivial
      exact J.bind hfirst fun _ _ => performAll hsteps

theorem runBuilder (b : Builder) (starts : Nat) (hbefore : Step.AllWithin J.Made b.before)
    (hbody : b.body.Within J.Made) : J.Holds (b.run e starts) (b.run e' starts) J.Made := by
  rw [Builder.run, Builder.run]
  split
  · exact J.throw _
  · exact J.bind (performAll he hbefore) fun _ _ => make hbody

/-! ## Entries -/

theorem building (cell : LazyCell) (hcell : cell.Within J.Made) :
    J.Holds (e.building cell) (e'.building cell) fun made => J.Made made.1 ∧ J.Made made.2 := by
  refine J.bind (J.traceLine _ (J.pure trivial) (observes_pure _)) fun _ _ => ?_
  refine J.bind (runBuilder he _ _ hcell.before hcell.body) fun p hp => ?_
  exact J.bind (entryOf hp) fun entry hentry => J.pure ⟨hp, hentry⟩

theorem buildLazy (c : Nat) : J.Holds (e.buildLazy c) (e'.buildLazy c) J.Made :=
  J.build (building he) c

theorem enterWith {build build' : Nat → Eval Parser}
    (h : ∀ c, J.Holds (build c) (build' c) J.Made) (c : Nat) (cur : Text) :
    J.Holds (e.enterWith build c cur) (e'.enterWith build' c cur) (J.Fits cur) := by
  have hbuilding : J.Entries { e with force := build } { e' with force := build' } :=
    { he with
      force := h
      given := fun p t hp => by
        rw [Parser.parse_withForce e build, Parser.parse_withForce e' build']
        exact he.given p t hp }
  refine J.bind (J.manages (manages_lazyCell c)) fun cell hcell => ?_
  have hbuild : J.Holds (do let p ← build c; p.parse e cur) (do let p ← build' c; p.parse e' cur)
      (J.Fits cur) :=
    J.bind (h c) fun p hp => parse he (J.composedOf_of_made hp) cur
  cases hphase : cell.phase with
  | built p entry =>
      exact parseByMethod hbuilding (J.composedOf_of_made (hcell.built p entry hphase).2) cur
  | idle => exact hbuild
  | building => exact hbuild

theorem tryAlternatives (i : Nat) (cur : Text) : ∀ {ps : List Parser}, (∀ p ∈ ps, J.Made p) →
    J.Holds (e.tryAlternatives i ps cur) (e'.tryAlternatives i ps cur) (J.Fits cur) := by
  intro ps hps
  induction ps generalizing i with
  | nil => exact J.pure (List.forall_mem_nil _)
  | cons p ps ih =>
      refine J.bind (parse he (J.composedOf_of_made (hps p List.mem_cons_self)) cur)
        fun os hos => ?_
      cases os with
      | nil => exact ih (i + 1) fun q hq => hps q (List.mem_cons_of_mem p hq)
      | cons o os => exact J.bind (traceDescription he _ p) fun _ _ => J.pure hos

theorem enterFirst (c i : Nat) (cur : Text) :
    J.Holds (e.enterFirst c i cur) (e'.enterFirst c i cur) (J.Fits cur) := by
  refine J.bind (J.manages (manages_alternatives c)) fun ps hps => ?_
  have hleft : ∀ p ∈ ps.drop i, J.Made p := fun p hp => hps p (List.mem_of_mem_drop hp)
  refine J.bind (tryAlternatives he i cur hleft) fun os hos => ?_
  cases os with
  | nil =>
      refine J.bind (J.manages (manages_alternatives c)) fun now _ => ?_
      split
      · exact he.first c ps.length cur
      · exact J.pure (List.forall_mem_nil _)
  | cons o os => exact J.pure hos

theorem describeAll (ps : List Parser) :
    J.Holds (e.describeAll ps) (e'.describeAll ps) fun _ => True := by
  induction ps with
  | nil => exact J.pure trivial
  | cons p ps ih =>
      exact J.bind (describe he p) fun _ _ => J.bind ih fun _ _ => J.pure trivial

theorem observes_describeAll (ps : List Parser) : (e.describeAll ps).Observes := by
  induction ps with
  | nil => exact observes_pure []
  | cons p ps ih =>
      exact (observes_describe he p).bind fun _ => ih.bind fun _ => observes_pure _

theorem describeFirst (c : Nat) : J.Holds (e.describeFirst c) (e'.describeFirst c) fun _ => True :=
  J.bind (J.manages (manages_listed c)) fun ps _ => J.bind (describeAll he ps) fun _ _ =>
    J.pure trivial

theorem observes_describeFirst (c : Nat) : (e.describeFirst c).Observes :=
  (observes_listed c).bind fun ps => (observes_describeAll he ps).bind fun _ => observes_pure _

/-- Judged entries of one depth give judged entries of the next one. -/
theorem Entries.deeper
    (given : ∀ p cur, J.Given p →
      J.Holds (p.parse e.deeper cur) (p.parse e'.deeper cur) (J.Fits cur)) :
    J.Entries e.deeper e'.deeper where
  lazy := enterWith he (buildLazy he)
  first := enterFirst he
  force := buildLazy he
  describe := describeFirst he
  observes := observes_describeFirst he
  given := given

end

end Judgement

end Descent
