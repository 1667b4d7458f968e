import Descent.Proofs.Store

/-!
# The content of a store

The content of a store is what parsers refer to: the lazy parsers, the choices and what
has a name. The trace and the counts are no part of it. Apart from them a run looks at
the content and lets it grow. `Content.Within P` says that all parsers of the content,
and all that its builders can make, are of the kind `P`; it is kept by whatever only
adds to the content.
-/

namespace Descent

/-! ## Kinds of parsers -/

/-- A parser that is put together from given ones. What stands in a cell of the store does
not matter here. -/
inductive Parser.ComposedOf (Given : Parser → Prop) : Parser → Prop
  | given {p : Parser} : Given p → ComposedOf Given p
  | lazy (c : Nat) : ComposedOf Given (.lazy c)
  | first (c : Nat) : ComposedOf Given (.first c)
  | map {p : Parser} (f : Value → Except Fault Value) :
      ComposedOf Given p → ComposedOf Given (.map p f)
  | chain {p : Parser} {f : Value → Parser} :
      ComposedOf Given p → (∀ v, ComposedOf Given (f v)) → ComposedOf Given (.chain p f)
  | many {p : Parser} : ComposedOf Given p → ComposedOf Given (.many p)
  | pipe {ps : List Parser} {handler : List Value → Parser} :
      (∀ p ∈ ps, ComposedOf Given p) → (∀ vs, ComposedOf Given (handler vs)) →
      ComposedOf Given (.pipe ps handler)

namespace Parser.ComposedOf

variable {P Q : Parser → Prop} {p : Parser}

/-- What is composed of composed parsers is composed. -/
theorem join (h : p.ComposedOf (ComposedOf P)) : p.ComposedOf P := by
  induction h with
  | given hp => exact hp
  | lazy c => exact .lazy c
  | first c => exact .first c
  | map f _ ih => exact .map f ih
  | chain _ _ ih ihf => exact .chain ih ihf
  | many _ ih => exact .many ih
  | pipe _ _ ihs ihf => exact .pipe ihs ihf

end Parser.ComposedOf

/-- A parser that is a plain function. -/
def Parser.IsPlain (p : Parser) : Prop := ∃ name run, p = .plain name run

mutual

/-- Every parser is composed of plain functions. -/
theorem Parser.composedOf_isPlain : ∀ p : Parser, p.ComposedOf IsPlain
  | .plain name run => .given ⟨name, run, rfl⟩
  | .lazy c => .lazy c
  | .first c => .first c
  | .map p f => .map f p.composedOf_isPlain
  | .chain p f => .chain p.composedOf_isPlain fun v => (f v).composedOf_isPlain
  | .many p => .many p.composedOf_isPlain
  | .pipe ps handler =>
    .pipe (Parser.forall_composedOf_isPlain ps) fun vs => (handler vs).composedOf_isPlain

theorem Parser.forall_composedOf_isPlain : ∀ ps : List Parser, ∀ p ∈ ps, p.ComposedOf IsPlain
  | [] => List.forall_mem_nil _
  | p :: ps =>
    List.forall_mem_cons.2 ⟨p.composedOf_isPlain, Parser.forall_composedOf_isPlain ps⟩

end

mutual

/-- All parsers that the recipe uses are of the kind, and so is each one that it makes of
those. -/
def Recipe.Within (P : Parser → Prop) : Recipe → Prop
  | .ready r => ∀ p, r = .ok p → P p
  | .named _ => True
  | .rule _ _ _ => True
  | .map of _ => of.Within P
  | .chain of inner next =>
    of.Within P ∧ Recipe.AllWithin P inner ∧
      ∀ ps : List Parser, (∀ p ∈ ps, P p) → ∀ v, P (next ps v)
  | .many of => of.Within P
  | .first of => Recipe.AllWithin P of
  | .pipe of inner handler =>
    Recipe.AllWithin P of ∧ Recipe.AllWithin P inner ∧
      ∀ ps : List Parser, (∀ p ∈ ps, P p) → ∀ vs, P (handler ps vs)
  | .lazy _ _ _ before body => Step.AllWithin P before ∧ body.Within P

def Recipe.AllWithin (P : Parser → Prop) : List Recipe → Prop
  | [] => True
  | r :: rs => r.Within P ∧ Recipe.AllWithin P rs

def Step.Within (P : Parser → Prop) : Step → Prop
  | .define _ p => p.Within P
  | .grammar _ _ => True
  | .trace _ => True
  | .run p _ _ => p.Within P
  | .add p alternative => p.Within P ∧ alternative.Within P
  | .describe p => p.Within P
  | .isBuilt p => p.Within P
  | .force p => p.Within P
  | .starts _ => True

def Step.AllWithin (P : Parser → Prop) : List Step → Prop
  | [] => True
  | step :: steps => step.Within P ∧ Step.AllWithin P steps

end

theorem Recipe.allWithin_iff {P : Parser → Prop} {rs : List Recipe} :
    Recipe.AllWithin P rs ↔ ∀ r ∈ rs, r.Within P := by
  induction rs with
  | nil => exact ⟨fun _ => List.forall_mem_nil _, fun _ => trivial⟩
  | cons r rs ih => rw [AllWithin, ih, List.forall_mem_cons]

mutual

theorem Recipe.within_of_forall {P : Parser → Prop} (h : ∀ p, P p) : ∀ r : Recipe, r.Within P
  | .ready _ => fun p _ => h p
  | .named _ => trivial
  | .rule _ _ _ => trivial
  | .map of _ => of.within_of_forall h
  | .chain of inner _ =>
    ⟨of.within_of_forall h, Recipe.allWithin_of_forall h inner, fun _ _ _ => h _⟩
  | .many of => of.within_of_forall h
  | .first of => Recipe.allWithin_of_forall h of
  | .pipe of inner _ =>
    ⟨Recipe.allWithin_of_forall h of, Recipe.allWithin_of_forall h inner, fun _ _ _ => h _⟩
  | .lazy _ _ _ before body => ⟨Step.allWithin_of_forall h before, body.within_of_forall h⟩

theorem Recipe.allWithin_of_forall {P : Parser → Prop} (h : ∀ p, P p) :
    ∀ rs : List Recipe, Recipe.AllWithin P rs
  | [] => trivial
  | r :: rs => ⟨r.within_of_forall h, Recipe.allWithin_of_forall h rs⟩

theorem Step.within_of_forall {P : Parser → Prop} (h : ∀ p, P p) : ∀ step : Step, step.Within P
  | .define _ p => p.within_of_forall h
  | .grammar _ _ => trivial
  | .trace _ => trivial
  | .run p _ _ => p.within_of_forall h
  | .add p alternative => ⟨p.within_of_forall h, alternative.within_of_forall h⟩
  | .describe p => p.within_of_forall h
  | .isBuilt p => p.within_of_forall h
  | .force p => p.within_of_forall h
  | .starts _ => trivial

theorem Step.allWithin_of_forall {P : Parser → Prop} (h : ∀ p, P p) :
    ∀ steps : List Step, Step.AllWithin P steps
  | [] => trivial
  | step :: steps => ⟨step.within_of_forall h, Step.allWithin_of_forall h steps⟩

end

/-! ## Contents -/

structure Content where
  lazies : Array LazyCell
  choices : Array (List Parser)
  names : List (String × Parser)
  grammars : List (String × Json.Grammar)

namespace Store

def content (s : Store) : Content := ⟨s.lazies, s.choices, s.names, s.grammars⟩

/-- The store with another content, and the same trace and counts. -/
def withContent (s : Store) (k : Content) : Store :=
  { s with lazies := k.lazies, choices := k.choices, names := k.names, grammars := k.grammars }

@[simp] theorem content_withContent (s : Store) (k : Content) : (s.withContent k).content = k := rfl

@[simp] theorem withContent_content (s : Store) : s.withContent s.content = s := rfl

end Store

/-- A cell as it is made. -/
structure LazyCell.IsNew (cell : LazyCell) : Prop where
  phase : cell.phase = .idle
  starts : cell.starts = 0
  failures : cell.failures = 0

/-- The builder of the cell makes parsers of the kind, and so is what the cell is built to. -/
structure LazyCell.Within (P : Parser → Prop) (cell : LazyCell) : Prop where
  before : Step.AllWithin P cell.builder.before
  body : cell.builder.body.Within P
  built : ∀ p entry, cell.phase = .built p entry → P p ∧ P entry

theorem LazyCell.within_of_forall {P : Parser → Prop} (h : ∀ p, P p) (cell : LazyCell) :
    cell.Within P where
  before := Step.allWithin_of_forall h _
  body := cell.builder.body.within_of_forall h
  built p entry _ := ⟨h p, h entry⟩

namespace Content

/-- Choices get further alternatives only, and what has a name may get a newer one. -/
structure Lengthens (k l : Content) : Prop where
  choices : ∀ (c : Nat) ps, k.choices[c]? = some ps →
    ∃ more, l.choices[c]? = some (ps ++ more)
  names : k.names <:+ l.names
  grammars : k.grammars <:+ l.grammars

namespace Lengthens

variable {k l m : Content}

theorem of_eq (hchoices : l.choices = k.choices) (hnames : l.names = k.names)
    (hgrammars : l.grammars = k.grammars) : k.Lengthens l where
  choices c ps hps := ⟨[], by rw [hchoices, hps, List.append_nil]⟩
  names := hnames ▸ List.suffix_refl _
  grammars := hgrammars ▸ List.suffix_refl _

theorem refl (k : Content) : k.Lengthens k := of_eq rfl rfl rfl

theorem trans (h : k.Lengthens l) (h' : l.Lengthens m) : k.Lengthens m where
  choices c ps hps := by
    obtain ⟨more, hl⟩ := h.choices c ps hps
    obtain ⟨others, hm⟩ := h'.choices c _ hl
    exact ⟨more ++ others, by rw [hm, List.append_assoc]⟩
  names := h.names.trans h'.names
  grammars := h.grammars.trans h'.grammars

theorem choices_eq (h : k.Lengthens l) (h' : l.Lengthens k) : l.choices = k.choices := by
  refine Array.ext_getElem? fun c => ?_
  cases hk : k.choices[c]? with
  | none =>
      refine Option.eq_none_iff_forall_ne_some.2 fun ps hl => ?_
      obtain ⟨more, hmore⟩ := h'.choices c ps hl
      cases hmore.symm.trans hk
  | some ps =>
      obtain ⟨more, hl⟩ := h.choices c ps hk
      obtain ⟨others, hk'⟩ := h'.choices c _ hl
      have hsame : ps ++ (more ++ others) = ps := by
        rw [← List.append_assoc]
        exact Option.some.inj (hk'.symm.trans hk)
      have hmore : more = [] := (List.append_eq_nil_iff.1 (List.append_right_eq_self.1 hsame)).1
      rw [hl, hmore, List.append_nil]

theorem names_eq (h : k.Lengthens l) (h' : l.Lengthens k) : l.names = k.names :=
  h'.names.eq_of_length_le h.names.length_le

theorem grammars_eq (h : k.Lengthens l) (h' : l.Lengthens k) : l.grammars = k.grammars :=
  h'.grammars.eq_of_length_le h.grammars.length_le

end Lengthens

/-- The cells of the first content stay as they are, the others are new, and all else only
gets longer. -/
structure Grows (k l : Content) : Prop extends k.Lengthens l where
  old : ∀ (c : Nat) cell, k.lazies[c]? = some cell → l.lazies[c]? = some cell
  new : ∀ (c : Nat) cell, k.lazies[c]? = none → l.lazies[c]? = some cell → cell.IsNew

theorem grows_of_eq {k l : Content} (h : l.lazies = k.lazies) (hl : k.Lengthens l) :
    k.Grows l where
  toLengthens := hl
  old c cell hc := by rw [h, hc]
  new c cell hnone hc := by
    rw [h, hnone] at hc
    cases hc

theorem grows_append {k l : Content} (cells : Array LazyCell)
    (h : l.lazies = k.lazies ++ cells) (hl : k.Lengthens l)
    (hnew : ∀ cell ∈ cells, cell.IsNew) : k.Grows l where
  toLengthens := hl
  old c cell hc := by
    have hlt : c < k.lazies.size := (Array.getElem?_eq_some_iff.1 hc).1
    rw [h, Array.getElem?_append_left hlt, hc]
  new c cell hnone hc := by
    rw [h, Array.getElem?_append_right (Array.getElem?_eq_none_iff.1 hnone)] at hc
    exact hnew cell (Array.mem_of_getElem? hc)

/-- All parsers of the content are of the kind, and so are all that its builders make. -/
structure Within (P : Parser → Prop) (k : Content) : Prop where
  lazies : ∀ (c : Nat) cell, k.lazies[c]? = some cell → cell.Within P
  choices : ∀ (c : Nat) ps, k.choices[c]? = some ps → ∀ p ∈ ps, P p
  names : ∀ name p, Store.lookup? name k.names = some p → P p

theorem within_of_forall {P : Parser → Prop} (h : ∀ p, P p) (k : Content) : k.Within P where
  lazies _ cell _ := cell.within_of_forall h
  choices _ _ _ p _ := h p
  names _ p _ := h p

variable {P : Parser → Prop} {k : Content}

theorem Within.append (hk : k.Within P) {cells : Array LazyCell}
    (h : ∀ cell ∈ cells, cell.Within P) : { k with lazies := k.lazies ++ cells }.Within P where
  lazies c cell hc := by
    rcases Nat.lt_or_ge c k.lazies.size with hlt | hge
    · rw [Array.getElem?_append_left hlt] at hc
      exact hk.lazies c cell hc
    · rw [Array.getElem?_append_right hge] at hc
      exact h cell (Array.mem_of_getElem? hc)
  choices := hk.choices
  names := hk.names

end Content

namespace Eval

variable {α : Type} {P : Parser → Prop}

/-- The computation is told by the content alone and changes nothing else. It keeps all
parsers within the kind, and then its value is as `Q` says. -/
def Manages (P : Parser → Prop) (m : Eval α) (Q : α → Prop) : Prop :=
  ∃ f : Content → Except Fault α × Content,
    (∀ s : Store, m.run s = ended (f s.content).1 (s.withContent (f s.content).2)) ∧
    ∀ k : Content, k.Grows (f k).2 ∧
      (k.Within P → (f k).2.Within P ∧ ∀ a, (f k).1 = .ok a → Q a)

/-- A computation that only looks at the content. -/
theorem manages_of_run {m : Eval α} {Q : α → Prop} (f : Content → Except Fault α)
    (hrun : ∀ s : Store, m.run s = ended (f s.content) s)
    (hf : ∀ k : Content, k.Within P → ∀ a, f k = .ok a → Q a) : m.Manages P Q :=
  ⟨fun k => (f k, k), hrun, fun k => ⟨Content.grows_of_eq rfl (.refl k), fun hk => ⟨hk, hf k hk⟩⟩⟩

theorem manages_ofExcept (r : Except Fault α) {Q : α → Prop} (h : ∀ a, r = .ok a → Q a) :
    (ofExcept r).Manages P Q :=
  manages_of_run (fun _ => r) (fun _ => by cases r <;> rfl) fun _ _ => h

/-! ## Looking -/

/-- A computation that looks something up and ends in the fault if it is not there. -/
theorem manages_of_lookup {m : Eval α} {Q : α → Prop} (find : Content → Option α) (fault : Fault)
    (hrun : ∀ s : Store, m.run s = ended ((find s.content).elim (.error fault) .ok) s)
    (hfind : ∀ k : Content, k.Within P → ∀ a, find k = some a → Q a) : m.Manages P Q := by
  refine manages_of_run (fun k => (find k).elim (.error fault) .ok) hrun fun k hk a ha => ?_
  cases hfound : find k with
  | none =>
      rw [hfound] at ha
      cases ha
  | some b =>
      rw [hfound] at ha
      cases ha
      exact hfind k hk a hfound

theorem manages_lazyCell (c : Nat) : (lazyCell c).Manages P (LazyCell.Within P) := by
  refine manages_of_lookup (fun k => k.lazies[c]?) .noCell (fun s => ?_) fun k hk cell hcell =>
    hk.lazies c cell hcell
  rw [lazyCell, run_bind_ok (EStateM.run_get s)]
  change _ = ended (s.lazies[c]?.elim (.error .noCell) .ok) s
  cases s.lazies[c]? <;> rfl

theorem manages_alternatives (c : Nat) :
    (alternatives c).Manages P fun ps => ∀ p ∈ ps, P p := by
  refine manages_of_lookup (fun k => k.choices[c]?) .noCell (fun s => ?_) fun k hk ps hps =>
    hk.choices c ps hps
  rw [alternatives, run_bind_ok (EStateM.run_get s)]
  change _ = ended (s.choices[c]?.elim (.error .noCell) .ok) s
  cases s.choices[c]? <;> rfl

theorem manages_describeLazy (c : Nat) : (describeLazy c).Manages P fun _ => True :=
  manages_of_run (fun k => .ok (k.lazies[c]?.elim [] LazyCell.description)) (fun _ => rfl)
    fun _ _ _ _ => trivial

theorem manages_listed (c : Nat) : (listed c).Manages P fun _ => True :=
  manages_of_run (fun k => .ok (k.choices[c]?.getD [])) (fun _ => rfl) fun _ _ _ _ => trivial

theorem manages_parserNamed (name : String) : (parserNamed name).Manages P P := by
  let missing : Fault := .missingKey (.str (text name))
  refine manages_of_lookup (fun k => Store.lookup? name k.names) missing (fun s => ?_)
    fun k hk p hp => hk.names name p hp
  rw [parserNamed, run_bind_ok (EStateM.run_get s)]
  change _ = ended ((Store.lookup? name s.names).elim (.error missing) .ok) s
  cases Store.lookup? name s.names <;> rfl

theorem manages_grammarNamed (name : String) : (grammarNamed name).Manages P fun _ => True := by
  let missing : Fault := .missingKey (.str (text name))
  refine manages_of_lookup (fun k => Store.lookup? name k.grammars) missing (fun s => ?_)
    fun _ _ _ _ => trivial
  rw [grammarNamed, run_bind_ok (EStateM.run_get s)]
  change _ = ended ((Store.lookup? name s.grammars).elim (.error missing) .ok) s
  cases Store.lookup? name s.grammars <;> rfl

theorem manages_startsOf (id : Int) :
    (do let s ← get; pure (Answer.count (s.startsOf id)) : Eval Answer).Manages P
      fun _ => True :=
  manages_of_run
    (fun k => .ok (.count
      (k.lazies.foldl (fun n c => if c.builder.id = some id then n + c.starts else n) 0)))
    (fun _ => rfl) fun _ _ _ _ => trivial

/-! ## Growing -/

theorem manages_newLazy (label : Text) {b : Builder} (hbefore : Step.AllWithin P b.before)
    (hbody : b.body.Within P) : (newLazy label b).Manages P fun p => ∃ c, p = .lazy c := by
  let cell : LazyCell := { label := label, builder := b }
  have hpush (k : Content) : k.lazies.push cell = k.lazies ++ #[cell] := by simp
  refine ⟨fun k => (.ok (.lazy k.lazies.size), { k with lazies := k.lazies.push cell }),
    fun _ => rfl, fun k => ⟨Content.grows_append #[cell] (hpush k) (.of_eq rfl rfl rfl) ?_,
      fun hk => ⟨?_, ?_⟩⟩⟩
  · rintro _ (_ | ⟨_, ⟨⟩⟩)
    exact ⟨rfl, rfl, rfl⟩
  · have hcells : ∀ other ∈ #[cell], other.Within P := by
      rintro _ (_ | ⟨_, ⟨⟩⟩)
      exact ⟨hbefore, hbody, fun _ _ h => nomatch h⟩
    have hmore := hk.append hcells
    rwa [← hpush] at hmore
  · rintro _ ⟨⟩
    exact ⟨_, rfl⟩

/-- A new grammar, if the recipes of its rules are within the kind. -/
theorem manages_create (o : Json.Options)
    (h : ∀ (g : Json.Grammar) r, (g.recipe r).Within P) :
    (Json.Grammar.create o).Manages P fun _ => True := by
  let cells (k : Content) : Array LazyCell :=
    (Json.Rule.lazyRules.map (Json.Grammar.cell ⟨o, k.lazies.size⟩)).toArray
  have hcells (k : Content) (cell : LazyCell) (hcell : cell ∈ cells k) :
      ∃ r, Json.Grammar.cell ⟨o, k.lazies.size⟩ r = cell := by
    obtain ⟨r, -, hr⟩ := List.mem_map.1 (List.mem_toArray.1 hcell)
    exact ⟨r, hr⟩
  refine ⟨fun k => (.ok ⟨o, k.lazies.size⟩, { k with lazies := k.lazies ++ cells k }),
    fun _ => rfl, fun k => ⟨Content.grows_append (cells k) rfl (.of_eq rfl rfl rfl) ?_,
      fun hk => ⟨hk.append ?_, ?_⟩⟩⟩
  · intro cell hcell
    obtain ⟨r, rfl⟩ := hcells k cell hcell
    exact ⟨rfl, rfl, rfl⟩
  · intro cell hcell
    obtain ⟨r, rfl⟩ := hcells k cell hcell
    exact ⟨trivial, h _ r, fun _ _ h => nomatch h⟩
  · exact fun _ _ => trivial

theorem manages_newChoice {ps : List Parser} (hps : ∀ p ∈ ps, P p) :
    (newChoice ps).Manages P fun p => ∃ c, p = .first c := by
  refine ⟨fun k => (.ok (.first k.choices.size), { k with choices := k.choices.push ps }),
    fun _ => rfl, fun k => ⟨Content.grows_of_eq rfl
      ⟨fun c qs hc => ⟨[], ?_⟩, List.suffix_refl _, List.suffix_refl _⟩,
      fun hk => ⟨⟨hk.lazies, fun c qs hc => ?_, hk.names⟩, ?_⟩⟩⟩
  · have hlt : c < k.choices.size := (Array.getElem?_eq_some_iff.1 hc).1
    rw [Array.getElem?_push_lt hlt, List.append_nil, ← Array.getElem?_eq_getElem hlt, hc]
  · rw [Array.getElem?_push] at hc
    split at hc
    · cases hc
      exact hps
    · exact hk.choices c qs hc
  · rintro _ ⟨⟩
    exact ⟨_, rfl⟩

theorem manages_addAlternative (c : Nat) {p : Parser} (hp : P p) :
    (addAlternative c p).Manages P fun _ => True := by
  refine ⟨fun k => (.ok (), { k with choices := k.choices.modify c (· ++ [p]) }),
    fun _ => rfl, fun k => ⟨Content.grows_of_eq rfl
      ⟨fun d qs hd => ?_, List.suffix_refl _, List.suffix_refl _⟩,
      fun hk => ⟨⟨hk.lazies, fun d qs hd => ?_, hk.names⟩, fun _ _ => trivial⟩⟩⟩
  · rw [Array.getElem?_modify, hd]
    split
    · exact ⟨[p], rfl⟩
    · exact ⟨[], by rw [List.append_nil]⟩
  · rw [Array.getElem?_modify] at hd
    split at hd
    · obtain ⟨ps, hps, rfl⟩ := Option.map_eq_some_iff.1 hd
      intro q hq
      rcases List.mem_append.1 hq with hq | hq
      · exact hk.choices d ps hps q hq
      · rw [List.mem_singleton.1 hq]
        exact hp
    · exact hk.choices d qs hd

theorem manages_define (name : String) {p : Parser} (hp : P p) :
    (modify fun s => { s with names := (name, p) :: s.names } : Eval Unit).Manages P
      fun _ => True := by
  refine ⟨fun k => (.ok (), { k with names := (name, p) :: k.names }),
    fun _ => rfl, fun k => ⟨Content.grows_of_eq rfl
      { Content.Lengthens.refl k with names := List.suffix_cons _ _ },
      fun hk => ⟨⟨hk.lazies, hk.choices, fun other q hq => ?_⟩, fun _ _ => trivial⟩⟩⟩
  rw [Store.lookup?, List.find?_cons] at hq
  split at hq
  · cases hq
    exact hp
  · exact hk.names other q hq

theorem manages_nameGrammar (name : String) (g : Json.Grammar) :
    (modify fun s => { s with grammars := (name, g) :: s.grammars } : Eval Unit).Manages P
      fun _ => True :=
  ⟨fun k => (.ok (), { k with grammars := (name, g) :: k.grammars }), fun _ => rfl,
    fun k => ⟨Content.grows_of_eq rfl
      { Content.Lengthens.refl k with grammars := List.suffix_cons _ _ },
      fun hk => ⟨⟨hk.lazies, hk.choices, hk.names⟩, fun _ _ => trivial⟩⟩⟩

end Eval

end Descent
