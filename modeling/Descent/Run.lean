import Descent.Json.Grammar

/-!
# Running parsers

Recipes are carried out by `Recipe.make`. A parser is run by `Parser.parse`, which
follows the parser's structure; what happens when it enters a lazy parser or a
choice is given by an `Entry`. An entry of depth `n + 1` enters them with entries
of depth `n` inside, and an entry of depth zero refuses. So nested entries are
bounded, and flat repetition is not.

A lazy parser is built when it is entered first. A parser that is used while its
builder runs is not ready. An alternative that is added to a choice while this is
being tried is tried too.
-/

namespace Descent

mutual

/-- Makes the parser of a recipe, with new lazy parsers and choices. -/
def Recipe.make : Recipe → Eval Parser
  | .ready r => Eval.ofExcept r
  | .named name => Eval.parserNamed name
  | .rule (some name) _ r => do
    let g ← Eval.grammarNamed name
    pure (g.parser r)
  | .rule none options r => do
    let g ← Json.Grammar.create options
    pure (g.parser r)
  | .map of f => do
    let p ← of.make
    pure (.map p f)
  | .chain of inner next => do
    let p ← of.make
    let ps ← Recipe.makeAll inner
    pure (.chain p (next ps))
  | .many of => do
    let p ← of.make
    pure (.many p)
  | .first of => do
    let ps ← Recipe.makeAll of
    Eval.newChoice ps
  | .pipe of inner handler => do
    let ps ← Recipe.makeAll of
    let qs ← Recipe.makeAll inner
    pure (.pipe ps (handler qs))
  | .lazy label id failTimes before body =>
    Eval.newLazy label ⟨id, failTimes, before, body⟩

def Recipe.makeAll : List Recipe → Eval (List Parser)
  | [] => pure []
  | r :: rs => do
    let p ← r.make
    let ps ← Recipe.makeAll rs
    pure (p :: ps)

end

/-- What happens when cells are entered, at some depth. -/
structure Entry where
  /-- Enters a lazy parser. -/
  lazy : Nat → Text → Eval (List Outcome)
  /-- Enters a choice, without so many of its alternatives. -/
  first : Nat → Nat → Text → Eval (List Outcome)
  /-- The parser that a lazy parser is built to. -/
  force : Nat → Eval Parser
  /-- Describes a choice. -/
  describe : Nat → Eval Text

/-- The results for each item, in order, as one list. -/
def collect {α β : Type} (f : α → Eval (List β)) : List α → Eval (List β)
  | [] => pure []
  | a :: as => do
    let bs ← f a
    let cs ← collect f as
    pure (bs ++ cs)

@[simp] theorem collect_nil {α β : Type} (f : α → Eval (List β)) : collect f [] = pure [] := rfl

theorem collect_cons {α β : Type} (f : α → Eval (List β)) (a : α) (as : List α) :
    collect f (a :: as) = f a >>= fun bs => collect f as >>= fun cs => pure (bs ++ cs) := rfl

/-- Reads again and again, taking first outcomes, until there is none or one that
consumes nothing, which is the last. -/
def repeatedly (step : Text → Eval (List Outcome)) (cur : Text) (values : List Value) :
    Eval (List Outcome) := do
  match ← step cur with
  | [] => pure [⟨.list values.reverse, cur⟩]
  | o :: _ =>
    if _h : o.rest.length < cur.length then repeatedly step o.rest (o.value :: values)
    else pure [⟨.list (o.value :: values).reverse, o.rest⟩]
termination_by cur.length

namespace Parser

mutual

/-- All outcomes of a parser. -/
def parse (e : Entry) : Parser → Text → Eval (List Outcome)
  | .plain _ run, cur => Eval.ofExcept (run cur)
  | .lazy c, cur => e.lazy c cur
  | .first c, cur => e.first c 0 cur
  | .map p f, cur => do
    let outcomes ← p.parse e cur
    Eval.ofExcept (outcomes.mapM fun o => (f o.value).map fun v => ⟨v, o.rest⟩)
  | .chain p f, cur => do
    let outcomes ← p.parse e cur
    collect (fun o => (f o.value).parse e o.rest) outcomes
  | .many p, cur => repeatedly (p.parse e) cur []
  | .pipe ps handler, cur => do
    let states ← parseAll e ps [([], cur)]
    collect (fun s => (handler s.1).parse e s.2) states

/-- The values so far and what remains, for each outcome of parsers that read one
after the other. -/
def parseAll (e : Entry) : List Parser → List (List Value × Text) → Eval (List (List Value × Text))
  | [], states => pure states
  | p :: ps, states => do
    let states ← collect
      (fun s => do
        let outcomes ← p.parse e s.2
        pure (outcomes.map fun o => (s.1 ++ [o.value], o.rest)))
      states
    parseAll e ps states

end

@[simp] theorem parse_lift (e : Entry) (v : Value) (cur : Text) :
    (lift v).parse e cur = pure [⟨v, cur⟩] := rfl

@[simp] theorem parse_fail (e : Entry) (cur : Text) : fail.parse e cur = pure [] := rfl

@[simp] theorem parse_raise (e : Entry) (f : Fault) (cur : Text) :
    (raise f).parse e cur = throw f := rfl

@[simp] theorem parse_lazy (e : Entry) (c : Nat) (cur : Text) :
    (Parser.lazy c).parse e cur = e.lazy c cur := rfl

@[simp] theorem parse_first (e : Entry) (c : Nat) (cur : Text) :
    (Parser.first c).parse e cur = e.first c 0 cur := rfl

theorem parse_chain (e : Entry) (p : Parser) (f : Value → Parser) (cur : Text) :
    (Parser.chain p f).parse e cur =
      p.parse e cur >>= collect fun o => (f o.value).parse e o.rest := rfl

theorem parse_many (e : Entry) (p : Parser) (cur : Text) :
    (Parser.many p).parse e cur = repeatedly (p.parse e) cur [] := rfl

theorem parse_pipe (e : Entry) (ps : List Parser) (handler : List Value → Parser) (cur : Text) :
    (Parser.pipe ps handler).parse e cur =
      parseAll e ps [([], cur)] >>= collect fun s => (handler s.1).parse e s.2 := rfl

@[simp] theorem parseAll_nil (e : Entry) (states : List (List Value × Text)) :
    parseAll e [] states = pure states := rfl

mutual

/-- What `force` does plays no part in a run. -/
theorem parse_withForce (e : Entry) (force : Nat → Eval Parser) :
    ∀ (p : Parser) (cur : Text), p.parse { e with force := force } cur = p.parse e cur
  | .plain _ _, _ => rfl
  | .lazy _, _ => rfl
  | .first _, _ => rfl
  | .map p f, cur => by rw [parse, parse, parse_withForce e force p]
  | .chain p f, cur => by
      have hnext (o : Outcome) :
          (f o.value).parse { e with force := force } o.rest = (f o.value).parse e o.rest :=
        parse_withForce e force (f o.value) o.rest
      rw [parse, parse, parse_withForce e force p]
      simp only [hnext]
  | .many p, cur => by
      have hstep : p.parse { e with force := force } = p.parse e :=
        funext (parse_withForce e force p)
      rw [parse, parse, hstep]
  | .pipe ps handler, cur => by
      have hnext (s : List Value × Text) :
          (handler s.1).parse { e with force := force } s.2 = (handler s.1).parse e s.2 :=
        parse_withForce e force (handler s.1) s.2
      rw [parse, parse, parseAll_withForce e force ps]
      simp only [hnext]

theorem parseAll_withForce (e : Entry) (force : Nat → Eval Parser) :
    ∀ (ps : List Parser) (states : List (List Value × Text)),
      parseAll { e with force := force } ps states = parseAll e ps states
  | [], _ => rfl
  | p :: ps, states => by
      have hparse (s : List Value × Text) :
          p.parse { e with force := force } s.2 = p.parse e s.2 :=
        parse_withForce e force p s.2
      have hrest : parseAll { e with force := force } ps = parseAll e ps :=
        funext (parseAll_withForce e force ps)
      rw [parseAll, parseAll, hrest]
      simp only [hparse]

end

def describeName (name : Text) : Text := text "<Parser:" ++ name ++ text ">"

/-- How a parser is described. -/
def describe (e : Entry) : Parser → Eval Text
  | .plain name _ => pure (describeName name)
  | .lazy c => Eval.describeLazy c
  | .first c => e.describe c
  | .map _ _ => pure (describeName (text "map"))
  | .chain _ _ => pure (describeName (text "chain"))
  | .many _ => pure (describeName (text "many"))
  | .pipe _ _ => pure (describeName (text "pipe"))

/-- Runs a parser through the method of its kind: a lazy parser is built if need
be, and then what it is built to is run. -/
def parseByMethod (e : Entry) : Parser → Text → Eval (List Outcome)
  | .lazy c, cur => do
    let p ← e.force c
    p.parse e cur
  | p, cur => p.parse e cur

/-- The value of the first outcome. With `whole` nothing may remain. -/
def tryParse (e : Entry) (p : Parser) (cur : Text) (whole : Bool) : Eval Value := do
  let outcomes ← tryCatch (p.parse e cur) fun f =>
    match f with
    | .depthExceeded => do
      Eval.traceLine (text "tryparse: recursion limit on") (p.describe e)
      let d ← p.describe e
      throw (.nestedTooDeep d)
    | f => throw f
  match outcomes with
  | [] => do
    Eval.traceLine (text "tryparse: no parse on") (p.describe e)
    let d ← p.describe e
    throw (.noParse d)
  | o :: _ =>
    if whole && !o.rest.isEmpty then do
      Eval.traceLine (text "tryparse: remainder") (pure o.rest.quoted)
      throw (.leftover o.value o.rest)
    else pure o.value

end Parser

/-- What a step answers. -/
inductive Answer where
  | done
  | outcomes (os : List Outcome)
  | value (v : Value)
  | description (t : Text)
  | truth (b : Bool)
  | count (n : Nat)

namespace Parser

def runMode (e : Entry) (p : Parser) (cur : Text) : Mode → Eval Answer
  | .stored => do
    let os ← p.parse e cur
    pure (.outcomes os)
  | .method => do
    let os ← p.parseByMethod e cur
    pure (.outcomes os)
  | .whole => do
    let v ← p.tryParse e cur true
    pure (.value v)
  | .part => do
    let v ← p.tryParse e cur false
    pure (.value v)

end Parser

/-- Carries out a step. -/
def Step.perform (e : Entry) : Step → Eval Answer
  | .define name p => do
    let p ← p.make
    modify fun s => { s with names := (name, p) :: s.names }
    pure .done
  | .grammar name options => do
    let g ← Json.Grammar.create options
    modify fun s => { s with grammars := (name, g) :: s.grammars }
    pure .done
  | .trace on => do
    Eval.switchTrace on
    pure .done
  | .run p cur mode => do
    let p ← p.make
    p.runMode e cur mode
  | .add p alternative => do
    match ← p.make with
    | .first c => do
      let q ← alternative.make
      Eval.addAlternative c q
      pure .done
    | other => throw (.unsuitable (.receiver "add") other.kindName)
  | .describe p => do
    let p ← p.make
    let t ← p.describe e
    pure (.description t)
  | .isBuilt p => do
    match ← p.make with
    | .lazy c => do
      let cell ← Eval.lazyCell c
      pure (.truth cell.isBuilt)
    | other => throw (.unsuitable (.receiver "is_built") other.kindName)
  | .force p => do
    match ← p.make with
    | .lazy c => do
      let q ← e.force c
      let t ← q.describe e
      pure (.description t)
    | other => throw (.unsuitable (.receiver "get") other.kindName)
  | .starts id => do
    let s ← get
    pure (.count (s.startsOf id))

namespace Builder

/-- Runs a builder that was started so many times, this one included. -/
def run (e : Entry) (b : Builder) (starts : Nat) : Eval Parser := do
  if starts ≤ b.failTimes then throw .builderFailed
  b.before.forM fun step => discard (step.perform e)
  b.body.make

end Builder

/-- What a lazy parser that is built to `p` runs when it is entered: `p`, or what
`p` runs if this is a lazy parser that is built. -/
def Eval.entryOf (p : Parser) : Eval Parser :=
  match p with
  | .lazy c => do
    let cell ← lazyCell c
    match cell.phase with
    | .built _ entry => pure entry
    | _ => pure p
  | p => pure p

namespace Entry

/-- The parser of a lazy cell, which is built if it is idle. Whatever ends the
builder, the cell does not stay in the phase of being built. -/
def buildLazy (e : Entry) (c : Nat) : Eval Parser := do
  let cell ← Eval.lazyCell c
  match cell.phase with
  | .built p _ => pure p
  | .building => throw (.notReady cell.description)
  | .idle =>
    Eval.modifyLazy c fun cell => { cell with phase := .building, starts := cell.starts + 1 }
    tryCatch
      (do
        Eval.traceLine (text "Lazy: build") (pure cell.description)
        let p ← cell.builder.run e (cell.starts + 1)
        let entry ← Eval.entryOf p
        Eval.setPhase c (.built p entry)
        pure p)
      fun f => do
        Eval.modifyLazy c fun cell =>
          { cell with phase := .idle, failures := cell.failures + 1 }
        throw f

/-- Enters a lazy cell: runs what it keeps for its entry, or else its method. -/
def enterLazy (e : Entry) (c : Nat) (cur : Text) : Eval (List Outcome) := do
  let cell ← Eval.lazyCell c
  match cell.phase with
  | .built _ entry => entry.parseByMethod { e with force := e.buildLazy } cur
  | _ => do
    let p ← e.buildLazy c
    p.parse e cur

/-- The outcomes of the first alternative that has any. The alternatives are
counted from `i` on. -/
def tryAlternatives (e : Entry) : Nat → List Parser → Text → Eval (List Outcome)
  | _, [], _ => pure []
  | i, p :: ps, cur => do
    match ← p.parse e cur with
    | [] => tryAlternatives e (i + 1) ps cur
    | o :: os => do
      Eval.traceLine (text "First: alternative #" ++ Text.ofNat i) (p.describe e)
      pure (o :: os)

/-- Enters a choice cell without its first `i` alternatives. -/
def enterFirst (e : Entry) (c i : Nat) (cur : Text) : Eval (List Outcome) := do
  let ps ← Eval.alternatives c
  match ← e.tryAlternatives i (ps.drop i) cur with
  | [] => do
    let now ← Eval.alternatives c
    if ps.length < now.length then e.first c ps.length cur else pure []
  | o :: os => pure (o :: os)

/-- The descriptions of parsers, in order. -/
def describeAll (e : Entry) : List Parser → Eval (List Text)
  | [] => pure []
  | p :: ps => do
    let t ← p.describe e
    let ts ← describeAll e ps
    pure (t :: ts)

def describeFirst (e : Entry) (c : Nat) : Eval Text := do
  let ps ← Eval.listed c
  let ts ← e.describeAll ps
  pure (text "<First:" ++ Text.join (text "|") ts ++ text ">")

/-- One entry more than `e`. -/
def deeper (e : Entry) : Entry where
  lazy := e.enterLazy
  first := e.enterFirst
  force := e.buildLazy
  describe := e.describeFirst

/-- No entry at all. -/
def exhausted : Entry where
  lazy _ _ := Eval.overrun
  first _ _ _ := Eval.overrun
  force _ := Eval.overrun
  describe _ := Eval.overrun

/-- As many nested entries as the depth says. -/
def ofDepth : Nat → Entry
  | 0 => exhausted
  | depth + 1 => (ofDepth depth).deeper

@[simp] theorem ofDepth_zero : ofDepth 0 = exhausted := rfl

theorem ofDepth_succ (depth : Nat) : ofDepth (depth + 1) = (ofDepth depth).deeper := rfl

end Entry

/-- The largest number of nested entries. -/
def depthLimit : Nat := 500

end Descent
