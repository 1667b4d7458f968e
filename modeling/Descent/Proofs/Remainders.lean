import Descent.Proofs.Keeping
import Descent.Proofs.Lockstep
import Descent.Proofs.Matching

/-!
# What remains is a suffix

The parsers of the library leave suffixes of their input, and so does all that is put together
from them and from other parsers that do. The parsers of a session refer to each other through
its store, which changes in every run, so this is about runs from stores of which all parsers
are put together in that way; sessions lead to no other stores.
-/

namespace Descent

open Eval

namespace Parser

/-- The parsers of the library that are made of no other ones. -/
inductive IsPrimitive : Parser → Prop
  | lift (v : Value) : IsPrimitive (lift v)
  | fail : IsPrimitive fail
  | raise (f : Fault) : IsPrimitive (raise f)
  | undefined : IsPrimitive undefined
  | oneChar : IsPrimitive oneChar
  | literal (t : Text) : IsPrimitive (literal t)
  | regex {pattern : Text} {key : Regex.GroupKey} {flags : PatternFlags} {p : Parser} :
      Parser.regex pattern key flags = .ok p → IsPrimitive p

/-- Put together from the parsers of the library and from those of the kind `T`. -/
def BuiltFrom (T : Parser → Prop) : Parser → Prop := ComposedOf fun p => p.IsPrimitive ∨ T p

/-! ## Primitives -/

theorem suffix_of_regexOutcomes {r : Regex} {key : Regex.GroupKey} {cur : Text}
    {os : List Outcome} (h : r.outcomes key cur = .ok os) : ∀ o ∈ os, o.rest <:+ cur := by
  rw [Regex.outcomes] at h
  split at h
  · cases h
    exact List.forall_mem_nil _
  · rename_i f hf
    split at h
    · cases h
      exact List.forall_mem_singleton.2 (Pattern.rest_suffix_of_search? hf)
    · cases h

/-- A primitive is a plain function and leaves suffixes. -/
theorem IsPrimitive.exists_plain {p : Parser} (h : p.IsPrimitive) :
    ∃ name run, p = .plain name run ∧
      ∀ cur os, run cur = .ok os → ∀ o ∈ os, o.rest <:+ cur := by
  cases h with
  | lift v =>
      refine ⟨_, _, rfl, ?_⟩
      rintro cur _ ⟨⟩
      exact List.forall_mem_singleton.2 (List.suffix_refl cur)
  | fail =>
      refine ⟨_, _, rfl, ?_⟩
      rintro cur _ ⟨⟩
      exact List.forall_mem_nil _
  | raise f =>
      refine ⟨_, _, rfl, ?_⟩
      rintro cur _ ⟨⟩
  | undefined =>
      refine ⟨_, _, rfl, ?_⟩
      rintro cur _ ⟨⟩
  | oneChar =>
      refine ⟨_, _, rfl, fun cur os h => ?_⟩
      cases cur with
      | nil =>
          cases h
          exact List.forall_mem_nil _
      | cons c rest =>
          cases h
          exact List.forall_mem_singleton.2 (List.suffix_cons c rest)
  | literal t =>
      refine ⟨_, _, rfl, fun cur os h => ?_⟩
      split at h
      · rename_i rest hrest
        cases h
        rw [Text.after?_eq_some_iff.1 hrest]
        exact List.forall_mem_singleton.2 (List.suffix_append t rest)
      · cases h
        exact List.forall_mem_nil _
  | @regex pattern key flags p h =>
      rw [Parser.regex] at h
      split at h
      · rename_i r _
        cases h
        exact ⟨_, _, rfl, fun cur os => suffix_of_regexOutcomes⟩
      · cases h
      · cases h

/-! ## Combinators -/

section

variable {T : Parser → Prop}

theorem IsPrimitive.builtFrom {p : Parser} (h : p.IsPrimitive) : p.BuiltFrom T := .given (.inl h)

theorem builtFrom_liftExcept (r : Except Fault Value) : (liftExcept r).BuiltFrom T := by
  cases r with
  | ok v => exact (IsPrimitive.lift v).builtFrom
  | error f => exact (IsPrimitive.raise f).builtFrom

theorem builtFrom_check (test : CharTest) : (check test).BuiltFrom T := by
  refine .chain IsPrimitive.oneChar.builtFrom fun v => ?_
  split
  · split
    · exact (IsPrimitive.lift _).builtFrom
    · exact IsPrimitive.fail.builtFrom
    · exact (IsPrimitive.raise _).builtFrom
  · exact IsPrimitive.fail.builtFrom

theorem builtFrom_many1 {p : Parser} (h : p.BuiltFrom T) : (many1 p).BuiltFrom T := by
  refine .chain (.many h) fun v => ?_
  split
  · exact IsPrimitive.fail.builtFrom
  · exact (IsPrimitive.lift _).builtFrom

theorem builtFrom_join {p : Parser} (h : p.BuiltFrom T) (separator : Text) :
    (join p separator).BuiltFrom T :=
  .map _ h

theorem builtFrom_joinAll {ps : List Parser} (h : ∀ p ∈ ps, p.BuiltFrom T) (separator : Text) :
    (joinAll ps separator).BuiltFrom T :=
  .pipe h fun vs => builtFrom_liftExcept (Value.joinItems separator vs)

theorem builtFrom_toNumber (v : Value) : (toNumber v).BuiltFrom T := by
  cases v with
  | str t =>
      rw [toNumber]
      split
      · exact (IsPrimitive.lift _).builtFrom
      · exact IsPrimitive.fail.builtFrom
  | _ => exact (IsPrimitive.raise _).builtFrom

theorem builtFrom_digits : digits.BuiltFrom T :=
  builtFrom_join (.many (builtFrom_check fun c => .ok c.isDigit)) []

end

end Parser

/-! ## Recipes -/

namespace Recipe

open Descent.Parser

variable {T : Parser → Prop}

theorem within_given {p : Parser} (h : p.BuiltFrom T) : (given p).Within (BuiltFrom T) := by
  rintro _ ⟨⟩
  exact h

theorem within_pipeTo {of : List Recipe} {handler : List Value → Parser}
    (h : AllWithin (BuiltFrom T) of) (hhandler : ∀ vs, (handler vs).BuiltFrom T) :
    (pipeTo of handler).Within (BuiltFrom T) :=
  ⟨h, trivial, fun _ _ => hhandler⟩

theorem within_joinAll {of : List Recipe} {separator : Text} (h : AllWithin (BuiltFrom T) of) :
    (joinAll of separator).Within (BuiltFrom T) :=
  within_pipeTo h fun _ => builtFrom_liftExcept _

theorem within_many1 {of : Recipe} (h : of.Within (BuiltFrom T)) :
    (many1 of).Within (BuiltFrom T) := by
  refine ⟨h, trivial, fun _ _ v => ?_⟩
  dsimp only
  split
  · exact IsPrimitive.fail.builtFrom
  · exact (IsPrimitive.lift _).builtFrom

end Recipe

namespace Json

open Descent.Parser Recipe

variable {T : Parser → Prop}

theorem within_word (w : String) : (word w).Within (BuiltFrom T) :=
  within_given (IsPrimitive.literal (text w)).builtFrom

theorem within_pattern (w : String) : (pattern w).Within (BuiltFrom T) :=
  fun _ h => (IsPrimitive.regex h).builtFrom

theorem within_optional {of : Recipe} (h : of.Within (BuiltFrom T)) :
    (optional of).Within (BuiltFrom T) :=
  ⟨h, within_given (IsPrimitive.lift _).builtFrom, trivial⟩

theorem within_items {item : Recipe} (h : item.Within (BuiltFrom T)) (strict : Bool) :
    (items strict item).Within (BuiltFrom T) := by
  cases strict with
  | true =>
      have hnext : (pipeTo [word ",", item] (itemOf 1)).Within (BuiltFrom T) :=
        within_pipeTo ⟨within_word ",", h, trivial⟩ fun _ => builtFrom_liftExcept _
      exact within_pipeTo ⟨h, hnext, trivial⟩ fun _ => builtFrom_liftExcept _
  | false =>
      exact within_many1 (within_pipeTo ⟨h, within_optional (within_word ","), trivial⟩
        fun _ => builtFrom_liftExcept _)

theorem within_numberRecipe : numberRecipe.Within (BuiltFrom T) := by
  have hdigits : (given digits).Within (BuiltFrom T) := within_given builtFrom_digits
  have hsatisfy (test : CodePoint → Bool) : (given (satisfy test)).Within (BuiltFrom T) :=
    within_given (builtFrom_check _)
  have hempty : (given (lift (.str []))).Within (BuiltFrom T) :=
    within_given (IsPrimitive.lift _).builtFrom
  have hwhole : (Recipe.first [given (char (text "0")),
      .joinAll [given (satisfy (·.between '1' '9')), given digits] []]).Within (BuiltFrom T) :=
    ⟨hsatisfy _, within_joinAll ⟨hsatisfy _, hdigits, trivial⟩, trivial⟩
  have hfraction : (Recipe.joinAll [word ".", given digits] []).Within (BuiltFrom T) :=
    within_joinAll ⟨within_word ".", hdigits, trivial⟩
  have hexponent : (Recipe.joinAll [.first [word "e", word "E"],
      .first [word "+", word "-", given (lift (.str []))], given digits] []).Within
        (BuiltFrom T) :=
    within_joinAll ⟨⟨within_word "e", within_word "E", trivial⟩,
      ⟨within_word "+", within_word "-", hempty, trivial⟩, hdigits, trivial⟩
  refine ⟨within_joinAll ⟨within_optional (within_word "-"), hwhole, within_optional hfraction,
    within_optional hexponent, trivial⟩, trivial, fun _ _ v => ?_⟩
  exact builtFrom_toNumber v

theorem within_stringRecipe (combine : Bool) : (stringRecipe combine).Within (BuiltFrom T) := by
  have hletters : Recipe.AllWithin (BuiltFrom T)
      (escapeValues.map fun e => given (.literal e.1)) := by
    exact Recipe.allWithin_iff.2 fun r hr => by
      obtain ⟨e, -, rfl⟩ := List.mem_map.1 hr
      exact within_given (IsPrimitive.literal e.1).builtFrom
  have hpieces : Recipe.AllWithin (BuiltFrom T) stringPieces :=
    ⟨within_pattern _, within_word _,
      within_pipeTo ⟨within_word _, hletters, trivial⟩ fun _ => builtFrom_liftExcept _,
      within_pipeTo ⟨within_word _, within_pattern _, trivial⟩ fun _ => builtFrom_liftExcept _,
      trivial⟩
  have hbody : (stringBody combine).Within (BuiltFrom T) := by
    cases combine with
    | true => exact within_many1 hpieces
    | false => exact within_many1 hpieces
  exact ⟨within_pipeTo ⟨within_word _, within_word _, trivial⟩ fun _ =>
      (IsPrimitive.lift _).builtFrom,
    within_pipeTo ⟨within_word _, hbody, within_word _, trivial⟩ fun _ => builtFrom_liftExcept _,
    trivial⟩

namespace Grammar

theorem parser_builtFrom (g : Grammar) (r : Rule) : (g.parser r).BuiltFrom T := by
  have hconstant (w : String) (v : Value) : (constant w v).BuiltFrom T :=
    .map _ (IsPrimitive.literal (text w)).builtFrom
  cases r with
  | true => exact hconstant _ _
  | false => exact hconstant _ _
  | null => exact hconstant _ _
  | _ => exact .lazy _

/-- The recipes of the rules put the library's parsers together. -/
theorem within_recipe (g : Grammar) (r : Rule) : (g.recipe r).Within (BuiltFrom T) := by
  have hrule (r : Rule) : (g.rule r).Within (BuiltFrom T) := within_given (g.parser_builtFrom r)
  have hbrackets {o c : String} {v : Value} {item : Recipe} {handler : List Value → Parser}
      (hitem : item.Within (BuiltFrom T)) (hhandler : ∀ vs, (handler vs).BuiltFrom T) :
      (Recipe.first [pipeTo [word o, g.rule .whitespace, word c] fun _ => lift v,
        pipeTo [word o, items g.options.strict item, word c] handler]).Within (BuiltFrom T) :=
    ⟨within_pipeTo ⟨within_word o, hrule _, within_word c, trivial⟩ fun _ =>
        (IsPrimitive.lift v).builtFrom,
      within_pipeTo ⟨within_word o, within_items hitem _, within_word c, trivial⟩ hhandler,
      trivial⟩
  have hpair : g.pairRecipe.Within (BuiltFrom T) :=
    within_pipeTo ⟨hrule _, hrule _, hrule _, within_word ":", hrule _, trivial⟩ fun _ =>
      builtFrom_liftExcept _
  cases r with
  | whitespace => exact within_pattern _
  | number => exact within_numberRecipe
  | string => exact within_stringRecipe _
  | array => exact hbrackets (hrule _) fun _ => builtFrom_liftExcept _
  | object => exact hbrackets hpair fun _ => builtFrom_liftExcept _
  | value =>
      exact within_pipeTo ⟨hrule _, ⟨hrule _, hrule _, hrule _, hrule _, hrule _, hrule _, hrule _,
        trivial⟩, hrule _, trivial⟩ fun _ => builtFrom_liftExcept _
  | true => exact hrule _
  | false => exact hrule _
  | null => exact hrule _

end Grammar

end Json

/-! ## Runs -/

namespace Kinds

variable {T : Parser → Prop}

/-- Parsers put together from the library's and from those of the kind, of which nothing is
known. -/
def plain (T : Parser → Prop) : Kinds where
  Made := Parser.BuiltFrom T
  Given := Parser.IsPlain
  Leaves _ _ := True
  made_of_composedOf h := h.join
  composedOf_of_made _ := Parser.composedOf_isPlain _
  made_recipe := Json.Grammar.within_recipe
  isRemaining := isRemaining_true

theorem isRemaining_suffix : IsRemaining fun t u : Text => u <:+ t :=
  ⟨List.suffix_refl, fun h h' => h'.trans h⟩

/-- The same parsers, of which it is known that they leave suffixes. -/
def trimming (T : Parser → Prop) : Kinds where
  Made := Parser.BuiltFrom T
  Given p := p.IsPrimitive ∨ T p
  Leaves t u := u <:+ t
  made_of_composedOf h := h.join
  composedOf_of_made h := h
  made_recipe := Json.Grammar.within_recipe
  isRemaining := isRemaining_suffix

theorem entries_plain (T : Parser → Prop) (depth : Nat) :
    (plain T).judgement.Entries (.ofDepth depth) (.ofDepth depth) :=
  entries (fun _ hp n cur =>
    (plain T).judgement.parse_plain hp (.ofDepth n) (.ofDepth n) cur fun _ _ _ => trivial) depth

end Kinds

namespace Parser

/-- The outcomes of the parser leave suffixes, at every depth and from every store whose parsers
are put together from the library's and from those of the kind. -/
def Trims (T : Parser → Prop) (p : Parser) : Prop :=
  ∀ depth cur s os u, s.content.Within (BuiltFrom T) →
    (p.parse (.ofDepth depth) cur).run s = .ok os u → ∀ o ∈ os, o.rest <:+ cur

theorem IsPrimitive.trims {T : Parser → Prop} {p : Parser} (h : p.IsPrimitive) : p.Trims T := by
  obtain ⟨name, run, rfl, htrims⟩ := h.exists_plain
  intro depth cur s os u _ hrun
  change (Eval.ofExcept (run cur)).run s = .ok os u at hrun
  cases hr : run cur with
  | ok os' =>
      rw [hr] at hrun
      cases hrun
      exact htrims cur _ hr
  | error f =>
      rw [hr] at hrun
      cases hrun

end Parser

namespace Kinds

variable {T : Parser → Prop}

/-- Given parsers that leave suffixes keep the kinds, since all parsers do. -/
theorem entries_trimming (hT : ∀ p, T p → p.Trims T) (depth : Nat) :
    (trimming T).judgement.Entries (.ofDepth depth) (.ofDepth depth) := by
  refine entries (fun p hp depth cur => ?_) depth
  have htrims : p.Trims T := hp.elim Parser.IsPrimitive.trims (hT p)
  have hkeeps := Judgement.parse (entries_plain T depth) p.composedOf_isPlain cur
  intro s r u hs hrun
  refine ⟨(hkeeps hs hrun).1, ?_⟩
  rintro os rfl
  exact htrims depth cur s os u hs hrun

end Kinds

/-- Sessions lead to stores whose parsers are put together from the same ones. -/
theorem Session.within_run {T : Parser → Prop} (depth : Nat) {steps : List Step}
    (h : Step.AllWithin (Parser.BuiltFrom T) steps) {s : Store}
    (hs : s.content.Within (Parser.BuiltFrom T)) :
    (run (.ofDepth depth) steps s).2.content.Within (Parser.BuiltFrom T) := by
  induction steps generalizing s with
  | nil => exact hs
  | cons step steps ih =>
      have hstep := Judgement.perform (Kinds.entries_plain T depth) h.1
      let start : Store := { s with pieces := [] }
      have hstart : start.content.Within (Parser.BuiltFrom T) := hs
      obtain ⟨r, u, hrun⟩ := exists_ended (step.perform (.ofDepth depth)) start
      rw [run_snd_cons, perform_of_run hrun]
      exact ih h.2 (hstep hstart hrun).1

namespace Parser

theorem observes_describe (p : Parser) (depth : Nat) : (p.describe (.ofDepth depth)).Observes :=
  Judgement.observes_describe (Lockstep.entries_byDepth (Nat.le_refl depth)) p

/-- A refusal ends in the fault that it is about, unless the description runs out of depth. -/
theorem error_of_refusal {α : Type} {p : Parser} {depth : Nat} {head : Text} {fault : Text → Fault}
    {s u : Store} {r : Except Fault α}
    (h : (do Eval.traceLine head (p.describe (.ofDepth depth))
             let d ← p.describe (.ofDepth depth)
             throw (fault d) : Eval α).run s = ended r u) :
    r = .error .depthExceeded ∨ ∃ d, r = .error (fault d) := by
  obtain ⟨f, v, hrun, hf⟩ := (p.observes_describe depth).exists_refusal head fault s
  have hsame : ended r u = ended (.error f) v := h.symm.trans hrun
  obtain ⟨rfl, -⟩ := ended_inj hsame
  rcases hf with rfl | ⟨d, rfl⟩
  · exact .inl rfl
  · exact .inr ⟨d, rfl⟩

/-- A leftover is what remains after the first outcome, if it is not a fault of the run of the
parser itself. -/
theorem exists_outcome_of_leftover {p : Parser} {depth : Nat} {cur : Text} {whole : Bool}
    {s u : Store} {v : Value} {rest : Text}
    (h : (p.tryParse (.ofDepth depth) cur whole).run s = .error (.leftover v rest) u) :
    (∃ os t, (p.parse (.ofDepth depth) cur).run s = .ok (⟨v, rest⟩ :: os) t) ∨
      (p.parse (.ofDepth depth) cur).run s = .error (.leftover v rest) u := by
  rw [tryParse] at h
  cases hparse : (p.parse (.ofDepth depth) cur).run s with
  | error f t =>
      rw [EStateM.run_bind, run_tryCatch_error hparse] at h
      cases f with
      | depthExceeded =>
          obtain ⟨r, w, hrefusal⟩ := exists_ended (do
            Eval.traceLine (text "tryparse: recursion limit on") (p.describe (.ofDepth depth))
            let d ← p.describe (.ofDepth depth)
            throw (.nestedTooDeep d) : Eval (List Outcome)) t
          rw [hrefusal] at h
          rcases error_of_refusal hrefusal with rfl | ⟨d, rfl⟩
          · cases h
          · cases h
      | leftover v rest =>
          cases h
          exact .inr rfl
      | _ => cases h
  | ok os t =>
      rw [run_bind_ok (run_tryCatch_ok hparse)] at h
      cases os with
      | nil => rcases error_of_refusal (r := .error _) h with hr | ⟨d, hr⟩ <;> cases hr
      | cons o os =>
          dsimp only at h
          split at h
          · have hquoted := (observes_pure o.rest.quoted).run_traceLine
              (text "tryparse: remainder") t
            rcases hquoted with ⟨-, hline⟩ | ⟨-, pieces, hline | hline⟩
            · cases (run_bind_ok hline).symm.trans h
              exact .inl ⟨os, _, rfl⟩
            · cases (run_bind_ok hline).symm.trans h
              exact .inl ⟨os, _, rfl⟩
            · cases (run_bind_error hline).symm.trans h
          · cases h

/-- What parsers leave of their input is a suffix of it, if this is so for the parsers of the kind
`T` and all others are put together from these and from the library's, also by the library's own
combinators. Sessions whose parsers are all of this sort lead to stores of this sort. A leftover
that the refusal of a parser carries is what its first outcome leaves. -/
theorem remainders_are_suffixes (T : Parser → Prop) (hT : ∀ p, T p → p.Trims T) (depth : Nat)
    (steps : List Step) (hsteps : Step.AllWithin (BuiltFrom T) steps) :
    let s := (Session.run (.ofDepth depth) steps {}).2
    (∀ p : Parser, p.BuiltFrom T → (many1 p).BuiltFrom T ∧ ∀ t, (join p t).BuiltFrom T) ∧
    (∀ ps, (∀ p ∈ ps, p.BuiltFrom T) → ∀ t, (joinAll ps t).BuiltFrom T) ∧
    (∀ test, (check test).BuiltFrom T) ∧
    ∀ p : Parser, p.BuiltFrom T → ∀ n cur,
      (∀ mode os u, (p.runMode (.ofDepth n) cur mode).run s = .ok (.outcomes os) u →
        ∀ o ∈ os, o.rest <:+ cur) ∧
      ∀ whole v rest u, (p.tryParse (.ofDepth n) cur whole).run s = .error (.leftover v rest) u →
        rest <:+ cur ∨ (p.parse (.ofDepth n) cur).run s = .error (.leftover v rest) u := by
  intro s
  have hs : s.content.Within (BuiltFrom T) := by
    refine Session.within_run depth hsteps ⟨?_, ?_, ?_⟩
    · rintro c cell ⟨⟩
    · rintro c ps ⟨⟩
    · rintro name p ⟨⟩
  refine ⟨fun p hp => ⟨builtFrom_many1 hp, builtFrom_join hp⟩, fun ps hps => builtFrom_joinAll hps,
    builtFrom_check, fun p hp n cur => ?_⟩
  have hentries := Kinds.entries_trimming hT n
  refine ⟨fun mode os u hrun => ?_, fun whole v rest u hrun => ?_⟩
  · have hmode := Judgement.runMode hentries hp cur mode
    exact (hmode (r := .ok (.outcomes os)) hs hrun).2 _ rfl os rfl
  · rcases exists_outcome_of_leftover hrun with ⟨os, t, hparse⟩ | hparse
    · have hfits := (Judgement.parse hentries hp cur) (r := .ok (⟨v, rest⟩ :: os)) hs hparse
      exact .inl (hfits.2 _ rfl _ List.mem_cons_self)
    · exact .inr hparse

theorem trims_outcomes (T : Parser → Prop) (name : Text) (results : List (Value × Nat)) :
    (outcomes name results).Trims T := by
  intro depth cur s os u _ hrun o ho
  cases hrun
  obtain ⟨⟨v, k⟩, -, hk⟩ := List.mem_filterMap.1 ho
  dsimp only at hk
  split at hk
  · cases hk
    exact List.drop_suffix k cur
  · cases hk

/-- Nested brackets around one or two code points, as a lazy parser that refers to itself. -/
theorem remainders_are_suffixes_nest :
    let two := outcomes (text "two") [(.str (text "x"), 1), (.str (text "y"), 2)]
    let nest : Recipe := .lazy (text "nest") none 0 [] (.first [
      .pipeTo [.given (literal (text "(")), .named "nest", .given (literal (text ")"))] (itemOf 1),
      .given two])
    let s := (Session.run (.ofDepth 5) [.define "nest" nest] {}).2
    (∃ u, ((Parser.lazy 0).tryParse (.ofDepth 8) (text "((ab))c") true).run s =
        .error (.leftover (.str (text "y")) (text "c")) u) ∧
      ∀ v rest u, ((Parser.lazy 0).tryParse (.ofDepth 8) (text "((ab))c") true).run s =
          .error (.leftover v rest) u →
        rest <:+ text "((ab))c" ∨
          ((Parser.lazy 0).parse (.ofDepth 8) (text "((ab))c")).run s =
            .error (.leftover v rest) u := by
  intro two nest s
  let T (p : Parser) : Prop := p = two
  have hT : ∀ p, T p → p.Trims T := by
    rintro _ rfl
    exact trims_outcomes T _ _
  have hword (w : String) : (Recipe.given (literal (text w))).Within (BuiltFrom T) :=
    Recipe.within_given (IsPrimitive.literal (text w)).builtFrom
  have hnest : nest.Within (BuiltFrom T) :=
    ⟨trivial, Recipe.within_pipeTo ⟨hword "(", trivial, hword ")", trivial⟩
      fun vs => builtFrom_liftExcept _, Recipe.within_given (.given (.inr rfl)), trivial⟩
  have hruns := remainders_are_suffixes T hT 5 [.define "nest" nest] ⟨hnest, trivial⟩
  exact ⟨⟨_, rfl⟩, (hruns.2.2.2 (.lazy 0) (.lazy 0) 8 (text "((ab))c")).2 true⟩

end Parser

end Descent
