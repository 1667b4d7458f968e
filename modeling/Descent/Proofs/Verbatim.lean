import Descent.Proofs.Chaining
import Descent.Proofs.Json.Use
import Descent.Proofs.Json.Numbers
import Descent.Proofs.Remainders

/-!
# Parsers that copy what they take

The value of a token is the text that was taken for it: the value and what remains are the
input again. So it is for single code points and literals, and so it stays in ordered choices,
in sequences whose texts are joined and in repetitions whose texts are joined. The notion that
goes through a sequence is that the texts so far, one after the other, and what remains are
the input; through a repetition it is the same with the texts of the rounds.

Choices are cells, so the parsers are those of a store. Nothing of this kind changes a choice,
and what a run does besides is to write the trace and to count overruns.
-/

namespace Descent

open Eval

/-! ## Runs that keep the choices -/

namespace Eval

variable {α β : Type} {choices : Array (List Parser)} {m : Eval α} {P Q : α → Prop}

/-- Run from a store with these choices the computation keeps them, and a value is as `Q`
says. -/
def Ensures (choices : Array (List Parser)) (m : Eval α) (Q : α → Prop) : Prop :=
  ∀ ⦃s r u⦄, s.choices = choices → m.run s = ended r u →
    u.choices = choices ∧ ∀ a, r = .ok a → Q a

theorem ensures_ofExcept {r : Except Fault α} (h : ∀ a, r = .ok a → Q a) :
    Ensures choices (ofExcept r) Q := by
  intro s r' u hs hrun
  have hended : (ofExcept r).run s = ended r s := by cases r <;> rfl
  obtain ⟨rfl, rfl⟩ := ended_inj (hended.symm.trans hrun)
  exact ⟨hs, h⟩

theorem ensures_pure {a : α} (h : Q a) : Ensures choices (pure a) Q :=
  ensures_ofExcept (r := .ok a) fun _ hb => Except.ok.inj hb ▸ h

theorem ensures_overrun : Ensures choices (overrun : Eval α) Q := by
  intro s r u hs hrun
  obtain ⟨rfl, rfl⟩ := ended_inj (r := .error .depthExceeded) hrun
  exact ⟨hs, nofun⟩

theorem ensures_alternatives (c : Nat) :
    Ensures choices (alternatives c) fun ps => choices[c]? = some ps := by
  intro s r u hs hrun
  rw [alternatives, run_bind_ok (EStateM.run_get s), hs] at hrun
  cases hc : choices[c]? with
  | none =>
      rw [hc] at hrun
      obtain ⟨rfl, rfl⟩ := ended_inj (r := .error .noCell) hrun
      refine ⟨hs, ?_⟩
      rintro _ ⟨⟩
  | some ps =>
      rw [hc] at hrun
      obtain ⟨rfl, rfl⟩ := ended_inj (r := .ok ps) hrun
      refine ⟨hs, ?_⟩
      rintro _ ⟨⟩
      rfl

theorem ensures_traceLine (head : Text) {last : Eval Text} (h : last.Observes) :
    Ensures choices (traceLine head last) fun _ => True := by
  intro s r u hs hrun
  rcases h.run_traceLine head s with ⟨-, hline⟩ | ⟨-, pieces, hline | hline⟩ <;>
  · obtain ⟨-, rfl⟩ := ended_inj (hline.symm.trans hrun)
    exact ⟨hs, fun _ _ => trivial⟩

theorem Ensures.weaken (h : Ensures choices m P) (hPQ : ∀ a, P a → Q a) : Ensures choices m Q :=
  fun _ _ _ hs hrun => (h hs hrun).imp_right fun hvalue a ha => hPQ a (hvalue a ha)

theorem Ensures.bind {f : α → Eval β} {R : β → Prop} (h : Ensures choices m Q)
    (hf : ∀ a, Q a → Ensures choices (f a) R) : Ensures choices (m >>= f) R := by
  intro s r v hs hrun
  obtain ⟨r', u, hm⟩ := exists_ended m s
  obtain ⟨hu, hvalue⟩ := h hs hm
  cases r' with
  | error fault =>
      obtain ⟨rfl, rfl⟩ := ended_inj (r := .error fault) ((run_bind_error hm).symm.trans hrun)
      exact ⟨hu, nofun⟩
  | ok a => exact hf a (hvalue a rfl) hu ((run_bind_ok hm).symm.trans hrun)

theorem ensures_collect {f : α → Eval (List β)} {R : β → Prop} : ∀ {as : List α},
    (∀ a ∈ as, Ensures choices (f a) fun bs => ∀ b ∈ bs, R b) →
    Ensures choices (collect f as) fun bs => ∀ b ∈ bs, R b
  | [], _ => ensures_pure (List.forall_mem_nil R)
  | a :: _, h =>
    (h a List.mem_cons_self).bind fun _ hbs =>
      (ensures_collect fun b hb => h b (List.mem_cons_of_mem a hb)).bind fun _ hcs =>
        ensures_pure (List.forall_mem_append.2 ⟨hbs, hcs⟩)

end Eval

namespace Outcome

/-- The value of the outcome is the text that was taken from the input. -/
def Spells (cur : Text) (o : Outcome) : Prop := ∃ t, o.value = .str t ∧ t ++ o.rest = cur

/-- The value of the outcome is a list of texts, which are together what was taken. -/
def SpellsAll (cur : Text) (o : Outcome) : Prop :=
  ∃ ts : List Text, o.value = .list (ts.map .str) ∧ ts.flatten ++ o.rest = cur

end Outcome

namespace Parser

variable {choices : Array (List Parser)} {e : Entry} {p : Parser}

/-- Put together from parsers that copy what they take, by the ways that keep this. The choices
are those of a store. -/
inductive IsVerbatim (choices : Array (List Parser)) : Parser → Prop
  | oneChar : IsVerbatim choices oneChar
  | check (test : CharTest) : IsVerbatim choices (check test)
  | literal (t : Text) : IsVerbatim choices (literal t)
  | empty : IsVerbatim choices (lift (.str []))
  | first {c : Nat} {ps : List Parser} :
      choices[c]? = some ps → (∀ p ∈ ps, IsVerbatim choices p) → IsVerbatim choices (.first c)
  | joinAll {ps : List Parser} :
      (∀ p ∈ ps, IsVerbatim choices p) → IsVerbatim choices (joinAll ps [])
  | joinMany {p : Parser} : IsVerbatim choices p → IsVerbatim choices (join (.many p) [])
  | joinMany1 {p : Parser} : IsVerbatim choices p → IsVerbatim choices (join (many1 p) [])

theorem IsVerbatim.char (t : Text) : (char t).IsVerbatim choices := .check _

theorem IsVerbatim.satisfy (test : CodePoint → Bool) : (satisfy test).IsVerbatim choices :=
  .check _

theorem IsVerbatim.digits : digits.IsVerbatim choices := .joinMany (.satisfy _)

/-- On every input the outcomes of the parser copy what it takes. -/
def Copies (choices : Array (List Parser)) (e : Entry) (p : Parser) : Prop :=
  ∀ cur, Ensures choices (p.parse e cur) fun os => ∀ o ∈ os, o.Spells cur

/-! ## Single parsers -/

theorem copies_lift_nil : (lift (.str [])).Copies choices e :=
  fun _ => ensures_pure (List.forall_mem_singleton.2 ⟨[], rfl, rfl⟩)

theorem copies_oneChar : oneChar.Copies choices e
  | [] => ensures_pure (List.forall_mem_nil _)
  | c :: _ => ensures_pure (List.forall_mem_singleton.2 ⟨[c], rfl, rfl⟩)

theorem copies_literal (t : Text) : (literal t).Copies choices e := by
  refine fun cur => ensures_ofExcept fun os hos => ?_
  dsimp only at hos
  split at hos
  · rename_i rest hrest
    cases hos
    exact List.forall_mem_singleton.2 ⟨t, rfl, (Text.after?_eq_some_iff.1 hrest).symm⟩
  · cases hos
    exact List.forall_mem_nil _

/-- What follows each outcome may be judged by that outcome. -/
theorem ensures_chain {f : Value → Parser} {cur : Text} {Q R : Outcome → Prop}
    (h : Ensures choices (p.parse e cur) fun os => ∀ o ∈ os, Q o)
    (hf : ∀ o, Q o → Ensures choices ((f o.value).parse e o.rest) fun os => ∀ o ∈ os, R o) :
    Ensures choices ((chain p f).parse e cur) fun os => ∀ o ∈ os, R o :=
  h.bind fun _ hos => ensures_collect fun o ho => hf o (hos o ho)

theorem copies_check (test : CharTest) : (check test).Copies choices e := by
  intro cur
  refine ensures_chain (copies_oneChar cur) fun o ho => ?_
  obtain ⟨t, hvalue, hcur⟩ := ho
  rw [hvalue]
  split
  · rename_i c heq
    cases heq
    split
    · exact ensures_pure (List.forall_mem_singleton.2 ⟨[c], rfl, hcur⟩)
    · exact ensures_pure (List.forall_mem_nil _)
    · exact ensures_ofExcept (r := .error _) nofun
  · exact ensures_pure (List.forall_mem_nil _)

/-! ## Repetitions -/

/-- The texts of the rounds so far, and what remains, are the input. -/
theorem ensures_repeatedly {step : Text → Eval (List Outcome)}
    (h : ∀ cur, Ensures choices (step cur) fun os => ∀ o ∈ os, o.Spells cur) {start : Text}
    (cur : Text) (ts : List Text) (hcur : ts.flatten ++ cur = start) {values : List Value}
    (hvalues : values.reverse = ts.map .str) :
    Ensures choices (repeatedly step cur values) fun os => ∀ o ∈ os, o.SpellsAll start := by
  induction hn : cur.length using Nat.strongRecOn generalizing cur ts values with
  | ind n ih =>
      rw [repeatedly]
      refine (h cur).bind fun os hos => ?_
      cases os with
      | nil => exact ensures_pure (List.forall_mem_singleton.2 ⟨ts, by rw [hvalues], hcur⟩)
      | cons o os =>
          obtain ⟨t, hvalue, ht⟩ := hos o List.mem_cons_self
          have hstart : (ts ++ [t]).flatten ++ o.rest = start := by
            rw [List.flatten_concat, List.append_assoc, ht, hcur]
          have hreverse : (o.value :: values).reverse = (ts ++ [t]).map .str := by
            rw [List.reverse_cons, hvalues, hvalue, List.map_append, List.map_singleton]
          by_cases hlt : o.rest.length < cur.length
          · simp only [hlt, ↓reduceDIte]
            exact ih o.rest.length (hn ▸ hlt) o.rest (ts ++ [t]) hstart hreverse rfl
          · simp only [hlt, ↓reduceDIte]
            exact ensures_pure (List.forall_mem_singleton.2 ⟨_, by rw [hreverse], hstart⟩)

theorem ensures_many (h : p.Copies choices e) (cur : Text) :
    Ensures choices ((many p).parse e cur) fun os => ∀ o ∈ os, o.SpellsAll cur :=
  ensures_repeatedly h cur [] rfl rfl

theorem ensures_many1 (h : p.Copies choices e) (cur : Text) :
    Ensures choices ((many1 p).parse e cur) fun os => ∀ o ∈ os, o.SpellsAll cur := by
  refine ensures_chain (ensures_many h cur) fun o ho => ?_
  split
  · exact ensures_pure (List.forall_mem_nil _)
  · exact ensures_pure (List.forall_mem_singleton.2 ho)

/-- Texts that are together what was taken are joined into it. -/
theorem copies_join (h : ∀ cur, Ensures choices (p.parse e cur) fun os => ∀ o ∈ os,
    o.SpellsAll cur) : (join p []).Copies choices e := by
  intro cur
  rw [join, parse_map_eq_chain]
  refine ensures_chain (h cur) fun o ho => ?_
  obtain ⟨ts, hvalue, hcur⟩ := ho
  have hjoin : Value.join [] o.value = .ok (.str ts.flatten) := by
    rw [hvalue]
    exact Value.joinItems_map_str ts
  rw [hjoin]
  exact ensures_pure (List.forall_mem_singleton.2 ⟨ts.flatten, rfl, hcur⟩)

/-! ## Sequences -/

/-- The values so far are texts, which are together what was taken. -/
def SpellsSoFar (cur : Text) (state : List Value × Text) : Prop :=
  Outcome.SpellsAll cur ⟨.list state.1, state.2⟩

theorem ensures_parseAll {ps : List Parser} (h : ∀ p ∈ ps, p.Copies choices e) {cur : Text}
    {states : List (List Value × Text)} (hstates : ∀ state ∈ states, SpellsSoFar cur state) :
    Ensures choices (parseAll e ps states) fun states =>
      ∀ state ∈ states, SpellsSoFar cur state := by
  induction ps generalizing states with
  | nil => exact ensures_pure hstates
  | cons p ps ih =>
      rw [parseAll]
      refine (ensures_collect fun state hstate => ?_).bind fun next hnext =>
        ih (fun q hq => h q (List.mem_cons_of_mem p hq)) hnext
      obtain ⟨ts, hts, hcur⟩ := hstates state hstate
      refine (h p List.mem_cons_self state.2).bind fun os hos => ensures_pure fun after hafter => ?_
      obtain ⟨o, ho, rfl⟩ := List.mem_map.1 hafter
      obtain ⟨t, hvalue, ht⟩ := hos o ho
      refine ⟨ts ++ [t], ?_, ?_⟩
      · rw [Value.list.inj hts, hvalue, List.map_append, List.map_singleton]
      · rw [List.flatten_concat, List.append_assoc, ht, hcur]

theorem copies_joinAll {ps : List Parser} (h : ∀ p ∈ ps, p.Copies choices e) :
    (joinAll ps []).Copies choices e := by
  intro cur
  have hstart : ∀ state ∈ [(([] : List Value), cur)], SpellsSoFar cur state :=
    List.forall_mem_singleton.2 ⟨[], rfl, rfl⟩
  refine (ensures_parseAll h hstart).bind fun states hstates =>
    ensures_collect fun state hstate => ?_
  obtain ⟨ts, hts, hcur⟩ := hstates state hstate
  have hjoin : liftExcept (Value.joinItems [] state.1) = lift (.str ts.flatten) := by
    rw [Value.list.inj hts, Value.joinItems_map_str]
    rfl
  change Ensures choices ((liftExcept (Value.joinItems [] state.1)).parse e state.2) _
  rw [hjoin]
  exact ensures_pure (List.forall_mem_singleton.2 ⟨ts.flatten, rfl, hcur⟩)

/-! ## Choices -/

theorem ensures_tryAlternatives {n : Nat} {ps : List Parser}
    (h : ∀ p ∈ ps, p.Copies choices (.ofDepth n)) (i : Nat) (cur : Text) :
    Ensures choices ((Entry.ofDepth n).tryAlternatives i ps cur) fun os =>
      ∀ o ∈ os, o.Spells cur := by
  induction ps generalizing i with
  | nil => exact ensures_pure (List.forall_mem_nil _)
  | cons p ps ih =>
      refine (h p List.mem_cons_self cur).bind fun os hos => ?_
      cases os with
      | nil => exact ih (fun q hq => h q (List.mem_cons_of_mem p hq)) (i + 1)
      | cons o os =>
          exact (ensures_traceLine _ (p.observes_describe n)).bind fun _ _ => ensures_pure hos

/-- No alternative adds one to the choice, so none is left when all of them have failed. -/
theorem copies_first {n c : Nat} {ps : List Parser} (hc : choices[c]? = some ps)
    (h : ∀ p ∈ ps, p.Copies choices (.ofDepth n)) :
    (first c).Copies choices (.ofDepth (n + 1)) := by
  intro cur
  refine (ensures_alternatives c).bind fun qs hqs => ?_
  cases hqs.symm.trans hc
  refine (ensures_tryAlternatives h 0 cur).bind fun os hos => ?_
  cases os with
  | nil =>
      refine (ensures_alternatives c).bind fun now hnow => ?_
      cases hnow.symm.trans hc
      rw [if_neg (Nat.lt_irrefl _)]
      exact ensures_pure hos
  | cons o os => exact ensures_pure hos

/-- Parsers that are put together in this way copy what they take, at every depth. -/
theorem IsVerbatim.copies (h : p.IsVerbatim choices) (depth : Nat) :
    p.Copies choices (.ofDepth depth) := by
  induction h generalizing depth with
  | oneChar => exact copies_oneChar
  | check test => exact copies_check test
  | literal t => exact copies_literal t
  | empty => exact copies_lift_nil
  | first hc _ ih =>
      cases depth with
      | zero => exact fun _ => ensures_overrun
      | succ n => exact copies_first hc fun p hp => ih p hp n
  | joinAll _ ih => exact copies_joinAll fun p hp => ih p hp depth
  | joinMany _ ih => exact copies_join (ensures_many (ih depth))
  | joinMany1 _ ih => exact copies_join (ensures_many1 (ih depth))

end Parser

/-! ## Numbers -/

namespace Recipe

open Descent.Parser

/-- The recipe makes parsers that copy what they take. -/
def MakesVerbatim (r : Recipe) : Prop := ∀ s p, r.IsMade s p → p.IsVerbatim s.choices

theorem makesVerbatim_given {p : Parser} (h : ∀ choices, p.IsVerbatim choices) :
    (given p).MakesVerbatim := by
  rintro s _ ⟨⟩
  exact h s.choices

theorem isVerbatim_of_allMade {s : Store} : ∀ {rs : List Recipe} {ps : List Parser},
    (∀ r ∈ rs, r.MakesVerbatim) → AllMade s rs ps → ∀ p ∈ ps, p.IsVerbatim s.choices
  | [], _, _, rfl => List.forall_mem_nil _
  | r :: _, _, h, ⟨_, _, hq, hqs, rfl⟩ =>
    List.forall_mem_cons.2 ⟨h r List.mem_cons_self s _ hq,
      isVerbatim_of_allMade (fun r' hr' => h r' (List.mem_cons_of_mem r hr')) hqs⟩

theorem makesVerbatim_first {rs : List Recipe} (h : ∀ r ∈ rs, r.MakesVerbatim) :
    (first rs).MakesVerbatim := by
  rintro s _ ⟨c, ps, hps, hc, rfl⟩
  exact .first hc (isVerbatim_of_allMade h hps)

theorem makesVerbatim_joinAll {rs : List Recipe} (h : ∀ r ∈ rs, r.MakesVerbatim) :
    (joinAll rs []).MakesVerbatim := by
  rintro s _ ⟨ps, _, hps, -, rfl⟩
  exact .joinAll (isVerbatim_of_allMade h hps)

end Recipe

namespace Json

open Descent.Parser Recipe

theorem makesVerbatim_word (w : String) : (word w).MakesVerbatim :=
  makesVerbatim_given fun _ => .literal (text w)

theorem makesVerbatim_optional {r : Recipe} (h : r.MakesVerbatim) :
    (optional r).MakesVerbatim :=
  makesVerbatim_first <| List.forall_mem_cons.2
    ⟨h, List.forall_mem_singleton.2 (makesVerbatim_given fun _ => .empty)⟩

/-- The text of a number is put together from code points and literals, and only then it is
converted. -/
theorem exists_verbatim_of_isMade {s : Store} {p : Parser} (h : numberRecipe.IsMade s p) :
    ∃ q : Parser, q.IsVerbatim s.choices ∧ p = .chain q toNumber := by
  have hempty : (given (lift (.str []))).MakesVerbatim := makesVerbatim_given fun _ => .empty
  have hdigits : (given digits).MakesVerbatim := makesVerbatim_given fun _ => .digits
  have hzero : (given (char (text "0"))).MakesVerbatim := makesVerbatim_given fun _ => .char _
  have hnonzero : (given (satisfy (·.between '1' '9'))).MakesVerbatim :=
    makesVerbatim_given fun _ => .satisfy _
  have hwhole : (Recipe.first [given (char (text "0")),
      .joinAll [given (satisfy (·.between '1' '9')), given digits] []]).MakesVerbatim :=
    makesVerbatim_first (by simp [hzero, makesVerbatim_joinAll, hnonzero, hdigits])
  have hfraction : (Recipe.joinAll [word ".", given digits] []).MakesVerbatim :=
    makesVerbatim_joinAll (by simp [makesVerbatim_word, hdigits])
  have hmark : (Recipe.first [word "e", word "E"]).MakesVerbatim :=
    makesVerbatim_first (by simp [makesVerbatim_word])
  have hsign : (Recipe.first [word "+", word "-", given (lift (.str []))]).MakesVerbatim :=
    makesVerbatim_first (by simp [makesVerbatim_word, hempty])
  have hexponent : (Recipe.joinAll [.first [word "e", word "E"],
      .first [word "+", word "-", given (lift (.str []))], given digits] []).MakesVerbatim :=
    makesVerbatim_joinAll (by simp [hmark, hsign, hdigits])
  obtain ⟨q, ps, hq, -, rfl⟩ := h
  refine ⟨q, makesVerbatim_joinAll ?_ s q hq, rfl⟩
  simp [makesVerbatim_optional, makesVerbatim_word, hwhole, hfraction, hexponent]

namespace Grammar

variable {g : Grammar} {s : Store}

/-- Whenever the number rule is built, it is a parser that copies what it takes, and then the
conversion. -/
theorem InUse.exists_verbatim (h : g.InUse s) {c : Nat} {cell : LazyCell} {p entry : Parser}
    (hc : g.parser .number = .lazy c) (hcell : s.lazies[c]? = some cell)
    (hphase : cell.phase = .built p entry) :
    ∃ q : Parser, q.IsVerbatim s.choices ∧ p = .chain q toNumber := by
  obtain ⟨cell', hcell', hidle | ⟨p', hp', hbuilt⟩⟩ := h.stands .number c hc
  · cases hcell.symm.trans hcell'
    rw [hidle] at hphase
    cases hphase
  · cases hcell.symm.trans hcell'
    rw [hbuilt] at hphase
    cases hphase
    exact exists_verbatim_of_isMade hp'

/-- An outcome of the number rule is the conversion of the text that was taken. -/
theorem InUse.exists_converted (h : g.InUse s) {depth : Nat} {cur : Text} {os : List Outcome}
    {u : Store} (hrun : ((g.parser .number).parse (.ofDepth depth) cur).run s = .ok os u)
    {o : Outcome} (ho : o ∈ os) :
    ∃ t, t ++ o.rest = cur ∧ ∀ e, (toNumber (.str t)).parse e o.rest = pure [o] := by
  obtain ⟨v, -, hreading⟩ := h.exists_run_parse depth .number cur
  obtain ⟨hos, -⟩ := ended_inj (r := .ok os) (hrun.symm.trans hreading)
  cases depth with
  | zero => cases hos
  | succ n =>
      change .ok os = (numberReading n cur).outcomes at hos
      cases hread : numberReading n cur with
      | overrun =>
          rw [hread] at hos
          cases hos
      | fails =>
          rw [hread] at hos
          cases hos
          cases ho
      | reads w rest =>
          rw [hread] at hos
          cases hos
          cases List.mem_singleton.1 ho
          obtain ⟨l, hl, -, rfl, hcur⟩ := exists_literal_of_numberReading hread
          refine ⟨l.render, hcur.symm, fun e => ?_⟩
          rw [toNumber, NumberLiteral.read?_eq_some_iff.2 ⟨hl, rfl⟩]
          rfl

end Grammar

end Json

/-- Token parsers lose nothing: whatever is put together from single code points, literals and
the empty text by choices, joined sequences and joined repetitions, each of its outcomes has
for its value the text that stands in front of what remains. So it is with the text of a
number before this is converted: the rule of a grammar in use is such a parser and then the
conversion, and each of its outcomes is the conversion of the text that was taken. -/
theorem Parser.verbatim_spells (s : Store) (depth : Nat) (cur : Text) :
    (∀ p : Parser, p.IsVerbatim s.choices → ∀ os u,
      (p.parse (.ofDepth depth) cur).run s = .ok os u → ∀ o ∈ os, o.Spells cur) ∧
    ∀ g : Json.Grammar, g.InUse s →
      (∀ c cell p entry, g.parser .number = .lazy c → s.lazies[c]? = some cell →
        cell.phase = .built p entry →
          ∃ q : Parser, q.IsVerbatim s.choices ∧ p = .chain q toNumber) ∧
      ∀ os u, ((g.parser .number).parse (.ofDepth depth) cur).run s = .ok os u → ∀ o ∈ os,
        ∃ t, t ++ o.rest = cur ∧ ∀ e, (toNumber (.str t)).parse e o.rest = pure [o] := by
  refine ⟨fun p hp os u hrun => ?_, fun g hg => ⟨fun c cell p entry hc hcell hphase => ?_,
    fun os u hrun o ho => hg.exists_converted hrun ho⟩⟩
  · have hended : (p.parse (.ofDepth depth) cur).run s = ended (.ok os) u := hrun
    exact (hp.copies depth cur rfl hended).2 os rfl
  · exact hg.exists_verbatim hc hcell hphase

/-- A signed row of digits with its mark, and a negative zero before a letter. -/
theorem Parser.verbatim_spells_signed :
    let p : Parser := joinAll [.first 0, digits, literal (text "!")] []
    let g : Json.Grammar := ⟨{}, 0⟩
    let s : Store := ((Json.Grammar.create {}).leaves {}).addChoices
      #[[.literal (text "-"), .lift (.str [])]]
    let o : Outcome := ⟨.str (text "-12!"), text "?"⟩
    (p.IsVerbatim s.choices ∧ ∃ u, (p.parse (.ofDepth 1) (text "-12!?")).run s = .ok [o] u) ∧
      o.Spells (text "-12!?") ∧
      g.InUse s ∧ ∃ o u, ((g.parser .number).parse (.ofDepth 3) (text "-0x")).run s = .ok [o] u ∧
        ∃ t, t ++ o.rest = text "-0x" ∧ ∀ e, (toNumber (.str t)).parse e o.rest = pure [o] := by
  intro p g s o
  have hp : p.IsVerbatim s.choices := by
    refine .joinAll (List.forall_mem_cons.2 ⟨.first rfl ?_, List.forall_mem_cons.2
      ⟨.digits, List.forall_mem_singleton.2 (.literal _)⟩⟩)
    exact List.forall_mem_cons.2 ⟨.literal _, List.forall_mem_singleton.2 .empty⟩
  have huse : g.InUse s :=
    (Json.Grammar.InUse.created (s := {}) rfl).elsewhere
      ⟨fun _ _ _ => rfl, fun _ _ _ _ _ hmade => hmade.extend (Store.extends_addChoices _ _)⟩
  have hreads : (Recipe.joinAll [Json.optional (Json.word "-"), .given digits, Json.word "!"]
      []).Reads (fun _ => True) 1 _ :=
    Json.reads_concat (.cons (Json.reads_minus fun _ _ _ => id)
      (.cons Json.reads_digits (.cons (Recipe.reads_literal (text "!")) .nil)))
  have hoptional : (Json.optional (Json.word "-")).IsMade s (.first 0) :=
    ⟨0, _, ⟨_, _, rfl, ⟨_, _, rfl, rfl, rfl⟩, rfl⟩, rfl, rfl⟩
  obtain ⟨u, -, -, hu⟩ := hreads s p
    ⟨_, [], ⟨_, _, hoptional, ⟨_, _, rfl, ⟨_, _, rfl, rfl, rfl⟩, rfl⟩, rfl⟩, rfl, rfl⟩
    (text "-12!?") s (.refl s) trivial
  obtain ⟨v, -, hv⟩ := huse.exists_run_parse 3 .number (text "-0x")
  refine ⟨⟨hp, u, hu⟩, (verbatim_spells s 1 _).1 p hp _ u hu o List.mem_cons_self, huse, _, v, hv,
    ?_⟩
  exact ((verbatim_spells s 3 _).2 g huse).2 _ v hv _ List.mem_cons_self

end Descent
