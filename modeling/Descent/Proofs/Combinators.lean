import Descent.Proofs.Making
import Descent.Proofs.Reading
import Mathlib.Data.List.Forall2

/-!
# What combinators read

`r.Reads Inv depth f` says that whatever parser the recipe `r` makes, a run of it
at that depth on the input `cur` comes to the reading `f cur`, from every store of
the invariant. There is one rule for each way to put recipes together, so the
reading of a recipe is found from those of its parts, and no run is looked at
again. A choice uses up one entry of the depth for its alternatives.
-/

namespace Descent

open Eval

namespace Eval

variable {α β σ τ : Type} {Inv : Store → Prop} {s : Store}

theorem collect_singleton (f : α → Eval (List β)) (a : α) : collect f [a] = f a := by
  rw [collect_cons, collect_nil]
  simp

/-- A computation goes on from the result of a reading, if there is one. -/
theorem Computes.bind_ends {m : Eval (List σ)} {r : Reading α} {result : α → Text → σ}
    {next : List σ → Eval (List τ)} {k : α → Text → Reading β} {last : β → Text → τ}
    (h : Computes Inv s m (r.ends result)) (hnone : next [] = Pure.pure [])
    (hnext : ∀ a rest, r = .reads a rest →
      Computes Inv s (next [result a rest]) ((k a rest).ends last)) :
    Computes Inv s (m >>= next) ((r.bind k).ends last) := by
  cases r with
  | overrun => exact Computes.bind (k := fun _ => .ok []) h fun _ hr => nomatch hr
  | fails =>
      refine Computes.bind (k := fun _ => .ok []) h fun _ hr => ?_
      cases hr
      rw [hnone]
      exact Computes.pure []
  | reads a rest =>
      refine Computes.bind (k := fun _ => (k a rest).ends last) h fun _ hr => ?_
      cases hr
      exact hnext a rest rfl

/-- As `bind_ends`, where what follows is run on each result. -/
theorem Computes.bind_collect {m : Eval (List σ)} {r : Reading α} {result : α → Text → σ}
    {f : σ → Eval (List τ)} {k : α → Text → Reading β} {last : β → Text → τ}
    (h : Computes Inv s m (r.ends result))
    (hnext : ∀ a rest, r = .reads a rest →
      Computes Inv s (f (result a rest)) ((k a rest).ends last)) :
    Computes Inv s (m >>= collect f) ((r.bind k).ends last) := by
  refine h.bind_ends (collect_nil f) fun a rest hr => ?_
  rw [collect_singleton]
  exact hnext a rest hr

end Eval

namespace Store

/-- The store with another trace and another count of overruns. -/
def withLog (s : Store) (pieces : List Text) (overruns : Nat) : Store :=
  { s with pieces := pieces, overruns := overruns }

theorem extends_withLog (s : Store) (pieces : List Text) (overruns : Nat) :
    s.Extends (s.withLog pieces overruns) :=
  ⟨fun _ _ h => h, fun _ _ h _ => h, rfl, rfl⟩

/-- The invariant does not look at the trace and the count of overruns. -/
def Quiet (Inv : Store → Prop) : Prop :=
  ∀ s pieces overruns, Inv s → Inv (s.withLog pieces overruns)

end Store

namespace Eval

variable {Inv : Store → Prop} {s : Store}

theorem run_write (t : Text) (s : Store) :
    (write t).run s = .ok () (s.withLog (t :: s.pieces) s.overruns) := rfl

theorem computes_overrun {α : Type} (hInv : Store.Quiet Inv) :
    Computes Inv s (overrun : Eval α) (.error .depthExceeded) :=
  fun t _ ht => ⟨_, t.extends_withLog t.pieces (t.overruns + 1), hInv t _ _ ht, rfl⟩

theorem computes_write (hInv : Store.Quiet Inv) (t : Text) : Computes Inv s (write t) (.ok ()) :=
  fun u _ hu => ⟨_, u.extends_withLog _ _, hInv u _ _ hu, run_write t u⟩

/-- A line of the trace changes nothing else, if its second word is found. -/
theorem computes_traceLine (hInv : Store.Quiet Inv) {head : Text} {last : Eval Text} {d : Text}
    (hlast : Computes Inv s last (.ok d)) : Computes Inv s (traceLine head last) (.ok ()) := by
  intro t ht hinv
  cases htr : t.tracing with
  | false =>
      refine ⟨t, .refl t, hinv, ?_⟩
      rw [traceLine, run_bind_ok (EStateM.run_get t), htr]
      rfl
  | true =>
      have hlines : Computes Inv s
          (write (head ++ text " ") >>= fun _ => last >>= fun t => write (t ++ text "\n"))
          (.ok ()) :=
        Computes.bind (computes_write hInv _) fun _ _ =>
          Computes.bind hlast fun _ _ => computes_write hInv _
      obtain ⟨u, htu, hu, hrun⟩ := hlines t ht hinv
      refine ⟨u, htu, hu, ?_⟩
      rw [traceLine, run_bind_ok (EStateM.run_get t), htr, ← hrun]
      rfl

end Eval

theorem Text.join_nil (ts : List Text) : Text.join [] ts = ts.flatten := by
  induction ts with
  | nil => rfl
  | cons t ts ih =>
      cases ts with
      | nil => simp [Text.join]
      | cons u ts =>
          rw [Text.join, List.intercalate_cons_of_ne_nil (List.cons_ne_nil u ts), ← Text.join, ih]
          simp

namespace Value

theorem textsFrom_map_str (position : Nat) (ts : List Text) :
    textsFrom position (ts.map .str) = .ok ts := by
  induction ts generalizing position with
  | nil => rfl
  | cons t ts ih =>
      rw [List.map_cons, textsFrom, ih]
      rfl

theorem joinItems_map_str (ts : List Text) :
    joinItems [] (ts.map .str) = .ok (.str ts.flatten) := by
  rw [joinItems, textsFrom_map_str]
  rw [Except.map, Text.join_nil]

/-- The code points of a text are joined into the text. -/
theorem joinItems_map_singleton (t : Text) :
    joinItems [] (t.map fun c => .str [c]) = .ok (.str t) := by
  have hparts : (t.map fun c => Value.str [c]) = (t.map fun c => [c]).map .str := by
    rw [List.map_map]
    rfl
  rw [hparts, joinItems_map_str, ← List.flatMap_def, List.flatMap_singleton']

theorem index_natCast {vs : List Value} {i : Nat} (h : i < vs.length) :
    (Value.list vs).index (i : Int) = .ok (vs.getD i .null) := by
  have hi : ¬ ((i : Int) < 0) := by omega
  have hj : (0 : Int) ≤ i ∧ (i : Int) < vs.length := by omega
  simp [index, place?, hi, hj, List.getElem?_eq_getElem h, List.getD]

end Value

namespace Recipe

open Reading (enter)

variable {Inv : Store → Prop} {depth : Nat} {α β : Type}

/-- Every parser of the recipe comes to this reading, at that depth. -/
def Reads (Inv : Store → Prop) (depth : Nat) (r : Recipe) (f : Text → Reading Value) : Prop :=
  ∀ s p, r.IsMade s p → ∀ cur, Computes Inv s (p.parse (.ofDepth depth) cur) (f cur).outcomes

/-- Every parser of the recipe has a description, which changes nothing. -/
def IsDescribed (Inv : Store → Prop) (r : Recipe) : Prop :=
  ∀ s p, r.IsMade s p → ∀ e, ∃ d, Computes Inv s (p.describe e) (.ok d)

theorem Reads.congr {r : Recipe} {f g : Text → Reading Value} (h : r.Reads Inv depth f)
    (hfg : ∀ cur, f cur = g cur) : r.Reads Inv depth g :=
  (funext hfg : f = g) ▸ h

/-! ## Parsers that are given -/

theorem reads_plain {name : Text} {run : Text → Except Fault (List Outcome)}
    {f : Text → Reading Value} (h : ∀ cur, run cur = (f cur).outcomes) :
    (given (.plain name run)).Reads Inv depth f := by
  rintro s p ⟨⟩ cur
  rw [← h]
  exact Computes.ofExcept (run cur)

theorem reads_lift (v : Value) : (given (.lift v)).Reads Inv depth (.reads v) :=
  reads_plain fun _ => rfl

theorem isDescribed_plain (name : Text) (run : Text → Except Fault (List Outcome)) :
    (given (.plain name run)).IsDescribed Inv := by
  rintro s p ⟨⟩ e
  exact ⟨_, Computes.pure _⟩

theorem isDescribed_map (of : Recipe) (c : Value → Except Fault Value) :
    (map of c).IsDescribed Inv := by
  rintro s p ⟨q, -, rfl⟩ e
  exact ⟨_, Computes.pure _⟩

theorem isDescribed_pipeTo (rs : List Recipe) (l : List Value → Parser) :
    (pipeTo rs l).IsDescribed Inv := by
  rintro s p ⟨ps, qs, -, -, rfl⟩ e
  exact ⟨_, Computes.pure _⟩

/-- The text itself. -/
def literalReading (t cur : Text) : Reading Text :=
  match Text.after? t cur with
  | some rest => .reads t rest
  | none => .fails

theorem literalReading_eq_reads_iff {t cur u rest : Text} :
    literalReading t cur = .reads u rest ↔ cur = t ++ rest ∧ u = t := by
  unfold literalReading
  cases h : Text.after? t cur with
  | none =>
      have hne : cur ≠ t ++ rest := fun hcur => by
        rw [Text.after?_eq_some_iff.2 hcur] at h
        cases h
      simp [hne]
  | some r =>
      have hcur := Text.after?_eq_some_iff.1 h
      constructor
      · rintro ⟨⟩
        exact ⟨hcur, rfl⟩
      · rintro ⟨hrest, rfl⟩
        rw [hcur, List.append_cancel_left_eq] at hrest
        rw [hrest]

theorem literalReading_append (t rest : Text) : literalReading t (t ++ rest) = .reads t rest :=
  literalReading_eq_reads_iff.2 ⟨rfl, rfl⟩

theorem literalReading_ne_overrun (t cur : Text) : literalReading t cur ≠ .overrun := by
  unfold literalReading
  split <;> simp

theorem literalReading_singleton (c : CodePoint) (cur : Text) :
    literalReading [c] cur = match cur with
      | [] => .fails
      | d :: t => if d = c then .reads [c] t else .fails := by
  cases cur with
  | nil => rfl
  | cons d t =>
      by_cases h : d = c
      · simp [literalReading, Text.after?, h]
      · simp [literalReading, Text.after?, h, Ne.symm h]

/-- A literal of two code points, after the first one. -/
theorem literalReading_pair (a d : CodePoint) (t : Text) :
    literalReading [a, d] (a :: t) = match t with
      | [] => .fails
      | c :: u => if c = d then .reads [a, d] u else .fails := by
  cases t with
  | nil => simp [literalReading, Text.after?]
  | cons c u =>
      by_cases h : c = d
      · simp [literalReading, Text.after?, h]
      · simp [literalReading, Text.after?, h, Ne.symm h]

/-- A literal that starts with another code point is not there. -/
theorem literalReading_cons_of_ne {a c : CodePoint} (h : c ≠ a) (t u : Text) :
    literalReading (a :: t) (c :: u) = .fails := by
  simp [literalReading, Text.after?, Ne.symm h]

theorem reads_literal (t : Text) :
    (given (.literal t)).Reads Inv depth fun cur => (literalReading t cur).map .str := by
  refine reads_plain fun cur => ?_
  unfold literalReading
  cases Text.after? t cur <;> rfl

/-! ## Values changed, and parsers chained -/

theorem reads_map {of : Recipe} {f : Text → Reading α} {ι κ : α → Value}
    {c : Value → Except Fault Value} (h : of.Reads Inv depth fun cur => (f cur).map ι)
    (hc : ∀ cur a rest, f cur = .reads a rest → c (ι a) = .ok (κ a)) :
    (map of c).Reads Inv depth fun cur => (f cur).map κ := by
  rintro s p ⟨q, hq, rfl⟩ cur
  have hparse := h s q hq cur
  rw [Reading.outcomes, Reading.ends_map] at hparse
  refine hparse.bind_ends rfl fun a rest hr => ?_
  simp only [List.mapM_cons, List.mapM_nil, hc cur a rest hr]
  exact Computes.ofExcept _

theorem reads_chainTo {of : Recipe} {f : Text → Reading α} {ι : α → Value} {l : Value → Parser}
    {k : α → Text → Reading Value} (h : of.Reads Inv depth fun cur => (f cur).map ι)
    (hk : ∀ cur a rest, f cur = .reads a rest → (given (l (ι a))).Reads Inv depth (k a)) :
    (chainTo of l).Reads Inv depth fun cur => (f cur).bind k := by
  rintro s p ⟨q, ps, hq, -, rfl⟩ cur
  have hparse := h s q hq cur
  rw [Reading.outcomes, Reading.ends_map] at hparse
  refine hparse.bind_collect fun a rest hr => ?_
  exact hk cur a rest hr s (l (ι a)) rfl rest

theorem reads_many {of : Recipe} {f : Text → Reading α} {ι : α → Value}
    (h : of.Reads Inv depth fun cur => (f cur).map ι) :
    (many of).Reads Inv depth fun cur =>
      (Reading.many f cur).map fun as => .list (as.map ι) := by
  rintro s p ⟨q, hq, rfl⟩ cur
  have key : ∀ (values : List Value) (cur : Text),
      Computes Inv s (repeatedly (q.parse (.ofDepth depth)) cur values)
        ((Reading.many f cur).map fun as => .list (values.reverse ++ as.map ι)).outcomes := by
    intro values cur
    induction hn : cur.length using Nat.strongRecOn generalizing cur values with
    | ind n ih =>
        have hstep : Computes Inv s (q.parse (.ofDepth depth) cur) ((f cur).map ι).outcomes :=
          h s q hq cur
        rw [repeatedly]
        cases hf : f cur with
        | overrun =>
            rw [hf] at hstep
            rw [Reading.many_of_overrun hf]
            exact Computes.bind (k := fun _ => .ok []) hstep fun _ hr => nomatch hr
        | fails =>
            rw [hf] at hstep
            rw [Reading.many_of_fails hf]
            refine Computes.bind (k := fun _ => .ok _) hstep ?_
            rintro _ ⟨⟩
            simpa using Computes.pure _
        | reads a rest =>
            rw [hf] at hstep
            by_cases hlt : rest.length < cur.length
            · rw [Reading.many_of_reads hf hlt, Reading.map_map]
              refine Computes.bind (k := fun _ => (Reading.map _ (Reading.many f rest)).outcomes)
                hstep ?_
              rintro _ ⟨⟩
              simpa [hlt, Function.comp_def] using
                ih rest.length (hn ▸ hlt) (ι a :: values) rest rfl
            · rw [Reading.many_of_reads_of_le hf (Nat.not_lt.1 hlt)]
              refine Computes.bind (k := fun _ => .ok _) hstep ?_
              rintro _ ⟨⟩
              simpa [hlt] using Computes.pure _
  rw [Parser.parse_many]
  simpa using key [] cur

/-! ## Choices -/

variable {n : Nat} {rs : List Recipe} {fs : List (Text → Reading Value)}
  {gs : List (Text → Reading α)} {ι : α → Value}

theorem computes_tryAlternatives (hInv : Store.Quiet Inv)
    (h : List.Forall₂ (fun r f => r.Reads Inv n f ∧ r.IsDescribed Inv) rs fs) {s : Store}
    {ps : List Parser} (hps : AllMade s rs ps) (i : Nat) (cur : Text) :
    Computes Inv s ((Entry.ofDepth n).tryAlternatives i ps cur)
      (Reading.choice fs cur).outcomes := by
  induction h generalizing i ps with
  | nil =>
      cases hps
      exact Computes.pure []
  | @cons r f rs fs hr _ ih =>
      obtain ⟨q, qs, hq, hqs, rfl⟩ := hps
      have hparse := hr.1 s q hq cur
      obtain ⟨d, hd⟩ := hr.2 s q hq (.ofDepth n)
      rw [Reading.choice_cons]
      cases hf : f cur with
      | overrun =>
          rw [hf] at hparse
          exact Computes.bind (k := fun _ => .ok []) hparse fun _ hr => nomatch hr
      | fails =>
          rw [hf] at hparse
          refine Computes.bind (k := fun _ => (Reading.choice fs cur).outcomes) hparse ?_
          rintro _ ⟨⟩
          exact ih hqs (i + 1)
      | reads v rest =>
          rw [hf] at hparse
          refine Computes.bind (k := fun _ => .ok _) hparse ?_
          rintro _ ⟨⟩
          exact Computes.bind (k := fun _ => .ok _) (computes_traceLine hInv hd) fun _ _ =>
            Computes.pure _

theorem computes_alternatives {s : Store} {c : Nat} {ps : List Parser}
    (hc : s.choices[c]? = some ps) : Computes Inv s (alternatives c) (.ok ps) := by
  intro t ht hinv
  refine ⟨t, .refl t, hinv, ?_⟩
  rw [alternatives, run_bind_ok (EStateM.run_get t), ht.choices c ps hc]
  rfl

/-- A choice takes one entry, and reads as the first alternative that is a parse. -/
theorem reads_first (hInv : Store.Quiet Inv)
    (h : List.Forall₂ (fun r f => r.Reads Inv n f ∧ r.IsDescribed Inv) rs fs) :
    (first rs).Reads Inv (n + 1) (Reading.choice fs) := by
  rintro s p ⟨c, ps, hps, hc, rfl⟩ cur
  have halts := computes_tryAlternatives hInv h hps 0 cur
  refine Computes.bind (k := fun _ => (Reading.choice fs cur).outcomes)
    (computes_alternatives hc) ?_
  rintro _ ⟨⟩
  cases hf : Reading.choice fs cur with
  | overrun =>
      rw [hf] at halts
      exact Computes.bind (k := fun _ => .ok []) halts fun _ hr => nomatch hr
  | fails =>
      rw [hf] at halts
      refine Computes.bind (k := fun _ => .ok []) halts ?_
      rintro _ ⟨⟩
      refine Computes.bind (k := fun _ => .ok []) (computes_alternatives hc) ?_
      rintro _ ⟨⟩
      rw [if_neg (Nat.lt_irrefl _)]
      exact Computes.pure []
  | reads v rest =>
      rw [hf] at halts
      refine Computes.bind (k := fun _ => .ok _) halts ?_
      rintro _ ⟨⟩
      exact Computes.pure _

theorem reads_first_zero (hInv : Store.Quiet Inv) (rs : List Recipe) :
    (first rs).Reads Inv 0 fun _ => .overrun := by
  rintro s p ⟨c, ps, -, -, rfl⟩ cur
  exact computes_overrun hInv

/-- A choice at any depth, among alternatives whose values are of one kind. -/
theorem reads_choice (hInv : Store.Quiet Inv) (gs : Nat → List (Text → Reading α))
    (h : ∀ n, List.Forall₂ (fun r g => (r.Reads Inv n fun cur => (g cur).map ι) ∧ r.IsDescribed Inv)
      rs (gs n)) (depth : Nat) :
    (first rs).Reads Inv depth fun cur =>
      (enter depth fun n => Reading.choice (gs n) cur).map ι := by
  cases depth with
  | zero => exact reads_first_zero hInv rs
  | succ n =>
      have hfirst : (first rs).Reads Inv (n + 1)
          (Reading.choice ((gs n).map fun g cur => (g cur).map ι)) :=
        reads_first hInv (List.forall₂_map_right_iff.2 (h n))
      exact hfirst.congr fun cur => Reading.choice_map ι (gs n) cur

/-- The recipe, or the empty text. -/
theorem reads_optional (hInv : Store.Quiet Inv) {p : Recipe} {g : Nat → Text → Reading Text}
    (h : ∀ n, p.Reads Inv n fun cur => (g n cur).map .str) (hp : p.IsDescribed Inv) (depth : Nat) :
    (Json.optional p).Reads Inv depth fun cur =>
      (enter depth fun n => (g n cur).orElse (.reads [] cur)).map .str := by
  have hchoice := reads_choice hInv (ι := Value.str) (fun n => [g n, .reads []])
    (fun n => .cons ⟨h n, hp⟩ (.cons ⟨reads_lift (.str []), isDescribed_plain _ _⟩ .nil)) depth
  exact hchoice

/-! ## Pipes -/

theorem parseAll_empty (e : Entry) (ps : List Parser) : Parser.parseAll e ps [] = pure [] := by
  induction ps with
  | nil => rfl
  | cons p ps ih =>
      change (pure [] >>= fun states => Parser.parseAll e ps states) = pure []
      rw [pure_bind, ih]

theorem computes_parseAll (h : List.Forall₂ (fun r f => r.Reads Inv n f) rs fs) {s : Store}
    {ps : List Parser} (hps : AllMade s rs ps) (vs : List Value) (cur : Text) :
    Computes Inv s (Parser.parseAll (.ofDepth n) ps [(vs, cur)])
      ((Reading.sequence fs cur).ends fun ws rest => (vs ++ ws, rest)) := by
  induction h generalizing ps vs cur with
  | nil =>
      cases hps
      simpa using Computes.pure [(vs, cur)]
  | @cons r f rs fs hr _ ih =>
      obtain ⟨q, qs, hq, hqs, rfl⟩ := hps
      have hparse := hr s q hq cur
      have hstates : Computes Inv s
          (q.parse (.ofDepth n) cur >>= fun os =>
            pure (os.map fun o => (vs ++ [o.value], o.rest)))
          (((f cur).bind .reads).ends fun v rest => (vs ++ [v], rest)) :=
        hparse.bind_ends rfl fun v rest _ => Computes.pure _
      have hbind : (f cur).bind .reads = f cur := by cases f cur <;> rfl
      rw [hbind, ← collect_singleton (fun s : List Value × Text =>
        q.parse (.ofDepth n) s.2 >>= fun os => pure (os.map fun o => (s.1 ++ [o.value], o.rest)))
        (vs, cur)] at hstates
      rw [Reading.sequence_cons]
      refine hstates.bind_ends (parseAll_empty _ qs) fun v rest _ => ?_
      have hrest := ih hqs (vs ++ [v]) rest
      cases hseq : Reading.sequence fs rest <;> simpa [hseq] using hrest

/-- A pipe reads its parts one after the other, and goes on from their values. -/
theorem reads_pipeTo {l : List Value → Parser} {k : List α → Text → Reading Value}
    (h : List.Forall₂ (fun r g => r.Reads Inv n fun cur => (g cur).map ι) rs gs)
    (hk : ∀ cur as rest, Reading.sequence gs cur = .reads as rest →
      (given (l (as.map ι))).Reads Inv n (k as)) :
    (pipeTo rs l).Reads Inv n fun cur => (Reading.sequence gs cur).bind k := by
  rintro s p ⟨ps, qs, hps, -, rfl⟩ cur
  have hvalues := computes_parseAll (List.forall₂_map_right_iff.2 h) hps [] cur
  rw [Reading.sequence_map, Reading.ends_map] at hvalues
  refine hvalues.bind_collect fun as rest hr => ?_
  exact hk cur as rest hr s (l (as.map ι)) rfl rest

/-- The value of the part in that place, changed. -/
theorem reads_itemWith {i : Nat} {c : Value → Except Fault Value} {κ : α → β} {φ : β → Value}
    (a₀ : α) (h : List.Forall₂ (fun r g => r.Reads Inv n fun cur => (g cur).map ι) rs gs)
    (hi : i < rs.length)
    (hκ : ∀ cur as rest, Reading.sequence gs cur = .reads as rest →
      c (ι (as.getD i a₀)) = .ok (φ (κ (as.getD i a₀)))) :
    (pipeTo rs (Json.itemWith i c)).Reads Inv n fun cur =>
      ((Reading.sequence gs cur).map fun as => κ (as.getD i a₀)).map φ := by
  have hpipe : (pipeTo rs (Json.itemWith i c)).Reads Inv n fun cur =>
      (Reading.sequence gs cur).bind fun as => .reads (φ (κ (as.getD i a₀))) := by
    refine reads_pipeTo h fun cur as rest hr => ?_
    have hlen : i < as.length := by rwa [Reading.length_of_sequence hr, ← h.length_eq]
    have hitem : (as.map ι).getD i .null = ι (as.getD i a₀) := by
      simp [List.getD, List.getElem?_eq_getElem hlen]
    have hv : Json.itemWith i c (as.map ι) = .lift (φ (κ (as.getD i a₀))) := by
      rw [Json.itemWith, Value.index_natCast (by simpa using hlen), hitem]
      change Parser.liftExcept (c (ι (as.getD i a₀))) = _
      rw [hκ cur as rest hr]
      rfl
    rw [hv]
    exact reads_lift _
  refine hpipe.congr fun cur => ?_
  rw [Reading.map_map]
  rfl

/-- The value of the part in that place. -/
theorem reads_itemOf {i : Nat} (a₀ : α)
    (h : List.Forall₂ (fun r g => r.Reads Inv n fun cur => (g cur).map ι) rs gs)
    (hi : i < rs.length) :
    (pipeTo rs (Parser.itemOf i)).Reads Inv n fun cur =>
      ((Reading.sequence gs cur).map fun as => as.getD i a₀).map ι := by
  have hitem : Parser.itemOf i = Json.itemWith i .ok := by
    funext vs
    rw [Parser.itemOf, Json.itemWith]
    cases (Value.list vs).index i <;> rfl
  rw [hitem]
  exact reads_itemWith (κ := id) a₀ h hi fun _ _ _ _ => rfl

/-- Parts of several kinds are all values. -/
theorem forall₂_values (h : List.Forall₂ (fun r f => r.Reads Inv n f) rs fs) :
    List.Forall₂ (fun r f => r.Reads Inv n fun cur => (f cur).map id) rs fs := by
  refine h.imp fun r f hr => hr.congr fun cur => ?_
  cases f cur <;> rfl

/-- As `reads_pipeTo`, for parts of several kinds: `P` gives their values. -/
theorem reads_pipeTo_parts {l : List Value → Parser} {γ : Type} {f : Text → Reading γ}
    {P : γ → List Value} {κ : γ → Value}
    (h : List.Forall₂ (fun r f => r.Reads Inv n f) rs fs)
    (hparts : ∀ cur, Reading.sequence fs cur = (f cur).map P)
    (hl : ∀ cur c rest, f cur = .reads c rest → l (P c) = .lift (κ c)) :
    (pipeTo rs l).Reads Inv n fun cur => (f cur).map κ := by
  rintro s p ⟨ps, qs, hps, -, rfl⟩ cur
  have hvalues := computes_parseAll h hps [] cur
  rw [hparts, Reading.ends_map] at hvalues
  refine hvalues.bind_collect fun c rest hr => ?_
  change Computes Inv s ((l (P c)).parse _ _) _
  rw [hl cur c rest hr]
  exact Computes.pure _

/-- Texts one after the other, joined into one. -/
theorem reads_joinAll {gs : List (Text → Reading Text)}
    (h : List.Forall₂ (fun r g => r.Reads Inv n fun cur => (g cur).map .str) rs gs) :
    (joinAll rs []).Reads Inv n fun cur =>
      (Reading.sequence gs cur).map fun ts => .str ts.flatten := by
  refine reads_pipeTo h fun cur ts rest _ => ?_
  rw [Value.joinItems_map_str]
  exact reads_lift _

/-! ## Repetitions -/

theorem reads_join {of : Recipe} {g : Text → Reading (List Text)}
    (h : of.Reads Inv n fun cur => (g cur).map fun ts => .list (ts.map .str)) :
    (join of []).Reads Inv n fun cur => (g cur).map fun ts => .str ts.flatten := by
  refine reads_map h fun cur ts rest _ => ?_
  rw [Value.join]
  exact Value.joinItems_map_str ts

theorem reads_many1 {of : Recipe} {f : Text → Reading α}
    (h : of.Reads Inv n fun cur => (f cur).map ι) :
    (many1 of).Reads Inv n fun cur =>
      (Reading.many1 f cur).map fun as => .list (as.map ι) := by
  have hchain : (many1 of).Reads Inv n fun cur => (Reading.many f cur).bind fun as rest =>
      (if as.isEmpty then .fails else .reads as rest : Reading (List α)).map
        fun as => .list (as.map ι) := by
    refine reads_chainTo (reads_many h) fun cur as rest _ => ?_
    cases as with
    | nil => exact reads_plain fun _ => rfl
    | cons a as => exact reads_lift _
  exact hchain.congr fun cur => (Reading.map_bind _ _ _).symm

end Recipe

end Descent
