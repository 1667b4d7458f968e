import Descent.Proofs.Joining

/-!
# A run tries every match

Whether a run finds something depends on the places where matches end and not on what the
groups hold there: it finds something if and only if what follows accepts one of these places.
-/

namespace Descent

namespace Pattern

variable {α : Type} {p : Pattern} {s : Place}

/-- What comes next accepts these places, whatever the groups hold. -/
def Accepts (next : Next α) (A : Place → Prop) : Prop :=
  ∀ s g, (next s g).isSome = true ↔ A s

/-- All places of the relation are tried, and no other ones. -/
def Explores (R : Place → Place → Prop) (body : Place → Captures → Next α → Option α) : Prop :=
  ∀ next A, Accepts next A → Accepts (fun s g => body s g next) fun s => ∃ u, R s u ∧ A u

section

variable {body : Place → Captures → Next α → Option α} (hbody : Explores (Joins p) body)
include hbody

theorem explores_rounds (n : Nat) : Explores (JoinsIn p n) (rounds body n) := by
  intro next A hnext
  induction n with
  | zero =>
      intro s g
      simp only [joinsIn_zero, exists_eq_left]
      exact hnext s g
  | succ n ih =>
      intro s g
      simp only [joinsIn_succ]
      exact (hbody _ _ ih s g).trans exists_through

omit hbody in
theorem isSome_orElse (a b : Option α) :
    (match a with
      | some r => some r
      | none => b).isSome = true ↔ a.isSome = true ∨ b.isSome = true := by
  cases a with
  | none => simp
  | some r => simp

omit hbody in
/-- What is reached in one round more is the place itself, or is reached after a first round,
which is the last one if it consumes nothing. -/
theorem exists_joinsUpTo_succ {n : Nat} {A : Place → Prop} :
    (∃ v, JoinsUpTo p (n + 1) s v ∧ A v) ↔ A s ∨ ∃ u, Joins p s u ∧
      if u.index = s.index then A u else ∃ v, JoinsUpTo p n u v ∧ A v := by
  simp only [joinsUpTo_succ]
  constructor
  · rintro ⟨v, rfl | ⟨u, hfirst, hrest⟩, hv⟩
    · exact .inl hv
    · refine .inr ⟨u, hfirst, ?_⟩
      split at hrest
      · rename_i hsame
        cases hrest
        rwa [if_pos hsame]
      · rename_i hother
        rw [if_neg hother]
        exact ⟨v, hrest, hv⟩
  · rintro (hs | ⟨u, hfirst, hu⟩)
    · exact ⟨s, .inl rfl, hs⟩
    · split at hu
      · rename_i hsame
        exact ⟨u, .inr ⟨u, hfirst, by rw [if_pos hsame]⟩, hu⟩
      · rename_i hother
        obtain ⟨v, hrest, hv⟩ := hu
        exact ⟨v, .inr ⟨u, hfirst, by rwa [if_neg hother]⟩, hv⟩

theorem explores_upTo (greedy : Bool) (n : Nat) : Explores (JoinsUpTo p n) (upTo greedy body n) := by
  intro next A hnext
  induction n with
  | zero =>
      intro s g
      simp only [joinsUpTo_zero, exists_eq_left]
      exact hnext s g
  | succ n ih =>
      intro s g
      have hmore : (body s g fun s' g' =>
            if s'.index = s.index then next s' g' else upTo greedy body n s' g' next).isSome = true ↔
          ∃ u, Joins p s u ∧
            if u.index = s.index then A u else ∃ v, JoinsUpTo p n u v ∧ A v := by
        refine hbody _ _ (fun s' g' => ?_) s g
        split
        · exact hnext s' g'
        · exact ih s' g'
      refine Iff.trans ?_ exists_joinsUpTo_succ.symm
      dsimp only
      rw [upTo, ← hmore, ← hnext s g]
      split
      · exact (isSome_orElse _ _).trans or_comm
      · exact isSome_orElse _ _

end

theorem explores_set (c : CharSet) : Explores (α := α) (Joins (.set c)) (Pattern.set c).run := by
  intro next A hnext s g
  simp only [joins_set, run]
  split
  · rename_i hs
    simp [hs]
  · rename_i x t hs
    split
    · rename_i hx
      rw [hnext]
      constructor
      · exact fun hA => ⟨_, ⟨x, t, hs, hx, rfl⟩, hA⟩
      · rintro ⟨_, ⟨y, r, hy, -, rfl⟩, hA⟩
        cases hs.symm.trans hy
        exact hA
    · rename_i hx
      simp only [Option.isSome_none, Bool.false_eq_true, false_iff]
      rintro ⟨_, ⟨y, r, hy, hcontains, -⟩, -⟩
      cases hs.symm.trans hy
      exact hx hcontains

/-- An anchor goes on where it stands, if its test holds there. -/
theorem explores_anchor (test : Place → Bool) :
    Explores (α := α) (fun s u => test s = true ∧ u = s)
      fun s g next => if test s then next s g else none := by
  intro next A hnext s g
  dsimp only
  split
  · rename_i hs
    simp [hs, hnext s g]
  · rename_i hs
    simp [hs]

theorem explores_span (c : CharSet) (least : Nat) (most : Option Nat) (greedy : Bool) :
    Explores (α := α) (Joins (.span c least most greedy)) (Pattern.span c least most greedy).run := by
  intro next A hnext s g
  have hplaces (places : List Place) :
      (places.findSome? fun v => next v g).isSome = true ↔ ∃ v ∈ places, A v := by
    rw [List.findSome?_isSome_iff]
    exact exists_congr fun v => and_congr_right fun _ => hnext v g
  simp only [joins_span_iff, run]
  split
  · rename_i hskip
    simp [hskip]
  · rename_i u hskip
    simp only [hplaces, hskip, Option.some.injEq, exists_eq_left']
    split
    · rfl
    · simp only [List.mem_reverse]

/-- A run finds something if and only if what follows accepts a place where a match ends. -/
theorem explores_run (p : Pattern) : Explores (α := α) (Joins p) p.run := by
  induction p with
  | empty =>
      intro next A hnext s g
      simp only [joins_empty, exists_eq_left]
      exact hnext s g
  | set c => exact explores_set c
  | start everyLine =>
      intro next A hnext s g
      simp only [joins_start]
      exact explores_anchor (Place.isStart everyLine) next A hnext s g
  | stop everyLine =>
      intro next A hnext s g
      simp only [joins_stop]
      exact explores_anchor (Place.isStop everyLine) next A hnext s g
  | seq p q ihp ihq =>
      intro next A hnext s g
      simp only [joins_seq]
      exact (ihp _ _ (ihq next A hnext) s g).trans exists_through
  | alt p q ihp ihq =>
      intro next A hnext s g
      have heither : ((p.alt q).run s g next).isSome = true ↔
          (p.run s g next).isSome = true ∨ (q.run s g next).isSome = true :=
        isSome_orElse _ _
      refine heither.trans ?_
      simp only [joins_alt, or_and_right, exists_or]
      exact or_congr (ihp next A hnext s g) (ihq next A hnext s g)
  | group n p ih =>
      intro next A hnext s g
      simp only [joins_group]
      exact ih _ A (fun u h => hnext u _) s g
  | span c least most greedy => exact explores_span c least most greedy
  | repeated p least most greedy ih =>
      intro next A hnext s g
      have hmore : Accepts
          (fun s g => upTo greedy p.run (optionalRounds least most s.rest.length) s g next)
          fun u => ∃ v, JoinsUpTo p (optionalRounds least most u.rest.length) u v ∧ A v :=
        fun u h => explores_upTo ih greedy _ next A hnext u h
      simp only [joins_repeated_iff]
      exact (explores_rounds ih least _ _ hmore s g).trans exists_through

theorem isSome_matchAt? : (p.matchAt? s).isSome = true ↔ ∃ u, Joins p s u := by
  have hall : Accepts (fun u h => some (u, h)) fun _ => True := fun _ _ => by simp
  refine (explores_run p _ _ hall s []).trans ?_
  simp only [and_true]

end Pattern

end Descent
