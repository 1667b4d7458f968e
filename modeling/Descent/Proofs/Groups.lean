import Descent.Pattern.Reader

/-!
# The groups of a pattern

A group is counted where its bracket opens. So the groups of a pattern that is read are numbered
from one on, in the order in which they stand in the pattern, and a name of the pattern is that
of one of its groups and of no other one.
-/

namespace Descent

namespace Pattern

/-- The numbers of the groups, in the order of their opening brackets. -/
def groupNumbers : Pattern → List Nat
  | .seq p q => p.groupNumbers ++ q.groupNumbers
  | .alt p q => p.groupNumbers ++ q.groupNumbers
  | .group n p => n :: p.groupNumbers
  | .repeated p _ _ _ => p.groupNumbers
  | _ => []

@[simp] theorem groupNumbers_andThen (p q : Pattern) :
    (p.andThen q).groupNumbers = p.groupNumbers ++ q.groupNumbers := by
  cases q with
  | empty => exact (List.append_nil _).symm
  | _ => rfl

@[simp] theorem groupNumbers_repetition (p : Pattern) (least : Nat) (most : Option Nat)
    (greedy : Bool) : (p.repetition least most greedy).groupNumbers = p.groupNumbers := by
  cases p with
  | _ => rfl

end Pattern

namespace Regex

/-- From the one state to the other one the groups of these numbers are opened. -/
structure Counted (σ τ : ReadState) (numbers : List Nat) : Prop where
  groups : τ.groups = σ.groups + numbers.length
  consecutive : numbers = List.range' (σ.groups + 1) numbers.length
  nodup : (σ.names.map Prod.fst).Nodup → (τ.names.map Prod.fst).Nodup
  mem : ∀ n ∈ τ.names, n ∈ σ.names ∨ n.2 ∈ numbers

theorem counted_nil {σ τ : ReadState} (hgroups : τ.groups = σ.groups)
    (hnames : τ.names = σ.names) : Counted σ τ [] where
  groups := hgroups
  consecutive := rfl
  nodup h := by rwa [hnames]
  mem n hn := .inl (hnames ▸ hn)

theorem Counted.trans {σ τ υ : ReadState} {ns ms : List Nat} (hns : Counted σ τ ns)
    (hms : Counted τ υ ms) : Counted σ υ (ns ++ ms) where
  groups := by rw [hms.groups, hns.groups, List.length_append, Nat.add_assoc]
  consecutive := by
    rw [List.length_append, ← List.range'_append_1, ← hns.consecutive, Nat.add_right_comm,
      ← hns.groups, ← hms.consecutive]
  nodup h := hms.nodup (hns.nodup h)
  mem n hn := by
    rcases hms.mem n hn with hn | hn
    · rcases hns.mem n hn with hn | hn
      · exact .inl hn
      · exact .inr (List.mem_append_left _ hn)
    · exact .inr (List.mem_append_right _ hn)

variable {α β : Type} {m : Reader α} {k : α → Reader β}

theorem exists_of_run_bind {σ υ : ReadState} {b : β} (h : (m >>= k).run σ = .ok (b, υ)) :
    ∃ a τ, m.run σ = .ok (a, τ) ∧ (k a).run τ = .ok (b, υ) := by
  rw [StateT.run_bind] at h
  cases hrun : m.run σ with
  | error r =>
      rw [hrun] at h
      cases h
  | ok first =>
      rw [hrun] at h
      exact ⟨first.1, first.2, rfl, h⟩

/-! ## Readers that open no groups -/

/-- What is read changes nothing but what is left to read. -/
def Quiet (m : Reader α) : Prop :=
  ∀ σ a τ, m.run σ = .ok (a, τ) → τ = { σ with rest := τ.rest }

theorem quiet_pure (a : α) : Quiet (pure a) := by
  rintro σ _ _ ⟨⟩
  rfl

theorem quiet_throw (r : Refusal) : Quiet (throw r : Reader α) := by
  rintro σ _ _ ⟨⟩

theorem quiet_refuse : Quiet (refuse : Reader α) := quiet_throw .malformed

theorem quiet_get : Quiet (get : Reader ReadState) := by
  rintro σ _ _ ⟨⟩
  rfl

theorem Quiet.bind (hm : Quiet m) (hk : ∀ a, Quiet (k a)) : Quiet (m >>= k) := by
  intro σ b υ h
  obtain ⟨a, τ, hfirst, hrest⟩ := exists_of_run_bind h
  rw [hk a τ b υ hrest, hm σ a τ hfirst]

/-- A reader that refuses or else goes on. -/
theorem quiet_unless {k : Unit → Reader β} {c : Prop} [Decidable c] (hk : Quiet (k ())) :
    Quiet (if c then refuse >>= k else k ()) := by
  split
  · exact quiet_refuse.bind fun _ => hk
  · exact hk

theorem of_run_unless {k : Unit → Reader β} {c : Prop} [Decidable c] {σ : ReadState}
    {r : β × ReadState} (h : (if c then refuse >>= k else k () : Reader β).run σ = .ok r) :
    ¬c ∧ (k ()).run σ = .ok r := by
  split at h
  · cases h
  · exact ⟨‹¬c›, h⟩

theorem quiet_accept (s : String) : Quiet (accept s) := by
  intro σ b τ h
  simp only [accept, StateT.run_bind, StateT.run_get, pure_bind] at h
  split at h
  · cases h
    rfl
  · cases h
    rfl

theorem quiet_expect (s : String) : Quiet (expect s) :=
  (quiet_accept s).bind fun _ => quiet_unless (quiet_pure ())

theorem quiet_peek? : Quiet peek? := quiet_get.bind fun _ => quiet_pure _

theorem quiet_next : Quiet next := by
  intro σ b τ h
  simp only [next, StateT.run_bind, StateT.run_get, pure_bind] at h
  split at h
  · cases h
  · cases h
    rfl

theorem quiet_takeWhile (test : CodePoint → Bool) : Quiet (takeWhile test) := by
  intro σ b τ h
  cases h
  rfl

theorem quiet_hexNumber (n value : Nat) : Quiet (hexNumber n value) := by
  induction n generalizing value with
  | zero => exact quiet_pure value
  | succ n ih =>
      refine quiet_next.bind fun c => ?_
      split
      · exact ih _
      · exact quiet_refuse

theorem quiet_escape : Quiet escape := by
  have hhex (n : Nat) : Quiet (hexNumber n 0 >>= fun d => pure (CodePoint.ofNat d)) :=
    (quiet_hexNumber n 0).bind fun _ => quiet_pure _
  refine quiet_next.bind fun c => ?_
  repeat' split
  all_goals first
    | exact quiet_pure _
    | exact quiet_refuse
    | exact hhex _

theorem quiet_setChar : Quiet setChar := by
  refine quiet_next.bind fun c => ?_
  split
  · exact quiet_escape
  · exact quiet_pure c

theorem quiet_ite_bind {c : Prop} [Decidable c] {m' : Reader α} (hm : Quiet m) (hm' : Quiet m')
    (hk : ∀ a, Quiet (k a)) : Quiet (if c then m >>= k else m' >>= k) := by
  split
  · exact hm.bind hk
  · exact hm'.bind hk

theorem quiet_setRanges (fuel : Nat) (ranges : List (CodePoint × CodePoint)) :
    Quiet (setRanges fuel ranges) := by
  induction fuel generalizing ranges with
  | zero => exact quiet_refuse
  | succ fuel ih =>
      rw [setRanges]
      refine quiet_ite_bind (quiet_pure false) (quiet_accept "]") fun closed => ?_
      dsimp only
      split
      · exact quiet_pure _
      · refine quiet_setChar.bind fun lo => (quiet_accept "-").bind fun hyphen => ?_
        split
        · refine (quiet_accept "]").bind fun last => ?_
          split
          · exact quiet_pure _
          · exact quiet_setChar.bind fun hi => quiet_unless (ih _)
        · exact ih _

theorem quiet_bounds? : Quiet bounds? := by
  rw [bounds?]
  refine (quiet_accept "*").bind fun star => ?_
  split
  · exact quiet_pure _
  refine (quiet_accept "+").bind fun plus => ?_
  split
  · exact quiet_pure _
  refine (quiet_accept "?").bind fun question => ?_
  split
  · exact quiet_pure _
  intro σ b τ h
  simp only [StateT.run_bind, StateT.run_get, pure_bind] at h
  split at h
  · split at h
    · cases h
    · cases h
      rfl
  · cases h
    rfl

/-- A name that is read is new. -/
theorem new_of_run_groupName {σ τ : ReadState} {name : Text}
    (h : groupName.run σ = .ok (name, τ)) :
    τ = { σ with rest := τ.rest } ∧ ∀ n ∈ σ.names, n.1 ≠ name := by
  rw [groupName] at h
  obtain ⟨taken, τ₁, h₁, h⟩ := exists_of_run_bind h
  obtain ⟨⟨⟩, τ₂, h₂, h⟩ := exists_of_run_bind h
  have hτ₂ : τ₂ = { σ with rest := τ₂.rest } := by
    rw [quiet_expect _ _ _ _ h₂, quiet_takeWhile _ _ _ _ h₁]
  obtain ⟨-, h⟩ := of_run_unless h
  obtain ⟨now, τ₃, ⟨⟩, h⟩ := exists_of_run_bind h
  obtain ⟨hnew, ⟨⟩⟩ := of_run_unless h
  refine ⟨hτ₂, fun n hn hname => hnew ?_⟩
  rw [hτ₂, List.any_eq_true]
  exact ⟨n, hn, decide_eq_true hname⟩

/-! ## Readers that open groups -/

/-- What the reader reads is as said of the groups that it opens. -/
def Counts (m : Reader α) (P : α → List Nat → Prop) : Prop :=
  ∀ σ a τ, m.run σ = .ok (a, τ) → ∃ numbers, P a numbers ∧ Counted σ τ numbers

variable {P : α → List Nat → Prop} {Q : β → List Nat → Prop}

theorem counts_throw {r : Refusal} : Counts (throw r) P := by
  rintro σ _ _ ⟨⟩

theorem counts_pure {a : α} (h : P a []) : Counts (pure a) P := by
  rintro σ _ _ ⟨⟩
  exact ⟨[], h, counted_nil rfl rfl⟩

theorem counts_bind (hm : Counts m P)
    (hk : ∀ a ns, P a ns → Counts (k a) fun b ms => Q b (ns ++ ms)) : Counts (m >>= k) Q := by
  intro σ b υ h
  obtain ⟨a, τ, hfirst, hrest⟩ := exists_of_run_bind h
  obtain ⟨ns, hns, hfirst⟩ := hm σ a τ hfirst
  obtain ⟨ms, hms, hrest⟩ := hk a ns hns τ b υ hrest
  exact ⟨ns ++ ms, hms, hfirst.trans hrest⟩

theorem Quiet.bind_counts (hm : Quiet m) (hk : ∀ a, Counts (k a) Q) : Counts (m >>= k) Q := by
  intro σ b υ h
  obtain ⟨a, τ, hfirst, hrest⟩ := exists_of_run_bind h
  obtain ⟨ns, hns, hrest⟩ := hk a τ b υ hrest
  have hτ := hm σ a τ hfirst
  have hnone : Counted σ τ [] := counted_nil (by rw [hτ]) (by rw [hτ])
  exact ⟨ns, hns, hnone.trans hrest⟩

theorem counts_unless {k : Unit → Reader β} {c : Prop} [Decidable c] (hk : Counts (k ()) Q) :
    Counts (if c then refuse >>= k else k ()) Q := by
  split
  · exact quiet_refuse.bind_counts fun _ => hk
  · exact hk

theorem counts_openGroup_none : Counts (openGroup none) fun n ns => ns = [n] := by
  rintro σ n τ ⟨⟩
  refine ⟨[σ.groups + 1], rfl, rfl, rfl, fun h => ?_, fun n hn => .inl ?_⟩
  · rwa [Option.toList_none, List.map_nil, List.append_nil]
  · rwa [Option.toList_none, List.map_nil, List.append_nil] at hn

theorem counts_openGroup_some :
    Counts (groupName >>= fun name => openGroup (some name)) fun n ns => ns = [n] := by
  intro σ n υ h
  obtain ⟨name, τ, hname, ⟨⟩⟩ := exists_of_run_bind h
  obtain ⟨hτ, hnew⟩ := new_of_run_groupName hname
  rw [hτ]
  refine ⟨[σ.groups + 1], rfl, rfl, rfl, fun h => ?_, fun n hn => ?_⟩
  · simp only [Option.toList_some, List.map_cons, List.map_nil, List.map_append]
    refine List.nodup_append.2 ⟨h, List.pairwise_singleton _ name, ?_⟩
    intro a ha b hb hab
    obtain ⟨n, hn, rfl⟩ := List.mem_map.1 ha
    exact hnew n hn (hab.trans (List.mem_singleton.1 hb))
  · rcases List.mem_append.1 hn with hn | hn
    · exact .inl hn
    · obtain rfl := List.mem_singleton.1 hn
      exact .inr (List.mem_singleton_self _)

theorem counts_groupHead : Counts groupHead fun o ns => ns = o.toList := by
  have hsome {m : Reader Nat} (hm : Counts m fun n ns => ns = [n]) :
      Counts (m >>= fun n => pure (some n)) fun o ns => ns = o.toList :=
    counts_bind hm fun n ns hns => counts_pure (by rw [hns]; rfl)
  rw [groupHead]
  refine (quiet_accept "?:").bind_counts fun plain => ?_
  split
  · exact counts_pure rfl
  · refine (quiet_accept "?P<").bind_counts fun named => ?_
    split
    · rw [← bind_assoc]
      exact hsome counts_openGroup_some
    · exact (quiet_accept "?").bind_counts fun other => counts_unless (hsome counts_openGroup_none)

theorem counts_withRepetition (c : CodePoint) (p : Pattern) :
    Counts (withRepetition c p) fun q ns => q.groupNumbers = p.groupNumbers ++ ns := by
  rw [withRepetition]
  refine quiet_bounds?.bind_counts fun b => ?_
  split
  · exact counts_pure (List.append_nil _).symm
  · refine counts_unless ((quiet_accept "?").bind_counts fun lazily =>
      quiet_bounds?.bind_counts fun again => counts_unless (counts_pure ?_))
    rw [Pattern.groupNumbers_repetition, List.append_nil]

/-- What a reader of a pattern reads has the groups that were opened. -/
abbrev CountsGroups (m : Reader Pattern) : Prop := Counts m fun p ns => p.groupNumbers = ns

theorem countsGroups_item (flags : PatternFlags) {fuel : Nat}
    (h : CountsGroups (alternatives flags fuel)) : CountsGroups (item flags (fuel + 1)) := by
  rw [item]
  refine quiet_next.bind_counts fun c => ?_
  split
  · refine counts_bind counts_groupHead fun group ns hns => counts_bind h fun p ms hms =>
      (quiet_expect ")").bind_counts fun _ => ?_
    subst hns hms
    cases group with
    | none => exact counts_pure (List.append_nil _).symm
    | some number => exact counts_pure (by rw [List.append_nil]; rfl)
  · split
    · exact (quiet_accept "^").bind_counts fun negated => quiet_get.bind_counts fun state =>
        (quiet_setRanges _ []).bind_counts fun ranges => counts_pure rfl
    · split
      · exact counts_pure rfl
      · split
        · exact counts_pure rfl
        · split
          · exact counts_pure rfl
          · split
            · exact quiet_escape.bind_counts fun c => counts_pure rfl
            · exact (quiet_pure c).bind_counts fun c => counts_pure rfl

theorem countsGroups_sequence (flags : PatternFlags) {fuel : Nat}
    (hitem : CountsGroups (item flags fuel)) (h : CountsGroups (sequence flags fuel)) :
    CountsGroups (sequence flags (fuel + 1)) := by
  rw [sequence]
  refine quiet_peek?.bind_counts fun first => ?_
  split
  · exact counts_pure rfl
  · split
    · exact counts_pure rfl
    · refine quiet_bounds?.bind_counts fun bounds => counts_unless (counts_bind hitem
        fun p ns hns => counts_bind (counts_withRepetition _ p) fun q ms hms =>
          counts_bind h fun r ks hks => counts_pure ?_)
      rw [Pattern.groupNumbers_andThen, hms, hns, hks, List.append_nil, List.append_assoc]

theorem countsGroups_alternatives (flags : PatternFlags) {fuel : Nat}
    (hsequence : CountsGroups (sequence flags fuel)) (h : CountsGroups (alternatives flags fuel)) :
    CountsGroups (alternatives flags (fuel + 1)) := by
  rw [alternatives]
  refine counts_bind hsequence fun p ns hns => (quiet_accept "|").bind_counts fun bar => ?_
  split
  · refine counts_bind h fun q ms hms => counts_pure ?_
    rw [Pattern.groupNumbers, hns, hms, List.append_nil]
  · exact counts_pure (hns.trans (List.append_nil ns).symm)

/-- The readers of patterns count the groups of what they read, at every depth. -/
theorem countsGroups (flags : PatternFlags) (fuel : Nat) : CountsGroups (alternatives flags fuel) ∧
    CountsGroups (sequence flags fuel) ∧ CountsGroups (item flags fuel) := by
  induction fuel with
  | zero => exact ⟨counts_throw, counts_throw, counts_throw⟩
  | succ fuel ih =>
      obtain ⟨halternatives, hsequence, hitem⟩ := ih
      exact ⟨countsGroups_alternatives flags hsequence halternatives,
        countsGroups_sequence flags hitem hsequence, countsGroups_item flags halternatives⟩

/-! ## What is read -/

/-- The pattern has the group: this is the whole match, or one that the pattern opens, under
its number or under a name that it gives to it. -/
inductive HasGroup (r : Regex) : GroupKey → Nat → Prop where
  | whole : HasGroup r (.number 0) 0
  | numbered {n : Nat} : n ∈ r.pattern.groupNumbers → HasGroup r (.number n) n
  | named {t : Text} {n : Nat} :
      (t, n) ∈ r.names → n ∈ r.pattern.groupNumbers → HasGroup r (.name t) n

theorem find?_name_eq_some_iff {names : List (Text × Nat)} (hnames : (names.map Prod.fst).Nodup)
    {t : Text} {n : Nat} :
    (names.find? fun m => m.1 = t).map Prod.snd = some n ↔ (t, n) ∈ names := by
  induction names with
  | nil => simp
  | cons m names ih =>
      obtain ⟨hnew, hnames⟩ := List.nodup_cons.1 hnames
      rw [List.find?_cons, List.mem_cons]
      by_cases ht : m.1 = t
      · have hother : (t, n) ∉ names := fun hn =>
          hnew (List.mem_map.2 ⟨(t, n), hn, ht.symm⟩)
        simp only [ht, decide_true, Option.map_some, Option.some.injEq, hother, or_false]
        constructor
        · rintro rfl
          exact Prod.ext ht.symm rfl
        · rintro rfl
          rfl
      · have hother : (t, n) ≠ m := by
          rintro rfl
          exact ht rfl
        simp only [ht, decide_false, ih hnames, hother, false_or]

section

variable {flags : PatternFlags} {t : Text} {r : Regex} (h : read flags t = .ok r)
include h

theorem exists_counted_of_read : ∃ τ, Counted ⟨t, 0, []⟩ τ r.pattern.groupNumbers ∧
    τ.groups = r.groups ∧ τ.names = r.names := by
  rw [read] at h
  cases hrun : (alternatives flags (3 * t.length + 3)).run ⟨t, 0, []⟩ with
  | error refusal =>
      rw [hrun] at h
      cases h
  | ok last =>
      rw [hrun] at h
      obtain ⟨p, τ⟩ := last
      obtain ⟨numbers, rfl, hcounted⟩ := (countsGroups flags _).1 _ p τ hrun
      dsimp only [bind, Except.bind] at h
      split at h
      · cases h
        exact ⟨τ, hcounted, rfl, rfl⟩
      · cases h

/-- The groups are numbered from one in the order in which they stand in the pattern. -/
theorem groupNumbers_of_read : r.pattern.groupNumbers = List.range' 1 r.groups := by
  obtain ⟨τ, hcounted, hgroups, -⟩ := exists_counted_of_read h
  have hlength : r.groups = r.pattern.groupNumbers.length :=
    hgroups.symm.trans (hcounted.groups.trans (Nat.zero_add _))
  rw [hlength]
  exact hcounted.consecutive

theorem groupNumber?_number_eq_some_iff {i : Int} {n : Nat} :
    r.groupNumber? (.number i) = some n ↔ r.HasGroup (.number i) n := by
  have hnumbers := groupNumbers_of_read h
  rw [groupNumber?]
  constructor
  · intro hi
    split at hi
    · rename_i hbounds
      cases hi
      obtain ⟨n, rfl⟩ := Int.eq_ofNat_of_zero_le hbounds.1
      rw [Int.toNat_natCast]
      cases n with
      | zero => exact .whole
      | succ n =>
          refine .numbered ?_
          rw [hnumbers, List.mem_range'_1]
          omega
    · cases hi
  · intro hgroup
    cases hgroup with
    | whole => exact if_pos ⟨Int.le_refl 0, Int.natCast_nonneg _⟩
    | numbered hn =>
        rw [hnumbers, List.mem_range'_1] at hn
        exact if_pos ⟨Int.natCast_nonneg _, by omega⟩

theorem groupNumber?_name_eq_some_iff {name : Text} {n : Nat} :
    r.groupNumber? (.name name) = some n ↔ r.HasGroup (.name name) n := by
  obtain ⟨τ, hcounted, -, hnames⟩ := exists_counted_of_read h
  have hmem := hcounted.mem
  have hnodup := hcounted.nodup List.nodup_nil
  rw [hnames] at hmem hnodup
  rw [groupNumber?, find?_name_eq_some_iff hnodup]
  constructor
  · exact fun hn => .named hn ((hmem _ hn).resolve_left List.not_mem_nil)
  · rintro ⟨⟩
    assumption

theorem groupNumber?_eq_some_iff {key : GroupKey} {n : Nat} :
    r.groupNumber? key = some n ↔ r.HasGroup key n := by
  cases key with
  | number i => exact groupNumber?_number_eq_some_iff h
  | name name => exact groupNumber?_name_eq_some_iff h

theorem groupNumber?_eq_none_iff {key : GroupKey} :
    r.groupNumber? key = none ↔ ¬∃ n, r.HasGroup key n := by
  rw [← Option.not_isSome_iff_eq_none, Option.isSome_iff_exists]
  simp only [groupNumber?_eq_some_iff h]

end

end Regex

end Descent
