import Descent.Proofs.Matching

/-!
# Where matches end

What the groups hold before a match plays no part in it, so where matches end is a relation
between places. Rounds of a repetition that consume nothing may be left out, and of the others
there are no more than code points that are left: the bounds that a search puts on the rounds
leave no place out.
-/

namespace Descent

namespace Place

/-- Going on in a text, one code point after the other. -/
inductive Reaches (s : Place) : Place → Prop where
  | refl : Reaches s s
  | after {u : Place} {x : CodePoint} {t : Text} :
      Reaches s u → u.rest = x :: t → Reaches s (u.after x t)

namespace Reaches

variable {s u v : Place}

theorem trans (hu : s.Reaches u) (hv : u.Reaches v) : s.Reaches v := by
  induction hv with
  | refl => exact hu
  | after _ hrest ih => exact .after ih hrest

theorem eq_or_index_lt (hu : s.Reaches u) : u = s ∨ s.index < u.index := by
  induction hu with
  | refl => exact .inl rfl
  | after _ _ ih =>
      rcases ih with rfl | hlt
      · exact .inr (Nat.lt_succ_self _)
      · exact .inr (Nat.lt_succ_of_lt hlt)

theorem index_add_length (hu : s.Reaches u) :
    u.index + u.rest.length = s.index + s.rest.length := by
  induction hu with
  | refl => rfl
  | @after u x t _ hrest ih =>
      rw [← ih, hrest, List.length_cons, Place.after]
      exact Nat.add_right_comm u.index 1 t.length

theorem eq_of_index_eq (hu : s.Reaches u) (h : u.index = s.index) : u = s :=
  hu.eq_or_index_lt.resolve_right (Nat.not_lt.2 (Nat.le_of_eq h))

theorem length_lt (hu : s.Reaches u) (h : u.index ≠ s.index) : u.rest.length < s.rest.length := by
  have hindex : s.index < u.index :=
    hu.eq_or_index_lt.resolve_left fun hsame => h (congrArg index hsame)
  have hsum := hu.index_add_length
  omega

end Reaches

end Place

namespace Pattern

variable {p q : Pattern} {c : CharSet} {s u v : Place}

/-! ## Places where matches end -/

mutual

theorem Match.reaches : ∀ {p : Pattern} {s u : Place} {g h : Captures},
    Match p s g u h → s.Reaches u
  | _, _, _, _, _, .empty => .refl
  | _, _, _, _, _, .set hrest _ => .after .refl hrest
  | _, _, _, _, _, .start _ => .refl
  | _, _, _, _, _, .stop _ => .refl
  | _, _, _, _, _, .seq hp hq => hp.reaches.trans hq.reaches
  | _, _, _, _, _, .left hp => hp.reaches
  | _, _, _, _, _, .right hq => hq.reaches
  | _, _, _, _, _, .group hp => hp.reaches
  | _, _, _, _, _, .span _ _ hrounds => hrounds.reaches
  | _, _, _, _, _, .repeated _ _ hrounds => hrounds.reaches

theorem Rounds.reaches : ∀ {p : Pattern} {n : Nat} {s u : Place} {g h : Captures},
    Rounds p n s g u h → s.Reaches u
  | _, _, _, _, _, _, .none => .refl
  | _, _, _, _, _, _, .next hfirst hrest => hfirst.reaches.trans hrest.reaches

end

mutual

/-- What the groups hold before a match plays no part in it. -/
theorem Match.exists_of_captures : ∀ {p : Pattern} {s u : Place} {g h : Captures},
    Match p s g u h → ∀ k, ∃ l, Match p s k u l
  | _, _, _, _, _, .empty, k => ⟨k, .empty⟩
  | _, _, _, _, _, .set hrest hx, k => ⟨k, .set hrest hx⟩
  | _, _, _, _, _, .start hs, k => ⟨k, .start hs⟩
  | _, _, _, _, _, .stop hs, k => ⟨k, .stop hs⟩
  | _, _, _, _, _, .seq hp hq, k => by
      obtain ⟨l, hp⟩ := hp.exists_of_captures k
      obtain ⟨m, hq⟩ := hq.exists_of_captures l
      exact ⟨m, .seq hp hq⟩
  | _, _, _, _, _, .left hp, k => by
      obtain ⟨l, hp⟩ := hp.exists_of_captures k
      exact ⟨l, .left hp⟩
  | _, _, _, _, _, .right hq, k => by
      obtain ⟨l, hq⟩ := hq.exists_of_captures k
      exact ⟨l, .right hq⟩
  | _, _, _, _, _, .group hp, k => by
      obtain ⟨l, hp⟩ := hp.exists_of_captures k
      exact ⟨_, .group hp⟩
  | _, _, _, _, _, .span hleast hmost hrounds, k => by
      obtain ⟨l, hrounds⟩ := hrounds.exists_of_captures k
      exact ⟨l, .span hleast hmost hrounds⟩
  | _, _, _, _, _, .repeated hleast hmost hrounds, k => by
      obtain ⟨l, hrounds⟩ := hrounds.exists_of_captures k
      exact ⟨l, .repeated hleast hmost hrounds⟩

theorem Rounds.exists_of_captures : ∀ {p : Pattern} {n : Nat} {s u : Place} {g h : Captures},
    Rounds p n s g u h → ∀ k, ∃ l, Rounds p n s k u l
  | _, _, _, _, _, _, .none, k => ⟨k, .none⟩
  | _, _, _, _, _, _, .next hfirst hrest, k => by
      obtain ⟨l, hfirst⟩ := hfirst.exists_of_captures k
      obtain ⟨m, hrest⟩ := hrest.exists_of_captures l
      exact ⟨m, .next hfirst hrest⟩

end

/-- The pattern matches what lies between the two places. -/
def Joins (p : Pattern) (s u : Place) : Prop := ∃ g h, Match p s g u h

/-- So many matches of the pattern, one after the other, lie between the two places. -/
def JoinsIn (p : Pattern) (n : Nat) (s u : Place) : Prop := ∃ g h, Rounds p n s g u h

theorem joins_empty : Joins .empty s u ↔ u = s := by
  constructor
  · rintro ⟨g, h, ⟨⟩⟩
    rfl
  · rintro rfl
    exact ⟨[], [], .empty⟩

theorem joins_set : Joins (.set c) s u ↔
    ∃ x t, s.rest = x :: t ∧ c.contains x = true ∧ u = s.after x t := by
  constructor
  · rintro ⟨g, h, hmatch⟩
    cases hmatch with
    | set hrest hx => exact ⟨_, _, hrest, hx, rfl⟩
  · rintro ⟨x, t, hrest, hx, rfl⟩
    exact ⟨[], [], .set hrest hx⟩

theorem joins_start {everyLine : Bool} :
    Joins (.start everyLine) s u ↔ s.isStart everyLine = true ∧ u = s := by
  constructor
  · rintro ⟨g, h, hmatch⟩
    cases hmatch with
    | start hs => exact ⟨hs, rfl⟩
  · rintro ⟨hs, rfl⟩
    exact ⟨[], [], .start hs⟩

theorem joins_stop {everyLine : Bool} :
    Joins (.stop everyLine) s u ↔ s.isStop everyLine = true ∧ u = s := by
  constructor
  · rintro ⟨g, h, hmatch⟩
    cases hmatch with
    | stop hs => exact ⟨hs, rfl⟩
  · rintro ⟨hs, rfl⟩
    exact ⟨[], [], .stop hs⟩

theorem joins_seq : Joins (.seq p q) s v ↔ ∃ u, Joins p s u ∧ Joins q u v := by
  constructor
  · rintro ⟨g, k, hmatch⟩
    cases hmatch with
    | seq hp hq => exact ⟨_, ⟨_, _, hp⟩, ⟨_, _, hq⟩⟩
  · rintro ⟨u, ⟨g, h, hp⟩, ⟨k, l, hq⟩⟩
    obtain ⟨m, hq⟩ := hq.exists_of_captures h
    exact ⟨g, m, .seq hp hq⟩

theorem joins_alt : Joins (.alt p q) s u ↔ Joins p s u ∨ Joins q s u := by
  constructor
  · rintro ⟨g, h, hmatch⟩
    cases hmatch with
    | left hp => exact .inl ⟨_, _, hp⟩
    | right hq => exact .inr ⟨_, _, hq⟩
  · rintro (⟨g, h, hp⟩ | ⟨g, h, hq⟩)
    · exact ⟨g, h, .left hp⟩
    · exact ⟨g, h, .right hq⟩

theorem joins_group {n : Nat} : Joins (.group n p) s u ↔ Joins p s u := by
  constructor
  · rintro ⟨g, h, hmatch⟩
    cases hmatch with
    | group hp => exact ⟨_, _, hp⟩
  · rintro ⟨g, h, hp⟩
    exact ⟨g, _, .group hp⟩

section

variable {least n : Nat} {most : Option Nat} {greedy : Bool}

theorem joins_span : Joins (.span c least most greedy) s u ↔
    ∃ n, least ≤ n ∧ (∀ m ∈ most, n ≤ max least m) ∧ JoinsIn (.set c) n s u := by
  constructor
  · rintro ⟨g, h, hmatch⟩
    cases hmatch with
    | span hleast hmost hrounds => exact ⟨_, hleast, hmost, _, _, hrounds⟩
  · rintro ⟨n, hleast, hmost, g, h, hrounds⟩
    exact ⟨g, h, .span hleast hmost hrounds⟩

theorem joins_repeated : Joins (.repeated p least most greedy) s u ↔
    ∃ n, least ≤ n ∧ (∀ m ∈ most, n ≤ max least m) ∧ JoinsIn p n s u := by
  constructor
  · rintro ⟨g, h, hmatch⟩
    cases hmatch with
    | repeated hleast hmost hrounds => exact ⟨_, hleast, hmost, _, _, hrounds⟩
  · rintro ⟨n, hleast, hmost, g, h, hrounds⟩
    exact ⟨g, h, .repeated hleast hmost hrounds⟩

end

theorem Joins.reaches (h : Joins p s u) : s.Reaches u := by
  obtain ⟨_, _, hmatch⟩ := h
  exact hmatch.reaches

/-! ## Rounds -/

theorem joinsIn_zero : JoinsIn p 0 s u ↔ u = s := by
  constructor
  · rintro ⟨g, h, ⟨⟩⟩
    rfl
  · rintro rfl
    exact ⟨[], [], .none⟩

theorem joinsIn_succ {n : Nat} : JoinsIn p (n + 1) s v ↔ ∃ u, Joins p s u ∧ JoinsIn p n u v := by
  constructor
  · rintro ⟨g, k, hrounds⟩
    cases hrounds with
    | next hfirst hrest => exact ⟨_, ⟨_, _, hfirst⟩, ⟨_, _, hrest⟩⟩
  · rintro ⟨u, ⟨g, h, hfirst⟩, ⟨k, l, hrest⟩⟩
    obtain ⟨m, hrest⟩ := hrest.exists_of_captures h
    exact ⟨g, m, .next hfirst hrest⟩

/-- On to a place and from there to another one. -/
theorem exists_through {R A : Place → Prop} {S : Place → Place → Prop} :
    (∃ u, R u ∧ ∃ v, S u v ∧ A v) ↔ ∃ v, (∃ u, R u ∧ S u v) ∧ A v := by
  constructor
  · rintro ⟨u, hR, v, hS, hv⟩
    exact ⟨v, ⟨u, hR, hS⟩, hv⟩
  · rintro ⟨v, ⟨u, hR, hS⟩, hv⟩
    exact ⟨u, hR, v, hS, hv⟩

theorem joinsIn_add {m n : Nat} :
    JoinsIn p (m + n) s v ↔ ∃ u, JoinsIn p m s u ∧ JoinsIn p n u v := by
  induction m generalizing s with
  | zero => simp only [Nat.zero_add, joinsIn_zero, exists_eq_left]
  | succ m ih =>
      rw [Nat.add_right_comm]
      simp only [joinsIn_succ, ih]
      exact exists_through

/-- Up to so many rounds lie between the two places. -/
def JoinsUpTo (p : Pattern) (n : Nat) (s u : Place) : Prop := ∃ m ≤ n, JoinsIn p m s u

theorem joinsUpTo_zero : JoinsUpTo p 0 s u ↔ u = s := by
  constructor
  · rintro ⟨m, hm, h⟩
    cases Nat.le_zero.1 hm
    exact joinsIn_zero.1 h
  · exact fun h => ⟨0, Nat.le_refl 0, joinsIn_zero.2 h⟩

/-- Of rounds that join two places none need come first that consumes nothing. -/
theorem joinsUpTo_succ {n : Nat} : JoinsUpTo p (n + 1) s v ↔
    v = s ∨ ∃ u, Joins p s u ∧ if u.index = s.index then v = u else JoinsUpTo p n u v := by
  constructor
  · rintro ⟨m, hm, h⟩
    induction m with
    | zero => exact .inl (joinsIn_zero.1 h)
    | succ m ih =>
        obtain ⟨u, hfirst, hrest⟩ := joinsIn_succ.1 h
        by_cases hsame : u.index = s.index
        · cases hfirst.reaches.eq_of_index_eq hsame
          exact ih (Nat.le_of_succ_le hm) hrest
        · refine .inr ⟨u, hfirst, ?_⟩
          rw [if_neg hsame]
          exact ⟨m, Nat.le_of_succ_le_succ hm, hrest⟩
  · rintro (rfl | ⟨u, hfirst, hrest⟩)
    · exact ⟨0, Nat.zero_le _, joinsIn_zero.2 rfl⟩
    · split at hrest
      · cases hrest
        exact ⟨1, Nat.le_add_left 1 n, joinsIn_succ.2 ⟨v, hfirst, joinsIn_zero.2 rfl⟩⟩
      · obtain ⟨m, hm, hrest⟩ := hrest
        exact ⟨m + 1, Nat.succ_le_succ hm, joinsIn_succ.2 ⟨u, hfirst, hrest⟩⟩

/-- There are no more rounds than code points, but for rounds that consume nothing. -/
theorem JoinsIn.exists_le_length {n : Nat} (h : JoinsIn p n s u) :
    ∃ m ≤ n, m ≤ s.rest.length ∧ JoinsIn p m s u := by
  induction n generalizing s with
  | zero => exact ⟨0, Nat.le_refl 0, Nat.zero_le _, h⟩
  | succ n ih =>
      obtain ⟨v, hfirst, hrest⟩ := joinsIn_succ.1 h
      obtain ⟨m, hm, hlength, hrest⟩ := ih hrest
      by_cases hsame : v.index = s.index
      · cases hfirst.reaches.eq_of_index_eq hsame
        exact ⟨m, Nat.le_succ_of_le hm, hlength, hrest⟩
      · have hlt : v.rest.length < s.rest.length := hfirst.reaches.length_lt hsame
        exact ⟨m + 1, Nat.succ_le_succ hm, by omega, joinsIn_succ.2 ⟨v, hfirst, hrest⟩⟩

/-- The rounds of a repetition are those that must be, and then some of the optional ones. -/
theorem joins_repeated_iff {least : Nat} {most : Option Nat} {greedy : Bool} :
    Joins (.repeated p least most greedy) s v ↔ ∃ u, JoinsIn p least s u ∧
      JoinsUpTo p (optionalRounds least most u.rest.length) u v := by
  rw [joins_repeated]
  constructor
  · rintro ⟨n, hleast, hmost, h⟩
    rw [← Nat.add_sub_cancel' hleast] at h
    obtain ⟨u, hfirst, hmore⟩ := joinsIn_add.1 h
    obtain ⟨m, hm, hlength, hmore⟩ := hmore.exists_le_length
    refine ⟨u, hfirst, m, ?_, hmore⟩
    cases most with
    | none => exact Nat.le_succ_of_le hlength
    | some k =>
        have hn : n ≤ max least k := hmost k rfl
        exact Nat.le_min.2 ⟨by omega, Nat.le_succ_of_le hlength⟩
  · rintro ⟨u, hfirst, m, hm, hmore⟩
    refine ⟨least + m, Nat.le_add_right least m, ?_, joinsIn_add.2 ⟨u, hfirst, hmore⟩⟩
    rintro k ⟨⟩
    have hn : m ≤ k - least := (Nat.le_min.1 hm).1
    omega

theorem joinsIn_set_iff_skip? {n : Nat} : JoinsIn (.set c) n s u ↔ skip? c n s = some u := by
  constructor
  · intro h
    induction n generalizing s with
    | zero => rw [skip?, joinsIn_zero.1 h]
    | succ n ih =>
        obtain ⟨v, hfirst, hrest⟩ := joinsIn_succ.1 h
        obtain ⟨x, t, hs, hx, rfl⟩ := joins_set.1 hfirst
        rw [skip?, hs]
        exact (if_pos hx).trans (ih hrest)
  · exact fun h => ⟨[], [], rounds_of_skip? h []⟩

theorem mem_spanPlaces_of_mem {most : Option Nat} {index : Nat} {previous : Option CodePoint}
    {t : Text} {places : List Place} (hu : u ∈ places) :
    u ∈ spanPlaces c most index previous t places := by
  induction t generalizing most index previous places with
  | nil => exact List.mem_cons_of_mem _ hu
  | cons x t ih =>
      rw [spanPlaces]
      split
      · exact List.mem_cons_of_mem _ hu
      · exact ih (List.mem_cons_of_mem _ hu)

/-- The place where a span starts is one of its places, after no round. -/
theorem mem_spanPlaces_self (most : Option Nat) (index : Nat) (previous : Option CodePoint)
    (t : Text) (places : List Place) :
    ⟨index, previous, t⟩ ∈ spanPlaces c most index previous t places := by
  cases t with
  | nil => exact List.mem_cons_self
  | cons x t =>
      rw [spanPlaces]
      split
      · exact List.mem_cons_self
      · exact mem_spanPlaces_of_mem List.mem_cons_self

theorem mem_spanPlaces_of_joinsIn {n : Nat} {most : Option Nat} {index : Nat}
    {previous : Option CodePoint} {t : Text} {places : List Place} (hn : ∀ m ∈ most, n ≤ m)
    (h : JoinsIn (.set c) n ⟨index, previous, t⟩ u) :
    u ∈ spanPlaces c most index previous t places := by
  induction n generalizing most index previous t places with
  | zero =>
      obtain rfl := joinsIn_zero.1 h
      exact mem_spanPlaces_self most index previous t places
  | succ n ih =>
      obtain ⟨v, hfirst, hrest⟩ := joinsIn_succ.1 h
      obtain ⟨x, t, rfl, hx, rfl⟩ := joins_set.1 hfirst
      have hmost : most ≠ some 0 := by
        rintro rfl
        exact absurd (hn 0 rfl) (Nat.not_succ_le_zero n)
      rw [spanPlaces, if_neg (by simp [hmost, hx])]
      refine ih (fun m hm => ?_) hrest
      obtain ⟨k, hk, rfl⟩ := Option.map_eq_some_iff.1 hm
      exact Nat.le_sub_one_of_lt (hn k hk)

theorem mem_spanPlaces_iff {most : Option Nat} {index : Nat} {previous : Option CodePoint}
    {t : Text} {places : List Place} : u ∈ spanPlaces c most index previous t places ↔
      u ∈ places ∨ ∃ n, (∀ m ∈ most, n ≤ m) ∧ JoinsIn (.set c) n ⟨index, previous, t⟩ u := by
  constructor
  · intro hu
    rcases isSpan_of_mem_spanPlaces hu with hu | ⟨n, hn, hrounds⟩
    · exact .inl hu
    · exact .inr ⟨n, hn, [], [], hrounds []⟩
  · rintro (hu | ⟨n, hn, h⟩)
    · exact mem_spanPlaces_of_mem hu
    · exact mem_spanPlaces_of_joinsIn hn h

theorem joins_span_iff {least : Nat} {most : Option Nat} {greedy : Bool} :
    Joins (.span c least most greedy) s v ↔ ∃ u, skip? c least s = some u ∧
      v ∈ spanPlaces c (most.map (· - least)) u.index u.previous u.rest [] := by
  simp only [joins_span, mem_spanPlaces_iff, List.not_mem_nil, false_or, ← joinsIn_set_iff_skip?]
  constructor
  · rintro ⟨n, hleast, hmost, h⟩
    rw [← Nat.add_sub_cancel' hleast] at h
    obtain ⟨u, hfirst, hmore⟩ := joinsIn_add.1 h
    refine ⟨u, hfirst, n - least, fun m hm => ?_, hmore⟩
    obtain ⟨k, hk, rfl⟩ := Option.map_eq_some_iff.1 hm
    have hn : n ≤ max least k := hmost k hk
    omega
  · rintro ⟨u, hfirst, n, hn, hmore⟩
    refine ⟨least + n, Nat.le_add_right least n, fun k hk => ?_, joinsIn_add.2 ⟨u, hfirst, hmore⟩⟩
    have hle : n ≤ k - least := hn _ (Option.mem_map_of_mem (· - least) hk)
    omega

end Pattern

end Descent
