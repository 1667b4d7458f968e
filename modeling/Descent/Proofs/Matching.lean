import Descent.Pattern.Match

/-!
# What a search finds is a match

A run of a pattern hands on the ends of matches and nothing else, in whatever order it tries
them. So a search finds a match at a place of the text, and what remains after it is a suffix
of the text.
-/

namespace Descent

namespace Pattern

variable {α : Type} {p : Pattern} {c : CharSet} {s u v : Place} {g h k : Captures}

theorem Rounds.trans {m n : Nat} (hm : Rounds p m s g u h) (hn : Rounds p n u h v k) :
    Rounds p (m + n) s g v k := by
  induction m generalizing s g with
  | zero =>
      cases hm
      rw [Nat.zero_add]
      exact hn
  | succ m ih =>
      cases hm with
      | next hfirst hrest =>
          rw [Nat.add_right_comm]
          exact .next hfirst (ih hrest)

/-- All that `body` hands on is as the relation says. -/
def HandsOn (R : Place → Captures → Place → Captures → Prop)
    (body : Place → Captures → Next α → Option α) : Prop :=
  ∀ s g next r, body s g next = some r → ∃ u h, R s g u h ∧ next u h = some r

section

variable {body : Place → Captures → Next α → Option α} (hbody : HandsOn (Match p) body)
include hbody

theorem handsOn_rounds (n : Nat) : HandsOn (Rounds p n) (rounds body n) := by
  induction n with
  | zero => exact fun s g next r hr => ⟨s, g, .none, hr⟩
  | succ n ih =>
      intro s g next r hr
      obtain ⟨u, h, hfirst, hr⟩ := hbody s g _ r hr
      obtain ⟨v, k, hrest, hr⟩ := ih u h next r hr
      exact ⟨v, k, .next hfirst hrest, hr⟩

theorem handsOn_upTo (greedy : Bool) (n : Nat) :
    HandsOn (fun s g u h => ∃ m ≤ n, Rounds p m s g u h) (upTo greedy body n) := by
  induction n with
  | zero => exact fun s g next r hr => ⟨s, g, ⟨0, Nat.le_refl 0, .none⟩, hr⟩
  | succ n ih =>
      intro s g next r hr
      have hnone (hr : next s g = some r) :
          ∃ u h, (∃ m ≤ n + 1, Rounds p m s g u h) ∧ next u h = some r :=
        ⟨s, g, ⟨0, Nat.zero_le _, .none⟩, hr⟩
      have hmore (hr : (body s g fun s' g' =>
            if s'.index = s.index then next s' g' else upTo greedy body n s' g' next) = some r) :
          ∃ u h, (∃ m ≤ n + 1, Rounds p m s g u h) ∧ next u h = some r := by
        obtain ⟨u, h, hfirst, hr⟩ := hbody s g _ r hr
        split at hr
        · exact ⟨u, h, ⟨1, Nat.le_add_left 1 n, .next hfirst .none⟩, hr⟩
        · obtain ⟨v, k, ⟨m, hm, hrest⟩, hr⟩ := ih u h next r hr
          exact ⟨v, k, ⟨m + 1, Nat.succ_le_succ hm, .next hfirst hrest⟩, hr⟩
      rw [upTo] at hr
      split at hr
      · split at hr
        · rename_i hfound
          cases hr
          exact hmore hfound
        · exact hnone hr
      · split at hr
        · rename_i hfound
          cases hr
          exact hnone hfound
        · exact hmore hr

end

theorem rounds_of_skip? {n : Nat} (hu : skip? c n s = some u) (g : Captures) :
    Rounds (.set c) n s g u g := by
  induction n generalizing s with
  | zero =>
      cases hu
      exact .none
  | succ n ih =>
      rw [skip?] at hu
      split at hu
      · cases hu
      · rename_i x t hrest
        split at hu
        · rename_i hx
          exact .next (.set hrest hx) (ih hu)
        · cases hu

/-- The place after some code points of the set, and no more than so many. -/
def IsSpan (c : CharSet) (most : Option Nat) (s u : Place) : Prop :=
  ∃ n, (∀ m ∈ most, n ≤ m) ∧ ∀ g, Rounds (.set c) n s g u g

theorem isSpan_self (c : CharSet) (most : Option Nat) (s : Place) : IsSpan c most s s :=
  ⟨0, fun _ _ => Nat.zero_le _, fun _ => .none⟩

theorem isSpan_of_mem_spanPlaces {most : Option Nat} {index : Nat} {previous : Option CodePoint}
    {t : Text} {places : List Place} (hu : u ∈ spanPlaces c most index previous t places) :
    u ∈ places ∨ IsSpan c most ⟨index, previous, t⟩ u := by
  induction t generalizing most index previous places with
  | nil =>
      rcases List.mem_cons.1 hu with rfl | hu
      · exact .inr (isSpan_self c most _)
      · exact .inl hu
  | cons x t ih =>
      rw [spanPlaces] at hu
      split at hu
      · rcases List.mem_cons.1 hu with rfl | hu
        · exact .inr (isSpan_self c most _)
        · exact .inl hu
      · rename_i hgo
        simp only [Bool.or_eq_true, decide_eq_true_eq, Bool.not_eq_true', not_or,
          Bool.not_eq_false] at hgo
        obtain ⟨hmost, hx⟩ := hgo
        rcases ih hu with hu | ⟨n, hn, hrounds⟩
        · rcases List.mem_cons.1 hu with rfl | hu
          · exact .inr (isSpan_self c most _)
          · exact .inl hu
        · refine .inr ⟨n + 1, fun m hm => ?_, fun g => .next (.set rfl hx) (hrounds g)⟩
          have hle : n ≤ m - 1 := hn (m - 1) (Option.mem_map_of_mem (· - 1) hm)
          have hpos : m ≠ 0 := by
            rintro rfl
            exact hmost hm
          omega

/-- What a run hands on are ends of matches, with their captures. -/
theorem handsOn_run (p : Pattern) : HandsOn (α := α) (Match p) p.run := by
  induction p with
  | empty => exact fun s g next r hr => ⟨s, g, .empty, hr⟩
  | set c =>
      intro s g next r hr
      rw [run] at hr
      split at hr
      · cases hr
      · rename_i x t hrest
        split at hr
        · rename_i hx
          exact ⟨s.after x t, g, .set hrest hx, hr⟩
        · cases hr
  | start everyLine =>
      intro s g next r hr
      rw [run] at hr
      split at hr
      · rename_i hs
        exact ⟨s, g, .start hs, hr⟩
      · cases hr
  | stop everyLine =>
      intro s g next r hr
      rw [run] at hr
      split at hr
      · rename_i hs
        exact ⟨s, g, .stop hs, hr⟩
      · cases hr
  | seq p q ihp ihq =>
      intro s g next r hr
      obtain ⟨u, h, hp, hr⟩ := ihp s g _ r hr
      obtain ⟨v, k, hq, hr⟩ := ihq u h next r hr
      exact ⟨v, k, .seq hp hq, hr⟩
  | alt p q ihp ihq =>
      intro s g next r hr
      rw [run] at hr
      split at hr
      · rename_i hfound
        cases hr
        obtain ⟨u, h, hp, hr⟩ := ihp s g next r hfound
        exact ⟨u, h, .left hp, hr⟩
      · obtain ⟨u, h, hq, hr⟩ := ihq s g next r hr
        exact ⟨u, h, .right hq, hr⟩
  | group n p ih =>
      intro s g next r hr
      obtain ⟨u, h, hp, hr⟩ := ih s g _ r hr
      exact ⟨u, _, .group hp, hr⟩
  | span c least most greedy =>
      intro s g next r hr
      rw [run] at hr
      split at hr
      · cases hr
      · rename_i t hskip
        obtain ⟨u, hu, hr⟩ := List.exists_of_findSome?_eq_some hr
        have hmem : u ∈ spanPlaces c (most.map (· - least)) t.index t.previous t.rest [] := by
          split at hu
          · exact hu
          · exact List.mem_reverse.1 hu
        obtain ⟨n, hn, hrounds⟩ := (isSpan_of_mem_spanPlaces hmem).resolve_left (List.not_mem_nil)
        refine ⟨u, g, .span (Nat.le_add_right least n) (fun m hm => ?_)
          ((rounds_of_skip? hskip g).trans (hrounds g)), hr⟩
        have hle : n ≤ m - least := hn _ (Option.mem_map_of_mem (· - least) hm)
        omega
  | repeated p least most greedy ih =>
      intro s g next r hr
      obtain ⟨u, h, hleast, hr⟩ := handsOn_rounds ih least s g _ r hr
      obtain ⟨v, k, ⟨n, hn, hmore⟩, hr⟩ := handsOn_upTo ih greedy _ u h next r hr
      refine ⟨v, k, .repeated (Nat.le_add_right least n) (fun m hm => ?_) (hleast.trans hmore), hr⟩
      have hle : n ≤ m - least := by
        rw [Option.mem_def.1 hm] at hn
        exact Nat.le_trans hn (Nat.min_le_left _ _)
      omega

/-! ## Places -/

mutual

theorem Match.rest_suffix : ∀ {p : Pattern} {s u : Place} {g h : Captures},
    Match p s g u h → u.rest <:+ s.rest
  | _, _, _, _, _, .empty => List.suffix_refl _
  | _, _, _, _, _, .set hrest _ => hrest ▸ List.suffix_cons _ _
  | _, _, _, _, _, .start _ => List.suffix_refl _
  | _, _, _, _, _, .stop _ => List.suffix_refl _
  | _, _, _, _, _, .seq hp hq => hq.rest_suffix.trans hp.rest_suffix
  | _, _, _, _, _, .left hp => hp.rest_suffix
  | _, _, _, _, _, .right hq => hq.rest_suffix
  | _, _, _, _, _, .group hp => hp.rest_suffix
  | _, _, _, _, _, .span _ _ hrounds => hrounds.rest_suffix
  | _, _, _, _, _, .repeated _ _ hrounds => hrounds.rest_suffix

theorem Rounds.rest_suffix : ∀ {p : Pattern} {n : Nat} {s u : Place} {g h : Captures},
    Rounds p n s g u h → u.rest <:+ s.rest
  | _, _, _, _, _, _, .none => List.suffix_refl _
  | _, _, _, _, _, _, .next hfirst hrest => hrest.rest_suffix.trans hfirst.rest_suffix

end

theorem PlaceOf.rest_suffix {t : Text} (hs : PlaceOf t s) : s.rest <:+ t := by
  induction hs with
  | first => exact List.suffix_refl t
  | after _ hrest ih => exact (hrest ▸ List.suffix_cons _ _ : _ <:+ _).trans ih

theorem matchAt?_eq_some (hm : p.matchAt? s = some (u, g)) : Match p s [] u g := by
  obtain ⟨v, k, hmatch, hr⟩ := handsOn_run p s [] _ _ hm
  cases hr
  exact hmatch

theorem searchFrom?_eq_some {t : Text} {f : Found} (hs : PlaceOf t s)
    (hf : p.searchFrom? s.index s.previous s.rest = some f) :
    PlaceOf t f.first ∧ Match p f.first [] f.last f.captures := by
  obtain ⟨index, previous, rest⟩ := s
  induction rest generalizing index previous with
  | nil =>
      rw [searchFrom?] at hf
      split at hf
      · rename_i hm
        cases hf
        exact ⟨hs, matchAt?_eq_some hm⟩
      · cases hf
  | cons c rest ih =>
      rw [searchFrom?] at hf
      split at hf
      · rename_i hm
        cases hf
        exact ⟨hs, matchAt?_eq_some hm⟩
      · exact ih (index + 1) (some c) (.after hs rfl) hf

/-- A search finds a match at a place of the text. -/
theorem search?_eq_some {t : Text} {f : Found} (hf : p.search? t = some f) :
    PlaceOf t f.first ∧ Match p f.first [] f.last f.captures := by
  rw [search?] at hf
  split at hf
  · obtain ⟨⟨last, captures⟩, hm, rfl⟩ := Option.map_eq_some_iff.1 hf
    exact ⟨.first, matchAt?_eq_some hm⟩
  · exact searchFrom?_eq_some .first hf

theorem rest_suffix_of_search? {t : Text} {f : Found} (hf : p.search? t = some f) :
    f.last.rest <:+ t := by
  obtain ⟨hfirst, hmatch⟩ := search?_eq_some hf
  exact hmatch.rest_suffix.trans hfirst.rest_suffix

end Pattern

end Descent
