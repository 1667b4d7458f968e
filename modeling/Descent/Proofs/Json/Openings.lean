import Descent.Proofs.Json.Values

/-!
# What uses up the depth

A text that the value rule runs out of depth on opens containers in each other. In
each of them there may be values before the next one, but they are complete and give
back the depth that they took. So neither the length of a text nor the number of its
values counts, and what is open at once is bounded from below: four entries go to
each container, and no more than six to a token inside the last one. The other way
round, a text that opens containers in each other runs out of every depth that has
less than four entries for each of them and one more.
-/

namespace Descent

namespace Json

open Reading Recipe Document

namespace Row

variable {ι α : Type}

/-- The things are complete when the text goes on, and each has its comma if it needs one. -/
structure Precede (R : Row ι α) (strict : Bool) (xs : List ι) (t : Text) : Prop where
  fit : R.AllFit xs t
  comma : strict = true → ∀ x ∈ xs, R.comma x = true

namespace Precede

variable {R : Row ι α} {strict : Bool} {x : ι} {xs : List ι} {t : Text}

theorem nil (R : Row ι α) (strict : Bool) (t : Text) : R.Precede strict [] t :=
  ⟨trivial, fun _ => List.forall_mem_nil _⟩

theorem cons (h : R.Precede strict xs t) (hx : strict = true → R.comma x = true)
    (hfits : R.Fits x (commaText (R.comma x) ++ (R.allText xs ++ t))) :
    R.Precede strict (x :: xs) t where
  fit := ⟨by rwa [List.append_assoc], h.fit⟩
  comma hs := List.forall_mem_cons.2 ⟨hx hs, h.comma hs⟩

end Precede

end Row

/-- Inside so many containers, each of them in the one before, the text opens yet another one.
The values that stand before it in each of them are complete, and the grammar reads them. -/
inductive OpensWithin (o : Options) : Nat → Text → Prop where
  | here {blank : Text} {c : CodePoint} (hblank : IsBlank blank) (hc : isOpening c = true)
    (t : Text) : OpensWithin o 0 (blank ++ c :: t)
  | array {n : Nat} {blank t : Text} {items : List Item} (hblank : IsBlank blank)
    (hitems : (itemRow o).Precede o.strict items t) (ht : OpensWithin o n t) :
    OpensWithin o (n + 1) (blank ++ CodePoint.ofChar '[' :: ((itemRow o).allText items ++ t))
  | object {n : Nat} {blank beforeKey afterKey t : Text} {members : List Member}
    {key : List StringPiece} (hblank : IsBlank blank)
    (hmembers : (memberRow o).Precede o.strict members
      (beforeKey ++ (stringText key ++ (afterKey ++ CodePoint.ofChar ':' :: t))))
    (hbefore : IsBlank beforeKey) (hkey : ∀ p ∈ key, p.WellFormed) (hafter : IsBlank afterKey)
    (ht : OpensWithin o n t) :
    OpensWithin o (n + 1) (blank ++ CodePoint.ofChar '\x7b' :: ((memberRow o).allText members ++
      (beforeKey ++ (stringText key ++ (afterKey ++ CodePoint.ofChar ':' :: t)))))

namespace OpensWithin

variable {o : Options} {n : Nat} {t : Text}

end OpensWithin

/-! ## Tokens -/

theorem unitReading_ne_overrun (t : Text) : unitReading t ≠ .overrun := by
  unfold unitReading
  split
  · split <;> simp
  · simp

theorem escapeReading_ne_overrun (depth : Nat) (t : Text) :
    escapeReading (depth + 1) t ≠ .overrun := by
  cases t with
  | nil => simp [escapeReading]
  | cons c t =>
      rw [escapeReading, enter_succ]
      split
      · simp
      · split
        · simp
        · split
          · exact unitReading_ne_overrun t
          · simp

theorem pieceReading_ne_overrun (depth : Nat) (t : Text) :
    pieceReading (depth + 2) t ≠ .overrun := by
  cases t with
  | nil => simp
  | cons c t =>
      rw [pieceReading, enter_succ]
      dsimp only
      split
      · simp
      · split
        · exact escapeReading_ne_overrun depth t
        · simp

/-- Three entries are enough to find out about a string. -/
theorem stringReading_ne_overrun (o : Options) {depth : Nat} (h : 3 ≤ depth) (t : Text) :
    stringReading o depth t ≠ .overrun := by
  obtain ⟨n, rfl⟩ := Nat.exists_eq_add_of_le' h
  intro hover
  rw [stringReading, enter_succ, bind_eq_overrun_iff] at hover
  obtain hquote | ⟨_, u, -, hrest⟩ := hover
  · exact literalReading_ne_overrun _ _ hquote
  obtain hclose | ⟨-, hbody⟩ := orElse_eq_overrun_iff.1 hrest
  · exact literalReading_ne_overrun _ _ (map_eq_overrun_iff.1 hclose)
  obtain hpieces | ⟨_, w, -, hlast⟩ := bind_eq_overrun_iff.1 hbody
  · exact many_ne_overrun (pieceReading_ne_overrun n) u (many1_eq_overrun_iff.1 hpieces)
  · exact literalReading_ne_overrun _ _ (map_eq_overrun_iff.1 hlast)

/-- Two entries are enough to find out about a number. -/
theorem numberReading_ne_overrun {depth : Nat} (h : 2 ≤ depth) (t : Text) :
    numberReading depth t ≠ .overrun := by
  obtain ⟨n, rfl⟩ := Nat.exists_eq_add_of_le' h
  rw [numberReading, enter_succ]
  dsimp only
  split
  · simp
  · rw [enter_succ]
    unfold literalNumber
    split <;> simp

/-! ## Rows that run out of depth -/

namespace Row

namespace IsReadBy

variable {ι α : Type} {R : Row ι α} {depth : Nat} {f : Text → Reading α} {cur : Text}

theorem exists_of_strict_overrun (h : R.IsReadBy depth f)
    (hread : Reading.many (nextItemReading f) cur = .overrun) :
    ∃ xs t, R.Precede true xs t ∧ f t = .overrun ∧
      cur = commaText true ++ (R.allText xs ++ t) := by
  refine many_overrun_induction (P := fun cur => ∃ xs t, R.Precede true xs t ∧ f t = .overrun ∧
    cur = commaText true ++ (R.allText xs ++ t)) ?_ ?_ hread
  · intro cur hover
    obtain hcomma | ⟨_, t, hcomma, ht⟩ := bind_eq_overrun_iff.1 hover
    · exact absurd hcomma (literalReading_ne_overrun _ _)
    · obtain ⟨rfl, -⟩ := literalReading_eq_reads_iff.1 hcomma
      exact ⟨[], t, .nil R true t, ht, rfl⟩
  · rintro cur a rest hstep ⟨xs, t, hxs, ht, rfl⟩
    obtain ⟨x, hcomma, -, hfits, rfl⟩ := h.exists_nextItem hstep true
    refine ⟨x :: xs, t, hxs.cons (fun _ => hcomma) (by rwa [hcomma]), ht, ?_⟩
    rw [allText_cons_append, hcomma]
    simp only [List.append_assoc]

theorem exists_of_loose_overrun (h : R.IsReadBy depth f)
    (hread : Reading.many (looseItemReading depth f) cur = .overrun) :
    ∃ xs t, R.Precede false xs t ∧ f t = .overrun ∧ cur = R.allText xs ++ t := by
  refine many_overrun_induction (P := fun cur => ∃ xs t, R.Precede false xs t ∧ f t = .overrun ∧
    cur = R.allText xs ++ t) ?_ ?_ hread
  · intro cur hover
    obtain ht | ⟨a, t, hitem, henter⟩ := bind_eq_overrun_iff.1 hover
    · exact ⟨[], cur, .nil R false cur, ht, rfl⟩
    · -- an item that is read leaves the depth for its comma
      obtain rfl | ⟨_, -, hlast⟩ := enter_eq_overrun_iff.1 henter
      · obtain ⟨-, hx⟩ := h.sound hitem
        obtain ⟨x, -, -, hfits, rfl⟩ := hx true
        rw [h.overrun_of_lt (by decide) hfits] at hitem
        cases hitem
      · cases hlast
  · rintro cur a rest hstep ⟨xs, t, hxs, ht, rfl⟩
    obtain ⟨x, -, hfits, rfl⟩ := h.exists_looseItem hstep
    refine ⟨x :: xs, t, hxs.cons (fun hs => absurd hs Bool.false_ne_true) hfits, ht, ?_⟩
    rw [allText_cons_append]
    simp only [List.append_assoc]

/-- A row that runs out of depth does so in one of its things, and those before it are
complete. -/
theorem exists_of_items_overrun (h : R.IsReadBy depth f) {strict : Bool}
    (hread : itemsReading strict depth f cur = .overrun) :
    ∃ xs t, R.Precede strict xs t ∧ f t = .overrun ∧ cur = R.allText xs ++ t := by
  cases strict with
  | true =>
      obtain hfirst | ⟨a, rest, hfirst, hmany⟩ := bind_eq_overrun_iff.1 hread
      · exact ⟨[], cur, .nil R true cur, hfirst, rfl⟩
      · obtain ⟨xs, t, hxs, ht, rfl⟩ := h.exists_of_strict_overrun (map_eq_overrun_iff.1 hmany)
        obtain ⟨-, hx⟩ := h.sound hfirst
        obtain ⟨x, hcomma, -, hfits, rfl⟩ := hx true
        refine ⟨x :: xs, t, hxs.cons (fun _ => hcomma) (by rwa [hcomma]), ht, ?_⟩
        rw [allText_cons_append, hcomma]
        simp only [List.append_assoc]
  | false => exact h.exists_of_loose_overrun (many1_eq_overrun_iff.1 hread)

/-- A container that runs out of depth does so in one of its things. -/
theorem exists_of_container_overrun (h : R.IsReadBy depth f) (hdepth : 1 ≤ depth) {strict : Bool}
    {a c : CodePoint}
    (hread : containerReading [a] [c] (depth + 1) (itemsReading strict depth f) cur = .overrun) :
    ∃ xs t, R.Precede strict xs t ∧ f t = .overrun ∧ cur = a :: (R.allText xs ++ t) := by
  obtain ⟨n, rfl⟩ := Nat.exists_eq_add_of_le' hdepth
  rw [containerReading, enter_succ, bind_eq_overrun_iff] at hread
  obtain hopen | ⟨_, u, hopen, hread⟩ := hread
  · exact absurd hopen (literalReading_ne_overrun _ _)
  obtain ⟨rfl, -⟩ := literalReading_eq_reads_iff.1 hopen
  obtain hempty | ⟨-, hitems⟩ := orElse_eq_overrun_iff.1 hread
  · rw [enter_succ, map_eq_overrun_iff] at hempty
    exact absurd hempty (literalReading_ne_overrun _ _)
  obtain hitems | ⟨_, w, -, hclose⟩ := bind_eq_overrun_iff.1 hitems
  · obtain ⟨xs, t, hxs, ht, rfl⟩ := h.exists_of_items_overrun hitems
    exact ⟨xs, t, hxs, ht, rfl⟩
  · exact absurd (map_eq_overrun_iff.1 hclose) (literalReading_ne_overrun _ _)

end IsReadBy

end Row

/-! ## Values that run out of depth -/

section

variable {o : Options} {n : Nat} {t : Text}

/-- A token that runs out of depth is a container, if the depth is enough for the others. -/
theorem exists_of_tokenReading_overrun {f : Text → Reading Value} (hn : 2 ≤ n)
    (h : tokenReading o n f t = .overrun) :
    arrayReading o n f t = .overrun ∨ objectReading o n f t = .overrun := by
  simp only [tokenReading, choice_cons, choice_nil, orElse_fails_right, orElse_eq_overrun_iff] at h
  rcases h with h | ⟨-, h | ⟨-, h | ⟨-, h | ⟨-, h | ⟨-, h | ⟨-, h⟩⟩⟩⟩⟩⟩
  · exact absurd (map_eq_overrun_iff.1 h) (stringReading_ne_overrun o (Nat.succ_le_succ hn) t)
  · exact absurd h (numberReading_ne_overrun (Nat.le_succ_of_le hn) t)
  · exact .inl h
  · exact .inr h
  · exact absurd (map_eq_overrun_iff.1 h) (literalReading_ne_overrun _ t)
  · exact absurd (map_eq_overrun_iff.1 h) (literalReading_ne_overrun _ t)
  · exact absurd (map_eq_overrun_iff.1 h) (literalReading_ne_overrun _ t)

theorem exists_of_arrayReading_overrun (hn : 1 ≤ n)
    (h : arrayReading o n (valueReading o n) t = .overrun) :
    ∃ items u, (itemRow o).Precede o.strict items u ∧ valueReading o n u = .overrun ∧
      t = CodePoint.ofChar '[' :: ((itemRow o).allText items ++ u) :=
  (isReadBy o n).1.exists_of_container_overrun (a := CodePoint.ofChar '[')
    (c := CodePoint.ofChar ']') hn (map_eq_overrun_iff.1 h)

/-- A pair that runs out of depth does so in its value, if the depth is enough for its key. -/
theorem exists_of_pairReading_overrun {f : Text → Reading Value} (hn : 4 ≤ n)
    (h : pairReading o n f t = .overrun) :
    ∃ beforeKey key afterKey u, IsBlank beforeKey ∧ (∀ p ∈ key, p.WellFormed) ∧
      IsBlank afterKey ∧ f u = .overrun ∧
      t = beforeKey ++ (stringText key ++ (afterKey ++ CodePoint.ofChar ':' :: u)) := by
  obtain ⟨m, rfl⟩ := Nat.exists_eq_add_of_le' hn
  rw [pairReading, enter_succ, bind_eq_overrun_iff] at h
  obtain hkey | ⟨_, w, hkey, h⟩ := h
  · exact absurd hkey (stringReading_ne_overrun o (Nat.le_add_left 3 m) _)
  obtain hcolon | ⟨_, u, hcolon, h⟩ := bind_eq_overrun_iff.1 h
  · exact absurd hcolon (literalReading_ne_overrun _ _)
  obtain ⟨key, hwf, htext, -⟩ := exists_pieces_of_stringReading hkey
  obtain ⟨beforeKey, hbefore, ht⟩ := exists_blanks t
  obtain ⟨afterKey, hafter, hw⟩ := exists_blanks w
  rw [(literalReading_eq_reads_iff.1 hcolon).1] at hw
  refine ⟨beforeKey, key, afterKey, u, hbefore, hwf, hafter, map_eq_overrun_iff.1 h, ?_⟩
  rw [ht, htext, hw]
  rfl

theorem exists_of_objectReading_overrun (hn : 1 ≤ n)
    (h : objectReading o n (valueReading o n) t = .overrun) :
    ∃ members u, (memberRow o).Precede o.strict members u ∧
      pairReading o n (valueReading o n) u = .overrun ∧
      t = CodePoint.ofChar '\x7b' :: ((memberRow o).allText members ++ u) :=
  (isReadBy o n).2.exists_of_container_overrun (a := CodePoint.ofChar '\x7b')
    (c := CodePoint.ofChar '\x7d') hn (map_eq_overrun_iff.1 h)

/-- A value that runs out of depth is a container, if the depth is enough for the others. -/
theorem exists_of_valueReading_overrun (hn : 2 ≤ n) (h : valueReading o (n + 4) t = .overrun) :
    ∃ blank u, IsBlank blank ∧ t = blank ++ u ∧ (arrayReading o n (valueReading o n) u = .overrun ∨
      objectReading o n (valueReading o n) u = .overrun) := by
  obtain ⟨blank, hblank, ht⟩ := exists_blanks t
  rw [valueReading_add_four, bind_eq_overrun_iff] at h
  obtain htoken | ⟨_, _, -, hlast⟩ := h
  · exact ⟨blank, skipBlanks t, hblank, ht, exists_of_tokenReading_overrun hn htoken⟩
  · cases hlast

/-- A text that runs out of depth opens a container inside as many others as there is depth
for. -/
theorem opensWithin_of_overrun {k : Nat} (h : valueReading o n t = .overrun)
    (hn : 4 * k + 6 ≤ n) : OpensWithin o k t := by
  induction k generalizing n t with
  | zero =>
      obtain ⟨m, rfl⟩ := Nat.exists_eq_add_of_le' (show 4 ≤ n by omega)
      obtain ⟨blank, u, hblank, rfl, hu⟩ := exists_of_valueReading_overrun (by omega) h
      obtain harray | hobject := hu
      · obtain ⟨_, _, -, -, rfl⟩ := exists_of_arrayReading_overrun (by omega) harray
        exact .here hblank (by decide) _
      · obtain ⟨_, _, -, -, rfl⟩ := exists_of_objectReading_overrun (by omega) hobject
        exact .here hblank (by decide) _
  | succ k ih =>
      obtain ⟨m, rfl⟩ := Nat.exists_eq_add_of_le' (show 4 ≤ n by omega)
      obtain ⟨blank, u, hblank, rfl, hu⟩ := exists_of_valueReading_overrun (by omega) h
      obtain harray | hobject := hu
      · obtain ⟨items, w, hitems, hw, rfl⟩ := exists_of_arrayReading_overrun (by omega) harray
        exact .array hblank hitems (ih hw (by omega))
      · obtain ⟨members, w, hmembers, hpair, rfl⟩ :=
          exists_of_objectReading_overrun (by omega) hobject
        obtain ⟨beforeKey, key, afterKey, v, hbefore, hkey, hafter, hv, rfl⟩ :=
          exists_of_pairReading_overrun (by omega) hpair
        exact .object hblank hmembers hbefore hkey hafter (ih hv (by omega))

end

/-! ## Containers that are open -/

namespace OpensWithin

variable {o : Options} {k : Nat} {t : Text}

/-- What opens a container starts with its bracket or brace, behind blanks. -/
theorem exists_head (h : OpensWithin o k t) :
    ∃ c u, skipBlanks t = c :: u ∧ isStop c = false := by
  have hhead {blank : Text} (hblank : IsBlank blank) {c : CodePoint} (hc : isOpening c = true)
      (u : Text) : ∃ d v, skipBlanks (blank ++ c :: u) = d :: v ∧ isStop d = false := by
    have hval : c.val = 91 ∨ c.val = 123 := by simpa [isOpening] using hc
    refine ⟨c, u, ?_, by rcases hval with hval | hval <;> simp [isStop, hval]⟩
    rw [skipBlanks_append hblank]
    exact skipBlanks_cons (by rcases hval with hval | hval <;> simp [isBlank, hval]) u
  cases h with
  | here hblank hc t => exact hhead hblank hc t
  | array hblank _ _ => exact hhead hblank (by decide) _
  | object hblank _ _ _ _ _ => exact hhead hblank (by decide) _

end OpensWithin

section

variable {α : Type} {strict : Bool} {depth : Nat} {f : Text → Reading α} {t : Text}

theorem itemsReading_of_overrun (h : f t = .overrun) :
    itemsReading strict depth f t = .overrun := by
  cases strict with
  | true =>
      rw [itemsReading, if_pos rfl, h, bind_overrun]
  | false =>
      have hitem : looseItemReading depth f t = .overrun := by
        rw [looseItemReading, h, bind_overrun]
      change Reading.many1 (looseItemReading depth f) t = .overrun
      rw [Reading.many1, many_of_overrun hitem, bind_overrun]

/-- A container that is not empty runs out of depth if its items do. -/
theorem containerReading_of_overrun {a c : CodePoint}
    (hclose : depth ≠ 0 → ∃ d u, skipBlanks t = d :: u ∧ d ≠ c)
    (h : itemsReading strict depth f t = .overrun) :
    containerReading [a] [c] (depth + 1) (itemsReading strict depth f) (a :: t) = .overrun := by
  have hopen : literalReading [a] (a :: t) = .reads [a] t := literalReading_append [a] t
  rw [containerReading, enter_succ, hopen, bind_reads, h]
  cases depth with
  | zero => rfl
  | succ n =>
      obtain ⟨d, u, hskip, hne⟩ := hclose (Nat.succ_ne_zero n)
      rw [enter_succ, hskip, literalReading_cons_of_ne hne]
      rfl

end

namespace Row.IsReadBy

variable {ι α : Type} {R : Row ι α} {strict : Bool} {depth : Nat} {f : Text → Reading α}
  {xs : List ι} {t u cur : Text} {c : CodePoint}

/-- What starts behind the items of a row, or the first of these. -/
theorem exists_first (h : R.IsReadBy depth f) (hxs : R.AllFit xs t) (ht : skipBlanks t = c :: u)
    (hc : isStop c = false) : ∃ d v, skipBlanks (R.allText xs ++ t) = d :: v ∧ isStop d = false := by
  cases xs with
  | nil => exact ⟨c, u, ht, hc⟩
  | cons x xs =>
      rw [allText_cons_append]
      exact h.starts hxs.1

/-- After a comma, a strict row comes to the place where the depth is used up. -/
theorem many_next_of_overrun (h : R.IsReadBy depth f) (hxs : R.Precede true xs t)
    (ht : f t = .overrun) :
    Reading.many (nextItemReading f) (CodePoint.ofChar ',' :: (R.allText xs ++ t)) = .overrun := by
  have hstep (cur : Text) : nextItemReading f (CodePoint.ofChar ',' :: cur) = f cur := by
    rw [nextItemReading, literalReading_comma, bind_reads]
  induction xs with
  | nil => exact many_of_overrun ((hstep t).trans ht)
  | cons x xs ih =>
      have hcomma : R.comma x = true := hxs.comma rfl x List.mem_cons_self
      have hrest : R.Precede true xs t :=
        ⟨hxs.fit.2, fun hs y hy => hxs.comma hs y (List.mem_cons_of_mem x hy)⟩
      have hx := (hstep (R.allText (x :: xs) ++ t)).trans
        ((congrArg f (R.allText_cons_append x xs t)).trans (h.complete hxs.fit.1))
      rw [hcomma] at hx
      by_cases hneed : R.need x ≤ depth
      · have hskip : skipBlanks (commaText true ++ R.allText xs ++ t) =
            CodePoint.ofChar ',' :: (R.allText xs ++ t) := skipBlanks_cons (by decide) _
        rw [if_pos hneed, hskip] at hx
        rw [many_of_reads hx (h.consumes.nextItem _ _ _ hx).2, ih hrest, map_overrun]
      · rw [if_neg hneed] at hx
        exact many_of_overrun hx

/-- A loose row comes to the place where the depth is used up. The place where it is read may be
behind the blanks in front of the first item. -/
theorem many_loose_of_overrun (h : R.IsReadBy depth f) (hxs : R.AllFit xs t) (ht : f t = .overrun)
    (hstart : skipBlanks t = c :: u) (hc : isStop c = false)
    (hcur : skipBlanks cur = skipBlanks (R.allText xs ++ t)) :
    Reading.many (looseItemReading depth f) cur = .overrun := by
  have hover (h : f cur = .overrun) : Reading.many (looseItemReading depth f) cur = .overrun :=
    many_of_overrun (by rw [looseItemReading, h, bind_overrun])
  have hread : f cur = f (R.allText xs ++ t) := by rw [← h.blanks, hcur, h.blanks]
  induction xs generalizing cur with
  | nil => exact hover (hread.trans ht)
  | cons x xs ih =>
      rw [allText_cons_append, h.complete hxs.1] at hread
      by_cases hneed : R.need x ≤ depth
      · obtain ⟨n, rfl⟩ := Nat.exists_eq_add_of_le' (Nat.le_trans (h.four_le_need hxs.1) hneed)
        obtain ⟨d, v, hd, hstop⟩ := h.exists_first hxs.2 hstart hc
        have hstep : looseItemReading (n + 4) f cur = .reads (R.value x)
            (skipComma (skipBlanks (commaText (R.comma x) ++ (R.allText xs ++ t)))) := by
          rw [looseItemReading, hread, if_pos hneed, bind_reads, List.append_assoc]
          rfl
        have hnext := skipBlanks_skipComma (R.comma x) hd (ne_comma_of_not_isStop hstop)
        have hrest := ih hxs.2 hnext
          (fun h => many_of_overrun (by rw [looseItemReading, h, bind_overrun]))
          (by rw [← h.blanks, hnext, h.blanks])
        rw [many_of_reads hstep (h.consumes.looseItem _ _ _ _ hstep).2, hrest, map_overrun]
      · rw [if_neg hneed] at hread
        exact hover hread

/-- Complete items do not help if the depth is used up behind them. -/
theorem itemsReading_of_precede (h : R.IsReadBy depth f) (hxs : R.Precede strict xs t)
    (ht : f t = .overrun) (hstart : skipBlanks t = c :: u) (hc : isStop c = false) :
    itemsReading strict depth f (R.allText xs ++ t) = .overrun := by
  cases strict with
  | true =>
      cases xs with
      | nil => exact itemsReading_of_overrun ht
      | cons x xs =>
          have hcomma : R.comma x = true := hxs.comma rfl x List.mem_cons_self
          have hrest : R.Precede true xs t :=
            ⟨hxs.fit.2, fun hs y hy => hxs.comma hs y (List.mem_cons_of_mem x hy)⟩
          rw [itemsReading, if_pos rfl, allText_cons_append, h.complete hxs.fit.1, hcomma]
          by_cases hneed : R.need x ≤ depth
          · have hskip : skipBlanks (commaText true ++ R.allText xs ++ t) =
                CodePoint.ofChar ',' :: (R.allText xs ++ t) := skipBlanks_cons (by decide) _
            rw [if_pos hneed, bind_reads, hskip, h.many_next_of_overrun hrest ht, map_overrun]
          · rw [if_neg hneed, bind_overrun]
  | false =>
      change Reading.many1 (looseItemReading depth f) _ = .overrun
      rw [many1_eq_overrun_iff]
      exact h.many_loose_of_overrun hxs.fit ht hstart hc rfl

end Row.IsReadBy

/-- A key that is there, and a value that runs out of depth. -/
theorem pairReading_of_overrun {o : Options} {n : Nat} {f : Text → Reading Value}
    {beforeKey afterKey t : Text} {key : List StringPiece} (hbefore : IsBlank beforeKey)
    (hkey : ∀ p ∈ key, p.WellFormed) (hafter : IsBlank afterKey) (h : f t = .overrun) :
    pairReading o n f (beforeKey ++ (stringText key ++ (afterKey ++ CodePoint.ofChar ':' :: t))) =
      .overrun := by
  have hquote (u : Text) : skipBlanks (beforeKey ++ (stringText key ++ u)) = stringText key ++ u := by
    rw [skipBlanks_append hbefore]
    exact skipBlanks_cons (by decide) _
  have hcolon : literalReading (text ":") (skipBlanks (afterKey ++ CodePoint.ofChar ':' :: t)) =
      .reads (text ":") t := by
    rw [skipBlanks_append hafter, skipBlanks_cons (by decide)]
    exact literalReading_append (text ":") t
  cases n with
  | zero => rw [pairReading, enter_zero]
  | succ m =>
      rw [pairReading, enter_succ, hquote, stringReading_stringText hkey]
      by_cases hm : piecesNeed key ≤ m
      · rw [if_pos hm, bind_reads, hcolon, bind_reads, h, map_overrun]
      · rw [if_neg hm, bind_overrun]

section

variable {o : Options} {n : Nat} {blank t u : Text} {c : CodePoint}

/-- An array whose items run out of depth, and whose brackets are not empty if there is depth to
find that out. -/
theorem valueReading_array_of_overrun (hblank : IsBlank blank)
    (hstart : n ≠ 0 → ∃ d v, skipBlanks u = d :: v ∧ isStop d = false)
    (h : itemsReading o.strict n (valueReading o n) u = .overrun) :
    valueReading o (n + 4) (blank ++ CodePoint.ofChar '[' :: u) = .overrun := by
  have hclose : n ≠ 0 → ∃ d v, skipBlanks u = d :: v ∧ d ≠ CodePoint.ofChar ']' := by
    intro hn
    obtain ⟨d, v, hskip, hd⟩ := hstart hn
    refine ⟨d, v, hskip, ?_⟩
    rintro rfl
    cases hd
  have hread : arrayReading o n (valueReading o n) (CodePoint.ofChar '[' :: u) = .overrun :=
    congrArg (Reading.map Value.list) (containerReading_of_overrun hclose h)
  rw [valueReading_add_four, skipBlanks_append hblank, skipBlanks_cons (by decide),
    tokenReading_bracket, hread, bind_overrun]

/-- An object, in the same way. -/
theorem valueReading_object_of_overrun (hblank : IsBlank blank)
    (hstart : n ≠ 0 → ∃ d v, skipBlanks u = d :: v ∧ isStop d = false)
    (h : itemsReading o.strict n (pairReading o n (valueReading o n)) u = .overrun) :
    valueReading o (n + 4) (blank ++ CodePoint.ofChar '\x7b' :: u) = .overrun := by
  have hclose : n ≠ 0 → ∃ d v, skipBlanks u = d :: v ∧ d ≠ CodePoint.ofChar '\x7d' := by
    intro hn
    obtain ⟨d, v, hskip, hd⟩ := hstart hn
    refine ⟨d, v, hskip, ?_⟩
    rintro rfl
    cases hd
  have hread : objectReading o n (valueReading o n) (CodePoint.ofChar '\x7b' :: u) = .overrun :=
    congrArg (Reading.map dictOf) (containerReading_of_overrun hclose h)
  rw [valueReading_add_four, skipBlanks_append hblank, skipBlanks_cons (by decide),
    tokenReading_brace, hread, bind_overrun]

/-- Each container that is open takes four entries, so a text that opens one inside too many
others runs out of depth, whatever else it has. -/
theorem OpensWithin.overrun {k : Nat} (h : OpensWithin o k t) (hn : n ≤ 4 * k + 4) :
    valueReading o n t = .overrun := by
  induction h generalizing n with
  | @here blank c hblank hc t =>
      by_cases hlt : n < 4
      · exact valueReading_of_lt o hlt _
      · obtain rfl : n = 0 + 4 := by omega
        have hval : c.val = 91 ∨ c.val = 123 := by simpa [isOpening] using hc
        have hitem : valueReading o 0 t = .overrun := valueReading_of_lt o (by decide) t
        rcases hval with hval | hval
        · obtain rfl : c = CodePoint.ofChar '[' := CodePoint.ext_val hval
          exact valueReading_array_of_overrun hblank (absurd rfl) (itemsReading_of_overrun hitem)
        · obtain rfl : c = CodePoint.ofChar '\x7b' := CodePoint.ext_val hval
          exact valueReading_object_of_overrun hblank (absurd rfl) (itemsReading_of_overrun rfl)
  | @array k blank t items hblank hitems ht ih =>
      by_cases hlt : n < 4
      · exact valueReading_of_lt o hlt _
      · obtain ⟨m, rfl⟩ := Nat.exists_eq_add_of_le' (Nat.not_lt.1 hlt)
        obtain ⟨c, u, hstart, hc⟩ := ht.exists_head
        have hread := (isReadBy o m).1
        exact valueReading_array_of_overrun hblank
          (fun _ => hread.exists_first hitems.fit hstart hc)
          (hread.itemsReading_of_precede hitems (ih (by omega)) hstart hc)
  | @object k blank beforeKey afterKey t members key hblank hmembers hbefore hkey hafter _ ih =>
      by_cases hlt : n < 4
      · exact valueReading_of_lt o hlt _
      · obtain ⟨m, rfl⟩ := Nat.exists_eq_add_of_le' (Nat.not_lt.1 hlt)
        have hstart := (skipBlanks_append hbefore (stringText key ++ (afterKey ++
          CodePoint.ofChar ':' :: t))).trans (skipBlanks_cons (by decide) _)
        have hread := (isReadBy o m).2
        exact valueReading_object_of_overrun hblank
          (fun _ => hread.exists_first hmembers.fit hstart (by decide))
          (hread.itemsReading_of_precede hmembers
            (pairReading_of_overrun hbefore hkey hafter (ih (by omega))) hstart (by decide))

end

end Json

end Descent
