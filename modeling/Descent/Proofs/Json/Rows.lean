import Descent.Proofs.Json.Reading

/-!
# Rows of items

The items of an array and the members of an object stand in rows in the same way,
each with a comma or none after it. What the loop over them reads is settled here
once: if single items are read as they are written, then rows are, strict and
loose ones, and what stands between two brackets is.
-/

namespace Descent

namespace Json

open Reading Recipe Document

/-- A comma or a closing bracket: where no item starts. -/
def isStop (c : CodePoint) : Bool := [44, 93, 125].contains c.val

/-- An opening bracket or brace. -/
def isOpening (c : CodePoint) : Bool := [91, 123].contains c.val

/-- A closing bracket or brace. -/
def isClosing (c : CodePoint) : Bool := [93, 125].contains c.val

theorem isStop_of_isClosing {c : CodePoint} (h : isClosing c = true) : isStop c = true := by
  have hc : c.val = 93 ∨ c.val = 125 := by simpa [isClosing] using h
  rcases hc with hc | hc <;> simp [isStop, hc]

theorem ne_comma_of_not_isStop {c : CodePoint} (h : isStop c = false) :
    c ≠ CodePoint.ofChar ',' := by
  rintro rfl
  cases h

theorem ne_comma_of_isClosing {c : CodePoint} (h : isClosing c = true) :
    c ≠ CodePoint.ofChar ',' := by
  rintro rfl
  cases h

theorem not_isBlank_of_isStop {c : CodePoint} (h : isStop c = true) : isBlank c = false := by
  have hc : c.val = 44 ∨ c.val = 93 ∨ c.val = 125 := by simpa [isStop] using h
  rcases hc with hc | hc | hc <;> simp [isBlank, hc]

theorem skipBlanks_closing {c : CodePoint} (h : isClosing c = true) (t : Text) :
    skipBlanks (c :: t) = c :: t :=
  skipBlanks_cons (not_isBlank_of_isStop (isStop_of_isClosing h)) t

/-- How things in a row are written, and what is known of each. -/
structure Row (ι α : Type) where
  /-- What is written, without the comma. -/
  text : ι → Text
  comma : ι → Bool
  value : ι → α
  /-- The depth that it needs. -/
  need : ι → Nat
  /-- What the grammar asks of it, if the text follows. -/
  Fits : ι → Text → Prop

namespace Row

variable {ι α : Type} (R : Row ι α)

def allText : List ι → Text
  | [] => []
  | x :: xs => R.text x ++ commaText (R.comma x) ++ allText xs

@[simp] theorem allText_nil : R.allText [] = [] := rfl

theorem allText_cons_append (x : ι) (xs : List ι) (t : Text) : R.allText (x :: xs) ++ t =
    R.text x ++ (commaText (R.comma x) ++ R.allText xs ++ t) := by
  simp only [allText, List.append_assoc]

def AllFit : List ι → Text → Prop
  | [], _ => True
  | x :: xs, next => R.Fits x (commaText (R.comma x) ++ R.allText xs ++ next) ∧ AllFit xs next

/-- A comma stands after each but the last one. -/
def IsStrict : List ι → Prop
  | [] => True
  | x :: xs => (R.comma x = true ↔ xs ≠ []) ∧ IsStrict xs

def allNeed : List ι → Nat
  | [] => 0
  | x :: xs => max (R.need x) (allNeed xs)

theorem allNeed_cons_le {x : ι} {xs : List ι} {n : Nat} :
    R.allNeed (x :: xs) ≤ n ↔ R.need x ≤ n ∧ R.allNeed xs ≤ n :=
  Nat.max_le

/-- Single things of the row are what `f` reads at that depth. -/
structure IsReadBy (R : Row ι α) (depth : Nat) (f : Text → Reading α) : Prop where
  sound : ∀ {cur a rest}, f cur = .reads a rest → skipBlanks rest = rest ∧
    ∀ comma, ∃ x, R.comma x = comma ∧ R.value x = a ∧ R.Fits x rest ∧ cur = R.text x ++ rest
  complete : ∀ {x next}, R.Fits x next → f (R.text x ++ next) =
    if R.need x ≤ depth then .reads (R.value x) (skipBlanks next) else .overrun
  blanks : ∀ cur, f (skipBlanks cur) = f cur
  stops : 4 ≤ depth → ∀ {c}, isStop c = true → ∀ t, f (c :: t) = .fails
  starts : ∀ {x next}, R.Fits x next →
    ∃ c t, skipBlanks (R.text x ++ next) = c :: t ∧ isStop c = false
  text_ne_nil : ∀ {x next}, R.Fits x next → R.text x ≠ []
  four_le_need : ∀ {x next}, R.Fits x next → 4 ≤ R.need x

end Row

/-! ## Commas -/

theorem skipComma_cons (t : Text) : skipComma (CodePoint.ofChar ',' :: t) = t := by
  simp [skipComma, NumberLiteral.takeSign]

theorem skipComma_of_ne {c : CodePoint} (h : c ≠ CodePoint.ofChar ',') (t : Text) :
    skipComma (c :: t) = c :: t := by
  simp [skipComma, NumberLiteral.takeSign, h]

/-- What is skipped is a comma or nothing. -/
theorem exists_commaText (t : Text) : ∃ comma, t = commaText comma ++ skipComma t := by
  cases t with
  | nil => exact ⟨false, rfl⟩
  | cons c t =>
      by_cases h : c = CodePoint.ofChar ','
      · subst h
        exact ⟨true, by rw [skipComma_cons]; rfl⟩
      · exact ⟨false, by rw [skipComma_of_ne h]; rfl⟩

theorem literalReading_comma (t : Text) :
    literalReading (Descent.text ",") (CodePoint.ofChar ',' :: t) = .reads (Descent.text ",") t :=
  literalReading_append (Descent.text ",") t

/-! ## What is taken from the front -/

section

variable {α : Type}

/-- Whatever is read, something is taken from the front. -/
def Consumes (f : Text → Reading α) : Prop :=
  ∀ cur a rest, f cur = .reads a rest → rest <:+ cur ∧ rest.length < cur.length

theorem suffix_of_eq_append {cur p rest : Text} (h : cur = p ++ rest) (hp : p ≠ []) :
    rest <:+ cur ∧ rest.length < cur.length := by
  subst h
  refine ⟨List.suffix_append p rest, ?_⟩
  rw [List.length_append]
  exact Nat.lt_add_of_pos_left (List.length_pos_iff.2 hp)

namespace Consumes

variable {f : Text → Reading α}

/-- What follows may take nothing. -/
theorem bind {β : Type} (h : Consumes f) {next : α → Text → Reading β}
    (hnext : ∀ a t b rest, next a t = .reads b rest → rest <:+ t) :
    Consumes fun cur => (f cur).bind next := by
  intro cur b rest hread
  obtain ⟨a, t, hf, hb⟩ := bind_eq_reads_iff.1 hread
  obtain ⟨ht, hlt⟩ := h cur a t hf
  have hrest := hnext a t b rest hb
  exact ⟨hrest.trans ht, hrest.length_le.trans_lt hlt⟩

theorem map {β : Type} (h : Consumes f) (g : α → β) : Consumes fun cur => (f cur).map g :=
  h.bind fun _ t _ rest hread => by
    cases hread
    exact List.suffix_refl t

theorem literal {t : Text} (ht : t ≠ []) : Consumes (literalReading t) := fun _ _ _ h =>
  suffix_of_eq_append (literalReading_eq_reads_iff.1 h).1 ht

/-- An item with the comma before it. -/
theorem nextItem (h : Consumes f) : Consumes (nextItemReading f) :=
  (Consumes.literal (List.cons_ne_nil _ _)).bind fun _ t a rest hread => (h t a rest hread).1

/-- An item with the comma that may follow it. -/
theorem looseItem (h : Consumes f) (n : Nat) : Consumes (looseItemReading n f) := by
  refine h.bind fun a t b rest hread => ?_
  obtain ⟨m, -, hcomma⟩ := enter_eq_reads_iff.1 hread
  cases hcomma
  obtain ⟨comma, ht⟩ := exists_commaText t
  exact ⟨commaText comma, ht.symm⟩

/-- A repetition ends where its step fails, and not because a step takes nothing. -/
theorem many_ends (h : Consumes f) {cur rest : Text} {as : List α}
    (hread : Reading.many f cur = .reads as rest) : rest <:+ cur ∧ f rest = .fails := by
  refine many_induction (P := fun cur _ rest => rest <:+ cur ∧ f rest = .fails)
    (fun cur a t hstep => (h cur a t hstep).2) (fun cur hfails => ⟨List.suffix_refl cur, hfails⟩)
    ?_ hread
  intro cur a t _ rest hstep hrest
  exact ⟨hrest.1.trans (h cur a t hstep).1, hrest.2⟩

end Consumes

end

/-! ## Rows as they are read -/

/-- Blanks between brackets are read, if the depth is enough. -/
theorem containerReading_blank {α : Type} (f : Text → Reading α) (strict : Bool)
    (a : CodePoint) {c : CodePoint} (hc : isClosing c = true) {blank : Text}
    (hblank : IsBlank blank) (depth : Nat) (rest : Text) :
    containerReading [a] [c] (depth + 1) (itemsReading strict depth f) (a :: blank ++ c :: rest) =
      if 1 ≤ depth then .reads [] rest else .overrun := by
  have hopen : literalReading [a] (a :: blank ++ c :: rest) = .reads [a] (blank ++ c :: rest) :=
    literalReading_append [a] _
  have hclose : literalReading [c] (skipBlanks (blank ++ c :: rest)) = .reads [c] rest := by
    rw [skipBlanks_append hblank, skipBlanks_closing hc]
    exact literalReading_append [c] rest
  rw [containerReading, enter_succ, hopen, bind_reads, hclose]
  cases depth with
  | zero => rfl
  | succ n => simp

/-- Behind an item and the comma that may follow it the text goes on, up to blanks. -/
theorem skipBlanks_skipComma (comma : Bool) {cur rest : Text} {c : CodePoint}
    (hcur : skipBlanks cur = c :: rest) (hc : c ≠ CodePoint.ofChar ',') :
    skipBlanks (skipComma (skipBlanks (commaText comma ++ cur))) = skipBlanks cur := by
  cases comma with
  | true =>
      have htext : commaText true ++ cur = CodePoint.ofChar ',' :: cur := rfl
      rw [htext, skipBlanks_cons (by decide), skipComma_cons]
  | false =>
      change skipBlanks (skipComma (skipBlanks cur)) = skipBlanks cur
      rw [hcur, skipComma_of_ne hc, ← hcur, skipBlanks_skipBlanks]

namespace Row

namespace IsReadBy

variable {ι α : Type} {R : Row ι α} {depth : Nat} {f : Text → Reading α} {cur rest next : Text}
  {as : List α}

/-- Less than four entries are not enough for anything. -/
theorem overrun_of_lt (h : R.IsReadBy depth f) (hlt : depth < 4) {x : ι} (hfits : R.Fits x next) :
    f (R.text x ++ next) = .overrun := by
  rw [h.complete hfits, if_neg]
  intro hle
  exact absurd (Nat.le_trans (h.four_le_need hfits) hle) (Nat.not_le.2 hlt)

theorem consumes (h : R.IsReadBy depth f) : Consumes f := by
  intro cur a rest hread
  obtain ⟨x, -, -, hfits, hcur⟩ := (h.sound hread).2 true
  exact suffix_of_eq_append hcur (h.text_ne_nil hfits)

/-! ## Loose rows -/

theorem exists_looseItem (h : R.IsReadBy depth f) {a : α}
    (hread : looseItemReading depth f cur = .reads a rest) :
    ∃ x, R.value x = a ∧ R.Fits x (commaText (R.comma x) ++ rest) ∧
      cur = R.text x ++ commaText (R.comma x) ++ rest := by
  obtain ⟨_, t, hf, henter⟩ := bind_eq_reads_iff.1 hread
  obtain ⟨n, -, hcomma⟩ := enter_eq_reads_iff.1 henter
  cases hcomma
  obtain ⟨comma, ht⟩ := exists_commaText t
  obtain ⟨-, hx⟩ := h.sound hf
  obtain ⟨x, rfl, hvalue, hfits, rfl⟩ := hx comma
  rw [ht] at hfits
  refine ⟨x, hvalue, hfits, ?_⟩
  rw [List.append_assoc, ← ht]

/-- The items of a loose row are written as they are read. -/
theorem exists_loose (h : R.IsReadBy depth f)
    (hread : Reading.many (looseItemReading depth f) cur = .reads as rest) :
    ∃ xs, as = xs.map R.value ∧ R.AllFit xs rest ∧ cur = R.allText xs ++ rest := by
  refine many_induction (P := fun cur as rest =>
    ∃ xs, as = xs.map R.value ∧ R.AllFit xs rest ∧ cur = R.allText xs ++ rest)
    (fun cur a t hstep => (h.consumes.looseItem depth cur a t hstep).2) ?_ ?_ hread
  · intro cur _
    exact ⟨[], rfl, trivial, rfl⟩
  · rintro cur a t as rest hstep ⟨xs, rfl, hall, rfl⟩
    obtain ⟨x, rfl, hfits, rfl⟩ := h.exists_looseItem hstep
    refine ⟨x :: xs, rfl, ⟨?_, hall⟩, ?_⟩
    · rwa [List.append_assoc]
    · rw [allText, List.append_assoc, List.append_assoc, List.append_assoc]

/-- What is left behind an item and its comma, up to blanks, is the rest of the row. -/
theorem skipComma_row (h : R.IsReadBy depth f) {c : CodePoint} (hc : isClosing c = true)
    {xs : List ι} (hall : R.AllFit xs (c :: next))
    (comma : Bool) :
    skipBlanks (skipComma (skipBlanks (commaText comma ++ R.allText xs ++ c :: next))) =
        skipBlanks (R.allText xs ++ c :: next) ∧
      (xs = [] → skipComma (skipBlanks (commaText comma ++ R.allText xs ++ c :: next)) =
        c :: next) := by
  rw [List.append_assoc]
  constructor
  · cases xs with
    | nil => exact skipBlanks_skipComma comma (skipBlanks_closing hc next) (ne_comma_of_isClosing hc)
    | cons x xs =>
        obtain ⟨d, t, hskip, hd⟩ := h.starts hall.1
        rw [allText_cons_append]
        exact skipBlanks_skipComma comma hskip (ne_comma_of_not_isStop hd)
  · rintro rfl
    cases comma with
    | true =>
        change skipComma (skipBlanks (CodePoint.ofChar ',' :: c :: next)) = c :: next
        rw [skipBlanks_cons (by decide), skipComma_cons]
    | false =>
        change skipComma (skipBlanks (c :: next)) = c :: next
        rw [skipBlanks_closing hc, skipComma_of_ne (ne_comma_of_isClosing hc)]

/-- The items of a loose row are read as they are written. The place where they are read may
be behind the blanks in front of the first one. -/
theorem many_loose (h : R.IsReadBy depth f) (hdepth : 4 ≤ depth) {c : CodePoint}
    (hc : isClosing c = true) {xs : List ι} (hall : R.AllFit xs (c :: next))
    (hcur : skipBlanks cur = skipBlanks (R.allText xs ++ c :: next))
    (hnil : xs = [] → cur = c :: next) :
    Reading.many (looseItemReading depth f) cur =
      if R.allNeed xs ≤ depth then .reads (xs.map R.value) (c :: next) else .overrun := by
  induction xs generalizing cur with
  | nil =>
      rw [hnil rfl, allNeed, if_pos (Nat.zero_le depth)]
      refine many_of_fails ?_
      rw [looseItemReading, h.stops hdepth (isStop_of_isClosing hc), bind_fails]
  | cons x xs ih =>
      have hstart :
          f cur = f (R.text x ++ (commaText (R.comma x) ++ R.allText xs ++ c :: next)) := by
        rw [← h.blanks, hcur, h.blanks, allText]
        simp only [List.append_assoc]
      rw [h.complete hall.1] at hstart
      by_cases hneed : R.need x ≤ depth
      · obtain ⟨hskip, hlast⟩ := h.skipComma_row hc hall.2 (R.comma x)
        obtain ⟨n, rfl⟩ := Nat.exists_eq_add_of_le hdepth
        have hstep : looseItemReading (4 + n) f cur = .reads (R.value x)
            (skipComma (skipBlanks (commaText (R.comma x) ++ R.allText xs ++ c :: next))) := by
          rw [looseItemReading, hstart, if_pos hneed, bind_reads, Nat.add_comm 4 n]
          rfl
        rw [many_of_reads hstep (h.consumes.looseItem _ _ _ _ hstep).2, ih hall.2 hskip hlast]
        by_cases hrest : R.allNeed xs ≤ 4 + n <;> simp [R.allNeed_cons_le, hneed, hrest]
      · have hall : ¬ R.allNeed (x :: xs) ≤ depth := fun hle => hneed (R.allNeed_cons_le.1 hle).1
        rw [if_neg hneed] at hstart
        rw [if_neg hall]
        refine many_of_overrun ?_
        rw [looseItemReading, hstart, bind_overrun]

/-! ## Strict rows -/

theorem comma_eq_of_isStrict {x : ι} {xs : List ι} (h : R.IsStrict (x :: xs)) :
    R.comma x = !xs.isEmpty := by
  have hiff := h.1
  cases hb : R.comma x <;> cases xs <;> simp_all

/-- Behind an item of a strict row there are no blanks. -/
theorem skipBlanks_strict {c : CodePoint} (hc : isClosing c = true) (xs : List ι) (next : Text) :
    skipBlanks (commaText (!xs.isEmpty) ++ R.allText xs ++ c :: next) =
      commaText (!xs.isEmpty) ++ R.allText xs ++ c :: next := by
  cases xs with
  | nil => exact skipBlanks_closing hc next
  | cons x xs => exact skipBlanks_cons (by decide) _

theorem exists_nextItem (h : R.IsReadBy depth f) {a : α}
    (hread : nextItemReading f cur = .reads a rest) (comma : Bool) :
    ∃ x, R.comma x = comma ∧ R.value x = a ∧ R.Fits x rest ∧
      cur = commaText true ++ R.text x ++ rest := by
  obtain ⟨_, t, hliteral, hf⟩ := bind_eq_reads_iff.1 hread
  obtain ⟨rfl, -⟩ := literalReading_eq_reads_iff.1 hliteral
  obtain ⟨-, hx⟩ := h.sound hf
  obtain ⟨x, hcomma, hvalue, hfits, rfl⟩ := hx comma
  exact ⟨x, hcomma, hvalue, hfits, (List.append_assoc _ _ _).symm⟩

/-- The items after the first one of a strict row are written as they are read. -/
theorem exists_strict (h : R.IsReadBy depth f)
    (hread : Reading.many (nextItemReading f) cur = .reads as rest) :
    ∃ xs, as = xs.map R.value ∧ R.AllFit xs rest ∧ R.IsStrict xs ∧
      cur = commaText (!xs.isEmpty) ++ R.allText xs ++ rest := by
  refine many_induction (P := fun cur as rest =>
    ∃ xs, as = xs.map R.value ∧ R.AllFit xs rest ∧ R.IsStrict xs ∧
      cur = commaText (!xs.isEmpty) ++ R.allText xs ++ rest)
    (fun cur a t hstep => (h.consumes.nextItem cur a t hstep).2) ?_ ?_ hread
  · intro cur _
    exact ⟨[], rfl, trivial, trivial, rfl⟩
  · rintro cur a t as rest hstep ⟨xs, rfl, hall, hstrict, rfl⟩
    obtain ⟨x, hcomma, rfl, hfits, rfl⟩ := h.exists_nextItem hstep (!xs.isEmpty)
    refine ⟨x :: xs, rfl, ⟨?_, hall⟩, ⟨?_, hstrict⟩, ?_⟩
    · rwa [hcomma]
    · rw [hcomma]
      cases xs <;> simp
    · simp [allText, hcomma]

/-- The items after the first one of a strict row are read as they are written. -/
theorem many_strict (h : R.IsReadBy depth f) {c : CodePoint} (hc : isClosing c = true)
    {xs : List ι} (hall : R.AllFit xs (c :: next))
    (hstrict : R.IsStrict xs) :
    Reading.many (nextItemReading f) (commaText (!xs.isEmpty) ++ R.allText xs ++ c :: next) =
      if R.allNeed xs ≤ depth then .reads (xs.map R.value) (c :: next) else .overrun := by
  induction xs with
  | nil =>
      rw [allNeed, if_pos (Nat.zero_le depth)]
      refine many_of_fails ?_
      have hfails : literalReading (Descent.text ",") (c :: next) = .fails := by
        rw [show Descent.text "," = [CodePoint.ofChar ','] from rfl, literalReading_singleton]
        simp [ne_comma_of_isClosing hc]
      change nextItemReading f (c :: next) = .fails
      rw [nextItemReading, hfails, bind_fails]
  | cons x xs ih =>
      have hx : R.comma x = !xs.isEmpty := comma_eq_of_isStrict hstrict
      have htext : commaText (!(x :: xs).isEmpty) ++ R.allText (x :: xs) ++ c :: next =
          CodePoint.ofChar ',' ::
            (R.text x ++ (commaText (!xs.isEmpty) ++ R.allText xs ++ c :: next)) := by
        simp [allText, hx, commaText, Descent.text]
      have hfits := hall.1
      rw [hx] at hfits
      have hstep : nextItemReading f (commaText (!(x :: xs).isEmpty) ++ R.allText (x :: xs) ++
          c :: next) = if R.need x ≤ depth then
            .reads (R.value x) (commaText (!xs.isEmpty) ++ R.allText xs ++ c :: next)
          else .overrun := by
        rw [htext, nextItemReading, literalReading_comma, bind_reads, h.complete hfits,
          skipBlanks_strict hc]
      by_cases hneed : R.need x ≤ depth
      · rw [if_pos hneed] at hstep
        rw [many_of_reads hstep (h.consumes.nextItem _ _ _ hstep).2, ih hall.2 hstrict.2]
        by_cases hrest : R.allNeed xs ≤ depth <;> simp [R.allNeed_cons_le, hneed, hrest]
      · rw [if_neg hneed] at hstep
        rw [many_of_overrun hstep, if_neg fun hle => hneed (R.allNeed_cons_le.1 hle).1]

/-! ## Rows between brackets -/

/-- What is read as items is a row, and a strict one if it has to be. -/
theorem exists_items (h : R.IsReadBy depth f) {strict : Bool}
    (hread : itemsReading strict depth f cur = .reads as rest) :
    ∃ xs, xs ≠ [] ∧ as = xs.map R.value ∧ R.AllFit xs rest ∧ (strict = true → R.IsStrict xs) ∧
      cur = R.allText xs ++ rest := by
  cases strict with
  | true =>
      obtain ⟨a, t, hf, hread⟩ := bind_eq_reads_iff.1 hread
      obtain ⟨bs, hmany, rfl⟩ := map_eq_reads_iff.1 hread
      obtain ⟨xs, rfl, hall, hstrict, rfl⟩ := h.exists_strict hmany
      obtain ⟨-, hx⟩ := h.sound hf
      obtain ⟨x, hcomma, rfl, hfits, rfl⟩ := hx (!xs.isEmpty)
      refine ⟨x :: xs, List.cons_ne_nil x xs, rfl, ⟨?_, hall⟩, fun _ => ⟨?_, hstrict⟩, ?_⟩
      · rwa [hcomma]
      · rw [hcomma]
        cases xs <;> simp
      · simp [allText, hcomma]
  | false =>
      have hmany1 : Reading.many1 (looseItemReading depth f) cur = .reads as rest := hread
      rw [Reading.many1, bind_eq_reads_iff] at hmany1
      obtain ⟨bs, t, hmany, hlast⟩ := hmany1
      obtain ⟨xs, rfl, hall, rfl⟩ := h.exists_loose hmany
      cases xs with
      | nil => cases hlast
      | cons x xs =>
          cases hlast
          exact ⟨x :: xs, List.cons_ne_nil x xs, rfl, hall, by simp, rfl⟩

/-- A row before a closing bracket is read, if the depth is enough. -/
theorem itemsReading_row (h : R.IsReadBy depth f) {strict : Bool} {c : CodePoint}
    (hc : isClosing c = true) {xs : List ι} (hne : xs ≠ [])
    (hall : R.AllFit xs (c :: next)) (hstrict : strict = true → R.IsStrict xs) :
    itemsReading strict depth f (R.allText xs ++ c :: next) =
      if R.allNeed xs ≤ depth then .reads (xs.map R.value) (c :: next) else .overrun := by
  obtain ⟨x, xs, rfl⟩ := List.exists_cons_of_ne_nil hne
  cases strict with
  | true =>
      have hx : R.comma x = !xs.isEmpty := comma_eq_of_isStrict (hstrict rfl)
      rw [itemsReading, if_pos rfl, allText_cons_append, h.complete hall.1]
      by_cases hneed : R.need x ≤ depth
      · rw [if_pos hneed, bind_reads, hx, skipBlanks_strict hc,
          h.many_strict hc hall.2 (hstrict rfl).2]
        by_cases hrest : R.allNeed xs ≤ depth <;> simp [R.allNeed_cons_le, hneed, hrest]
      · rw [if_neg hneed, if_neg fun hle => hneed (R.allNeed_cons_le.1 hle).1, bind_overrun]
  | false =>
      have hloose : itemsReading false depth f (R.allText (x :: xs) ++ c :: next) =
          Reading.many1 (looseItemReading depth f) (R.allText (x :: xs) ++ c :: next) := rfl
      rw [hloose, Reading.many1]
      by_cases hdepth : 4 ≤ depth
      · rw [h.many_loose hdepth hc hall rfl fun hnil => absurd hnil (List.cons_ne_nil x xs)]
        by_cases hneed : R.allNeed (x :: xs) ≤ depth <;> simp [hneed]
      · have hshallow : ¬ R.allNeed (x :: xs) ≤ depth := fun hle =>
          hdepth (Nat.le_trans (h.four_le_need hall.1) (R.allNeed_cons_le.1 hle).1)
        have hstep : looseItemReading depth f (R.allText (x :: xs) ++ c :: next) = .overrun := by
          rw [looseItemReading, allText_cons_append, h.overrun_of_lt (Nat.not_le.1 hdepth) hall.1,
            bind_overrun]
        rw [many_of_overrun hstep, if_neg hshallow, bind_overrun]

/-- What is read between brackets is blanks or a row. -/
theorem exists_container (h : R.IsReadBy depth f) {strict : Bool} {a c : CodePoint}
    (hread : containerReading [a] [c] (depth + 1) (itemsReading strict depth f) cur =
      .reads as rest) :
    (∃ blank, IsBlank blank ∧ as = [] ∧ cur = a :: blank ++ c :: rest) ∨
      ∃ xs, xs ≠ [] ∧ as = xs.map R.value ∧ R.AllFit xs (c :: rest) ∧
        (strict = true → R.IsStrict xs) ∧ cur = a :: R.allText xs ++ c :: rest := by
  rw [containerReading, enter_succ, bind_eq_reads_iff] at hread
  obtain ⟨_, t, hopen, hread⟩ := hread
  obtain ⟨rfl, -⟩ := literalReading_eq_reads_iff.1 hopen
  rw [orElse_eq_reads_iff] at hread
  rcases hread with hempty | ⟨-, hitems⟩
  · obtain ⟨n, -, hempty⟩ := enter_eq_reads_iff.1 hempty
    obtain ⟨_, hclose, rfl⟩ := map_eq_reads_iff.1 hempty
    obtain ⟨hskip, -⟩ := literalReading_eq_reads_iff.1 hclose
    obtain ⟨blank, hblank, ht⟩ := exists_blanks t
    refine .inl ⟨blank, hblank, rfl, ?_⟩
    rw [hskip] at ht
    rw [ht]
    rfl
  · obtain ⟨bs, u, hbs, hclose⟩ := bind_eq_reads_iff.1 hitems
    obtain ⟨_, hlast, rfl⟩ := map_eq_reads_iff.1 hclose
    obtain ⟨rfl, -⟩ := literalReading_eq_reads_iff.1 hlast
    obtain ⟨xs, hne, rfl, hall, hstrict, rfl⟩ := h.exists_items hbs
    exact .inr ⟨xs, hne, rfl, hall, hstrict, rfl⟩

/-- A row between brackets is read, if the depth is enough. -/
theorem containerReading_row (h : R.IsReadBy depth f) {strict : Bool} (a : CodePoint)
    {c : CodePoint} (hc : isClosing c = true) {xs : List ι}
    (hne : xs ≠ []) (hall : R.AllFit xs (c :: rest)) (hstrict : strict = true → R.IsStrict xs) :
    containerReading [a] [c] (depth + 1) (itemsReading strict depth f)
        (a :: R.allText xs ++ c :: rest) =
      if R.allNeed xs ≤ depth then .reads (xs.map R.value) rest else .overrun := by
  have hopen : literalReading [a] (a :: R.allText xs ++ c :: rest) =
      .reads [a] (R.allText xs ++ c :: rest) :=
    literalReading_append [a] _
  rw [containerReading, enter_succ, hopen, bind_reads, h.itemsReading_row hc hne hall hstrict]
  obtain ⟨x, xs, rfl⟩ := List.exists_cons_of_ne_nil hne
  cases depth with
  | zero =>
      have hneed : ¬ R.allNeed (x :: xs) ≤ 0 := fun hle =>
        absurd (Nat.le_trans (h.four_le_need hall.1) (R.allNeed_cons_le.1 hle).1) (by decide)
      rw [enter_zero, orElse_overrun, if_neg hneed]
  | succ n =>
      obtain ⟨d, t, hskip, hd⟩ := h.starts hall.1
      have hne : d ≠ c := by
        rintro rfl
        rw [isStop_of_isClosing hc] at hd
        cases hd
      have hclose :
          literalReading [c] (skipBlanks (R.allText (x :: xs) ++ c :: rest)) = .fails := by
        rw [allText_cons_append, hskip, literalReading_singleton]
        simp [hne]
      rw [enter_succ, hclose, map_fails, orElse_fails]
      by_cases hneed : R.allNeed (x :: xs) ≤ n + 1
      · rw [if_pos hneed, if_pos hneed, bind_reads]
        have hlast : literalReading [c] (c :: rest) = .reads [c] rest :=
          literalReading_append [c] rest
        rw [hlast, map_reads]
      · rw [if_neg hneed, if_neg hneed, bind_overrun]

end IsReadBy

end Row

end Json

end Descent
