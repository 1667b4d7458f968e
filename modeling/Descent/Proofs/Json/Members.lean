import Descent.Proofs.Depth
import Descent.Proofs.Json.Progress
import Descent.Proofs.Json.TokenRules
import Descent.Proofs.Json.Trees

/-!
# Members of objects

The pairs of an object are what the string rule and the value rule give where they are
asked themselves, one pair after the other, with the separators between them that the
options allow. The object rule has an outcome where there are such pairs, and there are no
others: none is lost where one item ends and the next begins, and none is counted twice.
The outcome is the dictionary of the pairs. What stands between two brackets is settled
for any items that are read as they are written.
-/

namespace Descent

namespace Json

open Eval Reading Recipe Document

variable {α ι : Type}

/-! ## Items between brackets -/

/-- What stands between an item and what follows it is a comma or nothing. If separators are
strict, it is a comma if and only if the item is not the last one. -/
def IsSeparated (strict last : Bool) (t u : Text) : Prop :=
  ∃ comma, t = commaText comma ++ u ∧ (strict = true → comma = !last)

/-- Items with their separators, and the closing bracket. -/
inductive IsItemRow (strict : Bool) (closing : CodePoint) (Item : Text → α → Text → Prop) :
    Text → List α → Text → Prop where
  | nil (rest : Text) : IsItemRow strict closing Item (closing :: rest) [] rest
  | cons {cur t u rest : Text} {a : α} {items : List α} (item : Item cur a t)
      (separated : IsSeparated strict items.isEmpty t u)
      (row : IsItemRow strict closing Item u items rest) :
      IsItemRow strict closing Item cur (a :: items) rest

/-- Two brackets with blanks between them, or with a row of items. -/
def IsContainer (strict : Bool) (opening closing : CodePoint) (Item : Text → α → Text → Prop)
    (cur : Text) (items : List α) (rest : Text) : Prop :=
  ∃ t, cur = opening :: t ∧ (items = [] ∧ skipBlanks t = closing :: rest ∨
    items ≠ [] ∧ IsItemRow strict closing Item t items rest)

/-- The reading takes the item from the front and leaves the rest. -/
def Takes (f : Text → Reading α) (cur : Text) (a : α) (rest : Text) : Prop :=
  f cur = .reads a rest

section

variable {strict : Bool} {opening closing : CodePoint} {Item Item' : Text → α → Text → Prop}
  {R : Row ι α} {f : Text → Reading α} {n : Nat} {cur t u rest : Text} {a : α} {items : List α}

theorem IsItemRow.mono (h : ∀ cur a rest, Item cur a rest → Item' cur a rest)
    (hrow : IsItemRow strict closing Item cur items rest) :
    IsItemRow strict closing Item' cur items rest := by
  induction hrow with
  | nil rest => exact .nil rest
  | cons item separated _ ih => exact .cons (h _ _ _ item) separated ih

theorem IsContainer.mono (h : ∀ cur a rest, Item cur a rest → Item' cur a rest)
    (hitems : IsContainer strict opening closing Item cur items rest) :
    IsContainer strict opening closing Item' cur items rest := by
  obtain ⟨t, hcur, hempty | ⟨hne, hrow⟩⟩ := hitems
  · exact ⟨t, hcur, .inl hempty⟩
  · exact ⟨t, hcur, .inr ⟨hne, hrow.mono h⟩⟩

namespace Row.IsReadBy

/-- Where an item is read there are four entries left, and no stop stands behind the blanks. -/
theorem exists_start (h : R.IsReadBy n f) (hread : f cur = .reads a rest) :
    4 ≤ n ∧ ∃ c t, skipBlanks cur = c :: t ∧ isStop c = false := by
  obtain ⟨x, -, -, hfits, rfl⟩ := (h.sound hread).2 true
  refine ⟨Nat.not_lt.1 fun hlt => ?_, h.starts hfits⟩
  cases hread.symm.trans (h.overrun_of_lt hlt hfits)

/-- No separator is left in front of a row. -/
theorem skipComma_itemRow (h : R.IsReadBy n f) (hc : isClosing closing = true)
    (hrow : IsItemRow strict closing (Takes f) u items rest) (comma : Bool) :
    skipComma (commaText comma ++ u) = u := by
  cases comma with
  | true => exact skipComma_cons u
  | false =>
      change skipComma u = u
      cases hrow with
      | nil => exact skipComma_of_ne (ne_comma_of_isClosing hc) rest
      | cons item =>
          obtain ⟨-, c, t, hstart, hstop⟩ := h.exists_start item
          cases u with
          | nil => rfl
          | cons d u =>
              refine skipComma_of_ne ?_ u
              rintro rfl
              rw [skipBlanks_cons (by decide)] at hstart
              cases hstart
              cases hstop

/-! ## Loose rows as loops -/

theorem itemRow_of_many_loose (h : R.IsReadBy n f)
    (hread : Reading.many (looseItemReading n f) cur = .reads items (closing :: rest)) :
    IsItemRow false closing (Takes f) cur items rest := by
  -- the place where a loop ends is followed by the closing bracket, and so is each before it
  refine many_induction (P := fun cur items after =>
    ∀ rest, after = closing :: rest → IsItemRow false closing (Takes f) cur items rest)
    (fun cur a t hstep => (h.consumes.looseItem n cur a t hstep).2) ?_ ?_ hread rest rfl
  · rintro _ _ rest rfl
    exact .nil rest
  · intro cur a t items after hstep ih rest hafter
    obtain ⟨_, u, hitem, hcomma⟩ := bind_eq_reads_iff.1 hstep
    obtain ⟨m, -, hcomma⟩ := enter_eq_reads_iff.1 hcomma
    cases hcomma
    obtain ⟨comma, hu⟩ := exists_commaText u
    exact .cons hitem ⟨comma, hu, nofun⟩ (ih rest hafter)

theorem many_loose_of_itemRow (h : R.IsReadBy n f) (hc : isClosing closing = true) (hn : 4 ≤ n)
    (hrow : IsItemRow false closing (Takes f) cur items rest) :
    Reading.many (looseItemReading n f) cur = .reads items (closing :: rest) := by
  induction hrow with
  | nil rest =>
      refine many_of_fails ?_
      rw [looseItemReading, h.stops hn (isStop_of_isClosing hc), bind_fails]
  | @cons cur t u rest a items item separated row ih =>
      obtain ⟨m, rfl⟩ := Nat.exists_eq_add_of_le' hn
      obtain ⟨comma, rfl, -⟩ := separated
      have hstep : looseItemReading (m + 4) f cur = .reads a u := by
        rw [looseItemReading, show f cur = .reads a (commaText comma ++ u) from item, bind_reads,
          h.skipComma_itemRow hc row]
        rfl
      rw [many_of_reads hstep (h.consumes.looseItem _ _ _ _ hstep).2, ih, map_reads]

theorem itemsReading_loose_iff (h : R.IsReadBy n f) (hc : isClosing closing = true) :
    itemsReading false n f cur = .reads items (closing :: rest) ↔
      items ≠ [] ∧ IsItemRow false closing (Takes f) cur items rest := by
  change Reading.many1 (looseItemReading n f) cur = _ ↔ _
  rw [Reading.many1, bind_eq_reads_iff]
  constructor
  · rintro ⟨as, t, hmany, hlast⟩
    cases as with
    | nil => cases hlast
    | cons a as =>
        cases hlast
        exact ⟨List.cons_ne_nil a as, h.itemRow_of_many_loose hmany⟩
  · rintro ⟨hne, hrow⟩
    refine ⟨items, closing :: rest, ?_, if_neg (by simpa using hne)⟩
    cases hrow with
    | nil => exact absurd rfl hne
    | cons item separated row =>
        have hn : 4 ≤ n := (h.exists_start item).1
        exact h.many_loose_of_itemRow hc hn (.cons item separated row)

/-! ## Strict rows as loops -/

theorem itemRow_of_many_next (h : R.IsReadBy n f)
    (hread : Reading.many (nextItemReading f) cur = .reads items (closing :: rest)) :
    ∃ u, IsSeparated true items.isEmpty cur u ∧
      IsItemRow true closing (Takes f) u items rest := by
  refine many_induction (P := fun cur items after => ∀ rest, after = closing :: rest →
    ∃ u, IsSeparated true items.isEmpty cur u ∧ IsItemRow true closing (Takes f) u items rest)
    (fun cur a t hstep => (h.consumes.nextItem cur a t hstep).2) ?_ ?_ hread rest rfl
  · rintro _ _ rest rfl
    exact ⟨_, ⟨false, rfl, fun _ => rfl⟩, .nil rest⟩
  · intro cur a t items after hstep ih rest hafter
    obtain ⟨_, u, hcomma, hitem⟩ := bind_eq_reads_iff.1 hstep
    obtain ⟨rfl, -⟩ := literalReading_eq_reads_iff.1 hcomma
    obtain ⟨w, hseparated, hrow⟩ := ih rest hafter
    exact ⟨u, ⟨true, rfl, fun _ => rfl⟩, .cons hitem hseparated hrow⟩

theorem many_next_of_itemRow (h : R.IsReadBy n f) (hc : isClosing closing = true)
    (hrow : IsItemRow true closing (Takes f) u items rest)
    (hseparated : IsSeparated true items.isEmpty cur u) :
    Reading.many (nextItemReading f) cur = .reads items (closing :: rest) := by
  induction hrow generalizing cur with
  | nil rest =>
      obtain ⟨comma, rfl, hcomma⟩ := hseparated
      obtain rfl : comma = false := hcomma rfl
      refine many_of_fails ?_
      have hcomma : literalReading (Descent.text ",") (closing :: rest) = .fails :=
        literalReading_cons_of_ne (ne_comma_of_isClosing hc) [] rest
      exact congrArg (Reading.bind · fun _ t => f t) hcomma
  | @cons u t w rest a items item separated row ih =>
      obtain ⟨comma, rfl, hcomma⟩ := hseparated
      obtain rfl : comma = true := hcomma rfl
      have hstep : nextItemReading f (commaText true ++ u) = .reads a t :=
        (congrArg (Reading.bind · fun _ t => f t) (literalReading_comma u)).trans item
      rw [many_of_reads hstep (h.consumes.nextItem _ _ _ hstep).2, ih separated, map_reads]

theorem itemsReading_strict_iff (h : R.IsReadBy n f) (hc : isClosing closing = true) :
    itemsReading true n f cur = .reads items (closing :: rest) ↔
      items ≠ [] ∧ IsItemRow true closing (Takes f) cur items rest := by
  change ((f cur).bind fun a t => (Reading.many (nextItemReading f) t).map (a :: ·)) = _ ↔ _
  constructor
  · intro hread
    obtain ⟨a, t, hitem, hmany⟩ := bind_eq_reads_iff.1 hread
    obtain ⟨as, hnext, has⟩ := map_eq_reads_iff.1 hmany
    cases has
    obtain ⟨u, hseparated, hrow⟩ := h.itemRow_of_many_next hnext
    exact ⟨List.cons_ne_nil _ _, .cons hitem hseparated hrow⟩
  · rintro ⟨hne, hrow⟩
    cases hrow with
    | nil => exact absurd rfl hne
    | @cons _ t u _ a items item separated row =>
        rw [show f cur = .reads a t from item, bind_reads,
          h.many_next_of_itemRow hc row separated, map_reads]

/-! ## Containers -/

/-- The loop over the items before a closing bracket reads the rows of items, and no others. -/
theorem itemsReading_eq_reads_iff (h : R.IsReadBy n f) (hc : isClosing closing = true) :
    itemsReading strict n f cur = .reads items (closing :: rest) ↔
      items ≠ [] ∧ IsItemRow strict closing (Takes f) cur items rest := by
  cases strict with
  | true => exact h.itemsReading_strict_iff hc
  | false => exact h.itemsReading_loose_iff hc

/-- Where a row starts with an item, the brackets are not empty. -/
theorem literalReading_of_itemRow (h : R.IsReadBy n f) (hc : isClosing closing = true)
    (hne : items ≠ []) (hrow : IsItemRow strict closing (Takes f) t items rest) :
    literalReading [closing] (skipBlanks t) = .fails := by
  cases hrow with
  | nil => exact absurd rfl hne
  | cons item =>
      obtain ⟨-, c, u, hstart, hstop⟩ := h.exists_start item
      rw [hstart]
      refine literalReading_cons_of_ne ?_ [] u
      rintro rfl
      cases hstop.symm.trans (isStop_of_isClosing hc)

/-- What is read between brackets are blanks or a row of items. -/
theorem containerReading_eq_reads_iff (h : R.IsReadBy n f) (hc : isClosing closing = true) :
    containerReading [opening] [closing] (n + 1) (itemsReading strict n f) cur =
        .reads items rest ↔
      1 ≤ n ∧ IsContainer strict opening closing (Takes f) cur items rest := by
  rw [containerReading, enter_succ, bind_eq_reads_iff]
  constructor
  · rintro ⟨_, t, hopen, hread⟩
    obtain ⟨rfl, -⟩ := literalReading_eq_reads_iff.1 hopen
    have hn : 1 ≤ n := Nat.one_le_iff_ne_zero.2 (by rintro rfl; cases hread)
    refine ⟨hn, t, rfl, ?_⟩
    rcases orElse_eq_reads_iff.1 hread with hempty | ⟨-, hitems⟩
    · obtain ⟨m, -, hempty⟩ := enter_eq_reads_iff.1 hempty
      obtain ⟨_, hclose, rfl⟩ := map_eq_reads_iff.1 hempty
      exact .inl ⟨rfl, (literalReading_eq_reads_iff.1 hclose).1⟩
    · obtain ⟨as, u, hrow, hlast⟩ := bind_eq_reads_iff.1 hitems
      obtain ⟨_, hclose, rfl⟩ := map_eq_reads_iff.1 hlast
      obtain ⟨rfl, -⟩ := literalReading_eq_reads_iff.1 hclose
      exact .inr ((h.itemsReading_eq_reads_iff hc).1 hrow)
  · rintro ⟨hn, t, rfl, hitems⟩
    obtain ⟨m, rfl⟩ := Nat.exists_eq_add_of_le' hn
    have hclose : literalReading [closing] (closing :: rest) = .reads [closing] rest :=
      literalReading_append [closing] rest
    refine ⟨[opening], t, literalReading_append [opening] t, ?_⟩
    rw [enter_succ]
    rcases hitems with ⟨rfl, hempty⟩ | ⟨hne, hrow⟩
    · rw [hempty, hclose, map_reads, orElse_reads]
    · have hread := (h.itemsReading_eq_reads_iff hc).2 ⟨hne, hrow⟩
      rw [h.literalReading_of_itemRow hc hne hrow, map_fails, orElse_fails, hread, bind_reads,
        hclose, map_reads]

end Row.IsReadBy

end

namespace Grammar

/-! ## Pairs as the rules give them -/

/-- The rule, asked with that depth, has one outcome: the value, with that rest. -/
def Gives (g : Grammar) (s : Store) (n : Nat) (r : Rule) (cur : Text) (v : Value) (rest : Text) :
    Prop :=
  ∃ u, ((g.parser r).parse (.ofDepth n) cur).run s = .ok [⟨v, rest⟩] u

/-- A key, a colon and a value, with blanks before the key and before the colon. -/
def IsPair (g : Grammar) (s : Store) (n : Nat) (cur : Text) (m : Text × Value) (rest : Text) :
    Prop :=
  ∃ t u, g.Gives s n .string (skipBlanks cur) (.str m.1) t ∧
    skipBlanks t = CodePoint.ofChar ':' :: u ∧ g.Gives s n .value u m.2 rest

/-- The pairs of the object at the front of a text, in the order in which they are written. -/
def IsObject (g : Grammar) (s : Store) (n : Nat) :
    Text → List (Text × Value) → Text → Prop :=
  IsContainer g.options.strict (CodePoint.ofChar '\x7b') (CodePoint.ofChar '\x7d') (g.IsPair s n)

section

variable {g : Grammar} {s : Store} {n m : Nat} {r : Rule} {cur rest rest' : Text} {v : Value}
  {e : Text × Value} {pairs pairs' : List (Text × Value)}

/-- A run that has an outcome has not used up its depth. -/
theorem Gives.of_le (hnm : n ≤ m) (h : g.Gives s n r cur v rest) : g.Gives s m r cur v rest := by
  obtain ⟨u, hrun⟩ := h
  have hplain := (g.parser r).composedOf_isPlain
  have hsurface := Judgement.parse (Judgement.entries_surfacing n) hplain cur
  have hsame : u.overruns = s.overruns :=
    (hsurface (r := .ok [⟨v, rest⟩]) hrun).1.resolve_right (by rintro ⟨f, ⟨⟩, -⟩)
  exact ⟨u, Lockstep.run_byDepth (r := .ok [⟨v, rest⟩])
    (Judgement.parse (Lockstep.entries_byDepth hnm) hplain cur) hrun hsame⟩

theorem IsPair.of_le (hnm : n ≤ m) (h : g.IsPair s n cur e rest) : g.IsPair s m cur e rest := by
  obtain ⟨t, u, hkey, hcolon, hvalue⟩ := h
  exact ⟨t, u, hkey.of_le hnm, hcolon, hvalue.of_le hnm⟩

theorem IsObject.of_le (hnm : n ≤ m) (h : g.IsObject s n cur pairs rest) :
    g.IsObject s m cur pairs rest :=
  IsContainer.mono (fun _ _ _ => IsPair.of_le hnm) h

theorem InUse.gives_iff (h : g.InUse s) :
    g.Gives s n r cur v rest ↔ ruleReading g.options n r cur = .reads v rest := by
  constructor
  · rintro ⟨u, hrun⟩
    exact h.ruleReading_of_run hrun
  · intro hread
    obtain ⟨u, -, hrun⟩ := h.exists_run_parse n r cur
    rw [hread] at hrun
    exact ⟨u, hrun⟩

/-- A rule has one outcome at most. -/
theorem InUse.eq_singleton (h : g.InUse s) {os : List Outcome} {o : Outcome} {u : Store}
    (hrun : ((g.parser r).parse (.ofDepth n) cur).run s = .ok os u) (ho : o ∈ os) : os = [o] := by
  obtain ⟨u', -, hread⟩ := h.exists_run_parse n r cur
  rw [hrun] at hread
  cases hrule : ruleReading g.options n r cur with
  | overrun =>
      rw [hrule] at hread
      cases hread
  | fails =>
      rw [hrule] at hread
      cases hread
      cases ho
  | reads v rest =>
      rw [hrule] at hread
      cases hread
      rw [List.mem_singleton.1 ho]

theorem InUse.gives_string_iff (h : g.InUse s) {k : Text} :
    g.Gives s n .string cur (.str k) rest ↔
      ∃ m, n = m + 1 ∧ stringReading g.options m cur = .reads k rest := by
  rw [h.gives_iff, show ruleReading g.options n .string cur = enter n fun m =>
    (stringReading g.options m cur).map Value.str from rfl, enter_eq_reads_iff]
  simp [map_eq_reads_iff]

/-- What is read as a pair is what the two rules give. -/
theorem InUse.isPair_iff (h : g.InUse s) : g.IsPair s n cur e rest ↔
    Takes (pairReading g.options n (valueReading g.options n)) cur e rest := by
  simp only [IsPair, Takes, h.gives_string_iff, h.gives_iff, ruleReading_value, pairReading,
    enter_eq_reads_iff, bind_eq_reads_iff, map_eq_reads_iff, literalReading_eq_reads_iff]
  constructor
  · rintro ⟨t, u, ⟨m, rfl, hkey⟩, hcolon, hvalue⟩
    exact ⟨m, rfl, e.1, t, hkey, text ":", u, ⟨hcolon, rfl⟩, e.2, hvalue, rfl⟩
  · rintro ⟨m, rfl, k, t, hkey, _, u, ⟨hcolon, -⟩, v, hvalue, rfl⟩
    exact ⟨t, u, ⟨m, rfl, hkey⟩, hcolon, hvalue⟩

/-! ## Objects -/

theorem InUse.containerReading_eq_reads_iff (h : g.InUse s) :
    containerReading (text "\x7b") (text "\x7d") (n + 1)
        (itemsReading g.options.strict n (pairReading g.options n (valueReading g.options n))) cur =
      .reads pairs rest ↔ 1 ≤ n ∧ g.IsObject s n cur pairs rest := by
  refine ((isReadBy g.options n).2.containerReading_eq_reads_iff rfl).trans (and_congr_right' ?_)
  exact ⟨IsContainer.mono fun _ _ _ => h.isPair_iff.2, IsContainer.mono fun _ _ _ => h.isPair_iff.1⟩

/-- The object rule gives the dictionaries of the pairs that it finds, with two entries more than
the pairs are asked with. -/
theorem InUse.gives_object_iff (h : g.InUse s) : g.Gives s n .object cur v rest ↔
    ∃ m pairs, n = m + 2 ∧ 1 ≤ m ∧ g.IsObject s m cur pairs rest ∧ v = dictOf pairs := by
  rw [h.gives_iff, show ruleReading g.options n .object cur = enter n fun n => enter n fun n =>
    objectReading g.options n (valueReading g.options n) cur from rfl]
  simp only [enter_eq_reads_iff, objectReading, map_eq_reads_iff, h.containerReading_eq_reads_iff]
  constructor
  · rintro ⟨_, rfl, m, rfl, pairs, ⟨hm, hobject⟩, hv⟩
    exact ⟨m, pairs, rfl, hm, hobject, hv.symm⟩
  · rintro ⟨m, pairs, rfl, hm, hobject, rfl⟩
    exact ⟨m + 1, rfl, m, rfl, pairs, ⟨hm, hobject⟩, rfl⟩

/-- A text starts with the pairs of one object at most, whatever depth they are asked with. -/
theorem InUse.isObject_unique (h : g.InUse s) (hpairs : g.IsObject s n cur pairs rest)
    (hpairs' : g.IsObject s m cur pairs' rest') : pairs' = pairs ∧ rest' = rest := by
  -- both are read at one depth, with an entry more because blanks between braces need one
  have hread := h.containerReading_eq_reads_iff.2
    ⟨Nat.le_add_left 1 (max n m), hpairs.of_le (Nat.le_succ_of_le (Nat.le_max_left n m))⟩
  have hread' := h.containerReading_eq_reads_iff.2
    ⟨Nat.le_add_left 1 (max n m), hpairs'.of_le (Nat.le_succ_of_le (Nat.le_max_right n m))⟩
  exact Reading.reads.inj (hread'.symm.trans hread)

/-- The object rule of a grammar in use keeps first positions and last values. It has one outcome
at most, and then the text starts with the pairs of one object and no others. The value is the
dictionary of these pairs: their distinct keys, each once and in the order of first occurrences,
with the value of the last pair that has the key. It has an outcome where the text starts with
the pairs of an object, if three entries more than for the pairs are left, and for blanks between
the braces this is the empty dictionary. -/
theorem object_isDictOf (h : g.InUse s) (n : Nat) (cur : Text) :
    (∀ os u, ((g.parser .object).parse (.ofDepth n) cur).run s = .ok os u → ∀ o ∈ os, os = [o] ∧
      ∃ pairs entries, g.IsObject s n cur pairs o.rest ∧
        (∀ m pairs' rest', g.IsObject s m cur pairs' rest' → pairs' = pairs ∧ rest' = o.rest) ∧
        o.value = .dict (entries.map Value.textEntry) ∧ Value.IsDictOf pairs entries) ∧
    (∀ pairs rest, g.IsObject s n cur pairs rest →
      ∃ v, g.Gives s (n + 3) .object cur v rest) ∧
    ∀ blank rest, IsBlank blank →
      cur = CodePoint.ofChar '\x7b' :: blank ++ CodePoint.ofChar '\x7d' :: rest →
        g.Gives s (n + 3) .object cur (.dict []) rest := by
  have hgives {pairs : List (Text × Value)} {rest : Text} (hpairs : g.IsObject s n cur pairs rest) :
      g.Gives s (n + 3) .object cur (dictOf pairs) rest :=
    h.gives_object_iff.2 ⟨n + 1, pairs, rfl, Nat.le_add_left 1 n, hpairs.of_le (Nat.le_succ n), rfl⟩
  refine ⟨fun os u hrun o ho => ?_, fun pairs rest hpairs => ⟨_, hgives hpairs⟩, ?_⟩
  · have hone : os = [o] := h.eq_singleton hrun ho
    obtain ⟨m, pairs, rfl, -, hpairs, hvalue⟩ := h.gives_object_iff.1 ⟨u, hone ▸ hrun⟩
    refine ⟨hone, pairs, Value.textEntries pairs, hpairs.of_le (Nat.le_add_right m 2),
      fun k pairs' rest' => h.isObject_unique hpairs, ?_, Value.isDictOf_textEntries pairs⟩
    rw [hvalue, ← Value.entriesOfPairs_textEntry]
    rfl
  · rintro blank rest hblank rfl
    have hskip : skipBlanks (blank ++ CodePoint.ofChar '\x7d' :: rest) =
        CodePoint.ofChar '\x7d' :: rest := by
      rw [skipBlanks_append hblank, skipBlanks_closing rfl]
    have hpairs : g.IsObject s n
        (CodePoint.ofChar '\x7b' :: blank ++ CodePoint.ofChar '\x7d' :: rest) [] rest :=
      ⟨_, rfl, .inl ⟨rfl, hskip⟩⟩
    exact hgives hpairs

end

/-- A key that is written twice, as different escapes of one pair of surrogates, with another key
between them and no comma anywhere. -/
theorem object_isDictOf_repeated :
    let g : Grammar := ⟨{ combine := true }, 0⟩
    let s := (create g.options).leaves {}
    let face : Text := [.ofNat 0x1F600]
    let number (c : Char) : Value := .float (digitLiteral false c).toBinary64
    let cur := text "\x7b\"\\ud83d\\ude00\":1\"a\":3 \"\\uD83D\\uDE00\" :2\x7d]"
    g.InUse s ∧
      g.IsObject s 497 cur [(face, number '1'), (text "a", number '3'), (face, number '2')]
        (text "]") ∧
      ∃ entries : List (Text × Value),
        g.Gives s depthLimit .object cur (.dict (entries.map Value.textEntry)) (text "]") ∧
        entries.map Prod.fst = [face, text "a"] ∧ entries.lookup face = some (number '2') ∧
        entries.lookup (text "a") = some (number '3') := by
  intro g s face number cur
  have huse : g.InUse s := .created (o := g.options) (s := {}) rfl
  let small : List StringPiece :=
    [.unit (.ofChar 'd') (.ofChar '8') (.ofChar '3') (.ofChar 'd'),
      .unit (.ofChar 'd') (.ofChar 'e') (.ofChar '0') (.ofChar '0')]
  let capital : List StringPiece :=
    [.unit (.ofChar 'D') (.ofChar '8') (.ofChar '3') (.ofChar 'D'),
      .unit (.ofChar 'D') (.ofChar 'E') (.ofChar '0') (.ofChar '0')]
  let members : List Member :=
    [.mk [] small [] [] (.number (digitLiteral false '1')) [] false,
      .mk [] [.raw (.ofChar 'a')] [] [] (.number (digitLiteral false '3')) (text " ") false,
      .mk [] capital (text " ") [] (.number (digitLiteral false '2')) [] false]
  have hnil : IsBlank [] := List.forall_mem_nil _
  have hspace : IsBlank (text " ") := List.forall_mem_singleton.2 rfl
  have hfits {key : List StringPiece} {afterKey after : Text} {c : Char} {next : Text}
      (hkey : ∀ p ∈ key, p.WellFormed) (hafterKey : IsBlank afterKey) (hafter : IsBlank after)
      (hc : (CodePoint.ofChar c).isDigit = true)
      (hend : (digitLiteral false c).EndsBefore (after ++ next)) :
      (memberRow g.options).Fits
        (.mk [] key afterKey [] (.number (digitLiteral false c)) after false) next :=
    have hnumber := (fits_loose_iff (o := g.options) rfl).2 (isLoose_digit false hc hend)
    ⟨hnil, hkey, hafterKey, hnil, hafter, hnumber⟩
  have hall : (memberRow g.options).AllFit members (CodePoint.ofChar '\x7d' :: text "]") :=
    ⟨hfits (by decide) hnil hnil rfl ⟨by decide, by decide, by decide⟩,
      hfits (by decide) hnil hspace rfl ⟨by decide, by decide, by decide⟩,
      hfits (by decide) hspace hnil rfl ⟨by decide, by decide, by decide⟩, trivial⟩
  have hstrict : g.options.strict = true → (memberRow g.options).IsStrict members := nofun
  have hread := (isReadBy g.options 497).2.containerReading_row (CodePoint.ofChar '\x7b') rfl
    (List.cons_ne_nil _ _) hall hstrict
  have hpairs : g.IsObject s 497 cur [(face, number '1'), (text "a", number '3'),
      (face, number '2')] (text "]") := (huse.containerReading_eq_reads_iff.1 hread).2
  obtain ⟨-, hsome, -⟩ := object_isDictOf huse 497 cur
  obtain ⟨v, u, hrun⟩ := hsome _ _ hpairs
  obtain ⟨hdict, -, -⟩ := object_isDictOf huse depthLimit cur
  obtain ⟨-, pairs, entries, hobject, -, rfl, hentries⟩ :=
    hdict _ u hrun _ (List.mem_singleton_self _)
  obtain ⟨rfl, -⟩ := huse.isObject_unique hpairs hobject
  exact ⟨huse, hpairs, entries, ⟨u, hrun⟩, hentries.keys.trans rfl, (hentries.lookup face).trans rfl,
    (hentries.lookup (text "a")).trans rfl⟩

end Grammar

end Json

end Descent
