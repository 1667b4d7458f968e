import Descent.Proofs.Agreement
import Descent.Proofs.Dict
import Descent.Proofs.Json.Language
import Descent.Proofs.Json.Use
import Descent.Proofs.Surrogates

/-!
# Trees of values

A tree is what a text spells before anything is done with its strings: the members of
an object stand in it as they are written, also if keys repeat. What a rule reads
spells one tree, and the value is the tree evaluated by what the grammar does with
strings. Grammars of the same separators end in the same way on every text, so their
values are those of one tree, whether they combine surrogates or not.
-/

namespace Descent

namespace Json

open Eval Reading

/-- What a value is made of. -/
inductive Tree where
  | null
  | bool (b : Bool)
  | number (x : Binary64)
  | string (t : Text)
  | array (items : List Tree)
  | object (members : List (Text × Tree))

namespace Tree

mutual

/-- The value of the tree, if `decode` is what its strings and keys go through. -/
def eval (decode : Text → Text) : Tree → Value
  | .null => .null
  | .bool b => .bool b
  | .number x => .float x
  | .string t => .str (decode t)
  | .array items => .list (evalItems decode items)
  | .object members => dictOf (evalMembers decode members)

def evalItems (decode : Text → Text) : List Tree → List Value
  | [] => []
  | T :: items => T.eval decode :: evalItems decode items

def evalMembers (decode : Text → Text) : List (Text × Tree) → List (Text × Value)
  | [] => []
  | (k, T) :: members => (decode k, T.eval decode) :: evalMembers decode members

end

theorem evalMembers_eq_map (decode : Text → Text) (members : List (Text × Tree)) :
    evalMembers decode members = members.map fun m => (decode m.1, m.2.eval decode) := by
  induction members with
  | nil => rfl
  | cons m members ih => rw [evalMembers, ih, List.map_cons]

/-- The entries of an object: its distinct keys, as they are decoded, in the order of first
occurrences, each with the value of the last member that has it. -/
theorem exists_entries_object (decode : Text → Text) (members : List (Text × Tree)) :
    ∃ entries : List (Text × Value),
      (object members).eval decode = .dict (entries.map Value.textEntry) ∧
      entries.map Prod.fst = (members.map fun m => decode m.1).eraseDups ∧
      ∀ k, entries.lookup k =
        (members.map fun m => (decode m.1, m.2.eval decode)).reverse.lookup k := by
  let pairs := members.map fun m => (decode m.1, m.2.eval decode)
  refine ⟨Value.textEntries pairs, ?_, ?_, Value.lookup_textEntries pairs⟩
  · rw [eval, evalMembers_eq_map, ← Value.entriesOfPairs_textEntry]
    rfl
  · rw [Value.keys_textEntries, List.map_map]
    rfl

end Tree

/-! ## Trees of documents -/

namespace Document

mutual

/-- The tree that the document spells. -/
def tree : Document → Tree
  | .null => .null
  | .bool b => .bool b
  | .number l => .number l.toBinary64
  | .string pieces => .string (stringValue pieces)
  | .emptyArray _ => .array []
  | .array items => .array (itemTrees items)
  | .emptyObject _ => .object []
  | .object members => .object (memberTrees members)

def itemTrees : List Item → List Tree
  | [] => []
  | .mk _ d _ _ :: items => d.tree :: itemTrees items

def memberTrees : List Member → List (Text × Tree)
  | [] => []
  | .mk _ key _ _ d _ _ :: members => (stringValue key, d.tree) :: memberTrees members

end

mutual

/-- The value of a document is that of its tree. -/
theorem eval_tree (decode : Text → Text) : ∀ d : Document, d.tree.eval decode = d.value decode
  | .null => rfl
  | .bool _ => rfl
  | .number _ => rfl
  | .string _ => rfl
  | .emptyArray _ => rfl
  | .array items => by rw [tree, Tree.eval, value, evalItems_itemTrees decode items]
  | .emptyObject _ => rfl
  | .object members => by
      rw [tree, Tree.eval, value, dictOf, evalMembers_memberTrees decode members]

theorem evalItems_itemTrees (decode : Text → Text) :
    ∀ items : List Item, Tree.evalItems decode (itemTrees items) = itemValues decode items
  | [] => rfl
  | .mk _ d _ _ :: items => by
      rw [itemTrees, Tree.evalItems, itemValues, eval_tree decode d,
        evalItems_itemTrees decode items]

theorem evalMembers_memberTrees (decode : Text → Text) : ∀ members : List Member,
    (Tree.evalMembers decode (memberTrees members)).map (fun m => (.str m.1, m.2)) =
      memberValues decode members
  | [] => rfl
  | .mk _ _ _ _ d _ _ :: members => by
      rw [memberTrees, Tree.evalMembers, memberValues, List.map_cons, eval_tree decode d,
        evalMembers_memberTrees decode members]

end

mutual

/-- Blanks do not count for the tree. -/
theorem tree_bare : ∀ d : Document, d.bare.tree = d.tree
  | .null => rfl
  | .bool _ => rfl
  | .number _ => rfl
  | .string _ => rfl
  | .emptyArray _ => rfl
  | .array items => by rw [bare, tree, tree, itemTrees_bare items]
  | .emptyObject _ => rfl
  | .object members => by rw [bare, tree, tree, memberTrees_bare members]

theorem itemTrees_bare : ∀ items : List Item, itemTrees (itemsBare items) = itemTrees items
  | [] => rfl
  | .mk _ d _ _ :: items => by
      rw [itemsBare, itemTrees, itemTrees, tree_bare d, itemTrees_bare items]

theorem memberTrees_bare :
    ∀ members : List Member, memberTrees (membersBare members) = memberTrees members
  | [] => rfl
  | .mk _ _ _ _ d _ _ :: members => by
      rw [membersBare, memberTrees, memberTrees, tree_bare d, memberTrees_bare members]

end

end Document

/-! ## What a rule spells -/

/-- What a rule has read spells the tree: whitespace is a string of blanks, and for every other
rule there is a document of the tree, in blanks. -/
def Spells (o : Options) (r : Rule) (T : Tree) (cur rest : Text) : Prop :=
  match r with
  | .whitespace => ∃ blank, IsBlank blank ∧ T = .string blank ∧ cur = blank ++ rest
  | _ => ∃ before after, ∃ d : Document, IsBlank before ∧ IsBlank after ∧
      d.Fits o (after ++ rest) ∧ T = d.tree ∧ cur = before ++ (d.text ++ (after ++ rest))

variable {o p : Options} {r : Rule} {T U : Tree} {cur rest : Text} {v : Value} {n : Nat}

theorem Document.Fits.congr (h : o.strict = p.strict) {d : Document} {next : Text}
    (hd : d.Fits o next) : d.Fits p next :=
  ⟨hd.wellFormed, fun hp => hd.strict (h.trans hp), hd.numbersEnd⟩

theorem Spells.congr (h : o.strict = p.strict) (hT : Spells o r T cur rest) :
    Spells p r T cur rest := by
  cases r with
  | whitespace => exact hT
  | _ =>
      obtain ⟨before, after, d, hbefore, hafter, hd, htree, hcur⟩ := hT
      exact ⟨before, after, d, hbefore, hafter, hd.congr h, htree, hcur⟩

/-- A text spells one tree. -/
theorem Spells.unique (hT : Spells o r T cur rest) (hU : Spells o r U cur rest) : T = U := by
  cases r with
  | whitespace =>
      obtain ⟨blank, -, rfl, hcur⟩ := hT
      obtain ⟨other, -, rfl, hother⟩ := hU
      rw [List.append_cancel_right (hcur.symm.trans hother)]
  | _ =>
      obtain ⟨before, after, d, hbefore, -, hd, rfl, hcur⟩ := hT
      obtain ⟨before', after', e, hbefore', -, he, rfl, hcur'⟩ := hU
      have htext := congrArg skipBlanks (hcur.symm.trans hcur')
      rw [Document.skipBlanks_text hd.wellFormed hbefore,
        Document.skipBlanks_text he.wellFormed hbefore'] at htext
      rw [← d.tree_bare, ← e.tree_bare, Document.bare_unique o d e hd he htext]

/-- Blanks are no surrogates. -/
theorem decode_of_isBlank (o : Options) {t : Text} (h : IsBlank t) : o.decode t = t := by
  have hcombine : t.combineSurrogates = t := by
    induction t with
    | nil => rfl
    | cons c t ih =>
        have hc : c.val = 32 ∨ c.val = 9 ∨ c.val = 10 ∨ c.val = 13 := by
          simpa [isBlank] using h c List.mem_cons_self
        have hhigh : ¬ c.isHighSurrogate = true := by
          rw [CodePoint.isHighSurrogate, decide_eq_false (by omega), Bool.false_and]
          exact Bool.false_ne_true
        rw [Text.combineSurrogates_cons fun h => absurd h hhigh,
          ih fun d hd => h d (List.mem_cons_of_mem c hd)]
  rw [Options.decode, hcombine, ite_self]

/-- A document without blanks around it spells its tree. -/
theorem spells_document (hr : r ≠ .whitespace) {d : Document} (hd : d.Fits o rest)
    (hv : v = d.value o.decode) (hcur : cur = d.text ++ rest) :
    ∃ T, Spells o r T cur rest ∧ v = T.eval o.decode := by
  refine ⟨d.tree, ?_, by rw [hv, d.eval_tree]⟩
  cases r with
  | whitespace => exact absurd rfl hr
  | _ => exact ⟨[], [], d, List.forall_mem_nil _, List.forall_mem_nil _, hd, rfl, hcur⟩

theorem exists_spells_recipe (h : recipeReading o n r cur = .reads v rest) :
    ∃ T, Spells o r T cur rest ∧ v = T.eval o.decode := by
  cases r with
  | whitespace =>
      have hblank : IsBlank (cur.takeWhile isBlank) := fun _ h => List.mem_takeWhile_imp h
      cases h
      refine ⟨.string (cur.takeWhile isBlank), ⟨_, hblank, rfl, ?_⟩, ?_⟩
      · exact List.takeWhile_append_dropWhile.symm
      · rw [Tree.eval, decode_of_isBlank o hblank]
  | number =>
      obtain ⟨l, hwf, hend, hv, hcur⟩ := exists_literal_of_numberReading h
      exact spells_document (by decide) (d := .number l) ⟨hwf, fun _ => trivial, hend⟩ hv hcur
  | string =>
      obtain ⟨t, hstring, rfl⟩ := map_eq_reads_iff.1 h
      obtain ⟨pieces, hwf, hcur, rfl⟩ := exists_pieces_of_stringReading hstring
      exact spells_document (by decide) (d := .string pieces) ⟨hwf, fun _ => trivial, trivial⟩ rfl
        hcur
  | true =>
      obtain ⟨hv, hcur⟩ := Document.eq_of_constantReading h
      exact spells_document (by decide) (d := .bool true) ⟨trivial, fun _ => trivial, trivial⟩ hv
        hcur
  | false =>
      obtain ⟨hv, hcur⟩ := Document.eq_of_constantReading h
      exact spells_document (by decide) (d := .bool false) ⟨trivial, fun _ => trivial, trivial⟩ hv
        hcur
  | null =>
      obtain ⟨hv, hcur⟩ := Document.eq_of_constantReading h
      exact spells_document (by decide) (d := .null) ⟨trivial, fun _ => trivial, trivial⟩ hv hcur
  | array =>
      obtain ⟨m, rfl, harray⟩ := enter_eq_reads_iff.1 h
      obtain ⟨d, hd, hv, hcur⟩ := Document.exists_array (isReadBy o m).1 harray
      exact spells_document (by decide) hd hv hcur
  | object =>
      obtain ⟨m, rfl, hobject⟩ := enter_eq_reads_iff.1 h
      obtain ⟨d, hd, hv, hcur⟩ := Document.exists_object (isReadBy o m).2 hobject
      exact spells_document (by decide) hd hv hcur
  | value =>
      obtain ⟨before, after, d, hbefore, hafter, hd, hv, hcur, -⟩ := exists_document h
      exact ⟨d.tree, ⟨before, after, d, hbefore, hafter, hd, rfl, hcur⟩, by rw [hv, d.eval_tree]⟩

/-- What a rule reads spells a tree, and the value is that of the tree. -/
theorem exists_spells (h : ruleReading o n r cur = .reads v rest) :
    ∃ T, Spells o r T cur rest ∧ v = T.eval o.decode := by
  rw [ruleReading] at h
  cases hr : r.isLazy with
  | true =>
      rw [hr, if_pos rfl, enter_eq_reads_iff] at h
      obtain ⟨m, -, hm⟩ := h
      exact exists_spells_recipe hm
  | false =>
      rw [hr, if_neg Bool.false_ne_true] at h
      exact exists_spells_recipe h

/-! ## Options that do not differ in separators -/

theorem alike_string (o p : Options) (depth : Nat) (cur : Text) :
    Alike (stringReading o depth cur) (stringReading p depth cur) := by
  refine Agree.enter fun n _ => (Agree.same _).bind ?_
  rintro _ _ t rfl
  refine Agree.orElse ((Agree.same _).map fun _ _ _ => trivial) ((Agree.same _).bind ?_)
  rintro ts _ u rfl
  exact (Agree.same _).map fun _ _ _ => trivial

section

variable {α β : Type} {f : Text → Reading α} {g : Text → Reading β}

theorem alike_items (h : ∀ cur, Alike (f cur) (g cur)) (strict : Bool) (depth : Nat) (cur : Text) :
    Alike (itemsReading strict depth f cur) (itemsReading strict depth g cur) := by
  cases strict with
  | true =>
      refine (h cur).bind fun a b t _ => ?_
      have hnext (cur : Text) : Alike (nextItemReading f cur) (nextItemReading g cur) :=
        (Agree.same _).bind fun _ _ t _ => h t
      exact (Agree.many hnext t).map fun _ _ _ => trivial
  | false =>
      have hitem (cur : Text) : Alike (looseItemReading depth f cur) (looseItemReading depth g cur) :=
        (h cur).bind fun _ _ _ _ => Agree.enter fun _ _ => .reads trivial _
      exact (Agree.many1 hitem cur).alike

theorem alike_container {items : Text → Reading (List α)} {items' : Text → Reading (List β)}
    (h : ∀ cur, Alike (items cur) (items' cur)) (opening closing : Text) (depth : Nat)
    (cur : Text) :
    Alike (containerReading opening closing depth items cur)
      (containerReading opening closing depth items' cur) := by
  refine Agree.enter fun n _ => (Agree.same _).bind fun _ _ t _ => ?_
  refine Agree.orElse (Agree.enter fun _ _ => (Agree.same _).map fun _ _ _ => trivial) ?_
  exact (h t).bind fun _ _ u _ => (Agree.same _).map fun _ _ _ => trivial

end

section

variable {f g : Text → Reading Value} (h : ∀ cur, Alike (f cur) (g cur))

include h

theorem alike_pair (o p : Options) (depth : Nat) (cur : Text) :
    Alike (pairReading o depth f cur) (pairReading p depth g cur) := by
  refine Agree.enter fun n _ => (alike_string o p n _).bind fun _ _ t _ => ?_
  exact (Agree.same _).bind fun _ _ u _ => (h u).map fun _ _ _ => trivial

theorem alike_array (hstrict : o.strict = p.strict) (depth : Nat) (cur : Text) :
    Alike (arrayReading o depth f cur) (arrayReading p depth g cur) := by
  rw [arrayReading, arrayReading, hstrict]
  exact (alike_container (alike_items h p.strict depth) _ _ _ cur).map fun _ _ _ => trivial

theorem alike_object (hstrict : o.strict = p.strict) (depth : Nat) (cur : Text) :
    Alike (objectReading o depth f cur) (objectReading p depth g cur) := by
  rw [objectReading, objectReading, hstrict]
  exact (alike_container (alike_items (alike_pair h o p depth) p.strict depth) _ _ _ cur).map
    fun _ _ _ => trivial

theorem alike_token (hstrict : o.strict = p.strict) (depth : Nat) (cur : Text) :
    Alike (tokenReading o depth f cur) (tokenReading p depth g cur) := by
  have hstring := (alike_string o p (depth + 1) cur).map (S := fun _ _ => True)
    (f := Value.str) (g := Value.str) fun _ _ _ => trivial
  refine Agree.choice (.cons hstring (.cons (Agree.same _).alike (.cons ?_ (.cons ?_ ?_))))
  · exact alike_array h hstrict depth cur
  · exact alike_object h hstrict depth cur
  · exact List.forall₂_same.2 fun _ _ => (Agree.same _).alike

end

theorem alike_value (hstrict : o.strict = p.strict) (depth : Nat) (cur : Text) :
    Alike (valueReading o depth cur) (valueReading p depth cur) := by
  induction depth using Nat.strongRecOn generalizing cur with
  | ind n ih =>
      by_cases hn : n < 4
      · rw [valueReading_of_lt o hn, valueReading_of_lt p hn]
        exact .overrun
      · obtain ⟨m, rfl⟩ := Nat.exists_eq_add_of_le' (Nat.not_lt.1 hn)
        have hm : m < m + 4 := Nat.lt_add_of_pos_right (by decide)
        rw [valueReading_add_four, valueReading_add_four]
        exact (alike_token (ih m hm) hstrict m _).bind fun _ _ t _ => .reads trivial _

theorem alike_recipe (hstrict : o.strict = p.strict) (r : Rule) (depth : Nat) (cur : Text) :
    Alike (recipeReading o depth r cur) (recipeReading p depth r cur) := by
  cases r with
  | string => exact (alike_string o p depth cur).map fun _ _ _ => trivial
  | array => exact Agree.enter fun n _ => alike_array (alike_value hstrict n) hstrict n cur
  | object => exact Agree.enter fun n _ => alike_object (alike_value hstrict n) hstrict n cur
  | value => exact alike_value hstrict (depth + 1) cur
  | _ => exact (Agree.same _).alike

/-- Every rule ends in the same way, whatever is done with the strings. -/
theorem alike_rule (hstrict : o.strict = p.strict) (r : Rule) (depth : Nat) (cur : Text) :
    Alike (ruleReading o depth r cur) (ruleReading p depth r cur) := by
  rw [ruleReading, ruleReading]
  cases r.isLazy with
  | true => exact Agree.enter fun n _ => alike_recipe hstrict r n cur
  | false => exact alike_recipe hstrict r depth cur

/-! ## Grammars that combine surrogates -/

theorem decode_of_not_combine (h : o.combine = false) : o.decode = id := by
  funext t
  rw [Options.decode, h]
  rfl

theorem decode_of_combine (h : o.combine = true) : o.decode = Text.combineSurrogates := by
  funext t
  rw [Options.decode, if_pos h]

/-- A grammar that combines surrogates differs from one that does not in the strings alone. Each
rule ends in the same way: out of depth, without an outcome, or with one outcome that leaves the
same rest; then what is read spells a tree, and the values are those of the tree. In an object
of a tree the keys that become equal end as one entry, at the place of the first and with the
value of the last member. -/
theorem parse_combine {g k : Grammar} {s s' : Store} (hg : g.InUse s) (hk : k.InUse s')
    (hstrict : g.options.strict = k.options.strict) (hplain : g.options.combine = false)
    (hcombine : k.options.combine = true) (depth : Nat) (r : Rule) (cur : Text) :
    ((∃ u u', ((g.parser r).parse (.ofDepth depth) cur).run s = .error .depthExceeded u ∧
        ((k.parser r).parse (.ofDepth depth) cur).run s' = .error .depthExceeded u') ∨
      (∃ u u', ((g.parser r).parse (.ofDepth depth) cur).run s = .ok [] u ∧
        ((k.parser r).parse (.ofDepth depth) cur).run s' = .ok [] u') ∨
      ∃ (T : Tree) (rest : Text) (u u' : Store), Spells g.options r T cur rest ∧
        ((g.parser r).parse (.ofDepth depth) cur).run s = .ok [⟨T.eval id, rest⟩] u ∧
        ((k.parser r).parse (.ofDepth depth) cur).run s' =
          .ok [⟨T.eval Text.combineSurrogates, rest⟩] u') ∧
    ∀ members : List (Text × Tree), ∃ entries : List (Text × Value),
      (Tree.object members).eval Text.combineSurrogates =
        .dict (entries.map Value.textEntry) ∧
      entries.map Prod.fst = (members.map fun m => m.1.combineSurrogates).eraseDups ∧
      ∀ key, entries.lookup key =
        (members.map fun m => (m.1.combineSurrogates, m.2.eval Text.combineSurrogates)).reverse.lookup
          key := by
  refine ⟨?_, Tree.exists_entries_object Text.combineSurrogates⟩
  obtain ⟨u, -, hrun⟩ := hg.exists_run_parse depth r cur
  obtain ⟨u', -, hrun'⟩ := hk.exists_run_parse depth r cur
  have halike := alike_rule hstrict r depth cur
  have htree {v w : Value} {rest : Text} (hx : ruleReading g.options depth r cur = .reads v rest)
      (hy : ruleReading k.options depth r cur = .reads w rest) :
      ∃ T, Spells g.options r T cur rest ∧ v = T.eval id ∧ w = T.eval Text.combineSurrogates := by
    obtain ⟨T, hT, hv⟩ := exists_spells hx
    obtain ⟨U, hU, hw⟩ := exists_spells hy
    obtain rfl : T = U := hT.unique (hU.congr hstrict.symm)
    exact ⟨T, hT, decode_of_not_combine hplain ▸ hv, decode_of_combine hcombine ▸ hw⟩
  generalize ruleReading g.options depth r cur = x at hrun halike htree
  generalize ruleReading k.options depth r cur = y at hrun' halike htree
  cases halike with
  | overrun => exact .inl ⟨u, u', hrun, hrun'⟩
  | fails => exact .inr (.inl ⟨u, u', hrun, hrun'⟩)
  | reads _ rest =>
      obtain ⟨T, hT, rfl, rfl⟩ := htree rfl rfl
      exact .inr (.inr ⟨T, rest, u, u', hT, hrun, hrun'⟩)

/-- Two members with a code point for their key, once as surrogates and once as it is. -/
def surrogateMembers : Document :=
  let escaped : List StringPiece :=
    [.unit (.ofChar 'd') (.ofChar '8') (.ofChar '3') (.ofChar 'd'),
      .unit (.ofChar 'd') (.ofChar 'e') (.ofChar '0') (.ofChar '0')]
  .object [.mk [] escaped [] [] (.number (digitLiteral false '1')) [] true,
    .mk [] [.raw (.ofNat 0x1F600)] [] [] (.number (digitLiteral false '2')) [] false]

theorem valueReading_surrogateMembers (o : Options) :
    valueReading o depthLimit surrogateMembers.text = .reads (surrogateMembers.value o.decode) [] := by
  have hdigit (c : Char) (hc : (CodePoint.ofChar c).isDigit = true) :
      (Document.number (digitLiteral false c)).WellFormed :=
    have hloose : IsLoose (.number (digitLiteral false c)) [] :=
      isLoose_digit false hc ⟨by simp, by simp, by simp⟩
    hloose.1
  have hnil : IsBlank [] := List.forall_mem_nil _
  have hunit {a b c d : CodePoint} (h : ∀ x ∈ [a, b, c, d], x.hexValue?.isSome) :
      (StringPiece.unit a b c d).WellFormed := h
  have hraw : (StringPiece.raw (.ofNat 0x1F600)).WellFormed := ⟨by decide, by decide, by decide⟩
  have hwf : surrogateMembers.WellFormed :=
    ⟨List.cons_ne_nil _ _,
      hnil, List.forall_mem_cons.2 ⟨hunit (by decide), List.forall_mem_singleton.2 (hunit (by decide))⟩,
      hnil, hnil, hdigit '1' rfl, hnil,
      hnil, List.forall_mem_singleton.2 hraw, hnil, hnil, hdigit '2' rfl, hnil, trivial⟩
  have hstrict : surrogateMembers.Strict := ⟨trivial, by simp, trivial, by simp, trivial⟩
  have hend : surrogateMembers.NumbersEnd [] :=
    Document.numbersEnd_of_strict _ hwf hstrict (Document.isDelimited_of_isBlank hnil)
  let D : Derivation (fun d => d.Fits o) surrogateMembers.text :=
    ⟨[], surrogateMembers, [], hnil, hnil, ⟨hwf, fun _ => hstrict, hend⟩, List.append_nil _⟩
  exact (valueReading_of_derivation D depthLimit).trans rfl

/-- The keys are two by default. Combined they are one, with the value of the second member. -/
theorem parse_combine_members :
    let g : Grammar := ⟨{}, 0⟩
    let k : Grammar := ⟨{ combine := true }, 0⟩
    let s := (Grammar.create g.options).leaves {}
    let s' := (Grammar.create k.options).leaves {}
    let one := Value.float (digitLiteral false '1').toBinary64
    let two := Value.float (digitLiteral false '2').toBinary64
    (g.InUse s ∧ k.InUse s' ∧ g.options.strict = k.options.strict ∧ g.options.combine = false ∧
      k.options.combine = true) ∧
    ∃ (T : Tree) (u u' : Store),
      (g.parseStart (.ofDepth depthLimit) surrogateMembers.text).run s = .ok [⟨T.eval id, []⟩] u ∧
      (k.parseStart (.ofDepth depthLimit) surrogateMembers.text).run s' =
        .ok [⟨T.eval Text.combineSurrogates, []⟩] u' ∧
      T.eval id = .dict [(.str [.ofNat 0xD83D, .ofNat 0xDE00], one), (.str [.ofNat 0x1F600], two)] ∧
      T.eval Text.combineSurrogates = .dict [(.str [.ofNat 0x1F600], two)] := by
  intro g k s s' one two
  have hg : g.InUse s := .created (o := g.options) (s := {}) rfl
  have hk : k.InUse s' := .created (o := k.options) (s := {}) rfl
  obtain ⟨u, hu⟩ := hg.parseStart_eq_ok_iff.2 (valueReading_surrogateMembers g.options)
  obtain ⟨u', hu'⟩ := hk.parseStart_eq_ok_iff.2 (valueReading_surrogateMembers k.options)
  refine ⟨⟨hg, hk, rfl, rfl, rfl⟩, ?_⟩
  rcases (parse_combine hg hk rfl rfl rfl depthLimit .value surrogateMembers.text).1 with
    ⟨_, _, h, -⟩ | ⟨_, _, h, -⟩ | ⟨T, rest, w, w', -, h, h'⟩
  · cases h.symm.trans hu
  · cases h.symm.trans hu
  · have heq := h.symm.trans hu
    have heq' := h'.symm.trans hu'
    simp only [EStateM.Result.ok.injEq, List.cons.injEq, Outcome.mk.injEq, and_true] at heq heq'
    obtain ⟨⟨hvalue, rfl⟩, rfl⟩ := heq
    refine ⟨T, w, w', h, h', hvalue.trans ?_, heq'.1.1.trans ?_⟩
    · rfl
    · rfl

end Json

end Descent
