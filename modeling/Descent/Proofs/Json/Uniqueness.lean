import Descent.Proofs.Json.Values

/-!
# Documents are known from their texts

A text may be written by several documents, since the blanks between two items
without a comma belong to either one. Nothing else is left open: documents that
fit and have the same text are the same when all blanks are taken out of them. The
parts of a row are told apart by reading them.
-/

namespace Descent

namespace Json

open Reading Document

/-! ## Strings and numbers -/

namespace StringPiece

/-- The piece at the front of a text is known from it. -/
theorem text_unique {p q : StringPiece} (hp : p.WellFormed) (hq : q.WellFormed) {t u : Text}
    (h : p.text ++ t = q.text ++ u) : p = q ∧ t = u := by
  have hraw {c : CodePoint} (hc : (raw c).WellFormed) : c ≠ CodePoint.ofChar '\\' := by
    rintro rfl
    exact hc.2.1 rfl
  have hunit {c : CodePoint} (hc : (letter c).WellFormed) : c ≠ CodePoint.ofChar 'u' := by
    rintro rfl
    cases hc
  cases p with
  | raw c =>
      cases q with
      | raw d =>
          cases h
          exact ⟨rfl, rfl⟩
      | letter d => exact absurd (List.cons_eq_cons.1 h).1 (hraw hp)
      | unit a b d e => exact absurd (List.cons_eq_cons.1 h).1 (hraw hp)
  | letter c =>
      cases q with
      | raw d => exact absurd (List.cons_eq_cons.1 h).1.symm (hraw hq)
      | letter d =>
          cases h
          exact ⟨rfl, rfl⟩
      | unit a b d e =>
          exact absurd (List.cons_eq_cons.1 (List.cons_eq_cons.1 h).2).1 (hunit hp)
  | unit a b c d =>
      cases q with
      | raw d => exact absurd (List.cons_eq_cons.1 h).1.symm (hraw hq)
      | letter d =>
          exact absurd (List.cons_eq_cons.1 (List.cons_eq_cons.1 h).2).1.symm (hunit hq)
      | unit e f g i =>
          cases h
          exact ⟨rfl, rfl⟩

/-- No piece starts with a quote. -/
theorem quote_ne_text {p : StringPiece} (hp : p.WellFormed) (t u : Text) :
    CodePoint.ofChar '"' :: u ≠ p.text ++ t := by
  intro h
  cases p with
  | raw c =>
      have hc := (List.cons_eq_cons.1 h).1
      rw [← hc] at hp
      exact hp.1 rfl
  | letter c => exact absurd (List.cons_eq_cons.1 h).1 (by decide)
  | unit a b c d => exact absurd (List.cons_eq_cons.1 h).1 (by decide)

end StringPiece

theorem pieces_unique {ps qs : List StringPiece} (hps : ∀ p ∈ ps, p.WellFormed)
    (hqs : ∀ q ∈ qs, q.WellFormed) {t u : Text}
    (h : ps.flatMap StringPiece.text ++ CodePoint.ofChar '"' :: t =
      qs.flatMap StringPiece.text ++ CodePoint.ofChar '"' :: u) : ps = qs ∧ t = u := by
  induction ps generalizing qs with
  | nil =>
      cases qs with
      | nil => exact ⟨rfl, (List.cons_eq_cons.1 h).2⟩
      | cons q qs =>
          rw [List.flatMap_cons, List.append_assoc] at h
          exact absurd h (StringPiece.quote_ne_text (hqs q List.mem_cons_self) _ _)
  | cons p ps ih =>
      have hp := hps p List.mem_cons_self
      cases qs with
      | nil =>
          rw [List.flatMap_cons, List.append_assoc] at h
          exact absurd h.symm (StringPiece.quote_ne_text hp _ _)
      | cons q qs =>
          rw [List.flatMap_cons, List.append_assoc, List.flatMap_cons, List.append_assoc] at h
          rcases StringPiece.text_unique hp (hqs q List.mem_cons_self) h with ⟨rfl, hrest⟩
          rcases ih (fun p hp => hps p (List.mem_cons_of_mem _ hp))
            (fun q hq => hqs q (List.mem_cons_of_mem _ hq)) hrest with ⟨rfl, ht⟩
          exact ⟨rfl, ht⟩

theorem stringText_unique {ps qs : List StringPiece} (hps : ∀ p ∈ ps, p.WellFormed)
    (hqs : ∀ q ∈ qs, q.WellFormed) {t u : Text} (h : stringText ps ++ t = stringText qs ++ u) :
    ps = qs ∧ t = u := by
  simp only [stringText, List.cons_append, List.append_assoc, List.nil_append,
    List.cons_eq_cons] at h
  exact pieces_unique hps hqs h.2

theorem render_unique {l k : NumberLiteral} (hl : l.WellFormed) (hk : k.WellFormed)
    (h : l.render = k.render) : l = k := by
  have hread {j : NumberLiteral} (hj : j.WellFormed) : NumberLiteral.read? j.render = some j := by
    rcases NumberLiteral.wellFormed_iff.1 hj with ⟨hscanned, hcomplete⟩
    rw [NumberLiteral.read?_render hscanned, if_pos hcomplete]
  have hlk := hread hl
  rw [h, hread hk] at hlk
  exact (Option.some.inj hlk).symm

/-! ## Rows -/

namespace Row.IsReadBy

variable {ι α : Type} {R : Row ι α} {depth : Nat} {f : Text → Reading α} {c : CodePoint}
  {x y : ι} {xs ys : List ι} {t u : Text}

/-- What follows two things that are read at the same place is the same but for blanks. -/
theorem skip_unique (h : R.IsReadBy depth f) (hx : R.Fits x t) (hy : R.Fits y u)
    (hxneed : R.need x ≤ depth) (hyneed : R.need y ≤ depth)
    (heq : skipBlanks (R.text x ++ t) = skipBlanks (R.text y ++ u)) :
    R.value x = R.value y ∧ skipBlanks t = skipBlanks u := by
  have hread := h.complete hx
  rw [if_pos hxneed, ← h.blanks, heq, h.blanks, h.complete hy, if_pos hyneed] at hread
  rw [Reading.reads.injEq] at hread
  exact ⟨hread.1.symm, hread.2.symm⟩

/-- A row does not start with a comma. -/
theorem exists_head (h : R.IsReadBy depth f) (hc : isClosing c = true)
    (hxs : R.AllFit xs (c :: t)) :
    ∃ d u, skipBlanks (R.allText xs ++ c :: t) = d :: u ∧ d ≠ CodePoint.ofChar ',' ∧
      (isStop d = true ↔ xs = []) := by
  cases xs with
  | nil =>
      refine ⟨c, t, skipBlanks_closing hc t, ne_comma_of_isClosing hc, ?_⟩
      simp [isStop_of_isClosing hc]
  | cons x xs =>
      rcases h.starts hxs.1 with ⟨d, u, hskip, hd⟩
      refine ⟨d, u, ?_, ?_, ?_⟩
      · rw [allText, ← hskip]
        simp only [List.append_assoc]
      · rintro rfl
        cases hd
      · simp [hd]

/-- Whether a comma stands in front of a row is known from the text. -/
theorem comma_unique (h : R.IsReadBy depth f) (hc : isClosing c = true)
    (hxs : R.AllFit xs (c :: t)) (hys : R.AllFit ys (c :: u))
    {a b : Bool} (heq : skipBlanks (commaText a ++ R.allText xs ++ c :: t) =
      skipBlanks (commaText b ++ R.allText ys ++ c :: u)) :
    a = b ∧ skipBlanks (R.allText xs ++ c :: t) = skipBlanks (R.allText ys ++ c :: u) := by
  have htrue (t : Text) : skipBlanks (commaText true ++ t) = CodePoint.ofChar ',' :: t :=
    skipBlanks_cons (by decide) t
  have hfalse (t : Text) : commaText false ++ t = t := rfl
  rcases h.exists_head hc hxs with ⟨d, v, hd, hdcomma, -⟩
  rcases h.exists_head hc hys with ⟨e, w, he, hecomma, -⟩
  rw [List.append_assoc, List.append_assoc] at heq
  cases a with
  | true =>
      rw [htrue] at heq
      cases b with
      | true =>
          rw [htrue, List.cons_eq_cons] at heq
          exact ⟨rfl, by rw [heq.2]⟩
      | false =>
          rw [hfalse, he, List.cons_eq_cons] at heq
          exact absurd heq.1.symm hecomma
  | false =>
      rw [hfalse] at heq
      cases b with
      | true =>
          rw [htrue, hd, List.cons_eq_cons] at heq
          exact absurd heq.1 hdcomma
      | false =>
          rw [hfalse] at heq
          exact ⟨rfl, heq⟩

/-- A row with the same text as an empty one is empty. -/
theorem nil_unique (h : R.IsReadBy depth f) (hc : isClosing c = true)
    (hys : R.AllFit ys (c :: u))
    (heq : skipBlanks (R.allText [] ++ c :: t) = skipBlanks (R.allText ys ++ c :: u)) :
    ys = [] := by
  rcases h.exists_head hc hys with ⟨d, v, hd, -, hstop⟩
  rw [hd, allText_nil, List.nil_append, skipBlanks_closing hc,
    List.cons_eq_cons] at heq
  rw [← hstop, ← heq.1]
  exact isStop_of_isClosing hc

/-- Two rows with the same text have the same first item, and then the same rest. -/
theorem cons_unique (h : R.IsReadBy depth f) (hc : isClosing c = true)
    (hxs : R.AllFit (x :: xs) (c :: t))
    (hys : R.AllFit ys (c :: u)) (hxneed : R.allNeed (x :: xs) ≤ depth)
    (hyneed : R.allNeed ys ≤ depth)
    (heq : skipBlanks (R.allText (x :: xs) ++ c :: t) = skipBlanks (R.allText ys ++ c :: u)) :
    ∃ y zs, ys = y :: zs ∧ R.comma x = R.comma y ∧
      skipBlanks (R.text x ++ (commaText (R.comma x) ++ R.allText xs ++ c :: t)) =
        skipBlanks (R.text y ++ (commaText (R.comma y) ++ R.allText zs ++ c :: u)) ∧
      skipBlanks (R.allText xs ++ c :: t) = skipBlanks (R.allText zs ++ c :: u) := by
  cases ys with
  | nil =>
      have hnil := h.nil_unique hc hxs heq.symm
      cases hnil
  | cons y zs =>
      have hfirst : skipBlanks (R.text x ++ (commaText (R.comma x) ++ R.allText xs ++ c :: t)) =
          skipBlanks (R.text y ++ (commaText (R.comma y) ++ R.allText zs ++ c :: u)) := by
        simpa only [allText, List.append_assoc] using heq
      have hskip := (h.skip_unique hxs.1 hys.1 (R.allNeed_cons_le.1 hxneed).1
        (R.allNeed_cons_le.1 hyneed).1 hfirst).2
      rcases h.comma_unique hc hxs.2 hys.2 hskip with ⟨hxy, hrest⟩
      exact ⟨y, zs, rfl, hxy, hfirst, hrest⟩

end Row.IsReadBy

/-! ## Documents -/

namespace Document

mutual

/-- The document without any blanks. -/
def bare : Document → Document
  | .null => .null
  | .bool b => .bool b
  | .number l => .number l
  | .string pieces => .string pieces
  | .emptyArray _ => .emptyArray []
  | .array items => .array (itemsBare items)
  | .emptyObject _ => .emptyObject []
  | .object members => .object (membersBare members)

def itemsBare : List Item → List Item
  | [] => []
  | .mk _ d _ comma :: items => .mk [] d.bare [] comma :: itemsBare items

def membersBare : List Member → List Member
  | [] => []
  | .mk _ key _ _ d _ comma :: members => .mk [] key [] [] d.bare [] comma :: membersBare members

end

variable {o : Options} {d e : Document} {t u : Text}

/-- Documents that fit and start at the same place have the same value and end together. -/
theorem value_unique (hd : d.Fits o t) (he : e.Fits o u) (h : d.text ++ t = e.text ++ u) :
    d.value o.decode = e.value o.decode ∧ t = u := by
  have hread (n : Nat) (k : Document) (v : Text) (hk : k.Fits o v) (hn : k.need ≤ n + 4) :
      tokenReading o n (valueReading o n) (k.text ++ v) = .reads (k.value o.decode) v := by
    rw [tokenReading_text (isReadBy o n).1 (isReadBy o n).2 hk, if_pos hn]
  have hdread := hread (d.need + e.need) d t hd (by omega)
  rw [h, hread (d.need + e.need) e u he (by omega), Reading.reads.injEq] at hdread
  exact ⟨hdread.1.symm, hdread.2.symm⟩

/-- Items with the same text but for blanks in front are documents that start together. -/
theorem item_text_unique {a b v w : Text} {comma comma' : Bool}
    (hx : (Item.mk a d b comma).Fits o t) (hy : (Item.mk v e w comma').Fits o u)
    (h : skipBlanks ((itemRow o).text (.mk a d b comma) ++ t) =
      skipBlanks ((itemRow o).text (.mk v e w comma') ++ u)) :
    d.text ++ (b ++ t) = e.text ++ (w ++ u) := by
  rcases hx with ⟨ha, -, hd⟩
  rcases hy with ⟨hv, -, he⟩
  simp only [itemRow, Item.text, List.append_assoc] at h
  rwa [skipBlanks_text hd.wellFormed ha, skipBlanks_text he.wellFormed hv] at h

/-- Members with the same text but for blanks in front have the same key, and then documents
that start together. -/
theorem member_text_unique {ak bk a b vk wk v w : Text} {key key' : List StringPiece}
    {comma comma' : Bool} (hx : (Member.mk ak key bk a d b comma).Fits o t)
    (hy : (Member.mk vk key' wk v e w comma').Fits o u)
    (h : skipBlanks ((memberRow o).text (.mk ak key bk a d b comma) ++ t) =
      skipBlanks ((memberRow o).text (.mk vk key' wk v e w comma') ++ u)) :
    key = key' ∧ d.text ++ (b ++ t) = e.text ++ (w ++ u) := by
  rcases hx with ⟨hak, hkey, hbk, ha, -, hd⟩
  rcases hy with ⟨hvk, hkey', hwk, hv, -, he⟩
  have hquote (pieces : List StringPiece) (r : Text) :
      skipBlanks (stringText pieces ++ r) = stringText pieces ++ r :=
    skipBlanks_cons (by decide) _
  have hcolon (r : Text) : skipBlanks (Descent.text ":" ++ r) = Descent.text ":" ++ r :=
    skipBlanks_cons (by decide) r
  simp only [memberRow, Member.text, List.append_assoc] at h
  rw [skipBlanks_append hak, skipBlanks_append hvk, hquote, hquote] at h
  rcases stringText_unique hkey hkey' h with ⟨hkeys, hrest⟩
  have hvalue := congrArg skipBlanks hrest
  rw [skipBlanks_append hbk, skipBlanks_append hwk, hcolon, hcolon,
    List.append_cancel_left_eq] at hvalue
  have htext := congrArg skipBlanks hvalue
  rw [skipBlanks_text hd.wellFormed ha, skipBlanks_text he.wellFormed hv] at htext
  exact ⟨hkeys, htext⟩

theorem ne_of_blank {ι α : Type} {R : Row ι α} {n : Nat} {f : Text → Reading α} {c : CodePoint}
    (h : R.IsReadBy n f) (hc : isClosing c = true) {xs : List ι}
    (hne : xs ≠ []) (hxs : R.AllFit xs (c :: u)) {blank : Text} (hblank : IsBlank blank)
    (heq : blank ++ c :: t = R.allText xs ++ c :: u) : False := by
  have hskip := congrArg skipBlanks heq
  rw [skipBlanks_append hblank] at hskip
  exact hne (h.nil_unique hc hxs hskip)

variable (o)

theorem emptyArray_ne_array {blank : Text} {xs : List Item} (hblank : IsBlank blank)
    (hxs : (array xs).Fits o u) : (emptyArray blank).text ++ t ≠ (array xs).text ++ u := by
  intro h
  rcases fits_array_iff.1 hxs with ⟨hne, hall, -⟩
  rw [text_emptyArray, text_array o, List.cons_append, List.cons_append, List.cons_eq_cons] at h
  exact ne_of_blank (isReadBy o 0).1 rfl hne hall hblank h.2

theorem emptyObject_ne_object {blank : Text} {xs : List Member} (hblank : IsBlank blank)
    (hxs : (object xs).Fits o u) : (emptyObject blank).text ++ t ≠ (object xs).text ++ u := by
  intro h
  rcases fits_object_iff.1 hxs with ⟨hne, hall, -⟩
  rw [text_emptyObject, text_object o, List.cons_append, List.cons_append, List.cons_eq_cons] at h
  exact ne_of_blank (isReadBy o 0).2 rfl hne hall hblank h.2

mutual

theorem bare_unique : ∀ (d e : Document) {t u : Text}, d.Fits o t → e.Fits o u →
    d.text ++ t = e.text ++ u → d.bare = e.bare
  | .null, e, _, _, hd, he, h => by
      have hv := (value_unique hd he h).1
      cases e with
      | null => rfl
      | _ => simp [value] at hv
  | .bool b, e, _, _, hd, he, h => by
      have hv := (value_unique hd he h).1
      cases e with
      | bool c => rw [bare, bare, Value.bool.inj hv]
      | _ => simp [value] at hv
  | .number l, e, _, _, hd, he, h => by
      rcases value_unique hd he h with ⟨hv, rfl⟩
      cases e with
      | number k =>
          rw [bare, bare, render_unique hd.wellFormed he.wellFormed (List.append_cancel_right h)]
      | _ => simp [value] at hv
  | .string ps, e, _, _, hd, he, h => by
      have hv := (value_unique hd he h).1
      cases e with
      | string qs => rw [bare, bare, (stringText_unique hd.wellFormed he.wellFormed h).1]
      | _ => simp [value] at hv
  | .emptyArray a, e, _, _, hd, he, h => by
      have hv := (value_unique hd he h).1
      cases e with
      | emptyArray b => rfl
      | array ys => exact absurd h (emptyArray_ne_array o hd.wellFormed he)
      | _ => simp [value] at hv
  | .array xs, e, _, _, hd, he, h => by
      have hv := (value_unique hd he h).1
      cases e with
      | emptyArray b => exact absurd h.symm (emptyArray_ne_array o he.wellFormed hd)
      | array ys =>
          rcases fits_array_iff.1 hd with ⟨-, hxs, -⟩
          rcases fits_array_iff.1 he with ⟨-, hys, -⟩
          rw [text_array o, text_array o, List.cons_append, List.cons_append,
            List.cons_eq_cons] at h
          rw [bare, bare, itemsBare_unique xs ys hxs hys (congrArg skipBlanks h.2)]
      | _ => simp [value] at hv
  | .emptyObject a, e, _, _, hd, he, h => by
      have hv := (value_unique hd he h).1
      cases e with
      | emptyObject b => rfl
      | object ys => exact absurd h (emptyObject_ne_object o hd.wellFormed he)
      | _ => simp [value] at hv
  | .object xs, e, _, _, hd, he, h => by
      have hv := (value_unique hd he h).1
      cases e with
      | emptyObject b => exact absurd h.symm (emptyObject_ne_object o he.wellFormed hd)
      | object ys =>
          rcases fits_object_iff.1 hd with ⟨-, hxs, -⟩
          rcases fits_object_iff.1 he with ⟨-, hys, -⟩
          rw [text_object o, text_object o, List.cons_append, List.cons_append,
            List.cons_eq_cons] at h
          rw [bare, bare, membersBare_unique xs ys hxs hys (congrArg skipBlanks h.2)]
      | _ => simp [value] at hv

theorem itemsBare_unique : ∀ (xs ys : List Item) {t u : Text},
    (itemRow o).AllFit xs (CodePoint.ofChar ']' :: t) →
    (itemRow o).AllFit ys (CodePoint.ofChar ']' :: u) →
    skipBlanks ((itemRow o).allText xs ++ CodePoint.ofChar ']' :: t) =
      skipBlanks ((itemRow o).allText ys ++ CodePoint.ofChar ']' :: u) →
    itemsBare xs = itemsBare ys
  | [], ys, _, _, _, hys, h => by
      rw [(isReadBy o 0).1.nil_unique rfl hys h]
  | .mk a d b comma :: xs, ys, t, u, hxs, hys, h => by
      have hreads := (isReadBy o
        ((itemRow o).allNeed (.mk a d b comma :: xs) + (itemRow o).allNeed ys)).1
      rcases hreads.cons_unique rfl hxs hys (Nat.le_add_right _ _)
        (Nat.le_add_left _ _) h with ⟨⟨v, e, w, comma'⟩, zs, rfl, hcomma, hfirst, hrest⟩
      have hde := bare_unique d e hxs.1.2.2 hys.1.2.2 (item_text_unique hxs.1 hys.1 hfirst)
      have hlast := itemsBare_unique xs zs hxs.2 hys.2 hrest
      have hcomma : comma = comma' := hcomma
      rw [itemsBare, itemsBare, hde, hlast, hcomma]

theorem membersBare_unique : ∀ (xs ys : List Member) {t u : Text},
    (memberRow o).AllFit xs (CodePoint.ofChar '\x7d' :: t) →
    (memberRow o).AllFit ys (CodePoint.ofChar '\x7d' :: u) →
    skipBlanks ((memberRow o).allText xs ++ CodePoint.ofChar '\x7d' :: t) =
      skipBlanks ((memberRow o).allText ys ++ CodePoint.ofChar '\x7d' :: u) →
    membersBare xs = membersBare ys
  | [], ys, _, _, _, hys, h => by
      rw [(isReadBy o 0).2.nil_unique rfl hys h]
  | .mk ak key bk a d b comma :: xs, ys, t, u, hxs, hys, h => by
      have hreads := (isReadBy o
        ((memberRow o).allNeed (.mk ak key bk a d b comma :: xs) + (memberRow o).allNeed ys)).2
      rcases hreads.cons_unique rfl hxs hys (Nat.le_add_right _ _) (Nat.le_add_left _ _) h with
        ⟨⟨vk, key', wk, v, e, w, comma'⟩, zs, rfl, hcomma, hfirst, hrest⟩
      rcases member_text_unique hxs.1 hys.1 hfirst with ⟨hkey, htext⟩
      have hde := bare_unique d e hxs.1.2.2.2.2.2 hys.1.2.2.2.2.2 htext
      have hlast := membersBare_unique xs zs hxs.2 hys.2 hrest
      have hcomma : comma = comma' := hcomma
      rw [membersBare, membersBare, hde, hlast, hcomma, hkey]

end

end Document

end Json

end Descent
