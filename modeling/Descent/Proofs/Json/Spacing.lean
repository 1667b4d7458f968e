import Descent.Proofs.Json.Endings
import Descent.Proofs.Json.Language
import Descent.Proofs.Json.Scanning

/-!
# Blanks next to structural characters

Blanks may be put in next to a structural character, wherever it stands outside of
strings, and the text keeps its value; there is one exception. Between a trailing
comma and the bracket that closes its container no rule takes them, so a text with
blanks there is refused. The blanks that are put in go to the token that has blanks
at this place, which is found by cutting the document where the text is cut.
-/

namespace Descent

namespace Json

open Document

/-! ## Cuts -/

/-- Between the texts blanks may be put in: the cut lies outside of strings, at an end or next
to a structural character, and without strict separators not between a comma and a closing
bracket. -/
structure IsCut (strict : Bool) (p q : Text) : Prop where
  outside : zone p = .outside
  next : p = [] ∨ q = [] ∨ (∃ c ∈ p.getLast?, isStructural c = true) ∨
    ∃ c ∈ q.head?, isStructural c = true
  apart : strict = false →
    ¬ (p.getLast? = some (CodePoint.ofChar ',') ∧ ∃ c ∈ q.head?, isClosing c = true)

variable {strict : Bool} {p q t u w : Text}

theorem IsCut.of_append_right (h : IsCut strict p (q ++ t)) : IsCut strict p q := by
  cases q with
  | nil => exact ⟨h.outside, .inr (.inl rfl), fun _ hbad => by simp at hbad⟩
  | cons c q =>
      have hnext := h.next
      have hapart := h.apart
      exact ⟨h.outside, by simpa using hnext, by simpa using hapart⟩

theorem getLast?_append_of_ne_nil (t : Text) (h : p ≠ []) : (t ++ p).getLast? = p.getLast? := by
  rw [List.getLast?_append, List.getLast?_eq_some_getLast h]
  rfl

theorem IsCut.of_append_left (h : IsCut strict (t ++ p) q) (ht : zone t = .outside) :
    IsCut strict p q := by
  by_cases hp : p = []
  · rw [hp]
    exact ⟨rfl, .inl rfl, fun _ hbad => by simp at hbad⟩
  · have houtside := h.outside
    have hnext := h.next
    have hapart := h.apart
    rw [zone_append ht] at houtside
    rw [getLast?_append_of_ne_nil t hp] at hnext hapart
    rcases hnext with hnil | hnext
    · exact absurd (List.append_eq_nil_iff.1 hnil).2 hp
    · exact ⟨houtside, .inr hnext, hapart⟩

/-- A word is not cut. -/
theorem IsCut.false_of_word (h : IsCut strict p q) (hp : p ≠ []) (hq : q ≠ [])
    (hword : ∀ c ∈ p ++ q, isWord c = true) : False := by
  have hne (c : CodePoint) (hc : c ∈ p ++ q) (hstructural : isStructural c = true) : False := by
    have hfalse := (isWord_iff.1 (hword c hc)).2.1
    rw [hstructural] at hfalse
    cases hfalse
  rcases h.next with hnil | hnil | ⟨c, hc, hstructural⟩ | ⟨c, hc, hstructural⟩
  · exact hp hnil
  · exact hq hnil
  · exact hne c (List.mem_append_left q (List.mem_of_getLast? hc)) hstructural
  · exact hne c (List.mem_append_right p (List.mem_of_mem_head? hc)) hstructural

/-- A text between brackets is cut inside of them. -/
theorem exists_cut_of_brackets {a c : CodePoint} (h : [a] ++ t ++ [c] = p ++ q) (hp : p ≠ [])
    (hq : q ≠ []) : ∃ r s, p = a :: r ∧ q = s ++ [c] ∧ t = r ++ s := by
  rcases List.exists_cons_of_ne_nil hp with ⟨b, r, rfl⟩
  rcases (List.eq_nil_or_concat' q).resolve_left hq with ⟨s, d, rfl⟩
  rw [List.append_assoc, List.cons_append, List.cons_append, List.nil_append,
    List.cons_eq_cons, ← List.append_assoc] at h
  rcases List.append_inj' h.2 rfl with ⟨ht, hcd⟩
  rw [h.1, ht, hcd]
  exact ⟨r, s, rfl, rfl, rfl⟩

theorem isBlank_insert (hw : IsBlank w) (h : IsBlank (p ++ q)) : IsBlank (p ++ (w ++ q)) := by
  intro c hc
  rcases List.mem_append.1 hc with hc | hc
  · exact h c (List.mem_append_left q hc)
  · rcases List.mem_append.1 hc with hc | hc
    · exact hw c hc
    · exact h c (List.mem_append_right p hc)

/-- A text between blanks is cut in the blanks, or else strictly inside of it. -/
theorem exists_cut_of_blanks {before after : Text} (hbefore : IsBlank before)
    (hafter : IsBlank after) (hw : IsBlank w) (h : before ++ t ++ after = p ++ q) :
    (∃ blank, IsBlank blank ∧ blank ++ t ++ after = p ++ (w ++ q)) ∨
      (∃ blank, IsBlank blank ∧ before ++ t ++ blank = p ++ (w ++ q) ∧
        ∀ next, Loosens (after ++ next) (blank ++ next)) ∨
      ∃ r s, r ≠ [] ∧ s ≠ [] ∧ t = r ++ s ∧ p = before ++ r ∧ q = s ++ after := by
  rw [List.append_assoc] at h
  rcases List.append_eq_append_iff.1 h with ⟨r, rfl, htail⟩ | ⟨b, rfl, rfl⟩
  · rcases List.append_eq_append_iff.1 htail with ⟨a, rfl, rfl⟩ | ⟨s, rfl, rfl⟩
    · -- the cut is in the blanks behind
      refine .inr (.inl ⟨a ++ (w ++ q), isBlank_insert hw hafter, ?_, ?_⟩)
      · simp only [List.append_assoc]
      · intro next
        rw [List.append_assoc, List.append_assoc, List.append_assoc]
        exact loosens_insert hw a (q ++ next)
    · by_cases hr : r = []
      · refine .inl ⟨before ++ (w ++ []), isBlank_insert hw (by simpa using hbefore), ?_⟩
        simp [hr]
      · by_cases hs : s = []
        · refine .inr (.inl ⟨[] ++ (w ++ after), isBlank_insert hw hafter, ?_, ?_⟩)
          · simp [hs]
          · intro next
            rw [List.nil_append, List.append_assoc]
            exact loosens_insert hw [] (after ++ next)
        · exact .inr (.inr ⟨r, s, hr, hs, rfl, rfl, rfl⟩)
  · -- the cut is in the blanks in front
    refine .inl ⟨p ++ (w ++ b), isBlank_insert hw hbefore, ?_⟩
    simp only [List.append_assoc]

/-! ## Rows -/

namespace Row

variable {ι α : Type} (R : Row ι α) {x y : ι} {xs ys : List ι} {next : Text}

/-- The second thing has that text and is like the first one otherwise. -/
structure IsSpaced (x y : ι) (t next : Text) : Prop where
  text_eq : R.text y = t
  comma_eq : R.comma y = R.comma x
  value_eq : R.value y = R.value x
  need_eq : R.need y = R.need x
  fits : R.Fits y next

/-- Blanks may be put in at each cut. -/
def TakesBlanks (strict : Bool) (w : Text) (x : ι) : Prop := ∀ p q next : Text, R.Fits x next →
  R.text x = p ++ q → IsCut strict p q → ∃ y, R.IsSpaced x y (p ++ (w ++ q)) next

/-- The second row has that text and is like the first one otherwise. -/
structure IsAllSpaced (xs ys : List ι) (t next : Text) : Prop where
  text_eq : R.allText ys = t
  ne_nil : ys ≠ []
  values_eq : ys.map R.value = xs.map R.value
  need_eq : R.allNeed ys = R.allNeed xs
  strict : R.IsStrict xs → R.IsStrict ys
  fits : R.AllFit ys next

variable {R}

theorem IsSpaced.head (h : R.IsSpaced x y t (commaText (R.comma x) ++ R.allText xs ++ next))
    (hxs : R.AllFit xs next) :
    R.IsAllSpaced (x :: xs) (y :: xs) (t ++ (commaText (R.comma x) ++ R.allText xs)) next where
  text_eq := by rw [allText, h.text_eq, h.comma_eq, List.append_assoc]
  ne_nil := List.cons_ne_nil y xs
  values_eq := by rw [List.map_cons, List.map_cons, h.value_eq]
  need_eq := by rw [allNeed, allNeed, h.need_eq]
  strict := by
    intro hstrict
    exact ⟨by rw [h.comma_eq]; exact hstrict.1, hstrict.2⟩
  fits := by
    refine ⟨?_, hxs⟩
    rw [h.comma_eq]
    exact h.fits

theorem IsAllSpaced.cons (h : R.IsAllSpaced xs ys t next) (hxs : xs ≠ [])
    (hx : R.Fits x (commaText (R.comma x) ++ t ++ next)) :
    R.IsAllSpaced (x :: xs) (x :: ys) (R.text x ++ (commaText (R.comma x) ++ t)) next where
  text_eq := by rw [allText, h.text_eq, List.append_assoc]
  ne_nil := List.cons_ne_nil x ys
  values_eq := by rw [List.map_cons, List.map_cons, h.values_eq]
  need_eq := by rw [allNeed, allNeed, h.need_eq]
  strict := by
    intro hstrict
    refine ⟨?_, h.strict hstrict.2⟩
    rw [hstrict.1]
    simp [hxs, h.ne_nil]
  fits := by
    refine ⟨?_, h.fits⟩
    rw [h.text_eq]
    exact hx

/-- A row is cut in the text of its first thing, or behind this and its comma. -/
theorem exists_cut_of_cons (h : R.allText (x :: xs) = p ++ q) :
    (∃ b, R.text x = p ++ b ∧ q = b ++ (commaText (R.comma x) ++ R.allText xs)) ∨
      ∃ s, p = R.text x ++ (commaText (R.comma x) ++ s) ∧ commaText (R.comma x) ++ s ≠ [] ∧
        R.allText xs = s ++ q := by
  rw [allText, List.append_assoc] at h
  rcases List.append_eq_append_iff.1 h with ⟨r, rfl, hrest⟩ | ⟨b, hb, rfl⟩
  · cases r with
    | nil => exact .inl ⟨[], by rw [List.append_nil, List.append_nil], hrest.symm⟩
    | cons c s =>
        refine .inr ?_
        cases hcomma : R.comma x with
        | false =>
            rw [hcomma] at hrest
            exact ⟨c :: s, rfl, List.cons_ne_nil c s, hrest⟩
        | true =>
            rw [hcomma] at hrest
            have hcons : CodePoint.ofChar ',' :: R.allText xs = c :: (s ++ q) := hrest
            rw [List.cons_eq_cons] at hcons
            exact ⟨s, by rw [← hcons.1]; rfl, List.cons_ne_nil _ s, hcons.2⟩
  · exact .inl ⟨b, hb, rfl⟩

/-- Blanks may be put in at each cut of a row, but not behind its last comma. -/
theorem exists_allSpaced (hw : IsBlank w)
    (hfits : ∀ {x : ι} {t u : Text}, R.Fits x t → Loosens t u → R.Fits x u)
    (hscan : ∀ x ∈ xs, Scans (R.text x)) (htakes : ∀ x ∈ xs, R.TakesBlanks strict w x)
    (hxs : R.AllFit xs next) (hne : xs ≠ []) (htext : R.allText xs = p ++ q)
    (hcut : IsCut strict p q) (hlast : ¬ (q = [] ∧ p.getLast? = some (CodePoint.ofChar ','))) :
    ∃ ys, R.IsAllSpaced xs ys (p ++ (w ++ q)) next := by
  induction xs generalizing p with
  | nil => exact absurd rfl hne
  | cons x xs ih =>
      have hx := htakes x List.mem_cons_self
      rcases exists_cut_of_cons htext with ⟨b, hb, rfl⟩ | ⟨s, rfl, hr, hs⟩
      · rcases hx _ _ _ hxs.1 hb hcut.of_append_right with ⟨y, hy⟩
        refine ⟨y :: xs, ?_⟩
        have hhead := hy.head hxs.2
        simpa only [List.append_assoc] using hhead
      · -- nothing is left to cut behind the last comma
        have hnext : xs ≠ [] := by
          rintro rfl
          have hnil := List.append_eq_nil_iff.1 hs.symm
          cases hb : R.comma x with
          | false =>
              rw [hb, hnil.1] at hr
              exact hr rfl
          | true =>
              apply hlast
              refine ⟨hnil.2, ?_⟩
              rw [hb, hnil.1, List.append_nil]
              exact getLast?_append_of_ne_nil _ (List.cons_ne_nil _ _)
        have hzone : zone (R.text x ++ commaText (R.comma x)) = .outside := by
          rw [zone_append (hscan x List.mem_cons_self).zone_eq]
          cases R.comma x <;> rfl
        rw [← List.append_assoc] at hcut hlast
        have hlast' : ¬ (q = [] ∧ s.getLast? = some (CodePoint.ofChar ',')) := by
          rintro ⟨hq, hbad⟩
          have hsne : s ≠ [] := by
            rintro rfl
            cases hbad
          exact hlast ⟨hq, by rw [getLast?_append_of_ne_nil _ hsne, hbad]⟩
        rcases ih (fun y hy => hscan y (List.mem_cons_of_mem x hy))
          (fun y hy => htakes y (List.mem_cons_of_mem x hy)) hxs.2 hnext hs
          (hcut.of_append_left hzone) hlast' with ⟨ys, hys⟩
        refine ⟨x :: ys, ?_⟩
        have hxfits : R.Fits x (commaText (R.comma x) ++ (s ++ (w ++ q)) ++ next) := by
          apply hfits hxs.1
          rw [hs]
          have hloosens := loosens_insert hw (commaText (R.comma x) ++ s) (q ++ next)
          simpa only [List.append_assoc] using hloosens
        have hcons := hys.cons hnext hxfits
        simpa only [List.append_assoc] using hcons

end Row

/-! ## Documents -/

theorem zone_blank {blank : Text} (h : IsBlank blank) : zone blank = .outside := by
  rw [← fst_scan .plain, scan_blank_plain h]

/-- Inside of a string no place is outside of strings. -/
theorem zone_string_ne {pieces : List StringPiece} (h : ∀ p ∈ pieces, p.WellFormed)
    (htext : stringText pieces = p ++ q) (hp : p ≠ []) (hq : q ≠ []) : zone p ≠ .outside := by
  have hbrackets : [CodePoint.ofChar '"'] ++ pieces.flatMap StringPiece.text ++
      [CodePoint.ofChar '"'] = p ++ q := by
    rw [← htext]
    rfl
  rcases exists_cut_of_brackets hbrackets hp hq with ⟨r, s, rfl, rfl, hrs⟩
  have hstays := (staysInside_pieces h).1
  rw [hrs] at hstays
  exact hstays.prefix_ne

namespace Document

/-- The second document has that text and is like the first one otherwise. -/
structure IsSpaced (o : Options) (d e : Document) (t next : Text) : Prop where
  text_eq : e.text = t
  value_eq : e.value o.decode = d.value o.decode
  need_eq : e.need = d.need
  fits : e.Fits o next

/-- Blanks may be put in at each cut inside of the document. -/
def TakesBlanks (o : Options) (w : Text) (d : Document) : Prop := ∀ p q next : Text,
  d.Fits o next → d.text = p ++ q → p ≠ [] → q ≠ [] → IsCut o.strict p q →
    ∃ e, IsSpaced o d e (p ++ (w ++ q)) next

variable {o : Options} {d : Document} {items : List Item} {members : List Member}

theorem item_takesBlanks (hw : IsBlank w) (hd : d.TakesBlanks o w) (before after : Text)
    (comma : Bool) : (itemRow o).TakesBlanks o.strict w (.mk before d after comma) := by
  intro p q next hfits htext hcut
  rcases hfits with ⟨hbefore, hafter, hdfits⟩
  rcases exists_cut_of_blanks hbefore hafter hw htext with
    ⟨blank, hblank, h⟩ | ⟨blank, hblank, h, hloosens⟩ | ⟨r, s, hr, hs, hrs, rfl, rfl⟩
  · exact ⟨.mk blank d after comma, h, rfl, rfl, rfl, hblank, hafter, hdfits⟩
  · exact ⟨.mk before d blank comma, h, rfl, rfl, rfl, hbefore, hblank,
      hdfits.of_loosens (hloosens next)⟩
  · have hinner := (hcut.of_append_left (zone_blank hbefore)).of_append_right
    rcases hd r s (after ++ next) hdfits hrs hr hs hinner with ⟨e, he⟩
    refine ⟨.mk before e after comma, ?_, rfl, he.value_eq, he.need_eq, hbefore, hafter, he.fits⟩
    simp [itemRow, Item.text, he.text_eq]

theorem member_text_eq (beforeKey : Text) (key : List StringPiece) (afterKey before : Text)
    (d : Document) (after : Text) (comma : Bool) :
    (Member.mk beforeKey key afterKey before d after comma).text =
      beforeKey ++ stringText key ++ afterKey ++
        CodePoint.ofChar ':' :: (before ++ d.text ++ after) := by
  simp [Member.text, Descent.text]

theorem member_takesBlanks (hw : IsBlank w) (hd : d.TakesBlanks o w) (beforeKey : Text)
    (key : List StringPiece) (afterKey before after : Text) (comma : Bool) :
    (memberRow o).TakesBlanks o.strict w (.mk beforeKey key afterKey before d after comma) := by
  intro p q next hfits htext hcut
  rcases hfits with ⟨hbeforeKey, hkey, hafterKey, hbefore, hafter, hdfits⟩
  have htext : beforeKey ++ stringText key ++ afterKey ++
      CodePoint.ofChar ':' :: (before ++ d.text ++ after) = p ++ q := by
    rw [← member_text_eq _ _ _ _ _ _ comma]
    exact htext
  have hscans : Scans (beforeKey ++ stringText key ++ afterKey ++ Descent.text ":") :=
    ((Scans.of_string hkey).of_blanks hbeforeKey hafterKey).append .of_colon
  -- cut in what is in front of the colon, or behind the colon
  have hsplit : (∃ b, beforeKey ++ stringText key ++ afterKey = p ++ b ∧
        q = b ++ CodePoint.ofChar ':' :: (before ++ d.text ++ after)) ∨
      ∃ r, p = beforeKey ++ stringText key ++ afterKey ++ Descent.text ":" ++ r ∧
        before ++ d.text ++ after = r ++ q := by
    rcases List.append_eq_append_iff.1 htext with ⟨r, hp, hr⟩ | ⟨b, hb, hq⟩
    · cases r with
      | nil => exact .inl ⟨[], by rw [hp, List.append_nil, List.append_nil], hr.symm⟩
      | cons c r =>
          rw [List.cons_append, List.cons_eq_cons] at hr
          refine .inr ⟨r, ?_, hr.2⟩
          rw [hp, ← hr.1]
          simp [Descent.text]
    · exact .inl ⟨b, hb, hq⟩
  rcases hsplit with ⟨b, hb, rfl⟩ | ⟨r, rfl, hr⟩
  · rcases exists_cut_of_blanks hbeforeKey hafterKey hw hb with
      ⟨blank, hblank, h⟩ | ⟨blank, hblank, h, -⟩ | ⟨r, s, hr, hs, hrs, rfl, rfl⟩
    · refine ⟨.mk blank key afterKey before d after comma, ?_, rfl, rfl, rfl, hblank, hkey,
        hafterKey, hbefore, hafter, hdfits⟩
      refine (member_text_eq blank key afterKey before d after comma).trans ?_
      rw [h, List.append_assoc, List.append_assoc]
    · refine ⟨.mk beforeKey key blank before d after comma, ?_, rfl, rfl, rfl, hbeforeKey, hkey,
        hblank, hbefore, hafter, hdfits⟩
      refine (member_text_eq beforeKey key blank before d after comma).trans ?_
      rw [h, List.append_assoc, List.append_assoc]
    · have hinner := (hcut.of_append_left (zone_blank hbeforeKey)).outside
      exact absurd hinner (zone_string_ne hkey hrs hr hs)
  · have hitem := item_takesBlanks hw hd before after comma r q next ⟨hbefore, hafter, hdfits⟩ hr
      (hcut.of_append_left hscans.zone_eq)
    rcases hitem with ⟨⟨before', e, after', comma'⟩, he⟩
    rcases he.fits with ⟨hbefore', hafter', hefits⟩
    refine ⟨.mk beforeKey key afterKey before' e after' comma, ?_, rfl, ?_, he.need_eq, hbeforeKey,
      hkey, hafterKey, hbefore', hafter', hefits⟩
    · have htext' : before' ++ e.text ++ after' = r ++ (w ++ q) := he.text_eq
      simp only [List.append_assoc] at htext'
      simp only [memberRow, Member.text, List.append_assoc, htext']
    · have hvalue : e.value o.decode = d.value o.decode := he.value_eq
      simp only [memberRow, Member.value, hvalue]

/-- Behind the opening bracket a cut of a container is one of its row, and it does not leave a
trailing comma in front of the closing bracket. -/
theorem cut_of_brackets {ι α : Type} {R : Row ι α} {xs : List ι} {a c : CodePoint}
    (ha : zone [a] = .outside) (hc : isClosing c = true) (hscan : ∀ x ∈ xs, Scans (R.text x))
    (hne : xs ≠ []) (htext : R.allText xs = p ++ q) (hstrict : strict = true → R.IsStrict xs)
    (h : IsCut strict (a :: p) (q ++ [c])) :
    IsCut strict p q ∧ ¬ (q = [] ∧ p.getLast? = some (CodePoint.ofChar ',')) := by
  have hcut : IsCut strict p (q ++ [c]) := IsCut.of_append_left (t := [a]) h ha
  refine ⟨hcut.of_append_right, ?_⟩
  rintro ⟨rfl, hlast⟩
  cases hs : strict with
  | false => exact hcut.apart hs ⟨hlast, c, rfl, hc⟩
  | true =>
      rw [List.append_nil] at htext
      have hplain := R.scans_of_isStrict hscan (hstrict hs) hne .plain (by simp)
      rcases scan_comma hcut.outside hlast with ⟨s, hscan, hcomma⟩
      rw [htext, hscan] at hplain
      cases hplain
      rcases hcomma with hcomma | hcomma
      · cases hcomma
      · cases hcomma

theorem emptyArray_takesBlanks (hw : IsBlank w) (blank : Text) :
    (emptyArray blank).TakesBlanks o w := by
  intro p q next hfits htext hp hq hcut
  rcases exists_cut_of_brackets (a := CodePoint.ofChar '[') (c := CodePoint.ofChar ']') htext hp hq
    with ⟨r, s, rfl, rfl, rfl⟩
  refine ⟨emptyArray (r ++ (w ++ s)), ?_, rfl, rfl, isBlank_insert hw hfits.wellFormed,
    fun _ => trivial, trivial⟩
  simp [text, Descent.text]

theorem emptyObject_takesBlanks (hw : IsBlank w) (blank : Text) :
    (emptyObject blank).TakesBlanks o w := by
  intro p q next hfits htext hp hq hcut
  rcases exists_cut_of_brackets (a := CodePoint.ofChar '\x7b') (c := CodePoint.ofChar '\x7d') htext
    hp hq with ⟨r, s, rfl, rfl, rfl⟩
  refine ⟨emptyObject (r ++ (w ++ s)), ?_, rfl, rfl, isBlank_insert hw hfits.wellFormed,
    fun _ => trivial, trivial⟩
  simp [text, Descent.text]

theorem item_fits_loosens {x : Item} (hx : (itemRow o).Fits x t) (h : Loosens t u) :
    (itemRow o).Fits x u := by
  rcases x with ⟨before, d, after, comma⟩
  rcases hx with ⟨hbefore, hafter, hd⟩
  exact ⟨hbefore, hafter, hd.of_loosens (h.append_left after)⟩

theorem member_fits_loosens {x : Member} (hx : (memberRow o).Fits x t) (h : Loosens t u) :
    (memberRow o).Fits x u := by
  rcases x with ⟨beforeKey, key, afterKey, before, d, after, comma⟩
  rcases hx with ⟨hbeforeKey, hkey, hafterKey, hbefore, hafter, hd⟩
  exact ⟨hbeforeKey, hkey, hafterKey, hbefore, hafter, hd.of_loosens (h.append_left after)⟩

theorem array_takesBlanks (hw : IsBlank w)
    (htakes : ∀ x ∈ items, (itemRow o).TakesBlanks o.strict w x) :
    (array items).TakesBlanks o w := by
  intro p q next hfits htext hp hq hcut
  rcases fits_array_iff.1 hfits with ⟨hne, hall, hstrict⟩
  have hscan : ∀ x ∈ items, Scans ((itemRow o).text x) := scans_items items hfits.wellFormed.2
  rcases exists_cut_of_brackets (a := CodePoint.ofChar '[') (c := CodePoint.ofChar ']') htext hp hq
    with ⟨r, s, rfl, rfl, hrs⟩
  rw [itemsText_eq o] at hrs
  rcases cut_of_brackets rfl rfl hscan hne hrs hstrict hcut with ⟨hinner, hlast⟩
  rcases Row.exists_allSpaced hw item_fits_loosens hscan htakes hall hne hrs hinner hlast with
    ⟨ys, hys⟩
  refine ⟨array ys, ?_, ?_, ?_,
    fits_array_iff.2 ⟨hys.ne_nil, hys.fits, fun h => hys.strict (hstrict h)⟩⟩
  · rw [text, itemsText_eq o, hys.text_eq]
    simp [Descent.text]
  · rw [value, value, itemValues_eq, itemValues_eq, hys.values_eq]
  · rw [need, need, itemsNeed_eq o, itemsNeed_eq o, hys.need_eq]

theorem object_takesBlanks (hw : IsBlank w)
    (htakes : ∀ x ∈ members, (memberRow o).TakesBlanks o.strict w x) :
    (object members).TakesBlanks o w := by
  intro p q next hfits htext hp hq hcut
  rcases fits_object_iff.1 hfits with ⟨hne, hall, hstrict⟩
  have hscan : ∀ x ∈ members, Scans ((memberRow o).text x) :=
    scans_members members hfits.wellFormed.2
  rcases exists_cut_of_brackets (a := CodePoint.ofChar '\x7b') (c := CodePoint.ofChar '\x7d') htext
    hp hq with ⟨r, s, rfl, rfl, hrs⟩
  rw [membersText_eq o] at hrs
  rcases cut_of_brackets rfl rfl hscan hne hrs hstrict hcut with ⟨hinner, hlast⟩
  rcases Row.exists_allSpaced hw member_fits_loosens hscan htakes hall hne hrs hinner hlast with
    ⟨ys, hys⟩
  refine ⟨object ys, ?_, ?_, ?_,
    fits_object_iff.2 ⟨hys.ne_nil, hys.fits, fun h => hys.strict (hstrict h)⟩⟩
  · rw [text, membersText_eq o, hys.text_eq]
    simp [Descent.text]
  · rw [value, value, ← dictOf_members, ← dictOf_members, hys.values_eq]
  · rw [need, need, membersNeed_eq o, membersNeed_eq o, hys.need_eq]

/-- What is written as words has no cut inside. -/
theorem takesBlanks_of_word (hword : ∀ c ∈ d.text, isWord c = true) : d.TakesBlanks o w := by
  intro p q next _ htext hp hq hcut
  rw [htext] at hword
  exact (hcut.false_of_word hp hq hword).elim

variable (o)

mutual

/-- Blanks may be put in at each cut of a document. -/
theorem takesBlanks (hw : IsBlank w) : ∀ d : Document, d.WellFormed → d.TakesBlanks o w
  | .null, _ => takesBlanks_of_word (by decide)
  | .bool true, _ => takesBlanks_of_word (by decide)
  | .bool false, _ => takesBlanks_of_word (by decide)
  | .number _, h => takesBlanks_of_word fun _ hc => isWord_of_mem_render h hc
  | .string _, h => fun _ _ _ _ htext hp hq hcut =>
      absurd hcut.outside (zone_string_ne h htext hp hq)
  | .emptyArray blank, _ => emptyArray_takesBlanks hw blank
  | .array items, h => array_takesBlanks hw (items_takeBlanks hw items h.2)
  | .emptyObject blank, _ => emptyObject_takesBlanks hw blank
  | .object members, h => object_takesBlanks hw (members_takeBlanks hw members h.2)

theorem items_takeBlanks (hw : IsBlank w) : ∀ items : List Item, ItemsWellFormed items →
    ∀ x ∈ items, (itemRow o).TakesBlanks o.strict w x
  | [], _, _, hx => nomatch hx
  | .mk before d after comma :: items, h, x, hx => by
      rcases List.mem_cons.1 hx with rfl | hx
      · exact item_takesBlanks hw (takesBlanks hw d h.2.1) before after comma
      · exact items_takeBlanks hw items h.2.2.2 x hx

theorem members_takeBlanks (hw : IsBlank w) : ∀ members : List Member,
    MembersWellFormed members → ∀ x ∈ members, (memberRow o).TakesBlanks o.strict w x
  | [], _, _, hx => nomatch hx
  | .mk beforeKey key afterKey before d after comma :: members, h, x, hx => by
      rcases List.mem_cons.1 hx with rfl | hx
      · exact member_takesBlanks hw (takesBlanks hw d h.2.2.2.2.1) beforeKey key afterKey
          before after comma
      · exact members_takeBlanks hw members h.2.2.2.2.2.2 x hx

end

end Document

/-! ## Texts -/

section

variable {o : Options} {v : Value} {x y : Text}

/-- Blanks that are put in at a cut change no value. -/
theorem parse_cut (h : parse o (p ++ q) = .ok v) (hw : IsBlank w) (hcut : IsCut o.strict p q) :
    parse o (p ++ (w ++ q)) = .ok v := by
  rcases exists_derivation h with ⟨D, hD⟩
  have hfits : Item.Fits o (.mk D.before D.document D.after false) [] := by
    refine ⟨D.before_isBlank, D.after_isBlank, ?_⟩
    rw [List.append_nil]
    exact D.allowed
  have htext : (itemRow o).text (.mk D.before D.document D.after false) = p ++ q := by
    have htext := D.text_eq
    rw [← List.append_assoc] at htext
    exact htext
  rcases item_takesBlanks hw (takesBlanks o hw D.document D.allowed.wellFormed) D.before D.after
    false p q [] hfits htext hcut with ⟨⟨before, e, after, comma⟩, he⟩
  rcases he.fits with ⟨hbefore, hafter, hefits⟩
  rw [List.append_nil] at hefits
  have heq : before ++ (e.text ++ after) = p ++ (w ++ q) := by
    rw [← he.text_eq, ← List.append_assoc]
    rfl
  have hE := parse_of_derivation ⟨before, e, after, hbefore, hafter, hefits, heq⟩
  have hneed : e.need = D.document.need := he.need_eq
  have hvalue : e.value o.decode = D.document.value o.decode := he.value_eq
  have hparse := parse_of_derivation D
  rw [h] at hparse
  by_cases hn : D.document.need ≤ depthLimit
  · rw [if_pos (hneed ▸ hn)] at hE
    rw [hE, hvalue, hD]
  · rw [if_neg hn] at hparse
    cases hparse

/-- A text with blanks between a comma and a closing bracket has no value. -/
theorem parse_gap_ne (hw : IsBlank w) (hne : w ≠ []) (hzone : zone p = .outside)
    (hlast : p.getLast? = some (CodePoint.ofChar ',')) {c : CodePoint} (hc : isClosing c = true)
    (t : Text) (v : Value) : parse o (p ++ (w ++ c :: t)) ≠ .ok v := by
  intro h
  rcases exists_derivation h with ⟨D, -⟩
  have hscans := (D.document.scans D.allowed.wellFormed).of_blanks D.before_isBlank D.after_isBlank
  have hplain := hscans .plain (by simp)
  have hbroken := scan_broken hw hne hzone hlast hc t
  rw [← D.text_eq, ← List.append_assoc, hplain] at hbroken
  cases hbroken

/-- The place between the texts is outside of strings, and directly before or behind a structural
character. -/
structure IsNextToStructure (x y : Text) : Prop where
  outside : zone x = .outside
  structural : (∃ c ∈ x.getLast?, isStructural c = true) ∨ ∃ c ∈ y.head?, isStructural c = true

/-- The place between the texts is that between a trailing comma and the closing bracket, which
a grammar without strict separators has. -/
structure IsTrailing (o : Options) (x y : Text) : Prop where
  loose : o.strict = false
  comma : x.getLast? = some (CodePoint.ofChar ',')
  closing : ∃ c ∈ y.head?, isClosing c = true

/-- Blanks next to a structural character change no value, but behind a trailing comma they
leave the text without one. -/
theorem parse_insert_blanks (h : parse o (x ++ y) = .ok v) (hw : IsBlank w)
    (hplace : IsNextToStructure x y) :
    (¬ (IsTrailing o x y ∧ w ≠ []) → parse o (x ++ w ++ y) = .ok v) ∧
      (IsTrailing o x y ∧ w ≠ [] → ∀ u, parse o (x ++ w ++ y) ≠ .ok u) := by
  rw [List.append_assoc]
  constructor
  · intro hok
    by_cases hne : w = []
    · rw [hne]
      exact h
    · apply parse_cut h hw
      refine ⟨hplace.outside, .inr (.inr hplace.structural), ?_⟩
      rintro hloose ⟨hcomma, hclosing⟩
      exact hok ⟨⟨hloose, hcomma, hclosing⟩, hne⟩
  · rintro ⟨⟨-, hcomma, c, hc, hclosing⟩, hne⟩ u
    cases y with
    | nil => cases hc
    | cons d t =>
        cases hc
        exact parse_gap_ne hw hne hplace.outside hcomma hclosing t u

end

/-- The array with a trailing comma keeps its value with a blank in front of the comma, and has
none with a blank behind it. -/
theorem parse_trailing_comma :
    let one : Value := .list [.float (digitLiteral false '1').toBinary64]
    parse {} (text "[1,]") = .ok one ∧ parse {} (text "[1 ,]") = .ok one ∧
      ∀ u, parse {} (text "[1, ]") ≠ .ok u := by
  intro one
  let d : Document := .array [.mk [] (.number (digitLiteral false '1')) [] true]
  have hnil : IsBlank [] := fun _ hc => nomatch hc
  have hnumber : IsLoose (.number (digitLiteral false '1')) (text ",]") :=
    isLoose_digit false rfl ⟨by decide, by decide, by decide⟩
  have hloose : IsLoose d [] :=
    ⟨⟨List.cons_ne_nil _ _, hnil, hnumber.1, hnil, trivial⟩, hnumber.2, trivial⟩
  have hparse : parse {} (text "[1,]") = .ok one := by
    have hD := parse_of_derivation (o := {}) (t := text "[1,]")
      ⟨[], d, [], hnil, hnil, (fits_loose_iff rfl).2 hloose, rfl⟩
    have hdepth : d.depth ≤ 100 := Nat.le_add_right 1 99
    rw [hD, if_pos (need_le_depthLimit hdepth)]
    rfl
  have hblank : IsBlank (text " ") := by
    intro c hc
    rw [List.mem_singleton.1 hc]
    rfl
  constructor
  · exact hparse
  constructor
  · have hplace : IsNextToStructure (text "[1") (text ",]") := ⟨rfl, .inr ⟨_, rfl, rfl⟩⟩
    apply (parse_insert_blanks (x := text "[1") (y := text ",]") hparse hblank hplace).1
    rintro ⟨htrailing, -⟩
    cases htrailing.comma
  · have hplace : IsNextToStructure (text "[1,") (text "]") := ⟨rfl, .inl ⟨_, rfl, rfl⟩⟩
    have htrailing : IsTrailing {} (text "[1,") (text "]") := ⟨rfl, rfl, _, rfl, rfl⟩
    exact (parse_insert_blanks (x := text "[1,") (y := text "]") hparse hblank hplace).2
      ⟨htrailing, List.cons_ne_nil _ _⟩

end Json

end Descent
