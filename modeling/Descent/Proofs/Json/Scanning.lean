import Descent.Proofs.Json.Documents

/-!
# Scanning texts

Which places of a text are outside of its string literals is found by going through
it from the left. On the way the scanner looks at trailing commas: the seam is broken
for good once blanks stand between a comma and a closing bracket. A document that
fits is left outside of strings, and its seam is whole.
-/

namespace Descent

namespace Json

open Document

/-- Where a place of a text lies with respect to string literals. -/
inductive Zone where
  | outside
  | inside
  /-- Behind a backslash. -/
  | escaped
deriving DecidableEq

def Zone.step : Zone → CodePoint → Zone
  | .outside, c => if c = CodePoint.ofChar '"' then .inside else .outside
  | .inside, c =>
    if c = CodePoint.ofChar '"' then .outside
    else if c = CodePoint.ofChar '\\' then .escaped
    else .inside
  | .escaped, _ => .inside

/-- The zone behind a text. -/
def zone (t : Text) : Zone := t.foldl Zone.step .outside

/-- What was passed last: a comma, a comma and blanks, or something else. -/
inductive Seam where
  | plain
  | comma
  | gap
  /-- A closing bracket came after a comma and blanks. -/
  | broken
deriving DecidableEq

def Seam.step (s : Seam) (c : CodePoint) : Seam :=
  if s = .broken then .broken
  else if c = CodePoint.ofChar ',' then .comma
  else if isBlank c then (if s = .plain then .plain else .gap)
  else if isClosing c && s = .gap then .broken
  else .plain

/-- Seams are passed outside of strings alone. -/
def scanStep (s : Zone × Seam) (c : CodePoint) : Zone × Seam :=
  (s.1.step c, if s.1 = .outside then s.2.step c else s.2)

/-- The zone and the seam behind a text, from a seam on that is outside of strings. -/
def scan (s : Seam) (t : Text) : Zone × Seam := t.foldl scanStep (.outside, s)

theorem fst_foldl_scanStep (t : Text) (s : Zone × Seam) :
    (t.foldl scanStep s).1 = t.foldl Zone.step s.1 := by
  induction t generalizing s with
  | nil => rfl
  | cons c t ih => exact ih (scanStep s c)

theorem fst_scan (s : Seam) (t : Text) : (scan s t).1 = zone t :=
  fst_foldl_scanStep t (.outside, s)

@[simp] theorem scan_nil (s : Seam) : scan s [] = (.outside, s) := rfl

/-- A text is scanned on behind one that ends outside of strings. -/
theorem scan_append {s s' : Seam} {t : Text} (h : scan s t = (.outside, s')) (u : Text) :
    scan s (t ++ u) = scan s' u := by
  rw [scan, List.foldl_append, ← scan, h]
  rfl

theorem scan_cons {c : CodePoint} (h : c ≠ CodePoint.ofChar '"') (s : Seam) (t : Text) :
    scan s (c :: t) = scan (s.step c) t := by
  simp [scan, scanStep, Zone.step, h]

theorem zone_append {t : Text} (h : zone t = .outside) (u : Text) : zone (t ++ u) = zone u := by
  rw [zone, List.foldl_append, ← zone, h]
  rfl

/-- Once a seam is broken it stays so. -/
theorem snd_foldl_broken (t : Text) (z : Zone) : (t.foldl scanStep (z, .broken)).2 = .broken := by
  induction t generalizing z with
  | nil => rfl
  | cons c t ih =>
      have hstep : scanStep (z, .broken) c = (z.step c, .broken) := by
        simp [scanStep, Seam.step]
      rw [List.foldl_cons, hstep]
      exact ih (z.step c)

/-- The scanner gets through the text from any whole seam on, and nothing is left of it. -/
def Scans (t : Text) : Prop := ∀ s, s ≠ .broken → scan s t = (.outside, .plain)

theorem Scans.zone_eq {t : Text} (h : Scans t) : zone t = .outside := by
  have hplain := h .plain (by simp)
  rw [← fst_scan .plain, hplain]

theorem Scans.append {t u : Text} (ht : Scans t) (hu : Scans u) : Scans (t ++ u) := by
  intro s hs
  rw [scan_append (ht s hs)]
  exact hu .plain (by simp)

/-! ## Blanks -/

theorem ne_quote_of_isBlank {c : CodePoint} (h : isBlank c = true) : c ≠ CodePoint.ofChar '"' := by
  rintro rfl
  cases h

theorem ne_comma_of_isBlank {c : CodePoint} (h : isBlank c = true) : c ≠ CodePoint.ofChar ',' := by
  rintro rfl
  cases h

theorem step_blank {c : CodePoint} (h : isBlank c = true) {s : Seam} (hs : s ≠ .broken) :
    s.step c = if s = .plain then .plain else .gap := by
  simp [Seam.step, hs, ne_comma_of_isBlank h, h]

/-- Blanks change nothing unless there was a comma. -/
theorem scan_blank_plain {blank : Text} (h : IsBlank blank) :
    scan .plain blank = (.outside, .plain) := by
  induction blank with
  | nil => rfl
  | cons c blank ih =>
      have hc : isBlank c = true := h c List.mem_cons_self
      rw [scan_cons (ne_quote_of_isBlank hc), step_blank hc (by simp), if_pos rfl]
      exact ih fun d hd => h d (List.mem_cons_of_mem c hd)

/-- Blanks break no seam. -/
theorem exists_scan_blank {blank : Text} (h : IsBlank blank) {s : Seam} (hs : s ≠ .broken) :
    ∃ s', s' ≠ .broken ∧ scan s blank = (.outside, s') := by
  induction blank generalizing s with
  | nil => exact ⟨s, hs, rfl⟩
  | cons c blank ih =>
      have hc : isBlank c = true := h c List.mem_cons_self
      rw [scan_cons (ne_quote_of_isBlank hc), step_blank hc hs]
      apply ih
      · intro d hd
        exact h d (List.mem_cons_of_mem c hd)
      · split <;> simp

theorem Scans.of_blanks {before t after : Text} (hbefore : IsBlank before) (ht : Scans t)
    (hafter : IsBlank after) : Scans (before ++ t ++ after) := by
  intro s hs
  rcases exists_scan_blank hbefore hs with ⟨s', hs', hscan⟩
  rw [List.append_assoc, scan_append hscan, scan_append (ht s' hs')]
  exact scan_blank_plain hafter

/-- Behind anything else the seam starts anew. -/
theorem step_other {c : CodePoint} (h : isBlank c = false) (hclosing : isClosing c = false)
    (hcomma : c ≠ CodePoint.ofChar ',') {s : Seam} (hs : s ≠ .broken) : s.step c = .plain := by
  simp [Seam.step, hs, h, hclosing, hcomma]

/-! ## Words -/

/-- One of the six structural characters. -/
def isStructural (c : CodePoint) : Bool := [91, 93, 123, 125, 44, 58].contains c.val

/-- A code point of a constant or a number. -/
def isWord (c : CodePoint) : Bool := !isBlank c && !isStructural c && c ≠ CodePoint.ofChar '"'

theorem isWord_iff {c : CodePoint} : isWord c = true ↔
    isBlank c = false ∧ isStructural c = false ∧ c ≠ CodePoint.ofChar '"' := by
  simp [isWord, and_assoc]

theorem isStructural_of_isClosing {c : CodePoint} (h : isClosing c = true) :
    isStructural c = true := by
  have hc : c.val = 93 ∨ c.val = 125 := by simpa [isClosing] using h
  rcases hc with hc | hc <;> simp [isStructural, hc]

theorem step_word {c : CodePoint} (h : isWord c = true) {s : Seam} (hs : s ≠ .broken) :
    s.step c = .plain := by
  rcases isWord_iff.1 h with ⟨hblank, hstructural, -⟩
  have hcomma : c ≠ CodePoint.ofChar ',' := by
    rintro rfl
    cases hstructural
  have hclosing : isClosing c = false := by
    cases hc : isClosing c with
    | false => rfl
    | true =>
        rw [isStructural_of_isClosing hc] at hstructural
        cases hstructural
  exact step_other hblank hclosing hcomma hs

theorem Scans.of_word {t : Text} (hne : t ≠ []) (h : ∀ c ∈ t, isWord c = true) : Scans t := by
  induction t with
  | nil => exact absurd rfl hne
  | cons c t ih =>
      intro s hs
      have hc := h c List.mem_cons_self
      rw [scan_cons (isWord_iff.1 hc).2.2, step_word hc hs]
      cases t with
      | nil => rfl
      | cons d t =>
          exact ih (List.cons_ne_nil d t) (fun e he => h e (List.mem_cons_of_mem c he)) .plain
            (by simp)

theorem isWord_of_val {c : CodePoint} (h : c.val ∉ [32, 9, 10, 13, 91, 93, 123, 125, 44, 58, 34]) :
    isWord c = true := by
  apply isWord_iff.2
  have hquote : c ≠ CodePoint.ofChar '"' := by
    rintro rfl
    exact h (by decide)
  simp only [isBlank, isStructural, List.contains_eq_mem, decide_eq_false_iff_not]
  simp only [List.mem_cons, List.not_mem_nil, or_false] at h ⊢
  exact ⟨by omega, by omega, hquote⟩

theorem isWord_of_isDigit {c : CodePoint} (h : c.isDigit = true) : isWord c = true := by
  rcases CodePoint.between_iff.1 h with ⟨hlo, hhi⟩
  have hlo : 48 ≤ c.val := hlo
  have hhi : c.val ≤ 57 := hhi
  apply isWord_of_val
  simp only [List.mem_cons, List.not_mem_nil, or_false]
  omega

/-- A literal is a word. -/
theorem isWord_of_mem_render {l : NumberLiteral} (h : l.WellFormed) {c : CodePoint}
    (hc : c ∈ l.render) : isWord c = true := by
  rw [NumberLiteral.render_eq, List.mem_append, List.mem_append, List.mem_append] at hc
  rcases hc with ((hc | hc) | hc) | hc
  · unfold NumberLiteral.signText at hc
    split at hc
    · rw [List.mem_singleton.1 hc]
      rfl
    · cases hc
  · exact isWord_of_isDigit (h.whole_digits.2 c hc)
  · cases hf : l.fraction with
    | none =>
        rw [hf] at hc
        cases hc
    | some digits =>
        rw [hf] at hc
        rcases List.mem_cons.1 hc with rfl | hc
        · rfl
        · exact isWord_of_isDigit ((h.fraction_digits digits hf).2 c hc)
  · cases he : l.exponent with
    | none =>
        rw [he] at hc
        cases hc
    | some e =>
        rw [he] at hc
        rcases List.mem_cons.1 hc with rfl | hc
        · have hmark := h.exponent_mark e he
          have hmark : e.mark = CodePoint.ofChar 'e' ∨ e.mark = CodePoint.ofChar 'E' := by
            simpa [NumberLiteral.isExponentMark] using hmark
          rcases hmark with hmark | hmark <;> rw [hmark] <;> rfl
        · rcases List.mem_append.1 hc with hc | hc
          · have hsign := h.exponent_sign e he c (by simpa using hc)
            have hsign : c = CodePoint.ofChar '+' ∨ c = CodePoint.ofChar '-' := by
              simpa [NumberLiteral.isExponentSign] using hsign
            rcases hsign with rfl | rfl <;> rfl
          · exact isWord_of_isDigit ((h.exponent_digits e he).2 c hc)

/-! ## Strings -/

/-- Nowhere in the text is the place outside. -/
def StaysInside : Zone → Text → Prop
  | z, [] => z ≠ .outside
  | z, c :: t => z ≠ .outside ∧ StaysInside (z.step c) t

theorem StaysInside.prefix_ne {z : Zone} {t u : Text} (h : StaysInside z (t ++ u)) :
    t.foldl Zone.step z ≠ .outside := by
  induction t generalizing z with
  | nil =>
      cases u with
      | nil => exact h
      | cons c u => exact h.1
  | cons c t ih => exact ih h.2

theorem StaysInside.append {z z' : Zone} {t u : Text} (ht : StaysInside z t)
    (hz : t.foldl Zone.step z = z') (hu : StaysInside z' u) : StaysInside z (t ++ u) := by
  induction t generalizing z with
  | nil =>
      have hz : z = z' := hz
      rw [List.nil_append, hz]
      exact hu
  | cons c t ih => exact ⟨ht.1, ih ht.2 hz⟩

theorem step_inside {c : CodePoint} (hquote : c.val ≠ 34) (hbackslash : c.val ≠ 92) :
    Zone.inside.step c = .inside := by
  have hq : c ≠ CodePoint.ofChar '"' := by
    rintro rfl
    exact hquote rfl
  have hb : c ≠ CodePoint.ofChar '\\' := by
    rintro rfl
    exact hbackslash rfl
  simp [Zone.step, hq, hb]

theorem step_hex {c : CodePoint} (h : c.hexValue?.isSome) : Zone.inside.step c = .inside := by
  apply step_inside
  · intro hc
    simp [CodePoint.hexValue?, CodePoint.isDigit, CodePoint.between, hc] at h
  · intro hc
    simp [CodePoint.hexValue?, CodePoint.isDigit, CodePoint.between, hc] at h

/-- A piece is passed inside. -/
theorem staysInside_piece {p : StringPiece} (h : p.WellFormed) :
    StaysInside .inside p.text ∧ p.text.foldl Zone.step .inside = .inside := by
  cases p with
  | raw c =>
      have hc := step_inside h.1 h.2.1
      simp [StringPiece.text, StaysInside, hc]
  | letter c =>
      have hb : Zone.inside.step (CodePoint.ofChar '\\') = .escaped := rfl
      have hc : Zone.escaped.step c = .inside := rfl
      simp [StringPiece.text, StaysInside, hb, hc]
  | unit a b c d =>
      have hb : Zone.inside.step (CodePoint.ofChar '\\') = .escaped := rfl
      have hu : Zone.escaped.step (CodePoint.ofChar 'u') = .inside := rfl
      have ha := step_hex (h a (by simp))
      have hb' := step_hex (h b (by simp))
      have hc := step_hex (h c (by simp))
      have hd := step_hex (h d (by simp))
      simp [StringPiece.text, StaysInside, hb, hu, ha, hb', hc, hd]

theorem staysInside_pieces {pieces : List StringPiece} (h : ∀ p ∈ pieces, p.WellFormed) :
    StaysInside .inside (pieces.flatMap StringPiece.text) ∧
      (pieces.flatMap StringPiece.text).foldl Zone.step .inside = .inside := by
  induction pieces with
  | nil => simp [StaysInside]
  | cons p ps ih =>
      rcases staysInside_piece (h p List.mem_cons_self) with ⟨hp, hpz⟩
      rcases ih (fun q hq => h q (List.mem_cons_of_mem p hq)) with ⟨hps, hpsz⟩
      rw [List.flatMap_cons, List.foldl_append, hpz]
      exact ⟨hp.append hpz hps, hpsz⟩

theorem foldl_scanStep_of_staysInside {z : Zone} {t : Text} (h : StaysInside z t) (s : Seam) :
    t.foldl scanStep (z, s) = (t.foldl Zone.step z, s) := by
  induction t generalizing z with
  | nil => rfl
  | cons c t ih =>
      have hstep : scanStep (z, s) c = (z.step c, s) := by simp [scanStep, h.1]
      rw [List.foldl_cons, hstep]
      exact ih h.2

theorem Scans.of_string {pieces : List StringPiece} (h : ∀ p ∈ pieces, p.WellFormed) :
    Scans (stringText pieces) := by
  intro s hs
  rcases staysInside_pieces h with ⟨hstays, hzone⟩
  have hopen : scanStep (.outside, s) (CodePoint.ofChar '"') = (.inside, .plain) := by
    have hstep : s.step (CodePoint.ofChar '"') = .plain := step_other rfl rfl (by decide) hs
    rw [scanStep, if_pos rfl, hstep]
    rfl
  rw [scan, stringText, List.foldl_cons, hopen, List.foldl_append,
    foldl_scanStep_of_staysInside hstays, hzone]
  rfl

/-! ## Rows and documents -/

/-- In a row the seam is whole behind each item and its comma. -/
theorem Row.exists_scan {ι α : Type} (R : Row ι α) {xs : List ι} (h : ∀ x ∈ xs, Scans (R.text x))
    {s : Seam} (hs : s = .plain ∨ s = .comma) :
    ∃ s', (s' = .plain ∨ s' = .comma) ∧ scan s (R.allText xs) = (.outside, s') := by
  induction xs generalizing s with
  | nil => exact ⟨s, hs, rfl⟩
  | cons x xs ih =>
      have hx : scan s (R.text x) = (.outside, .plain) := by
        apply h x List.mem_cons_self
        rcases hs with rfl | rfl <;> simp
      have hcomma : ∃ s', (s' = .plain ∨ s' = .comma) ∧
          scan .plain (commaText (R.comma x)) = (.outside, s') := by
        cases R.comma x with
        | true => exact ⟨.comma, .inr rfl, rfl⟩
        | false => exact ⟨.plain, .inl rfl, rfl⟩
      rcases hcomma with ⟨s', hs', hcomma⟩
      rw [allText, List.append_assoc, scan_append hx, scan_append hcomma]
      exact ih (fun y hy => h y (List.mem_cons_of_mem x hy)) hs'

/-- A strict row does not end with a comma, so nothing is left of it. -/
theorem Row.scans_of_isStrict {ι α : Type} (R : Row ι α) {xs : List ι}
    (h : ∀ x ∈ xs, Scans (R.text x)) (hstrict : R.IsStrict xs) (hne : xs ≠ []) :
    Scans (R.allText xs) := by
  induction xs with
  | nil => exact absurd rfl hne
  | cons x xs ih =>
      intro s hs
      rw [allText, List.append_assoc, scan_append (h x List.mem_cons_self s hs)]
      by_cases hxs : xs = []
      · have hcomma : R.comma x = false := by simpa [hxs] using hstrict.1
        rw [hcomma, hxs]
        rfl
      · have hcomma : R.comma x = true := hstrict.1.2 hxs
        have hscan : scan .plain (commaText true) = (.outside, .comma) := rfl
        rw [hcomma, scan_append hscan]
        exact ih (fun y hy => h y (List.mem_cons_of_mem x hy)) hstrict.2 hxs .comma (by simp)

theorem step_opening {c : CodePoint} (h : isOpening c = true) {s : Seam} (hs : s ≠ .broken) :
    s.step c = .plain := by
  have hc : c.val = 91 ∨ c.val = 123 := by simpa [isOpening] using h
  have hcomma : c ≠ CodePoint.ofChar ',' := by
    rintro rfl
    cases h
  rcases hc with hc | hc <;> simp [Seam.step, hs, hcomma, isBlank, isClosing, hc]

/-- A closing bracket that comes directly behind an item or its comma does no harm. -/
theorem step_closing {c : CodePoint} (h : isClosing c = true) {s : Seam}
    (hs : s = .plain ∨ s = .comma) : s.step c = .plain := by
  have hblank := not_isBlank_of_isStop (isStop_of_isClosing h)
  rcases hs with rfl | rfl <;> simp [Seam.step, hblank, ne_comma_of_isClosing h]

/-- Brackets around something behind which the seam is whole. -/
theorem Scans.of_brackets {a c : CodePoint} {t : Text} (ha : isOpening a = true)
    (hc : isClosing c = true)
    (h : ∃ s', (s' = .plain ∨ s' = .comma) ∧ scan .plain t = (.outside, s')) :
    Scans ([a] ++ t ++ [c]) := by
  intro s hs
  have hopen : a ≠ CodePoint.ofChar '"' := by
    rintro rfl
    cases ha
  have hclose : c ≠ CodePoint.ofChar '"' := by
    rintro rfl
    cases hc
  rcases h with ⟨s', hs', ht⟩
  rw [List.append_assoc, List.cons_append, List.nil_append, scan_cons hopen, step_opening ha hs,
    scan_append ht, scan_cons hclose, step_closing hc hs', scan_nil]

theorem Scans.of_array {t : Text}
    (h : ∃ s', (s' = .plain ∨ s' = .comma) ∧ scan .plain t = (.outside, s')) :
    Scans (Descent.text "[" ++ t ++ Descent.text "]") :=
  .of_brackets (a := CodePoint.ofChar '[') (c := CodePoint.ofChar ']') rfl rfl h

theorem Scans.of_object {t : Text}
    (h : ∃ s', (s' = .plain ∨ s' = .comma) ∧ scan .plain t = (.outside, s')) :
    Scans (Descent.text "\x7b" ++ t ++ Descent.text "\x7d") :=
  .of_brackets (a := CodePoint.ofChar '\x7b') (c := CodePoint.ofChar '\x7d') rfl rfl h

theorem Scans.of_colon : Scans (Descent.text ":") := by
  intro s hs
  have hne : CodePoint.ofChar ':' ≠ CodePoint.ofChar '"' := by decide
  have hstep : s.step (CodePoint.ofChar ':') = .plain :=
    step_other rfl rfl (by decide) hs
  change scan s [CodePoint.ofChar ':'] = _
  rw [scan_cons hne, hstep, scan_nil]

namespace Document

mutual

/-- The scanner gets through every document. -/
theorem scans : ∀ d : Document, d.WellFormed → Scans d.text
  | .null, _ => .of_word (by decide) (by decide)
  | .bool true, _ => .of_word (by decide) (by decide)
  | .bool false, _ => .of_word (by decide) (by decide)
  | .number l, h => by
      rcases exists_render_head h with ⟨c, t, hl, -⟩
      refine .of_word ?_ fun c hc => isWord_of_mem_render h hc
      rw [text, hl]
      exact List.cons_ne_nil c t
  | .string _, h => .of_string h
  | .emptyArray _, h => .of_array ⟨.plain, .inl rfl, scan_blank_plain h⟩
  | .array items, h => by
      rw [text, itemsText_eq {}]
      exact .of_array ((itemRow {}).exists_scan (scans_items items h.2) (.inl rfl))
  | .emptyObject _, h => .of_object ⟨.plain, .inl rfl, scan_blank_plain h⟩
  | .object members, h => by
      rw [text, membersText_eq {}]
      exact .of_object ((memberRow {}).exists_scan (scans_members members h.2) (.inl rfl))

theorem scans_items : ∀ items : List Item, ItemsWellFormed items → ∀ x ∈ items, Scans x.text
  | [], _, _, hx => nomatch hx
  | .mk _ d _ _ :: items, h, x, hx => by
      rcases List.mem_cons.1 hx with rfl | hx
      · exact (scans d h.2.1).of_blanks h.1 h.2.2.1
      · exact scans_items items h.2.2.2 x hx

theorem scans_members : ∀ members : List Member, MembersWellFormed members →
    ∀ x ∈ members, Scans x.text
  | [], _, _, hx => nomatch hx
  | .mk beforeKey key afterKey before d after _ :: members, h, x, hx => by
      rcases List.mem_cons.1 hx with rfl | hx
      · rcases h with ⟨hbeforeKey, hkey, hafterKey, hbefore, hd, hafter, -⟩
        have hleft := (Scans.of_string hkey).of_blanks hbeforeKey hafterKey
        have hright := (scans d hd).of_blanks hbefore hafter
        have hmember := (hleft.append .of_colon).append hright
        simpa only [Member.text, List.append_assoc] using hmember
      · exact scans_members members h.2.2.2.2.2.2 x hx

end

end Document

/-! ## Trailing commas -/

variable {p w : Text}

theorem scan_gap_blank (hw : IsBlank w) : scan .gap w = (.outside, .gap) := by
  induction w with
  | nil => rfl
  | cons c w ih =>
      have hc : isBlank c = true := hw c List.mem_cons_self
      rw [scan_cons (ne_quote_of_isBlank hc), step_blank hc (by simp), if_neg (by simp)]
      exact ih fun d hd => hw d (List.mem_cons_of_mem c hd)

theorem snd_scan_broken (t : Text) : (scan .broken t).2 = .broken :=
  snd_foldl_broken t .outside

/-- Behind a comma that is outside of strings the seam is that of a comma, unless it is broken. -/
theorem scan_comma (hzone : zone p = .outside) (hlast : p.getLast? = some (CodePoint.ofChar ',')) :
    ∃ s, scan .plain p = (.outside, s) ∧ (s = .comma ∨ s = .broken) := by
  rcases List.getLast?_eq_some_iff.1 hlast with ⟨r, rfl⟩
  have hfst := fst_scan .plain (r ++ [CodePoint.ofChar ','])
  rw [hzone] at hfst
  have hscan : scan .plain (r ++ [CodePoint.ofChar ',']) =
      scanStep (scan .plain r) (CodePoint.ofChar ',') := by
    rw [scan, List.foldl_append]
    rfl
  rw [hscan] at hfst ⊢
  generalize scan .plain r = before at hfst ⊢
  rcases before with ⟨z, s⟩
  cases z with
  | outside => cases s <;> exact ⟨_, rfl, by simp [Seam.step]⟩
  | inside => cases hfst
  | escaped => cases hfst

/-- Blanks between a comma and a closing bracket break the seam. -/
theorem scan_broken (hw : IsBlank w) (hne : w ≠ []) (hzone : zone p = .outside)
    (hlast : p.getLast? = some (CodePoint.ofChar ',')) {c : CodePoint} (hc : isClosing c = true)
    (t : Text) : (scan .plain (p ++ (w ++ c :: t))).2 = .broken := by
  rcases scan_comma hzone hlast with ⟨s, hp, hs⟩
  rw [scan_append hp]
  rcases hs with rfl | rfl
  · rcases List.exists_cons_of_ne_nil hne with ⟨b, w, rfl⟩
    have hb : isBlank b = true := hw b List.mem_cons_self
    have hgap : IsBlank w := fun d hd => hw d (List.mem_cons_of_mem b hd)
    have hval : c.val = 93 ∨ c.val = 125 := by simpa [isClosing] using hc
    have hquote : c ≠ CodePoint.ofChar '"' := by
      rintro rfl
      cases hc
    have hstep : Seam.gap.step c = .broken := by
      have hcomma : c ≠ CodePoint.ofChar ',' := by
        rintro rfl
        cases hc
      have hblank : isBlank c = false := by
        rcases hval with hval | hval <;> simp [isBlank, hval]
      simp [Seam.step, hcomma, hblank, hc]
    rw [List.cons_append, scan_cons (ne_quote_of_isBlank hb), step_blank hb (by simp),
      if_neg (by simp), scan_append (scan_gap_blank hgap), scan_cons hquote, hstep]
    exact snd_scan_broken t
  · exact snd_scan_broken _

end Json

end Descent
