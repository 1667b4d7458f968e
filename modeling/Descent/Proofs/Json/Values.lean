import Descent.Proofs.Json.Documents

/-!
# Values are read as documents are written

What the value rule reads is the text of a document that fits the options, and the
text of such a document is read with its value, if the depth is enough. Items and
members are read by way of their rows, so the induction is on the depth alone.
-/

namespace Descent

namespace Json

open Reading Recipe

/-! ## Tokens by their heads -/

section

variable {c : CodePoint} (o : Options) (n : Nat) (f : Text → Reading Value) (t : Text)

theorem arrayReading_of_head (h : c ≠ CodePoint.ofChar '[') :
    arrayReading o n f (c :: t) = .fails := by
  have hopen : literalReading (text "[") (c :: t) = .fails := literalReading_cons_of_ne h [] t
  rw [arrayReading, containerReading, enter_succ, hopen, bind_fails, map_fails]

theorem objectReading_of_head (h : c ≠ CodePoint.ofChar '\x7b') :
    objectReading o n f (c :: t) = .fails := by
  have hopen : literalReading (text "\x7b") (c :: t) = .fails := literalReading_cons_of_ne h [] t
  rw [objectReading, containerReading, enter_succ, hopen, bind_fails, map_fails]

theorem constantReading_of_head {w : String} {a : CodePoint} {u : Text}
    (hword : text w = a :: u) (h : c ≠ a) (v : Value) :
    constantReading w v (c :: t) = .fails := by
  rw [constantReading, hword, literalReading_cons_of_ne h, map_fails]

theorem constantReading_append (word : String) (v : Value) :
    constantReading word v (text word ++ t) = .reads v t := by
  rw [constantReading, literalReading_append, map_reads]

/-- A token that is no string and no number. -/
theorem tokenReading_of_head (hquote : c ≠ CodePoint.ofChar '"') (hminus : c ≠ CodePoint.ofChar '-')
    (hdigit : c.isDigit = false) :
    tokenReading o n f (c :: t) = choice [arrayReading o n f, objectReading o n f,
      constantReading "true" (.bool true), constantReading "false" (.bool false),
      constantReading "null" .null] (c :: t) := by
  rw [tokenReading, choice_cons, stringReading_of_head hquote, enter_succ, map_fails, orElse_fails,
    choice_cons, numberReading_of_head hminus hdigit, enter_succ, orElse_fails]

/-- With this only a constant can start. -/
def isConstantHead (c : CodePoint) : Bool :=
  !([34, 45, 91, 123].contains c.val) && !c.isDigit

/-- A token that is neither, and no container. -/
theorem tokenReading_constant (h : isConstantHead c = true) :
    tokenReading o n f (c :: t) = choice [constantReading "true" (.bool true),
      constantReading "false" (.bool false), constantReading "null" .null] (c :: t) := by
  have hne {d : Char} (hd : isConstantHead (CodePoint.ofChar d) = false) :
      c ≠ CodePoint.ofChar d := by
    intro hc
    rw [hc, hd] at h
    cases h
  have hdigit : c.isDigit = false := by
    simp only [isConstantHead, Bool.and_eq_true, Bool.not_eq_true'] at h
    exact h.2
  rw [tokenReading_of_head o n f t (hne rfl) (hne rfl) hdigit, choice_cons,
    arrayReading_of_head o n f t (hne rfl), orElse_fails, choice_cons,
    objectReading_of_head o n f t (hne rfl), orElse_fails]

/-- The constants, by a head that is not theirs. -/
theorem constants_of_head (htrue : c ≠ CodePoint.ofChar 't') (hfalse : c ≠ CodePoint.ofChar 'f')
    (hnull : c ≠ CodePoint.ofChar 'n') :
    choice [constantReading "true" (.bool true), constantReading "false" (.bool false),
      constantReading "null" .null] (c :: t) = .fails := by
  simp only [choice_cons, choice_nil]
  rw [constantReading_of_head t (w := "true") rfl htrue,
    constantReading_of_head t (w := "false") rfl hfalse,
    constantReading_of_head t (w := "null") rfl hnull]
  rfl

theorem tokenReading_bracket : tokenReading o n f (CodePoint.ofChar '[' :: t) =
    arrayReading o n f (CodePoint.ofChar '[' :: t) := by
  rw [tokenReading_of_head o n f t (by decide) (by decide) (by decide), choice_cons, choice_cons,
    objectReading_of_head o n f t (by decide), orElse_fails,
    constants_of_head t (by decide) (by decide) (by decide), orElse_fails_right]

theorem tokenReading_brace : tokenReading o n f (CodePoint.ofChar '\x7b' :: t) =
    objectReading o n f (CodePoint.ofChar '\x7b' :: t) := by
  rw [tokenReading_of_head o n f t (by decide) (by decide) (by decide), choice_cons,
    arrayReading_of_head o n f t (by decide), orElse_fails, choice_cons,
    constants_of_head t (by decide) (by decide) (by decide), orElse_fails_right]

theorem tokenReading_null : tokenReading o n f (text "null" ++ t) = .reads .null t := by
  have htext : text "null" ++ t = CodePoint.ofChar 'n' :: (text "ull" ++ t) := rfl
  have hnull := constantReading_append t "null" .null
  rw [htext] at hnull ⊢
  rw [tokenReading_constant o n f _ rfl,
    choice_cons, constantReading_of_head _ (w := "true") rfl (by decide), orElse_fails,
    choice_cons, constantReading_of_head _ (w := "false") rfl (by decide), orElse_fails,
    choice_cons, hnull, orElse_reads]

theorem tokenReading_bool (b : Bool) :
    tokenReading o n f (text (if b then "true" else "false") ++ t) = .reads (.bool b) t := by
  cases b with
  | true =>
      have htext : text "true" ++ t = CodePoint.ofChar 't' :: (text "rue" ++ t) := rfl
      have htrue := constantReading_append t "true" (.bool true)
      change tokenReading o n f (text "true" ++ t) = _
      rw [htext] at htrue ⊢
      rw [tokenReading_constant o n f _ rfl,
        choice_cons, htrue, orElse_reads]
  | false =>
      have htext : text "false" ++ t = CodePoint.ofChar 'f' :: (text "alse" ++ t) := rfl
      have hfalse := constantReading_append t "false" (.bool false)
      change tokenReading o n f (text "false" ++ t) = _
      rw [htext] at hfalse ⊢
      rw [tokenReading_constant o n f _ rfl,
        choice_cons, constantReading_of_head _ (w := "true") rfl (by decide), orElse_fails,
        choice_cons, hfalse, orElse_reads]

/-- No token starts with a stop. -/
theorem tokenReading_stop (h : isStop c = true) : tokenReading o n f (c :: t) = .fails := by
  have hne {d : Char} (hd : isStop (CodePoint.ofChar d) = false) : c ≠ CodePoint.ofChar d := by
    intro hc
    rw [hc, hd] at h
    cases h
  have hhead : isConstantHead c = true := by
    have hc : c.val = 44 ∨ c.val = 93 ∨ c.val = 125 := by simpa [isStop] using h
    rcases hc with hc | hc | hc <;>
      simp [isConstantHead, CodePoint.isDigit, CodePoint.between, hc]
  rw [tokenReading_constant o n f t hhead]
  exact constants_of_head t (hne rfl) (hne rfl) (hne rfl)

end

/-! ## Tokens -/

namespace Document

variable {o : Options} {n : Nat} {d : Document} {next cur rest : Text} {v : Value}

/-- A document is read with its value, if the depth is enough. -/
theorem tokenReading_text (hitems : (itemRow o).IsReadBy n (valueReading o n))
    (hmembers : (memberRow o).IsReadBy n (pairReading o n (valueReading o n)))
    (h : d.Fits o next) :
    tokenReading o n (valueReading o n) (d.text ++ next) =
      if d.need ≤ n + 4 then .reads (d.value o.decode) next else .overrun := by
  cases d with
  | null =>
      rw [need, if_pos (Nat.le_add_left 4 n)]
      exact tokenReading_null o n _ next
  | bool b =>
      rw [need, if_pos (Nat.le_add_left 4 n)]
      exact tokenReading_bool o n _ next b
  | number l =>
      have hneed : (number l).need ≤ n + 4 ↔ 2 ≤ n + 1 := by
        rw [need]
        omega
      rcases exists_render_head h.wellFormed with ⟨c, t, hrender, hc⟩
      have hquote : c ≠ CodePoint.ofChar '"' := by
        rcases hc with rfl | hc
        · decide
        · exact NumberLiteral.ne_of_isDigit hc (by decide)
      have hnumber := numberReading_render h.wellFormed h.numbersEnd (n + 1)
      change tokenReading o n _ (l.render ++ next) = _
      rw [hrender, List.cons_append] at hnumber ⊢
      rw [tokenReading, choice_cons, stringReading_of_head hquote, enter_succ, map_fails,
        orElse_fails, choice_cons, hnumber, orElse_ite, value]
      simp only [hneed]
  | string pieces =>
      have hneed : (string pieces).need ≤ n + 4 ↔ piecesNeed pieces ≤ n + 1 := by
        rw [need]
        omega
      change tokenReading o n _ (stringText pieces ++ next) = _
      rw [tokenReading, choice_cons, stringReading_stringText h.wellFormed, map_ite, orElse_ite,
        value]
      simp only [hneed]
  | emptyArray blank =>
      have hneed : (emptyArray blank).need ≤ n + 4 ↔ 1 ≤ n := by
        rw [need]
        omega
      have hread : arrayReading o n (valueReading o n)
          (CodePoint.ofChar '[' :: blank ++ CodePoint.ofChar ']' :: next) = _ :=
        congrArg (Reading.map Value.list) (containerReading_blank (valueReading o n) o.strict
          (CodePoint.ofChar '[') rfl h.wellFormed n next)
      rw [text_emptyArray, value]
      simp only [hneed]
      rw [List.cons_append] at hread ⊢
      rw [tokenReading_bracket, hread, map_ite]
  | array items =>
      rcases fits_array_iff.1 h with ⟨hne, hall, hstrict⟩
      have hneed : (array items).need ≤ n + 4 ↔ (itemRow o).allNeed items ≤ n := by
        rw [need, itemsNeed_eq o]
        omega
      have hread : arrayReading o n (valueReading o n) (CodePoint.ofChar '[' ::
          (itemRow o).allText items ++ CodePoint.ofChar ']' :: next) = _ :=
        congrArg (Reading.map Value.list) (hitems.containerReading_row (CodePoint.ofChar '[')
          rfl hne hall hstrict)
      rw [text_array o, value, itemValues_eq]
      simp only [hneed]
      rw [List.cons_append] at hread ⊢
      rw [tokenReading_bracket, hread, map_ite]
  | emptyObject blank =>
      have hneed : (emptyObject blank).need ≤ n + 4 ↔ 1 ≤ n := by
        rw [need]
        omega
      have hread : objectReading o n (valueReading o n)
          (CodePoint.ofChar '\x7b' :: blank ++ CodePoint.ofChar '\x7d' :: next) = _ :=
        congrArg (Reading.map dictOf) (containerReading_blank (pairReading o n (valueReading o n))
          o.strict (CodePoint.ofChar '\x7b') rfl h.wellFormed n next)
      rw [text_emptyObject, value]
      simp only [hneed]
      rw [List.cons_append] at hread ⊢
      rw [tokenReading_brace, hread, map_ite]
      rfl
  | object members =>
      rcases fits_object_iff.1 h with ⟨hne, hall, hstrict⟩
      have hneed : (object members).need ≤ n + 4 ↔ (memberRow o).allNeed members ≤ n := by
        rw [need, membersNeed_eq o]
        omega
      have hread : objectReading o n (valueReading o n) (CodePoint.ofChar '\x7b' ::
          (memberRow o).allText members ++ CodePoint.ofChar '\x7d' :: next) = _ :=
        congrArg (Reading.map dictOf) (hmembers.containerReading_row (CodePoint.ofChar '\x7b')
          rfl hne hall hstrict)
      rw [text_object o, value, ← dictOf_members]
      simp only [hneed]
      rw [List.cons_append] at hread ⊢
      rw [tokenReading_brace, hread, map_ite]

/-- What is read as a constant is its word. -/
theorem eq_of_constantReading {word : String} {w : Value}
    (h : constantReading word w cur = .reads v rest) : v = w ∧ cur = Descent.text word ++ rest := by
  rcases map_eq_reads_iff.1 h with ⟨u, hliteral, hv⟩
  exact ⟨hv.symm, (literalReading_eq_reads_iff.1 hliteral).1⟩

theorem exists_array (hitems : (itemRow o).IsReadBy n (valueReading o n))
    (h : arrayReading o n (valueReading o n) cur = .reads v rest) :
    ∃ d : Document, d.Fits o rest ∧ v = d.value o.decode ∧ cur = d.text ++ rest := by
  rcases map_eq_reads_iff.1 h with ⟨vs, hcontainer, hv⟩
  rcases hitems.exists_container (a := CodePoint.ofChar '[') (c := CodePoint.ofChar ']')
      hcontainer with
    ⟨blank, hblank, hvs, hcur⟩ | ⟨items, hne, hvs, hall, hstrict, hcur⟩
  · refine ⟨emptyArray blank, ⟨hblank, fun _ => trivial, trivial⟩, ?_, ?_⟩
    · rw [← hv, hvs, value]
    · rw [hcur, text_emptyArray]
  · refine ⟨array items, fits_array_iff.2 ⟨hne, hall, hstrict⟩, ?_, ?_⟩
    · rw [← hv, hvs, value, itemValues_eq]
    · rw [hcur, text_array o]

theorem exists_object (hmembers : (memberRow o).IsReadBy n (pairReading o n (valueReading o n)))
    (h : objectReading o n (valueReading o n) cur = .reads v rest) :
    ∃ d : Document, d.Fits o rest ∧ v = d.value o.decode ∧ cur = d.text ++ rest := by
  rcases map_eq_reads_iff.1 h with ⟨vs, hcontainer, hv⟩
  rcases hmembers.exists_container (a := CodePoint.ofChar '\x7b') (c := CodePoint.ofChar '\x7d')
      hcontainer with
    ⟨blank, hblank, hvs, hcur⟩ | ⟨members, hne, hvs, hall, hstrict, hcur⟩
  · refine ⟨emptyObject blank, ⟨hblank, fun _ => trivial, trivial⟩, ?_, ?_⟩
    · rw [← hv, hvs, value]
      rfl
    · rw [hcur, text_emptyObject]
  · refine ⟨object members, fits_object_iff.2 ⟨hne, hall, hstrict⟩, ?_, ?_⟩
    · rw [← hv, hvs, value, dictOf_members]
    · rw [hcur, text_object o]

/-- What is read as a token is a document. -/
theorem exists_of_tokenReading (hitems : (itemRow o).IsReadBy n (valueReading o n))
    (hmembers : (memberRow o).IsReadBy n (pairReading o n (valueReading o n)))
    (h : tokenReading o n (valueReading o n) cur = .reads v rest) :
    ∃ d : Document, d.Fits o rest ∧ v = d.value o.decode ∧ cur = d.text ++ rest := by
  simp only [tokenReading, choice_cons, choice_nil, orElse_fails_right, orElse_eq_reads_iff] at h
  rcases h with h | ⟨-, h | ⟨-, h | ⟨-, h | ⟨-, h | ⟨-, h | ⟨-, h⟩⟩⟩⟩⟩⟩
  · rcases map_eq_reads_iff.1 h with ⟨t, hstring, hv⟩
    rcases exists_pieces_of_stringReading hstring with ⟨pieces, hwf, hcur, ht⟩
    refine ⟨string pieces, ⟨hwf, fun _ => trivial, trivial⟩, ?_, hcur⟩
    rw [← hv, ht, value]
  · rcases exists_literal_of_numberReading h with ⟨l, hwf, hend, hv, hcur⟩
    exact ⟨number l, ⟨hwf, fun _ => trivial, hend⟩, hv, hcur⟩
  · exact exists_array hitems h
  · exact exists_object hmembers h
  · rcases eq_of_constantReading h with ⟨hv, hcur⟩
    exact ⟨bool true, ⟨trivial, fun _ => trivial, trivial⟩, hv, hcur⟩
  · rcases eq_of_constantReading h with ⟨hv, hcur⟩
    exact ⟨bool false, ⟨trivial, fun _ => trivial, trivial⟩, hv, hcur⟩
  · rcases eq_of_constantReading h with ⟨hv, hcur⟩
    exact ⟨null, ⟨trivial, fun _ => trivial, trivial⟩, hv, hcur⟩

end Document

/-! ## Values and pairs -/

section

variable {o : Options} {n : Nat}

theorem valueReading_skipBlanks (o : Options) (n : Nat) (cur : Text) :
    valueReading o n (skipBlanks cur) = valueReading o n cur := by
  by_cases hn : n < 4
  · rw [valueReading_of_lt o hn, valueReading_of_lt o hn]
  · rcases Nat.exists_eq_add_of_le' (Nat.not_lt.1 hn) with ⟨m, rfl⟩
    rw [valueReading_add_four, valueReading_add_four, skipBlanks_skipBlanks]

theorem valueReading_stop (hn : 4 ≤ n) {c : CodePoint} (h : isStop c = true) (t : Text) :
    valueReading o n (c :: t) = .fails := by
  rcases Nat.exists_eq_add_of_le' hn with ⟨m, rfl⟩
  rw [valueReading_add_four, skipBlanks_cons (not_isBlank_of_isStop h), tokenReading_stop o m _ t h,
    bind_fails]

/-- A document between blanks is read with its value, if the depth is enough. -/
theorem valueReading_text (hitems : ∀ m < n, (itemRow o).IsReadBy m (valueReading o m))
    (hmembers : ∀ m < n, (memberRow o).IsReadBy m (pairReading o m (valueReading o m)))
    {blank next : Text} (hblank : IsBlank blank) {d : Document} (h : d.Fits o next) :
    valueReading o n (blank ++ (d.text ++ next)) =
      if d.need ≤ n then .reads (d.value o.decode) (skipBlanks next) else .overrun := by
  have hfour := d.four_le_need
  by_cases hn : n < 4
  · rw [valueReading_of_lt o hn, if_neg]
    intro hle
    exact absurd hn (Nat.not_lt.2 (Nat.le_trans hfour hle))
  · rcases Nat.exists_eq_add_of_le' (Nat.not_lt.1 hn) with ⟨m, rfl⟩
    have hm : m < m + 4 := Nat.lt_add_of_pos_right (by decide)
    rw [valueReading_add_four, Document.skipBlanks_text h.wellFormed hblank,
      Document.tokenReading_text (hitems m hm) (hmembers m hm) h]
    by_cases hneed : d.need ≤ m + 4
    · rw [if_pos hneed, if_pos hneed, bind_reads]
    · rw [if_neg hneed, if_neg hneed, bind_overrun]

/-- What is read as a value is a document between blanks. -/
theorem exists_of_valueReading (hitems : ∀ m < n, (itemRow o).IsReadBy m (valueReading o m))
    (hmembers : ∀ m < n, (memberRow o).IsReadBy m (pairReading o m (valueReading o m)))
    {cur rest : Text} {v : Value} (h : valueReading o n cur = .reads v rest) :
    ∃ before after, ∃ d : Document, IsBlank before ∧ IsBlank after ∧ d.Fits o (after ++ rest) ∧
      v = d.value o.decode ∧ cur = before ++ (d.text ++ (after ++ rest)) ∧
      skipBlanks rest = rest := by
  by_cases hn : n < 4
  · rw [valueReading_of_lt o hn] at h
    cases h
  · rcases Nat.exists_eq_add_of_le' (Nat.not_lt.1 hn) with ⟨m, rfl⟩
    have hm : m < m + 4 := Nat.lt_add_of_pos_right (by decide)
    rw [valueReading_add_four] at h
    rcases bind_eq_reads_iff.1 h with ⟨w, t, htoken, hlast⟩
    cases hlast
    rcases Document.exists_of_tokenReading (hitems m hm) (hmembers m hm) htoken with
      ⟨d, hfits, hv, htext⟩
    rcases exists_blanks cur with ⟨before, hbefore, hcur⟩
    rcases exists_blanks t with ⟨after, hafter, ht⟩
    refine ⟨before, after, d, hbefore, hafter, ?_, hv, ?_, skipBlanks_skipBlanks t⟩
    · rwa [← ht]
    · rw [← ht, ← htext, ← hcur]

theorem itemRow_isReadBy (hitems : ∀ m < n, (itemRow o).IsReadBy m (valueReading o m))
    (hmembers : ∀ m < n, (memberRow o).IsReadBy m (pairReading o m (valueReading o m))) :
    (itemRow o).IsReadBy n (valueReading o n) where
  sound := by
    intro cur v rest h
    rcases exists_of_valueReading hitems hmembers h with
      ⟨before, after, d, hbefore, hafter, hd, hv, hcur, hrest⟩
    refine ⟨hrest, fun comma => ⟨.mk before d after comma, rfl, hv.symm, ⟨hbefore, hafter, hd⟩, ?_⟩⟩
    rw [hcur]
    simp [itemRow, Item.text]
  complete := by
    intro x next h
    rcases x with ⟨before, d, after, comma⟩
    rcases h with ⟨hbefore, hafter, hd⟩
    have htext : (itemRow o).text (.mk before d after comma) ++ next =
        before ++ (d.text ++ (after ++ next)) := by
      simp [itemRow, Item.text]
    rw [htext, valueReading_text hitems hmembers hbefore hd, skipBlanks_append hafter]
    rfl
  blanks := valueReading_skipBlanks o n
  stops hn _ hc t := valueReading_stop hn hc t
  starts := by
    intro x next h
    rcases x with ⟨before, d, after, comma⟩
    rcases h with ⟨hbefore, hafter, hd⟩
    rcases Document.exists_start hd.wellFormed with ⟨c, t, htext, hc⟩
    refine ⟨c, t ++ (after ++ next), ?_, (isStart_iff.1 hc).2⟩
    have hskip := Document.skipBlanks_text hd.wellFormed hbefore (after ++ next)
    rw [htext] at hskip
    simpa [itemRow, Item.text, htext] using hskip
  text_ne_nil := by
    intro x next h
    rcases x with ⟨before, d, after, comma⟩
    rcases Document.exists_start h.2.2.wellFormed with ⟨c, t, htext, -⟩
    simp [itemRow, Item.text, htext]
  four_le_need := by
    intro x next h
    rcases x with ⟨before, d, after, comma⟩
    exact d.four_le_need

theorem pairReading_skipBlanks (f : Text → Reading Value) (cur : Text) :
    pairReading o n f (skipBlanks cur) = pairReading o n f cur := by
  simp only [pairReading, skipBlanks_skipBlanks]

theorem pairReading_stop (hn : 4 ≤ n) {c : CodePoint} (h : isStop c = true)
    (f : Text → Reading Value) (t : Text) : pairReading o n f (c :: t) = .fails := by
  rcases Nat.exists_eq_add_of_le' hn with ⟨m, rfl⟩
  have hquote : c ≠ CodePoint.ofChar '"' := by
    rintro rfl
    cases h
  rw [pairReading, enter_succ, skipBlanks_cons (not_isBlank_of_isStop h),
    stringReading_of_head hquote, enter_succ, bind_fails]

/-- A member that is written is read, if its value is. -/
theorem pairReading_text (hitem : (itemRow o).IsReadBy n (valueReading o n)) {x : Member}
    {next : Text} (h : x.Fits o next) :
    pairReading o n (valueReading o n) (x.text ++ next) =
      if x.need ≤ n then .reads (x.value o.decode) (skipBlanks next) else .overrun := by
  rcases x with ⟨beforeKey, key, afterKey, before, d, after, comma⟩
  rcases h with ⟨hbeforeKey, hkey, hafterKey, hbefore, hafter, hd⟩
  have hvalue := hitem.complete (x := .mk before d after comma) ⟨hbefore, hafter, hd⟩
  have htext : (Member.mk beforeKey key afterKey before d after comma).text ++ next =
      beforeKey ++ (stringText key ++ (afterKey ++ CodePoint.ofChar ':' ::
        ((itemRow o).text (.mk before d after comma) ++ next))) := by
    simp [Member.text, itemRow, Item.text, text]
  have hquote (t : Text) :
      skipBlanks (beforeKey ++ (stringText key ++ t)) = stringText key ++ t := by
    rw [skipBlanks_append hbeforeKey]
    exact skipBlanks_cons (by decide) _
  have hcolon (t : Text) : literalReading (text ":")
      (skipBlanks (afterKey ++ CodePoint.ofChar ':' :: t)) = .reads (text ":") t := by
    rw [skipBlanks_append hafterKey, skipBlanks_cons (by decide)]
    exact literalReading_append (text ":") t
  have hfour := d.four_le_need
  have hthree := piecesNeed_le key
  change _ = if d.need ≤ n then _ else _
  cases n with
  | zero =>
      rw [pairReading, enter_zero, if_neg]
      omega
  | succ m =>
      rw [htext, pairReading, enter_succ, hquote, stringReading_stringText hkey]
      by_cases hm : piecesNeed key ≤ m
      · rw [if_pos hm, bind_reads, hcolon, bind_reads, hvalue]
        exact map_ite (d.need ≤ m + 1) _ _ _
      · rw [if_neg hm, bind_overrun, if_neg]
        omega

/-- What is read as a pair is a member. -/
theorem exists_of_pairReading (hitem : (itemRow o).IsReadBy n (valueReading o n)) {cur rest : Text}
    {m : Text × Value} (h : pairReading o n (valueReading o n) cur = .reads m rest) (comma : Bool) :
    skipBlanks rest = rest ∧ ∃ x : Member, x.comma = comma ∧ x.value o.decode = m ∧
      x.Fits o rest ∧ cur = x.text ++ rest := by
  rcases enter_eq_reads_iff.1 h with ⟨k, -, hpair⟩
  rcases bind_eq_reads_iff.1 hpair with ⟨t, u, hstring, hpair⟩
  rcases bind_eq_reads_iff.1 hpair with ⟨_, w, hliteral, hpair⟩
  rcases map_eq_reads_iff.1 hpair with ⟨v, hvalue, hm⟩
  rcases exists_pieces_of_stringReading hstring with ⟨key, hkey, htext, ht⟩
  rcases exists_blanks cur with ⟨beforeKey, hbeforeKey, hcur⟩
  rcases exists_blanks u with ⟨afterKey, hafterKey, hu⟩
  have hcolon := (literalReading_eq_reads_iff.1 hliteral).1
  rcases hitem.sound hvalue with ⟨hrest, hx⟩
  rcases hx comma with ⟨⟨before, d, after, _⟩, hcomma, hv, ⟨hbefore, hafter, hd⟩, hw⟩
  refine ⟨hrest, .mk beforeKey key afterKey before d after comma, rfl, ?_,
    ⟨hbeforeKey, hkey, hafterKey, hbefore, hafter, hd⟩, ?_⟩
  · rw [← hm, ht, ← hv]
    rfl
  · rw [hcur, htext, hu, hcolon, hw]
    simp [Member.text, itemRow, Item.text]

theorem memberRow_isReadBy (hitem : (itemRow o).IsReadBy n (valueReading o n)) :
    (memberRow o).IsReadBy n (pairReading o n (valueReading o n)) where
  sound h := ⟨(exists_of_pairReading hitem h true).1, fun comma =>
    (exists_of_pairReading hitem h comma).2⟩
  complete h := pairReading_text hitem h
  blanks := pairReading_skipBlanks _
  stops hn _ hc t := pairReading_stop hn hc _ t
  starts := by
    intro x next h
    rcases x with ⟨beforeKey, key, afterKey, before, d, after, comma⟩
    have hquote (t : Text) :
        skipBlanks (beforeKey ++ (stringText key ++ t)) = stringText key ++ t := by
      rw [skipBlanks_append h.1]
      exact skipBlanks_cons (by decide) _
    simp only [memberRow, Member.text, List.append_assoc, hquote]
    exact ⟨CodePoint.ofChar '"', _, rfl, by decide⟩
  text_ne_nil := by
    intro x next h
    rcases x with ⟨beforeKey, key, afterKey, before, d, after, comma⟩
    simp [memberRow, Member.text, stringText]
  four_le_need := by
    intro x next h
    rcases x with ⟨beforeKey, key, afterKey, before, d, after, comma⟩
    exact d.four_le_need

end

/-- Items and members are read as they are written, at every depth. -/
theorem isReadBy (o : Options) (n : Nat) : (itemRow o).IsReadBy n (valueReading o n) ∧
    (memberRow o).IsReadBy n (pairReading o n (valueReading o n)) := by
  induction n using Nat.strongRecOn with
  | ind n ih =>
      have hitem := itemRow_isReadBy (fun m hm => (ih m hm).1) fun m hm => (ih m hm).2
      exact ⟨hitem, memberRow_isReadBy hitem⟩

section

variable {o : Options} {n : Nat}

/-- A document between blanks is read at every depth that is enough for it. -/
theorem valueReading_document {blank next : Text} (hblank : IsBlank blank) {d : Document}
    (h : d.Fits o next) :
    valueReading o n (blank ++ (d.text ++ next)) =
      if d.need ≤ n then .reads (d.value o.decode) (skipBlanks next) else .overrun :=
  valueReading_text (fun m _ => (isReadBy o m).1) (fun m _ => (isReadBy o m).2) hblank h

/-- What is read as a value at any depth is a document between blanks. -/
theorem exists_document {cur rest : Text} {v : Value} (h : valueReading o n cur = .reads v rest) :
    ∃ before after, ∃ d : Document, IsBlank before ∧ IsBlank after ∧ d.Fits o (after ++ rest) ∧
      v = d.value o.decode ∧ cur = before ++ (d.text ++ (after ++ rest)) ∧
      skipBlanks rest = rest :=
  exists_of_valueReading (fun m _ => (isReadBy o m).1) (fun m _ => (isReadBy o m).2) h

end

end Json

end Descent
