import Descent.Proofs.Json.Tokens

/-!
# Runs of strings

The recipe of a string comes to `stringReading`. The pieces of a string are tried
in the order of the recipe: raw code points, the escaped solidus, the other
escaped letters by a choice of their own, and code units. For each piece one look
at the code point after the backslash says which of them it is.
-/

namespace Descent

namespace Json

open Reading Recipe Regex

variable {Inv : Store → Prop} {depth : Nat}

/-! ## Escaped letters -/

/-- Among literals of one code point, the next code point chooses. -/
theorem choice_letters (entries : List (Text × Text)) (h : ∀ e ∈ entries, e.1.length = 1)
    (cur : Text) :
    choice (entries.map fun e => literalReading e.1) cur = match cur with
      | [] => .fails
      | c :: t => if (entries.find? fun e => e.1 = [c]).isSome then .reads [c] t else .fails := by
  induction entries with
  | nil => cases cur <;> rfl
  | cons e entries ih =>
      obtain ⟨d, hd⟩ := List.length_eq_one_iff.1 (h e List.mem_cons_self)
      have hrest := ih fun e he => h e (List.mem_cons_of_mem _ he)
      rw [List.map_cons, choice_cons, hrest, hd, literalReading_singleton]
      cases cur with
      | nil => rfl
      | cons c t =>
          by_cases hc : c = d
          · simp [hd, hc]
          · have hne : e.1 ≠ [c] := by
              rw [hd]
              simpa using Ne.symm hc
            have hfind : ((e :: entries).find? fun e => e.1 = [c]) =
                entries.find? fun e => e.1 = [c] :=
              List.find?_cons_of_neg (by simpa using hne)
            simp only [hfind, if_neg hc, orElse_fails]

/-- The code points that mean something after a backslash, but for the `u` of units. -/
def letters : Text := text "\"\\/bfnrt"

theorem mem_letters {c : CodePoint} :
    c ∈ letters ↔ c.val ∈ [34, 92, 47, 98, 102, 110, 114, 116] := by
  have hmap : letters.map CodePoint.val = [34, 92, 47, 98, 102, 110, 114, 116] := rfl
  rw [← hmap]
  exact (List.mem_map_of_injective fun _ _ => CodePoint.ext_val).symm

theorem letterValue?_eq_none {c : CodePoint} (h : c ∉ letters) : letterValue? c = none := by
  rw [mem_letters] at h
  unfold letterValue?
  split
  case h_9 => rfl
  all_goals
    next hc => exact absurd (by simp [hc]) h

theorem find?_escapeValues (c : CodePoint) :
    (escapeValues.find? fun e => e.1 = [c]) =
      if c = CodePoint.ofChar '/' then none else (letterValue? c).map fun v => ([c], [v]) := by
  by_cases hc : c ∈ letters
  · revert c
    decide +kernel
  · rw [letterValue?_eq_none hc, Option.map_none, ite_self]
    have hkeys : ∀ e ∈ escapeValues, ∃ d ∈ letters, e.1 = [d] := by decide +kernel
    refine List.find?_eq_none.2 fun e he => ?_
    obtain ⟨d, hd, hed⟩ := hkeys e he
    rw [hed]
    have hne : d ≠ c := fun h => hc (h ▸ hd)
    simpa using hne

theorem escapeValue_singleton {c v : CodePoint} (hc : c ≠ CodePoint.ofChar '/')
    (hv : letterValue? c = some v) : escapeValue (.str [c]) = .ok (.str [v]) := by
  have hfind := find?_escapeValues c
  rw [if_neg hc, hv] at hfind
  simp only [escapeValue, hfind, Option.map_some]

/-- The letters other than the solidus. -/
theorem choice_escapeValues (cur : Text) :
    choice (escapeValues.map fun e => literalReading e.1) cur = match cur with
      | [] => .fails
      | c :: t =>
        if c = CodePoint.ofChar '/' then .fails
        else if (letterValue? c).isSome then .reads [c] t else .fails := by
  rw [choice_letters _ (by decide +kernel)]
  cases cur with
  | nil => rfl
  | cons c t =>
      simp only [find?_escapeValues]
      by_cases hc : c = CodePoint.ofChar '/' <;> simp [hc]

/-! ## Code units -/

theorem leading_hexSet_lt {a b c d : CodePoint} {t : Text}
    (h : (isHex a && isHex b && isHex c && isHex d) = false) :
    Pattern.leading hexSet (a :: b :: c :: d :: t) < 4 := by
  simp only [Pattern.leading_cons, hexSet_contains]
  cases ha : isHex a <;> cases hb : isHex b <;> cases hc : isHex c <;> simp_all

/-- Four hexadecimal digits as they are written. -/
def hexesReading : Text → Reading Text
  | a :: b :: c :: d :: t =>
    if isHex a && isHex b && isHex c && isHex d then .reads [a, b, c, d] t else .fails
  | _ => .fails

theorem spanReading_hexSet (cur : Text) :
    spanReading hexSet 4 (some 4) cur = hexesReading cur := by
  rw [spanReading, Pattern.spanLength_self]
  have hshort (t : Text) (ht : t.length < 4) : Pattern.leading hexSet t < 4 :=
    Nat.lt_of_le_of_lt (List.takeWhile_prefix _).length_le ht
  rcases cur with _ | ⟨a, _ | ⟨b, _ | ⟨c, _ | ⟨d, t⟩⟩⟩⟩
  · rw [if_pos (hshort _ (by simp))]
    rfl
  · rw [if_pos (hshort _ (by simp))]
    rfl
  · rw [if_pos (hshort _ (by simp))]
    rfl
  · rw [if_pos (hshort _ (by simp))]
    rfl
  · cases h : isHex a && isHex b && isHex c && isHex d with
    | false =>
        rw [if_pos (leading_hexSet_lt h)]
        simp only [hexesReading, h, Bool.false_eq_true, if_false]
    | true =>
        simp only [Bool.and_eq_true] at h
        obtain ⟨⟨⟨ha, hb⟩, hc⟩, hd⟩ := h
        simp [hexesReading, Pattern.leading_cons, hexSet_contains, ha, hb, hc, hd]

theorem hexNumber?_of_isHex {a b c d : CodePoint}
    (h : (isHex a && isHex b && isHex c && isHex d) = true) :
    ∃ n, hexNumber? [a, b, c, d] = some n ∧
      CodePoint.ofNat n = (StringPiece.unit a b c d).value := by
  simp only [Bool.and_eq_true] at h
  obtain ⟨⟨⟨ha, hb⟩, hc⟩, hd⟩ := h
  obtain ⟨i, hi⟩ := Option.isSome_iff_exists.1 ha
  obtain ⟨j, hj⟩ := Option.isSome_iff_exists.1 hb
  obtain ⟨k, hk⟩ := Option.isSome_iff_exists.1 hc
  obtain ⟨l, hl⟩ := Option.isSome_iff_exists.1 hd
  refine ⟨16 * (16 * (16 * i + j) + k) + l, ?_, ?_⟩
  · simp [hexNumber?, hi, hj, hk, hl]
  · simp [StringPiece.value, StringPiece.digitValue, hi, hj, hk, hl, Nat.mul_comm]

/-- The code point of the unit that the digits denote. -/
def unitText (t : Text) : Text := [CodePoint.ofNat ((hexNumber? t).getD 0)]

theorem map_spanReading_hexSet (cur : Text) :
    (spanReading hexSet 4 (some 4) cur).map unitText = unitReading cur := by
  rw [spanReading_hexSet]
  match cur with
  | [] => rfl
  | [_] => rfl
  | [_, _] => rfl
  | [_, _, _] => rfl
  | a :: b :: c :: d :: t =>
    cases h : isHex a && isHex b && isHex c && isHex d with
    | false => simp only [hexesReading, unitReading, h, Bool.false_eq_true, if_false, map_fails]
    | true =>
        obtain ⟨n, hn, hvalue⟩ := hexNumber?_of_isHex h
        simp only [hexesReading, unitReading, h, if_true, map_reads, unitText, hn,
          Option.getD_some, hvalue]

theorem unitValue_of_spanReading {cur t rest : Text}
    (h : spanReading hexSet 4 (some 4) cur = .reads t rest) :
    unitValue (.str t) = .ok (.str (unitText t)) := by
  rw [spanReading_hexSet] at h
  match cur, h with
  | a :: b :: c :: d :: u, h =>
    cases hhex : isHex a && isHex b && isHex c && isHex d with
    | false => simp only [hexesReading, hhex, Bool.false_eq_true, if_false, reduceCtorEq] at h
    | true =>
        simp only [hexesReading, hhex, if_true, reads.injEq] at h
        obtain ⟨n, hn, -⟩ := hexNumber?_of_isHex hhex
        rw [← h.1]
        simp [unitValue, unitText, hn]

/-! ## Pieces -/

theorem spanReading_rawSet (cur : Text) :
    spanReading rawSet 1 none cur = match cur with
      | [] => .fails
      | c :: t =>
        if isRaw c then .reads (c :: t.takeWhile isRaw) (t.dropWhile isRaw) else .fails := by
  have hset : rawSet.contains = isRaw := funext rawSet_contains
  cases cur with
  | nil => rfl
  | cons c t =>
      cases hc : isRaw c with
      | false =>
          have hlead : Pattern.leading rawSet (c :: t) < 1 := by
            simp [Pattern.leading_cons, rawSet_contains, hc]
          rw [spanReading, if_pos hlead]
          simp only [hc, Bool.false_eq_true, if_false]
      | true =>
          have hlead : 1 ≤ Pattern.leading rawSet (c :: t) := by
            simp [Pattern.leading_cons, rawSet_contains, hc]
          rw [spanReading_none hlead, hset]
          simp [hc]

theorem reads_solidus :
    (map (word "\\/") fun _ => .ok (.str (text "/"))).Reads Inv depth fun cur =>
      ((literalReading (text "\\/") cur).map fun _ => text "/").map .str := by
  refine (reads_map (κ := fun _ => .str (text "/")) (reads_literal _) fun _ _ _ _ => rfl).congr
    fun cur => ?_
  rw [map_map]
  rfl

/-- The letter after a backslash and what it stands for; the solidus has a piece of
its own. -/
def letterReading : Text → Reading Text
  | [] => .fails
  | c :: t =>
    if c = CodePoint.ofChar '/' then .fails
    else match letterValue? c with
      | some v => .reads [v] t
      | none => .fails

theorem map_choice_escapeValues (cur : Text) :
    (choice (escapeValues.map fun e => literalReading e.1) cur).map (List.filterMap letterValue?) =
      letterReading cur := by
  rw [choice_escapeValues]
  cases cur with
  | nil => rfl
  | cons c t =>
      by_cases hc : c = CodePoint.ofChar '/'
      · simp [letterReading, hc]
      · cases hv : letterValue? c <;> simp [letterReading, hc, hv]

theorem escapeValue_of_choice {cur t rest : Text}
    (h : choice (escapeValues.map fun e => literalReading e.1) cur = .reads t rest) :
    escapeValue (.str t) = .ok (.str (t.filterMap letterValue?)) := by
  rw [choice_escapeValues] at h
  cases cur with
  | nil => cases h
  | cons c u =>
      by_cases hc : c = CodePoint.ofChar '/'
      · simp [hc] at h
      · cases hv : letterValue? c with
        | none => simp [hc, hv] at h
        | some v =>
            simp only [hc, hv, Option.isSome_some, if_true, if_false, reads.injEq] at h
            rw [← h.1, escapeValue_singleton hc hv]
            simp [hv]

theorem reads_letter (hInv : Store.Quiet Inv) :
    (pipeTo [word "\\", .first (escapeValues.map fun e => .given (.literal e.1))]
      (itemWith 1 escapeValue)).Reads Inv depth fun cur =>
      ((literalReading (text "\\") cur).bind fun _ t => enter depth fun _ => letterReading t).map
        .str := by
  have hletters : (first (escapeValues.map fun e => given (.literal e.1))).Reads Inv depth
      fun cur => (enter depth fun _ => choice (escapeValues.map fun e => literalReading e.1) cur).map .str :=
    reads_choice hInv (fun _ => _) (fun n => List.forall₂_map_left_iff.2
      (List.forall₂_map_right_iff.2 (List.forall₂_same.2 fun e _ =>
        ⟨reads_literal e.1, isDescribed_plain _ _⟩))) depth
  have hpipe := reads_itemWith (c := escapeValue) (κ := List.filterMap letterValue?) (i := 1)
    (φ := .str) [] (.cons (reads_literal (text "\\")) (.cons hletters .nil)) (by decide) ?_
  · refine hpipe.congr fun cur => ?_
    simp only [sequence_cons, sequence_nil, map_bind, map_map]
    congr 1
    funext _ t
    rw [← map_choice_escapeValues]
    cases depth with
    | zero => rfl
    | succ n =>
        rw [enter_succ, enter_succ, map_map]
        rfl
  · intro cur as rest h
    obtain ⟨b, t, -, hrest⟩ := bind_eq_reads_iff.1 h
    obtain ⟨us, hus, rfl⟩ := map_eq_reads_iff.1 hrest
    obtain ⟨u, t', hu, hlast⟩ := bind_eq_reads_iff.1 hus
    obtain ⟨-, -, hchoice⟩ := enter_eq_reads_iff.1 hu
    obtain ⟨vs, -, rfl⟩ := map_eq_reads_iff.1 hlast
    exact escapeValue_of_choice hchoice

theorem reads_unit :
    (pipeTo [word "\\u", pattern "^[0-9a-fA-F]\x7b4\x7d"] (itemWith 1 unitValue)).Reads Inv depth
      fun cur => ((literalReading (text "\\u") cur).bind fun _ t => unitReading t).map .str := by
  have hdigits : (pattern "^[0-9a-fA-F]\x7b4\x7d").Reads Inv depth fun cur =>
      (spanReading hexSet 4 (some 4) cur).map .str := reads_span read_hexes
  have hpipe := reads_itemWith (c := unitValue) (κ := unitText) (i := 1) (φ := .str) []
    (.cons (reads_literal (text "\\u")) (.cons hdigits .nil)) (by decide) ?_
  · refine hpipe.congr fun cur => ?_
    simp only [sequence_cons, sequence_nil, map_bind, map_map]
    congr 1
    funext _ t
    rw [← map_spanReading_hexSet, map_map]
    rfl
  · intro cur as rest h
    obtain ⟨b, t, -, hrest⟩ := bind_eq_reads_iff.1 h
    obtain ⟨us, hus, rfl⟩ := map_eq_reads_iff.1 hrest
    obtain ⟨u, t', hu, hlast⟩ := bind_eq_reads_iff.1 hus
    obtain ⟨vs, -, rfl⟩ := map_eq_reads_iff.1 hlast
    exact unitValue_of_spanReading hu

/-- The pieces that start with a backslash. -/
def escapeReadings (depth : Nat) : List (Text → Reading Text) :=
  [fun cur => (literalReading (text "\\/") cur).map fun _ => text "/",
    fun cur => (literalReading (text "\\") cur).bind fun _ t =>
      enter depth fun _ => letterReading t,
    fun cur => (literalReading (text "\\u") cur).bind fun _ t => unitReading t]

theorem escape_choice (t : Text) :
    choice (escapeReadings depth) (CodePoint.ofChar '\\' :: t) = escapeReading depth t := by
  simp only [escapeReadings, choice_cons, choice_nil, orElse_fails_right]
  rw [show text "\\/" = [CodePoint.ofChar '\\', CodePoint.ofChar '/'] from rfl,
    show text "\\u" = [CodePoint.ofChar '\\', CodePoint.ofChar 'u'] from rfl,
    show text "\\" = [CodePoint.ofChar '\\'] from rfl]
  simp only [literalReading_pair, literalReading_singleton, if_true, bind_reads]
  cases t with
  | nil => cases depth <;> rfl
  | cons c u =>
      by_cases hc : c = CodePoint.ofChar '/'
      · simp [escapeReading, hc, text]
      · cases depth with
        | zero => simp [escapeReading, hc]
        | succ n =>
            cases hv : letterValue? c with
            | some v => simp [escapeReading, letterReading, hc, hv]
            | none =>
                by_cases hu : c = CodePoint.ofChar 'u'
                · subst hu
                  simp [escapeReading, letterReading, hc, hv]
                · simp [escapeReading, letterReading, hc, hv, hu]

theorem escape_choice_of_ne {cur : Text} (h : cur.head? ≠ some (CodePoint.ofChar '\\')) :
    choice (escapeReadings depth) cur = .fails := by
  cases cur with
  | nil => rfl
  | cons c t =>
      have hc : c ≠ CodePoint.ofChar '\\' := by simpa using h
      have hliteral (s : Text) : literalReading (CodePoint.ofChar '\\' :: s) (c :: t) = .fails :=
        literalReading_cons_of_ne hc s t
      have hs : text "\\/" = CodePoint.ofChar '\\' :: text "/" := rfl
      have hu : text "\\u" = CodePoint.ofChar '\\' :: text "u" := rfl
      have hb : text "\\" = [CodePoint.ofChar '\\'] := rfl
      simp [escapeReadings, hs, hu, hb, hliteral]

/-- The first of the pieces that a text starts with is the one that its first code
points say. -/
theorem piece_choice (cur : Text) :
    (enter depth fun depth => choice (spanReading rawSet 1 none :: escapeReadings depth) cur) =
      pieceReading depth cur := by
  cases depth with
  | zero => rfl
  | succ n =>
      rw [pieceReading, enter_succ, enter_succ, choice_cons, spanReading_rawSet]
      cases cur with
      | nil => rfl
      | cons c t =>
          cases hraw : isRaw c with
          | true => simp [hraw]
          | false =>
              by_cases hc : c = CodePoint.ofChar '\\'
              · subst hc
                simp [hraw, escape_choice]
              · have hne : (c :: t).head? ≠ some (CodePoint.ofChar '\\') := by simpa using hc
                simp [hraw, hc, escape_choice_of_ne hne]

theorem reads_pieces (hInv : Store.Quiet Inv) :
    (first stringPieces).Reads Inv depth fun cur => (pieceReading depth cur).map .str := by
  have hchoice : (first stringPieces).Reads Inv depth fun cur => (enter depth fun n =>
      choice (spanReading rawSet 1 none :: escapeReadings n) cur).map .str :=
    reads_choice hInv (fun n => _)
    (fun n => .cons ⟨reads_span read_raws, isDescribed_span read_raws⟩
      (.cons ⟨reads_solidus, isDescribed_map _ _⟩
        (.cons ⟨reads_letter hInv, isDescribed_pipeTo _ _⟩
          (.cons ⟨reads_unit, isDescribed_pipeTo _ _⟩ .nil)))) depth
  refine hchoice.congr fun cur => ?_
  rw [piece_choice]

/-! ## Strings -/

theorem reads_stringBody (hInv : Store.Quiet Inv) (o : Options) :
    (stringBody o.combine).Reads Inv depth fun cur =>
      ((Reading.many1 (pieceReading depth) cur).map fun ts => o.decode ts.flatten).map .str := by
  have hpieces : (first stringPieces).Reads Inv depth fun cur =>
      (pieceReading depth cur).map .str := reads_pieces hInv
  have hjoin := reads_join (reads_many1 hpieces)
  cases hc : o.combine with
  | false =>
      refine hjoin.congr fun cur => ?_
      simp [Options.decode, hc, Function.comp_def]
  | true =>
      have hmap := reads_map (c := Value.combine)
        (κ := fun ts => .str (Text.combineSurrogates ts.flatten)) hjoin fun _ _ _ _ => rfl
      refine hmap.congr fun cur => ?_
      simp [Options.decode, hc, Function.comp_def]

theorem reads_string (hInv : Store.Quiet Inv) (o : Options) :
    (stringRecipe o.combine).Reads Inv depth fun cur => (stringReading o depth cur).map .str := by
  have hempty (n : Nat) : (pipeTo [word "\"", word "\""] fun _ => .lift (.str [])).Reads Inv n
      fun cur => ((sequence [literalReading (text "\""), literalReading (text "\"")] cur).map
        fun _ => []).map .str := by
    refine (reads_pipeTo (k := fun _ => .reads (.str []))
      (.cons (reads_literal _) (.cons (reads_literal _) .nil)) fun _ _ _ _ => reads_lift _).congr
        fun cur => ?_
    rw [map_map]
    rfl
  have hbody (n : Nat) := reads_itemOf (i := 1) (n := n) []
    (.cons (reads_literal (text "\"")) (.cons (reads_stringBody hInv o)
      (.cons (reads_literal (text "\""))  .nil))) (by simp)
  have hchoice := reads_choice hInv (ι := .str) (fun _ => [_, _])
    (fun n => .cons ⟨hempty n, isDescribed_pipeTo _ _⟩
      (.cons ⟨hbody n, isDescribed_pipeTo _ _⟩ .nil)) depth
  refine hchoice.congr fun cur => ?_
  rw [stringReading]
  congr 1
  congr 1
  funext n
  simp only [choice_cons, choice_nil, orElse_fails_right, sequence_cons, sequence_nil, map_bind,
    map_map, orElse_bind, bodyReading, bind_map]
  rfl

end Json

end Descent
