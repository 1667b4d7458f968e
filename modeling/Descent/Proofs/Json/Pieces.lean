import Descent.Proofs.Json.Reading

/-!
# String tokens

Raw code points are taken all at once and the reading gives the texts of the
pieces one by one. Joined, they follow the text code point by code point, so a
string is read as the pieces that it is written with. The depth that a string
needs is that of its pieces: escapes other than the solidus need one more.
-/

namespace Descent

namespace Json

open Reading Recipe

/-- The code points of the pieces that come next. -/
def piecesReading (depth : Nat) (cur : Text) : Reading Text :=
  (Reading.many (pieceReading depth) cur).map List.flatten

section

variable {depth : Nat} {c : CodePoint} {t u : Text}

@[simp] theorem pieceReading_nil (depth : Nat) : pieceReading (depth + 1) [] = .fails := rfl

theorem pieceReading_raw (h : isRaw c = true) (depth : Nat) (t : Text) :
    pieceReading (depth + 1) (c :: t) = .reads (c :: t.takeWhile isRaw) (t.dropWhile isRaw) := by
  simp [pieceReading, h]

theorem pieceReading_backslash (depth : Nat) (t : Text) :
    pieceReading (depth + 1) (CodePoint.ofChar '\\' :: t) = escapeReading depth t := by
  simp [pieceReading, isRaw_backslash]

theorem pieceReading_other (hraw : isRaw c = false) (h : c ≠ CodePoint.ofChar '\\') (depth : Nat)
    (t : Text) : pieceReading (depth + 1) (c :: t) = .fails := by
  simp [pieceReading, hraw, h]

theorem piecesReading_of_fails (h : pieceReading depth t = .fails) :
    piecesReading depth t = .reads [] t := by
  rw [piecesReading, many_of_fails h]
  rfl

theorem piecesReading_of_overrun (h : pieceReading depth t = .overrun) :
    piecesReading depth t = .overrun := by
  rw [piecesReading, many_of_overrun h]
  rfl

theorem piecesReading_of_reads {v : Text} (h : pieceReading depth t = .reads u v)
    (hlt : v.length < t.length) :
    piecesReading depth t = (piecesReading depth v).map (u ++ ·) := by
  rw [piecesReading, many_of_reads h hlt, piecesReading, map_map, map_map]
  rfl

/-- A raw code point, whether or not it is taken together with the next ones. -/
theorem piecesReading_raw (h : isRaw c = true) (depth : Nat) (t : Text) :
    piecesReading (depth + 1) (c :: t) = (piecesReading (depth + 1) t).map (c :: ·) := by
  have hlt : (t.dropWhile isRaw).length < (c :: t).length :=
    Nat.lt_succ_of_le (List.dropWhile_suffix isRaw).length_le
  rw [piecesReading_of_reads (pieceReading_raw h depth t) hlt]
  cases t with
  | nil => rfl
  | cons d t =>
      cases hd : isRaw d with
      | false => simp [hd]
      | true =>
          have hlt : (t.dropWhile isRaw).length < (d :: t).length :=
            Nat.lt_succ_of_le (List.dropWhile_suffix isRaw).length_le
          rw [piecesReading_of_reads (pieceReading_raw hd depth t) hlt, map_map]
          simp [hd, Function.comp_def]

end

/-! ## Escapes -/

theorem unitReading_eq_reads {t u rest : Text} (h : unitReading t = .reads u rest) :
    ∃ a b c d, (StringPiece.unit a b c d).WellFormed ∧ t = a :: b :: c :: d :: rest ∧
      u = [(StringPiece.unit a b c d).value] := by
  match t, h with
  | a :: b :: c :: d :: t, h =>
    by_cases hhex : (isHex a && isHex b && isHex c && isHex d) = true
    · simp only [unitReading, hhex, if_true, reads.injEq] at h
      simp only [Bool.and_eq_true] at hhex
      refine ⟨a, b, c, d, ?_, by rw [h.2], h.1.symm⟩
      simpa [StringPiece.WellFormed, isHex, and_assoc] using hhex
    · rw [unitReading, if_neg hhex] at h
      cases h

theorem unitReading_unit {a b c d : CodePoint} (h : (StringPiece.unit a b c d).WellFormed)
    (t : Text) :
    unitReading (a :: b :: c :: d :: t) = .reads [(StringPiece.unit a b c d).value] t := by
  have hhex : (isHex a && isHex b && isHex c && isHex d) = true := by
    simpa [StringPiece.WellFormed, isHex, and_assoc] using h
  rw [unitReading, if_pos hhex]

/-- What is read after a backslash is the rest of a piece. -/
theorem exists_piece_of_escapeReading {depth : Nat} {t u rest : Text}
    (h : escapeReading depth t = .reads u rest) :
    ∃ p : StringPiece, p.WellFormed ∧ CodePoint.ofChar '\\' :: t = p.text ++ rest ∧
      u = [p.value] := by
  cases t with
  | nil => cases depth <;> cases h
  | cons c t =>
      by_cases hc : c = CodePoint.ofChar '/'
      · subst hc
        cases h
        exact ⟨.letter (CodePoint.ofChar '/'), rfl, rfl, rfl⟩
      · rw [escapeReading, if_neg hc, enter_eq_reads_iff] at h
        obtain ⟨n, -, h⟩ := h
        cases hv : letterValue? c with
        | some v =>
            simp only [hv, reads.injEq] at h
            obtain ⟨rfl, rfl⟩ := h
            exact ⟨.letter c, by simp [StringPiece.WellFormed, hv], rfl,
              by simp [StringPiece.value, hv]⟩
        | none =>
            by_cases hu : c = CodePoint.ofChar 'u'
            · subst hu
              simp only [hv, if_true] at h
              obtain ⟨a, b, c, d, hwf, rfl, rfl⟩ := unitReading_eq_reads h
              exact ⟨.unit a b c d, hwf, rfl, rfl⟩
            · simp only [hv, hu, if_false] at h
              cases h

namespace StringPiece

theorem text_ne_nil (p : StringPiece) : p.text ≠ [] := by
  cases p <;> exact List.cons_ne_nil _ _

/-- The depth that a piece needs, that of the string around it included. -/
def need : StringPiece → Nat
  | .raw _ => 2
  | .letter c => if c = CodePoint.ofChar '/' then 2 else 3
  | .unit _ _ _ _ => 3

end StringPiece

/-- The depth that a string needs. -/
def piecesNeed : List StringPiece → Nat
  | [] => 1
  | p :: ps => max p.need (piecesNeed ps)

@[simp] theorem piecesNeed_nil : piecesNeed [] = 1 := rfl

theorem piecesNeed_cons_le {p : StringPiece} {ps : List StringPiece} {n : Nat} :
    piecesNeed (p :: ps) ≤ n ↔ p.need ≤ n ∧ piecesNeed ps ≤ n :=
  Nat.max_le

theorem piecesNeed_le (pieces : List StringPiece) : piecesNeed pieces ≤ 3 := by
  induction pieces with
  | nil => decide
  | cons p ps ih =>
      refine Nat.max_le.2 ⟨?_, ih⟩
      cases p with
      | raw c => simp [StringPiece.need]
      | letter c =>
          rw [StringPiece.need]
          split <;> decide
      | unit a b c d => simp [StringPiece.need]

theorem isRaw_of_wellFormed {c : CodePoint} (h : (StringPiece.raw c).WellFormed) :
    isRaw c = true := by
  obtain ⟨hquote, hbackslash, hcontrol⟩ := h
  simp [isRaw, hquote, hbackslash, hcontrol]

theorem wellFormed_raw {c : CodePoint} (h : isRaw c = true) : (StringPiece.raw c).WellFormed := by
  simpa [isRaw, StringPiece.WellFormed, and_assoc] using h

/-- An escape is read after its backslash, if the depth is enough. -/
theorem piecesReading_escape {u v t : Text} {depth : Nat}
    (h : escapeReading depth (u ++ t) = .reads v t) :
    piecesReading (depth + 1) (CodePoint.ofChar '\\' :: u ++ t) =
      (piecesReading (depth + 1) t).map (v ++ ·) := by
  rw [← pieceReading_backslash] at h
  refine piecesReading_of_reads h ?_
  simp only [List.cons_append, List.length_cons, List.length_append]
  omega

/-- A piece is read, if the depth is enough, and then the next ones. -/
theorem piecesReading_piece {p : StringPiece} (h : p.WellFormed) (depth : Nat) (t : Text) :
    piecesReading (depth + 1) (p.text ++ t) =
      if p.need ≤ depth + 2 then (piecesReading (depth + 1) t).map (p.value :: ·)
      else .overrun := by
  have htwo : 2 ≤ depth + 2 := Nat.le_add_left 2 depth
  cases p with
  | raw c =>
      rw [StringPiece.need, if_pos htwo]
      exact piecesReading_raw (isRaw_of_wellFormed h) depth t
  | letter c =>
      obtain ⟨v, hv⟩ := Option.isSome_iff_exists.1 h
      have hvalue : (StringPiece.letter c).value = v := by simp [StringPiece.value, hv]
      by_cases hc : c = CodePoint.ofChar '/'
      · rw [StringPiece.need, if_pos hc, if_pos htwo]
        have hescape : escapeReading depth ([c] ++ t) = .reads [v] t := by
          subst hc
          cases hv
          rfl
        rw [hvalue]
        exact piecesReading_escape hescape
      · rw [StringPiece.need, if_neg hc]
        cases depth with
        | zero =>
            refine piecesReading_of_overrun ?_
            simp [StringPiece.text, pieceReading_backslash, escapeReading, hc]
        | succ n =>
            rw [if_pos (by omega), hvalue]
            have hescape : escapeReading (n + 1) ([c] ++ t) = .reads [v] t := by
              simp [escapeReading, hc, hv]
            exact piecesReading_escape hescape
  | unit a b c d =>
      rw [StringPiece.need]
      have hsolidus : CodePoint.ofChar 'u' ≠ CodePoint.ofChar '/' := by decide
      have hletter : letterValue? (CodePoint.ofChar 'u') = none := by decide
      cases depth with
      | zero =>
          refine piecesReading_of_overrun ?_
          simp [StringPiece.text, pieceReading_backslash, escapeReading, hsolidus]
      | succ n =>
          rw [if_pos (by omega)]
          have hescape : escapeReading (n + 1) ([CodePoint.ofChar 'u', a, b, c, d] ++ t) =
              .reads [(StringPiece.unit a b c d).value] t := by
            simp [escapeReading, hsolidus, hletter, unitReading_unit h]
          exact piecesReading_escape hescape

theorem piecesReading_text {pieces : List StringPiece} (h : ∀ p ∈ pieces, p.WellFormed)
    (depth : Nat) (rest : Text) :
    piecesReading (depth + 1) (pieces.flatMap StringPiece.text ++ CodePoint.ofChar '"' :: rest) =
      if piecesNeed pieces ≤ depth + 2 then
        .reads (stringValue pieces) (CodePoint.ofChar '"' :: rest)
      else .overrun := by
  induction pieces with
  | nil =>
      rw [piecesNeed_nil, if_pos (Nat.succ_le_succ (Nat.zero_le _))]
      exact piecesReading_of_fails (pieceReading_other (by decide) (by decide) depth rest)
  | cons p ps ih =>
      have hps : ∀ q ∈ ps, q.WellFormed := fun q hq => h q (List.mem_cons_of_mem p hq)
      rw [List.flatMap_cons, List.append_assoc, piecesReading_piece (h p List.mem_cons_self),
        ih hps]
      by_cases hp : p.need ≤ depth + 2 <;> by_cases hrest : piecesNeed ps ≤ depth + 2 <;>
        simp [piecesNeed_cons_le, hp, hrest, stringValue]

/-- The code points that are read are those of pieces. -/
theorem exists_pieces_of_piecesReading {depth : Nat} {cur t rest : Text}
    (h : piecesReading (depth + 1) cur = .reads t rest) :
    ∃ pieces : List StringPiece, (∀ p ∈ pieces, p.WellFormed) ∧
      cur = pieces.flatMap StringPiece.text ++ rest ∧ t = stringValue pieces := by
  induction hn : cur.length using Nat.strongRecOn generalizing cur t with
  | ind n ih =>
      have hnone (hfails : pieceReading (depth + 1) cur = .fails) :
          ∃ pieces : List StringPiece, (∀ p ∈ pieces, p.WellFormed) ∧
            cur = pieces.flatMap StringPiece.text ++ rest ∧ t = stringValue pieces := by
        rw [piecesReading_of_fails hfails] at h
        cases h
        exact ⟨[], by simp, rfl, rfl⟩
      cases cur with
      | nil => exact hnone rfl
      | cons c u =>
          cases hraw : isRaw c with
          | true =>
              rw [piecesReading_raw hraw, map_eq_reads_iff] at h
              obtain ⟨v, hv, rfl⟩ := h
              obtain ⟨pieces, hwf, rfl, rfl⟩ := ih u.length (hn ▸ Nat.lt_succ_self _) hv rfl
              exact ⟨.raw c :: pieces, List.forall_mem_cons.2 ⟨wellFormed_raw hraw, hwf⟩, rfl, rfl⟩
          | false =>
              by_cases hc : c = CodePoint.ofChar '\\'
              · subst hc
                cases hescape : escapeReading depth u with
                | overrun =>
                    rw [← pieceReading_backslash] at hescape
                    rw [piecesReading_of_overrun hescape] at h
                    cases h
                | fails => exact hnone ((pieceReading_backslash depth u).trans hescape)
                | reads v w =>
                    obtain ⟨p, hp, htext, rfl⟩ := exists_piece_of_escapeReading hescape
                    have hlt : w.length < (CodePoint.ofChar '\\' :: u).length := by
                      rw [htext, List.length_append]
                      exact Nat.lt_add_of_pos_left (List.length_pos_iff.2 p.text_ne_nil)
                    rw [← pieceReading_backslash] at hescape
                    rw [piecesReading_of_reads hescape hlt, map_eq_reads_iff] at h
                    obtain ⟨t', ht', rfl⟩ := h
                    obtain ⟨pieces, hwf, rfl, rfl⟩ := ih w.length (hn ▸ hlt) ht' rfl
                    refine ⟨p :: pieces, List.forall_mem_cons.2 ⟨hp, hwf⟩, ?_, rfl⟩
                    rw [htext, List.flatMap_cons, List.append_assoc]
              · exact hnone (pieceReading_other hraw hc depth u)

/-! ## Strings -/

theorem literalReading_quote (c : CodePoint) (t : Text) :
    literalReading (text "\"") (c :: t) =
      if c = CodePoint.ofChar '"' then .reads (text "\"") t else .fails :=
  literalReading_singleton (CodePoint.ofChar '"') (c :: t)

theorem bodyReading_eq (o : Options) (depth : Nat) (cur : Text) :
    bodyReading o depth cur = (Reading.many (pieceReading depth) cur).bind fun ts t =>
      if ts.isEmpty then .fails
      else (literalReading (text "\"") t).map fun _ => o.decode ts.flatten := by
  rw [bodyReading, Reading.many1, bind_assoc]
  congr 1
  funext ts t
  cases ts.isEmpty <;> rfl

theorem stringValue_ne_nil {pieces : List StringPiece} (h : pieces ≠ []) :
    stringValue pieces ≠ [] := by
  simpa [stringValue] using h

@[simp] theorem decode_nil (o : Options) : o.decode [] = [] := by
  rw [Options.decode]
  split <;> rfl

theorem one_le_piecesNeed (pieces : List StringPiece) : 1 ≤ piecesNeed pieces := by
  induction pieces with
  | nil => exact Nat.le_refl 1
  | cons p ps ih => exact Nat.le_trans ih (Nat.le_max_right _ _)

theorem StringPiece.two_le_need (p : StringPiece) : 2 ≤ p.need := by
  cases p with
  | raw c => exact Nat.le_refl 2
  | letter c =>
      rw [StringPiece.need]
      split <;> decide
  | unit a b c d => exact Nat.le_succ 2

/-- No piece starts with a quote. -/
theorem literalReading_quote_piece {p : StringPiece} (h : p.WellFormed) (t : Text) :
    literalReading (text "\"") (p.text ++ t) = .fails := by
  have hbackslash : CodePoint.ofChar '\\' ≠ CodePoint.ofChar '"' := by decide
  cases p with
  | raw c =>
      have hc : c ≠ CodePoint.ofChar '"' := by
        rintro rfl
        exact h.1 rfl
      exact (literalReading_quote c t).trans (if_neg hc)
  | letter c => exact (literalReading_quote _ _).trans (if_neg hbackslash)
  | unit a b c d => exact (literalReading_quote _ _).trans (if_neg hbackslash)

/-- The pieces up to the closing quote are read, if there are any. -/
theorem bodyReading_pieces {pieces : List StringPiece} (h : ∀ p ∈ pieces, p.WellFormed)
    (hne : pieces ≠ []) (o : Options) (depth : Nat) (rest : Text) :
    bodyReading o depth (pieces.flatMap StringPiece.text ++ CodePoint.ofChar '"' :: rest) =
      if piecesNeed pieces ≤ depth + 1 then .reads (o.decode (stringValue pieces)) rest
      else .overrun := by
  cases depth with
  | zero =>
      have hneed : ¬ piecesNeed pieces ≤ 1 := by
        cases pieces with
        | nil => exact absurd rfl hne
        | cons p ps =>
            rw [piecesNeed_cons_le]
            intro hle
            exact absurd hle.1 (Nat.not_le.2 p.two_le_need)
      rw [if_neg hneed, bodyReading_eq, many_of_overrun rfl]
      rfl
  | succ n =>
      have hread := piecesReading_text h n rest
      rw [bodyReading_eq]
      by_cases hneed : piecesNeed pieces ≤ n + 2
      · rw [if_pos hneed, piecesReading, map_eq_reads_iff] at hread
        obtain ⟨ts, hmany, hts⟩ := hread
        have hnonempty : ts ≠ [] := by
          rintro rfl
          exact stringValue_ne_nil hne hts.symm
        rw [hmany, if_pos hneed]
        simp [hnonempty, literalReading_quote, hts]
      · rw [if_neg hneed, piecesReading] at hread
        rw [if_neg hneed]
        cases hmany : Reading.many (pieceReading (n + 1))
            (pieces.flatMap StringPiece.text ++ CodePoint.ofChar '"' :: rest) with
        | overrun => rfl
        | fails =>
            rw [hmany] at hread
            cases hread
        | reads ts t =>
            rw [hmany] at hread
            cases hread

/-- A string is read, if the depth is enough. -/
theorem stringReading_stringText {pieces : List StringPiece} (h : ∀ p ∈ pieces, p.WellFormed)
    (o : Options) (depth : Nat) (rest : Text) :
    stringReading o depth (stringText pieces ++ rest) =
      if piecesNeed pieces ≤ depth then .reads (o.decode (stringValue pieces)) rest
      else .overrun := by
  cases depth with
  | zero =>
      rw [if_neg (Nat.not_le.2 (one_le_piecesNeed pieces))]
      rfl
  | succ n =>
      have htext : stringText pieces ++ rest = CodePoint.ofChar '"' ::
          (pieces.flatMap StringPiece.text ++ CodePoint.ofChar '"' :: rest) := by
        simp [stringText]
      rw [stringReading, enter_succ, htext, literalReading_quote, if_pos rfl, bind_reads]
      cases pieces with
      | nil =>
          rw [piecesNeed_nil, if_pos (Nat.succ_le_succ (Nat.zero_le n))]
          simp [literalReading_quote, stringValue]
      | cons p ps =>
          have hquote := literalReading_quote_piece (h p List.mem_cons_self)
            (ps.flatMap StringPiece.text ++ CodePoint.ofChar '"' :: rest)
          rw [← List.append_assoc, ← List.flatMap_cons] at hquote
          rw [hquote, map_fails, orElse_fails]
          exact bodyReading_pieces h (List.cons_ne_nil p ps) o n rest

/-- A string that is read is written with pieces. -/
theorem exists_pieces_of_stringReading {o : Options} {depth : Nat} {cur t rest : Text}
    (h : stringReading o depth cur = .reads t rest) :
    ∃ pieces : List StringPiece, (∀ p ∈ pieces, p.WellFormed) ∧
      cur = stringText pieces ++ rest ∧ t = o.decode (stringValue pieces) := by
  rw [stringReading, enter_eq_reads_iff] at h
  obtain ⟨n, -, h⟩ := h
  rw [bind_eq_reads_iff] at h
  obtain ⟨_, u, hopen, h⟩ := h
  obtain ⟨rfl, -⟩ := literalReading_eq_reads_iff.1 hopen
  rw [orElse_eq_reads_iff] at h
  rcases h with h | ⟨-, h⟩
  · obtain ⟨_, hclose, rfl⟩ := map_eq_reads_iff.1 h
    obtain ⟨rfl, -⟩ := literalReading_eq_reads_iff.1 hclose
    exact ⟨[], by simp, rfl, (decode_nil o).symm⟩
  · rw [bodyReading_eq, bind_eq_reads_iff] at h
    obtain ⟨ts, v, hmany, h⟩ := h
    cases n with
    | zero =>
        rw [many_of_overrun rfl] at hmany
        cases hmany
    | succ n =>
        have hpieces : piecesReading (n + 1) u = .reads ts.flatten v := by
          rw [piecesReading, hmany, map_reads]
        obtain ⟨pieces, hwf, rfl, hvalue⟩ := exists_pieces_of_piecesReading hpieces
        by_cases hts : ts.isEmpty = true
        · rw [if_pos hts] at h
          cases h
        · rw [if_neg hts] at h
          obtain ⟨_, hclose, rfl⟩ := map_eq_reads_iff.1 h
          obtain ⟨rfl, -⟩ := literalReading_eq_reads_iff.1 hclose
          refine ⟨pieces, hwf, ?_, by rw [hvalue]⟩
          simp [stringText, text]

/-- Nothing else starts with a quote. -/
theorem stringReading_of_head {c : CodePoint} (hc : c ≠ CodePoint.ofChar '"') (o : Options)
    (depth : Nat) (t : Text) : stringReading o depth (c :: t) = enter depth fun _ => .fails := by
  simp only [stringReading, literalReading_quote, if_neg hc, bind_fails]

end Json

end Descent
