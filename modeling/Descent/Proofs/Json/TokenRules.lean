import Descent.Proofs.Json.Openings
import Descent.Proofs.Json.Uniqueness
import Descent.Proofs.Json.Use
import Descent.Proofs.Surrogates

/-!
# The token rules

What the rules of single tokens do on any text, told by the token alone: which texts start
with one, what its value is and what remains. A token is taken as far as it goes, and there
is no way back to a shorter one: a number whose fraction or exponent is started has to have
their digits.
-/

namespace Descent

open Json

namespace NumberLiteral

/-- The text is a number literal and a rest that does not go on with it. -/
structure IsToken (l : NumberLiteral) (cur rest : Text) : Prop where
  wellFormed : l.WellFormed
  text : cur = l.render ++ rest
  ends : l.EndsBefore rest

/-- The text is a literal that lacks the digits of its fraction or of its exponent, and a rest
that does not go on with it. -/
structure IsCutShort (l : NumberLiteral) (cur rest : Text) : Prop where
  scanned : l.Scanned
  incomplete : ¬ l.IsComplete
  text : cur = l.render ++ rest
  ends : l.EndsBefore rest
  /-- If the exponent has neither sign nor digits, no sign follows. -/
  unsigned : ∀ e ∈ l.exponent, e.sign = none →
    ∀ c ∈ (e.digits ++ rest).head?, isExponentSign c = false

variable {l k : NumberLiteral} {cur rest rest' : Text}

theorem IsToken.numberReading (h : l.IsToken cur rest) (n : Nat) :
    numberReading (n + 2) cur = .reads (.float l.toBinary64) rest := by
  rw [h.text, numberReading_render h.wellFormed h.ends, if_pos (Nat.le_add_left 2 n)]

theorem IsCutShort.numberReading (h : l.IsCutShort cur rest) (n : Nat) :
    numberReading (n + 2) cur = .fails := by
  rw [h.text, numberReading_of_scanned h.scanned h.ends h.unsigned, Reading.enter_succ,
    Reading.enter_succ, literalNumber_render h.scanned, if_neg h.incomplete]

theorem numberReading_eq_reads_iff {n : Nat} {v : Value} :
    numberReading (n + 2) cur = .reads v rest ↔
      ∃ l : NumberLiteral, l.IsToken cur rest ∧ v = .float l.toBinary64 := by
  constructor
  · intro h
    obtain ⟨l, hwf, hend, hv, hcur⟩ := exists_literal_of_numberReading h
    exact ⟨l, ⟨hwf, hcur, hend⟩, hv⟩
  · rintro ⟨l, h, rfl⟩
    exact h.numberReading n

/-- There is one way at most to take a number from the front of a text. -/
theorem IsToken.unique (h : l.IsToken cur rest) (h' : k.IsToken cur rest') :
    k = l ∧ rest' = rest := by
  have hrest : rest' = rest := by
    have hread := h.numberReading 0
    rw [h'.numberReading 0] at hread
    exact (Reading.reads.inj hread).2
  subst hrest
  have hrender : l.render = k.render := List.append_cancel_right (h.text.symm.trans h'.text)
  exact ⟨(render_unique h.wellFormed h'.wellFormed hrender).symm, rfl⟩

end NumberLiteral

namespace Json.Grammar

variable {g : Grammar} {s : Store}

/-- A rule that does not run out of entries has no outcome or one, and its reading tells which. -/
theorem InUse.exists_outcomes (h : g.InUse s) {n : Nat} {r : Rule} {cur : Text}
    {IsOutcome : Value → Text → Prop} (hne : ruleReading g.options n r cur ≠ .overrun)
    (hreads : ∀ v rest, ruleReading g.options n r cur = .reads v rest ↔ IsOutcome v rest) :
    ∃ os u, ((g.parser r).parse (.ofDepth n) cur).run s = .ok os u ∧ g.InUse u ∧
      (∀ v rest, os = [⟨v, rest⟩] ↔ IsOutcome v rest) ∧
      (os = [] ↔ ∀ v rest, ¬ IsOutcome v rest) := by
  obtain ⟨u, huse, hrun⟩ := h.exists_run_parse n r cur
  simp only [← hreads]
  cases hread : ruleReading g.options n r cur with
  | overrun => exact absurd hread hne
  | fails =>
      rw [hread] at hrun
      exact ⟨[], u, hrun, huse, by simp, by simp⟩
  | reads w more =>
      rw [hread] at hrun
      have hsome : ¬ ∀ v rest, ¬ Reading.reads w more = .reads v rest := fun hnone =>
        hnone w more rfl
      exact ⟨[⟨w, more⟩], u, hrun, huse, by simp, iff_of_false (List.cons_ne_nil _ _) hsome⟩

/-- The number rule, of a grammar in use and with three entries or more, is maximal and does not
go back. On every text it has no outcome or one. The one is the number of a literal that the
text starts with and that the rest does not go on with, which is unique; there is none if and
only if there is no such literal, and so if a fraction or an exponent is started and lacks its
digits. -/
theorem number_isMaximal (h : g.InUse s) (n : Nat) (cur : Text) :
    ∃ os u, ((g.parser .number).parse (.ofDepth (n + 3)) cur).run s = .ok os u ∧ g.InUse u ∧
      (∀ v rest, os = [⟨v, rest⟩] ↔
        ∃ l : NumberLiteral, l.IsToken cur rest ∧ v = .float l.toBinary64) ∧
      (os = [] ↔ ∀ (l : NumberLiteral) rest, ¬ l.IsToken cur rest) ∧
      (∀ (l k : NumberLiteral) rest rest', l.IsToken cur rest → k.IsToken cur rest' →
        k = l ∧ rest' = rest) ∧
      ((∃ (l : NumberLiteral) (rest : Text), l.IsCutShort cur rest) → os = []) := by
  obtain ⟨u, huse, hrun⟩ := h.exists_run_parse (n + 3) .number cur
  have hreading : ruleReading g.options (n + 3) .number cur = numberReading (n + 2) cur := rfl
  rw [hreading] at hrun
  have hunique (l k : NumberLiteral) (rest rest' : Text) (hl : l.IsToken cur rest)
      (hk : k.IsToken cur rest') : k = l ∧ rest' = rest := hl.unique hk
  cases hread : numberReading (n + 2) cur with
  | overrun => exact absurd hread (numberReading_ne_overrun (Nat.le_add_left 2 n) cur)
  | fails =>
      rw [hread] at hrun
      have hnone (l : NumberLiteral) (rest : Text) : ¬ l.IsToken cur rest := fun hl =>
        nomatch hread.symm.trans (hl.numberReading n)
      refine ⟨[], u, hrun, huse, fun v rest => ⟨nofun, ?_⟩, ⟨fun _ => hnone, fun _ => rfl⟩,
        hunique, fun _ => rfl⟩
      rintro ⟨l, hl, -⟩
      exact absurd hl (hnone l rest)
  | reads w more =>
      rw [hread] at hrun
      obtain ⟨j, hj, hw⟩ := NumberLiteral.numberReading_eq_reads_iff.1 hread
      refine ⟨[⟨w, more⟩], u, hrun, huse, fun v rest => ?_, ⟨nofun, fun hnone => ?_⟩, hunique, ?_⟩
      · rw [← NumberLiteral.numberReading_eq_reads_iff (n := n), hread]
        simp
      · exact absurd hj (hnone j more)
      · rintro ⟨l, rest, hl⟩
        cases hread.symm.trans (hl.numberReading n)

/-- A zero with digits after it, a fraction without digits before an exponent, and an exponent
without digits, asked of a new grammar. -/
theorem number_isMaximal_zero :
    let g : Grammar := ⟨{}, 0⟩
    let s := (create {}).leaves {}
    let read (t : Text) := ((g.parser .number).parse (.ofDepth depthLimit) t).run s
    g.InUse s ∧ (∃ u, read (text "-017") = .ok [⟨.float (.ofMagnitude true 0), text "17"⟩] u) ∧
      (∃ u, read (text "1.e5") = .ok [] u) ∧ ∃ u, read (text "12E+") = .ok [] u := by
  intro g s read
  have huse : g.InUse s := .created (s := {}) rfl
  have hzero : NumberLiteral.IsToken ⟨true, text "0", none, none⟩ (text "-017") (text "17") :=
    ⟨⟨by decide, by decide, by decide, by decide, by decide, by decide⟩, rfl,
      ⟨by decide, by decide, by decide⟩⟩
  have hfraction : NumberLiteral.IsCutShort
      ⟨false, text "1", some [], some ⟨CodePoint.ofChar 'e', none, text "5"⟩⟩ (text "1.e5") [] :=
    ⟨⟨by decide, by decide, by decide, by decide, by decide, by decide⟩, by decide, rfl,
      ⟨by decide, by decide, by decide⟩, by decide⟩
  have hexponent : NumberLiteral.IsCutShort
      ⟨false, text "12", none, some ⟨CodePoint.ofChar 'E', some (CodePoint.ofChar '+'), []⟩⟩
      (text "12E+") [] :=
    ⟨⟨by decide, by decide, by decide, by decide, by decide, by decide⟩, by decide, rfl,
      ⟨by decide, by decide, by decide⟩, by decide⟩
  have hempty {t : Text} {l : NumberLiteral} (hl : l.IsCutShort t []) :
      ∃ u, read t = .ok [] u := by
    obtain ⟨os, u, hrun, -, -, -, -, hshort⟩ := number_isMaximal huse 497 t
    exact ⟨u, hshort ⟨l, [], hl⟩ ▸ hrun⟩
  obtain ⟨os, u, hrun, -, hreads, -⟩ := number_isMaximal huse 497 (text "-017")
  exact ⟨huse, ⟨u, (hreads _ _).2 ⟨_, hzero, rfl⟩ ▸ hrun⟩, hempty hfraction, hempty hexponent⟩

end Json.Grammar

/-! ## Strings -/

namespace Json

instance : (p : StringPiece) → Decidable p.WellFormed
  | .raw c => inferInstanceAs (Decidable (c.val ≠ 34 ∧ c.val ≠ 92 ∧ 32 ≤ c.val))
  | .letter c => inferInstanceAs (Decidable ((letterValue? c).isSome = true))
  | .unit a b c d => inferInstanceAs (Decidable (∀ x ∈ [a, b, c, d], x.hexValue?.isSome = true))

/-- The text is a string literal, of these pieces, and a rest. -/
structure IsStringToken (pieces : List StringPiece) (cur rest : Text) : Prop where
  wellFormed : ∀ p ∈ pieces, p.WellFormed
  text : cur = stringText pieces ++ rest

section

variable {o : Options} {pieces pieces' : List StringPiece} {cur rest rest' : Text}

theorem IsStringToken.stringReading (h : IsStringToken pieces cur rest) (n : Nat) :
    stringReading o (n + 3) cur = .reads (o.decode (stringValue pieces)) rest := by
  have hneed : piecesNeed pieces ≤ n + 3 := Nat.le_add_left_of_le (piecesNeed_le pieces)
  rw [h.text, stringReading_stringText h.wellFormed, if_pos hneed]

theorem stringReading_eq_reads_iff {n : Nat} {t : Text} :
    stringReading o (n + 3) cur = .reads t rest ↔
      ∃ pieces, IsStringToken pieces cur rest ∧ t = o.decode (stringValue pieces) := by
  constructor
  · intro h
    obtain ⟨pieces, hwf, hcur, ht⟩ := exists_pieces_of_stringReading h
    exact ⟨pieces, ⟨hwf, hcur⟩, ht⟩
  · rintro ⟨pieces, h, rfl⟩
    exact h.stringReading n

/-- There is one way at most to take a string from the front of a text. -/
theorem IsStringToken.unique (h : IsStringToken pieces cur rest)
    (h' : IsStringToken pieces' cur rest') : pieces' = pieces ∧ rest' = rest :=
  stringText_unique h'.wellFormed h.wellFormed (h'.text.symm.trans h.text)

end

/-- The last hexadecimal digit of a number. -/
def lastDigit (n : Nat) : CodePoint :=
  let d := n % 16
  .ofNat (if d < 10 then 48 + d else 87 + d)

/-- A piece for a code point: itself if it may stand raw, the escaped letter for a quote or a
backslash, and four digits for a control. -/
def pieceOf (c : CodePoint) : StringPiece :=
  if c.val = 34 ∨ c.val = 92 then .letter c
  else if c.val < 32 then
    .unit (lastDigit 0) (lastDigit 0) (lastDigit (c.val / 16)) (lastDigit c.val)
  else .raw c

theorem wellFormed_pieceOf (c : CodePoint) : (pieceOf c).WellFormed ∧ (pieceOf c).value = c := by
  unfold pieceOf
  split_ifs with hletter hcontrol
  · have hvalue : letterValue? c = some c := by
      rcases hletter with h | h <;> simp only [letterValue?, h]
    simp [StringPiece.WellFormed, StringPiece.value, hvalue]
  · have hdigits : ∀ n < 32,
        let p := StringPiece.unit (lastDigit 0) (lastDigit 0) (lastDigit (n / 16)) (lastDigit n)
        p.WellFormed ∧ p.value = .ofNat n := by
      decide
    obtain ⟨hwf, hvalue⟩ := hdigits c.val hcontrol
    exact ⟨hwf, hvalue.trans (CodePoint.ext_val (CodePoint.val_ofNat c.isLt))⟩
  · obtain ⟨hquote, hbackslash⟩ := not_or.1 hletter
    exact ⟨⟨hquote, hbackslash, Nat.not_lt.1 hcontrol⟩, rfl⟩

theorem stringValue_map_pieceOf (t : Text) : stringValue (t.map pieceOf) = t := by
  rw [stringValue, List.map_map]
  exact List.map_id'' (fun c => (wellFormed_pieceOf c).2) t

/-- A text has a literal, unless pairs are combined and the text has one. -/
theorem exists_pieces_iff (o : Options) (t : Text) :
    (∃ pieces, (∀ p ∈ pieces, p.WellFormed) ∧ o.decode (stringValue pieces) = t) ↔
      (o.combine = true → t.Unpaired) := by
  unfold Options.decode
  constructor
  · rintro ⟨pieces, -, rfl⟩ hcombine
    rw [if_pos hcombine]
    exact (Text.unpaired_combineSurrogates _).1
  · intro h
    refine ⟨t.map pieceOf, fun p hp => ?_, ?_⟩
    · obtain ⟨c, -, rfl⟩ := List.mem_map.1 hp
      exact (wellFormed_pieceOf c).1
    · rw [stringValue_map_pieceOf]
      split_ifs with hcombine
      · exact Text.combineSurrogates_of_unpaired (h hcombine)
      · rfl

end Json

namespace Json.Grammar

variable {g : Grammar} {s : Store}

theorem string_ne_overrun (n : Nat) (cur : Text) :
    ruleReading g.options (n + 4) .string cur ≠ .overrun := by
  have hreading : ruleReading g.options (n + 4) .string cur =
    (stringReading g.options (n + 3) cur).map Value.str := rfl
  rw [hreading, ne_eq, Reading.map_eq_overrun_iff]
  exact stringReading_ne_overrun g.options (Nat.le_add_left 3 n) cur

theorem stringRule_eq_reads_iff {n : Nat} {cur rest : Text} {v : Value} :
    ruleReading g.options (n + 4) .string cur = .reads v rest ↔
      ∃ pieces, IsStringToken pieces cur rest ∧
        v = .str (g.options.decode (stringValue pieces)) := by
  have hreading : ruleReading g.options (n + 4) .string cur =
    (stringReading g.options (n + 3) cur).map Value.str := rfl
  rw [hreading, Reading.map_eq_reads_iff]
  constructor
  · rintro ⟨t, ht, rfl⟩
    obtain ⟨pieces, hp, rfl⟩ := stringReading_eq_reads_iff.1 ht
    exact ⟨pieces, hp, rfl⟩
  · rintro ⟨pieces, hp, rfl⟩
    exact ⟨_, hp.stringReading n, rfl⟩

/-- The string rule, of a grammar in use and with four entries or more, decodes the string
literals and nothing else. On every text it has no outcome or one. The one is the value of the
pieces between two quotes that the text starts with, which are unique, and there is none if and
only if the text does not start so. So each literal of a string is read back as that string;
every string has one, but if pairs are combined there is none for a string that has a pair. -/
theorem string_isExact (h : g.InUse s) (n : Nat) :
    (∀ cur, ∃ os u, ((g.parser .string).parse (.ofDepth (n + 4)) cur).run s = .ok os u ∧
      g.InUse u ∧
      (∀ v rest, os = [⟨v, rest⟩] ↔ ∃ pieces, IsStringToken pieces cur rest ∧
        v = .str (g.options.decode (stringValue pieces))) ∧
      (os = [] ↔ ∀ pieces rest, ¬ IsStringToken pieces cur rest) ∧
      ∀ pieces pieces' rest rest', IsStringToken pieces cur rest →
        IsStringToken pieces' cur rest' → pieces' = pieces ∧ rest' = rest) ∧
    ∀ t : Text,
      ((∃ pieces, (∀ p ∈ pieces, p.WellFormed) ∧ g.options.decode (stringValue pieces) = t) ↔
        (g.options.combine = true → t.Unpaired)) ∧
      ∀ pieces, (∀ p ∈ pieces, p.WellFormed) → g.options.decode (stringValue pieces) = t →
        ∀ rest, ∃ u, ((g.parser .string).parse (.ofDepth (n + 4)) (stringText pieces ++ rest)).run s
          = .ok [⟨.str t, rest⟩] u := by
  have hanswer (cur : Text) := h.exists_outcomes (string_ne_overrun n cur)
    fun v rest => stringRule_eq_reads_iff
  refine ⟨fun cur => ?_, fun t => ⟨exists_pieces_iff g.options t, fun pieces hwf ht rest => ?_⟩⟩
  · obtain ⟨os, u, hrun, huse, hreads, hnone⟩ := hanswer cur
    refine ⟨os, u, hrun, huse, hreads, hnone.trans ?_, fun _ _ _ _ hp hq => hp.unique hq⟩
    exact ⟨fun h pieces rest hp => h _ rest ⟨pieces, hp, rfl⟩,
      fun h v rest ⟨pieces, hp, _⟩ => h pieces rest hp⟩
  · obtain ⟨os, u, hrun, -, hreads, -⟩ := hanswer (stringText pieces ++ rest)
    exact ⟨u, (hreads _ _).2 ⟨pieces, ⟨hwf, rfl⟩, congrArg Value.str ht.symm⟩ ▸ hrun⟩

/-- A pair of escapes with what follows it, by grammars that combine pairs and that do not, and
a literal of which the last quote is escaped. -/
theorem string_isExact_escapes :
    let g (combine : Bool) : Grammar := ⟨⟨false, combine⟩, 0⟩
    let s (combine : Bool) := (create ⟨false, combine⟩).leaves {}
    let read (combine : Bool) (t : Text) :=
      (((g combine).parser .string).parse (.ofDepth depthLimit) t).run (s combine)
    (∀ combine, (g combine).InUse (s combine)) ∧
      (∃ u, read false (text "\"\\ud83D\\uDe00\"x") =
        .ok [⟨.str [.ofNat 0xD83D, .ofNat 0xDE00], text "x"⟩] u) ∧
      (∃ u, read true (text "\"\\ud83D\\uDe00\"x") =
        .ok [⟨.str [.ofNat 0x1F600], text "x"⟩] u) ∧
      ∃ u, read false (text "\"a\\\"") = .ok [] u := by
  intro g s read
  have huse (combine : Bool) : (g combine).InUse (s combine) := .created (s := {}) rfl
  let pieces : List StringPiece :=
    [.unit (.ofChar 'd') (.ofChar '8') (.ofChar '3') (.ofChar 'D'),
      .unit (.ofChar 'D') (.ofChar 'e') (.ofChar '0') (.ofChar '0')]
  have hwf : ∀ p ∈ pieces, p.WellFormed := by decide
  have hpair (combine : Bool) :=
    ((string_isExact (huse combine) 496).2 _).2 pieces hwf rfl (text "x")
  obtain ⟨os, u, hrun, -, -, hnone, -⟩ := (string_isExact (huse false) 496).1 (text "\"a\\\"")
  refine ⟨huse, hpair false, hpair true, u, hnone.2 (fun qs rest hqs => ?_) ▸ hrun⟩
  -- with one more quote the text is a literal, and there is no other way to end one in it
  have hclosed : ∀ p ∈ [StringPiece.raw (.ofChar 'a'), .letter (.ofChar '"')], p.WellFormed := by
    decide
  have htext : stringText qs ++ (rest ++ text "\"") =
      stringText [.raw (.ofChar 'a'), .letter (.ofChar '"')] ++ [] := by
    rw [← List.append_assoc, ← hqs.text]
    rfl
  exact List.append_ne_nil_of_right_ne_nil rest (List.cons_ne_nil _ _)
    (stringText_unique hqs.wellFormed hclosed htext).2

end Json.Grammar

end Descent
