import Descent.Json.Grammar
import Descent.Proofs.Json.Reading

/-!
# Runs of the tokens

The recipes of whitespace, numbers and strings come to the readings of these
tokens. Each recipe is read part by part, and the reading that its parts are put
together to is then the one that takes the token at once.
-/

namespace Descent

namespace Json

open Reading Recipe Regex

variable {Inv : Store → Prop} {depth : Nat}

/-! ## Sets of code points -/

theorem blankSet_contains (c : CodePoint) : blankSet.contains c = isBlank c := by
  rw [Bool.eq_iff_iff]
  simp [CharSet.contains, blankSet, CharSet.inRanges, isBlank, CodePoint.val_ofNat]
  omega

theorem rawSet_contains (c : CodePoint) : rawSet.contains c = isRaw c := by
  rw [Bool.eq_iff_iff]
  simp [CharSet.contains, rawSet, CharSet.inRanges, isRaw, CodePoint.val_ofNat]
  omega

theorem hexSet_contains (c : CodePoint) : hexSet.contains c = isHex c := by
  rw [Bool.eq_iff_iff]
  simp [CharSet.contains, hexSet, CharSet.inRanges, isHex, CodePoint.hexValue?,
    CodePoint.isDigit, CodePoint.between, CodePoint.val_ofNat]
  split
  · simp_all
  · split
    · simp_all
    · split <;> simp_all

theorem reads_whitespace : whitespaceRecipe.Reads Inv depth fun cur =>
    (Reading.reads (cur.takeWhile isBlank) (skipBlanks cur)).map .str := by
  refine (reads_span read_blanks).congr fun cur => ?_
  have hset : blankSet.contains = isBlank := funext blankSet_contains
  rw [spanReading_none (Nat.zero_le _), hset]
  rfl

/-! ## Single code points -/

/-- One code point that passes the test. -/
def satisfyReading (test : CodePoint → Bool) : Text → Reading Text
  | [] => .fails
  | c :: t => if test c then .reads [c] t else .fails

theorem reads_satisfy (test : CodePoint → Bool) :
    (given (.satisfy test)).Reads Inv depth fun cur => (satisfyReading test cur).map .str := by
  rintro s p ⟨⟩ cur
  cases cur with
  | nil => exact Eval.Computes.pure []
  | cons c t =>
      simp only [Parser.parse_satisfy_cons, satisfyReading]
      cases test c with
      | false => exact Eval.Computes.pure []
      | true => exact Eval.Computes.pure _

/-- All digits that come next. -/
def digitsReading (cur : Text) : Reading Text :=
  .reads (cur.takeWhile CodePoint.isDigit) (cur.dropWhile CodePoint.isDigit)

theorem reads_digits : (given Parser.digits).Reads Inv depth fun cur =>
    (digitsReading cur).map .str := by
  rintro s p ⟨⟩ cur
  rw [Parser.parse_digits]
  exact Eval.Computes.pure _

/-! ## Numbers -/

theorem isDescribed_satisfy (test : CodePoint → Bool) :
    (given (.satisfy test)).IsDescribed Inv := by
  rintro s p ⟨⟩ e
  exact ⟨_, Eval.Computes.pure _⟩

theorem minus_orElse (cur : Text) :
    (literalReading (text "-") cur).orElse (.reads [] cur) =
      .reads (NumberLiteral.takeSign (· = CodePoint.ofChar '-') cur).1.toList
        (NumberLiteral.takeSign (· = CodePoint.ofChar '-') cur).2 := by
  rw [show text "-" = [CodePoint.ofChar '-'] from rfl, literalReading_singleton]
  cases cur with
  | nil => rfl
  | cons c t => by_cases h : c = CodePoint.ofChar '-' <;> simp [NumberLiteral.takeSign, h]

theorem exponentSign_choice (cur : Text) :
    choice [literalReading (text "+"), literalReading (text "-"), .reads []] cur =
      .reads (NumberLiteral.takeSign NumberLiteral.isExponentSign cur).1.toList
        (NumberLiteral.takeSign NumberLiteral.isExponentSign cur).2 := by
  simp only [choice_cons, choice_nil]
  rw [show text "+" = [CodePoint.ofChar '+'] from rfl, literalReading_singleton,
    show text "-" = [CodePoint.ofChar '-'] from rfl, literalReading_singleton]
  cases cur with
  | nil => rfl
  | cons c t =>
      by_cases hp : c = CodePoint.ofChar '+'
      · simp [NumberLiteral.takeSign, NumberLiteral.isExponentSign, hp]
      · have hne : CodePoint.ofChar '-' ≠ CodePoint.ofChar '+' := by decide
        by_cases hm : c = CodePoint.ofChar '-' <;>
          simp [NumberLiteral.takeSign, NumberLiteral.isExponentSign, hp, hm, hne]

theorem whole_choice (cur : Text) :
    choice [satisfyReading fun c => decide ([c] = text "0"),
      fun cur => (sequence [satisfyReading (·.between '1' '9'), digitsReading] cur).map
        List.flatten] cur =
      match Number.takeWhole cur with
      | none => .fails
      | some (whole, t) => .reads whole t := by
  cases cur with
  | nil => rfl
  | cons c t =>
      by_cases h0 : c = CodePoint.ofChar '0'
      · simp [satisfyReading, Number.takeWhole, h0, show text "0" = [CodePoint.ofChar '0'] from rfl]
      · by_cases h1 : c.between '1' '9' = true <;>
          simp [satisfyReading, digitsReading, Number.takeWhole, h0, h1,
            show text "0" = [CodePoint.ofChar '0'] from rfl]

theorem fraction_orElse (cur : Text) :
    ((sequence [literalReading (text "."), digitsReading] cur).map List.flatten).orElse
      (.reads [] cur) = .reads (Number.takeFraction cur).1 (Number.takeFraction cur).2 := by
  simp only [sequence_cons, sequence_nil]
  rw [show text "." = [CodePoint.ofChar '.'] from rfl, literalReading_singleton]
  cases cur with
  | nil => rfl
  | cons c t =>
      by_cases h : c = CodePoint.ofChar '.' <;> simp [digitsReading, Number.takeFraction, h]

theorem mark_choice (cur : Text) :
    choice [literalReading (text "e"), literalReading (text "E")] cur =
      satisfyReading NumberLiteral.isExponentMark cur := by
  simp only [choice_cons, choice_nil]
  rw [show text "e" = [CodePoint.ofChar 'e'] from rfl, literalReading_singleton,
    show text "E" = [CodePoint.ofChar 'E'] from rfl, literalReading_singleton]
  cases cur with
  | nil => rfl
  | cons c t =>
      have hne : CodePoint.ofChar 'E' ≠ CodePoint.ofChar 'e' := by decide
      by_cases he : c = CodePoint.ofChar 'e'
      · simp [satisfyReading, NumberLiteral.isExponentMark, he]
      · by_cases hE : c = CodePoint.ofChar 'E' <;>
          simp [satisfyReading, NumberLiteral.isExponentMark, he, hE, hne]

theorem exponent_orElse (cur : Text) :
    ((sequence [choice [literalReading (text "e"), literalReading (text "E")],
      choice [literalReading (text "+"), literalReading (text "-"), .reads []],
      digitsReading] cur).map List.flatten).orElse (.reads [] cur) =
      .reads (Number.takeExponent cur).1 (Number.takeExponent cur).2 := by
  simp only [sequence_cons, sequence_nil, exponentSign_choice, mark_choice]
  cases cur with
  | nil => rfl
  | cons c t =>
      cases hc : NumberLiteral.isExponentMark c <;>
        simp [satisfyReading, digitsReading, Number.takeExponent, hc]

theorem reads_toNumber (t : Text) :
    (given (Parser.toNumber (.str t))).Reads Inv depth (literalNumber t) := by
  cases h : NumberLiteral.read? t with
  | none =>
      have hparser : Parser.toNumber (.str t) = .fail := by
        rw [Parser.toNumber, h]
      have hreading : literalNumber t = fun _ => .fails := by
        funext rest
        rw [literalNumber, h]
      rw [hparser, hreading]
      exact reads_plain fun _ => rfl
  | some l =>
      have hparser : Parser.toNumber (.str t) = .lift (.float l.toBinary64) := by
        rw [Parser.toNumber, h]
      have hreading : literalNumber t = .reads (.float l.toBinary64) := by
        funext rest
        rw [literalNumber, h]
      rw [hparser, hreading]
      exact reads_lift _

/-- Texts one after the other, as one text. -/
theorem reads_concat {rs : List Recipe} {gs : List (Text → Reading Text)}
    (h : List.Forall₂ (fun r g => r.Reads Inv depth fun cur => (g cur).map .str) rs gs) :
    (joinAll rs []).Reads Inv depth fun cur =>
      ((sequence gs cur).map List.flatten).map .str := by
  refine (reads_joinAll h).congr fun cur => ?_
  rw [map_map]
  rfl

theorem reads_minus (hInv : Store.Quiet Inv) : (optional (word "-")).Reads Inv depth fun cur =>
    (enter depth fun _ => .reads (NumberLiteral.takeSign (· = CodePoint.ofChar '-') cur).1.toList
      (NumberLiteral.takeSign (· = CodePoint.ofChar '-') cur).2).map .str := by
  refine (reads_optional hInv (g := fun _ => literalReading (text "-"))
    (fun _ => reads_literal _) (isDescribed_plain _ _) depth).congr fun cur => ?_
  rw [minus_orElse]

theorem reads_whole (hInv : Store.Quiet Inv) :
    (first [given (.char (text "0")),
      joinAll [given (.satisfy (·.between '1' '9')), given Parser.digits] []]).Reads Inv depth
      fun cur => (enter depth fun _ => match Number.takeWhole cur with
        | none => .fails
        | some (whole, t) => .reads whole t).map .str := by
  have hchoice := reads_choice hInv (ι := .str) (fun _ => [_, _]) (fun n =>
    .cons ⟨reads_satisfy fun c => decide ([c] = text "0"), isDescribed_satisfy _⟩
      (.cons ⟨reads_concat (.cons (reads_satisfy (·.between '1' '9')) (.cons reads_digits .nil)),
        isDescribed_pipeTo _ _⟩ .nil)) depth
  refine hchoice.congr fun cur => ?_
  rw [whole_choice]

theorem reads_fraction (hInv : Store.Quiet Inv) :
    (optional (joinAll [word ".", given Parser.digits] [])).Reads Inv depth fun cur =>
      (enter depth fun _ =>
        .reads (Number.takeFraction cur).1 (Number.takeFraction cur).2).map .str := by
  have hoptional := reads_optional hInv (g := fun _ => _)
    (fun n => reads_concat (.cons (reads_literal (text ".")) (.cons reads_digits .nil)))
    (isDescribed_pipeTo _ _) depth
  refine hoptional.congr fun cur => ?_
  rw [fraction_orElse]

/-- The mark and the sign of an exponent are choices, inside the one that makes the
exponent optional. -/
theorem reads_exponent (hInv : Store.Quiet Inv) :
    (optional (joinAll [.first [word "e", word "E"],
      .first [word "+", word "-", .given (.lift (.str []))], given Parser.digits] [])).Reads Inv
      depth fun cur => (enter depth fun depth => enter depth fun _ =>
        .reads (Number.takeExponent cur).1 (Number.takeExponent cur).2).map .str := by
  have hmark (n : Nat) := reads_choice hInv (ι := .str) (fun _ => [_, _])
    (fun _ => .cons ⟨reads_literal (text "e"), isDescribed_plain _ _⟩
      (.cons ⟨reads_literal (text "E"), isDescribed_plain _ _⟩ .nil)) n
  have hsign (n : Nat) := reads_choice hInv (ι := .str) (fun _ => [_, _, .reads []])
    (fun _ => .cons ⟨reads_literal (text "+"), isDescribed_plain _ _⟩
      (.cons ⟨reads_literal (text "-"), isDescribed_plain _ _⟩
        (.cons ⟨reads_lift (.str []), isDescribed_plain _ _⟩ .nil))) n
  have hoptional := reads_optional hInv (g := fun n => _)
    (fun n => reads_concat (.cons (hmark n) (.cons (hsign n) (.cons reads_digits .nil))))
    (isDescribed_pipeTo _ _) depth
  refine hoptional.congr fun cur => ?_
  match depth with
  | 0 => rfl
  | 1 => rfl
  | n + 2 =>
    simp only [enter_succ]
    rw [← exponent_orElse]

theorem reads_number (hInv : Store.Quiet Inv) :
    numberRecipe.Reads Inv depth (numberReading depth) := by
  have hparts := reads_joinAll (n := depth) (.cons (reads_minus hInv) (.cons (reads_whole hInv)
    (.cons (reads_fraction hInv) (.cons (reads_exponent hInv) .nil))))
  have hnumber := reads_chainTo hparts fun _ ts _ _ => reads_toNumber ts.flatten
  refine hnumber.congr fun cur => ?_
  cases depth with
  | zero => rfl
  | succ n =>
      simp only [numberReading, enter_succ, sequence_cons, sequence_nil, bind_reads, map_reads]
      cases Number.takeWhole (NumberLiteral.takeSign (· = CodePoint.ofChar '-') cur).2 with
      | none => rfl
      | some w => cases n <;> simp

end Json

end Descent
