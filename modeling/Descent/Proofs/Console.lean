import Descent.Console
import Descent.Proofs.Json.Language
import Descent.Proofs.Json.Nesting
import Descent.Proofs.Json.Use

/-!
# The console

A line that the console is given is parsed from end to end, and if it has no value
it is parsed a second time for the outcomes at its start. The first run turns a
nesting that is too deep into a fault that the console answers, the second one does
not. So the console goes on after every line but those that are too deep, and it
answers each line as a new grammar would.
-/

namespace Descent

namespace Text

theorem splitLines_concat (t : Text) (c : CodePoint) :
    lines.splitLines (t ++ [c]) =
      if c.val = 10 then ([], (lines.splitLines t).1.reverse :: (lines.splitLines t).2)
      else (c :: (lines.splitLines t).1, (lines.splitLines t).2) := by
  rw [lines.splitLines, List.foldl_append]
  rfl

/-- The unfinished line grows by what is no line feed. -/
theorem splitLines_append (t : Text) {u : Text} (hu : ∀ c ∈ u, c.val ≠ 10) :
    lines.splitLines (t ++ u) =
      (u.reverse ++ (lines.splitLines t).1, (lines.splitLines t).2) := by
  induction u generalizing t with
  | nil => simp
  | cons c u ih =>
      have hsplit : t ++ c :: u = (t ++ [c]) ++ u := by simp
      rw [hsplit, ih _ fun d hd => hu d (List.mem_cons_of_mem c hd), splitLines_concat,
        if_neg (hu c List.mem_cons_self)]
      simp

theorem splitLines_line {t u : Text} {ls : List Text} (ht : lines.splitLines t = ([], ls))
    (hu : ∀ c ∈ u, c.val ≠ 10) : lines.splitLines (t ++ Console.line u) = ([], u :: ls) := by
  have hfeed : t ++ Console.line u = (t ++ u) ++ [CodePoint.ofChar '\n'] := by
    rw [Console.line, List.append_assoc]
    rfl
  have hbreak : (CodePoint.ofChar '\n').val = 10 := rfl
  rw [hfeed, splitLines_concat, if_pos hbreak, splitLines_append t hu, ht]
  simp

theorem splitLines_flatMap_line {t : Text} {ls us : List Text}
    (ht : lines.splitLines t = ([], ls)) (hus : ∀ u ∈ us, ∀ c ∈ u, c.val ≠ 10) :
    lines.splitLines (t ++ us.flatMap Console.line) = ([], us.reverse ++ ls) := by
  induction us generalizing t ls with
  | nil => simpa using ht
  | cons u us ih =>
      have hu := splitLines_line ht (hus u List.mem_cons_self)
      rw [List.flatMap_cons, ← List.append_assoc,
        ih hu fun w hw => hus w (List.mem_cons_of_mem u hw)]
      simp

/-- Lines that are written one after the other are read again. -/
theorem lines_flatMap_line {us : List Text} (hus : ∀ u ∈ us, ∀ c ∈ u, c.val ≠ 10) :
    lines (us.flatMap Console.line) = us := by
  have hnil : lines.splitLines [] = ([], []) := rfl
  have hsplit := splitLines_flatMap_line hnil hus
  rw [List.nil_append, List.append_nil] at hsplit
  rw [lines, hsplit]
  exact us.reverse_reverse

end Text

namespace Console

open Eval Json Reading

/-- The default grammar runs out of depth on the line. -/
def IsTooDeep (t : Text) : Prop := Json.parse {} t = .error (.nestedTooDeep Rule.value.description)

def exceptionLine (name : String) (f : Fault) : Text :=
  line (text "Exception: " ++ text name ++ text ": " ++ f.message)

def partialLine (os : List Outcome) : Text := line (text "Partial: " ++ writtenOutcomes os)

/-- What is printed for the value of a line, or else why there is none and the outcomes at the
start of the line. -/
def answerOf : Except Fault Value → Text
  | .ok v => line v.shown
  | .error (.leftover v rest) =>
    exceptionLine "NotAllCharsUsed" (.leftover v rest) ++ partialLine [⟨v, rest⟩]
  | .error f => exceptionLine "ParseFailed" f ++ partialLine []

/-- The answer to a line. -/
def answerTo (t : Text) : Text := answerOf (Json.parse {} t)

/-! ## One line -/

variable {g : Grammar} {s : Store}

theorem isTooDeep_iff {t : Text} : IsTooDeep t ↔ valueReading {} depthLimit t = .overrun := by
  rw [IsTooDeep, parse_eq_tried]
  cases valueReading {} depthLimit t with
  | overrun => exact ⟨fun _ => rfl, fun _ => rfl⟩
  | fails => exact ⟨fun h => (nomatch h), fun h => (nomatch h)⟩
  | reads v rest =>
      refine ⟨fun h => ?_, fun h => (nomatch h)⟩
      cases rest with
      | nil => cases h
      | cons c rest => cases h

/-- A grammar in use parses a line as the value rule reads it, and then the start of the line
in the same way. -/
theorem exists_parseText (hg : g.options = {}) (h : g.InUse s) (t : Text) :
    ∃ u, g.InUse u ∧
      (g.parseText (.ofDepth depthLimit) t).run s =
        ended (tried Rule.value.description true (valueReading {} depthLimit t)) u ∧
      ∃ w, g.InUse w ∧ (g.parseStart (.ofDepth depthLimit) t).run u =
        ended (valueReading {} depthLimit t).outcomes w := by
  obtain ⟨u, hu, hwhole⟩ := h.exists_run_tryParse depthLimit .value t
  obtain ⟨w, hw, hstart⟩ := hu.exists_run_parse depthLimit .value t
  rw [hg, ruleReading_value] at hwhole hstart
  exact ⟨u, hu, hwhole, w, hw, hstart⟩

section

variable {e : Entry} {t : Text} {f : Fault} {u w : Store}

theorem reply_of_value {v : Value} (hwhole : (g.parseText e t).run s = .ok v u) :
    reply e g t s = (⟨line v.shown, none⟩, u) := by
  rw [reply, hwhole]

theorem reply_of_outcomes {name : String} {os : List Outcome}
    (hwhole : (g.parseText e t).run s = .error f u) (hname : faultName? f = some name)
    (hstart : (g.parseStart e t).run u = .ok os w) :
    reply e g t s = (⟨exceptionLine name f ++ partialLine os, none⟩, w) := by
  rw [reply, hwhole]
  simp only [hname, hstart]
  rfl

end

/-- A line that is not too deep is answered, and the grammar stays in use. -/
theorem exists_reply (hg : g.options = {}) (h : g.InUse s) {t : Text} (ht : ¬ IsTooDeep t) :
    ∃ u, g.InUse u ∧ reply (.ofDepth depthLimit) g t s = (⟨answerTo t, none⟩, u) := by
  obtain ⟨u, hu, hwhole, w, hw, hstart⟩ := exists_parseText hg h t
  rw [isTooDeep_iff] at ht
  rw [answerTo, parse_eq_tried]
  cases hr : valueReading {} depthLimit t with
  | overrun => exact absurd hr ht
  | fails =>
      rw [hr] at hwhole hstart
      exact ⟨w, hw, reply_of_outcomes hwhole rfl hstart⟩
  | reads v rest =>
      rw [hr] at hwhole hstart
      cases rest with
      | nil => exact ⟨u, hu, reply_of_value hwhole⟩
      | cons c rest => exact ⟨w, hw, reply_of_outcomes hwhole rfl hstart⟩

theorem converse_cons (e : Entry) {t : Text} (ht : t ≠ []) (ts : List Text) :
    converse e g (t :: ts) s =
      match reply e g t s with
      | (⟨printed, some f⟩, _) => ⟨printed, some f⟩
      | (⟨printed, none⟩, u) =>
        ⟨printed ++ (converse e g ts u).printed, (converse e g ts u).fault⟩ := by
  cases t with
  | nil => exact absurd rfl ht
  | cons c t => rfl

/-- Lines that are not too deep are answered in order, and then the others are met. -/
theorem exists_converse_append (hg : g.options = {}) (h : g.InUse s) {before : List Text}
    (hne : ∀ t ∈ before, t ≠ []) (hdeep : ∀ t ∈ before, ¬ IsTooDeep t) (others : List Text) :
    ∃ u, g.InUse u ∧ converse (.ofDepth depthLimit) g (before ++ others) s =
      ⟨before.flatMap answerTo ++ (converse (.ofDepth depthLimit) g others u).printed,
        (converse (.ofDepth depthLimit) g others u).fault⟩ := by
  induction before generalizing s with
  | nil => exact ⟨s, h, rfl⟩
  | cons t before ih =>
      obtain ⟨u, hu, hreply⟩ := exists_reply hg h (hdeep t List.mem_cons_self)
      obtain ⟨w, hw, hrest⟩ := ih hu (fun a ha => hne a (List.mem_cons_of_mem t ha))
        fun a ha => hdeep a (List.mem_cons_of_mem t ha)
      refine ⟨w, hw, ?_⟩
      rw [List.cons_append, converse_cons _ (hne t List.mem_cons_self), hreply]
      simp only [hrest, List.flatMap_cons, List.append_assoc]

/-- Without arguments the console converses, with a new default grammar. -/
theorem exists_run_eq_converse (input : Text) :
    ∃ g s, Grammar.options g = {} ∧ g.InUse s ∧
      run [] input = converse (.ofDepth depthLimit) g input.lines s := by
  obtain ⟨u, hcreate, -, -⟩ := Grammar.exists_create {} {}
  refine ⟨_, u, rfl, .created hcreate, ?_⟩
  rw [run, hcreate]
  rfl

end Console

end Descent
