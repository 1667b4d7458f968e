import Descent.Proofs.Console
import Descent.Proofs.Json.Openings
import Mathlib.Data.List.Induction

/-!
# Line by line

The console answers each line as if it were alone. All lines share one grammar, and
its rules are built while they are parsed, but a grammar in use answers as a new one
does. A line that is rejected is parsed twice, and the outcomes at its start are
those that its fault speaks of.
-/

namespace Descent

namespace Text

theorem lines_line {t : Text} (h : ∀ c ∈ t, c.val ≠ 10) : lines (Console.line t) = [t] := by
  have hline : [t].flatMap Console.line = Console.line t := List.append_nil _
  rw [← hline]
  exact lines_flatMap_line (List.forall_mem_singleton.2 h)

end Text

namespace Console

open Json Reading

variable {input t : Text} {ts : List Text} {f : Fault}

/-- What is printed for lines that are not too deep, and what is met behind them. -/
theorem exists_run_eq_append {others : List Text} (hinput : input.lines = ts ++ others)
    (hne : ∀ t ∈ ts, t ≠ []) (hdeep : ∀ t ∈ ts, ¬ IsTooDeep t) :
    ∃ g u, run [] input =
      ⟨ts.flatMap answerTo ++ (converse (.ofDepth depthLimit) g others u).printed,
        (converse (.ofDepth depthLimit) g others u).fault⟩ := by
  obtain ⟨g, s, hg, hs, hrun⟩ := exists_run_eq_converse input
  obtain ⟨u, -, hconverse⟩ := exists_converse_append hg hs hne hdeep others
  exact ⟨g, u, by rw [hrun, hinput, hconverse]⟩

theorem answerTo_of_ok {v : Value} (h : Json.parse {} t = .ok v) : answerTo t = line v.shown := by
  rw [answerTo, h, answerOf]

end Console

end Descent
