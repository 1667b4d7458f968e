import Descent.Proofs.Json.Openings
import Descent.Proofs.Json.Use

/-!
# Nesting

An opening starts a container and goes as far as its first value: a bracket, or a
brace with a key and a colon. Each one uses up four entries of the depth before the
next value is read, so a text that starts with more openings than the depth has room
for is never read, whatever follows them. A text that never has many containers open
at once is read or refused for what it is, however long it is and however much stands
side by side in it.
-/

namespace Descent

namespace Json

open Reading Recipe

/-- The start of a container, up to the value that it holds first. -/
inductive Opening where
  | bracket (blank : Text)
  | brace (blank beforeKey : Text) (key : List StringPiece) (afterKey : Text)

namespace Opening

def text : Opening → Text
  | .bracket blank => blank ++ [CodePoint.ofChar '[']
  | .brace blank beforeKey key afterKey =>
    blank ++ CodePoint.ofChar '\x7b' :: (beforeKey ++ (stringText key ++
      (afterKey ++ [CodePoint.ofChar ':'])))

def WellFormed : Opening → Prop
  | .bracket blank => IsBlank blank
  | .brace blank beforeKey key afterKey =>
    IsBlank blank ∧ IsBlank beforeKey ∧ (∀ p ∈ key, p.WellFormed) ∧ IsBlank afterKey

end Opening

/-- Openings in a row open each one inside those before it. -/
theorem opensWithin_openings (o : Options) {x : Opening} {xs : List Opening}
    (hxs : ∀ y ∈ x :: xs, y.WellFormed) (t : Text) :
    OpensWithin o xs.length ((x :: xs).flatMap Opening.text ++ t) := by
  induction xs generalizing x with
  | nil =>
      have hx := hxs x List.mem_cons_self
      cases x with
      | bracket blank =>
          simpa [Opening.text] using OpensWithin.here (o := o) hx
            (show isOpening (CodePoint.ofChar '[') = true by decide) t
      | brace blank beforeKey key afterKey =>
          simpa [Opening.text] using OpensWithin.here (o := o) hx.1
            (show isOpening (CodePoint.ofChar '\x7b') = true by decide)
            (beforeKey ++ (stringText key ++ (afterKey ++ CodePoint.ofChar ':' :: t)))
  | cons y ys ih =>
      have hrest := ih fun z hz => hxs z (List.mem_cons_of_mem x hz)
      have hx := hxs x List.mem_cons_self
      rw [List.flatMap_cons, List.append_assoc]
      cases x with
      | bracket blank =>
          simpa [Opening.text] using OpensWithin.array hx (.nil (itemRow o) o.strict _) hrest
      | brace blank beforeKey key afterKey =>
          obtain ⟨hblank, hbefore, hkey, hafter⟩ := hx
          simpa [Opening.text] using OpensWithin.object hblank (.nil (memberRow o) o.strict _)
            hbefore hkey hafter hrest

/-- More openings than there is depth for. -/
theorem valueReading_openings (o : Options) {xs : List Opening} (hxs : ∀ x ∈ xs, x.WellFormed)
    (t : Text) {n : Nat} (h : n ≤ 4 * xs.length) :
    valueReading o n (xs.flatMap Opening.text ++ t) = .overrun := by
  cases xs with
  | nil =>
      have hn : n = 0 := Nat.le_zero.1 h
      rw [hn, valueReading_of_lt o (by decide)]
  | cons x xs => exact (opensWithin_openings o hxs t).overrun (by simpa [Nat.mul_add] using h)

/-- A document that is nested less deep opens nothing inside so many containers, whatever
follows it. -/
theorem not_opensWithin_document {o : Options} {blank next : Text} {d : Document} {k : Nat}
    (hblank : IsBlank blank) (h : d.Fits o next) (hk : d.depth < k) :
    ¬ OpensWithin o k (blank ++ (d.text ++ next)) := by
  intro hopen
  have hneed := d.need_le
  have hread := valueReading_document (n := 4 * k + 4) hblank h
  rw [hopen.overrun (Nat.le_refl _), if_pos (by omega)] at hread
  cases hread

/-! ## The recursion limit -/

/-- What the value rule ends in when the depth is used up, by the way it is run. -/
def depthFault : Mode → Fault
  | .stored => .depthExceeded
  | .method => .depthExceeded
  | .whole => .nestedTooDeep Rule.value.description
  | .part => .nestedTooDeep Rule.value.description

section

variable {o : Options} {n : Nat} {t : Text}

/-- Run by its method the value rule has one entry more, as it is not entered itself. -/
theorem answer_method_value :
    answer o (n + 1) .value t .method = (valueReading o (n + 2) t).outcomes.map .outcomes := rfl

theorem answer_value_of_overrun (h : valueReading o (n + 2) t = .overrun)
    (h' : valueReading o (n + 1) t = .overrun) (mode : Mode) :
    answer o (n + 1) .value t mode = .error (depthFault mode) := by
  cases mode with
  | method =>
      rw [answer_method_value, h]
      rfl
  | _ =>
      rw [answer, ruleReading_value, h']
      rfl

theorem outcomes_of_ne_overrun {r : Reading Value} (h : r ≠ .overrun) :
    ∃ os, r.outcomes = .ok os := by
  cases r with
  | overrun => exact absurd rfl h
  | fails => exact ⟨_, rfl⟩
  | reads v rest => exact ⟨_, rfl⟩

/-- A rule that has depth enough answers with a value, or refuses for another reason. -/
theorem tried_ne_of_ne_overrun {r : Reading Value} (h : r ≠ .overrun) (description : Text)
    (whole : Bool) : (∃ v, tried description whole r = .ok v) ∨
      tried description whole r = .error (.noParse description) ∨
        ∃ v rest, tried description whole r = .error (.leftover v rest) := by
  cases r with
  | overrun => exact absurd rfl h
  | fails => exact .inr (.inl rfl)
  | reads v rest =>
      rw [tried]
      split
      · exact .inr (.inr ⟨v, rest, rfl⟩)
      · exact .inl ⟨v, rfl⟩

theorem answer_value_ne (h : valueReading o (n + 2) t ≠ .overrun)
    (h' : valueReading o (n + 1) t ≠ .overrun) (mode : Mode) :
    answer o (n + 1) .value t mode ≠ .error .depthExceeded ∧
      ∀ d, answer o (n + 1) .value t mode ≠ .error (.nestedTooDeep d) := by
  have houtcomes {r : Reading Value} (hr : r ≠ .overrun) :
      r.outcomes.map Answer.outcomes ≠ .error .depthExceeded ∧
        ∀ d, r.outcomes.map Answer.outcomes ≠ .error (.nestedTooDeep d) := by
    obtain ⟨os, hos⟩ := outcomes_of_ne_overrun hr
    rw [hos]
    exact ⟨nofun, fun _ => nofun⟩
  have htried (whole : Bool) :
      (tried Rule.value.description whole (valueReading o (n + 1) t)).map Answer.value ≠
          .error .depthExceeded ∧
        ∀ d, (tried Rule.value.description whole (valueReading o (n + 1) t)).map Answer.value ≠
          .error (.nestedTooDeep d) := by
    obtain ⟨v, hv⟩ | hv | ⟨v, rest, hv⟩ :=
      tried_ne_of_ne_overrun h' Rule.value.description whole <;> rw [hv] <;>
      exact ⟨nofun, fun _ => nofun⟩
  cases mode with
  | stored =>
      rw [answer, ruleReading_value]
      exact houtcomes h'
  | method =>
      rw [answer_method_value]
      exact houtcomes h
  | whole =>
      rw [answer, ruleReading_value]
      exact htried true
  | part =>
      rw [answer, ruleReading_value]
      exact htried false

end

namespace Grammar

variable {g : Grammar} {s : Store}

theorem InUse.exists_answer (h : g.InUse s) (depth : Nat) (r : Rule) (cur : Text) (mode : Mode) :
    ∃ u, ((g.parser r).runMode (.ofDepth depth) cur mode).run s =
      Eval.ended (answer g.options depth r cur mode) u := by
  obtain ⟨u, -, -, hrun⟩ := computes_answer depth r cur mode s s (.refl s) h.stands
  exact ⟨u, hrun⟩

/-- Depth decides about the recursion limit, and not length or breadth. A text that never has
more than a hundred arrays and objects open at once does not come to the limit, whatever it is,
by whichever way the value rule of a grammar in use is run; a text that starts with a thousand
openings does, whatever follows these. Between the two there are few cases: what opens one
container inside a hundred and twenty-five others comes to the limit. -/
theorem depth_decides (h : g.InUse s) (t : Text) (mode : Mode) :
    (¬ OpensWithin g.options 100 t → ∃ r u,
      ((g.parser .value).runMode (.ofDepth depthLimit) t mode).run s = Eval.ended r u ∧
        r ≠ .error .depthExceeded ∧ ∀ d, r ≠ .error (.nestedTooDeep d)) ∧
    (∀ (xs : List Opening) rest, (∀ x ∈ xs, x.WellFormed) → 1000 ≤ xs.length →
      t = xs.flatMap Opening.text ++ rest → ∃ u,
        ((g.parser .value).runMode (.ofDepth depthLimit) t mode).run s =
          .error (depthFault mode) u) ∧
    (OpensWithin g.options 125 t → ∃ u,
      ((g.parser .value).runMode (.ofDepth depthLimit) t mode).run s =
        .error (depthFault mode) u) := by
  obtain ⟨u, hrun⟩ := h.exists_answer depthLimit .value t mode
  have hdeep (h501 : valueReading g.options 501 t = .overrun)
      (h500 : valueReading g.options 500 t = .overrun) :
      ∃ u, ((g.parser .value).runMode (.ofDepth depthLimit) t mode).run s =
        .error (depthFault mode) u := by
    have hanswer := answer_value_of_overrun h501 h500 mode
    rw [show 499 + 1 = depthLimit from rfl] at hanswer
    rw [hanswer] at hrun
    exact ⟨u, hrun⟩
  refine ⟨fun hopen => ?_, ?_, fun hopen => ?_⟩
  · have hread {n : Nat} (hn : 406 ≤ n) : valueReading g.options n t ≠ .overrun := fun hover =>
      hopen (opensWithin_of_overrun hover hn)
    exact ⟨_, u, hrun, answer_value_ne (n := 499) (hread (by decide)) (hread (by decide)) mode⟩
  · rintro xs rest hxs hlength rfl
    exact hdeep (valueReading_openings g.options hxs rest (by omega))
      (valueReading_openings g.options hxs rest (by omega))
  · exact hdeep (hopen.overrun (by decide)) (hopen.overrun (by decide))

/-- A thousand empty arrays side by side in one, and a thousand objects in each other, the last
of which breaks off behind its colon, asked of a new grammar. -/
theorem depth_decides_thousand :
    let g : Grammar := ⟨{}, 0⟩
    let s := (create {}).leaves {}
    let flat := Document.array (List.replicate 1000 (.mk [] (.emptyArray []) [] true))
    let openings := List.replicate 1000 (Opening.brace [] [] [] [])
    let run (t : Text) (mode : Mode) := ((g.parser .value).runMode (.ofDepth depthLimit) t mode).run s
    g.InUse s ∧ ¬ OpensWithin g.options 100 flat.text ∧
      (∃ r u, run flat.text .stored = Eval.ended r u ∧ r ≠ .error .depthExceeded) ∧
      (∃ u, run (openings.flatMap Opening.text) .stored = .error .depthExceeded u) ∧
      ∃ u, run (openings.flatMap Opening.text) .whole =
        .error (.nestedTooDeep Rule.value.description) u := by
  intro g s flat openings run
  have huse : g.InUse s := .created (s := {}) rfl
  have hnil : IsBlank [] := List.forall_mem_nil _
  have hitems (n : Nat) (next : Text) :
      Document.ItemsWellFormed (List.replicate n (.mk [] (.emptyArray []) [] true)) ∧
      Document.ItemNumbersEnd (List.replicate n (.mk [] (.emptyArray []) [] true)) next ∧
      Document.itemsDepth (List.replicate n (.mk [] (.emptyArray []) [] true)) ≤ 1 := by
    induction n with
    | zero => exact ⟨trivial, trivial, Nat.zero_le 1⟩
    | succ n ih =>
        obtain ⟨hwf, hnumbers, hdepth⟩ := ih
        exact ⟨⟨hnil, hnil, hnil, hwf⟩, ⟨trivial, hnumbers⟩, Nat.max_le.2 ⟨Nat.le_refl 1, hdepth⟩⟩
  have hflat : ¬ OpensWithin g.options 100 flat.text := by
    obtain ⟨hwf, hnumbers, hdepth⟩ := hitems 1000 (text "]")
    have hfits : flat.Fits g.options [] := ⟨⟨List.cons_ne_nil _ _, hwf⟩, nofun, hnumbers⟩
    have hshallow : flat.depth < 100 := by
      rw [Document.depth]
      omega
    have hopen := not_opensWithin_document hnil hfits hshallow
    rwa [List.nil_append, List.append_nil] at hopen
  have hopenings : ∀ x ∈ openings, x.WellFormed := fun x hx =>
    List.eq_of_mem_replicate hx ▸ ⟨hnil, hnil, List.forall_mem_nil _, hnil⟩
  have hdeep (mode : Mode) := ((depth_decides huse (openings.flatMap Opening.text) mode).2).1
    openings [] hopenings List.length_replicate.ge (List.append_nil _).symm
  obtain ⟨r, u, hrun, hne, -⟩ := (depth_decides huse flat.text .stored).1 hflat
  exact ⟨huse, hflat, ⟨r, u, hrun, hne⟩, hdeep .stored, hdeep .whole⟩

end Grammar

end Json

end Descent
