import Descent.Proofs.Building

/-!
# Runs keep kinds of parsers

If all parsers in a store are composed of given ones, and all that builders can make, then
this stays so in every run, and what recipes make is composed of given ones too. This is a
judgement about one run. Two instances of it are used: nothing is known of the given parsers,
or something is known of what they leave of their input.
-/

namespace Descent

open Eval

namespace LazyCell.Within

variable {P : Parser → Prop} {cell : LazyCell}

theorem started (h : cell.Within P) : cell.started.Within P where
  before := h.before
  body := h.body
  built := by rintro _ _ ⟨⟩

theorem settled (h : cell.Within P) {r : Except Fault (Parser × Parser)}
    (hr : ∀ made, r = .ok made → P made.1 ∧ P made.2) : (cell.settled r).Within P := by
  cases r with
  | error fault =>
      refine ⟨h.before, h.body, ?_⟩
      rintro _ _ ⟨⟩
  | ok made =>
      refine ⟨h.before, h.body, ?_⟩
      rintro _ _ ⟨⟩
      exact hr made rfl

end LazyCell.Within

theorem Content.Within.modifyCell {P : Parser → Prop} {s : Store} (h : s.content.Within P) (c : Nat)
    {f : LazyCell → LazyCell} (hf : ∀ cell : LazyCell, cell.Within P → (f cell).Within P) :
    (s.modifyCell c f).content.Within P where
  lazies d cell hd := by
    change (s.lazies.modify c f)[d]? = some cell at hd
    rw [Array.getElem?_modify] at hd
    split at hd
    · obtain ⟨old, hold, rfl⟩ := Option.map_eq_some_iff.1 hd
      exact hf old (h.lazies d old hold)
    · exact h.lazies d cell hd
  choices := h.choices
  names := h.names

namespace Eval

variable {P : Parser → Prop} {α β : Type} {m : Eval α}

/-- A run keeps all parsers within the kind, and its value is as `Q` says. -/
def Keeps (P : Parser → Prop) (m : Eval α) (Q : α → Prop) : Prop :=
  ∀ ⦃s r u⦄, s.content.Within P → m.run s = ended r u →
    u.content.Within P ∧ ∀ a, r = .ok a → Q a

theorem Keeps.resume {n : Eval β} {k : Except Fault α → Eval β} {Q : α → Prop} {R : β → Prop}
    (h : m.Keeps P Q) (hn : n.Resumes m k) (hok : ∀ a, Q a → (k (.ok a)).Keeps P R)
    (herror : ∀ f, (k (.error f)).Keeps P R) : n.Keeps P R := by
  intro s r v hs hv
  obtain ⟨r', u, hm⟩ := exists_ended m s
  obtain ⟨hu, hvalue⟩ := h hs hm
  have hlast := (hn s r' u hm).symm.trans hv
  cases r' with
  | ok a => exact hok a (hvalue a rfl) hu hlast
  | error f => exact herror f hu hlast

theorem keeps_manages {Q : α → Prop} (h : m.Manages P Q) : m.Keeps P Q := by
  obtain ⟨f, hrun, hf⟩ := h
  intro s r u hs hm
  obtain ⟨rfl, rfl⟩ := ended_inj ((hrun s).symm.trans hm)
  exact (hf s.content).2 hs

theorem keeps_traceLine {m : Eval Text} (head : Text) (h : m.Observes) :
    (traceLine head m).Keeps P fun _ => True := by
  intro s r u hs hrun
  rcases h.run_traceLine head s with ⟨-, hline⟩ | ⟨-, pieces, hline | hline⟩ <;>
  · obtain ⟨-, rfl⟩ := ended_inj (hline.symm.trans hrun)
    exact ⟨hs, fun _ _ => trivial⟩

theorem keeps_switchTrace (on : Bool) : (switchTrace on).Keeps P fun _ => True := by
  intro s r u hs hrun
  obtain ⟨-, rfl⟩ := ended_inj (r := .ok ()) hrun
  exact ⟨hs, fun _ _ => trivial⟩

theorem keeps_overrun {Q : α → Prop} : (overrun : Eval α).Keeps P Q := by
  intro s r u hs hrun
  obtain ⟨rfl, rfl⟩ := ended_inj (r := .error .depthExceeded) hrun
  refine ⟨hs, ?_⟩
  rintro _ ⟨⟩

theorem keeps_buildLazy {e : Entry}
    (h : ∀ cell : LazyCell, cell.Within P →
      (e.building cell).Keeps P fun made => P made.1 ∧ P made.2) (c : Nat) :
    (e.buildLazy c).Keeps P P := by
  intro s r v hs hv
  rcases Entry.buildLazy_cases s c with ⟨cell, hcell, hidle⟩ | ⟨r', hbuilt, hbuild⟩
  · obtain ⟨made, u, hrun⟩ := exists_ended (e.building cell) (s.modifyCell c .started)
    obtain ⟨rfl, rfl⟩ := ended_inj ((e.run_buildLazy_of_idle hcell hidle hrun).symm.trans hv)
    obtain ⟨hu, hmade⟩ := h cell (hs.lazies c cell hcell)
      (hs.modifyCell c fun _ hother => hother.started) hrun
    refine ⟨hu.modifyCell c fun _ hother => hother.settled hmade, fun p hp => ?_⟩
    cases made with
    | error f => cases hp
    | ok made =>
        cases hp
        exact (hmade made rfl).1
  · obtain ⟨rfl, rfl⟩ := ended_inj ((hbuild e s rfl).symm.trans hv)
    refine ⟨hs, fun p hp => ?_⟩
    obtain ⟨cell, entry, hcell, hphase⟩ := hbuilt p hp
    exact ((hs.lazies c cell hcell).built p entry hphase).1

end Eval

/-- The kinds of parsers that recipes make and that are given, with what may remain of an
input after a given one. -/
structure Kinds where
  Made : Parser → Prop
  Given : Parser → Prop
  Leaves : Text → Text → Prop
  made_of_composedOf {p : Parser} : p.ComposedOf Made → Made p
  composedOf_of_made {p : Parser} : Made p → p.ComposedOf Given
  made_recipe (g : Json.Grammar) (r : Json.Rule) : (g.recipe r).Within Made
  isRemaining : IsRemaining Leaves

namespace Kinds

/-- That a run keeps the kinds, as a judgement. -/
def judgement (K : Kinds) : Judgement where
  Holds m _ Q := m.Keeps K.Made Q
  Made := K.Made
  Given := K.Given
  Leaves := K.Leaves
  weaken h hPQ _ _ _ hs hm := ⟨(h hs hm).1, fun a ha => hPQ a ((h hs hm).2 a ha)⟩
  resume h hn _ hok herror _ := h.resume hn hok herror
  manages := keeps_manages
  traceLine head _ ho := keeps_traceLine head ho
  switchTrace := keeps_switchTrace
  build h := keeps_buildLazy h
  made_of_composedOf := K.made_of_composedOf
  composedOf_of_made := K.composedOf_of_made
  made_recipe := K.made_recipe
  isRemaining := K.isRemaining

variable {K : Kinds}

theorem entries (hgiven : ∀ p, K.Given p → ∀ depth cur,
      (p.parse (.ofDepth depth) cur).Keeps K.Made fun os => ∀ o ∈ os, K.Leaves cur o.rest) :
    ∀ depth, K.judgement.Entries (.ofDepth depth) (.ofDepth depth)
  | 0 =>
    { lazy := fun _ _ => keeps_overrun
      first := fun _ _ _ => keeps_overrun
      force := fun _ => keeps_overrun
      describe := fun _ => keeps_overrun
      observes := fun _ => observes_overrun
      given := fun p cur hp => hgiven p hp 0 cur }
  | depth + 1 => (entries hgiven depth).deeper fun p cur hp => hgiven p hp (depth + 1) cur

end Kinds

end Descent
