import Descent.Session

/-!
# Stores that only grow

A store extends another one if it still has the choices, the built lazy parsers
and the names of that one. `Computes Inv s m r` says that from every store that
extends `s` and satisfies the invariant `Inv` the computation `m` ends as `r`
says, whatever else is in that store, and that it leaves a store of the same kind.
-/

namespace Descent

namespace Store

/-- All of `s` that parsers refer to is in `s'` too. -/
structure Extends (s s' : Store) : Prop where
  choices : ∀ (c : Nat) ps, s.choices[c]? = some ps → s'.choices[c]? = some ps
  built : ∀ (c : Nat) cell, s.lazies[c]? = some cell → cell.isBuilt = true →
    s'.lazies[c]? = some cell
  names : s'.names = s.names
  grammars : s'.grammars = s.grammars

theorem Extends.refl (s : Store) : s.Extends s :=
  ⟨fun _ _ h => h, fun _ _ h _ => h, rfl, rfl⟩

theorem Extends.trans {s t u : Store} (h : s.Extends t) (h' : t.Extends u) : s.Extends u where
  choices c ps hc := h'.choices c ps (h.choices c ps hc)
  built c cell hc hb := h'.built c cell (h.built c cell hc hb) hb
  names := h'.names.trans h.names
  grammars := h'.grammars.trans h.grammars

/-- The store with further choices. -/
def addChoices (s : Store) (cs : Array (List Parser)) : Store :=
  { s with choices := s.choices ++ cs }

@[simp] theorem addChoices_empty (s : Store) : s.addChoices #[] = s := by
  simp [addChoices]

theorem addChoices_singleton (s : Store) (ps : List Parser) :
    s.addChoices #[ps] = { s with choices := s.choices.push ps } := by
  simp [addChoices]

@[simp] theorem addChoices_addChoices (s : Store) (cs ds : Array (List Parser)) :
    (s.addChoices cs).addChoices ds = s.addChoices (cs ++ ds) := by
  simp [addChoices]

theorem extends_addChoices (s : Store) (cs : Array (List Parser)) :
    s.Extends (s.addChoices cs) where
  choices c ps hc := by
    have hlt : c < s.choices.size := (Array.getElem?_eq_some_iff.1 hc).1
    rw [addChoices, Array.getElem?_append_left hlt, hc]
  built _ _ h _ := h
  names := rfl
  grammars := rfl

/-- The store with the cell in that place changed. -/
def modifyCell (s : Store) (c : Nat) (f : LazyCell → LazyCell) : Store :=
  { s with lazies := s.lazies.modify c f }

theorem lazies_modifyCell_self {s : Store} {c : Nat} {cell : LazyCell} (f : LazyCell → LazyCell)
    (h : s.lazies[c]? = some cell) : (s.modifyCell c f).lazies[c]? = some (f cell) := by
  simp [modifyCell, Array.getElem?_modify, h]

theorem lazies_modifyCell_of_ne {c d : Nat} (h : c ≠ d) (s : Store) (f : LazyCell → LazyCell) :
    (s.modifyCell c f).lazies[d]? = s.lazies[d]? := by
  simp [modifyCell, Array.getElem?_modify, h]

/-- A cell that is not built may change. -/
theorem extends_modifyCell {s : Store} {c : Nat} {cell : LazyCell} (f : LazyCell → LazyCell)
    (h : s.lazies[c]? = some cell) (hb : cell.isBuilt = false) : s.Extends (s.modifyCell c f) where
  choices _ _ hc := hc
  built d other hd ho := by
    have hne : c ≠ d := by
      rintro rfl
      rw [h] at hd
      cases hd
      rw [hb] at ho
      cases ho
    rw [lazies_modifyCell_of_ne hne, hd]
  names := rfl
  grammars := rfl

end Store

namespace Eval

variable {α β : Type} {s s' : Store} {m : Eval α}

theorem run_bind_ok {a : α} {next : α → Eval β} (h : m.run s = .ok a s') :
    (m >>= next).run s = (next a).run s' := by
  rw [EStateM.run_bind, h]

theorem run_bind_error {f : Fault} {next : α → Eval β} (h : m.run s = .error f s') :
    (m >>= next).run s = .error f s' := by
  rw [EStateM.run_bind, h]

theorem run_tryCatch_ok {a : α} {handler : Fault → Eval α} (h : m.run s = .ok a s') :
    (tryCatch m handler).run s = .ok a s' := by
  have hm : m s = .ok a s' := h
  change EStateM.tryCatch m handler s = _
  delta EStateM.tryCatch
  simp only [hm]

theorem run_tryCatch_error {f : Fault} {handler : Fault → Eval α} (h : m.run s = .error f s') :
    (tryCatch m handler).run s = (handler f).run s' := by
  have hm : m s = .error f s' := h
  change EStateM.tryCatch m handler s = _
  delta EStateM.tryCatch
  simp only [hm]
  rfl

/-- What a run ends in, with the store it leaves. -/
def ended (r : Except Fault α) (s : Store) : EStateM.Result Fault Store α :=
  match r with
  | .ok a => .ok a s
  | .error f => .error f s

@[simp] theorem ended_ok (a : α) (s : Store) : ended (.ok a) s = .ok a s := rfl

@[simp] theorem ended_error (f : Fault) (s : Store) :
    ended (.error f : Except Fault α) s = .error f s := rfl

theorem ended_inj {r r' : Except Fault α} {s s' : Store} (h : ended r s = ended r' s') :
    r = r' ∧ s = s' := by
  cases r with
  | ok a =>
      cases r' with
      | ok a' => cases h; exact ⟨rfl, rfl⟩
      | error f' => cases h
  | error f =>
      cases r' with
      | ok a' => cases h
      | error f' => cases h; exact ⟨rfl, rfl⟩

/-- The store that a run leaves, whatever the run ends in. -/
def leaves (m : Eval α) (s : Store) : Store :=
  match m.run s with
  | .ok _ u => u
  | .error _ u => u

theorem exists_ended (m : Eval α) (s : Store) : ∃ r u, m.run s = ended r u := by
  cases h : m.run s with
  | ok a u => exact ⟨.ok a, u, rfl⟩
  | error fault u => exact ⟨.error fault, u, rfl⟩

theorem leaves_of_run {m : Eval α} {r : Except Fault α} {s u : Store}
    (h : m.run s = ended r u) : m.leaves s = u := by
  rw [leaves, h]
  cases r <;> rfl

/-- A change of the value alone leaves the same store. -/
theorem leaves_bind_pure (m : Eval α) (f : α → β) (s : Store) :
    (m >>= fun a => pure (f a)).leaves s = m.leaves s := by
  cases h : m.run s with
  | ok a u => rw [leaves, leaves, run_bind_ok h, h, EStateM.run_pure]
  | error fault u => rw [leaves, leaves, run_bind_error h, h]

theorem run_lazyCell {s : Store} {c : Nat} {cell : LazyCell} (h : s.lazies[c]? = some cell) :
    (lazyCell c).run s = .ok cell s := by
  rw [lazyCell, run_bind_ok (EStateM.run_get s), h]
  rfl

theorem run_describeLazy {s : Store} {c : Nat} {cell : LazyCell} (h : s.lazies[c]? = some cell) :
    (describeLazy c).run s = .ok cell.description s := by
  rw [describeLazy, run_bind_ok (EStateM.run_get s), h]
  rfl

theorem run_modifyLazy (c : Nat) (f : LazyCell → LazyCell) (s : Store) :
    (modifyLazy c f).run s = .ok () (s.modifyCell c f) := rfl

/-- From the stores of the invariant that extend `s`, the computation ends as `r`
says, in a store of the invariant that extends the one it started from. -/
def Computes (Inv : Store → Prop) (s : Store) (m : Eval α) (r : Except Fault α) : Prop :=
  ∀ t, s.Extends t → Inv t → ∃ u, t.Extends u ∧ Inv u ∧ m.run t = ended r u

namespace Computes

variable {Inv : Store → Prop}

theorem ofExcept (r : Except Fault α) : Computes Inv s (ofExcept r) r := by
  intro t _ hinv
  refine ⟨t, .refl t, hinv, ?_⟩
  cases r <;> rfl

theorem pure (a : α) : Computes Inv s (pure a : Eval α) (.ok a) := ofExcept (.ok a)

theorem extend {r : Except Fault α} (h : Computes Inv s m r) (hs : s.Extends s') :
    Computes Inv s' m r :=
  fun t ht hinv => h t (hs.trans ht) hinv

/-- A computation goes on from the value of the first part, in a later store. -/
theorem bind {next : α → Eval β} {r : Except Fault α} {k : α → Except Fault β}
    (h : Computes Inv s m r) (hnext : ∀ a, r = .ok a → Computes Inv s (next a) (k a)) :
    Computes Inv s (m >>= next) (r >>= k) := by
  intro t ht hinv
  obtain ⟨u, htu, hu, hrun⟩ := h t ht hinv
  cases r with
  | error f => exact ⟨u, htu, hu, run_bind_error hrun⟩
  | ok a =>
      obtain ⟨v, huv, hv, hlast⟩ := hnext a rfl u (ht.trans htu) hu
      refine ⟨v, htu.trans huv, hv, ?_⟩
      rw [run_bind_ok hrun, hlast]
      rfl

theorem tryCatch_ok {a : α} {handler : Fault → Eval α} (h : Computes Inv s m (.ok a)) :
    Computes Inv s (tryCatch m handler) (.ok a) := by
  intro t ht hinv
  obtain ⟨u, htu, hu, hrun⟩ := h t ht hinv
  exact ⟨u, htu, hu, run_tryCatch_ok hrun⟩

theorem tryCatch_error {f : Fault} {handler : Fault → Eval α} {r : Except Fault α}
    (h : Computes Inv s m (.error f)) (hf : Computes Inv s (handler f) r) :
    Computes Inv s (tryCatch m handler) r := by
  intro t ht hinv
  obtain ⟨u, htu, hu, hrun⟩ := h t ht hinv
  obtain ⟨v, huv, hv, hlast⟩ := hf u (ht.trans htu) hu
  exact ⟨v, htu.trans huv, hv, (run_tryCatch_error hrun).trans hlast⟩

end Computes

end Eval

namespace Session

open Eval

variable {e : Entry} {step : Step}

theorem perform_of_run {r : Except Fault Answer} {s u : Store}
    (h : (step.perform e).run { s with pieces := [] } = ended r u) :
    perform e step s = (r, u) := by
  rw [perform, h]
  cases r <;> rfl

theorem perform_snd (e : Entry) (step : Step) (s : Store) :
    (perform e step s).2 = (step.perform e).leaves { s with pieces := [] } := by
  obtain ⟨r, u, hrun⟩ := exists_ended (step.perform e) { s with pieces := [] }
  rw [perform_of_run hrun, leaves_of_run hrun]

end Session

end Descent
