import Descent.Proofs.Reading
import Mathlib.Data.List.Forall2

/-!
# Readings that agree

Two readings agree up to a relation of their values if they end in the same way, and
leave the same rest. What is put together of readings that agree agrees.
-/

namespace Descent

namespace Reading

/-- The same end, and values that are related. -/
inductive Agree {α β : Type} (R : α → β → Prop) : Reading α → Reading β → Prop
  | overrun : Agree R .overrun .overrun
  | fails : Agree R .fails .fails
  | reads {a : α} {b : β} (h : R a b) (rest : Text) : Agree R (.reads a rest) (.reads b rest)

/-- The same end, whatever the values are. -/
abbrev Alike {α β : Type} : Reading α → Reading β → Prop := Agree fun _ _ => True

namespace Agree

variable {α β γ δ : Type} {R : α → β → Prop} {S : γ → δ → Prop}

theorem alike {r : Reading α} {s : Reading β} (h : Agree R r s) : Alike r s := by
  cases h with
  | overrun => exact .overrun
  | fails => exact .fails
  | reads _ rest => exact .reads trivial rest

theorem same (r : Reading α) : Agree Eq r r := by
  cases r with
  | overrun => exact .overrun
  | fails => exact .fails
  | reads a rest => exact .reads rfl rest

theorem bind {r : Reading α} {s : Reading β} {f : α → Text → Reading γ}
    {g : β → Text → Reading δ} (h : Agree R r s)
    (hnext : ∀ a b rest, R a b → Agree S (f a rest) (g b rest)) :
    Agree S (r.bind f) (s.bind g) := by
  cases h with
  | overrun => exact .overrun
  | fails => exact .fails
  | reads hab rest => exact hnext _ _ rest hab

theorem map {r : Reading α} {s : Reading β} {f : α → γ} {g : β → δ} (h : Agree R r s)
    (hvalue : ∀ a b, R a b → S (f a) (g b)) : Agree S (r.map f) (s.map g) :=
  h.bind fun a b rest hab => .reads (hvalue a b hab) rest

theorem orElse {r r' : Reading α} {s s' : Reading β} (h : Agree R r s) (h' : Agree R r' s') :
    Agree R (r.orElse r') (s.orElse s') := by
  cases h with
  | overrun => exact .overrun
  | fails => exact h'
  | reads hab rest => exact .reads hab rest

theorem choice {fs : List (Text → Reading α)} {gs : List (Text → Reading β)} {cur : Text}
    (h : List.Forall₂ (fun f g => Agree R (f cur) (g cur)) fs gs) :
    Agree R (choice fs cur) (choice gs cur) := by
  induction h with
  | nil => exact .fails
  | cons hfg _ ih => exact hfg.orElse ih

theorem enter {depth : Nat} {f : Nat → Reading α} {g : Nat → Reading β}
    (h : ∀ n, depth = n + 1 → Agree R (f n) (g n)) :
    Agree R (enter depth f) (enter depth g) := by
  cases depth with
  | zero => exact .overrun
  | succ n => exact h n rfl

/-- Steps that agree everywhere are repeated alike. -/
theorem many {f : Text → Reading α} {g : Text → Reading β} (h : ∀ cur, Agree R (f cur) (g cur))
    (cur : Text) : Agree (List.Forall₂ R) (many f cur) (many g cur) := by
  induction hn : cur.length using Nat.strongRecOn generalizing cur with
  | ind n ih =>
      have hstep := h cur
      cases hf : f cur with
      | overrun =>
          rw [hf] at hstep
          cases hg : g cur <;> rw [hg] at hstep <;> cases hstep
          rw [many_of_overrun hf, many_of_overrun hg]
          exact .overrun
      | fails =>
          rw [hf] at hstep
          cases hg : g cur <;> rw [hg] at hstep <;> cases hstep
          rw [many_of_fails hf, many_of_fails hg]
          exact .reads .nil cur
      | reads a rest =>
          rw [hf] at hstep
          cases hg : g cur <;> rw [hg] at hstep <;> cases hstep
          case reads b hab =>
            by_cases hlt : rest.length < cur.length
            · rw [many_of_reads hf hlt, many_of_reads hg hlt]
              exact (ih rest.length (hn ▸ hlt) rest rfl).map fun _ _ has => .cons hab has
            · have hle := Nat.not_lt.1 hlt
              rw [many_of_reads_of_le hf hle, many_of_reads_of_le hg hle]
              exact .reads (.cons hab .nil) rest

theorem many1 {f : Text → Reading α} {g : Text → Reading β} (h : ∀ cur, Agree R (f cur) (g cur))
    (cur : Text) : Agree (List.Forall₂ R) (many1 f cur) (many1 g cur) := by
  refine (many h cur).bind fun as bs rest hab => ?_
  cases hab with
  | nil => exact .fails
  | cons hab has => exact .reads (.cons hab has) rest

end Agree

end Reading

end Descent
