import Descent.Parser.Basic

/-!
# Readings

A reading is what a parser of at most one outcome comes to at some depth: the
depth is used up, or there is no parse, or there is a value and what remains.
Unlike a run it knows of no store. Readings are put together as parsers are: one
after the other, by ordered choice, and again and again. `ends` is what a run with
that reading ends in.
-/

namespace Descent

inductive Reading (α : Type) where
  /-- The depth is used up. -/
  | overrun
  /-- No parse. -/
  | fails
  | reads (value : α) (rest : Text)

namespace Reading

variable {α β γ : Type}

/-- Reads on after a value. -/
def bind (r : Reading α) (next : α → Text → Reading β) : Reading β :=
  match r with
  | .overrun => .overrun
  | .fails => .fails
  | .reads a rest => next a rest

@[simp] theorem bind_overrun (next : α → Text → Reading β) :
    (overrun : Reading α).bind next = .overrun := rfl

@[simp] theorem bind_fails (next : α → Text → Reading β) :
    (fails : Reading α).bind next = .fails := rfl

@[simp] theorem bind_reads (a : α) (rest : Text) (next : α → Text → Reading β) :
    (reads a rest).bind next = next a rest := rfl

theorem bind_assoc (r : Reading α) (next : α → Text → Reading β) (last : β → Text → Reading γ) :
    (r.bind next).bind last = r.bind fun a rest => (next a rest).bind last := by
  cases r <;> rfl

theorem bind_eq_reads_iff {r : Reading α} {next : α → Text → Reading β} {b : β} {rest : Text} :
    r.bind next = .reads b rest ↔ ∃ a t, r = .reads a t ∧ next a t = .reads b rest := by
  cases r with
  | overrun => simp
  | fails => simp
  | reads a t =>
      constructor
      · intro h
        exact ⟨a, t, rfl, h⟩
      · rintro ⟨_, _, ⟨⟩, h⟩
        exact h

theorem bind_eq_overrun_iff {r : Reading α} {next : α → Text → Reading β} :
    r.bind next = .overrun ↔ r = .overrun ∨ ∃ a t, r = .reads a t ∧ next a t = .overrun := by
  cases r with
  | overrun => simp
  | fails => simp
  | reads a t =>
      constructor
      · intro h
        exact .inr ⟨a, t, rfl, h⟩
      · rintro (h | ⟨_, _, ⟨⟩, h⟩)
        · cases h
        · exact h

/-- The value changed. -/
def map (f : α → β) (r : Reading α) : Reading β := r.bind fun a rest => .reads (f a) rest

@[simp] theorem map_overrun (f : α → β) : (overrun : Reading α).map f = .overrun := rfl

@[simp] theorem map_fails (f : α → β) : (fails : Reading α).map f = .fails := rfl

@[simp] theorem map_reads (f : α → β) (a : α) (rest : Text) :
    (reads a rest).map f = .reads (f a) rest := rfl

@[simp] theorem map_id (r : Reading α) : r.map id = r := by
  cases r <;> rfl

@[simp] theorem map_map (f : α → β) (g : β → γ) (r : Reading α) :
    (r.map f).map g = r.map (g ∘ f) := by
  cases r <;> rfl

theorem map_bind (r : Reading α) (next : α → Text → Reading β) (f : β → γ) :
    (r.bind next).map f = r.bind fun a rest => (next a rest).map f := by
  cases r <;> rfl

@[simp] theorem bind_map (r : Reading α) (f : α → β) (next : β → Text → Reading γ) :
    (r.map f).bind next = r.bind fun a rest => next (f a) rest := by
  cases r <;> rfl

theorem map_eq_reads_iff {r : Reading α} {f : α → β} {b : β} {rest : Text} :
    r.map f = .reads b rest ↔ ∃ a, r = .reads a rest ∧ f a = b := by
  cases r with
  | overrun => simp
  | fails => simp
  | reads a t =>
      constructor
      · rintro ⟨⟩
        exact ⟨a, rfl, rfl⟩
      · rintro ⟨_, ⟨⟩, rfl⟩
        rfl

theorem map_eq_overrun_iff {r : Reading α} {f : α → β} : r.map f = .overrun ↔ r = .overrun := by
  cases r <;> simp

/-- What there is depth for is changed, or else the depth is still used up. -/
theorem map_ite (P : Prop) [Decidable P] (f : α → β) (a : α) (rest : Text) :
    (if P then reads a rest else .overrun).map f = if P then .reads (f a) rest else .overrun := by
  split <;> rfl

/-- The first reading, or the second one if the first is no parse. -/
def orElse (r s : Reading α) : Reading α :=
  match r with
  | .fails => s
  | r => r

@[simp] theorem orElse_overrun (s : Reading α) : (overrun : Reading α).orElse s = .overrun := rfl

@[simp] theorem orElse_fails (s : Reading α) : (fails : Reading α).orElse s = s := rfl

@[simp] theorem orElse_reads (a : α) (rest : Text) (s : Reading α) :
    (reads a rest).orElse s = .reads a rest := rfl

@[simp] theorem orElse_fails_right (r : Reading α) : r.orElse .fails = r := by
  cases r <;> rfl

/-- A parse that there may be no depth for is still the one that counts. -/
theorem orElse_ite (P : Prop) [Decidable P] (a : α) (rest : Text) (s : Reading α) :
    (if P then reads a rest else .overrun).orElse s = if P then .reads a rest else .overrun := by
  split <;> rfl

theorem orElse_eq_reads_iff {r s : Reading α} {a : α} {rest : Text} :
    r.orElse s = .reads a rest ↔ r = .reads a rest ∨ r = .fails ∧ s = .reads a rest := by
  cases r <;> simp

theorem orElse_eq_overrun_iff {r s : Reading α} :
    r.orElse s = .overrun ↔ r = .overrun ∨ r = .fails ∧ s = .overrun := by
  cases r <;> simp

/-- Two ways to go on after the same beginning. -/
theorem orElse_bind (r : Reading α) (next other : α → Text → Reading β) :
    (r.bind next).orElse (r.bind other) =
      r.bind fun a rest => (next a rest).orElse (other a rest) := by
  cases r <;> rfl

theorem map_orElse (r s : Reading α) (f : α → β) :
    (r.orElse s).map f = (r.map f).orElse (s.map f) := by
  cases r <;> rfl

/-- The first of the readings that is a parse. -/
def choice : List (Text → Reading α) → Text → Reading α
  | [], _ => .fails
  | f :: fs, cur => (f cur).orElse (choice fs cur)

@[simp] theorem choice_nil (cur : Text) : choice ([] : List (Text → Reading α)) cur = .fails := rfl

@[simp] theorem choice_cons (f : Text → Reading α) (fs : List (Text → Reading α)) (cur : Text) :
    choice (f :: fs) cur = (f cur).orElse (choice fs cur) := rfl

theorem choice_map (f : α → β) (fs : List (Text → Reading α)) (cur : Text) :
    choice (fs.map fun g cur => (g cur).map f) cur = (choice fs cur).map f := by
  induction fs with
  | nil => rfl
  | cons g fs ih =>
      rw [List.map_cons, choice_cons, choice_cons, ih, map_orElse]

/-- If no other reading comes from the alternatives, and it does unless it fails, then it is the
choice among them. -/
theorem choice_eq {fs : List (Text → Reading α)} {cur : Text} {r : Reading α}
    (honly : ∀ f ∈ fs, f cur ≠ .fails → f cur = r) (hr : r = .fails ∨ ∃ f ∈ fs, f cur = r) :
    choice fs cur = r := by
  induction fs with
  | nil =>
      rcases hr with rfl | ⟨f, hf, -⟩
      · rfl
      · cases hf
  | cons f fs ih =>
      rw [choice_cons]
      by_cases hf : f cur = .fails
      · rw [hf, orElse_fails]
        refine ih (fun g hg => honly g (List.mem_cons_of_mem f hg)) ?_
        rcases hr with hr | ⟨g, hg, hgr⟩
        · exact .inl hr
        · rcases List.mem_cons.1 hg with rfl | hg
          · exact .inl (hgr.symm.trans hf)
          · exact .inr ⟨g, hg, hgr⟩
      · have hfr : f cur = r := honly f List.mem_cons_self hf
        rw [hfr] at hf ⊢
        cases r with
        | fails => exact absurd rfl hf
        | _ => rfl

/-- The values of readings one after the other. -/
def sequence : List (Text → Reading α) → Text → Reading (List α)
  | [], cur => .reads [] cur
  | f :: fs, cur => (f cur).bind fun a rest => (sequence fs rest).map (a :: ·)

@[simp] theorem sequence_nil (cur : Text) :
    sequence ([] : List (Text → Reading α)) cur = .reads [] cur := rfl

@[simp] theorem sequence_cons (f : Text → Reading α) (fs : List (Text → Reading α)) (cur : Text) :
    sequence (f :: fs) cur = (f cur).bind fun a rest => (sequence fs rest).map (a :: ·) := rfl

theorem sequence_map (f : α → β) (fs : List (Text → Reading α)) (cur : Text) :
    sequence (fs.map fun g cur => (g cur).map f) cur = (sequence fs cur).map (List.map f) := by
  induction fs generalizing cur with
  | nil => rfl
  | cons g fs ih =>
      rw [List.map_cons, sequence_cons, sequence_cons, bind_map, map_bind]
      congr 1
      funext a rest
      rw [ih, map_map, map_map]
      rfl

theorem length_of_sequence {fs : List (Text → Reading α)} {cur rest : Text} {as : List α}
    (h : sequence fs cur = .reads as rest) : as.length = fs.length := by
  induction fs generalizing cur as with
  | nil =>
      cases h
      rfl
  | cons f fs ih =>
      rw [sequence_cons, bind_eq_reads_iff] at h
      obtain ⟨a, t, -, h⟩ := h
      obtain ⟨as, has, rfl⟩ := map_eq_reads_iff.1 h
      simp [ih has]

/-- Reads again and again until there is no parse, or one that consumes nothing,
which is the last. -/
def many (step : Text → Reading α) (cur : Text) : Reading (List α) :=
  match step cur with
  | .overrun => .overrun
  | .fails => .reads [] cur
  | .reads a rest =>
    if _h : rest.length < cur.length then (many step rest).map (a :: ·) else .reads [a] rest
termination_by cur.length

section Many

variable {step : Text → Reading α} {cur rest : Text} {a : α}

theorem many_of_overrun (h : step cur = .overrun) : many step cur = .overrun := by
  rw [many, h]

theorem many_of_fails (h : step cur = .fails) : many step cur = .reads [] cur := by
  rw [many, h]

theorem many_of_reads (h : step cur = .reads a rest) (hlt : rest.length < cur.length) :
    many step cur = (many step rest).map (a :: ·) := by
  rw [many, h]
  simp [hlt]

theorem many_of_reads_of_le (h : step cur = .reads a rest) (hle : cur.length ≤ rest.length) :
    many step cur = .reads [a] rest := by
  rw [many, h]
  simp [Nat.not_lt.2 hle]

/-- What holds of the places where a repetition stands, from its start on, holds of its
end, where there is no parse. `P` relates a place to the values read from there on. -/
theorem many_induction {P : Text → List α → Text → Prop} {as : List α}
    (hstep : ∀ cur a rest, step cur = .reads a rest → rest.length < cur.length)
    (hnil : ∀ cur, step cur = .fails → P cur [] cur)
    (hcons : ∀ cur a t as rest, step cur = .reads a t → P t as rest → P cur (a :: as) rest)
    (h : many step cur = .reads as rest) : P cur as rest := by
  induction hn : cur.length using Nat.strongRecOn generalizing cur as with
  | ind n ih =>
      cases hs : step cur with
      | overrun => simp [many_of_overrun hs] at h
      | fails =>
          rw [many_of_fails hs] at h
          cases h
          exact hnil _ hs
      | reads a t =>
          have hlt := hstep cur a t hs
          rw [many_of_reads hs hlt] at h
          obtain ⟨as, has, rfl⟩ := map_eq_reads_iff.1 h
          exact hcons cur a t as rest hs (ih t.length (hn ▸ hlt) has rfl)

/-- A repetition that runs out of depth does so in a step, at a place that is reached by the
steps before it. What holds of that place and is carried back over a step holds of the start. -/
theorem many_overrun_induction {P : Text → Prop} (hover : ∀ cur, step cur = .overrun → P cur)
    (hback : ∀ cur a t, step cur = .reads a t → P t → P cur) (h : many step cur = .overrun) :
    P cur := by
  induction hn : cur.length using Nat.strongRecOn generalizing cur with
  | ind n ih =>
      cases hs : step cur with
      | overrun => exact hover cur hs
      | fails =>
          rw [many_of_fails hs] at h
          cases h
      | reads a t =>
          by_cases hlt : t.length < cur.length
          · rw [many_of_reads hs hlt, map_eq_overrun_iff] at h
            exact hback cur a t hs (ih t.length (hn ▸ hlt) h rfl)
          · rw [many_of_reads_of_le hs (Nat.not_lt.1 hlt)] at h
            cases h

theorem many_ne_overrun (h : ∀ cur, step cur ≠ .overrun) (cur : Text) :
    many step cur ≠ .overrun :=
  many_overrun_induction h fun _ _ _ _ hfalse => hfalse

/-- A repetition is always a parse, unless it runs out of depth. -/
theorem many_ne_fails (cur : Text) : many step cur ≠ .fails := by
  induction hn : cur.length using Nat.strongRecOn generalizing cur with
  | ind n ih =>
      cases hs : step cur with
      | overrun => simp [many_of_overrun hs]
      | fails => simp [many_of_fails hs]
      | reads a rest =>
          by_cases hlt : rest.length < cur.length
          · have hrest := ih rest.length (hn ▸ hlt) rest rfl
            rw [many_of_reads hs hlt]
            cases hmany : many step rest with
            | fails => exact absurd hmany hrest
            | _ => simp
          · simp [many_of_reads_of_le hs (Nat.not_lt.1 hlt)]

end Many

/-- One or more times. -/
def many1 (step : Text → Reading α) (cur : Text) : Reading (List α) :=
  (many step cur).bind fun as rest => if as.isEmpty then .fails else .reads as rest

theorem many1_eq_overrun_iff {step : Text → Reading α} {cur : Text} :
    many1 step cur = .overrun ↔ many step cur = .overrun := by
  rw [many1, bind_eq_overrun_iff]
  refine or_iff_left ?_
  rintro ⟨as, t, -, hlast⟩
  split at hlast <;> cases hlast

/-- One entry: `f` reads with what depth is left. -/
def enter (depth : Nat) (f : Nat → Reading α) : Reading α :=
  match depth with
  | 0 => .overrun
  | depth + 1 => f depth

@[simp] theorem enter_zero (f : Nat → Reading α) : enter 0 f = .overrun := rfl

@[simp] theorem enter_succ (depth : Nat) (f : Nat → Reading α) :
    enter (depth + 1) f = f depth := rfl

theorem enter_eq_reads_iff {depth : Nat} {f : Nat → Reading α} {a : α} {rest : Text} :
    enter depth f = .reads a rest ↔ ∃ n, depth = n + 1 ∧ f n = .reads a rest := by
  cases depth <;> simp

theorem enter_eq_overrun_iff {depth : Nat} {f : Nat → Reading α} :
    enter depth f = .overrun ↔ depth = 0 ∨ ∃ n, depth = n + 1 ∧ f n = .overrun := by
  cases depth <;> simp

theorem map_enter (depth : Nat) (f : Nat → Reading α) (g : α → β) :
    (enter depth f).map g = enter depth fun depth => (f depth).map g := by
  cases depth <;> rfl

/-- What a computation with the reading ends in: it gives at most one result. -/
def ends (result : α → Text → β) : Reading α → Except Fault (List β)
  | .overrun => .error .depthExceeded
  | .fails => .ok []
  | .reads a rest => .ok [result a rest]

@[simp] theorem ends_overrun (result : α → Text → β) :
    ends result .overrun = .error .depthExceeded := rfl

@[simp] theorem ends_fails (result : α → Text → β) : ends result .fails = .ok [] := rfl

@[simp] theorem ends_reads (result : α → Text → β) (a : α) (rest : Text) :
    ends result (.reads a rest) = .ok [result a rest] := rfl

theorem ends_map (f : α → γ) (result : γ → Text → β) (r : Reading α) :
    (r.map f).ends result = r.ends fun a rest => result (f a) rest := by
  cases r <;> rfl

/-- What a run of a parser with the reading ends in. -/
abbrev outcomes (r : Reading Value) : Except Fault (List Outcome) := r.ends Outcome.mk

end Reading

end Descent
