import Descent.Run

/-!
# Sessions

A session carries out steps one after the other on one store. A fault is the
answer of its step, and the session goes on from the store as the step left it.
With the trace on, an answer comes with the lines that its step wrote.
-/

namespace Descent

/-- The answer of a step, and the lines of its trace if they are kept. -/
structure Report where
  answer : Except Fault Answer
  trace : Option (List Text)

namespace Session

/-- The answer of a step, and the store after it with the trace of this step alone. -/
def perform (e : Entry) (step : Step) (s : Store) : Except Fault Answer × Store :=
  match (step.perform e).run { s with pieces := [] } with
  | .ok a s => (.ok a, s)
  | .error f s => (.error f, s)

/-- The trace, if it is on. -/
def trace? (s : Store) : Option (List Text) := if s.tracing then some s.trace else none

/-- The reports of steps in order, and the store after the last one. -/
def run (e : Entry) : List Step → Store → List Report × Store
  | [], s => ([], s)
  | step :: steps, s =>
    let (answer, s) := perform e step s
    let (reports, final) := run e steps s
    (⟨answer, trace? s⟩ :: reports, final)

@[simp] theorem run_nil (e : Entry) (s : Store) : run e [] s = ([], s) := rfl

theorem run_snd_cons (e : Entry) (step : Step) (steps : List Step) (s : Store) :
    (run e (step :: steps) s).2 = (run e steps (perform e step s).2).2 := rfl

theorem run_snd_append (e : Entry) (steps others : List Step) (s : Store) :
    (run e (steps ++ others) s).2 = (run e others (run e steps s).2).2 := by
  induction steps generalizing s with
  | nil => rfl
  | cons step steps ih => rw [List.cons_append, run_snd_cons, run_snd_cons, ih]

/-- The report of a single step on an empty store. -/
def single (tracing : Bool) (step : Step) : Report :=
  let (answer, s) := perform (.ofDepth depthLimit) step { tracing := tracing }
  ⟨answer, if tracing then some s.trace else none⟩

/-- The reports of a session from an empty store on. -/
def reports (steps : List Step) : List Report := (run (.ofDepth depthLimit) steps {}).1

end Session

end Descent
