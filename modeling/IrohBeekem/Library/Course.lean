import Mathlib.Init

/-!
# Runs with notes

A machine takes one step for every label, in any state.  A `Chart` says where its runs
begin, what is noted along them, and which steps they may take; a `Course` is a run of
that kind.  The notes are about the past of a run, which its state need not show, and
the condition on a step may depend on them.
-/

namespace IrohBeekem.Library

/-- The runs of a machine that are of interest, and what is noted along them. -/
structure Chart (State Label Note : Type) where
  /-- Where runs begin, with what is noted of it. -/
  init : State → Note → Prop
  /-- What the machine does. -/
  step : Label → State → State
  /-- What is noted of a step from this state. -/
  note : Label → State → Note → Note
  /-- The steps such a run may take. -/
  ok : Label → State → Note → Prop

namespace Chart

variable {State Label Note : Type}

/-- The states the runs go through, each with the notes of its run. -/
inductive Course (m : Chart State Label Note) : State → Note → Prop where
  | start {s : State} {n : Note} (h : m.init s n) : Course m s n
  | step {s : State} {n : Note} (h : Course m s n) (label : Label) (hok : m.ok label s n) :
      Course m (m.step label s) (m.note label s n)

variable {m : Chart State Label Note}

/-- What holds at the beginning and is kept by every step holds throughout. -/
theorem Course.invariant {P : State → Note → Prop} {s : State} {n : Note}
    (h : m.Course s n) (hinit : ∀ s n, m.init s n → P s n)
    (hstep : ∀ s n label, P s n → m.ok label s n → P (m.step label s) (m.note label s n)) :
    P s n := by
  induction h with
  | start h => exact hinit _ _ h
  | step _ label hok ih => exact hstep _ _ label ih hok

/-- The machine and the notes after some more steps. -/
def takeAll (m : Chart State Label Note) : List Label → State × Note → State × Note
  | [], r => r
  | label :: rest, r => m.takeAll rest (m.step label r.1, m.note label r.1 r.2)

/-- The run may take these steps one after the other. -/
def AllOk (m : Chart State Label Note) : List Label → State × Note → Prop
  | [], _ => True
  | label :: rest, r =>
      m.ok label r.1 r.2 ∧ m.AllOk rest (m.step label r.1, m.note label r.1 r.2)

theorem allOk_of_forall {labels : List Label} (h : ∀ label ∈ labels, ∀ s n, m.ok label s n)
    (r : State × Note) : m.AllOk labels r := by
  induction labels generalizing r with
  | nil => trivial
  | cons label rest ih =>
      refine ⟨h label List.mem_cons_self r.1 r.2, ih ?_ _⟩
      exact fun label' hmem => h label' (List.mem_cons_of_mem _ hmem)

theorem Course.takeAll {r : State × Note} (h : m.Course r.1 r.2) (labels : List Label)
    (hok : m.AllOk labels r) : m.Course (m.takeAll labels r).1 (m.takeAll labels r).2 := by
  induction labels generalizing r with
  | nil => exact h
  | cons label rest ih => exact ih (h.step label hok.1) hok.2

end Chart

end IrohBeekem.Library
