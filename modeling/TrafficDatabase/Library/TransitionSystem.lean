import Mathlib.Data.List.Basic
import Mathlib.Data.Option.Basic

/-!
# Labelled transition systems

A system is an initial state and a partial step function: `step state label` is
`none` when the step the label names cannot be taken in that state.  A run is a
list of labels.  `Reachable allowed` restricts the runs to those whose every
step satisfies `allowed` in the state before it, which is how a result about
well-behaved environments is stated; `Reachable.invariant` is the induction rule
every safety theorem of this development goes through.
-/

namespace TrafficDatabase

/-- A labelled transition system with one initial state. -/
structure TransitionSystem (State Label : Type*) where
  init : State
  step : State → Label → Option State

namespace TransitionSystem

variable {State Label : Type*} (sys : TransitionSystem State Label)

/-- Take the steps of `labels` in order. -/
def run : State → List Label → Option State
  | state, [] => some state
  | state, label :: rest => (sys.step state label).bind fun next => run next rest

/-- Every step of the run satisfies `allowed` in the state before it. -/
def RunAllowed (allowed : State → Label → Prop) : State → List Label → Prop
  | _, [] => True
  | state, label :: rest =>
      allowed state label ∧ ∀ next, sys.step state label = some next → RunAllowed allowed next rest

instance decidableRunAllowed {allowed : State → Label → Prop}
    [∀ state label, Decidable (allowed state label)] :
    ∀ state labels, Decidable (sys.RunAllowed allowed state labels)
  | _, [] => .isTrue trivial
  | state, label :: rest =>
      match h : sys.step state label with
      | none => decidable_of_iff (allowed state label) (by simp [RunAllowed, h])
      | some next =>
          have : Decidable (sys.RunAllowed allowed next rest) := decidableRunAllowed next rest
          decidable_of_iff (allowed state label ∧ sys.RunAllowed allowed next rest)
            (by simp [RunAllowed, h])

/-- The states of runs whose steps all satisfy `allowed`. -/
inductive Reachable (allowed : State → Label → Prop) : State → Prop
  | init : Reachable allowed sys.init
  | step {state next : State} {label : Label} : Reachable allowed state → allowed state label →
      sys.step state label = some next → Reachable allowed next

variable {sys} {allowed : State → Label → Prop} {state next : State}

theorem run_cons {label : Label} {rest : List Label} {final : State} :
    sys.run state (label :: rest) = some final ↔
      ∃ next, sys.step state label = some next ∧ sys.run next rest = some final := by
  simp [run, Option.bind_eq_some_iff]

theorem run_append {first second : List Label} {final : State} :
    sys.run state (first ++ second) = some final ↔
      ∃ middle, sys.run state first = some middle ∧ sys.run middle second = some final := by
  induction first generalizing state with
  | nil => simp [run]
  | cons label rest ih =>
      simp only [List.cons_append, run_cons, ih]
      constructor
      · rintro ⟨next, hstep, middle, hrest, hsecond⟩
        exact ⟨middle, ⟨next, hstep, hrest⟩, hsecond⟩
      · rintro ⟨middle, ⟨next, hstep, hrest⟩, hsecond⟩
        exact ⟨next, hstep, middle, hrest, hsecond⟩

/-- The invariant rule: what holds initially and is kept by every allowed step
holds in every reachable state. -/
theorem Reachable.invariant (Inv : State → Prop) (hinit : Inv sys.init)
    (hstep : ∀ {state next : State} {label : Label}, Inv state → allowed state label →
      sys.step state label = some next → Inv next)
    (h : sys.Reachable allowed state) : Inv state := by
  induction h with
  | init => exact hinit
  | step _ hallowed hnext ih => exact hstep ih hallowed hnext

/-- A run from a reachable state ends in a reachable state. -/
theorem Reachable.run {labels : List Label} (h : sys.Reachable allowed state)
    (hallowed : sys.RunAllowed allowed state labels) (hrun : sys.run state labels = some next) :
    sys.Reachable allowed next := by
  induction labels generalizing state with
  | nil =>
      obtain rfl : state = next := by simpa [TransitionSystem.run] using hrun
      exact h
  | cons label rest ih =>
      obtain ⟨middle, hstep, hrest⟩ := run_cons.mp hrun
      exact ih (h.step hallowed.1 hstep) (hallowed.2 middle hstep) hrest

variable (sys) in
/-- What a run of the system was computed to end in is reachable. -/
theorem exists_reachable (labels : List Label) (P : State → Prop) [DecidablePred P]
    (hallowed : sys.RunAllowed allowed sys.init labels)
    (hrun : (sys.run sys.init labels).any (fun state => decide (P state)) = true) :
    ∃ state, sys.Reachable allowed state ∧ P state := by
  cases hstate : sys.run sys.init labels with
  | none => simp [hstate] at hrun
  | some state =>
      rw [hstate, Option.any_some, decide_eq_true_eq] at hrun
      exact ⟨state, Reachable.init.run hallowed hstate, hrun⟩

theorem runAllowed_true (labels : List Label) : sys.RunAllowed (fun _ _ => True) state labels := by
  induction labels generalizing state with
  | nil => trivial
  | cons label rest ih => exact ⟨trivial, fun _ _ => ih⟩

/-- Fewer allowed steps reach fewer states. -/
theorem Reachable.mono {weaker : State → Label → Prop}
    (hle : ∀ state label, allowed state label → weaker state label)
    (h : sys.Reachable allowed state) : sys.Reachable weaker state := by
  induction h with
  | init => exact .init
  | step _ hallowed hnext ih => exact ih.step (hle _ _ hallowed) hnext

end TransitionSystem

end TrafficDatabase
