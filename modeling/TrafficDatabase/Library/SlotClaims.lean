import Mathlib.Logic.Function.Basic

/-!
# Claims on the slots of a ring

Each slot has a flag. A thread that finds the flag of a slot as it wants it claims the slot
until it turns the flag round itself. `Exclusive` says that at most one thread claims a slot
and that meanwhile the flag stays as it was found; it is kept when a thread claims a slot that
nobody claims (`claim`), when a thread leaves (`leave`), either of the two (`update`), and when
the flag of a slot is set that nobody claims (`setFlag`).
-/

namespace TrafficDatabase

variable {Thread Slot : Type*}

/-- At most one thread claims a slot, and the flag of a claimed slot is `found`. -/
structure Exclusive (signal : Slot → Bool) (found : Bool) (claimed : Thread → Option Slot) :
    Prop where
  flag : ∀ t slot, claimed t = some slot → signal slot = found
  unique : ∀ t u slot, claimed t = some slot → claimed u = some slot → t = u

namespace Exclusive

variable {signal : Slot → Bool} {found : Bool} {claimed : Thread → Option Slot} {t : Thread}
  {slot : Slot}

theorem of_none (h : ∀ t, claimed t = none) : Exclusive signal found claimed where
  flag := by
    intro t slot ht
    rw [h t] at ht
    cases ht
  unique := by
    intro t u slot ht
    rw [h t] at ht
    cases ht

/-- Nobody else claims the slot of a thread. -/
theorem alone (h : Exclusive signal found claimed) (ht : claimed t = some slot) :
    ∀ u, u ≠ t → claimed u ≠ some slot := by
  intro u hne hu
  exact hne (h.unique u t slot hu ht)

section Threads

variable [DecidableEq Thread]

theorem leave (h : Exclusive signal found claimed) (t : Thread) :
    Exclusive signal found (Function.update claimed t none) where
  flag := by
    intro u other hu
    by_cases heq : u = t
    · rw [heq, Function.update_self] at hu
      cases hu
    · rw [Function.update_of_ne heq] at hu
      exact h.flag u other hu
  unique := by
    intro u v other hu hv
    by_cases heq : u = t
    · rw [heq, Function.update_self] at hu
      cases hu
    · by_cases heq' : v = t
      · rw [heq', Function.update_self] at hv
        cases hv
      · rw [Function.update_of_ne heq] at hu
        rw [Function.update_of_ne heq'] at hv
        exact h.unique u v other hu hv

theorem claim (h : Exclusive signal found claimed) (hflag : signal slot = found)
    (hfree : ∀ u, u ≠ t → claimed u ≠ some slot) :
    Exclusive signal found (Function.update claimed t (some slot)) where
  flag := by
    intro u other hu
    by_cases heq : u = t
    · rw [heq, Function.update_self] at hu
      cases hu
      exact hflag
    · rw [Function.update_of_ne heq] at hu
      exact h.flag u other hu
  unique := by
    intro u v other hu hv
    by_cases heq : u = t
    · rw [heq, Function.update_self] at hu
      cases hu
      by_contra hne
      have hv' : v ≠ t := fun heq' => hne (heq.trans heq'.symm)
      rw [Function.update_of_ne hv'] at hv
      exact hfree v hv' hv
    · rw [Function.update_of_ne heq] at hu
      by_cases heq' : v = t
      · rw [heq', Function.update_self] at hv
        cases hv
        exact absurd hu (hfree u heq)
      · rw [Function.update_of_ne heq'] at hv
        exact h.unique u v other hu hv

/-- A thread leaves, or claims a slot that nobody else claims. -/
theorem update (h : Exclusive signal found claimed) {next : Option Slot}
    (hnext : ∀ slot, next = some slot → signal slot = found ∧ ∀ u, u ≠ t → claimed u ≠ some slot) :
    Exclusive signal found (Function.update claimed t next) := by
  cases next with
  | none => exact h.leave t
  | some slot => exact h.claim (hnext slot rfl).1 (hnext slot rfl).2

end Threads

theorem setFlag [DecidableEq Slot] (h : Exclusive signal found claimed)
    (hfree : ∀ u, claimed u ≠ some slot) (value : Bool) :
    Exclusive (Function.update signal slot value) found claimed where
  flag := by
    intro u other hu
    have hne : other ≠ slot := by
      rintro rfl
      exact hfree u hu
    rw [Function.update_of_ne hne]
    exact h.flag u other hu
  unique := h.unique

end Exclusive

end TrafficDatabase
