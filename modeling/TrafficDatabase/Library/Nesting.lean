import Mathlib.Data.List.Basic

/-!
# Nested brackets

An element of a list opens a bracket of a kind, closes one, or does neither.  A list is
nested if each bracket that is opened is closed by one of its kind, and what stands between
them is nested (`Nested`); a stack of the open kinds decides it (`nested_iff`).
-/

namespace TrafficDatabase

namespace Nesting

/-- What an element does to the brackets. -/
inductive Role (Kind : Type*)
  | opens (kind : Kind)
  | closes (kind : Kind)
  | plain

variable {α Kind : Type*} (role : α → Role Kind)

inductive Nested : List α → Prop
  | nil : Nested []
  | plain {a : α} {rest : List α} : role a = .plain → Nested rest → Nested (a :: rest)
  | group {a b : α} {kind : Kind} {inner rest : List α} : role a = .opens kind →
      role b = .closes kind → Nested inner → Nested rest → Nested (a :: (inner ++ b :: rest))

/-- The list closes the kinds of a stack, the first one first, and what it opens itself. -/
def Closes : List Kind → List α → Prop
  | stack, [] => stack = []
  | stack, a :: rest =>
      match role a with
      | .opens kind => Closes (kind :: stack) rest
      | .closes kind => ∃ outer, stack = kind :: outer ∧ Closes outer rest
      | .plain => Closes stack rest

variable {role} {stack : List Kind} {a : α} {kind : Kind} {rest before : List α}

theorem closes_opens (h : role a = .opens kind) :
    Closes role stack (a :: rest) ↔ Closes role (kind :: stack) rest := by
  rw [Closes, h]

theorem closes_closes (h : role a = .closes kind) :
    Closes role stack (a :: rest) ↔ ∃ outer, stack = kind :: outer ∧ Closes role outer rest := by
  rw [Closes, h]

theorem closes_plain (h : role a = .plain) :
    Closes role stack (a :: rest) ↔ Closes role stack rest := by
  rw [Closes, h]

/-- A nested list leaves the stack as it is. -/
theorem Nested.closes_append (h : Nested role before) :
    Closes role stack (before ++ rest) ↔ Closes role stack rest := by
  induction h generalizing stack rest with
  | nil => rfl
  | plain ha _ ih => rw [List.cons_append, closes_plain ha, ih]
  | group ha hb _ _ ihInner ihRest =>
      rw [List.cons_append, List.append_assoc, List.cons_append, closes_opens ha, ihInner,
        closes_closes hb]
      constructor
      · rintro ⟨outer, hstack, h⟩
        rw [(List.cons.inj hstack).2]
        exact ihRest.mp h
      · exact fun h => ⟨_, rfl, ihRest.mpr h⟩

variable (role) in
/-- What closes a stack: for each kind a nested list and an element that closes it. -/
inductive Parts : List Kind → List α → Prop
  | nested {rest : List α} : Nested role rest → Parts [] rest
  | next {kind : Kind} {stack : List Kind} {inner rest : List α} {b : α} : Nested role inner →
      role b = .closes kind → Parts stack rest → Parts (kind :: stack) (inner ++ b :: rest)

/-- What keeps lists nested may come first. -/
theorem Parts.prepend (h : Parts role stack rest) {before : List α}
    (hbefore : ∀ inner, Nested role inner → Nested role (before ++ inner)) :
    Parts role stack (before ++ rest) := by
  cases h with
  | nested hrest => exact .nested (hbefore _ hrest)
  | next hinner hb hrest =>
      rw [← List.append_assoc]
      exact .next (hbefore _ hinner) hb hrest

theorem Closes.parts (h : Closes role stack rest) : Parts role stack rest := by
  induction rest generalizing stack with
  | nil =>
      obtain rfl : stack = [] := h
      exact .nested .nil
  | cons a rest ih =>
      cases hrole : role a with
      | plain =>
          have hrest : Parts role stack ([a] ++ rest) :=
            (ih ((closes_plain hrole).mp h)).prepend fun _ hinner => .plain hrole hinner
          exact hrest
      | opens kind =>
          cases ih ((closes_opens hrole).mp h) with
          | @next _ _ inner tail b hinner hb htail =>
              have hgroup : Parts role stack (a :: (inner ++ [b]) ++ tail) :=
                htail.prepend fun last hlast => by
                  have hnested := Nested.group hrole hb hinner hlast
                  simpa using hnested
              simpa using hgroup
      | closes kind =>
          obtain ⟨outer, rfl, hrest⟩ := (closes_closes hrole).mp h
          exact Parts.next .nil hrole (ih hrest)

theorem nested_iff {list : List α} : Nested role list ↔ Closes role [] list := by
  constructor
  · intro h
    have hclosed : Closes role [] (list ++ []) := h.closes_append.mpr rfl
    rwa [List.append_nil] at hclosed
  · intro h
    cases h.parts with
    | nested hnested => exact hnested

end Nesting

end TrafficDatabase
