import Mathlib.Data.List.Basic
import Mathlib.Order.Lattice
import Mathlib.Data.Nat.Basic

/-!
# Binary search for a run of equal keys

`lowerBound` halves an interval of indices until it has found the first index a
predicate fails at; `equalRange` looks up the first index whose key is not below
the one searched for, and goes on from there as long as the keys are equal to it.
On keys in ascending order it finds exactly the indices with that key, in order
(`equalRange_eq_filter`).
-/

namespace TrafficDatabase

namespace BinarySearch

/-- The loop over the interval from `left` to `right`; as many turns as the
interval is long are enough. -/
def lowerBound (below : ℕ → Bool) : ℕ → ℕ → ℕ → ℕ
  | 0, left, _ => left
  | fuel + 1, left, right =>
      if left < right then
        if below (left + (right - left) / 2) then
          lowerBound below fuel (left + (right - left) / 2 + 1) right
        else lowerBound below fuel left (left + (right - left) / 2)
      else left

/-- The indices from `left` on, up to the first one that does not match. -/
def collect (isMatch : ℕ → Bool) : ℕ → ℕ → List ℕ
  | 0, _ => []
  | count + 1, left => if isMatch left then left :: collect isMatch count (left + 1) else []

/-- `bound` is where `below` ends between `left` and `right`. -/
structure IsBound (below : ℕ → Bool) (left right bound : ℕ) : Prop where
  left_le : left ≤ bound
  le_right : bound ≤ right
  holds : ∀ i, left ≤ i → i < bound → below i = true
  fails : ∀ i, bound ≤ i → i < right → below i = false

theorem isBound_lowerBound {below : ℕ → Bool} {fuel left right : ℕ} (hle : left ≤ right)
    (hfuel : right - left ≤ fuel)
    (hanti : ∀ i j, i ≤ j → j < right → below j = true → below i = true) :
    IsBound below left right (lowerBound below fuel left right) := by
  induction fuel generalizing left right with
  | zero =>
      obtain rfl : left = right := by omega
      unfold lowerBound
      exact ⟨le_rfl, le_rfl, by omega, by omega⟩
  | succ fuel ih =>
      unfold lowerBound
      split_ifs with hlt hbelow
      · have hmid : left + (right - left) / 2 < right := by omega
        have hrest := @ih (left + (right - left) / 2 + 1) right (by omega)
          (by omega) hanti
        refine ⟨by have := hrest.left_le; omega, hrest.le_right, ?_, hrest.fails⟩
        intro i hleft hbound
        by_cases hi : i ≤ left + (right - left) / 2
        · exact hanti i _ hi hmid hbelow
        · exact hrest.holds i (by omega) hbound
      · have hrest := @ih left (left + (right - left) / 2) (by omega)
          (by omega) (fun i j hij hj => hanti i j hij (by omega))
        refine ⟨hrest.left_le, by have := hrest.le_right; omega, hrest.holds, ?_⟩
        intro i hbound hright
        by_cases hi : i < left + (right - left) / 2
        · exact hrest.fails i hbound hi
        · rw [← Bool.not_eq_true]
          exact fun habsurd => hbelow (hanti _ i (by omega) hright habsurd)
      · obtain rfl : left = right := by omega
        exact ⟨le_rfl, le_rfl, by omega, by omega⟩

theorem lowerBound_le (below : ℕ → Bool) {fuel left right : ℕ} (h : left ≤ right) :
    lowerBound below fuel left right ≤ right := by
  induction fuel generalizing left right with
  | zero => exact h
  | succ fuel ih =>
      unfold lowerBound
      split_ifs with hlt hbelow
      · exact ih (by omega)
      · exact (ih (by omega)).trans (by omega)
      · exact h

theorem lowerBound_congr {below other : ℕ → Bool} {fuel left right : ℕ}
    (h : ∀ i < right, below i = other i) :
    lowerBound below fuel left right = lowerBound other fuel left right := by
  induction fuel generalizing left right with
  | zero => rfl
  | succ fuel ih =>
      unfold lowerBound
      by_cases hlt : left < right
      · rw [if_pos hlt, if_pos hlt, h _ (by omega), ih h,
          ih fun i hi => h i (by omega)]
      · rw [if_neg hlt, if_neg hlt]

theorem collect_congr {isMatch other : ℕ → Bool} {count left : ℕ}
    (h : ∀ i < left + count, isMatch i = other i) :
    collect isMatch count left = collect other count left := by
  induction count generalizing left with
  | zero => rfl
  | succ count ih =>
      unfold collect
      rw [h left (by omega), ih fun i hi => h i (by omega)]

theorem lt_of_mem_collect {isMatch : ℕ → Bool} {count left i : ℕ}
    (h : i ∈ collect isMatch count left) : i < left + count := by
  induction count generalizing left with
  | zero => cases h
  | succ count ih =>
      unfold collect at h
      split_ifs at h
      · rcases List.mem_cons.mp h with rfl | hmem
        · omega
        · have := ih hmem
          omega
      · cases h

/-- Where the indices that match come first, they are the ones collected. -/
theorem collect_eq_filter_of_initial {isMatch : ℕ → Bool} {count left : ℕ}
    (hinitial : ∀ i j, left ≤ i → i ≤ j → j < left + count → isMatch j = true →
      isMatch i = true) :
    collect isMatch count left = (List.range' left count).filter isMatch := by
  induction count generalizing left with
  | zero => rfl
  | succ count ih =>
      unfold collect
      rw [List.range'_succ]
      by_cases hhead : isMatch left = true
      · rw [if_pos hhead, List.filter_cons, if_pos hhead,
          ih fun i j hi hij hj => hinitial i j (by omega) hij (by omega)]
      · have hnone : (List.range' (left + 1) count).filter isMatch = [] := by
          rw [List.filter_eq_nil_iff]
          intro i hi hmatch
          obtain ⟨hleft, hlt⟩ := List.mem_range'_1.mp hi
          exact hhead (hinitial left i le_rfl (by omega) (by omega) hmatch)
        rw [if_neg hhead, List.filter_cons, if_neg hhead, hnone]

section Keys

variable {κ : Type*} [LinearOrder κ] (keyAt : ℕ → κ) (count : ℕ) (key : κ)

/-- The first index whose key is not below `key`, and those behind it whose key is `key`. -/
def equalRange : List ℕ :=
  let left := lowerBound (fun i => decide (keyAt i < key)) count 0 count
  collect (fun i => decide (keyAt i = key)) (count - left) left

variable {keyAt count key}

/-- Below the bound no key matches that is not below `key`, and behind it each is. -/
theorem isBound_keys (hmono : ∀ i j, i ≤ j → j < count → keyAt i ≤ keyAt j) :
    IsBound (fun i => decide (keyAt i < key)) 0 count
      (lowerBound (fun i => decide (keyAt i < key)) count 0 count) := by
  apply isBound_lowerBound (Nat.zero_le _) (Nat.sub_le ..)
  intro i j hij hj hbelow
  rw [decide_eq_true_eq] at hbelow ⊢
  exact (hmono i j hij hj).trans_lt hbelow

/-- Behind the bound the indices that match are collected; on ascending keys these
are all indices of a key from `key` on that match. -/
theorem collect_lowerBound {isMatch wanted : ℕ → Bool}
    (hmono : ∀ i j, i ≤ j → j < count → keyAt i ≤ keyAt j)
    (hwanted : ∀ i < count, wanted i = (decide (key ≤ keyAt i) && isMatch i))
    (hinitial : ∀ i j, i ≤ j → j < count → key ≤ keyAt i → isMatch j = true → isMatch i = true) :
    collect isMatch (count - lowerBound (fun i => decide (keyAt i < key)) count 0 count)
        (lowerBound (fun i => decide (keyAt i < key)) count 0 count) =
      (List.range count).filter wanted := by
  have hbound := @isBound_keys _ _ keyAt count key hmono
  generalize lowerBound (fun i => decide (keyAt i < key)) count 0 count = left at hbound ⊢
  have hle := hbound.le_right
  have hkey : ∀ i, left ≤ i → i < count → key ≤ keyAt i := by
    intro i hi hlt
    have hnot := hbound.fails i hi hlt
    rw [decide_eq_false_iff_not] at hnot
    exact not_lt.mp hnot
  have hsplit : List.range count = List.range' 0 left ++ List.range' left (count - left) := by
    have happend := @List.range'_append_1 0 left (count - left)
    rw [Nat.zero_add, Nat.add_sub_cancel' hle] at happend
    rw [List.range_eq_range', happend]
  have hbelow : (List.range' 0 left).filter wanted = [] := by
    rw [List.filter_eq_nil_iff]
    intro i hi
    have hi' : i < left := by simpa using hi
    have hlt := hbound.holds i (Nat.zero_le _) hi'
    rw [decide_eq_true_eq] at hlt
    rw [hwanted i (by omega), decide_eq_false (not_le.mpr hlt), Bool.false_and]
    exact Bool.false_ne_true
  have hbehind : (List.range' left (count - left)).filter wanted =
      (List.range' left (count - left)).filter isMatch := by
    refine List.filter_congr fun i hi => ?_
    obtain ⟨hleft, hlt⟩ := List.mem_range'_1.mp hi
    rw [hwanted i (by omega), decide_eq_true (hkey i hleft (by omega)), Bool.true_and]
  rw [hsplit, List.filter_append, hbelow, List.nil_append, hbehind]
  apply collect_eq_filter_of_initial
  intro i j hi hij hj hmatch
  exact hinitial i j hij (by omega) (hkey i hi (by omega)) hmatch

theorem equalRange_eq_filter (hmono : ∀ i j, i ≤ j → j < count → keyAt i ≤ keyAt j) :
    equalRange keyAt count key =
      (List.range count).filter fun i => decide (keyAt i = key) := by
  apply collect_lowerBound hmono
  · intro i _
    rw [Bool.eq_iff_iff, Bool.and_eq_true, decide_eq_true_eq, decide_eq_true_eq]
    exact ⟨fun h => ⟨h.ge, h⟩, fun h => h.2⟩
  · intro i j hij hj hle hmatch
    rw [decide_eq_true_eq] at hmatch ⊢
    exact le_antisymm (hmatch ▸ hmono i j hij hj) hle

end Keys

end BinarySearch

end TrafficDatabase
