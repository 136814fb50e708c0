import Mathlib.Data.Nat.ModEq
import Mathlib.Data.Nat.Basic
import Mathlib.Tactic.Ring

/-!
# Positions known only by their residue

A position on an endless tape is kept as its residue modulo the length of a
cyclic store.  Two facts recover what the residues hide: positions less than one
lap apart are equal when their residues are (`eq_of_mod_eq`), and the usual
two-case comparison of residues decides whether a position has left a window
(`outsideWindow_iff`), as long as it is less than one lap past the window's start.
The second half is about windows whose left end is computed from the right one.
-/

namespace TrafficDatabase

/-- Less than a lap apart, residues tell positions apart. -/
theorem eq_of_mod_eq {modulus first second : ℕ} (h : first % modulus = second % modulus)
    (hfirst : first < second + modulus) (hsecond : second < first + modulus) : first = second := by
  rcases Nat.le_total first second with hle | hle
  · have hdvd : modulus ∣ second - first := (Nat.modEq_iff_dvd' hle).mp h
    have := Nat.eq_zero_of_dvd_of_lt hdvd (by omega)
    omega
  · have hdvd : modulus ∣ first - second := (Nat.modEq_iff_dvd' hle).mp h.symm
    have := Nat.eq_zero_of_dvd_of_lt hdvd (by omega)
    omega

/-- The residue of a position less than one lap after `base`. -/
theorem add_mod_of_lt {modulus base offset : ℕ} (h : offset < modulus) :
    (base + offset) % modulus =
      if base % modulus + offset < modulus then base % modulus + offset
      else base % modulus + offset - modulus := by
  have hbase : base % modulus < modulus := Nat.mod_lt _ (by omega)
  rw [Nat.add_mod, Nat.mod_eq_of_lt h]
  split
  · rename_i hlt
    exact Nat.mod_eq_of_lt hlt
  · rw [Nat.mod_eq_sub_mod (by omega), Nat.mod_eq_of_lt (by omega)]

/-- `value` is not on the cyclic interval from `left` to `right`, both ends included. -/
def OutsideWindow (left right value : ℕ) : Prop :=
  (left < right ∧ (right < value ∨ value < left)) ∨
    (right < left ∧ right < value ∧ value < left)

instance (left right value : ℕ) : Decidable (OutsideWindow left right value) := by
  unfold OutsideWindow; infer_instance

/-- The comparison of residues is exact for a position less than one lap after
the start of the window. -/
theorem outsideWindow_iff {modulus base len offset : ℕ} (hpos : 0 < len) (hlen : len < modulus)
    (hoffset : offset < modulus) :
    OutsideWindow (base % modulus) ((base + len) % modulus) ((base + offset) % modulus) ↔
      len < offset := by
  have hbase : base % modulus < modulus := Nat.mod_lt _ (by omega)
  rw [OutsideWindow, add_mod_of_lt hlen, add_mod_of_lt hoffset]
  split_ifs <;> omega

/-- `value` is not on the cyclic interval from `left` up to `right`, which is not part of it. -/
def OutsideHalfOpen (left right value : ℕ) : Prop :=
  (left < right ∧ (right ≤ value ∨ value < left)) ∨
    (right < left ∧ right ≤ value ∧ value < left)

instance (left right value : ℕ) : Decidable (OutsideHalfOpen left right value) := by
  unfold OutsideHalfOpen; infer_instance

theorem outsideHalfOpen_iff {modulus base len offset : ℕ} (hpos : 0 < len) (hlen : len < modulus)
    (hoffset : offset < modulus) :
    OutsideHalfOpen (base % modulus) ((base + len) % modulus) ((base + offset) % modulus) ↔
      len ≤ offset := by
  have hbase : base % modulus < modulus := Nat.mod_lt _ (by omega)
  rw [OutsideHalfOpen, add_mod_of_lt hlen, add_mod_of_lt hoffset]
  split_ifs <;> omega

/-- Whatever lap the position is on, a residue outside the window is not one of
the window's own positions. -/
theorem not_mem_of_outsideWindow {modulus base len offset : ℕ} (hpos : 0 < len)
    (hlen : len < modulus)
    (h : OutsideWindow (base % modulus) ((base + len) % modulus) ((base + offset) % modulus)) :
    len < offset := by
  by_cases hoffset : offset < modulus
  · exact (outsideWindow_iff hpos hlen hoffset).mp h
  · omega

/-! ## Windows known by their right end -/

section

variable {modulus len right value : ℕ}

/-- The residue `len` before that of `right` is that of a position on the lap after. -/
theorem leftBarrier_mod (hlen : len ≤ modulus) :
    (right % modulus + modulus - len) % modulus = (right + (modulus - len)) % modulus := by
  rw [Nat.add_sub_assoc hlen, Nat.mod_add_mod]

/-- The right end of the window, counted from its left end. -/
theorem rightBarrier_mod (hlen : len ≤ modulus) :
    right % modulus = (right + (modulus - len) + len) % modulus := by
  rw [Nat.add_assoc, Nat.sub_add_cancel hlen, Nat.add_mod_right]

/-- A position that is not before the window, counted from its left end. -/
theorem value_mod (hlen : len ≤ modulus) (hfrom : right ≤ value + len) :
    value % modulus = (right + (modulus - len) + (value + len - right)) % modulus := by
  have hsum : right + (modulus - len) + (value + len - right) = value + modulus := by omega
  rw [hsum, Nat.add_mod_right]

/-- A residue outside the window is not one of the window's own positions. -/
theorem lt_of_outsideWindow (hpos : 0 < len) (hlen : len < modulus) (hfrom : right ≤ value + len)
    (h : OutsideWindow ((right % modulus + modulus - len) % modulus) (right % modulus)
      (value % modulus)) : right < value := by
  rw [leftBarrier_mod hlen.le, @rightBarrier_mod modulus len right hlen.le,
    value_mod hlen.le hfrom] at h
  have := not_mem_of_outsideWindow hpos hlen h
  omega

/-- From the left end of the window on and for one lap, the comparison of residues tells
whether a position is past the right end. -/
theorem outsideWindow_iff_lt (hpos : 0 < len) (hlen : len < modulus) (hfrom : right ≤ value + len)
    (hto : value + len < right + modulus) :
    OutsideWindow ((right % modulus + modulus - len) % modulus) (right % modulus)
      (value % modulus) ↔ right < value := by
  rw [leftBarrier_mod hlen.le, @rightBarrier_mod modulus len right hlen.le, value_mod hlen.le hfrom,
    outsideWindow_iff hpos hlen (by omega)]
  omega

theorem outsideHalfOpen_iff_le (hpos : 0 < len) (hlen : len < modulus)
    (hfrom : right ≤ value + len) (hto : value + len < right + modulus) :
    OutsideHalfOpen ((right % modulus + modulus - len) % modulus) (right % modulus)
      (value % modulus) ↔ right ≤ value := by
  rw [leftBarrier_mod hlen.le, @rightBarrier_mod modulus len right hlen.le, value_mod hlen.le hfrom,
    outsideHalfOpen_iff hpos hlen (by omega)]
  omega

end

end TrafficDatabase
