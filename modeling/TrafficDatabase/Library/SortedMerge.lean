import Mathlib.Data.List.Basic
import Mathlib.Order.Lattice

/-!
# Union and intersection of sorted lists

Two lists in ascending order are gone through side by side: the smaller head is
dropped or kept, equal heads are kept once.  `mem_intersect` and `mem_join` say
which elements remain, `count_intersect` and `count_join` how often.
-/

namespace TrafficDatabase

namespace SortedMerge

variable {α : Type*} [LinearOrder α]

/-- The turns of `intersect` with `a` at the head of the first list; `rest` is the
intersection with what follows it. -/
def intersectAt (a : α) (rest : List α → List α) : List α → List α
  | [] => []
  | b :: lb =>
      if a < b then rest (b :: lb)
      else if b < a then intersectAt a rest lb
      else a :: rest lb

def intersect : List α → List α → List α
  | [], _ => []
  | a :: la, lb => intersectAt a (intersect la) lb

/-- The turns of `join` with `a` at the head of the first list `a :: la`. -/
def joinAt (a : α) (la : List α) (rest : List α → List α) : List α → List α
  | [] => a :: la
  | b :: lb =>
      if a < b then a :: rest (b :: lb)
      else if b < a then b :: joinAt a la rest lb
      else a :: rest lb

def join : List α → List α → List α
  | [], lb => lb
  | a :: la, lb => joinAt a la (join la) lb

variable {a p : α} {la lb : List α}

theorem mem_intersectAt {rest : List α → List α} (hla : (a :: la).Pairwise (· ≤ ·))
    (hrest : ∀ lb : List α, lb.Pairwise (· ≤ ·) → (p ∈ rest lb ↔ p ∈ la ∧ p ∈ lb))
    (hlb : lb.Pairwise (· ≤ ·)) : p ∈ intersectAt a rest lb ↔ p ∈ a :: la ∧ p ∈ lb := by
  induction lb with
  | nil => simp [intersectAt]
  | cons b lb ih =>
      have hfirst : ∀ q ∈ la, a ≤ q := (List.pairwise_cons.mp hla).1
      obtain ⟨hsecond, htail⟩ := List.pairwise_cons.mp hlb
      unfold intersectAt
      split_ifs with hlt hgt
      · -- the head of the first list is below all of the second one
        rw [hrest (b :: lb) hlb, List.mem_cons, List.mem_cons]
        constructor
        · exact fun ⟨hp, hmem⟩ => ⟨.inr hp, hmem⟩
        · rintro ⟨rfl | hp, hmem⟩
          · rcases hmem with rfl | hmem
            · exact absurd hlt (lt_irrefl _)
            · exact absurd (hlt.trans_le (hsecond _ hmem)) (lt_irrefl _)
          · exact ⟨hp, hmem⟩
      · rw [ih htail, List.mem_cons, List.mem_cons]
        constructor
        · exact fun ⟨hp, hmem⟩ => ⟨hp, .inr hmem⟩
        · rintro ⟨hp, rfl | hmem⟩
          · rcases hp with rfl | hp
            · exact absurd hgt (lt_irrefl _)
            · exact absurd (hgt.trans_le (hfirst _ hp)) (lt_irrefl _)
          · exact ⟨hp, hmem⟩
      · obtain rfl : a = b := le_antisymm (not_lt.mp hgt) (not_lt.mp hlt)
        rw [List.mem_cons, hrest lb htail, List.mem_cons, List.mem_cons]
        constructor
        · rintro (rfl | ⟨hp, hmem⟩)
          · exact ⟨.inl rfl, .inl rfl⟩
          · exact ⟨.inr hp, .inr hmem⟩
        · rintro ⟨rfl | hp, hq⟩
          · exact .inl rfl
          · rcases hq with rfl | hmem
            · exact .inl rfl
            · exact .inr ⟨hp, hmem⟩

theorem mem_intersect (hla : la.Pairwise (· ≤ ·)) (hlb : lb.Pairwise (· ≤ ·)) :
    p ∈ intersect la lb ↔ p ∈ la ∧ p ∈ lb := by
  induction la generalizing lb with
  | nil => simp [intersect]
  | cons a la ih =>
      exact mem_intersectAt hla (fun _ h => ih (List.pairwise_cons.mp hla).2 h) hlb

theorem mem_joinAt {rest : List α → List α}
    (hrest : ∀ lb : List α, p ∈ rest lb ↔ p ∈ la ∨ p ∈ lb) :
    p ∈ joinAt a la rest lb ↔ p ∈ a :: la ∨ p ∈ lb := by
  induction lb with
  | nil => simp [joinAt]
  | cons b lb ih =>
      unfold joinAt
      split_ifs with hlt hgt
      · rw [List.mem_cons, hrest, ← or_assoc, ← List.mem_cons]
      · rw [List.mem_cons, ih, @List.mem_cons _ b]
        exact or_left_comm
      · obtain rfl : a = b := le_antisymm (not_lt.mp hgt) (not_lt.mp hlt)
        rw [List.mem_cons, hrest, List.mem_cons, List.mem_cons]
        tauto

theorem mem_join : p ∈ join la lb ↔ p ∈ la ∨ p ∈ lb := by
  induction la generalizing lb with
  | nil => simp [join]
  | cons a la ih => exact mem_joinAt fun _ => ih

/-! ## Order and multiplicity -/

theorem intersectAt_sublist {rest : List α → List α}
    (hrest : ∀ lb : List α, (rest lb).Sublist la) : (intersectAt a rest lb).Sublist (a :: la) := by
  induction lb with
  | nil => exact List.nil_sublist _
  | cons b lb ih =>
      unfold intersectAt
      split_ifs
      · exact (hrest _).cons a
      · exact ih
      · exact (hrest lb).cons_cons a

theorem intersect_sublist (la lb : List α) : (intersect la lb).Sublist la := by
  induction la generalizing lb with
  | nil => exact List.nil_sublist _
  | cons a la ih => exact intersectAt_sublist ih

theorem count_eq_zero_of_lt (hlt : p < a) (hla : (a :: la).Pairwise (· ≤ ·)) :
    (a :: la).count p = 0 := by
  refine List.count_eq_zero.mpr fun hmem => ?_
  rcases List.mem_cons.mp hmem with rfl | hmem
  · exact lt_irrefl _ hlt
  · exact not_le.mpr hlt ((List.pairwise_cons.mp hla).1 p hmem)

theorem count_intersectAt {rest : List α → List α} (hla : (a :: la).Pairwise (· ≤ ·))
    (hrest : ∀ lb : List α, lb.Pairwise (· ≤ ·) →
      (rest lb).count p = min (la.count p) (lb.count p))
    (hlb : lb.Pairwise (· ≤ ·)) :
    (intersectAt a rest lb).count p = min ((a :: la).count p) (lb.count p) := by
  induction lb with
  | nil => simp [intersectAt]
  | cons b lb ih =>
      have htail := (List.pairwise_cons.mp hlb).2
      unfold intersectAt
      split_ifs with hlt hgt
      · rw [hrest (b :: lb) hlb]
        by_cases hsame : p = a
        · -- no element of the second list is the dropped one
          rw [count_eq_zero_of_lt (hsame ▸ hlt) hlb, Nat.min_zero, Nat.min_zero]
        · rw [List.count_cons_of_ne (Ne.symm hsame)]
      · rw [ih htail]
        by_cases hsame : p = b
        · rw [count_eq_zero_of_lt (hsame ▸ hgt) hla, Nat.zero_min, Nat.zero_min]
        · rw [List.count_cons_of_ne (Ne.symm hsame)]
      · obtain rfl : a = b := le_antisymm (not_lt.mp hgt) (not_lt.mp hlt)
        rw [List.count_cons, List.count_cons, List.count_cons, hrest lb htail,
          Nat.add_min_add_right]

theorem count_intersect (hla : la.Pairwise (· ≤ ·)) (hlb : lb.Pairwise (· ≤ ·)) :
    (intersect la lb).count p = min (la.count p) (lb.count p) := by
  induction la generalizing lb with
  | nil => simp [intersect]
  | cons a la ih =>
      exact count_intersectAt hla (fun _ h => ih (List.pairwise_cons.mp hla).2 h) hlb

theorem pairwise_joinAt {rest : List α → List α} (hla : (a :: la).Pairwise (· ≤ ·))
    (hrest : ∀ lb : List α, lb.Pairwise (· ≤ ·) → (rest lb).Pairwise (· ≤ ·))
    (hmem : ∀ (lb : List α) (q : α), q ∈ rest lb ↔ q ∈ la ∨ q ∈ lb)
    (hlb : lb.Pairwise (· ≤ ·)) : (joinAt a la rest lb).Pairwise (· ≤ ·) := by
  have hfirst : ∀ q ∈ la, a ≤ q := (List.pairwise_cons.mp hla).1
  induction lb with
  | nil => exact hla
  | cons b lb ih =>
      obtain ⟨hsecond, htail⟩ := List.pairwise_cons.mp hlb
      unfold joinAt
      split_ifs with hlt hgt
      · refine List.pairwise_cons.mpr ⟨fun q hq => ?_, hrest (b :: lb) hlb⟩
        rcases (hmem _ _).mp hq with hq | hq
        · exact hfirst q hq
        · rcases List.mem_cons.mp hq with rfl | hq
          · exact hlt.le
          · exact hlt.le.trans (hsecond q hq)
      · refine List.pairwise_cons.mpr ⟨fun q hq => ?_, ih htail⟩
        rcases (mem_joinAt (hmem · q)).mp hq with hq | hq
        · rcases List.mem_cons.mp hq with rfl | hq
          · exact hgt.le
          · exact hgt.le.trans (hfirst q hq)
        · exact hsecond q hq
      · obtain rfl : a = b := le_antisymm (not_lt.mp hgt) (not_lt.mp hlt)
        refine List.pairwise_cons.mpr ⟨fun q hq => ?_, hrest lb htail⟩
        exact ((hmem _ _).mp hq).elim (hfirst q) (hsecond q)

theorem pairwise_join (hla : la.Pairwise (· ≤ ·)) (hlb : lb.Pairwise (· ≤ ·)) :
    (join la lb).Pairwise (· ≤ ·) := by
  induction la generalizing lb with
  | nil => exact hlb
  | cons a la ih =>
      exact pairwise_joinAt hla (fun _ h => ih (List.pairwise_cons.mp hla).2 h)
        (fun _ _ => mem_join) hlb

theorem count_joinAt {rest : List α → List α} (hla : (a :: la).Pairwise (· ≤ ·))
    (hrest : ∀ lb : List α, lb.Pairwise (· ≤ ·) →
      (rest lb).count p = max (la.count p) (lb.count p))
    (hlb : lb.Pairwise (· ≤ ·)) :
    (joinAt a la rest lb).count p = max ((a :: la).count p) (lb.count p) := by
  induction lb with
  | nil => simp [joinAt]
  | cons b lb ih =>
      have htail := (List.pairwise_cons.mp hlb).2
      unfold joinAt
      split_ifs with hlt hgt
      · rw [List.count_cons, hrest (b :: lb) hlb, List.count_cons (l := la)]
        by_cases hsame : p = a
        · rw [count_eq_zero_of_lt (hsame ▸ hlt) hlb, Nat.max_zero, Nat.max_zero]
        · simp [Ne.symm hsame]
      · rw [List.count_cons, ih htail, List.count_cons (l := lb)]
        by_cases hsame : p = b
        · rw [count_eq_zero_of_lt (hsame ▸ hgt) hla, Nat.zero_max, Nat.zero_max]
        · simp [Ne.symm hsame]
      · obtain rfl : a = b := le_antisymm (not_lt.mp hgt) (not_lt.mp hlt)
        rw [List.count_cons, List.count_cons, List.count_cons, hrest lb htail,
          Nat.add_max_add_right]

theorem count_join (hla : la.Pairwise (· ≤ ·)) (hlb : lb.Pairwise (· ≤ ·)) :
    (join la lb).count p = max (la.count p) (lb.count p) := by
  induction la generalizing lb with
  | nil => simp [join]
  | cons a la ih =>
      exact count_joinAt hla (fun _ h => ih (List.pairwise_cons.mp hla).2 h) hlb

end SortedMerge

end TrafficDatabase
