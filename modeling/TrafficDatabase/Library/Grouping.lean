import Mathlib.Data.Finset.Card
import Mathlib.Data.Finset.Sort
import Mathlib.Data.List.Basic
import Mathlib.Order.Basic

/-!
# Runs of equal keys

A list of items whose keys do not decrease falls into runs of equal keys.  `groups` keeps of
each run its first item and a table with the last item for each slot.  The first items then
have strictly increasing keys, one for each key of the list.
-/

namespace Grouping

/-- A run: the item it began with, and the item that was put last into each slot. -/
structure Group (ι δ : Type*) where
  first : ι
  last : δ → Option ι

variable {ι κ δ : Type*}

section Add

variable [DecidableEq κ] [DecidableEq δ] (key : ι → κ) (slot : ι → δ)

def Group.put (group : Group ι δ) (item : ι) : Group ι δ :=
  { group with last := Function.update group.last (slot item) (some item) }

def Group.start (item : ι) : Group ι δ :=
  Group.put slot { first := item, last := fun _ => none } item

/-- An item joins the last run, or begins a new one. -/
def add (groups : List (Group ι δ)) (item : ι) : List (Group ι δ) :=
  match groups.getLast? with
  | none => [Group.start slot item]
  | some group =>
    if key item = key group.first then groups.dropLast ++ [group.put slot item]
    else groups ++ [Group.start slot item]

def groups (items : List ι) : List (Group ι δ) := items.foldl (add key slot) []

@[simp] theorem add_nil (item : ι) : add key slot [] item = [Group.start slot item] := rfl

theorem add_concat_of_eq {front : List (Group ι δ)} {group : Group ι δ} {item : ι}
    (heq : key item = key group.first) :
    add key slot (front ++ [group]) item = front ++ [group.put slot item] := by
  simp [add, heq]

theorem add_concat_of_ne {front : List (Group ι δ)} {group : Group ι δ} {item : ι}
    (hne : key item ≠ key group.first) :
    add key slot (front ++ [group]) item = front ++ [group] ++ [Group.start slot item] := by
  simp [add, hne]

theorem groups_concat (items : List ι) (item : ι) :
    groups key slot (items ++ [item]) = add key slot (groups key slot items) item := by
  simp [groups]

end Add

section Order

variable [LinearOrder κ] [DecidableEq δ] (key : ι → κ) (slot : ι → δ)

/-- What the runs of a list of items are. -/
structure Grouped (items : List ι) (groups : List (Group ι δ)) : Prop where
  increasing : groups.Pairwise fun group other => key group.first < key other.first
  first_mem : ∀ group ∈ groups, group.first ∈ items
  covered : ∀ item ∈ items, ∃ group ∈ groups, key group.first = key item
  last_eq : ∀ group ∈ groups, ∀ d, group.last d =
    (items.filter fun item => key item = key group.first ∧ slot item = d).getLast?

variable {key slot} {items : List ι} {front : List (Group ι δ)} {group : Group ι δ} {item : ι}

/-- The last run has the greatest key. -/
theorem Grouped.lt_of_mem_front (h : Grouped key slot items (front ++ [group])) {other : Group ι δ}
    (hother : other ∈ front) : key other.first < key group.first := by
  have hpairs := List.pairwise_append.mp h.increasing
  exact hpairs.2.2 other hother group (List.mem_singleton_self group)

theorem getLast?_filter_concat_of_not {p : ι → Bool} (hp : p item = false) :
    ((items ++ [item]).filter p).getLast? = (items.filter p).getLast? := by
  simp [hp]

theorem getLast?_filter_concat_of_pos {p : ι → Bool} (hp : p item = true) :
    ((items ++ [item]).filter p).getLast? = some item := by
  simp [hp]

theorem Grouped.start (h : ∀ other ∈ items, key other < key item) (d : δ) :
    (Group.start slot item).last d =
      ((items ++ [item]).filter fun other => key other = key item ∧ slot other = d).getLast? := by
  by_cases hslot : slot item = d
  · rw [getLast?_filter_concat_of_pos (by simp [hslot]), ← hslot]
    exact Function.update_self ..
  · rw [getLast?_filter_concat_of_not (by simp [hslot])]
    have hnone : (items.filter fun other => key other = key item ∧ slot other = d) = [] := by
      rw [List.filter_eq_nil_iff]
      intro other hother
      simp [(h other hother).ne]
    rw [hnone]
    exact Function.update_of_ne (Ne.symm hslot) ..

/-- The item has the key of the last run. -/
theorem Grouped.join (h : Grouped key slot items (front ++ [group]))
    (heq : key item = key group.first) :
    Grouped key slot (items ++ [item]) (front ++ [group.put slot item]) where
  increasing := by
    have hpairs := List.pairwise_append.mp h.increasing
    refine List.pairwise_append.mpr ⟨hpairs.1, List.pairwise_singleton _ _, ?_⟩
    intro other hother last hlast
    rw [List.mem_singleton.mp hlast]
    exact h.lt_of_mem_front hother
  first_mem := by
    intro other hother
    apply List.mem_append_left
    rcases List.mem_append.mp hother with hfront | hlast
    · exact h.first_mem other (List.mem_append_left _ hfront)
    · rw [List.mem_singleton.mp hlast]
      exact h.first_mem group (by simp)
  covered := by
    intro other hother
    rcases List.mem_append.mp hother with hold | hnew
    · obtain ⟨run, hrun, hkey⟩ := h.covered other hold
      rcases List.mem_append.mp hrun with hfront | hlast
      · exact ⟨run, List.mem_append_left _ hfront, hkey⟩
      · rw [List.mem_singleton.mp hlast] at hkey
        exact ⟨group.put slot item, by simp, hkey⟩
    · rw [List.mem_singleton.mp hnew]
      exact ⟨group.put slot item, by simp, heq.symm⟩
  last_eq := by
    intro other hother d
    rcases List.mem_append.mp hother with hfront | hlast
    · have hne := (h.lt_of_mem_front hfront).ne'
      rw [getLast?_filter_concat_of_not (by simp [heq, hne])]
      exact h.last_eq other (List.mem_append_left _ hfront) d
    · rw [List.mem_singleton.mp hlast]
      by_cases hslot : slot item = d
      · rw [getLast?_filter_concat_of_pos (by simp [heq, hslot, Group.put]), ← hslot]
        exact Function.update_self ..
      · rw [getLast?_filter_concat_of_not (by simp [hslot])]
        calc (group.put slot item).last d = group.last d :=
              Function.update_of_ne (Ne.symm hslot) ..
          _ = _ := h.last_eq group (by simp) d

/-- The item has a key that no run has. -/
theorem Grouped.begin {runs : List (Group ι δ)} (h : Grouped key slot items runs)
    (hlt : ∀ run ∈ runs, key run.first < key item) :
    Grouped key slot (items ++ [item]) (runs ++ [Group.start slot item]) where
  increasing := by
    refine List.pairwise_append.mpr ⟨h.increasing, List.pairwise_singleton _ _, ?_⟩
    intro run hrun last hlast
    rw [List.mem_singleton.mp hlast]
    exact hlt run hrun
  first_mem := by
    intro run hrun
    rcases List.mem_append.mp hrun with hold | hnew
    · exact List.mem_append_left _ (h.first_mem run hold)
    · rw [List.mem_singleton.mp hnew]
      exact List.mem_append_right _ (List.mem_singleton_self item)
  covered := by
    intro other hother
    rcases List.mem_append.mp hother with hold | hnew
    · obtain ⟨run, hrun, hkey⟩ := h.covered other hold
      exact ⟨run, List.mem_append_left _ hrun, hkey⟩
    · rw [List.mem_singleton.mp hnew]
      exact ⟨Group.start slot item, by simp, rfl⟩
  last_eq := by
    intro run hrun d
    rcases List.mem_append.mp hrun with hold | hnew
    · have hne := (hlt run hold).ne'
      rw [getLast?_filter_concat_of_not (by simp [hne])]
      exact h.last_eq run hold d
    · rw [List.mem_singleton.mp hnew]
      apply Grouped.start
      intro other hother
      obtain ⟨run', hrun', hkey⟩ := h.covered other hother
      exact hkey ▸ hlt run' hrun'

theorem grouped_groups (items : List ι) (hsorted : items.Pairwise fun i j => key i ≤ key j) :
    Grouped key slot items (groups key slot items) := by
  induction items using List.reverseRecOn with
  | nil => exact ⟨List.Pairwise.nil, by simp [groups], by simp, by simp [groups]⟩
  | append_singleton items item ih =>
    obtain ⟨hfront, -, hle⟩ := List.pairwise_append.mp hsorted
    have h := ih hfront
    have hlast : ∀ run ∈ groups key slot items, key run.first ≤ key item :=
      fun run hrun => hle _ (h.first_mem run hrun) item (List.mem_singleton_self item)
    rw [groups_concat]
    rcases List.eq_nil_or_concat (groups key slot items) with hnil | ⟨front, group, hconcat⟩
    · rw [hnil] at h ⊢
      exact h.begin (by simp)
    · rw [hconcat, List.concat_eq_append] at h ⊢
      rw [hconcat, List.concat_eq_append] at hlast
      by_cases heq : key item = key group.first
      · rw [add_concat_of_eq key slot heq]
        exact h.join heq
      · rw [add_concat_of_ne key slot heq]
        -- all runs come before the last one, and its key is another one
        have hgroup : key group.first < key item :=
          lt_of_le_of_ne (hlast group (by simp)) (Ne.symm heq)
        apply h.begin
        intro run hrun
        rcases List.mem_append.mp hrun with hold | hnew
        · exact (h.lt_of_mem_front hold).trans hgroup
        · exact List.mem_singleton.mp hnew ▸ hgroup

end Order

/-! ### Numbered items, and the rank of a run -/

theorem of_getLast?_filter_range {p : ℕ → Bool} {n i : ℕ}
    (h : ((List.range n).filter p).getLast? = some i) :
    i < n ∧ p i = true ∧ ∀ j, i < j → j < n → p j = false := by
  induction n with
  | zero => simp at h
  | succ n ih =>
    rw [List.range_succ] at h
    cases hp : p n with
    | true =>
      rw [getLast?_filter_concat_of_pos hp, Option.some.injEq] at h
      subst h
      exact ⟨Nat.lt_succ_self n, hp, fun j hlt hle => absurd hlt (by omega)⟩
    | false =>
      rw [getLast?_filter_concat_of_not hp] at h
      obtain ⟨hi, hpi, hlater⟩ := ih h
      refine ⟨Nat.lt_succ_of_lt hi, hpi, fun j hlt hle => ?_⟩
      rcases (Nat.lt_succ_iff.mp hle).lt_or_eq with hj | rfl
      · exact hlater j hlt hj
      · exact hp

/-- A value of an increasing list has as many smaller ones as its place says. -/
theorem card_filter_lt_getElem [LinearOrder κ] {values : List κ} (h : values.Pairwise (· < ·))
    {t : ℕ} (ht : t < values.length) :
    (values.toFinset.filter (· < values[t])).card = t := by
  have hpairs := List.pairwise_iff_getElem.mp h
  have hfilter : values.toFinset.filter (· < values[t]) = (values.take t).toFinset := by
    ext value
    simp only [Finset.mem_filter, List.mem_toFinset, List.mem_take_iff_getElem]
    constructor
    · rintro ⟨hmem, hlt⟩
      obtain ⟨i, hi, rfl⟩ := List.mem_iff_getElem.mp hmem
      have hit : i < t := by
        by_contra hle
        rcases (Nat.not_lt.mp hle).lt_or_eq with hti | rfl
        · exact lt_asymm hlt (hpairs t i ht hi hti)
        · exact lt_irrefl _ hlt
      exact ⟨i, lt_min hit hi, rfl⟩
    · rintro ⟨i, hi, rfl⟩
      obtain ⟨hit, hlength⟩ := lt_min_iff.mp hi
      exact ⟨List.getElem_mem _, hpairs i t hlength ht hit⟩
  have hnodup : (values.take t).Nodup :=
    (List.Pairwise.imp (fun hlt => ne_of_lt hlt) h).sublist (List.take_sublist t values)
  rw [hfilter, List.toFinset_card_of_nodup hnodup, List.length_take, min_eq_left ht.le]

end Grouping
