import Mathlib.Data.List.Induction
import Mathlib.Data.Set.Insert
import TrafficDatabase.Index.BitMap

/-!
# The bitmap as a set of cells

Seen from outside the bitmap is the set of the cells, row and column, that `get` finds
(`cells`): `set` puts a cell in, `clearCol` takes a column out (`cells_call`), and nothing
else of the packing shows.  So after any calls a cell is in the set if it was set after the
last time its column was emptied (`get_calls`).
-/

namespace TrafficDatabase

/-- A call that changes the bitmap. -/
inductive BitMapCall
  | set (row col : ℕ)
  | clearCol (col : ℕ)
deriving DecidableEq, Repr

namespace BitMapCall

/-- What a call does to a set of cells, of which those in `shape` exist. -/
def onCells (shape cells : Set (ℕ × ℕ)) : BitMapCall → Set (ℕ × ℕ)
  | .set row col => cells ∪ ({(row, col)} ∩ shape)
  | .clearCol col => {cell ∈ cells | cell.2 ≠ col}

/-- A cell was set, and its column not emptied since. -/
def SetSince (row col : ℕ) (calls : List BitMapCall) : Prop :=
  ∃ before after, calls = before ++ .set row col :: after ∧ .clearCol col ∉ after

variable {row col r c : ℕ} {calls : List BitMapCall} {call : BitMapCall}

theorem not_setSince_nil : ¬ SetSince row col [] := by
  rintro ⟨before, after, heq, -⟩
  exact List.cons_ne_nil _ _ (List.append_eq_nil_iff.mp heq.symm).2

/-- Either the last call sets the cell, or it was set before and the last call does not
empty its column. -/
theorem setSince_concat : SetSince row col (calls ++ [call]) ↔
    call = .set row col ∨ SetSince row col calls ∧ call ≠ .clearCol col := by
  constructor
  · rintro ⟨before, after, heq, hafter⟩
    rcases List.eq_nil_or_concat' after with rfl | ⟨between, last, rfl⟩
    · exact .inl (List.cons.inj (List.append_inj' heq rfl).2).1
    · rw [← List.cons_append, ← List.append_assoc] at heq
      obtain ⟨hcalls, hlast⟩ := List.append_inj' heq rfl
      rw [(List.cons.inj hlast).1]
      refine .inr ⟨⟨before, between, hcalls, fun hmem => ?_⟩, fun hclear => ?_⟩
      · exact hafter (List.mem_append_left _ hmem)
      · exact hafter (hclear ▸ List.mem_append_right _ List.mem_cons_self)
  · rintro (rfl | ⟨⟨before, after, rfl, hafter⟩, hcall⟩)
    · exact ⟨calls, [], rfl, List.not_mem_nil⟩
    · refine ⟨before, after ++ [call], by simp, fun hmem => ?_⟩
      rcases List.mem_append.mp hmem with hin | hin
      · exact hafter hin
      · exact hcall (List.mem_singleton.mp hin).symm

/-- The cells after calls on an empty set. -/
theorem mem_foldl_onCells (shape : Set (ℕ × ℕ)) (calls : List BitMapCall) :
    (row, col) ∈ calls.foldl (onCells shape) ∅ ↔ (row, col) ∈ shape ∧ SetSince row col calls := by
  induction calls using List.reverseRecOn with
  | nil => exact ⟨fun h => h.elim, fun h => absurd h.2 not_setSince_nil⟩
  | append_singleton calls call ih =>
      rw [List.foldl_append, List.foldl_cons, List.foldl_nil, setSince_concat]
      cases call with
      | set r c =>
          have hcell : (row, col) = (r, c) ↔ set r c = set row col := by
            rw [Prod.mk.injEq, set.injEq]
            exact and_congr eq_comm eq_comm
          simp only [onCells, Set.mem_union, Set.mem_inter_iff, Set.mem_singleton_iff, ih, hcell,
            ne_eq, reduceCtorEq, not_false_eq_true, and_true]
          tauto
      | clearCol c =>
          simp only [onCells, Set.mem_ofPred_eq, ih, ne_eq, reduceCtorEq, false_or,
            clearCol.injEq, and_assoc]
          rw [eq_comm]

end BitMapCall

namespace BitMap

open BitMapCall

variable (bm : BitMap)

def call : BitMapCall → BitMap
  | .set row col => (bm.set row col).2
  | .clearCol col => bm.clearCol col

def calls (calls : List BitMapCall) : BitMap := calls.foldl call bm

/-- The rows and columns there are. -/
def shape : Set (ℕ × ℕ) := {cell | bm.InRange cell.1 cell.2}

/-- What the bitmap stands for. -/
def cells : Set (ℕ × ℕ) := {cell | bm.get cell.1 cell.2 = true}

variable {bm} {row col : ℕ}

theorem sameShape_call (call : BitMapCall) : bm.SameShape (bm.call call) := by
  cases call with
  | set row col => exact sameShape_set bm row col
  | clearCol col => exact sameShape_clearCol bm col

theorem shape_call (call : BitMapCall) : (bm.call call).shape = bm.shape :=
  Set.ext fun _ => (sameShape_call call).inRange_iff

/-- Each call does to the bitmap what it does to its cells. -/
theorem cells_call (call : BitMapCall) : (bm.call call).cells = call.onCells bm.shape bm.cells := by
  ext ⟨r, c⟩
  cases call with
  | set row col =>
      show (bm.set row col).2.get r c = true ↔ _
      rw [get_set, Bool.or_eq_true, decide_eq_true_eq]
      show _ ↔ bm.get r c = true ∨ (r, c) = (row, col) ∧ bm.InRange r c
      rw [Prod.mk.injEq]
      constructor
      · rintro (hget | ⟨hin, rfl, rfl⟩)
        · exact .inl hget
        · exact .inr ⟨⟨rfl, rfl⟩, hin⟩
      · rintro (hget | ⟨⟨rfl, rfl⟩, hin⟩)
        · exact .inl hget
        · exact .inr ⟨hin, rfl, rfl⟩
  | clearCol col =>
      show (bm.clearCol col).get r c = true ↔ bm.get r c = true ∧ c ≠ col
      rw [get_clearCol, Bool.and_eq_true, decide_eq_true_eq]

theorem cells_calls (calls : List BitMapCall) :
    (bm.calls calls).cells = calls.foldl (onCells bm.shape) bm.cells := by
  induction calls generalizing bm with
  | nil => rfl
  | cons call rest ih =>
      show ((bm.call call).calls rest).cells = _
      rw [ih, shape_call, cells_call, List.foldl_cons]

theorem sameShape_calls (calls : List BitMapCall) : bm.SameShape (bm.calls calls) := by
  induction calls generalizing bm with
  | nil => exact SameShape.refl bm
  | cons call rest ih => exact (sameShape_call call).trans ih

theorem call_of_not_inRange (h : ¬ bm.InRange row col) : bm.call (.set row col) = bm := by
  show (bm.set row col).2 = bm
  rw [set_of_not_inRange h]

theorem call_of_le (h : bm.colCount ≤ col) : bm.call (.clearCol col) = bm := by
  show bm.clearCol col = bm
  unfold clearCol getBitIndex
  rw [if_pos h]

/-- A new bitmap has no cells. -/
theorem new_eq_some {rowCount logicColCount backupColCount : ℕ}
    (h : new rowCount logicColCount backupColCount = some bm) :
    bm.rowCount = rowCount ∧ bm.colCount = logicColCount + backupColCount ∧ bm.cells = ∅ := by
  unfold new at h
  simp only at h
  split_ifs at h
  obtain rfl := Option.some.inj h
  refine ⟨rfl, rfl, Set.eq_empty_of_forall_notMem fun cell hcell => ?_⟩
  have hin := inRange_of_get (Set.mem_ofPred_eq ▸ hcell)
  have hget : BitMap.get _ cell.1 cell.2 = true := hcell
  rw [get_of_inRange hin] at hget
  exact Bool.false_ne_true (BitVec.getLsbD_zero.symm.trans hget)

/-- After any calls `get` finds the cells that were set after the last time their column was
emptied; a call leaves the other columns alone, and everything if it is out of range. -/
theorem get_calls {rowCount logicColCount backupColCount : ℕ}
    (h : new rowCount logicColCount backupColCount = some bm) (calls : List BitMapCall)
    (row col : ℕ) :
    ((bm.calls calls).get row col = true ↔
      row < rowCount ∧ col < logicColCount + backupColCount ∧ SetSince row col calls) ∧
    (∀ r c, c ≠ col →
      ((bm.calls calls).call (.set row col)).get r c = (bm.calls calls).get r c ∧
        ((bm.calls calls).call (.clearCol col)).get r c = (bm.calls calls).get r c) ∧
    (¬ (row < rowCount ∧ col < logicColCount + backupColCount) →
      (bm.calls calls).call (.set row col) = bm.calls calls) ∧
    (¬ col < logicColCount + backupColCount →
      (bm.calls calls).call (.clearCol col) = bm.calls calls) := by
  obtain ⟨hrows, hcols, hempty⟩ := new_eq_some h
  have hshape := @sameShape_calls bm calls
  refine ⟨?_, fun r c hne => ⟨?_, ?_⟩, fun hout => ?_, fun hout => ?_⟩
  · show (row, col) ∈ (bm.calls calls).cells ↔ _
    rw [cells_calls, hempty, mem_foldl_onCells, ← and_assoc, ← hrows, ← hcols]
    exact Iff.rfl
  · show ((bm.calls calls).set row col).2.get r c = _
    rw [get_set, decide_eq_false fun hcell => hne hcell.2.2, Bool.or_false]
  · show ((bm.calls calls).clearCol col).get r c = _
    rw [get_clearCol, decide_eq_true hne, Bool.and_true]
  · refine call_of_not_inRange fun hin => hout ?_
    rw [hshape.inRange_iff] at hin
    exact ⟨hrows ▸ hin.1, hcols ▸ hin.2⟩
  · refine call_of_le ?_
    rw [hshape.2.1, hcols]
    exact not_lt.mp hout

theorem get_calls_twoBytes : ∃ bm, new 3 14 2 = some bm ∧
    (bm.calls [.set 1 3, .set 1 11, .clearCol 3, .set 9 9]).get 1 11 = true ∧
      (bm.calls [.set 1 3, .set 1 11, .clearCol 3, .set 9 9]).get 1 3 = false := by
  have hnew : (new 3 14 2).isSome = true := rfl
  obtain ⟨bm, hbm⟩ := Option.isSome_iff_exists.mp hnew
  refine ⟨bm, hbm, (get_calls hbm _ 1 11).1.mpr ⟨by decide, by decide, [.set 1 3],
    [.clearCol 3, .set 9 9], rfl, by decide⟩, Bool.eq_false_iff.mpr fun hget => ?_⟩
  have hsince : SetSince 1 3 (([.set 1 3, .set 1 11] ++ [.clearCol 3]) ++ [.set 9 9]) :=
    ((get_calls hbm _ 1 3).1.mp hget).2.2
  rw [setSince_concat, setSince_concat] at hsince
  simp at hsince

end BitMap

end TrafficDatabase
