import Mathlib.Data.List.Basic
import Mathlib.Data.Nat.Basic
import Mathlib.Logic.Function.Basic
import Mathlib.Tactic.SplitIfs

/-!
# The bitmap of the Bloom filters

`BitMap` has a row for every Bloom filter bit and a column for every block.  A
byte holds one bit of eight columns that lie an eighth of the columns apart, so
`row` and `col` determine a byte and a bit of it and are determined by them
(`place_injective`).  What is read after a `set` or a `clearCol` is said by
`get_set` and `get_clearCol`; both are about any two columns, in range or not.
-/

namespace TrafficDatabase

/-- The constructor's checks are its last two fields. -/
structure BitMap where
  rowCount : ℕ
  colCount : ℕ
  backupColCount : ℕ
  bitmap : ℕ → BitVec 8
  colCount_mod : colCount % 8 = 0
  backup_le : backupColCount * 8 ≤ colCount

namespace BitMap

/-- The constructor; `none` where it throws. -/
def new (rowCount logicColCount backupColCount : ℕ) : Option BitMap :=
  let colCount := logicColCount + backupColCount
  if hmod : colCount % 8 = 0 then
    if hbackup : backupColCount * 8 ≤ colCount then
      some
        { rowCount, colCount, backupColCount
          bitmap := fun _ => 0
          colCount_mod := hmod
          backup_le := hbackup }
    else none
  else none

variable (bm : BitMap)

/-- `none` is the largest number, which the source returns out of range. -/
def getByteIndex (row col : ℕ) : Option ℕ :=
  if row ≥ bm.rowCount ∨ col ≥ bm.colCount then none
  else some (row * (bm.colCount / 8) + col % (bm.colCount / 8))

def getBitIndex (col : ℕ) : Option ℕ :=
  if col ≥ bm.colCount then none else some (col / (bm.colCount / 8))

def get (row col : ℕ) : Bool :=
  match bm.getByteIndex row col, bm.getBitIndex col with
  | some byteIndex, some bitIndex => decide (bm.bitmap byteIndex &&& 1#8 <<< bitIndex ≠ 0)
  | _, _ => false

def set (row col : ℕ) : Bool × BitMap :=
  match bm.getByteIndex row col, bm.getBitIndex col with
  | some byteIndex, some bitIndex =>
      (true, { bm with
        bitmap := Function.update bm.bitmap byteIndex (bm.bitmap byteIndex ||| 1#8 <<< bitIndex) })
  | _, _ => (false, bm)

/-- The loop of `clearCol` over the first `count` rows. -/
def clearRows (col bitIndex : ℕ) : ℕ → BitMap
  | 0 => bm
  | row + 1 =>
      let cleared := clearRows col bitIndex row
      match cleared.getByteIndex row col with
      | none => cleared
      | some byteIndex =>
          { cleared with
            bitmap := Function.update cleared.bitmap byteIndex
              (cleared.bitmap byteIndex &&& ~~~(1#8 <<< bitIndex)) }

def clearCol (col : ℕ) : BitMap :=
  match bm.getBitIndex col with
  | none => bm
  | some bitIndex => bm.clearRows col bitIndex bm.rowCount

/-- Set the rows of a column one after the other, up to the first that fails. -/
def setAll (bm : BitMap) (col : ℕ) : List ℕ → Bool × BitMap
  | [] => (true, bm)
  | row :: rest =>
      match bm.set row col with
      | (true, next) => setAll next col rest
      | (false, next) => (false, next)

/-! ## Bits of a byte -/

theorem and_bit_ne_zero {byte : BitVec 8} {i : ℕ} (hi : i < 8) :
    decide (byte &&& 1#8 <<< i ≠ 0) = byte.getLsbD i := by
  have hbit : 1#8 <<< i = BitVec.twoPow 8 i := (BitVec.twoPow_eq 8 i).symm
  rw [hbit, BitVec.and_twoPow]
  cases hget : byte.getLsbD i with
  | false => simp
  | true =>
      have hne : BitVec.twoPow 8 i ≠ 0 := by
        intro hzero
        have := congrArg (fun b => b.getLsbD i) hzero
        simp [hi] at this
      simpa using hne

theorem getLsbD_or_bit {byte : BitVec 8} {i j : ℕ} (hi : i < 8) :
    (byte ||| 1#8 <<< i).getLsbD j = (byte.getLsbD j || decide (j = i)) := by
  have hbit : 1#8 <<< i = BitVec.twoPow 8 i := (BitVec.twoPow_eq 8 i).symm
  rw [hbit, BitVec.getLsbD_or, BitVec.getLsbD_twoPow]
  simp [hi, eq_comm]

theorem getLsbD_and_not_bit {byte : BitVec 8} {i j : ℕ} (hj : j < 8) :
    (byte &&& ~~~(1#8 <<< i)).getLsbD j = (byte.getLsbD j && decide (j ≠ i)) := by
  have hbit : 1#8 <<< i = BitVec.twoPow 8 i := (BitVec.twoPow_eq 8 i).symm
  rw [hbit, BitVec.getLsbD_and, BitVec.getLsbD_not, BitVec.getLsbD_twoPow]
  by_cases hij : i = j
  · subst hij
    simp [hj]
  · simp [hj, hij, Ne.symm hij]

/-! ## The byte and the bit of a row and a column -/

variable {bm} {row col r c : ℕ}

/-- The row and the column are inside the bitmap. -/
def InRange (bm : BitMap) (row col : ℕ) : Prop := row < bm.rowCount ∧ col < bm.colCount

instance (bm : BitMap) (row col : ℕ) : Decidable (bm.InRange row col) :=
  inferInstanceAs (Decidable (_ ∧ _))

theorem width_pos (hcol : col < bm.colCount) : 0 < bm.colCount / 8 := by
  have := bm.colCount_mod
  omega

theorem bitIndex_lt (hcol : col < bm.colCount) : col / (bm.colCount / 8) < 8 := by
  have := bm.colCount_mod
  rw [Nat.div_lt_iff_lt_mul (width_pos hcol)]
  omega

theorem getBitIndex_of_lt (hcol : col < bm.colCount) :
    bm.getBitIndex col = some (col / (bm.colCount / 8)) := if_neg (by omega)

theorem getByteIndex_of_inRange (h : bm.InRange row col) :
    bm.getByteIndex row col = some (row * (bm.colCount / 8) + col % (bm.colCount / 8)) :=
  if_neg (by unfold InRange at h; omega)

theorem getByteIndex_of_not_inRange (h : ¬ bm.InRange row col) :
    bm.getByteIndex row col = none := if_pos (by unfold InRange at h; omega)

/-- The byte and the bit determine the row and the column. -/
theorem place_injective {width : ℕ} (hwidth : 0 < width)
    (hbyte : r * width + c % width = row * width + col % width)
    (hbit : c / width = col / width) : r = row ∧ c = col := by
  have hdiv : ∀ m n, (m * width + n % width) / width = m := fun m n => by
    rw [Nat.mul_comm, Nat.mul_add_div hwidth, Nat.div_eq_of_lt (Nat.mod_lt _ hwidth), Nat.add_zero]
  have hrow : r = row := by
    calc
      r = (r * width + c % width) / width := (hdiv r c).symm
      _ = row := by rw [hbyte, hdiv]
  refine ⟨hrow, ?_⟩
  subst hrow
  rw [← Nat.div_add_mod c width, ← Nat.div_add_mod col width, hbit]
  omega

theorem get_of_inRange (h : bm.InRange row col) :
    bm.get row col = (bm.bitmap (row * (bm.colCount / 8) + col % (bm.colCount / 8))).getLsbD
      (col / (bm.colCount / 8)) := by
  unfold get
  rw [getByteIndex_of_inRange h, getBitIndex_of_lt h.2]
  exact and_bit_ne_zero (bitIndex_lt h.2)

theorem get_of_not_inRange (h : ¬ bm.InRange row col) : bm.get row col = false := by
  unfold get
  rw [getByteIndex_of_not_inRange h]

theorem inRange_of_get (h : bm.get row col = true) : bm.InRange row col := by
  by_contra hout
  rw [get_of_not_inRange hout] at h
  cases h

/-! ## What is read after a write -/

theorem set_of_inRange (h : bm.InRange row col) : bm.set row col = (true, { bm with
    bitmap := Function.update bm.bitmap (row * (bm.colCount / 8) + col % (bm.colCount / 8))
      (bm.bitmap (row * (bm.colCount / 8) + col % (bm.colCount / 8)) |||
        1#8 <<< (col / (bm.colCount / 8))) }) := by
  unfold set
  rw [getByteIndex_of_inRange h, getBitIndex_of_lt h.2]

theorem set_of_not_inRange (h : ¬ bm.InRange row col) : bm.set row col = (false, bm) := by
  unfold set
  rw [getByteIndex_of_not_inRange h]

/-- The same rows and columns. -/
def SameShape (bm other : BitMap) : Prop :=
  other.rowCount = bm.rowCount ∧ other.colCount = bm.colCount ∧
    other.backupColCount = bm.backupColCount

theorem SameShape.refl (bm : BitMap) : bm.SameShape bm := ⟨rfl, rfl, rfl⟩

theorem SameShape.trans {middle other : BitMap} (h : bm.SameShape middle)
    (h' : middle.SameShape other) : bm.SameShape other :=
  ⟨h'.1.trans h.1, h'.2.1.trans h.2.1, h'.2.2.trans h.2.2⟩

theorem SameShape.inRange_iff {other : BitMap} (h : bm.SameShape other) :
    other.InRange row col ↔ bm.InRange row col := by
  unfold InRange
  rw [h.1, h.2.1]

theorem sameShape_set (bm : BitMap) (row col : ℕ) : bm.SameShape (bm.set row col).2 := by
  by_cases h : bm.InRange row col
  · rw [set_of_inRange h]
    exact SameShape.refl bm
  · rw [set_of_not_inRange h]
    exact SameShape.refl bm

@[simp] theorem set_fst : (bm.set row col).1 = decide (bm.InRange row col) := by
  by_cases h : bm.InRange row col
  · rw [set_of_inRange h]
    simp [h]
  · rw [set_of_not_inRange h]
    simp [h]

theorem get_set : (bm.set row col).2.get r c =
    (bm.get r c || decide (bm.InRange row col ∧ r = row ∧ c = col)) := by
  by_cases h : bm.InRange row col
  swap
  · simp [set_of_not_inRange h, h]
  by_cases hin : bm.InRange r c
  swap
  · have hout : ¬ (bm.set row col).2.InRange r c := by rwa [(sameShape_set bm row col).inRange_iff]
    rw [get_of_not_inRange hout, get_of_not_inRange hin]
    have hne : ¬ (r = row ∧ c = col) := by
      rintro ⟨rfl, rfl⟩
      exact hin h
    simp [hne]
  have hin' : (bm.set row col).2.InRange r c := by rwa [(sameShape_set bm row col).inRange_iff]
  rw [get_of_inRange hin', get_of_inRange hin, set_of_inRange h]
  simp only [Function.update_apply]
  split_ifs with hbyte
  · rw [getLsbD_or_bit (bitIndex_lt h.2), hbyte]
    have hplace : c / (bm.colCount / 8) = col / (bm.colCount / 8) ↔ r = row ∧ c = col := by
      constructor
      · exact place_injective (width_pos h.2) hbyte
      · rintro ⟨-, rfl⟩
        rfl
    simp [hplace, h]
  · have hne : ¬ (r = row ∧ c = col) := by
      rintro ⟨rfl, rfl⟩
      exact hbyte rfl
    simp [hne]

theorem sameShape_clearRows (bm : BitMap) (col bitIndex count : ℕ) :
    bm.SameShape (bm.clearRows col bitIndex count) := by
  induction count with
  | zero => exact SameShape.refl bm
  | succ row ih =>
      refine ih.trans ?_
      simp only [clearRows]
      split
      · exact SameShape.refl _
      · exact SameShape.refl _

/-- The loop has cleared the bit in the rows it has been to. -/
theorem get_clearRows (hcol : col < bm.colCount) {count : ℕ} (hcount : count ≤ bm.rowCount) :
    (bm.clearRows col (col / (bm.colCount / 8)) count).get r c =
      (bm.get r c && decide (¬ (r < count ∧ c = col))) := by
  induction count with
  | zero => simp [clearRows]
  | succ row ih =>
      replace ih := ih (by omega)
      set cleared := bm.clearRows col (col / (bm.colCount / 8)) row with hcleared
      have hshape : bm.SameShape cleared := sameShape_clearRows ..
      have hplace : cleared.getByteIndex row col =
          some (row * (bm.colCount / 8) + col % (bm.colCount / 8)) := by
        rw [getByteIndex_of_inRange (hshape.inRange_iff.mpr ⟨by omega, hcol⟩), hshape.2.1]
      have hnext : bm.clearRows col (col / (bm.colCount / 8)) (row + 1) =
          { cleared with
            bitmap := Function.update cleared.bitmap
              (row * (bm.colCount / 8) + col % (bm.colCount / 8))
              (cleared.bitmap (row * (bm.colCount / 8) + col % (bm.colCount / 8)) &&&
                ~~~(1#8 <<< (col / (bm.colCount / 8)))) } := by
        simp only [clearRows, ← hcleared, hplace]
      have hshape' : cleared.SameShape (bm.clearRows col (col / (bm.colCount / 8)) (row + 1)) := by
        rw [hnext]
        exact SameShape.refl cleared
      -- what is outside the bitmap reads false before and after
      by_cases hin : cleared.InRange r c
      swap
      · have hout : ¬ bm.InRange r c := by rwa [← hshape.inRange_iff]
        rw [get_of_not_inRange (by rwa [hshape'.inRange_iff]), get_of_not_inRange hout,
          Bool.false_and]
      have hc : c < bm.colCount := hshape.2.1 ▸ hin.2
      rw [get_of_inRange hin, hshape.2.1] at ih
      rw [get_of_inRange (hshape'.inRange_iff.mpr hin), hshape'.2.1, hshape.2.1, hnext]
      simp only [Function.update_apply]
      -- only the byte of this row and column is written, and of it one bit
      split_ifs with hbyte
      · rw [getLsbD_and_not_bit (bitIndex_lt hc), ← hbyte, ih]
        have hbits : c / (bm.colCount / 8) = col / (bm.colCount / 8) ↔ r = row ∧ c = col := by
          constructor
          · exact place_injective (width_pos hcol) hbyte
          · rintro ⟨-, rfl⟩
            rfl
        rw [Bool.and_assoc, ← Bool.decide_and]
        congr 2
        rw [ne_eq, hbits]
        apply propext
        constructor
        · rintro ⟨hbefore, hnot⟩ ⟨hr, hcc⟩
          rcases Nat.lt_succ_iff_lt_or_eq.mp hr with hlt | heq
          · exact hbefore ⟨hlt, hcc⟩
          · exact hnot ⟨heq, hcc⟩
        · intro hafter
          exact ⟨fun h => hafter ⟨by omega, h.2⟩, fun h => hafter ⟨by omega, h.2⟩⟩
      · rw [ih]
        have hsame : r < row ∧ c = col ↔ r < row + 1 ∧ c = col := by
          constructor
          · exact fun h => ⟨by omega, h.2⟩
          · rintro ⟨hr, rfl⟩
            rcases Nat.lt_succ_iff_lt_or_eq.mp hr with hlt | rfl
            · exact ⟨hlt, rfl⟩
            · exact absurd rfl hbyte
        simp only [hsame]

theorem sameShape_clearCol (bm : BitMap) (col : ℕ) : bm.SameShape (bm.clearCol col) := by
  unfold clearCol
  split
  · exact SameShape.refl bm
  · exact sameShape_clearRows ..

/-- `clearCol` empties its column, and leaves every other one. -/
theorem get_clearCol : (bm.clearCol col).get r c = (bm.get r c && decide (c ≠ col)) := by
  by_cases hin : bm.InRange r c
  swap
  · rw [get_of_not_inRange hin, Bool.false_and,
      get_of_not_inRange (by rwa [(sameShape_clearCol bm col).inRange_iff])]
  by_cases hcol : col < bm.colCount
  · rw [clearCol, getBitIndex_of_lt hcol]
    simp only
    rw [get_clearRows hcol le_rfl]
    simp [hin.1]
  · have hne : c ≠ col := by
      have := hin.2
      omega
    have hsame : bm.clearCol col = bm := by
      have hnone : bm.getBitIndex col = none := if_pos (by omega)
      rw [clearCol, hnone]
    rw [hsame]
    simp [hne]

/-! ## Rows of one column -/

/-- `other` is `bm` with more bits set in one column. -/
structure Extends (col : ℕ) (bm other : BitMap) : Prop where
  shape : bm.SameShape other
  mono : ∀ {r c}, bm.get r c = true → other.get r c = true
  frame : ∀ {r c}, c ≠ col → other.get r c = bm.get r c

theorem Extends.refl (col : ℕ) (bm : BitMap) : Extends col bm bm :=
  ⟨SameShape.refl bm, id, fun _ => rfl⟩

theorem Extends.trans {middle other : BitMap} (h : Extends col bm middle)
    (h' : Extends col middle other) : Extends col bm other where
  shape := h.shape.trans h'.shape
  mono hget := h'.mono (h.mono hget)
  frame hc := (h'.frame hc).trans (h.frame hc)

theorem extends_set (bm : BitMap) (row col : ℕ) : Extends col bm (bm.set row col).2 where
  shape := sameShape_set bm row col
  mono hget := by rw [get_set, hget, Bool.true_or]
  frame hc := by rw [get_set]; simp [hc]

theorem extends_setAll (bm : BitMap) (col : ℕ) (rows : List ℕ) :
    Extends col bm (bm.setAll col rows).2 := by
  induction rows generalizing bm with
  | nil => exact Extends.refl col bm
  | cons row rest ih =>
      have hset := extends_set bm row col
      simp only [setAll]
      split
      · next next heq =>
          rw [heq] at hset
          exact hset.trans (ih next)
      · next next heq =>
          rw [heq] at hset
          exact hset

/-- What `setAll` sets can be read. -/
theorem get_setAll {rows : List ℕ} (h : (bm.setAll col rows).1 = true) (hrow : row ∈ rows) :
    (bm.setAll col rows).2.get row col = true := by
  induction rows generalizing bm with
  | nil => cases hrow
  | cons first rest ih =>
      cases hfst : bm.set first col with
      | mk done next =>
          cases done with
          | false => simp only [setAll, hfst] at h; cases h
          | true =>
              simp only [setAll, hfst] at h ⊢
              cases hrow with
              | tail _ hmem => exact ih h hmem
              | head =>
                  apply (extends_setAll next col rest).mono
                  have hin : bm.InRange row col := by
                    have hdone := @set_fst bm row col
                    rw [hfst] at hdone
                    exact of_decide_eq_true hdone.symm
                  have hget := @get_set bm row col row col
                  rw [hfst] at hget
                  rw [hget]
                  simp [hin]

/-- Other rows are as before. -/
theorem get_setAll_of_notMem {rows : List ℕ} (hrow : r ∉ rows) :
    (bm.setAll col rows).2.get r c = bm.get r c := by
  induction rows generalizing bm with
  | nil => rfl
  | cons first rest ih =>
      rw [List.mem_cons, not_or] at hrow
      have hget := @get_set bm first col r c
      rw [decide_eq_false (fun h => hrow.1 h.2.1), Bool.or_false] at hget
      cases hset : bm.set first col with
      | mk done next =>
          rw [hset] at hget
          simp only [setAll, hset]
          cases done with
          | false => exact hget
          | true => exact (ih hrow.2).trans hget

/-- Rows and a column inside the bitmap are all set. -/
theorem setAll_fst {rows : List ℕ} (hrows : ∀ row ∈ rows, bm.InRange row col) :
    (bm.setAll col rows).1 = true := by
  induction rows generalizing bm with
  | nil => rfl
  | cons first rest ih =>
      have hfirst : bm.InRange first col := hrows first (List.mem_cons_self ..)
      have hshape := sameShape_set bm first col
      have hdone := @set_fst bm first col
      cases hset : bm.set first col with
      | mk done next =>
          rw [hset] at hshape hdone
          simp only [setAll, hset]
          cases done with
          | false => simp [hfirst] at hdone
          | true =>
              apply ih
              intro row hrow
              exact hshape.inRange_iff.mpr (hrows row (List.mem_cons_of_mem _ hrow))

theorem setAll_singleton (bm : BitMap) (col row : ℕ) : bm.setAll col [row] = bm.set row col := by
  cases hset : bm.set row col with
  | mk done next => cases done <;> simp [setAll, hset]

theorem setAll_append (bm : BitMap) (col : ℕ) (first second : List ℕ) :
    bm.setAll col (first ++ second) =
      if (bm.setAll col first).1 then (bm.setAll col first).2.setAll col second
      else bm.setAll col first := by
  induction first generalizing bm with
  | nil => simp [setAll]
  | cons row rest ih =>
      cases hset : bm.set row col with
      | mk done next =>
          cases done with
          | false => simp [setAll, hset]
          | true => simp only [List.cons_append, setAll, hset, ih]

end BitMap

end TrafficDatabase
