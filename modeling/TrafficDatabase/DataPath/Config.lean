import Mathlib.Data.Nat.Prime.Basic
import Mathlib.Algebra.Order.Group.Nat
import TrafficDatabase.Data.PacketLayout

/-!
# The configuration of the data path

`DataPathConfig` collects the parameters `Controller::init` passes to the data
block buffer, the readers and the data dump threads, together with what the
constructors check and the limits on the numbers of threads.  The checks are all
stated as the code states them, by masks and remainders.  Their consequences the
proofs need are derived here:

* a block holds `cellsPerBlock` cells, at least one for every reader;
* the numbers of slots, cells and disk blocks are powers of two, so the number
  of slots divides the number of disk blocks (`totalBlockNum_dvd`) and every
  cell lies in one block.
-/

namespace TrafficDatabase

/-- The parameters of `Controller::init` for the data path. -/
structure DataPathParams where
  dataDiskSize : ℕ
  dataBlockSize : ℕ
  dataBlockCacheNum : ℕ
  nbRx : ℕ
  delayThreshold : ℕ
  dataDiskManagerThreadNum : ℕ
  ethHeaderLen : ℕ
deriving DecidableEq, Repr

namespace DataPathParams

def buffer (params : DataPathParams) : DataBlockConfig :=
  { totalBlockNum := params.dataBlockCacheNum
    blockSize := params.dataBlockSize
    diskBlockNum := params.dataDiskSize / params.dataBlockSize
    rssNum := params.nbRx
    delayedBlockNum := params.delayThreshold }

def reader (params : DataPathParams) : ReaderConfig :=
  { ethHeaderLen := params.ethHeaderLen
    diskSize := params.dataDiskSize
    blockSize := params.dataBlockSize
    cellSize := params.dataBlockSize / params.nbRx }

/-- The constructors accept the parameters, no thread is refused, and sizes are
64-bit numbers. -/
structure Accepted (params : DataPathParams) : Prop where
  diskSize_lt : params.dataDiskSize < 2 ^ 64
  diskAligned : params.dataDiskSize % params.dataBlockSize = 0
  buffer : (DataBlockBuffer.new params.buffer).isSome
  reader : DPDKReader.Accepts params.reader
  nbRx_pos : 0 < params.nbRx
  nbRx_le : params.nbRx ≤ params.dataBlockCacheNum
  dumpThreads_le : params.dataDiskManagerThreadNum ≤ params.dataBlockCacheNum

instance (params : DataPathParams) : Decidable params.Accepted :=
  decidable_of_iff (params.dataDiskSize < 2 ^ 64 ∧
      params.dataDiskSize % params.dataBlockSize = 0 ∧
      (DataBlockBuffer.new params.buffer).isSome ∧ DPDKReader.Accepts params.reader ∧
      0 < params.nbRx ∧ params.nbRx ≤ params.dataBlockCacheNum ∧
      params.dataDiskManagerThreadNum ≤ params.dataBlockCacheNum)
    ⟨fun ⟨h₁, h₂, h₃, h₄, h₅, h₆, h₇⟩ => ⟨h₁, h₂, h₃, h₄, h₅, h₆, h₇⟩,
      fun ⟨h₁, h₂, h₃, h₄, h₅, h₆, h₇⟩ => ⟨h₁, h₂, h₃, h₄, h₅, h₆, h₇⟩⟩

end DataPathParams

/-- Parameters the constructors accept. -/
structure DataPathConfig extends DataPathParams where
  accepted : toDataPathParams.Accepted

namespace DataPathConfig

variable (cfg : DataPathConfig)

abbrev totalBlockNum : ℕ := cfg.buffer.totalBlockNum

abbrev blockSize : ℕ := cfg.buffer.blockSize

abbrev diskBlockNum : ℕ := cfg.buffer.diskBlockNum

abbrev cellSize : ℕ := cfg.reader.cellSize

abbrev cellNum : ℕ := cfg.reader.cellNum

/-- The number of cells in a block. -/
def cellsPerBlock : ℕ := cfg.blockSize / cfg.cellSize

/-- The block a cell lies in; both are counted over all laps of the disk. -/
def blockOfCell (cell : ℕ) : ℕ := cell / cfg.cellsPerBlock

/-! ## What the checks amount to -/

private theorem new_checks : cfg.buffer.bufferSize &&& (cfg.buffer.bufferSize - 1) = 0 ∧
    cfg.totalBlockNum * DataBlockBuffer.diskBlockTimes < cfg.diskBlockNum ∧
    cfg.buffer.bufferSize ≠ 0 := by
  have h := cfg.accepted.buffer
  unfold DataBlockBuffer.new at h
  split_ifs at h with hpow hbig hzero
  · simp at h
  · simp at h
  · simp at h
  · exact ⟨not_not.mp hpow, not_le.mp hbig, hzero⟩

private theorem bufferSize_isPowerOfTwo : cfg.buffer.bufferSize.isPowerOfTwo := by
  obtain ⟨hpow, -, hzero⟩ := cfg.new_checks
  exact (Nat.and_sub_one_eq_zero_iff_isPowerOfTwo hzero).mp hpow

theorem diskBlockNum_gt : 4 * cfg.totalBlockNum < cfg.diskBlockNum := by
  obtain ⟨-, hbig, -⟩ := cfg.new_checks
  rw [DataBlockBuffer.diskBlockTimes] at hbig
  omega

private theorem bufferSize_pos : 0 < cfg.totalBlockNum * cfg.blockSize :=
  Nat.pos_of_ne_zero cfg.new_checks.2.2

theorem totalBlockNum_pos : 0 < cfg.totalBlockNum := Nat.pos_of_mul_pos_right cfg.bufferSize_pos

theorem blockSize_pos : 0 < cfg.blockSize := Nat.pos_of_mul_pos_left cfg.bufferSize_pos

theorem diskBlockNum_pos : 0 < cfg.diskBlockNum := by
  have := cfg.diskBlockNum_gt
  omega

theorem diskSize_eq : cfg.dataDiskSize = cfg.diskBlockNum * cfg.blockSize :=
  (Nat.div_mul_cancel (Nat.dvd_of_mod_eq_zero cfg.accepted.diskAligned)).symm

theorem cellSize_dvd : cfg.cellSize ∣ cfg.blockSize := Nat.dvd_of_mod_eq_zero cfg.accepted.reader.2

theorem cellSize_pos : 0 < cfg.cellSize := by
  refine Nat.pos_of_ne_zero fun hzero => ?_
  obtain ⟨k, hk⟩ := cfg.cellSize_dvd
  have := cfg.blockSize_pos
  rw [hk, hzero, Nat.zero_mul] at this
  omega

theorem cellsPerBlock_mul : cfg.cellsPerBlock * cfg.cellSize = cfg.blockSize :=
  Nat.div_mul_cancel cfg.cellSize_dvd

theorem cellsPerBlock_pos : 0 < cfg.cellsPerBlock :=
  Nat.div_pos (Nat.le_of_dvd cfg.blockSize_pos cfg.cellSize_dvd) cfg.cellSize_pos

theorem nbRx_le : cfg.nbRx ≤ cfg.totalBlockNum := cfg.accepted.nbRx_le

theorem dumpThreads_le : cfg.dataDiskManagerThreadNum ≤ cfg.totalBlockNum :=
  cfg.accepted.dumpThreads_le

/-- Every reader can have a cell in the same block. -/
theorem nbRx_le_cellsPerBlock : cfg.nbRx ≤ cfg.cellsPerBlock := by
  rw [cellsPerBlock, Nat.le_div_iff_mul_le cfg.cellSize_pos, Nat.mul_comm]
  exact Nat.div_mul_le_self _ _

theorem cellNum_eq : cfg.cellNum = cfg.diskBlockNum * cfg.cellsPerBlock := by
  have hdisk : cfg.reader.diskSize = cfg.diskBlockNum * cfg.cellsPerBlock * cfg.cellSize := by
    rw [Nat.mul_assoc, cfg.cellsPerBlock_mul]
    exact cfg.diskSize_eq
  rw [cellNum, ReaderConfig.cellNum, hdisk, Nat.mul_div_cancel _ cfg.cellSize_pos]

theorem cellNum_pos : 0 < cfg.cellNum := by
  rw [cfg.cellNum_eq]
  exact Nat.mul_pos cfg.diskBlockNum_pos cfg.cellsPerBlock_pos

theorem diskSize_eq_cells : cfg.reader.diskSize = cfg.cellNum * cfg.cellSize := by
  rw [cfg.cellNum_eq, Nat.mul_assoc, cfg.cellsPerBlock_mul]
  exact cfg.diskSize_eq

/-- Slots and disk blocks stay in step after the whole disk has been written. -/
theorem totalBlockNum_dvd : cfg.totalBlockNum ∣ cfg.diskBlockNum := by
  obtain ⟨a, ha⟩ := cfg.bufferSize_isPowerOfTwo
  obtain ⟨c, hc⟩ : cfg.cellNum.isPowerOfTwo :=
    (Nat.and_sub_one_eq_zero_iff_isPowerOfTwo cfg.cellNum_pos.ne').mp cfg.accepted.reader.1
  obtain ⟨t, -, ht⟩ := (Nat.dvd_prime_pow Nat.prime_two).mp
    (ha ▸ Dvd.intro _ rfl : cfg.totalBlockNum ∣ 2 ^ a)
  obtain ⟨d, -, hd⟩ := (Nat.dvd_prime_pow Nat.prime_two).mp
    (hc ▸ cfg.cellNum_eq ▸ Dvd.intro _ rfl : cfg.diskBlockNum ∣ 2 ^ c)
  have hlt : 2 ^ t < 2 ^ d := by
    have := cfg.diskBlockNum_gt
    omega
  rw [ht, hd]
  exact pow_dvd_pow 2 (Nat.pow_lt_pow_iff_right (by decide) |>.mp hlt).le

/-! ## Cells on the disk -/

theorem blockOfCell_mono {first second : ℕ} (h : first ≤ second) :
    cfg.blockOfCell first ≤ cfg.blockOfCell second := Nat.div_le_div_right h

theorem blockOfCell_lt_iff {cell block : ℕ} :
    cfg.blockOfCell cell < block ↔ cell < block * cfg.cellsPerBlock :=
  Nat.div_lt_iff_lt_mul cfg.cellsPerBlock_pos

theorem le_blockOfCell_iff {cell block : ℕ} :
    block ≤ cfg.blockOfCell cell ↔ block * cfg.cellsPerBlock ≤ cell :=
  Nat.le_div_iff_mul_le cfg.cellsPerBlock_pos

/-- A position inside a cell lies in the cell's block. -/
theorem div_blockSize {cell offset : ℕ} (h : offset < cfg.cellSize) :
    (cell * cfg.cellSize + offset) / cfg.blockSize = cfg.blockOfCell cell := by
  rw [← cfg.cellsPerBlock_mul, Nat.mul_comm cfg.cellsPerBlock, ← Nat.div_div_eq_div_mul,
    Nat.mul_comm cell, Nat.mul_add_div cfg.cellSize_pos, Nat.div_eq_of_lt h, Nat.add_zero]
  rfl

/-- A position and its cell lie in the same block. -/
theorem blockOfCell_div (position : ℕ) :
    cfg.blockOfCell (position / cfg.cellSize) = position / cfg.blockSize := by
  rw [blockOfCell, Nat.div_div_eq_div_mul, Nat.mul_comm, cfg.cellsPerBlock_mul]

/-- Reducing a position keeps its place in its cell. -/
theorem mod_diskSize (position : ℕ) : position % cfg.reader.diskSize =
    cfg.reader.posIn (position / cfg.cellSize) (position % cfg.cellSize) := by
  rw [cfg.diskSize_eq_cells, Nat.mul_comm, Nat.mod_mul, ReaderConfig.posIn, Nat.add_comm,
    Nat.mul_comm]

/-- Reducing the number of a cell reduces the number of its block. -/
theorem blockOfCell_mod (cell : ℕ) :
    cfg.blockOfCell (cell % cfg.cellNum) = cfg.blockOfCell cell % cfg.diskBlockNum := by
  rw [cfg.cellNum_eq, Nat.mul_comm, blockOfCell, blockOfCell, Nat.mod_mul_right_div_self]

theorem aligned : cfg.reader.Aligned := ⟨cfg.cellSize_pos, cfg.cellNum_pos, cfg.diskSize_eq_cells⟩

variable {cfg} {cell offset : ℕ}

theorem diskIdOf_posIn (h : offset < cfg.cellSize) :
    cfg.buffer.diskIdOf (cfg.reader.posIn cell offset) =
      cfg.blockOfCell cell % cfg.diskBlockNum := by
  rw [DataBlockConfig.diskIdOf, ReaderConfig.posIn, cfg.div_blockSize h, cfg.blockOfCell_mod,
    Nat.mod_mod]

theorem slotOf_posIn (h : offset < cfg.cellSize) :
    cfg.buffer.slotOf (cfg.reader.posIn cell offset) =
      cfg.blockOfCell cell % cfg.totalBlockNum := by
  rw [DataBlockConfig.slotOf, ReaderConfig.posIn, cfg.div_blockSize h, cfg.blockOfCell_mod,
    Nat.mod_mod_of_dvd _ cfg.totalBlockNum_dvd]

/-- Only a write that ends the last cell of a block crosses; later cells are in later blocks. -/
theorem Crosses.ends {len : ℕ} (hle : offset + len ≤ cfg.cellSize)
    (h : cfg.buffer.Crosses (cfg.reader.posIn cell offset) len) :
    offset + len = cfg.cellSize ∧
      ∀ later, cell < later → cfg.blockOfCell cell + 1 ≤ cfg.blockOfCell later := by
  have hm := cfg.cellsPerBlock_pos
  have hcs := cfg.cellSize_pos
  have hlast : cell % cfg.cellsPerBlock < cfg.cellsPerBlock := Nat.mod_lt _ hm
  have hdvd : cfg.cellsPerBlock ∣ cfg.cellNum :=
    ⟨cfg.diskBlockNum, by rw [cfg.cellNum_eq, Nat.mul_comm]⟩
  have hpos : cfg.reader.posIn cell offset % cfg.blockSize ≤
      cell % cfg.cellsPerBlock * cfg.cellSize + offset := by
    rw [ReaderConfig.posIn, ← cfg.cellsPerBlock_mul, Nat.add_mod, Nat.mul_mod_mul_right,
      Nat.mod_mod_of_dvd _ hdvd]
    exact (Nat.mod_le _ _).trans (Nat.add_le_add_left (Nat.mod_le _ _) _)
  have hblock : cfg.cellsPerBlock * cfg.cellSize ≤
      cell % cfg.cellsPerBlock * cfg.cellSize + offset + len := by
    rw [DataBlockConfig.Crosses] at h
    rw [cfg.cellsPerBlock_mul]
    exact h.trans (Nat.add_le_add_right hpos _)
  have hend : cell % cfg.cellsPerBlock + 1 = cfg.cellsPerBlock := by
    have : cfg.cellsPerBlock * cfg.cellSize ≤
        (cell % cfg.cellsPerBlock + 1) * cfg.cellSize := by
      rw [Nat.succ_mul]
      omega
    have := Nat.le_of_mul_le_mul_right this hcs
    omega
  refine ⟨?_, fun later hlater => ?_⟩
  · have : cfg.cellsPerBlock * cfg.cellSize =
        cell % cfg.cellsPerBlock * cfg.cellSize + cfg.cellSize := by
      rw [← Nat.succ_mul, Nat.succ_eq_add_one, hend]
    omega
  · rw [cfg.le_blockOfCell_iff, blockOfCell, Nat.succ_mul]
    have := Nat.div_add_mod cell cfg.cellsPerBlock
    rw [Nat.mul_comm] at this
    omega

end DataPathConfig

end TrafficDatabase
