import Mathlib.Algebra.BigOperators.Group.List.Basic
import Mathlib.Logic.Function.Basic
import TrafficDatabase.Library.Bytes
import TrafficDatabase.Library.Residue

/-!
# The data block buffer

`DataBlockBuffer` is a ring of `totalBlockNum` block slots over a disk of
`diskBlockNum` blocks.  Slot `s` holds the disk block `blockDiskId s`.  Writers
copy bytes into the slots that hold their block and publish in `diskWriteIds`
how far they are; a dump thread hands out the slot it checks once every
writer's published block has left a window of `2 * totalBlockNum` blocks ending
`delayedBlockNum` blocks after the slot's own; a recycled slot holds the disk
block `totalBlockNum` further on.

The definitions follow `dataBlockbuffer.hpp`.  The constants of the class are
the fields of `DataBlockConfig`; its arrays are functions and its vectors lists.
The second half states what each operation does to each field, so that later
proofs never unfold `writeBlock`.
-/

namespace TrafficDatabase

/-- `std::numeric_limits<uint64_t>::max()`. -/
def u64Max : ℕ := 2 ^ 64 - 1

/-- The constants of a `DataBlockBuffer`. -/
structure DataBlockConfig where
  totalBlockNum : ℕ
  blockSize : ℕ
  diskBlockNum : ℕ
  rssNum : ℕ
  delayedBlockNum : ℕ
deriving DecidableEq, Repr

namespace DataBlockConfig

def bufferSize (cfg : DataBlockConfig) : ℕ := cfg.totalBlockNum * cfg.blockSize

/-- The slot a disk position falls in. -/
def slotOf (cfg : DataBlockConfig) (diskPos : ℕ) : ℕ :=
  (diskPos / cfg.blockSize) % cfg.totalBlockNum

/-- The disk block a disk position falls in. -/
def diskIdOf (cfg : DataBlockConfig) (diskPos : ℕ) : ℕ :=
  (diskPos / cfg.blockSize) % cfg.diskBlockNum

/-- A write of `len` bytes at `diskPos` reaches the end of its block. -/
def Crosses (cfg : DataBlockConfig) (diskPos len : ℕ) : Prop :=
  cfg.blockSize ≤ diskPos % cfg.blockSize + len

instance (cfg : DataBlockConfig) (diskPos len : ℕ) : Decidable (cfg.Crosses diskPos len) :=
  inferInstanceAs (Decidable (_ ≤ _))

end DataBlockConfig

/-- What `getBlock` hands to a dump thread; `buffer` is the address of the slot. -/
structure DataBlock where
  blockId : ℕ
  writePos : ℕ
  startTime : ℕ
  endTime : ℕ
  packetCount : ℕ
  buffer : ℕ
deriving DecidableEq, Repr

structure DataBlockBuffer where
  bufferBlocks : Memory
  blockDiskId : ℕ → ℕ
  startTimes : ℕ → ℕ
  endTimes : ℕ → ℕ
  packetCounts : ℕ → ℕ
  diskWriteIds : List ℕ
  blockCheckIds : List ℕ

/-- The arguments of one `writeBlock` call of a writer, but for its thread id. -/
structure WriteRequest where
  data : List UInt8
  diskPos : ℕ
  newData : Bool
  newIndex : Bool
  ts : ℕ
deriving DecidableEq, Repr

namespace DataBlockBuffer

variable (cfg : DataBlockConfig)

/-- `DISK_BLOCK_TIMES` -/
def diskBlockTimes : ℕ := 4

/-- The constructor; `none` where it throws.  A mapping of no bytes fails. -/
def new : Option DataBlockBuffer :=
  if cfg.bufferSize &&& (cfg.bufferSize - 1) ≠ 0 then none
  else if cfg.totalBlockNum * diskBlockTimes ≥ cfg.diskBlockNum then none
  else if cfg.bufferSize = 0 then none
  else some
    { bufferBlocks := fun _ => 0
      blockDiskId := id
      startTimes := fun _ => u64Max
      endTimes := fun _ => 0
      packetCounts := fun _ => 0
      diskWriteIds := []
      blockCheckIds := [] }

variable (buf : DataBlockBuffer)

/-- `none` is the source's refusal of a thread too many. -/
def addWriteThread : Option DataBlockBuffer :=
  let id := buf.diskWriteIds.length
  if id ≥ cfg.totalBlockNum then none
  else some { buf with diskWriteIds := buf.diskWriteIds ++ [id] }

def addCheckThread : Option DataBlockBuffer :=
  let id := buf.blockCheckIds.length
  if id ≥ cfg.totalBlockNum then none
  else some { buf with blockCheckIds := buf.blockCheckIds ++ [id] }

def checkRSS (blockCheckId rssId : ℕ) : Bool :=
  let diskWriteId := buf.diskWriteIds.getD rssId 0
  let barrierLen := cfg.totalBlockNum * 2
  let diskRightBarrierId :=
    (buf.blockDiskId blockCheckId + cfg.delayedBlockNum) % cfg.diskBlockNum
  let diskLeftBarrierId := (diskRightBarrierId + cfg.diskBlockNum - barrierLen) % cfg.diskBlockNum
  decide (OutsideWindow diskLeftBarrierId diskRightBarrierId diskWriteId)

def directCheckRSS (blockCheckId rssId : ℕ) : Bool :=
  let diskWriteId := buf.diskWriteIds.getD rssId 0
  let barrierLen := cfg.totalBlockNum * 2
  let diskRightBarrierId := buf.blockDiskId blockCheckId % cfg.diskBlockNum
  let diskLeftBarrierId := (diskRightBarrierId + cfg.diskBlockNum - barrierLen) % cfg.diskBlockNum
  decide (OutsideHalfOpen diskLeftBarrierId diskRightBarrierId diskWriteId)

/-- Publish the block a writer has come to. -/
def setDiskWriteId (threadId diskId : ℕ) : DataBlockBuffer :=
  { buf with diskWriteIds := buf.diskWriteIds.set threadId diskId }

/-- The end of `writeBlock`, once both blocks of the write are known to be held:
note the times at a cell boundary, copy, publish and count. -/
def finishWrite (threadId blockId diskId : ℕ) (req : WriteRequest) : DataBlockBuffer :=
  let blockOffset := req.diskPos % cfg.blockSize
  let timed :=
    if (blockOffset + req.data.length) % (cfg.blockSize / cfg.rssNum) = 0 ∧ req.newData then
      let next := (blockId + 1) % cfg.totalBlockNum
      { buf with
        endTimes := Function.update buf.endTimes blockId req.ts
        startTimes := Function.update buf.startTimes next (min (buf.startTimes next) req.ts) }
    else buf
  let copied :=
    { timed with bufferBlocks := timed.bufferBlocks.ringWrite cfg.bufferSize req.diskPos req.data }
  if req.newData then
    let published := copied.setDiskWriteId threadId diskId
    if req.newIndex then
      let counter := cfg.slotOf req.diskPos + cfg.totalBlockNum * threadId
      { published with
        packetCounts := Function.update published.packetCounts counter
          (published.packetCounts counter + 1) }
    else published
  else copied

def writeBlock (threadId : ℕ) (req : WriteRequest) : Bool × DataBlockBuffer :=
  let blockId := cfg.slotOf req.diskPos
  let diskId := cfg.diskIdOf req.diskPos
  if buf.blockDiskId blockId ≠ diskId then
    (false, if req.newData then buf.setDiskWriteId threadId diskId else buf)
  else if cfg.Crosses req.diskPos req.data.length then
    let ended :=
      if req.newData then { buf with endTimes := Function.update buf.endTimes blockId req.ts }
      else buf
    let nextId := (blockId + 1) % cfg.totalBlockNum
    let nextDiskId := (diskId + 1) % cfg.diskBlockNum
    if ended.blockDiskId nextId ≠ nextDiskId then
      (false, if req.newData then ended.setDiskWriteId threadId nextDiskId else ended)
    else
      let started :=
        if req.newData then
          { ended with
            startTimes := Function.update ended.startTimes nextId
              (min (ended.startTimes nextId) req.ts) }
        else ended
      (true, started.finishWrite cfg threadId nextId nextDiskId req)
  else (true, buf.finishWrite cfg threadId blockId diskId req)

/-- The slot the thread checks, if no writer is in its window. -/
def checkBlock (threadId : ℕ) : Option ℕ :=
  let blockCheckId := buf.blockCheckIds.getD threadId 0
  if (List.range cfg.rssNum).all fun i => buf.checkRSS cfg blockCheckId i then some blockCheckId
  else none

/-- The slot the thread checks, if some writer has come to its block. -/
def directGetBlockID (threadId : ℕ) : Option ℕ :=
  let blockCheckId := buf.blockCheckIds.getD threadId 0
  if (List.range cfg.rssNum).any fun i => buf.directCheckRSS cfg blockCheckId i then
    some blockCheckId
  else none

def getBlock (threadId : ℕ) : DataBlock × DataBlockBuffer :=
  let blockId := buf.blockCheckIds.getD threadId 0
  let counters := (List.range cfg.rssNum).map fun i => blockId + cfg.totalBlockNum * i
  let block :=
    { blockId := blockId
      writePos := buf.blockDiskId blockId
      startTime := buf.startTimes blockId
      endTime := buf.endTimes blockId
      packetCount := (counters.map buf.packetCounts).sum
      buffer := blockId * cfg.blockSize }
  (block,
    { buf with
      packetCounts := fun counter => if counter ∈ counters then 0 else buf.packetCounts counter
      blockCheckIds := buf.blockCheckIds.set threadId
        ((blockId + buf.blockCheckIds.length) % cfg.totalBlockNum) })

def recycleBlock (blockId : ℕ) : DataBlockBuffer :=
  { buf with
    blockDiskId := Function.update buf.blockDiskId blockId
      ((buf.blockDiskId blockId + cfg.totalBlockNum) % cfg.diskBlockNum) }

/-! ## What `writeBlock` does -/

/-- The slot of a disk position holds the position's block. -/
def Holds (diskPos : ℕ) : Prop := buf.blockDiskId (cfg.slotOf diskPos) = cfg.diskIdOf diskPos

instance (diskPos : ℕ) : Decidable (buf.Holds cfg diskPos) := inferInstanceAs (Decidable (_ = _))

/-- The slot after that of a disk position holds the next block. -/
def HoldsNext (diskPos : ℕ) : Prop :=
  buf.blockDiskId ((cfg.slotOf diskPos + 1) % cfg.totalBlockNum) =
    (cfg.diskIdOf diskPos + 1) % cfg.diskBlockNum

/-- The disk block `writeBlock` publishes for a write at `diskPos`. -/
def publishedId (diskPos len : ℕ) : ℕ :=
  if buf.blockDiskId (cfg.slotOf diskPos) = cfg.diskIdOf diskPos ∧ cfg.Crosses diskPos len then
    (cfg.diskIdOf diskPos + 1) % cfg.diskBlockNum
  else cfg.diskIdOf diskPos

variable {cfg buf} {threadId : ℕ} {req : WriteRequest}

@[simp] theorem finishWrite_blockDiskId (blockId diskId : ℕ) :
    (buf.finishWrite cfg threadId blockId diskId req).blockDiskId = buf.blockDiskId := by
  simp only [finishWrite, setDiskWriteId]; split_ifs <;> simp

@[simp] theorem finishWrite_blockCheckIds (blockId diskId : ℕ) :
    (buf.finishWrite cfg threadId blockId diskId req).blockCheckIds = buf.blockCheckIds := by
  simp only [finishWrite, setDiskWriteId]; split_ifs <;> simp

theorem finishWrite_diskWriteIds (blockId diskId : ℕ) :
    (buf.finishWrite cfg threadId blockId diskId req).diskWriteIds =
      if req.newData then buf.diskWriteIds.set threadId diskId else buf.diskWriteIds := by
  simp only [finishWrite, setDiskWriteId]; split_ifs <;> simp

theorem finishWrite_bufferBlocks (blockId diskId : ℕ) :
    (buf.finishWrite cfg threadId blockId diskId req).bufferBlocks =
      buf.bufferBlocks.ringWrite cfg.bufferSize req.diskPos req.data := by
  simp only [finishWrite, setDiskWriteId]; split_ifs <;> rfl

theorem finishWrite_packetCounts (blockId diskId : ℕ) :
    (buf.finishWrite cfg threadId blockId diskId req).packetCounts =
      if req.newData ∧ req.newIndex then
        Function.update buf.packetCounts (cfg.slotOf req.diskPos + cfg.totalBlockNum * threadId)
          (buf.packetCounts (cfg.slotOf req.diskPos + cfg.totalBlockNum * threadId) + 1)
      else buf.packetCounts := by
  simp only [finishWrite, setDiskWriteId]; split_ifs <;> simp_all

/-- `writeBlock` succeeds when the blocks it reaches are held. -/
theorem writeBlock_fst : (buf.writeBlock cfg threadId req).1 = true ↔
    buf.Holds cfg req.diskPos ∧
      (cfg.Crosses req.diskPos req.data.length → buf.HoldsNext cfg req.diskPos) := by
  simp only [writeBlock, Holds, HoldsNext]
  split_ifs <;> simp_all

@[simp] theorem writeBlock_blockDiskId :
    (buf.writeBlock cfg threadId req).2.blockDiskId = buf.blockDiskId := by
  simp only [writeBlock, setDiskWriteId]; split_ifs <;> simp

@[simp] theorem writeBlock_blockCheckIds :
    (buf.writeBlock cfg threadId req).2.blockCheckIds = buf.blockCheckIds := by
  simp only [writeBlock, setDiskWriteId]; split_ifs <;> simp

theorem writeBlock_diskWriteIds :
    (buf.writeBlock cfg threadId req).2.diskWriteIds =
      if req.newData then
        buf.diskWriteIds.set threadId (buf.publishedId cfg req.diskPos req.data.length)
      else buf.diskWriteIds := by
  simp only [writeBlock, setDiskWriteId, publishedId]
  split_ifs <;> simp_all [finishWrite_diskWriteIds]

/-- The bytes are copied exactly when the write succeeds. -/
theorem writeBlock_bufferBlocks :
    (buf.writeBlock cfg threadId req).2.bufferBlocks =
      if (buf.writeBlock cfg threadId req).1 then
        buf.bufferBlocks.ringWrite cfg.bufferSize req.diskPos req.data
      else buf.bufferBlocks := by
  simp only [writeBlock, setDiskWriteId]
  split_ifs <;> simp_all [finishWrite_bufferBlocks]

/-- The packet is counted exactly when its header is written. -/
theorem writeBlock_packetCounts :
    (buf.writeBlock cfg threadId req).2.packetCounts =
      if (buf.writeBlock cfg threadId req).1 ∧ req.newData ∧ req.newIndex then
        Function.update buf.packetCounts (cfg.slotOf req.diskPos + cfg.totalBlockNum * threadId)
          (buf.packetCounts (cfg.slotOf req.diskPos + cfg.totalBlockNum * threadId) + 1)
      else buf.packetCounts := by
  simp only [writeBlock, setDiskWriteId]
  split_ifs <;> simp_all [finishWrite_packetCounts]

/-! ## What the dump threads do -/

theorem checkBlock_eq_some {slot : ℕ} : buf.checkBlock cfg threadId = some slot ↔
    slot = buf.blockCheckIds.getD threadId 0 ∧
      ∀ i < cfg.rssNum, buf.checkRSS cfg slot i = true := by
  simp only [checkBlock]
  split_ifs with h
  · simp only [List.all_eq_true, List.mem_range] at h
    constructor
    · rintro ⟨⟩; exact ⟨rfl, h⟩
    · rintro ⟨rfl, _⟩; rfl
  · simp only [List.all_eq_true, List.mem_range] at h
    refine ⟨nofun, ?_⟩
    rintro ⟨rfl, hall⟩
    exact absurd hall h

theorem directGetBlockID_eq_some {slot : ℕ} : buf.directGetBlockID cfg threadId = some slot ↔
    slot = buf.blockCheckIds.getD threadId 0 ∧
      ∃ i < cfg.rssNum, buf.directCheckRSS cfg slot i = true := by
  simp only [directGetBlockID]
  split_ifs with h
  · simp only [List.any_eq_true, List.mem_range] at h
    constructor
    · rintro ⟨⟩; exact ⟨rfl, h⟩
    · rintro ⟨rfl, _⟩; rfl
  · simp only [List.any_eq_true, List.mem_range] at h
    refine ⟨False.elim, ?_⟩
    rintro ⟨rfl, hany⟩
    exact absurd hany h

theorem directGetBlockID_eq_none : buf.directGetBlockID cfg threadId = none ↔
    ∀ i < cfg.rssNum, buf.directCheckRSS cfg (buf.blockCheckIds.getD threadId 0) i = false := by
  rw [← not_iff_not, ← ne_eq, Option.ne_none_iff_exists']
  simp only [directGetBlockID_eq_some, exists_eq_left, not_forall, Bool.not_eq_false, exists_prop]

@[simp] theorem getBlock_blockDiskId :
    (buf.getBlock cfg threadId).2.blockDiskId = buf.blockDiskId := rfl

@[simp] theorem getBlock_diskWriteIds :
    (buf.getBlock cfg threadId).2.diskWriteIds = buf.diskWriteIds := rfl

@[simp] theorem getBlock_blockCheckIds :
    (buf.getBlock cfg threadId).2.blockCheckIds = buf.blockCheckIds.set threadId
      ((buf.blockCheckIds.getD threadId 0 + buf.blockCheckIds.length) % cfg.totalBlockNum) := rfl

@[simp] theorem getBlock_bufferBlocks :
    (buf.getBlock cfg threadId).2.bufferBlocks = buf.bufferBlocks := rfl

@[simp] theorem getBlock_blockId :
    (buf.getBlock cfg threadId).1.blockId = buf.blockCheckIds.getD threadId 0 := rfl

@[simp] theorem getBlock_writePos : (buf.getBlock cfg threadId).1.writePos =
    buf.blockDiskId (buf.blockCheckIds.getD threadId 0) := rfl

@[simp] theorem recycleBlock_diskWriteIds (slot : ℕ) :
    (buf.recycleBlock cfg slot).diskWriteIds = buf.diskWriteIds := rfl

@[simp] theorem recycleBlock_blockCheckIds (slot : ℕ) :
    (buf.recycleBlock cfg slot).blockCheckIds = buf.blockCheckIds := rfl

@[simp] theorem recycleBlock_packetCounts (slot : ℕ) :
    (buf.recycleBlock cfg slot).packetCounts = buf.packetCounts := rfl

@[simp] theorem recycleBlock_bufferBlocks (slot : ℕ) :
    (buf.recycleBlock cfg slot).bufferBlocks = buf.bufferBlocks := rfl

end DataBlockBuffer

end TrafficDatabase
