import TrafficDatabase.Data.DataBlockBuffer

/-!
# The index block buffer

`IndexBlockBuffer` is the ring of blocks the persisters write the sorted index
records to.  It is the data block buffer without times and packet counts, and
without a delay: its dump threads hand out a block as soon as every persister has
published a later one.  Behind the ring lies one backup block, which lets
`sortIndex` sort in place a run of records that goes over the end of the ring.

`std::sort` orders records by their key and says nothing about records of equal
keys, so it enters as `StdSort`, a function with these two properties.
-/

namespace TrafficDatabase

/-- The constants of an `IndexBlockBuffer`. -/
structure IndexBlockConfig where
  totalBlockNum : ℕ
  blockSize : ℕ
  diskBlockNum : ℕ
  threadNum : ℕ
deriving DecidableEq, Repr

namespace IndexBlockConfig

def bufferSize (cfg : IndexBlockConfig) : ℕ := cfg.totalBlockNum * cfg.blockSize

def slotOf (cfg : IndexBlockConfig) (diskPos : ℕ) : ℕ :=
  (diskPos / cfg.blockSize) % cfg.totalBlockNum

def diskIdOf (cfg : IndexBlockConfig) (diskPos : ℕ) : ℕ :=
  (diskPos / cfg.blockSize) % cfg.diskBlockNum

end IndexBlockConfig

/-- What `getBlock` hands to a dump thread; `buffer` is the address of the slot. -/
structure IndexBlock where
  blockId : ℕ
  writePos : ℕ
  buffer : ℕ
deriving DecidableEq, Repr

structure IndexBlockBuffer where
  bufferBlocks : Memory
  blockDiskId : ℕ → ℕ
  diskWriteIds : List ℕ
  blockCheckIds : List ℕ

/-! ## Records -/

/-- The key of a record: an IP address or a port, as an unsigned number.  The
halves of an `IPv6Address` compare by `high` first, and `high` lies behind `low`
in memory, so its order too is that of the number. -/
def recordKey (keyLen : ℕ) (record : List UInt8) : ℕ := ofLittleEndian (record.take keyLen)

/-- The records are in the order of `Record::operator<`. -/
def SortedByKey (keyLen : ℕ) (records : List (List UInt8)) : Prop :=
  records.Pairwise fun first second => recordKey keyLen first ≤ recordKey keyLen second

/-- `std::sort` on records of a key length. -/
structure StdSort where
  sort : ℕ → List (List UInt8) → List (List UInt8)
  perm : ∀ keyLen records, (sort keyLen records).Perm records
  sorted : ∀ keyLen records, SortedByKey keyLen (sort keyLen records)

namespace IndexBlockBuffer

variable (cfg : IndexBlockConfig)

/-- The constructor; `none` where it throws.  A mapping of no bytes fails. -/
def new : Option IndexBlockBuffer :=
  if cfg.bufferSize &&& (cfg.bufferSize - 1) ≠ 0 then none
  else if cfg.totalBlockNum * DataBlockBuffer.diskBlockTimes ≥ cfg.diskBlockNum then none
  else if cfg.bufferSize + cfg.blockSize = 0 then none
  else some
    { bufferBlocks := fun _ => 0
      blockDiskId := id
      diskWriteIds := []
      blockCheckIds := [] }

variable (buf : IndexBlockBuffer)

def addWriteThread : Option IndexBlockBuffer :=
  let id := buf.diskWriteIds.length
  if id ≥ cfg.totalBlockNum then none
  else some { buf with diskWriteIds := buf.diskWriteIds ++ [id] }

def addCheckThread : Option IndexBlockBuffer :=
  let id := buf.blockCheckIds.length
  if id ≥ cfg.totalBlockNum then none
  else some { buf with blockCheckIds := buf.blockCheckIds ++ [id] }

def checkThread (blockCheckId rssId : ℕ) : Bool :=
  let diskWriteId := buf.diskWriteIds.getD rssId 0
  let barrierLen := cfg.totalBlockNum * 2
  let diskRightBarrierId := buf.blockDiskId blockCheckId % cfg.diskBlockNum
  let diskLeftBarrierId := (diskRightBarrierId + cfg.diskBlockNum - barrierLen) % cfg.diskBlockNum
  decide (OutsideWindow diskLeftBarrierId diskRightBarrierId diskWriteId)

/-- Publish the block a writer has come to. -/
def setDiskWriteId (threadId diskId : ℕ) : IndexBlockBuffer :=
  { buf with diskWriteIds := buf.diskWriteIds.set threadId diskId }

def writeBlock (threadId : ℕ) (data : List UInt8) (diskPos : ℕ) : Bool × IndexBlockBuffer :=
  let blockId := cfg.slotOf diskPos
  let diskId := cfg.diskIdOf diskPos
  let copied :=
    { buf with bufferBlocks := buf.bufferBlocks.ringWrite cfg.bufferSize diskPos data }
  if buf.blockDiskId blockId ≠ diskId then (false, buf.setDiskWriteId threadId diskId)
  else if diskPos % cfg.blockSize + data.length ≥ cfg.blockSize then
    let nextId := (blockId + 1) % cfg.totalBlockNum
    let nextDiskId := (diskId + 1) % cfg.diskBlockNum
    if buf.blockDiskId nextId ≠ nextDiskId then (false, buf.setDiskWriteId threadId nextDiskId)
    else (true, copied.setDiskWriteId threadId nextDiskId)
  else (true, copied.setDiskWriteId threadId diskId)

/-- The records at an address of the buffer. -/
def records (mem : Memory) (pos recordSize numRecords : ℕ) : List (List UInt8) :=
  (List.range numRecords).map fun i => mem.read (pos + i * recordSize) recordSize

/-- `none` where the source throws, or copies past the end of its backup block. -/
def sortIndex (std : StdSort) (startPos len keyLen : ℕ) : Option IndexBlockBuffer :=
  let blockPos := startPos % cfg.bufferSize
  let overLen := len + blockPos - cfg.bufferSize
  let recordSize := keyLen + 8
  if keyLen ≠ 2 ∧ keyLen ≠ 4 ∧ keyLen ≠ 16 then none
  else if overLen > cfg.blockSize then none
  else
    let backed :=
      if blockPos + len > cfg.bufferSize then
        buf.bufferBlocks.write cfg.bufferSize (buf.bufferBlocks.read 0 overLen)
      else buf.bufferBlocks
    let sorted := backed.write blockPos
      (std.sort keyLen (records backed blockPos recordSize (len / recordSize))).flatten
    some { buf with
      bufferBlocks :=
        if blockPos + len > cfg.bufferSize then sorted.write 0 (sorted.read cfg.bufferSize overLen)
        else sorted }

/-- The slot the thread checks, if no writer is in its window. -/
def checkBlock (threadId : ℕ) : Option ℕ :=
  let blockCheckId := buf.blockCheckIds.getD threadId 0
  if (List.range cfg.threadNum).all fun i => buf.checkThread cfg blockCheckId i then
    some blockCheckId
  else none

def getBlock (threadId : ℕ) : IndexBlock × IndexBlockBuffer :=
  let blockId := buf.blockCheckIds.getD threadId 0
  ({ blockId, writePos := buf.blockDiskId blockId, buffer := blockId * cfg.blockSize },
    { buf with
      blockCheckIds := buf.blockCheckIds.set threadId
        ((blockId + buf.blockCheckIds.length) % cfg.totalBlockNum) })

def recycleBlock (blockId : ℕ) : IndexBlockBuffer :=
  { buf with
    blockDiskId := Function.update buf.blockDiskId blockId
      ((buf.blockDiskId blockId + cfg.totalBlockNum) % cfg.diskBlockNum) }

/-! ## What the operations do -/

variable {cfg buf} {threadId diskPos : ℕ} {data : List UInt8}

@[simp] theorem writeBlock_blockDiskId :
    (buf.writeBlock cfg threadId data diskPos).2.blockDiskId = buf.blockDiskId := by
  simp only [writeBlock, setDiskWriteId]; split_ifs <;> rfl

@[simp] theorem writeBlock_blockCheckIds :
    (buf.writeBlock cfg threadId data diskPos).2.blockCheckIds = buf.blockCheckIds := by
  simp only [writeBlock, setDiskWriteId]; split_ifs <;> rfl

/-- A write to a block the buffer does not hold publishes that block. -/
theorem writeBlock_diskWriteIds_of_ne
    (h : buf.blockDiskId (cfg.slotOf diskPos) ≠ cfg.diskIdOf diskPos) :
    (buf.writeBlock cfg threadId data diskPos).2.diskWriteIds =
      buf.diskWriteIds.set threadId (cfg.diskIdOf diskPos) := by
  simp only [writeBlock, if_pos h, setDiskWriteId]

/-- A write publishes in the place of its own thread only. -/
theorem writeBlock_diskWriteIds : ∃ diskId,
    (buf.writeBlock cfg threadId data diskPos).2.diskWriteIds =
      buf.diskWriteIds.set threadId diskId := by
  simp only [writeBlock, setDiskWriteId]
  split_ifs <;> exact ⟨_, rfl⟩

theorem checkBlock_eq_some {slot : ℕ} : buf.checkBlock cfg threadId = some slot ↔
    slot = buf.blockCheckIds.getD threadId 0 ∧
      ∀ i < cfg.threadNum, buf.checkThread cfg slot i = true := by
  simp only [checkBlock]
  split_ifs with h
  · simp only [List.all_eq_true, List.mem_range] at h
    constructor
    · rintro ⟨⟩
      exact ⟨rfl, h⟩
    · rintro ⟨rfl, _⟩
      rfl
  · simp only [List.all_eq_true, List.mem_range] at h
    refine ⟨nofun, ?_⟩
    rintro ⟨rfl, hall⟩
    exact absurd hall h

end IndexBlockBuffer

end TrafficDatabase
