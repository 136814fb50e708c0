import TrafficDatabase.Library.BlockRing
import TrafficDatabase.Data.IndexBlockBuffer

/-!
# Which block a slot holds

Both block buffers label each slot with the disk block it holds, check the labels of
the first two blocks of a write, and move a label on by `totalBlockNum` when its slot
is recycled.  They are rings of blocks: `writeBlock` copies if and only if the ring
accepts the write, and `recycleBlock` is the ring's.

A write is in order exactly where the bytes behind its second block are
(`writeBlock_inOrder_iff`): nothing checks them, and an index run that is written in
one call may have any number of blocks.  Slots and blocks stay in step exactly if
`totalBlockNum` divides `diskBlockNum` (`slots_inStep_iff`), which neither constructor
checks.
-/

namespace TrafficDatabase

/-- The calls that use or change the labels of a buffer. -/
inductive BufferCall (Request : Type)
  | addWriteThread
  | write (threadId : ℕ) (request : Request)
  | recycle (slot : ℕ)

/-! ## The data block buffer -/

/-- The ring a data block buffer is. -/
def DataBlockConfig.ring (cfg : DataBlockConfig) : BlockRing :=
  { count := cfg.totalBlockNum, size := cfg.blockSize, disk := cfg.diskBlockNum }

namespace DataBlockBuffer

variable (cfg : DataBlockConfig)

/-- A buffer under the calls of its writers and of the recycler. -/
def calls (start : DataBlockBuffer) :
    TransitionSystem DataBlockBuffer (BufferCall WriteRequest) where
  init := start
  step buf
    | .addWriteThread => buf.addWriteThread cfg
    | .write threadId req =>
        if threadId < buf.diskWriteIds.length then some (buf.writeBlock cfg threadId req).2
        else none
    | .recycle slot =>
        if slot < cfg.totalBlockNum then some (buf.recycleBlock cfg slot) else none

variable (buf : DataBlockBuffer)

/-- `writeBlock` stores what it says it has stored, in slots that hold the blocks. -/
def WritesInOrder (threadId : ℕ) (req : WriteRequest) : Prop :=
  cfg.ring.InOrder buf.blockDiskId buf.bufferBlocks
    ((buf.writeBlock cfg threadId req).1, (buf.writeBlock cfg threadId req).2.bufferBlocks)
    req.diskPos req.data

variable {cfg buf} {threadId : ℕ} {req : WriteRequest}

theorem writeBlock_accepts : (buf.writeBlock cfg threadId req).1 = true ↔
    cfg.ring.Accepts buf.blockDiskId req.diskPos req.data.length :=
  writeBlock_fst

/-- What the constructor has checked. -/
theorem new_eq_some {start : DataBlockBuffer} (h : new cfg = some start) :
    start.blockDiskId = id ∧ 0 < cfg.totalBlockNum ∧ cfg.totalBlockNum ≤ cfg.diskBlockNum := by
  unfold new at h
  split_ifs at h with hpower htimes hempty
  obtain rfl := Option.some.inj h
  refine ⟨rfl, Nat.pos_of_ne_zero fun hzero => hempty ?_, ?_⟩
  · rw [DataBlockConfig.bufferSize, hzero, Nat.zero_mul]
  · unfold diskBlockTimes at htimes
    omega

end DataBlockBuffer

/-! ## The index block buffer -/

/-- The ring an index block buffer is. -/
def IndexBlockConfig.ring (cfg : IndexBlockConfig) : BlockRing :=
  { count := cfg.totalBlockNum, size := cfg.blockSize, disk := cfg.diskBlockNum }

/-- The bytes of a persister's write and its disk position. -/
structure IndexWrite where
  data : List UInt8
  diskPos : ℕ
deriving DecidableEq, Repr

namespace IndexBlockBuffer

variable (cfg : IndexBlockConfig)

/-- A buffer under the calls of its persisters and of the recycler. -/
def calls (start : IndexBlockBuffer) :
    TransitionSystem IndexBlockBuffer (BufferCall IndexWrite) where
  init := start
  step buf
    | .addWriteThread => buf.addWriteThread cfg
    | .write threadId req =>
        if threadId < buf.diskWriteIds.length then
          some (buf.writeBlock cfg threadId req.data req.diskPos).2
        else none
    | .recycle slot =>
        if slot < cfg.totalBlockNum then some (buf.recycleBlock cfg slot) else none

variable (buf : IndexBlockBuffer)

/-- `writeBlock` stores what it says it has stored, in slots that hold the blocks. -/
def WritesInOrder (threadId : ℕ) (data : List UInt8) (diskPos : ℕ) : Prop :=
  cfg.ring.InOrder buf.blockDiskId buf.bufferBlocks
    ((buf.writeBlock cfg threadId data diskPos).1,
      (buf.writeBlock cfg threadId data diskPos).2.bufferBlocks) diskPos data

variable {cfg buf} {threadId diskPos : ℕ} {data : List UInt8}

/-- `writeBlock` succeeds when the blocks it reaches are held. -/
theorem writeBlock_accepts : (buf.writeBlock cfg threadId data diskPos).1 = true ↔
    cfg.ring.Accepts buf.blockDiskId diskPos data.length := by
  have hfst : (buf.writeBlock cfg threadId data diskPos).1 = true ↔
      buf.blockDiskId (cfg.slotOf diskPos) = cfg.diskIdOf diskPos ∧
        (cfg.blockSize ≤ diskPos % cfg.blockSize + data.length →
          buf.blockDiskId ((cfg.slotOf diskPos + 1) % cfg.totalBlockNum) =
            (cfg.diskIdOf diskPos + 1) % cfg.diskBlockNum) := by
    simp only [writeBlock, setDiskWriteId]
    split_ifs <;> simp_all
  exact hfst

/-- The bytes are copied exactly when the write succeeds. -/
theorem writeBlock_bufferBlocks : (buf.writeBlock cfg threadId data diskPos).2.bufferBlocks =
    if (buf.writeBlock cfg threadId data diskPos).1 then
      buf.bufferBlocks.ringWrite cfg.bufferSize diskPos data
    else buf.bufferBlocks := by
  simp only [writeBlock, setDiskWriteId]
  split_ifs <;> simp_all

/-- What the constructor has checked; it takes a ring without slots. -/
theorem new_eq_some {start : IndexBlockBuffer} (h : new cfg = some start) :
    start.blockDiskId = id ∧ cfg.totalBlockNum < cfg.diskBlockNum := by
  unfold new at h
  split_ifs at h with hpower htimes hempty
  obtain rfl := Option.some.inj h
  refine ⟨rfl, ?_⟩
  unfold DataBlockBuffer.diskBlockTimes at htimes
  omega

end IndexBlockBuffer

/-! ## Both buffers -/

/-- A write is in order exactly if the buffer refuses it, or each byte behind its second
block is in a slot that holds the byte's block or was there before. -/
theorem writeBlock_inOrder_iff (dataCfg : DataBlockConfig) (dataBuf : DataBlockBuffer)
    (indexCfg : IndexBlockConfig) (indexBuf : IndexBlockBuffer) (threadId diskPos : ℕ)
    (req : WriteRequest) (data : List UInt8) (hreq : req.data.length ≤ dataCfg.bufferSize)
    (hdata : data.length ≤ indexCfg.bufferSize) :
    (dataBuf.WritesInOrder dataCfg threadId req ↔
      (dataCfg.ring.Accepts dataBuf.blockDiskId req.diskPos req.data.length →
        dataCfg.ring.BehindOwned dataBuf.blockDiskId dataBuf.bufferBlocks req.diskPos req.data)) ∧
    (indexBuf.WritesInOrder indexCfg threadId data diskPos ↔
      (indexCfg.ring.Accepts indexBuf.blockDiskId diskPos data.length →
        indexCfg.ring.BehindOwned indexBuf.blockDiskId indexBuf.bufferBlocks diskPos data)) := by
  constructor
  · exact BlockRing.inOrder_iff hreq DataBlockBuffer.writeBlock_accepts
      DataBlockBuffer.writeBlock_bufferBlocks
  · exact BlockRing.inOrder_iff hdata IndexBlockBuffer.writeBlock_accepts
      IndexBlockBuffer.writeBlock_bufferBlocks

/-- Four slots of 16 bytes over 17 disk blocks, for two readers or one persister. -/
def seventeenData : DataBlockConfig :=
  { totalBlockNum := 4, blockSize := 16, diskBlockNum := 17, rssNum := 2, delayedBlockNum := 1 }

def seventeenIndex : IndexBlockConfig :=
  { totalBlockNum := 4, blockSize := 16, diskBlockNum := 17, threadNum := 1 }

/-- The buffers as constructed. -/
def DataBlockBuffer.constructed : DataBlockBuffer :=
  { bufferBlocks := fun _ => 0
    blockDiskId := id
    startTimes := fun _ => u64Max
    endTimes := fun _ => 0
    packetCounts := fun _ => 0
    diskWriteIds := []
    blockCheckIds := [] }

def IndexBlockBuffer.constructed : IndexBlockBuffer :=
  { bufferBlocks := fun _ => 0, blockDiskId := id, diskWriteIds := [], blockCheckIds := [] }

/-- Three bytes over the end of block 0, and 64 bytes from block 1 on. -/
theorem writeBlock_inOrder_iff_instances :
    (DataBlockBuffer.constructed.WritesInOrder seventeenData 0 ⟨[1, 2, 3], 14, true, true, 5⟩ ↔
      (seventeenData.ring.Accepts id 14 3 →
        seventeenData.ring.BehindOwned id (fun _ => 0) 14 [1, 2, 3])) ∧
    (IndexBlockBuffer.constructed.WritesInOrder seventeenIndex 0 (List.replicate 64 7) 16 ↔
      (seventeenIndex.ring.Accepts id 16 64 →
        seventeenIndex.ring.BehindOwned id (fun _ => 0) 16 (List.replicate 64 7))) :=
  writeBlock_inOrder_iff seventeenData DataBlockBuffer.constructed seventeenIndex
    IndexBlockBuffer.constructed 0 16 ⟨[1, 2, 3], 14, true, true, 5⟩ (List.replicate 64 7)
    (by decide) (by decide)

/-- A run of four blocks from block 1 on goes over slot 0, which holds block 0. -/
theorem writeBlock_over_block : ∃ start buf,
    IndexBlockBuffer.new seventeenIndex = some start ∧
    (IndexBlockBuffer.calls seventeenIndex start).Reachable (fun _ _ => True) buf ∧
    ¬ buf.WritesInOrder seventeenIndex 0 (List.replicate 64 7) 16 := by
  refine ⟨IndexBlockBuffer.constructed, { IndexBlockBuffer.constructed with diskWriteIds := [0] },
    rfl, ?_, ?_⟩
  · exact @TransitionSystem.Reachable.step _ _ _ _ _ _ .addWriteThread .init trivial rfl
  · intro h
    have hbehind := (BlockRing.inOrder_iff (by decide) IndexBlockBuffer.writeBlock_accepts
      IndexBlockBuffer.writeBlock_bufferBlocks).mp h (by decide)
    rcases hbehind 48 (by decide) (by decide) with howned | hthere
    · revert howned
      decide
    · revert hthere
      decide

end TrafficDatabase
