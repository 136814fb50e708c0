import TrafficDatabase.Index.MemoryPool

/-!
# The index buffer and the persisters

`IndexBuffer` has a slot for each of a few disk blocks, with the column of the
bitmap the keys of the block are set in and the number of its index records; the
records themselves are in the memory pools.  A persister takes a slot whose
records are complete, writes the records to the index block buffer, type after
type, and sorts them (`persistMeta`); then it empties the column the slot writes
next and moves the slot on to its next disk block (`clearMeta`).  `DiskBuffer`
keeps what lookups need: for every disk block the column of its keys and the
range of its records on the index disk.

The slot of a check thread is looked up by the number of the thread; a persister
has the same number in the index buffer and in the index block buffer, since its
constructor registers with both.
-/

namespace TrafficDatabase

/-- The constants of the index buffer, the bitmap, the memory pools, the disk
buffer, the index block buffer and the persisters, with the checks of the
constructors.  `persisterDiskSize` is the `disk_size` of the persisters. -/
structure IndexConfig where
  totalBlockNum : ℕ
  diskBlockNum : ℕ
  rowCount : ℕ
  backupColCount : ℕ
  hashNum : ℕ
  poolNum : ℕ
  poolCapacity : ℕ
  poolListLen : ℕ
  checkThreadNum : ℕ
  indexBlock : IndexBlockConfig
  persisterDiskSize : ℕ
  totalBlockNum_pos : 0 < totalBlockNum
  diskBlockNum_pos : 0 < diskBlockNum
  diskBlockNum_mod : diskBlockNum % totalBlockNum = 0
  bitmap : (BitMap.new rowCount diskBlockNum backupColCount).isSome
  checkThreadNum_le : checkThreadNum ≤ totalBlockNum
  writeThreadNum_le : checkThreadNum ≤ indexBlock.totalBlockNum
  indexBlock_accepted : (IndexBlockBuffer.new indexBlock).isSome
  persisterDiskSize_pow : persisterDiskSize &&& (persisterDiskSize - 1) = 0

/-- A slot of the index buffer. -/
structure IndexBufferMeta where
  bloomFilterMeta : PrefixBloomFilter
  diskBlockId : ℕ
  indexCount : ℕ
deriving DecidableEq, Repr

/-- What lookups know of a disk block; `diskIndexMeta` is the range of the records of a type. -/
structure DiskMeta where
  bloomFilterMeta : PrefixBloomFilter
  diskIndexMeta : IndexType → ℕ × ℕ
  packetCount : ℕ

structure IndexState where
  bitmap : BitMap
  metas : ℕ → IndexBufferMeta
  indexCheckIds : List ℕ
  memoryPools : ℕ → IndexMemoryPool
  diskMetas : ℕ → DiskMeta
  indexBlockBuffer : IndexBlockBuffer
  diskWritePos : ℕ

namespace IndexState

variable (cfg : IndexConfig)

/-- The constructors, for persisters that register one after the other. -/
def init : IndexState :=
  let bitmap := (BitMap.new cfg.rowCount cfg.diskBlockNum cfg.backupColCount).get cfg.bitmap
  { bitmap
    metas := fun slot =>
      { bloomFilterMeta := PrefixBloomFilter.init.setWritingCol bitmap slot
        diskBlockId := slot
        indexCount := 0 }
    indexCheckIds := List.range cfg.checkThreadNum
    memoryPools := fun _ => IndexMemoryPool.new cfg.poolCapacity cfg.poolListLen
    diskMetas := fun _ =>
      { bloomFilterMeta := PrefixBloomFilter.init
        diskIndexMeta := fun _ => (0, 0)
        packetCount := 0 }
    indexBlockBuffer :=
      { bufferBlocks := fun _ => 0
        blockDiskId := id
        diskWriteIds := List.range cfg.checkThreadNum
        blockCheckIds := [] }
    diskWritePos := 0 }

variable (st : IndexState)

/-! ## `DiskBuffer` -/

def setIndexID (diskBlockId : ℕ) (type : IndexType) (indexStart indexEnd : ℕ) : IndexState :=
  if diskBlockId < cfg.diskBlockNum then
    let diskMeta := st.diskMetas diskBlockId
    { st with
      diskMetas := Function.update st.diskMetas diskBlockId
        { diskMeta with
          diskIndexMeta := Function.update diskMeta.diskIndexMeta type (indexStart, indexEnd) } }
  else st

def setBloomFilterReadingCol (diskBlockId col : ℕ) : IndexState :=
  if diskBlockId < cfg.diskBlockNum then
    let diskMeta := st.diskMetas diskBlockId
    { st with
      diskMetas := Function.update st.diskMetas diskBlockId
        { diskMeta with
          bloomFilterMeta := diskMeta.bloomFilterMeta.setReadingCol st.bitmap col } }
  else st

def setPacketCount (diskBlockId packetCount : ℕ) : IndexState :=
  if diskBlockId < cfg.diskBlockNum then
    { st with
      diskMetas := Function.update st.diskMetas diskBlockId
        { st.diskMetas diskBlockId with packetCount } }
  else st

def clearPacketCount (diskBlockId : ℕ) : IndexState := st.setPacketCount cfg diskBlockId 0

def checkKey (hash : StdHash) (diskBlockId : ℕ) (key : List UInt8) (type : IndexType) : Bool :=
  if diskBlockId ≥ cfg.diskBlockNum then false
  else (st.diskMetas diskBlockId).bloomFilterMeta.checkKey hash cfg.hashNum st.bitmap key type

/-! ## `IndexBuffer` -/

/-- `none` where the call never returns. -/
def insert (hash : StdHash) (flow : FlowMetadata) (position diskBlockId rxId : ℕ) :
    Option (Bool × IndexState) :=
  let bufferMetaId := diskBlockId % cfg.totalBlockNum
  let bufferMeta := st.metas bufferMetaId
  if bufferMeta.diskBlockId ≠ diskBlockId then some (false, st)
  else
    let bloom := bufferMeta.bloomFilterMeta.insertFlow hash cfg.hashNum st.bitmap flow
    if bloom.1 then
      ((st.memoryPools rxId).insert flow position diskBlockId).map fun pool =>
        (true, { st with
          bitmap := bloom.2
          memoryPools := Function.update st.memoryPools rxId pool
          metas := Function.update st.metas bufferMetaId
            { bufferMeta with indexCount := bufferMeta.indexCount + 1 } })
    else some (false, { st with bitmap := bloom.2 })

/-- The slot a check thread is at. -/
def checkId (threadId : ℕ) : ℕ := st.indexCheckIds.getD threadId 0

def checkIndexCount (threadId : ℕ) : ℕ := (st.metas (st.checkId threadId)).indexCount

def getCheckDishID (threadId : ℕ) : ℕ := (st.metas (st.checkId threadId)).diskBlockId

def updateIndexBufferMeta (threadId bitmapCol : ℕ) : IndexState :=
  let blockCheckId := st.checkId threadId
  let bufferMeta := st.metas blockCheckId
  { st with
    memoryPools := fun rxId => (st.memoryPools rxId).recycle bufferMeta.diskBlockId
    metas := Function.update st.metas blockCheckId
      { bloomFilterMeta := bufferMeta.bloomFilterMeta.setWritingCol st.bitmap bitmapCol
        diskBlockId := (bufferMeta.diskBlockId + cfg.totalBlockNum) % cfg.diskBlockNum
        indexCount := 0 }
    indexCheckIds := st.indexCheckIds.set threadId
      ((blockCheckId + st.indexCheckIds.length) % cfg.totalBlockNum) }

/-! ## `IndexPersister` -/

/-- The loop of `persistMeta` over the pools of a type; the second result is `index_offset`. -/
def persistPools (type : IndexType) (threadId diskBlockId currentOffset : ℕ) :
    List ℕ → IndexBlockBuffer → ℕ → IndexBlockBuffer × ℕ
  | [], buffer, indexOffset => (buffer, indexOffset)
  | rxId :: rest, buffer, indexOffset =>
      let pool := st.memoryPools rxId type
      let len := pool.getLenOfDiskID diskBlockId
      if len = 0 then persistPools type threadId diskBlockId currentOffset rest buffer indexOffset
      else
        persistPools type threadId diskBlockId currentOffset rest
          (pool.writeToBuffer cfg.indexBlock diskBlockId len buffer threadId
            (currentOffset + indexOffset))
          (indexOffset + len)

/-- The loop of `persistMeta` over the types.  It changes neither the pools nor the slots. -/
def persistTypes (std : StdSort) (threadId diskBlockId : ℕ) :
    List IndexType → ℕ → IndexState → Option IndexState
  | [], _, st => some st
  | type :: rest, currentOffset, st =>
      let written := st.persistPools cfg type threadId diskBlockId currentOffset
        (List.range cfg.poolNum) st.indexBlockBuffer 0
      (written.1.sortIndex cfg.indexBlock std currentOffset written.2 type.keyLen).bind
        fun sorted =>
        persistTypes std threadId diskBlockId rest (currentOffset + written.2)
          ({ st with indexBlockBuffer := sorted }.setIndexID cfg diskBlockId type currentOffset
            (currentOffset + written.2))

/-- `total_node_len` of `persistMeta`. -/
def totalNodeLen (diskBlockId : ℕ) : ℕ :=
  (IndexType.all.map fun type =>
    ((List.range cfg.poolNum).map fun rxId =>
      (st.memoryPools rxId type).getLenOfDiskID diskBlockId).sum).sum

/-- `persistMeta` on the slot of a thread; `none` where `sortIndex` copies past
the end of its backup block. -/
def persistMeta (std : StdSort) (threadId : ℕ) : Option IndexState :=
  let bufferMeta := st.metas (st.checkId threadId)
  let diskPos := st.diskWritePos % cfg.persisterDiskSize
  let reserved := { st with
    diskWritePos := st.diskWritePos + st.totalNodeLen cfg bufferMeta.diskBlockId }
  (persistTypes cfg std threadId bufferMeta.diskBlockId IndexType.all diskPos reserved).map
    fun persisted =>
      persisted.setBloomFilterReadingCol cfg bufferMeta.diskBlockId
        bufferMeta.bloomFilterMeta.writingCol

/-- `clearMeta` on the slot of a thread. -/
def clearMeta (threadId : ℕ) : IndexState :=
  let bufferMeta := st.metas (st.checkId threadId)
  let newCol := bufferMeta.bloomFilterMeta.writingCol + st.bitmap.backupColCount
  let cleared := st.clearPacketCount cfg bufferMeta.diskBlockId
  { cleared with bitmap := cleared.bitmap.clearCol newCol }.updateIndexBufferMeta cfg threadId
    newCol

/-! ## What the operations change -/

variable {cfg st} {hash : StdHash} {std : StdSort} {next : IndexState}

/-- What an insertion that returned true has done. -/
structure Inserted (cfg : IndexConfig) (hash : StdHash) (flow : FlowMetadata)
    (position diskBlockId rxId : ℕ) (st next : IndexState) : Prop where
  held : (st.metas (diskBlockId % cfg.totalBlockNum)).diskBlockId = diskBlockId
  bloom : (st.metas (diskBlockId % cfg.totalBlockNum)).bloomFilterMeta.insertFlow hash cfg.hashNum
    st.bitmap flow = (true, next.bitmap)
  pools : ∃ pool, (st.memoryPools rxId).insert flow position diskBlockId = some pool ∧
    next.memoryPools = Function.update st.memoryPools rxId pool
  metas : next.metas = Function.update st.metas (diskBlockId % cfg.totalBlockNum)
    { st.metas (diskBlockId % cfg.totalBlockNum) with
      indexCount := (st.metas (diskBlockId % cfg.totalBlockNum)).indexCount + 1 }
  rest : next.indexCheckIds = st.indexCheckIds ∧ next.diskMetas = st.diskMetas ∧
    next.indexBlockBuffer = st.indexBlockBuffer ∧ next.diskWritePos = st.diskWritePos

/-- An insertion that returned false has at most set bits in the column of the slot. -/
theorem insert_cases {flow : FlowMetadata} {position diskBlockId rxId : ℕ} {done : Bool}
    (h : st.insert cfg hash flow position diskBlockId rxId = some (done, next)) :
    (done = false ∧ ∃ bitmap, next = { st with bitmap } ∧ BitMap.Extends
        (st.metas (diskBlockId % cfg.totalBlockNum)).bloomFilterMeta.writingCol
        st.bitmap bitmap) ∨
      (done = true ∧ Inserted cfg hash flow position diskBlockId rxId st next) := by
  simp only [insert] at h
  split_ifs at h with hheld hbloom
  · left
    obtain ⟨rfl, rfl⟩ := by simpa using h
    exact ⟨rfl, st.bitmap, rfl, BitMap.Extends.refl _ _⟩
  · right
    rw [not_not] at hheld
    obtain ⟨pool, hpool, hnext⟩ := Option.map_eq_some_iff.mp h
    obtain ⟨rfl, rfl⟩ := Prod.mk.inj hnext
    exact ⟨rfl, hheld, Prod.ext hbloom rfl, ⟨pool, hpool, rfl⟩, rfl, rfl, rfl, rfl, rfl⟩
  · left
    obtain ⟨rfl, rfl⟩ := by simpa using h
    exact ⟨rfl, _, rfl, PrefixBloomFilter.extends_insertFlow _⟩

/-- Two states that differ in the disk buffer and the index block buffer at most. -/
structure SameIndex (st next : IndexState) : Prop where
  bitmap : next.bitmap = st.bitmap
  metas : next.metas = st.metas
  indexCheckIds : next.indexCheckIds = st.indexCheckIds
  memoryPools : next.memoryPools = st.memoryPools
  bloomFilterMeta : ∀ diskBlockId, (next.diskMetas diskBlockId).bloomFilterMeta =
    (st.diskMetas diskBlockId).bloomFilterMeta
  packetCount : ∀ diskBlockId, (next.diskMetas diskBlockId).packetCount =
    (st.diskMetas diskBlockId).packetCount

theorem SameIndex.refl (st : IndexState) : SameIndex st st :=
  ⟨rfl, rfl, rfl, rfl, fun _ => rfl, fun _ => rfl⟩

theorem SameIndex.trans {middle : IndexState} (h : SameIndex st middle)
    (h' : SameIndex middle next) : SameIndex st next where
  bitmap := h'.bitmap.trans h.bitmap
  metas := h'.metas.trans h.metas
  indexCheckIds := h'.indexCheckIds.trans h.indexCheckIds
  memoryPools := h'.memoryPools.trans h.memoryPools
  bloomFilterMeta diskBlockId :=
    (h'.bloomFilterMeta diskBlockId).trans (h.bloomFilterMeta diskBlockId)
  packetCount diskBlockId := (h'.packetCount diskBlockId).trans (h.packetCount diskBlockId)

theorem sameIndex_setIndexID (diskBlockId : ℕ) (type : IndexType) (indexStart indexEnd : ℕ) :
    SameIndex st (st.setIndexID cfg diskBlockId type indexStart indexEnd) := by
  unfold setIndexID
  split_ifs
  · refine ⟨rfl, rfl, rfl, rfl, fun other => ?_, fun other => ?_⟩
    all_goals
      by_cases hsame : other = diskBlockId
      · subst hsame
        simp
      · simp [Function.update_of_ne hsame]
  · exact SameIndex.refl st

theorem sameIndex_persistTypes {threadId diskBlockId : ℕ} {types : List IndexType}
    {currentOffset : ℕ}
    (h : persistTypes cfg std threadId diskBlockId types currentOffset st = some next) :
    SameIndex st next := by
  induction types generalizing st currentOffset with
  | nil =>
      obtain rfl : st = next := by simpa [persistTypes] using h
      exact SameIndex.refl st
  | cons type rest ih =>
      obtain ⟨sorted, -, hrest⟩ := Option.bind_eq_some_iff.mp h
      have hbuffer : SameIndex st { st with indexBlockBuffer := sorted } :=
        ⟨rfl, rfl, rfl, rfl, fun _ => rfl, fun _ => rfl⟩
      exact (hbuffer.trans (sameIndex_setIndexID ..)).trans (ih hrest)

theorem setBloomFilterReadingCol_bloomFilterMeta (diskBlockId col other : ℕ)
    (hlt : diskBlockId < cfg.diskBlockNum) :
    ((st.setBloomFilterReadingCol cfg diskBlockId col).diskMetas other).bloomFilterMeta =
      if other = diskBlockId then
        (st.diskMetas diskBlockId).bloomFilterMeta.setReadingCol st.bitmap col
      else (st.diskMetas other).bloomFilterMeta := by
  unfold setBloomFilterReadingCol
  rw [if_pos hlt]
  split_ifs with hsame
  · subst hsame
    simp
  · simp [Function.update_of_ne hsame]

theorem setBloomFilterReadingCol_packetCount (diskBlockId col other : ℕ) :
    ((st.setBloomFilterReadingCol cfg diskBlockId col).diskMetas other).packetCount =
      (st.diskMetas other).packetCount := by
  unfold setBloomFilterReadingCol
  split_ifs
  · by_cases hsame : other = diskBlockId
    · subst hsame
      simp
    · simp [Function.update_of_ne hsame]
  · rfl

theorem setBloomFilterReadingCol_diskIndexMeta (diskBlockId col other : ℕ) :
    ((st.setBloomFilterReadingCol cfg diskBlockId col).diskMetas other).diskIndexMeta =
      (st.diskMetas other).diskIndexMeta := by
  unfold setBloomFilterReadingCol
  split_ifs
  · by_cases hsame : other = diskBlockId
    · subst hsame
      simp
    · simp [Function.update_of_ne hsame]
  · rfl

/-- `setBloomFilterReadingCol` leaves everything but the disk buffer. -/
theorem setBloomFilterReadingCol_rest (diskBlockId col : ℕ) :
    ∃ diskMetas, st.setBloomFilterReadingCol cfg diskBlockId col = { st with diskMetas } := by
  unfold setBloomFilterReadingCol
  split_ifs
  · exact ⟨_, rfl⟩
  · exact ⟨st.diskMetas, rfl⟩

/-- `persistMeta` gives the disk block of the slot the column of the slot, and
keeps every other column, the slots, the pools and the packet counts. -/
structure Persisted (cfg : IndexConfig) (threadId : ℕ) (st next : IndexState) : Prop where
  bitmap : next.bitmap = st.bitmap
  metas : next.metas = st.metas
  indexCheckIds : next.indexCheckIds = st.indexCheckIds
  memoryPools : next.memoryPools = st.memoryPools
  bloomFilterMeta : ∀ diskBlockId, st.getCheckDishID threadId < cfg.diskBlockNum →
    (next.diskMetas diskBlockId).bloomFilterMeta =
      if diskBlockId = st.getCheckDishID threadId then
        (st.diskMetas (st.getCheckDishID threadId)).bloomFilterMeta.setReadingCol st.bitmap
          (st.metas (st.checkId threadId)).bloomFilterMeta.writingCol
      else (st.diskMetas diskBlockId).bloomFilterMeta
  packetCount : ∀ diskBlockId,
    (next.diskMetas diskBlockId).packetCount = (st.diskMetas diskBlockId).packetCount

theorem persisted_of_persistMeta {threadId : ℕ} (h : st.persistMeta cfg std threadId = some next) :
    Persisted cfg threadId st next := by
  obtain ⟨persisted, htypes, rfl⟩ := Option.map_eq_some_iff.mp h
  have hsame := sameIndex_persistTypes htypes
  set diskBlockId := (st.metas (st.checkId threadId)).diskBlockId with hid
  set col := (st.metas (st.checkId threadId)).bloomFilterMeta.writingCol with hcol
  have hbloom := @setBloomFilterReadingCol_bloomFilterMeta cfg persisted diskBlockId col
  have hcount := @setBloomFilterReadingCol_packetCount cfg persisted diskBlockId col
  obtain ⟨diskMetas, hset⟩ := @setBloomFilterReadingCol_rest cfg persisted diskBlockId col
  rw [hset] at hbloom hcount ⊢
  refine ⟨hsame.bitmap, hsame.metas, hsame.indexCheckIds, hsame.memoryPools, ?_, ?_⟩
  · intro other hlt
    rw [hbloom other hlt, hsame.bloomFilterMeta, hsame.bloomFilterMeta, hsame.bitmap]
    rfl
  · intro other
    exact (hcount other).trans (hsame.packetCount other)

theorem setPacketCount_bloomFilterMeta (diskBlockId packetCount other : ℕ) :
    ((st.setPacketCount cfg diskBlockId packetCount).diskMetas other).bloomFilterMeta =
      (st.diskMetas other).bloomFilterMeta := by
  unfold setPacketCount
  split_ifs
  · by_cases hsame : other = diskBlockId
    · subst hsame
      simp
    · simp [Function.update_of_ne hsame]
  · rfl

theorem setPacketCount_packetCount (diskBlockId packetCount other : ℕ)
    (hlt : diskBlockId < cfg.diskBlockNum) :
    ((st.setPacketCount cfg diskBlockId packetCount).diskMetas other).packetCount =
      if other = diskBlockId then packetCount else (st.diskMetas other).packetCount := by
  unfold setPacketCount
  rw [if_pos hlt]
  split_ifs with hsame
  · subst hsame
    simp
  · simp [Function.update_of_ne hsame]

/-- `setPacketCount` leaves everything but the disk buffer. -/
theorem setPacketCount_rest (diskBlockId packetCount : ℕ) :
    ∃ diskMetas, st.setPacketCount cfg diskBlockId packetCount = { st with diskMetas } := by
  unfold setPacketCount
  split_ifs
  · exact ⟨_, rfl⟩
  · exact ⟨st.diskMetas, rfl⟩

/-- What `clearMeta` does to the slot of the thread, and to nothing else. -/
structure Cleared (cfg : IndexConfig) (threadId : ℕ) (st next : IndexState) : Prop where
  bitmap : next.bitmap = st.bitmap.clearCol
    ((st.metas (st.checkId threadId)).bloomFilterMeta.writingCol + st.bitmap.backupColCount)
  metas : next.metas = Function.update st.metas (st.checkId threadId)
    { bloomFilterMeta := (st.metas (st.checkId threadId)).bloomFilterMeta.setWritingCol next.bitmap
        ((st.metas (st.checkId threadId)).bloomFilterMeta.writingCol + st.bitmap.backupColCount)
      diskBlockId := (st.getCheckDishID threadId + cfg.totalBlockNum) % cfg.diskBlockNum
      indexCount := 0 }
  indexCheckIds : next.indexCheckIds = st.indexCheckIds.set threadId
    ((st.checkId threadId + st.indexCheckIds.length) % cfg.totalBlockNum)
  memoryPools : ∀ rxId, next.memoryPools rxId =
    (st.memoryPools rxId).recycle (st.getCheckDishID threadId)
  bloomFilterMeta : ∀ diskBlockId, (next.diskMetas diskBlockId).bloomFilterMeta =
    (st.diskMetas diskBlockId).bloomFilterMeta
  packetCount : ∀ diskBlockId, st.getCheckDishID threadId < cfg.diskBlockNum →
    (next.diskMetas diskBlockId).packetCount =
      if diskBlockId = st.getCheckDishID threadId then 0
      else (st.diskMetas diskBlockId).packetCount

theorem cleared_clearMeta (cfg : IndexConfig) (st : IndexState) (threadId : ℕ) :
    Cleared cfg threadId st (st.clearMeta cfg threadId) := by
  have hcount := @setPacketCount_packetCount cfg st (st.getCheckDishID threadId) 0
  have hbloom := @setPacketCount_bloomFilterMeta cfg st (st.getCheckDishID threadId) 0
  obtain ⟨diskMetas, hset⟩ :=
    @setPacketCount_rest cfg st (st.getCheckDishID threadId) 0
  set newCol := (st.metas (st.checkId threadId)).bloomFilterMeta.writingCol +
    st.bitmap.backupColCount with hnew
  have hclear : st.clearMeta cfg threadId =
      { st.setPacketCount cfg (st.getCheckDishID threadId) 0 with
        bitmap := (st.setPacketCount cfg (st.getCheckDishID threadId) 0).bitmap.clearCol
          newCol }.updateIndexBufferMeta cfg threadId newCol := rfl
  rw [hset] at hcount hbloom hclear
  rw [hclear]
  exact ⟨rfl, rfl, rfl, fun _ => rfl, hbloom, hcount⟩

/-! ## The ranges of the runs -/

/-- The bytes of the records of a type that the pools hold for a disk block. -/
def typeLen (cfg : IndexConfig) (st : IndexState) (diskBlockId : ℕ) (type : IndexType) : ℕ :=
  ((List.range cfg.poolNum).map fun rxId =>
    (st.memoryPools rxId type).getLenOfDiskID diskBlockId).sum

/-- How many bytes before a type the types of a list have that come before it. -/
def bytesBefore (cfg : IndexConfig) (st : IndexState) (diskBlockId : ℕ) (type : IndexType)
    (types : List IndexType) : ℕ :=
  ((types.takeWhile (· ≠ type)).map (typeLen cfg st diskBlockId)).sum

/-- Where the run of a type starts that is persisted next. -/
def typeStart (cfg : IndexConfig) (st : IndexState) (diskBlockId : ℕ) (type : IndexType) : ℕ :=
  st.diskWritePos % cfg.persisterDiskSize + bytesBefore cfg st diskBlockId type IndexType.all

theorem persistPools_snd {type : IndexType} {threadId diskBlockId currentOffset : ℕ}
    (rxIds : List ℕ) (buffer : IndexBlockBuffer) (indexOffset : ℕ) :
    (st.persistPools cfg type threadId diskBlockId currentOffset rxIds buffer indexOffset).2 =
      indexOffset + (rxIds.map fun rxId =>
        (st.memoryPools rxId type).getLenOfDiskID diskBlockId).sum := by
  induction rxIds generalizing buffer indexOffset with
  | nil => rfl
  | cons rxId rest ih =>
      unfold persistPools
      simp only [List.map_cons, List.sum_cons]
      split_ifs with hlen
      · rw [ih, hlen, Nat.zero_add]
      · rw [ih, Nat.add_assoc]

theorem writeToBuffer_blockDiskId {pool : MemoryPool} {indexBlock : IndexBlockConfig}
    {diskBlockId len threadId diskPos : ℕ} (buffer : IndexBlockBuffer) :
    (pool.writeToBuffer indexBlock diskBlockId len buffer threadId diskPos).blockDiskId =
      buffer.blockDiskId := by
  unfold MemoryPool.writeToBuffer
  cases pool.nodeOf diskBlockId with
  | none => rfl
  | some node =>
      simp only
      split_ifs
      · exact IndexBlockBuffer.writeBlock_blockDiskId
      · rw [IndexBlockBuffer.writeBlock_blockDiskId, IndexBlockBuffer.writeBlock_blockDiskId]

theorem persistPools_blockDiskId {type : IndexType} {threadId diskBlockId currentOffset : ℕ}
    (rxIds : List ℕ) (buffer : IndexBlockBuffer) (indexOffset : ℕ) :
    (st.persistPools cfg type threadId diskBlockId currentOffset rxIds buffer
      indexOffset).1.blockDiskId = buffer.blockDiskId := by
  induction rxIds generalizing buffer indexOffset with
  | nil => rfl
  | cons rxId rest ih =>
      unfold persistPools
      simp only
      split_ifs
      · exact ih buffer indexOffset
      · rw [ih, writeToBuffer_blockDiskId]

theorem sortIndex_blockDiskId {indexBlock : IndexBlockConfig} {buffer sorted : IndexBlockBuffer}
    {startPos len keyLen : ℕ}
    (h : buffer.sortIndex indexBlock std startPos len keyLen = some sorted) :
    sorted.blockDiskId = buffer.blockDiskId := by
  unfold IndexBlockBuffer.sortIndex at h
  simp only at h
  split_ifs at h
  all_goals
    obtain rfl := Option.some.inj h
    rfl

theorem setIndexID_diskIndexMeta {diskBlockId indexStart indexEnd : ℕ} {type : IndexType}
    (hlt : diskBlockId < cfg.diskBlockNum) :
    ((st.setIndexID cfg diskBlockId type indexStart indexEnd).diskMetas
        diskBlockId).diskIndexMeta =
      Function.update (st.diskMetas diskBlockId).diskIndexMeta type (indexStart, indexEnd) := by
  unfold setIndexID
  rw [if_pos hlt]
  simp only [Function.update_self]

theorem setIndexID_indexBlockBuffer {diskBlockId indexStart indexEnd : ℕ} {type : IndexType} :
    (st.setIndexID cfg diskBlockId type indexStart indexEnd).indexBlockBuffer =
      st.indexBlockBuffer := by
  unfold setIndexID
  split_ifs <;> rfl

theorem typeLen_congr {other : IndexState} (h : other.memoryPools = st.memoryPools)
    (diskBlockId : ℕ) : typeLen cfg other diskBlockId = typeLen cfg st diskBlockId := by
  funext type
  unfold typeLen
  rw [h]

theorem persistTypes_cons {type : IndexType} {rest : List IndexType}
    {threadId diskBlockId currentOffset : ℕ}
    (h : persistTypes cfg std threadId diskBlockId (type :: rest) currentOffset st = some next) :
    ∃ sorted : IndexBlockBuffer, sorted.blockDiskId = st.indexBlockBuffer.blockDiskId ∧
      persistTypes cfg std threadId diskBlockId rest
        (currentOffset + typeLen cfg st diskBlockId type)
        ({ st with indexBlockBuffer := sorted }.setIndexID cfg diskBlockId type currentOffset
          (currentOffset + typeLen cfg st diskBlockId type)) = some next := by
  obtain ⟨sorted, hsorted, hrest⟩ := Option.bind_eq_some_iff.mp h
  have hlen : (st.persistPools cfg type threadId diskBlockId currentOffset
      (List.range cfg.poolNum) st.indexBlockBuffer 0).2 = typeLen cfg st diskBlockId type := by
    rw [persistPools_snd, Nat.zero_add]
    rfl
  rw [hlen] at hrest
  exact ⟨sorted, (sortIndex_blockDiskId hsorted).trans (persistPools_blockDiskId ..), hrest⟩

/-- Persisting keeps the disk blocks of the slots of the index block buffer. -/
theorem persistTypes_blockDiskId {types : List IndexType} {threadId diskBlockId currentOffset : ℕ}
    (h : persistTypes cfg std threadId diskBlockId types currentOffset st = some next) :
    next.indexBlockBuffer.blockDiskId = st.indexBlockBuffer.blockDiskId := by
  induction types generalizing st currentOffset with
  | nil =>
      obtain rfl := Option.some.inj h
      rfl
  | cons type rest ih =>
      obtain ⟨sorted, hsorted, hrest⟩ := persistTypes_cons h
      rw [ih hrest, setIndexID_indexBlockBuffer]
      exact hsorted

theorem bytesBefore_self (type : IndexType) (rest : List IndexType) (diskBlockId : ℕ) :
    bytesBefore cfg st diskBlockId type (type :: rest) = 0 := by
  simp [bytesBefore]

theorem bytesBefore_cons {type first : IndexType} (hne : type ≠ first) (rest : List IndexType)
    (diskBlockId : ℕ) : bytesBefore cfg st diskBlockId type (first :: rest) =
      typeLen cfg st diskBlockId first + bytesBefore cfg st diskBlockId type rest := by
  unfold bytesBefore
  rw [List.takeWhile_cons, if_pos (by simpa using Ne.symm hne), List.map_cons, List.sum_cons]

/-- The bytes of a type come behind those before it and within those of all. -/
theorem bytesBefore_add_le {type : IndexType} {types : List IndexType} (h : type ∈ types)
    (diskBlockId : ℕ) : bytesBefore cfg st diskBlockId type types +
      typeLen cfg st diskBlockId type ≤ (types.map (typeLen cfg st diskBlockId)).sum := by
  induction types with
  | nil => cases h
  | cons first rest ih =>
      rw [List.map_cons, List.sum_cons]
      by_cases hsame : type = first
      · rw [← hsame, bytesBefore_self]
        omega
      · have hrest := ih ((List.mem_cons.mp h).resolve_left hsame)
        rw [bytesBefore_cons hsame]
        omega

theorem bytesBefore_congr {other : IndexState} (h : other.memoryPools = st.memoryPools)
    (diskBlockId : ℕ) (type : IndexType) (types : List IndexType) :
    bytesBefore cfg other diskBlockId type types = bytesBefore cfg st diskBlockId type types := by
  unfold bytesBefore
  rw [typeLen_congr h]

/-- Each type of the list gets the range behind those of the types before it. -/
theorem persistTypes_range {types : List IndexType} {threadId diskBlockId currentOffset : ℕ}
    (hlt : diskBlockId < cfg.diskBlockNum) (hnodup : types.Nodup)
    (h : persistTypes cfg std threadId diskBlockId types currentOffset st = some next)
    (type : IndexType) :
    (next.diskMetas diskBlockId).diskIndexMeta type =
      if type ∈ types then
        (currentOffset + bytesBefore cfg st diskBlockId type types,
          currentOffset + bytesBefore cfg st diskBlockId type types +
            typeLen cfg st diskBlockId type)
      else (st.diskMetas diskBlockId).diskIndexMeta type := by
  induction types generalizing st currentOffset with
  | nil =>
      obtain rfl := Option.some.inj h
      rw [if_neg List.not_mem_nil]
  | cons first rest ih =>
      obtain ⟨sorted, -, hrest⟩ := persistTypes_cons h
      obtain ⟨hfirst, hnodup⟩ := List.nodup_cons.mp hnodup
      set after := { st with indexBlockBuffer := sorted }.setIndexID cfg diskBlockId first
        currentOffset (currentOffset + typeLen cfg st diskBlockId first) with hafter
      have hpools : after.memoryPools = st.memoryPools := (sameIndex_setIndexID ..).memoryPools
      have hmeta : (after.diskMetas diskBlockId).diskIndexMeta =
          Function.update (st.diskMetas diskBlockId).diskIndexMeta first
            (currentOffset, currentOffset + typeLen cfg st diskBlockId first) :=
        setIndexID_diskIndexMeta hlt
      rw [ih hnodup hrest, hmeta, bytesBefore_congr hpools, typeLen_congr hpools]
      by_cases hsame : type = first
      · subst hsame
        rw [if_neg hfirst, if_pos List.mem_cons_self, Function.update_self, bytesBefore_self,
          Nat.add_zero]
      · rw [Function.update_of_ne hsame, bytesBefore_cons hsame]
        simp only [List.mem_cons, hsame, false_or, Nat.add_assoc]

theorem persistMeta_blockDiskId {threadId : ℕ} (h : st.persistMeta cfg std threadId = some next) :
    next.indexBlockBuffer.blockDiskId = st.indexBlockBuffer.blockDiskId := by
  obtain ⟨persisted, htypes, rfl⟩ := Option.map_eq_some_iff.mp h
  obtain ⟨diskMetas, hset⟩ := @setBloomFilterReadingCol_rest cfg persisted
    (st.metas (st.checkId threadId)).diskBlockId
    (st.metas (st.checkId threadId)).bloomFilterMeta.writingCol
  have hsame := persistTypes_blockDiskId htypes
  rw [hset]
  exact hsame

end IndexState

end TrafficDatabase
