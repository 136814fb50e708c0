import TrafficDatabase.Index.NoFalseNegatives
import TrafficDatabase.Library.BackedRing
import TrafficDatabase.Storage.PersistedContent
import TrafficDatabase.Storage.PrefixLookup

/-!
# The index from insertion to lookup

`IndexStore` is the index with the disk behind its block buffer.  Besides the calls of the
index, a slot of the block buffer is written to its disk block; the block is recycled by a
call of the index once it has been written.  The ring and the disk are read as one memory
(`BackedRing.view`), and there the run of a type of a persisted block has the records of
the insertions the block was persisted with, whatever else is persisted, dumped or recycled
(`runs_of_reachable`).

So in a run that goes through the index disk once, `getPointerByFlowMetaIndex` finds the
positions of exactly these insertions, as soon as the run of the key's type has been dumped
(`query_returns_inserted`).  The filter turns away no key that was inserted, and the lookup
passes over no record.
-/

namespace TrafficDatabase

namespace IndexState

variable {cfg : IndexConfig} {std : StdSort} {st next : IndexState} {threadId : ℕ}

theorem setIndexID_rest (diskBlockId : ℕ) (type : IndexType) (indexStart indexEnd : ℕ) :
    ∃ diskMetas, st.setIndexID cfg diskBlockId type indexStart indexEnd = { st with diskMetas } ∧
      ∀ other ≠ diskBlockId, diskMetas other = st.diskMetas other := by
  unfold setIndexID
  split_ifs
  · exact ⟨_, rfl, fun other hne => Function.update_of_ne hne ..⟩
  · exact ⟨st.diskMetas, rfl, fun _ _ => rfl⟩

/-- Persisting takes no positions beyond those reserved, and records ranges of its block only. -/
theorem persistTypes_rest {types : List IndexType} {diskBlockId currentOffset : ℕ}
    (h : persistTypes cfg std threadId diskBlockId types currentOffset st = some next) :
    next.diskWritePos = st.diskWritePos ∧
      ∀ other ≠ diskBlockId, next.diskMetas other = st.diskMetas other := by
  induction types generalizing st currentOffset with
  | nil =>
      obtain rfl := Option.some.inj h
      exact ⟨rfl, fun _ _ => rfl⟩
  | cons type rest ih =>
      obtain ⟨sorted, -, hrest⟩ := persistTypes_cons h
      obtain ⟨diskMetas, hset, hothers⟩ := @setIndexID_rest cfg
        { st with indexBlockBuffer := sorted } diskBlockId type currentOffset
        (currentOffset + typeLen cfg st diskBlockId type)
      rw [hset] at hrest
      obtain ⟨hpos, hmetas⟩ := ih hrest
      exact ⟨hpos, fun other hne => (hmetas other hne).trans (hothers other hne)⟩

/-- `persistMeta` moves the write position by the length of its runs, and leaves the ranges
of other blocks. -/
theorem persistMeta_rest (h : st.persistMeta cfg std threadId = some next) :
    next.diskWritePos = st.diskWritePos + st.totalNodeLen cfg (st.getCheckDishID threadId) ∧
      ∀ other ≠ st.getCheckDishID threadId,
        (next.diskMetas other).diskIndexMeta = (st.diskMetas other).diskIndexMeta := by
  obtain ⟨persisted, htypes, rfl⟩ := Option.map_eq_some_iff.mp h
  obtain ⟨hpos, hmetas⟩ := persistTypes_rest htypes
  refine ⟨?_, fun other hne => ?_⟩
  · obtain ⟨diskMetas, hset⟩ := @setBloomFilterReadingCol_rest cfg persisted
      (st.metas (st.checkId threadId)).diskBlockId
      (st.metas (st.checkId threadId)).bloomFilterMeta.writingCol
    rw [hset]
    exact hpos
  · rw [setBloomFilterReadingCol_diskIndexMeta]
    exact congrArg DiskMeta.diskIndexMeta (hmetas other hne)

theorem setPacketCount_diskIndexMeta (diskBlockId packetCount other : ℕ) :
    ((st.setPacketCount cfg diskBlockId packetCount).diskMetas other).diskIndexMeta =
      (st.diskMetas other).diskIndexMeta := by
  unfold setPacketCount
  split_ifs
  · by_cases hsame : other = diskBlockId
    · subst hsame
      simp
    · simp [Function.update_of_ne hsame]
  · rfl

/-- `clearMeta` leaves the ranges, the block buffer and the write position. -/
theorem clearMeta_rest (cfg : IndexConfig) (st : IndexState) (threadId : ℕ) :
    (∀ other, ((st.clearMeta cfg threadId).diskMetas other).diskIndexMeta =
        (st.diskMetas other).diskIndexMeta) ∧
      (st.clearMeta cfg threadId).indexBlockBuffer = st.indexBlockBuffer ∧
        (st.clearMeta cfg threadId).diskWritePos = st.diskWritePos := by
  have hmetas := @setPacketCount_diskIndexMeta cfg st (st.getCheckDishID threadId) 0
  obtain ⟨diskMetas, hset⟩ := @setPacketCount_rest cfg st (st.getCheckDishID threadId) 0
  have hclear : (st.clearMeta cfg threadId).diskMetas =
        (st.setPacketCount cfg (st.getCheckDishID threadId) 0).diskMetas ∧
      (st.clearMeta cfg threadId).indexBlockBuffer =
        (st.setPacketCount cfg (st.getCheckDishID threadId) 0).indexBlockBuffer ∧
      (st.clearMeta cfg threadId).diskWritePos =
        (st.setPacketCount cfg (st.getCheckDishID threadId) 0).diskWritePos := ⟨rfl, rfl, rfl⟩
  rw [hset] at hclear hmetas
  exact ⟨fun other => by rw [hclear.1]; exact hmetas other, hclear.2.1, hclear.2.2⟩

end IndexState

namespace InsertHistory

open IndexMemoryPool (ofBlock)

variable {cfg : IndexConfig} {hash : StdHash} {std : StdSort} {st : InsertHistory}
  {threadId diskBlockId : ℕ}

/-- The pools have as many bytes for a type as the records made for the block. -/
theorem Recorded.typeLen_eq (h : Recorded cfg st)
    (hgives : st.index.Gives cfg diskBlockId fun type =>
      (List.range cfg.poolNum).flatMap fun rxId => ofBlock diskBlockId (st.poolRecords rxId type)) :
    IndexState.typeLen cfg st.index diskBlockId = st.runLen diskBlockId := by
  funext type
  rw [hgives.typeLen_eq, (poolRecords_perm h.rxId_lt).length_eq, runLen]

/-- A block that is ready is persisted exactly, and nothing else of the ring is written. -/
theorem Recorded.persistMeta_places (h : Recorded cfg st) (hlist : 2 ≤ cfg.poolListLen)
    (hwidth : cfg.diskBlockNum ≤ u64Max) (hthread : threadId < cfg.checkThreadNum)
    (hnodes : ∀ rxId type, (st.index.memoryPools rxId type).NodesInside)
    (howned : st.RunsOwned cfg (st.index.getCheckDishID threadId))
    (hready : st.Ready cfg (st.index.getCheckDishID threadId)) :
    st.index.totalNodeLen cfg (st.index.getCheckDishID threadId) =
        st.totalLen (st.index.getCheckDishID threadId) ∧
      ∃ next, st.index.persistMeta cfg std threadId = some next ∧
        (∀ type, st.RunExact cfg (st.index.getCheckDishID threadId) type next ∧
          let range := (next.diskMetas (st.index.getCheckDishID threadId)).diskIndexMeta type
          st.firstStart cfg ≤ range.1 ∧
            range.2 ≤ st.firstStart cfg + st.totalLen (st.index.getCheckDishID threadId)) ∧
        ∀ addr < cfg.indexBlock.bufferSize,
          (∀ k < st.totalLen (st.index.getCheckDishID threadId),
            (st.firstStart cfg + k) % cfg.indexBlock.bufferSize ≠ addr) →
          next.indexBlockBuffer.bufferBlocks addr =
            st.index.indexBlockBuffer.bufferBlocks addr := by
  have hwell := h.wellFormed
  have hblock : st.index.getCheckDishID threadId ≠ u64Max :=
    ((hwell.diskBlockId_lt _ (hwell.checkId_lt threadId)).trans_le hwidth).ne
  obtain ⟨hfind, hbackup, hend⟩ := hready
  have hgives := h.gives hlist hblock hnodes hfind
  set diskBlockId := st.index.getCheckDishID threadId with hid
  have hlen := h.typeLen_eq hgives
  have htotal : st.index.totalNodeLen cfg diskBlockId = st.totalLen diskBlockId := by
    unfold totalLen
    rw [← hlen]
    rfl
  have hstart : ∀ type, st.index.typeStart cfg diskBlockId type =
      st.runStart cfg diskBlockId type := fun type => by
    unfold IndexState.typeStart IndexState.bytesBefore runStart
    rw [hlen]
    rfl
  -- the runs own their place, so they are not longer than the buffer
  have hinside : st.totalLen diskBlockId ≤ cfg.indexBlock.bufferSize :=
    BlockRing.le_bytes_of_owned ((Nat.zero_lt_of_lt hthread).trans_le cfg.writeThreadNum_le)
      cfg.indexBlock_checks.2 cfg.indexBlock_diskBlockNum_gt howned
  obtain ⟨next, hnext, hruns, hframe⟩ := @IndexState.Gives.persistMeta_places cfg std st.index _
    threadId (st.firstStart cfg + st.totalLen diskBlockId) hgives hblock cfg.indexBlock_checks.2
    (htotal.trans_le hinside)
    (fun type => by
      rw [← hid, hlen, hstart]
      exact hbackup type (IndexType.mem_all type))
    (congrArg _ htotal)
    (fun place hle hlt => by
      obtain ⟨k, rfl⟩ := Nat.exists_eq_add_of_le hle
      exact howned k (Nat.add_lt_add_iff_left.mp hlt))
    (fun hlt => hend (Nat.lt_add_right_iff_pos.mp hlt))
  refine ⟨htotal, next, hnext, fun type => ?_, ?_⟩
  · have hrange := IndexState.persistMeta_range hwell hnext type
    have hbehind := @IndexState.bytesBefore_add_le cfg st.index type IndexType.all
      (IndexType.mem_all type) diskBlockId
    have hsum : (IndexType.all.map (IndexState.typeLen cfg st.index diskBlockId)).sum =
        st.totalLen diskBlockId := htotal
    have hfirst : st.index.typeStart cfg diskBlockId type =
        st.firstStart cfg + IndexState.bytesBefore cfg st.index diskBlockId type IndexType.all := rfl
    rw [← hid] at hrange
    refine ⟨?_, ?_⟩
    · unfold RunExact
      rw [hrange, hlen]
      exact ⟨rfl, (hruns type).perm (poolRecords_perm h.rxId_lt)⟩
    · rw [hrange]
      simp only
      omega
  · rw [← htotal]
    exact hframe

end InsertHistory

/-- The index, the insertions each block was persisted with, and the index disk.  `inFlight`
are the slots of the block buffer that have been handed to the disk and not been recycled. -/
structure IndexStore where
  keys : IndexHistory
  inserted : List IndexInsert
  /-- By disk block: until one of a later life of the block is inserted. -/
  persisted : ℕ → Option (List IndexInsert)
  disk : Memory
  inFlight : ℕ → Bool

namespace IndexStore

variable (cfg : IndexConfig) (hash : StdHash) (std : StdSort)

def init : IndexStore :=
  { keys := IndexHistory.init cfg
    inserted := []
    persisted := fun _ => none
    disk := fun _ => 0
    inFlight := fun _ => false }

inductive Label
  | call (operation : IndexState.Operation)
  | dump (slot : ℕ)

variable (st : IndexStore)

/-- The index with its insertions. -/
def history : InsertHistory := { index := st.keys.index, inserted := st.inserted }

/-- The insertions made for a block since it was cleared last. -/
def ofBlock (diskBlockId : ℕ) : List IndexInsert :=
  st.inserted.filter (·.diskBlockId = diskBlockId)

/-- What blocks have been persisted with. -/
def note : IndexState.Operation → ℕ → Option (List IndexInsert)
  | .insert flow position diskBlockId rxId =>
      if st.history.Puts cfg hash flow position diskBlockId rxId ∧
          st.keys.persisted (diskBlockId % cfg.totalBlockNum) = false then
        Function.update st.persisted diskBlockId none
      else st.persisted
  | .persistMeta threadId =>
      let diskBlockId := st.keys.index.getCheckDishID threadId
      Function.update st.persisted diskBlockId (some (st.ofBlock diskBlockId))
  | .clearMeta _ | .setPacketCount .. | .recycleBlock _ => st.persisted

/-- The slots in flight after a call. -/
def landed : IndexState.Operation → ℕ → Bool
  | .recycleBlock slot => Function.update st.inFlight slot false
  | .insert .. | .persistMeta _ | .clearMeta _ | .setPacketCount .. => st.inFlight

/-- What a dump thread is handed with a slot. -/
def block (slot : ℕ) : IndexBlock :=
  { blockId := slot
    writePos := st.keys.index.indexBlockBuffer.blockDiskId slot
    buffer := slot * cfg.indexBlock.blockSize }

def step : Label → Option IndexStore
  | .call operation =>
      (st.keys.apply cfg hash std operation).map fun keys =>
        { st with
          keys
          inserted := st.history.note cfg hash operation
          persisted := st.note cfg hash operation
          inFlight := st.landed operation }
  | .dump slot =>
      if slot < cfg.indexBlock.totalBlockNum ∧ st.inFlight slot = false then
        some { st with
          disk := st.keys.index.indexBlockBuffer.dumpBlock cfg.indexBlock st.disk
            (st.block cfg slot)
          inFlight := Function.update st.inFlight slot true }
      else none

/-- The index and its disk under the calls of their threads. -/
def system : TransitionSystem IndexStore Label := { init := init cfg, step := step cfg hash std }

/-- The block buffer with the index disk behind it. -/
def backed : BackedRing :=
  { memory := st.keys.index.indexBlockBuffer.bufferBlocks
    labels := st.keys.index.indexBlockBuffer.blockDiskId
    store := st.disk }

def diskSize (cfg : IndexConfig) : ℕ := cfg.indexBlock.diskBlockNum * cfg.indexBlock.blockSize

/-- A block is persisted in slots that hold the blocks of its runs and are not in flight,
before the end of the index disk and of a lap of the persisters. -/
structure Persists (threadId : ℕ) : Prop where
  owned : st.history.RunsOwned cfg (st.keys.index.getCheckDishID threadId)
  ready : st.history.Ready cfg (st.keys.index.getCheckDishID threadId)
  waits : ∀ k < st.history.totalLen (st.keys.index.getCheckDishID threadId),
    st.inFlight (cfg.indexBlock.ring.slotOf (st.keys.index.diskWritePos + k)) = false
  lap : st.keys.index.diskWritePos < cfg.persisterDiskSize
  inside : st.keys.index.diskWritePos +
    st.history.totalLen (st.keys.index.getCheckDishID threadId) < diskSize cfg

instance (threadId : ℕ) : Decidable (st.Persists cfg threadId) :=
  decidable_of_iff (st.history.RunsOwned cfg (st.keys.index.getCheckDishID threadId) ∧
      st.history.Ready cfg (st.keys.index.getCheckDishID threadId) ∧
      (∀ k < st.history.totalLen (st.keys.index.getCheckDishID threadId),
        st.inFlight (cfg.indexBlock.ring.slotOf (st.keys.index.diskWritePos + k)) = false) ∧
      st.keys.index.diskWritePos < cfg.persisterDiskSize ∧
      st.keys.index.diskWritePos +
        st.history.totalLen (st.keys.index.getCheckDishID threadId) < diskSize cfg)
    ⟨fun h => ⟨h.1, h.2.1, h.2.2.1, h.2.2.2.1, h.2.2.2.2⟩,
      fun h => ⟨h.owned, h.ready, h.waits, h.lap, h.inside⟩⟩

/-- The steps of a run that goes through the index disk once: insertions join no records
left from before, blocks are persisted where there is room for them, and a slot is recycled
when it has been written, for a block with no run in it. -/
def Allowed : Label → Prop
  | .call (.insert flow position diskBlockId rxId) =>
      st.history.Opens cfg hash (.insert flow position diskBlockId rxId)
  | .call (.persistMeta threadId) => st.Persists cfg threadId
  | .call (.recycleBlock slot) => st.inFlight slot = true ∧
      st.keys.index.diskWritePos ≤
        st.backed.nextBlock cfg.indexBlock.ring slot * cfg.indexBlock.blockSize
  | .call (.clearMeta _) | .call (.setPacketCount ..) | .dump _ => True

instance : ∀ label, Decidable (st.Allowed cfg hash label)
  | .call (.insert flow position diskBlockId rxId) =>
      inferInstanceAs (Decidable (st.history.Opens cfg hash (.insert flow position diskBlockId rxId)))
  | .call (.persistMeta threadId) => inferInstanceAs (Decidable (st.Persists cfg threadId))
  | .call (.recycleBlock _) => inferInstanceAs (Decidable (_ ∧ _))
  | .call (.clearMeta _) | .call (.setPacketCount ..) | .dump _ => .isTrue trivial

variable {cfg hash std} {st next : IndexStore} {diskBlockId : ℕ} {type : IndexType}
  {inserts : List IndexInsert}

/-! ## What is seen of a run -/

/-- The records of a type that some insertions make. -/
def recordsOf (inserts : List IndexInsert) (type : IndexType) : List (List UInt8) :=
  inserts.filterMap (·.record type)

theorem recordsOf_ofBlock (diskBlockId : ℕ) (type : IndexType) :
    recordsOf (st.ofBlock diskBlockId) type = st.history.blockRecords diskBlockId type := by
  unfold recordsOf ofBlock InsertHistory.blockRecords
  rw [List.filterMap_filter]
  refine List.filterMap_congr fun insertion _ => ?_
  simp [IndexInsert.blockRecord]

/-- The range noted for a type has the records of the insertions, in the order of their keys. -/
structure SeesRun (cfg : IndexConfig) (st : IndexStore) (diskBlockId : ℕ) (type : IndexType)
    (inserts : List IndexInsert) : Prop where
  stop : ((st.keys.index.diskMetas diskBlockId).diskIndexMeta type).2 =
    ((st.keys.index.diskMetas diskBlockId).diskIndexMeta type).1 +
      (recordsOf inserts type).length * (type.keyLen + 8)
  le : ((st.keys.index.diskMetas diskBlockId).diskIndexMeta type).2 ≤ st.keys.index.diskWritePos
  perm : (rangeRecords (st.backed.view cfg.indexBlock.ring) type
    ((st.keys.index.diskMetas diskBlockId).diskIndexMeta type)).Perm (recordsOf inserts type)
  sorted : SortedByKey type.keyLen (rangeRecords (st.backed.view cfg.indexBlock.ring) type
    ((st.keys.index.diskMetas diskBlockId).diskIndexMeta type))

/-- The records of a range are its bytes. -/
theorem rangeRecords_congr {mem other : Memory} {range : ℕ × ℕ} (hle : range.1 ≤ range.2)
    (h : ∀ pos < range.2, other pos = mem pos) :
    rangeRecords other type range = rangeRecords mem type range := by
  refine List.map_congr_left fun i hi => Memory.read_congr fun k hk => h _ ?_
  have hlast : (i + 1) * (type.keyLen + 8) ≤ range.2 - range.1 :=
    (Nat.mul_le_mul_right _ (List.mem_range.mp hi)).trans (Nat.div_mul_le_self ..)
  rw [Nat.succ_mul] at hlast
  omega

theorem SeesRun.congr (h : SeesRun cfg st diskBlockId type inserts)
    (hrange : (next.keys.index.diskMetas diskBlockId).diskIndexMeta =
      (st.keys.index.diskMetas diskBlockId).diskIndexMeta)
    (hpos : st.keys.index.diskWritePos ≤ next.keys.index.diskWritePos)
    (hview : ∀ pos < st.keys.index.diskWritePos, next.backed.view cfg.indexBlock.ring pos =
      st.backed.view cfg.indexBlock.ring pos) : SeesRun cfg next diskBlockId type inserts := by
  have hsame := @rangeRecords_congr type (st.backed.view cfg.indexBlock.ring)
    (next.backed.view cfg.indexBlock.ring)
    ((st.keys.index.diskMetas diskBlockId).diskIndexMeta type) (by have := h.stop; omega)
    fun pos hlt => hview pos (hlt.trans_le h.le)
  refine ⟨?_, ?_, ?_, ?_⟩
  · rw [hrange]
    exact h.stop
  · rw [hrange]
    exact h.le.trans hpos
  · rw [hrange, hsame]
    exact h.perm
  · rw [hrange, hsame]
    exact h.sorted

/-- A run in slots that hold its blocks is seen as it lies in the ring. -/
theorem rangeRecords_view {backed : BackedRing} {start : ℕ} {records : List (List UInt8)}
    (howned : ∀ k < records.length * (type.keyLen + 8),
      cfg.indexBlock.ring.Owned backed.labels (start + k)) :
    rangeRecords (backed.view cfg.indexBlock.ring) type
        (start, start + records.length * (type.keyLen + 8)) =
      IndexBlockBuffer.ringRecords cfg.indexBlock backed.memory start
        (records.length * (type.keyLen + 8)) type.keyLen := by
  unfold rangeRecords IndexBlockBuffer.records IndexBlockBuffer.ringRecords
  rw [Nat.add_sub_cancel_left]
  refine List.map_congr_left fun i hi => (Memory.ringRead_eq_read fun k hk => ?_).symm
  have hlast : (i + 1) * (type.keyLen + 8) ≤ records.length * (type.keyLen + 8) :=
    (Nat.mul_le_mul_right _ (List.mem_range.mp hi)).trans (Nat.div_mul_le_self ..)
  rw [Nat.succ_mul] at hlast
  unfold BackedRing.view
  rw [Nat.add_assoc, if_pos (howned _ (by omega))]
  rfl

/-! ## What every step keeps -/

/-- The slots of the block buffer stay in step with the disk. -/
theorem congruent_of_reachable {index : IndexState}
    (hdvd : cfg.indexBlock.totalBlockNum ∣ cfg.indexBlock.diskBlockNum)
    (h : (IndexState.operations cfg hash std).Reachable (fun _ _ => True) index) :
    cfg.indexBlock.ring.Congruent index.indexBlockBuffer.blockDiskId := by
  refine BlockRing.Tenancy.congruent ?_ hdvd
  refine @BlockRing.tenancy_of_reachable cfg.indexBlock.ring _ _
    (IndexState.operations cfg hash std) (·.indexBlockBuffer.blockDiskId) _
    cfg.indexBlock_diskBlockNum_gt.le rfl ?_ h
  intro st next operation hstep
  cases operation with
  | insert flow position diskBlockId rxId =>
      obtain ⟨-, hinsert⟩ := Option.ite_none_right_eq_some.mp hstep
      obtain ⟨⟨done, after⟩, hdone, rfl⟩ := Option.map_eq_some_iff.mp hinsert
      rcases IndexState.insert_cases hdone with ⟨-, bitmap, rfl, -⟩ | ⟨-, hinserted⟩
      · exact .inl rfl
      · exact .inl (by rw [hinserted.rest.2.2.1])
  | persistMeta threadId =>
      obtain ⟨-, hpersist⟩ := Option.ite_none_right_eq_some.mp hstep
      exact .inl (IndexState.persistMeta_blockDiskId hpersist)
  | clearMeta threadId =>
      obtain ⟨-, hclear⟩ := Option.ite_none_right_eq_some.mp hstep
      obtain rfl := Option.some.inj hclear
      exact .inl (by rw [(IndexState.clearMeta_rest cfg st threadId).2.1])
  | setPacketCount diskBlockId packetCount =>
      obtain rfl := Option.some.inj hstep
      obtain ⟨diskMetas, hset⟩ :=
        @IndexState.setPacketCount_rest cfg st diskBlockId packetCount
      exact .inl (by rw [hset])
  | recycleBlock blockId =>
      obtain ⟨-, hrecycle⟩ := Option.ite_none_right_eq_some.mp hstep
      obtain rfl := Option.some.inj hrecycle
      exact .inr ⟨blockId, rfl⟩

/-- The runs of the index below those of the store; the slots in flight are in the store, the
flows inserted for a block are those of its slot, those a block was persisted with are owed
an answer, and its runs are seen. -/
structure Inv (cfg : IndexConfig) (hash : StdHash) (std : StdSort) (st : IndexStore) : Prop where
  keys : (IndexHistory.system cfg hash std).Reachable (fun _ _ => True) st.keys
  history : (InsertHistory.history cfg hash std).Reachable (InsertHistory.Opens cfg hash)
    st.history
  inside : st.keys.index.diskWritePos < diskSize cfg
  stored : ∀ slot < cfg.indexBlock.totalBlockNum, st.inFlight slot = true →
    st.backed.Stored cfg.indexBlock.ring slot
  taken : ∀ insertion ∈ st.inserted,
    st.keys.index.heldBlock (insertion.diskBlockId % cfg.totalBlockNum) =
        insertion.diskBlockId ∧
      insertion.flow ∈ st.keys.taken (insertion.diskBlockId % cfg.totalBlockNum)
  owed : ∀ diskBlockId inserts, st.persisted diskBlockId = some inserts →
    ∀ insertion ∈ inserts, insertion.flow ∈ st.keys.owed diskBlockId
  runs : ∀ diskBlockId inserts, st.persisted diskBlockId = some inserts →
    ∀ type, SeesRun cfg st diskBlockId type inserts

theorem diskSize_pos (cfg : IndexConfig) : 0 < diskSize cfg :=
  Nat.mul_pos (Nat.zero_lt_of_lt cfg.indexBlock_diskBlockNum_gt) cfg.indexBlock_checks.2

theorem inv_init : Inv cfg hash std (init cfg) where
  keys := .init
  history := .init
  inside := diskSize_pos cfg
  stored := nofun
  taken := nofun
  owed := nofun
  runs := nofun

/-- A call is one of the index. -/
theorem step_call {operation : IndexState.Operation}
    (h : st.step cfg hash std (.call operation) = some next) :
    ∃ index, st.keys.index.apply cfg hash std operation = some index ∧
      next = { st with
        keys := { st.keys.note cfg hash operation with index }
        inserted := st.history.note cfg hash operation
        persisted := st.note cfg hash operation
        inFlight := st.landed operation } := by
  obtain ⟨keys, hkeys, hnext⟩ := Option.map_eq_some_iff.mp h
  obtain ⟨index, happly, rfl⟩ := Option.map_eq_some_iff.mp hkeys
  exact ⟨index, happly, hnext.symm⟩

/-- The runs below a call. -/
theorem Inv.below (h : Inv cfg hash std st) {operation : IndexState.Operation}
    {index : IndexState} (happly : st.keys.index.apply cfg hash std operation = some index)
    (hopens : st.history.Opens cfg hash operation) :
    (IndexHistory.system cfg hash std).Reachable (fun _ _ => True)
        { st.keys.note cfg hash operation with index } ∧
      (InsertHistory.history cfg hash std).Reachable (InsertHistory.Opens cfg hash)
        { index, inserted := st.history.note cfg hash operation } :=
  ⟨h.keys.step trivial (Option.map_eq_some_iff.mpr ⟨index, happly, rfl⟩),
    h.history.step hopens (Option.map_eq_some_iff.mpr ⟨index, happly, rfl⟩)⟩

/-- Neither the ranges nor the block buffer, the write position and the disk have changed. -/
structure SameRuns (st next : IndexStore) : Prop where
  ranges : ∀ diskBlockId, (next.keys.index.diskMetas diskBlockId).diskIndexMeta =
    (st.keys.index.diskMetas diskBlockId).diskIndexMeta
  buffer : next.keys.index.indexBlockBuffer = st.keys.index.indexBlockBuffer
  position : next.keys.index.diskWritePos = st.keys.index.diskWritePos
  disk : next.disk = st.disk
  inFlight : next.inFlight = st.inFlight

theorem SameRuns.backed (h : SameRuns st next) : next.backed = st.backed := by
  unfold IndexStore.backed
  rw [h.buffer, h.disk]

/-- A step that leaves the runs, and keeps what the history says about the insertions. -/
theorem Inv.same (h : Inv cfg hash std st) (hsame : SameRuns st next)
    (hkeys : (IndexHistory.system cfg hash std).Reachable (fun _ _ => True) next.keys)
    (hhistory : (InsertHistory.history cfg hash std).Reachable (InsertHistory.Opens cfg hash)
      next.history)
    (htaken : ∀ insertion ∈ next.inserted,
      next.keys.index.heldBlock (insertion.diskBlockId % cfg.totalBlockNum) =
          insertion.diskBlockId ∧
        insertion.flow ∈ next.keys.taken (insertion.diskBlockId % cfg.totalBlockNum))
    (hpersisted : ∀ diskBlockId inserts, next.persisted diskBlockId = some inserts →
      st.persisted diskBlockId = some inserts ∧
        ∀ flow ∈ st.keys.owed diskBlockId, flow ∈ next.keys.owed diskBlockId) :
    Inv cfg hash std next where
  keys := hkeys
  history := hhistory
  inside := hsame.position.trans_lt h.inside
  stored slot hslot hflight := by
    rw [hsame.backed]
    exact h.stored slot hslot (hsame.inFlight ▸ hflight)
  taken := htaken
  owed diskBlockId inserts hsome insertion hmem := by
    obtain ⟨hbefore, howed⟩ := hpersisted diskBlockId inserts hsome
    exact howed _ (h.owed diskBlockId inserts hbefore insertion hmem)
  runs diskBlockId inserts hsome type := by
    refine (h.runs diskBlockId inserts (hpersisted diskBlockId inserts hsome).1 type).congr
      (hsame.ranges diskBlockId) hsame.position.ge fun pos _ => ?_
    rw [hsame.backed]

/-- An insertion that returned true is one of its slot. -/
theorem taken_insert (h : Inv cfg hash std st) {insertion : IndexInsert} {after : IndexState}
    (hheld : after.heldBlock = st.keys.index.heldBlock)
    (hblock : st.keys.index.heldBlock (insertion.diskBlockId % cfg.totalBlockNum) =
      insertion.diskBlockId) :
    ∀ other ∈ st.inserted ++ [insertion],
      after.heldBlock (other.diskBlockId % cfg.totalBlockNum) = other.diskBlockId ∧
        other.flow ∈ (st.keys.noteInsert cfg insertion.flow insertion.diskBlockId).taken
          (other.diskBlockId % cfg.totalBlockNum) := by
  intro other hmem
  rw [hheld]
  show _ ∧ _ ∈ Function.update st.keys.taken (insertion.diskBlockId % cfg.totalBlockNum) _ _
  rcases List.mem_append.mp hmem with hold | hnew
  · obtain ⟨hother, hflow⟩ := h.taken other hold
    refine ⟨hother, ?_⟩
    by_cases hslot : other.diskBlockId % cfg.totalBlockNum =
        insertion.diskBlockId % cfg.totalBlockNum
    · rw [hslot, Function.update_self]
      exact List.mem_cons_of_mem _ (hslot ▸ hflow)
    · rw [Function.update_of_ne hslot]
      exact hflow
  · obtain rfl := List.mem_singleton.mp hnew
    refine ⟨hblock, ?_⟩
    rw [Function.update_self]
    exact List.mem_cons_self

/-- What a block is owed grows with an insertion, or the block has begun a new life. -/
theorem owed_insert {flow : FlowMetadata} {other : ℕ}
    (hsome : (if st.keys.persisted (diskBlockId % cfg.totalBlockNum) = false then
      Function.update st.persisted diskBlockId none else st.persisted) other = some inserts) :
    st.persisted other = some inserts ∧ ∀ found ∈ st.keys.owed other,
      found ∈ (st.keys.noteInsert cfg flow diskBlockId).owed other := by
  show _ ∧ ∀ found ∈ _, found ∈ Function.update st.keys.owed diskBlockId _ _
  by_cases hsame : other = diskBlockId
  · subst hsame
    split_ifs at hsome with hpersisted
    · rw [Function.update_self] at hsome
      cases hsome
    · refine ⟨hsome, fun found hfound => ?_⟩
      rw [Function.update_self, if_pos (by simpa using hpersisted)]
      exact List.mem_cons_of_mem _ hfound
  · refine ⟨?_, fun found hfound => ?_⟩
    · split_ifs at hsome
      · rwa [Function.update_of_ne hsame] at hsome
      · exact hsome
    · rwa [Function.update_of_ne hsame]

theorem Inv.insert (h : Inv cfg hash std st) {flow : FlowMetadata} {position rxId : ℕ}
    (hopens : st.history.Opens cfg hash (.insert flow position diskBlockId rxId))
    (hstep : st.step cfg hash std (.call (.insert flow position diskBlockId rxId)) = some next) :
    Inv cfg hash std next := by
  obtain ⟨index, happly, rfl⟩ := step_call hstep
  have hbelow := h.below happly hopens
  obtain ⟨-, hinsert⟩ := Option.ite_none_right_eq_some.mp happly
  obtain ⟨⟨done, after⟩, hdone, hafter⟩ := Option.map_eq_some_iff.mp hinsert
  have hafter : after = index := hafter
  subst hafter
  rw [IndexHistory.note_insert hdone] at hbelow ⊢
  obtain ⟨hsame, -, hheld⟩ := IndexState.sameColumns_insert hdone
  have hputs : st.history.Puts cfg hash flow position diskBlockId rxId ↔ done = true := by
    rw [InsertHistory.Puts, IndexStore.history, hdone, Option.any_some]
  have hrest : after.diskMetas = st.keys.index.diskMetas ∧
      after.indexBlockBuffer = st.keys.index.indexBlockBuffer ∧
        after.diskWritePos = st.keys.index.diskWritePos := by
    rcases IndexState.insert_cases hdone with ⟨-, bitmap, rfl, -⟩ | ⟨-, hinserted⟩
    · exact ⟨rfl, rfl, rfl⟩
    · exact hinserted.rest.2
  obtain ⟨hmetas, hbuffer, hpos⟩ := hrest
  cases done with
  | false =>
      have hinserted : st.history.note cfg hash (.insert flow position diskBlockId rxId) =
          st.inserted := if_neg fun hyes => Bool.false_ne_true (hputs.mp hyes)
      have hpersisted : st.note cfg hash (.insert flow position diskBlockId rxId) =
          st.persisted := if_neg fun hyes => Bool.false_ne_true (hputs.mp hyes.1)
      rw [hinserted] at hbelow ⊢
      rw [hpersisted]
      refine h.same ⟨fun _ => by rw [hmetas], hbuffer, hpos, rfl, rfl⟩ hbelow.1 hbelow.2 ?_
        fun _ _ hsome => ⟨hsome, fun _ => id⟩
      intro insertion hmem
      rw [hsame.heldBlock]
      exact h.taken insertion hmem
  | true =>
      have hinserted : st.history.note cfg hash (.insert flow position diskBlockId rxId) =
          st.inserted ++ [⟨flow, position, diskBlockId, rxId⟩] := if_pos (hputs.mpr rfl)
      have hpersisted : st.note cfg hash (.insert flow position diskBlockId rxId) =
          if st.keys.persisted (diskBlockId % cfg.totalBlockNum) = false then
            Function.update st.persisted diskBlockId none else st.persisted := by
        simp only [IndexStore.note, hputs, true_and]
      rw [hinserted] at hbelow ⊢
      rw [hpersisted]
      exact h.same ⟨fun _ => by rw [hmetas], hbuffer, hpos, rfl, rfl⟩ hbelow.1 hbelow.2
        (@taken_insert cfg hash std st h ⟨flow, position, diskBlockId, rxId⟩ after
          hsame.heldBlock (hheld rfl).1)
        fun other inserts hsome => owed_insert hsome

/-- Persisting a block overwrites nothing that is seen below the write position. -/
theorem view_persist (h : Inv cfg hash std st) {threadId : ℕ} {after : IndexState}
    (hpersists : st.Persists cfg threadId)
    (hlabels : after.indexBlockBuffer.blockDiskId = st.keys.index.indexBlockBuffer.blockDiskId)
    (hframe : ∀ addr < cfg.indexBlock.bufferSize,
      (∀ k < st.history.totalLen (st.keys.index.getCheckDishID threadId),
        (st.history.firstStart cfg + k) % cfg.indexBlock.bufferSize ≠ addr) →
      after.indexBlockBuffer.bufferBlocks addr = st.keys.index.indexBlockBuffer.bufferBlocks addr)
    (hslots : 0 < cfg.indexBlock.totalBlockNum) {pos : ℕ}
    (hpos : pos < st.keys.index.diskWritePos) :
    BackedRing.view cfg.indexBlock.ring
        { memory := after.indexBlockBuffer.bufferBlocks
          labels := after.indexBlockBuffer.blockDiskId
          store := st.disk } pos =
      st.backed.view cfg.indexBlock.ring pos := by
  have hstart : st.history.firstStart cfg = st.keys.index.diskWritePos :=
    Nat.mod_eq_of_lt hpersists.lap
  rw [hlabels]
  refine @BackedRing.view_overwrite cfg.indexBlock.ring st.backed pos _
    (st.history.firstStart cfg) (st.history.totalLen (st.keys.index.getCheckDishID threadId))
    (Nat.mul_pos hslots cfg.indexBlock_checks.2) ?_ hpersists.owned hframe
    (hpos.trans h.inside) (.inl (hstart ▸ hpos))
  rw [hstart]
  exact hpersists.inside.le

/-- Persisting a block writes to no slot in flight. -/
theorem stored_persist {threadId slot : ℕ} {after : IndexState}
    (hpersists : st.Persists cfg threadId)
    (hlabels : after.indexBlockBuffer.blockDiskId = st.keys.index.indexBlockBuffer.blockDiskId)
    (hframe : ∀ addr < cfg.indexBlock.bufferSize,
      (∀ k < st.history.totalLen (st.keys.index.getCheckDishID threadId),
        (st.history.firstStart cfg + k) % cfg.indexBlock.bufferSize ≠ addr) →
      after.indexBlockBuffer.bufferBlocks addr = st.keys.index.indexBlockBuffer.bufferBlocks addr)
    (hslot : slot < cfg.indexBlock.totalBlockNum) (hflight : st.inFlight slot = true)
    (hstored : st.backed.Stored cfg.indexBlock.ring slot) :
    BackedRing.Stored cfg.indexBlock.ring
      { memory := after.indexBlockBuffer.bufferBlocks
        labels := after.indexBlockBuffer.blockDiskId
        store := st.disk } slot := by
  rw [hlabels]
  refine hstored.overwrite fun k hk => hframe _ ?_ fun j hj hsame => ?_
  · calc slot * cfg.indexBlock.ring.size + k
        < slot * cfg.indexBlock.ring.size + cfg.indexBlock.ring.size := Nat.add_lt_add_left hk _
      _ = (slot + 1) * cfg.indexBlock.blockSize := (Nat.succ_mul ..).symm
      _ ≤ cfg.indexBlock.bufferSize := Nat.mul_le_mul_right _ hslot
  · -- the byte would be in the slot of a position of the run
    have hwaits := hpersists.waits j hj
    have hstart : st.history.firstStart cfg = st.keys.index.diskWritePos :=
      Nat.mod_eq_of_lt hpersists.lap
    rw [hstart] at hsame
    rw [← BlockRing.address_div_size, show cfg.indexBlock.ring.bytes =
      cfg.indexBlock.bufferSize from rfl, hsame, Nat.mul_comm,
      Nat.mul_add_div (Nat.zero_lt_of_lt hk), Nat.div_eq_of_lt hk, Nat.add_zero, hflight] at hwaits
    cases hwaits

/-- A block is persisted with the insertions made for it, and its runs are seen. -/
theorem Inv.persistMeta (h : Inv cfg hash std st) (hlist : 2 ≤ cfg.poolListLen)
    (hcapacity : cfg.poolCapacity ≤ u64Max) (hwidth : cfg.diskBlockNum ≤ u64Max) {threadId : ℕ}
    (hpersists : st.Persists cfg threadId)
    (hstep : st.step cfg hash std (.call (.persistMeta threadId)) = some next) :
    Inv cfg hash std next := by
  obtain ⟨after, happly, rfl⟩ := step_call hstep
  have hbelow := h.below happly trivial
  obtain ⟨hthread, hpersist⟩ := Option.ite_none_right_eq_some.mp happly
  have hrecorded := InsertHistory.recorded_of_reachable hlist hcapacity hwidth h.history
  have hslots := (Nat.zero_lt_of_lt hthread).trans_le cfg.writeThreadNum_le
  have hlabels := IndexState.persistMeta_blockDiskId hpersist
  obtain ⟨hpos, hothers⟩ := IndexState.persistMeta_rest hpersist
  obtain ⟨-, hheld, -⟩ := IndexState.writingCol_persistMeta hpersist
  obtain ⟨htotal, found, hfound, hruns, hframe⟩ :=
    @InsertHistory.Recorded.persistMeta_places cfg std st.history threadId hrecorded hlist hwidth
      hthread (IndexState.nodesInside_of_reachable (InsertHistory.index_reachable h.history))
      hpersists.owned hpersists.ready
  obtain rfl : found = after := Option.some.inj (hfound.symm.trans hpersist)
  have hmod := hrecorded.wellFormed.diskBlockId_mod _ (hrecorded.wellFormed.checkId_lt threadId)
  have hstart : st.history.firstStart cfg = st.keys.index.diskWritePos :=
    Nat.mod_eq_of_lt hpersists.lap
  have hinside := hpersists.inside
  have howned := hpersists.owned
  have hindex : st.history.index = st.keys.index := rfl
  rw [hindex] at htotal hruns
  rw [htotal] at hpos
  set diskBlockId := st.keys.index.getCheckDishID threadId with hid
  have hmod : diskBlockId % cfg.totalBlockNum = st.keys.index.checkId threadId := hmod
  have hstored : ∀ slot < cfg.indexBlock.totalBlockNum, st.inFlight slot = true →
      BackedRing.Stored cfg.indexBlock.ring
        { memory := found.indexBlockBuffer.bufferBlocks
          labels := found.indexBlockBuffer.blockDiskId
          store := st.disk } slot := fun slot hslot hflight =>
    stored_persist hpersists hlabels hframe hslot hflight (h.stored slot hslot hflight)
  refine ⟨hbelow.1, hbelow.2, hpos.trans_lt hinside, hstored, ?_, ?_, ?_⟩
  · intro insertion hmem
    show found.heldBlock _ = _ ∧ _
    rw [hheld]
    exact h.taken insertion hmem
  · intro other inserts hsome insertion hmem
    have hsome : Function.update st.persisted diskBlockId (some (st.ofBlock diskBlockId)) other =
        some inserts := hsome
    show _ ∈ Function.update st.keys.owed diskBlockId
      (st.keys.taken (st.keys.index.checkId threadId)) other
    by_cases hsame : other = diskBlockId
    · rw [hsame, Function.update_self] at hsome ⊢
      obtain rfl := Option.some.inj hsome
      obtain ⟨hin, hblock⟩ := List.mem_filter.mp hmem
      have hblock := of_decide_eq_true hblock
      have hflow := (h.taken insertion hin).2
      rwa [hblock, hmod] at hflow
    · rw [Function.update_of_ne hsame] at hsome ⊢
      exact h.owed other inserts hsome insertion hmem
  · intro other inserts hsome type
    have hsome : Function.update st.persisted diskBlockId (some (st.ofBlock diskBlockId)) other =
        some inserts := hsome
    by_cases hsame : other = diskBlockId
    · rw [hsame, Function.update_self] at hsome
      obtain rfl := Option.some.inj hsome
      subst hsame
      obtain ⟨⟨hstop, hperm, hsorted⟩, hfirst, hlast⟩ := hruns type
      set range := (found.diskMetas diskBlockId).diskIndexMeta type with hrange
      unfold InsertHistory.runLen at hstop
      -- the run is seen as it lies in the ring, in slots that hold its blocks
      have hseen := @rangeRecords_view cfg type
        { memory := found.indexBlockBuffer.bufferBlocks
          labels := found.indexBlockBuffer.blockDiskId
          store := st.disk } range.1 (st.history.blockRecords diskBlockId type)
        fun k hk => by
          have hplace := howned (range.1 - st.history.firstStart cfg + k) (by omega)
          rw [← Nat.add_assoc, Nat.add_sub_cancel' hfirst] at hplace
          rw [hlabels]
          exact hplace
      rw [← hstop] at hseen
      refine ⟨?_, ?_, ?_, ?_⟩
      · rw [recordsOf_ofBlock]
        exact hstop
      · exact (hstart ▸ hlast).trans hpos.ge
      · rw [recordsOf_ofBlock]
        exact hseen ▸ hperm
      · exact hseen ▸ hsorted
    · rw [Function.update_of_ne hsame] at hsome
      exact (h.runs other inserts hsome type).congr (hothers other hsame)
        ((Nat.le_add_right ..).trans hpos.ge)
        fun pos hlt => view_persist h hpersists hlabels hframe hslots hlt

/-- Clearing a slot takes its insertions along; what its block is owed stays. -/
theorem Inv.clearMeta (h : Inv cfg hash std st) {threadId : ℕ}
    (hstep : st.step cfg hash std (.call (.clearMeta threadId)) = some next) :
    Inv cfg hash std next := by
  obtain ⟨after, happly, rfl⟩ := step_call hstep
  have hbelow := h.below happly trivial
  obtain ⟨-, hclear⟩ := Option.ite_none_right_eq_some.mp happly
  obtain rfl := Option.some.inj hclear
  obtain ⟨hranges, hbuffer, hpos⟩ := IndexState.clearMeta_rest cfg st.keys.index threadId
  refine h.same ⟨hranges, hbuffer, hpos, rfl, rfl⟩ hbelow.1 hbelow.2 ?_
    fun _ _ hsome => ⟨hsome, fun _ => id⟩
  intro insertion hmem
  obtain ⟨hin, hother⟩ := List.mem_filter.mp hmem
  obtain ⟨hheld, hflow⟩ := h.taken insertion hin
  have hslot : insertion.diskBlockId % cfg.totalBlockNum ≠ st.keys.index.checkId threadId := by
    intro hsame
    rw [hsame] at hheld
    exact of_decide_eq_true hother hheld.symm
  refine ⟨(IndexState.heldBlock_clearMeta hslot).trans hheld, ?_⟩
  show _ ∈ Function.update st.keys.taken (st.keys.index.checkId threadId) _ _
  rwa [Function.update_of_ne hslot]

theorem Inv.setPacketCount (h : Inv cfg hash std st) {packetCount : ℕ}
    (hstep : st.step cfg hash std (.call (.setPacketCount diskBlockId packetCount)) = some next) :
    Inv cfg hash std next := by
  obtain ⟨after, happly, rfl⟩ := step_call hstep
  have hbelow := h.below happly trivial
  obtain rfl := Option.some.inj happly
  have hranges := @IndexState.setPacketCount_diskIndexMeta cfg st.keys.index diskBlockId packetCount
  obtain ⟨diskMetas, hset⟩ :=
    @IndexState.setPacketCount_rest cfg st.keys.index diskBlockId packetCount
  rw [hset] at hranges hbelow ⊢
  exact h.same ⟨hranges, rfl, rfl, rfl, rfl⟩ hbelow.1 hbelow.2 h.taken
    fun _ _ hsome => ⟨hsome, fun _ => id⟩

/-- A slot that is recycled takes up a block behind all runs. -/
theorem Inv.recycleBlock (h : Inv cfg hash std st) {slot : ℕ} (hflight : st.inFlight slot = true)
    (hnext : st.keys.index.diskWritePos ≤
      st.backed.nextBlock cfg.indexBlock.ring slot * cfg.indexBlock.blockSize)
    (hstep : st.step cfg hash std (.call (.recycleBlock slot)) = some next) :
    Inv cfg hash std next := by
  obtain ⟨after, happly, rfl⟩ := step_call hstep
  have hbelow := h.below happly trivial
  obtain ⟨hslot, hrecycle⟩ := Option.ite_none_right_eq_some.mp happly
  obtain rfl := Option.some.inj hrecycle
  have hsize := cfg.indexBlock_checks.2
  have hinside := h.inside
  refine ⟨hbelow.1, hbelow.2, h.inside, fun other hother hwaits => ?_, h.taken, h.owed,
    fun other inserts hsome type => ?_⟩
  · have hne : other ≠ slot := by
      rintro rfl
      have hlanded : Function.update st.inFlight other false other = true := hwaits
      rw [Function.update_self] at hlanded
      cases hlanded
    have hlanded : Function.update st.inFlight slot false other = true := hwaits
    rw [Function.update_of_ne hne] at hlanded
    exact (h.stored other hother hlanded).recycle hne
  · refine (h.runs other inserts hsome type).congr rfl le_rfl fun pos hpos => ?_
    refine BackedRing.view_recycle (h.stored slot hslot hflight) hsize (hpos.trans hinside) ?_
    -- the block taken up begins behind the position
    have hblock : cfg.indexBlock.ring.blockOf pos = pos / cfg.indexBlock.blockSize :=
      BackedRing.blockOf_eq (hpos.trans hinside)
    rw [hblock]
    exact ((Nat.div_lt_iff_lt_mul hsize).mpr (hpos.trans_le hnext)).ne

/-- A dump changes nothing that is seen, and the other slots in flight hold other blocks. -/
theorem Inv.dump (h : Inv cfg hash std st)
    (hstepped : cfg.indexBlock.ring.Congruent st.keys.index.indexBlockBuffer.blockDiskId) {slot : ℕ}
    (hstep : st.step cfg hash std (.dump slot) = some next) : Inv cfg hash std next := by
  obtain ⟨⟨hslot, hwaits⟩, hnext⟩ := Option.ite_none_right_eq_some.mp hstep
  obtain rfl := Option.some.inj hnext
  have hinside := h.inside
  refine ⟨h.keys, h.history, h.inside, fun other hother hflight => ?_, h.taken, h.owed,
    fun other inserts hsome type => ?_⟩
  · show (st.backed.dump cfg.indexBlock.ring slot).Stored cfg.indexBlock.ring other
    by_cases hsame : other = slot
    · rw [hsame]
      exact BackedRing.stored_dump
    · have hflight : Function.update st.inFlight slot true other = true := hflight
      rw [Function.update_of_ne hsame] at hflight
      exact (h.stored other hother hflight).dump
        (BackedRing.labels_ne hstepped hother hslot hsame)
  · exact (h.runs other inserts hsome type).congr rfl le_rfl fun pos hpos =>
      @BackedRing.view_dump cfg.indexBlock.ring st.backed pos slot cfg.indexBlock_checks.2 hstepped
        hslot (hpos.trans hinside)

/-- In every run that goes through the index disk once, the runs of the blocks persisted are
seen. -/
theorem inv_of_reachable
    (hdvd : cfg.indexBlock.totalBlockNum ∣ cfg.indexBlock.diskBlockNum)
    (hlist : 2 ≤ cfg.poolListLen) (hcapacity : cfg.poolCapacity ≤ u64Max)
    (hwidth : cfg.diskBlockNum ≤ u64Max)
    (hreach : (system cfg hash std).Reachable (Allowed cfg hash) st) : Inv cfg hash std st := by
  refine hreach.invariant (Inv cfg hash std) inv_init ?_
  intro st next label h hallowed hstep
  cases label with
  | dump slot =>
      exact h.dump (congruent_of_reachable hdvd (InsertHistory.index_reachable h.history)) hstep
  | call operation =>
      cases operation with
      | insert flow position diskBlockId rxId => exact h.insert hallowed hstep
      | persistMeta threadId => exact h.persistMeta hlist hcapacity hwidth hallowed hstep
      | clearMeta threadId => exact h.clearMeta hstep
      | setPacketCount diskBlockId packetCount => exact h.setPacketCount hstep
      | recycleBlock slot => exact h.recycleBlock hallowed.1 hallowed.2 hstep

/-! ## Looking up a key -/

/-- The positions of the insertions with a key, as eight bytes hold them. -/
def keyPositions (inserts : List IndexInsert) (type : IndexType) (key : List UInt8) : List ℕ :=
  inserts.filterMap fun insertion =>
    if insertion.flow.indexKey type = some key then some (insertion.position % 256 ^ 8) else none

/-- The records with a key are those of the insertions with the key. -/
theorem positionsOf_recordsOf {key : List UInt8} (hkey : key.length = type.keyLen) :
    positionsOf type.keyLen key (recordsOf inserts type) = keyPositions inserts type key := by
  unfold positionsOf recordsOf keyPositions
  rw [List.filter_filterMap, List.map_filterMap]
  refine List.filterMap_congr fun insertion _ => ?_
  unfold IndexInsert.record
  cases hfound : insertion.flow.indexKey type with
  | none => simp
  | some other =>
      have hlength := FlowMetadata.length_indexKey hfound
      have hother : recordKey type.keyLen (other ++ toLittleEndian 8 insertion.position) =
          ofLittleEndian other := by
        rw [recordKey, ← hlength, List.take_left]
      have hsame : ofLittleEndian other = recordKey type.keyLen key ↔ other = key := by
        rw [recordKey, ← hkey, List.take_length]
        refine ⟨fun heq => ?_, fun heq => heq ▸ rfl⟩
        rw [← toLittleEndian_ofLittleEndian other, ← toLittleEndian_ofLittleEndian key, heq,
          hlength, hkey]
      have hvalue : ofLittleEndian
          ((other ++ toLittleEndian 8 insertion.position).drop type.keyLen) =
            insertion.position % 256 ^ 8 := by
        rw [← hlength, List.drop_left, ofLittleEndian_toLittleEndian]
      simp only [Option.map_some, Option.filter_some, hother, hsame, Option.some.injEq]
      by_cases heq : other = key
      · simp only [heq, decide_true, if_true, Option.map_some, ← hvalue]
      · simp only [heq, decide_false, Bool.false_eq_true, if_false, Option.map_none]

/-- `Querier::getIndexRange`, whose loop over the disk blocks comes to block 0 only. -/
def getIndexRange (cfg : IndexConfig) (hash : StdHash) (index : IndexState) (type : IndexType)
    (key : List UInt8) : List (ℕ × ℕ) :=
  (List.range 1).filterMap fun i =>
    if index.checkKey cfg hash i key type then some ((index.diskMetas i).diskIndexMeta type)
    else none

/-- `Querier::getPointerByFlowMetaIndex` up to the packets: the positions it reads from.  A
failed read of the index disk is not told apart from a short list; `none` where more is
written to the index buffer than it has room for. -/
def getPointerByFlowMetaIndex (cfg : IndexStorageConfig) (hash : StdHash) (io : ℕ → ℕ → Bool)
    (index : IndexState) (disk indexBuffer : Memory) (type : IndexType) (key : List UInt8) :
    Option (List ℕ) :=
  match IndexQuerier.getOffsetList cfg.querier disk io type key
      (getIndexRange cfg.index hash index type key) (IndexQuerier.start indexBuffer) with
  | .done offsetList => some (offsetList.insertionSort (· ≤ ·))
  | .readFail offsetList => some (offsetList.insertionSort (· ≤ ·))
  | .overflow => none

/-- Each byte of the run of a type has been written to the disk. -/
def Dumped (cfg : IndexConfig) (st : IndexStore) (diskBlockId : ℕ) (type : IndexType) : Prop :=
  let range := (st.keys.index.diskMetas diskBlockId).diskIndexMeta type
  ∀ pos < range.2, range.1 ≤ pos →
    ¬ cfg.indexBlock.ring.Owned st.keys.index.indexBlockBuffer.blockDiskId pos ∨
      st.inFlight (cfg.indexBlock.ring.slotOf pos) = true

instance (cfg : IndexConfig) (st : IndexStore) (diskBlockId : ℕ) (type : IndexType) :
    Decidable (st.Dumped cfg diskBlockId type) := by
  unfold Dumped
  infer_instance

/-- A range that has been dumped is on the disk as it is seen. -/
theorem rangeRecords_disk (h : Inv cfg hash std st) (hslots : 0 < cfg.indexBlock.totalBlockNum)
    (hsees : SeesRun cfg st diskBlockId type inserts) (hdumped : st.Dumped cfg diskBlockId type) :
    rangeRecords st.disk type ((st.keys.index.diskMetas diskBlockId).diskIndexMeta type) =
      rangeRecords (st.backed.view cfg.indexBlock.ring) type
        ((st.keys.index.diskMetas diskBlockId).diskIndexMeta type) := by
  have hstop := hsees.stop
  have hinside := hsees.le.trans_lt h.inside
  refine List.map_congr_left fun i hi => Memory.read_congr fun k hk => ?_
  have hlast : (i + 1) * (type.keyLen + 8) ≤
      ((st.keys.index.diskMetas diskBlockId).diskIndexMeta type).2 -
        ((st.keys.index.diskMetas diskBlockId).diskIndexMeta type).1 :=
    (Nat.mul_le_mul_right _ (List.mem_range.mp hi)).trans (Nat.div_mul_le_self ..)
  rw [Nat.succ_mul] at hlast
  have hpos : ((st.keys.index.diskMetas diskBlockId).diskIndexMeta type).1 +
      i * (type.keyLen + 8) + k <
        ((st.keys.index.diskMetas diskBlockId).diskIndexMeta type).2 := by omega
  refine @BackedRing.store_eq_view cfg.indexBlock.ring st.backed _ cfg.indexBlock_checks.2
    (hpos.trans hinside) ?_
  rcases hdumped _ hpos (by omega) with hleft | hflight
  · exact .inl hleft
  · exact .inr (h.stored _ (Nat.mod_lt _ hslots) hflight)

/-- The lookup in one range that starts on the disk finds the positions of its records. -/
theorem getOffsetList_range {cfg : IndexQuerierConfig} {disk : Memory} {io : ℕ → ℕ → Bool}
    {key : List UInt8} {range : ℕ × ℕ} (indexBuffer : Memory)
    (hio : ∀ first last, io first last = true) (hrecords : HoldsRecords cfg disk type range)
    (hfits : FitsBuffer cfg range) (hsearch : searchKeyLen type = type.keyLen)
    (hinside : range.2 < cfg.blockNum * cfg.readBlockSize) :
    IndexQuerier.getOffsetList cfg disk io type key [range] (IndexQuerier.start indexBuffer) =
      .done (rangePositions disk type key range) := by
  have hle := hrecords.le
  have hblock : range.1 / cfg.readBlockSize ≤ range.1 := Nat.div_le_self ..
  have hlast : range.2 / cfg.readBlockSize < cfg.blockNum :=
    (Nat.div_lt_iff_lt_mul cfg.readBlockSize_pos).mpr hinside
  have hids : range.1 / cfg.readBlockSize ≤ range.2 / cfg.readBlockSize :=
    Nat.div_le_div_right hle
  have hfirst : u64Max ≠ range.1 / cfg.readBlockSize := by
    have hsize := cfg.diskSize_lt
    omega
  have hread : ∃ mem, IndexQuerier.read cfg disk io indexBuffer 0 (range.1 / cfg.readBlockSize)
      (range.2 / cfg.readBlockSize) = .ok mem := by
    unfold FitsBuffer at hfits
    unfold IndexQuerier.read
    rw [if_neg, if_neg]
    · exact ⟨_, rfl⟩
    · rw [Nat.zero_add]
      omega
    · rw [hio]
      simp only [Bool.true_eq_false, or_false]
      omega
  obtain ⟨mem, hread⟩ := hread
  have hload : (IndexQuerier.start indexBuffer).load cfg disk io range =
      .ok (true, (IndexQuerier.start indexBuffer).moveTo cfg range mem) := by
    unfold IndexQuerier.load
    simp only
    rw [if_neg (show (IndexQuerier.start indexBuffer).lastId ≠ _ from hfirst),
      show (IndexQuerier.start indexBuffer).indexBuffer = indexBuffer from rfl, hread]
    rfl
  rcases @IndexQuerier.getOffsetList_cases cfg disk io type key (IndexQuerier.start indexBuffer)
      [range] (.inl rfl) (by simpa using hrecords) (fun _ _ => .inl hsearch) with
    ⟨offsetList, hfail⟩ | ⟨⟨other, hmem, hover⟩, -⟩ | ⟨-, hdone⟩
  · unfold IndexQuerier.getOffsetList at hfail
    rw [hload] at hfail
    cases hfail
  · rw [List.mem_singleton.mp hmem] at hover
    exact absurd hfits hover
  · rw [hdone]
    have hnot : ¬ InLastBlock cfg (IndexQuerier.start indexBuffer).lastId range :=
      fun habsurd => hfirst habsurd.1
    simp only [foundPositions, if_neg hnot, List.append_nil]
    rfl

/-- With as many backup columns as slots, lookups owe no answer they do not give. -/
theorem answered_of_reachable {keys : IndexHistory}
    (hcols : cfg.totalBlockNum ≤ cfg.backupColCount)
    (h : (IndexHistory.system cfg hash std).Reachable (fun _ _ => True) keys) :
    IndexHistory.Answered cfg hash keys := by
  have hkept : IndexHistory.KeysKept cfg hash keys := by
    induction h with
    | init => exact IndexHistory.keysKept_init cfg hash
    | step hreach _ hstep ih =>
        exact ih.apply ((IndexHistory.spread_of_reachable hcols hreach).freeColumn
          (IndexHistory.recorded_of_reachable hreach) hcols _) hstep
  exact hkept.answered (IndexHistory.recorded_of_reachable h)

/-- A lookup finds, in order, the positions that the block was persisted with. -/
theorem Inv.lookup {cfg : IndexStorageConfig} {io : ℕ → ℕ → Bool} {key : List UInt8}
    (h : Inv cfg.index hash std st) (indexBuffer : Memory)
    (hslots : 0 < cfg.index.indexBlock.totalBlockNum)
    (hcols : cfg.index.totalBlockNum ≤ cfg.index.backupColCount)
    (hio : ∀ first last, io first last = true)
    (hpersisted : st.persisted 0 = some inserts) (hdumped : st.Dumped cfg.index 0 type)
    (hsearch : searchKeyLen type = type.keyLen) (hkey : key.length = type.keyLen)
    (hfits : FitsBuffer cfg.querier ((st.keys.index.diskMetas 0).diskIndexMeta type)) :
    getPointerByFlowMetaIndex cfg hash io st.keys.index st.disk indexBuffer type key =
      some ((keyPositions inserts type key).insertionSort (· ≤ ·)) := by
  have hsees := h.runs 0 inserts hpersisted type
  have hdisk := rangeRecords_disk h hslots hsees hdumped
  have hstop := hsees.stop
  have hlast := hsees.le.trans_lt h.inside
  set range := (st.keys.index.diskMetas 0).diskIndexMeta type with hrange
  have hend : range.2 < cfg.querier.blockNum * cfg.querier.readBlockSize := by
    rw [IndexStorageConfig.blockNum_mul, ← IndexStorageConfig.indexDiskSize_eq]
    exact hlast
  have hrecords : HoldsRecords cfg.querier st.disk type range := by
    refine ⟨by omega, hend.le, ?_, hdisk ▸ hsees.sorted⟩
    rw [hstop, Nat.add_sub_cancel_left]
    exact Nat.mul_mod_left ..
  have hfound : (rangePositions st.disk type key range).Perm (keyPositions inserts type key) := by
    rw [rangePositions, hdisk, ← positionsOf_recordsOf hkey]
    exact (hsees.perm.filter _).map _
  unfold getPointerByFlowMetaIndex getIndexRange
  by_cases hcheck : st.keys.index.checkKey cfg.index hash 0 key type = true
  · have hranges : (List.range 1).filterMap (fun i =>
        if st.keys.index.checkKey cfg.index hash i key type then
          some ((st.keys.index.diskMetas i).diskIndexMeta type) else none) = [range] := by
      simp [List.range_one, hcheck, hrange]
    rw [hranges, getOffsetList_range indexBuffer hio hrecords hfits hsearch hend]
    exact congrArg some (PrefixLookup.insertionSort_eq_iff.mpr hfound)
  · -- the filter says no, so no insertion had the key
    have hranges : (List.range 1).filterMap (fun i =>
        if st.keys.index.checkKey cfg.index hash i key type then
          some ((st.keys.index.diskMetas i).diskIndexMeta type) else none) = [] := by
      simp [List.range_one, hcheck]
    have hnone : keyPositions inserts type key = [] := by
      refine List.filterMap_eq_nil_iff.mpr fun insertion hmem => if_neg fun hhas => hcheck ?_
      exact answered_of_reachable hcols h.keys 0 insertion.flow
        (h.owed 0 inserts hpersisted insertion hmem) type key hhas
    rw [hranges, hnone]
    rfl

/-- **A query finds what was inserted.**  In every run that goes through the index disk once,
the query for a key returns the positions of the insertions with the key that block 0 was
persisted with, in order and no others, as soon as the run of the key's type has been
dumped. -/
theorem query_returns_inserted (cfg : IndexStorageConfig) {hash : StdHash} {std : StdSort}
    {io : ℕ → ℕ → Bool} {st : IndexStore} {inserts : List IndexInsert} {type : IndexType}
    {key : List UInt8} (indexBuffer : Memory)
    (hdvd : cfg.index.indexBlock.totalBlockNum ∣ cfg.index.indexBlock.diskBlockNum)
    (hlist : 2 ≤ cfg.index.poolListLen) (hcapacity : cfg.index.poolCapacity ≤ u64Max)
    (hwidth : cfg.index.diskBlockNum ≤ u64Max)
    (hcols : cfg.index.totalBlockNum ≤ cfg.index.backupColCount)
    (hio : ∀ first last, io first last = true)
    (hreach : (system cfg.index hash std).Reachable (Allowed cfg.index hash) st)
    (hpersisted : st.persisted 0 = some inserts) (hdumped : st.Dumped cfg.index 0 type)
    (hsearch : searchKeyLen type = type.keyLen) (hkey : key.length = type.keyLen)
    (hfits : FitsBuffer cfg.querier ((st.keys.index.diskMetas 0).diskIndexMeta type)) :
    getPointerByFlowMetaIndex cfg hash io st.keys.index st.disk indexBuffer type key =
      some ((keyPositions inserts type key).insertionSort (· ≤ ·)) := by
  have h := inv_of_reachable hdvd hlist hcapacity hwidth hreach
  exact h.lookup indexBuffer
    (Nat.pos_of_dvd_of_pos hdvd (Nat.zero_lt_of_lt cfg.index.indexBlock_diskBlockNum_gt)) hcols hio
    hpersisted hdumped hsearch hkey hfits

open IndexStorageConfig (smallStorage someHash someSort portFlow)

/-- One slot for data blocks with a backup column, two pools, and eight index slots of 8
bytes over 40 blocks. -/
def eightSlots : IndexConfig :=
  { IndexHistory.portSlot with
    poolNum := 2
    poolCapacity := 480
    indexBlock := { totalBlockNum := 8, blockSize := 8, diskBlockNum := 40, threadNum := 1 }
    writeThreadNum_le := Nat.le_add_left 1 7
    indexBlock_accepted := rfl }

def eightSlotStorage : IndexStorageConfig where
  index := eightSlots
  querier :=
    { smallStorage.querier with
      blockNum := 20
      diskSize_lt := Nat.le_of_ble_eq_true rfl }
  dataDiskSize := eightSlots.persisterDiskSize
  indexDiskSize := 320
  persister_eq := rfl
  wholeBlocks := rfl
  diskBlockNum_eq := rfl
  wholeReads := rfl
  blockNum_eq := rfl

/-- Two flows of block 0 in two pools, their runs dumped and the first slot recycled. -/
theorem query_returns_inserted_twoPools : ∃ st : IndexStore,
    getPointerByFlowMetaIndex eightSlotStorage someHash (fun _ _ => true) st.keys.index st.disk
      (fun _ => 0) .dstport (toLittleEndian 2 443) = some [2, 5] := by
  obtain ⟨st, hreach, hpersisted, hdumped, hfits⟩ := @TransitionSystem.exists_reachable _ _
    (system eightSlots someHash someSort) (Allowed eightSlots someHash)
    [.call (.insert portFlow 5 0 0), .call (.insert portFlow 2 0 1), .call (.persistMeta 0),
      .dump 2, .dump 3, .call (.recycleBlock 2), .dump 4]
    (fun st => st.persisted 0 = some [⟨portFlow, 5, 0, 0⟩, ⟨portFlow, 2, 0, 1⟩] ∧
      st.Dumped eightSlots 0 .dstport ∧
        FitsBuffer eightSlotStorage.querier ((st.keys.index.diskMetas 0).diskIndexMeta .dstport))
    _ (by decide +kernel) (by decide +kernel)
  exact ⟨st, query_returns_inserted eightSlotStorage (fun _ => 0) (by decide) (by decide)
    (by decide) (by decide) (by decide) (fun _ _ => rfl) hreach hpersisted hdumped rfl rfl hfits⟩

end IndexStore

end TrafficDatabase
