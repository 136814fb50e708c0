import TrafficDatabase.Data.BlockOwnership
import TrafficDatabase.Index.PoolHistory
import TrafficDatabase.Storage.IndexPlacement

/-!
# Runs are published whether or not they were written

`writeToBuffer` hands the records of a block to `writeBlock` in one or two pieces and drops
what it returns; `persistMeta` goes on to sort and publish the run, and `clearMeta` to
recycle its records.  So a run that `persistMeta` publishes is in the index block buffer
exactly if the buffer accepted every piece of it, or had the bytes already
(`neverSilent_iff`).
-/

namespace TrafficDatabase

namespace MemoryPool

variable (pool : MemoryPool) (diskBlockId : ℕ)

/-- The bytes of the records of a block: those from the start of its node to the end of the
pool, and the rest from the start of the pool. -/
def recordBytes : List UInt8 :=
  match pool.nodeOf diskBlockId with
  | none => []
  | some node =>
      let len := pool.getLenOfDiskID diskBlockId
      let upper := pool.capacity - (pool.allocatedList node).startOffset
      pool.buffer.read (pool.allocatedList node).startOffset (min len upper) ++
        pool.buffer.read 0 (len - upper)

/-- The pieces in which `writeToBuffer` writes `len` bytes of a block. -/
def pieces (len : ℕ) : List (List UInt8) :=
  match pool.nodeOf diskBlockId with
  | none => []
  | some node =>
      let startOffset := (pool.allocatedList node).startOffset
      if startOffset + len < pool.capacity then [pool.buffer.read startOffset len]
      else
        [pool.buffer.read startOffset (pool.capacity - startOffset),
          pool.buffer.read 0 (len + startOffset - pool.capacity)]

/-- Nodes of blocks start in the pool. -/
def NodesInside : Prop :=
  ∀ node, (pool.allocatedList node).dataBlockId ≠ u64Max →
    (pool.allocatedList node).startOffset < pool.capacity

variable {pool diskBlockId} {next : MemoryPool} {len node : ℕ}

theorem findNode_eq_some {count start : ℕ}
    (h : pool.findNode diskBlockId count start = some node) :
    (pool.allocatedList node).dataBlockId = diskBlockId := by
  induction count generalizing start with
  | zero => cases h
  | succ count ih =>
      rw [findNode] at h
      split_ifs at h with htail hblock
      · exact Option.some.inj h ▸ hblock
      · exact ih h

/-- The pieces of the records are their bytes. -/
theorem flatten_pieces (h : pool.NodesInside) (hblock : diskBlockId ≠ u64Max) :
    (pool.pieces diskBlockId (pool.getLenOfDiskID diskBlockId)).flatten =
      pool.recordBytes diskBlockId := by
  unfold pieces recordBytes
  cases hnode : pool.nodeOf diskBlockId with
  | none => rfl
  | some node =>
      have hstart := h node (by rw [findNode_eq_some hnode]; exact hblock)
      simp only
      split_ifs with hinside
      · rw [min_eq_left (by omega), Nat.sub_eq_zero_of_le (by omega), Memory.read_zero]
        simp
      · rw [min_eq_right (by omega), show pool.getLenOfDiskID diskBlockId +
          (pool.allocatedList node).startOffset - pool.capacity = pool.getLenOfDiskID diskBlockId -
            (pool.capacity - (pool.allocatedList node).startOffset) by omega]
        simp

theorem length_recordBytes :
    (pool.recordBytes diskBlockId).length = pool.getLenOfDiskID diskBlockId := by
  unfold recordBytes
  cases hnode : pool.nodeOf diskBlockId with
  | none =>
      rw [getLenOfDiskID, hnode]
      rfl
  | some node =>
      simp only [List.length_append, Memory.length_read]
      omega

/-! ### Nodes stay inside -/

theorem nodesInside_fresh (capacity listLen : ℕ) : (fresh capacity listLen).NodesInside :=
  fun _ hblock => absurd rfl hblock

theorem NodesInside.advanceHead (h : pool.NodesInside) (fuel : ℕ) :
    (advanceHead fuel pool).NodesInside := by
  induction fuel generalizing pool with
  | zero => exact h
  | succ fuel ih =>
      simp only [MemoryPool.advanceHead]
      split_ifs
      · exact h
      · exact ih h
      · exact h

/-- A node that is written starts inside. -/
theorem NodesInside.update (h : pool.NodesInside) {written : NodeMeta} (node : ℕ)
    (hstart : written.startOffset < pool.capacity) (other : ℕ)
    (hblock : (Function.update pool.allocatedList node written other).dataBlockId ≠ u64Max) :
    (Function.update pool.allocatedList node written other).startOffset < pool.capacity := by
  by_cases hsame : other = node
  · rw [hsame, Function.update_self]
    exact hstart
  · rw [Function.update_of_ne hsame] at hblock ⊢
    exact h other hblock

theorem NodesInside.allocate (h : pool.NodesInside) (hlen : 0 < len) {start : ℕ}
    (hallocate : pool.allocate len diskBlockId = some (start, next)) : next.NodesInside := by
  have hmoved := h.advanceHead pool.listLen
  unfold MemoryPool.allocate allocateFrom at hallocate
  generalize MemoryPool.advanceHead pool.listLen pool = moved at hmoved hallocate
  generalize hpos : (if moved.allocatePos + len > moved.capacity then 0 else moved.allocatePos) =
    allocatePos at hallocate
  simp only at hallocate
  split_ifs at hallocate with hinside hfirst hoccupied
  · obtain ⟨-, rfl⟩ := Prod.mk.inj (Option.some.inj hallocate)
    exact hmoved.update _ (by simp only; omega)
  all_goals
    obtain ⟨added, hadded, hnext⟩ := Option.map_eq_some_iff.mp hallocate
    obtain ⟨-, rfl⟩ := Prod.mk.inj hnext
  · unfold addNodeMeta at hadded
    split_ifs at hadded
    obtain rfl := Option.some.inj hadded
    exact hmoved.update _ (by simp only; omega)
  · obtain rfl := Option.some.inj hadded
    exact hmoved

theorem NodesInside.put (h : pool.NodesInside) {key : List UInt8} {position : ℕ}
    (hput : pool.put key position diskBlockId = some next) : next.NodesInside := by
  obtain ⟨⟨start, after⟩, hallocate, rfl⟩ := Option.map_eq_some_iff.mp hput
  have hafter : after.NodesInside := h.allocate (Nat.succ_pos _) hallocate
  exact hafter

theorem NodesInside.recycle (h : pool.NodesInside) (diskBlockId : ℕ) :
    (pool.recycle diskBlockId).NodesInside := by
  intro node hblock
  have hcapacity : (pool.recycle diskBlockId).capacity = pool.capacity := by
    unfold MemoryPool.recycle
    cases pool.nodeOf diskBlockId <;> rfl
  rw [(recycle_node node).2] at hblock
  rw [(recycle_node node).1, hcapacity]
  exact h node hblock

end MemoryPool

theorem IndexMemoryPool.nodesInside_insert {pool next : IndexMemoryPool}
    (h : ∀ type, (pool type).NodesInside) {flow : FlowMetadata} {position diskBlockId : ℕ}
    (hinsert : pool.insert flow position diskBlockId = some next) (type : IndexType) :
    (next type).NodesInside := by
  obtain ⟨hput, hkept⟩ := insert_put hinsert type
  cases hkey : flow.indexKey type with
  | some key => exact (h type).put (hput key hkey)
  | none =>
      rw [hkept hkey]
      exact h type

namespace IndexState

variable {cfg : IndexConfig} {hash : StdHash} {std : StdSort} {st next : IndexState}

theorem nodesInside_of_reachable {allowed : IndexState → Operation → Prop}
    (h : (operations cfg hash std).Reachable allowed st) (rxId : ℕ) (type : IndexType) :
    (st.memoryPools rxId type).NodesInside := by
  revert rxId type
  refine h.invariant (fun st => ∀ rxId type, (st.memoryPools rxId type).NodesInside)
    (fun _ _ => MemoryPool.nodesInside_fresh _ _) ?_
  intro st next operation hinside _ hstep rxId type
  cases operation with
  | insert flow position diskBlockId insertedId =>
      obtain ⟨-, hinsert⟩ := Option.ite_none_right_eq_some.mp hstep
      obtain ⟨⟨done, after⟩, hdone, rfl⟩ := Option.map_eq_some_iff.mp hinsert
      rcases insert_cases hdone with ⟨-, bitmap, rfl, -⟩ | ⟨-, hinserted⟩
      · exact hinside rxId type
      · obtain ⟨pool, hpool, hpools⟩ := hinserted.pools
        show (after.memoryPools rxId type).NodesInside
        rw [hpools]
        by_cases hsame : rxId = insertedId
        · rw [hsame, Function.update_self]
          exact IndexMemoryPool.nodesInside_insert (hinside insertedId) hpool type
        · rw [Function.update_of_ne hsame]
          exact hinside rxId type
  | persistMeta threadId =>
      obtain ⟨-, hpersist⟩ := Option.ite_none_right_eq_some.mp hstep
      rw [(persisted_of_persistMeta hpersist).memoryPools]
      exact hinside rxId type
  | clearMeta threadId =>
      obtain ⟨-, hclear⟩ := Option.ite_none_right_eq_some.mp hstep
      obtain rfl := Option.some.inj hclear
      have hcleared := (cleared_clearMeta cfg st threadId).memoryPools
      rw [hcleared]
      exact (hinside rxId type).recycle _
  | setPacketCount diskBlockId packetCount =>
      obtain rfl := Option.some.inj hstep
      obtain ⟨diskMetas, hset⟩ := @setPacketCount_rest cfg st diskBlockId packetCount
      rw [hset]
      exact hinside rxId type
  | recycleBlock blockId =>
      obtain ⟨-, hrecycle⟩ := Option.ite_none_right_eq_some.mp hstep
      obtain rfl := Option.some.inj hrecycle
      exact hinside rxId type

end IndexState

/-! ## Writing a run -/

namespace IndexBlockBuffer

variable {cfg : IndexBlockConfig} {buf : IndexBlockBuffer} {threadId diskPos : ℕ}

theorem writeBlock_memory (data : List UInt8) :
    (buf.writeBlock cfg threadId data diskPos).2.bufferBlocks =
      if cfg.ring.Accepts buf.blockDiskId diskPos data.length then
        buf.bufferBlocks.ringWrite cfg.ring.bytes diskPos data
      else buf.bufferBlocks := by
  rw [writeBlock_bufferBlocks]
  simp only [writeBlock_accepts]
  rfl

end IndexBlockBuffer

/-- `writeToBuffer` writes the pieces one behind the other. -/
theorem MemoryPool.writeToBuffer_memory {pool : MemoryPool} {cfg : IndexBlockConfig}
    {buf : IndexBlockBuffer} {diskBlockId len threadId diskPos : ℕ} :
    (pool.writeToBuffer cfg diskBlockId len buf threadId diskPos).bufferBlocks =
      cfg.ring.writeAll buf.blockDiskId (pool.pieces diskBlockId len) diskPos buf.bufferBlocks := by
  unfold writeToBuffer pieces
  cases pool.nodeOf diskBlockId with
  | none => rfl
  | some node =>
      simp only
      split_ifs
      · rw [IndexBlockBuffer.writeBlock_memory, BlockRing.writeAll, BlockRing.writeAll]
      · rw [IndexBlockBuffer.writeBlock_memory, IndexBlockBuffer.writeBlock_memory,
          IndexBlockBuffer.writeBlock_blockDiskId, BlockRing.writeAll, BlockRing.writeAll,
          BlockRing.writeAll]
        simp only [Memory.length_read]

namespace IndexState

variable {cfg : IndexConfig} {std : StdSort} {st next : IndexState}

/-- The bytes of the records of a type that the pools hold for a disk block. -/
def runBytes (cfg : IndexConfig) (st : IndexState) (diskBlockId : ℕ) (type : IndexType) :
    List UInt8 :=
  (List.range cfg.poolNum).flatMap fun rxId => (st.memoryPools rxId type).recordBytes diskBlockId

/-- The pieces in which these are written. -/
def runPieces (st : IndexState) (diskBlockId : ℕ) (type : IndexType) (rxIds : List ℕ) :
    List (List UInt8) :=
  rxIds.flatMap fun rxId =>
    let pool := st.memoryPools rxId type
    if pool.getLenOfDiskID diskBlockId = 0 then []
    else pool.pieces diskBlockId (pool.getLenOfDiskID diskBlockId)

theorem flatten_runPieces {diskBlockId : ℕ} {type : IndexType}
    (h : ∀ rxId, (st.memoryPools rxId type).NodesInside) (hblock : diskBlockId ≠ u64Max)
    (rxIds : List ℕ) : (st.runPieces diskBlockId type rxIds).flatten =
      rxIds.flatMap fun rxId => (st.memoryPools rxId type).recordBytes diskBlockId := by
  induction rxIds with
  | nil => rfl
  | cons rxId rest ih =>
      unfold runPieces at ih ⊢
      rw [List.flatMap_cons, List.flatMap_cons, List.flatten_append, ih]
      congr 1
      simp only
      split_ifs with hlen
      · exact (List.eq_nil_of_length_eq_zero (MemoryPool.length_recordBytes.trans hlen)).symm
      · exact MemoryPool.flatten_pieces (h rxId) hblock

theorem length_runBytes {diskBlockId : ℕ} {type : IndexType} :
    (runBytes cfg st diskBlockId type).length = typeLen cfg st diskBlockId type := by
  unfold runBytes typeLen
  rw [List.length_flatMap]
  simp only [MemoryPool.length_recordBytes]

/-- The loop over the pools writes the pieces one behind the other. -/
theorem persistPools_memory {type : IndexType} {threadId diskBlockId currentOffset : ℕ}
    (h : ∀ rxId, (st.memoryPools rxId type).NodesInside) (hblock : diskBlockId ≠ u64Max)
    (rxIds : List ℕ) (buffer : IndexBlockBuffer) (indexOffset : ℕ) :
    (st.persistPools cfg type threadId diskBlockId currentOffset rxIds buffer
        indexOffset).1.bufferBlocks =
      cfg.indexBlock.ring.writeAll buffer.blockDiskId (st.runPieces diskBlockId type rxIds)
        (currentOffset + indexOffset) buffer.bufferBlocks := by
  induction rxIds generalizing buffer indexOffset with
  | nil => rfl
  | cons rxId rest ih =>
      unfold persistPools
      rw [runPieces, List.flatMap_cons]
      simp only
      split_ifs with hlen
      · exact ih buffer indexOffset
      · rw [ih, writeToBuffer_blockDiskId, MemoryPool.writeToBuffer_memory,
          BlockRing.writeAll_append, MemoryPool.flatten_pieces (h rxId) hblock,
          MemoryPool.length_recordBytes, Nat.add_assoc]
        rfl

/-- The loop over the types comes to each type with the buffer the types before it left. -/
theorem persistTypes_append {threadId diskBlockId currentOffset : ℕ}
    {first second : List IndexType}
    (h : persistTypes cfg std threadId diskBlockId (first ++ second) currentOffset st =
      some next) :
    ∃ middle, persistTypes cfg std threadId diskBlockId first currentOffset st = some middle ∧
      persistTypes cfg std threadId diskBlockId second
        (currentOffset + (first.map (typeLen cfg st diskBlockId)).sum) middle = some next := by
  induction first generalizing st currentOffset with
  | nil => exact ⟨st, rfl, h⟩
  | cons type rest ih =>
      obtain ⟨sorted, hsorted, hrest⟩ := Option.bind_eq_some_iff.mp h
      obtain ⟨middle, hmiddle, hsecond⟩ := ih hrest
      refine ⟨middle, Option.bind_eq_some_iff.mpr ⟨sorted, hsorted, hmiddle⟩, ?_⟩
      have hpools : ({ st with indexBlockBuffer := sorted }.setIndexID cfg diskBlockId type
          currentOffset (currentOffset + (st.persistPools cfg type threadId diskBlockId
            currentOffset (List.range cfg.poolNum) st.indexBlockBuffer 0).2)).memoryPools =
          st.memoryPools := (sameIndex_setIndexID ..).memoryPools
      have hlen : (st.persistPools cfg type threadId diskBlockId currentOffset
          (List.range cfg.poolNum) st.indexBlockBuffer 0).2 = typeLen cfg st diskBlockId type := by
        rw [persistPools_snd, Nat.zero_add]
        rfl
      rw [typeLen_congr hpools, hlen] at hsecond
      rw [List.map_cons, List.sum_cons, ← Nat.add_assoc]
      exact hsecond

/-- The index when `persistMeta` comes to a type. -/
def beforeType (cfg : IndexConfig) (std : StdSort) (st : IndexState) (threadId : ℕ)
    (type : IndexType) : Option IndexState :=
  persistTypes cfg std threadId (st.getCheckDishID threadId) (IndexType.all.takeWhile (· ≠ type))
    (st.diskWritePos % cfg.persisterDiskSize)
    { st with
      diskWritePos := st.diskWritePos + st.totalNodeLen cfg (st.getCheckDishID threadId) }

/-- The index block buffer when `persistMeta` has written the records of a type there. -/
def afterWrites (cfg : IndexConfig) (threadId : ℕ) (type : IndexType) (st before : IndexState) :
    IndexBlockBuffer :=
  (before.persistPools cfg type threadId (st.getCheckDishID threadId)
    (st.typeStart cfg (st.getCheckDishID threadId) type) (List.range cfg.poolNum)
      before.indexBlockBuffer 0).1

/-- All bytes of a run are in the buffer from a disk position on. -/
def RunStored (cfg : IndexBlockConfig) (buf : IndexBlockBuffer) (start : ℕ)
    (bytes : List UInt8) : Prop :=
  bytes.length ≤ cfg.bufferSize ∧
    buf.bufferBlocks.ringRead cfg.bufferSize start bytes.length = bytes

/-- The run of a type is in the buffer when it has been written; or `clearMeta` keeps its
records and its range is not published. -/
def NeverSilent (cfg : IndexConfig) (threadId : ℕ) (type : IndexType)
    (st before next : IndexState) : Prop :=
  RunStored cfg.indexBlock (afterWrites cfg threadId type st before)
      (st.typeStart cfg (st.getCheckDishID threadId) type)
      (runBytes cfg st (st.getCheckDishID threadId) type) ∨
    (∀ rxId, (next.clearMeta cfg threadId).memoryPools rxId type = st.memoryPools rxId type) ∧
      (next.diskMetas (st.getCheckDishID threadId)).diskIndexMeta type ≠
        (st.typeStart cfg (st.getCheckDishID threadId) type,
          st.typeStart cfg (st.getCheckDishID threadId) type +
            st.typeLen cfg (st.getCheckDishID threadId) type)

/-- The run is no longer than the buffer, and the buffer accepts each piece of it or has its
bytes already. -/
def RunAccepted (cfg : IndexConfig) (threadId : ℕ) (type : IndexType)
    (st before : IndexState) : Prop :=
  st.typeLen cfg (st.getCheckDishID threadId) type ≤ cfg.indexBlock.bufferSize ∧
    cfg.indexBlock.ring.EachThere st.indexBlockBuffer.blockDiskId
      before.indexBlockBuffer.bufferBlocks
      (st.runPieces (st.getCheckDishID threadId) type (List.range cfg.poolNum))
      (st.typeStart cfg (st.getCheckDishID threadId) type)

variable {hash : StdHash} {threadId : ℕ}

/-- `persistMeta` comes to each type, with the pools as they were. -/
theorem exists_beforeType (hpersist : st.persistMeta cfg std threadId = some next)
    (type : IndexType) : ∃ before, beforeType cfg std st threadId type = some before ∧
      before.memoryPools = st.memoryPools ∧
        before.indexBlockBuffer.blockDiskId = st.indexBlockBuffer.blockDiskId := by
  obtain ⟨persisted, htypes, -⟩ := Option.map_eq_some_iff.mp hpersist
  rw [← @List.takeWhile_append_dropWhile _ (· ≠ type) IndexType.all] at htypes
  obtain ⟨before, hbefore, -⟩ := persistTypes_append htypes
  have hlabels := persistTypes_blockDiskId hbefore
  exact ⟨before, hbefore, (sameIndex_persistTypes hbefore).memoryPools, hlabels⟩

/-- The run is in the buffer exactly if each piece of it was accepted or was there. -/
theorem runStored_iff {before : IndexState} {type : IndexType}
    (hinside : ∀ rxId, (st.memoryPools rxId type).NodesInside)
    (hblock : st.getCheckDishID threadId ≠ u64Max) (hpools : before.memoryPools = st.memoryPools)
    (hlabels : before.indexBlockBuffer.blockDiskId = st.indexBlockBuffer.blockDiskId) :
    RunStored cfg.indexBlock (afterWrites cfg threadId type st before)
        (st.typeStart cfg (st.getCheckDishID threadId) type)
        (runBytes cfg st (st.getCheckDishID threadId) type) ↔
      RunAccepted cfg threadId type st before := by
  have hpieces : before.runPieces (st.getCheckDishID threadId) type (List.range cfg.poolNum) =
      st.runPieces (st.getCheckDishID threadId) type (List.range cfg.poolNum) := by
    unfold runPieces
    rw [hpools]
  have hflatten :
      (st.runPieces (st.getCheckDishID threadId) type (List.range cfg.poolNum)).flatten =
      runBytes cfg st (st.getCheckDishID threadId) type :=
    flatten_runPieces hinside hblock _
  have hmemory := @persistPools_memory cfg before type threadId (st.getCheckDishID threadId)
    (st.typeStart cfg (st.getCheckDishID threadId) type) (hpools ▸ hinside) hblock
    (List.range cfg.poolNum) before.indexBlockBuffer 0
  rw [hpieces, hlabels, Nat.add_zero] at hmemory
  unfold RunStored RunAccepted afterWrites
  rw [hmemory, length_runBytes]
  refine and_congr_right fun hlen => ?_
  rw [← length_runBytes, ← hflatten] at hlen ⊢
  exact BlockRing.ringRead_writeAll_iff hlen

/-- A run is never published partly written exactly where each piece of it is accepted or in
the buffer before. -/
theorem neverSilent_iff (hreach : (operations cfg hash std).Reachable (fun _ _ => True) st)
    (hwidth : cfg.diskBlockNum ≤ u64Max)
    (hpersist : st.persistMeta cfg std threadId = some next) (type : IndexType) :
    ∃ before, beforeType cfg std st threadId type = some before ∧
      (NeverSilent cfg threadId type st before next ↔ RunAccepted cfg threadId type st before) := by
  have hwell := wellFormed_of_reachable hreach
  have hblock : st.getCheckDishID threadId ≠ u64Max :=
    ((hwell.diskBlockId_lt _ (hwell.checkId_lt threadId)).trans_le hwidth).ne
  obtain ⟨before, hbefore, hpools, hlabels⟩ := exists_beforeType hpersist type
  refine ⟨before, hbefore, ?_⟩
  rw [← runStored_iff (fun rxId => nodesInside_of_reachable hreach rxId type) hblock hpools hlabels]
  constructor
  · rintro (hstored | ⟨-, hunpublished⟩)
    · exact hstored
    · exact absurd (persistMeta_range hwell hpersist type) hunpublished
  · exact .inl

open IndexStorageConfig (smallStorage someHash someSort portFlow)

/-- The records of one flow, in the two blocks the buffer has. -/
theorem neverSilent_iff_oneFlow : ∃ st next before : IndexState,
    st.persistMeta smallStorage.index someSort 0 = some next ∧
    (NeverSilent smallStorage.index 0 .dstport st before next ↔
      RunAccepted smallStorage.index 0 .dstport st before) := by
  obtain ⟨st, hreach, hsome⟩ := @TransitionSystem.exists_reachable _ _
    (operations smallStorage.index someHash someSort) (fun _ _ => True)
    [.insert portFlow 5 0 0]
    (fun st => (st.persistMeta smallStorage.index someSort 0).isSome = true) _
    (TransitionSystem.runAllowed_true _) (by decide +kernel)
  obtain ⟨next, hnext⟩ := Option.isSome_iff_exists.mp hsome
  obtain ⟨before, -, hiff⟩ := neverSilent_iff hreach (by decide) hnext .dstport
  exact ⟨st, next, before, hnext, hiff⟩

/-- The records of two flows.  Those of the source port fill the block 0 and part of block 1;
those of the destination port reach block 2, for which no slot is free yet. -/
theorem published_unwritten : ∃ st next before : IndexState,
    (operations smallStorage.index someHash someSort).Reachable (fun _ _ => True) st ∧
    st.persistMeta smallStorage.index someSort 0 = some next ∧
    beforeType smallStorage.index someSort st 0 .dstport = some before ∧
    ¬ NeverSilent smallStorage.index 0 .dstport st before next := by
  obtain ⟨st, hreach, hsome, hlost⟩ := @TransitionSystem.exists_reachable _ _
    (operations smallStorage.index someHash someSort) (fun _ _ => True)
    [.insert portFlow 5 0 0, .insert portFlow 6 0 0]
    (fun st => (st.persistMeta smallStorage.index someSort 0).isSome = true ∧
      ((beforeType smallStorage.index someSort st 0 .dstport).any fun before =>
        decide ((afterWrites smallStorage.index 0 .dstport st before).bufferBlocks.ringRead 32
            (st.typeStart smallStorage.index (st.getCheckDishID 0) .dstport)
            (runBytes smallStorage.index st (st.getCheckDishID 0) .dstport).length ≠
          runBytes smallStorage.index st (st.getCheckDishID 0) .dstport)) = true) _
    (TransitionSystem.runAllowed_true _) (by decide +kernel)
  obtain ⟨next, hnext⟩ := Option.isSome_iff_exists.mp hsome
  obtain ⟨before, hbefore, hne⟩ := (Option.any_eq_true ..).mp hlost
  refine ⟨st, next, before, hreach, hnext, hbefore, ?_⟩
  rintro (hstored | ⟨-, hunpublished⟩)
  · exact of_decide_eq_true hne hstored.2
  · exact hunpublished (persistMeta_range (wellFormed_of_reachable hreach) hnext .dstport)

end IndexState

end TrafficDatabase
