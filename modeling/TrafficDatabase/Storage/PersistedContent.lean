import TrafficDatabase.Data.RingSort
import TrafficDatabase.Index.InsertHistory
import TrafficDatabase.Storage.PublishedRuns

/-!
# What is persisted of a block

`persistMeta` copies the records of a type out of one memory pool after the other, sorts
them where they lie and notes their range.  In a run whose insertions continue no node that
is left from before, the range has the records of exactly the insertions made for the
block, in the order of their keys, if each pool finds them and the index block buffer takes
them (`persistMeta_exact`).  A pool finds the first node of a block, and none once its list
is full: then the run is empty, whatever has been put (`persistMeta_loses`).
-/

namespace TrafficDatabase

namespace IndexBlockBuffer

/-- The bytes from a position on are the records, in the order of their keys. -/
def SortedRun (cfg : IndexBlockConfig) (mem : Memory) (start keyLen : ℕ)
    (records : List (List UInt8)) : Prop :=
  (ringRecords cfg mem start (records.length * (keyLen + 8)) keyLen).Perm records ∧
    SortedByKey keyLen (ringRecords cfg mem start (records.length * (keyLen + 8)) keyLen)

/-- The order in which the records were put does not matter. -/
theorem SortedRun.perm {cfg : IndexBlockConfig} {mem : Memory} {start keyLen : ℕ}
    {records other : List (List UInt8)} (h : SortedRun cfg mem start keyLen records)
    (hperm : records.Perm other) : SortedRun cfg mem start keyLen other := by
  unfold SortedRun at h ⊢
  rw [← hperm.length_eq]
  exact ⟨h.1.trans hperm, h.2⟩

/-- A run is the bytes it lies on. -/
theorem SortedRun.congr {cfg : IndexBlockConfig} {mem other : Memory} {start keyLen : ℕ}
    {records : List (List UInt8)} (h : SortedRun cfg mem start keyLen records)
    (hsame : ∀ k < records.length * (keyLen + 8),
      other ((start + k) % cfg.bufferSize) = mem ((start + k) % cfg.bufferSize)) :
    SortedRun cfg other start keyLen records := by
  have hrecords : ringRecords cfg other start (records.length * (keyLen + 8)) keyLen =
      ringRecords cfg mem start (records.length * (keyLen + 8)) keyLen := by
    refine List.map_congr_left fun i hi => Memory.ringRead_congr fun k hk => ?_
    have hi := List.mem_range.mp hi
    rw [Nat.mul_div_cancel _ (by omega)] at hi
    have hlast := Nat.mul_le_mul_right (keyLen + 8) hi
    rw [Nat.succ_mul] at hlast
    rw [Nat.add_assoc]
    exact hsame _ (by omega)
  unfold SortedRun
  rw [hrecords]
  exact h

end IndexBlockBuffer

namespace IndexState

open IndexBlockBuffer (SortedRun ringRecords)

variable {cfg : IndexConfig} {std : StdSort} {st next : IndexState}
  {records : IndexType → List (List UInt8)} {threadId diskBlockId start stop : ℕ}

/-- The pools give these records for a block. -/
structure Gives (cfg : IndexConfig) (st : IndexState) (diskBlockId : ℕ)
    (records : IndexType → List (List UInt8)) : Prop where
  inside : ∀ rxId type, (st.memoryPools rxId type).NodesInside
  bytes : ∀ type, runBytes cfg st diskBlockId type = (records type).flatten
  width : ∀ type, ∀ record ∈ records type, record.length = type.keyLen + 8

theorem Gives.typeLen_eq (h : Gives cfg st diskBlockId records) (type : IndexType) :
    typeLen cfg st diskBlockId type = (records type).length * (type.keyLen + 8) := by
  rw [← length_runBytes, h.bytes, length_flatten_of_forall (h.width type)]

theorem Gives.congr (h : Gives cfg st diskBlockId records)
    (hpools : next.memoryPools = st.memoryPools) : Gives cfg next diskBlockId records where
  inside := hpools ▸ h.inside
  bytes type := by
    unfold runBytes
    rw [hpools]
    exact h.bytes type
  width := h.width

theorem keyLen_cases (type : IndexType) :
    type.keyLen = 2 ∨ type.keyLen = 4 ∨ type.keyLen = 16 := by
  cases type <;> decide

/-- The records of one type are written and sorted. -/
theorem Gives.sortType (h : Gives cfg st diskBlockId records) (hblock : diskBlockId ≠ u64Max)
    (hsize : 0 < cfg.indexBlock.blockSize) {type : IndexType}
    (hinside : typeLen cfg st diskBlockId type ≤ cfg.indexBlock.bufferSize)
    (hbackup : typeLen cfg st diskBlockId type + start % cfg.indexBlock.bufferSize -
      cfg.indexBlock.bufferSize ≤ cfg.indexBlock.blockSize)
    (hstop : start + typeLen cfg st diskBlockId type ≤ stop)
    (howned : ∀ place, start ≤ place → place < stop →
      cfg.indexBlock.ring.Owned st.indexBlockBuffer.blockDiskId place)
    (hend : start < stop → stop % cfg.indexBlock.blockSize = 0 →
      cfg.indexBlock.ring.Owned st.indexBlockBuffer.blockDiskId stop) :
    ∃ sorted, (st.persistPools cfg type threadId diskBlockId start (List.range cfg.poolNum)
        st.indexBlockBuffer 0).1.sortIndex cfg.indexBlock std start
          (typeLen cfg st diskBlockId type) type.keyLen = some sorted ∧
      SortedRun cfg.indexBlock sorted.bufferBlocks start type.keyLen (records type) ∧
      sorted.blockDiskId = st.indexBlockBuffer.blockDiskId ∧
      ∀ addr < cfg.indexBlock.bufferSize,
        (∀ k < typeLen cfg st diskBlockId type,
          (start + k) % cfg.indexBlock.bufferSize ≠ addr) →
        sorted.bufferBlocks addr = st.indexBlockBuffer.bufferBlocks addr := by
  have hflatten : (st.runPieces diskBlockId type (List.range cfg.poolNum)).flatten =
      (records type).flatten :=
    (flatten_runPieces (fun rxId => h.inside rxId type) hblock _).trans (h.bytes type)
  have hbytes : (st.runPieces diskBlockId type (List.range cfg.poolNum)).flatten.length =
      typeLen cfg st diskBlockId type := by
    rw [hflatten, length_flatten_of_forall (h.width type), h.typeLen_eq]
  have hring : (st.runPieces diskBlockId type (List.range cfg.poolNum)).flatten.length ≤
      cfg.indexBlock.ring.bytes := hbytes.trans_le hinside
  have hmemory := @persistPools_memory cfg st type threadId diskBlockId start
    (fun rxId => h.inside rxId type) hblock (List.range cfg.poolNum) st.indexBlockBuffer 0
  rw [Nat.add_zero] at hmemory
  have hlabels := @persistPools_blockDiskId cfg st type threadId diskBlockId start
    (List.range cfg.poolNum) st.indexBlockBuffer 0
  generalize st.persistPools cfg type threadId diskBlockId start (List.range cfg.poolNum)
    st.indexBlockBuffer 0 = written at hmemory hlabels ⊢
  -- all pieces are accepted, so the ring has the records before the sort
  have hthere : written.1.bufferBlocks.ringRead cfg.indexBlock.bufferSize start
      (typeLen cfg st diskBlockId type) = (records type).flatten := by
    rw [hmemory, ← hbytes, ← hflatten]
    refine (BlockRing.ringRead_writeAll_iff hring).mpr ?_
    exact BlockRing.eachThere_of_owned hsize (by rw [hbytes]; exact hstop) howned hend
  have hcount : (records type).length = typeLen cfg st diskBlockId type / (type.keyLen + 8) := by
    rw [h.typeLen_eq, Nat.mul_div_cancel _ (Nat.succ_pos _)]
  have hbefore := IndexBlockBuffer.ringRecords_of_ringRead (h.width type) hcount hthere
  obtain ⟨sorted, hsorted, hrun, hframe⟩ :=
    IndexBlockBuffer.sortIndex_run cfg.indexBlock std written.1 (keyLen_cases type)
      (by rw [h.typeLen_eq]; exact Nat.mul_mod_left ..) hinside hbackup
  rw [hbefore] at hrun
  refine ⟨sorted, hsorted, ?_, (sortIndex_blockDiskId hsorted).trans hlabels, ?_⟩
  · rw [SortedRun, ← h.typeLen_eq, hrun]
    exact ⟨std.perm type.keyLen _, std.sorted type.keyLen _⟩
  · intro addr haddr hout
    rw [hframe addr haddr hout, hmemory]
    refine BlockRing.writeAll_apply_outside hring fun k hk => ?_
    exact hout k (hbytes ▸ hk)

/-- The records of the types of a list are written and sorted one type behind the other. -/
theorem Gives.persistTypes (h : Gives cfg st diskBlockId records) (hblock : diskBlockId ≠ u64Max)
    (hsize : 0 < cfg.indexBlock.blockSize) {types : List IndexType}
    (hinside : (types.map (typeLen cfg st diskBlockId)).sum ≤ cfg.indexBlock.bufferSize)
    (hbackup : ∀ type ∈ types, typeLen cfg st diskBlockId type +
      (start + bytesBefore cfg st diskBlockId type types) % cfg.indexBlock.bufferSize -
        cfg.indexBlock.bufferSize ≤ cfg.indexBlock.blockSize)
    (hnodup : types.Nodup)
    (hstop : start + (types.map (typeLen cfg st diskBlockId)).sum ≤ stop)
    (howned : ∀ place, start ≤ place → place < stop →
      cfg.indexBlock.ring.Owned st.indexBlockBuffer.blockDiskId place)
    (hend : start < stop → stop % cfg.indexBlock.blockSize = 0 →
      cfg.indexBlock.ring.Owned st.indexBlockBuffer.blockDiskId stop) :
    ∃ next, IndexState.persistTypes cfg std threadId diskBlockId types start st = some next ∧
      (∀ type ∈ types, SortedRun cfg.indexBlock next.indexBlockBuffer.bufferBlocks
        (start + bytesBefore cfg st diskBlockId type types) type.keyLen (records type)) ∧
      ∀ addr < cfg.indexBlock.bufferSize,
        (∀ k < (types.map (typeLen cfg st diskBlockId)).sum,
          (start + k) % cfg.indexBlock.bufferSize ≠ addr) →
        next.indexBlockBuffer.bufferBlocks addr = st.indexBlockBuffer.bufferBlocks addr := by
  induction types generalizing st start with
  | nil => exact ⟨st, rfl, nofun, fun _ _ _ => rfl⟩
  | cons first rest ih =>
      obtain ⟨hfirst, hnodup⟩ := List.nodup_cons.mp hnodup
      rw [List.map_cons, List.sum_cons] at hinside hstop ⊢
      -- the run of the first type is written at `start`, those of the others behind it
      set len := typeLen cfg st diskBlockId first with hlen
      have hbehind : ∀ type ∈ rest, bytesBefore cfg st diskBlockId type (first :: rest) =
          len + bytesBefore cfg st diskBlockId type rest := fun type hmem =>
        bytesBefore_cons (fun hsame : type = first => hfirst (hsame ▸ hmem)) rest diskBlockId
      have hself : bytesBefore cfg st diskBlockId first (first :: rest) = 0 :=
        bytesBefore_self first rest diskBlockId
      obtain ⟨sorted, hsorted, hrun, hlabels, hframe⟩ :=
        @Gives.sortType cfg std st records threadId diskBlockId start stop h hblock hsize first
          (by omega) (by simpa [hself] using hbackup first List.mem_cons_self) (by omega)
          howned hend
      set after := { st with indexBlockBuffer := sorted }.setIndexID cfg diskBlockId first start
        (start + len) with hafter
      have hpools : after.memoryPools = st.memoryPools := (sameIndex_setIndexID ..).memoryPools
      have hbuffer : after.indexBlockBuffer = sorted := setIndexID_indexBlockBuffer
      have hlens : typeLen cfg after diskBlockId = typeLen cfg st diskBlockId :=
        typeLen_congr hpools diskBlockId
      obtain ⟨next, hnext, hruns, hrest⟩ := @ih after (start + len) (h.congr hpools)
        (by rw [hlens]; omega)
        (fun type hmem => by
          rw [hlens, bytesBefore_congr hpools, Nat.add_assoc, ← hbehind type hmem]
          exact hbackup type (List.mem_cons_of_mem _ hmem))
        hnodup (by rw [hlens]; omega)
        (fun place hle hlt => by
          rw [hbuffer, hlabels]
          exact howned place (by omega) hlt)
        (fun hlt => by
          rw [hbuffer, hlabels]
          exact hend (by omega))
      rw [hlens, hbuffer] at hrest
      have hpersist :
          IndexState.persistTypes cfg std threadId diskBlockId (first :: rest) start st =
            some next := by
        have hwritten : (st.persistPools cfg first threadId diskBlockId start
            (List.range cfg.poolNum) st.indexBlockBuffer 0).2 = len := by
          rw [persistPools_snd, Nat.zero_add]
          rfl
        simp only [IndexState.persistTypes]
        rw [hwritten]
        exact Option.bind_eq_some_iff.mpr ⟨sorted, hsorted, hnext⟩
      refine ⟨next, hpersist, fun type hmem => ?_, fun addr haddr hout => ?_⟩
      · rcases List.mem_cons.mp hmem with rfl | hmem
        · -- the types behind leave the run of the first one alone
          rw [hself, Nat.add_zero]
          refine hrun.congr fun k hk => ?_
          rw [← h.typeLen_eq, ← hlen] at hk
          refine hrest _ (Nat.mod_lt _ (by omega)) fun j hj => ?_
          exact (@BlockRing.position_ne cfg.indexBlock.ring _ _ (by omega)
            (show start + len + j < start + k + cfg.indexBlock.bufferSize by omega)).symm
        · rw [hbehind type hmem, ← Nat.add_assoc, ← bytesBefore_congr hpools]
          exact hruns type hmem
      -- what no run covers is not written
      · rw [hrest addr haddr fun k hk => ?_, hframe addr haddr fun k hk => hout k (by omega)]
        rw [Nat.add_assoc]
        exact hout _ (by omega)

/-- `persistMeta` writes and sorts the records of each type from its start on, and no other
byte of the ring. -/
theorem Gives.persistMeta_places (h : Gives cfg st (st.getCheckDishID threadId) records)
    (hblock : st.getCheckDishID threadId ≠ u64Max) (hsize : 0 < cfg.indexBlock.blockSize)
    (hinside : st.totalNodeLen cfg (st.getCheckDishID threadId) ≤ cfg.indexBlock.bufferSize)
    (hbackup : ∀ type, st.typeLen cfg (st.getCheckDishID threadId) type +
      st.typeStart cfg (st.getCheckDishID threadId) type % cfg.indexBlock.bufferSize -
        cfg.indexBlock.bufferSize ≤ cfg.indexBlock.blockSize)
    (hstop : st.diskWritePos % cfg.persisterDiskSize +
      st.totalNodeLen cfg (st.getCheckDishID threadId) = stop)
    (howned : ∀ place, st.diskWritePos % cfg.persisterDiskSize ≤ place → place < stop →
      cfg.indexBlock.ring.Owned st.indexBlockBuffer.blockDiskId place)
    (hend : st.diskWritePos % cfg.persisterDiskSize < stop →
      stop % cfg.indexBlock.blockSize = 0 →
        cfg.indexBlock.ring.Owned st.indexBlockBuffer.blockDiskId stop) :
    ∃ next, st.persistMeta cfg std threadId = some next ∧
      (∀ type, SortedRun cfg.indexBlock next.indexBlockBuffer.bufferBlocks
        (st.typeStart cfg (st.getCheckDishID threadId) type) type.keyLen (records type)) ∧
      ∀ addr < cfg.indexBlock.bufferSize,
        (∀ k < st.totalNodeLen cfg (st.getCheckDishID threadId),
          (st.diskWritePos % cfg.persisterDiskSize + k) % cfg.indexBlock.bufferSize ≠ addr) →
        next.indexBlockBuffer.bufferBlocks addr = st.indexBlockBuffer.bufferBlocks addr := by
  obtain ⟨persisted, htypes, hruns, hframe⟩ := @Gives.persistTypes cfg std
    { st with diskWritePos := st.diskWritePos + st.totalNodeLen cfg (st.getCheckDishID threadId) }
    records threadId (st.getCheckDishID threadId) (st.diskWritePos % cfg.persisterDiskSize) stop
    (h.congr rfl) hblock hsize IndexType.all hinside (fun type _ => hbackup type)
    IndexType.nodup_all hstop.le howned hend
  obtain ⟨diskMetas, hset⟩ := @setBloomFilterReadingCol_rest cfg persisted
    (st.metas (st.checkId threadId)).diskBlockId
    (st.metas (st.checkId threadId)).bloomFilterMeta.writingCol
  refine ⟨_, Option.map_eq_some_iff.mpr ⟨persisted, htypes, rfl⟩, ?_⟩
  rw [hset]
  exact ⟨fun type => hruns type (IndexType.mem_all type), hframe⟩

/-- `persistMeta` writes and sorts the records of each type from its start on. -/
theorem Gives.persistMeta (h : Gives cfg st (st.getCheckDishID threadId) records)
    (hblock : st.getCheckDishID threadId ≠ u64Max) (hsize : 0 < cfg.indexBlock.blockSize)
    (hinside : st.totalNodeLen cfg (st.getCheckDishID threadId) ≤ cfg.indexBlock.bufferSize)
    (hbackup : ∀ type, st.typeLen cfg (st.getCheckDishID threadId) type +
      st.typeStart cfg (st.getCheckDishID threadId) type % cfg.indexBlock.bufferSize -
        cfg.indexBlock.bufferSize ≤ cfg.indexBlock.blockSize)
    (hstop : st.diskWritePos % cfg.persisterDiskSize +
      st.totalNodeLen cfg (st.getCheckDishID threadId) = stop)
    (howned : ∀ place, st.diskWritePos % cfg.persisterDiskSize ≤ place → place < stop →
      cfg.indexBlock.ring.Owned st.indexBlockBuffer.blockDiskId place)
    (hend : st.diskWritePos % cfg.persisterDiskSize < stop →
      stop % cfg.indexBlock.blockSize = 0 →
        cfg.indexBlock.ring.Owned st.indexBlockBuffer.blockDiskId stop) :
    ∃ next, st.persistMeta cfg std threadId = some next ∧
      ∀ type, SortedRun cfg.indexBlock next.indexBlockBuffer.bufferBlocks
        (st.typeStart cfg (st.getCheckDishID threadId) type) type.keyLen (records type) := by
  obtain ⟨next, hnext, hruns, -⟩ :=
    h.persistMeta_places hblock hsize hinside hbackup hstop howned hend
  exact ⟨next, hnext, hruns⟩

end IndexState

/-! ## The records made for a block -/

/-- A list is put together from the parts that have each a number. -/
theorem perm_flatMap_filter {α : Type*} (number : α → ℕ) (elements : List α) (bound : ℕ) :
    ((List.range bound).flatMap fun n => elements.filter (number · = n)).Perm
      (elements.filter (number · < bound)) := by
  induction bound with
  | zero => simp
  | succ bound ih =>
      rw [List.range_succ, List.flatMap_append, List.flatMap_singleton]
      refine (ih.append_right _).trans ?_
      have hsplit := List.filter_append_perm (number · < bound)
        (elements.filter (number · < bound + 1))
      rw [List.filter_filter, List.filter_filter] at hsplit
      have hbelow : elements.filter (fun a => decide (number a < bound) &&
          decide (number a < bound + 1)) = elements.filter (number · < bound) :=
        List.filter_congr fun a _ => by
          rw [← Bool.decide_and, decide_eq_decide]
          omega
      have hat : elements.filter (fun a => !decide (number a < bound) &&
          decide (number a < bound + 1)) = elements.filter (number · = bound) :=
        List.filter_congr fun a _ => by
          rw [← decide_not, ← Bool.decide_and, decide_eq_decide]
          omega
      rwa [hbelow, hat] at hsplit

namespace InsertHistory

open IndexBlockBuffer (SortedRun)
open IndexMemoryPool (ofBlock)

variable (cfg : IndexConfig) (st : InsertHistory) (threadId diskBlockId : ℕ) (type : IndexType)

/-- How long the run of a type is with all records made for a block. -/
def runLen : ℕ := (st.blockRecords diskBlockId type).length * (type.keyLen + 8)

/-- How long the runs of all types are together. -/
def totalLen : ℕ := (IndexType.all.map (st.runLen diskBlockId)).sum

/-- Where the runs start that are persisted next. -/
def firstStart : ℕ := st.index.diskWritePos % cfg.persisterDiskSize

/-- Where that of a type starts. -/
def runStart : ℕ :=
  st.firstStart cfg + ((IndexType.all.takeWhile (· ≠ type)).map (st.runLen diskBlockId)).sum

/-- The slots that the runs of a block come to lie in hold the blocks of the index disk
they are for. -/
def RunsOwned : Prop := ∀ k < st.totalLen diskBlockId,
  cfg.indexBlock.ring.Owned st.index.indexBlockBuffer.blockDiskId (st.firstStart cfg + k)

instance : Decidable (st.RunsOwned cfg diskBlockId) := inferInstanceAs (Decidable (∀ _ < _, _))

/-- Each pool finds the records of the block; no run goes more than a block over the end of
the ring; and if the last run ends with a block, the next block has its slot too. -/
def Ready : Prop :=
  (∀ rxId < cfg.poolNum, ∀ type ∈ IndexType.all,
    (st.index.memoryPools rxId type).Findable diskBlockId
      (ofBlock diskBlockId (st.poolRecords rxId type))) ∧
  (∀ type ∈ IndexType.all, st.runLen diskBlockId type +
    st.runStart cfg diskBlockId type % cfg.indexBlock.bufferSize - cfg.indexBlock.bufferSize ≤
      cfg.indexBlock.blockSize) ∧
  (0 < st.totalLen diskBlockId →
    (st.firstStart cfg + st.totalLen diskBlockId) % cfg.indexBlock.blockSize = 0 →
      cfg.indexBlock.ring.Owned st.index.indexBlockBuffer.blockDiskId
        (st.firstStart cfg + st.totalLen diskBlockId))

instance : Decidable (st.Ready cfg diskBlockId) := inferInstanceAs (Decidable (_ ∧ _ ∧ _))

/-- The range recorded for a type has the records made for the block, in the order of their
keys, and nothing else. -/
def RunExact (next : IndexState) : Prop :=
  let range := (next.diskMetas diskBlockId).diskIndexMeta type
  range.2 = range.1 + st.runLen diskBlockId type ∧
    SortedRun cfg.indexBlock next.indexBlockBuffer.bufferBlocks range.1 type.keyLen
      (st.blockRecords diskBlockId type)

/-- `persistMeta` persists the records made for the block of a thread, all of them and no
others. -/
def PersistsExactly (std : StdSort) : Prop :=
  ∃ next, st.index.persistMeta cfg std threadId = some next ∧
    ∀ type, st.RunExact cfg (st.index.getCheckDishID threadId) type next

variable {cfg st threadId diskBlockId type} {hash : StdHash} {std : StdSort}

/-- The records of a type in all pools, one pool after the other. -/
theorem poolRecords_perm (hrx : ∀ insertion ∈ st.inserted, insertion.rxId < cfg.poolNum) :
    ((List.range cfg.poolNum).flatMap fun rxId =>
      ofBlock diskBlockId (st.poolRecords rxId type)).Perm (st.blockRecords diskBlockId type) := by
  have hpool : ∀ rxId, ofBlock diskBlockId (st.poolRecords rxId type) =
      (st.inserted.filter (·.rxId = rxId)).filterMap
        (IndexInsert.blockRecord diskBlockId type) := by
    intro rxId
    unfold ofBlock poolRecords
    rw [List.filter_filterMap, List.map_filterMap, List.filterMap_filter]
    refine List.filterMap_congr fun insertion _ => ?_
    unfold IndexInsert.poolRecord IndexInsert.blockRecord
    by_cases hsame : insertion.rxId = rxId
    · by_cases hblock : insertion.diskBlockId = diskBlockId <;>
        cases insertion.record type <;> simp [hsame, hblock, Option.filter]
    · simp [hsame]
  simp only [hpool]
  rw [← List.filterMap_flatMap]
  refine ((perm_flatMap_filter IndexInsert.rxId st.inserted cfg.poolNum).filterMap _).trans ?_
  rw [List.filter_eq_self.mpr fun insertion hmem => decide_eq_true (hrx insertion hmem)]
  rfl

/-- The runs of the system with its insertions are runs of the index. -/
theorem index_reachable (h : (history cfg hash std).Reachable (Opens cfg hash) st) :
    (IndexState.operations cfg hash std).Reachable (fun _ _ => True) st.index := by
  induction h with
  | init => exact .init
  | step _ _ hstep ih =>
      obtain ⟨index, happly, rfl⟩ := Option.map_eq_some_iff.mp hstep
      exact ih.step trivial happly

/-- If each pool finds the records of a block, they are what is persisted. -/
theorem Recorded.gives (h : Recorded cfg st) (hlist : 2 ≤ cfg.poolListLen)
    (hblock : diskBlockId ≠ u64Max)
    (hinside : ∀ rxId type, (st.index.memoryPools rxId type).NodesInside)
    (hfind : ∀ rxId < cfg.poolNum, ∀ type ∈ IndexType.all,
      (st.index.memoryPools rxId type).Findable diskBlockId
        (ofBlock diskBlockId (st.poolRecords rxId type))) :
    st.index.Gives cfg diskBlockId fun type =>
      (List.range cfg.poolNum).flatMap fun rxId =>
        ofBlock diskBlockId (st.poolRecords rxId type) where
  inside := hinside
  bytes type := by
    unfold IndexState.runBytes
    rw [← List.flatMap_id, List.flatMap_assoc]
    refine List.flatMap_congr fun rxId hrx => ?_
    rw [List.flatMap_id]
    exact (h.pools rxId type).recordBytes hlist hblock
      (hfind rxId (List.mem_range.mp hrx) type (IndexType.mem_all type))
  width type record hmem := by
    obtain ⟨insertion, -, hrecord⟩ :=
      List.mem_filterMap.mp ((poolRecords_perm h.rxId_lt).mem_iff.mp hmem)
    exact IndexInsert.length_record (Option.ite_none_right_eq_some.mp hrecord).2

/-- In every run whose insertions continue no node that is left from before, `persistMeta`
persists the records made for the block exactly, if the pools find them and the slots take
them. -/
theorem persistMeta_exact (hlist : 2 ≤ cfg.poolListLen) (hcapacity : cfg.poolCapacity ≤ u64Max)
    (hwidth : cfg.diskBlockNum ≤ u64Max) (hthread : threadId < cfg.checkThreadNum)
    (hreach : (history cfg hash std).Reachable (Opens cfg hash) st)
    (howned : st.RunsOwned cfg (st.index.getCheckDishID threadId))
    (hready : st.Ready cfg (st.index.getCheckDishID threadId)) :
    st.PersistsExactly cfg threadId std := by
  have hrecorded := recorded_of_reachable hlist hcapacity hwidth hreach
  have hwell := hrecorded.wellFormed
  have hblock : st.index.getCheckDishID threadId ≠ u64Max :=
    ((hwell.diskBlockId_lt _ (hwell.checkId_lt threadId)).trans_le hwidth).ne
  obtain ⟨hfind, hbackup, hend⟩ := hready
  have hgives := hrecorded.gives hlist hblock
    (IndexState.nodesInside_of_reachable (index_reachable hreach)) hfind
  have hperm := fun type => @poolRecords_perm cfg st (st.index.getCheckDishID threadId) type
    hrecorded.rxId_lt
  set diskBlockId := st.index.getCheckDishID threadId with hid
  -- the model counts what the pools hold, the history what was put there
  have hlen : IndexState.typeLen cfg st.index diskBlockId = st.runLen diskBlockId := by
    funext type
    rw [hgives.typeLen_eq, (hperm type).length_eq, runLen]
  have htotal : st.index.totalNodeLen cfg diskBlockId = st.totalLen diskBlockId := by
    unfold totalLen
    rw [← hlen]
    rfl
  have hstart : ∀ type, st.index.typeStart cfg diskBlockId type =
      st.runStart cfg diskBlockId type := fun type => by
    unfold IndexState.typeStart IndexState.bytesBefore runStart
    rw [hlen]
    rfl
  -- the runs own their place, so they are not longer than the buffer
  have hinside : st.totalLen diskBlockId ≤ cfg.indexBlock.bufferSize :=
    BlockRing.le_bytes_of_owned ((Nat.zero_lt_of_lt hthread).trans_le cfg.writeThreadNum_le)
      cfg.indexBlock_checks.2 cfg.indexBlock_diskBlockNum_gt howned
  obtain ⟨next, hnext, hruns⟩ := @IndexState.Gives.persistMeta cfg std st.index _ threadId
    (st.firstStart cfg + st.totalLen diskBlockId) hgives hblock cfg.indexBlock_checks.2
    (htotal.trans_le hinside)
    (fun type => by
      rw [← hid, hlen, hstart]
      exact hbackup type (IndexType.mem_all type))
    (congrArg _ htotal)
    (fun place hle hlt => by
      obtain ⟨k, rfl⟩ := Nat.exists_eq_add_of_le hle
      exact howned k (Nat.add_lt_add_iff_left.mp hlt))
    (fun hlt => hend (Nat.lt_add_right_iff_pos.mp hlt))
  refine ⟨next, hnext, fun type => ?_⟩
  unfold RunExact
  rw [IndexState.persistMeta_range hwell hnext type, ← hid, hlen]
  exact ⟨rfl, (hruns type).perm (hperm type)⟩

open IndexStorageConfig (someHash someSort portFlow)

/-- Two pools with four nodes, for an index buffer of four blocks. -/
def twoPools : IndexConfig :=
  { IndexStorageConfig.smallStorage.index with
    totalBlockNum := 4
    poolNum := 2
    poolCapacity := 480
    indexBlock := { totalBlockNum := 4, blockSize := 16, diskBlockNum := 17, threadNum := 1 }
    totalBlockNum_pos := Nat.succ_pos 3
    diskBlockNum_mod := Nat.mul_mod_right 4 2
    checkThreadNum_le := Nat.le_add_left 1 3
    writeThreadNum_le := Nat.le_add_left 1 3
    indexBlock_accepted := rfl }

/-- Three flows of block 0 in two pools, and one of block 1. -/
theorem persistMeta_exact_twoPools : ∃ st : InsertHistory,
    (st.blockRecords 0 .srcport).length = 3 ∧ st.PersistsExactly twoPools 0 someSort := by
  obtain ⟨st, hreach, hcount, howned, hready⟩ := @TransitionSystem.exists_reachable _ _
    (history twoPools someHash someSort) (Opens twoPools someHash)
    [.insert portFlow 5 0 0, .insert portFlow 2 0 0, .insert portFlow 7 1 0,
      .insert { portFlow with sourcePort := 9 } 3 0 1]
    (fun st => (st.blockRecords 0 .srcport).length = 3 ∧
      st.RunsOwned twoPools (st.index.getCheckDishID 0) ∧
        st.Ready twoPools (st.index.getCheckDishID 0)) _ (by decide +kernel) (by decide +kernel)
  exact ⟨st, hcount, persistMeta_exact (by decide) (by decide) (by decide) (by decide) hreach
    howned hready⟩

/-- A flow of each of four blocks fills the list of a pool, and a full list looks like an
empty one: the slots are there for the records of block 0, but its run is empty. -/
theorem persistMeta_loses : ∃ st : InsertHistory,
    (history twoPools someHash someSort).Reachable (Opens twoPools someHash) st ∧
      st.RunsOwned twoPools (st.index.getCheckDishID 0) ∧
        ¬ st.PersistsExactly twoPools 0 someSort := by
  obtain ⟨st, hreach, howned, hlost⟩ := @TransitionSystem.exists_reachable _ _
    (history twoPools someHash someSort) (Opens twoPools someHash)
    [.insert portFlow 5 0 0, .insert portFlow 21 1 0, .insert portFlow 37 2 0,
      .insert portFlow 53 3 0]
    (fun st => st.RunsOwned twoPools (st.index.getCheckDishID 0) ∧
      (st.index.persistMeta twoPools someSort 0).all (fun next =>
        let range := (next.diskMetas (st.index.getCheckDishID 0)).diskIndexMeta .srcport
        decide (range.2 ≠ range.1 + st.runLen (st.index.getCheckDishID 0) .srcport)) = true) _
    (by decide +kernel) (by decide +kernel)
  refine ⟨st, hreach, howned, ?_⟩
  rintro ⟨next, hnext, hexact⟩
  rw [hnext, Option.all_some] at hlost
  exact of_decide_eq_true hlost (hexact .srcport).1

end InsertHistory

end TrafficDatabase
