import TrafficDatabase.Index.Operations
import TrafficDatabase.Index.PoolRecords

/-!
# The insertions of a block

`InsertHistory` follows the operations on the index together with the insertions made
for each block since the block was cleared last.  In every run whose insertions do not
continue a node that is left from before (`Opens`), each memory pool has the records of
these insertions (`recorded_of_reachable`).
-/

namespace TrafficDatabase

/-- A key of a type is as long as the type says. -/
theorem FlowMetadata.length_indexKey {flow : FlowMetadata} {type : IndexType} {key : List UInt8}
    (h : flow.indexKey type = some key) : key.length = type.keyLen := by
  cases type with
  | srcport | dstport =>
      obtain rfl := Option.some.inj h
      exact length_toLittleEndian ..
  | srcip | srcipv6 =>
      obtain ⟨hlength, hkey⟩ := Option.ite_none_right_eq_some.mp h
      rw [← Option.some.inj hkey]
      exact hlength.1
  | dstip | dstipv6 =>
      obtain ⟨hlength, hkey⟩ := Option.ite_none_right_eq_some.mp h
      rw [← Option.some.inj hkey]
      exact hlength.2

/-- An insertion that returned true. -/
structure IndexInsert where
  flow : FlowMetadata
  position : ℕ
  diskBlockId : ℕ
  rxId : ℕ
deriving DecidableEq

namespace IndexInsert

/-- The record of an insertion in the index of a type: the key and the position behind it. -/
def record (insertion : IndexInsert) (type : IndexType) : Option (List UInt8) :=
  (insertion.flow.indexKey type).map fun key => key ++ toLittleEndian 8 insertion.position

/-- The record it puts in the pool of a reader, with its block. -/
def poolRecord (rxId : ℕ) (type : IndexType) (insertion : IndexInsert) : Option (ℕ × List UInt8) :=
  if insertion.rxId = rxId then
    (insertion.record type).map fun record => (insertion.diskBlockId, record)
  else none

/-- The record it makes for a block. -/
def blockRecord (diskBlockId : ℕ) (type : IndexType) (insertion : IndexInsert) :
    Option (List UInt8) :=
  if insertion.diskBlockId = diskBlockId then insertion.record type else none

theorem length_record {insertion : IndexInsert} {type : IndexType} {record : List UInt8}
    (h : insertion.record type = some record) : record.length = type.keyLen + 8 := by
  obtain ⟨key, hkey, rfl⟩ := Option.map_eq_some_iff.mp h
  rw [List.length_append, length_toLittleEndian, FlowMetadata.length_indexKey hkey]

end IndexInsert

structure InsertHistory where
  index : IndexState
  inserted : List IndexInsert

namespace InsertHistory

variable (cfg : IndexConfig) (hash : StdHash) (std : StdSort)

def init : InsertHistory := { index := IndexState.init cfg, inserted := [] }

variable (st : InsertHistory)

/-- The call puts records into the pools. -/
def Puts (flow : FlowMetadata) (position diskBlockId rxId : ℕ) : Prop :=
  (st.index.insert cfg hash flow position diskBlockId rxId).any Prod.fst = true

instance (flow : FlowMetadata) (position diskBlockId rxId : ℕ) :
    Decidable (st.Puts cfg hash flow position diskBlockId rxId) :=
  inferInstanceAs (Decidable (_ = _))

/-- An insertion is remembered until its block is cleared. -/
def note : IndexState.Operation → List IndexInsert
  | .insert flow position diskBlockId rxId =>
      if st.Puts cfg hash flow position diskBlockId rxId then
        st.inserted ++ [{ flow, position, diskBlockId, rxId }]
      else st.inserted
  | .clearMeta threadId =>
      st.inserted.filter (·.diskBlockId ≠ st.index.getCheckDishID threadId)
  | .persistMeta _ | .setPacketCount .. | .recycleBlock _ => st.inserted

def apply (operation : IndexState.Operation) : Option InsertHistory :=
  (st.index.apply cfg hash std operation).map fun index =>
    { index, inserted := st.note cfg hash operation }

def history : TransitionSystem InsertHistory IndexState.Operation :=
  { init := init cfg, step := apply cfg hash std }

/-- The records of a type in the pool of a reader, each with its block. -/
def poolRecords (rxId : ℕ) (type : IndexType) : List (ℕ × List UInt8) :=
  st.inserted.filterMap (IndexInsert.poolRecord rxId type)

/-- The records of a type of the insertions made for a block, over all pools. -/
def blockRecords (diskBlockId : ℕ) (type : IndexType) : List (List UInt8) :=
  st.inserted.filterMap (IndexInsert.blockRecord diskBlockId type)

/-- A record of a block that goes to the last node of a pool joins other records of the
block, not what is left in the node from before the block was cleared. -/
def Opens : IndexState.Operation → Prop
  | .insert flow position diskBlockId rxId =>
      st.Puts cfg hash flow position diskBlockId rxId →
        ∀ type ∈ IndexMemoryPool.recordTypes flow,
          (st.index.memoryPools rxId type).lastNode.dataBlockId = diskBlockId →
            ∃ record ∈ st.poolRecords rxId type, record.1 = diskBlockId
  | .persistMeta _ | .clearMeta _ | .setPacketCount .. | .recycleBlock _ => True

instance : ∀ operation, Decidable (st.Opens cfg hash operation)
  | .insert .. => inferInstanceAs (Decidable (_ → _))
  | .persistMeta _ | .clearMeta _ | .setPacketCount .. | .recycleBlock _ => .isTrue trivial

/-- Each pool has the records of the insertions. -/
structure Recorded : Prop where
  wellFormed : st.index.WellFormed cfg
  pools : ∀ rxId type, IndexMemoryPool.HasRecords cfg.poolCapacity cfg.poolListLen type
    (st.poolRecords rxId type) (st.index.memoryPools rxId type)
  rxId_lt : ∀ insertion ∈ st.inserted, insertion.rxId < cfg.poolNum

variable {cfg hash std} {st next : InsertHistory} {operation : IndexState.Operation}

theorem recorded_init (cfg : IndexConfig) : Recorded cfg (init cfg) where
  wellFormed := IndexState.wellFormed_init cfg
  pools _ type := IndexMemoryPool.hasRecords_new cfg.poolCapacity cfg.poolListLen type
  rxId_lt := nofun

/-- A step whose pools and insertions are those before it. -/
theorem Recorded.unchanged (h : Recorded cfg st) (hwell : next.index.WellFormed cfg)
    (hpools : next.index.memoryPools = st.index.memoryPools)
    (hinserted : next.inserted = st.inserted) : Recorded cfg next := by
  refine ⟨hwell, fun rxId type => ?_, ?_⟩
  · unfold poolRecords
    rw [hpools, hinserted]
    exact h.pools rxId type
  · rw [hinserted]
    exact h.rxId_lt

theorem Recorded.insert (h : Recorded cfg st) (hlist : 2 ≤ cfg.poolListLen)
    (hcapacity : cfg.poolCapacity ≤ u64Max) {insertion : IndexInsert} {index : IndexState}
    (hrx : insertion.rxId < cfg.poolNum) (hwell : index.WellFormed cfg)
    (hopens : ∀ type ∈ IndexMemoryPool.recordTypes insertion.flow,
      (st.index.memoryPools insertion.rxId type).lastNode.dataBlockId = insertion.diskBlockId →
        ∃ record ∈ st.poolRecords insertion.rxId type, record.1 = insertion.diskBlockId)
    (hinsert : IndexState.Inserted cfg hash insertion.flow insertion.position
      insertion.diskBlockId insertion.rxId st.index index) :
    Recorded cfg { index, inserted := st.inserted ++ [insertion] } := by
  obtain ⟨pool, hpool, hpools⟩ := hinsert.pools
  refine ⟨hwell, fun rxId type => ?_, ?_⟩
  · show IndexMemoryPool.HasRecords _ _ _
      ((st.inserted ++ [insertion]).filterMap (IndexInsert.poolRecord rxId type))
      (index.memoryPools rxId type)
    rw [List.filterMap_append, hpools]
    by_cases hsame : rxId = insertion.rxId
    · obtain ⟨hput, hkept⟩ := IndexMemoryPool.insert_put hpool type
      rw [hsame, Function.update_self]
      cases hkey : insertion.flow.indexKey type with
      | some key =>
          have hrecord : [insertion].filterMap (IndexInsert.poolRecord insertion.rxId type) =
              [(insertion.diskBlockId, key ++ toLittleEndian 8 insertion.position)] := by
            simp [IndexInsert.poolRecord, IndexInsert.record, hkey]
          rw [hrecord]
          exact (h.pools insertion.rxId type).put hlist hcapacity
            (FlowMetadata.length_indexKey hkey)
            (hopens type (IndexMemoryPool.mem_recordTypes.mpr ⟨key, hkey⟩)) (hput key hkey)
      | none =>
          have hrecord :
              [insertion].filterMap (IndexInsert.poolRecord insertion.rxId type) = [] := by
            simp [IndexInsert.poolRecord, IndexInsert.record, hkey]
          rw [hrecord, List.append_nil, hkept hkey]
          exact h.pools insertion.rxId type
    · have hrecord : [insertion].filterMap (IndexInsert.poolRecord rxId type) = [] := by
        simp [IndexInsert.poolRecord, Ne.symm hsame]
      rw [Function.update_of_ne hsame, hrecord, List.append_nil]
      exact h.pools rxId type
  · intro other hmem
    rcases List.mem_append.mp hmem with hold | hnew
    · exact h.rxId_lt other hold
    · rw [List.mem_singleton.mp hnew]
      exact hrx

/-- Clearing a block takes its records out of all pools. -/
theorem Recorded.clearMeta (h : Recorded cfg st) (hlist : 2 ≤ cfg.poolListLen)
    (hwidth : cfg.diskBlockNum ≤ u64Max) (threadId : ℕ) :
    Recorded cfg
      { index := st.index.clearMeta cfg threadId
        inserted := st.inserted.filter
          (·.diskBlockId ≠ st.index.getCheckDishID threadId) } := by
  have hblock : st.index.getCheckDishID threadId ≠ u64Max :=
    ((h.wellFormed.diskBlockId_lt _ (h.wellFormed.checkId_lt threadId)).trans_le hwidth).ne
  refine ⟨h.wellFormed.clearMeta threadId, fun rxId type => ?_, fun insertion hmem =>
    h.rxId_lt insertion (List.mem_of_mem_filter hmem)⟩
  have hrecords : (st.inserted.filter
        (·.diskBlockId ≠ st.index.getCheckDishID threadId)).filterMap
          (IndexInsert.poolRecord rxId type) =
      (st.poolRecords rxId type).filter (·.1 ≠ st.index.getCheckDishID threadId) := by
    unfold poolRecords
    rw [List.filterMap_filter, List.filter_filterMap]
    refine List.filterMap_congr fun insertion _ => ?_
    unfold IndexInsert.poolRecord
    by_cases hrx : insertion.rxId = rxId
    · cases insertion.record type <;> simp [hrx, Option.filter]
    · simp [hrx]
  show IndexMemoryPool.HasRecords _ _ _ (List.filterMap _ _) _
  rw [hrecords, (IndexState.cleared_clearMeta cfg st.index threadId).memoryPools]
  exact (h.pools rxId type).recycle hlist hblock

theorem Recorded.apply (h : Recorded cfg st) (hlist : 2 ≤ cfg.poolListLen)
    (hcapacity : cfg.poolCapacity ≤ u64Max) (hwidth : cfg.diskBlockNum ≤ u64Max)
    (hopens : st.Opens cfg hash operation) (hstep : st.apply cfg hash std operation = some next) :
    Recorded cfg next := by
  obtain ⟨index, happly, rfl⟩ := Option.map_eq_some_iff.mp hstep
  have hwell := h.wellFormed.apply happly
  cases operation with
  | insert flow position diskBlockId rxId =>
      obtain ⟨hrx, hinsert⟩ := Option.ite_none_right_eq_some.mp happly
      obtain ⟨⟨done, after⟩, hdone, rfl⟩ := Option.map_eq_some_iff.mp hinsert
      have hputs : st.Puts cfg hash flow position diskBlockId rxId ↔ done = true := by
        rw [Puts, hdone, Option.any_some]
      rcases IndexState.insert_cases hdone with ⟨rfl, bitmap, rfl, -⟩ | ⟨rfl, hinserted⟩
      · refine h.unchanged hwell rfl ?_
        show (if _ then _ else _) = _
        rw [if_neg (fun hyes => Bool.false_ne_true (hputs.mp hyes))]
      · have hnote : st.note cfg hash (.insert flow position diskBlockId rxId) =
            st.inserted ++ [⟨flow, position, diskBlockId, rxId⟩] := if_pos (hputs.mpr rfl)
        rw [hnote]
        exact h.insert hlist hcapacity hrx hwell (hopens (hputs.mpr rfl)) hinserted
  | persistMeta threadId =>
      obtain ⟨-, hpersist⟩ := Option.ite_none_right_eq_some.mp happly
      exact h.unchanged hwell (IndexState.persisted_of_persistMeta hpersist).memoryPools rfl
  | clearMeta threadId =>
      obtain ⟨-, hclear⟩ := Option.ite_none_right_eq_some.mp happly
      obtain rfl := Option.some.inj hclear
      exact h.clearMeta hlist hwidth threadId
  | setPacketCount diskBlockId packetCount =>
      obtain rfl := Option.some.inj happly
      obtain ⟨diskMetas, hset⟩ :=
        @IndexState.setPacketCount_rest cfg st.index diskBlockId packetCount
      exact h.unchanged hwell (by rw [hset]) rfl
  | recycleBlock blockId =>
      obtain ⟨-, hrecycle⟩ := Option.ite_none_right_eq_some.mp happly
      obtain rfl := Option.some.inj hrecycle
      exact h.unchanged hwell rfl rfl

theorem recorded_of_reachable (hlist : 2 ≤ cfg.poolListLen) (hcapacity : cfg.poolCapacity ≤ u64Max)
    (hwidth : cfg.diskBlockNum ≤ u64Max)
    (h : (history cfg hash std).Reachable (Opens cfg hash) st) : Recorded cfg st :=
  h.invariant (Recorded cfg) (recorded_init cfg) fun hrecorded hopens hstep =>
    hrecorded.apply hlist hcapacity hwidth hopens hstep

end InsertHistory

end TrafficDatabase
