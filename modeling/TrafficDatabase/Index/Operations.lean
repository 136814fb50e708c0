import TrafficDatabase.Index.IndexBuffer
import TrafficDatabase.Library.TransitionSystem

/-!
# The operations on the index

The calls that change the index, one step each and in any order: a generator
inserts a record, a persister persists or clears the slot it is at, a dump of a
data block sets the block's packet count, and an index block that has been
written to its disk is recycled.  `WellFormed` is what holds of the numbers of
slots and blocks in every reachable state.
-/

namespace TrafficDatabase

namespace IndexState

/-- A call that changes the index. -/
inductive Operation
  | insert (flow : FlowMetadata) (position diskBlockId rxId : ℕ)
  | persistMeta (threadId : ℕ)
  | clearMeta (threadId : ℕ)
  | setPacketCount (diskBlockId packetCount : ℕ)
  | recycleBlock (blockId : ℕ)

variable (cfg : IndexConfig) (hash : StdHash) (std : StdSort)

def apply (st : IndexState) : Operation → Option IndexState
  | .insert flow position diskBlockId rxId =>
      if rxId < cfg.poolNum then
        (st.insert cfg hash flow position diskBlockId rxId).map Prod.snd
      else none
  | .persistMeta threadId =>
      if threadId < cfg.checkThreadNum then st.persistMeta cfg std threadId else none
  | .clearMeta threadId =>
      if threadId < cfg.checkThreadNum then some (st.clearMeta cfg threadId) else none
  | .setPacketCount diskBlockId packetCount => some (st.setPacketCount cfg diskBlockId packetCount)
  | .recycleBlock blockId =>
      if blockId < cfg.indexBlock.totalBlockNum then
        some { st with
          indexBlockBuffer := st.indexBlockBuffer.recycleBlock cfg.indexBlock blockId }
      else none

def operations : TransitionSystem IndexState Operation :=
  { init := init cfg, step := apply cfg hash std }

/-- The check threads are at slots, each slot has a disk block of its own residue,
and the slots of the index block buffer hold blocks of the index disk. -/
structure WellFormed (cfg : IndexConfig) (st : IndexState) : Prop where
  length_checkIds : st.indexCheckIds.length = cfg.checkThreadNum
  checkId_lt : ∀ threadId, st.checkId threadId < cfg.totalBlockNum
  diskBlockId_lt : ∀ slot < cfg.totalBlockNum, (st.metas slot).diskBlockId < cfg.diskBlockNum
  diskBlockId_mod : ∀ slot < cfg.totalBlockNum,
    (st.metas slot).diskBlockId % cfg.totalBlockNum = slot
  blockDiskId_lt : ∀ slot < cfg.indexBlock.totalBlockNum,
    st.indexBlockBuffer.blockDiskId slot < cfg.indexBlock.diskBlockNum

end IndexState

namespace IndexConfig

variable (cfg : IndexConfig)

theorem totalBlockNum_dvd : cfg.totalBlockNum ∣ cfg.diskBlockNum :=
  Nat.dvd_of_mod_eq_zero cfg.diskBlockNum_mod

theorem totalBlockNum_le : cfg.totalBlockNum ≤ cfg.diskBlockNum :=
  Nat.le_of_dvd cfg.diskBlockNum_pos cfg.totalBlockNum_dvd

/-- The checks of the index block buffer's constructor. -/
theorem indexBlock_checks :
    cfg.indexBlock.totalBlockNum * DataBlockBuffer.diskBlockTimes < cfg.indexBlock.diskBlockNum ∧
      0 < cfg.indexBlock.blockSize := by
  have haccepted := cfg.indexBlock_accepted
  unfold IndexBlockBuffer.new at haccepted
  split_ifs at haccepted with hpow htimes hsize
  · cases haccepted
  · cases haccepted
  · cases haccepted
  · refine ⟨not_le.mp htimes, Nat.pos_of_ne_zero fun hzero => hsize ?_⟩
    unfold IndexBlockConfig.bufferSize
    rw [hzero, Nat.mul_zero]

theorem indexBlock_diskBlockNum_gt :
    cfg.indexBlock.totalBlockNum < cfg.indexBlock.diskBlockNum := by
  have h := cfg.indexBlock_checks.1
  unfold DataBlockBuffer.diskBlockTimes at h
  omega

end IndexConfig

namespace IndexState

variable {cfg : IndexConfig} {hash : StdHash} {std : StdSort} {st next : IndexState}

theorem wellFormed_init (cfg : IndexConfig) : WellFormed cfg (init cfg) where
  length_checkIds := List.length_range
  checkId_lt threadId := by
    change (List.range cfg.checkThreadNum).getD threadId 0 < _
    have hpos := cfg.totalBlockNum_pos
    have hle := cfg.checkThreadNum_le
    rw [List.getD_eq_getElem?_getD]
    by_cases hthread : threadId < cfg.checkThreadNum
    · rw [List.getElem?_range hthread]
      exact lt_of_lt_of_le hthread hle
    · rw [List.getElem?_eq_none (by rw [List.length_range]; omega)]
      exact hpos
  diskBlockId_lt slot hlt := lt_of_lt_of_le hlt cfg.totalBlockNum_le
  diskBlockId_mod _ hlt := Nat.mod_eq_of_lt hlt
  blockDiskId_lt slot hlt := by
    have hgt := cfg.indexBlock_diskBlockNum_gt
    change slot < _
    omega

theorem WellFormed.insert (h : WellFormed cfg st) {flow : FlowMetadata}
    {position diskBlockId rxId : ℕ} {done : Bool}
    (hinsert : st.insert cfg hash flow position diskBlockId rxId = some (done, next)) :
    WellFormed cfg next := by
  rcases insert_cases hinsert with ⟨-, bitmap, rfl, -⟩ | ⟨-, hinserted⟩
  · exact ⟨h.length_checkIds, h.checkId_lt, h.diskBlockId_lt, h.diskBlockId_mod,
      h.blockDiskId_lt⟩
  · obtain ⟨hcheckIds, -, hbuffer, -⟩ := hinserted.rest
    have hid : ∀ slot, (next.metas slot).diskBlockId = (st.metas slot).diskBlockId := by
      intro slot
      rw [hinserted.metas]
      by_cases hsame : slot = diskBlockId % cfg.totalBlockNum
      · rw [hsame, Function.update_self]
      · rw [Function.update_of_ne hsame]
    refine ⟨by rw [hcheckIds, h.length_checkIds], ?_, ?_, ?_,
      by rw [hbuffer]; exact h.blockDiskId_lt⟩
    · intro threadId
      unfold checkId
      rw [hcheckIds]
      exact h.checkId_lt threadId
    · exact fun slot hlt => (hid slot).symm ▸ h.diskBlockId_lt slot hlt
    · exact fun slot hlt => (hid slot).symm ▸ h.diskBlockId_mod slot hlt

theorem WellFormed.persistMeta (h : WellFormed cfg st) {threadId : ℕ}
    (hpersist : st.persistMeta cfg std threadId = some next) : WellFormed cfg next := by
  have hpersisted := persisted_of_persistMeta hpersist
  refine ⟨hpersisted.indexCheckIds ▸ h.length_checkIds, ?_, ?_, ?_, ?_⟩
  · intro other
    unfold checkId
    rw [hpersisted.indexCheckIds]
    exact h.checkId_lt other
  · rw [hpersisted.metas]
    exact h.diskBlockId_lt
  · rw [hpersisted.metas]
    exact h.diskBlockId_mod
  · rw [persistMeta_blockDiskId hpersist]
    exact h.blockDiskId_lt

theorem WellFormed.clearMeta (h : WellFormed cfg st) (threadId : ℕ) :
    WellFormed cfg (st.clearMeta cfg threadId) := by
  have hcleared := cleared_clearMeta cfg st threadId
  have hpos := cfg.totalBlockNum_pos
  refine ⟨?_, ?_, ?_, ?_, ?_⟩
  · rw [hcleared.indexCheckIds, List.length_set]
    exact h.length_checkIds
  · intro other
    unfold checkId
    rw [hcleared.indexCheckIds, List.getD_eq_getElem?_getD, List.getElem?_set]
    split_ifs
    · exact Nat.mod_lt _ hpos
    · exact hpos
    · exact h.checkId_lt other
  · intro slot hlt
    rw [hcleared.metas]
    by_cases hsame : slot = st.checkId threadId
    · rw [hsame, Function.update_self]
      exact Nat.mod_lt _ cfg.diskBlockNum_pos
    · rw [Function.update_of_ne hsame]
      exact h.diskBlockId_lt slot hlt
  · intro slot hlt
    rw [hcleared.metas]
    by_cases hsame : slot = st.checkId threadId
    · rw [hsame, Function.update_self]
      change (st.getCheckDishID threadId + cfg.totalBlockNum) % cfg.diskBlockNum %
        cfg.totalBlockNum = _
      rw [Nat.mod_mod_of_dvd _ cfg.totalBlockNum_dvd, Nat.add_mod_right]
      exact h.diskBlockId_mod _ (h.checkId_lt threadId)
    · rw [Function.update_of_ne hsame]
      exact h.diskBlockId_mod slot hlt
  · have hbuffer : (st.clearMeta cfg threadId).indexBlockBuffer = st.indexBlockBuffer := by
      obtain ⟨diskMetas, hset⟩ :=
        @setPacketCount_rest cfg st (st.getCheckDishID threadId) 0
      change (st.setPacketCount cfg (st.getCheckDishID threadId) 0).indexBlockBuffer = _
      rw [hset]
    rw [hbuffer]
    exact h.blockDiskId_lt

theorem WellFormed.setPacketCount (h : WellFormed cfg st) (diskBlockId packetCount : ℕ) :
    WellFormed cfg (st.setPacketCount cfg diskBlockId packetCount) := by
  obtain ⟨diskMetas, hset⟩ := @setPacketCount_rest cfg st diskBlockId packetCount
  rw [hset]
  exact ⟨h.length_checkIds, h.checkId_lt, h.diskBlockId_lt, h.diskBlockId_mod, h.blockDiskId_lt⟩

theorem WellFormed.recycleBlock (h : WellFormed cfg st) (blockId : ℕ) :
    WellFormed cfg { st with
      indexBlockBuffer := st.indexBlockBuffer.recycleBlock cfg.indexBlock blockId } where
  length_checkIds := h.length_checkIds
  checkId_lt := h.checkId_lt
  diskBlockId_lt := h.diskBlockId_lt
  diskBlockId_mod := h.diskBlockId_mod
  blockDiskId_lt slot hslot := by
    have hgt := cfg.indexBlock_diskBlockNum_gt
    change Function.update st.indexBlockBuffer.blockDiskId blockId _ slot < _
    by_cases hsame : slot = blockId
    · rw [hsame, Function.update_self]
      exact Nat.mod_lt _ (by omega)
    · rw [Function.update_of_ne hsame]
      exact h.blockDiskId_lt slot hslot

theorem WellFormed.apply (h : WellFormed cfg st) {operation : Operation}
    (hstep : st.apply cfg hash std operation = some next) : WellFormed cfg next := by
  cases operation with
  | insert flow position diskBlockId rxId =>
      obtain ⟨-, hinsert⟩ := Option.ite_none_right_eq_some.mp hstep
      obtain ⟨⟨done, after⟩, hdone, rfl⟩ := Option.map_eq_some_iff.mp hinsert
      exact h.insert hdone
  | persistMeta threadId =>
      obtain ⟨-, hpersist⟩ := Option.ite_none_right_eq_some.mp hstep
      exact h.persistMeta hpersist
  | clearMeta threadId =>
      obtain ⟨-, hclear⟩ := Option.ite_none_right_eq_some.mp hstep
      obtain rfl := Option.some.inj hclear
      exact h.clearMeta threadId
  | setPacketCount diskBlockId packetCount =>
      obtain rfl := Option.some.inj hstep
      exact h.setPacketCount diskBlockId packetCount
  | recycleBlock blockId =>
      obtain ⟨-, hrecycle⟩ := Option.ite_none_right_eq_some.mp hstep
      obtain rfl := Option.some.inj hrecycle
      exact h.recycleBlock blockId

theorem wellFormed_of_reachable {allowed : IndexState → Operation → Prop}
    (h : (operations cfg hash std).Reachable allowed st) : WellFormed cfg st :=
  h.invariant (WellFormed cfg) (wellFormed_init cfg) fun hwell _ hstep => hwell.apply hstep

/-- The range `persistMeta` records for a type. -/
theorem persistMeta_range (hst : st.WellFormed cfg) {threadId : ℕ}
    (hpersist : st.persistMeta cfg std threadId = some next) (type : IndexType) :
    (next.diskMetas (st.getCheckDishID threadId)).diskIndexMeta type =
      (st.typeStart cfg (st.getCheckDishID threadId) type,
        st.typeStart cfg (st.getCheckDishID threadId) type +
          st.typeLen cfg (st.getCheckDishID threadId) type) := by
  have hlt : st.getCheckDishID threadId < cfg.diskBlockNum :=
    hst.diskBlockId_lt _ (hst.checkId_lt threadId)
  obtain ⟨persisted, htypes, rfl⟩ := Option.map_eq_some_iff.mp hpersist
  have hrange := persistTypes_range hlt IndexType.nodup_all htypes type
  rw [if_pos (IndexType.mem_all type)] at hrange
  rw [setBloomFilterReadingCol_diskIndexMeta]
  exact hrange

end IndexState

end TrafficDatabase
