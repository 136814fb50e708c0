import Mathlib.Data.List.Sort
import TrafficDatabase.Index.KeptNodes
import TrafficDatabase.Index.PoolLength

/-!
# The records in a memory pool

What a pool holds for a block are the records put for it since the block was recycled
last.  `Contents` says where they are: each in its unit of the log, in a node of its block
that is not marked.  It holds for blocks in any order, as long as no record joins a node
of its block that is left from before the last `recycle` (`Opens`).

`getLenOfDiskID` and `writeToBuffer` see one node of a block, the first from the head on.
They get the records of the block, each once and no others, if that is the only node of
the block and its end is found (`Contents.recordBytes`).
-/

namespace TrafficDatabase

/-- A record in a pool: the number of its unit, its block and its bytes. -/
structure PoolRecord where
  unit : ℕ
  blockId : ℕ
  bytes : List UInt8
deriving DecidableEq, Repr

namespace AllocationLog

/-- Unit `unit` is one of node `n`. -/
def InNode (log : AllocationLog) (n unit : ℕ) : Prop :=
  n < log.count ∧ log.start n ≤ unit ∧ unit < log.start (n + 1)

/-- The records are in the window, in the order of their units.  A node that has one of
them has no unit of another record: it begins with one (`opened`), and all units a block
gets after a record of the block have records (`later`). -/
structure Contents (cfg : PoolConfig) (log : AllocationLog) (records : List PoolRecord)
    (pool : MemoryPool) : Prop where
  window : log.Window cfg pool
  inOrder : records.Pairwise fun first second => first.unit < second.unit
  inNode : ∀ record ∈ records, ∃ n, log.first ≤ n ∧ log.InNode n record.unit ∧
    log.block n = record.blockId ∧ (pool.allocatedList (n % cfg.listLen)).dirty = false
  bytes : ∀ record ∈ records,
    pool.buffer.read (cfg.offsetOf record.unit) cfg.unitLen = record.bytes
  opened : ∀ record ∈ records, ∀ n, log.InNode n record.unit →
    ∃ other ∈ records, other.unit = log.start n
  later : ∀ record ∈ records, ∀ n unit, log.InNode n unit → log.block n = record.blockId →
    record.unit ≤ unit → ∃ other ∈ records, other.unit = unit

variable {cfg : PoolConfig} {log : AllocationLog} {pool next : MemoryPool}
  {records : List PoolRecord} {diskBlockId n unit start : ℕ}

theorem Increasing.inNode_eq (h : log.Increasing) {m : ℕ} (hn : log.InNode n unit)
    (hm : log.InNode m unit) : n = m :=
  h.node_eq hn.1 hm.1 hn.2.1 hn.2.2 hm.2.1 hm.2.2

theorem Increasing.inNode_start (h : log.Increasing) (hn : n < log.count) :
    log.InNode n (log.start n) := ⟨hn, le_rfl, h n hn⟩

theorem Increasing.inNode_lt_total (h : log.Increasing) (hn : log.InNode n unit) :
    unit < log.total := hn.2.2.trans_le (h.start_le_start hn.1 le_rfl)

/-- The last unit of all is in the last node. -/
theorem Increasing.inNode_last (h : log.Increasing) (hcount : 0 < log.count) :
    log.InNode (log.count - 1) (log.total - 1) := by
  have hlast : log.count - 1 + 1 = log.count := Nat.sub_add_cancel hcount
  have hlt := h (log.count - 1) (by omega)
  rw [hlast] at hlt
  refine ⟨by omega, ?_, ?_⟩
  · unfold total
    omega
  · rw [hlast]
    unfold total
    omega

/-! ### One more unit -/

/-- The units handed out before stay in their nodes. -/
theorem inNode_put (hunit : unit < log.total) :
    (log.put diskBlockId).InNode n unit ↔ log.InNode n unit := by
  rcases Nat.lt_trichotomy n log.count with hlt | rfl | hgt
  · have hstart := log.put_start hlt diskBlockId
    have hcount : n < (log.put diskBlockId).count := by
      rcases log.put_cases diskBlockId with ⟨hcount, -⟩ | ⟨hcount, -⟩ <;> omega
    unfold InNode
    rw [hstart]
    rcases Nat.lt_or_ge (n + 1) log.count with hbefore | hlast
    · rw [log.put_stop hbefore]
      simp only [hlt, hcount, true_and]
    · have hat : n + 1 = log.count := by omega
      have hstop : unit < (log.put diskBlockId).start log.count := by
        rcases log.put_cases diskBlockId with ⟨-, -, hstop⟩ | ⟨-, -, -, hstop, -⟩ <;> omega
      have hstop' : unit < log.start log.count := hunit
      rw [hat]
      simp only [hlt, hcount, hstop, hstop', and_true, true_and]
  · -- the new node, if there is one, has the new unit only
    refine ⟨fun hnew => ?_, fun hold => absurd hold.1 (lt_irrefl _)⟩
    rcases log.put_cases diskBlockId with ⟨hcount, -⟩ | ⟨hcount, -, -, hstart, -⟩
    · exact absurd hnew.1 (by omega)
    · have hle := hnew.2.1
      omega
  · refine ⟨fun hnew => absurd hnew.1 ?_, fun hold => absurd hold.1 (by omega)⟩
    rcases log.put_cases diskBlockId with ⟨hcount, -⟩ | ⟨hcount, -⟩ <;> omega

/-- The new unit is in a node of its block: the last one, or a new one that starts with it. -/
theorem Increasing.inNode_total (h : log.Increasing) (hcount : 0 < log.count)
    (hnode : (log.put diskBlockId).InNode n log.total) :
    (log.put diskBlockId).block n = diskBlockId ∧
      (n = log.count - 1 ∧ diskBlockId = log.block (log.count - 1) ∨
        n = log.count ∧ log.count < (log.put diskBlockId).count ∧
          (log.put diskBlockId).start n = log.total) := by
  have hincreasing := h.put diskBlockId
  rcases log.put_cases diskBlockId with ⟨hsame, hblock, hstop⟩ | ⟨hnew, -, hblock, hstart, hstop⟩
  · have hlast : (log.put diskBlockId).InNode (log.count - 1) log.total := by
      refine ⟨by omega, ?_, ?_⟩
      · rw [log.put_start (by omega)]
        exact h.start_le_start (by omega) le_rfl
      · rw [Nat.sub_add_cancel hcount, hstop]
        exact Nat.lt_succ_self _
    obtain rfl := hincreasing.inNode_eq hnode hlast
    rw [log.put_block (by omega)]
    exact ⟨hblock.symm, .inl ⟨rfl, hblock⟩⟩
  · have hlast : (log.put diskBlockId).InNode log.count log.total := by
      refine ⟨by omega, hstart.le, ?_⟩
      rw [hstop]
      exact Nat.lt_succ_self _
    obtain rfl := hincreasing.inNode_eq hnode hlast
    exact ⟨hblock, .inr ⟨rfl, by omega, hstart⟩⟩

theorem Increasing.exists_inNode_total (h : log.Increasing) (hcount : 0 < log.count)
    (diskBlockId : ℕ) : ∃ n, log.count - 1 ≤ n ∧ (log.put diskBlockId).InNode n log.total := by
  have hpos : log.count ≤ (log.put diskBlockId).count := by
    rcases log.put_cases diskBlockId with ⟨hsame, -⟩ | ⟨hnew, -⟩ <;> omega
  have hlast := (h.put diskBlockId).inNode_last (hcount.trans_le hpos)
  rw [put_total, Nat.add_sub_cancel] at hlast
  exact ⟨_, by omega, hlast⟩

namespace Contents

theorem blockId_eq (h : log.Contents cfg records pool) {record : PoolRecord}
    (hrecord : record ∈ records) (hnode : log.InNode n record.unit) :
    record.blockId = log.block n := by
  obtain ⟨m, -, hm, hblock, -⟩ := h.inNode record hrecord
  rw [h.window.increasing.inNode_eq hnode hm, hblock]

theorem unit_lt (h : log.Contents cfg records pool) {record : PoolRecord}
    (hrecord : record ∈ records) : record.unit < log.total := by
  obtain ⟨m, -, hm, -⟩ := h.inNode record hrecord
  exact h.window.increasing.inNode_lt_total hm

/-- A node that has a record has no unit of another. -/
theorem whole_node (h : log.Contents cfg records pool) {record : PoolRecord}
    (hrecord : record ∈ records) (hnode : log.InNode n record.unit) (hunit : log.InNode n unit) :
    ∃ other ∈ records, other.unit = unit := by
  obtain ⟨first, hfirst, hstart⟩ := h.opened record hrecord n hnode
  have hin : log.InNode n first.unit := hstart ▸ h.window.increasing.inNode_start hnode.1
  exact h.later first hfirst n unit hunit (h.blockId_eq hfirst hin).symm (hstart ▸ hunit.2.1)

/-- The last node has a record if it is one of a block with records. -/
theorem last_unit (h : log.Contents cfg records pool) {record : PoolRecord}
    (hrecord : record ∈ records) (hblock : record.blockId = log.block (log.count - 1)) :
    ∃ other ∈ records, log.InNode (log.count - 1) other.unit := by
  have hcount : 0 < log.count := (Nat.zero_le _).trans_lt h.window.first_lt
  have hlast := h.window.increasing.inNode_last hcount
  obtain ⟨other, hother, hunit⟩ := h.later record hrecord _ _ hlast hblock.symm
    (Nat.le_sub_one_of_lt (h.unit_lt hrecord))
  exact ⟨other, hother, hunit ▸ hlast⟩

/-- The nodes `allocate` drops have no records. -/
theorem exists_kept (h : log.Contents cfg records pool) {first : ℕ}
    (hdone : Allocated cfg log pool diskBlockId first start next) {record : PoolRecord}
    (hrecord : record ∈ records) : ∃ n, first ≤ n ∧ log.InNode n record.unit ∧
      log.block n = record.blockId ∧ (next.allocatedList (n % cfg.listLen)).dirty = false := by
  obtain ⟨n, hn, hnode, hblock, hdirty⟩ := h.inNode record hrecord
  have hfirst : first ≤ n := by
    by_contra hbefore
    have hmarked := hdone.dropped n hn (not_le.mp hbefore)
    rw [hdirty] at hmarked
    exact Bool.false_ne_true hmarked
  exact ⟨n, hfirst, hnode, hblock, by rw [hdone.kept n hfirst hnode.1]; exact hdirty⟩

/-- A new unit does not lie over that of a record. -/
theorem unit_disjoint (h : log.Contents cfg records pool) {first : ℕ}
    (hdone : Allocated cfg log pool diskBlockId first start next) {record : PoolRecord}
    (hrecord : record ∈ records) :
    cfg.offsetOf record.unit + cfg.unitLen ≤ start ∨
      start + cfg.unitLen ≤ cfg.offsetOf record.unit := by
  obtain ⟨n, hn, hnode, -⟩ := h.exists_kept hdone hrecord
  have hroom := hdone.room
  have hstart : log.start first ≤ record.unit :=
    (h.window.increasing.start_le_start hn hnode.1.le).trans hnode.2.1
  rw [hdone.unit_eq]
  exact (cfg.offsetOf_disjoint (h.unit_lt hrecord) (by omega)).symm

/-- A record for a block is put behind the others, if it joins no node of the block but one
with records. -/
theorem put (h : log.Contents cfg records pool) {key : List UInt8} {position : ℕ}
    (hlen : key.length + 8 = cfg.unitLen)
    (hopens : pool.lastNode.dataBlockId = diskBlockId →
      ∃ record ∈ records, record.blockId = diskBlockId)
    (hput : pool.put key position diskBlockId = some next) :
    ∃ grown : AllocationLog, grown.Contents cfg
      (records ++ [⟨log.total, diskBlockId, key ++ toLittleEndian 8 position⟩]) next := by
  obtain ⟨⟨start, after⟩, hallocate, rfl⟩ := Option.map_eq_some_iff.mp hput
  rw [hlen] at hallocate
  obtain ⟨first, hdone⟩ := h.window.allocate hallocate
  have hincreasing := h.window.increasing
  have hcount : 0 < log.count := (Nat.zero_le _).trans_lt h.window.first_lt
  have hgrown : ∀ {n unit}, unit < log.total →
      ((log.put diskBlockId).InNode n unit ↔ log.InNode n unit) := inNode_put
  have hnew := fun {n} => @Increasing.inNode_total log diskBlockId n hincreasing hcount
  -- the last node has records if the new one joins it
  have hjoins : diskBlockId = log.block (log.count - 1) →
      ∃ record ∈ records, log.InNode (log.count - 1) record.unit := fun hsame => by
    obtain ⟨record, hrecord, hblock⟩ := hopens (by rw [h.window.lastNode_block, hsame])
    exact h.last_unit hrecord (hblock.trans hsame)
  refine ⟨{ log.put diskBlockId with first }, hdone.window.withBuffer _, ?_, ?_, ?_, ?_, ?_⟩
  · refine List.pairwise_append.mpr ⟨h.inOrder, List.pairwise_singleton _ _, ?_⟩
    intro record hrecord other hother
    rw [List.mem_singleton.mp hother]
    exact h.unit_lt hrecord
  · intro record hrecord
    rcases List.mem_append.mp hrecord with hrecord | hrecord
    · obtain ⟨n, hn, hnode, hblock, hdirty⟩ := h.exists_kept hdone hrecord
      exact ⟨n, hn, (hgrown (h.unit_lt hrecord)).mpr hnode,
        (log.put_block hnode.1 diskBlockId).trans hblock, hdirty⟩
    · obtain rfl := List.mem_singleton.mp hrecord
      obtain ⟨n, hn, hnode⟩ := hincreasing.exists_inNode_total hcount diskBlockId
      obtain ⟨hblock, hwhere⟩ := hnew hnode
      refine ⟨n, (Nat.le_sub_one_of_lt hdone.first_lt).trans hn, hnode, hblock, ?_⟩
      rcases hwhere with ⟨rfl, hsame⟩ | ⟨rfl, hmore, -⟩
      · obtain ⟨other, hother, hin⟩ := hjoins hsame
        obtain ⟨m, -, hm, -, hdirty⟩ := h.exists_kept hdone hother
        obtain rfl := hincreasing.inNode_eq hin hm
        exact hdirty
      · exact hdone.unmarked hmore
  · intro record hrecord
    have hunit : (key ++ toLittleEndian 8 position).length = cfg.unitLen := by
      rw [List.length_append, length_toLittleEndian, hlen]
    show ((after.buffer.write start key).write (start + key.length) _).read _ _ = _
    rw [Memory.write_append, hdone.buffer]
    rcases List.mem_append.mp hrecord with hrecord | hrecord
    · rw [Memory.read_write_of_disjoint (by rw [hunit]; exact h.unit_disjoint hdone hrecord)]
      exact h.bytes record hrecord
    · obtain rfl := List.mem_singleton.mp hrecord
      rw [← hunit, hdone.unit_eq]
      exact Memory.read_write_self ..
  · intro record hrecord n hnode
    rcases List.mem_append.mp hrecord with hrecord | hrecord
    · have hnode := (hgrown (h.unit_lt hrecord)).mp hnode
      obtain ⟨other, hother, hstart⟩ := h.opened record hrecord n hnode
      exact ⟨other, List.mem_append_left _ hother,
        hstart.trans (log.put_start hnode.1 diskBlockId).symm⟩
    · obtain rfl := List.mem_singleton.mp hrecord
      rcases (hnew hnode).2 with ⟨rfl, hsame⟩ | ⟨-, -, hstart⟩
      · obtain ⟨other, hother, hin⟩ := hjoins hsame
        obtain ⟨opening, hopening, hstart⟩ := h.opened other hother _ hin
        exact ⟨opening, List.mem_append_left _ hopening,
          hstart.trans (log.put_start hin.1 diskBlockId).symm⟩
      · exact ⟨_, List.mem_append_right _ (.head _), hstart.symm⟩
  · intro record hrecord n unit hnode hblock hle
    have hbelow : unit < log.total + 1 := by
      rw [← log.put_total diskBlockId]
      exact (hincreasing.put diskBlockId).inNode_lt_total hnode
    rcases Nat.lt_succ_iff_lt_or_eq.mp hbelow with hunit | rfl
    · have hnode := (hgrown hunit).mp hnode
      have hblock : log.block n = record.blockId :=
        (log.put_block hnode.1 diskBlockId).symm.trans hblock
      rcases List.mem_append.mp hrecord with hrecord | hrecord
      · obtain ⟨other, hother, hat⟩ := h.later record hrecord n unit hnode hblock hle
        exact ⟨other, List.mem_append_left _ hother, hat⟩
      · obtain rfl := List.mem_singleton.mp hrecord
        exact absurd hunit (not_lt.mpr hle)
    · exact ⟨_, List.mem_append_right _ (.head _), rfl⟩

/-- The records of a block go when it is recycled. -/
theorem recycle (h : log.Contents cfg records pool) (diskBlockId : ℕ) :
    log.Contents cfg (records.filter fun record => record.blockId ≠ diskBlockId)
      (pool.recycle diskBlockId) := by
  have hmem : ∀ {record : PoolRecord},
      record ∈ records.filter (fun record => record.blockId ≠ diskBlockId) ↔
        record ∈ records ∧ record.blockId ≠ diskBlockId := by simp
  have hbuffer : (pool.recycle diskBlockId).buffer = pool.buffer := by
    obtain ⟨allocatedList, hrecycle⟩ := MemoryPool.recycle_eq pool diskBlockId
    rw [hrecycle]
  refine ⟨h.window.recycle diskBlockId, h.inOrder.filter _, ?_, ?_, ?_, ?_⟩
  · intro record hrecord
    obtain ⟨hrecord, hother⟩ := hmem.mp hrecord
    obtain ⟨n, hn, hnode, hblock, hdirty⟩ := h.inNode record hrecord
    refine ⟨n, hn, hnode, hblock, ?_⟩
    rw [h.window.recycle_dirty hn hnode.1 (hblock ▸ hother)]
    exact hdirty
  · intro record hrecord
    rw [hbuffer]
    exact h.bytes record (hmem.mp hrecord).1
  · intro record hrecord n hnode
    obtain ⟨hrecord, hother⟩ := hmem.mp hrecord
    obtain ⟨opening, hopening, hstart⟩ := h.opened record hrecord n hnode
    have hin : log.InNode n opening.unit := hstart ▸ h.window.increasing.inNode_start hnode.1
    refine ⟨opening, hmem.mpr ⟨hopening, ?_⟩, hstart⟩
    rw [h.blockId_eq hopening hin, ← h.blockId_eq hrecord hnode]
    exact hother
  · intro record hrecord n unit hnode hblock hle
    obtain ⟨hrecord, hother⟩ := hmem.mp hrecord
    obtain ⟨found, hfound, hunit⟩ := h.later record hrecord n unit hnode hblock hle
    refine ⟨found, hmem.mpr ⟨hfound, ?_⟩, hunit⟩
    rw [h.blockId_eq hfound (hunit ▸ hnode), hblock]
    exact hother

/-- The first record of a pool. -/
theorem one {key : List UInt8} {position : ℕ} (hlen : key.length + 8 = cfg.unitLen)
    (hput : cfg.pool.put key position diskBlockId = some next) :
    (AllocationLog.one diskBlockId).Contents cfg
      [⟨0, diskBlockId, key ++ toLittleEndian 8 position⟩] next := by
  obtain ⟨⟨start, after⟩, hallocate, rfl⟩ := Option.map_eq_some_iff.mp hput
  rw [hlen] at hallocate
  obtain ⟨taken, htaken, hfirst⟩ := allocate_fresh cfg diskBlockId []
  obtain ⟨rfl, rfl⟩ := Prod.mk.inj (Option.some.inj (htaken.symm.trans hallocate))
  have hnode : ∀ {n unit}, (AllocationLog.one diskBlockId).InNode n unit → n = 0 ∧ unit = 0 := by
    intro n unit hin
    have hn := Nat.lt_one_iff.mp hin.1
    exact ⟨hn, by have := hin.2.2; simp only [AllocationLog.one, hn, id] at this; omega⟩
  have hunmarked : (taken.allocatedList (0 % cfg.listLen)).dirty = false := by
    by_contra hdirty
    exact List.not_mem_nil (hfirst.marked 0 le_rfl Nat.one_pos (by simpa using hdirty))
  refine ⟨hfirst.window.withBuffer _, List.pairwise_singleton _ _, ?_, ?_, ?_, ?_⟩
  · intro record hrecord
    rw [List.mem_singleton.mp hrecord]
    exact ⟨0, le_rfl, ⟨Nat.one_pos, le_rfl, Nat.one_pos⟩, rfl, hunmarked⟩
  · intro record hrecord
    obtain rfl := List.mem_singleton.mp hrecord
    have hunit : (key ++ toLittleEndian 8 position).length = cfg.unitLen := by
      rw [List.length_append, length_toLittleEndian, hlen]
    have hzero : cfg.offsetOf 0 = 0 := cfg.offsetOf_eq_zero (Nat.zero_mod _)
    show ((taken.buffer.write 0 key).write (0 + key.length) _).read (cfg.offsetOf 0) _ = _
    rw [Memory.write_append, hzero, ← hunit]
    exact Memory.read_write_self ..
  · intro record hrecord n hin
    exact ⟨record, hrecord, by rw [(hnode hin).1, (hnode hin).2]; rfl⟩
  · intro record hrecord n unit hin _ _
    refine ⟨record, hrecord, ?_⟩
    rw [List.mem_singleton.mp hrecord, (hnode hin).2]

end Contents

end AllocationLog

/-! ## Reading the records of a block -/

namespace PoolConfig

variable (cfg : PoolConfig) (mem : Memory)

theorem read_unit (unit : ℕ) : mem.read (cfg.offsetOf unit) cfg.unitLen =
    mem.ringRead cfg.capacity (unit * cfg.unitLen) cfg.unitLen := by
  refine (Memory.ringRead_eq_read fun k hk => ?_).symm
  have hinside := cfg.offsetOf_add_le unit
  have hoffset : unit * cfg.unitLen % cfg.capacity = cfg.offsetOf unit := Nat.mul_mod_mul_right ..
  rw [Nat.add_mod, hoffset, Nat.mod_eq_of_lt (by omega : k < cfg.capacity),
    Nat.mod_eq_of_lt (by omega)]

/-- Units that follow each other are read around the pool. -/
theorem flatMap_read (unit count : ℕ) :
    (List.range' unit count).flatMap (fun each => mem.read (cfg.offsetOf each) cfg.unitLen) =
      mem.ringRead cfg.capacity (unit * cfg.unitLen) (count * cfg.unitLen) := by
  induction count generalizing unit with
  | zero => rw [Nat.zero_mul]; rfl
  | succ count ih =>
      rw [List.range'_succ, List.flatMap_cons, ih, read_unit, Nat.succ_mul, Nat.succ_mul count,
        Nat.add_comm (count * cfg.unitLen), Memory.ringRead_add]

end PoolConfig

namespace MemoryPool

variable (pool : MemoryPool) (diskBlockId : ℕ) (records : List (List UInt8))

/-- A place of the list has a node of the block. -/
def Bears (place : ℕ) : Prop :=
  pool.InList place ∧ (pool.allocatedList place).dataBlockId = diskBlockId

instance (place : ℕ) : Decidable (pool.Bears diskBlockId place) :=
  inferInstanceAs (Decidable (_ ∧ _))

/-- What `getLenOfDiskID` and `writeToBuffer` need to find the records of a block and no
others: no node of the block in the list if there are no records; and if there are, a list
that is not full with one node of the block, which is not the last one in the last place,
unless what place 0 holds happens to start where the cursor is. -/
def Findable : Prop :=
  if records = [] then
    pool.ListFull ∨ ∀ place < pool.listLen, ¬ pool.Bears diskBlockId place
  else
    ¬ pool.ListFull ∧
      (∀ place < pool.listLen, ∀ other < pool.listLen, pool.Bears diskBlockId place →
        pool.Bears diskBlockId other → place = other) ∧
      (pool.lastNode.dataBlockId = diskBlockId → pool.listTail = 0 →
        (pool.allocatedList 0).startOffset = pool.allocatePos % pool.capacity)

instance : Decidable (pool.Findable diskBlockId records) := by
  unfold Findable
  infer_instance

end MemoryPool

namespace AllocationLog

variable {cfg : PoolConfig} {log : AllocationLog} {pool : MemoryPool}
  {records : List PoolRecord} {diskBlockId n place : ℕ}

/-- A node of the window is as far behind the head in the list as in the log. -/
theorem Window.offset_eq (h : log.Window cfg pool) (hn : log.first ≤ n) (hn' : n < log.count) :
    pool.offset (n % cfg.listLen) = n - log.first := by
  obtain ⟨behind, rfl⟩ := Nat.exists_eq_add_of_le hn
  have hcount := h.count_le
  have hhead := Nat.mod_lt log.first (by omega : 0 < cfg.listLen)
  unfold MemoryPool.offset
  rw [h.head, h.listLen, add_mod_of_lt (by omega : behind < cfg.listLen), Nat.add_sub_cancel_left]
  split_ifs <;> omega

theorem Window.lastPlace_eq (h : log.Window cfg pool) :
    pool.lastPlace = (log.count - 1) % cfg.listLen := by
  have hfirst := h.first_lt
  have hlist := cfg.two_le_listLen
  unfold MemoryPool.lastPlace
  rw [h.tail, h.listLen, Nat.add_sub_assoc (by omega), Nat.mod_add_mod,
    show log.count + (cfg.listLen - 1) = log.count - 1 + cfg.listLen by omega, Nat.add_mod_right]

/-- The places of the list are those of the nodes of the window. -/
theorem Window.inList_iff (h : log.Window cfg pool) :
    pool.InList place ↔ ∃ n, log.first ≤ n ∧ n < log.count ∧ place = n % cfg.listLen := by
  have hfirst := h.first_lt
  have hlist := cfg.two_le_listLen
  unfold MemoryPool.InList
  rw [h.lastPlace_eq, h.offset_eq (by omega) (by omega), h.listLen]
  constructor
  · rintro ⟨hplace, hle⟩
    have hhead := Nat.mod_lt log.first (by omega : 0 < cfg.listLen)
    refine ⟨log.first + pool.offset place, Nat.le_add_right .., by omega, ?_⟩
    unfold MemoryPool.offset
    rw [h.head, h.listLen]
    split_ifs with hbehind
    · rw [add_mod_of_lt (by omega)]
      split_ifs <;> omega
    · rw [add_mod_of_lt (by omega)]
      split_ifs <;> omega
  · rintro ⟨n, hn, hn', rfl⟩
    exact ⟨Nat.mod_lt _ (by omega), by rw [h.offset_eq hn hn']; omega⟩

theorem Window.bears_iff (h : log.Window cfg pool) :
    pool.Bears diskBlockId place ↔ ∃ n, log.first ≤ n ∧ n < log.count ∧
      log.block n = diskBlockId ∧ place = n % cfg.listLen := by
  unfold MemoryPool.Bears
  rw [h.inList_iff]
  constructor
  · rintro ⟨⟨n, hn, hn', rfl⟩, hblock⟩
    exact ⟨n, hn, hn', (h.block n hn hn').symm.trans hblock, rfl⟩
  · rintro ⟨n, hn, hn', hblock, rfl⟩
    exact ⟨⟨n, hn, hn', rfl⟩, (h.block n hn hn').trans hblock⟩

namespace Contents

/-- The records of a block that is found nowhere but in one node are the units of the node. -/
theorem units_eq (h : log.Contents cfg records pool) {record : PoolRecord}
    (hrecord : record ∈ records) (hblock : record.blockId = diskBlockId)
    (hnode : log.InNode n record.unit)
    (hone : ∀ m, log.first ≤ m → m < log.count → log.block m = diskBlockId → m = n) :
    (records.filter (·.blockId = diskBlockId)).map PoolRecord.unit =
      List.range' (log.start n) (log.start (n + 1) - log.start n) := by
  have hstop := h.window.increasing n hnode.1
  refine List.Pairwise.eq_of_mem_iff (List.pairwise_map.mpr (h.inOrder.filter _))
    List.pairwise_lt_range' fun unit => ?_
  rw [List.mem_map, List.mem_range'_1]
  constructor
  · rintro ⟨other, hother, rfl⟩
    obtain ⟨hother, hsame⟩ := List.mem_filter.mp hother
    obtain ⟨m, hm, hin, hat, -⟩ := h.inNode other hother
    obtain rfl := hone m hm hin.1 (hat.trans (of_decide_eq_true hsame))
    exact ⟨hin.2.1, by have := hin.2.2; omega⟩
  · rintro ⟨hle, hlt⟩
    have hin : log.InNode n unit := ⟨hnode.1, hle, by omega⟩
    obtain ⟨other, hother, rfl⟩ := h.whole_node hrecord hnode hin
    refine ⟨other, List.mem_filter.mpr ⟨hother, decide_eq_true ?_⟩, rfl⟩
    rw [h.blockId_eq hother hin, ← h.blockId_eq hrecord hnode, hblock]

/-- What is read for a block are its records, in order. -/
theorem recordBytes (h : log.Contents cfg records pool)
    (hfind : pool.Findable diskBlockId
      ((records.filter (·.blockId = diskBlockId)).map PoolRecord.bytes)) :
    pool.recordBytes diskBlockId =
      ((records.filter (·.blockId = diskBlockId)).map PoolRecord.bytes).flatten := by
  have hbears := fun place => @Window.bears_iff cfg log pool diskBlockId place h.window
  unfold MemoryPool.Findable at hfind
  split_ifs at hfind with hnone
  · have hnode : pool.nodeOf diskBlockId = none := by
      rcases hfind with hfull | hother
      · exact h.window.nodeOf_of_full (h.window.full_iff.mp hfull)
      · by_contra hsome
        obtain ⟨node, hnode⟩ := Option.ne_none_iff_exists'.mp hsome
        obtain ⟨n, hn, hn', hblock, rfl⟩ := h.window.nodeOf_eq_some hnode
        have hbears := (hbears _).mpr ⟨n, hn, hn', hblock, rfl⟩
        exact hother _ hbears.1.1 hbears
    rw [hnone, MemoryPool.recordBytes, hnode]
    rfl
  · obtain ⟨hfull, hunique, hend⟩ := hfind
    rw [MemoryPool.ListFull, h.window.full_iff] at hfull
    have hfull := lt_of_le_of_ne h.window.count_le hfull
    obtain ⟨bytes, hbytes⟩ := List.exists_mem_of_ne_nil _ hnone
    obtain ⟨record, hrecord, -⟩ := List.mem_map.mp hbytes
    obtain ⟨hrecord, hsame⟩ := List.mem_filter.mp hrecord
    have hsame := of_decide_eq_true hsame
    obtain ⟨n, hn, hin, hblock, -⟩ := h.inNode record hrecord
    have hblock := hblock.trans hsame
    -- all nodes of the block are this one
    have hone : ∀ m, log.first ≤ m → m < log.count → log.block m = diskBlockId → m = n := by
      intro m hm hm' hat
      have hfirst := (hbears _).mpr ⟨m, hm, hm', hat, rfl⟩
      have hsecond := (hbears _).mpr ⟨n, hn, hin.1, hblock, rfl⟩
      exact h.window.eq_of_mod hm hm' hn hin.1
        (hunique _ hfirst.1.1 _ hsecond.1.1 hfirst hsecond)
    have hnode : pool.nodeOf diskBlockId = some (n % cfg.listLen) := by
      rcases h.window.nodeOf_cases hfull with ⟨hnone, -⟩ | ⟨m, hm, hm', hat, hnode⟩
      · exact absurd hblock (hnone n hn hin.1)
      · rw [hnode, hone m hm hm' hat]
    have hlen := (h.window.getLenOfDiskID_iff hfull hn hin.1 hnode).mpr fun hlast =>
      hend (by rw [h.window.lastNode_block, ← hlast, Nat.add_sub_cancel, hblock])
    have hle := h.window.length_le hn hin.1
    set count := log.start (n + 1) - log.start n with hcount
    have hinside : count * cfg.unitLen ≤ cfg.capacity :=
      Nat.mul_le_mul_right _ (by omega)
    have hstart : log.start n * cfg.unitLen % cfg.capacity = cfg.offsetOf (log.start n) :=
      Nat.mul_mod_mul_right ..
    calc pool.recordBytes diskBlockId
        = pool.buffer.ringRead cfg.capacity (log.start n * cfg.unitLen) (count * cfg.unitLen) := by
          rw [Memory.ringRead_eq_append hinside, hstart, MemoryPool.recordBytes, hnode]
          simp only [hlen, h.window.capacity, h.window.start n hn hin.1]
      _ = (List.range' (log.start n) count).flatMap
            (fun unit => pool.buffer.read (cfg.offsetOf unit) cfg.unitLen) :=
          (cfg.flatMap_read ..).symm
      _ = ((records.filter (·.blockId = diskBlockId)).map PoolRecord.bytes).flatten := by
          rw [← h.units_eq hrecord hsame hin hone, List.flatMap_map, List.flatMap_def]
          refine congrArg List.flatten (List.map_congr_left fun other hother => h.bytes other ?_)
          exact (List.mem_filter.mp hother).1

end Contents

end AllocationLog

/-! ## The pools of the types -/

/-- A unit is handed out of a pool that has room for it. -/
theorem MemoryPool.len_le_of_allocate {pool : MemoryPool} {len diskBlockId : ℕ}
    {done : ℕ × MemoryPool} (h : pool.allocate len diskBlockId = some done) :
    len ≤ pool.capacity := by
  rw [← advanceHead_capacity pool.listLen pool]
  unfold allocate allocateFrom at h
  simp only at h
  by_contra hlt
  rw [if_pos (by split_ifs <;> omega)] at h
  cases h

namespace IndexMemoryPool

/-- The pool of a type as it is constructed, if it has room for a unit. -/
def poolConfig (capacity listLen : ℕ) (type : IndexType) (hlist : 2 ≤ listLen)
    (hcapacity : capacity ≤ u64Max) (hunit : unitLen type ≤ curCapacity capacity type) :
    PoolConfig where
  unitLen := unitLen type
  units := capacity / 6 / unitLen type
  listLen := listLen
  unitLen_pos := Nat.succ_pos _
  units_pos := Nat.pos_of_mul_pos_right ((Nat.succ_pos (type.keyLen + 7)).trans_le hunit)
  two_le_listLen := hlist
  inMemory := by
    have hshare := Nat.div_mul_le_self (capacity / 6) (unitLen type)
    have hsmall : unitLen type ≤ 24 := by cases type <;> decide
    unfold u64Max at hcapacity ⊢
    omega

/-- Nothing has been put in the pool of a type yet, or the pool has the records, each for
the block it is given with. -/
def HasRecords (capacity listLen : ℕ) (type : IndexType) (records : List (ℕ × List UInt8))
    (pool : MemoryPool) : Prop :=
  records = [] ∧ pool = .fresh (curCapacity capacity type) listLen ∨
    ∃ (cfg : PoolConfig) (log : AllocationLog) (held : List PoolRecord),
      cfg.unitLen = unitLen type ∧ log.Contents cfg held pool ∧
        held.map (fun record => (record.blockId, record.bytes)) = records

/-- The records that are for a block. -/
def ofBlock (diskBlockId : ℕ) (records : List (ℕ × List UInt8)) : List (List UInt8) :=
  (records.filter (·.1 = diskBlockId)).map Prod.snd

variable {capacity listLen diskBlockId : ℕ} {type : IndexType} {pool next : MemoryPool}
  {records : List (ℕ × List UInt8)}

theorem hasRecords_new (capacity listLen : ℕ) (type : IndexType) :
    HasRecords capacity listLen type [] (new capacity listLen type) := .inl ⟨rfl, rfl⟩

theorem HasRecords.put (h : HasRecords capacity listLen type records pool) (hlist : 2 ≤ listLen)
    (hcapacity : capacity ≤ u64Max) {key : List UInt8} {position : ℕ}
    (hlen : key.length = type.keyLen)
    (hopens : pool.lastNode.dataBlockId = diskBlockId → ∃ record ∈ records, record.1 = diskBlockId)
    (hput : pool.put key position diskBlockId = some next) :
    HasRecords capacity listLen type
      (records ++ [(diskBlockId, key ++ toLittleEndian 8 position)]) next := by
  have hunit : key.length + 8 = unitLen type := by rw [hlen, unitLen]
  right
  rcases h with ⟨rfl, rfl⟩ | ⟨cfg, log, held, hcfg, hcontents, rfl⟩
  · obtain ⟨done, hallocate, -⟩ := Option.map_eq_some_iff.mp hput
    have hroom : unitLen type ≤ curCapacity capacity type :=
      hunit ▸ MemoryPool.len_le_of_allocate hallocate
    exact ⟨poolConfig capacity listLen type hlist hcapacity hroom, _, _, rfl,
      AllocationLog.Contents.one hunit hput, rfl⟩
  · have hopens : pool.lastNode.dataBlockId = diskBlockId →
        ∃ record ∈ held, record.blockId = diskBlockId := fun hlast => by
      obtain ⟨record, hrecord, hblock⟩ := hopens hlast
      obtain ⟨found, hfound, rfl⟩ := List.mem_map.mp hrecord
      exact ⟨found, hfound, hblock⟩
    obtain ⟨grown, hgrown⟩ := hcontents.put (hunit.trans hcfg.symm) hopens hput
    exact ⟨cfg, grown, _, hcfg, hgrown, by rw [List.map_append]; rfl⟩

theorem HasRecords.recycle (h : HasRecords capacity listLen type records pool)
    (hlist : 2 ≤ listLen) (hblock : diskBlockId ≠ u64Max) :
    HasRecords capacity listLen type (records.filter (·.1 ≠ diskBlockId))
      (pool.recycle diskBlockId) := by
  rcases h with ⟨rfl, rfl⟩ | ⟨cfg, log, held, hcfg, hcontents, rfl⟩
  · left
    rw [MemoryPool.recycle, MemoryPool.nodeOf_fresh hlist hblock]
    exact ⟨rfl, rfl⟩
  · right
    refine ⟨cfg, log, _, hcfg, hcontents.recycle diskBlockId, ?_⟩
    rw [List.filter_map]
    rfl

/-- What is read for a block are the records put for it and not recycled. -/
theorem HasRecords.recordBytes (h : HasRecords capacity listLen type records pool)
    (hlist : 2 ≤ listLen) (hblock : diskBlockId ≠ u64Max)
    (hfind : pool.Findable diskBlockId (ofBlock diskBlockId records)) :
    pool.recordBytes diskBlockId = (ofBlock diskBlockId records).flatten := by
  rcases h with ⟨rfl, rfl⟩ | ⟨cfg, log, held, hcfg, hcontents, rfl⟩
  · rw [MemoryPool.recordBytes, MemoryPool.nodeOf_fresh hlist hblock]
    rfl
  · have hmine : ofBlock diskBlockId
        (held.map fun record => (record.blockId, record.bytes)) =
          (held.filter (·.blockId = diskBlockId)).map PoolRecord.bytes := by
      rw [ofBlock, List.filter_map, List.map_map]
      rfl
    rw [hmine] at hfind ⊢
    exact hcontents.recordBytes hfind

end IndexMemoryPool

end TrafficDatabase
