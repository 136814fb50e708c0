import TrafficDatabase.Index.AllocationLog

/-!
# Runs of a memory pool

`PoolHistory` follows the calls of `allocate` and `recycle` on one pool: the regions that
were handed out, in order, and the blocks that were recycled.  In every run the pool is
the window of a log whose units are these regions (`inv_of_reachable`).

A region never overlaps an earlier one of a block that has not been recycled
(`allocate_disjoint`).  `getLenOfDiskID` is right about a block unless its node is the
last one and in the last place of the list, or the list is full
(`getLenOfDiskID_exact_iff`).  A call that waits waits for ever: the two loops look at the
head and the tail of the list and at the offset of the head node, and `recycle` changes
none of these (`waits_for_ever`).
-/

namespace TrafficDatabase

/-- A region that `allocate` has handed out for a block. -/
structure Region where
  start : ℕ
  blockId : ℕ
deriving DecidableEq, Repr

structure PoolHistory where
  pool : MemoryPool
  regions : List Region
  recycled : List ℕ

inductive PoolCall
  | allocate (diskBlockId : ℕ)
  | recycle (diskBlockId : ℕ)
deriving DecidableEq, Repr

namespace PoolHistory

/-- The calls on a pool; an `allocate` that waits for ever is no step. -/
def history (cfg : PoolConfig) : TransitionSystem PoolHistory PoolCall where
  init := { pool := cfg.pool, regions := [], recycled := [] }
  step st
    | .allocate diskBlockId =>
        (st.pool.allocate cfg.unitLen diskBlockId).map fun (start, pool) =>
          { st with pool, regions := st.regions ++ [{ start, blockId := diskBlockId }] }
    | .recycle diskBlockId =>
        some { st with
          pool := st.pool.recycle diskBlockId
          recycled := diskBlockId :: st.recycled }

variable (st : PoolHistory)

/-- Blocks come in order, and none again once it has been recycled. -/
def InLap : PoolCall → Prop
  | .allocate diskBlockId =>
      (∀ region ∈ st.regions, region.blockId ≤ diskBlockId) ∧ diskBlockId ∉ st.recycled
  | .recycle _ => True

instance : ∀ call, Decidable (st.InLap call)
  | .allocate _ => inferInstanceAs (Decidable (_ ∧ _))
  | .recycle _ => .isTrue trivial

/-- Besides, the value for no block is not recycled while the first node still bears it. -/
def InUse (call : PoolCall) : Prop :=
  st.InLap call ∧ (call = .recycle u64Max → st.regions ≠ [])

instance (call : PoolCall) : Decidable (st.InUse call) := inferInstanceAs (Decidable (_ ∧ _))

/-- The regions are the units of a log: those of a node lie in it, and are as many. -/
structure Records (cfg : PoolConfig) (log : AllocationLog) (regions : List Region) : Prop where
  inNode : ∀ region ∈ regions, ∃ n < log.count, ∃ unit, log.start n ≤ unit ∧
    unit < log.start (n + 1) ∧ region = { start := cfg.offsetOf unit, blockId := log.block n }
  counts : ∀ n < log.count, (regions.map Region.blockId).count (log.block n) =
    log.start (n + 1) - log.start n

/-- Nothing has been allocated yet, or the pool is the window on the log of its regions. -/
def Inv (cfg : PoolConfig) : Prop :=
  st.regions = [] ∧ st.pool = cfg.pool ∨
    ∃ log : AllocationLog, log.Represents cfg st.recycled st.pool ∧ Records cfg log st.regions

variable {cfg : PoolConfig} {log : AllocationLog} {regions : List Region} {diskBlockId : ℕ}
  {st next : PoolHistory}

theorem Records.one (cfg : PoolConfig) (diskBlockId : ℕ) :
    Records cfg (.one diskBlockId) [{ start := 0, blockId := diskBlockId }] := by
  have hzero : cfg.offsetOf 0 = 0 := by rw [PoolConfig.offsetOf, Nat.zero_mod, Nat.zero_mul]
  constructor
  · intro region hregion
    rw [List.mem_singleton] at hregion
    exact ⟨0, Nat.one_pos, 0, le_rfl, Nat.one_pos, by rw [hregion, hzero]; rfl⟩
  · intro n hn
    simp [AllocationLog.one]

/-- The block of a region comes no later than that of the last node. -/
theorem Records.blockId_le (h : Records cfg log regions) (hordered : log.Ordered) {region : Region}
    (hregion : region ∈ regions) : region.blockId ≤ log.block (log.count - 1) := by
  obtain ⟨n, hn, unit, -, -, rfl⟩ := h.inNode region hregion
  rcases (Nat.le_sub_one_of_lt hn).eq_or_lt with rfl | hlt
  · exact le_rfl
  · exact (hordered.block_lt_block hlt (by omega)).le

/-- The last node has a region. -/
theorem Records.exists_last (h : Records cfg log regions) (hordered : log.Ordered)
    (hcount : 0 < log.count) : ∃ region ∈ regions, region.blockId = log.block (log.count - 1) := by
  have hlast := hordered.start_lt (log.count - 1) (by omega)
  have hmem : log.block (log.count - 1) ∈ regions.map Region.blockId := by
    apply List.count_pos_iff.mp
    rw [h.counts _ (by omega)]
    omega
  obtain ⟨region, hregion, hblock⟩ := List.mem_map.mp hmem
  exact ⟨region, hregion, hblock⟩

theorem count_put (regions : List Region) (start diskBlockId blockId : ℕ) :
    ((regions ++ [(⟨start, diskBlockId⟩ : Region)]).map Region.blockId).count blockId =
      (regions.map Region.blockId).count blockId + if diskBlockId = blockId then 1 else 0 := by
  rw [List.map_append, List.count_append, List.map_singleton, List.count_singleton]
  simp only [beq_iff_eq]

/-- One more region is one more unit. -/
theorem Records.put (h : Records cfg log regions) (hordered : log.Ordered) (hcount : 0 < log.count)
    (hlast : log.block (log.count - 1) ≤ diskBlockId) : Records cfg (log.put diskBlockId)
      (regions ++ [{ start := cfg.offsetOf log.total, blockId := diskBlockId }]) := by
  obtain ⟨last, hlastNode⟩ := Nat.exists_eq_add_one.mpr hcount
  rw [show log.count - 1 = last by omega] at hlast
  have hcases := log.put_cases diskBlockId
  rw [show log.count - 1 = last by omega] at hcases
  have hend := hordered.start_lt last (by omega)
  rw [← hlastNode] at hend
  constructor
  · intro region hregion
    rcases List.mem_append.mp hregion with hold | hnew
    · obtain ⟨n, hn, unit, hfrom, hto, rfl⟩ := h.inNode region hold
      refine ⟨n, by omega, unit, ?_, ?_, by rw [log.put_block hn]⟩
      · rw [log.put_start hn]
        exact hfrom
      · rcases Nat.lt_or_eq_of_le (Nat.succ_le_of_lt hn) with hbefore | hat
        · rwa [log.put_stop hbefore]
        · rw [Nat.succ_eq_add_one] at hat
          rw [hat] at hto ⊢
          unfold AllocationLog.total at hcases
          omega
    · rw [List.mem_singleton] at hnew
      -- the region goes into the last node, or into a new one behind it
      rcases hcases with ⟨hsize, hblock, hstop⟩ | ⟨hsize, -, hblock, hstart, hstop⟩
      · refine ⟨last, by omega, log.total, ?_, ?_, ?_⟩
        · rw [log.put_start (by omega)]
          exact hend.le
        · rw [← hlastNode, hstop]
          exact Nat.lt_succ_self _
        · rw [hnew, log.put_block (by omega), hblock]
      · exact ⟨log.count, by omega, log.total, hstart.le, by omega, by rw [hnew, hblock]⟩
  · intro n hn
    rw [count_put]
    by_cases hold : n < log.count
    · have hcounts := h.counts n hold
      have hfrom := hordered.start_lt n hold
      rw [log.put_block hold, log.put_start hold, hcounts]
      by_cases hn' : n = last
      · subst hn'
        rw [← hlastNode] at hfrom ⊢
        unfold AllocationLog.total at hcases
        rcases hcases with ⟨-, hblock, hstop⟩ | ⟨-, hne, -, hstop, -⟩
        · rw [if_pos hblock, hstop]
          omega
        · rw [if_neg hne, hstop]
          rfl
      · have hblock := hordered.block_lt_block (by omega : n < last) (by omega)
        rw [log.put_stop (by omega), if_neg (by omega)]
        rfl
    · rcases hcases with ⟨hsize, -, -⟩ | ⟨hsize, hne, hblock, hstart, hstop⟩
      · omega
      · obtain rfl : n = log.count := by omega
        -- the block is after all blocks before, so it has no region yet
        have hnone : (regions.map Region.blockId).count diskBlockId = 0 := by
          rw [List.count_eq_zero]
          intro hmem
          obtain ⟨region, hregion, hid⟩ := List.mem_map.mp hmem
          have hle := h.blockId_le hordered hregion
          rw [show log.count - 1 = last by omega] at hle
          omega
        rw [hblock, hstart, hstop, hnone, if_pos rfl]
        omega

/-! ## Every run -/

theorem inv_init (cfg : PoolConfig) : (history cfg).init.Inv cfg := .inl ⟨rfl, rfl⟩

/-- The last block allocated is the largest. -/
theorem last_le (hrep : log.Represents cfg st.recycled st.pool) (hrec : Records cfg log st.regions)
    (hlap : st.InLap (.allocate diskBlockId)) : log.block (log.count - 1) ≤ diskBlockId := by
  obtain ⟨region, hregion, hblock⟩ := hrec.exists_last hrep.ordered
    ((Nat.zero_le _).trans_lt hrep.first_lt)
  exact hblock ▸ hlap.1 region hregion

theorem Inv.step (h : st.Inv cfg) {call : PoolCall} (huse : st.InUse call)
    (hstep : (history cfg).step st call = some next) : next.Inv cfg := by
  cases call with
  | allocate diskBlockId =>
      obtain ⟨⟨start, pool⟩, hallocate, rfl⟩ := Option.map_eq_some_iff.mp hstep
      rcases h with ⟨hregions, hpool⟩ | ⟨log, hrep, hrec⟩
      · obtain ⟨first, hfirst, hone⟩ := AllocationLog.allocate_fresh cfg diskBlockId st.recycled
        rw [hpool, hfirst] at hallocate
        obtain ⟨rfl, rfl⟩ := Prod.mk.inj (Option.some.inj hallocate)
        refine .inr ⟨_, hone, ?_⟩
        rw [hregions]
        exact Records.one cfg diskBlockId
      · have hlast := last_le hrep hrec huse.1
        obtain ⟨first, -, rfl, -, -, hput⟩ := hrep.allocate hlast hallocate
        refine .inr ⟨_, hput, ?_⟩
        have hmoved : Records cfg { log with first } st.regions := ⟨hrec.inNode, hrec.counts⟩
        exact hmoved.put ⟨hrep.ordered.start_lt, hrep.ordered.block_lt⟩
          ((Nat.zero_le _).trans_lt hrep.first_lt) hlast
  | recycle diskBlockId =>
      obtain rfl := Option.some.inj hstep
      rcases h with ⟨hregions, hpool⟩ | ⟨log, hrep, hrec⟩
      · have hblock : diskBlockId ≠ u64Max := fun hsame => huse.2 (by rw [hsame]) hregions
        exact .inl ⟨hregions, by rw [hpool]; exact AllocationLog.recycle_fresh cfg hblock⟩
      · exact .inr ⟨log, hrep.recycle diskBlockId, hrec⟩

/-- In every run the pool is the window on the log of its regions. -/
theorem inv_of_reachable (h : (history cfg).Reachable InUse st) : st.Inv cfg :=
  h.invariant (fun st => st.Inv cfg) (inv_init cfg) fun hinv huse hstep => hinv.step huse hstep

/-! ## Regions do not overlap -/

/-- What `allocate` returns lies in the pool, on a unit, and beside every region of a block
that has not been recycled. -/
theorem allocate_disjoint (h : (history cfg).Reachable InUse st)
    (huse : st.InUse (.allocate diskBlockId)) {start : ℕ} {pool : MemoryPool}
    (hallocate : st.pool.allocate cfg.unitLen diskBlockId = some (start, pool)) :
    start % cfg.unitLen = 0 ∧ start + cfg.unitLen ≤ cfg.capacity ∧
      ∀ region ∈ st.regions, region.blockId ∉ st.recycled →
        start + cfg.unitLen ≤ region.start ∨ region.start + cfg.unitLen ≤ start := by
  rcases inv_of_reachable h with ⟨hregions, hpool⟩ | ⟨log, hrep, hrec⟩
  · obtain ⟨first, hfirst, -⟩ := AllocationLog.allocate_fresh cfg diskBlockId st.recycled
    rw [hpool, hfirst] at hallocate
    obtain ⟨rfl, -⟩ := Prod.mk.inj (Option.some.inj hallocate)
    have hinside := cfg.offsetOf_add_le 0
    rw [PoolConfig.offsetOf, Nat.zero_mod, Nat.zero_mul] at hinside
    refine ⟨Nat.zero_mod _, hinside, fun region hregion => ?_⟩
    rw [hregions] at hregion
    cases hregion
  · obtain ⟨first, hle, rfl, hroom, hgone, -⟩ := hrep.allocate (last_le hrep hrec huse.1) hallocate
    refine ⟨Nat.mul_mod_left .., cfg.offsetOf_add_le _, fun region hregion hlive => ?_⟩
    obtain ⟨n, hn, unit, hfrom, hto, rfl⟩ := hrec.inNode region hregion
    have hwindow : first ≤ n := not_lt.mp fun hbefore => hlive (hgone n hbefore)
    have hstart := hrep.window.increasing.start_le_start hwindow hn.le
    have hstop : log.start (n + 1) ≤ log.total := hrep.window.increasing.start_le_start hn le_rfl
    exact cfg.offsetOf_disjoint (hto.trans_le hstop) (by omega)

/-- Three units of 10 bytes and a list of four nodes. -/
def threeUnits : PoolConfig :=
  { unitLen := 10
    units := 3
    listLen := 4
    unitLen_pos := by decide
    units_pos := by decide
    two_le_listLen := by decide
    inMemory := by decide }

/-- The blocks 0 and 1 have a unit each, and block 0 is recycled. -/
theorem allocate_disjoint_threeUnits : ∃ st, (history threeUnits).Reachable InUse st ∧
    st.regions = [⟨0, 0⟩, ⟨10, 1⟩] ∧ ∃ start pool,
      st.pool.allocate 10 1 = some (start, pool) ∧
        start % 10 = 0 ∧ start + 10 ≤ 30 ∧ ∀ region ∈ st.regions, region.blockId ∉ st.recycled →
          start + 10 ≤ region.start ∨ region.start + 10 ≤ start := by
  obtain ⟨st, hreach, hregions, huse, hsome⟩ :=
    @TransitionSystem.exists_reachable _ _ (history threeUnits) InUse
    [.allocate 0, .allocate 1, .recycle 0]
    (fun st => st.regions = [⟨0, 0⟩, ⟨10, 1⟩] ∧ st.InUse (.allocate 1) ∧
      (st.pool.allocate 10 1).isSome = true) _ (by decide +kernel) (by decide +kernel)
  obtain ⟨⟨start, pool⟩, hallocate⟩ := Option.isSome_iff_exists.mp hsome
  exact ⟨st, hreach, hregions, start, pool, hallocate, allocate_disjoint hreach huse hallocate⟩

/-- The value for no block is recycled before the first allocation: block 0 gets a marked
node, and its unit is handed out again when block 1 has a node. -/
theorem allocate_overlapping : ∃ st, (history threeUnits).Reachable InLap st ∧
    st.InLap (.allocate 1) ∧ (st.pool.allocate 10 1).map Prod.fst = some 0 ∧
      ⟨0, 0⟩ ∈ st.regions ∧ 0 ∉ st.recycled :=
  (history threeUnits).exists_reachable
    [.recycle u64Max, .allocate 0, .allocate 1, .allocate 1] _
    (by decide +kernel) (by decide +kernel)

end PoolHistory

/-! ## Waiting -/

namespace MemoryPool

variable (pool : MemoryPool) (len diskBlockId : ℕ)

/-- The pool when `allocate` comes to its loops: the head has moved and the cursor has
gone back to the start if it had to. -/
def prepared : MemoryPool :=
  let moved := advanceHead pool.listLen pool
  { moved with
    allocatePos := if moved.allocatePos + len > moved.capacity then 0 else moved.allocatePos }

/-- The condition of the loop of `allocate`. -/
def RegionOccupied : Prop :=
  let barrier := (pool.allocatedList pool.listHead).startOffset
  pool.allocatePos ≤ barrier ∧ barrier < pool.allocatePos + len

/-- The condition of the loop of `addNodeMeta`. -/
def ListFull : Prop := pool.listHead = pool.listTail

/-- `allocate` is in one of its loops. -/
def Waits : Prop :=
  (pool.allocatedList pool.listHead).startOffset ≠ u64Max ∧
    (pool.RegionOccupied len ∨ diskBlockId ≠ pool.lastNode.dataBlockId ∧ pool.ListFull)

instance : Decidable (pool.RegionOccupied len) := inferInstanceAs (Decidable (_ ∧ _))

instance : Decidable pool.ListFull := inferInstanceAs (Decidable (_ = _))

instance : Decidable (pool.Waits len diskBlockId) := inferInstanceAs (Decidable (_ ∧ _))

variable {pool len diskBlockId}

/-- The calls that do not return are those in a loop. -/
theorem allocate_eq_none_iff (hlen : len ≤ pool.capacity) :
    pool.allocate len diskBlockId = none ↔ (pool.prepared len).Waits len diskBlockId := by
  have hinside : ¬ (if (advanceHead pool.listLen pool).allocatePos + len >
      (advanceHead pool.listLen pool).capacity then 0
      else (advanceHead pool.listLen pool).allocatePos) + len >
        (advanceHead pool.listLen pool).capacity := by
    rw [advanceHead_capacity]
    split_ifs with hwrap <;> omega
  unfold allocate allocateFrom Waits prepared RegionOccupied ListFull lastNode addNodeMeta
  generalize advanceHead pool.listLen pool = moved at hinside ⊢
  simp only
  rw [if_neg hinside]
  split_ifs <;> simp_all

/-- `recycle` changes nothing the loops look at. -/
theorem waits_recycle (blockId : ℕ) :
    (pool.recycle blockId).Waits len diskBlockId ↔ pool.Waits len diskBlockId := by
  have hnode := fun node => @recycle_node pool blockId node
  obtain ⟨allocatedList, hrecycle⟩ := recycle_eq pool blockId
  rw [hrecycle] at hnode ⊢
  unfold Waits RegionOccupied ListFull lastNode
  rw [(hnode _).1, (hnode _).2]

theorem waits_foldl_recycle (released : List ℕ) :
    (released.foldl recycle pool).Waits len diskBlockId ↔ pool.Waits len diskBlockId := by
  induction released generalizing pool with
  | nil => exact Iff.rfl
  | cons blockId rest ih => exact ih.trans (waits_recycle blockId)

/-- A call that waits goes on waiting, whatever blocks other threads recycle. -/
theorem waits_for_ever (h : (pool.prepared len).Waits len diskBlockId) (released : List ℕ) :
    (released.foldl recycle (pool.prepared len)).Waits len diskBlockId :=
  (waits_foldl_recycle released).mpr h

end MemoryPool

namespace PoolHistory

/-- A list of two nodes. -/
def twoNodes : PoolConfig := { threeUnits with listLen := 2, two_le_listLen := le_rfl }

/-- The list is full with the blocks 0 and 1, and a unit of block 2 waits. -/
theorem waits_for_ever_twoNodes : ∃ st, (history twoNodes).Reachable InUse st ∧
    (st.pool.prepared 10).ListFull ∧
      ([0, 1].foldl MemoryPool.recycle (st.pool.prepared 10)).Waits 10 2 := by
  obtain ⟨st, hreach, hfull, hwaits⟩ :=
    @TransitionSystem.exists_reachable _ _ (history twoNodes) InUse [.allocate 0, .allocate 1]
      (fun st => (st.pool.prepared 10).ListFull ∧ (st.pool.prepared 10).Waits 10 2) _
      (by decide +kernel) (by decide +kernel)
  exact ⟨st, hreach, hfull, MemoryPool.waits_for_ever hwaits [0, 1]⟩

/-- The units of block 0 fill the pool.  The next one waits, also when block 0, the only one
in the list, has been recycled. -/
theorem waits_after_recycle : ∃ st, (history threeUnits).Reachable InUse st ∧
    st.pool.allocate 10 0 = none ∧ (∀ region ∈ st.regions, region.blockId ∈ [0]) ∧
      ([0].foldl MemoryPool.recycle (st.pool.prepared 10)).Waits 10 0 := by
  obtain ⟨st, hreach, hnone, hregions, hwaits⟩ :=
    @TransitionSystem.exists_reachable _ _ (history threeUnits) InUse
      [.allocate 0, .allocate 0, .allocate 0]
      (fun st => (st.pool.allocate 10 0).isNone = true ∧
        (∀ region ∈ st.regions, region.blockId ∈ [0]) ∧
          ([0].foldl MemoryPool.recycle (st.pool.prepared 10)).Waits 10 0) _
      (by decide +kernel) (by decide +kernel)
  exact ⟨st, hreach, Option.isNone_iff_eq_none.mp hnone, hregions, hwaits⟩

end PoolHistory

end TrafficDatabase
