import TrafficDatabase.Index.PoolHistory

/-!
# The length of a block

`getLenOfDiskID` takes the distance, around the pool, from the start of the block's node to
the start of the next one, or to the cursor for the last node.  Two things make it wrong.
The search starts at the head and stops at the tail, so it finds nothing in a list that is
full, where both are the same.  And the test for the last node does not go round the list:
the node in the last place is followed by place 0, where a node that was dropped may be.
-/

namespace TrafficDatabase

namespace PoolConfig

variable (cfg : PoolConfig)

/-- The bytes from one offset of the pool to another, as `getLenOfDiskID` computes them. -/
def span (startOffset endOffset : ℕ) : ℕ :=
  if endOffset > startOffset then endOffset - startOffset
  else (cfg.capacity + 2 ^ 64 - startOffset + endOffset) % 2 ^ 64

variable {cfg} {startOffset endOffset unit stop : ℕ}

/-- In the pool nothing wraps but the pool itself. -/
theorem span_eq (hstart : startOffset < cfg.capacity) :
    cfg.span startOffset endOffset =
      if endOffset > startOffset then endOffset - startOffset
      else cfg.capacity - startOffset + endOffset := by
  have hcapacity : cfg.capacity < 2 ^ 64 := cfg.capacity_lt.trans_le (Nat.sub_le ..)
  unfold span
  split_ifs with hle
  · rfl
  · rw [show cfg.capacity + 2 ^ 64 - startOffset + endOffset =
        cfg.capacity - startOffset + endOffset + 2 ^ 64 by omega, Nat.add_mod_right]
    exact Nat.mod_eq_of_lt (by omega)

/-- The span tells the offsets of the pool apart. -/
theorem span_injective (hstart : startOffset < cfg.capacity) {first second : ℕ}
    (hfirst : first < cfg.capacity) (hsecond : second < cfg.capacity)
    (h : cfg.span startOffset first = cfg.span startOffset second) : first = second := by
  rw [span_eq hstart, span_eq hstart] at h
  split_ifs at h <;> omega

/-- The span between the offsets of two units that are at most the pool apart. -/
theorem span_offsetOf (hlt : unit < stop) (hle : stop ≤ unit + cfg.units) :
    cfg.span (cfg.offsetOf unit) (cfg.offsetOf stop) = (stop - unit) * cfg.unitLen := by
  obtain ⟨len, rfl⟩ := Nat.exists_eq_add_of_le hlt.le
  have hunit : unit % cfg.units < cfg.units := Nat.mod_lt _ cfg.units_pos
  have hcapacity : cfg.capacity = cfg.units * cfg.unitLen := rfl
  rw [span_eq (cfg.offsetOf_lt_capacity _), Nat.add_sub_cancel_left, hcapacity]
  unfold offsetOf
  rcases hle.eq_or_lt with hfull | hpart
  · -- once around the pool
    obtain rfl : len = cfg.units := by omega
    rw [Nat.add_mod_right, if_neg (lt_irrefl _)]
    exact Nat.sub_add_cancel (Nat.mul_le_mul_right _ hunit.le)
  · rw [add_mod_of_lt (by omega)]
    split_ifs with hinside hgt hgt
    · rw [← Nat.sub_mul, Nat.add_sub_cancel_left]
    · exact absurd (Nat.mul_lt_mul_of_pos_right (by omega) cfg.unitLen_pos) hgt
    · exact absurd (Nat.lt_of_mul_lt_mul_right hgt) (by omega)
    · rw [← Nat.sub_mul, ← Nat.add_mul]
      congr 1
      omega

theorem cursorAt_mod (hunit : 0 < unit) :
    cfg.cursorAt unit % cfg.capacity = cfg.offsetOf unit := by
  rw [cfg.cursorAt_eq hunit]
  split_ifs with hend
  · rw [Nat.mod_self, cfg.offsetOf_eq_zero hend]
  · exact Nat.mod_eq_of_lt (cfg.offsetOf_lt_capacity _)

/-- The end of the pool is as good as its start. -/
theorem span_cursorAt (hlt : unit < stop) (hle : stop ≤ unit + cfg.units) :
    cfg.span (cfg.offsetOf unit) (cfg.cursorAt stop) = (stop - unit) * cfg.unitLen := by
  have hspan := span_offsetOf hlt hle
  have hstart := cfg.offsetOf_lt_capacity unit
  rw [cfg.cursorAt_eq (by omega)]
  split_ifs with hend
  · rw [cfg.offsetOf_eq_zero hend, span_eq hstart, if_neg (Nat.not_lt_zero _),
      Nat.add_zero] at hspan
    rw [span_eq hstart, if_pos hstart, hspan]
  · exact hspan

end PoolConfig

/-! ## The length of a node -/

namespace AllocationLog.Window

variable {cfg : PoolConfig} {log : AllocationLog} {pool : MemoryPool} {diskBlockId n : ℕ}

/-- The bytes of the units of a node. -/
theorem length_le (h : log.Window cfg pool) (hn : log.first ≤ n)
    (hn' : n < log.count) : log.start (n + 1) ≤ log.start n + cfg.units :=
  calc log.start (n + 1) ≤ log.total := h.increasing.start_le_start hn' le_rfl
    _ ≤ log.start log.first + cfg.units := h.total_le
    _ ≤ log.start n + cfg.units :=
      Nat.add_le_add_right (h.increasing.start_le_start hn hn'.le) _

/-- What is computed for a block whose node is found. -/
theorem getLenOfDiskID_eq (h : log.Window cfg pool) (hn : log.first ≤ n) (hn' : n < log.count)
    (hnode : pool.nodeOf diskBlockId = some (n % cfg.listLen)) :
    pool.getLenOfDiskID diskBlockId =
      cfg.span (cfg.offsetOf (log.start n)) (pool.endOffset (n % cfg.listLen)) := by
  unfold MemoryPool.getLenOfDiskID
  rw [hnode]
  simp only [h.start n hn hn', h.capacity]
  rfl

/-- A node before the last one ends where the next one starts. -/
theorem endOffset_of_lt (h : log.Window cfg pool)
    (hfull : log.count < log.first + cfg.listLen) (hn : log.first ≤ n) (hn' : n + 1 < log.count) :
    pool.endOffset (n % cfg.listLen) = cfg.offsetOf (log.start (n + 1)) := by
  have hlist := cfg.two_le_listLen
  have hne : n % cfg.listLen + 1 ≠ pool.listTail := by
    rw [h.tail]
    intro hlast
    have hnext : (n + 1) % cfg.listLen = log.count % cfg.listLen := by
      have hlt := Nat.mod_lt log.count (by omega : 0 < cfg.listLen)
      rw [← Nat.mod_add_mod, hlast, Nat.mod_mod]
    exact ne_tail hfull (by omega) hn' hnext
  rw [MemoryPool.endOffset, if_pos hne, h.nextNode, h.start _ (by omega) hn']

/-- The last node ends at the cursor, unless it is in the last place of the list. -/
theorem endOffset_last (h : log.Window cfg pool) (hn : n + 1 = log.count) :
    pool.endOffset (n % cfg.listLen) =
      if pool.listTail = 0 then (pool.allocatedList 0).startOffset else cfg.cursorAt log.total := by
  have hlist := cfg.two_le_listLen
  have hlt := Nat.mod_lt n (by omega : 0 < cfg.listLen)
  have htail : pool.listTail = (n % cfg.listLen + 1) % cfg.listLen := by
    rw [h.tail, ← hn, Nat.mod_add_mod]
  have hnext : pool.nextNode (n % cfg.listLen) = pool.listTail := by
    rw [h.nextNode, hn, h.tail]
  unfold MemoryPool.endOffset
  by_cases hlast : n % cfg.listLen + 1 = cfg.listLen
  · rw [hlast, Nat.mod_self] at htail
    rw [hnext, htail, if_pos (Nat.succ_ne_zero _), if_pos rfl]
  · rw [Nat.mod_eq_of_lt (by omega)] at htail
    rw [if_neg (not_not.mpr htail.symm), if_neg (by omega), h.cursor]

/-- The length of a node that is found is right, unless the node is the last one and in the
last place. -/
theorem getLenOfDiskID_iff (h : log.Window cfg pool)
    (hfull : log.count < log.first + cfg.listLen) (hn : log.first ≤ n) (hn' : n < log.count)
    (hnode : pool.nodeOf diskBlockId = some (n % cfg.listLen)) :
    pool.getLenOfDiskID diskBlockId = (log.start (n + 1) - log.start n) * cfg.unitLen ↔
      (n + 1 = log.count → pool.listTail = 0 →
        (pool.allocatedList 0).startOffset = pool.allocatePos % pool.capacity) := by
  have hlt := h.increasing n hn'
  have hle := h.length_le hn hn'
  rw [h.getLenOfDiskID_eq hn hn' hnode]
  by_cases hlast : n + 1 = log.count
  · rw [h.endOffset_last hlast, h.cursor, h.capacity, PoolConfig.cursorAt_mod h.total_pos, hlast]
    rw [hlast] at hlt hle
    by_cases htail : pool.listTail = 0
    · rw [if_pos htail]
      constructor
      · intro hspan _ _
        rw [← PoolConfig.span_offsetOf hlt hle] at hspan
        exact PoolConfig.span_injective (cfg.offsetOf_lt_capacity _) h.place_lt
          (cfg.offsetOf_lt_capacity _) hspan
      · intro heq
        rw [heq rfl htail]
        exact PoolConfig.span_offsetOf hlt hle
    · rw [if_neg htail]
      exact ⟨fun _ _ hzero => absurd hzero htail, fun _ => PoolConfig.span_cursorAt hlt hle⟩
  · rw [h.endOffset_of_lt hfull hn (by omega)]
    exact ⟨fun _ hat => absurd hat hlast, fun _ => PoolConfig.span_offsetOf hlt hle⟩

end AllocationLog.Window

/-- Where blocks come in order, the node that is found for a block is the only one. -/
theorem AllocationLog.Represents.nodeOf_block {cfg : PoolConfig} {log : AllocationLog}
    {recycled : List ℕ} {pool : MemoryPool} {n : ℕ} (h : log.Represents cfg recycled pool)
    (hfull : log.count < log.first + cfg.listLen) (hn : log.first ≤ n) (hn' : n < log.count) :
    pool.nodeOf (log.block n) = some (n % cfg.listLen) := by
  rcases h.window.nodeOf_cases hfull with ⟨hnone, -⟩ | ⟨m, hm, hm', hblock, hnode⟩
  · exact absurd rfl (hnone n hn hn')
  · rw [hnode, h.ordered.block_injective hm' hn' hblock]

namespace PoolHistory

variable {cfg : PoolConfig} {st : PoolHistory}

/-- All bytes of a block that has been allocated and not recycled are counted, and none of
a block that has never been allocated. -/
def LengthExact (cfg : PoolConfig) (st : PoolHistory) (diskBlockId : ℕ) : Prop :=
  (diskBlockId ∈ st.regions.map Region.blockId → diskBlockId ∉ st.recycled →
    st.pool.getLenOfDiskID diskBlockId =
      cfg.unitLen * (st.regions.map Region.blockId).count diskBlockId) ∧
  (diskBlockId ∉ st.regions.map Region.blockId → st.pool.getLenOfDiskID diskBlockId = 0)

/-- The list is not full, and the block's node is not the last one in the last place, unless
what place 0 holds happens to start where the cursor is; and the block is not the value the
first node bears before the first allocation. -/
def LengthFound (st : PoolHistory) (diskBlockId : ℕ) : Prop :=
  (diskBlockId ∈ st.regions.map Region.blockId → diskBlockId ∉ st.recycled →
    ¬ st.pool.ListFull ∧ (diskBlockId = st.pool.lastNode.dataBlockId → st.pool.listTail = 0 →
      (st.pool.allocatedList 0).startOffset = st.pool.allocatePos % st.pool.capacity)) ∧
  (st.regions = [] → diskBlockId ≠ u64Max)

/-- Before the first allocation only the value for no block is found. -/
theorem lengthExact_fresh (hregions : st.regions = []) (hpool : st.pool = cfg.pool)
    (diskBlockId : ℕ) : LengthExact cfg st diskBlockId ↔ LengthFound st diskBlockId := by
  have hnone : diskBlockId ∉ st.regions.map Region.blockId := by
    rw [hregions]
    exact List.not_mem_nil
  have hlen : st.pool.getLenOfDiskID diskBlockId = 0 ↔ diskBlockId ≠ u64Max := by
    rw [hpool]
    by_cases hblock : diskBlockId = u64Max
    · have hlen : cfg.pool.getLenOfDiskID u64Max = cfg.span u64Max 0 := by
        rw [MemoryPool.getLenOfDiskID, AllocationLog.nodeOf_fresh_none]
        rfl
      have hspan : cfg.span u64Max 0 = cfg.capacity + 1 := by
        have hcapacity := cfg.capacity_lt
        rw [PoolConfig.span, if_neg (Nat.not_lt_zero _)]
        unfold u64Max at hcapacity ⊢
        omega
      rw [hblock, hlen, hspan]
      exact ⟨fun h => absurd h (Nat.succ_ne_zero _), fun h => absurd rfl h⟩
    · rw [MemoryPool.getLenOfDiskID, AllocationLog.nodeOf_fresh cfg hblock]
      exact ⟨fun _ => hblock, fun _ => rfl⟩
  constructor
  · exact fun h => ⟨fun hmem => absurd hmem hnone, fun _ => hlen.mp (h.2 hnone)⟩
  · exact fun h => ⟨fun hmem => absurd hmem hnone, fun _ => hlen.mpr (h.2 hregions)⟩

/-- `getLenOfDiskID` is right about a block exactly where it finds its node and its end. -/
theorem getLenOfDiskID_exact_iff (h : (history cfg).Reachable InUse st) (diskBlockId : ℕ) :
    LengthExact cfg st diskBlockId ↔ LengthFound st diskBlockId := by
  rcases inv_of_reachable h with ⟨hregions, hpool⟩ | ⟨log, hrep, hrec⟩
  · exact lengthExact_fresh hregions hpool diskBlockId
  have hcount : 0 < log.count := (Nat.zero_le _).trans_lt hrep.first_lt
  have hsome : st.regions ≠ [] := by
    obtain ⟨region, hregion, -⟩ := hrec.exists_last hrep.ordered hcount
    exact List.ne_nil_of_mem hregion
  -- a block without regions has no node with a length
  have hnever : diskBlockId ∉ st.regions.map Region.blockId →
      st.pool.getLenOfDiskID diskBlockId = 0 := by
    intro hnone
    cases hnode : st.pool.nodeOf diskBlockId with
    | none => rw [MemoryPool.getLenOfDiskID, hnode]
    | some node =>
        obtain ⟨n, -, hn, rfl, -⟩ := hrep.window.nodeOf_eq_some hnode
        have hlt := hrep.ordered.start_lt n hn
        have hcounts := hrec.counts n hn
        rw [List.count_eq_zero.mpr hnone] at hcounts
        omega
  -- the node of another block ends where the next one begins, or at the cursor
  have hlive : diskBlockId ∈ st.regions.map Region.blockId → diskBlockId ∉ st.recycled →
      (st.pool.getLenOfDiskID diskBlockId =
          cfg.unitLen * (st.regions.map Region.blockId).count diskBlockId ↔
        ¬ st.pool.ListFull ∧ (diskBlockId = st.pool.lastNode.dataBlockId → st.pool.listTail = 0 →
          (st.pool.allocatedList 0).startOffset = st.pool.allocatePos % st.pool.capacity)) := by
    intro hmem hkept
    obtain ⟨region, hregion, rfl⟩ := List.mem_map.mp hmem
    obtain ⟨n, hn, unit, -, -, rfl⟩ := hrec.inNode region hregion
    have hwindow : log.first ≤ n := not_lt.mp fun hbefore => hkept (hrep.gone n hbefore)
    have hlt := hrep.ordered.start_lt n hn
    have hlast : log.block n = st.pool.lastNode.dataBlockId ↔ n + 1 = log.count := by
      rw [hrep.window.lastNode_block]
      constructor
      · intro hblock
        have := hrep.ordered.block_injective hn (by omega) hblock
        omega
      · intro hat
        rw [← hat, Nat.add_sub_cancel]
    rw [hrec.counts n hn, MemoryPool.ListFull, hrep.window.full_iff, hlast, Nat.mul_comm]
    rcases hrep.count_le.eq_or_lt with hfull | hfull
    · have hzero : st.pool.getLenOfDiskID (log.block n) = 0 := by
        rw [MemoryPool.getLenOfDiskID, hrep.window.nodeOf_of_full hfull]
      have hpos := Nat.mul_pos (Nat.sub_pos_of_lt hlt) cfg.unitLen_pos
      exact ⟨fun heq => absurd (hzero.symm.trans heq) hpos.ne, fun hnot => absurd hfull hnot.1⟩
    · rw [hrep.window.getLenOfDiskID_iff hfull hwindow hn (hrep.nodeOf_block hfull hwindow hn)]
      exact ⟨fun hend => ⟨hfull.ne, hend⟩, fun hend => hend.2⟩
  constructor
  · exact fun hexact => ⟨fun hmem hkept => (hlive hmem hkept).mp (hexact.1 hmem hkept),
      fun hregions => absurd hregions hsome⟩
  · exact fun hfound => ⟨fun hmem hkept => (hlive hmem hkept).mpr (hfound.1 hmem hkept), hnever⟩

/-- The blocks 0 and 1 have a unit each in a list with room. -/
theorem getLenOfDiskID_exact_iff_threeUnits : ∃ st, (history threeUnits).Reachable InUse st ∧
    st.regions = [⟨0, 0⟩, ⟨10, 1⟩] ∧ (LengthExact threeUnits st 1 ↔ LengthFound st 1) := by
  obtain ⟨st, hreach, hregions⟩ :=
    @TransitionSystem.exists_reachable _ _ (history threeUnits) InUse [.allocate 0, .allocate 1]
      (fun st => st.regions = [⟨0, 0⟩, ⟨10, 1⟩]) _ (by decide +kernel) (by decide +kernel)
  exact ⟨st, hreach, hregions, getLenOfDiskID_exact_iff hreach 1⟩

/-- A full list of two nodes, in which block 0 has no length; and block 3 in the last place
of four, behind which the dropped node of block 0 is: its 10 bytes are taken for 30. -/
theorem getLenOfDiskID_wrong :
    (∃ st, (history twoNodes).Reachable InLap st ∧ st.regions = [⟨0, 0⟩, ⟨10, 1⟩] ∧
      st.recycled = [] ∧ st.pool.getLenOfDiskID 0 = 0) ∧
    ∃ st, (history threeUnits).Reachable InLap st ∧
      st.regions = [⟨0, 0⟩, ⟨10, 1⟩, ⟨20, 2⟩, ⟨0, 3⟩] ∧ st.recycled = [0] ∧
        st.pool.getLenOfDiskID 3 = 30 :=
  ⟨(history twoNodes).exists_reachable [.allocate 0, .allocate 1] _
    (by decide +kernel) (by decide +kernel),
  (history threeUnits).exists_reachable
    [.allocate 0, .allocate 1, .allocate 2, .recycle 0, .allocate 3] _
    (by decide +kernel) (by decide +kernel)⟩

end PoolHistory

end TrafficDatabase
