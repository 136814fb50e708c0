import TrafficDatabase.Library.TransitionSystem
import TrafficDatabase.Index.MemoryPool

/-!
# What a memory pool has handed out

A pool is a window on a log that only grows: `AllocationLog` numbers all units ever
allocated, and all nodes ever added to the list, without a wrap.  Node `n` is for the
block `block n` and has the units from `start n` to `start (n + 1)`; the nodes from
`first` to `count` are in the list.  `Window` says which pool that is: offsets are unit
numbers modulo the number of units, list indices node numbers modulo `list_len`.

Each operation of the pool is one of the log (`Window.advanceHead`,
`Window.allocateFrom_eq`, `Window.recycle`), so the wraps of the two rings are met once,
here.  The window is never longer than the pool: `allocate` waits until the unit it is
about to hand out is not the first unit of the head node.

`Represents` is about logs whose blocks come in order and have one node each.
-/

namespace TrafficDatabase

/-- The arguments of the constructor of a pool.  The pool is a region of memory, so the
sums of an offset and a unit are no larger than a `u_int64_t`. -/
structure PoolConfig where
  unitLen : ℕ
  units : ℕ
  listLen : ℕ
  unitLen_pos : 0 < unitLen
  units_pos : 0 < units
  two_le_listLen : 2 ≤ listLen
  inMemory : units * unitLen + unitLen ≤ u64Max

namespace PoolConfig

variable (cfg : PoolConfig)

def capacity : ℕ := cfg.units * cfg.unitLen

/-- The pool as constructed. -/
def pool : MemoryPool := MemoryPool.fresh cfg.capacity cfg.listLen

theorem new_eq : MemoryPool.new cfg.capacity cfg.listLen cfg.unitLen = some cfg.pool :=
  if_neg (not_not.mpr (Nat.mul_mod_left ..))

/-- Where the unit of a number lies in the pool. -/
def offsetOf (unit : ℕ) : ℕ := unit % cfg.units * cfg.unitLen

theorem offsetOf_add_le (unit : ℕ) : cfg.offsetOf unit + cfg.unitLen ≤ cfg.capacity := by
  have hlt : unit % cfg.units < cfg.units := Nat.mod_lt _ cfg.units_pos
  unfold offsetOf capacity
  calc unit % cfg.units * cfg.unitLen + cfg.unitLen
      = (unit % cfg.units + 1) * cfg.unitLen := (Nat.succ_mul ..).symm
    _ ≤ cfg.units * cfg.unitLen := Nat.mul_le_mul_right _ hlt

theorem offsetOf_lt_capacity (unit : ℕ) : cfg.offsetOf unit < cfg.capacity :=
  (Nat.lt_add_of_pos_right cfg.unitLen_pos).trans_le (cfg.offsetOf_add_le unit)

theorem capacity_lt : cfg.capacity < u64Max :=
  (Nat.lt_add_of_pos_right cfg.unitLen_pos).trans_le cfg.inMemory

theorem offsetOf_lt (unit : ℕ) : cfg.offsetOf unit < u64Max :=
  (cfg.offsetOf_lt_capacity unit).trans cfg.capacity_lt

/-- A unit starts inside another one only if it is the same. -/
theorem mod_eq_of_offsetOf {unit other : ℕ} (hle : cfg.offsetOf unit ≤ cfg.offsetOf other)
    (hlt : cfg.offsetOf other < cfg.offsetOf unit + cfg.unitLen) :
    other % cfg.units = unit % cfg.units := by
  unfold offsetOf at hle hlt
  have hge := Nat.le_of_mul_le_mul_right hle cfg.unitLen_pos
  rw [← Nat.succ_mul] at hlt
  have := Nat.lt_of_mul_lt_mul_right hlt
  omega

/-- Units that are less than the pool apart do not overlap. -/
theorem offsetOf_disjoint {unit other : ℕ} (hlt : other < unit) (hnear : unit < other + cfg.units) :
    cfg.offsetOf unit + cfg.unitLen ≤ cfg.offsetOf other ∨
      cfg.offsetOf other + cfg.unitLen ≤ cfg.offsetOf unit := by
  have hne : ∀ {first second : ℕ}, first < second + cfg.units → second < first + cfg.units →
      first ≠ second → cfg.offsetOf first ≤ cfg.offsetOf second →
        cfg.offsetOf first + cfg.unitLen ≤ cfg.offsetOf second := by
    intro first second hfirst hsecond hdistinct hle
    by_contra hinside
    exact hdistinct (eq_of_mod_eq (cfg.mod_eq_of_offsetOf hle (not_le.mp hinside)).symm
      hfirst hsecond)
  rcases Nat.le_total (cfg.offsetOf unit) (cfg.offsetOf other) with hle | hle
  · exact .inl (hne hnear (by omega) hlt.ne' hle)
  · exact .inr (hne (by omega) hnear hlt.ne hle)

/-- `allocate_pos` behind the unit before the one of a number; it goes back to the start of
the pool only when the next unit is allocated. -/
def cursorAt (unit : ℕ) : ℕ := ((unit - 1) % cfg.units + 1) * cfg.unitLen

theorem offsetOf_eq_zero {unit : ℕ} (h : unit % cfg.units = 0) : cfg.offsetOf unit = 0 := by
  rw [offsetOf, h, Nat.zero_mul]

/-- The cursor is where the next unit starts, or at the end of the pool if that is the
first one. -/
theorem cursorAt_eq {unit : ℕ} (hunit : 0 < unit) :
    cfg.cursorAt unit = if unit % cfg.units = 0 then cfg.capacity else cfg.offsetOf unit := by
  obtain ⟨before, rfl⟩ := Nat.exists_eq_add_one.mpr hunit
  have hlt : before % cfg.units < cfg.units := Nat.mod_lt _ cfg.units_pos
  have hnext : (before + 1) % cfg.units = (before % cfg.units + 1) % cfg.units :=
    (Nat.mod_add_mod ..).symm
  unfold cursorAt offsetOf capacity
  rw [Nat.add_sub_cancel, hnext]
  by_cases hlast : before % cfg.units + 1 = cfg.units
  · rw [hlast, Nat.mod_self, if_pos rfl]
  · have hmod : (before % cfg.units + 1) % cfg.units = before % cfg.units + 1 :=
      Nat.mod_eq_of_lt (by omega)
    rw [hmod, if_neg (Nat.succ_ne_zero _)]

/-- Where `allocate` finds room for a unit. -/
theorem wrap_cursorAt {unit : ℕ} (hunit : 0 < unit) :
    (if cfg.cursorAt unit + cfg.unitLen > cfg.capacity then 0 else cfg.cursorAt unit) =
      cfg.offsetOf unit := by
  rw [cfg.cursorAt_eq hunit]
  split_ifs with hend hover hover
  · exact (cfg.offsetOf_eq_zero hend).symm
  · exact absurd (Nat.lt_add_of_pos_right cfg.unitLen_pos) hover
  · exact absurd hover (not_lt.mpr (cfg.offsetOf_add_le unit))
  · rfl

theorem cursorAt_succ (unit : ℕ) : cfg.cursorAt (unit + 1) = cfg.offsetOf unit + cfg.unitLen := by
  rw [cursorAt, offsetOf, Nat.add_sub_cancel, Nat.succ_mul]

end PoolConfig

/-- All units and nodes there ever were, and the nodes that are still in the list. -/
structure AllocationLog where
  block : ℕ → ℕ
  start : ℕ → ℕ
  first : ℕ
  count : ℕ

namespace AllocationLog

/-- The log when the first unit has been allocated. -/
def one (diskBlockId : ℕ) : AllocationLog :=
  { block := fun _ => diskBlockId, start := id, first := 0, count := 1 }

variable (log : AllocationLog)

/-- The units allocated so far. -/
def total : ℕ := log.start log.count

/-- One more unit for a block. -/
def put (diskBlockId : ℕ) : AllocationLog :=
  if diskBlockId = log.block (log.count - 1) then
    { log with start := Function.update log.start log.count (log.total + 1) }
  else
    { log with
      block := Function.update log.block log.count diskBlockId
      start := Function.update log.start (log.count + 1) (log.total + 1)
      count := log.count + 1 }

theorem put_total (diskBlockId : ℕ) : (log.put diskBlockId).total = log.total + 1 := by
  unfold put
  split_ifs <;> simp [total]

theorem put_first (diskBlockId : ℕ) : (log.put diskBlockId).first = log.first := by
  unfold put
  split_ifs <;> rfl

/-- It does not matter which nodes are in the list. -/
theorem put_dropped (first diskBlockId : ℕ) :
    { log with first }.put diskBlockId = { log.put diskBlockId with first } := by
  unfold put
  split_ifs <;> rfl

theorem put_block {n : ℕ} (hn : n < log.count) (diskBlockId : ℕ) :
    (log.put diskBlockId).block n = log.block n := by
  unfold put
  split_ifs
  · rfl
  · exact Function.update_of_ne hn.ne _ _

theorem put_start {n : ℕ} (hn : n < log.count) (diskBlockId : ℕ) :
    (log.put diskBlockId).start n = log.start n := by
  unfold put
  split_ifs
  · exact Function.update_of_ne hn.ne _ _
  · exact Function.update_of_ne (by omega) _ _

/-- A node before the last one ends where it did. -/
theorem put_stop {n : ℕ} (hn : n + 1 < log.count) (diskBlockId : ℕ) :
    (log.put diskBlockId).start (n + 1) = log.start (n + 1) :=
  log.put_start hn diskBlockId

/-- The unit goes to the last node or to a new one behind it. -/
theorem put_cases (diskBlockId : ℕ) :
    ((log.put diskBlockId).count = log.count ∧ diskBlockId = log.block (log.count - 1) ∧
      (log.put diskBlockId).start log.count = log.total + 1) ∨
    ((log.put diskBlockId).count = log.count + 1 ∧ diskBlockId ≠ log.block (log.count - 1) ∧
      (log.put diskBlockId).block log.count = diskBlockId ∧
      (log.put diskBlockId).start log.count = log.total ∧
      (log.put diskBlockId).start (log.count + 1) = log.total + 1) := by
  unfold put
  split_ifs with hsame
  · exact .inl ⟨rfl, hsame, Function.update_self ..⟩
  · refine .inr ⟨rfl, hsame, Function.update_self .., ?_, Function.update_self ..⟩
    exact Function.update_of_ne (by omega) _ _

/-- Nodes are not empty. -/
def Increasing : Prop := ∀ n < log.count, log.start n < log.start (n + 1)

/-- Nodes are not empty and their blocks come in order. -/
structure Ordered : Prop where
  start_lt : ∀ n < log.count, log.start n < log.start (n + 1)
  block_lt : ∀ n, n + 1 < log.count → log.block n < log.block (n + 1)

variable {log}

theorem ordered_one (diskBlockId : ℕ) : (one diskBlockId).Ordered :=
  { start_lt := fun n _ => Nat.lt_succ_self n
    block_lt := fun n hn => by
      simp only [one] at hn
      omega }

theorem Increasing.start_lt_start (h : log.Increasing) {n m : ℕ} (hlt : n < m)
    (hm : m ≤ log.count) : log.start n < log.start m := by
  induction m with
  | zero => omega
  | succ m ih =>
      have hstep := h m (by omega)
      rcases Nat.lt_succ_iff_lt_or_eq.mp hlt with hbefore | rfl
      · exact (ih hbefore (by omega)).trans hstep
      · exact hstep

theorem Increasing.start_le_start (h : log.Increasing) {n m : ℕ} (hle : n ≤ m)
    (hm : m ≤ log.count) : log.start n ≤ log.start m := by
  rcases hle.eq_or_lt with rfl | hlt
  · exact le_rfl
  · exact (h.start_lt_start hlt hm).le

/-- A unit has one node. -/
theorem Increasing.node_eq (h : log.Increasing) {n m unit : ℕ} (hn : n < log.count)
    (hm : m < log.count) (hstart : log.start n ≤ unit) (hstop : unit < log.start (n + 1))
    (hstart' : log.start m ≤ unit) (hstop' : unit < log.start (m + 1)) : n = m := by
  rcases Nat.lt_trichotomy n m with hlt | rfl | hlt
  · have hle := h.start_le_start (show n + 1 ≤ m from hlt) hm.le
    omega
  · rfl
  · have hle := h.start_le_start (show m + 1 ≤ n from hlt) hn.le
    omega

theorem Ordered.increasing (h : log.Ordered) : log.Increasing := h.start_lt

/-- One more unit leaves no node empty. -/
theorem Increasing.put (h : log.Increasing) (diskBlockId : ℕ) :
    (log.put diskBlockId).Increasing := by
  unfold AllocationLog.put
  split_ifs with hsame
  · intro n hn
    have hn : n < log.count := hn
    show Function.update log.start log.count (log.total + 1) n <
      Function.update log.start log.count (log.total + 1) (n + 1)
    rw [Function.update_of_ne hn.ne]
    by_cases hlast : n + 1 = log.count
    · rw [hlast, Function.update_self]
      exact (h.start_le_start hn.le le_rfl).trans_lt (Nat.lt_succ_self _)
    · rw [Function.update_of_ne hlast]
      exact h n hn
  · intro n hn
    have hn : n < log.count + 1 := hn
    show Function.update log.start (log.count + 1) (log.total + 1) n <
      Function.update log.start (log.count + 1) (log.total + 1) (n + 1)
    rw [Function.update_of_ne (by omega)]
    by_cases hlast : n = log.count
    · rw [hlast, Function.update_self]
      exact Nat.lt_succ_self _
    · rw [Function.update_of_ne (by omega)]
      exact h n (by omega)

theorem Ordered.block_lt_block (h : log.Ordered) {n m : ℕ} (hlt : n < m) (hm : m < log.count) :
    log.block n < log.block m := by
  induction m with
  | zero => omega
  | succ m ih =>
      have hstep := h.block_lt m hm
      rcases Nat.lt_succ_iff_lt_or_eq.mp hlt with hbefore | rfl
      · exact (ih hbefore (by omega)).trans hstep
      · exact hstep

theorem Ordered.block_injective (h : log.Ordered) {n m : ℕ} (hn : n < log.count)
    (hm : m < log.count) (hblock : log.block n = log.block m) : n = m := by
  rcases Nat.lt_trichotomy n m with hlt | rfl | hlt
  · exact absurd hblock (h.block_lt_block hlt hm).ne
  · rfl
  · exact absurd hblock (h.block_lt_block hlt hn).ne'

/-- A block that comes after all others keeps the order. -/
theorem Ordered.put (h : log.Ordered) {diskBlockId : ℕ}
    (hle : log.block (log.count - 1) ≤ diskBlockId) : (log.put diskBlockId).Ordered := by
  refine ⟨h.increasing.put diskBlockId, ?_⟩
  unfold AllocationLog.put
  split_ifs with hsame
  · exact h.block_lt
  · intro n hn
    have hn : n + 1 < log.count + 1 := hn
    show Function.update log.block log.count diskBlockId n <
      Function.update log.block log.count diskBlockId (n + 1)
    rw [Function.update_of_ne (by omega)]
    by_cases hlast : n + 1 = log.count
    · rw [hlast, Function.update_self, show n = log.count - 1 by omega]
      omega
    · rw [Function.update_of_ne hlast]
      exact h.block_lt n (by omega)

/-! ## The window on a log -/

/-- The pool is the window on the log from node `first` on. -/
structure Window (cfg : PoolConfig) (log : AllocationLog) (pool : MemoryPool) : Prop where
  increasing : log.Increasing
  first_lt : log.first < log.count
  count_le : log.count ≤ log.first + cfg.listLen
  total_le : log.total ≤ log.start log.first + cfg.units
  capacity : pool.capacity = cfg.capacity
  listLen : pool.listLen = cfg.listLen
  head : pool.listHead = log.first % cfg.listLen
  tail : pool.listTail = log.count % cfg.listLen
  cursor : pool.allocatePos = cfg.cursorAt log.total
  block : ∀ n, log.first ≤ n → n < log.count →
    (pool.allocatedList (n % cfg.listLen)).dataBlockId = log.block n
  start : ∀ n, log.first ≤ n → n < log.count →
    (pool.allocatedList (n % cfg.listLen)).startOffset = cfg.offsetOf (log.start n)
  place_lt : (pool.allocatedList 0).startOffset < cfg.capacity

/-- What a call of `allocate` has done: it has dropped the marked nodes before `first`, and
the unit of the next number is the block's. -/
structure Allocated (cfg : PoolConfig) (log : AllocationLog) (pool : MemoryPool)
    (diskBlockId first unit : ℕ) (next : MemoryPool) : Prop where
  first_le : log.first ≤ first
  first_lt : first < log.count
  dropped : ∀ n, log.first ≤ n → n < first →
    (pool.allocatedList (n % cfg.listLen)).dirty = true
  unit_eq : unit = cfg.offsetOf log.total
  room : log.total < log.start first + cfg.units
  window : { log.put diskBlockId with first }.Window cfg next
  buffer : next.buffer = pool.buffer
  kept : ∀ n, first ≤ n → n < log.count →
    next.allocatedList (n % cfg.listLen) = pool.allocatedList (n % cfg.listLen)
  unmarked : log.count < (log.put diskBlockId).count →
    (next.allocatedList (log.count % cfg.listLen)).dirty = false

namespace Window

variable {cfg : PoolConfig} {pool next : MemoryPool} {unit diskBlockId node offset : ℕ}

theorem nextNode (h : log.Window cfg pool) (n : ℕ) :
    pool.nextNode (n % cfg.listLen) = (n + 1) % cfg.listLen := by
  rw [MemoryPool.nextNode, h.listLen, Nat.mod_add_mod]

/-- Nodes of the window that share a place of the list are the same. -/
theorem eq_of_mod (h : log.Window cfg pool) {n m : ℕ} (hn : log.first ≤ n)
    (hn' : n < log.count) (hm : log.first ≤ m) (hm' : m < log.count)
    (hmod : n % cfg.listLen = m % cfg.listLen) : n = m := by
  have hcount := h.count_le
  exact eq_of_mod_eq hmod (by omega) (by omega)

/-- The place behind the last node is free unless the list is full. -/
theorem ne_tail (hfull : log.count < log.first + cfg.listLen) {n : ℕ} (hn : log.first ≤ n)
    (hn' : n < log.count) :
    n % cfg.listLen ≠ log.count % cfg.listLen := fun hmod =>
  hn'.ne (eq_of_mod_eq hmod (by omega) (by omega))

theorem full_iff (h : log.Window cfg pool) :
    pool.listHead = pool.listTail ↔ log.count = log.first + cfg.listLen := by
  have hcount := h.count_le
  rw [h.head, h.tail]
  constructor
  · intro hmod
    by_contra hne
    exact ne_tail (by omega) le_rfl h.first_lt hmod
  · intro hfull
    rw [hfull, Nat.add_mod_right]

theorem lastNode_block (h : log.Window cfg pool) :
    pool.lastNode.dataBlockId = log.block (log.count - 1) := by
  have hfirst := h.first_lt
  have hlist := cfg.two_le_listLen
  have hplace : (log.count % cfg.listLen + cfg.listLen - 1) % cfg.listLen =
      (log.count - 1) % cfg.listLen := by
    rw [Nat.add_sub_assoc (by omega), Nat.mod_add_mod,
      show log.count + (cfg.listLen - 1) = log.count - 1 + cfg.listLen by omega, Nat.add_mod_right]
  rw [MemoryPool.lastNode, h.tail, h.listLen, hplace]
  exact h.block _ (by omega) (by omega)

/-- The bytes of the pool do not matter. -/
theorem withBuffer (h : log.Window cfg pool) (buffer : Memory) :
    log.Window cfg { pool with buffer } := { h with }

/-- Moving the head drops marked nodes only, and never the last one. -/
theorem advanceHead (h : log.Window cfg pool) (fuel : ℕ) :
    ∃ first, log.first ≤ first ∧
      { log with first }.Window cfg (MemoryPool.advanceHead fuel pool) ∧
      ∀ n, log.first ≤ n → n < first →
        (pool.allocatedList (n % cfg.listLen)).dirty = true := by
  have hnone : ∀ n, log.first ≤ n → n < log.first →
      (pool.allocatedList (n % cfg.listLen)).dirty = true := fun n hn hn' => by omega
  induction fuel generalizing log pool with
  | zero => exact ⟨log.first, le_rfl, h, hnone⟩
  | succ fuel ih =>
      have hfirst := h.first_lt
      have hcount := h.count_le
      simp only [MemoryPool.advanceHead]
      split_ifs with hdirty hlast
      · exact ⟨log.first, le_rfl, h, hnone⟩
      · rw [h.head] at hdirty hlast ⊢
        rw [h.nextNode, h.tail] at hlast
        have hnext : log.first + 1 < log.count := by
          by_contra hge
          exact hlast (by rw [show log.first + 1 = log.count by omega])
        have hstep : { log with first := log.first + 1 }.Window cfg
            { pool with listHead := pool.nextNode (log.first % cfg.listLen) } :=
          { h with
            first_lt := hnext
            count_le := by
              show log.count ≤ log.first + 1 + cfg.listLen
              omega
            total_le := h.total_le.trans (Nat.add_le_add_right (h.increasing _ hfirst).le _)
            head := h.nextNode _
            block := fun n hn hn' => h.block n (Nat.le_of_succ_le hn) hn'
            start := fun n hn hn' => h.start n (Nat.le_of_succ_le hn) hn' }
        obtain ⟨first, hle, hmoved, hdropped⟩ := ih hstep fun n hn hn' => by omega
        refine ⟨first, (Nat.le_succ _).trans hle, hmoved, fun n hn hn' => ?_⟩
        rcases hn.eq_or_lt with rfl | hafter
        · exact hdirty
        · exact hdropped n hafter hn'
      · exact ⟨log.first, le_rfl, h, hnone⟩

/-- Where the next unit goes, and the first unit of the head node. -/
theorem barrier_ne (h : log.Window cfg pool) :
    (pool.allocatedList pool.listHead).startOffset ≠ u64Max := by
  rw [h.head, h.start _ le_rfl h.first_lt]
  exact (cfg.offsetOf_lt _).ne

theorem total_pos (h : log.Window cfg pool) : 0 < log.total :=
  (Nat.zero_le _).trans_lt (h.increasing.start_lt_start h.first_lt le_rfl)

/-- The unit that is to be allocated is in the way of the head node exactly if the window
is as long as the pool. -/
theorem occupied_iff (h : log.Window cfg pool) :
    (cfg.offsetOf log.total ≤ cfg.offsetOf (log.start log.first) ∧
        cfg.offsetOf (log.start log.first) < cfg.offsetOf log.total + cfg.unitLen) ↔
      log.total = log.start log.first + cfg.units := by
  have htotal := h.total_le
  have hfirst : log.start log.first < log.total := h.increasing.start_lt_start h.first_lt le_rfl
  constructor
  · rintro ⟨hle, hlt⟩
    by_contra hne
    have hmod := cfg.mod_eq_of_offsetOf hle hlt
    exact hfirst.ne (eq_of_mod_eq hmod (by omega) (by omega))
  · intro heq
    have hoffset : cfg.offsetOf log.total = cfg.offsetOf (log.start log.first) := by
      rw [heq, PoolConfig.offsetOf, PoolConfig.offsetOf, Nat.add_mod_right]
    exact ⟨hoffset.le, by rw [hoffset]; exact Nat.lt_add_of_pos_right cfg.unitLen_pos⟩

/-- The block's unit goes to the last node, or a new node is put in the place behind it. -/
theorem addNode_cases (h : log.Window cfg pool)
    (hadd : (if diskBlockId ≠ pool.lastNode.dataBlockId then
      pool.addNodeMeta diskBlockId offset else some pool) = some next) :
    (diskBlockId = log.block (log.count - 1) ∧ next = pool) ∨
    (diskBlockId ≠ log.block (log.count - 1) ∧ log.count < log.first + cfg.listLen ∧
      next = { pool with
        allocatedList := Function.update pool.allocatedList (log.count % cfg.listLen)
          { dataBlockId := diskBlockId, startOffset := offset, dirty := false }
        listTail := (log.count + 1) % cfg.listLen }) := by
  rw [h.lastNode_block] at hadd
  split_ifs at hadd with hother
  · rw [MemoryPool.addNodeMeta] at hadd
    split_ifs at hadd with hlist
    obtain rfl := Option.some.inj hadd
    refine .inr ⟨hother, lt_of_le_of_ne h.count_le fun heq => hlist (h.full_iff.mpr heq), ?_⟩
    rw [h.tail, h.nextNode]
  · exact .inl ⟨not_not.mp hother, (Option.some.inj hadd).symm⟩

/-- The pool in which `allocate` has made room for a unit of a block. -/
theorem put (h : log.Window cfg pool) (hroom : log.total < log.start log.first + cfg.units)
    (hadd : (if diskBlockId ≠ pool.lastNode.dataBlockId then
      pool.addNodeMeta diskBlockId (cfg.offsetOf log.total) else some pool) = some next) :
    (log.put diskBlockId).Window cfg
      { next with allocatePos := cfg.offsetOf log.total + cfg.unitLen } := by
  have hfirst := h.first_lt
  have hcursor : cfg.offsetOf log.total + cfg.unitLen =
      cfg.cursorAt (log.put diskBlockId).total := by
    rw [put_total, PoolConfig.cursorAt_succ]
  have hincreasing := h.increasing.put diskBlockId
  rcases h.addNode_cases hadd with ⟨hsame, rfl⟩ | ⟨hother, hfull, rfl⟩
  · have hput : log.put diskBlockId =
        { log with start := Function.update log.start log.count (log.total + 1) } := if_pos hsame
    have hstart : ∀ n < log.count, (log.put diskBlockId).start n = log.start n := fun n hn => by
      rw [hput]
      exact Function.update_of_ne hn.ne _ _
    rw [hput] at hincreasing hcursor hstart ⊢
    exact
      { increasing := hincreasing
        first_lt := hfirst
        count_le := h.count_le
        total_le := by
          show Function.update log.start log.count (log.total + 1) log.count ≤
            Function.update log.start log.count (log.total + 1) log.first + cfg.units
          rw [Function.update_self, Function.update_of_ne hfirst.ne]
          exact hroom
        capacity := h.capacity
        listLen := h.listLen
        head := h.head
        tail := h.tail
        cursor := hcursor
        block := h.block
        start := fun n hn hn' => (h.start n hn hn').trans (congrArg _ (hstart n hn').symm)
        place_lt := h.place_lt }
  · have hput : log.put diskBlockId =
        { log with
          block := Function.update log.block log.count diskBlockId
          start := Function.update log.start (log.count + 1) (log.total + 1)
          count := log.count + 1 } := if_neg hother
    -- nodes of the window are where they were, and the new one is in the place behind them
    have hold : ∀ n, log.first ≤ n → n < log.count →
        Function.update pool.allocatedList (log.count % cfg.listLen)
          { dataBlockId := diskBlockId, startOffset := cfg.offsetOf log.total, dirty := false }
            (n % cfg.listLen) = pool.allocatedList (n % cfg.listLen) := fun n hn hn' =>
      Function.update_of_ne (ne_tail hfull hn hn') _ _
    rw [hput] at hincreasing hcursor ⊢
    exact
      { increasing := hincreasing
        first_lt := hfirst.trans (Nat.lt_succ_self _)
        count_le := hfull
        total_le := by
          show Function.update log.start (log.count + 1) (log.total + 1) (log.count + 1) ≤
            Function.update log.start (log.count + 1) (log.total + 1) log.first + cfg.units
          rw [Function.update_self, Function.update_of_ne (by omega)]
          exact hroom
        capacity := h.capacity
        listLen := h.listLen
        head := h.head
        tail := rfl
        cursor := hcursor
        block := fun n hn hn' => by
          show (Function.update pool.allocatedList _ _ (n % cfg.listLen)).dataBlockId =
            Function.update log.block log.count diskBlockId n
          rcases Nat.lt_succ_iff_lt_or_eq.mp hn' with hbefore | rfl
          · rw [hold n hn hbefore, Function.update_of_ne hbefore.ne, h.block n hn hbefore]
          · rw [Function.update_self, Function.update_self]
        start := fun n hn hn' => by
          show (Function.update pool.allocatedList _ _ (n % cfg.listLen)).startOffset =
            cfg.offsetOf (Function.update log.start (log.count + 1) (log.total + 1) n)
          rw [Function.update_of_ne (Nat.ne_of_lt hn')]
          rcases Nat.lt_succ_iff_lt_or_eq.mp hn' with hbefore | rfl
          · rw [hold n hn hbefore, h.start n hn hbefore]
          · rw [Function.update_self]
            rfl
        place_lt := by
          show (Function.update pool.allocatedList (log.count % cfg.listLen) _ 0).startOffset <
            cfg.capacity
          by_cases hplace : 0 = log.count % cfg.listLen
          · rw [hplace, Function.update_self]
            exact cfg.offsetOf_lt_capacity _
          · rw [Function.update_of_ne hplace]
            exact h.place_lt }

/-- What `allocate` does behind its first loop. -/
theorem allocateFrom_eq (h : log.Window cfg pool) :
    pool.allocateFrom cfg.unitLen diskBlockId =
      if log.total = log.start log.first + cfg.units then none
      else (if diskBlockId ≠ pool.lastNode.dataBlockId then
          pool.addNodeMeta diskBlockId (cfg.offsetOf log.total) else some pool).map fun next =>
        (cfg.offsetOf log.total,
          { next with allocatePos := cfg.offsetOf log.total + cfg.unitLen }) := by
  have hwrap := cfg.wrap_cursorAt h.total_pos
  have hinside := cfg.offsetOf_add_le log.total
  have hoccupied := h.occupied_iff
  rw [← h.start _ le_rfl h.first_lt, ← h.head] at hoccupied
  unfold MemoryPool.allocateFrom
  simp only [h.cursor, h.capacity, hwrap]
  rw [if_neg (not_lt.mpr hinside), if_neg h.barrier_ne]
  simp only [hoccupied]

/-- A call of `allocate` hands out the unit of the next number. -/
theorem allocate (h : log.Window cfg pool)
    (hallocate : pool.allocate cfg.unitLen diskBlockId = some (unit, next)) :
    ∃ first, Allocated cfg log pool diskBlockId first unit next := by
  obtain ⟨first, hle, hmoved, hdropped⟩ := h.advanceHead pool.listLen
  obtain ⟨listHead, hhead⟩ := MemoryPool.advanceHead_eq pool.listLen pool
  rw [MemoryPool.allocate, hmoved.allocateFrom_eq] at hallocate
  rw [hhead] at hmoved hallocate
  by_cases hoccupied : { log with first }.total = log.start first + cfg.units
  · rw [if_pos hoccupied] at hallocate
    cases hallocate
  · rw [if_neg hoccupied] at hallocate
    obtain ⟨added, hadd, hnext⟩ := Option.map_eq_some_iff.mp hallocate
    obtain ⟨rfl, rfl⟩ := Prod.mk.inj hnext
    have hroom := lt_of_le_of_ne hmoved.total_le hoccupied
    have hwindow := hmoved.put hroom hadd
    rw [put_dropped] at hwindow
    rcases hmoved.addNode_cases hadd with ⟨hsame, rfl⟩ | ⟨hother, hfull, rfl⟩
    · have hcount : (log.put diskBlockId).count = log.count := by
        rw [AllocationLog.put, if_pos hsame]
      exact ⟨first, hle, hmoved.first_lt, hdropped, rfl, hroom, hwindow, rfl, fun _ _ _ => rfl,
        fun hlt => absurd hcount hlt.ne'⟩
    · refine ⟨first, hle, hmoved.first_lt, hdropped, rfl, hroom, hwindow, rfl,
        fun n hn hn' => Function.update_of_ne (ne_tail hfull hn hn') _ _, fun _ => ?_⟩
      simp only [Function.update_self]

/-! ### Looking a block up -/

/-- The search for a block goes over the nodes of the window that it has not seen, to the
first one of the block. -/
theorem findNode (h : log.Window cfg pool)
    (hfull : log.count < log.first + cfg.listLen) (diskBlockId fuel : ℕ) :
    ∀ n, log.first ≤ n → n ≤ log.count → log.count ≤ n + fuel →
      (∀ m, n ≤ m → m < log.count → log.block m ≠ diskBlockId) ∧
          pool.findNode diskBlockId fuel (n % cfg.listLen) = none ∨
        ∃ m, n ≤ m ∧ m < log.count ∧ log.block m = diskBlockId ∧
          pool.findNode diskBlockId fuel (n % cfg.listLen) = some (m % cfg.listLen) := by
  induction fuel with
  | zero =>
      intro n _ _ hfuel
      exact .inl ⟨fun m hm hm' => by omega, rfl⟩
  | succ fuel ih =>
      intro n hn hn' hfuel
      rw [MemoryPool.findNode, h.tail]
      rcases hn'.eq_or_lt with rfl | hlt
      · rw [if_pos rfl]
        exact .inl ⟨fun m hm hm' => by omega, rfl⟩
      rw [if_neg (ne_tail hfull hn hlt), h.block n hn hlt, h.nextNode]
      by_cases hblock : log.block n = diskBlockId
      · rw [if_pos hblock]
        exact .inr ⟨n, le_rfl, hlt, hblock, rfl⟩
      · rw [if_neg hblock]
        rcases ih (n + 1) (by omega) hlt (by omega) with
          ⟨hnone, hfind⟩ | ⟨m, hm, hm', hfound, hfind⟩
        · refine .inl ⟨fun m hm hm' => ?_, hfind⟩
          rcases hm.eq_or_lt with rfl | hlater
          · exact hblock
          · exact hnone m hlater hm'
        · exact .inr ⟨m, by omega, hm', hfound, hfind⟩

/-- Nothing is found in a list that is full: the search starts at its end. -/
theorem nodeOf_of_full (h : log.Window cfg pool)
    (hfull : log.count = log.first + cfg.listLen) : pool.nodeOf diskBlockId = none := by
  have hlist := cfg.two_le_listLen
  obtain ⟨fuel, hfuel⟩ := Nat.exists_eq_succ_of_ne_zero (by omega : cfg.listLen ≠ 0)
  rw [MemoryPool.nodeOf, h.listLen, hfuel, MemoryPool.findNode, if_pos (h.full_iff.mpr hfull)]

/-- Otherwise a node of the block is, if there is one. -/
theorem nodeOf_cases (h : log.Window cfg pool)
    (hfull : log.count < log.first + cfg.listLen) :
    (∀ n, log.first ≤ n → n < log.count → log.block n ≠ diskBlockId) ∧
        pool.nodeOf diskBlockId = none ∨
      ∃ n, log.first ≤ n ∧ n < log.count ∧ log.block n = diskBlockId ∧
        pool.nodeOf diskBlockId = some (n % cfg.listLen) := by
  rw [MemoryPool.nodeOf, h.listLen, h.head]
  exact h.findNode hfull diskBlockId cfg.listLen log.first le_rfl h.first_lt.le hfull.le

/-- What is found is a node of the block. -/
theorem nodeOf_eq_some (h : log.Window cfg pool)
    (hnode : pool.nodeOf diskBlockId = some node) :
    ∃ n, log.first ≤ n ∧ n < log.count ∧ log.block n = diskBlockId ∧ node = n % cfg.listLen := by
  rcases h.count_le.eq_or_lt with hfull | hfull
  · rw [h.nodeOf_of_full hfull] at hnode
    cases hnode
  · rcases h.nodeOf_cases hfull with ⟨_, hnone⟩ | ⟨n, hn, hn', hblock, hsome⟩
    · rw [hnone] at hnode
      cases hnode
    · exact ⟨n, hn, hn', hblock, Option.some.inj (hnode.symm.trans hsome)⟩

/-- `recycle` marks at most a node of the block. -/
theorem recycle_dirty (h : log.Window cfg pool) {n : ℕ} (hn : log.first ≤ n)
    (hn' : n < log.count) (hother : log.block n ≠ diskBlockId) :
    ((pool.recycle diskBlockId).allocatedList (n % cfg.listLen)).dirty =
      (pool.allocatedList (n % cfg.listLen)).dirty := by
  unfold MemoryPool.recycle
  cases hnode : pool.nodeOf diskBlockId with
  | none => rfl
  | some node =>
      obtain ⟨m, hm, hm', hblock, rfl⟩ := h.nodeOf_eq_some hnode
      have hne : n % cfg.listLen ≠ m % cfg.listLen := fun hmod =>
        hother (h.eq_of_mod hn hn' hm hm' hmod ▸ hblock)
      exact congrArg NodeMeta.dirty (Function.update_of_ne hne ..)

theorem recycle (h : log.Window cfg pool) (diskBlockId : ℕ) :
    log.Window cfg (pool.recycle diskBlockId) := by
  have hnode := fun node => @MemoryPool.recycle_node pool diskBlockId node
  obtain ⟨allocatedList, hrecycle⟩ := MemoryPool.recycle_eq pool diskBlockId
  rw [hrecycle] at hnode ⊢
  exact
    { h with
      block := fun n hn hn' => (hnode _).2.trans (h.block n hn hn')
      start := fun n hn hn' => (hnode _).1.trans (h.start n hn hn')
      place_lt := (hnode 0).1.trans_lt h.place_lt }

end Window

/-! ## The pool of a log -/

/-- The pool is the window on the log from node `first` on; the blocks of marked nodes and
of the nodes before the window have been recycled. -/
structure Represents (cfg : PoolConfig) (log : AllocationLog) (recycled : List ℕ)
    (pool : MemoryPool) : Prop where
  ordered : log.Ordered
  first_lt : log.first < log.count
  count_le : log.count ≤ log.first + cfg.listLen
  total_le : log.total ≤ log.start log.first + cfg.units
  capacity : pool.capacity = cfg.capacity
  listLen : pool.listLen = cfg.listLen
  head : pool.listHead = log.first % cfg.listLen
  tail : pool.listTail = log.count % cfg.listLen
  cursor : pool.allocatePos = cfg.cursorAt log.total
  block : ∀ n, log.first ≤ n → n < log.count →
    (pool.allocatedList (n % cfg.listLen)).dataBlockId = log.block n
  start : ∀ n, log.first ≤ n → n < log.count →
    (pool.allocatedList (n % cfg.listLen)).startOffset = cfg.offsetOf (log.start n)
  marked : ∀ n, log.first ≤ n → n < log.count →
    (pool.allocatedList (n % cfg.listLen)).dirty = true → log.block n ∈ recycled
  gone : ∀ n < log.first, log.block n ∈ recycled
  place_lt : (pool.allocatedList 0).startOffset < cfg.capacity

namespace Represents

variable {cfg : PoolConfig} {recycled : List ℕ} {pool next : MemoryPool}
  {unit diskBlockId : ℕ}

theorem window (h : log.Represents cfg recycled pool) : log.Window cfg pool :=
  { h with increasing := h.ordered.increasing }

/-- A call of `allocate` hands out the unit of the next number. -/
theorem allocate (h : log.Represents cfg recycled pool)
    (hlast : log.block (log.count - 1) ≤ diskBlockId)
    (hallocate : pool.allocate cfg.unitLen diskBlockId = some (unit, next)) :
    ∃ first, log.first ≤ first ∧ unit = cfg.offsetOf log.total ∧
      log.total < log.start first + cfg.units ∧ (∀ n < first, log.block n ∈ recycled) ∧
        ({ log with first }.put diskBlockId).Represents cfg recycled next := by
  obtain ⟨first, hallocated⟩ := h.window.allocate hallocate
  have hfirst := hallocated.first_lt
  have hgone : ∀ n < first, log.block n ∈ recycled := fun n hn => by
    rcases Nat.lt_or_ge n log.first with hbefore | hwindow
    · exact h.gone n hbefore
    · exact h.marked n hwindow (hn.trans hfirst) (hallocated.dropped n hwindow hn)
  have hordered : (log.put diskBlockId).Ordered := h.ordered.put hlast
  refine ⟨first, hallocated.first_le, hallocated.unit_eq, hallocated.room, hgone, ?_⟩
  rw [put_dropped]
  exact
    { hallocated.window with
      ordered := ⟨hordered.start_lt, hordered.block_lt⟩
      marked := fun n hn hn' hdirty => by
        rcases Nat.lt_or_ge n log.count with hbefore | hnew
        · rw [hallocated.kept n hn hbefore] at hdirty
          show (log.put diskBlockId).block n ∈ recycled
          rw [log.put_block hbefore]
          exact h.marked n (hallocated.first_le.trans hn) hbefore hdirty
        · -- the new node is not marked
          have hn' : n < (log.put diskBlockId).count := hn'
          have hlast : n = log.count := by
            rcases log.put_cases diskBlockId with ⟨hcount, -⟩ | ⟨hcount, -⟩ <;> omega
          rw [hlast, hallocated.unmarked (hlast ▸ hn')] at hdirty
          exact absurd hdirty Bool.false_ne_true
      gone := fun n hn => by
        show (log.put diskBlockId).block n ∈ recycled
        rw [log.put_block (hn.trans hfirst)]
        exact hgone n hn }

/-- `recycle` marks at most a node of the block. -/
theorem recycle (h : log.Represents cfg recycled pool) (diskBlockId : ℕ) :
    log.Represents cfg (diskBlockId :: recycled) (pool.recycle diskBlockId) :=
  { h.window.recycle diskBlockId with
    ordered := h.ordered
    marked := fun n hn hn' hdirty => by
      by_cases hblock : log.block n = diskBlockId
      · exact hblock ▸ List.mem_cons_self
      · rw [h.window.recycle_dirty hn hn' hblock] at hdirty
        exact List.mem_cons_of_mem _ (h.marked n hn hn' hdirty)
    gone := fun n hn => List.mem_cons_of_mem _ (h.gone n hn) }

end Represents

/-- The first allocation takes the first node, which has been there from the start. -/
theorem allocate_fresh (cfg : PoolConfig) (diskBlockId : ℕ) (recycled : List ℕ) :
    ∃ next, cfg.pool.allocate cfg.unitLen diskBlockId = some (0, next) ∧
      (one diskBlockId).Represents cfg recycled next := by
  have hlist := cfg.two_le_listLen
  have hinside : 0 + cfg.unitLen ≤ cfg.capacity := by
    have hfirst := cfg.offsetOf_add_le 0
    rwa [PoolConfig.offsetOf, Nat.zero_mod, Nat.zero_mul] at hfirst
  have hplace : ∀ n, (one diskBlockId).first ≤ n → n < (one diskBlockId).count →
      n % cfg.listLen = 0 := fun n _ hn => by
    simp only [one, Nat.lt_one_iff] at hn
    rw [hn, Nat.zero_mod]
  let node : NodeMeta := { dataBlockId := diskBlockId, startOffset := 0, dirty := false }
  -- no node is marked, so the head stays
  have hhead : MemoryPool.advanceHead cfg.listLen cfg.pool = cfg.pool := by
    obtain ⟨fuel, hfuel⟩ := Nat.exists_eq_succ_of_ne_zero (by omega : cfg.listLen ≠ 0)
    rw [hfuel, MemoryPool.advanceHead]
    exact if_neg Bool.false_ne_true
  refine ⟨{ cfg.pool with
    allocatedList := Function.update cfg.pool.allocatedList 0 node
    allocatePos := 0 + cfg.unitLen }, ?_, ?_⟩
  · show (MemoryPool.advanceHead cfg.listLen cfg.pool).allocateFrom cfg.unitLen diskBlockId = _
    have hcursor : cfg.pool.allocatePos = 0 := rfl
    have hcapacity : cfg.pool.capacity = cfg.capacity := rfl
    have hbarrier : (cfg.pool.allocatedList cfg.pool.listHead).startOffset = u64Max := rfl
    rw [hhead, MemoryPool.allocateFrom]
    simp only [hcursor, hcapacity, hbarrier, ite_self]
    rw [if_neg (not_lt.mpr hinside), if_pos trivial]
    rfl
  · have hnode : ∀ n, (one diskBlockId).first ≤ n → n < (one diskBlockId).count →
        Function.update cfg.pool.allocatedList 0 node (n % cfg.listLen) = node := fun n hn hn' => by
      rw [hplace n hn hn', Function.update_self]
    exact
      { ordered := ordered_one diskBlockId
        first_lt := Nat.one_pos
        count_le := by
          show 1 ≤ 0 + cfg.listLen
          omega
        total_le := by
          show 1 ≤ 0 + cfg.units
          have := cfg.units_pos
          omega
        capacity := rfl
        listLen := rfl
        head := (Nat.zero_mod _).symm
        tail := (Nat.mod_eq_of_lt hlist).symm
        cursor := by
          show 0 + cfg.unitLen = ((1 - 1) % cfg.units + 1) * cfg.unitLen
          rw [Nat.sub_self, Nat.zero_mod, Nat.succ_mul, Nat.zero_mul]
        block := fun n hn hn' => by
          show (Function.update cfg.pool.allocatedList 0 node (n % cfg.listLen)).dataBlockId = _
          rw [hnode n hn hn']
          rfl
        start := fun n hn hn' => by
          show (Function.update cfg.pool.allocatedList 0 node (n % cfg.listLen)).startOffset = _
          have hzero : (one diskBlockId).start n = 0 := Nat.lt_one_iff.mp hn'
          rw [hnode n hn hn', hzero, PoolConfig.offsetOf, Nat.zero_mod, Nat.zero_mul]
        marked := fun n hn hn' => by
          show (Function.update cfg.pool.allocatedList 0 node (n % cfg.listLen)).dirty = true → _
          rw [hnode n hn hn']
          exact fun hdirty => (Bool.false_ne_true hdirty).elim
        gone := fun n hn => absurd hn (Nat.not_lt_zero n)
        place_lt := by
          show (Function.update cfg.pool.allocatedList 0 node 0).startOffset < cfg.capacity
          rw [Function.update_self]
          exact (Nat.zero_le _).trans_lt (cfg.offsetOf_lt_capacity 0) }

/-- Before the first allocation no block is found. -/
theorem nodeOf_fresh (cfg : PoolConfig) {diskBlockId : ℕ} (hblock : diskBlockId ≠ u64Max) :
    cfg.pool.nodeOf diskBlockId = none := MemoryPool.nodeOf_fresh cfg.two_le_listLen hblock

theorem recycle_fresh (cfg : PoolConfig) {diskBlockId : ℕ} (hblock : diskBlockId ≠ u64Max) :
    cfg.pool.recycle diskBlockId = cfg.pool := by
  rw [MemoryPool.recycle, nodeOf_fresh cfg hblock]

/-- The value for no block is, in the first node. -/
theorem nodeOf_fresh_none (cfg : PoolConfig) : cfg.pool.nodeOf u64Max = some 0 := by
  have hlist := cfg.two_le_listLen
  obtain ⟨fuel, hfuel⟩ := Nat.exists_eq_add_of_le' hlist
  show cfg.pool.findNode u64Max cfg.listLen 0 = some 0
  rw [hfuel, MemoryPool.findNode, if_neg (show 0 ≠ cfg.pool.listTail from Nat.zero_ne_one)]
  exact if_pos rfl

end AllocationLog

end TrafficDatabase
