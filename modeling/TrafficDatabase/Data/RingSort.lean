import TrafficDatabase.Data.IndexBlockBuffer

/-!
# Sorting in the ring

`sortIndex` sorts the records of a run where they lie in the index block buffer.
A run that goes over the end of the ring is first made contiguous, by a copy of
its second part to the backup block behind the ring, and copied back after the
sort.  A record may lie across the end of the ring.

The run is read here as the ring has it: record `i` of a run is `ringRead` at its
position, wherever the end of the ring lies.
-/

namespace TrafficDatabase

namespace IndexBlockBuffer

/-- The records of a run, by their positions in the ring. -/
def ringRecords (cfg : IndexBlockConfig) (mem : Memory) (startPos len keyLen : ℕ) :
    List (List UInt8) :=
  (List.range (len / (keyLen + 8))).map fun i =>
    mem.ringRead cfg.bufferSize (startPos + i * (keyLen + 8)) (keyLen + 8)

variable {cfg : IndexBlockConfig} {std : StdSort} {buf : IndexBlockBuffer}
  {startPos len keyLen : ℕ}

/-- The memory in which `sortIndex` sorts: the part of the run past the end of the
ring is in the backup block. -/
def linearised (cfg : IndexBlockConfig) (mem : Memory) (startPos len : ℕ) : Memory :=
  if startPos % cfg.bufferSize + len > cfg.bufferSize then
    mem.write cfg.bufferSize (mem.read 0 (len + startPos % cfg.bufferSize - cfg.bufferSize))
  else mem

/-- The part of the run in the backup block is copied back to the ring. -/
def copiedBack (cfg : IndexBlockConfig) (mem : Memory) (startPos len : ℕ) : Memory :=
  if startPos % cfg.bufferSize + len > cfg.bufferSize then
    mem.write 0 (mem.read cfg.bufferSize (len + startPos % cfg.bufferSize - cfg.bufferSize))
  else mem

/-- Every byte of a run is in the ring at one of two places. -/
theorem ring_address {k : ℕ} (hlen : len ≤ cfg.bufferSize) (hk : k < len) :
    (startPos + k) % cfg.bufferSize =
      if startPos % cfg.bufferSize + k < cfg.bufferSize then startPos % cfg.bufferSize + k
      else startPos % cfg.bufferSize + k - cfg.bufferSize := by
  have hlt := Nat.mod_lt startPos (by omega : 0 < cfg.bufferSize)
  rw [Nat.add_mod, Nat.mod_eq_of_lt (by omega : k < cfg.bufferSize)]
  split_ifs with hover
  · exact Nat.mod_eq_of_lt hover
  · rw [Nat.mod_eq_sub_mod (by omega), Nat.mod_eq_of_lt (by omega)]

theorem linearised_apply (mem : Memory) (hlen : len ≤ cfg.bufferSize) {k : ℕ} (hk : k < len) :
    linearised cfg mem startPos len (startPos % cfg.bufferSize + k) =
      mem ((startPos + k) % cfg.bufferSize) := by
  rw [ring_address hlen hk, linearised]
  set blockPos := startPos % cfg.bufferSize
  split_ifs with hover hk
  · exact Memory.write_apply_outside (.inl hk)
  · obtain ⟨j, hj⟩ := Nat.exists_eq_add_of_le (not_lt.mp hk)
    have hjlt : j < (mem.read 0 (len + blockPos - cfg.bufferSize)).length := by
      rw [Memory.length_read]
      omega
    rw [hj, Memory.write_apply_inside _ _ _ hjlt, Nat.add_sub_cancel_left]
    simp [Memory.read]
  · rfl
  · omega

theorem copiedBack_apply (mem : Memory) (hlen : len ≤ cfg.bufferSize) {k : ℕ} (hk : k < len) :
    copiedBack cfg mem startPos len ((startPos + k) % cfg.bufferSize) =
      mem (startPos % cfg.bufferSize + k) := by
  rw [ring_address hlen hk, copiedBack]
  set blockPos := startPos % cfg.bufferSize
  split_ifs with hover hk'
  · -- what is copied back ends before the run begins
    refine Memory.write_apply_outside (.inr ?_)
    rw [Memory.length_read]
    omega
  · obtain ⟨j, hj⟩ := Nat.exists_eq_add_of_le (not_lt.mp hk')
    have hjlt : j < (mem.read cfg.bufferSize (len + blockPos - cfg.bufferSize)).length := by
      rw [Memory.length_read]
      omega
    have hwrite := Memory.write_apply_inside mem 0 _ hjlt
    rw [Nat.zero_add] at hwrite
    rw [hj, Nat.add_sub_cancel_left, hwrite]
    simp [Memory.read]
  · rfl
  · omega

/-- A byte of the ring outside the run is not touched on the way. -/
theorem copiedBack_apply_outside {mem data : Memory} {bytes : List UInt8}
    (hbytes : bytes.length = len) (hlen : len ≤ cfg.bufferSize) {addr : ℕ}
    (hring : addr < cfg.bufferSize) (hout : ∀ k < len, (startPos + k) % cfg.bufferSize ≠ addr)
    (hdata : data = (linearised cfg mem startPos len).write (startPos % cfg.bufferSize) bytes) :
    copiedBack cfg data startPos len addr = mem addr := by
  have hmod := Nat.mod_lt startPos (by omega : 0 < cfg.bufferSize)
  set blockPos := startPos % cfg.bufferSize with hblock
  -- the run covers the bytes from its start on, and those before the wrapped end
  have hbefore : addr < blockPos ∨ blockPos + len ≤ addr := by
    by_contra hin
    obtain ⟨k, rfl⟩ := Nat.exists_eq_add_of_le (by omega : blockPos ≤ addr)
    refine hout k (by omega) ?_
    rw [ring_address hlen (by omega), ← hblock, if_pos hring]
  have hafter : blockPos + len > cfg.bufferSize →
      len + blockPos - cfg.bufferSize ≤ addr := by
    intro hover
    by_contra hin
    refine hout (addr + cfg.bufferSize - blockPos) (by omega) ?_
    rw [ring_address hlen (by omega), ← hblock, if_neg (by omega)]
    omega
  have hlinear : linearised cfg mem startPos len addr = mem addr := by
    rw [linearised, ← hblock]
    split_ifs with hover
    · exact Memory.write_apply_outside (.inl hring)
    · rfl
  have hsorted : data addr = mem addr := by
    rw [hdata, Memory.write_apply_outside (by rw [hbytes]; exact hbefore), hlinear]
  rw [copiedBack, ← hblock]
  split_ifs with hover
  · rw [Memory.write_apply_outside (.inr (by rw [Memory.length_read]; have := hafter hover; omega)),
      hsorted]
  · exact hsorted

theorem sortIndex_eq_copiedBack (hkey : keyLen = 2 ∨ keyLen = 4 ∨ keyLen = 16)
    (hover : len + startPos % cfg.bufferSize - cfg.bufferSize ≤ cfg.blockSize) :
    buf.sortIndex cfg std startPos len keyLen = some { buf with
      bufferBlocks := copiedBack cfg
        ((linearised cfg buf.bufferBlocks startPos len).write (startPos % cfg.bufferSize)
          (std.sort keyLen (records (linearised cfg buf.bufferBlocks startPos len)
            (startPos % cfg.bufferSize) (keyLen + 8) (len / (keyLen + 8)))).flatten)
        startPos len } := by
  unfold sortIndex
  simp only
  rw [if_neg (by omega), if_neg (by omega)]
  rfl

/-- The records sorted are those of the run in the ring. -/
theorem records_linearised (mem : Memory) (hlen : len ≤ cfg.bufferSize) :
    records (linearised cfg mem startPos len) (startPos % cfg.bufferSize) (keyLen + 8)
      (len / (keyLen + 8)) = ringRecords cfg mem startPos len keyLen := by
  refine List.map_congr_left fun i hi => (Memory.ringRead_eq_read fun k hk => ?_).symm
  -- record `i` is inside the run
  have hinside : i * (keyLen + 8) + k < len := by
    have hlast : (i + 1) * (keyLen + 8) ≤ len :=
      (Nat.mul_le_mul_right _ (List.mem_range.mp hi)).trans (Nat.div_mul_le_self ..)
    rw [Nat.succ_mul] at hlast
    omega
  rw [Nat.add_assoc, Nat.add_assoc, linearised_apply mem hlen hinside]

theorem length_of_mem_ringRecords {mem : Memory} {record : List UInt8}
    (h : record ∈ ringRecords cfg mem startPos len keyLen) : record.length = keyLen + 8 := by
  obtain ⟨i, -, rfl⟩ := List.mem_map.mp h
  exact Memory.length_ringRead ..

/-- A run whose bytes are those of some records has these records. -/
theorem ringRecords_of_ringRead {mem : Memory} {sorted : List (List UInt8)}
    (hwidth : ∀ record ∈ sorted, record.length = keyLen + 8)
    (hcount : sorted.length = len / (keyLen + 8))
    (hread : mem.ringRead cfg.bufferSize startPos len = sorted.flatten) :
    ringRecords cfg mem startPos len keyLen = sorted := by
  apply List.ext_getElem
  · rw [ringRecords, List.length_map, List.length_range, hcount]
  · intro i hi hi'
    have hlast : (i + 1) * (keyLen + 8) ≤ len := by
      rw [hcount] at hi'
      exact (Nat.mul_le_mul_right _ hi').trans (Nat.div_mul_le_self ..)
    rw [Nat.succ_mul] at hlast
    simp only [ringRecords, List.getElem_map, List.getElem_range]
    rw [Memory.ringRead_part mem cfg.bufferSize startPos hlast, hread,
      flatten_drop_take hwidth hi']

/-- `sortIndex` leaves what `std::sort` makes of the records of the run in its place, and
every other byte of the ring as it was. -/
theorem sortIndex_run (cfg : IndexBlockConfig) (std : StdSort) (buf : IndexBlockBuffer)
    {startPos len keyLen : ℕ} (hkey : keyLen = 2 ∨ keyLen = 4 ∨ keyLen = 16)
    (hrecords : len % (keyLen + 8) = 0) (hlen : len ≤ cfg.bufferSize)
    (hover : len + startPos % cfg.bufferSize - cfg.bufferSize ≤ cfg.blockSize) :
    ∃ next, buf.sortIndex cfg std startPos len keyLen = some next ∧
      ringRecords cfg next.bufferBlocks startPos len keyLen =
        std.sort keyLen (ringRecords cfg buf.bufferBlocks startPos len keyLen) ∧
      ∀ addr < cfg.bufferSize, (∀ k < len, (startPos + k) % cfg.bufferSize ≠ addr) →
        next.bufferBlocks addr = buf.bufferBlocks addr := by
  set before := ringRecords cfg buf.bufferBlocks startPos len keyLen with hbefore
  set sorted := std.sort keyLen before with hsorted
  have hperm : sorted.Perm before := std.perm keyLen before
  have hcount : sorted.length = len / (keyLen + 8) := by
    rw [hperm.length_eq, hbefore, ringRecords, List.length_map, List.length_range]
  have hwidth : ∀ record ∈ sorted, record.length = keyLen + 8 := fun record hmem =>
    length_of_mem_ringRecords (hperm.mem_iff.mp hmem)
  have hbytes : sorted.flatten.length = len := by
    rw [length_flatten_of_forall hwidth, hcount]
    exact Nat.div_mul_cancel (Nat.dvd_of_mod_eq_zero hrecords)
  set linear := linearised cfg buf.bufferBlocks startPos len with hlinear
  set written := linear.write (startPos % cfg.bufferSize) sorted.flatten with hwritten
  have hsort : buf.sortIndex cfg std startPos len keyLen =
      some { buf with bufferBlocks := copiedBack cfg written startPos len } := by
    rw [sortIndex_eq_copiedBack hkey hover, records_linearised _ hlen]
  -- the run in the ring is the sorted records one after the other
  have hread : (copiedBack cfg written startPos len).ringRead cfg.bufferSize startPos len =
      sorted.flatten := by
    apply List.ext_getElem
    · rw [Memory.length_ringRead, hbytes]
    · intro k hk hk'
      rw [Memory.length_ringRead] at hk
      rw [Memory.getElem_ringRead, copiedBack_apply written hlen hk, hwritten,
        Memory.write_apply_inside linear _ _ hk']
  refine ⟨_, hsort, ringRecords_of_ringRead hwidth hcount hread, ?_⟩
  intro addr hring hout
  exact copiedBack_apply_outside hbytes hlen hring hout hwritten

/-- `sortIndex` leaves the records of the run in the order of their keys, and every
other byte of the ring as it was. -/
theorem sortIndex_sorts (cfg : IndexBlockConfig) (std : StdSort) (buf : IndexBlockBuffer)
    {startPos len keyLen : ℕ} (hkey : keyLen = 2 ∨ keyLen = 4 ∨ keyLen = 16)
    (hrecords : len % (keyLen + 8) = 0) (hlen : len ≤ cfg.bufferSize)
    (hover : len + startPos % cfg.bufferSize - cfg.bufferSize ≤ cfg.blockSize) :
    ∃ next, buf.sortIndex cfg std startPos len keyLen = some next ∧
      (ringRecords cfg next.bufferBlocks startPos len keyLen).Perm
        (ringRecords cfg buf.bufferBlocks startPos len keyLen) ∧
      SortedByKey keyLen (ringRecords cfg next.bufferBlocks startPos len keyLen) ∧
      ∀ addr < cfg.bufferSize, (∀ k < len, (startPos + k) % cfg.bufferSize ≠ addr) →
        next.bufferBlocks addr = buf.bufferBlocks addr := by
  obtain ⟨next, hnext, hrun, hframe⟩ := sortIndex_run cfg std buf hkey hrecords hlen hover
  refine ⟨next, hnext, ?_, ?_, hframe⟩
  · rw [hrun]
    exact std.perm keyLen _
  · rw [hrun]
    exact std.sorted keyLen _

/-- A stable sort, which `std::sort` may be. -/
def mergeSort : StdSort where
  sort keyLen records := records.mergeSort fun first second =>
    decide (recordKey keyLen first ≤ recordKey keyLen second)
  perm _ records := List.mergeSort_perm records _
  sorted keyLen records := by
    have hsorted := @List.pairwise_mergeSort _
      (fun first second => decide (recordKey keyLen first ≤ recordKey keyLen second))
      (fun _ _ _ hfirst hsecond => decide_eq_true
        ((of_decide_eq_true hfirst).trans (of_decide_eq_true hsecond)))
      (fun first second => by simpa using Nat.le_total _ _) records
    exact hsorted.imp fun hle => of_decide_eq_true hle

/-- Two slots of 16 bytes, and a buffer with some bytes in it. -/
def twoSlots : IndexBlockConfig :=
  { totalBlockNum := 2, blockSize := 16, diskBlockNum := 9, threadNum := 1 }

def someBytes : IndexBlockBuffer :=
  { bufferBlocks := fun addr => UInt8.ofNat (addr * addr), blockDiskId := id, diskWriteIds := [0]
    blockCheckIds := [0] }

/-- Two records of ports, the first of which lies across the end of the ring. -/
theorem sortIndex_sorts_across : ∃ next,
    someBytes.sortIndex twoSlots mergeSort 28 20 2 = some next ∧
    (ringRecords twoSlots next.bufferBlocks 28 20 2).Perm
      (ringRecords twoSlots someBytes.bufferBlocks 28 20 2) ∧
    SortedByKey 2 (ringRecords twoSlots next.bufferBlocks 28 20 2) ∧
    ∀ addr < twoSlots.bufferSize, (∀ k < 20, (28 + k) % twoSlots.bufferSize ≠ addr) →
      next.bufferBlocks addr = someBytes.bufferBlocks addr :=
  sortIndex_sorts twoSlots mergeSort someBytes (.inl rfl) (by decide) (by decide) (by decide)

end IndexBlockBuffer

end TrafficDatabase
