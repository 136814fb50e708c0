import TrafficDatabase.DataPath.Config

/-!
# The buffer with the disk behind it

A `Store` is the data block buffer together with the data disk its blocks are
dumped to.  Seen from a disk position there is one byte: the buffered one while
the position's slot holds its block, the one on the disk otherwise (`view`).  A
write that succeeds is a write to this view, a write that fails leaves it alone,
and retiring a block changes it only in the disk block the slot takes up next.

`Stores` follows the calls of one thread through such a store, with writes of
other threads and dumps anywhere between them.  As long as no disk block is taken
up again once it has been written in, the bytes of every call stay where they
were put (`Stores.has`).
-/

namespace TrafficDatabase

/-- The data block buffer and the data disk. -/
structure Store where
  buffer : DataBlockBuffer
  disk : Memory

instance (cfg : DataBlockConfig) (buf : DataBlockBuffer) (diskPos : ℕ) :
    Decidable (buf.Holds cfg diskPos) := inferInstanceAs (Decidable (_ = _))

namespace Store

variable (cfg : DataPathConfig) (store : Store)

/-- One `writeBlock` call, whatever it returns. -/
def write (threadId : ℕ) (req : WriteRequest) : Store :=
  { store with buffer := (store.buffer.writeBlock cfg.buffer threadId req).2 }

/-- A dump thread is given a block, writes it to the disk, and it is recycled. -/
def retire (dumper : ℕ) : Store :=
  let got := store.buffer.getBlock cfg.buffer dumper
  { buffer := got.2.recycleBlock cfg.buffer got.1.blockId
    disk := store.disk.write (got.1.writePos * cfg.blockSize)
      (store.buffer.bufferBlocks.read got.1.buffer cfg.blockSize) }

/-- The slot a dump thread has come to. -/
def checkId (dumper : ℕ) : ℕ := store.buffer.blockCheckIds.getD dumper 0

/-- The disk block a dump thread's slot takes up when its block is retired. -/
def takenUp (dumper : ℕ) : ℕ :=
  (store.buffer.blockDiskId (store.checkId dumper) + cfg.totalBlockNum) % cfg.diskBlockNum

/-- The store as one memory. -/
def view : Memory := fun pos =>
  if store.buffer.Holds cfg.buffer pos then store.buffer.bufferBlocks (pos % cfg.buffer.bufferSize)
  else store.disk pos

/-- Every slot holds a block of its own residue, and the dump threads check slots. -/
structure WellFormed : Prop where
  diskId_lt : ∀ slot < cfg.totalBlockNum, store.buffer.blockDiskId slot < cfg.diskBlockNum
  diskId_mod : ∀ slot < cfg.totalBlockNum,
    store.buffer.blockDiskId slot % cfg.totalBlockNum = slot
  checkId_lt : ∀ dumper, store.checkId dumper < cfg.totalBlockNum

variable {cfg store} {threadId dumper pos : ℕ} {req : WriteRequest}

/-! ## Positions, blocks and slots -/

theorem slotOf_lt (pos : ℕ) : cfg.buffer.slotOf pos < cfg.totalBlockNum :=
  Nat.mod_lt _ cfg.totalBlockNum_pos

/-- Inside the disk the block of a position is its quotient. -/
theorem diskIdOf_eq (hpos : pos < cfg.dataDiskSize) :
    cfg.buffer.diskIdOf pos = pos / cfg.blockSize := by
  rw [cfg.diskSize_eq] at hpos
  exact Nat.mod_eq_of_lt (Nat.div_lt_of_lt_mul (Nat.mul_comm cfg.diskBlockNum _ ▸ hpos))

theorem slotOf_eq (hpos : pos < cfg.dataDiskSize) :
    cfg.buffer.slotOf pos = cfg.buffer.diskIdOf pos % cfg.totalBlockNum := by
  rw [diskIdOf_eq hpos]
  rfl

/-- The address of a position in the ring: its slot, and its place in its block. -/
theorem mod_bufferSize (pos : ℕ) : pos % cfg.buffer.bufferSize =
    cfg.buffer.slotOf pos * cfg.blockSize + pos % cfg.blockSize := by
  calc pos % cfg.buffer.bufferSize = pos % (cfg.blockSize * cfg.totalBlockNum) := by
        rw [Nat.mul_comm]
        rfl
    _ = pos % cfg.blockSize + cfg.blockSize * (pos / cfg.blockSize % cfg.totalBlockNum) :=
        Nat.mod_mul
    _ = cfg.buffer.slotOf pos * cfg.blockSize + pos % cfg.blockSize := by
        rw [Nat.add_comm, Nat.mul_comm]
        rfl

theorem posIn_lt {cell offset : ℕ} (h : offset < cfg.cellSize) :
    cfg.reader.posIn cell offset < cfg.dataDiskSize := by
  have hcell : cell % cfg.cellNum + 1 ≤ cfg.cellNum := Nat.mod_lt _ cfg.cellNum_pos
  calc cfg.reader.posIn cell offset < (cell % cfg.cellNum + 1) * cfg.cellSize := by
        rw [ReaderConfig.posIn, Nat.succ_mul]
        exact Nat.add_lt_add_left h _
    _ ≤ cfg.cellNum * cfg.cellSize := Nat.mul_le_mul_right _ hcell
    _ = cfg.dataDiskSize := cfg.diskSize_eq_cells.symm

/-- The bytes of the call lie in one block of the disk. -/
def InBlock (cfg : DataPathConfig) (req : WriteRequest) : Prop :=
  req.diskPos < cfg.dataDiskSize ∧ req.diskPos % cfg.blockSize + req.data.length ≤ cfg.blockSize

theorem inBlock_of_inCell {cell : ℕ} (h : DPDKReader.InCell cfg.reader cell req) :
    InBlock cfg req := by
  obtain ⟨offset, hoffset, hpos, hle⟩ := h
  refine ⟨hpos ▸ posIn_lt hoffset, ?_⟩
  have hcell : cell % cfg.cellNum % cfg.cellsPerBlock + 1 ≤ cfg.cellsPerBlock :=
    Nat.mod_lt _ cfg.cellsPerBlock_pos
  have hmod : req.diskPos % cfg.blockSize =
      cell % cfg.cellNum % cfg.cellsPerBlock * cfg.cellSize + offset := by
    rw [hpos, ReaderConfig.posIn, ← cfg.cellsPerBlock_mul, Nat.mul_comm cfg.cellsPerBlock,
      Nat.mod_mul, Nat.mul_add_mod_self_right, Nat.mod_eq_of_lt hoffset,
      Nat.mul_comm _ cfg.cellSize,
      Nat.mul_add_div cfg.cellSize_pos, Nat.div_eq_of_lt hoffset, Nat.add_zero, Nat.add_comm,
      Nat.mul_comm]
  have hend : offset + req.data.length ≤ cfg.cellSize := hle
  calc req.diskPos % cfg.blockSize + req.data.length
      ≤ cell % cfg.cellNum % cfg.cellsPerBlock * cfg.cellSize + cfg.cellSize := by
        rw [hmod, Nat.add_assoc]
        exact Nat.add_le_add_left hend _
    _ = (cell % cfg.cellNum % cfg.cellsPerBlock + 1) * cfg.cellSize := (Nat.succ_mul _ _).symm
    _ ≤ cfg.cellsPerBlock * cfg.cellSize := Nat.mul_le_mul_right _ hcell
    _ = cfg.blockSize := cfg.cellsPerBlock_mul

/-! ## What the steps do to the view -/

/-- `pos` is one of the bytes the call writes. -/
def Touches (req : WriteRequest) (pos : ℕ) : Prop :=
  req.diskPos ≤ pos ∧ pos < req.diskPos + req.data.length

/-- The copy into the ring does not run over its end. -/
theorem ringWrite_eq (hblock : InBlock cfg req) (mem : Memory) :
    mem.ringWrite cfg.buffer.bufferSize req.diskPos req.data =
      mem.write (req.diskPos % cfg.buffer.bufferSize) req.data := by
  have hslot : (cfg.buffer.slotOf req.diskPos + 1) * cfg.blockSize ≤ cfg.buffer.bufferSize :=
    Nat.mul_le_mul_right _ (slotOf_lt req.diskPos)
  rw [Nat.succ_mul] at hslot
  have hlen := hblock.2
  rw [Memory.ringWrite, if_neg]
  rw [mod_bufferSize]
  omega

/-- Positions of one held block and of the same slot are told apart by the ring. -/
theorem touches_of_ring (hblock : InBlock cfg req) (hpos : pos < cfg.dataDiskSize)
    (hreq : store.buffer.Holds cfg.buffer req.diskPos) (hheld : store.buffer.Holds cfg.buffer pos)
    (hle : req.diskPos % cfg.buffer.bufferSize ≤ pos % cfg.buffer.bufferSize)
    (hlt : pos % cfg.buffer.bufferSize < req.diskPos % cfg.buffer.bufferSize + req.data.length) :
    Touches req pos := by
  have hlen := hblock.2
  have hmod : pos % cfg.blockSize < cfg.blockSize := Nat.mod_lt _ cfg.blockSize_pos
  rw [mod_bufferSize, mod_bufferSize] at hle hlt
  have hslot : cfg.buffer.slotOf pos = cfg.buffer.slotOf req.diskPos := by
    refine Nat.le_antisymm ?_ ?_
    · refine Nat.lt_succ_iff.mp (lt_of_mul_lt_mul_right ?_ cfg.blockSize.zero_le)
      rw [Nat.succ_mul]
      omega
    · refine Nat.lt_succ_iff.mp (lt_of_mul_lt_mul_right ?_ cfg.blockSize.zero_le)
      rw [Nat.succ_mul]
      omega
  rw [DataBlockBuffer.Holds] at hreq hheld
  have hquot : pos / cfg.blockSize = req.diskPos / cfg.blockSize := by
    rw [← diskIdOf_eq hpos, ← diskIdOf_eq hblock.1, ← hheld, ← hreq, hslot]
  have hdiv := Nat.div_add_mod pos cfg.blockSize
  have hdivReq := Nat.div_add_mod req.diskPos cfg.blockSize
  rw [hquot] at hdiv
  rw [hslot] at hle hlt
  rw [Touches]
  omega

/-- The bytes of a write that succeeds. -/
theorem view_write_of_touches (hblock : InBlock cfg req)
    (hwritten : (store.buffer.writeBlock cfg.buffer threadId req).1 = true) {k : ℕ}
    (hk : k < req.data.length) :
    (store.write cfg threadId req).view cfg (req.diskPos + k) = req.data[k] := by
  have hlen := hblock.2
  have hdiv : (req.diskPos + k) / cfg.blockSize = req.diskPos / cfg.blockSize := by
    have hsplit := Nat.div_add_mod req.diskPos cfg.blockSize
    have hsum : req.diskPos + k = cfg.blockSize * (req.diskPos / cfg.blockSize) +
        (req.diskPos % cfg.blockSize + k) := by omega
    have hsmall : (req.diskPos % cfg.blockSize + k) / cfg.blockSize = 0 :=
      Nat.div_eq_of_lt (by omega)
    rw [hsum, Nat.mul_add_div cfg.blockSize_pos, hsmall, Nat.add_zero]
  have hslot : cfg.buffer.slotOf (req.diskPos + k) = cfg.buffer.slotOf req.diskPos := by
    change (req.diskPos + k) / cfg.blockSize % _ = _
    rw [hdiv]
    rfl
  have hid : cfg.buffer.diskIdOf (req.diskPos + k) = cfg.buffer.diskIdOf req.diskPos := by
    change (req.diskPos + k) / cfg.blockSize % _ = _
    rw [hdiv]
    rfl
  have hholds : (store.write cfg threadId req).buffer.Holds cfg.buffer (req.diskPos + k) := by
    rw [DataBlockBuffer.Holds, write, DataBlockBuffer.writeBlock_blockDiskId, hslot, hid]
    exact (DataBlockBuffer.writeBlock_fst.mp hwritten).1
  have haddr : (req.diskPos + k) % cfg.buffer.bufferSize =
      req.diskPos % cfg.buffer.bufferSize + k := by
    have hsplit := Nat.div_add_mod req.diskPos cfg.blockSize
    have hsplitAdd := Nat.div_add_mod (req.diskPos + k) cfg.blockSize
    rw [hdiv] at hsplitAdd
    rw [mod_bufferSize, mod_bufferSize, hslot]
    omega
  rw [view, if_pos hholds, haddr, write, DataBlockBuffer.writeBlock_bufferBlocks, if_pos hwritten,
    ringWrite_eq hblock, Memory.write_apply_inside _ _ _ hk]

/-- A write leaves every other byte alone, whether it succeeds or not. -/
theorem view_write_of_not_touches (hblock : InBlock cfg req) (hpos : pos < cfg.dataDiskSize)
    (hno : ¬ Touches req pos) :
    (store.write cfg threadId req).view cfg pos = store.view cfg pos := by
  have hiff : (store.write cfg threadId req).buffer.Holds cfg.buffer pos ↔
      store.buffer.Holds cfg.buffer pos := by
    rw [DataBlockBuffer.Holds, write, DataBlockBuffer.writeBlock_blockDiskId]
    rfl
  by_cases hheld : store.buffer.Holds cfg.buffer pos
  · rw [view, view, if_pos (hiff.mpr hheld), if_pos hheld, write,
      DataBlockBuffer.writeBlock_bufferBlocks]
    split_ifs with hwritten
    · rw [ringWrite_eq hblock]
      refine Memory.write_apply_outside ?_
      by_contra hin
      push Not at hin
      exact hno (touches_of_ring hblock hpos (DataBlockBuffer.writeBlock_fst.mp hwritten).1 hheld
        hin.1 hin.2)
    · rfl
  · rw [view, view, if_neg fun h => hheld (hiff.mp h), if_neg hheld, write]

theorem WellFormed.write (h : WellFormed cfg store) (threadId : ℕ) (req : WriteRequest) :
    WellFormed cfg (store.write cfg threadId req) where
  diskId_lt := by
    rw [Store.write, DataBlockBuffer.writeBlock_blockDiskId]
    exact h.diskId_lt
  diskId_mod := by
    rw [Store.write, DataBlockBuffer.writeBlock_blockDiskId]
    exact h.diskId_mod
  checkId_lt := by
    intro dumper
    rw [checkId, Store.write, DataBlockBuffer.writeBlock_blockCheckIds]
    exact h.checkId_lt dumper

theorem retire_blockDiskId (slot : ℕ) : (store.retire cfg dumper).buffer.blockDiskId slot =
    if slot = store.checkId dumper then store.takenUp cfg dumper
    else store.buffer.blockDiskId slot := by
  rw [retire]
  simp only [DataBlockBuffer.recycleBlock, DataBlockBuffer.getBlock_blockDiskId,
    DataBlockBuffer.getBlock_blockId, Function.update_apply]
  rfl

theorem WellFormed.retire (h : WellFormed cfg store) (dumper : ℕ) :
    WellFormed cfg (store.retire cfg dumper) where
  diskId_lt := by
    intro slot hslot
    rw [retire_blockDiskId]
    split_ifs
    · exact Nat.mod_lt _ cfg.diskBlockNum_pos
    · exact h.diskId_lt slot hslot
  diskId_mod := by
    intro slot hslot
    rw [retire_blockDiskId]
    split_ifs with hcheck
    · rw [takenUp, Nat.mod_mod_of_dvd _ cfg.totalBlockNum_dvd, Nat.add_mod_right, ← hcheck]
      exact h.diskId_mod slot hslot
    · exact h.diskId_mod slot hslot
  checkId_lt := by
    intro other
    change ((store.buffer.getBlock cfg.buffer dumper).2.blockCheckIds).getD other 0 < _
    rw [DataBlockBuffer.getBlock_blockCheckIds]
    by_cases hother : other < store.buffer.blockCheckIds.length ∧ other = dumper
    · obtain ⟨hlt, rfl⟩ := hother
      simp only [List.getD_eq_getElem?_getD, List.getElem?_set_self hlt, Option.getD_some]
      exact Nat.mod_lt _ cfg.totalBlockNum_pos
    · have hsame : (store.buffer.blockCheckIds.set dumper
          ((store.buffer.blockCheckIds.getD dumper 0 + store.buffer.blockCheckIds.length) %
            cfg.totalBlockNum)).getD other 0 = store.checkId other := by
        rw [checkId, List.getD_eq_getElem?_getD, List.getElem?_set]
        split_ifs with hdumper hlt
        · exact absurd ⟨hdumper ▸ hlt, hdumper.symm⟩ hother
        · rw [List.getD_eq_getElem?_getD, List.getElem?_eq_none (hdumper ▸ not_lt.mp hlt)]
        · rfl
      rw [hsame]
      exact h.checkId_lt other

/-- Retiring a block moves it to the disk; only the block taken up looks different. -/
theorem view_retire (h : WellFormed cfg store) (hpos : pos < cfg.dataDiskSize)
    (hkept : cfg.buffer.diskIdOf pos ≠ store.takenUp cfg dumper) :
    (store.retire cfg dumper).view cfg pos = store.view cfg pos := by
  have hcheck := h.checkId_lt dumper
  have hdisk : (store.retire cfg dumper).disk = store.disk.write
      (store.buffer.blockDiskId (store.checkId dumper) * cfg.blockSize)
      (store.buffer.bufferBlocks.read (store.checkId dumper * cfg.blockSize) cfg.blockSize) := rfl
  have hbuffer : (store.retire cfg dumper).buffer.bufferBlocks = store.buffer.bufferBlocks := rfl
  have hdiv := Nat.div_add_mod pos cfg.blockSize
  have hmod : pos % cfg.blockSize < cfg.blockSize := Nat.mod_lt _ cfg.blockSize_pos
  by_cases hblock : cfg.buffer.diskIdOf pos = store.buffer.blockDiskId (store.checkId dumper)
  · -- the block being dumped: its byte comes from the buffer either way
    have hslot : cfg.buffer.slotOf pos = store.checkId dumper := by
      rw [slotOf_eq hpos, hblock, h.diskId_mod _ hcheck]
    have hheld : store.buffer.Holds cfg.buffer pos := by
      rw [DataBlockBuffer.Holds, hslot, hblock]
    have hleft : ¬ (store.retire cfg dumper).buffer.Holds cfg.buffer pos := by
      rw [DataBlockBuffer.Holds, hslot, retire_blockDiskId, if_pos rfl]
      exact fun hsame => hkept hsame.symm
    have haddr : pos = store.buffer.blockDiskId (store.checkId dumper) * cfg.blockSize +
        pos % cfg.blockSize := by
      rw [← hblock, diskIdOf_eq hpos, Nat.mul_comm]
      exact hdiv.symm
    rw [view, if_neg hleft, view, if_pos hheld, hdisk, mod_bufferSize, hslot]
    have hbyte := Memory.write_apply_inside store.disk
      (store.buffer.blockDiskId (store.checkId dumper) * cfg.blockSize)
      (store.buffer.bufferBlocks.read (store.checkId dumper * cfg.blockSize) cfg.blockSize)
      (k := pos % cfg.blockSize) (by rwa [Memory.length_read])
    rw [← haddr] at hbyte
    rw [hbyte]
    simp [Memory.read]
  · have hother : (store.retire cfg dumper).buffer.Holds cfg.buffer pos ↔
        store.buffer.Holds cfg.buffer pos := by
      rw [DataBlockBuffer.Holds, DataBlockBuffer.Holds, retire_blockDiskId]
      by_cases hslot : cfg.buffer.slotOf pos = store.checkId dumper
      · rw [if_pos hslot, hslot]
        exact iff_of_false (fun hsame => hkept hsame.symm) fun hsame => hblock hsame.symm
      · rw [if_neg hslot]
    have hsame : (store.retire cfg dumper).disk pos = store.disk pos := by
      rw [hdisk]
      refine Memory.write_apply_outside ?_
      rw [Memory.length_read]
      rw [diskIdOf_eq hpos] at hblock
      by_contra hin
      push Not at hin
      refine hblock (Nat.le_antisymm ?_ ?_)
      · exact Nat.lt_succ_iff.mp ((Nat.div_lt_iff_lt_mul cfg.blockSize_pos).mpr
          (by rw [Nat.succ_mul]; exact hin.2))
      · exact (Nat.le_div_iff_mul_le cfg.blockSize_pos).mpr hin.1
    by_cases hheld : store.buffer.Holds cfg.buffer pos
    · rw [view, view, if_pos (hother.mpr hheld), if_pos hheld, hbuffer]
    · rw [view, view, if_neg fun hnow => hheld (hother.mp hnow), if_neg hheld, hsame]

/-! ## The calls of one thread -/

/-- The two calls have no byte in common. -/
def Apart (first second : WriteRequest) : Prop :=
  first.diskPos + first.data.length ≤ second.diskPos ∨
    second.diskPos + second.data.length ≤ first.diskPos

theorem Apart.symm {first second : WriteRequest} (h : Apart first second) : Apart second first :=
  Or.symm h

/-- From one store to another the thread makes the calls of a list in order: new
data is retried until it is accepted, the result of any other call is ignored.
Other threads may write elsewhere, and blocks are retired, except that no slot
takes up a disk block again that one of the calls `kept` has written new data in. -/
inductive Stores (cfg : DataPathConfig) (threadId : ℕ) :
    (kept reqs : List WriteRequest) → Store → Store → Prop
  | done {kept store} : Stores cfg threadId kept [] store store
  | accepted {kept req rest store final} : req.newData = true →
      (store.buffer.writeBlock cfg.buffer threadId req).1 = true →
      Stores cfg threadId (req :: kept) rest (store.write cfg threadId req) final →
      Stores cfg threadId kept (req :: rest) store final
  | refused {kept req rest store final} : req.newData = true →
      (store.buffer.writeBlock cfg.buffer threadId req).1 = false →
      Stores cfg threadId kept (req :: rest) (store.write cfg threadId req) final →
      Stores cfg threadId kept (req :: rest) store final
  | patch {kept req rest store final} : req.newData = false →
      Stores cfg threadId kept rest (store.write cfg threadId req) final →
      Stores cfg threadId kept (req :: rest) store final
  | other {kept reqs store final req} (writer : ℕ) : InBlock cfg req →
      (∀ own ∈ kept ++ reqs, Apart req own) →
      Stores cfg threadId kept reqs (store.write cfg writer req) final →
      Stores cfg threadId kept reqs store final
  | retire {kept reqs store final} (dumper : ℕ) :
      (∀ own ∈ kept, cfg.buffer.diskIdOf own.diskPos ≠ store.takenUp cfg dumper) →
      Stores cfg threadId kept reqs (store.retire cfg dumper) final →
      Stores cfg threadId kept reqs store final

variable {kept reqs : List WriteRequest} {final : Store} {own : WriteRequest}

/-- All bytes of the call are in the store. -/
def Has (cfg : DataPathConfig) (store : Store) (own : WriteRequest) : Prop :=
  (store.view cfg).read own.diskPos own.data.length = own.data

theorem diskIdOf_add (hblock : InBlock cfg own) {k : ℕ} (hk : k < own.data.length) :
    own.diskPos + k < cfg.dataDiskSize ∧
      cfg.buffer.diskIdOf (own.diskPos + k) = cfg.buffer.diskIdOf own.diskPos := by
  obtain ⟨hpos, hlen⟩ := hblock
  have hsplit := Nat.div_add_mod own.diskPos cfg.blockSize
  have hquot : own.diskPos / cfg.blockSize < cfg.diskBlockNum := by
    rw [cfg.diskSize_eq] at hpos
    exact Nat.div_lt_of_lt_mul (Nat.mul_comm cfg.diskBlockNum _ ▸ hpos)
  have hend : cfg.blockSize * (own.diskPos / cfg.blockSize) + cfg.blockSize ≤ cfg.dataDiskSize := by
    rw [cfg.diskSize_eq, ← Nat.mul_succ, Nat.mul_comm]
    exact Nat.mul_le_mul_right _ hquot
  refine ⟨by omega, ?_⟩
  have hsum : own.diskPos + k = cfg.blockSize * (own.diskPos / cfg.blockSize) +
      (own.diskPos % cfg.blockSize + k) := by omega
  have hsmall : (own.diskPos % cfg.blockSize + k) / cfg.blockSize = 0 :=
    Nat.div_eq_of_lt (by omega)
  change (own.diskPos + k) / cfg.blockSize % _ = _
  rw [hsum, Nat.mul_add_div cfg.blockSize_pos, hsmall, Nat.add_zero]
  rfl

theorem Has.write (h : Has cfg store own) (hown : InBlock cfg own) (hblock : InBlock cfg req)
    (hapart : Apart req own) : Has cfg (store.write cfg threadId req) own := by
  have hsame : ((store.write cfg threadId req).view cfg).read own.diskPos own.data.length =
      (store.view cfg).read own.diskPos own.data.length := by
    refine Memory.read_congr fun k hk => ?_
    refine view_write_of_not_touches hblock (diskIdOf_add hown hk).1 ?_
    rw [Apart] at hapart
    rw [Touches]
    omega
  exact hsame.trans h

theorem Has.retire (h : Has cfg store own) (hwell : WellFormed cfg store) (hown : InBlock cfg own)
    (hkept : cfg.buffer.diskIdOf own.diskPos ≠ store.takenUp cfg dumper) :
    Has cfg (store.retire cfg dumper) own := by
  have hsame : ((store.retire cfg dumper).view cfg).read own.diskPos own.data.length =
      (store.view cfg).read own.diskPos own.data.length := by
    refine Memory.read_congr fun k hk => ?_
    obtain ⟨hpos, hid⟩ := diskIdOf_add hown hk
    exact view_retire hwell hpos (hid ▸ hkept)
  exact hsame.trans h

theorem has_of_written (hblock : InBlock cfg req)
    (hwritten : (store.buffer.writeBlock cfg.buffer threadId req).1 = true) :
    Has cfg (store.write cfg threadId req) req := by
  refine List.ext_getElem (Memory.length_read ..) fun k _ hk => ?_
  rw [← view_write_of_touches hblock hwritten hk]
  simp [Memory.read]

/-- What is in the store stays there while the calls still to come are elsewhere. -/
theorem Stores.keeps (h : Stores cfg threadId kept reqs store final) (hwell : WellFormed cfg store)
    (hreqs : ∀ req ∈ reqs, InBlock cfg req) (hmem : own ∈ kept) (hown : InBlock cfg own)
    (hapart : ∀ req ∈ reqs, Apart req own) (hhas : Has cfg store own) : Has cfg final own := by
  induction h with
  | done => exact hhas
  | accepted _ _ _ ih =>
      refine ih (hwell.write _ _) (fun r hr => hreqs r (.tail _ hr)) (.tail _ hmem)
        (fun r hr => hapart r (.tail _ hr)) ?_
      exact hhas.write hown (hreqs _ (.head _)) (hapart _ (.head _))
  | refused _ _ _ ih =>
      exact ih (hwell.write _ _) hreqs hmem hapart
        (hhas.write hown (hreqs _ (.head _)) (hapart _ (.head _)))
  | patch _ _ ih =>
      refine ih (hwell.write _ _) (fun r hr => hreqs r (.tail _ hr)) hmem
        (fun r hr => hapart r (.tail _ hr)) ?_
      exact hhas.write hown (hreqs _ (.head _)) (hapart _ (.head _))
  | other writer hblock helse _ ih =>
      exact ih (hwell.write _ _) hreqs hmem hapart
        (hhas.write hown hblock (helse _ (List.mem_append_left _ hmem)))
  | retire dumper hkept _ ih =>
      exact ih (hwell.retire _) hreqs hmem hapart (hhas.retire hwell hown (hkept _ hmem))

/-- A call of new data is in the store in the end if the calls after it are elsewhere. -/
theorem Stores.has (h : Stores cfg threadId kept reqs store final) (hwell : WellFormed cfg store)
    (hreqs : ∀ req ∈ reqs, InBlock cfg req) {before after : List WriteRequest}
    (hsplit : reqs = before ++ own :: after) (hnew : own.newData = true)
    (hapart : ∀ req ∈ after, Apart req own) : Has cfg final own := by
  induction h generalizing before with
  | done => exact absurd hsplit (List.append_ne_nil_of_right_ne_nil _ (List.cons_ne_nil _ _)).symm
  | @accepted kept req rest store final _ hwritten hrest ih =>
      have hwellNext := hwell.write threadId req
      have hrestReqs : ∀ r ∈ rest, InBlock cfg r := fun r hr => hreqs r (.tail _ hr)
      cases before with
      | nil =>
          obtain ⟨rfl, rfl⟩ := List.cons.inj hsplit
          exact hrest.keeps hwellNext hrestReqs (.head _) (hreqs _ (.head _)) hapart
            (has_of_written (hreqs _ (.head _)) hwritten)
      | cons first before => exact ih hwellNext hrestReqs (List.cons.inj hsplit).2
  | refused _ _ _ ih => exact ih (hwell.write _ _) hreqs hsplit
  | @patch kept req rest store final hold _ ih =>
      cases before with
      | nil =>
          obtain ⟨rfl, -⟩ := List.cons.inj hsplit
          exact absurd (hold.symm.trans hnew) (by decide)
      | cons first before =>
          exact ih (hwell.write _ _) (fun r hr => hreqs r (.tail _ hr)) (List.cons.inj hsplit).2
  | other writer _ _ _ ih => exact ih (hwell.write _ _) hreqs hsplit
  | retire dumper _ _ ih => exact ih (hwell.retire _) hreqs hsplit

/-- A block that has left the buffer is read from the disk. -/
theorem Has.disk (h : Has cfg store own) (hown : InBlock cfg own)
    (hleft : ¬ store.buffer.Holds cfg.buffer own.diskPos) :
    store.disk.read own.diskPos own.data.length = own.data := by
  have hsame : store.disk.read own.diskPos own.data.length =
      (store.view cfg).read own.diskPos own.data.length := by
    refine Memory.read_congr fun k hk => ?_
    obtain ⟨hpos, hid⟩ := diskIdOf_add hown hk
    have hgone : ¬ store.buffer.Holds cfg.buffer (own.diskPos + k) := by
      rw [DataBlockBuffer.Holds, slotOf_eq hpos, hid, ← slotOf_eq hown.1]
      exact hleft
    rw [view, if_neg hgone]
  exact hsame.trans h

end Store

end TrafficDatabase
