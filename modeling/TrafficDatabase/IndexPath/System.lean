import TrafficDatabase.Library.TransitionSystem
import TrafficDatabase.Data.IndexBlockBuffer

/-!
# The index path

The threads that share the index block buffer: the persisters, each of which
reserves a run of bytes on the index disk and writes it piece by piece
(`IndexPersister::persistMeta`), the index dump threads (`DiskManager::runIndex`)
and the memory managers that recycle.  A persister makes every `writeBlock` call
once: `MemoryPool::writeToBuffer` ignores what it returns.

What a persister writes is left open here, any pieces will do.  The buffer has no
delay, so a slot a dump thread has left is still ahead of its window when all
persisters have gone past the whole buffer.  This happens in every
configuration (`exists_filled`), and then a dump thread that comes round gets
slots once more that have not been recycled (`exists_handed_twice`).
-/

namespace TrafficDatabase

/-- The index block buffer with its threads; `persistDiskSize` is the disk size
the persisters reduce their positions by. -/
structure IndexPathConfig extends IndexBlockConfig where
  dumpThreadNum : ℕ
  persistDiskSize : ℕ
  accepted : (IndexBlockBuffer.new toIndexBlockConfig).isSome
  threadNum_le : threadNum ≤ totalBlockNum
  dumpThreadNum_pos : 0 < dumpThreadNum
  dumpThreadNum_le : dumpThreadNum ≤ totalBlockNum

namespace IndexPathConfig

variable (cfg : IndexPathConfig)

theorem diskBlockNum_gt : 4 * cfg.totalBlockNum < cfg.diskBlockNum := by
  have h := cfg.accepted
  unfold IndexBlockBuffer.new at h
  split_ifs at h with hpow hbig hzero
  · simp at h
  · simp at h
  · simp at h
  · rw [not_le, DataBlockBuffer.diskBlockTimes] at hbig
    omega

theorem totalBlockNum_pos : 0 < cfg.totalBlockNum :=
  cfg.dumpThreadNum_pos.trans_le cfg.dumpThreadNum_le

theorem blockSize_pos : 0 < cfg.blockSize := by
  have h := cfg.accepted
  unfold IndexBlockBuffer.new at h
  split_ifs at h with hpow hbig hzero
  · simp at h
  · simp at h
  · simp at h
  · refine Nat.pos_of_ne_zero fun hbs => hzero ?_
    rw [IndexBlockConfig.bufferSize, hbs, Nat.mul_zero]

end IndexPathConfig

namespace IndexPath

/-- A `writeBlock` call still to be made. -/
structure Piece where
  diskPos : ℕ
  data : List UInt8

/-- `recycled` counts the recycles of each slot; no step looks at it. -/
structure State where
  buffer : IndexBlockBuffer
  diskWritePos : ℕ
  pending : ℕ → List Piece
  inFlight : List ℕ
  dumps : List IndexBlock
  recycled : ℕ → ℕ

inductive Label
  | persist (writer : ℕ) (pieces : List (List UInt8))
  | attempt (writer : ℕ)
  | dump (dumper : ℕ)
  | recycle (slot : ℕ)

/-- The pieces one after the other from `diskPos` on. -/
def layOut (diskPos : ℕ) : List (List UInt8) → List Piece
  | [] => []
  | data :: rest => ⟨diskPos, data⟩ :: layOut (diskPos + data.length) rest

variable (cfg : IndexPathConfig)

def State.init : State :=
  { buffer :=
      { bufferBlocks := fun _ => 0
        blockDiskId := id
        diskWriteIds := List.range cfg.threadNum
        blockCheckIds := List.range cfg.dumpThreadNum }
    diskWritePos := 0
    pending := fun _ => []
    inFlight := []
    dumps := []
    recycled := fun _ => 0 }

namespace State

variable (st : State)

/-- The write positions handed out for a slot, in order. -/
def handOuts (slot : ℕ) : List ℕ :=
  (st.dumps.filter fun block => block.blockId = slot).map IndexBlock.writePos

def persist (writer : ℕ) (pieces : List (List UInt8)) : State :=
  { st with
    diskWritePos := st.diskWritePos + (pieces.map List.length).sum
    pending := Function.update st.pending writer
      (layOut (st.diskWritePos % cfg.persistDiskSize) pieces) }

def attempt (writer : ℕ) (piece : Piece) (rest : List Piece) : State :=
  { st with
    buffer := (st.buffer.writeBlock cfg.toIndexBlockConfig writer piece.data piece.diskPos).2
    pending := Function.update st.pending writer rest }

def dump (dumper slot : ℕ) : State :=
  let got := st.buffer.getBlock cfg.toIndexBlockConfig dumper
  { st with
    buffer := got.2
    inFlight := slot :: st.inFlight
    dumps := st.dumps ++ [got.1] }

def recycle (slot : ℕ) : State :=
  { st with
    buffer := st.buffer.recycleBlock cfg.toIndexBlockConfig slot
    inFlight := st.inFlight.erase slot
    recycled := Function.update st.recycled slot (st.recycled slot + 1) }

end State

def step (st : State) : Label → Option State
  | .persist writer pieces =>
      if writer < cfg.threadNum ∧ (st.pending writer).isEmpty then
        some (st.persist cfg writer pieces)
      else none
  | .attempt writer =>
      match st.pending writer with
      | piece :: rest =>
          if writer < cfg.threadNum then some (st.attempt cfg writer piece rest) else none
      | [] => none
  | .dump dumper =>
      if dumper < cfg.dumpThreadNum then
        (st.buffer.checkBlock cfg.toIndexBlockConfig dumper).map (st.dump cfg dumper)
      else none
  | .recycle slot => if slot ∈ st.inFlight then some (st.recycle cfg slot) else none

/-- The index path of a configuration. -/
def system : TransitionSystem State Label := { init := State.init cfg, step := step cfg }

/-- The states of any run. -/
abbrev Reachable (st : State) : Prop := (system cfg).Reachable (fun _ _ => True) st

variable {cfg} {st : State}

theorem Reachable.tail {label : Label} {next : State} (h : Reachable cfg st)
    (hstep : step cfg st label = some next) : Reachable cfg next :=
  @TransitionSystem.Reachable.step _ _ (system cfg) _ _ _ label h trivial hstep

/-! ## Every persister can get past the whole buffer -/

/-- The first `count` persisters have published a block past the buffer, and
nothing has been dumped. -/
structure Filled (cfg : IndexPathConfig) (count : ℕ) (st : State) : Prop where
  blockDiskId : st.buffer.blockDiskId = id
  blockCheckIds : st.buffer.blockCheckIds = List.range cfg.dumpThreadNum
  length : st.buffer.diskWriteIds.length = cfg.threadNum
  past : ∀ i < count, cfg.totalBlockNum ≤ st.buffer.diskWriteIds.getD i 0 ∧
    st.buffer.diskWriteIds.getD i 0 < 2 * cfg.totalBlockNum
  position : st.diskWritePos % cfg.persistDiskSize ≤ cfg.totalBlockNum * cfg.blockSize + count
  pending : st.pending = fun _ => []
  dumps : st.dumps = []
  recycled : st.recycled = fun _ => 0

theorem filled_init : Filled cfg 0 (State.init cfg) where
  blockDiskId := rfl
  blockCheckIds := rfl
  length := List.length_range
  past := nofun
  position := by
    change 0 % _ ≤ _
    rw [Nat.zero_mod]
    exact Nat.zero_le _
  pending := rfl
  dumps := rfl
  recycled := rfl

/-- The persister writes up to the end of the buffer if it is before it, then one byte more. -/
def passBuffer (cfg : IndexPathConfig) (diskPos : ℕ) : List (List UInt8) :=
  [List.replicate (cfg.totalBlockNum * cfg.blockSize - diskPos) 0, [0]]

theorem Filled.next {count : ℕ} (h : Filled cfg count st) (hcount : count < cfg.threadNum)
    (hreach : Reachable cfg st) : ∃ next, Reachable cfg next ∧ Filled cfg (count + 1) next := by
  set start := st.diskWritePos % cfg.persistDiskSize with hstart
  set pieces := passBuffer cfg start with hpieces
  set last := start + (cfg.totalBlockNum * cfg.blockSize - start) with hlast
  have hbs := cfg.blockSize_pos
  have hpos := cfg.totalBlockNum_pos
  have hdisk := cfg.diskBlockNum_gt
  -- the byte after the buffer is in one of the `totalBlockNum` blocks after it
  have hge : cfg.totalBlockNum ≤ last / cfg.blockSize := by
    rw [Nat.le_div_iff_mul_le hbs]
    omega
  have hlt : last / cfg.blockSize < 2 * cfg.totalBlockNum := by
    have hcell : cfg.totalBlockNum ≤ cfg.totalBlockNum * cfg.blockSize :=
      Nat.le_mul_of_pos_right _ hbs
    have := h.position
    have := cfg.threadNum_le
    rw [Nat.div_lt_iff_lt_mul hbs, Nat.mul_assoc]
    omega
  have hid : cfg.diskIdOf last = last / cfg.blockSize := by
    rw [IndexBlockConfig.diskIdOf, Nat.mod_eq_of_lt (by omega)]
  have hslot : cfg.slotOf last ≠ last / cfg.blockSize := by
    have := Nat.mod_lt (last / cfg.blockSize) hpos
    rw [IndexBlockConfig.slotOf]
    omega
  -- the three steps
  have hempty : (st.pending count).isEmpty := by rw [h.pending]; rfl
  have hpersist : step cfg st (.persist count pieces) = some (st.persist cfg count pieces) :=
    if_pos ⟨hcount, hempty⟩
  have hfirst : step cfg (st.persist cfg count pieces) (.attempt count) =
      some ((st.persist cfg count pieces).attempt cfg count
        ⟨start, List.replicate (cfg.totalBlockNum * cfg.blockSize - start) 0⟩ [⟨last, [0]⟩]) := by
    simp only [step, State.persist, Function.update_self, hpieces, passBuffer, layOut]
    rw [if_pos hcount, List.length_replicate]
  set middle := (st.persist cfg count pieces).attempt cfg count
    ⟨start, List.replicate (cfg.totalBlockNum * cfg.blockSize - start) 0⟩ [⟨last, [0]⟩] with hmiddle
  have hsecond : step cfg middle (.attempt count) =
      some (middle.attempt cfg count ⟨last, [0]⟩ []) := by
    simp only [step, hmiddle, State.attempt, Function.update_self]
    rw [if_pos hcount]
  have hreached : Reachable cfg (middle.attempt cfg count ⟨last, [0]⟩ []) :=
    ((hreach.tail hpersist).tail hfirst).tail hsecond
  have hmiddleIds : middle.buffer.blockDiskId = id := by
    rw [hmiddle]
    simp only [State.attempt, IndexBlockBuffer.writeBlock_blockDiskId]
    exact h.blockDiskId
  obtain ⟨first, hfirstIds⟩ : ∃ first, middle.buffer.diskWriteIds =
      st.buffer.diskWriteIds.set count first := by
    rw [hmiddle]
    exact IndexBlockBuffer.writeBlock_diskWriteIds
  have hids : (middle.attempt cfg count ⟨last, [0]⟩ []).buffer.diskWriteIds =
      st.buffer.diskWriteIds.set count (last / cfg.blockSize) := by
    simp only [State.attempt]
    rw [IndexBlockBuffer.writeBlock_diskWriteIds_of_ne, hid, hfirstIds, List.set_set]
    rw [hmiddleIds, hid]
    exact hslot
  refine ⟨_, hreached, ?_⟩
  exact {
    blockDiskId := by
      simp only [State.attempt, IndexBlockBuffer.writeBlock_blockDiskId]
      exact hmiddleIds
    blockCheckIds := by
      simp only [hmiddle, State.attempt, IndexBlockBuffer.writeBlock_blockCheckIds]
      exact h.blockCheckIds
    length := by rw [hids, List.length_set, h.length]
    past := by
      intro i hi
      rw [hids]
      by_cases hsame : i = count
      · subst hsame
        rw [List.getD_eq_getElem?_getD, List.getElem?_set_self (by rw [h.length]; exact hcount)]
        exact ⟨hge, hlt⟩
      · rw [List.getD_eq_getElem?_getD, List.getElem?_set_ne (Ne.symm hsame),
          ← List.getD_eq_getElem?_getD]
        exact h.past i (by omega)
    position := by
      change (st.diskWritePos + (pieces.map List.length).sum) % cfg.persistDiskSize ≤ _
      have hsum : (pieces.map List.length).sum = last - start + 1 := by
        rw [hpieces]
        simp only [passBuffer, List.map_cons, List.length_replicate, List.length_singleton,
          List.map_nil, List.sum_cons, List.sum_nil]
        omega
      rw [hsum, Nat.add_mod, ← hstart]
      refine (Nat.mod_le _ _).trans ?_
      have := Nat.mod_le (last - start + 1) cfg.persistDiskSize
      have := h.position
      omega
    pending := by
      simp only [hmiddle, State.attempt, State.persist, Function.update_idem, h.pending]
      exact Function.update_eq_self count _
    dumps := h.dumps
    recycled := h.recycled }

theorem exists_filled (cfg : IndexPathConfig) (count : ℕ) (hcount : count ≤ cfg.threadNum) :
    ∃ st, Reachable cfg st ∧ Filled cfg count st := by
  induction count with
  | zero => exact ⟨_, .init, filled_init⟩
  | succ count ih =>
      obtain ⟨st, hreach, hfilled⟩ := ih (by omega)
      exact hfilled.next hcount hreach

/-! ## A dump thread that comes round -/

/-- Nothing has been recycled, and the first dump thread has been handed `count` slots. -/
structure Dumping (cfg : IndexPathConfig) (count : ℕ) (st : State) : Prop where
  blockDiskId : st.buffer.blockDiskId = id
  length : st.buffer.blockCheckIds.length = cfg.dumpThreadNum
  cursor : st.buffer.blockCheckIds.getD 0 0 = count * cfg.dumpThreadNum % cfg.totalBlockNum
  past : ∀ i < cfg.threadNum, cfg.totalBlockNum ≤ st.buffer.diskWriteIds.getD i 0 ∧
    st.buffer.diskWriteIds.getD i 0 < 2 * cfg.totalBlockNum
  dumps : st.dumps.map IndexBlock.blockId =
    (List.range count).map fun k => k * cfg.dumpThreadNum % cfg.totalBlockNum
  recycled : st.recycled = fun _ => 0

theorem Filled.dumping (h : Filled cfg cfg.threadNum st) : Dumping cfg 0 st where
  blockDiskId := h.blockDiskId
  length := by rw [h.blockCheckIds, List.length_range]
  cursor := by
    rw [h.blockCheckIds, Nat.zero_mul, Nat.zero_mod]
    simp [List.getD_eq_getElem?_getD, List.getElem?_range cfg.dumpThreadNum_pos]
  past := h.past
  dumps := by rw [h.dumps]; rfl
  recycled := h.recycled

theorem Dumping.next {count : ℕ} (h : Dumping cfg count st) (hreach : Reachable cfg st) :
    ∃ next, Reachable cfg next ∧ Dumping cfg (count + 1) next := by
  have hdisk := cfg.diskBlockNum_gt
  set slot := count * cfg.dumpThreadNum % cfg.totalBlockNum with hslot
  have hlt : slot < cfg.totalBlockNum := Nat.mod_lt _ cfg.totalBlockNum_pos
  -- every persister is past the slot, and less than a disk short of its window
  have hcheck : st.buffer.checkBlock cfg.toIndexBlockConfig 0 = some slot := by
    refine IndexBlockBuffer.checkBlock_eq_some.mpr ⟨h.cursor.symm, fun i hi => ?_⟩
    obtain ⟨hge, hbound⟩ := h.past i hi
    simp only [IndexBlockBuffer.checkThread, decide_eq_true_eq, h.blockDiskId, id]
    rw [Nat.mod_eq_of_lt (by omega : slot < cfg.diskBlockNum),
      Nat.mod_eq_of_lt
        (by omega : slot + cfg.diskBlockNum - cfg.totalBlockNum * 2 < cfg.diskBlockNum)]
    exact .inr ⟨by omega, by omega, by omega⟩
  have hstep : step cfg st (.dump 0) = some (st.dump cfg 0 slot) := by
    simp only [step, if_pos cfg.dumpThreadNum_pos, hcheck]
    rfl
  refine ⟨_, hreach.tail hstep, ?_⟩
  have hids : (st.dump cfg 0 slot).buffer.blockCheckIds = st.buffer.blockCheckIds.set 0
      ((slot + cfg.dumpThreadNum) % cfg.totalBlockNum) := by
    change st.buffer.blockCheckIds.set 0
      ((st.buffer.blockCheckIds.getD 0 0 + st.buffer.blockCheckIds.length) % _) = _
    rw [h.cursor, h.length]
  exact {
    blockDiskId := h.blockDiskId
    length := by rw [hids, List.length_set, h.length]
    cursor := by
      rw [hids, List.getD_eq_getElem?_getD,
        List.getElem?_set_self (by rw [h.length]; exact cfg.dumpThreadNum_pos), Option.getD_some,
        hslot, Nat.mod_add_mod, Nat.succ_mul]
    past := h.past
    dumps := by
      change (st.dumps ++ [_]).map _ = _
      rw [List.map_append, h.dumps, List.range_succ, List.map_append]
      change _ ++ [st.buffer.blockCheckIds.getD 0 0] = _
      rw [h.cursor]
      rfl
    recycled := h.recycled }

theorem exists_dumping (cfg : IndexPathConfig) (count : ℕ) :
    ∃ st, Reachable cfg st ∧ Dumping cfg count st := by
  induction count with
  | zero =>
      obtain ⟨st, hreach, hfilled⟩ := exists_filled cfg cfg.threadNum le_rfl
      exact ⟨st, hreach, hfilled.dumping⟩
  | succ count ih =>
      obtain ⟨st, hreach, hdumping⟩ := ih
      exact hdumping.next hreach

/-- In every configuration some slot is handed out a second time before its
first recycle. -/
theorem exists_handed_twice (cfg : IndexPathConfig) :
    ∃ st, Reachable cfg st ∧ 2 ≤ (st.handOuts 0).length ∧ st.recycled 0 = 0 := by
  obtain ⟨st, hreach, hdumping⟩ := exists_dumping cfg (cfg.totalBlockNum + 1)
  refine ⟨st, hreach, ?_, by rw [hdumping.recycled]⟩
  have hlength : (st.handOuts 0).length =
      ((st.dumps.map IndexBlock.blockId).filter fun blockId => blockId = 0).length := by
    rw [State.handOuts, List.length_map, List.filter_map, List.length_map]
    rfl
  rw [hlength, hdumping.dumps]
  -- the first hand-out and the one after a whole turn
  obtain ⟨turn, hturn⟩ := Nat.exists_eq_succ_of_ne_zero cfg.totalBlockNum_pos.ne'
  rw [List.range_succ, List.map_append, List.filter_append, List.length_append, hturn,
    List.range_succ_eq_map, List.map_cons]
  simp

end IndexPath

end TrafficDatabase
