import Mathlib.Data.List.Chain
import TrafficDatabase.Data.DumpWindow
import TrafficDatabase.Index.PrefixBloomFilter
import TrafficDatabase.IndexPath.System
import TrafficDatabase.Storage.IndexPlacement

/-!
# An index block is not dumped before it is finished

`persistMeta` reserves a run with one `fetch_add`, writes the records of one type
pool by pool, sorts them where they lie in the buffer, and goes on to the next
type.  All a dump thread has to judge by is the block a persister published in its
last `writeBlock`.

That block tells it about the writes still to come, and about the sorts of the
types still to come, but not about the sort of the type whose records have just
been written: the write that goes over the end of a block publishes the next one,
and the sort of the records on both sides of it comes after.  Where no block is
handed out in between, nothing changes a block after it was handed out
(`unchanged_after_handOut`); otherwise the sort may (`sorted_after_handOut`).

Blocks and positions are compared over all laps of the disk.  The persisters
reduce their positions by the size of a disk of their own, so a lap of positions
counts for as many laps of the index disk as that disk takes.
-/

namespace TrafficDatabase

namespace IndexPathConfig

variable (cfg : IndexPathConfig)

def indexDiskSize : ℕ := cfg.diskBlockNum * cfg.blockSize

/-- The blocks a lap of the persisters' positions counts for: whole laps of the index disk. -/
def lapBlockNum : ℕ :=
  cfg.diskBlockNum * ((cfg.persistDiskSize + cfg.indexDiskSize - 1) / cfg.indexDiskSize)

/-- The blocks of the laps before the one of an unreduced position. -/
def lapStart (diskPos : ℕ) : ℕ := diskPos / cfg.persistDiskSize * cfg.lapBlockNum

/-- The block of an unreduced position, counted over all laps. -/
def blockOf (diskPos : ℕ) : ℕ :=
  cfg.lapStart diskPos + diskPos % cfg.persistDiskSize / cfg.blockSize

variable {cfg}

theorem persistDiskSize_le : cfg.persistDiskSize ≤ cfg.lapBlockNum * cfg.blockSize := by
  have hdisk : 0 < cfg.indexDiskSize :=
    Nat.mul_pos (by have := cfg.diskBlockNum_gt; omega) cfg.blockSize_pos
  have hcover : cfg.persistDiskSize ≤
      cfg.indexDiskSize * ((cfg.persistDiskSize + cfg.indexDiskSize - 1) / cfg.indexDiskSize) := by
    have hsplit := Nat.div_add_mod (cfg.persistDiskSize + cfg.indexDiskSize - 1) cfg.indexDiskSize
    have hlt := Nat.mod_lt (cfg.persistDiskSize + cfg.indexDiskSize - 1) hdisk
    omega
  calc cfg.persistDiskSize
      ≤ cfg.indexDiskSize *
          ((cfg.persistDiskSize + cfg.indexDiskSize - 1) / cfg.indexDiskSize) := hcover
    _ = cfg.lapBlockNum * cfg.blockSize := by
        rw [lapBlockNum, indexDiskSize, Nat.mul_right_comm]

theorem dvd_lapStart (diskPos : ℕ) : cfg.diskBlockNum ∣ cfg.lapStart diskPos :=
  Dvd.dvd.mul_left (Nat.dvd_mul_right ..) _

/-- Where both disks are of one size, the block of a position is what it looks like. -/
theorem blockOf_eq (h : cfg.persistDiskSize = cfg.indexDiskSize) (diskPos : ℕ) :
    cfg.blockOf diskPos = diskPos / cfg.blockSize := by
  have hdisk : 0 < cfg.indexDiskSize :=
    Nat.mul_pos (by have := cfg.diskBlockNum_gt; omega) cfg.blockSize_pos
  have hlap : cfg.lapBlockNum = cfg.diskBlockNum := by
    have hone : (cfg.indexDiskSize + cfg.indexDiskSize - 1) / cfg.indexDiskSize = 1 := by
      rw [Nat.div_eq_iff hdisk]
      omega
    rw [lapBlockNum, h, hone, Nat.mul_one]
  have hsplit : diskPos = diskPos / cfg.indexDiskSize * cfg.diskBlockNum * cfg.blockSize +
      diskPos % cfg.indexDiskSize := by
    rw [Nat.mul_assoc]
    exact (Nat.div_add_mod' diskPos (cfg.diskBlockNum * cfg.blockSize)).symm
  rw [blockOf, lapStart, hlap, h]
  conv_rhs => rw [hsplit]
  rw [Nat.add_comm (_ * cfg.blockSize), Nat.add_mul_div_right _ _ cfg.blockSize_pos, Nat.add_comm]

/-- A run that starts at one position ends in no later a block than a later position's. -/
theorem end_le_blockOf {first last : ℕ} (h : first ≤ last) :
    cfg.lapStart first + (first % cfg.persistDiskSize + (last - first)) / cfg.blockSize ≤
      cfg.blockOf last := by
  obtain ⟨laps, hlaps⟩ := Nat.exists_eq_add_of_le (Nat.div_le_div_right h :
    first / cfg.persistDiskSize ≤ last / cfg.persistDiskSize)
  have hfirst := Nat.div_add_mod' first cfg.persistDiskSize
  have hlast := Nat.div_add_mod' last cfg.persistDiskSize
  rw [hlaps, Nat.add_mul] at hlast
  have hend : first % cfg.persistDiskSize + (last - first) ≤
      last % cfg.persistDiskSize + laps * cfg.lapBlockNum * cfg.blockSize := by
    have hlap := Nat.mul_le_mul_left laps (persistDiskSize_le : cfg.persistDiskSize ≤ _)
    rw [← Nat.mul_assoc] at hlap
    omega
  calc cfg.lapStart first + (first % cfg.persistDiskSize + (last - first)) / cfg.blockSize
      ≤ cfg.lapStart first +
          (last % cfg.persistDiskSize + laps * cfg.lapBlockNum * cfg.blockSize) / cfg.blockSize :=
        Nat.add_le_add_left (Nat.div_le_div_right hend) _
    _ = cfg.blockOf last := by
        rw [Nat.add_mul_div_right _ _ cfg.blockSize_pos, blockOf, lapStart, lapStart, hlaps,
          Nat.add_mul]
        omega

end IndexPathConfig

namespace IndexBlockBuffer

variable (cfg : IndexBlockConfig) (buf : IndexBlockBuffer)

/-- The block a write publishes, not reduced. -/
def publishedBlock (diskPos len : ℕ) : ℕ :=
  if buf.blockDiskId (cfg.slotOf diskPos) ≠ cfg.diskIdOf diskPos ∨
      diskPos % cfg.blockSize + len < cfg.blockSize then diskPos / cfg.blockSize
  else diskPos / cfg.blockSize + 1

variable {cfg buf}

theorem writeBlock_publishes {threadId diskPos : ℕ} {data : List UInt8} :
    (buf.writeBlock cfg threadId data diskPos).2.diskWriteIds = buf.diskWriteIds.set threadId
      (buf.publishedBlock cfg diskPos data.length % cfg.diskBlockNum) := by
  by_cases hheld : buf.blockDiskId (cfg.slotOf diskPos) = cfg.diskIdOf diskPos
  · by_cases hcross : cfg.blockSize ≤ diskPos % cfg.blockSize + data.length
    · have hnext : buf.publishedBlock cfg diskPos data.length % cfg.diskBlockNum =
          (cfg.diskIdOf diskPos + 1) % cfg.diskBlockNum := by
        rw [publishedBlock, if_neg (by omega), IndexBlockConfig.diskIdOf, Nat.mod_add_mod]
      rw [hnext]
      simp only [writeBlock, setDiskWriteId, if_neg (not_not.mpr hheld), if_pos hcross]
      split_ifs <;> rfl
    · rw [publishedBlock, if_pos (.inr (not_le.mp hcross))]
      simp only [writeBlock, setDiskWriteId, if_neg (not_not.mpr hheld), if_neg hcross]
      rfl
  · rw [publishedBlock, if_pos (.inl hheld)]
    exact writeBlock_diskWriteIds_of_ne hheld

theorem le_publishedBlock {diskPos len : ℕ} :
    diskPos / cfg.blockSize ≤ buf.publishedBlock cfg diskPos len := by
  unfold publishedBlock
  split_ifs
  · exact le_rfl
  · exact Nat.le_succ _

theorem publishedBlock_le {diskPos len : ℕ} (hsize : 0 < cfg.blockSize) :
    buf.publishedBlock cfg diskPos len ≤ (diskPos + len) / cfg.blockSize := by
  unfold publishedBlock
  split_ifs with hstay
  · exact Nat.div_le_div_right (Nat.le_add_right ..)
  · rw [Nat.le_div_iff_mul_le hsize, Nat.add_mul, Nat.one_mul]
    have hsplit := Nat.div_add_mod' diskPos cfg.blockSize
    omega

/-- A sort changes nothing but the bytes. -/
theorem sortIndex_eq {std : StdSort} {startPos len keyLen : ℕ} {sorted : IndexBlockBuffer}
    (h : buf.sortIndex cfg std startPos len keyLen = some sorted) :
    sorted = { buf with bufferBlocks := sorted.bufferBlocks } := by
  unfold sortIndex at h
  simp only at h
  split_ifs at h
  all_goals
    obtain rfl := Option.some.inj h
    rfl

end IndexBlockBuffer

namespace SortedRuns

/-! ## The steps of `persistMeta` -/

/-- The records of one type: `start` is `current_offset`, `written` is
`index_offset`, `pieces` are the `writeBlock` calls still to be made. -/
structure TypeRun where
  type : IndexType
  start : ℕ
  written : ℕ
  pieces : List (List UInt8)

/-- The bytes of some pieces. -/
def bytes (pieces : List (List UInt8)) : ℕ := (pieces.map List.length).sum

/-- Where the records of the type end once all pieces are written. -/
def TypeRun.stop (run : TypeRun) : ℕ := run.start + run.written + bytes run.pieces

/-- A persister.  `lapStart` and `published` are the blocks of the laps before its
run and the block it published last, not reduced; no step looks at them. -/
structure Persister where
  types : List TypeRun
  lapStart : ℕ
  published : ℕ

/-- What `getBlock` handed out; no step looks at `diskBlock`, the block not reduced. -/
structure HandOut extends IndexBlock where
  diskBlock : ℕ

/-- `recycled` counts the recycles of each slot; no step looks at it. -/
structure State where
  buffer : IndexBlockBuffer
  diskWritePos : ℕ
  persisters : ℕ → Persister
  inFlight : List ℕ
  handOuts : List HandOut
  recycled : ℕ → ℕ

inductive Label
  | reserve (writer : ℕ) (pieces : IndexType → List (List UInt8))
  | call (writer : ℕ)
  | dump (dumper : ℕ)
  | recycle (slot : ℕ)

/-- The types one after the other from `start` on. -/
def layOut (pieces : IndexType → List (List UInt8)) : List IndexType → ℕ → List TypeRun
  | [], _ => []
  | type :: rest, start =>
      ⟨type, start, 0, pieces type⟩ :: layOut pieces rest (start + bytes (pieces type))

/-- `total_node_len`. -/
def totalNodeLen (pieces : IndexType → List (List UInt8)) : ℕ :=
  (IndexType.all.map fun type => bytes (pieces type)).sum

variable (cfg : IndexPathConfig) (std : StdSort)

namespace State

def init : State :=
  { buffer :=
      { bufferBlocks := fun _ => 0
        blockDiskId := id
        diskWriteIds := List.range cfg.threadNum
        blockCheckIds := List.range cfg.dumpThreadNum }
    diskWritePos := 0
    persisters := fun writer => { types := [], lapStart := 0, published := writer }
    inFlight := []
    handOuts := []
    recycled := fun _ => 0 }

variable (st : State)

/-- The block a slot holds, not reduced. -/
def held (slot : ℕ) : ℕ := slot + cfg.totalBlockNum * st.recycled slot

/-- The slot a dump thread checks. -/
def cursor (dumper : ℕ) : ℕ := st.buffer.blockCheckIds.getD dumper 0

def setTypes (writer : ℕ) (types : List TypeRun) (published : ℕ) : ℕ → Persister :=
  Function.update st.persisters writer { st.persisters writer with types, published }

def reserve (writer : ℕ) (pieces : IndexType → List (List UInt8)) : State :=
  { st with
    diskWritePos := st.diskWritePos + totalNodeLen pieces
    persisters := Function.update st.persisters writer
      { types := layOut pieces IndexType.all (st.diskWritePos % cfg.persistDiskSize)
        lapStart := cfg.lapStart st.diskWritePos
        published := (st.persisters writer).published } }

/-- A piece of `run` is written; the `types` come after it. -/
def write (writer : ℕ) (run : TypeRun) (data : List UInt8) (pieces : List (List UInt8))
    (types : List TypeRun) : State :=
  let diskPos := run.start + run.written
  { st with
    buffer := (st.buffer.writeBlock cfg.toIndexBlockConfig writer data diskPos).2
    persisters := st.setTypes writer
      ({ run with written := run.written + data.length, pieces } :: types)
      ((st.persisters writer).lapStart +
        st.buffer.publishedBlock cfg.toIndexBlockConfig diskPos data.length) }

/-- The records of `run` have been sorted to `buffer`. -/
def sorted (writer : ℕ) (types : List TypeRun) (buffer : IndexBlockBuffer) : State :=
  { st with buffer, persisters := st.setTypes writer types (st.persisters writer).published }

/-- The next call of a persister in the middle of `persistMeta`. -/
def call (writer : ℕ) : Option State :=
  match (st.persisters writer).types with
  | [] => none
  | run :: types =>
      match run.pieces with
      | data :: pieces => some (st.write cfg writer run data pieces types)
      | [] => (st.buffer.sortIndex cfg.toIndexBlockConfig std run.start run.written
          run.type.keyLen).map (st.sorted writer types)

def dump (dumper slot : ℕ) : State :=
  let got := st.buffer.getBlock cfg.toIndexBlockConfig dumper
  { st with
    buffer := got.2
    inFlight := slot :: st.inFlight
    handOuts := { toIndexBlock := got.1, diskBlock := st.held cfg slot } :: st.handOuts }

def recycle (slot : ℕ) : State :=
  { st with
    buffer := st.buffer.recycleBlock cfg.toIndexBlockConfig slot
    inFlight := st.inFlight.erase slot
    recycled := Function.update st.recycled slot (st.recycled slot + 1) }

end State

def step (st : State) : Label → Option State
  | .reserve writer pieces =>
      if writer < cfg.threadNum ∧ (st.persisters writer).types.isEmpty then
        some (st.reserve cfg writer pieces)
      else none
  | .call writer => if writer < cfg.threadNum then st.call cfg std writer else none
  | .dump dumper =>
      if dumper < cfg.dumpThreadNum then
        (st.buffer.checkBlock cfg.toIndexBlockConfig dumper).map (st.dump cfg dumper)
      else none
  | .recycle slot => if slot ∈ st.inFlight then some (st.recycle cfg slot) else none

/-- The persisters with their sorts, the dump threads and the recycles. -/
def system : TransitionSystem State Label := { init := State.init cfg, step := step cfg std }

/-! ## Blocks handed out and changed -/

namespace Persister

variable (p : Persister)

/-- Where the next call writes or sorts, and how many bytes. -/
def nextRange : Option (ℕ × ℕ) :=
  p.types.head?.map fun run =>
    match run.pieces with
    | data :: _ => (run.start + run.written, data.length)
    | [] => (run.start, run.written)

/-- The next call writes or sorts in the block. -/
def ReachesInto (diskBlock : ℕ) : Prop :=
  ∃ range ∈ p.nextRange, ∃ k < range.2,
    p.lapStart + (range.1 + k) / cfg.blockSize = diskBlock

/-- Records of one type that begin in the block or before it have been written up
to the end of the block or past it, and have not been sorted. -/
def Unsorted (diskBlock : ℕ) : Prop :=
  ∃ run ∈ p.types.head?, p.lapStart + run.start / cfg.blockSize ≤ diskBlock ∧
    diskBlock < p.lapStart + (run.start + run.written) / cfg.blockSize

instance : DecidablePred (p.ReachesInto cfg) := fun _ => by
  unfold ReachesInto
  infer_instance

instance : DecidablePred (p.Unsorted cfg) := fun _ => by
  unfold Unsorted
  infer_instance

end Persister

/-- A persister's next call, which writes or sorts in a block that has been handed
out, changes a byte of the slot handed out. -/
def LateChange (st : State) : Prop :=
  ∃ writer next, step cfg std st (.call writer) = some next ∧
    ∃ handOut ∈ st.handOuts, (st.persisters writer).ReachesInto cfg handOut.diskBlock ∧
      ∃ k < cfg.blockSize, next.buffer.bufferBlocks (handOut.buffer + k) ≠
        st.buffer.bufferBlocks (handOut.buffer + k)

/-- No block is handed out with records that run over its end still unsorted, or
more than the length of the window after what a persister has published, and no
run starts in a block before the one its persister was registered with. -/
def Settled (st : State) : Label → Prop
  | .reserve writer _ => writer ≤ cfg.blockOf st.diskWritePos
  | .dump dumper => ∀ i < cfg.threadNum,
      st.held cfg (st.cursor dumper) ≤ (st.persisters i).published + 2 * cfg.totalBlockNum ∧
        ¬ (st.persisters i).Unsorted cfg (st.held cfg (st.cursor dumper))
  | .call _ | .recycle _ => True

instance : ∀ st label, Decidable (Settled cfg st label)
  | _, .reserve _ _ => inferInstanceAs (Decidable (_ ≤ _))
  | _, .dump _ => inferInstanceAs (Decidable (∀ _ < _, _ ∧ ¬ _))
  | _, .call _ | _, .recycle _ => .isTrue trivial

variable {cfg std} {st next : State} {writer dumper slot : ℕ}

/-! ## What the steps do -/

theorem step_reserve_iff {pieces : IndexType → List (List UInt8)} :
    step cfg std st (.reserve writer pieces) = some next ↔
      (writer < cfg.threadNum ∧ (st.persisters writer).types = []) ∧
        st.reserve cfg writer pieces = next := by
  simp [step, List.isEmpty_iff]

theorem step_dump_iff : step cfg std st (.dump dumper) = some next ↔
    dumper < cfg.dumpThreadNum ∧ ∃ slot,
      st.buffer.checkBlock cfg.toIndexBlockConfig dumper = some slot ∧
        st.dump cfg dumper slot = next := by
  simp [step, Option.map_eq_some_iff]

theorem step_recycle_iff : step cfg std st (.recycle slot) = some next ↔
    slot ∈ st.inFlight ∧ st.recycle cfg slot = next := by
  simp [step]

/-- A call writes the next piece of a type, or sorts the type when all are written. -/
theorem step_call_cases (h : step cfg std st (.call writer) = some next) :
    writer < cfg.threadNum ∧ ∃ run types, (st.persisters writer).types = run :: types ∧
      ((∃ data pieces, run.pieces = data :: pieces ∧
          next = st.write cfg writer run data pieces types) ∨
        (run.pieces = [] ∧ ∃ buffer, next = st.sorted writer types buffer ∧
          buffer = { st.buffer with bufferBlocks := buffer.bufferBlocks })) := by
  simp only [step] at h
  split_ifs at h with hwriter
  refine ⟨hwriter, ?_⟩
  unfold State.call at h
  cases htypes : (st.persisters writer).types with
  | nil =>
      rw [htypes] at h
      cases h
  | cons run types =>
      refine ⟨run, types, rfl, ?_⟩
      simp only [htypes] at h
      cases hpieces : run.pieces with
      | cons data pieces =>
          simp only [hpieces, Option.some.injEq] at h
          exact .inl ⟨data, pieces, rfl, h.symm⟩
      | nil =>
          simp only [hpieces, Option.map_eq_some_iff] at h
          obtain ⟨buffer, hsort, rfl⟩ := h
          exact .inr ⟨rfl, buffer, rfl, IndexBlockBuffer.sortIndex_eq hsort⟩

/-! ## A persister never falls behind what it published -/

/-- The types of the run follow one another, the persister has published no block
after that of its next byte, and the run ends before the positions not yet
reserved, which are from `front` on. -/
structure Persister.InOrder (cfg : IndexPathConfig) (writer front : ℕ) (p : Persister) :
    Prop where
  laps : cfg.diskBlockNum ∣ p.lapStart
  laidOut : p.types.IsChain fun run next => next.start = run.stop ∧ next.written = 0
  published_le : ∀ run ∈ p.types.head?,
    p.published ≤ p.lapStart + (run.start + run.written) / cfg.blockSize
  stop_le : ∀ run ∈ p.types, p.lapStart + run.stop / cfg.blockSize ≤ front
  published_le_max : p.published ≤ max writer front

section Persister

variable {p : Persister} {front : ℕ} {run : TypeRun} {types : List TypeRun}

theorem Persister.InOrder.mono (h : p.InOrder cfg writer front) {later : ℕ}
    (hle : front ≤ later) : p.InOrder cfg writer later where
  laps := h.laps
  laidOut := h.laidOut
  published_le := h.published_le
  stop_le run hmem := (h.stop_le run hmem).trans hle
  published_le_max := h.published_le_max.trans (max_le_max le_rfl hle)

theorem Persister.InOrder.write (h : p.InOrder cfg writer front) (htypes : p.types = run :: types)
    {data : List UInt8} {pieces : List (List UInt8)} (hpieces : run.pieces = data :: pieces)
    {block : ℕ} (hblock : block ≤ (run.start + run.written + data.length) / cfg.blockSize) :
    Persister.InOrder cfg writer front
      { p with
        types := { run with written := run.written + data.length, pieces } :: types
        published := p.lapStart + block } := by
  have hstop : ({ run with written := run.written + data.length, pieces } : TypeRun).stop =
      run.stop := by
    simp only [TypeRun.stop, hpieces, bytes, List.map_cons, List.sum_cons]
    omega
  have hchain := h.laidOut
  have hstopLe := h.stop_le
  rw [htypes] at hchain hstopLe
  rw [List.isChain_cons] at hchain
  have hrun := hstopLe run List.mem_cons_self
  have hpublished : p.lapStart + block ≤
      p.lapStart + (run.start + (run.written + data.length)) / cfg.blockSize := by
    rw [← Nat.add_assoc]
    exact Nat.add_le_add_left hblock _
  refine ⟨h.laps, ?_, ?_, ?_, ?_⟩
  · rw [List.isChain_cons, hstop]
    exact hchain
  · rintro head hhead
    obtain rfl := Option.some.inj hhead
    exact hpublished
  · intro other hother
    rcases List.mem_cons.mp hother with rfl | htail
    · rw [hstop]
      exact hrun
    · exact hstopLe other (List.mem_cons_of_mem _ htail)
  · refine (hpublished.trans ?_).trans (le_max_right writer front)
    refine le_trans (Nat.add_le_add_left (Nat.div_le_div_right ?_) _) hrun
    rw [← hstop]
    exact Nat.le_add_right ..

theorem Persister.InOrder.sorted (h : p.InOrder cfg writer front)
    (htypes : p.types = run :: types) (hpieces : run.pieces = []) :
    Persister.InOrder cfg writer front { p with types } := by
  have hchain := h.laidOut
  rw [htypes, List.isChain_cons] at hchain
  refine ⟨h.laps, hchain.2, ?_, ?_, h.published_le_max⟩
  · intro head hhead
    obtain ⟨hstart, hwritten⟩ := hchain.1 head hhead
    have hpublished := h.published_le run (by rw [htypes]; rfl)
    rw [hstart, hwritten, Nat.add_zero, TypeRun.stop, hpieces]
    exact hpublished
  · intro other hother
    exact h.stop_le other (by rw [htypes]; exact List.mem_cons_of_mem _ hother)

end Persister

section LayOut

variable {pieces : IndexType → List (List UInt8)} {types : List IndexType} {start : ℕ}

theorem layOut_head {run : TypeRun} (h : run ∈ (layOut pieces types start).head?) :
    run.start = start ∧ run.written = 0 := by
  cases types with
  | nil => cases h
  | cons type rest =>
      obtain rfl := Option.some.inj h
      exact ⟨rfl, rfl⟩

theorem layOut_isChain : (layOut pieces types start).IsChain
    fun run next => next.start = run.stop ∧ next.written = 0 := by
  induction types generalizing start with
  | nil => exact .nil
  | cons type rest ih =>
      rw [layOut, List.isChain_cons]
      exact ⟨fun next hnext => layOut_head hnext, ih⟩

theorem layOut_stop_le {run : TypeRun} (h : run ∈ layOut pieces types start) :
    run.stop ≤ start + (types.map fun type => bytes (pieces type)).sum := by
  induction types generalizing start with
  | nil => cases h
  | cons type rest ih =>
      rw [List.map_cons, List.sum_cons]
      rcases List.mem_cons.mp h with rfl | hrest
      · simp only [TypeRun.stop]
        omega
      · have := ih hrest
        omega

end LayOut

/-- What holds in every state: the numbers the threads compare are residues of
blocks counted over all laps, and a block handed out is before every block a
persister has published and before the type a persister is at. -/
structure Inv (cfg : IndexPathConfig) (st : State) : Prop where
  length_writeIds : st.buffer.diskWriteIds.length = cfg.threadNum
  published : ∀ i < cfg.threadNum,
    st.buffer.diskWriteIds.getD i 0 = (st.persisters i).published % cfg.diskBlockNum
  held : ∀ slot < cfg.totalBlockNum,
    st.buffer.blockDiskId slot = st.held cfg slot % cfg.diskBlockNum
  cursor_lt : ∀ id ∈ st.buffer.blockCheckIds, id < cfg.totalBlockNum
  inFlight_lt : ∀ slot ∈ st.inFlight, slot < cfg.totalBlockNum
  inOrder : ∀ i, (st.persisters i).InOrder cfg i (cfg.blockOf st.diskWritePos)
  lt_published : ∀ handOut ∈ st.handOuts, ∀ i < cfg.threadNum,
    handOut.diskBlock < (st.persisters i).published
  lt_start : ∀ handOut ∈ st.handOuts, ∀ i < cfg.threadNum, ∀ run ∈ (st.persisters i).types.head?,
    handOut.diskBlock < (st.persisters i).lapStart + run.start / cfg.blockSize

theorem inv_init (cfg : IndexPathConfig) : Inv cfg (State.init cfg) where
  length_writeIds := List.length_range
  published i hi := by
    have hdisk := cfg.diskBlockNum_gt
    have hthreads := cfg.threadNum_le
    change (List.range cfg.threadNum).getD i 0 = i % cfg.diskBlockNum
    rw [List.getD_eq_getElem?_getD, List.getElem?_range hi, Nat.mod_eq_of_lt (by omega)]
    rfl
  held slot hslot := by
    have hdisk := cfg.diskBlockNum_gt
    change slot = (slot + cfg.totalBlockNum * 0) % _
    rw [Nat.mul_zero, Nat.add_zero, Nat.mod_eq_of_lt (by omega)]
  cursor_lt id hid := (List.mem_range.mp hid).trans_le cfg.dumpThreadNum_le
  inFlight_lt := nofun
  inOrder i := ⟨dvd_zero _, .nil, nofun, nofun, le_max_left ..⟩
  lt_published := nofun
  lt_start := nofun

/-! ### The four steps -/

theorem Inv.cursor (h : Inv cfg st) (dumper : ℕ) : st.cursor dumper < cfg.totalBlockNum := by
  unfold State.cursor
  rw [List.getD_eq_getElem?_getD]
  cases hid : st.buffer.blockCheckIds[dumper]? with
  | none => exact cfg.totalBlockNum_pos
  | some id => exact h.cursor_lt id (List.mem_of_getElem? hid)

theorem getD_set {ids : List ℕ} {i j value : ℕ} (h : i < ids.length) :
    (ids.set i value).getD j 0 = if j = i then value else ids.getD j 0 := by
  rw [List.getD_eq_getElem?_getD, List.getD_eq_getElem?_getD]
  split_ifs with hsame
  · rw [hsame, List.getElem?_set_self h, Option.getD_some]
  · rw [List.getElem?_set_ne (Ne.symm hsame)]

/-- A step of one persister keeps the invariant if it goes on from where the
persister was and publishes no earlier block than before. -/
theorem Inv.update (h : Inv cfg st) {buffer : IndexBlockBuffer} {diskWritePos : ℕ}
    {p : Persister} (hlater : cfg.blockOf st.diskWritePos ≤ cfg.blockOf diskWritePos)
    (hp : p.InOrder cfg writer (cfg.blockOf diskWritePos))
    (hlength : buffer.diskWriteIds.length = st.buffer.diskWriteIds.length)
    (hids : ∀ i < cfg.threadNum, buffer.diskWriteIds.getD i 0 =
      if i = writer then p.published % cfg.diskBlockNum else st.buffer.diskWriteIds.getD i 0)
    (hheld : buffer.blockDiskId = st.buffer.blockDiskId)
    (hcursors : buffer.blockCheckIds = st.buffer.blockCheckIds)
    (hpublished : (st.persisters writer).published ≤ p.published)
    (hstart : ∀ handOut ∈ st.handOuts, ∀ run ∈ p.types.head?,
      handOut.diskBlock < p.lapStart + run.start / cfg.blockSize) :
    Inv cfg { st with
      buffer, diskWritePos, persisters := Function.update st.persisters writer p } := by
  refine ⟨hlength.trans h.length_writeIds, ?_, ?_, ?_, h.inFlight_lt, ?_, ?_, ?_⟩
  · intro i hi
    rw [hids i hi]
    split_ifs with hsame
    · simp only [hsame, Function.update_self]
    · simp only [Function.update_of_ne hsame]
      exact h.published i hi
  · rw [hheld]
    exact h.held
  · rw [hcursors]
    exact h.cursor_lt
  · intro i
    by_cases hsame : i = writer
    · simp only [hsame, Function.update_self]
      exact hp
    · simp only [Function.update_of_ne hsame]
      exact (h.inOrder i).mono hlater
  · intro handOut hmem i hi
    by_cases hsame : i = writer
    · subst hsame
      simp only [Function.update_self]
      exact (h.lt_published handOut hmem i hi).trans_le hpublished
    · simp only [Function.update_of_ne hsame]
      exact h.lt_published handOut hmem i hi
  · intro handOut hmem i hi run hrun
    by_cases hsame : i = writer
    · simp only [hsame, Function.update_self] at hrun ⊢
      exact hstart handOut hmem run hrun
    · simp only [Function.update_of_ne hsame] at hrun ⊢
      exact h.lt_start handOut hmem i hi run hrun

theorem Inv.reserve (h : Inv cfg st) {pieces : IndexType → List (List UInt8)}
    (hwriter : writer < cfg.threadNum) (hfirst : writer ≤ cfg.blockOf st.diskWritePos) :
    Inv cfg (st.reserve cfg writer pieces) := by
  have hpublished : (st.persisters writer).published ≤ cfg.blockOf st.diskWritePos := by
    have hmax := (h.inOrder writer).published_le_max
    rwa [max_eq_right hfirst] at hmax
  have hend := cfg.end_le_blockOf (Nat.le_add_right st.diskWritePos (totalNodeLen pieces))
  rw [Nat.add_sub_cancel_left] at hend
  have hlater : cfg.blockOf st.diskWritePos ≤
      cfg.blockOf (st.diskWritePos + totalNodeLen pieces) := by
    refine le_trans ?_ hend
    exact Nat.add_le_add_left (Nat.div_le_div_right (Nat.le_add_right ..)) _
  apply h.update hlater
  · refine ⟨cfg.dvd_lapStart _, layOut_isChain, ?_, ?_, ?_⟩
    · intro run hrun
      obtain ⟨hrunStart, hwritten⟩ := layOut_head hrun
      rw [hrunStart, hwritten]
      exact hpublished
    · intro run hrun
      refine le_trans ?_ hend
      exact Nat.add_le_add_left (Nat.div_le_div_right (layOut_stop_le hrun)) _
    · exact hpublished.trans (hlater.trans (le_max_right ..))
  · rfl
  · intro i hi
    split_ifs with hsame
    · rw [h.published i hi, hsame]
    · rfl
  · rfl
  · rfl
  · exact le_rfl
  · intro handOut hmem run hrun
    rw [(layOut_head hrun).1]
    exact (h.lt_published handOut hmem writer hwriter).trans_le hpublished

theorem Inv.write (h : Inv cfg st) (hwriter : writer < cfg.threadNum) {run : TypeRun}
    {types : List TypeRun} (htypes : (st.persisters writer).types = run :: types)
    {data : List UInt8} {pieces : List (List UInt8)} (hpieces : run.pieces = data :: pieces) :
    Inv cfg (st.write cfg writer run data pieces types) := by
  have hinOrder := h.inOrder writer
  set block := st.buffer.publishedBlock cfg.toIndexBlockConfig (run.start + run.written)
    data.length with hblock
  have hids : ((st.buffer.writeBlock cfg.toIndexBlockConfig writer data
      (run.start + run.written)).2).diskWriteIds =
        st.buffer.diskWriteIds.set writer (block % cfg.diskBlockNum) :=
    IndexBlockBuffer.writeBlock_publishes
  apply h.update le_rfl
  · exact hinOrder.write htypes hpieces (IndexBlockBuffer.publishedBlock_le cfg.blockSize_pos)
  · rw [hids, List.length_set]
  · intro i hi
    rw [hids, getD_set (by rw [h.length_writeIds]; exact hwriter), ← Nat.mod_add_mod,
      Nat.mod_eq_zero_of_dvd hinOrder.laps, Nat.zero_add]
  · exact IndexBlockBuffer.writeBlock_blockDiskId
  · exact IndexBlockBuffer.writeBlock_blockCheckIds
  · refine (hinOrder.published_le run (by rw [htypes]; rfl)).trans ?_
    exact Nat.add_le_add_left IndexBlockBuffer.le_publishedBlock _
  · intro handOut hmem head hhead
    obtain rfl := Option.some.inj hhead
    exact h.lt_start handOut hmem writer hwriter run (by rw [htypes]; rfl)

theorem Inv.sorted (h : Inv cfg st) (hwriter : writer < cfg.threadNum) {run : TypeRun}
    {types : List TypeRun} (htypes : (st.persisters writer).types = run :: types)
    (hpieces : run.pieces = []) {buffer : IndexBlockBuffer}
    (hbuffer : buffer = { st.buffer with bufferBlocks := buffer.bufferBlocks }) :
    Inv cfg (st.sorted writer types buffer) := by
  have hinOrder := h.inOrder writer
  have hhead : run ∈ (st.persisters writer).types.head? := by rw [htypes]; rfl
  apply h.update le_rfl (hinOrder.sorted htypes hpieces)
  · rw [hbuffer]
  · intro i hi
    rw [hbuffer]
    split_ifs with hsame
    · rw [h.published i hi, hsame]
    · rfl
  · rw [hbuffer]
  · rw [hbuffer]
  · exact le_rfl
  · intro handOut hmem next hnext
    -- the next type begins where this one ends
    have hchain := hinOrder.laidOut
    rw [htypes, List.isChain_cons] at hchain
    refine (h.lt_start handOut hmem writer hwriter run hhead).trans_le ?_
    rw [(hchain.1 next hnext).1]
    refine Nat.add_le_add_left (Nat.div_le_div_right ?_) _
    unfold TypeRun.stop
    omega

/-- The check keeps back every block a persister has not got past, if no persister
is more than the window behind. -/
theorem Inv.lt_published_of_checkThread (h : Inv cfg st) (hslot : slot < cfg.totalBlockNum) {i : ℕ}
    (hi : i < cfg.threadNum)
    (hwindow : st.held cfg slot ≤ (st.persisters i).published + 2 * cfg.totalBlockNum)
    (hcheck : st.buffer.checkThread cfg.toIndexBlockConfig slot i = true) :
    st.held cfg slot < (st.persisters i).published := by
  have hdisk := cfg.diskBlockNum_gt
  have hpos := cfg.totalBlockNum_pos
  exact IndexBlockBuffer.lt_of_checkThread hpos (by omega) (h.held slot hslot) (h.published i hi)
    (by omega) hcheck

theorem Inv.dump (h : Inv cfg st)
    (hslot : st.buffer.checkBlock cfg.toIndexBlockConfig dumper = some slot)
    (hsettled : Settled cfg st (.dump dumper)) : Inv cfg (st.dump cfg dumper slot) := by
  obtain ⟨hcursor, hcheck⟩ := IndexBlockBuffer.checkBlock_eq_some.mp hslot
  have hcursor : slot = st.cursor dumper := hcursor
  have hlt : slot < cfg.totalBlockNum := hcursor ▸ h.cursor dumper
  have hpast : ∀ i < cfg.threadNum, st.held cfg slot < (st.persisters i).published := by
    intro i hi
    have hwindow := (hsettled i hi).1
    rw [← hcursor] at hwindow
    exact h.lt_published_of_checkThread hlt hi hwindow (hcheck i hi)
  refine ⟨h.length_writeIds, h.published, h.held, ?_, ?_, h.inOrder, ?_, ?_⟩
  · intro id hid
    rcases List.mem_or_eq_of_mem_set hid with hold | rfl
    · exact h.cursor_lt id hold
    · exact Nat.mod_lt _ cfg.totalBlockNum_pos
  · intro other hother
    rcases List.mem_cons.mp hother with rfl | hold
    · exact hlt
    · exact h.inFlight_lt other hold
  · intro handOut hmem i hi
    rcases List.mem_cons.mp hmem with rfl | hold
    · exact hpast i hi
    · exact h.lt_published handOut hold i hi
  · intro handOut hmem i hi run hrun
    rcases List.mem_cons.mp hmem with rfl | hold
    · -- the type is not one of those that have gone over the end of the block
      have hunsorted := (hsettled i hi).2
      rw [← hcursor] at hunsorted
      by_contra hle
      refine hunsorted ⟨run, hrun, not_lt.mp hle, ?_⟩
      exact (hpast i hi).trans_le ((h.inOrder i).published_le run hrun)
    · exact h.lt_start handOut hold i hi run hrun

theorem Inv.recycle (h : Inv cfg st) (hslot : slot ∈ st.inFlight) :
    Inv cfg (st.recycle cfg slot) := by
  refine ⟨h.length_writeIds, h.published, ?_, h.cursor_lt, ?_, h.inOrder, h.lt_published,
    h.lt_start⟩
  · intro other hother
    have hheld := h.held slot (h.inFlight_lt slot hslot)
    by_cases hsame : other = slot
    · simp only [State.recycle, State.held, IndexBlockBuffer.recycleBlock, hsame,
        Function.update_self] at hheld ⊢
      rw [hheld, Nat.mod_add_mod, Nat.mul_succ, Nat.add_assoc]
    · simp only [State.recycle, State.held, IndexBlockBuffer.recycleBlock,
        Function.update_of_ne hsame]
      exact h.held other hother
  · exact fun other hother => h.inFlight_lt other (List.mem_of_mem_erase hother)

theorem inv_of_reachable (h : (system cfg std).Reachable (Settled cfg) st) : Inv cfg st := by
  refine h.invariant (Inv cfg) (inv_init cfg) fun {st next label} hinv hsettled hstep => ?_
  have hstep : step cfg std st label = some next := hstep
  cases label with
  | reserve writer pieces =>
      obtain ⟨⟨hwriter, -⟩, rfl⟩ := step_reserve_iff.mp hstep
      exact hinv.reserve hwriter hsettled
  | call writer =>
      obtain ⟨hwriter, run, types, htypes, hcall⟩ := step_call_cases hstep
      rcases hcall with ⟨data, pieces, hpieces, rfl⟩ | ⟨hpieces, buffer, rfl, hbuffer⟩
      · exact hinv.write hwriter htypes hpieces
      · exact hinv.sorted hwriter htypes hpieces hbuffer
  | dump dumper =>
      obtain ⟨-, slot, hslot, rfl⟩ := step_dump_iff.mp hstep
      exact hinv.dump hslot hsettled
  | recycle slot =>
      obtain ⟨hslot, rfl⟩ := step_recycle_iff.mp hstep
      exact hinv.recycle hslot

/-! ## No change after the hand-out -/

/-- No call of a persister reaches into a block that has been handed out. -/
theorem Inv.not_reachesInto (h : Inv cfg st) (hwriter : writer < cfg.threadNum)
    {handOut : HandOut} (hmem : handOut ∈ st.handOuts) :
    ¬ (st.persisters writer).ReachesInto cfg handOut.diskBlock := by
  rintro ⟨range, hrange, k, -, hblock⟩
  obtain ⟨run, hrun, hnext⟩ := Option.map_eq_some_iff.mp hrange
  have hstart : run.start ≤ range.1 := by
    cases hpieces : run.pieces with
    | nil =>
        simp only [hpieces] at hnext
        rw [← hnext]
    | cons data pieces =>
        simp only [hpieces] at hnext
        rw [← hnext]
        exact Nat.le_add_right ..
  have hlt := h.lt_start handOut hmem writer hwriter run hrun
  have hle : run.start / cfg.blockSize ≤ (range.1 + k) / cfg.blockSize :=
    Nat.div_le_div_right (hstart.trans (Nat.le_add_right ..))
  omega

/-- In a run whose steps are all settled, no persister changes a byte of a slot in
the block it was handed out with. -/
theorem unchanged_after_handOut (h : (system cfg std).Reachable (Settled cfg) st) :
    ¬ LateChange cfg std st := by
  rintro ⟨writer, next, hstep, handOut, hmem, hreaches, -⟩
  obtain ⟨hwriter, -⟩ := step_call_cases hstep
  exact (inv_of_reachable h).not_reachesInto hwriter hmem hreaches

/-- One persister, one dump thread and four slots of 16 bytes. -/
def onePersister : IndexPathConfig :=
  { totalBlockNum := 4, blockSize := 16, diskBlockNum := 17, threadNum := 1, dumpThreadNum := 1
    persistDiskSize := 272, accepted := by decide, threadNum_le := by decide
    dumpThreadNum_pos := Nat.one_pos, dumpThreadNum_le := by decide }

/-- Two records of source ports, 443 and 80, that are not in order. -/
def twoPorts : IndexType → List (List UInt8)
  | .srcport => [[187, 1, 0, 0, 0, 0, 0, 0, 0, 0, 80, 0, 0, 0, 0, 0, 0, 0, 0, 0]]
  | _ => []

/-- The records are written and sorted over the end of block 0 before it is handed
out, and those of the next run are reserved behind them. -/
def settledRun : List Label :=
  [.reserve 0 twoPorts, .call 0, .call 0, .call 0, .call 0, .dump 0, .call 0, .call 0, .call 0,
    .reserve 0 twoPorts, .call 0]

theorem unchanged_after_handOut_settled : ∃ st,
    (st.handOuts.map HandOut.diskBlock = [0] ∧ (st.persisters 0).types.length = 5) ∧
      ¬ LateChange onePersister IndexStorageConfig.someSort st := by
  obtain ⟨st, hreach, hst⟩ :=
    (system onePersister IndexStorageConfig.someSort).exists_reachable settledRun
      (fun st => st.handOuts.map HandOut.diskBlock = [0] ∧ (st.persisters 0).types.length = 5)
      (show TransitionSystem.RunAllowed _ (Settled onePersister) _ _ by decide +kernel)
      (by decide +kernel)
  exact ⟨st, hst, unchanged_after_handOut hreach⟩

/-- The records are written over the end of block 0, which is handed out before
they are sorted. -/
def unsortedRun : List Label := [.reserve 0 twoPorts, .call 0, .call 0, .call 0, .dump 0]

/-- The sort then changes the slot that was handed out. -/
theorem sorted_after_handOut : ∃ st,
    (system onePersister IndexStorageConfig.someSort).Reachable (fun _ _ => True) st ∧
      LateChange onePersister IndexStorageConfig.someSort st := by
  have hrun : ∃ st,
      (system onePersister IndexStorageConfig.someSort).Reachable (fun _ _ => True) st ∧
      (step onePersister IndexStorageConfig.someSort st (.call 0)).any (fun next =>
        decide (∃ handOut ∈ st.handOuts,
          (st.persisters 0).ReachesInto onePersister handOut.diskBlock ∧
            ∃ k < onePersister.blockSize, next.buffer.bufferBlocks (handOut.buffer + k) ≠
              st.buffer.bufferBlocks (handOut.buffer + k))) = true :=
    (system onePersister IndexStorageConfig.someSort).exists_reachable unsortedRun _
      (TransitionSystem.runAllowed_true _) (by decide +kernel)
  obtain ⟨st, hreach, hlate⟩ := hrun
  obtain ⟨next, hstep, hchange⟩ := (Option.any_eq_true ..).mp hlate
  exact ⟨st, hreach, 0, next, hstep, of_decide_eq_true hchange⟩

end SortedRuns

end TrafficDatabase
