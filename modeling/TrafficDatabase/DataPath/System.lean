import TrafficDatabase.Library.TransitionSystem
import TrafficDatabase.DataPath.Config
import TrafficDatabase.Data.PacketLayout

/-!
# The data path

The threads that share the data block buffer, as one transition system: the
readers (`DPDKReader::run`), the data dump threads (`DiskManager::runData`) and
the memory managers that recycle what has reached the disk
(`MemoryManager::run`).  A step is one access to the shared state: taking a cell,
one `writeBlock` attempt, what follows the last of a packet's writes,
one `checkBlock` with its `getBlock`, one `recycleBlock`.

The buffer and the readers are the code's own.  Beside them the state keeps a
history, which no step looks at: the numbers of cells and blocks before they
were reduced modulo the disk, the laps each slot has made, what was dumped and
what was put on the index rings.
-/

namespace TrafficDatabase

namespace DataPath

/-- A `writeBlock` call still to be made; `cell` is counted over all laps. -/
structure PendingWrite where
  cell : ℕ
  req : WriteRequest

/-- What follows a packet's writes, with the unreduced position of the packet
the call is about. -/
structure PendingEpilogue where
  position : ℕ
  epilogue : Epilogue

structure ReaderThread where
  reader : DPDKReader
  started : Bool
  cell : ℕ
  /-- The unreduced position of the last packet of each flow. -/
  lastPositions : FlowMetadata → Option ℕ
  writes : List PendingWrite
  epilogue : Option PendingEpilogue

/-- A block a dump thread was given; `diskBlock` is not reduced. -/
structure DumpRecord where
  block : DataBlock
  diskBlock : ℕ

/-- An index record put on a ring, with the unreduced position of its packet. -/
structure PutRecord where
  index : Index
  position : ℕ

structure State where
  buffer : DataBlockBuffer
  diskWriteCell : ℕ
  readers : ℕ → ReaderThread
  laps : ℕ → ℕ
  inFlight : List ℕ
  dumps : List DumpRecord
  indexRing : List PutRecord

inductive Label
  | start (reader : ℕ)
  | packet (reader : ℕ) (buf : Mbuf) (ts : ℕ)
  | attempt (reader : ℕ)
  | finish (reader : ℕ)
  | dump (dumper : ℕ)
  | recycle (slot : ℕ)

variable (cfg : DataPathConfig)

namespace ReaderThread

/-- The thread of the reader constructed as number `rxId`. -/
def new (rxId : ℕ) : ReaderThread :=
  { reader := DPDKReader.new (cfg.delayThreshold * cfg.dataBlockSize) rxId rxId
    started := false
    cell := 0
    lastPositions := fun _ => none
    writes := []
    epilogue := none }

variable (thread : ReaderThread)

/-- The thread has dealt with the packets it received so far. -/
def Idle : Prop := thread.started ∧ thread.writes = [] ∧ thread.epilogue.isNone

instance : Decidable thread.Idle :=
  decidable_of_iff (thread.started ∧ thread.writes.isEmpty ∧ thread.epilogue.isNone)
    (by simp [Idle, List.isEmpty_iff])

/-- The cell of the next write. -/
def front : ℕ := (thread.writes.head?.map PendingWrite.cell).getD thread.cell

/-- The unreduced position at which the reader puts its next packet. -/
def position : ℕ := thread.cell * cfg.cellSize + thread.reader.writeOffset

def start (fetched : ℕ) : ReaderThread :=
  { thread with reader := thread.reader.start fetched, started := true, cell := fetched }

def packet (buf : Mbuf) (ts : ℕ) : PacketMeta := DPDKReader.readPacket cfg.reader buf ts

def flow (buf : Mbuf) (ts : ℕ) : FlowMetadata :=
  DPDKReader.getFlowMetaData cfg.reader (packet cfg buf ts)

def plan (buf : Mbuf) (ts fetched : ℕ) : PacketPlan :=
  thread.reader.handlePacket cfg.reader (packet cfg buf ts) ts fetched

/-- The packet the epilogue is about: the flow's last one if its header is to be
patched, the packet itself if it is to be indexed. -/
def epiloguePosition (flow : FlowMetadata) : Epilogue → ℕ
  | .writeBefore _ => (thread.lastPositions flow).getD 0
  | .writeIndexToRing _ => thread.position cfg

/-- The thread with a packet taken up; `fetched` is what `diskWriteCell` holds. -/
def accept (buf : Mbuf) (ts fetched : ℕ) : ReaderThread :=
  let plan := thread.plan cfg buf ts fetched
  { thread with
    reader := plan.reader
    cell := if plan.takesCell then fetched else thread.cell
    lastPositions :=
      if DPDKReader.NonIP cfg.reader (packet cfg buf ts) then thread.lastPositions
      else Function.update thread.lastPositions (flow cfg buf ts) (some (thread.position cfg))
    writes := plan.writes.inCell.map (PendingWrite.mk thread.cell) ++
      plan.writes.inNewCell.map (PendingWrite.mk fetched)
    epilogue := plan.epilogue.map fun epilogue =>
      { position := thread.epiloguePosition cfg (flow cfg buf ts) epilogue, epilogue } }

end ReaderThread

namespace State

/-- After `Controller::init`. -/
def init : State :=
  { buffer :=
      { bufferBlocks := fun _ => 0
        blockDiskId := id
        startTimes := fun _ => u64Max
        endTimes := fun _ => 0
        packetCounts := fun _ => 0
        diskWriteIds := List.range cfg.nbRx
        blockCheckIds := List.range cfg.dataDiskManagerThreadNum }
    diskWriteCell := 0
    readers := ReaderThread.new cfg
    laps := fun _ => 0
    inFlight := []
    dumps := []
    indexRing := [] }

variable (st : State)

def setReader (i : ℕ) (thread : ReaderThread) : State :=
  { st with readers := Function.update st.readers i thread }

/-- The disk block a slot holds, not reduced. -/
def held (slot : ℕ) : ℕ := slot + cfg.totalBlockNum * st.laps slot

/-! ## The steps -/

def start (i : ℕ) : State :=
  { st.setReader i ((st.readers i).start st.diskWriteCell) with
    diskWriteCell := st.diskWriteCell + 1 }

def packet (i : ℕ) (buf : Mbuf) (ts : ℕ) : State :=
  let thread := st.readers i
  { st.setReader i (thread.accept cfg buf ts st.diskWriteCell) with
    diskWriteCell :=
      if (thread.plan cfg buf ts st.diskWriteCell).takesCell then st.diskWriteCell + 1
      else st.diskWriteCell }

/-- The attempt's write stays pending when it fails. -/
def attempt (i : ℕ) (req : WriteRequest) (rest : List PendingWrite) : State :=
  let thread := st.readers i
  let written := st.buffer.writeBlock cfg.buffer thread.reader.threadId req
  { st with
    buffer := written.2
    readers := if written.1 then Function.update st.readers i { thread with writes := rest }
      else st.readers }

def finish (i : ℕ) (pending : PendingEpilogue) : State :=
  let thread := st.readers i
  let finished := st.setReader i { thread with epilogue := none }
  match pending.epilogue with
  | .writeBefore req =>
      { finished with
        buffer := (st.buffer.writeBlock cfg.buffer thread.reader.threadId req).2 }
  | .writeIndexToRing index =>
      { finished with
        indexRing := st.indexRing ++ [{ index, position := pending.position }] }

def dump (k slot : ℕ) : State :=
  let got := st.buffer.getBlock cfg.buffer k
  { st with
    buffer := got.2
    inFlight := slot :: st.inFlight
    dumps := st.dumps ++ [{ block := got.1, diskBlock := st.held cfg slot }] }

def recycle (slot : ℕ) : State :=
  { st with
    buffer := st.buffer.recycleBlock cfg.buffer slot
    laps := Function.update st.laps slot (st.laps slot + 1)
    inFlight := st.inFlight.erase slot }

end State

def step (st : State) : Label → Option State
  | .start i => if i < cfg.nbRx ∧ (st.readers i).started = false then some (st.start i) else none
  | .packet i buf ts =>
      if i < cfg.nbRx ∧ (st.readers i).Idle then some (st.packet cfg i buf ts) else none
  | .attempt i =>
      match (st.readers i).writes with
      | write :: rest => if i < cfg.nbRx then some (st.attempt cfg i write.req rest) else none
      | [] => none
  | .finish i =>
      match (st.readers i).writes, (st.readers i).epilogue with
      | [], some pending => if i < cfg.nbRx then some (st.finish cfg i pending) else none
      | _, _ => none
  | .dump k =>
      if k < cfg.dataDiskManagerThreadNum then
        (st.buffer.checkBlock cfg.buffer k).map (st.dump cfg k)
      else none
  | .recycle slot => if slot ∈ st.inFlight then some (st.recycle cfg slot) else none

section Steps

variable {cfg} {st next : State} {i k slot ts : ℕ} {buf : Mbuf}

theorem step_start_iff : step cfg st (.start i) = some next ↔
    (i < cfg.nbRx ∧ (st.readers i).started = false) ∧ st.start i = next := by
  simp [step]

theorem step_packet_iff : step cfg st (.packet i buf ts) = some next ↔
    (i < cfg.nbRx ∧ (st.readers i).Idle) ∧ st.packet cfg i buf ts = next := by
  simp [step]

theorem step_attempt_iff : step cfg st (.attempt i) = some next ↔
    ∃ write rest, (st.readers i).writes = write :: rest ∧ i < cfg.nbRx ∧
      st.attempt cfg i write.req rest = next := by
  rw [step]
  cases h : (st.readers i).writes with
  | nil => simp
  | cons write rest => simp

theorem step_finish_iff : step cfg st (.finish i) = some next ↔
    ∃ pending, (st.readers i).writes = [] ∧ (st.readers i).epilogue = some pending ∧
      i < cfg.nbRx ∧ st.finish cfg i pending = next := by
  rw [step]
  cases hwrites : (st.readers i).writes <;> cases hepilogue : (st.readers i).epilogue <;> simp

theorem step_dump_iff : step cfg st (.dump k) = some next ↔
    ∃ slot, k < cfg.dataDiskManagerThreadNum ∧ st.buffer.checkBlock cfg.buffer k = some slot ∧
      st.dump cfg k slot = next := by
  simp [step, Option.map_eq_some_iff]

theorem step_recycle_iff : step cfg st (.recycle slot) = some next ↔
    slot ∈ st.inFlight ∧ st.recycle cfg slot = next := by
  simp [step]

end Steps

/-- The data path of a configuration. -/
def system : TransitionSystem State Label := { init := State.init cfg, step := step cfg }

/-! ## Packets that fit -/

/-- Every packet received fits. -/
def Fits (st : State) : Label → Prop
  | .packet i buf ts =>
      (st.readers i).reader.Fits cfg.reader (ReaderThread.packet cfg buf ts)
  | _ => True

instance : ∀ st label, Decidable (Fits cfg st label)
  | _, .packet _ _ _ => inferInstanceAs (Decidable (DPDKReader.Fits _ _ _))
  | _, .start _ | _, .attempt _ | _, .finish _ | _, .dump _ | _, .recycle _ => .isTrue trivial

end DataPath

end TrafficDatabase
