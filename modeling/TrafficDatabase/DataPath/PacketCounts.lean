import TrafficDatabase.DataPath.BackPatch
import TrafficDatabase.DataPath.Shutdown

/-!
# The packet counts of the blocks

`writeBlock` counts a packet in the slot its header is written to, and `getBlock` reports
the count of a slot and takes it back to zero.  The persister of the block waits for as
many Index records.  A record is put on its ring later, once all of its packet is
written, and names the block of the packet's position.

The count a block is handed out with is the number of records put for the block
together with those whose packets are still being written, so the records come up to it
and never outnumber it (`packetCount_exact`).  This takes that a header begins in the
block of its packet's position.  A reader that has filled its cell to the tail puts the
whole header into the next one: if that is in another block, the count goes there and the
record does not (`packetCount_misplaced`).
-/

namespace TrafficDatabase

namespace DPDKReader

variable {cfg : ReaderConfig} {reader : DPDKReader} {packet : PacketMeta} {cell fetched ts : ℕ}
  {newIndex : Bool}

/-- A packet that is indexed is counted with one of its writes, any other with none. -/
theorem countP_storedWrites_newIndex :
    (storedWrites cfg reader packet fetched ts cell newIndex).all.countP (·.newIndex) =
      if newIndex then 1 else 0 := by
  by_cases hsplits : Splits cfg reader packet
  · by_cases hheader : pcapHeaderLen > room cfg reader
    · rw [storedWrites, if_pos hsplits, if_pos hheader]
      by_cases hroom : room cfg reader = 0 <;> cases newIndex <;>
        simp [CellWrites.all, headerSplitWrites, hroom]
    · rw [storedWrites, if_pos hsplits, if_neg hheader]
      by_cases hmore : room cfg reader > pcapHeaderLen <;> cases newIndex <;>
        simp [CellWrites.all, payloadSplitWrites, hmore]
  · rw [storedWrites, if_neg hsplits]
    cases newIndex <;> simp [CellWrites.all, wholeWrites]

/-- It is counted in the new cell only if no byte of its header fits before the tail. -/
theorem storedWrites_inNewCell_newIndex {req : WriteRequest}
    (hreq : req ∈ (storedWrites cfg reader packet fetched ts cell newIndex).inNewCell)
    (hindex : req.newIndex = true) : Splits cfg reader packet ∧ room cfg reader = 0 := by
  rw [storedWrites] at hreq
  split_ifs at hreq with hsplits hheader
  · refine ⟨hsplits, by_contra fun hroom => ?_⟩
    simp only [headerSplitWrites, if_neg hroom, List.mem_cons, List.not_mem_nil, or_false] at hreq
    rcases hreq with rfl | rfl <;> exact absurd hindex Bool.false_ne_true
  · simp only [payloadSplitWrites, List.mem_singleton] at hreq
    subst hreq
    exact absurd hindex Bool.false_ne_true
  · simp [wholeWrites] at hreq

end DPDKReader

namespace DataPath

variable (cfg : DataPathConfig)

/-- The block of the packet that is to be indexed, if one is. -/
def PendingEpilogue.indexed (pending : PendingEpilogue) : Option ℕ :=
  match pending.epilogue with
  | .writeIndexToRing _ => some (pending.position / cfg.blockSize)
  | .writeBefore _ => none

namespace ReaderThread

variable (thread : ReaderThread)

def indexed : Option ℕ := thread.epilogue.bind (·.indexed cfg)

/-- The packet is counted, and its Index record not yet put. -/
def owed : Option ℕ :=
  if ∀ write ∈ thread.writes, write.req.newIndex = false then thread.indexed cfg else none

/-- The header of a packet that is indexed begins in its reader's block: before the tail
of the cell, or else in a new cell of the same block. -/
def HeaderInBlock (buf : Mbuf) (ts fetched : ℕ) : Prop :=
  thread.last cfg buf ts = none → DPDKReader.Splits cfg.reader thread.reader (packet cfg buf ts) →
    DPDKReader.room cfg.reader thread.reader = 0 →
      cfg.blockOfCell fetched = cfg.blockOfCell thread.cell

/-- What of a packet is counted, and where. -/
structure CountsOnce : Prop where
  fresh : thread.started = false → thread.epilogue = none
  once : thread.writes.countP (·.req.newIndex) ≤ 1
  header : ∀ write ∈ thread.writes, write.req.newIndex = true →
    thread.indexed cfg = some (cfg.blockOfCell write.cell)
  record : ∀ pending ∈ thread.epilogue, ∀ index, pending.epilogue = .writeIndexToRing index →
    index.diskBlockId = pending.position / cfg.blockSize % cfg.diskBlockNum

end ReaderThread

namespace State

variable (st : State)

/-- The packets the readers have counted in a slot. -/
def slotCount (slot : ℕ) : ℕ :=
  ∑ i ∈ Finset.range cfg.nbRx, st.buffer.packetCounts (slot + cfg.totalBlockNum * i)

/-- The Index records put for a block. -/
def recordsPut (block : ℕ) : ℕ :=
  st.indexRing.countP (·.position / cfg.blockSize = block)

/-- The readers that have counted a packet of the block and not yet put its record. -/
def recordsOwed (block : ℕ) : ℕ :=
  ∑ i ∈ Finset.range cfg.nbRx, if (st.readers i).owed cfg = some block then 1 else 0

/-- All records of a block, those put and those to come. -/
def tally (block : ℕ) : ℕ := st.recordsPut cfg block + st.recordsOwed cfg block

end State

/-- The counts of the slots and of the blocks handed out are those of the records. -/
structure PacketsCounted (st : State) : Prop where
  threads : ∀ i, (st.readers i).CountsOnce cfg
  records : ∀ put ∈ st.indexRing,
    put.index.diskBlockId = put.position / cfg.blockSize % cfg.diskBlockNum
  absent : ∀ block, ¬ st.Reached cfg block → st.tally cfg block = 0
  counts : ∀ slot < cfg.totalBlockNum, st.slotCount cfg slot =
    if slot ∈ st.inFlight then 0 else st.tally cfg (st.held cfg slot)
  dumped : ∀ record ∈ st.dumps, record.block.packetCount = st.tally cfg record.diskBlock

variable {cfg} {st next : State} {thread : ReaderThread} {i fetched ts : ℕ} {buf : Mbuf}

/-! ## The reader's thread -/

namespace ReaderThread

theorem CountsOnce.new (i : ℕ) : (ReaderThread.new cfg i).CountsOnce cfg where
  fresh := fun _ => rfl
  once := Nat.zero_le _
  header := nofun
  record := nofun

/-- A thread that has nothing to do owes nothing. -/
theorem owed_of_epilogue (h : thread.epilogue = none) : thread.owed cfg = none := by
  unfold owed indexed
  rw [h]
  exact ite_self none

theorem CountsOnce.start (h : thread.CountsOnce cfg) (hnew : thread.started = false)
    (fetched : ℕ) : (thread.start fetched).CountsOnce cfg where
  fresh := fun _ => h.fresh hnew
  once := h.once
  header := h.header
  record := h.record

theorem writes_accept : (thread.accept cfg buf ts fetched).writes =
    (thread.plan cfg buf ts fetched).writes.inCell.map (PendingWrite.mk thread.cell) ++
      (thread.plan cfg buf ts fetched).writes.inNewCell.map (PendingWrite.mk fetched) := rfl

/-- A packet that is linked is not counted; one that is indexed is counted once, and its
record names the block of its position. -/
theorem accept_cases (hplaced : DPDKReader.Placed cfg.reader thread.reader thread.cell)
    (hstored : ¬ DPDKReader.NonIP cfg.reader (packet cfg buf ts)) (fetched : ℕ) :
    ((thread.accept cfg buf ts fetched).writes.countP (·.req.newIndex) = 0 ∧
      ∃ position req, (thread.accept cfg buf ts fetched).epilogue =
        some { position, epilogue := .writeBefore req }) ∨
    (thread.last cfg buf ts = none ∧
      (thread.accept cfg buf ts fetched).writes.countP (·.req.newIndex) = 1 ∧
      ∃ index, (thread.accept cfg buf ts fetched).epilogue =
          some { position := thread.position cfg, epilogue := .writeIndexToRing index } ∧
        index.diskBlockId = thread.position cfg / cfg.blockSize % cfg.diskBlockNum) := by
  have hplan := storedPlan fetched hplaced hstored
  have hcount : (thread.accept cfg buf ts fetched).writes.countP (·.req.newIndex) =
      (thread.plan cfg buf ts fetched).writes.all.countP (·.newIndex) := by
    rw [writes_accept, List.countP_append, List.countP_map, List.countP_map, CellWrites.all,
      List.countP_append]
    rfl
  rw [hplan.writes, DPDKReader.countP_storedWrites_newIndex] at hcount
  have hepilogue : (thread.accept cfg buf ts fetched).epilogue =
      (thread.plan cfg buf ts fetched).epilogue.map fun epilogue =>
        { position := thread.epiloguePosition cfg (flow cfg buf ts) epilogue, epilogue } := rfl
  rw [hplan.epilogue] at hepilogue
  cases hlink : DPDKReader.link cfg.reader thread.reader (packet cfg buf ts)
      (cfg.reader.posIn thread.cell thread.reader.writeOffset) ts with
  | some last =>
      rw [hlink] at hcount hepilogue
      exact .inl ⟨hcount, _, _, hepilogue⟩
  | none =>
      rw [hlink] at hcount hepilogue
      refine .inr ⟨?_, hcount, _, hepilogue, ?_⟩
      · rw [last, DPDKReader.getOffset_fst cfg.aligned hplaced, hlink]
      · change cfg.reader.posIn thread.cell thread.reader.writeOffset / cfg.blockSize = _
        rw [ReaderConfig.posIn, cfg.div_blockSize hplaced.offset_lt, cfg.blockOfCell_mod,
          ReaderThread.position, cfg.div_blockSize hplaced.offset_lt]

theorem CountsOnce.accept (hidle : thread.Idle)
    (hplaced : DPDKReader.Placed cfg.reader thread.reader thread.cell)
    (hheader : thread.HeaderInBlock cfg buf ts fetched) :
    (thread.accept cfg buf ts fetched).CountsOnce cfg := by
  have hstarted : (thread.accept cfg buf ts fetched).started ≠ false := by
    change thread.started ≠ false
    rw [hidle.1]
    decide
  by_cases hnon : DPDKReader.NonIP cfg.reader (packet cfg buf ts)
  · obtain ⟨hwrites, hepilogue, -, -⟩ := accept_of_nonIP thread fetched hnon
    exact ⟨fun h => absurd h hstarted, by simp [hwrites], by simp [hwrites], by simp [hepilogue]⟩
  have hplan := storedPlan fetched hplaced hnon
  rcases accept_cases hplaced hnon fetched with
    ⟨hcount, position, req, hepilogue⟩ | ⟨hlast, hcount, index, hepilogue, hid⟩
  · refine ⟨fun h => absurd h hstarted, hcount.trans_le (Nat.zero_le _), ?_, ?_⟩
    · intro write hmem hindex
      exact absurd hindex (List.countP_eq_zero.mp hcount write hmem)
    · rw [hepilogue]
      rintro pending ⟨⟩ index hreq
      exact Epilogue.noConfusion hreq
  · have hindexed : (thread.accept cfg buf ts fetched).indexed cfg =
        some (cfg.blockOfCell thread.cell) := by
      unfold indexed
      rw [hepilogue, ← cfg.div_blockSize hplaced.offset_lt]
      rfl
    refine ⟨fun h => absurd h hstarted, hcount.le, ?_, ?_⟩
    · intro write hmem hindex
      rw [hindexed]
      rw [writes_accept, hplan.writes] at hmem
      rcases List.mem_append.mp hmem with hmem | hmem
      · obtain ⟨req, -, rfl⟩ := List.mem_map.mp hmem
        rfl
      · obtain ⟨req, hreq, rfl⟩ := List.mem_map.mp hmem
        obtain ⟨hsplits, hroom⟩ := DPDKReader.storedWrites_inNewCell_newIndex hreq hindex
        exact congrArg some (hheader hlast hsplits hroom).symm
    · rw [hepilogue]
      rintro pending ⟨⟩ other hreq
      obtain rfl := Epilogue.writeIndexToRing.inj hreq
      exact hid

/-- The record of a packet just taken up is not owed before the packet is counted. -/
theorem owed_accept (hplaced : DPDKReader.Placed cfg.reader thread.reader thread.cell) :
    (thread.accept cfg buf ts fetched).owed cfg = none := by
  by_cases hnon : DPDKReader.NonIP cfg.reader (packet cfg buf ts)
  · exact owed_of_epilogue (accept_of_nonIP thread fetched hnon).2.1
  rcases accept_cases hplaced hnon fetched with
    ⟨-, position, req, hepilogue⟩ | ⟨-, hcount, -⟩
  · unfold owed indexed
    rw [hepilogue]
    exact ite_self none
  · refine if_neg fun hall => ?_
    have hnone := List.countP_eq_zero.mpr fun write hmem => by
      simpa using hall write hmem
    exact absurd (hcount.symm.trans hnone) one_ne_zero

variable {write : PendingWrite} {rest : List PendingWrite}

theorem CountsOnce.pop (h : thread.CountsOnce cfg) (hwrites : thread.writes = write :: rest) :
    ({ thread with writes := rest } : ReaderThread).CountsOnce cfg where
  fresh := h.fresh
  once := by
    have honce := h.once
    rw [hwrites, List.countP_cons] at honce
    exact (Nat.le_add_right ..).trans honce
  header other hmem := h.header other (hwrites ▸ List.mem_cons_of_mem _ hmem)
  record := h.record

theorem CountsOnce.finish (h : thread.CountsOnce cfg) (hwrites : thread.writes = []) :
    ({ thread with epilogue := none } : ReaderThread).CountsOnce cfg where
  fresh := fun _ => rfl
  once := h.once
  header := by simp [hwrites]
  record := nofun

/-- The write that counts the packet makes its record owed. -/
theorem CountsOnce.owed_pop_counted (h : thread.CountsOnce cfg)
    (hwrites : thread.writes = write :: rest) (hindex : write.req.newIndex = true) :
    thread.owed cfg = none ∧
      ({ thread with writes := rest } : ReaderThread).owed cfg =
        some (cfg.blockOfCell write.cell) := by
  constructor
  · refine if_neg fun hall => ?_
    have := hall write (hwrites ▸ List.mem_cons_self)
    rw [hindex] at this
    exact absurd this (by decide)
  · have honce := h.once
    rw [hwrites, List.countP_cons, if_pos hindex] at honce
    have hrest : rest.countP (·.req.newIndex) = 0 := by omega
    refine (if_pos fun other hmem => ?_).trans
      (h.header write (hwrites ▸ List.mem_cons_self) hindex)
    simpa using List.countP_eq_zero.mp hrest other hmem

/-- Any other write changes nothing about it. -/
theorem owed_pop (hwrites : thread.writes = write :: rest) (hindex : write.req.newIndex = false) :
    ({ thread with writes := rest } : ReaderThread).owed cfg = thread.owed cfg := by
  unfold owed
  rw [hwrites]
  simp only [List.forall_mem_cons, hindex, true_and]
  rfl

theorem owed_of_indexed {position : ℕ} {index : Index} (hwrites : thread.writes = [])
    (hepilogue : thread.epilogue = some { position, epilogue := .writeIndexToRing index }) :
    thread.owed cfg = some (position / cfg.blockSize) := by
  unfold owed indexed
  rw [hwrites, hepilogue, if_pos (by simp)]
  rfl

end ReaderThread

/-! ## The sums over the readers -/

private theorem sum_range_update {count : ℕ} (f : ℕ → ℕ) (hi : i < count) (value : ℕ) :
    ∑ j ∈ Finset.range count, Function.update f i value j + f i =
      ∑ j ∈ Finset.range count, f j + value := by
  have hmem : i ∈ Finset.range count := Finset.mem_range.mpr hi
  rw [Finset.sum_update_of_mem hmem, ← Finset.erase_eq, ← Finset.sum_erase_add _ f hmem]
  omega

/-- The readers share no counter. -/
theorem counter_inj {slot other j : ℕ} (hslot : slot < cfg.totalBlockNum)
    (hother : other < cfg.totalBlockNum) :
    slot + cfg.totalBlockNum * j = other + cfg.totalBlockNum * i ↔ slot = other ∧ j = i := by
  refine ⟨fun heq => ?_, fun ⟨hslots, hreaders⟩ => by rw [hslots, hreaders]⟩
  have hslots : slot = other := by
    have hmod := congrArg (· % cfg.totalBlockNum) heq
    simpa only [Nat.add_mul_mod_self_left, Nat.mod_eq_of_lt hslot, Nat.mod_eq_of_lt hother]
      using hmod
  subst hslots
  exact ⟨rfl, Nat.eq_of_mul_eq_mul_left cfg.totalBlockNum_pos (Nat.add_left_cancel heq)⟩

namespace State

theorem slotCount_congr (h : next.buffer.packetCounts = st.buffer.packetCounts) (slot : ℕ) :
    next.slotCount cfg slot = st.slotCount cfg slot := by
  unfold slotCount
  rw [h]

/-- A packet that is counted is counted in one slot. -/
theorem slotCount_counted {slot other : ℕ} (hi : i < cfg.nbRx)
    (hslot : slot < cfg.totalBlockNum) (hother : other < cfg.totalBlockNum)
    (h : next.buffer.packetCounts = Function.update st.buffer.packetCounts
      (other + cfg.totalBlockNum * i)
        (st.buffer.packetCounts (other + cfg.totalBlockNum * i) + 1)) :
    next.slotCount cfg slot = st.slotCount cfg slot + if slot = other then 1 else 0 := by
  unfold slotCount
  rw [h]
  split_ifs with hsame
  · subst hsame
    have hcounters : ∀ j, Function.update st.buffer.packetCounts
        (slot + cfg.totalBlockNum * i)
          (st.buffer.packetCounts (slot + cfg.totalBlockNum * i) + 1)
        (slot + cfg.totalBlockNum * j) =
        Function.update (fun j => st.buffer.packetCounts (slot + cfg.totalBlockNum * j)) i
          (st.buffer.packetCounts (slot + cfg.totalBlockNum * i) + 1) j := by
      intro j
      simp only [Function.update_apply, counter_inj hslot hslot, true_and]
    have hsum := sum_range_update
      (fun j => st.buffer.packetCounts (slot + cfg.totalBlockNum * j)) hi
      (st.buffer.packetCounts (slot + cfg.totalBlockNum * i) + 1)
    simp only [hcounters]
    omega
  · refine Finset.sum_congr rfl fun j _ => Function.update_of_ne (fun heq => hsame ?_) _ _
    exact ((counter_inj hslot hother).mp heq).1

/-- Only the thread that takes the step has to be looked at. -/
theorem recordsOwed_update (hi : i < cfg.nbRx)
    (hreaders : next.readers = Function.update st.readers i thread) (block : ℕ) :
    next.recordsOwed cfg block + (if (st.readers i).owed cfg = some block then 1 else 0) =
      st.recordsOwed cfg block + if thread.owed cfg = some block then 1 else 0 := by
  unfold recordsOwed
  rw [hreaders, ← sum_range_update (fun j => if (st.readers j).owed cfg = some block then 1 else 0)
    hi]
  refine congrArg (· + _) (Finset.sum_congr rfl fun j _ => ?_)
  by_cases hsame : j = i
  · rw [hsame, Function.update_self, Function.update_self]
  · rw [Function.update_of_ne hsame, Function.update_of_ne hsame]

/-- A thread that owes what it owed leaves the records as they are. -/
theorem tally_congr (hring : next.indexRing = st.indexRing)
    (howed : ∀ j, (next.readers j).owed cfg = (st.readers j).owed cfg) (block : ℕ) :
    next.tally cfg block = st.tally cfg block := by
  unfold tally recordsPut recordsOwed
  simp only [hring, howed]

end State

/-! ## Every step keeps the counts -/

namespace PacketsCounted

variable {a : HandOut.State} {slot k : ℕ}

theorem init : PacketsCounted cfg (State.init cfg) where
  threads := ReaderThread.CountsOnce.new
  records := nofun
  absent := fun block _ => by
    simp [State.tally, State.recordsPut, State.recordsOwed, State.init,
      ReaderThread.owed_of_epilogue, ReaderThread.new]
  counts := fun slot _ => by
    simp [State.slotCount, State.tally, State.recordsPut, State.recordsOwed, State.init,
      ReaderThread.owed_of_epilogue, ReaderThread.new]
  dumped := nofun

/-- A step of a reader that counts nothing. -/
theorem congr (h : PacketsCounted cfg st) (hthreads : ∀ j, (next.readers j).CountsOnce cfg)
    (hrecords : ∀ put ∈ next.indexRing,
      put.index.diskBlockId = put.position / cfg.blockSize % cfg.diskBlockNum)
    (hcounts : next.buffer.packetCounts = st.buffer.packetCounts)
    (htally : ∀ block, next.tally cfg block = st.tally cfg block) (hlaps : next.laps = st.laps)
    (hinFlight : next.inFlight = st.inFlight) (hdumps : next.dumps = st.dumps) :
    PacketsCounted cfg next := by
  have hheld : next.held cfg = st.held cfg := by
    unfold State.held
    rw [hlaps]
  refine ⟨hthreads, hrecords, fun block hblock => ?_, fun slot hslot => ?_,
    fun record hmem => ?_⟩
  · rw [htally]
    refine h.absent block fun hreached => hblock ?_
    rwa [State.Reached, hheld]
  · rw [State.slotCount_congr hcounts, h.counts slot hslot, hinFlight, htally, hheld]
  · rw [htally]
    exact h.dumped record (hdumps ▸ hmem)

theorem threads_update (h : PacketsCounted cfg st) (hthread : thread.CountsOnce cfg) (j : ℕ) :
    (Function.update st.readers i thread j).CountsOnce cfg := by
  by_cases hsame : j = i
  · rw [hsame, Function.update_self]
    exact hthread
  · rw [Function.update_of_ne hsame]
    exact h.threads j

private theorem owed_update (h : thread.owed cfg = (st.readers i).owed cfg) (j : ℕ) :
    (Function.update st.readers i thread j).owed cfg = (st.readers j).owed cfg := by
  by_cases hsame : j = i
  · rw [hsame, Function.update_self, h]
  · rw [Function.update_of_ne hsame]

theorem start (h : PacketsCounted cfg st) (hnew : (st.readers i).started = false) :
    PacketsCounted cfg (st.start i) := by
  have hthread := (h.threads i).start hnew st.diskWriteCell
  refine h.congr (h.threads_update hthread) h.records rfl ?_ rfl rfl rfl
  exact State.tally_congr rfl (owed_update rfl)

theorem packet (h : PacketsCounted cfg st) (hidle : (st.readers i).Idle)
    (hplaced : DPDKReader.Placed cfg.reader (st.readers i).reader (st.readers i).cell)
    (hheader : (st.readers i).HeaderInBlock cfg buf ts st.diskWriteCell) :
    PacketsCounted cfg (st.packet cfg i buf ts) := by
  have hthread := ReaderThread.CountsOnce.accept hidle hplaced hheader
  refine h.congr (h.threads_update hthread) h.records rfl ?_ rfl rfl rfl
  refine State.tally_congr rfl (owed_update ?_)
  rw [ReaderThread.owed_accept hplaced,
    ReaderThread.owed_of_epilogue (Option.isNone_iff_eq_none.mp hidle.2.2)]

/-- A packet of a block that has not been handed out is counted, and its record owed. -/
theorem count (h : PacketsCounted cfg st) (habs : Abstracts cfg st a) {block : ℕ}
    (hi : i < cfg.nbRx) (hthread : thread.CountsOnce cfg)
    (hheld : st.held cfg (block % cfg.totalBlockNum) = block)
    (hahead : ¬ a.Handed (protocol cfg) block) (hbefore : (st.readers i).owed cfg = none)
    (hafter : thread.owed cfg = some block) {buffer : DataBlockBuffer}
    (hcounts : buffer.packetCounts = Function.update st.buffer.packetCounts
      (block % cfg.totalBlockNum + cfg.totalBlockNum * i)
        (st.buffer.packetCounts (block % cfg.totalBlockNum + cfg.totalBlockNum * i) + 1)) :
    PacketsCounted cfg
      { st with buffer := buffer, readers := Function.update st.readers i thread } := by
  set next : State :=
    { st with buffer := buffer, readers := Function.update st.readers i thread } with hnext
  have hlt : block % cfg.totalBlockNum < cfg.totalBlockNum := Nat.mod_lt _ cfg.totalBlockNum_pos
  have htally : ∀ other, next.tally cfg other =
      st.tally cfg other + if other = block then 1 else 0 := by
    intro other
    have howed := @State.recordsOwed_update cfg st next thread i hi rfl other
    rw [hbefore, hafter, if_neg (Option.some_ne_none _).symm] at howed
    simp only [Option.some.injEq, @eq_comm _ block] at howed
    unfold State.tally
    rw [Nat.add_assoc, ← howed]
    rfl
  have hfree : block % cfg.totalBlockNum ∉ st.inFlight := by
    refine fun hflight => hahead ?_
    have hhanded := habs.handed_of_inFlight hflight
    rwa [habs.held, hheld] at hhanded
  refine ⟨h.threads_update hthread, h.records, fun other hother => ?_, fun slot hslot => ?_,
    fun record hrecord => ?_⟩
  · have hne : other ≠ block := fun hsame => hother (hsame ▸ hheld.ge)
    rw [htally, h.absent other hother, if_neg hne]
  · rw [@State.slotCount_counted cfg st _ i _ _ hi hslot hlt hcounts, h.counts slot hslot, htally]
    change _ = if slot ∈ st.inFlight then 0
      else st.tally cfg (st.held cfg slot) + if st.held cfg slot = block then 1 else 0
    by_cases hsame : slot = block % cfg.totalBlockNum
    · subst hsame
      rw [if_neg hfree, if_neg hfree, if_pos rfl, if_pos hheld]
    · have hne : st.held cfg slot ≠ block := by
        intro heq
        rw [← heq, State.held, Nat.add_mul_mod_self_left, Nat.mod_eq_of_lt hslot] at hsame
        exact hsame rfl
      rw [if_neg hsame, if_neg hne, Nat.add_zero, Nat.add_zero]
  · have hne : record.diskBlock ≠ block := fun hsame =>
      hahead (hsame ▸ (habs.dumped hrecord).1)
    rw [htally, h.dumped record hrecord, if_neg hne, Nat.add_zero]

/-- A reader writes in blocks that have not been handed out. -/
theorem attempt (h : PacketsCounted cfg st) (habs : Abstracts cfg st a)
    (hinv : HandOut.Invariant (protocol cfg) a) (hi : i < cfg.nbRx) {write : PendingWrite}
    {rest : List PendingWrite} (hwrites : (st.readers i).writes = write :: rest)
    (hahead : ¬ a.Handed (protocol cfg) (cfg.blockOfCell write.cell)) :
    PacketsCounted cfg (st.attempt cfg i write.req rest) := by
  have hid : (st.readers i).reader.threadId = i := (habs.threads i).threadId
  have hmem : write ∈ (st.readers i).writes := hwrites ▸ List.mem_cons_self
  have hcounts := @DataBlockBuffer.writeBlock_packetCounts cfg.buffer st.buffer i write.req
  rw [(habs.threads i).newData hmem] at hcounts
  have hthread := (h.threads i).pop hwrites
  cases hwritten : (st.buffer.writeBlock cfg.buffer i write.req).1 with
  | false =>
      simp only [State.attempt, hid, hwritten]
      refine h.congr h.threads h.records ?_ (State.tally_congr rfl fun _ => rfl) rfl rfl rfl
      simpa only [hwritten, Bool.false_eq_true, false_and, if_false] using hcounts
  | true =>
      simp only [State.attempt, hid, hwritten, if_true]
      cases hindex : write.req.newIndex with
      | false =>
          refine h.congr (h.threads_update hthread) h.records ?_ ?_ rfl rfl rfl
          · simpa only [hindex, Bool.false_eq_true, and_false, if_false] using hcounts
          · exact State.tally_congr rfl (owed_update (ReaderThread.owed_pop hwrites hindex))
      | true =>
          obtain ⟨offset, hoffset, hpos, -⟩ := (habs.threads i).inCell hmem
          rw [hwritten, hindex, if_pos ⟨rfl, rfl, rfl⟩, hpos,
            DataPathConfig.slotOf_posIn hoffset] at hcounts
          -- the record is owed from now on
          obtain ⟨hbefore, hafter⟩ := (h.threads i).owed_pop_counted hwrites hindex
          exact h.count habs hi hthread (habs.held_of_written hinv hi hwrites hwritten) hahead
            hbefore hafter hcounts

/-- What is owed is put. -/
theorem finish (h : PacketsCounted cfg st) (habs : Abstracts cfg st a) (hi : i < cfg.nbRx)
    {pending : PendingEpilogue} (hwrites : (st.readers i).writes = [])
    (hepilogue : (st.readers i).epilogue = some pending) :
    PacketsCounted cfg (st.finish cfg i pending) := by
  obtain ⟨position, epilogue⟩ := pending
  have hthread := (h.threads i).finish hwrites
  cases epilogue with
  | writeBefore req =>
      have hpatch : req.newData = false := (habs.threads i).patch hepilogue rfl
      refine h.congr (h.threads_update hthread) h.records ?_ ?_ rfl rfl rfl
      · refine DataBlockBuffer.writeBlock_packetCounts.trans ?_
        simp only [hpatch, Bool.false_eq_true, false_and, and_false, if_false]
      · refine State.tally_congr rfl (owed_update ?_)
        rw [ReaderThread.owed_of_epilogue rfl]
        unfold ReaderThread.owed ReaderThread.indexed
        rw [hepilogue]
        exact (ite_self none).symm
  | writeIndexToRing index =>
      refine h.congr (h.threads_update hthread) ?_ rfl (fun block => ?_) rfl rfl rfl
      · intro put hput
        rcases List.mem_append.mp hput with hput | hput
        · exact h.records put hput
        · obtain rfl := List.mem_singleton.mp hput
          exact (h.threads i).record _ hepilogue index rfl
      · have howed := @State.recordsOwed_update cfg st
          (st.finish cfg i { position, epilogue := .writeIndexToRing index })
          { st.readers i with epilogue := none } i hi rfl block
        have hdone : ({ st.readers i with epilogue := none } : ReaderThread).owed cfg = none :=
          ReaderThread.owed_of_epilogue rfl
        rw [hdone, if_neg (Option.some_ne_none _).symm,
          ReaderThread.owed_of_indexed hwrites hepilogue] at howed
        simp only [Option.some.injEq] at howed
        have hput : (st.finish cfg i { position, epilogue := .writeIndexToRing index }).recordsPut
            cfg block = st.recordsPut cfg block +
              if position / cfg.blockSize = block then 1 else 0 := by
          simp only [State.recordsPut, State.finish, List.countP_append, List.countP_singleton,
            decide_eq_true_eq]
        unfold State.tally
        omega

/-- A block is handed out with the count of its slot, which is then zero. -/
theorem dump (h : PacketsCounted cfg st)
    (hslot : slot = st.buffer.blockCheckIds.getD k 0) (hlt : slot < cfg.totalBlockNum)
    (hfree : slot ∉ st.inFlight) : PacketsCounted cfg (st.dump cfg k slot) := by
  have htally : ∀ block, (st.dump cfg k slot).tally cfg block = st.tally cfg block :=
    State.tally_congr rfl fun _ => rfl
  have hcounters : ∀ other j, (st.dump cfg k slot).buffer.packetCounts
      (other + cfg.totalBlockNum * j) =
        if other + cfg.totalBlockNum * j ∈
          (List.range cfg.nbRx).map (fun i => slot + cfg.totalBlockNum * i) then 0
        else st.buffer.packetCounts (other + cfg.totalBlockNum * j) := by
    intro other j
    rw [hslot]
    rfl
  refine ⟨h.threads, h.records, h.absent, fun other hother => ?_, fun record hmem => ?_⟩
  · change _ = if other ∈ slot :: st.inFlight then 0 else st.tally cfg (st.held cfg other)
    by_cases hsame : other = slot
    · subst hsame
      rw [if_pos List.mem_cons_self]
      refine Finset.sum_eq_zero fun j hj => (hcounters other j).trans (if_pos ?_)
      exact List.mem_map.mpr ⟨j, List.mem_range.mpr (Finset.mem_range.mp hj), rfl⟩
    · have hsum : (st.dump cfg k slot).slotCount cfg other = st.slotCount cfg other := by
        refine Finset.sum_congr rfl fun j _ => (hcounters other j).trans (if_neg fun hmem => ?_)
        obtain ⟨i, -, heq⟩ := List.mem_map.mp hmem
        exact hsame ((counter_inj hother hlt).mp heq.symm).1
      rw [hsum, h.counts other hother]
      simp only [List.mem_cons, hsame, false_or]
  · rw [htally]
    rcases List.mem_append.mp hmem with hmem | hmem
    · exact h.dumped record hmem
    · obtain rfl := List.mem_singleton.mp hmem
      have hcount := h.counts slot hlt
      rw [if_neg hfree] at hcount
      refine Eq.trans ?_ hcount
      change (((List.range cfg.nbRx).map fun i =>
        st.buffer.blockCheckIds.getD k 0 + cfg.totalBlockNum * i).map
          st.buffer.packetCounts).sum = _
      rw [← hslot, List.map_map]
      rfl

/-- The slot of a block that is on the disk is taken over with nothing counted. -/
theorem recycle (h : PacketsCounted cfg st) (habs : Abstracts cfg st a)
    (hmem : slot ∈ st.inFlight) : PacketsCounted cfg (st.recycle cfg slot) := by
  have hlt := habs.inFlight_lt hmem
  have hone := habs.inFlight_of_handed hlt (habs.handed_of_inFlight hmem)
  have htally : ∀ block, (st.recycle cfg slot).tally cfg block = st.tally cfg block :=
    State.tally_congr rfl fun _ => rfl
  have hheld : ∀ other, (st.recycle cfg slot).held cfg other =
      if other = slot then st.held cfg slot + cfg.totalBlockNum else st.held cfg other := by
    intro other
    unfold State.held State.recycle
    by_cases hsame : other = slot
    · subst hsame
      simp only [Function.update_self, if_true, Nat.mul_succ, Nat.add_assoc]
    · simp only [Function.update_of_ne hsame, if_neg hsame]
  refine ⟨h.threads, h.records, fun block hblock => ?_, fun other hother => ?_, h.dumped⟩
  · rw [htally]
    refine h.absent block fun hreached => hblock ?_
    refine hreached.trans ?_
    rw [hheld]
    split_ifs with hsame
    · rw [hsame]
      exact Nat.le_add_right _ _
    · exact le_rfl
  · change st.slotCount cfg other =
      if other ∈ st.inFlight.erase slot then 0 else st.tally cfg ((st.recycle cfg slot).held cfg other)
    rw [hheld, h.counts other hother]
    by_cases hsame : other = slot
    · subst hsame
      have hnext : ¬ st.Reached cfg (st.held cfg other + cfg.totalBlockNum) := by
        have hslot : (st.held cfg other + cfg.totalBlockNum) % cfg.totalBlockNum = other := by
          rw [Nat.add_mod_right, State.held, Nat.add_mul_mod_self_left, Nat.mod_eq_of_lt hlt]
        have hpos := cfg.totalBlockNum_pos
        rw [State.Reached, hslot]
        omega
      have hgone : other ∉ st.inFlight.erase other := by
        rw [← List.count_eq_zero, List.count_erase_self, hone]
      rw [if_pos hmem, if_neg hgone, if_pos rfl, h.absent _ hnext]
    · rw [if_neg hsame]
      simp only [List.mem_erase_of_ne hsame]

/-- No slot is in flight twice, so what is handed out was not in flight. -/
theorem handedOut {b : HandOut.State} (h : PacketsCounted cfg st)
    (hnext : Abstracts cfg (st.dump cfg k slot) b)
    (hslot : slot = st.buffer.blockCheckIds.getD k 0) : PacketsCounted cfg (st.dump cfg k slot) := by
  have hmem : slot ∈ (st.dump cfg k slot).inFlight := List.mem_cons_self
  have hlt := hnext.inFlight_lt hmem
  have hone := hnext.inFlight_of_handed hlt (hnext.handed_of_inFlight hmem)
  refine h.dump hslot hlt (List.count_eq_zero.mp ?_)
  change (slot :: st.inFlight).count slot = 1 at hone
  rw [List.count_cons_self] at hone
  exact Nat.succ.inj hone

end PacketsCounted

/-! ## The counts the blocks are handed out with -/

namespace Shutdown

variable (cfg) in
/-- The header of a packet that is indexed begins in its reader's block. -/
def HeaderInBlock (st : Shutdown) : ShutdownLabel → Prop
  | .run (.packet i buf ts) =>
      (st.base.readers i).HeaderInBlock cfg buf ts st.base.diskWriteCell
  | _ => True

instance : ∀ st label, Decidable (HeaderInBlock cfg st label)
  | st, .run (.packet i buf ts) => by
      unfold HeaderInBlock ReaderThread.HeaderInBlock; infer_instance
  | _, .run (.start _) | _, .run (.attempt _) | _, .run (.finish _) | _, .run (.dump _)
  | _, .run (.recycle _) | _, .stopReaders | _, .stopDumper _ | _, .drain _ => .isTrue trivial

variable (cfg) in
/-- The shutdown is in time, and headers begin in their blocks. -/
def InTimeInBlock (st : Shutdown) (label : ShutdownLabel) : Prop :=
  st.InTime cfg label ∧ st.HeaderInBlock cfg label

instance (st : Shutdown) (label : ShutdownLabel) : Decidable (InTimeInBlock cfg st label) :=
  inferInstanceAs (Decidable (_ ∧ _))

variable {st next : Shutdown} {a b : HandOut.State} {label : ShutdownLabel}

/-- The steps of the readers, before they are stopped. -/
theorem Before.packetsCounted (h : Before cfg st a) (htimely : Timely cfg)
    (hreaders : cfg.nbRx ≤ cfg.delayThreshold + 1) (hcounted : PacketsCounted cfg st.base)
    {label : Label} {base : State} (hfits : Fits cfg st.base label)
    (hheader : st.HeaderInBlock cfg (.run label)) (hnext : Abstracts cfg base b)
    (hstep : DataPath.step cfg st.base label = some base) : PacketsCounted cfg base := by
  have habs := h.abstracts
  have hinv := h.reachable.invariant htimely.protocol
  cases label with
  | start i =>
      obtain ⟨⟨-, hnew⟩, rfl⟩ := step_start_iff.mp hstep
      exact hcounted.start hnew
  | packet i buf ts =>
      obtain ⟨⟨-, hidle⟩, rfl⟩ := step_packet_iff.mp hstep
      have hplaced := (habs.threads i).placed hidle.1 ((Nat.le_add_left _ _).trans hfits.1)
      exact hcounted.packet hidle hplaced hheader
  | attempt i =>
      obtain ⟨write, rest, hwrites, hi, rfl⟩ := step_attempt_iff.mp hstep
      refine hcounted.attempt habs hinv hi hwrites fun hhanded => ?_
      -- a block that was handed out is the delay behind the reader's next write
      obtain ⟨hattempted, hfront, -⟩ :=
        h.reachable.settled htimely.protocol hreaders hhanded hi
      rw [habs.front (hinv.started_of_attempted hattempted),
        ReaderThread.front_of_cons hwrites] at hfront
      have hdelay : 0 < cfg.delayThreshold := lt_of_lt_of_le hhanded.1 htimely.1
      change cfg.blockOfCell write.cell + cfg.delayThreshold ≤ cfg.blockOfCell write.cell at hfront
      omega
  | finish i =>
      obtain ⟨pending, hwrites, hepilogue, hi, rfl⟩ := step_finish_iff.mp hstep
      exact hcounted.finish habs hi hwrites hepilogue
  | dump k =>
      obtain ⟨slot, hk, hcheck, rfl⟩ := step_dump_iff.mp hstep
      exact hcounted.handedOut hnext (DataBlockBuffer.checkBlock_eq_some.mp hcheck).1
  | recycle slot =>
      obtain ⟨hmem, rfl⟩ := step_recycle_iff.mp hstep
      exact hcounted.recycle habs hmem

/-- The steps of the other threads, once the readers are stopped. -/
theorem After.packetsCounted (h : After cfg st a) (hcounted : PacketsCounted cfg st.base)
    {label : Label} {base : State} (hruns : st.Runs label) (hnext : Abstracts cfg base b)
    (hstep : DataPath.step cfg st.base label = some base) :
    PacketsCounted cfg base ∧ base.readers = st.base.readers := by
  have hstopped : ¬ st.stopped = false := by
    rw [h.stopped]
    decide
  cases label with
  | start => exact absurd hruns hstopped
  | packet => exact absurd hruns hstopped
  | attempt => exact absurd hruns hstopped
  | finish => exact absurd hruns hstopped
  | dump k =>
      obtain ⟨slot, hk, hcheck, rfl⟩ := step_dump_iff.mp hstep
      exact ⟨hcounted.handedOut hnext (DataBlockBuffer.checkBlock_eq_some.mp hcheck).1, rfl⟩
  | recycle slot =>
      obtain ⟨hmem, rfl⟩ := step_recycle_iff.mp hstep
      exact ⟨hcounted.recycle h.abstracts hmem, rfl⟩

/-- A round of the second loop of a dump thread. -/
theorem packetsCounted_drain {k : ℕ} (hcounted : PacketsCounted cfg st.base)
    (hnext : Abstracts cfg (st.drain cfg k).base b) :
    PacketsCounted cfg (st.drain cfg k).base ∧
      (st.drain cfg k).base.readers = st.base.readers := by
  unfold drain at hnext ⊢
  cases hget : st.base.buffer.directGetBlockID cfg.buffer k with
  | none => exact ⟨hcounted, rfl⟩
  | some slot =>
      rw [hget] at hnext
      exact ⟨hcounted.handedOut hnext (DataBlockBuffer.directGetBlockID_eq_some.mp hget).1, rfl⟩

/-- The counts are kept, and readers that are stopped owe no record. -/
structure Counts (cfg : DataPathConfig) (st : Shutdown) : Prop where
  counted : PacketsCounted cfg st.base
  settled : st.stopped = true → ∀ i < cfg.nbRx, (st.base.readers i).owed cfg = none

theorem counts (htimely : Timely cfg) (hreaders : cfg.nbRx ≤ cfg.delayThreshold + 1)
    (hreach : (shutdown cfg).Reachable (InTimeInBlock cfg) st) : Counts cfg st := by
  induction hreach with
  | init => exact ⟨PacketsCounted.init, nofun⟩
  | @step st next label hreach hallowed hstep ih =>
      have hbefore := hreach.mono fun _ _ => And.left
      obtain ⟨a, ha⟩ := exists_before_or_after htimely hreaders hbefore
      obtain ⟨b, hb⟩ := exists_before_or_after htimely hreaders (hbefore.step hallowed.1 hstep)
      have hnext : Abstracts cfg next.base b := hb.elim (·.abstracts) (·.abstracts)
      cases label with
      | run label =>
          obtain ⟨hruns, base, hbase, rfl⟩ := step_run_iff.mp hstep
          rcases ha with ha | ha
          · refine ⟨ha.packetsCounted htimely hreaders ih.counted hallowed.1 hallowed.2 hnext hbase,
              fun hstopped => ?_⟩
            exact absurd (hstopped.symm.trans ha.running) (by decide)
          · obtain ⟨hcounted, hsame⟩ := ha.packetsCounted ih.counted hruns hnext hbase
            refine ⟨hcounted, fun hstopped i hi => ?_⟩
            change (base.readers i).owed cfg = none
            rw [hsame]
            exact ih.settled hstopped i hi
      | stopReaders =>
          obtain ⟨⟨-, hidle⟩, rfl⟩ := step_stopReaders_iff.mp hstep
          refine ⟨ih.counted, fun _ i hi => ReaderThread.owed_of_epilogue ?_⟩
          cases hstarted : (st.base.readers i).started with
          | false => exact (ih.counted.threads i).fresh hstarted
          | true => exact Option.isNone_iff_eq_none.mp (hidle i hi hstarted).2.2
      | stopDumper k =>
          obtain ⟨-, rfl⟩ := step_stopDumper_iff.mp hstep
          exact ⟨ih.counted, ih.settled⟩
      | drain k =>
          obtain ⟨-, rfl⟩ := step_drain_iff.mp hstep
          obtain ⟨hcounted, hsame⟩ := packetsCounted_drain ih.counted hnext
          refine ⟨hcounted, fun hstopped i hi => ?_⟩
          rw [hsame]
          refine ih.settled ?_ i hi
          unfold drain at hstopped
          split at hstopped <;> exact hstopped

end Shutdown

variable {st : Shutdown}

/-- The count a block is handed out with is the number of Index records put for it and of
those its readers still owe, none once the readers are stopped; and every record names the
block it is put for. -/
theorem packetCount_exact (htimely : Timely cfg) (hreaders : cfg.nbRx ≤ cfg.delayThreshold + 1)
    (hreach : (shutdown cfg).Reachable (Shutdown.InTimeInBlock cfg) st) :
    (∀ record ∈ st.base.dumps, record.block.packetCount =
      st.base.recordsPut cfg record.diskBlock + st.base.recordsOwed cfg record.diskBlock) ∧
    (st.stopped = true → ∀ block, st.base.recordsOwed cfg block = 0) ∧
    ∀ put ∈ st.base.indexRing,
      put.index.diskBlockId = put.position / cfg.blockSize % cfg.diskBlockNum := by
  obtain ⟨hcounted, hsettled⟩ := Shutdown.counts htimely hreaders hreach
  refine ⟨hcounted.dumped, fun hstopped block => ?_, hcounted.records⟩
  refine Finset.sum_eq_zero fun i hi => if_neg ?_
  rw [hsettled hstopped i (Finset.mem_range.mp hi)]
  exact (Option.some_ne_none _).symm

/-- An IPv4 packet of `len` bytes from a port, after an Ethernet header of 14. -/
def portPacket (port : UInt8) (len : ℕ) : Mbuf :=
  { data := fun addr => if addr = 14 then 0x45 else if addr = 35 then port else 0
    dataLen := 14 + len }

/-- The packets of two flows begin in block 0; it is handed out when the reader waits for
block 2. -/
def countedRun : List ShutdownLabel :=
  [.start 0, .packet 0 (portPacket 1 20) 0, .attempt 0, .attempt 0, .finish 0,
    .packet 0 (portPacket 2 20) 0, .attempt 0, .attempt 0, .attempt 0, .attempt 0, .finish 0,
    .packet 0 (portPacket 2 20) 0, .attempt 0, .attempt 0, .finish 0,
    .packet 0 (portPacket 2 20) 0, .attempt 0, .attempt 0, .dump 0].map .run

theorem packetCount_exact_twoFlows : ∃ st : Shutdown,
    (∃ record ∈ st.base.dumps, record.block.packetCount = 2) ∧
    (∀ record ∈ st.base.dumps, record.block.packetCount =
      st.base.recordsPut oneReader record.diskBlock +
        st.base.recordsOwed oneReader record.diskBlock) ∧
    (st.stopped = true → ∀ block, st.base.recordsOwed oneReader block = 0) ∧
    ∀ put ∈ st.base.indexRing,
      put.index.diskBlockId = put.position / oneReader.blockSize % oneReader.diskBlockNum := by
  obtain ⟨st, hreach, htwo⟩ := (shutdown oneReader).exists_reachable countedRun
    (fun st => ∃ record ∈ st.base.dumps, record.block.packetCount = 2)
    (show (shutdown oneReader).RunAllowed (Shutdown.InTimeInBlock oneReader) _ _ by
      decide +kernel) (by decide +kernel)
  exact ⟨st, htwo, packetCount_exact (by decide) (by decide) hreach⟩

/-- The second packet begins at the tail of block 0, and all of it is written to block 1. -/
def tailRun : List ShutdownLabel :=
  [.start 0, .packet 0 (portPacket 1 40) 0, .attempt 0, .attempt 0, .finish 0,
    .packet 0 (portPacket 2 40) 0, .attempt 0, .attempt 0, .attempt 0, .finish 0,
    .packet 0 (portPacket 2 40) 0, .attempt 0, .dump 0].map .run

/-- Block 0 is handed out with one packet, though two records name it. -/
theorem packetCount_misplaced :
    Timely oneReader ∧ oneReader.nbRx ≤ oneReader.delayThreshold + 1 ∧
      ∃ st, (shutdown oneReader).Reachable (Shutdown.InTime oneReader) st ∧
        ∃ record ∈ st.base.dumps, record.block.packetCount = 1 ∧
          st.base.recordsPut oneReader record.diskBlock = 2 :=
  ⟨by decide, by decide, (shutdown oneReader).exists_reachable tailRun _
    (by decide +kernel) (by decide +kernel)⟩

end DataPath

end TrafficDatabase
