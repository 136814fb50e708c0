import TrafficDatabase.DataPath.LateWrites
import TrafficDatabase.Data.FlowDistances

/-!
# Back-patches

A packet linked to an earlier one of its flow has that packet's header patched
once its own writes are done.  `writeBefore` ignores whether `writeBlock` accepts
the patch, so the block of the earlier packet has to be in the buffer still.  The
aggregator links packets at most `delayedBlockNum` blocks apart, and a block is
handed out only when every reader is further away than that; but a reader that
splits a packet goes on in a cell that may be anywhere.

`PatchInReach` is the condition on a packet that is linked: the earlier one is
less than a lap of the disk behind, at least one byte of it lies before the tail
of its cell, and the new cell, if one is taken, lies at most `delayedBlockNum`
blocks after it.  Under it every back-patch lands (`backPatch_lands`); without it
one need not (`backPatch_lost`).

`FlowHistory` is what links a reader's aggregator, which knows offsets on the
disk, to the unreduced positions.
-/

namespace TrafficDatabase

namespace DataPath

variable (cfg : DataPathConfig)

/-- The block has been in the buffer. -/
def State.Reached (st : State) (block : ℕ) : Prop :=
  block ≤ st.held cfg (block % cfg.totalBlockNum)

/-- The offset the packet is linked to, if it is linked. -/
def ReaderThread.last (thread : ReaderThread) (buf : Mbuf) (ts : ℕ) : Option ℕ :=
  DPDKReader.link cfg.reader thread.reader (packet cfg buf ts)
    (thread.reader.getOffset cfg.reader (packet cfg buf ts).len).1 ts

/-- If the packet is linked, it can be patched into the one before it. -/
def ReaderThread.PatchInReach (thread : ReaderThread) (buf : Mbuf) (ts fetched : ℕ) : Prop :=
  (thread.last cfg buf ts).isSome →
    ∀ position ∈ thread.lastPositions (flow cfg buf ts),
      thread.position cfg - position < cfg.dataDiskSize ∧
      position % cfg.cellSize + cellTailLen < cfg.cellSize ∧
      (DPDKReader.Splits cfg.reader thread.reader (packet cfg buf ts) →
        cfg.blockOfCell fetched ≤
          cfg.blockOfCell (position / cfg.cellSize) + cfg.delayThreshold)

/-- A packet that is linked can be patched into the one before it. -/
def PatchInReach (st : State) : Label → Prop
  | .packet i buf ts => (st.readers i).PatchInReach cfg buf ts st.diskWriteCell
  | _ => True

instance : ∀ st label, Decidable (PatchInReach cfg st label)
  | st, .packet i buf ts => by unfold PatchInReach ReaderThread.PatchInReach; infer_instance
  | _, .start _ | _, .attempt _ | _, .finish _ | _, .dump _ | _, .recycle _ => .isTrue trivial

/-- Packets fit and can be patched. -/
def FitsInReach (st : State) (label : Label) : Prop := Fits cfg st label ∧ PatchInReach cfg st label

instance (st : State) (label : Label) : Decidable (FitsInReach cfg st label) :=
  inferInstanceAs (Decidable (_ ∧ _))

/-- What a thread remembers of its flows, in unreduced positions. -/
structure FlowHistory (st : State) (thread : ReaderThread) : Prop where
  fresh : thread.started = false → (∀ flow, thread.lastPositions flow = none) ∧
    thread.epilogue = none
  threshold : thread.reader.packetAggregator.offsetThreshold =
    cfg.delayThreshold * cfg.dataBlockSize
  offsets : ∀ flow, (thread.reader.packetAggregator.aggMap flow).map FlowAttr.lastOffset =
    (thread.lastPositions flow).map (· % cfg.dataDiskSize)
  before : ∀ {flow position}, thread.lastPositions flow = some position →
    position < thread.position cfg
  tail : ∀ {flow position}, thread.lastPositions flow = some position →
    position % cfg.cellSize + cellTailLen ≤ cfg.cellSize
  /-- A packet is stored, or it is the one being stored. -/
  stored : ∀ {flow position}, thread.lastPositions flow = some position →
    st.Reached cfg (cfg.blockOfCell (position / cfg.cellSize)) ∨
      (thread.writes ≠ [] ∧ position / cfg.cellSize = thread.front)
  patch : ∀ {pending req}, thread.epilogue = some pending → pending.epilogue = .writeBefore req →
    (∃ diff, req = DPDKReader.writeBefore diff (pending.position % cfg.dataDiskSize)) ∧
      st.Reached cfg (cfg.blockOfCell (pending.position / cfg.cellSize)) ∧
      cfg.blockOfCell thread.cell ≤
        cfg.blockOfCell (pending.position / cfg.cellSize) + cfg.delayThreshold ∧
      pending.position % cfg.cellSize + cellTailLen < cfg.cellSize

variable {cfg} {st next : State} {thread : ReaderThread} {i fetched ts : ℕ} {buf : Mbuf}
  {label : Label}

/-! ## Distances on the disk -/

/-- The distance the aggregator measures is the true one, within a lap. -/
theorem orderedOffset_sub {size first second : ℕ} (hlt : first < second)
    (hlap : second - first < size) :
    PacketAggregator.orderedOffset (second % size) (first % size) size - first % size =
      second - first := by
  rw [PacketAggregator.orderedOffset_sub_mod (by omega) hlt, Nat.mod_eq_of_lt (by omega)]
  omega

theorem blockOfCell_position_le {first second count : ℕ}
    (h : second ≤ first + count * cfg.dataBlockSize) :
    cfg.blockOfCell (second / cfg.cellSize) ≤ cfg.blockOfCell (first / cfg.cellSize) + count := by
  rw [cfg.blockOfCell_div, cfg.blockOfCell_div]
  calc second / cfg.blockSize ≤ (first + count * cfg.blockSize) / cfg.blockSize :=
        Nat.div_le_div_right h
    _ = first / cfg.blockSize + count := Nat.add_mul_div_right _ _ cfg.blockSize_pos

theorem position_div (hplaced : DPDKReader.Placed cfg.reader thread.reader thread.cell) :
    thread.position cfg / cfg.cellSize = thread.cell := by
  rw [ReaderThread.position, Nat.mul_comm, Nat.mul_add_div cfg.cellSize_pos,
    Nat.div_eq_of_lt hplaced.offset_lt, Nat.add_zero]

theorem position_mod (hplaced : DPDKReader.Placed cfg.reader thread.reader thread.cell) :
    thread.position cfg % cfg.cellSize = thread.reader.writeOffset := by
  rw [ReaderThread.position, Nat.mul_comm, Nat.mul_add_mod, Nat.mod_eq_of_lt hplaced.offset_lt]

/-! ## The history is kept -/

theorem State.Reached.mono {block : ℕ} (h : st.Reached cfg block)
    (hlaps : ∀ slot, st.laps slot ≤ next.laps slot) : next.Reached cfg block := by
  rw [State.Reached, State.held] at h ⊢
  have := Nat.mul_le_mul_left cfg.totalBlockNum (hlaps (block % cfg.totalBlockNum))
  omega

theorem FlowHistory.new (st : State) (i : ℕ) : FlowHistory cfg st (ReaderThread.new cfg i) where
  fresh := fun _ => ⟨fun _ => rfl, rfl⟩
  threshold := rfl
  offsets := fun _ => rfl
  before := nofun
  tail := nofun
  stored := nofun
  patch := nofun

/-- Steps of other threads only add to what was in the buffer. -/
theorem FlowHistory.mono (h : FlowHistory cfg st thread)
    (hlaps : ∀ slot, st.laps slot ≤ next.laps slot) : FlowHistory cfg next thread where
  fresh := h.fresh
  threshold := h.threshold
  offsets := h.offsets
  before := h.before
  tail := h.tail
  stored := fun hlast => (h.stored hlast).imp_left (·.mono hlaps)
  patch := by
    intro pending req hpending hreq
    obtain ⟨hdiff, hreached, hrest⟩ := h.patch hpending hreq
    exact ⟨hdiff, hreached.mono hlaps, hrest⟩

theorem FlowHistory.start (h : FlowHistory cfg st thread) (hnew : thread.started = false)
    (fetched : ℕ) : FlowHistory cfg st (thread.start fetched) := by
  obtain ⟨hnone, hepilogue⟩ := h.fresh hnew
  have hno : ∀ {flow position}, thread.lastPositions flow ≠ some position := by
    intro flow position hlast
    rw [hnone] at hlast
    exact Option.some_ne_none _ hlast.symm
  exact {
    fresh := nofun
    threshold := h.threshold
    offsets := h.offsets
    before := fun hlast => absurd hlast hno
    tail := fun hlast => absurd hlast hno
    stored := fun hlast => absurd hlast hno
    patch := by
      intro pending req hpending
      exact absurd (hepilogue.symm.trans hpending) (Option.some_ne_none _).symm }

/-- Noting a packet's offset in the aggregator and its position beside it. -/
theorem offsets_update {aggMap : FlowMetadata → Option FlowAttr}
    {lastPositions : FlowMetadata → Option ℕ} {size position offset : ℕ}
    (h : ∀ flow, (aggMap flow).map FlowAttr.lastOffset = (lastPositions flow).map (· % size))
    (hoffset : offset = position % size) (added flow : FlowMetadata) :
    (Function.update aggMap added (some ⟨offset, ts⟩) flow).map FlowAttr.lastOffset =
      (Function.update lastPositions added (some position) flow).map (· % size) := by
  by_cases hsame : flow = added
  · rw [hsame, Function.update_self, Function.update_self, Option.map_some, Option.map_some,
      hoffset]
  · rw [Function.update_of_ne hsame, Function.update_of_ne hsame]
    exact h flow

theorem ReaderThread.posIn_eq (hplaced : DPDKReader.Placed cfg.reader thread.reader thread.cell) :
    cfg.reader.posIn thread.cell thread.reader.writeOffset =
      thread.position cfg % cfg.dataDiskSize := by
  rw [ReaderThread.position, Nat.add_comm]
  exact (cfg.aligned.add_mod hplaced.offset_lt).symm

theorem accept_aggregator :
    (thread.accept cfg buf ts fetched).reader.packetAggregator =
      (thread.plan cfg buf ts fetched).reader.packetAggregator := by
  rw [ReaderThread.accept]

theorem accept_lastPositions : (thread.accept cfg buf ts fetched).lastPositions =
    if DPDKReader.NonIP cfg.reader (ReaderThread.packet cfg buf ts) then thread.lastPositions
    else Function.update thread.lastPositions (ReaderThread.flow cfg buf ts)
      (some (thread.position cfg)) := by
  rw [ReaderThread.accept]

/-- What the run loop does to the aggregator, and the history beside it. -/
theorem FlowHistory.accept_offsets (h : FlowHistory cfg st thread)
    (hplaced : DPDKReader.Placed cfg.reader thread.reader thread.cell) (buf : Mbuf)
    (ts fetched : ℕ) :
    (thread.accept cfg buf ts fetched).reader.packetAggregator.offsetThreshold =
        cfg.delayThreshold * cfg.dataBlockSize ∧
      ∀ flow, ((thread.accept cfg buf ts fetched).reader.packetAggregator.aggMap flow).map
          FlowAttr.lastOffset =
        ((thread.accept cfg buf ts fetched).lastPositions flow).map (· % cfg.dataDiskSize) := by
  rw [accept_aggregator, accept_lastPositions]
  by_cases hnon : DPDKReader.NonIP cfg.reader (ReaderThread.packet cfg buf ts)
  · rw [if_pos hnon, ReaderThread.plan, DPDKReader.handlePacket_packetAggregator_of_nonIP hnon]
    exact ⟨h.threshold, h.offsets⟩
  · rw [if_neg hnon, (ReaderThread.storedPlan fetched hplaced hnon).aggregator,
      PacketAggregator.addPacket_offsetThreshold, PacketAggregator.addPacket_aggMap]
    exact ⟨h.threshold, offsets_update h.offsets (ReaderThread.posIn_eq hplaced) _⟩

/-- A linked packet is at most `delayedBlockNum` blocks after the one before it. -/
theorem FlowHistory.linked (h : FlowHistory cfg st thread)
    (hplaced : DPDKReader.Placed cfg.reader thread.reader thread.cell) {last : ℕ}
    (hlast : DPDKReader.link cfg.reader thread.reader (ReaderThread.packet cfg buf ts)
      (cfg.reader.posIn thread.cell thread.reader.writeOffset) ts = some last) :
    ∃ position, thread.lastPositions (ReaderThread.flow cfg buf ts) = some position ∧
      last = position % cfg.dataDiskSize ∧
      (thread.position cfg - position < cfg.dataDiskSize →
        thread.position cfg ≤ position + cfg.delayThreshold * cfg.dataBlockSize) := by
  obtain ⟨attr, hattr, hexpired, rfl⟩ := PacketAggregator.addPacket_fst_eq_some.mp hlast
  have hoffset := h.offsets (ReaderThread.flow cfg buf ts)
  rw [show thread.reader.packetAggregator.aggMap (ReaderThread.flow cfg buf ts) = some attr
      from hattr,
    Option.map_some] at hoffset
  obtain ⟨position, hposition, hmod⟩ := Option.map_eq_some_iff.mp hoffset.symm
  refine ⟨position, hposition, hmod.symm, fun hlap => ?_⟩
  have hbefore := h.before hposition
  rw [PacketAggregator.Expired, not_or, not_lt, h.threshold, ← hmod] at hexpired
  have hdistance := hexpired.1
  rw [ReaderThread.posIn_eq hplaced] at hdistance
  change PacketAggregator.orderedOffset _ _ cfg.dataDiskSize - _ ≤ _ at hdistance
  rw [orderedOffset_sub hbefore hlap] at hdistance
  omega

theorem FlowHistory.accept (h : FlowHistory cfg st thread) (hidle : thread.Idle)
    (hplaced : DPDKReader.Placed cfg.reader thread.reader thread.cell) {fetched : ℕ}
    (hlt : thread.cell < fetched)
    (hfits : thread.reader.Fits cfg.reader (ReaderThread.packet cfg buf ts))
    (hinReach : thread.PatchInReach cfg buf ts fetched) :
    FlowHistory cfg st (thread.accept cfg buf ts fetched) := by
  have hnext := ReaderThread.position_lt_accept hplaced hlt hfits
  have hstored : ∀ {flow position}, thread.lastPositions flow = some position →
      st.Reached cfg (cfg.blockOfCell (position / cfg.cellSize)) := by
    intro flow position hlast
    exact (h.stored hlast).resolve_right fun hpending => hpending.1 hidle.2.1
  obtain ⟨hthreshold, hoffsets⟩ := h.accept_offsets hplaced buf ts fetched
  -- a position remembered after the packet was remembered before, or is the packet's own
  have hcases : ∀ {flow position},
      (thread.accept cfg buf ts fetched).lastPositions flow = some position →
      thread.lastPositions flow = some position ∨
        (position = thread.position cfg ∧
          ¬ DPDKReader.NonIP cfg.reader (ReaderThread.packet cfg buf ts)) := by
    intro flow position hlast
    simp only [ReaderThread.accept] at hlast
    split_ifs at hlast with hnon
    · exact .inl hlast
    · by_cases hsame : flow = ReaderThread.flow cfg buf ts
      · rw [hsame, Function.update_self] at hlast
        exact .inr ⟨(Option.some.inj hlast).symm, hnon⟩
      · rw [Function.update_of_ne hsame] at hlast
        exact .inl hlast
  refine ⟨?_, hthreshold, hoffsets, ?_, ?_, ?_, ?_⟩
  · intro hno
    exact absurd (hidle.1.symm.trans hno) (by decide)
  · intro flow position hlast
    rcases hcases hlast with hbefore | ⟨rfl, -⟩
    · exact (h.before hbefore).trans hnext
    · exact hnext
  · intro flow position hlast
    rcases hcases hlast with hbefore | ⟨rfl, -⟩
    · exact h.tail hbefore
    · rw [position_mod hplaced]
      exact hplaced.offset_le
  · intro flow position hlast
    rcases hcases hlast with hbefore | ⟨rfl, hnon⟩
    · exact .inl (hstored hbefore)
    · right
      rw [position_div hplaced, ReaderThread.accept_front hplaced]
      refine ⟨?_, rfl⟩
      have hwrites := (ReaderThread.storedPlan fetched hplaced hnon).writes
      have hne : (thread.plan cfg buf ts fetched).writes.inCell ≠ [] := by
        rw [hwrites]
        exact DPDKReader.storedWrites_inCell_ne_nil
      exact List.append_ne_nil_of_left_ne_nil (by simpa using hne) _
  · intro pending req hpending hreq
    by_cases hnon : DPDKReader.NonIP cfg.reader (ReaderThread.packet cfg buf ts)
    · rw [(ReaderThread.accept_of_nonIP _ _ hnon).2.1] at hpending
      exact absurd hpending (Option.some_ne_none _).symm
    have hplan : DPDKReader.StoredPlan cfg.reader thread.reader (ReaderThread.packet cfg buf ts) ts
        fetched thread.cell (thread.plan cfg buf ts fetched) :=
      ReaderThread.storedPlan fetched hplaced hnon
    simp only [ReaderThread.accept, hplan.epilogue, Option.map_some, Option.some.injEq] at hpending
    subst hpending
    simp only at hreq
    cases hlast : DPDKReader.link cfg.reader thread.reader (ReaderThread.packet cfg buf ts)
        (cfg.reader.posIn thread.cell thread.reader.writeOffset) ts with
    | none =>
        rw [hlast] at hreq
        exact Epilogue.noConfusion hreq
    | some last =>
        rw [hlast] at hreq
        obtain ⟨position, hposition, rfl, hdistance⟩ := h.linked hplaced hlast
        have hsome : (thread.last cfg buf ts).isSome := by
          rw [ReaderThread.last, DPDKReader.getOffset_fst cfg.aligned hplaced, hlast]
          rfl
        obtain ⟨hlap, htail, hsplit⟩ := hinReach hsome position hposition
        simp only [ReaderThread.epiloguePosition, hposition, Option.getD_some]
        refine ⟨⟨_, (Epilogue.writeBefore.inj hreq).symm⟩, hstored hposition, ?_, htail⟩
        change cfg.blockOfCell (if (thread.plan cfg buf ts fetched).takesCell then fetched
          else thread.cell) ≤ _
        rw [hplan.takesCell]
        by_cases hs : DPDKReader.Splits cfg.reader thread.reader (ReaderThread.packet cfg buf ts)
        · rw [if_pos (decide_eq_true hs)]
          exact hsplit hs
        · rw [if_neg (by simpa using hs), ← position_div hplaced]
          exact blockOfCell_position_le (hdistance hlap)

/-- A write that succeeds shows that the packet's block is in the buffer. -/
theorem FlowHistory.pop (h : FlowHistory cfg st thread) {write : PendingWrite}
    {rest : List PendingWrite} (hwrites : thread.writes = write :: rest)
    (hreached : st.Reached cfg (cfg.blockOfCell write.cell)) :
    FlowHistory cfg st { thread with writes := rest } where
  fresh := h.fresh
  threshold := h.threshold
  offsets := h.offsets
  before := h.before
  tail := h.tail
  stored := by
    intro flow position hlast
    left
    rcases h.stored hlast with hbefore | ⟨-, hfront⟩
    · exact hbefore
    · rw [hfront, ReaderThread.front_of_cons hwrites]
      exact hreached
  patch := h.patch

theorem FlowHistory.finish (h : FlowHistory cfg st thread) :
    FlowHistory cfg st { thread with epilogue := none } where
  fresh := fun hno => ⟨(h.fresh hno).1, rfl⟩
  threshold := h.threshold
  offsets := h.offsets
  before := h.before
  tail := h.tail
  stored := h.stored
  patch := nofun

theorem State.laps_le (hstep : step cfg st label = some next) (slot : ℕ) :
    st.laps slot ≤ next.laps slot := by
  cases label with
  | start i =>
      obtain ⟨-, rfl⟩ := step_start_iff.mp hstep
      exact le_rfl
  | packet i buf ts =>
      obtain ⟨-, rfl⟩ := step_packet_iff.mp hstep
      exact le_rfl
  | attempt i =>
      obtain ⟨write, rest, -, -, rfl⟩ := step_attempt_iff.mp hstep
      exact le_rfl
  | finish i =>
      obtain ⟨pending, -, -, -, rfl⟩ := step_finish_iff.mp hstep
      rw [State.finish]
      cases pending.epilogue <;> exact le_rfl
  | dump k =>
      obtain ⟨other, -, -, rfl⟩ := step_dump_iff.mp hstep
      exact le_rfl
  | recycle other =>
      obtain ⟨-, rfl⟩ := step_recycle_iff.mp hstep
      change st.laps slot ≤ Function.update st.laps other (st.laps other + 1) slot
      by_cases h : slot = other
      · rw [h, Function.update_self]
        exact Nat.le_succ _
      · rw [Function.update_of_ne h]

/-- Only the thread that takes the step has to be looked at. -/
theorem flowHistory_update (h : ∀ j, FlowHistory cfg st (st.readers j))
    (hlaps : ∀ slot, st.laps slot ≤ next.laps slot) (hthread : FlowHistory cfg st thread) (j : ℕ) :
    FlowHistory cfg next (Function.update st.readers i thread j) := by
  by_cases hsame : j = i
  · rw [hsame, Function.update_self]
    exact hthread.mono hlaps
  · rw [Function.update_of_ne hsame]
    exact (h j).mono hlaps

theorem flowHistory_step {a : HandOut.State} (habs : Abstracts cfg st a)
    (hinv : HandOut.Invariant (protocol cfg) a) (h : ∀ j, FlowHistory cfg st (st.readers j))
    (hallowed : FitsInReach cfg st label) (hstep : step cfg st label = some next) (j : ℕ) :
    FlowHistory cfg next (next.readers j) := by
  have hlaps := State.laps_le hstep
  cases label with
  | start i =>
      obtain ⟨⟨-, hnew⟩, rfl⟩ := step_start_iff.mp hstep
      exact flowHistory_update h hlaps ((h i).start hnew _) j
  | packet i buf ts =>
      obtain ⟨⟨-, hidle⟩, rfl⟩ := step_packet_iff.mp hstep
      have hstarted : a.started i := (habs.started i).mpr hidle.1
      have hlt : (st.readers i).cell < st.diskWriteCell := by
        rw [← habs.cell hstarted, ← habs.counter]
        exact hinv.cell_lt hstarted
      have hplaced := (habs.threads i).placed hidle.1 ((Nat.le_add_left _ _).trans hallowed.1.1)
      exact flowHistory_update h hlaps ((h i).accept hidle hplaced hlt hallowed.1 hallowed.2) j
  | attempt i =>
      obtain ⟨write, rest, hwrites, hi, rfl⟩ := step_attempt_iff.mp hstep
      have hid : (st.readers i).reader.threadId = i := (habs.threads i).threadId
      cases hwritten : (st.buffer.writeBlock cfg.buffer i write.req).1 with
      | false =>
          simp only [State.attempt, hid, hwritten]
          exact (h j).mono hlaps
      | true =>
          have hreached : st.Reached cfg (cfg.blockOfCell write.cell) :=
            (habs.held_of_written hinv hi hwrites hwritten).ge
          simp only [State.attempt, hid, hwritten, if_true]
          refine flowHistory_update h ?_ ((h i).pop hwrites hreached) j
          exact fun _ => le_rfl
  | finish i =>
      obtain ⟨pending, -, -, -, rfl⟩ := step_finish_iff.mp hstep
      have hreaders : (st.finish cfg i pending).readers =
          Function.update st.readers i { st.readers i with epilogue := none } := by
        rw [State.finish]
        cases pending.epilogue <;> rfl
      rw [hreaders]
      exact flowHistory_update h hlaps (h i).finish j
  | dump k =>
      obtain ⟨slot, -, -, rfl⟩ := step_dump_iff.mp hstep
      exact (h j).mono hlaps
  | recycle slot =>
      obtain ⟨-, rfl⟩ := step_recycle_iff.mp hstep
      exact (h j).mono hlaps

/-! ## Back-patches land -/

theorem exists_history (htimely : Timely cfg)
    (hreach : (system cfg).Reachable (FitsInReach cfg) st) :
    ∃ a, HandOut.Reachable (protocol cfg) a ∧ Abstracts cfg st a ∧
      ∀ i, FlowHistory cfg st (st.readers i) := by
  induction hreach with
  | init => exact ⟨_, .refl, abstracts_init, FlowHistory.new _⟩
  | @step st next label _ hallowed hstep ih =>
      obtain ⟨a, hprotocol, habs, hhistory⟩ := ih
      have hinv := hprotocol.invariant htimely.protocol
      obtain ⟨b, hsteps, -, hnext⟩ := habs.step hinv hallowed.1 hstep
      exact ⟨b, hprotocol.trans hsteps, hnext, flowHistory_step habs hinv hhistory hallowed hstep⟩

/-- A patch that leaves the tail of its cell alone stays in the block. -/
theorem not_crosses_patch {position : ℕ}
    (htail : position % cfg.cellSize + cellTailLen ≤ cfg.cellSize) :
    ¬ cfg.buffer.Crosses (position % cfg.dataDiskSize) 4 := by
  have hwidth : 4 < cellTailLen := by decide
  intro hcrosses
  rw [show position % cfg.dataDiskSize = _ from cfg.mod_diskSize position] at hcrosses
  have hends := (DataPathConfig.Crosses.ends (by omega) hcrosses).1
  omega

/-- The reader's last back-patch is still to be made: its block is in the buffer
and has not been handed out. -/
theorem FlowHistory.unhanded {a : HandOut.State} (h : FlowHistory cfg st thread)
    (habs : Abstracts cfg st a) (hinv : HandOut.Invariant (protocol cfg) a)
    (hsettled : HandOut.Settled (protocol cfg) a) (hi : i < cfg.nbRx)
    (hthread : st.readers i = thread)
    {pending : PendingEpilogue} {req : WriteRequest} (hpending : thread.epilogue = some pending)
    (hreq : pending.epilogue = .writeBefore req) :
    st.held cfg (cfg.blockOfCell (pending.position / cfg.cellSize) % cfg.totalBlockNum) =
        cfg.blockOfCell (pending.position / cfg.cellSize) ∧
      ¬ a.Handed (protocol cfg) (cfg.blockOfCell (pending.position / cfg.cellSize)) := by
  obtain ⟨-, hreached, hnear, -⟩ := h.patch hpending hreq
  have hnot : ¬ a.Handed (protocol cfg) (cfg.blockOfCell (pending.position / cfg.cellSize)) := by
    intro hhanded
    obtain ⟨hattempted, -, hfar⟩ := hsettled hhanded hi
    rw [habs.cell (hinv.started_of_attempted hattempted), hthread] at hfar
    exact absurd hfar (not_lt.mpr hnear)
  refine ⟨?_, hnot⟩
  rw [← habs.held]
  refine hinv.held_of_not_handed ?_ hnot
  rw [State.Reached, ← habs.held] at hreached
  exact hreached

/-- While linked packets can be patched into the ones before them, every
back-patch is accepted, changes bytes of a packet in the block it was put in, and
comes before that block is handed out. -/
theorem backPatch_lands (htimely : Timely cfg) (hreaders : cfg.nbRx ≤ cfg.delayThreshold + 1)
    (hreach : (system cfg).Reachable (FitsInReach cfg) st) {pending : PendingEpilogue}
    {req : WriteRequest} (hstep : step cfg st (.finish i) = some next)
    (hpending : (st.readers i).epilogue = some pending)
    (hreq : pending.epilogue = .writeBefore req) :
    req.diskPos = pending.position % cfg.dataDiskSize ∧
      pending.position % cfg.cellSize + cellTailLen < cfg.cellSize ∧
      (st.buffer.writeBlock cfg.buffer i req).1 = true ∧
      next.buffer.bufferBlocks =
        st.buffer.bufferBlocks.ringWrite cfg.buffer.bufferSize req.diskPos req.data ∧
      st.held cfg (cfg.buffer.slotOf req.diskPos) = pending.position / cfg.blockSize ∧
      ∀ record ∈ st.dumps, record.diskBlock ≠ pending.position / cfg.blockSize := by
  obtain ⟨a, hprotocol, habs, hhistory⟩ := exists_history htimely hreach
  have hinv := hprotocol.invariant htimely.protocol
  obtain ⟨-, -, -, hi, hnext⟩ := step_finish_iff.mp hstep
  obtain ⟨⟨diff, rfl⟩, -, -, htail⟩ := (hhistory i).patch hpending hreq
  obtain ⟨hheld, hnot⟩ := (hhistory i).unhanded habs hinv
    (hprotocol.settled htimely.protocol hreaders) hi rfl hpending hreq
  -- the position lies in the cell of its packet, and the slot has the block of that cell
  have hpos : pending.position % cfg.dataDiskSize =
      cfg.reader.posIn (pending.position / cfg.cellSize) (pending.position % cfg.cellSize) :=
    cfg.mod_diskSize _
  have hoffset : pending.position % cfg.cellSize < cfg.cellSize := Nat.mod_lt _ cfg.cellSize_pos
  have hslot : cfg.buffer.slotOf (pending.position % cfg.dataDiskSize) =
      cfg.blockOfCell (pending.position / cfg.cellSize) % cfg.totalBlockNum := by
    rw [hpos, DataPathConfig.slotOf_posIn hoffset]
  have hwritten : (st.buffer.writeBlock cfg.buffer i
      (DPDKReader.writeBefore diff (pending.position % cfg.dataDiskSize))).1 = true := by
    -- four bytes in front of the tail do not cross the end of the block
    refine DataBlockBuffer.writeBlock_fst.mpr ⟨?_, fun hcrosses => ?_⟩
    · change st.buffer.blockDiskId (cfg.buffer.slotOf (pending.position % cfg.dataDiskSize)) =
        cfg.buffer.diskIdOf (pending.position % cfg.dataDiskSize)
      rw [hslot, habs.diskIds (Nat.mod_lt _ cfg.totalBlockNum_pos), habs.held, hheld, hpos,
        DataPathConfig.diskIdOf_posIn hoffset]
    · rw [show (DPDKReader.writeBefore diff (pending.position % cfg.dataDiskSize)).data.length = 4
        from length_toLittleEndian _ _] at hcrosses
      exact absurd hcrosses (not_crosses_patch htail.le)
  refine ⟨rfl, htail, hwritten, ?_, ?_, ?_⟩
  · have hbuffer : next.buffer = (st.buffer.writeBlock cfg.buffer i
        (DPDKReader.writeBefore diff (pending.position % cfg.dataDiskSize))).2 := by
      obtain ⟨other, -, hother, -, rfl⟩ := step_finish_iff.mp hstep
      obtain rfl : other = pending := Option.some.inj (hother.symm.trans hpending)
      rw [State.finish, hreq, (habs.threads i).threadId]
    rw [hbuffer, DataBlockBuffer.writeBlock_bufferBlocks, if_pos hwritten]
  · rw [← cfg.blockOfCell_div]
    change st.held cfg (cfg.buffer.slotOf (pending.position % cfg.dataDiskSize)) = _
    rw [hslot]
    exact hheld
  · intro record hrecord hsame
    rw [← cfg.blockOfCell_div] at hsame
    exact hnot (hsame ▸ (habs.dumped hrecord).1)

/-- Two packets of one flow in the first cell. -/
def linkedRun : List Label :=
  [.start 0, .packet 0 (ipv4Packet 12) 0, .attempt 0, .attempt 0, .finish 0,
    .packet 0 (ipv4Packet 12) 0, .attempt 0, .attempt 0]

/-- The patch a reader is about to make. -/
def State.patch (st : State) (i : ℕ) : Option (PendingEpilogue × WriteRequest) :=
  (st.readers i).epilogue.bind fun pending =>
    match pending.epilogue with
    | .writeBefore req => some (pending, req)
    | .writeIndexToRing _ => none

theorem State.patch_eq_some {pending : PendingEpilogue} {req : WriteRequest} :
    st.patch i = some (pending, req) ↔
      (st.readers i).epilogue = some pending ∧ pending.epilogue = .writeBefore req := by
  rw [State.patch]
  cases (st.readers i).epilogue with
  | none => simp
  | some other =>
      rw [Option.bind_some]
      cases hreq : other.epilogue <;> simp <;> grind

theorem backPatch_lands_linked : ∃ st next pending req, st.patch 0 = some (pending, req) ∧
    step oneReader st (.finish 0) = some next ∧
    req.diskPos = pending.position % oneReader.dataDiskSize ∧
    pending.position % oneReader.cellSize + cellTailLen < oneReader.cellSize ∧
    (st.buffer.writeBlock oneReader.buffer 0 req).1 = true ∧
    next.buffer.bufferBlocks =
      st.buffer.bufferBlocks.ringWrite oneReader.buffer.bufferSize req.diskPos req.data ∧
    st.held oneReader (oneReader.buffer.slotOf req.diskPos) =
      pending.position / oneReader.blockSize ∧
    ∀ record ∈ st.dumps, record.diskBlock ≠ pending.position / oneReader.blockSize := by
  obtain ⟨st, hreach, hpatch, hsome⟩ := (system oneReader).exists_reachable linkedRun
    (fun st => (st.patch 0).isSome ∧ (step oneReader st (.finish 0)).isSome)
    (show (system oneReader).RunAllowed (FitsInReach oneReader) _ _ by decide +kernel)
    (by decide +kernel)
  obtain ⟨⟨pending, req⟩, hpair⟩ := Option.isSome_iff_exists.mp hpatch
  obtain ⟨next, hnext⟩ := Option.isSome_iff_exists.mp hsome
  obtain ⟨hpending, hreq⟩ := State.patch_eq_some.mp hpair
  exact ⟨st, next, pending, req, hpair, hnext,
    backPatch_lands (by decide) (by decide) hreach hnext hpending hreq⟩

/-- Each packet runs over the end of its cell: the reader waits for block 2 when
the packet in block 0 still has to be patched. -/
def splitRun : List Label :=
  [.start 0, .packet 0 (ipv4Packet 20) 0, .attempt 0, .attempt 0, .finish 0,
    .packet 0 (ipv4Packet 30) 0, .attempt 0, .attempt 0, .attempt 0, .attempt 0, .finish 0,
    .packet 0 (ipv4Packet 30) 0, .attempt 0, .attempt 0, .attempt 0, .dump 0, .recycle 0,
    .attempt 0, .attempt 0]

/-- With timely parameters and packets that all fit, a patch can come too late:
its block has been handed out and recycled, and `writeBlock` refuses it. -/
theorem backPatch_lost : Timely oneReader ∧ oneReader.nbRx ≤ oneReader.delayThreshold + 1 ∧
    ∃ st, (system oneReader).Reachable (Fits oneReader) st ∧
      (step oneReader st (.finish 0)).isSome ∧
      ∃ pair ∈ st.patch 0, (st.buffer.writeBlock oneReader.buffer 0 pair.2).1 = false ∧
        ∃ record ∈ st.dumps, record.diskBlock = pair.1.position / oneReader.blockSize := by
  refine ⟨by decide, by decide, (system oneReader).exists_reachable splitRun _ ?_ ?_⟩
  · decide +kernel
  · decide +kernel

end DataPath

end TrafficDatabase
