import TrafficDatabase.DataPath.Refinement

/-!
# No reader writes in a block that was handed out

The only sign a dump thread has of a reader's progress is the block the reader
published last.  With timely parameters and at most one reader more than the
delay it is enough: a block handed out is behind every reader's next write
(`attempt_after_handOut`).

Two readers and no delay are one too many.  A reader is registered with its own
number as its published block, so the second one counts as past block 0 before it
has written anything: block 0 is handed out while that reader still has to write
in it (`handedOut_before_write`).
-/

namespace TrafficDatabase

namespace DataPath

variable (cfg : DataPathConfig)

/-- A reader's next write is in a block that has been handed out. -/
def LateWrite (st : State) : Prop :=
  ∃ record ∈ st.dumps, ∃ i < cfg.nbRx, ∃ write ∈ (st.readers i).writes.head?,
    cfg.blockOfCell write.cell = record.diskBlock

instance : DecidablePred (LateWrite cfg) := fun _ => by
  unfold LateWrite
  infer_instance

variable {cfg} {st next : State}

/-- Whatever a reader attempts to write with `new_data` lies in a block, counted
over all laps, after every block handed out so far. -/
theorem attempt_after_handOut (htimely : Timely cfg)
    (hreaders : cfg.nbRx ≤ cfg.delayThreshold + 1) (hreach : (system cfg).Reachable (Fits cfg) st)
    {i : ℕ} (hstep : step cfg st (.attempt i) = some next) :
    ∃ write ∈ (st.readers i).writes.head?, write.req.newData = true ∧
      cfg.buffer.diskIdOf write.req.diskPos = cfg.blockOfCell write.cell % cfg.diskBlockNum ∧
      ∀ record ∈ st.dumps, record.diskBlock < cfg.blockOfCell write.cell := by
  obtain ⟨write, rest, hwrites, hi, -⟩ := step_attempt_iff.mp hstep
  obtain ⟨a, hprotocol, habs⟩ := exists_abstracts htimely hreach
  have hmem : write ∈ (st.readers i).writes := hwrites ▸ List.mem_cons_self
  refine ⟨write, by rw [hwrites]; rfl, (habs.threads i).newData hmem, ?_, fun record hrecord => ?_⟩
  · obtain ⟨offset, hoffset, hpos, -⟩ := (habs.threads i).inCell hmem
    rw [hpos, DataPathConfig.diskIdOf_posIn hoffset]
  · have hhanded := (habs.dumped hrecord).1
    obtain ⟨hattempted, hfront, -⟩ := hprotocol.settled htimely.protocol hreaders hhanded hi
    have hstarted := (hprotocol.invariant htimely.protocol).started_of_attempted hattempted
    rw [habs.front hstarted, ReaderThread.front_of_cons hwrites] at hfront
    -- a dumper there is, so the delay is not zero
    have hdelay : 0 < cfg.delayThreshold := lt_of_lt_of_le hhanded.1 htimely.1
    change record.diskBlock + cfg.delayThreshold ≤ cfg.blockOfCell write.cell at hfront
    omega

/-- A new cell is less than a lap of the disk after the one the reader is in. -/
theorem newCell_lt_lap (htimely : Timely cfg) (hreaders : cfg.nbRx ≤ cfg.delayThreshold + 1)
    (hreach : (system cfg).Reachable (Fits cfg) st) {i : ℕ} (hi : i < cfg.nbRx)
    (hstarted : (st.readers i).started = true) :
    (st.readers i).cell < st.diskWriteCell ∧
      st.diskWriteCell < (st.readers i).cell + cfg.cellNum := by
  obtain ⟨a, hprotocol, habs⟩ := exists_abstracts htimely hreach
  have hinv := hprotocol.invariant htimely.protocol
  have hsettled : HandOut.Settled (protocol cfg) a :=
    hprotocol.settled htimely.protocol hreaders
  have hstart : a.started i := (habs.started i).mpr hstarted
  rw [← habs.cell hstart, ← habs.counter]
  refine ⟨hinv.cell_lt hstart, ?_⟩
  set block := cfg.blockOfCell (a.cell i) with hblock
  have hslot : block % cfg.totalBlockNum < cfg.totalBlockNum := Nat.mod_lt _ cfg.totalBlockNum_pos
  -- the reader's own block has not been handed out, so its slot is not ahead of it
  have hheld : a.held (block % cfg.totalBlockNum) ≤ block := by
    by_contra hgt
    have hhanded : a.Handed (protocol cfg) block := hinv.handed_of_lt (not_le.mp hgt)
    have hfar : block + cfg.delayThreshold < block := (hsettled hhanded hi).2.2
    omega
  have hcell : block * cfg.cellsPerBlock ≤ a.cell i := cfg.le_blockOfCell_iff.mp hblock.le
  have hdisk := cfg.diskBlockNum_gt
  have hslots := cfg.totalBlockNum_pos
  calc a.counter
      ≤ (a.held (block % cfg.totalBlockNum) + 3 * cfg.totalBlockNum + 1) * cfg.cellsPerBlock :=
        hinv.counter_le hslot
    _ ≤ (block + (3 * cfg.totalBlockNum + 1)) * cfg.cellsPerBlock :=
        Nat.mul_le_mul_right _ (by omega)
    _ = block * cfg.cellsPerBlock + (3 * cfg.totalBlockNum + 1) * cfg.cellsPerBlock :=
        Nat.add_mul ..
    _ < block * cfg.cellsPerBlock + cfg.diskBlockNum * cfg.cellsPerBlock :=
        Nat.add_lt_add_left (Nat.mul_lt_mul_of_pos_right (by omega) cfg.cellsPerBlock_pos) _
    _ ≤ a.cell i + cfg.cellNum := by
        rw [cfg.cellNum_eq]
        exact Nat.add_le_add_right hcell _

/-- One reader, a delay of one block. -/
def oneReader : DataPathConfig :=
  { dataDiskSize := 1024, dataBlockSize := 64, dataBlockCacheNum := 2, nbRx := 1
    delayThreshold := 1, dataDiskManagerThreadNum := 1, ethHeaderLen := 14, accepted := by decide }

/-- An IPv4 packet of `len` bytes after an Ethernet header of 14. -/
def ipv4Packet (len : ℕ) : Mbuf :=
  { data := fun addr => if addr = 14 then 0x45 else 0, dataLen := 14 + len }

/-- The reader fills two blocks and waits for the third; the first is handed out. -/
def waitingRun : List Label :=
  [.start 0, .packet 0 (ipv4Packet 40) 0, .attempt 0, .attempt 0, .finish 0,
    .packet 0 (ipv4Packet 40) 0, .attempt 0, .attempt 0, .attempt 0, .finish 0,
    .packet 0 (ipv4Packet 40) 0, .attempt 0, .dump 0]

theorem attempt_after_handOut_waiting : ∃ st next, st.dumps.length = 1 ∧
    step oneReader st (.attempt 0) = some next ∧
    ∃ write ∈ (st.readers 0).writes.head?, write.req.newData = true ∧
      oneReader.buffer.diskIdOf write.req.diskPos =
        oneReader.blockOfCell write.cell % oneReader.diskBlockNum ∧
      ∀ record ∈ st.dumps, record.diskBlock < oneReader.blockOfCell write.cell := by
  obtain ⟨st, hreach, hlen, hsome⟩ := (system oneReader).exists_reachable waitingRun
    (fun st => st.dumps.length = 1 ∧ (step oneReader st (.attempt 0)).isSome)
    (show (system oneReader).RunAllowed (Fits oneReader) _ _ by decide +kernel) (by decide +kernel)
  obtain ⟨next, hnext⟩ := Option.isSome_iff_exists.mp hsome
  exact ⟨st, next, hlen, hnext, attempt_after_handOut (by decide) (by decide) hreach hnext⟩

/-- Two readers and no delay. -/
def twoReaders : DataPathConfig :=
  { dataDiskSize := 2048, dataBlockSize := 128, dataBlockCacheNum := 2, nbRx := 2
    delayThreshold := 0, dataDiskManagerThreadNum := 1, ethHeaderLen := 14, accepted := by decide }

/-- Reader 1 takes the first cell, reader 0 fills the second one and with it
block 0, which is dumped before reader 1 has its first packet. -/
def lateRun : List Label :=
  [.start 1, .start 0, .packet 0 (ipv4Packet 40) 0, .attempt 0, .attempt 0, .finish 0,
    .packet 0 (ipv4Packet 40) 0, .attempt 0, .dump 0, .packet 1 (ipv4Packet 40) 0]

/-- With packets that all fit, two readers and no delay: a block is handed out
while a reader still has to write in it. -/
theorem handedOut_before_write : twoReaders.nbRx ≤ twoReaders.totalBlockNum ∧
    twoReaders.delayThreshold + 2 * twoReaders.totalBlockNum < twoReaders.diskBlockNum ∧
    ∃ st, (system twoReaders).Reachable (Fits twoReaders) st ∧ LateWrite twoReaders st := by
  refine ⟨by decide, by decide, (system twoReaders).exists_reachable lateRun _ ?_ ?_⟩
  · decide +kernel
  · decide +kernel

end DataPath

end TrafficDatabase
