import TrafficDatabase.DataPath.LateWrites

/-!
# When the data path comes to a standstill

A reader that finds its slot still holding an older block retries its write until
the slot is recycled, which is after it has been dumped.  A dump thread looks at
what every reader has published last, and a reader publishes only when it writes.
So what counts is the slowest reader, also one that has nothing to write.

With no dump in flight some dump thread goes on exactly if every reader has
published a block that is more than the delay past some block of the buffer
(`exists_checkBlock_iff`).  Readers that wait themselves have, if the delay is
shorter than the buffer (`goesOn_of_waiting`); a reader without packets stays where
it was, and the others wait for it for ever (`standstill`).
-/

namespace TrafficDatabase

namespace DataPath

variable (cfg : DataPathConfig)

/-- The data path, with the blocks the readers have published, not reduced. -/
structure Progress where
  base : State
  published : ℕ → ℕ

def progress : TransitionSystem Progress Label :=
  { init := { base := State.init cfg, published := id }
    step := fun st label => (step cfg st.base label).map fun next =>
      { base := next, published := st.base.publish cfg st.published label } }

/-- The reader's next write does not succeed, as the slot of `block`, which it reaches,
holds an older one. -/
def WaitsFor (st : State) (i block : ℕ) : Prop :=
  ∃ write ∈ (st.readers i).writes.head?,
    (st.buffer.writeBlock cfg.buffer i write.req).1 = false ∧
      (block = cfg.blockOfCell write.cell ∨
        block = cfg.blockOfCell write.cell + 1 ∧
          cfg.buffer.Crosses write.req.diskPos write.req.data.length) ∧
      st.held cfg (block % cfg.totalBlockNum) < block

instance (st : State) (i block : ℕ) : Decidable (WaitsFor cfg st i block) := by
  unfold WaitsFor
  infer_instance

/-- Some reader waits for a slot. -/
def Waiting (st : State) : Prop := ∃ i < cfg.nbRx, ∃ block, WaitsFor cfg st i block

/-- A dump is in flight, or a dump thread finds a block to dump. -/
def GoesOn (st : State) : Prop :=
  st.inFlight ≠ [] ∨
    ∃ k < cfg.dataDiskManagerThreadNum, (st.buffer.checkBlock cfg.buffer k).isSome = true

instance (st : State) : Decidable (GoesOn cfg st) := by
  unfold GoesOn
  infer_instance

/-- Every reader, waiting or not, has published a block more than the delay past
some block of the buffer, and there is a dump thread. -/
def KeptUp (st : Progress) : Prop :=
  0 < cfg.dataDiskManagerThreadNum ∧ ∀ i < cfg.nbRx, ∃ slot < cfg.totalBlockNum,
    st.base.held cfg slot + cfg.delayThreshold < st.published i

variable {cfg} {st : Progress}

theorem exists_marks (htimely : Timely cfg)
    (hreach : (progress cfg).Reachable (fun st => Fits cfg st.base) st) :
    ∃ a, HandOut.Reachable (protocol cfg) a ∧ Abstracts cfg st.base a ∧ a.mark = st.published := by
  refine hreach.invariant (fun st => ∃ a, HandOut.Reachable (protocol cfg) a ∧
    Abstracts cfg st.base a ∧ a.mark = st.published) ⟨_, .refl, abstracts_init, rfl⟩ ?_
  rintro state next label ⟨a, hprotocol, habs, hmark⟩ hfits hstep
  obtain ⟨base, hbase, rfl⟩ := Option.map_eq_some_iff.mp hstep
  obtain ⟨b, hsteps, hpublished, hnext⟩ :=
    habs.step (hprotocol.invariant htimely.protocol) hfits hbase
  exact ⟨b, hprotocol.trans hsteps, hnext, by rw [hpublished, hmark]⟩

/-- The slot with the oldest block. -/
theorem exists_oldest (held : ℕ → ℕ) {slots : ℕ} (hpos : 0 < slots) :
    ∃ slot < slots, ∀ other < slots, held slot ≤ held other := by
  obtain ⟨slot, hslot, hmin⟩ :=
    Finset.exists_min_image (Finset.range slots) held ⟨0, Finset.mem_range.mpr hpos⟩
  exact ⟨slot, Finset.mem_range.mp hslot,
    fun other hother => hmin other (Finset.mem_range.mpr hother)⟩

/-- While nothing is in flight, the oldest block is the one its dump thread looks at. -/
theorem cursor_oldest {base : State} {a : HandOut.State} (habs : Abstracts cfg base a)
    (hinv : HandOut.Invariant (protocol cfg) a) (hnone : base.inFlight = [])
    (hdumpers : 0 < cfg.dataDiskManagerThreadNum) {slot : ℕ} (hslot : slot < cfg.totalBlockNum)
    (hmin : ∀ other < cfg.totalBlockNum, a.held slot ≤ a.held other) :
    a.cursor (a.held slot % cfg.dataDiskManagerThreadNum) = a.held slot := by
  have hk := Nat.mod_lt (a.held slot) hdumpers
  have hnot : ¬ a.Handed (protocol cfg) (a.held slot) := by
    intro hhanded
    have hcount := habs.inFlight_of_handed hslot hhanded
    rw [hnone, List.count_nil] at hcount
    exact absurd hcount Nat.zero_ne_one
  have hle : a.cursor (a.held slot % cfg.dataDiskManagerThreadNum) ≤ a.held slot := by
    by_contra hgt
    exact hnot ⟨hdumpers, not_le.mp hgt⟩
  have hheld := hinv.held_cursor hk
  have hother := hmin _ (Nat.mod_lt (a.cursor (a.held slot % cfg.dataDiskManagerThreadNum))
    cfg.totalBlockNum_pos)
  exact le_antisymm hle (hother.trans hheld.le)

/-- With no dump in flight, some dump thread has a block to dump exactly if every
reader has kept up. -/
theorem exists_checkBlock_iff (htimely : Timely cfg)
    (hreach : (progress cfg).Reachable (fun st => Fits cfg st.base) st)
    (hnone : st.base.inFlight = []) :
    (∃ k < cfg.dataDiskManagerThreadNum,
        (st.base.buffer.checkBlock cfg.buffer k).isSome = true) ↔ KeptUp cfg st := by
  obtain ⟨a, hprotocol, habs, hmark⟩ := exists_marks htimely hreach
  have hinv := hprotocol.invariant htimely.protocol
  unfold KeptUp
  simp only [← hmark, ← habs.held]
  constructor
  · rintro ⟨k, hk, hsome⟩
    obtain ⟨slot, hcheck⟩ := Option.isSome_iff_exists.mp hsome
    obtain ⟨hslot, hpast⟩ := habs.checked hinv hk hcheck
    have hlt : slot < cfg.totalBlockNum := hslot ▸ Nat.mod_lt _ cfg.totalBlockNum_pos
    exact ⟨Nat.zero_lt_of_lt hk, fun i hi => ⟨slot, hlt, hpast i hi⟩⟩
  · rintro ⟨hdumpers, hpast⟩
    obtain ⟨slot, hslot, hmin⟩ := exists_oldest a.held cfg.totalBlockNum_pos
    have hcursor := cursor_oldest habs hinv hnone hdumpers hslot hmin
    have hk := Nat.mod_lt (a.held slot) hdumpers
    have hheld : a.held slot % cfg.totalBlockNum = slot := hinv.held_mod hslot
    refine ⟨_, hk, Option.isSome_iff_exists.mpr ⟨slot, ?_⟩⟩
    rw [DataBlockBuffer.checkBlock_eq_some]
    refine ⟨?_, fun i hi => ?_⟩
    · rw [habs.cursors, map_range_getD hk, hcursor, hheld]
    · obtain ⟨other, hother, hlt⟩ := hpast i hi
      have hle := hmin other hother
      have hfar : a.mark i ≤ a.held slot + 2 * cfg.totalBlockNum := hinv.mark_le_oldest hi hslot
      have hdisk := cfg.diskBlockNum_gt
      exact checkRSS_of_lt habs hslot hi (by omega) (by omega)

/-- **No standstill**: while a reader waits for a slot that holds an older block, the
data path goes on exactly if a dump is in flight or every reader has kept up. -/
theorem goesOn_iff (htimely : Timely cfg)
    (hreach : (progress cfg).Reachable (fun st => Fits cfg st.base) st) :
    (Waiting cfg st.base → GoesOn cfg st.base) ↔
      (Waiting cfg st.base → st.base.inFlight = [] → KeptUp cfg st) := by
  refine imp_congr_right fun _ => ?_
  unfold GoesOn
  by_cases hnone : st.base.inFlight = []
  · rw [exists_checkBlock_iff htimely hreach hnone]
    simp [hnone]
  · simp [hnone]

/-- Readers that all wait for the block they published last keep each other from
nothing, if the delay is shorter than the buffer. -/
theorem goesOn_of_waiting (htimely : Timely cfg)
    (hreach : (progress cfg).Reachable (fun st => Fits cfg st.base) st)
    (hdelay : cfg.delayThreshold < cfg.totalBlockNum) (hdumpers : 0 < cfg.dataDiskManagerThreadNum)
    (hwait : ∀ i < cfg.nbRx, WaitsFor cfg st.base i (st.published i)) : GoesOn cfg st.base := by
  have hkept : KeptUp cfg st := by
    refine ⟨hdumpers, fun i hi => ?_⟩
    obtain ⟨-, -, -, -, hheld⟩ := hwait i hi
    obtain ⟨a, hprotocol, habs, -⟩ := exists_marks htimely hreach
    have hslot := Nat.mod_lt (st.published i) cfg.totalBlockNum_pos
    have hmod : a.held (st.published i % cfg.totalBlockNum) % cfg.totalBlockNum =
        st.published i % cfg.totalBlockNum :=
      (hprotocol.invariant htimely.protocol).held_mod hslot
    rw [habs.held] at hmod
    -- the slot holds an earlier block of the same residue, so it is a lap behind
    have hlap : st.base.held cfg (st.published i % cfg.totalBlockNum) + cfg.totalBlockNum ≤
        st.published i := by
      by_contra hgt
      exact hheld.ne (eq_of_mod_eq hmod (by omega) (by omega))
    exact ⟨_, hslot, by omega⟩
  by_cases hnone : st.base.inFlight = []
  · exact .inr ((exists_checkBlock_iff htimely hreach hnone).mpr hkept)
  · exact .inl hnone

/-- Two readers, a delay of one block. -/
def idleReader : DataPathConfig :=
  { dataDiskSize := 2048, dataBlockSize := 128, dataBlockCacheNum := 2, nbRx := 2
    delayThreshold := 1, dataDiskManagerThreadNum := 1, ethHeaderLen := 14, accepted := by decide }

/-- Reader 0 fills the cells 1, 2 and 3 and comes to block 2; reader 1 has a cell and
gets no packet. -/
def idleRun : List Label :=
  [.start 1, .start 0, .packet 0 (ipv4Packet 40) 0, .attempt 0, .attempt 0, .finish 0,
    .packet 0 (ipv4Packet 40) 0, .attempt 0, .attempt 0, .attempt 0, .finish 0,
    .packet 0 (ipv4Packet 40) 0, .attempt 0, .attempt 0, .attempt 0, .finish 0,
    .packet 0 (ipv4Packet 40) 0, .attempt 0]

theorem goesOn_iff_idle : ∃ st, Waiting idleReader st.base ∧
    ((Waiting idleReader st.base → GoesOn idleReader st.base) ↔
      (Waiting idleReader st.base → st.base.inFlight = [] → KeptUp idleReader st)) := by
  have hrun : ∃ st, (progress idleReader).Reachable (fun st => Fits idleReader st.base) st ∧
      WaitsFor idleReader st.base 0 2 :=
    (progress idleReader).exists_reachable idleRun _ (by decide +kernel) (by decide +kernel)
  obtain ⟨st, hreach, hwait⟩ := hrun
  exact ⟨st, ⟨0, by decide, 2, hwait⟩, goesOn_iff (by decide) hreach⟩

/-- With timely parameters and packets that all fit: one reader waits for the slot of
block 0, and nothing is dumped, as the other one has not received a packet. -/
theorem standstill : Timely idleReader ∧ idleReader.delayThreshold < idleReader.totalBlockNum ∧
    ∃ st, (system idleReader).Reachable (Fits idleReader) st ∧ Waiting idleReader st ∧
      ¬ GoesOn idleReader st := by
  have hrun : ∃ st, (system idleReader).Reachable (Fits idleReader) st ∧
      WaitsFor idleReader st 0 2 ∧ ¬ GoesOn idleReader st :=
    (system idleReader).exists_reachable idleRun _ (by decide +kernel) (by decide +kernel)
  obtain ⟨st, hreach, hwait, hstill⟩ := hrun
  exact ⟨by decide, by decide, st, hreach, ⟨0, by decide, 2, hwait⟩, hstill⟩

end DataPath

end TrafficDatabase
