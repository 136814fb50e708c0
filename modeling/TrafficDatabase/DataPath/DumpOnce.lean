import TrafficDatabase.DataPath.LateWrites
import TrafficDatabase.IndexPath.System

/-!
# Every slot is dumped once a lap

Nothing marks a slot whose block is on its way to the disk; only the window keeps
a dump thread from taking it again before it has been recycled.  For the data
blocks the delay does it: with timely parameters the hand-outs of a slot are one
block a lap, in order (`dumped_once_per_lap`, first part).  More dump threads
than the delay take a slot twice (`handed_twice_before_recycle`), and so do the
dump threads of the index blocks, which have no delay, in every configuration
(second part).
-/

namespace TrafficDatabase

/-- Between two recycles a slot is handed out at most once: the write positions
handed out for it are those of its disk blocks lap by lap, at most one more than
there were recycles. -/
def OncePerLap (totalBlockNum diskBlockNum : ℕ) (handOuts : ℕ → List ℕ) (recycled : ℕ → ℕ) : Prop :=
  ∀ slot < totalBlockNum,
    recycled slot ≤ (handOuts slot).length ∧ (handOuts slot).length ≤ recycled slot + 1 ∧
    handOuts slot = (List.range (handOuts slot).length).map fun lap =>
      (slot + totalBlockNum * lap) % diskBlockNum

instance (totalBlockNum diskBlockNum : ℕ) (handOuts : ℕ → List ℕ) (recycled : ℕ → ℕ) :
    Decidable (OncePerLap totalBlockNum diskBlockNum handOuts recycled) := by
  unfold OncePerLap
  infer_instance

namespace DataPath

/-- The write positions handed out for a slot, in order. -/
def State.writePositions (st : State) (slot : ℕ) : List ℕ :=
  (st.dumps.filter fun record => record.block.blockId = slot).map fun record =>
    record.block.writePos

variable {cfg : DataPathConfig} {st : State} {a : HandOut.State}

theorem Abstracts.writePositions (habs : Abstracts cfg st a) (slot : ℕ) :
    st.writePositions slot = (st.handOuts slot).map (· % cfg.diskBlockNum) := by
  rw [State.writePositions, State.handOuts, List.map_map]
  apply List.map_congr_left
  intro record hrecord
  exact (habs.dumped (List.mem_of_mem_filter hrecord)).2.1

/-- A slot is in flight at most once. -/
theorem Abstracts.inFlight_le (habs : Abstracts cfg st a) {slot : ℕ}
    (hslot : slot < cfg.totalBlockNum) : st.inFlight.count slot ≤ 1 := by
  by_cases h : a.Handed (protocol cfg) (a.held slot)
  · rw [habs.inFlight_of_handed hslot h]
  · rw [habs.not_inFlight hslot h]
    exact Nat.zero_le 1

theorem Abstracts.oncePerLap (habs : Abstracts cfg st a) :
    OncePerLap cfg.totalBlockNum cfg.diskBlockNum st.writePositions st.laps := by
  intro slot hslot
  have hcount := habs.inFlight_le hslot
  have hpositions : st.writePositions slot =
      (List.range (st.laps slot + st.inFlight.count slot)).map fun lap =>
        (slot + cfg.totalBlockNum * lap) % cfg.diskBlockNum := by
    rw [habs.writePositions, habs.handOuts hslot, List.map_map]
    rfl
  have hlength : (st.writePositions slot).length = st.laps slot + st.inFlight.count slot := by
    rw [hpositions, List.length_map, List.length_range]
  rw [hlength]
  exact ⟨Nat.le_add_right _ _, Nat.add_le_add_left hcount _, hpositions⟩

/-- Data blocks are dumped once a lap as long as the parameters are timely; index
blocks never are in all runs. -/
theorem dumped_once_per_lap (indexCfg : IndexPathConfig) (htimely : Timely cfg)
    (hreach : (system cfg).Reachable (Fits cfg) st) :
    OncePerLap cfg.totalBlockNum cfg.diskBlockNum st.writePositions st.laps ∧
      ∃ indexSt : IndexPath.State, IndexPath.Reachable indexCfg indexSt ∧
        ¬ OncePerLap indexCfg.totalBlockNum indexCfg.diskBlockNum indexSt.handOuts
          indexSt.recycled := by
  constructor
  · obtain ⟨a, -, habs⟩ := exists_abstracts htimely hreach
    exact habs.oncePerLap
  · obtain ⟨indexSt, hindex, htwice, hnone⟩ := IndexPath.exists_handed_twice indexCfg
    refine ⟨indexSt, hindex, fun honce => ?_⟩
    have := (honce 0 indexCfg.totalBlockNum_pos).2.1
    omega

/-- Two slots, one persister and one dump thread. -/
def oneDumper : IndexPathConfig :=
  { totalBlockNum := 2, blockSize := 64, diskBlockNum := 16, threadNum := 1, dumpThreadNum := 1
    persistDiskSize := 1024, accepted := by decide, threadNum_le := by decide
    dumpThreadNum_pos := by decide, dumpThreadNum_le := by decide }

theorem dumped_once_per_lap_waiting : ∃ st : State, st.writePositions 0 = [0] ∧
    OncePerLap oneReader.totalBlockNum oneReader.diskBlockNum st.writePositions st.laps ∧
    ∃ indexSt : IndexPath.State, IndexPath.Reachable oneDumper indexSt ∧
      ¬ OncePerLap oneDumper.totalBlockNum oneDumper.diskBlockNum indexSt.handOuts
        indexSt.recycled := by
  obtain ⟨st, hreach, hpositions⟩ := (system oneReader).exists_reachable waitingRun
    (fun st => st.writePositions 0 = [0])
    (show (system oneReader).RunAllowed (Fits oneReader) _ _ by decide +kernel) (by decide +kernel)
  exact ⟨st, hpositions, dumped_once_per_lap oneDumper (by decide) hreach⟩

/-- Two dump threads and a delay of one block. -/
def twoDumpers : DataPathConfig :=
  { dataDiskSize := 1024, dataBlockSize := 64, dataBlockCacheNum := 2, nbRx := 1
    delayThreshold := 1, dataDiskManagerThreadNum := 2, ethHeaderLen := 14, accepted := by decide }

/-- The reader waits for slot 0, whose block is being dumped; dump thread 0 comes
round and takes it again. -/
theorem handed_twice_before_recycle :
    twoDumpers.totalBlockNum % twoDumpers.dataDiskManagerThreadNum = 0 ∧
    ∃ st, (system twoDumpers).Reachable (Fits twoDumpers) st ∧
      st.writePositions 0 = [0, 0] ∧ st.laps 0 = 0 ∧
      ¬ OncePerLap twoDumpers.totalBlockNum twoDumpers.diskBlockNum st.writePositions st.laps := by
  refine ⟨by decide, ?_⟩
  refine (system twoDumpers).exists_reachable (waitingRun ++ [.dump 0]) _ ?_ ?_
  · decide +kernel
  · decide +kernel

end DataPath

end TrafficDatabase
