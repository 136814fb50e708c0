import TrafficDatabase.DataPath.Drain
import TrafficDatabase.DataPath.Progress

/-!
# Shutting down the data path

`Controller::threadsStop` stops the readers first.  The dump threads are stopped
then, one after the other, and each goes on to the second loop of
`DiskManager::runData`: as long as `directGetBlockID` says that some reader has
come to the block its slot holds, it hands that block out.

The second loop asks for nothing but that.  A slot whose block has been handed out
and not yet recycled passes the test once more, and a reader that has not written
anything passes for one that has come to the block with its own number.  Where
neither happens (`InTime`) every block with bytes is handed out, once, and the loops
end (`drained`).
-/

namespace TrafficDatabase

namespace DataPath

/-- The loop of `runData` a dump thread is in. -/
inductive DumpLoop
  | running
  | draining
  | left
deriving DecidableEq

/-- The data path while it is shut down.  `published` has the readers' disk write ids
and `written` the blocks they stored bytes in, both not reduced; `rounds` counts the
rounds of the second loops. -/
structure Shutdown where
  base : State
  published : ℕ → ℕ
  written : ℕ → List ℕ
  stopped : Bool
  loop : ℕ → DumpLoop
  rounds : ℕ

inductive ShutdownLabel
  | run (label : Label)
  | stopReaders
  | stopDumper (dumper : ℕ)
  | drain (dumper : ℕ)

variable (cfg : DataPathConfig)

/-- The blocks the readers have stored bytes in, after a step. -/
def State.store (st : State) (written : ℕ → List ℕ) : Label → ℕ → List ℕ
  | .attempt i =>
      match (st.readers i).writes with
      | write :: _ =>
          if (st.buffer.writeBlock cfg.buffer (st.readers i).reader.threadId write.req).1 then
            Function.update written i (cfg.blockOfCell write.cell :: written i)
          else written
      | [] => written
  | .start _ | .packet _ _ _ | .finish _ | .dump _ | .recycle _ => written

namespace Shutdown

def init : Shutdown :=
  { base := State.init cfg
    published := id
    written := fun _ => []
    stopped := false
    loop := fun _ => .running
    rounds := 0 }

variable (st : Shutdown)

/-- The thread that takes the step is in its first loop. -/
def Runs : Label → Prop
  | .start _ | .packet _ _ _ | .attempt _ | .finish _ => st.stopped = false
  | .dump k => st.loop k = .running
  | .recycle _ => True

instance : ∀ label, Decidable (st.Runs label)
  | .start _ | .packet _ _ _ | .attempt _ | .finish _ => inferInstanceAs (Decidable (_ = _))
  | .dump _ => inferInstanceAs (Decidable (_ = _))
  | .recycle _ => .isTrue trivial

def stopReaders : Shutdown := { st with stopped := true }

def setLoop (k : ℕ) (loop : DumpLoop) : Shutdown :=
  { st with loop := Function.update st.loop k loop }

/-- One round of the second loop. -/
def drain (k : ℕ) : Shutdown :=
  match st.base.buffer.directGetBlockID cfg.buffer k with
  | none => { st.setLoop k .left with rounds := st.rounds + 1 }
  | some slot => { st with base := st.base.dump cfg k slot, rounds := st.rounds + 1 }

def step (st : Shutdown) : ShutdownLabel → Option Shutdown
  | .run label =>
      if st.Runs label then
        (DataPath.step cfg st.base label).map fun next =>
          { st with
            base := next
            published := st.base.publish cfg st.published label
            written := st.base.store cfg st.written label }
      else none
  | .stopReaders =>
      if st.stopped = false ∧
          ∀ i < cfg.nbRx, (st.base.readers i).started = true → (st.base.readers i).Idle then
        some st.stopReaders
      else none
  | .stopDumper k =>
      if st.stopped = true ∧ k < cfg.dataDiskManagerThreadNum ∧ st.loop k = .running then
        some (st.setLoop k .draining)
      else none
  | .drain k =>
      if k < cfg.dataDiskManagerThreadNum ∧ st.loop k = .draining then some (st.drain cfg k)
      else none

section Steps

variable {cfg} {st next : Shutdown} {label : Label} {k : ℕ}

theorem step_run_iff : step cfg st (.run label) = some next ↔
    st.Runs label ∧ ∃ base, DataPath.step cfg st.base label = some base ∧
      { st with
        base := base
        published := st.base.publish cfg st.published label
        written := st.base.store cfg st.written label } = next := by
  simp [step, Option.map_eq_some_iff]

theorem step_stopReaders_iff : step cfg st .stopReaders = some next ↔
    (st.stopped = false ∧
      ∀ i < cfg.nbRx, (st.base.readers i).started = true → (st.base.readers i).Idle) ∧
      st.stopReaders = next := by
  simp [step]

theorem step_stopDumper_iff : step cfg st (.stopDumper k) = some next ↔
    (st.stopped = true ∧ k < cfg.dataDiskManagerThreadNum ∧ st.loop k = .running) ∧
      st.setLoop k .draining = next := by
  simp [step]

theorem step_drain_iff : step cfg st (.drain k) = some next ↔
    (k < cfg.dataDiskManagerThreadNum ∧ st.loop k = .draining) ∧ st.drain cfg k = next := by
  simp [step]

end Steps

/-! ## The condition -/

/-- The slot the dump thread looks at. -/
def checked (k : ℕ) : ℕ := st.base.buffer.blockCheckIds.getD k 0

/-- What was handed out of the slot the dump thread looks at has been recycled, and
the block there is one of this thread's.  If the number of dump threads divides that
of the slots, it always is. -/
def Due (k : ℕ) : Prop :=
  st.checked k ∉ st.base.inFlight ∧
    st.base.held cfg (st.checked k) % cfg.dataDiskManagerThreadNum = k

instance (k : ℕ) : Decidable (st.Due cfg k) := inferInstanceAs (Decidable (_ ∧ _))

/-- Some reader has taken a cell in the block or behind it. -/
def Come (block : ℕ) : Prop :=
  ∃ j < cfg.nbRx, (st.base.readers j).started = true ∧
    block ≤ cfg.blockOfCell (st.base.readers j).cell

instance (block : ℕ) : Decidable (st.Come cfg block) := by
  unfold Come
  infer_instance

/-- Packets fit; when the readers stop, every disk write id is that of a block some
reader has come to; and in each round of a second loop the slot is due, or no reader
has come to its block. -/
def InTime : ShutdownLabel → Prop
  | .run label => Fits cfg st.base label
  | .stopReaders => ∀ i < cfg.nbRx, st.Come cfg (st.published i)
  | .stopDumper _ => True
  | .drain k =>
      st.Due cfg k ∨ ∀ i < cfg.nbRx, st.published i < st.base.held cfg (st.checked k)

instance : ∀ label, Decidable (st.InTime cfg label)
  | .run _ => inferInstanceAs (Decidable (Fits _ _ _))
  | .stopReaders => inferInstanceAs (Decidable (∀ _ < _, _))
  | .stopDumper _ => .isTrue trivial
  | .drain _ => inferInstanceAs (Decidable (_ ∨ ∀ _ < _, _))

end Shutdown

/-- The shutdown of the data path of a configuration. -/
def shutdown : TransitionSystem Shutdown ShutdownLabel :=
  { init := Shutdown.init cfg, step := Shutdown.step cfg }

variable {cfg}

/-! ## What has been handed out -/

private theorem nodup_map_of_classes {α β : Type*} [DecidableEq β] {f : α → ℕ} (key : α → β)
    (g : ℕ → β) : ∀ {l : List α}, (∀ x ∈ l, key x = g (f x)) →
      (∀ x ∈ l, ((l.filter fun y => key y = key x).map f).Nodup) → (l.map f).Nodup
  | [], _, _ => .nil
  | x :: l, hkey, hclasses => by
      rw [List.map_cons, List.nodup_cons]
      constructor
      · intro hmem
        obtain ⟨y, hy, hfy⟩ := List.mem_map.mp hmem
        have hsame : key y = key x := by
          rw [hkey y (List.mem_cons_of_mem _ hy), hkey x List.mem_cons_self, hfy]
        have hclass := hclasses x List.mem_cons_self
        rw [List.filter_cons_of_pos (by simp), List.map_cons, List.nodup_cons] at hclass
        exact hclass.1 (List.mem_map.mpr ⟨y, List.mem_filter.mpr ⟨hy, by simpa using hsame⟩, hfy⟩)
      · refine nodup_map_of_classes key g (fun y hy => hkey y (List.mem_cons_of_mem _ hy)) ?_
        intro y hy
        refine (hclasses y (List.mem_cons_of_mem _ hy)).sublist ?_
        exact ((List.sublist_cons_self x l).filter _).map f

section HandedOut

variable {st : State} {a : HandOut.State}

/-- No block is handed out twice. -/
theorem Abstracts.nodup_dumps (habs : Abstracts cfg st a) :
    (st.dumps.map DumpRecord.diskBlock).Nodup := by
  refine nodup_map_of_classes (fun record => record.block.blockId)
    (fun block => block % cfg.totalBlockNum) (fun record hmem => (habs.dumped hmem).2.2) ?_
  intro record hmem
  have hslot : record.block.blockId < cfg.totalBlockNum := by
    rw [(habs.dumped hmem).2.2]
    exact Nat.mod_lt _ cfg.totalBlockNum_pos
  change (st.handOuts record.block.blockId).Nodup
  rw [habs.handOuts hslot]
  refine List.nodup_range.map fun first second h => ?_
  exact Nat.eq_of_mul_eq_mul_left cfg.totalBlockNum_pos (Nat.add_left_cancel h)

/-- What the protocol has handed out, the dump threads were given. -/
theorem Abstracts.exists_record (habs : Abstracts cfg st a)
    (hturns : HandOut.Turns (protocol cfg) a) {block : ℕ}
    (h : a.Handed (protocol cfg) block) : ∃ record ∈ st.dumps, record.diskBlock = block := by
  have hslot := Nat.mod_lt block cfg.totalBlockNum_pos
  have hreached : block ≤ a.held (block % cfg.totalBlockNum) := hturns.reached_of_handed h
  have hheld : a.held (block % cfg.totalBlockNum) =
      block % cfg.totalBlockNum + cfg.totalBlockNum * st.laps (block % cfg.totalBlockNum) :=
    habs.held _
  have hblock := Nat.mod_add_div block cfg.totalBlockNum
  have hle : block / cfg.totalBlockNum ≤ st.laps (block % cfg.totalBlockNum) := by
    refine Nat.le_of_mul_le_mul_left ?_ cfg.totalBlockNum_pos
    omega
  have hlap : block / cfg.totalBlockNum < st.laps (block % cfg.totalBlockNum) +
      st.inFlight.count (block % cfg.totalBlockNum) := by
    rcases hle.lt_or_eq with hlt | heq
    · exact hlt.trans_le (Nat.le_add_right _ _)
    · -- the slot still holds the block, which is therefore in flight
      have hsame : a.held (block % cfg.totalBlockNum) = block := by rw [hheld, ← heq, hblock]
      rw [habs.inFlight_of_handed hslot (hsame.symm ▸ h), heq]
      exact Nat.lt_succ_self _
  have hmem : block ∈ st.handOuts (block % cfg.totalBlockNum) := by
    rw [habs.handOuts hslot]
    exact List.mem_map.mpr ⟨_, List.mem_range.mpr hlap, hblock⟩
  obtain ⟨record, hrecord, heq⟩ := List.mem_map.mp hmem
  exact ⟨record, (List.mem_filter.mp hrecord).1, heq⟩

/-- `directCheckRSS` compares residues on a window of two laps that ends before the
slot's block. -/
theorem directCheckRSS_iff (habs : Abstracts cfg st a) {i slot : ℕ}
    (hslot : slot < cfg.totalBlockNum) (hi : i < cfg.nbRx)
    (hmark : a.mark i ≤ a.held slot + 2 * cfg.totalBlockNum)
    (hheld : a.held slot ≤ a.mark i + 2 * cfg.totalBlockNum) :
    st.buffer.directCheckRSS cfg.buffer slot i = true ↔ a.held slot ≤ a.mark i := by
  have hdisk := cfg.diskBlockNum_gt
  have hpos := cfg.totalBlockNum_pos
  refine DataBlockBuffer.directCheckRSS_iff hpos ?_ (habs.diskIds hslot)
    (by rw [habs.marks, map_range_getD hi]) ?_ ?_
  · show cfg.totalBlockNum * 2 < cfg.diskBlockNum
    omega
  · show a.held slot ≤ a.mark i + cfg.totalBlockNum * 2
    omega
  · show a.mark i + cfg.totalBlockNum * 2 < a.held slot + cfg.diskBlockNum
    omega

end HandedOut

/-! ## Before the readers stop -/

/-- The block a finished write publishes is in the buffer. -/
theorem Abstracts.reached_published {st : State} {a : HandOut.State} (habs : Abstracts cfg st a)
    (hinv : HandOut.Invariant (protocol cfg) a) {i : ℕ} (hi : i < cfg.nbRx) {write : PendingWrite}
    {rest : List PendingWrite} (hwrites : (st.readers i).writes = write :: rest)
    (hwritten : (st.buffer.writeBlock cfg.buffer i write.req).1 = true) :
    publishedBlock cfg st.buffer write ≤
      st.held cfg (publishedBlock cfg st.buffer write % cfg.totalBlockNum) := by
  unfold publishedBlock
  split_ifs with h
  · have hstarted := habs.started_of_writes hwrites
    have hfront : a.front i = write.cell := by
      rw [habs.front hstarted, ReaderThread.front_of_cons hwrites]
    have hmem : write ∈ (st.readers i).writes := hwrites ▸ List.mem_cons_self
    obtain ⟨offset, hoffset, hpos, -⟩ := (habs.threads i).inCell hmem
    have hnext := (DataBlockBuffer.writeBlock_fst.mp hwritten).2 h.2
    have hslot := Nat.mod_lt (cfg.blockOfCell write.cell + 1) cfg.totalBlockNum_pos
    rw [DataBlockBuffer.HoldsNext, hpos, DataPathConfig.slotOf_posIn hoffset,
      DataPathConfig.diskIdOf_posIn hoffset, Nat.mod_add_mod, Nat.mod_add_mod,
      habs.diskIds hslot, ← hfront] at hnext
    rw [← hfront] at hslot
    have hheld := held_eq_next_of_mod_eq hinv hi hstarted hslot hnext
    rw [← habs.held, ← hfront]
    exact hheld.ge
  · exact (habs.held_of_written hinv hi hwrites hwritten).ge

namespace Shutdown

/-- The readers run: the block of a finished write is in the buffer, and what was stored
is neither past the reader's published block nor past its next write. -/
structure Storing (cfg : DataPathConfig) (st : Shutdown) : Prop where
  reached : ∀ {i}, i < cfg.nbRx → (st.base.readers i).writes = [] →
    st.published i ≤ st.base.held cfg (st.published i % cfg.totalBlockNum)
  stored : ∀ {i block}, block ∈ st.written i → i < cfg.nbRx ∧
    (st.base.readers i).started = true ∧ block ≤ st.published i ∧
      block ≤ cfg.blockOfCell (st.base.readers i).front

variable {st next : Shutdown} {a : HandOut.State}

/-- A step that writes nothing. -/
theorem Storing.of_readers (h : Storing cfg st) {base : State}
    (hheld : ∀ slot, st.base.held cfg slot ≤ base.held cfg slot)
    (hwrites : ∀ j, (base.readers j).writes = [] → (st.base.readers j).writes = [])
    (hfront : ∀ j, (st.base.readers j).started = true →
      (base.readers j).started = true ∧ (base.readers j).front = (st.base.readers j).front) :
    Storing cfg { st with base := base } where
  reached := fun hi hnil => (h.reached hi (hwrites _ hnil)).trans (hheld _)
  stored := by
    intro i block hmem
    obtain ⟨hi, hstarted, hle, hlast⟩ := h.stored hmem
    obtain ⟨hrun, hsame⟩ := hfront i hstarted
    refine ⟨hi, hrun, hle, ?_⟩
    change block ≤ cfg.blockOfCell (base.readers i).front
    rwa [hsame]

/-- A write attempt; what it stores is the block of its cell. -/
theorem Storing.attempt (h : Storing cfg st) (habs : Abstracts cfg st.base a)
    (hinv : HandOut.Invariant (protocol cfg) a) {i : ℕ} (hi : i < cfg.nbRx) {write : PendingWrite}
    {rest : List PendingWrite} (hwrites : (st.base.readers i).writes = write :: rest) :
    Storing cfg { st with
      base := st.base.attempt cfg i write.req rest
      published := st.base.publish cfg st.published (.attempt i)
      written := st.base.store cfg st.written (.attempt i) } := by
  have hid : (st.base.readers i).reader.threadId = i := (habs.threads i).threadId
  have hstarted := habs.started_of_writes hwrites
  have hrun : (st.base.readers i).started = true := (habs.started i).mp hstarted
  have hfront : (st.base.readers i).front = write.cell := ReaderThread.front_of_cons hwrites
  have hbehind : write.cell ≤ (st.base.readers i).cell := by
    rw [← hfront, ← habs.front hstarted, ← habs.cell hstarted]
    exact hinv.front_le_cell hstarted
  set block := publishedBlock cfg st.base.buffer write with hblock
  have hpublished : st.base.publish cfg st.published (.attempt i) =
      Function.update st.published i block := State.publish_attempt hwrites
  have hle : cfg.blockOfCell write.cell ≤ block := by
    rw [hblock, publishedBlock]
    split_ifs
    · exact Nat.le_succ _
    · exact le_rfl
  -- what was stored before is not past the write
  have hbefore : ∀ {block}, block ∈ st.written i → block ≤ cfg.blockOfCell write.cell :=
    fun hmem => hfront ▸ (h.stored hmem).2.2.2
  cases hwritten : (st.base.buffer.writeBlock cfg.buffer i write.req).1 with
  | false =>
      have hbase : (st.base.attempt cfg i write.req rest).readers = st.base.readers := by
        simp only [State.attempt, hid, hwritten]
        exact if_neg (by decide)
      have hstore : st.base.store cfg st.written (.attempt i) = st.written := by
        simp only [State.store, hwrites, hid, hwritten]
        exact if_neg (by decide)
      constructor
      · intro j hj hnil
        simp only [hbase] at hnil
        simp only [hpublished]
        have hne : j ≠ i := by
          rintro rfl
          rw [hwrites] at hnil
          exact List.cons_ne_nil _ _ hnil
        rw [Function.update_of_ne hne]
        exact h.reached hj hnil
      · intro j other hmem
        simp only [hstore] at hmem
        simp only [hbase, hpublished]
        obtain ⟨hj, hjstarted, hjle, hjfront⟩ := h.stored hmem
        refine ⟨hj, hjstarted, ?_, hjfront⟩
        by_cases hsame : j = i
        · subst hsame
          rw [Function.update_self]
          exact (hbefore hmem).trans hle
        · rwa [Function.update_of_ne hsame]
  | true =>
      have hbase : (st.base.attempt cfg i write.req rest).readers =
          Function.update st.base.readers i { st.base.readers i with writes := rest } := by
        simp only [State.attempt, hid, hwritten]
        exact if_pos trivial
      have hstore : st.base.store cfg st.written (.attempt i) =
          Function.update st.written i (cfg.blockOfCell write.cell :: st.written i) := by
        simp only [State.store, hwrites, hid, hwritten]
        exact if_pos trivial
      have hnext : cfg.blockOfCell write.cell ≤
          cfg.blockOfCell ({ st.base.readers i with writes := rest } : ReaderThread).front := by
        rcases (habs.threads i).front_pop hwrites with heq | heq
        · exact (congrArg cfg.blockOfCell heq).ge
        · exact (cfg.blockOfCell_mono hbehind).trans (congrArg cfg.blockOfCell heq).ge
      constructor
      · intro j hj hnil
        simp only [hbase] at hnil
        simp only [hpublished]
        by_cases hsame : j = i
        · subst hsame
          rw [Function.update_self]
          exact habs.reached_published hinv hi hwrites hwritten
        · rw [Function.update_of_ne hsame] at hnil ⊢
          exact h.reached hj hnil
      · intro j other hmem
        simp only [hstore] at hmem
        simp only [hbase, hpublished]
        by_cases hsame : j = i
        · subst hsame
          rw [Function.update_self] at hmem
          rw [Function.update_self, Function.update_self]
          have hother : other ≤ cfg.blockOfCell write.cell := by
            rcases List.mem_cons.mp hmem with rfl | hmem
            · exact le_rfl
            · exact hbefore hmem
          exact ⟨hi, hrun, hother.trans hle, hother.trans hnext⟩
        · rw [Function.update_of_ne hsame] at hmem
          rw [Function.update_of_ne hsame, Function.update_of_ne hsame]
          exact h.stored hmem

theorem Storing.run (h : Storing cfg st) (habs : Abstracts cfg st.base a)
    (hinv : HandOut.Invariant (protocol cfg) a) {label : Label} {base : State}
    (hfits : Fits cfg st.base label) (hstep : DataPath.step cfg st.base label = some base) :
    Storing cfg { st with
      base := base
      published := st.base.publish cfg st.published label
      written := st.base.store cfg st.written label } := by
  -- only `attempt` writes to a block; the other steps change one reader or one slot
  cases label with
  | start i =>
      obtain ⟨⟨-, hnew⟩, rfl⟩ := step_start_iff.mp hstep
      refine h.of_readers (fun _ => le_rfl) (fun j hnil => ?_) fun j hrun => ?_
      · by_cases hsame : j = i
        · subst hsame
          exact (habs.threads j).writes_of_not_started hnew
        · simpa [State.start, State.setReader, Function.update_of_ne hsame] using hnil
      · have hne : j ≠ i := by
          rintro rfl
          exact absurd (hnew.symm.trans hrun) (by decide)
        simp only [State.start, State.setReader, Function.update_of_ne hne]
        exact ⟨hrun, trivial⟩
  | packet i buf ts =>
      obtain ⟨⟨-, hidle⟩, rfl⟩ := step_packet_iff.mp hstep
      have hplaced := (habs.threads i).placed hidle.1 ((Nat.le_add_left _ _).trans hfits.1)
      refine h.of_readers (fun _ => le_rfl) (fun j hnil => ?_) fun j hrun => ?_
      · by_cases hsame : j = i
        · exact hsame ▸ hidle.2.1
        · simpa [State.packet, State.setReader, Function.update_of_ne hsame] using hnil
      · simp only [State.packet, State.setReader]
        by_cases hsame : j = i
        · subst hsame
          rw [Function.update_self, ReaderThread.front_mk_nil hidle.2.1]
          exact ⟨hidle.1, ReaderThread.accept_front hplaced⟩
        · rw [Function.update_of_ne hsame]
          exact ⟨hrun, rfl⟩
  | attempt i =>
      obtain ⟨write, rest, hwrites, hi, rfl⟩ := step_attempt_iff.mp hstep
      exact h.attempt habs hinv hi hwrites
  | finish i =>
      obtain ⟨pending, hnil, -, -, rfl⟩ := step_finish_iff.mp hstep
      have hreaders : (st.base.finish cfg i pending).readers =
          Function.update st.base.readers i { st.base.readers i with epilogue := none } := by
        rw [State.finish]
        cases pending.epilogue <;> rfl
      have hheld : ∀ slot,
          (st.base.finish cfg i pending).held cfg slot = st.base.held cfg slot := by
        intro slot
        rw [State.finish]
        cases pending.epilogue <;> rfl
      refine h.of_readers (fun slot => (hheld slot).ge) (fun j hnone => ?_) fun j hrun => ?_
      · rw [hreaders] at hnone
        by_cases hsame : j = i
        · exact hsame ▸ hnil
        · rwa [Function.update_of_ne hsame] at hnone
      · rw [hreaders]
        by_cases hsame : j = i
        · subst hsame
          rw [Function.update_self]
          exact ⟨hrun, rfl⟩
        · rw [Function.update_of_ne hsame]
          exact ⟨hrun, rfl⟩
  | dump k =>
      obtain ⟨slot, -, -, rfl⟩ := step_dump_iff.mp hstep
      exact h.of_readers (fun _ => le_rfl) (fun _ hnil => hnil) fun _ hrun => ⟨hrun, rfl⟩
  | recycle slot =>
      obtain ⟨-, rfl⟩ := step_recycle_iff.mp hstep
      refine h.of_readers (fun other => ?_) (fun _ hnil => hnil) fun _ hrun => ⟨hrun, rfl⟩
      simp only [State.held, State.recycle]
      by_cases hsame : other = slot
      · subst hsame
        rw [Function.update_self]
        exact Nat.add_le_add_left (Nat.mul_le_mul_left _ (Nat.le_succ _)) _
      · rw [Function.update_of_ne hsame]

/-- What holds until the readers stop. -/
structure Before (cfg : DataPathConfig) (st : Shutdown) (a : HandOut.State) : Prop where
  running : st.stopped = false
  reachable : HandOut.Reachable (protocol cfg) a
  abstracts : Abstracts cfg st.base a
  marks : a.mark = st.published
  storing : Storing cfg st
  loops : ∀ k, st.loop k = .running
  rounds : st.rounds = 0

theorem before_init : Before cfg (init cfg) HandOut.init where
  running := rfl
  reachable := .refl
  abstracts := abstracts_init
  marks := rfl
  storing :=
    { reached := fun {i} hi _ => by
        change i ≤ i % cfg.totalBlockNum + cfg.totalBlockNum * 0
        rw [Nat.mod_eq_of_lt (hi.trans_le cfg.nbRx_le), Nat.mul_zero, Nat.add_zero]
      stored := nofun }
  loops := fun _ => rfl
  rounds := rfl

/-! ## After the readers have stopped -/

variable (cfg) in
/-- The dump threads that have left their loops. -/
def leavers (st : Shutdown) : Finset ℕ :=
  (Finset.range cfg.dataDiskManagerThreadNum).filter fun k => st.loop k = .left

/-- What holds once the readers have stopped.  A dump thread that has left its loops
has come past every reader. -/
structure After (cfg : DataPathConfig) (st : Shutdown) (a : HandOut.State) : Prop where
  stopped : st.stopped = true
  abstracts : Abstracts cfg st.base a
  marks : a.mark = st.published
  draining : HandOut.Draining (protocol cfg) (fun k => st.loop k = .running) a
  come : ∀ {i}, i < cfg.nbRx → st.Come cfg (st.published i)
  stored : ∀ {i block}, block ∈ st.written i → i < cfg.nbRx ∧ block ≤ st.published i
  passed : ∀ {i k}, k < cfg.dataDiskManagerThreadNum → st.loop k = .left → i < cfg.nbRx →
    st.published i < a.cursor k
  dumped : ∀ {record}, record ∈ st.base.dumps → st.Come cfg record.diskBlock
  rounds : st.rounds ≤ st.base.dumps.length + (st.leavers cfg).card

theorem Come.mono {first second : ℕ} (hle : first ≤ second) (h : st.Come cfg second) :
    st.Come cfg first := by
  obtain ⟨j, hj, hstarted, hcell⟩ := h
  exact ⟨j, hj, hstarted, hle.trans hcell⟩

/-- Every block handed out is one that the readers have left behind. -/
theorem Before.dumped (h : Before cfg st a) (htimely : Timely cfg)
    (hreaders : cfg.nbRx ≤ cfg.delayThreshold + 1) {record : DumpRecord}
    (hmem : record ∈ st.base.dumps) : st.Come cfg record.diskBlock := by
  have hpos : 0 < cfg.nbRx := cfg.accepted.nbRx_pos
  have hinv := h.reachable.invariant htimely.protocol
  obtain ⟨hattempted, -, hcell⟩ := h.reachable.settled htimely.protocol hreaders
    (h.abstracts.dumped hmem).1 hpos
  have hstarted := hinv.started_of_attempted hattempted
  refine ⟨0, hpos, (h.abstracts.started 0).mp hstarted, ?_⟩
  rw [h.abstracts.cell hstarted] at hcell
  change record.diskBlock + cfg.delayThreshold < cfg.blockOfCell _ at hcell
  omega

theorem Before.run (h : Before cfg st a) (htimely : Timely cfg) {label : Label} {base : State}
    (hfits : Fits cfg st.base label) (hstep : DataPath.step cfg st.base label = some base) :
    ∃ b, Before cfg { st with
      base := base
      published := st.base.publish cfg st.published label
      written := st.base.store cfg st.written label } b := by
  have hinv := h.reachable.invariant htimely.protocol
  obtain ⟨b, hsteps, hmark, hnext⟩ := h.abstracts.step hinv hfits hstep
  refine ⟨b, ?_⟩
  exact {
    running := h.running
    reachable := h.reachable.trans hsteps
    abstracts := hnext
    marks := by rw [hmark, h.marks]
    storing := h.storing.run h.abstracts hinv hfits hstep
    loops := h.loops
    rounds := h.rounds }

theorem Before.stopReaders (h : Before cfg st a) (htimely : Timely cfg)
    (hreaders : cfg.nbRx ≤ cfg.delayThreshold + 1)
    (hidle : ∀ i < cfg.nbRx, (st.base.readers i).started = true → (st.base.readers i).Idle)
    (hcome : ∀ i < cfg.nbRx, st.Come cfg (st.published i)) : After cfg st.stopReaders a where
  stopped := rfl
  abstracts := h.abstracts
  marks := h.marks
  draining := by
    have hinv := h.reachable.invariant htimely.protocol
    have hreached : ∀ i < cfg.nbRx, a.attempted i → a.Reached (protocol cfg) (a.mark i) := by
      intro i hi hattempted
      have hstarted := (h.abstracts.started i).mp (hinv.started_of_attempted hattempted)
      have hwritten := h.storing.reached hi (hidle i hi hstarted).2.1
      rw [← h.marks, ← h.abstracts.held] at hwritten
      exact hwritten
    exact (HandOut.Draining.of_stopped htimely.protocol hreaders h.reachable hreached).leave
      fun _ => trivial
  come := fun {i} => hcome i
  stored := fun hmem => ⟨(h.storing.stored hmem).1, (h.storing.stored hmem).2.2.1⟩
  passed := by
    intro i k _ hleft
    exact absurd ((h.loops k).symm.trans hleft) (by decide)
  dumped := h.dumped htimely hreaders
  rounds := by
    change st.rounds ≤ _
    rw [h.rounds]
    exact Nat.zero_le _

/-- A dump thread is given the block it has come to. -/
theorem After.handOut (h : After cfg st a) {k slot rounds : ℕ}
    (hk : k < cfg.dataDiskManagerThreadNum) (hslot : slot = a.cursor k % cfg.totalBlockNum)
    (hheld : a.held slot = a.cursor k) (hnot : st.loop k ≠ .left)
    (hdraining : HandOut.Draining (protocol cfg) (fun k => st.loop k = .running)
      (a.dump (protocol cfg) k))
    (hreached : ∃ i < cfg.nbRx, a.cursor k ≤ st.published i) (hrounds : rounds ≤ st.rounds + 1) :
    After cfg { st with base := st.base.dump cfg k slot, rounds := rounds }
      (a.dump (protocol cfg) k) where
  stopped := h.stopped
  abstracts := h.abstracts.handOut h.draining.turns hk hslot hheld
  marks := h.marks
  draining := hdraining
  come := h.come
  stored := h.stored
  passed := by
    intro i other hother hleft hi
    have hne : other ≠ k := fun heq => hnot (heq ▸ hleft)
    simp only [HandOut.State.dump, Function.update_of_ne hne]
    exact h.passed hother hleft hi
  dumped := by
    intro record hmem
    rcases List.mem_append.mp hmem with hmem | hmem
    · exact h.dumped hmem
    · obtain rfl := List.mem_singleton.mp hmem
      obtain ⟨i, hi, hle⟩ := hreached
      refine (h.come hi).mono ?_
      change st.base.held cfg slot ≤ st.published i
      rwa [← h.abstracts.held, hheld]
  rounds := by
    have := h.rounds
    change rounds ≤ (st.base.dumps ++ [_]).length + (st.leavers cfg).card
    rw [List.length_append, List.length_singleton]
    omega

/-- A dump thread that has not been stopped yet takes its block as before. -/
theorem After.dump (h : After cfg st a) (htimely : Timely cfg) {k slot : ℕ}
    (hk : k < cfg.dataDiskManagerThreadNum) (hrunning : st.loop k = .running)
    (hcheck : st.base.buffer.checkBlock cfg.buffer k = some slot) :
    After cfg { st with base := st.base.dump cfg k slot } (a.dump (protocol cfg) k) := by
  obtain ⟨hslot, hcheck⟩ := DataBlockBuffer.checkBlock_eq_some.mp hcheck
  rw [h.abstracts.cursors, map_range_getD hk] at hslot
  have hlt : slot < cfg.totalBlockNum := hslot ▸ Nat.mod_lt _ cfg.totalBlockNum_pos
  have hheld : a.held slot = a.cursor k := by
    rw [hslot]
    exact h.draining.turns.held_cursor hk (h.draining.normal_cursor_lt hk hrunning
      (Nat.mod_lt _ cfg.totalBlockNum_pos))
  have hpast : ∀ i < cfg.nbRx, a.held slot + cfg.delayThreshold < a.mark i := by
    intro i hi
    refine lt_of_checkRSS h.abstracts hlt hi ?_ (hcheck i hi)
    rw [hheld]
    exact h.draining.normal_cursor_le hi hk hrunning
  have hmay : a.MayDump (protocol cfg) k := by
    intro i hi
    change a.held (a.cursor k % cfg.totalBlockNum) + cfg.delayThreshold < a.mark i
    rw [← hslot]
    exact hpast i hi
  have hpos : 0 < cfg.nbRx := cfg.accepted.nbRx_pos
  refine h.handOut hk hslot hheld (by rw [hrunning]; decide)
    (h.draining.dump htimely.protocol hk hrunning hmay) ⟨0, hpos, ?_⟩ (Nat.le_succ _)
  have := hpast 0 hpos
  rw [hheld, h.marks] at this
  omega

theorem After.recycle (h : After cfg st a) {slot : ℕ} (hmem : slot ∈ st.base.inFlight) :
    After cfg { st with base := st.base.recycle cfg slot } (a.recycle (protocol cfg) slot) where
  stopped := h.stopped
  abstracts := h.abstracts.recycle h.draining.turns hmem
  marks := h.marks
  draining := h.draining.recycle (h.abstracts.inFlight_lt hmem)
    (h.abstracts.handed_of_inFlight hmem)
  come := h.come
  stored := h.stored
  passed := h.passed
  dumped := h.dumped
  rounds := h.rounds

theorem After.checked (h : After cfg st a) {k : ℕ} (hk : k < cfg.dataDiskManagerThreadNum) :
    st.checked k = a.cursor k % cfg.totalBlockNum := by
  rw [Shutdown.checked, h.abstracts.cursors, map_range_getD hk]

/-- The second loop takes a slot exactly if some reader has come to its block. -/
theorem After.directGetBlockID_isSome (h : After cfg st a) {k : ℕ}
    (hk : k < cfg.dataDiskManagerThreadNum) :
    (st.base.buffer.directGetBlockID cfg.buffer k).isSome ↔
      ∃ i < cfg.nbRx, st.base.held cfg (st.checked k) ≤ st.published i := by
  have hlt : st.checked k < cfg.totalBlockNum := by
    rw [h.checked hk]
    exact Nat.mod_lt _ cfg.totalBlockNum_pos
  have hiff : ∀ i < cfg.nbRx,
      st.base.buffer.directCheckRSS cfg.buffer (st.checked k) i = true ↔
        st.base.held cfg (st.checked k) ≤ st.published i := by
    intro i hi
    have hheld := h.draining.held_le hi hk
    rw [← h.marks, ← h.abstracts.held]
    refine directCheckRSS_iff h.abstracts hlt hi (h.draining.mark_le hi hlt) ?_
    rw [h.checked hk]
    exact hheld
  rw [Option.isSome_iff_exists]
  simp only [DataBlockBuffer.directGetBlockID_eq_some]
  constructor
  · rintro ⟨_, rfl, i, hi, hcheck⟩
    exact ⟨i, hi, (hiff i hi).mp hcheck⟩
  · rintro ⟨i, hi, hle⟩
    exact ⟨_, rfl, i, hi, (hiff i hi).mpr hle⟩

/-- A slot that is due holds the block its dump thread has come to. -/
theorem After.held_of_due (h : After cfg st a) {k : ℕ} (hk : k < cfg.dataDiskManagerThreadNum)
    (hdue : st.Due cfg k) : a.held (st.checked k) = a.cursor k := by
  obtain ⟨hfree, hmod⟩ := hdue
  rw [← h.abstracts.held] at hmod
  have hlt : st.checked k < cfg.totalBlockNum := by
    rw [h.checked hk]
    exact Nat.mod_lt _ cfg.totalBlockNum_pos
  have hle : a.held (st.checked k) ≤ a.cursor k := by
    rw [h.checked hk]
    exact h.draining.turns.held_le_cursor hk
  have hnot : ¬ a.Handed (protocol cfg) (a.held (st.checked k)) := by
    intro hhanded
    have hcount := h.abstracts.inFlight_of_handed hlt hhanded
    exact hfree (List.count_pos_iff.mp (hcount ▸ Nat.one_pos))
  refine le_antisymm hle (not_lt.mp fun hgt => hnot ⟨Nat.zero_lt_of_lt hk, ?_⟩)
  change _ < a.cursor (a.held (st.checked k) % cfg.dataDiskManagerThreadNum)
  rwa [hmod]

theorem mem_leavers {k : ℕ} :
    k ∈ st.leavers cfg ↔ k < cfg.dataDiskManagerThreadNum ∧ st.loop k = .left := by
  rw [leavers, Finset.mem_filter, Finset.mem_range]

theorem leavers_setLoop_draining {k : ℕ} (hrunning : st.loop k = .running) :
    (st.setLoop k .draining).leavers cfg = st.leavers cfg := by
  refine Finset.filter_congr fun other _ => ?_
  simp only [setLoop]
  by_cases hsame : other = k
  · rw [hsame, Function.update_self, hrunning]
    decide
  · rw [Function.update_of_ne hsame]

theorem card_leavers_setLoop_left {k : ℕ} (hk : k < cfg.dataDiskManagerThreadNum)
    (hdraining : st.loop k = .draining) :
    ((st.setLoop k .left).leavers cfg).card = (st.leavers cfg).card + 1 := by
  have hnot : k ∉ st.leavers cfg := by
    rw [mem_leavers, hdraining]
    exact fun h => absurd h.2 (by decide)
  rw [← Finset.card_insert_of_notMem hnot]
  congr 1
  ext other
  rw [mem_leavers, Finset.mem_insert, mem_leavers, setLoop]
  by_cases hsame : other = k
  · simp [hsame, hk]
  · simp [hsame]

/-- A dump thread that is not past its first loop any more. -/
theorem After.normal_setLoop (h : After cfg st a) {k : ℕ} {loop : DumpLoop}
    (hloop : loop ≠ .running) : HandOut.Draining (protocol cfg)
      (fun other => (st.setLoop k loop).loop other = .running) a := by
  refine h.draining.leave fun {other} hrunning => ?_
  simp only [setLoop] at hrunning
  by_cases hsame : other = k
  · rw [hsame, Function.update_self] at hrunning
    exact absurd hrunning hloop
  · rwa [Function.update_of_ne hsame] at hrunning

theorem After.stopDumper (h : After cfg st a) {k : ℕ} (hrunning : st.loop k = .running) :
    After cfg (st.setLoop k .draining) a where
  stopped := h.stopped
  abstracts := h.abstracts
  marks := h.marks
  draining := h.normal_setLoop (by decide)
  come := h.come
  stored := h.stored
  passed := by
    intro i other hother hleft hi
    simp only [setLoop] at hleft
    by_cases hsame : other = k
    · rw [hsame, Function.update_self] at hleft
      exact absurd hleft (by decide)
    · rw [Function.update_of_ne hsame] at hleft
      exact h.passed hother hleft hi
  dumped := h.dumped
  rounds := by
    rw [leavers_setLoop_draining hrunning]
    exact h.rounds

/-- A round of the second loop that finds no reader at its block. -/
theorem After.leave (h : After cfg st a) {k : ℕ} (hk : k < cfg.dataDiskManagerThreadNum)
    (hdraining : st.loop k = .draining)
    (hnone : ∀ i < cfg.nbRx, st.published i < st.base.held cfg (st.checked k)) :
    After cfg { st.setLoop k .left with rounds := st.rounds + 1 } a where
  stopped := h.stopped
  abstracts := h.abstracts
  marks := h.marks
  draining := h.normal_setLoop (by decide)
  come := h.come
  stored := h.stored
  passed := by
    intro i other hother hleft hi
    simp only [setLoop] at hleft
    by_cases hsame : other = k
    · subst hsame
      have hheld := h.draining.turns.held_le_cursor hk
      refine (hnone i hi).trans_le ?_
      rw [h.checked hk, ← h.abstracts.held]
      exact hheld
    · rw [Function.update_of_ne hsame] at hleft
      exact h.passed hother hleft hi
  dumped := h.dumped
  rounds := by
    have hcard := card_leavers_setLoop_left hk hdraining
    have := h.rounds
    change st.rounds + 1 ≤ st.base.dumps.length + ((st.setLoop k .left).leavers cfg).card
    omega

theorem After.drain (h : After cfg st a) {k : ℕ} (hk : k < cfg.dataDiskManagerThreadNum)
    (hdraining : st.loop k = .draining) (hin : st.InTime cfg (.drain k)) :
    ∃ b, After cfg (st.drain cfg k) b := by
  have hsome := h.directGetBlockID_isSome hk
  rw [Shutdown.drain]
  cases hget : st.base.buffer.directGetBlockID cfg.buffer k with
  | none =>
      rw [hget] at hsome
      refine ⟨a, h.leave hk hdraining fun i hi => ?_⟩
      by_contra hle
      exact absurd (hsome.mpr ⟨i, hi, not_lt.mp hle⟩) (by decide)
  | some slot =>
      rw [hget] at hsome
      obtain ⟨reader, hreader, hle⟩ := hsome.mp rfl
      have hheld := h.held_of_due hk (hin.resolve_right fun hall =>
        absurd (hall reader hreader) (not_lt.mpr hle))
      have hslot : slot = st.checked k := (DataBlockBuffer.directGetBlockID_eq_some.mp hget).1
      rw [← h.abstracts.held, hheld] at hle
      have hnot : st.loop k ≠ .running := by
        rw [hdraining]
        decide
      refine ⟨_, h.handOut hk (hslot.trans (h.checked hk)) (hslot ▸ hheld) ?_ ?_
        ⟨reader, hreader, hle⟩ le_rfl⟩
      · rw [hdraining]
        decide
      · refine h.draining.drain hk hnot ?_ ⟨reader, hreader, ?_⟩
        · rw [← hheld, hheld]
          exact (congrArg a.held (h.checked hk)).symm.trans hheld
        · rw [h.marks]
          exact hle

/-- The steps of the other threads. -/
theorem After.run (h : After cfg st a) (htimely : Timely cfg) {label : Label} {base : State}
    (hruns : st.Runs label) (hstep : DataPath.step cfg st.base label = some base) :
    ∃ b, After cfg { st with
      base := base
      published := st.base.publish cfg st.published label
      written := st.base.store cfg st.written label } b := by
  have hstopped : ¬ st.stopped = false := by
    rw [h.stopped]
    decide
  cases label with
  | start => exact absurd hruns hstopped
  | packet => exact absurd hruns hstopped
  | attempt => exact absurd hruns hstopped
  | finish => exact absurd hruns hstopped
  | dump k =>
      obtain ⟨slot, hk, hcheck, rfl⟩ := step_dump_iff.mp hstep
      exact ⟨_, h.dump htimely hk hruns hcheck⟩
  | recycle slot =>
      obtain ⟨hmem, rfl⟩ := step_recycle_iff.mp hstep
      exact ⟨_, h.recycle hmem⟩

/-- Every state of a shutdown that is in time shows a state of the protocol. -/
theorem exists_before_or_after (htimely : Timely cfg)
    (hreaders : cfg.nbRx ≤ cfg.delayThreshold + 1)
    (hreach : (shutdown cfg).Reachable (InTime cfg) st) :
    ∃ a, Before cfg st a ∨ After cfg st a := by
  refine hreach.invariant (fun st => ∃ a, Before cfg st a ∨ After cfg st a)
    ⟨_, .inl before_init⟩ ?_
  rintro state next label ⟨a, hbefore | hafter⟩ hin hstep
  · cases label with
    | run label =>
        obtain ⟨-, base, hbase, rfl⟩ := step_run_iff.mp hstep
        obtain ⟨b, hnext⟩ := hbefore.run htimely hin hbase
        exact ⟨b, .inl hnext⟩
    | stopReaders =>
        obtain ⟨⟨-, hidle⟩, rfl⟩ := step_stopReaders_iff.mp hstep
        exact ⟨a, .inr (hbefore.stopReaders htimely hreaders hidle hin)⟩
    | stopDumper k =>
        obtain ⟨⟨hstopped, -⟩, rfl⟩ := step_stopDumper_iff.mp hstep
        exact absurd (hstopped.symm.trans hbefore.running) (by decide)
    | drain k =>
        obtain ⟨⟨-, hdraining⟩, rfl⟩ := step_drain_iff.mp hstep
        exact absurd (hdraining.symm.trans (hbefore.loops k)) (by decide)
  · cases label with
    | run label =>
        obtain ⟨hruns, base, hbase, rfl⟩ := step_run_iff.mp hstep
        obtain ⟨b, hnext⟩ := hafter.run htimely hruns hbase
        exact ⟨b, .inr hnext⟩
    | stopReaders =>
        obtain ⟨⟨hrunning, -⟩, rfl⟩ := step_stopReaders_iff.mp hstep
        exact absurd (hafter.stopped.symm.trans hrunning) (by decide)
    | stopDumper k =>
        obtain ⟨⟨-, -, hrunning⟩, rfl⟩ := step_stopDumper_iff.mp hstep
        exact ⟨a, .inr (hafter.stopDumper hrunning)⟩
    | drain k =>
        obtain ⟨⟨hk, hdraining⟩, rfl⟩ := step_drain_iff.mp hstep
        obtain ⟨b, hnext⟩ := hafter.drain hk hdraining hin
        exact ⟨b, .inr hnext⟩

end Shutdown

variable {st : Shutdown}

/-- What is left is handed out once, and nothing else: with timely parameters, not more
readers than the delay and one, and a dump thread, in a shutdown that is in time. -/
theorem drained (htimely : Timely cfg) (hreaders : cfg.nbRx ≤ cfg.delayThreshold + 1)
    (hdumpers : 0 < cfg.dataDiskManagerThreadNum)
    (hreach : (shutdown cfg).Reachable (Shutdown.InTime cfg) st) :
    (st.base.dumps.map DumpRecord.diskBlock).Nodup ∧
      (∀ record ∈ st.base.dumps, st.Come cfg record.diskBlock ∧
        record.block.writePos = record.diskBlock % cfg.diskBlockNum) ∧
      ((∀ k < cfg.dataDiskManagerThreadNum, st.loop k = .left) →
        ∀ i, ∀ block ∈ st.written i, ∃ record ∈ st.base.dumps, record.diskBlock = block) ∧
      ∀ bound, (∀ i < cfg.nbRx, cfg.blockOfCell (st.base.readers i).cell ≤ bound) →
        st.rounds ≤ bound + 1 + cfg.dataDiskManagerThreadNum := by
  obtain ⟨a, h⟩ := Shutdown.exists_before_or_after htimely hreaders hreach
  have habs : Abstracts cfg st.base a := h.elim (·.abstracts) (·.abstracts)
  have hcome : ∀ {record}, record ∈ st.base.dumps → st.Come cfg record.diskBlock :=
    h.elim (fun hbefore => hbefore.dumped htimely hreaders) (·.dumped)
  have hnodup := habs.nodup_dumps
  refine ⟨hnodup, fun record hmem => ⟨hcome hmem, (habs.dumped hmem).2.1⟩, fun hleft => ?_,
    fun bound hbound => ?_⟩
  · have hafter : Shutdown.After cfg st a := by
      refine h.resolve_left fun hbefore => ?_
      exact absurd ((hbefore.loops 0).symm.trans (hleft 0 hdumpers)) (by decide)
    intro i block hmem
    obtain ⟨hi, hle⟩ := hafter.stored hmem
    have hk := Nat.mod_lt block hdumpers
    have hpassed := hafter.passed hk (hleft _ hk) hi
    exact habs.exists_record hafter.draining.turns ⟨hdumpers, hle.trans_lt hpassed⟩
  · have hlength : st.base.dumps.length ≤ bound + 1 := by
      have hsub : (st.base.dumps.map DumpRecord.diskBlock) ⊆ List.range (bound + 1) := by
        intro block hmem
        obtain ⟨record, hrecord, rfl⟩ := List.mem_map.mp hmem
        obtain ⟨j, hj, -, hle⟩ := hcome hrecord
        exact List.mem_range.mpr (Nat.lt_succ_of_le (hle.trans (hbound j hj)))
      have hcount := (hnodup.subperm hsub).length_le
      rwa [List.length_map, List.length_range] at hcount
    have hcard : (st.leavers cfg).card ≤ cfg.dataDiskManagerThreadNum := by
      refine (Finset.card_filter_le _ _).trans ?_
      rw [Finset.card_range]
    have hrounds : st.rounds ≤ st.base.dumps.length + (st.leavers cfg).card := by
      rcases h with hbefore | hafter
      · rw [hbefore.rounds]
        exact Nat.zero_le _
      · exact hafter.rounds
    omega

/-! ## Two rounds that go wrong -/

/-- The reader fills block 0 and is in block 1 when it stops. -/
def fillRun : List ShutdownLabel :=
  [.run (.start 0), .run (.packet 0 (ipv4Packet 40) 0), .run (.attempt 0), .run (.attempt 0),
    .run (.finish 0), .run (.packet 0 (ipv4Packet 40) 0), .run (.attempt 0), .run (.attempt 0),
    .run (.attempt 0), .run (.finish 0), .stopReaders, .stopDumper 0]

/-- Each block is recycled before its slot is looked at again. -/
def patientRun : List ShutdownLabel :=
  fillRun ++ [.drain 0, .run (.recycle 0), .drain 0, .drain 0]

theorem drained_patient : ∃ st : Shutdown, st.loop 0 = .left ∧ st.written 0 ≠ [] ∧
    (st.base.dumps.map DumpRecord.diskBlock).Nodup ∧
      (∀ record ∈ st.base.dumps, st.Come oneReader record.diskBlock ∧
        record.block.writePos = record.diskBlock % oneReader.diskBlockNum) ∧
      ((∀ k < oneReader.dataDiskManagerThreadNum, st.loop k = .left) →
        ∀ i, ∀ block ∈ st.written i, ∃ record ∈ st.base.dumps, record.diskBlock = block) ∧
      ∀ bound, (∀ i < oneReader.nbRx, oneReader.blockOfCell (st.base.readers i).cell ≤ bound) →
        st.rounds ≤ bound + 1 + oneReader.dataDiskManagerThreadNum := by
  have hrun : ∃ st, (shutdown oneReader).Reachable (Shutdown.InTime oneReader) st ∧
      st.loop 0 = .left ∧ st.written 0 ≠ [] :=
    (shutdown oneReader).exists_reachable patientRun _ (by decide +kernel) (by decide +kernel)
  obtain ⟨st, hreach, hleft, hwritten⟩ := hrun
  exact ⟨st, hleft, hwritten, drained (by decide) (by decide) (by decide) hreach⟩

/-- Packets fit; the threads are scheduled in any way. -/
def Shutdown.PacketsFit (cfg : DataPathConfig) (st : Shutdown) : ShutdownLabel → Prop
  | .run label => Fits cfg st.base label
  | .stopReaders | .stopDumper _ | .drain _ => True

instance : ∀ st label, Decidable (Shutdown.PacketsFit cfg st label)
  | _, .run _ => inferInstanceAs (Decidable (Fits _ _ _))
  | _, .stopReaders | _, .stopDumper _ | _, .drain _ => .isTrue trivial

/-- Block 0 is on its way to the disk when the dump thread comes round, and goes there
twice.  And of two readers the second, which has not come to block 1, makes the dump
thread take that block, as 1 is the number it was registered with. -/
theorem drained_again_and_unreached :
    (Timely oneReader ∧ oneReader.nbRx ≤ oneReader.delayThreshold + 1 ∧
      ∃ st, (shutdown oneReader).Reachable (Shutdown.PacketsFit oneReader) st ∧
        st.base.dumps.map DumpRecord.diskBlock = [0, 1, 0]) ∧
    (Timely idleReader ∧ idleReader.nbRx ≤ idleReader.delayThreshold + 1 ∧
      ∃ st, (shutdown idleReader).Reachable (Shutdown.PacketsFit idleReader) st ∧
        ∃ record ∈ st.base.dumps, ¬ st.Come idleReader record.diskBlock) := by
  refine ⟨⟨by decide, by decide, ?_⟩, by decide, by decide, ?_⟩
  · exact (shutdown oneReader).exists_reachable (fillRun ++ [.drain 0, .drain 0, .drain 0]) _
      (by decide +kernel) (by decide +kernel)
  · exact (shutdown idleReader).exists_reachable
      [.run (.start 0), .run (.start 1), .run (.packet 0 (ipv4Packet 40) 0), .run (.attempt 0),
        .run (.attempt 0), .run (.finish 0), .stopReaders, .stopDumper 0, .drain 0, .drain 0] _
      (by decide +kernel) (by decide +kernel)

end DataPath

end TrafficDatabase
