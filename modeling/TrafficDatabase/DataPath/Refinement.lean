import TrafficDatabase.Data.DumpWindow
import TrafficDatabase.DataPath.Threads
import TrafficDatabase.DataPath.HandOut

/-!
# The data path refines the hand-out protocol

The buffer compares blocks by their numbers modulo the disk.  `Abstracts` relates
a state of the data path to a state of the hand-out protocol, which has the
numbers themselves.  Both comparisons the code makes are exact in related
states:

* `holds_iff`: `writeBlock` lets a write through exactly if the slot holds the
  write's own block, not the one of another lap;
* `lt_of_checkRSS`: `checkRSS` passes a writer only if its mark has left the
  window.

Hence every step of the data path is matched by steps of the protocol
(`Abstracts.step`), and every reachable state is related to a reachable one
(`exists_abstracts`), provided the parameters are timely and the packets fit.
-/

namespace TrafficDatabase

namespace DataPath

variable (cfg : DataPathConfig)

/-- The protocol's parameters. -/
def protocol : HandOut.Params where
  slots := cfg.totalBlockNum
  cellsPerBlock := cfg.cellsPerBlock
  writers := cfg.nbRx
  dumpers := cfg.dataDiskManagerThreadNum
  delay := cfg.delayThreshold
  writers_pos := cfg.accepted.nbRx_pos
  writers_le_cells := cfg.nbRx_le_cellsPerBlock
  writers_le_slots := cfg.nbRx_le
  dumpers_le_slots := cfg.dumpThreads_le

/-- No more dump threads than the delay, and both together at most two laps of
the buffer and one block. -/
def Timely : Prop :=
  cfg.dataDiskManagerThreadNum ≤ cfg.delayThreshold ∧
    cfg.dataDiskManagerThreadNum + cfg.delayThreshold ≤ 2 * cfg.totalBlockNum + 1

instance : Decidable (Timely cfg) := inferInstanceAs (Decidable (_ ∧ _))

/-- The disk blocks handed out for a slot, in order and not reduced. -/
def State.handOuts (st : State) (slot : ℕ) : List ℕ :=
  (st.dumps.filter fun record => record.block.blockId = slot).map DumpRecord.diskBlock

/-- The state of the data path shows the state of the protocol, reduced. -/
structure Abstracts (st : State) (a : HandOut.State) : Prop where
  counter : a.counter = st.diskWriteCell
  held : ∀ slot, a.held slot = st.held cfg slot
  diskIds : ∀ {slot}, slot < cfg.totalBlockNum →
    st.buffer.blockDiskId slot = a.held slot % cfg.diskBlockNum
  marks : st.buffer.diskWriteIds =
    (List.range cfg.nbRx).map fun i => a.mark i % cfg.diskBlockNum
  cursors : st.buffer.blockCheckIds =
    (List.range cfg.dataDiskManagerThreadNum).map fun k => a.cursor k % cfg.totalBlockNum
  started : ∀ i, a.started i ↔ (st.readers i).started = true
  front : ∀ {i}, a.started i → a.front i = (st.readers i).front
  cell : ∀ {i}, a.started i → a.cell i = (st.readers i).cell
  threads : ∀ i, ThreadInvariant cfg i (st.readers i)
  inFlight_lt : ∀ {slot}, slot ∈ st.inFlight → slot < cfg.totalBlockNum
  inFlight_of_handed : ∀ {slot}, slot < cfg.totalBlockNum →
    a.Handed (protocol cfg) (a.held slot) → st.inFlight.count slot = 1
  not_inFlight : ∀ {slot}, slot < cfg.totalBlockNum →
    ¬ a.Handed (protocol cfg) (a.held slot) → st.inFlight.count slot = 0
  dumped : ∀ {record}, record ∈ st.dumps →
    a.Handed (protocol cfg) record.diskBlock ∧
      record.block.writePos = record.diskBlock % cfg.diskBlockNum ∧
      record.block.blockId = record.diskBlock % cfg.totalBlockNum
  handOuts : ∀ {slot}, slot < cfg.totalBlockNum → st.handOuts slot =
    (List.range (st.laps slot + st.inFlight.count slot)).map fun lap =>
      slot + cfg.totalBlockNum * lap

variable {cfg} {st next : State} {a : HandOut.State}

theorem Timely.protocol (h : Timely cfg) : (protocol cfg).Timely := ⟨h.1, h.2⟩

@[simp] theorem protocol_blockOf (cell : ℕ) :
    (protocol cfg).blockOf cell = cfg.blockOfCell cell := rfl

private theorem map_range_set {β : Type*} (f : ℕ → β) (count i : ℕ) (value : β) :
    ((List.range count).map f).set i value =
      (List.range count).map (Function.update f i value) := by
  apply List.ext_getElem
  · simp
  · intro k hk _
    simp only [List.getElem_set, List.getElem_map, List.getElem_range]
    by_cases h : i = k
    · rw [if_pos h, h, Function.update_self]
    · rw [if_neg h, Function.update_of_ne (Ne.symm h)]

theorem map_range_getD {f : ℕ → ℕ} {count i : ℕ} (h : i < count) :
    ((List.range count).map f).getD i 0 = f i := by
  simp [List.getD, h]

theorem handOuts_of_append (st : State) {record : DumpRecord}
    (h : next.dumps = st.dumps ++ [record])
    (slot : ℕ) : next.handOuts slot =
      st.handOuts slot ++ if record.block.blockId = slot then [record.diskBlock] else [] := by
  rw [State.handOuts, h, List.filter_append, List.map_append, State.handOuts]
  by_cases hslot : record.block.blockId = slot <;> simp [hslot]

/-! ## The initial state -/

/-- The constructor and the registration of the threads, as often as the
function registers one. -/
def register (add : DataBlockBuffer → Option DataBlockBuffer) :
    ℕ → DataBlockBuffer → Option DataBlockBuffer
  | 0, buf => some buf
  | count + 1, buf => (register add count buf).bind add

theorem register_addWriteThread {buf : DataBlockBuffer} (hnone : buf.diskWriteIds = []) {count : ℕ}
    (h : count ≤ cfg.totalBlockNum) :
    register (DataBlockBuffer.addWriteThread cfg.buffer) count buf =
      some { buf with diskWriteIds := List.range count } := by
  induction count with
  | zero => rw [register, List.range_zero, ← hnone]
  | succ count ih =>
      rw [register, ih (by omega), Option.bind_some, DataBlockBuffer.addWriteThread]
      simp only [List.length_range]
      rw [if_neg (by change ¬ count ≥ cfg.totalBlockNum; omega), List.range_succ]

theorem register_addCheckThread {buf : DataBlockBuffer} (hnone : buf.blockCheckIds = []) {count : ℕ}
    (h : count ≤ cfg.totalBlockNum) :
    register (DataBlockBuffer.addCheckThread cfg.buffer) count buf =
      some { buf with blockCheckIds := List.range count } := by
  induction count with
  | zero => rw [register, List.range_zero, ← hnone]
  | succ count ih =>
      rw [register, ih (by omega), Option.bind_some, DataBlockBuffer.addCheckThread]
      simp only [List.length_range]
      rw [if_neg (by change ¬ count ≥ cfg.totalBlockNum; omega), List.range_succ]

/-- The system starts with the buffer the constructor builds, once every reader
and every dump thread has been added. -/
theorem init_buffer :
    ((DataBlockBuffer.new cfg.buffer).bind
        (register (DataBlockBuffer.addWriteThread cfg.buffer) cfg.nbRx)).bind
      (register (DataBlockBuffer.addCheckThread cfg.buffer) cfg.dataDiskManagerThreadNum) =
        some (State.init cfg).buffer := by
  obtain ⟨buf, hbuf⟩ := Option.isSome_iff_exists.mp cfg.accepted.buffer
  have hnew := hbuf
  unfold DataBlockBuffer.new at hnew
  split_ifs at hnew
  obtain rfl := Option.some.inj hnew
  rw [hbuf, Option.bind_some, register_addWriteThread rfl cfg.nbRx_le, Option.bind_some,
    register_addCheckThread rfl cfg.dumpThreads_le]
  rfl

theorem abstracts_init : Abstracts cfg (State.init cfg) HandOut.init where
  counter := rfl
  held := fun _ => (Nat.add_zero _).symm
  diskIds := by
    intro slot hslot
    have := cfg.diskBlockNum_gt
    have hlt : slot < cfg.diskBlockNum := by omega
    exact (Nat.mod_eq_of_lt hlt).symm
  marks := by
    have hle := cfg.nbRx_le
    have := cfg.diskBlockNum_gt
    change List.range cfg.nbRx = _
    apply List.ext_getElem
    · simp
    · intro i hi _
      simp only [List.length_range] at hi
      simp only [List.getElem_range, List.getElem_map, HandOut.init, id]
      exact (Nat.mod_eq_of_lt (by omega)).symm
  cursors := by
    have hle := cfg.dumpThreads_le
    change List.range cfg.dataDiskManagerThreadNum = _
    apply List.ext_getElem
    · simp
    · intro k hk _
      simp only [List.length_range] at hk
      simp only [List.getElem_range, List.getElem_map, HandOut.init, id]
      exact (Nat.mod_eq_of_lt (hk.trans_le hle)).symm
  started := fun i => ⟨False.elim, nofun⟩
  front := False.elim
  cell := False.elim
  threads := ThreadInvariant.new
  inFlight_lt := nofun
  inFlight_of_handed := by
    intro slot _ h
    exact absurd h.2 (Nat.mod_le _ _).not_gt
  not_inFlight := fun _ _ => rfl
  dumped := nofun
  handOuts := fun _ => rfl

/-! ## The comparisons of the code are exact -/

/-- A slot is less than a disk away from a started reader's write and from the block
after it. -/
theorem held_near (hinv : HandOut.Invariant (protocol cfg) a) {i slot : ℕ} (hi : i < cfg.nbRx)
    (hstarted : a.started i) (hslot : slot < cfg.totalBlockNum) :
    a.held slot < cfg.blockOfCell (a.front i) + cfg.diskBlockNum ∧
      cfg.blockOfCell (a.front i) + 1 < a.held slot + cfg.diskBlockNum := by
  have hdisk := cfg.diskBlockNum_gt
  have hpos := cfg.totalBlockNum_pos
  have hfront : cfg.blockOfCell (a.front i) ≤ a.held slot + 3 * cfg.totalBlockNum :=
    hinv.front_le hstarted hslot
  refine ⟨?_, by omega⟩
  by_cases hattempted : a.attempted i
  · have hheld : a.held slot < cfg.blockOfCell (a.front i) + 3 * cfg.totalBlockNum :=
      hinv.held_lt_front hattempted hslot
    omega
  · have hheld : a.held slot < 3 * cfg.totalBlockNum :=
      hinv.held_lt_of_unattempted hi hattempted hslot
    omega

theorem held_eq_of_mod_eq (hinv : HandOut.Invariant (protocol cfg) a) {i slot : ℕ}
    (hi : i < cfg.nbRx) (hstarted : a.started i) (hslot : slot < cfg.totalBlockNum)
    (h : a.held slot % cfg.diskBlockNum = cfg.blockOfCell (a.front i) % cfg.diskBlockNum) :
    a.held slot = cfg.blockOfCell (a.front i) := by
  obtain ⟨hlt, hgt⟩ := held_near hinv hi hstarted hslot
  exact eq_of_mod_eq h hlt (Nat.lt_of_succ_lt hgt)

theorem held_eq_next_of_mod_eq (hinv : HandOut.Invariant (protocol cfg) a) {i slot : ℕ}
    (hi : i < cfg.nbRx) (hstarted : a.started i) (hslot : slot < cfg.totalBlockNum)
    (h : a.held slot % cfg.diskBlockNum = (cfg.blockOfCell (a.front i) + 1) % cfg.diskBlockNum) :
    a.held slot = cfg.blockOfCell (a.front i) + 1 := by
  obtain ⟨hlt, hgt⟩ := held_near hinv hi hstarted hslot
  exact eq_of_mod_eq h (by omega) hgt

/-- `writeBlock` recognises the block of its own lap. -/
theorem holds_iff (habs : Abstracts cfg st a) (hinv : HandOut.Invariant (protocol cfg) a)
    {i offset : ℕ} (hi : i < cfg.nbRx) (hstarted : a.started i)
    (hoffset : offset < cfg.cellSize) :
    st.buffer.Holds cfg.buffer (cfg.reader.posIn (a.front i) offset) ↔
      a.held (cfg.blockOfCell (a.front i) % cfg.totalBlockNum) = cfg.blockOfCell (a.front i) := by
  have hslot := Nat.mod_lt (cfg.blockOfCell (a.front i)) cfg.totalBlockNum_pos
  rw [DataBlockBuffer.Holds, DataPathConfig.slotOf_posIn hoffset,
    DataPathConfig.diskIdOf_posIn hoffset, habs.diskIds hslot]
  constructor
  · exact held_eq_of_mod_eq hinv hi hstarted hslot
  · intro h
    rw [h]

/-- `checkRSS` lets a writer pass only if it is past the delay. -/
theorem lt_of_checkRSS (habs : Abstracts cfg st a) {i slot : ℕ} (hslot : slot < cfg.totalBlockNum)
    (hi : i < cfg.nbRx)
    (hwindow : a.held slot + cfg.delayThreshold ≤ a.mark i + 2 * cfg.totalBlockNum)
    (h : st.buffer.checkRSS cfg.buffer slot i = true) :
    a.held slot + cfg.delayThreshold < a.mark i := by
  have hdisk := cfg.diskBlockNum_gt
  have hpos := cfg.totalBlockNum_pos
  refine DataBlockBuffer.lt_of_checkRSS hpos ?_ (habs.diskIds hslot)
    (by rw [habs.marks, map_range_getD hi]) ?_ h
  · show cfg.totalBlockNum * 2 < cfg.diskBlockNum
    omega
  · show a.held slot + cfg.delayThreshold ≤ a.mark i + cfg.totalBlockNum * 2
    omega

/-- It does let a writer pass that is past the delay and less than a disk less two
laps past it. -/
theorem checkRSS_of_lt (habs : Abstracts cfg st a) {i slot : ℕ} (hslot : slot < cfg.totalBlockNum)
    (hi : i < cfg.nbRx) (hlt : a.held slot + cfg.delayThreshold < a.mark i)
    (hle : a.mark i + 2 * cfg.totalBlockNum < a.held slot + cfg.delayThreshold + cfg.diskBlockNum) :
    st.buffer.checkRSS cfg.buffer slot i = true := by
  have hdisk := cfg.diskBlockNum_gt
  have hpos := cfg.totalBlockNum_pos
  refine (DataBlockBuffer.checkRSS_iff hpos ?_ (habs.diskIds hslot)
    (by rw [habs.marks, map_range_getD hi]) ?_ ?_).mpr hlt
  · show cfg.totalBlockNum * 2 < cfg.diskBlockNum
    omega
  · show a.held slot + cfg.delayThreshold ≤ a.mark i + cfg.totalBlockNum * 2
    omega
  · show a.mark i + cfg.totalBlockNum * 2 < a.held slot + cfg.delayThreshold + cfg.diskBlockNum
    omega

/-! ## Every step is matched -/

/-- The readers' part of the relation, when only reader `i` changes. -/
theorem Abstracts.updateReader (habs : Abstracts cfg st a) {i : ℕ} {thread : ReaderThread}
    {b : HandOut.State} (hthread : ThreadInvariant cfg i thread)
    (hstarted : b.started i ↔ thread.started = true)
    (hfront : b.started i → b.front i = thread.front)
    (hcell : b.started i → b.cell i = thread.cell)
    (hothers : ∀ {j}, j ≠ i → (b.started j ↔ a.started j) ∧ b.front j = a.front j ∧
      b.cell j = a.cell j) (j : ℕ) :
    (b.started j ↔ (Function.update st.readers i thread j).started = true) ∧
      (b.started j → b.front j = (Function.update st.readers i thread j).front) ∧
      (b.started j → b.cell j = (Function.update st.readers i thread j).cell) ∧
      ThreadInvariant cfg j (Function.update st.readers i thread j) := by
  by_cases h : j = i
  · subst h
    rw [Function.update_self]
    exact ⟨hstarted, hfront, hcell, hthread⟩
  · obtain ⟨hsame, hf, hc⟩ := hothers h
    rw [Function.update_of_ne h, hf, hc, hsame]
    exact ⟨habs.started j, habs.front, habs.cell, habs.threads j⟩

theorem Abstracts.start (habs : Abstracts cfg st a) {i : ℕ}
    (hnew : (st.readers i).started = false) : Abstracts cfg (st.start i) (a.start i) := by
  have hthread : ThreadInvariant cfg i ((st.readers i).start st.diskWriteCell) :=
    (habs.threads i).start hnew
  have hnil : ((st.readers i).start st.diskWriteCell).writes = [] :=
    (habs.threads i).writes_of_not_started hnew
  have hreaders := habs.updateReader (b := a.start i) hthread
    (by simp [HandOut.State.start, ReaderThread.start])
    (by
      intro _
      rw [ReaderThread.front_mk_nil hnil]
      simp [HandOut.State.start, ReaderThread.start, habs.counter])
    (by
      intro _
      simp [HandOut.State.start, ReaderThread.start, habs.counter])
    (by
      intro j hj
      simp [HandOut.State.start, Function.update_of_ne hj])
  exact {
    counter := by
      change a.counter + 1 = st.diskWriteCell + 1
      rw [habs.counter]
    held := habs.held
    diskIds := habs.diskIds
    marks := habs.marks
    cursors := habs.cursors
    started := fun j => (hreaders j).1
    front := fun {j} => (hreaders j).2.1
    cell := fun {j} => (hreaders j).2.2.1
    threads := fun j => (hreaders j).2.2.2
    inFlight_lt := habs.inFlight_lt
    inFlight_of_handed := habs.inFlight_of_handed
    not_inFlight := habs.not_inFlight
    dumped := habs.dumped
    handOuts := habs.handOuts }

/-- A packet that takes no new cell leaves the protocol where it was. -/
theorem Abstracts.packet (habs : Abstracts cfg st a) (hinv : HandOut.Invariant (protocol cfg) a)
    {i ts : ℕ} {buf : Mbuf} (hidle : (st.readers i).Idle)
    (hfits : (st.readers i).reader.Fits cfg.reader (ReaderThread.packet cfg buf ts)) :
    ∃ b, Relation.ReflTransGen (HandOut.Step (protocol cfg)) a b ∧ b.mark = a.mark ∧
      Abstracts cfg (st.packet cfg i buf ts) b := by
  have hstarted : a.started i := (habs.started i).mpr hidle.1
  have hi : i < cfg.nbRx := hinv.started_lt hstarted
  have hcell := habs.cell hstarted
  have hlt : (st.readers i).cell < st.diskWriteCell := by
    rw [← hcell, ← habs.counter]
    exact hinv.cell_lt hstarted
  have hthread := (habs.threads i).accept hidle hlt hfits
  have hplaced := (habs.threads i).placed hidle.1 ((Nat.le_add_left _ _).trans hfits.1)
  have hfront := habs.front hstarted
  rw [ReaderThread.front_mk_nil hidle.2.1] at hfront
  set accepted := (st.readers i).accept cfg buf ts st.diskWriteCell with haccepted
  have hacceptedFront : accepted.front = (st.readers i).cell := ReaderThread.accept_front hplaced
  cases htakes : ((st.readers i).plan cfg buf ts st.diskWriteCell).takesCell with
  -- the packet stays in its reader's cell, and the protocol does nothing
  | false =>
      have hacceptedCell : accepted.cell = (st.readers i).cell := by
        rw [haccepted, ReaderThread.accept]
        simp only [htakes]
        exact if_neg (by decide)
      have hreaders := habs.updateReader (b := a) hthread
        (iff_of_true hstarted hidle.1) (fun _ => hfront.trans hacceptedFront.symm)
        (fun _ => hcell.trans hacceptedCell.symm) (fun _ => ⟨Iff.rfl, rfl, rfl⟩)
      refine ⟨a, .refl, rfl, ?_⟩
      exact {
        counter := by
          rw [State.packet]
          simp only [htakes]
          exact habs.counter.trans (if_neg (by decide)).symm
        held := habs.held
        diskIds := habs.diskIds
        marks := habs.marks
        cursors := habs.cursors
        started := fun j => (hreaders j).1
        front := fun {j} => (hreaders j).2.1
        cell := fun {j} => (hreaders j).2.2.1
        threads := fun j => (hreaders j).2.2.2
        inFlight_lt := habs.inFlight_lt
        inFlight_of_handed := habs.inFlight_of_handed
        not_inFlight := habs.not_inFlight
        dumped := habs.dumped
        handOuts := habs.handOuts }
  -- the packet goes on in a new cell, which the protocol hands out
  | true =>
      have hacceptedCell : accepted.cell = st.diskWriteCell := by
        rw [haccepted, ReaderThread.accept]
        simp only [htakes, if_true]
      have hreaders := habs.updateReader (b := a.take i) hthread
        (iff_of_true hstarted hidle.1) (fun _ => hfront.trans hacceptedFront.symm)
        (fun _ => by simp [HandOut.State.take, habs.counter, hacceptedCell])
        (by
          intro j hj
          simp [HandOut.State.take, Function.update_of_ne hj])
      refine ⟨a.take i, .single (.take hi hstarted (hfront.trans hcell.symm)), rfl, ?_⟩
      exact {
        counter := by
          rw [State.packet]
          simp only [htakes, if_true]
          change a.counter + 1 = st.diskWriteCell + 1
          rw [habs.counter]
        held := habs.held
        diskIds := habs.diskIds
        marks := habs.marks
        cursors := habs.cursors
        started := fun j => (hreaders j).1
        front := fun {j} => (hreaders j).2.1
        cell := fun {j} => (hreaders j).2.2.1
        threads := fun j => (hreaders j).2.2.2
        inFlight_lt := habs.inFlight_lt
        inFlight_of_handed := habs.inFlight_of_handed
        not_inFlight := habs.not_inFlight
        dumped := habs.dumped
        handOuts := habs.handOuts }

theorem Abstracts.started_of_writes (habs : Abstracts cfg st a) {i : ℕ} {write : PendingWrite}
    {rest : List PendingWrite} (hwrites : (st.readers i).writes = write :: rest) :
    a.started i := by
  rw [habs.started]
  by_contra hno
  rw [(habs.threads i).writes_of_not_started (Bool.not_eq_true _ ▸ hno)] at hwrites
  exact absurd hwrites.symm (List.cons_ne_nil _ _)

variable (cfg) in
/-- The block a writer publishes with an attempt, not reduced. -/
def publishedBlock (buf : DataBlockBuffer) (write : PendingWrite) : ℕ :=
  if buf.Holds cfg.buffer write.req.diskPos ∧
      cfg.buffer.Crosses write.req.diskPos write.req.data.length then
    cfg.blockOfCell write.cell + 1
  else cfg.blockOfCell write.cell

variable (cfg) in
/-- The blocks the writers have published, not reduced, after a step. -/
def State.publish (st : State) (published : ℕ → ℕ) : Label → ℕ → ℕ
  | .attempt i =>
      match (st.readers i).writes with
      | write :: _ => Function.update published i (publishedBlock cfg st.buffer write)
      | [] => published
  | .start _ | .packet _ _ _ | .finish _ | .dump _ | .recycle _ => published

theorem State.publish_attempt {published : ℕ → ℕ} {i : ℕ} {write : PendingWrite}
    {rest : List PendingWrite} (hwrites : (st.readers i).writes = write :: rest) :
    st.publish cfg published (.attempt i) =
      Function.update published i (publishedBlock cfg st.buffer write) := by
  simp only [State.publish, hwrites]

theorem publishedId_eq (buf : DataBlockBuffer) {write : PendingWrite}
    (hin : DPDKReader.InCell cfg.reader write.cell write.req) :
    buf.publishedId cfg.buffer write.req.diskPos write.req.data.length =
      publishedBlock cfg buf write % cfg.diskBlockNum := by
  obtain ⟨offset, hoffset, hpos, -⟩ := hin
  have hid : cfg.buffer.diskIdOf write.req.diskPos =
      cfg.blockOfCell write.cell % cfg.diskBlockNum := by
    rw [hpos, DataPathConfig.diskIdOf_posIn hoffset]
  unfold DataBlockBuffer.publishedId publishedBlock DataBlockBuffer.Holds
  split_ifs
  · rw [hid]
    exact Nat.mod_add_mod _ _ _
  · exact hid

/-- An attempt publishes a block; the bytes it may have written are not looked at here. -/
theorem Abstracts.publish (habs : Abstracts cfg st a) (hinv : HandOut.Invariant (protocol cfg) a)
    {i : ℕ} (hi : i < cfg.nbRx) {write : PendingWrite} {rest : List PendingWrite}
    (hwrites : (st.readers i).writes = write :: rest) :
    HandOut.Step (protocol cfg) a (a.publish i (publishedBlock cfg st.buffer write)) ∧
      Abstracts cfg
        { st with buffer := (st.buffer.writeBlock cfg.buffer i write.req).2 }
        (a.publish i (publishedBlock cfg st.buffer write)) := by
  have hthread := habs.threads i
  have hmem : write ∈ (st.readers i).writes := hwrites ▸ List.mem_cons_self
  have hstarted := habs.started_of_writes hwrites
  have hfront : a.front i = write.cell := by
    rw [habs.front hstarted, ReaderThread.front_of_cons hwrites]
  have hpublished := publishedId_eq st.buffer (hthread.inCell hmem)
  -- the block the buffer publishes is one the protocol allows
  have hmay : a.MayPublish (protocol cfg) i (publishedBlock cfg st.buffer write) := by
    obtain ⟨offset, hoffset, hpos, hle⟩ := hthread.inCell hmem
    unfold publishedBlock
    split_ifs with h
    · obtain ⟨hholds, hcrosses⟩ := h
      refine .inr ⟨by rw [hfront]; rfl, ?_, ?_⟩
      · rw [hpos, ← hfront, holds_iff habs hinv hi hstarted hoffset] at hholds
        exact hholds.ge
      · rw [hpos] at hcrosses
        obtain ⟨hends, hlater⟩ := DataPathConfig.Crosses.ends hle hcrosses
        have hlast : write.cell < (st.readers i).cell :=
          hthread.ends hmem ((DPDKReader.endsCell_iff hoffset hpos).mpr hends)
        rw [protocol_blockOf, habs.cell hstarted]
        exact hlater _ hlast
    · exact .inl (by rw [hfront]; rfl)
  refine ⟨.publish hi hstarted hmay, ?_⟩
  exact {
    counter := habs.counter
    held := habs.held
    diskIds := by
      intro slot hslot
      rw [DataBlockBuffer.writeBlock_blockDiskId]
      exact habs.diskIds hslot
    marks := by
      simp only [DataBlockBuffer.writeBlock_diskWriteIds, hthread.newData hmem, if_true]
      rw [hpublished, habs.marks, map_range_set]
      apply List.map_congr_left
      intro j _
      simp only [HandOut.State.publish]
      by_cases h : j = i
      · rw [h, Function.update_self, Function.update_self]
      · rw [Function.update_of_ne h, Function.update_of_ne h]
    cursors := by
      rw [DataBlockBuffer.writeBlock_blockCheckIds]
      exact habs.cursors
    started := habs.started
    front := habs.front
    cell := habs.cell
    threads := habs.threads
    inFlight_lt := habs.inFlight_lt
    inFlight_of_handed := habs.inFlight_of_handed
    not_inFlight := habs.not_inFlight
    dumped := habs.dumped
    handOuts := habs.handOuts }

/-- A write that went through leaves the reader in the same cell, or in its last
one if that was the end of the cell. -/
theorem Abstracts.pop (habs : Abstracts cfg st a) {i : ℕ} (hi : i < cfg.nbRx)
    {write : PendingWrite} {rest : List PendingWrite}
    (hwrites : (st.readers i).writes = write :: rest)
    (hreached : a.Reached (protocol cfg) (cfg.blockOfCell (a.front i))) :
    ∃ b, Relation.ReflTransGen (HandOut.Step (protocol cfg)) a b ∧ b.mark = a.mark ∧
      Abstracts cfg (st.setReader i { st.readers i with writes := rest }) b := by
  have hthread := habs.threads i
  have hpopped := hthread.pop hwrites
  have hstarted := habs.started_of_writes hwrites
  have hrun : (st.readers i).started = true := (habs.started i).mp hstarted
  have hfront : a.front i = write.cell := by
    rw [habs.front hstarted, ReaderThread.front_of_cons hwrites]
  -- the step of the protocol, and what it leaves of the reader
  obtain ⟨b, hsteps, hsame, hothers, hnewFront, hnewCell⟩ :
      ∃ b : HandOut.State, Relation.ReflTransGen (HandOut.Step (protocol cfg)) a b ∧
        (∃ front, b = { a with front := front }) ∧ (∀ j, j ≠ i → b.front j = a.front j) ∧
        b.front i = ({ st.readers i with writes := rest } : ReaderThread).front ∧
        b.cell i = a.cell i := by
    rcases hthread.front_pop hwrites with h | h
    · exact ⟨a, .refl, ⟨a.front, rfl⟩, fun _ _ => rfl, by rw [hfront, h], rfl⟩
    · refine ⟨a.advance i, .single (.advance hi hstarted hreached), ⟨_, rfl⟩, ?_, ?_, rfl⟩
      · intro j hj
        simp [HandOut.State.advance, Function.update_of_ne hj]
      · rw [h]
        simp [HandOut.State.advance, habs.cell hstarted]
  obtain ⟨front, rfl⟩ := hsame
  have hreaders := habs.updateReader (b := { a with front := front }) hpopped
    (iff_of_true hstarted hrun) (fun _ => hnewFront) (fun _ => hnewCell.trans (habs.cell hstarted))
    (fun hj => ⟨Iff.rfl, hothers _ hj, rfl⟩)
  refine ⟨_, hsteps, rfl, ?_⟩
  exact {
    counter := habs.counter
    held := habs.held
    diskIds := habs.diskIds
    marks := habs.marks
    cursors := habs.cursors
    started := fun j => (hreaders j).1
    front := fun {j} => (hreaders j).2.1
    cell := fun {j} => (hreaders j).2.2.1
    threads := fun j => (hreaders j).2.2.2
    inFlight_lt := habs.inFlight_lt
    inFlight_of_handed := habs.inFlight_of_handed
    not_inFlight := habs.not_inFlight
    dumped := habs.dumped
    handOuts := habs.handOuts }

/-- A write that succeeds lies in the block its slot holds. -/
theorem Abstracts.held_of_written (habs : Abstracts cfg st a)
    (hinv : HandOut.Invariant (protocol cfg) a) {i : ℕ} (hi : i < cfg.nbRx) {write : PendingWrite}
    {rest : List PendingWrite} (hwrites : (st.readers i).writes = write :: rest)
    (hwritten : (st.buffer.writeBlock cfg.buffer i write.req).1 = true) :
    st.held cfg (cfg.blockOfCell write.cell % cfg.totalBlockNum) = cfg.blockOfCell write.cell := by
  have hstarted := habs.started_of_writes hwrites
  have hmem : write ∈ (st.readers i).writes := hwrites ▸ List.mem_cons_self
  obtain ⟨offset, hoffset, hpos, -⟩ := (habs.threads i).inCell hmem
  have hholds := (DataBlockBuffer.writeBlock_fst.mp hwritten).1
  rw [hpos, ← ReaderThread.front_of_cons hwrites, ← habs.front hstarted,
    holds_iff habs hinv hi hstarted hoffset, habs.held, habs.front hstarted,
    ReaderThread.front_of_cons hwrites] at hholds
  exact hholds

theorem Abstracts.attempt (habs : Abstracts cfg st a) (hinv : HandOut.Invariant (protocol cfg) a)
    {i : ℕ} (hi : i < cfg.nbRx) {write : PendingWrite} {rest : List PendingWrite}
    (hwrites : (st.readers i).writes = write :: rest) :
    ∃ b, Relation.ReflTransGen (HandOut.Step (protocol cfg)) a b ∧
      b.mark = Function.update a.mark i (publishedBlock cfg st.buffer write) ∧
      Abstracts cfg (st.attempt cfg i write.req rest) b := by
  have hid : (st.readers i).reader.threadId = i := (habs.threads i).threadId
  obtain ⟨hstep, hpublished⟩ := habs.publish hinv hi hwrites
  cases hwritten : (st.buffer.writeBlock cfg.buffer i write.req).1 with
  | false =>
      refine ⟨_, .single hstep, rfl, ?_⟩
      simp only [State.attempt, hid, hwritten]
      exact hpublished
  | true =>
      set block := publishedBlock cfg st.buffer write
      have hreached : (a.publish i block).Reached (protocol cfg)
          (cfg.blockOfCell ((a.publish i block).front i)) := by
        change cfg.blockOfCell (a.front i) ≤
          a.held (cfg.blockOfCell (a.front i) % cfg.totalBlockNum)
        rw [habs.front (habs.started_of_writes hwrites), ReaderThread.front_of_cons hwrites,
          habs.held]
        exact (habs.held_of_written hinv hi hwrites hwritten).ge
      obtain ⟨b, hsteps, hmark, hpopped⟩ := hpublished.pop hi hwrites hreached
      refine ⟨b, .head hstep hsteps, hmark, ?_⟩
      simp only [State.attempt, hid, hwritten, if_true]
      exact hpopped

/-- What follows a packet's writes does not show in the protocol. -/
theorem Abstracts.finish (habs : Abstracts cfg st a) {i : ℕ} {pending : PendingEpilogue}
    (hpending : (st.readers i).epilogue = some pending) :
    Abstracts cfg (st.finish cfg i pending) a := by
  have hreaders := habs.updateReader (b := a) (habs.threads i).finish (habs.started i)
    habs.front habs.cell (fun _ => ⟨Iff.rfl, rfl, rfl⟩)
  have hfinished : Abstracts cfg
      (st.setReader i { st.readers i with epilogue := none }) a := {
    counter := habs.counter
    held := habs.held
    diskIds := habs.diskIds
    marks := habs.marks
    cursors := habs.cursors
    started := fun j => (hreaders j).1
    front := fun {j} => (hreaders j).2.1
    cell := fun {j} => (hreaders j).2.2.1
    threads := fun j => (hreaders j).2.2.2
    inFlight_lt := habs.inFlight_lt
    inFlight_of_handed := habs.inFlight_of_handed
    not_inFlight := habs.not_inFlight
    dumped := habs.dumped
    handOuts := habs.handOuts }
  rw [State.finish]
  cases hreq : pending.epilogue with
  | writeIndexToRing index => exact { hfinished with }
  | writeBefore req =>
      have hpatch := (habs.threads i).patch hpending hreq
      exact { hfinished with
        diskIds := by
          intro slot hslot
          rw [DataBlockBuffer.writeBlock_blockDiskId]
          exact habs.diskIds hslot
        marks := by
          simp only [DataBlockBuffer.writeBlock_diskWriteIds, hpatch]
          exact habs.marks
        cursors := by
          rw [DataBlockBuffer.writeBlock_blockCheckIds]
          exact habs.cursors }

/-- A dump thread is given the slot of its cursor, once every writer is past the delay. -/
theorem Abstracts.checked (habs : Abstracts cfg st a) (hinv : HandOut.Invariant (protocol cfg) a)
    {k slot : ℕ} (hk : k < cfg.dataDiskManagerThreadNum)
    (hcheck : st.buffer.checkBlock cfg.buffer k = some slot) :
    slot = a.cursor k % cfg.totalBlockNum ∧
      ∀ i < cfg.nbRx, a.held slot + cfg.delayThreshold < a.mark i := by
  obtain ⟨hslot, hcheck⟩ := DataBlockBuffer.checkBlock_eq_some.mp hcheck
  rw [habs.cursors, map_range_getD hk] at hslot
  have hheld : a.held slot = a.cursor k := by
    rw [hslot]
    exact hinv.held_cursor hk
  have hlt : slot < cfg.totalBlockNum := hslot ▸ Nat.mod_lt _ cfg.totalBlockNum_pos
  refine ⟨hslot, fun i hi => lt_of_checkRSS habs hlt hi ?_ (hcheck i hi)⟩
  rw [hheld]
  exact hinv.cursor_add_delay_le hi hk

/-- A dump thread is given the block of its cursor, whatever made it take it. -/
theorem Abstracts.handOut (habs : Abstracts cfg st a)
    (hturns : HandOut.Turns (protocol cfg) a) {k slot : ℕ}
    (hk : k < cfg.dataDiskManagerThreadNum) (hslot : slot = a.cursor k % cfg.totalBlockNum)
    (hheld : a.held slot = a.cursor k) :
    Abstracts cfg (st.dump cfg k slot) (a.dump (protocol cfg) k) := by
  have hlt : slot < cfg.totalBlockNum := hslot ▸ Nat.mod_lt _ cfg.totalBlockNum_pos
  have hnew : ∀ {block}, (a.dump (protocol cfg) k).Handed (protocol cfg) block ↔
      a.Handed (protocol cfg) block ∨ block = a.cursor k := HandOut.handed_dump hturns hk
  -- the block was not handed out before, so its slot is not in flight
  have hnot : ¬ a.Handed (protocol cfg) (a.held slot) := by
    rw [hheld, HandOut.State.Handed, hturns.cursor_mod hk]
    omega
  have hbefore := habs.not_inFlight hlt hnot
  have hother : ∀ {other}, other < cfg.totalBlockNum → other ≠ slot →
      a.held other ≠ a.cursor k := by
    intro other hother hne h
    have hmod : a.held other % cfg.totalBlockNum = other := hturns.held_mod hother
    rw [h, ← hslot] at hmod
    exact hne hmod.symm
  have hbuffer : (st.dump cfg k slot).buffer = (st.buffer.getBlock cfg.buffer k).2 := rfl
  exact {
    counter := habs.counter
    held := habs.held
    diskIds := habs.diskIds
    marks := habs.marks
    cursors := by
      rw [hbuffer, DataBlockBuffer.getBlock_blockCheckIds, habs.cursors, map_range_getD hk,
        map_range_set]
      simp only [List.length_map, List.length_range]
      apply List.map_congr_left
      intro j _
      simp only [HandOut.State.dump]
      by_cases h : j = k
      · rw [h, Function.update_self, Function.update_self]
        exact Nat.mod_add_mod _ _ _
      · rw [Function.update_of_ne h, Function.update_of_ne h]
    started := habs.started
    front := habs.front
    cell := habs.cell
    threads := habs.threads
    inFlight_lt := by
      intro other hmem
      rcases List.mem_cons.mp hmem with rfl | hmem
      · exact hlt
      · exact habs.inFlight_lt hmem
    inFlight_of_handed := by
      intro other hother' hhanded
      change (slot :: st.inFlight).count other = 1
      by_cases h : other = slot
      · rw [h, List.count_cons_self, hbefore]
      · rw [List.count_cons_of_ne (Ne.symm h)]
        refine habs.inFlight_of_handed hother' ?_
        exact (hnew.mp hhanded).resolve_right (hother hother' h)
    not_inFlight := by
      intro other hother' hno
      change (slot :: st.inFlight).count other = 0
      by_cases h : other = slot
      · refine absurd (hnew.mpr (.inr ?_)) hno
        rw [h]
        exact hheld
      · rw [List.count_cons_of_ne (Ne.symm h)]
        exact habs.not_inFlight hother' fun h => hno (hnew.mpr (.inl h))
    dumped := by
      intro record hmem
      rcases List.mem_append.mp hmem with hmem | hmem
      · obtain ⟨hhanded, hpos, hid⟩ := habs.dumped hmem
        exact ⟨hnew.mpr (.inl hhanded), hpos, hid⟩
      · obtain rfl := List.mem_singleton.mp hmem
        have hid : st.buffer.blockCheckIds.getD k 0 = slot := by
          rw [habs.cursors, map_range_getD hk, ← hslot]
        refine ⟨hnew.mpr (.inr ((habs.held slot).symm.trans hheld)), ?_, ?_⟩
        · change st.buffer.blockDiskId (st.buffer.blockCheckIds.getD k 0) = _
          rw [hid, habs.diskIds hlt, habs.held]
        · change st.buffer.blockCheckIds.getD k 0 = st.held cfg slot % cfg.totalBlockNum
          rw [hid, ← habs.held, hheld]
          exact hslot
    handOuts := by
      intro other hother'
      have hid : (st.buffer.getBlock cfg.buffer k).1.blockId = slot := by
        rw [DataBlockBuffer.getBlock_blockId, habs.cursors, map_range_getD hk, ← hslot]
      rw [handOuts_of_append st rfl other, habs.handOuts hother']
      change _ = (List.range (st.laps other + (slot :: st.inFlight).count other)).map _
      by_cases h : slot = other
      · subst h
        rw [if_pos hid, List.count_cons_self, ← Nat.add_assoc, List.range_succ, List.map_append,
          hbefore]
        rfl
      · rw [if_neg fun hsame => h (hid.symm.trans hsame), List.count_cons_of_ne h,
          List.append_nil] }

theorem Abstracts.dump (habs : Abstracts cfg st a) (hinv : HandOut.Invariant (protocol cfg) a)
    {k slot : ℕ} (hk : k < cfg.dataDiskManagerThreadNum)
    (hcheck : st.buffer.checkBlock cfg.buffer k = some slot) :
    HandOut.Step (protocol cfg) a (a.dump (protocol cfg) k) ∧
      Abstracts cfg (st.dump cfg k slot) (a.dump (protocol cfg) k) := by
  obtain ⟨hslot, hpast⟩ := habs.checked hinv hk hcheck
  have hheld : a.held slot = a.cursor k := by
    rw [hslot]
    exact hinv.held_cursor hk
  have hmay : a.MayDump (protocol cfg) k := by
    intro i hi
    change a.held (a.cursor k % cfg.totalBlockNum) + cfg.delayThreshold < a.mark i
    rw [← hslot]
    exact hpast i hi
  exact ⟨.dump hk hmay, habs.handOut hinv.turns hk hslot hheld⟩

/-- What is in flight has been handed out, and its slot has not come round. -/
theorem Abstracts.handed_of_inFlight (habs : Abstracts cfg st a) {slot : ℕ}
    (hmem : slot ∈ st.inFlight) : a.Handed (protocol cfg) (a.held slot) := by
  by_contra hno
  have := habs.not_inFlight (habs.inFlight_lt hmem) hno
  exact absurd hmem (List.count_eq_zero.mp this)

theorem Abstracts.recycle (habs : Abstracts cfg st a)
    (hturns : HandOut.Turns (protocol cfg) a) {slot : ℕ} (hmem : slot ∈ st.inFlight) :
    Abstracts cfg (st.recycle cfg slot) (a.recycle (protocol cfg) slot) := by
  have hlt := habs.inFlight_lt hmem
  have hone := habs.inFlight_of_handed hlt (habs.handed_of_inFlight hmem)
  -- the block a lap further on has not been in the buffer, let alone handed out
  have hnext : ¬ a.Handed (protocol cfg) (a.held slot + cfg.totalBlockNum) := by
    intro h
    have hreached : a.held slot + cfg.totalBlockNum ≤
        a.held ((a.held slot + cfg.totalBlockNum) % cfg.totalBlockNum) :=
      hturns.reached_of_handed h
    have hmod : a.held slot % cfg.totalBlockNum = slot := hturns.held_mod hlt
    rw [Nat.add_mod_right, hmod] at hreached
    have := cfg.totalBlockNum_pos
    omega
  have hheld : ∀ other, (a.recycle (protocol cfg) slot).held other =
      if other = slot then a.held slot + cfg.totalBlockNum else a.held other := by
    intro other
    simp only [HandOut.State.recycle, Function.update_apply]
    rfl
  exact {
    counter := habs.counter
    held := by
      intro other
      rw [hheld]
      simp only [State.held, State.recycle]
      by_cases h : other = slot
      · rw [if_pos h, h, Function.update_self, habs.held, State.held, Nat.mul_succ, Nat.add_assoc]
      · rw [if_neg h, Function.update_of_ne h, habs.held, State.held]
    diskIds := by
      intro other hother
      rw [hheld]
      simp only [State.recycle, DataBlockBuffer.recycleBlock]
      by_cases h : other = slot
      · rw [if_pos h, h, Function.update_self, habs.diskIds hlt]
        exact Nat.mod_add_mod _ _ _
      · rw [if_neg h, Function.update_of_ne h, habs.diskIds hother]
    marks := habs.marks
    cursors := habs.cursors
    started := habs.started
    front := habs.front
    cell := habs.cell
    threads := habs.threads
    inFlight_lt := fun h => habs.inFlight_lt (List.mem_of_mem_erase h)
    inFlight_of_handed := by
      intro other hother h
      rw [hheld] at h
      change (st.inFlight.erase slot).count other = 1
      by_cases hsame : other = slot
      · rw [if_pos hsame] at h
        exact absurd h hnext
      · rw [if_neg hsame] at h
        rw [List.count_erase_of_ne hsame]
        exact habs.inFlight_of_handed hother h
    not_inFlight := by
      intro other hother h
      rw [hheld] at h
      change (st.inFlight.erase slot).count other = 0
      by_cases hsame : other = slot
      · rw [hsame, List.count_erase_self, hone]
      · rw [if_neg hsame] at h
        rw [List.count_erase_of_ne hsame]
        exact habs.not_inFlight hother h
    dumped := habs.dumped
    handOuts := by
      intro other hother
      have hcount : (st.recycle cfg slot).laps other + (st.recycle cfg slot).inFlight.count other =
          st.laps other + st.inFlight.count other := by
        simp only [State.recycle]
        by_cases h : other = slot
        · rw [h, Function.update_self, List.count_erase_self, hone]
        · rw [Function.update_of_ne h, List.count_erase_of_ne h]
      rw [hcount]
      exact habs.handOuts hother }

/-- Every step of the data path is matched by steps of the protocol. -/
theorem Abstracts.step (habs : Abstracts cfg st a) (hinv : HandOut.Invariant (protocol cfg) a)
    {label : Label} (hfits : Fits cfg st label) (hstep : step cfg st label = some next) :
    ∃ b, Relation.ReflTransGen (HandOut.Step (protocol cfg)) a b ∧
      b.mark = st.publish cfg a.mark label ∧ Abstracts cfg next b := by
  cases label with
  | start i =>
      obtain ⟨⟨hi, hnew⟩, rfl⟩ := step_start_iff.mp hstep
      refine ⟨_, .single (.start hi ?_), rfl, habs.start hnew⟩
      rw [habs.started, hnew]
      decide
  | packet i buf ts =>
      obtain ⟨⟨-, hidle⟩, rfl⟩ := step_packet_iff.mp hstep
      exact habs.packet hinv hidle hfits
  | attempt i =>
      obtain ⟨write, rest, hwrites, hi, rfl⟩ := step_attempt_iff.mp hstep
      rw [State.publish_attempt hwrites]
      exact habs.attempt hinv hi hwrites
  | finish i =>
      obtain ⟨pending, -, hpending, -, rfl⟩ := step_finish_iff.mp hstep
      exact ⟨a, .refl, rfl, habs.finish hpending⟩
  | dump k =>
      obtain ⟨slot, hk, hcheck, rfl⟩ := step_dump_iff.mp hstep
      obtain ⟨hdump, hnext⟩ := habs.dump hinv hk hcheck
      exact ⟨_, .single hdump, rfl, hnext⟩
  | recycle slot =>
      obtain ⟨hmem, rfl⟩ := step_recycle_iff.mp hstep
      exact ⟨_, .single (.recycle (habs.inFlight_lt hmem) (habs.handed_of_inFlight hmem)), rfl,
        habs.recycle hinv.turns hmem⟩

/-- Every state of the data path shows a state the protocol can come to. -/
theorem exists_abstracts (htimely : Timely cfg) (h : (system cfg).Reachable (Fits cfg) st) :
    ∃ a, HandOut.Reachable (protocol cfg) a ∧ Abstracts cfg st a := by
  refine h.invariant (fun st => ∃ a, HandOut.Reachable (protocol cfg) a ∧
    Abstracts cfg st a) ⟨_, .refl, abstracts_init⟩ ?_
  rintro state next label ⟨a, hreach, habs⟩ hfits hstep
  obtain ⟨b, hsteps, -, hnext⟩ := habs.step (hreach.invariant htimely.protocol) hfits hstep
  exact ⟨b, hreach.trans hsteps, hnext⟩

end DataPath

end TrafficDatabase
