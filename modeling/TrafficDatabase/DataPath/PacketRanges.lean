import TrafficDatabase.DataPath.LateWrites

/-!
# The ranges of the packets

Every packet's bytes go to cells of its reader, after those of the reader's
earlier packets.  A ledger beside the data path notes who was given which cell,
and which writes were planned for which packet; positions are counted over all
laps, so that what comes later has the larger one.

This holds as long as packets of no known protocol do not run over the end of a
cell (`ledger_tidy`).  `getOffset` has then moved the cursor past the cell's tail,
and no new cell is taken: the next packet is put where another reader's cell may
be (`ledger_overlap`).
-/

namespace TrafficDatabase

namespace DataPath

variable (cfg : DataPathConfig)

/-- A packet that was taken up, with the writes planned for it. -/
structure StoredPacket where
  reader : ℕ
  writes : List PendingWrite

/-- The data path with its history: the readers and the cells `diskWriteCell` gave
them, and the packets in the order they were taken up. -/
structure Ledger where
  base : State
  cells : List (ℕ × ℕ)
  packets : List StoredPacket

namespace Ledger

def init : Ledger := { base := State.init cfg, cells := [], packets := [] }

variable (st : Ledger)

/-- What a step that leads to `next` adds to the history. -/
def note (next : State) : Label → Ledger
  | .start i =>
      { st with
        base := next
        cells := st.cells ++ [(i, st.base.diskWriteCell)] }
  | .packet i buf ts =>
      { base := next
        cells :=
          if ((st.base.readers i).plan cfg buf ts st.base.diskWriteCell).takesCell then
            st.cells ++ [(i, st.base.diskWriteCell)]
          else st.cells
        packets := st.packets ++ [{ reader := i, writes := (next.readers i).writes }] }
  | .attempt _ | .finish _ | .dump _ | .recycle _ => { st with base := next }

end Ledger

/-- The data path, with its ledger. -/
def ledger : TransitionSystem Ledger Label :=
  { init := Ledger.init cfg
    step := fun st label => (step cfg st.base label).map fun next => st.note cfg next label }

namespace PendingWrite

variable (write : PendingWrite)

/-- Where the write starts and ends, not reduced. -/
def first : ℕ := write.cell * cfg.cellSize + write.req.diskPos % cfg.cellSize

def last : ℕ := write.first cfg + write.req.data.length

end PendingWrite

/-- Two writes have no byte of the disk in common. -/
def Apart (one other : PendingWrite) : Prop :=
  one.req.diskPos + one.req.data.length ≤ other.req.diskPos ∨
    other.req.diskPos + other.req.data.length ≤ one.req.diskPos

/-- The readers' cursors leave the tails of their cells free, and every packet's
bytes are its own. -/
structure Tidy (st : Ledger) : Prop where
  idle : ∀ i < cfg.nbRx, (st.base.readers i).Idle →
    (st.base.readers i).reader.writeOffset + cellTailLen ≤ cfg.cellSize
  /-- What is still to be written was planned for a packet. -/
  planned : ∀ i, ∀ write ∈ (st.base.readers i).writes,
    ∃ packet ∈ st.packets, packet.reader = i ∧ write ∈ packet.writes
  /-- No cell is given out twice. -/
  cells : (st.cells.map Prod.snd).Nodup
  owned : ∀ packet ∈ st.packets, ∀ write ∈ packet.writes,
    (packet.reader, write.cell) ∈ st.cells ∧ DPDKReader.InCell cfg.reader write.cell write.req
  ordered : st.packets.Pairwise fun earlier later => earlier.reader = later.reader →
    ∀ one ∈ earlier.writes, ∀ other ∈ later.writes, one.last cfg ≤ other.first cfg
  apart : st.packets.Pairwise fun earlier later => ∀ one ∈ earlier.writes,
    ∀ other ∈ later.writes, one.cell / cfg.cellNum = other.cell / cfg.cellNum → Apart one other

instance (one other : PendingWrite) : Decidable (Apart one other) :=
  inferInstanceAs (Decidable (_ ∨ _))

variable {cfg} {st next : Ledger} {i ts : ℕ} {buf : Mbuf} {thread : ReaderThread}

/-- A planned write lies behind all before it, and the reader goes on behind it. -/
theorem accept_bounds (hplaced : DPDKReader.Placed cfg.reader thread.reader thread.cell)
    {fetched : ℕ} (hlt : thread.cell < fetched)
    (hfits : thread.reader.Fits cfg.reader (ReaderThread.packet cfg buf ts)) {write : PendingWrite}
    (hwrite : write ∈ (thread.accept cfg buf ts fetched).writes) :
    thread.position cfg ≤ write.first cfg ∧
      write.last cfg ≤ (thread.accept cfg buf ts fetched).position cfg := by
  by_cases hnon : DPDKReader.NonIP cfg.reader (ReaderThread.packet cfg buf ts)
  · rw [(ReaderThread.accept_of_nonIP _ _ hnon).1] at hwrite
    exact absurd hwrite List.not_mem_nil
  have hplan := ReaderThread.storedPlan fetched hplaced hnon
  have hoffset : thread.reader.writeOffset < cfg.cellSize := hplaced.offset_lt
  have hnext := Nat.mul_le_mul_right cfg.cellSize (Nat.succ_le_of_lt hlt)
  rw [Nat.succ_mul] at hnext
  unfold PendingWrite.last PendingWrite.first ReaderThread.position
  change thread.cell * cfg.cellSize + thread.reader.writeOffset ≤ _ ∧ _ ≤
    (if (thread.plan cfg buf ts fetched).takesCell then fetched else thread.cell) * cfg.cellSize +
      (thread.plan cfg buf ts fetched).reader.writeOffset
  have htakes := hplan.takesCell
  simp only [ReaderThread.accept, List.mem_append, List.mem_map] at hwrite
  by_cases hs : DPDKReader.Splits cfg.reader thread.reader (ReaderThread.packet cfg buf ts)
  · have hcursor : (thread.plan cfg buf ts fetched).reader.writeOffset = _ :=
      DPDKReader.handlePacket_writeOffset_of_splits hplaced hfits.1 hnon hs
    rw [htakes, if_pos (decide_eq_true hs)]
    rcases hwrite with ⟨req, hreq, rfl⟩ | ⟨req, hreq, rfl⟩
    · rw [hplan.writes] at hreq
      obtain ⟨offset, hlt, hpos, hle⟩ := (DPDKReader.storedWrites_inCell hplaced hreq).1
      have hstart := (DPDKReader.storedWrites_inCell_bounds hplaced hreq).1
      have hmod : req.diskPos % cfg.cellSize = offset := by
        rw [hpos]
        exact ReaderConfig.posIn_mod hlt
      change thread.reader.writeOffset ≤ req.diskPos % cfg.cellSize at hstart
      change offset + req.data.length ≤ cfg.cellSize at hle
      simp only
      omega
    · rw [hplan.writes] at hreq
      have hend := DPDKReader.storedWrites_inNewCell_end hplaced hfits.1 hreq
      rw [← hcursor] at hend
      change req.diskPos % cfg.cellSize + req.data.length ≤ _ at hend
      simp only
      omega
  · have hcursor : (thread.plan cfg buf ts fetched).reader.writeOffset = _ :=
      DPDKReader.handlePacket_writeOffset hfits (htakes.trans (decide_eq_false hs))
    rw [htakes, if_neg (by simpa using hs), hcursor]
    rcases hwrite with ⟨req, hreq, rfl⟩ | ⟨req, hreq, rfl⟩
    · rw [hplan.writes] at hreq
      obtain ⟨hstart, hend⟩ := DPDKReader.storedWrites_inCell_bounds hplaced hreq
      have hend := hend hs
      change thread.reader.writeOffset ≤ req.diskPos % cfg.cellSize at hstart
      change req.diskPos % cfg.cellSize + req.data.length ≤ _ at hend
      simp only
      omega
    · rw [hplan.writes] at hreq
      exact absurd (DPDKReader.storedWrites_inNewCell hplaced hfits.1 hreq).1 hs

/-! ## The invariant -/

/-- What holds of the ledger in every state. -/
structure LedgerInvariant (cfg : DataPathConfig) (st : Ledger) : Prop where
  threads : ∀ i, ThreadInvariant cfg i (st.base.readers i)
  planned : ∀ i, ∀ write ∈ (st.base.readers i).writes,
    ∃ packet ∈ st.packets, packet.reader = i ∧ write ∈ packet.writes
  cells_lt : ∀ entry ∈ st.cells, entry.2 < st.base.diskWriteCell
  cells : (st.cells.map Prod.snd).Nodup
  cell : ∀ {i}, (st.base.readers i).started = true → (i, (st.base.readers i).cell) ∈ st.cells
  started : ∀ packet ∈ st.packets, (st.base.readers packet.reader).started = true
  owned : ∀ packet ∈ st.packets, ∀ write ∈ packet.writes,
    (packet.reader, write.cell) ∈ st.cells ∧ DPDKReader.InCell cfg.reader write.cell write.req
  behind : ∀ packet ∈ st.packets, ∀ write ∈ packet.writes,
    write.last cfg ≤ (st.base.readers packet.reader).position cfg
  ordered : st.packets.Pairwise fun earlier later => earlier.reader = later.reader →
    ∀ one ∈ earlier.writes, ∀ other ∈ later.writes, one.last cfg ≤ other.first cfg

theorem ledgerInvariant_init : LedgerInvariant cfg (Ledger.init cfg) where
  threads := ThreadInvariant.new
  planned := nofun
  cells_lt := nofun
  cells := List.nodup_nil
  cell := nofun
  started := nofun
  owned := nofun
  behind := nofun
  ordered := .nil

/-- A step that takes up no packet and no cell. -/
theorem LedgerInvariant.keep (h : LedgerInvariant cfg st) {base : State}
    (hcounter : base.diskWriteCell = st.base.diskWriteCell)
    (hreaders : ∀ i, ThreadInvariant cfg i (base.readers i) ∧
      (base.readers i).started = (st.base.readers i).started ∧
      (base.readers i).cell = (st.base.readers i).cell ∧
      (base.readers i).position cfg = (st.base.readers i).position cfg ∧
      ∀ write ∈ (base.readers i).writes, write ∈ (st.base.readers i).writes) :
    LedgerInvariant cfg { st with base } where
  threads := fun i => (hreaders i).1
  planned := fun i write hwrite => h.planned i write ((hreaders i).2.2.2.2 write hwrite)
  cells_lt := by
    intro entry hentry
    change entry.2 < base.diskWriteCell
    rw [hcounter]
    exact h.cells_lt entry hentry
  cells := h.cells
  cell := by
    intro i hstarted
    change (i, (base.readers i).cell) ∈ st.cells
    rw [(hreaders i).2.2.1]
    exact h.cell ((hreaders i).2.1.symm.trans hstarted)
  started := fun packet hpacket => (hreaders packet.reader).2.1.trans (h.started packet hpacket)
  owned := h.owned
  behind := by
    intro packet hpacket write hwrite
    change write.last cfg ≤ (base.readers packet.reader).position cfg
    rw [(hreaders packet.reader).2.2.2.1]
    exact h.behind packet hpacket write hwrite
  ordered := h.ordered

/-- The threads when only that of reader `i` changes, and keeps its place. -/
theorem LedgerInvariant.keep_update (h : LedgerInvariant cfg st) {base : State}
    (hcounter : base.diskWriteCell = st.base.diskWriteCell)
    (hbase : base.readers = Function.update st.base.readers i thread)
    (hthread : ThreadInvariant cfg i thread)
    (hstarted : thread.started = (st.base.readers i).started)
    (hcell : thread.cell = (st.base.readers i).cell)
    (hposition : thread.position cfg = (st.base.readers i).position cfg)
    (hwrites : ∀ write ∈ thread.writes, write ∈ (st.base.readers i).writes) :
    LedgerInvariant cfg { st with base } := by
  refine h.keep hcounter fun j => ?_
  rw [hbase]
  by_cases hj : j = i
  · rw [hj, Function.update_self]
    exact ⟨hthread, hstarted, hcell, hposition, hwrites⟩
  · rw [Function.update_of_ne hj]
    exact ⟨h.threads j, rfl, rfl, rfl, fun _ => id⟩

theorem nodup_cells_append {cells : List (ℕ × ℕ)} {counter : ℕ}
    (hnodup : (cells.map Prod.snd).Nodup) (hlt : ∀ entry ∈ cells, entry.2 < counter) (i : ℕ) :
    ((cells ++ [(i, counter)]).map Prod.snd).Nodup := by
  rw [List.map_append, List.nodup_append]
  refine ⟨hnodup, by simp, ?_⟩
  intro cell hcell other hother
  obtain ⟨entry, hentry, rfl⟩ := List.mem_map.mp hcell
  have heq : other = counter := by simpa using hother
  rw [heq]
  exact (hlt entry hentry).ne

theorem LedgerInvariant.start (h : LedgerInvariant cfg st)
    (hnew : (st.base.readers i).started = false) :
    LedgerInvariant cfg (st.note cfg (st.base.start i) (.start i)) where
  threads := by
    intro j
    change ThreadInvariant cfg j (Function.update st.base.readers i
      ((st.base.readers i).start st.base.diskWriteCell) j)
    by_cases hj : j = i
    · rw [hj, Function.update_self]
      exact (h.threads i).start hnew
    · rw [Function.update_of_ne hj]
      exact h.threads j
  planned := by
    intro j write hwrite
    change write ∈ (Function.update st.base.readers i
      ((st.base.readers i).start st.base.diskWriteCell) j).writes at hwrite
    refine h.planned j write ?_
    by_cases hj : j = i
    · rw [hj, Function.update_self] at hwrite
      rw [hj]
      exact hwrite
    · rwa [Function.update_of_ne hj] at hwrite
  cells_lt := by
    intro entry hentry
    change entry.2 < st.base.diskWriteCell + 1
    rcases List.mem_append.mp hentry with hentry | hentry
    · exact (h.cells_lt entry hentry).trans (Nat.lt_succ_self _)
    · rw [List.mem_singleton.mp hentry]
      exact Nat.lt_succ_self _
  cells := nodup_cells_append h.cells h.cells_lt i
  cell := by
    intro j hstarted
    change (j, (Function.update st.base.readers i
      ((st.base.readers i).start st.base.diskWriteCell) j).cell) ∈ _
    change (Function.update st.base.readers i
      ((st.base.readers i).start st.base.diskWriteCell) j).started = true at hstarted
    by_cases hj : j = i
    · rw [hj, Function.update_self]
      exact List.mem_append_right _ List.mem_cons_self
    · rw [Function.update_of_ne hj] at hstarted ⊢
      exact List.mem_append_left _ (h.cell hstarted)
  started := by
    intro packet hpacket
    change (Function.update st.base.readers i
      ((st.base.readers i).start st.base.diskWriteCell) packet.reader).started = true
    by_cases hj : packet.reader = i
    · rw [hj, Function.update_self]
      rfl
    · rw [Function.update_of_ne hj]
      exact h.started packet hpacket
  owned := fun packet hpacket write hwrite =>
    (h.owned packet hpacket write hwrite).imp_left (List.mem_append_left _)
  behind := by
    intro packet hpacket write hwrite
    change write.last cfg ≤ (Function.update st.base.readers i
      ((st.base.readers i).start st.base.diskWriteCell) packet.reader).position cfg
    -- a reader that starts has no packets yet
    have hne : packet.reader ≠ i := by
      intro heq
      have hstarted := h.started packet hpacket
      rw [heq, hnew] at hstarted
      exact Bool.false_ne_true hstarted
    rw [Function.update_of_ne hne]
    exact h.behind packet hpacket write hwrite
  ordered := h.ordered

theorem LedgerInvariant.packet (h : LedgerInvariant cfg st) (hidle : (st.base.readers i).Idle)
    (hfits : (st.base.readers i).reader.Fits cfg.reader (ReaderThread.packet cfg buf ts)) :
    LedgerInvariant cfg (st.note cfg (st.base.packet cfg i buf ts) (.packet i buf ts)) := by
  have hlt : (st.base.readers i).cell < st.base.diskWriteCell := h.cells_lt _ (h.cell hidle.1)
  have hplaced := (h.threads i).placed hidle.1 ((Nat.le_add_left _ _).trans hfits.1)
  have hthread := (h.threads i).accept hidle hlt hfits
  have hbounds := fun write => @accept_bounds cfg ts buf (st.base.readers i) hplaced
    st.base.diskWriteCell hlt hfits write
  have hforward := ReaderThread.position_lt_accept hplaced hlt hfits
  set accepted := (st.base.readers i).accept cfg buf ts st.base.diskWriteCell with haccepted
  have hreaders : (st.base.packet cfg i buf ts).readers =
      Function.update st.base.readers i accepted := rfl
  have hcounter : st.base.diskWriteCell ≤ (st.base.packet cfg i buf ts).diskWriteCell := by
    change _ ≤ if ((st.base.readers i).plan cfg buf ts st.base.diskWriteCell).takesCell then _
      else _
    split_ifs
    · exact Nat.le_succ _
    · exact le_rfl
  have hcells : ∀ entry ∈ st.cells,
      entry ∈ (st.note cfg (st.base.packet cfg i buf ts) (.packet i buf ts)).cells := by
    intro entry hentry
    change entry ∈ if _ then _ else _
    split_ifs
    · exact List.mem_append_left _ hentry
    · exact hentry
  -- the cell the reader is in, and the one it may have taken
  have hown : ∀ write ∈ accepted.writes,
      (i, write.cell) ∈ (st.note cfg (st.base.packet cfg i buf ts) (.packet i buf ts)).cells := by
    intro write hwrite
    rcases (mem_accept_writes hplaced hfits hwrite).2.2 with ⟨heq, -⟩ | ⟨heq, -, htakes⟩
    · rw [heq]
      exact hcells _ (h.cell hidle.1)
    · rw [heq]
      change _ ∈ if _ then _ else _
      rw [if_pos htakes]
      exact List.mem_append_right _ List.mem_cons_self
  have hnew : ∀ packet ∈ (st.note cfg (st.base.packet cfg i buf ts) (.packet i buf ts)).packets,
      packet ∈ st.packets ∨ packet = ⟨i, accepted.writes⟩ := by
    intro packet hpacket
    rcases List.mem_append.mp hpacket with hpacket | hpacket
    · exact .inl hpacket
    · rw [List.mem_singleton.mp hpacket, hreaders, Function.update_self]
      exact .inr rfl
  constructor
  · intro j
    change ThreadInvariant cfg j ((st.base.packet cfg i buf ts).readers j)
    rw [hreaders]
    by_cases hj : j = i
    · rw [hj, Function.update_self]
      exact hthread
    · rw [Function.update_of_ne hj]
      exact h.threads j
  · intro j write hwrite
    change write ∈ ((st.base.packet cfg i buf ts).readers j).writes at hwrite
    by_cases hj : j = i
    · exact ⟨_, List.mem_append_right _ List.mem_cons_self, hj.symm, by rwa [hj] at hwrite⟩
    · rw [hreaders, Function.update_of_ne hj] at hwrite
      obtain ⟨packet, hpacket, hreader, hmem⟩ := h.planned j write hwrite
      exact ⟨packet, List.mem_append_left _ hpacket, hreader, hmem⟩
  · intro entry hentry
    change entry ∈ if _ then _ else _ at hentry
    change entry.2 < if _ then _ else _
    split_ifs at hentry ⊢
    · rcases List.mem_append.mp hentry with hentry | hentry
      · exact (h.cells_lt entry hentry).trans (Nat.lt_succ_self _)
      · rw [List.mem_singleton.mp hentry]
        exact Nat.lt_succ_self _
    · exact h.cells_lt entry hentry
  · change (List.map Prod.snd (if _ then _ else _)).Nodup
    split_ifs
    · exact nodup_cells_append h.cells h.cells_lt i
    · exact h.cells
  · intro j hstarted
    change ((st.base.packet cfg i buf ts).readers j).started = true at hstarted
    change (j, ((st.base.packet cfg i buf ts).readers j).cell) ∈ _
    rw [hreaders] at hstarted ⊢
    by_cases hj : j = i
    · rw [hj, Function.update_self]
      change (i, if _ then _ else _) ∈ if _ then _ else _
      split_ifs
      · exact List.mem_append_right _ List.mem_cons_self
      · exact h.cell hidle.1
    · rw [Function.update_of_ne hj] at hstarted ⊢
      exact hcells _ (h.cell hstarted)
  · intro packet hpacket
    change ((st.base.packet cfg i buf ts).readers packet.reader).started = true
    rw [hreaders]
    by_cases hj : packet.reader = i
    · rw [hj, Function.update_self]
      exact hidle.1
    · rw [Function.update_of_ne hj]
      rcases hnew packet hpacket with hold | rfl
      · exact h.started packet hold
      · exact absurd rfl hj
  · intro packet hpacket write hwrite
    rcases hnew packet hpacket with hold | rfl
    · exact (h.owned packet hold write hwrite).imp_left (hcells _)
    · exact ⟨hown write hwrite, (mem_accept_writes hplaced hfits hwrite).1⟩
  · intro packet hpacket write hwrite
    change write.last cfg ≤ ((st.base.packet cfg i buf ts).readers packet.reader).position cfg
    rw [hreaders]
    rcases hnew packet hpacket with hold | rfl
    · by_cases hj : packet.reader = i
      · rw [hj, Function.update_self]
        refine (h.behind packet hold write hwrite).trans ?_
        rw [hj]
        exact hforward.le
      · rw [Function.update_of_ne hj]
        exact h.behind packet hold write hwrite
    · rw [Function.update_self]
      exact (hbounds write hwrite).2
  · change (st.packets ++ [_]).Pairwise _
    rw [List.pairwise_append]
    refine ⟨h.ordered, List.pairwise_singleton _ _, ?_⟩
    intro earlier hearlier later hlater hsame one hone other hother
    rw [List.mem_singleton.mp hlater] at hsame hother
    rw [hreaders] at hother
    simp only [Function.update_self] at hother
    have hbehind := h.behind earlier hearlier one hone
    rw [hsame] at hbehind
    exact hbehind.trans (hbounds other hother).1

theorem LedgerInvariant.step (h : LedgerInvariant cfg st) {label : Label}
    (hfits : Fits cfg st.base label) (hstep : (ledger cfg).step st label = some next) :
    LedgerInvariant cfg next := by
  obtain ⟨base, hbase, rfl⟩ := Option.map_eq_some_iff.mp hstep
  cases label with
  | start i =>
      obtain ⟨⟨-, hnew⟩, rfl⟩ := step_start_iff.mp hbase
      exact h.start hnew
  | packet i buf ts =>
      obtain ⟨⟨-, hidle⟩, rfl⟩ := step_packet_iff.mp hbase
      exact h.packet hidle hfits
  | attempt i =>
      obtain ⟨write, rest, hwrites, -, rfl⟩ := step_attempt_iff.mp hbase
      have hid : (st.base.readers i).reader.threadId = i := (h.threads i).threadId
      cases hwritten : (st.base.buffer.writeBlock cfg.buffer i write.req).1 with
      | false =>
          refine h.keep rfl fun j => ?_
          simp only [State.attempt, hid, hwritten]
          exact ⟨h.threads j, rfl, rfl, rfl, fun _ => id⟩
      | true =>
          refine h.keep_update rfl ?_ ((h.threads i).pop hwrites) rfl rfl rfl ?_
          · simp only [State.attempt, hid, hwritten, if_true]
          · intro other hother
            rw [hwrites]
            exact List.mem_cons_of_mem _ hother
  | finish i =>
      obtain ⟨pending, -, -, -, rfl⟩ := step_finish_iff.mp hbase
      refine h.keep_update ?_ ?_ (h.threads i).finish rfl rfl rfl fun _ => id
      · rw [State.finish]
        cases pending.epilogue <;> rfl
      · rw [State.finish]
        cases pending.epilogue <;> rfl
  | dump k =>
      obtain ⟨slot, -, -, rfl⟩ := step_dump_iff.mp hbase
      exact h.keep rfl fun j => ⟨h.threads j, rfl, rfl, rfl, fun _ => id⟩
  | recycle slot =>
      obtain ⟨-, rfl⟩ := step_recycle_iff.mp hbase
      exact h.keep rfl fun j => ⟨h.threads j, rfl, rfl, rfl, fun _ => id⟩

/-! ## Ranges do not overlap -/

/-- Cells of one lap have their own ranges on the disk. -/
theorem apart_of_cell_ne {one other : PendingWrite}
    (hone : DPDKReader.InCell cfg.reader one.cell one.req)
    (hother : DPDKReader.InCell cfg.reader other.cell other.req)
    (hlap : one.cell / cfg.cellNum = other.cell / cfg.cellNum) (hne : one.cell ≠ other.cell) :
    Apart one other := by
  obtain ⟨offset, -, hpos, hend⟩ := hone
  obtain ⟨otherOffset, -, hotherPos, hotherEnd⟩ := hother
  have hmod : one.cell % cfg.cellNum ≠ other.cell % cfg.cellNum := by
    intro heq
    refine hne ?_
    rw [← Nat.div_add_mod one.cell cfg.cellNum, hlap, heq, Nat.div_add_mod]
  unfold Apart
  rw [hpos, hotherPos, ReaderConfig.posIn, ReaderConfig.posIn]
  rcases Nat.lt_or_gt_of_ne hmod with hlt | hgt
  · left
    have hcells := Nat.mul_le_mul_right cfg.cellSize (Nat.succ_le_of_lt hlt)
    rw [Nat.succ_mul] at hcells
    change one.cell % cfg.cellNum * cfg.cellSize + offset + _ ≤
      other.cell % cfg.cellNum * cfg.cellSize + otherOffset
    change offset + _ ≤ cfg.cellSize at hend
    omega
  · right
    have hcells := Nat.mul_le_mul_right cfg.cellSize (Nat.succ_le_of_lt hgt)
    rw [Nat.succ_mul] at hcells
    change other.cell % cfg.cellNum * cfg.cellSize + otherOffset + _ ≤
      one.cell % cfg.cellNum * cfg.cellSize + offset
    change otherOffset + _ ≤ cfg.cellSize at hotherEnd
    omega

/-- In one cell the write that comes later lies behind. -/
theorem apart_of_cell_eq {one other : PendingWrite}
    (hone : DPDKReader.InCell cfg.reader one.cell one.req)
    (hother : DPDKReader.InCell cfg.reader other.cell other.req)
    (hcell : one.cell = other.cell) (hle : one.last cfg ≤ other.first cfg) : Apart one other := by
  obtain ⟨offset, hlt, hpos, -⟩ := hone
  obtain ⟨otherOffset, hotherLt, hotherPos, -⟩ := hother
  unfold PendingWrite.last PendingWrite.first at hle
  rw [hcell, hpos, hotherPos] at hle
  have hmod := @ReaderConfig.posIn_mod cfg.reader one.cell offset hlt
  have hotherMod := @ReaderConfig.posIn_mod cfg.reader other.cell otherOffset hotherLt
  change other.cell * cfg.cellSize + cfg.reader.posIn one.cell offset % cfg.reader.cellSize + _ ≤
    other.cell * cfg.cellSize +
      cfg.reader.posIn other.cell otherOffset % cfg.reader.cellSize at hle
  rw [hmod, hotherMod] at hle
  left
  rw [hpos, hotherPos, hcell, ReaderConfig.posIn, ReaderConfig.posIn]
  omega

/-- A cell has one owner. -/
theorem eq_of_mem_cells {cells : List (ℕ × ℕ)} (hnodup : (cells.map Prod.snd).Nodup)
    {reader other cell : ℕ} (hone : (reader, cell) ∈ cells) (hother : (other, cell) ∈ cells) :
    reader = other :=
  congrArg Prod.fst (List.inj_on_of_nodup_map hnodup hone hother rfl)

theorem LedgerInvariant.apart (h : LedgerInvariant cfg st) :
    st.packets.Pairwise fun earlier later => ∀ one ∈ earlier.writes,
      ∀ other ∈ later.writes, one.cell / cfg.cellNum = other.cell / cfg.cellNum →
        Apart one other := by
  refine h.ordered.imp_of_mem ?_
  intro earlier later hearlier hlater hordered one hone other hother hlap
  obtain ⟨honeCell, honeIn⟩ := h.owned earlier hearlier one hone
  obtain ⟨hotherCell, hotherIn⟩ := h.owned later hlater other hother
  by_cases hcell : one.cell = other.cell
  · have hreader : earlier.reader = later.reader :=
      eq_of_mem_cells h.cells honeCell (hcell ▸ hotherCell)
    exact apart_of_cell_eq honeIn hotherIn hcell (hordered hreader one hone other hother)
  · exact apart_of_cell_ne honeIn hotherIn hlap hcell

/-- **Every packet's bytes are its own**, if the cells have room for their tails and
every packet of a run fits, those of no known protocol in what is left of the cell. -/
theorem ledger_tidy (htail : cellTailLen ≤ cfg.cellSize)
    (hreach : (ledger cfg).Reachable (fun st => Fits cfg st.base) st) : Tidy cfg st := by
  have h : LedgerInvariant cfg st :=
    hreach.invariant (LedgerInvariant cfg) ledgerInvariant_init
      fun h hfits hstep => h.step hfits hstep
  exact {
    idle := fun i _ hidle => ((h.threads i).placed hidle.1 htail).offset_le
    planned := h.planned
    cells := h.cells
    owned := h.owned
    ordered := h.ordered
    apart := h.apart }

theorem ledger_tidy_waiting : ∃ st : Ledger, st.packets.length = 3 ∧ Tidy oneReader st := by
  have hrun : ∃ st, (ledger oneReader).Reachable (fun st => Fits oneReader st.base) st ∧
      st.packets.length = 3 :=
    (ledger oneReader).exists_reachable waitingRun _ (by decide +kernel) (by decide +kernel)
  obtain ⟨st, hreach, hlen⟩ := hrun
  exact ⟨st, hlen, ledger_tidy (by decide) hreach⟩

/-- The ledger is there for every run of the data path. -/
theorem exists_ledger {base : State} (hreach : (system cfg).Reachable (Fits cfg) base) :
    ∃ st, (ledger cfg).Reachable (fun st => Fits cfg st.base) st ∧ st.base = base := by
  induction hreach with
  | init => exact ⟨_, .init, rfl⟩
  | @step base next label _ hfits hstep ih =>
      obtain ⟨st, hledger, rfl⟩ := ih
      have hnext : (ledger cfg).step st label = some (st.note cfg next label) := by
        change (DataPath.step cfg st.base label).map _ = _
        rw [show DataPath.step cfg st.base label = some next from hstep]
        rfl
      refine ⟨_, hledger.step hfits hnext, ?_⟩
      cases label <;> rfl

/-- A packet of no known protocol that does not fit moves the cursor past the
cell's tail, and the reader goes on. -/
theorem not_tidy_of_splits (hi : i < cfg.nbRx) (hidle : (st.base.readers i).Idle)
    (hnon : DPDKReader.NonIP cfg.reader (ReaderThread.packet cfg buf ts))
    (hsplits : DPDKReader.Splits cfg.reader (st.base.readers i).reader
      (ReaderThread.packet cfg buf ts)) :
    ¬ Tidy cfg (st.note cfg (st.base.packet cfg i buf ts) (.packet i buf ts)) := by
  intro htidy
  obtain ⟨hwrites, hepilogue, -, -⟩ :=
    ReaderThread.accept_of_nonIP (st.base.readers i) st.base.diskWriteCell hnon
  have hreader : (st.base.packet cfg i buf ts).readers i =
      (st.base.readers i).accept cfg buf ts st.base.diskWriteCell := Function.update_self ..
  have hnext := htidy.idle i hi
  change ((st.base.packet cfg i buf ts).readers i).Idle →
    ((st.base.packet cfg i buf ts).readers i).reader.writeOffset + cellTailLen ≤ _ at hnext
  rw [hreader] at hnext
  have hcursor : ((st.base.readers i).accept cfg buf ts st.base.diskWriteCell).reader.writeOffset =
      (st.base.readers i).reader.writeOffset + pcapHeaderLen +
        (ReaderThread.packet cfg buf ts).len + cellTailLen := by
    change ((st.base.readers i).reader.handlePacket cfg.reader (ReaderThread.packet cfg buf ts) ts
      st.base.diskWriteCell).reader.writeOffset = _
    rw [DPDKReader.handlePacket_of_nonIP hnon, DPDKReader.getOffset_writeOffset, if_pos hsplits]
  have hle := hnext ⟨hidle.1, hwrites, by rw [hepilogue]; rfl⟩
  rw [hcursor] at hle
  unfold DPDKReader.Splits at hsplits
  change cfg.cellSize < _ at hsplits
  omega

/-- Every packet received is small enough for a cell. -/
def SmallPackets (cfg : DataPathConfig) (_ : Ledger) : Label → Prop
  | .packet _ buf ts =>
      pcapHeaderLen + (ReaderThread.packet cfg buf ts).len + cellTailLen ≤ cfg.cellSize
  | _ => True

instance : ∀ st label, Decidable (SmallPackets cfg st label)
  | _, .packet _ _ _ => inferInstanceAs (Decidable (_ ≤ _))
  | _, .start _ | _, .attempt _ | _, .finish _ | _, .dump _ | _, .recycle _ => .isTrue trivial

/-- A packet of `len` bytes of no known protocol. -/
def otherPacket (len : ℕ) : Mbuf := { data := fun _ => 0, dataLen := 14 + len }

/-- Reader 1 stores a packet in its cell 1; reader 0 drops two packets. -/
def droppingRun : List Label :=
  [.start 0, .start 1, .packet 1 (ipv4Packet 20) 0, .packet 0 (otherPacket 20) 0,
    .packet 0 (otherPacket 20) 0]

/-- With packets that are all small enough: after two dropped packets the cursor of
an idle reader is past its cell, and its next packet lies where one of the other
reader is. -/
theorem ledger_overlap :
    (∃ st, (ledger twoReaders).Reachable (SmallPackets twoReaders) st ∧
      (st.base.readers 0).Idle ∧
      twoReaders.cellSize < (st.base.readers 0).reader.writeOffset + cellTailLen) ∧
    ∃ st, (ledger twoReaders).Reachable (SmallPackets twoReaders) st ∧
      ∃ packet ∈ st.packets, ∃ other ∈ st.packets, packet.reader ≠ other.reader ∧
        ∃ one ∈ packet.writes, ∃ two ∈ other.writes,
          one.cell / twoReaders.cellNum = two.cell / twoReaders.cellNum ∧ ¬ Apart one two := by
  constructor
  · exact (ledger twoReaders).exists_reachable droppingRun _ (by decide +kernel)
      (by decide +kernel)
  · exact (ledger twoReaders).exists_reachable
      (droppingRun ++ [.packet 0 (ipv4Packet 40) 0]) _ (by decide +kernel) (by decide +kernel)

end DataPath

end TrafficDatabase
