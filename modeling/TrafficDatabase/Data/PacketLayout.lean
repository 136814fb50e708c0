import TrafficDatabase.Data.DPDKReader

/-!
# Where the writes of a packet fall

A reader is `Placed` in a cell when its cursor leaves the cell's tail free.  It
then stays placed from packet to packet (`handlePacket_placed`), as long as
packets fit, and every write it makes for a packet lies inside the cell the
packet starts in or inside the new cell it was given (`inCell_of_mem_inCell`,
`inCell_of_mem_inNewCell`).  Only the write of the cell's tail reaches the end
of a cell, and a packet that makes it takes a new cell.
-/

namespace TrafficDatabase

/-- The disk is a whole number of cells. -/
structure ReaderConfig.Aligned (cfg : ReaderConfig) : Prop where
  cellSize_pos : 0 < cfg.cellSize
  cellNum_pos : 0 < cfg.cellNum
  diskSize_eq : cfg.diskSize = cfg.cellNum * cfg.cellSize

/-- The disk position of a byte of a cell. -/
def ReaderConfig.posIn (cfg : ReaderConfig) (cell offset : ℕ) : ℕ :=
  cell % cfg.cellNum * cfg.cellSize + offset

theorem ReaderConfig.posIn_mod {cfg : ReaderConfig} {cell offset : ℕ} (h : offset < cfg.cellSize) :
    cfg.posIn cell offset % cfg.cellSize = offset := by
  rw [posIn, Nat.mul_add_mod_self_right, Nat.mod_eq_of_lt h]

theorem ReaderConfig.posIn_add (cfg : ReaderConfig) (cell offset count : ℕ) :
    cfg.posIn cell offset + count = cfg.posIn cell (offset + count) := by
  rw [posIn, posIn, Nat.add_assoc]

theorem ReaderConfig.Aligned.add_mod {cfg : ReaderConfig} (haligned : cfg.Aligned)
    {cell offset : ℕ} (h : offset < cfg.cellSize) :
    (offset + cell * cfg.cellSize) % cfg.diskSize = cfg.posIn cell offset := by
  rw [haligned.diskSize_eq, Nat.mul_comm cfg.cellNum, Nat.mod_mul,
    Nat.add_mul_mod_self_right, Nat.mod_eq_of_lt h, Nat.add_mul_div_right _ _ haligned.cellSize_pos,
    Nat.div_eq_of_lt h, Nat.zero_add, posIn, Nat.mul_comm, Nat.add_comm]

namespace DPDKReader

variable (cfg : ReaderConfig)

/-- The reader fills the cell numbered `cell` and has left its tail free. -/
structure Placed (reader : DPDKReader) (cell : ℕ) : Prop where
  cell_mod : reader.writeCell % cfg.cellNum = cell % cfg.cellNum
  offset_le : reader.writeOffset + cellTailLen ≤ cfg.cellSize

theorem Placed.offset_lt {cfg : ReaderConfig} {reader : DPDKReader} {cell : ℕ}
    (h : Placed cfg reader cell) : reader.writeOffset < cfg.cellSize := by
  have hle := h.offset_le
  have : 0 < cellTailLen := by decide
  omega

/-- The packet fits in a cell, and in what is left of the reader's cell if it is
going to be dropped after its bytes have been reserved. -/
def Fits (reader : DPDKReader) (packet : PacketMeta) : Prop :=
  pcapHeaderLen + packet.len + cellTailLen ≤ cfg.cellSize ∧
    (NonIP cfg packet →
      reader.writeOffset + pcapHeaderLen + packet.len + cellTailLen ≤ cfg.cellSize)

instance (reader : DPDKReader) (packet : PacketMeta) : Decidable (Fits cfg reader packet) :=
  inferInstanceAs (Decidable (_ ∧ _))

/-- The packet does not fit before the tail of the reader's cell. -/
def Splits (reader : DPDKReader) (packet : PacketMeta) : Prop :=
  cfg.cellSize < reader.writeOffset + pcapHeaderLen + packet.len + cellTailLen

instance (reader : DPDKReader) (packet : PacketMeta) : Decidable (Splits cfg reader packet) :=
  inferInstanceAs (Decidable (_ < _))

/-- What is left of the reader's cell before its tail. -/
def room (reader : DPDKReader) : ℕ := cfg.cellSize - reader.writeOffset - cellTailLen

/-- The write lies in the cell. -/
def InCell (cell : ℕ) (req : WriteRequest) : Prop :=
  ∃ offset < cfg.cellSize, req.diskPos = cfg.posIn cell offset ∧
    offset + req.data.length ≤ cfg.cellSize

/-- The write reaches the end of its cell. -/
def EndsCell (req : WriteRequest) : Prop :=
  req.diskPos % cfg.cellSize + req.data.length = cfg.cellSize

variable {cfg} {reader : DPDKReader} {packet : PacketMeta} {cell fetched ts : ℕ} {newIndex : Bool}

theorem inCell_mk {offset : ℕ} {req : WriteRequest} (hlt : offset < cfg.cellSize)
    (hpos : req.diskPos = cfg.posIn cell offset) (hle : offset + req.data.length ≤ cfg.cellSize) :
    InCell cfg cell req := ⟨offset, hlt, hpos, hle⟩

theorem endsCell_iff {offset : ℕ} {req : WriteRequest} (hlt : offset < cfg.cellSize)
    (hpos : req.diskPos = cfg.posIn cell offset) :
    EndsCell cfg req ↔ offset + req.data.length = cfg.cellSize := by
  rw [EndsCell, hpos, ReaderConfig.posIn_mod hlt]

@[simp] theorem length_payload : (payload cfg packet).length = packet.len := by simp [payload]

/-! ## The reader after a packet -/

theorem getOffset_fst (haligned : cfg.Aligned) (hplaced : Placed cfg reader cell) (len : ℕ) :
    (reader.getOffset cfg len).1 = cfg.posIn cell reader.writeOffset := by
  have hlt := hplaced.offset_lt
  rw [getOffset, haligned.add_mod hlt, ReaderConfig.posIn, hplaced.cell_mod, ReaderConfig.posIn]

theorem getOffset_writeOffset : (reader.getOffset cfg packet.len).2.writeOffset =
    if Splits cfg reader packet then
      reader.writeOffset + pcapHeaderLen + packet.len + cellTailLen
    else reader.writeOffset + pcapHeaderLen + packet.len := by
  by_cases h : Splits cfg reader packet
  · rw [if_pos h, getOffset]
    rw [Splits] at h
    simp only
    rw [if_pos (by omega)]
    omega
  · rw [if_neg h, getOffset]
    rw [Splits] at h
    simp only
    rw [if_neg (by omega)]
    omega

theorem needsCell_iff : NeedsCell cfg (reader.getOffset cfg packet.len).2 ↔
    Splits cfg reader packet := by
  have : 0 < cellTailLen := by decide
  rw [NeedsCell, getOffset_writeOffset]
  split_ifs with h
  · exact iff_of_true h h
  · refine iff_of_false ?_ h
    rw [Splits] at h
    omega

variable (cfg reader packet ts fetched) in
/-- The writes of a packet that is stored, by its layout. -/
def storedWrites (cell : ℕ) (newIndex : Bool) : CellWrites :=
  let offset := cfg.posIn cell reader.writeOffset
  if Splits cfg reader packet then
    if pcapHeaderLen > room cfg reader then
      headerSplitWrites cfg packet ts offset (cfg.posIn fetched 0) (room cfg reader)
        (fetched % cfg.cellNum) newIndex
    else
      payloadSplitWrites cfg packet ts offset (cfg.posIn fetched 0) (room cfg reader)
        (fetched % cfg.cellNum) newIndex
  else wholeWrites cfg packet ts offset newIndex

/-- The writes depend only on the cursor before and after `getOffset`. -/
theorem writePacketToPacketBuffer_snd (hplaced : Placed cfg reader cell) {reserved : DPDKReader}
    (hreserved : reserved.writeOffset = (reader.getOffset cfg packet.len).2.writeOffset) :
    (reserved.writePacketToPacketBuffer cfg packet ts (cfg.posIn cell reader.writeOffset) newIndex
        fetched).2 =
      storedWrites cfg reader packet fetched ts cell newIndex := by
  have hlt := hplaced.offset_lt
  have hneeds : NeedsCell cfg reserved ↔ Splits cfg reader packet := by
    rw [NeedsCell, hreserved]
    exact needsCell_iff
  have htmp : cfg.cellSize - cfg.posIn cell reader.writeOffset % cfg.cellSize - cellTailLen =
      room cfg reader := by
    rw [room, ReaderConfig.posIn_mod hlt]
  rw [writePacketToPacketBuffer, storedWrites, htmp]
  by_cases hs : Splits cfg reader packet
  · rw [if_pos hs, if_pos (hneeds.mpr hs)]
    rfl
  · rw [if_neg hs, if_neg fun hn => hs (hneeds.mp hn)]

/-- In a new cell the cursor moves past the rest of the packet. -/
theorem writePacketToPacketBuffer_writeOffset_of_splits (hplaced : Placed cfg reader cell)
    {reserved : DPDKReader} {offset : ℕ}
    (hfit : pcapHeaderLen + packet.len + cellTailLen ≤ cfg.cellSize)
    (hreserved : reserved.writeOffset = (reader.getOffset cfg packet.len).2.writeOffset)
    (hs : Splits cfg reader packet) :
    (reserved.writePacketToPacketBuffer cfg packet ts offset newIndex fetched).1.writeOffset =
      reader.writeOffset + pcapHeaderLen + packet.len + cellTailLen - cfg.cellSize := by
  have hlt := hplaced.offset_lt
  have hle := hplaced.offset_le
  have hneeds : NeedsCell cfg reserved := by
    rw [NeedsCell, hreserved]
    exact needsCell_iff.mpr hs
  have hcursor : reserved.writeOffset =
      cfg.cellSize + (reader.writeOffset + pcapHeaderLen + packet.len + cellTailLen -
        cfg.cellSize) := by
    rw [hreserved, getOffset_writeOffset, if_pos hs]
    rw [Splits] at hs
    omega
  rw [writePacketToPacketBuffer, if_pos hneeds]
  change reserved.writeOffset % cfg.cellSize = _
  rw [hcursor, Nat.add_mod_left, Nat.mod_eq_of_lt (by omega)]

/-- The reader goes on in the cell it was given, right after the packet. -/
theorem writePacketToPacketBuffer_placed (hplaced : Placed cfg reader cell)
    {reserved : DPDKReader} {offset : ℕ}
    (hfit : pcapHeaderLen + packet.len + cellTailLen ≤ cfg.cellSize)
    (hcell : reserved.writeCell = reader.writeCell)
    (hreserved : reserved.writeOffset = (reader.getOffset cfg packet.len).2.writeOffset) :
    Placed cfg
      (reserved.writePacketToPacketBuffer cfg packet ts offset newIndex fetched).1
      (if Splits cfg reader packet then fetched else cell) := by
  have hle := hplaced.offset_le
  have hneeds : NeedsCell cfg reserved ↔ Splits cfg reader packet := by
    rw [NeedsCell, hreserved]
    exact needsCell_iff
  by_cases hs : Splits cfg reader packet
  · refine ⟨?_, ?_⟩
    · rw [if_pos hs, writePacketToPacketBuffer, if_pos (hneeds.mpr hs)]
      exact Nat.mod_mod _ _
    · rw [writePacketToPacketBuffer_writeOffset_of_splits hplaced hfit hreserved hs]
      omega
  · rw [if_neg hs, writePacketToPacketBuffer, if_neg fun hn => hs (hneeds.mp hn)]
    refine ⟨by rw [hcell, hplaced.cell_mod], ?_⟩
    rw [hreserved, getOffset_writeOffset, if_neg hs]
    rw [Splits] at hs
    omega

theorem writePacketToPacketBuffer_writeOffset {offset : ℕ} (h : ¬ NeedsCell cfg reader) :
    (reader.writePacketToPacketBuffer cfg packet ts offset newIndex fetched).1.writeOffset =
      reader.writeOffset := by
  rw [writePacketToPacketBuffer, if_neg h]

@[simp] theorem writePacketToPacketBuffer_rxId (offset : ℕ) :
    (reader.writePacketToPacketBuffer cfg packet ts offset newIndex fetched).1.rxId =
      reader.rxId := by
  rw [writePacketToPacketBuffer]
  split <;> rfl

@[simp] theorem writePacketToPacketBuffer_threadId (offset : ℕ) :
    (reader.writePacketToPacketBuffer cfg packet ts offset newIndex fetched).1.threadId =
      reader.threadId := by
  rw [writePacketToPacketBuffer]
  split <;> rfl

@[simp] theorem writePacketToPacketBuffer_packetAggregator (offset : ℕ) :
    (reader.writePacketToPacketBuffer cfg packet ts offset newIndex fetched).1.packetAggregator =
      reader.packetAggregator := by
  rw [writePacketToPacketBuffer]
  split <;> rfl

/-! ## The writes of a packet lie in its cells -/

/-- A write of the packet in the cell it starts in. -/
theorem storedWrites_inCell (hplaced : Placed cfg reader cell) {req : WriteRequest}
    (hreq : req ∈ (storedWrites cfg reader packet fetched ts cell newIndex).inCell) :
    InCell cfg cell req ∧ (EndsCell cfg req → Splits cfg reader packet) := by
  have hle := hplaced.offset_le
  have htail : 0 < cellTailLen := by decide
  have hheader : 0 < pcapHeaderLen := by decide
  rw [storedWrites] at hreq
  by_cases hs : Splits cfg reader packet
  · refine ⟨?_, fun _ => hs⟩
    rw [if_pos hs] at hreq
    -- the tail is the last piece of either layout
    have htailIn : ∀ {data : List UInt8} {newData newIndex : Bool}, data.length = cellTailLen →
        InCell cfg cell ⟨data, cfg.posIn cell reader.writeOffset + room cfg reader, newData,
          newIndex, ts⟩ := by
      intro data newData newIndex hlen
      refine inCell_mk (show reader.writeOffset + room cfg reader < _ from ?_)
        (cfg.posIn_add ..) ?_
      · rw [room]
        omega
      · simp only [room, hlen]
        omega
    by_cases hh : pcapHeaderLen > room cfg reader
    · rw [if_pos hh] at hreq
      simp only [headerSplitWrites, List.mem_append, List.mem_singleton] at hreq
      rcases hreq with hreq | rfl
      · split_ifs at hreq with hzero
        · simp only [List.mem_singleton] at hreq
          subst hreq
          refine inCell_mk hplaced.offset_lt rfl ?_
          simp only [List.length_take, ArrayListHeader.length_bytes, room]
          omega
        · simp at hreq
      · exact htailIn (by simp)
    · rw [if_neg hh] at hreq
      simp only [payloadSplitWrites, List.mem_append, List.mem_singleton] at hreq
      rcases hreq with (rfl | hreq) | rfl
      · refine inCell_mk hplaced.offset_lt rfl ?_
        simp only [ArrayListHeader.length_bytes]
        rw [room] at hh
        omega
      · split_ifs at hreq with hmore
        · simp only [List.mem_singleton] at hreq
          subst hreq
          rw [room] at hmore
          refine inCell_mk (show reader.writeOffset + pcapHeaderLen < _ by omega)
            (cfg.posIn_add ..) ?_
          simp only [Memory.length_read, room]
          omega
        · simp at hreq
      · exact htailIn (by simp)
  · rw [if_neg hs] at hreq
    rw [Splits] at hs
    simp only [wholeWrites, List.mem_cons, List.not_mem_nil, or_false] at hreq
    rcases hreq with rfl | rfl
    · refine ⟨inCell_mk hplaced.offset_lt rfl ?_, fun hends => ?_⟩
      · simp only [ArrayListHeader.length_bytes]
        omega
      · rw [endsCell_iff hplaced.offset_lt rfl] at hends
        simp only [ArrayListHeader.length_bytes] at hends
        omega
    · have hlt : reader.writeOffset + pcapHeaderLen < cfg.cellSize := by omega
      refine ⟨inCell_mk hlt (cfg.posIn_add ..) ?_, fun hends => ?_⟩
      · simp only [length_payload]
        omega
      · rw [endsCell_iff hlt (cfg.posIn_add ..)] at hends
        simp only [length_payload] at hends
        omega

/-- A write of the packet in the new cell. -/
theorem storedWrites_inNewCell (hplaced : Placed cfg reader cell)
    (hfit : pcapHeaderLen + packet.len + cellTailLen ≤ cfg.cellSize) {req : WriteRequest}
    (hreq : req ∈ (storedWrites cfg reader packet fetched ts cell newIndex).inNewCell) :
    Splits cfg reader packet ∧ InCell cfg fetched req ∧ ¬ EndsCell cfg req := by
  have hle := hplaced.offset_le
  have htail : 0 < cellTailLen := by decide
  have hheader : 0 < pcapHeaderLen := by decide
  -- whatever starts before the end of the header and leaves the tail free
  have hin : ∀ (offset : ℕ) {req : WriteRequest}, req.diskPos = cfg.posIn fetched offset →
      offset + req.data.length + cellTailLen ≤ cfg.cellSize →
      InCell cfg fetched req ∧ ¬ EndsCell cfg req := by
    intro offset req hpos hlen
    have hlt : offset < cfg.cellSize := by omega
    refine ⟨inCell_mk hlt hpos (by omega), fun hends => ?_⟩
    rw [endsCell_iff hlt hpos] at hends
    omega
  rw [storedWrites] at hreq
  by_cases hs : Splits cfg reader packet
  · refine ⟨hs, ?_⟩
    rw [if_pos hs] at hreq
    rw [Splits] at hs
    by_cases hh : pcapHeaderLen > room cfg reader
    · rw [if_pos hh] at hreq
      simp only [headerSplitWrites, List.mem_cons, List.not_mem_nil, or_false] at hreq
      rcases hreq with rfl | rfl
      · split_ifs with hzero
        · refine hin 0 rfl ?_
          simp only [ArrayListHeader.length_bytes]
          omega
        · refine hin 0 rfl ?_
          simp only [List.length_drop, ArrayListHeader.length_bytes]
          omega
      · refine hin (pcapHeaderLen - room cfg reader) ?_ ?_
        · simp only [ReaderConfig.posIn]
          omega
        · simp only [length_payload]
          omega
    · rw [if_neg hh] at hreq
      simp only [payloadSplitWrites, List.mem_singleton] at hreq
      subst hreq
      refine hin 0 rfl ?_
      simp only [Memory.length_read]
      omega
  · rw [if_neg hs] at hreq
    simp [wholeWrites] at hreq

/-- In the old cell a packet's writes start at the reader's cursor; if they are all,
they end where the packet does. -/
theorem storedWrites_inCell_bounds (hplaced : Placed cfg reader cell) {req : WriteRequest}
    (hreq : req ∈ (storedWrites cfg reader packet fetched ts cell newIndex).inCell) :
    reader.writeOffset ≤ req.diskPos % cfg.cellSize ∧
      (¬ Splits cfg reader packet → req.diskPos % cfg.cellSize + req.data.length ≤
        reader.writeOffset + pcapHeaderLen + packet.len) := by
  have hle := hplaced.offset_le
  have htail : 0 < cellTailLen := by decide
  have hheader : 0 < pcapHeaderLen := by decide
  -- a write that begins in the cell is at its offset there
  have hmod : ∀ {offset : ℕ}, offset < cfg.cellSize → req.diskPos = cfg.posIn cell offset →
      req.diskPos % cfg.cellSize = offset := by
    intro offset hlt hpos
    rw [hpos, ReaderConfig.posIn_mod hlt]
  have hstart : ∀ {extra : ℕ}, req.diskPos = cfg.posIn cell reader.writeOffset + extra →
      reader.writeOffset + extra < cfg.cellSize →
      req.diskPos % cfg.cellSize = reader.writeOffset + extra :=
    fun hpos hlt => hmod hlt (hpos.trans (cfg.posIn_add ..))
  rw [storedWrites] at hreq
  by_cases hs : Splits cfg reader packet
  · refine ⟨?_, fun hno => absurd hs hno⟩
    rw [if_pos hs] at hreq
    by_cases hh : pcapHeaderLen > room cfg reader
    · rw [if_pos hh] at hreq
      simp only [headerSplitWrites, List.mem_append, List.mem_singleton] at hreq
      rcases hreq with hreq | rfl
      · split_ifs at hreq with hzero
        · rw [List.mem_singleton.mp hreq] at hmod ⊢
          exact (hmod hplaced.offset_lt rfl).ge
        · simp at hreq
      · rw [hstart rfl (by rw [room]; omega)]
        omega
    · rw [if_neg hh] at hreq
      simp only [payloadSplitWrites, List.mem_append, List.mem_singleton] at hreq
      rcases hreq with (rfl | hreq) | rfl
      · exact (hmod hplaced.offset_lt rfl).ge
      · split_ifs at hreq with hmore
        · rw [List.mem_singleton.mp hreq] at hstart ⊢
          rw [room] at hmore
          rw [hstart rfl (by omega)]
          omega
        · simp at hreq
      · rw [hstart rfl (by rw [room]; omega)]
        omega
  · rw [if_neg hs] at hreq
    rw [Splits] at hs
    simp only [wholeWrites, List.mem_cons, List.not_mem_nil, or_false] at hreq
    rcases hreq with rfl | rfl
    · rw [hmod hplaced.offset_lt rfl]
      simp only [ArrayListHeader.length_bytes]
      omega
    · rw [hstart rfl (by omega)]
      simp only [length_payload]
      omega

/-- In the new cell they end where the rest of the packet does. -/
theorem storedWrites_inNewCell_end (hplaced : Placed cfg reader cell)
    (hfit : pcapHeaderLen + packet.len + cellTailLen ≤ cfg.cellSize) {req : WriteRequest}
    (hreq : req ∈ (storedWrites cfg reader packet fetched ts cell newIndex).inNewCell) :
    req.diskPos % cfg.cellSize + req.data.length ≤
      reader.writeOffset + pcapHeaderLen + packet.len + cellTailLen - cfg.cellSize := by
  have hle := hplaced.offset_le
  have htail : 0 < cellTailLen := by decide
  have hheader : 0 < pcapHeaderLen := by decide
  have hmod : ∀ {offset : ℕ}, offset < cfg.cellSize → req.diskPos = cfg.posIn fetched offset →
      req.diskPos % cfg.cellSize = offset := by
    intro offset hlt hpos
    rw [hpos, ReaderConfig.posIn_mod hlt]
  rw [storedWrites] at hreq
  by_cases hs : Splits cfg reader packet
  · rw [if_pos hs] at hreq
    rw [Splits] at hs
    by_cases hh : pcapHeaderLen > room cfg reader
    · rw [if_pos hh] at hreq
      rw [room] at hh
      simp only [headerSplitWrites, List.mem_cons, List.not_mem_nil, or_false] at hreq
      rcases hreq with hreq | rfl
      · split_ifs at hreq with hzero
        · rw [hreq] at hmod ⊢
          rw [hmod (show 0 < cfg.cellSize by omega) rfl]
          simp only [ArrayListHeader.length_bytes]
          rw [room] at hzero
          omega
        · rw [hreq] at hmod ⊢
          rw [hmod (show 0 < cfg.cellSize by omega) rfl]
          simp only [List.length_drop, ArrayListHeader.length_bytes, room]
          omega
      · have hlt : pcapHeaderLen - room cfg reader < cfg.cellSize := by omega
        have hpos : cfg.posIn fetched 0 + pcapHeaderLen - room cfg reader =
            cfg.posIn fetched (pcapHeaderLen - room cfg reader) := by
          simp only [ReaderConfig.posIn, room]
          omega
        rw [hmod hlt hpos]
        simp only [length_payload, room]
        omega
    · rw [if_neg hh] at hreq
      rw [room] at hh
      simp only [payloadSplitWrites, List.mem_singleton] at hreq
      rw [hreq] at hmod ⊢
      rw [hmod (show 0 < cfg.cellSize by omega) rfl]
      simp only [Memory.length_read, room]
      omega
  · rw [if_neg hs] at hreq
    simp [wholeWrites] at hreq

theorem storedWrites_inCell_ne_nil :
    (storedWrites cfg reader packet fetched ts cell newIndex).inCell ≠ [] := by
  rw [storedWrites]
  split_ifs <;> simp [headerSplitWrites, payloadSplitWrites, wholeWrites]

theorem storedWrites_newData {req : WriteRequest}
    (hreq : req ∈ (storedWrites cfg reader packet fetched ts cell newIndex).all) :
    req.newData = true := by
  rw [storedWrites] at hreq
  split_ifs at hreq <;>
    simp only [CellWrites.all, headerSplitWrites, payloadSplitWrites, wholeWrites, List.mem_append,
      List.mem_cons, List.not_mem_nil, or_false] at hreq
  all_goals aesop

/-! ## The plan for a packet -/

/-- The offset a packet at `offset` is linked to, if it is linked. -/
def link (cfg : ReaderConfig) (reader : DPDKReader) (packet : PacketMeta) (offset ts : ℕ) :
    Option ℕ :=
  (reader.packetAggregator.addPacket (getFlowMetaData cfg packet) offset ts cfg.diskSize).1

theorem handlePacket_of_nonIP (h : NonIP cfg packet) :
    reader.handlePacket cfg packet ts fetched =
      { reader := (reader.getOffset cfg packet.len).2
        takesCell := false
        writes := ⟨[], []⟩
        epilogue := none } := by
  rw [handlePacket]
  exact if_pos h

theorem handlePacket_packetAggregator_of_nonIP (h : NonIP cfg packet) :
    (reader.handlePacket cfg packet ts fetched).reader.packetAggregator =
      reader.packetAggregator := by
  rw [handlePacket_of_nonIP h]
  rfl

/-- What the run loop does with a packet that is stored. -/
structure StoredPlan (cfg : ReaderConfig) (reader : DPDKReader) (packet : PacketMeta)
    (ts fetched cell : ℕ) (plan : PacketPlan) : Prop where
  takesCell : plan.takesCell = decide (Splits cfg reader packet)
  writes : plan.writes = storedWrites cfg reader packet fetched ts cell
    (link cfg reader packet (cfg.posIn cell reader.writeOffset) ts).isNone
  epilogue : plan.epilogue =
    some (match link cfg reader packet (cfg.posIn cell reader.writeOffset) ts with
      | some last =>
          .writeBefore
            (writeBefore (calDiff cfg (cfg.posIn cell reader.writeOffset) last % 2 ^ 32) last)
      | none =>
          .writeIndexToRing (reader.writeIndexToRing cfg (cfg.posIn cell reader.writeOffset)
            (getFlowMetaData cfg packet) ts))
  aggregator : plan.reader.packetAggregator =
    (reader.packetAggregator.addPacket (getFlowMetaData cfg packet)
      (cfg.posIn cell reader.writeOffset) ts cfg.diskSize).2

theorem handlePacket_of_ip (haligned : cfg.Aligned) (hplaced : Placed cfg reader cell)
    (h : ¬ NonIP cfg packet) :
    StoredPlan cfg reader packet ts fetched cell (reader.handlePacket cfg packet ts fetched) := by
  have hoffset := getOffset_fst haligned hplaced packet.len
  rw [handlePacket, if_neg h, hoffset]
  constructor
  · simp only [needsCell_iff]
  · exact writePacketToPacketBuffer_snd hplaced rfl
  · simp only [writeIndexToRing, writePacketToPacketBuffer_rxId]
    rfl
  · simp only [writePacketToPacketBuffer_packetAggregator]
    rfl

@[simp] theorem handlePacket_threadId :
    (reader.handlePacket cfg packet ts fetched).reader.threadId = reader.threadId := by
  rw [handlePacket]
  by_cases h : NonIP cfg packet
  · rw [if_pos h]
    rfl
  · rw [if_neg h]
    simp only [writePacketToPacketBuffer_threadId]
    rfl

/-- A reader stays placed, in the cell it took or else in its own. -/
theorem handlePacket_placed (hplaced : Placed cfg reader cell) (hfits : Fits cfg reader packet) :
    Placed cfg (reader.handlePacket cfg packet ts fetched).reader
      (if (reader.handlePacket cfg packet ts fetched).takesCell then fetched else cell) := by
  have hle := hplaced.offset_le
  rw [handlePacket]
  by_cases h : NonIP cfg packet
  · have hrest := hfits.2 h
    rw [if_pos h]
    refine ⟨hplaced.cell_mod, ?_⟩
    rw [getOffset_writeOffset]
    split_ifs with hs
    · rw [Splits] at hs
      omega
    · omega
  · rw [if_neg h]
    simp only [needsCell_iff, decide_eq_true_eq]
    exact writePacketToPacketBuffer_placed hplaced hfits.1 rfl rfl

/-- In the same cell the cursor moves past the packet. -/
theorem handlePacket_writeOffset (hfits : Fits cfg reader packet)
    (htakes : (reader.handlePacket cfg packet ts fetched).takesCell = false) :
    (reader.handlePacket cfg packet ts fetched).reader.writeOffset =
      reader.writeOffset + pcapHeaderLen + packet.len := by
  rw [handlePacket] at htakes ⊢
  by_cases h : NonIP cfg packet
  · have hrest := hfits.2 h
    have hs : ¬ Splits cfg reader packet := by
      rw [Splits]
      omega
    rw [if_pos h]
    simp only [getOffset_writeOffset]
    rw [if_neg hs]
  · rw [if_neg h] at htakes ⊢
    simp only [needsCell_iff, decide_eq_false_iff_not] at htakes
    refine (writePacketToPacketBuffer_writeOffset ?_).trans ?_
    · exact fun hn => htakes (needsCell_iff.mp hn)
    · rw [getOffset_writeOffset, if_neg htakes]

/-- In a new cell the cursor stands behind the rest of the packet. -/
theorem handlePacket_writeOffset_of_splits (hplaced : Placed cfg reader cell)
    (hfit : pcapHeaderLen + packet.len + cellTailLen ≤ cfg.cellSize) (h : ¬ NonIP cfg packet)
    (hs : Splits cfg reader packet) :
    (reader.handlePacket cfg packet ts fetched).reader.writeOffset =
      reader.writeOffset + pcapHeaderLen + packet.len + cellTailLen - cfg.cellSize := by
  rw [handlePacket, if_neg h]
  exact writePacketToPacketBuffer_writeOffset_of_splits hplaced hfit rfl hs

end DPDKReader

end TrafficDatabase
