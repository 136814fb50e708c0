import TrafficDatabase.DataPath.LateWrites
import TrafficDatabase.Storage.Querier
import TrafficDatabase.Storage.Store

/-!
# A packet read back

A reader stores a packet by the calls of `writePacketToPacketBuffer`; once their
blocks have been dumped, `readPackets` finds the packet at its offset.  The calls
write disjoint bytes, so all of them are on the disk (`Stores.onDisk`), and each
of the three layouts is decoded by the matching branch of the querier
(`readPackets_stored`).

What comes back is the payload unless the payload was cut in two: then reader and
querier both take the second piece for the first one, and the end of the packet
is whatever `new` returned (`readBack_of_severed`).
-/

namespace TrafficDatabase

open DPDKReader

/-- The sizes `Controller::init` gives the querier, with a buffer of any size. -/
def DataPathConfig.querier (cfg : DataPathConfig) (dataBufferSize : ℕ) : QuerierConfig :=
  { cellSize := cfg.cellSize, dataBufferSize, blockNum := cfg.dataDiskSize / cfg.cellSize }

namespace DPDKReader

/-- Some of the payload, but not all of it, lies before the tail of the reader's cell. -/
def Severed (cfg : ReaderConfig) (reader : DPDKReader) (packet : PacketMeta) : Prop :=
  Splits cfg reader packet ∧ pcapHeaderLen < room cfg reader

instance (cfg : ReaderConfig) (reader : DPDKReader) (packet : PacketMeta) :
    Decidable (Severed cfg reader packet) := inferInstanceAs (Decidable (_ ∧ _))

/-- What the querier prints for a stored packet; `fresh` is what `new` returned. -/
def readBack (cfg : ReaderConfig) (reader : DPDKReader) (packet : PacketMeta) (fresh : Memory) :
    List UInt8 :=
  if Severed cfg reader packet then
    ((fresh.write 0 (packet.data.read cfg.ethHeaderLen (room cfg reader - pcapHeaderLen))).write 0
      (packet.data.read cfg.ethHeaderLen (packet.len + pcapHeaderLen - room cfg reader))).read 0
      packet.len
  else payload cfg packet

variable {cfg : ReaderConfig} {reader : DPDKReader} {packet : PacketMeta}

/-- The last byte of a severed packet is the one `new` returned. -/
theorem readBack_of_severed (h : Severed cfg reader packet) (fresh : Memory) :
    (readBack cfg reader packet fresh)[packet.len - 1]? = some (fresh (packet.len - 1)) := by
  obtain ⟨hsplits, hroom⟩ := h
  have hheader : 0 < pcapHeaderLen := by decide
  rw [Splits] at hsplits
  rw [room] at hroom
  unfold readBack
  rw [if_pos ⟨hsplits, hroom⟩, Memory.getElem?_read _ _ (by omega), Nat.zero_add,
    Memory.write_apply_outside, Memory.write_apply_outside]
  · rw [Memory.length_read, room]
    omega
  · rw [Memory.length_read, room]
    omega

/-- The payload comes back, whatever `new` returns, exactly if it was not cut in two. -/
theorem readBack_eq_payload_iff :
    (∀ fresh, readBack cfg reader packet fresh = payload cfg packet) ↔
      ¬ Severed cfg reader packet := by
  constructor
  · intro hall hsevered
    have hlen : 0 < packet.len := by
      obtain ⟨hsplits, hroom⟩ := hsevered
      rw [Splits] at hsplits
      rw [room] at hroom
      omega
    -- fresh memory that differs from the payload everywhere
    have hlast := readBack_of_severed hsevered fun k => packet.data (cfg.ethHeaderLen + k) + 1
    rw [hall, payload, Memory.getElem?_read _ _ (by omega), Option.some.injEq] at hlast
    have hne : packet.data (cfg.ethHeaderLen + (packet.len - 1)) + 1 ≠
        packet.data (cfg.ethHeaderLen + (packet.len - 1)) := by
      intro heq
      simp at heq
    exact hne hlast.symm
  · intro hnot fresh
    unfold readBack
    rw [if_neg hnot]

/-! ## The calls write disjoint bytes -/

variable {cell fetched ts : ℕ} {newIndex : Bool}

/-- Two pieces of one cell, the first before the second. -/
theorem apart_of_le {first second : WriteRequest}
    (h : first.diskPos + first.data.length ≤ second.diskPos) : Store.Apart first second := .inl h

/-- Calls in different cells of the disk. -/
theorem apart_of_cells {other : ℕ} (hne : cell % cfg.cellNum ≠ other % cfg.cellNum)
    {first second : WriteRequest} (hfirst : InCell cfg cell first)
    (hsecond : InCell cfg other second) : Store.Apart first second := by
  obtain ⟨offset, -, hpos, hle⟩ := hfirst
  obtain ⟨otherOffset, -, hotherPos, hotherLe⟩ := hsecond
  rw [ReaderConfig.posIn] at hpos hotherPos
  rw [Store.Apart, hpos, hotherPos]
  rcases Nat.lt_or_gt_of_ne hne with hlt | hlt
  · left
    have := Nat.mul_le_mul_right cfg.cellSize (Nat.succ_le_of_lt hlt)
    rw [Nat.succ_mul] at this
    omega
  · right
    have := Nat.mul_le_mul_right cfg.cellSize (Nat.succ_le_of_lt hlt)
    rw [Nat.succ_mul] at this
    omega

theorem storedWrites_inCell_pairwise : List.Pairwise Store.Apart
    (storedWrites cfg reader packet fetched ts cell newIndex).inCell := by
  unfold storedWrites
  split_ifs with hs hh
  · simp only [headerSplitWrites]
    split_ifs
    · refine List.pairwise_pair.mpr (apart_of_le ?_)
      simp only [List.length_take]
      omega
    · exact List.pairwise_singleton _ _
  · simp only [payloadSplitWrites]
    split_ifs with hmore
    · have hlen := packet.header.length_bytes
      simp only [List.cons_append, List.nil_append]
      refine List.pairwise_cons.mpr ⟨fun other hother => ?_, List.pairwise_pair.mpr ?_⟩
      · rcases List.mem_pair.mp hother with rfl | rfl
        · exact apart_of_le (Nat.add_le_add_left hlen.le _)
        · refine apart_of_le ?_
          simp only [hlen]
          omega
      · refine apart_of_le ?_
        simp only [Memory.length_read]
        omega
    · refine List.pairwise_pair.mpr (apart_of_le ?_)
      simp only [ArrayListHeader.length_bytes]
      omega
  · refine List.pairwise_pair.mpr (apart_of_le ?_)
    simp only [ArrayListHeader.length_bytes]
    exact le_rfl

theorem storedWrites_inNewCell_pairwise : List.Pairwise Store.Apart
    (storedWrites cfg reader packet fetched ts cell newIndex).inNewCell := by
  unfold storedWrites
  split_ifs with hs hh
  · refine List.pairwise_pair.mpr (apart_of_le ?_)
    split_ifs with hzero
    · simp only [ArrayListHeader.length_bytes]
      omega
    · simp only [List.length_drop, ArrayListHeader.length_bytes]
      omega
  · exact List.pairwise_singleton _ _
  · exact .nil

theorem storedWrites_pairwise (hplaced : Placed cfg reader cell)
    (hfit : pcapHeaderLen + packet.len + cellTailLen ≤ cfg.cellSize)
    (hne : cell % cfg.cellNum ≠ fetched % cfg.cellNum) : List.Pairwise Store.Apart
      (storedWrites cfg reader packet fetched ts cell newIndex).all := by
  refine List.pairwise_append.mpr ⟨storedWrites_inCell_pairwise, storedWrites_inNewCell_pairwise,
    fun first hfirst second hsecond => ?_⟩
  exact apart_of_cells hne (storedWrites_inCell hplaced hfirst).1
    (storedWrites_inNewCell hplaced hfit hsecond).2.1

end DPDKReader

/-- Every byte of every call is on the disk. -/
def OnDisk (disk : Memory) (reqs : List WriteRequest) : Prop :=
  ∀ req ∈ reqs, disk.read req.diskPos req.data.length = req.data

/-- Disjoint calls of new data are on the disk once their blocks have left the buffer. -/
theorem Store.Stores.onDisk {cfg : DataPathConfig} {threadId : ℕ} {kept reqs : List WriteRequest}
    {store final : Store} (h : Store.Stores cfg threadId kept reqs store final)
    (hwell : Store.WellFormed cfg store) (hreqs : ∀ req ∈ reqs, Store.InBlock cfg req)
    (hnew : ∀ req ∈ reqs, req.newData = true) (hapart : reqs.Pairwise Store.Apart)
    (hdumped : ∀ req ∈ reqs, ¬ final.buffer.Holds cfg.buffer req.diskPos) :
    OnDisk final.disk reqs := by
  intro req hreq
  obtain ⟨before, after, hsplit⟩ := List.append_of_mem hreq
  have hafter : ∀ later ∈ after, Store.Apart later req := by
    rw [hsplit, List.pairwise_append, List.pairwise_cons] at hapart
    exact fun later hlater => (hapart.2.1.1 later hlater).symm
  have hhas := h.has hwell hreqs hsplit (hnew req hreq) hafter
  exact hhas.disk (hreqs req hreq) (hdumped req hreq)

/-! ## Decoding what was stored -/

/-- What `readPacket` makes sure of. -/
structure PacketMeta.Received (packet : PacketMeta) : Prop where
  caplen : packet.header.caplen = packet.len
  len_lt : packet.len < 2 ^ 32
  unlinked : packet.header.flowNextDiff = 2 ^ 32 - 1

theorem received_readPacket (cfg : ReaderConfig) (buf : Mbuf) (ts : ℕ) :
    (readPacket cfg buf ts).Received where
  caplen := rfl
  len_lt := Nat.mod_lt _ (by decide)
  unlinked := rfl

theorem headerCaplen_bytes (header : ArrayListHeader) :
    headerCaplen header.bytes = header.caplen % 2 ^ 32 := by
  have hcaplen : (header.bytes.drop 8).take 4 = toLittleEndian 4 header.caplen := by
    unfold ArrayListHeader.bytes
    rw [List.append_assoc, List.drop_left' (by simp), List.take_left' (by simp)]
  unfold headerCaplen
  rw [hcaplen, ofLittleEndian_toLittleEndian]
  norm_num

theorem headerLen_bytes (header : ArrayListHeader) :
    headerLen header.bytes = header.flowNextDiff % 2 ^ 32 := by
  have hnext : (header.bytes.drop 12).take 4 = toLittleEndian 4 header.flowNextDiff := by
    unfold ArrayListHeader.bytes
    rw [List.drop_left' (by simp), List.take_of_length_le (by simp)]
  unfold headerLen
  rw [hnext, ofLittleEndian_toLittleEndian]
  norm_num

theorem PacketMeta.Received.header {packet : PacketMeta} (h : packet.Received) :
    headerCaplen packet.header.bytes = packet.len ∧
      headerLen packet.header.bytes = 2 ^ 32 - 1 := by
  rw [headerCaplen_bytes, headerLen_bytes, h.caplen, h.unlinked]
  exact ⟨Nat.mod_eq_of_lt h.len_lt, by decide⟩

section Decoding

variable {cfg : DataPathConfig} {reader : DPDKReader} {packet : PacketMeta}
  {cell fetched ts dataBufferSize : ℕ} {newIndex : Bool} {disk : Memory}

/-- The number of a cell fits in the tail of another one. -/
theorem cellNum_lt : cfg.cellNum < 2 ^ 64 := by
  calc cfg.cellNum ≤ cfg.cellNum * cfg.cellSize := Nat.le_mul_of_pos_right _ cfg.cellSize_pos
    _ = cfg.dataDiskSize := cfg.diskSize_eq_cells.symm
    _ < 2 ^ 64 := cfg.accepted.diskSize_lt

theorem ofLittleEndian_cell :
    ofLittleEndian (toLittleEndian cellTailLen (fetched % cfg.cellNum)) =
      fetched % cfg.cellNum := by
  refine ofLittleEndian_toLittleEndian_of_lt ?_
  calc fetched % cfg.cellNum < cfg.cellNum := Nat.mod_lt _ cfg.cellNum_pos
    _ ≤ 256 ^ cellTailLen := cellNum_lt.le

theorem located (hplaced : Placed cfg.reader reader cell)
    (hbuffer : 2 ≤ dataBufferSize / cfg.cellSize) :
    Querier.Located (cfg.querier dataBufferSize) (cfg.reader.posIn cell reader.writeOffset)
      (cell % cfg.cellNum) reader.writeOffset where
  offset_eq := rfl
  cellPos_lt := hplaced.offset_lt
  cell_lt := Nat.mod_lt _ cfg.cellNum_pos
  cell_ne := by
    have hlt : cell % cfg.cellNum < cfg.cellNum := Nat.mod_lt _ cfg.cellNum_pos
    have hmax := @cellNum_lt cfg
    unfold u64Max
    omega
  two_le := hbuffer

/-- The querier, having read the packet's cell, decodes the packet. -/
def Decodes (cfg : DataPathConfig) (dataBufferSize : ℕ) (disk : Memory) (fresh : ℕ → Memory)
    (dataBuffer : Memory) (reader : DPDKReader) (packet : PacketMeta) (cell : ℕ) : Prop :=
  ∃ got, (Querier.loaded (cfg.querier dataBufferSize) disk
      (cfg.reader.posIn cell reader.writeOffset) (cell % cfg.cellNum) dataBuffer).decode
        (cfg.querier dataBufferSize) disk fresh (cfg.reader.posIn cell reader.writeOffset) =
      some got ∧
    got.packetLen = packet.len ∧ got.next = 2 ^ 32 - 1 ∧
    got.packet = readBack cfg.reader reader packet (fresh 0)

variable {fresh : ℕ → Memory} {dataBuffer : Memory}

theorem decodes_whole (hplaced : Placed cfg.reader reader cell) (hreceived : packet.Received)
    (hbuffer : 2 ≤ dataBufferSize / cfg.cellSize) (hs : ¬ Splits cfg.reader reader packet)
    (hdisk : OnDisk disk
      (wholeWrites cfg.reader packet ts (cfg.reader.posIn cell reader.writeOffset) newIndex).all) :
    Decodes cfg dataBufferSize disk fresh dataBuffer reader packet cell := by
  obtain ⟨hcaplen, hnext⟩ := hreceived.header
  have hwhole : reader.writeOffset + pcapHeaderLen + packet.len + cellTailLen ≤ cfg.cellSize :=
    not_lt.mp hs
  have hheader := hdisk _ (.head _)
  have hpayload := hdisk _ (.tail _ (.head _))
  simp only [ArrayListHeader.length_bytes, length_payload] at hheader hpayload
  obtain ⟨got, hgot, hlen, hgotNext, hpacket⟩ :=
    Querier.decode_whole fresh dataBuffer (located hplaced hbuffer) hheader
      (by rw [hcaplen]; change _ ≤ cfg.cellSize; omega)
  refine ⟨got, hgot, hlen.trans hcaplen, hgotNext.trans hnext, ?_⟩
  unfold readBack
  rw [if_neg fun h => hs h.1, hpacket, hcaplen, ← hpayload, ← Nat.add_assoc]
  rfl

/-- The tail of the cell, which is where the room for the packet ends. -/
theorem read_tail (hplaced : Placed cfg.reader reader cell)
    (hread : disk.read (cfg.reader.posIn cell reader.writeOffset + room cfg.reader reader)
      (toLittleEndian cellTailLen (fetched % cfg.cellNum)).length =
        toLittleEndian cellTailLen (fetched % cfg.cellNum)) :
    disk.read (cell % cfg.cellNum * cfg.cellSize + (cfg.cellSize - cellTailLen)) cellTailLen =
      toLittleEndian cellTailLen (fetched % cfg.cellNum) := by
  have hoffset : reader.writeOffset + cellTailLen ≤ cfg.cellSize := hplaced.offset_le
  have hroom : room cfg.reader reader = cfg.cellSize - reader.writeOffset - cellTailLen := rfl
  have hplace : cfg.reader.posIn cell reader.writeOffset + room cfg.reader reader =
      cell % cfg.cellNum * cfg.cellSize + (cfg.cellSize - cellTailLen) := by
    change cell % cfg.cellNum * cfg.cellSize + reader.writeOffset + _ = _
    omega
  rwa [length_toLittleEndian, hplace] at hread

theorem decodes_headerSplit (hplaced : Placed cfg.reader reader cell)
    (hreceived : packet.Received)
    (hfit : pcapHeaderLen + packet.len + cellTailLen ≤ cfg.cellSize)
    (hbuffer : 2 ≤ dataBufferSize / cfg.cellSize) (hh : room cfg.reader reader < pcapHeaderLen)
    (hdisk : OnDisk disk
      (headerSplitWrites cfg.reader packet ts (cfg.reader.posIn cell reader.writeOffset)
        (cfg.reader.posIn fetched 0) (room cfg.reader reader) (fetched % cfg.cellNum)
        newIndex).all) :
    Decodes cfg dataBufferSize disk fresh dataBuffer reader packet cell := by
  obtain ⟨hcaplen, hnext⟩ := hreceived.header
  have hoffset : reader.writeOffset + cellTailLen ≤ cfg.cellSize := hplaced.offset_le
  have hroom : room cfg.reader reader = cfg.cellSize - reader.writeOffset - cellTailLen := rfl
  have hnewCell : cfg.reader.posIn fetched 0 = fetched % cfg.cellNum * cfg.cellSize := rfl
  -- the pieces, as they lie on the disk
  have htail := read_tail hplaced
    (hdisk _ (List.mem_append_left _ (List.mem_append_right _ (.head _))))
  have hheader : disk.read (cfg.reader.posIn cell reader.writeOffset) (room cfg.reader reader) ++
      disk.read (fetched % cfg.cellNum * cfg.cellSize) (pcapHeaderLen - room cfg.reader reader) =
      packet.header.bytes := by
    have hrest := hdisk _ (List.mem_append_right _ (.head _))
    by_cases hzero : room cfg.reader reader = 0
    · rw [if_pos hzero] at hrest
      simp only [ArrayListHeader.length_bytes, hnewCell] at hrest
      rw [hzero, Memory.read_zero, List.nil_append]
      exact hrest
    · have hstart := hdisk _ (List.mem_append_left _ (List.mem_append_left _
        (by rw [if_pos hzero]; exact .head _)))
      rw [if_neg hzero] at hrest
      simp only [List.length_take, List.length_drop, ArrayListHeader.length_bytes, hnewCell,
        Nat.min_eq_left hh.le] at hstart hrest
      rw [hstart, hrest, List.take_append_drop]
  have hpayload : disk.read (fetched % cfg.cellNum * cfg.cellSize +
      (pcapHeaderLen - room cfg.reader reader)) packet.len = payload cfg.reader packet := by
    have hread := hdisk _ (List.mem_append_right _ (.tail _ (.head _)))
    simp only [length_payload] at hread
    rwa [Nat.add_sub_assoc hh.le, hnewCell] at hread
  have hsplit : reader.writeOffset + pcapHeaderLen + cellTailLen > cfg.cellSize := by omega
  obtain ⟨got, hgot, hlen, hgotNext, hpacket⟩ :=
    Querier.decode_headerSplit fresh dataBuffer (located hplaced hbuffer) hplaced.offset_le hsplit
      ((congrArg ofLittleEndian htail).trans ofLittleEndian_cell) (Nat.mod_lt _ cfg.cellNum_pos)
      hheader (by rw [hcaplen]; change _ ≤ cfg.cellSize; omega)
  refine ⟨got, hgot, hlen.trans hcaplen, hgotNext.trans hnext, ?_⟩
  unfold readBack
  rw [if_neg fun h => hh.not_gt h.2, hpacket, hcaplen, ← hpayload]
  rfl

theorem decodes_payloadSplit (hplaced : Placed cfg.reader reader cell)
    (hreceived : packet.Received)
    (hfit : pcapHeaderLen + packet.len + cellTailLen ≤ cfg.cellSize)
    (hbuffer : 2 ≤ dataBufferSize / cfg.cellSize) (hs : Splits cfg.reader reader packet)
    (hh : pcapHeaderLen ≤ room cfg.reader reader)
    (hdisk : OnDisk disk
      (payloadSplitWrites cfg.reader packet ts (cfg.reader.posIn cell reader.writeOffset)
        (cfg.reader.posIn fetched 0) (room cfg.reader reader) (fetched % cfg.cellNum)
        newIndex).all) :
    Decodes cfg dataBufferSize disk fresh dataBuffer reader packet cell := by
  obtain ⟨hcaplen, hnext⟩ := hreceived.header
  have hoffset : reader.writeOffset + cellTailLen ≤ cfg.cellSize := hplaced.offset_le
  have hroom : room cfg.reader reader = cfg.cellSize - reader.writeOffset - cellTailLen := rfl
  have hnewCell : cfg.reader.posIn fetched 0 = fetched % cfg.cellNum * cfg.cellSize := rfl
  have hover : cfg.cellSize < reader.writeOffset + pcapHeaderLen + packet.len + cellTailLen := hs
  have htail := read_tail hplaced
    (hdisk _ (List.mem_append_left _ (List.mem_append_right _ (.head _))))
  have hheader := hdisk _ (List.mem_append_left _ (List.mem_append_left _
    (List.mem_append_left _ (.head _))))
  have hrest := hdisk _ (List.mem_append_right _ (.head _))
  simp only [ArrayListHeader.length_bytes, Memory.length_read, hnewCell] at hheader hrest
  obtain ⟨got, hgot, hlen, hgotNext, hpacket⟩ :=
    Querier.decode_payloadSplit fresh dataBuffer (located hplaced hbuffer)
      (show reader.writeOffset + pcapHeaderLen + cellTailLen ≤ cfg.cellSize by omega) hheader
      (by rw [hcaplen]; change _ > cfg.cellSize; omega)
      ((congrArg ofLittleEndian htail).trans ofLittleEndian_cell) (Nat.mod_lt _ cfg.cellNum_pos)
      (by rw [hcaplen]; change _ ≤ cfg.cellSize; omega)
  refine ⟨got, hgot, hlen.trans hcaplen, hgotNext.trans hnext, ?_⟩
  rw [hcaplen] at hpacket
  have hcount : packet.len - (room cfg.reader reader - pcapHeaderLen) =
      packet.len + pcapHeaderLen - room cfg.reader reader := by omega
  change got.packet = ((((fresh 0).write 0 (disk.read (cell % cfg.cellNum * cfg.cellSize +
      (reader.writeOffset + pcapHeaderLen)) (room cfg.reader reader - pcapHeaderLen))).write 0
    (disk.read (fetched % cfg.cellNum * cfg.cellSize)
      (packet.len - (room cfg.reader reader - pcapHeaderLen)))).read 0 packet.len) at hpacket
  rw [hpacket, hcount, hrest]
  unfold readBack
  by_cases hmore : room cfg.reader reader > pcapHeaderLen
  · have hpiece := hdisk _ (List.mem_append_left _ (List.mem_append_left _
      (List.mem_append_right _ (by rw [if_pos hmore]; exact .head _))))
    simp only [Memory.length_read] at hpiece
    rw [if_pos ⟨hs, hmore⟩, ← Nat.add_assoc]
    exact congrArg (fun piece => (((fresh 0).write 0 piece).write 0 _).read 0 packet.len) hpiece
  · -- the header ends right before the tail, so the payload is in one piece
    have hexact : room cfg.reader reader = pcapHeaderLen := by omega
    rw [if_neg fun h => hmore h.2, hexact, Nat.sub_self, Nat.add_sub_cancel, Memory.read_zero,
      Memory.write_nil]
    have hself := Memory.read_write_self (fresh 0) 0 (payload cfg.reader packet)
    rw [length_payload] at hself
    exact hself

/-- The querier decodes what the calls have put on the disk. -/
theorem decodes_stored (hplaced : Placed cfg.reader reader cell) (hreceived : packet.Received)
    (hfit : pcapHeaderLen + packet.len + cellTailLen ≤ cfg.cellSize)
    (hbuffer : 2 ≤ dataBufferSize / cfg.cellSize)
    (hdisk : OnDisk disk (storedWrites cfg.reader reader packet fetched ts cell newIndex).all) :
    Decodes cfg dataBufferSize disk fresh dataBuffer reader packet cell := by
  unfold storedWrites at hdisk
  by_cases hs : Splits cfg.reader reader packet
  · rw [if_pos hs] at hdisk
    by_cases hh : pcapHeaderLen > room cfg.reader reader
    · rw [if_pos hh] at hdisk
      exact decodes_headerSplit hplaced hreceived hfit hbuffer hh hdisk
    · rw [if_neg hh] at hdisk
      exact decodes_payloadSplit hplaced hreceived hfit hbuffer hs (not_lt.mp hh) hdisk
  · rw [if_neg hs] at hdisk
    exact decodes_whole hplaced hreceived hbuffer hs hdisk

/-- The loop prints the packet and no other. -/
theorem readPackets_stored (hplaced : Placed cfg.reader reader cell) (hreceived : packet.Received)
    (hfit : pcapHeaderLen + packet.len + cellTailLen ≤ cfg.cellSize)
    (hbuffer : 2 ≤ dataBufferSize / cfg.cellSize)
    (hdisk : OnDisk disk (storedWrites cfg.reader reader packet fetched ts cell newIndex).all)
    (fuel : ℕ) (printed : List Printed) :
    Querier.readPackets (cfg.querier dataBufferSize) disk fresh fuel
        (Querier.start [cfg.reader.posIn cell reader.writeOffset] dataBuffer) = some printed ↔
      2 ≤ fuel ∧ printed =
        [{ offset := cfg.reader.posIn cell reader.writeOffset
           packetLen := packet.len
           packet := readBack cfg.reader reader packet (fresh 0) }] := by
  have hdecodes : Decodes cfg dataBufferSize disk fresh dataBuffer reader packet cell :=
    decodes_stored hplaced hreceived hfit hbuffer hdisk
  obtain ⟨got, hgot, hlen, hnext, hpacket⟩ := hdecodes
  rw [Querier.readPackets_start (located hplaced hbuffer) hgot hnext, hlen, hpacket]

/-! ## The round trip -/

/-- The calls by which the reader stores the packet after reserving its bytes. -/
def packetWrites (cfg : ReaderConfig) (reader : DPDKReader) (packet : PacketMeta) (ts : ℕ)
    (newIndex : Bool) (fetched : ℕ) : CellWrites :=
  ((reader.getOffset cfg packet.len).2.writePacketToPacketBuffer cfg packet ts
    (reader.getOffset cfg packet.len).1 newIndex fetched).2

theorem packetWrites_eq (hplaced : Placed cfg.reader reader cell) :
    packetWrites cfg.reader reader packet ts newIndex fetched =
      storedWrites cfg.reader reader packet fetched ts cell newIndex := by
  unfold packetWrites
  rw [getOffset_fst cfg.aligned hplaced]
  exact writePacketToPacketBuffer_snd hplaced rfl

/-- Cells less than a lap of the disk apart are different cells of the disk. -/
theorem mod_ne_of_lap {size first second : ℕ} (hlater : first < second)
    (hlap : second < first + size) : first % size ≠ second % size := by
  intro hsame
  have heq := eq_of_mod_eq hsame (by omega) hlap
  omega

/-- The calls of a packet are on the disk once their blocks have been dumped. -/
theorem onDisk_stored (hplaced : Placed cfg.reader reader cell) (hlater : cell < fetched)
    (hlap : fetched < cell + cfg.cellNum)
    (hfit : pcapHeaderLen + packet.len + cellTailLen ≤ cfg.cellSize) {threadId : ℕ}
    {store final : Store} (hwell : Store.WellFormed cfg store)
    (hstores : Store.Stores cfg threadId []
      (packetWrites cfg.reader reader packet ts newIndex fetched).all store final)
    (hdumped : ∀ req ∈ (packetWrites cfg.reader reader packet ts newIndex fetched).all,
      ¬ final.buffer.Holds cfg.buffer req.diskPos) :
    OnDisk final.disk (storedWrites cfg.reader reader packet fetched ts cell newIndex).all := by
  rw [packetWrites_eq hplaced] at hstores hdumped
  refine hstores.onDisk hwell ?_ (fun req => storedWrites_newData)
    (storedWrites_pairwise hplaced hfit (mod_ne_of_lap hlater hlap)) hdumped
  intro req hreq
  rcases List.mem_append.mp hreq with hin | hin
  · exact Store.inBlock_of_inCell (storedWrites_inCell hplaced hin).1
  · exact Store.inBlock_of_inCell (storedWrites_inNewCell hplaced hfit hin).2.1

/-- A packet that fits in a cell is stored by calls that all succeed, and its
blocks are dumped.  Reading back at its offset then prints exactly its payload,
whatever `new` returns, if and only if the payload was not cut in two. -/
theorem readBack_iff (hplaced : Placed cfg.reader reader cell) (hlater : cell < fetched)
    (hlap : fetched < cell + cfg.cellNum) {buf : Mbuf}
    (hfit : pcapHeaderLen + (readPacket cfg.reader buf ts).len + cellTailLen ≤ cfg.cellSize)
    (hbuffer : 2 ≤ dataBufferSize / cfg.cellSize) {threadId : ℕ} {store final : Store}
    (hwell : Store.WellFormed cfg store)
    (hstores : Store.Stores cfg threadId [] (packetWrites cfg.reader reader
      (readPacket cfg.reader buf ts) ts newIndex fetched).all store final)
    (hdumped : ∀ req ∈ (packetWrites cfg.reader reader (readPacket cfg.reader buf ts) ts newIndex
      fetched).all, ¬ final.buffer.Holds cfg.buffer req.diskPos) :
    (∀ fresh : ℕ → Memory, ∃ fuel, Querier.readPackets (cfg.querier dataBufferSize) final.disk fresh
        fuel (Querier.start
          [(reader.getOffset cfg.reader (readPacket cfg.reader buf ts).len).1] dataBuffer) =
      some [{ offset := (reader.getOffset cfg.reader (readPacket cfg.reader buf ts).len).1
              packetLen := (readPacket cfg.reader buf ts).len
              packet := payload cfg.reader (readPacket cfg.reader buf ts) }]) ↔
      ¬ Severed cfg.reader reader (readPacket cfg.reader buf ts) := by
  have hdisk := onDisk_stored hplaced hlater hlap hfit hwell hstores hdumped
  have hreceived := received_readPacket cfg.reader buf ts
  generalize readPacket cfg.reader buf ts = packet at *
  rw [getOffset_fst cfg.aligned hplaced, ← readBack_eq_payload_iff]
  constructor
  · intro hall fresh
    obtain ⟨fuel, hprinted⟩ := hall fun _ => fresh
    rw [readPackets_stored hplaced hreceived hfit hbuffer hdisk] at hprinted
    simp only [List.cons.injEq, Printed.mk.injEq] at hprinted
    exact hprinted.2.1.2.2.symm
  · intro hall fresh
    refine ⟨2, (readPackets_stored hplaced hreceived hfit hbuffer hdisk 2 _).mpr ⟨le_rfl, ?_⟩⟩
    rw [hall]

end Decoding

/-! ## A severed packet -/

/-- The constructor's buffer is well formed, whatever is on the disk. -/
theorem wellFormed_init (cfg : DataPathConfig) (disk : Memory) :
    Store.WellFormed cfg { buffer := (DataPath.State.init cfg).buffer, disk } where
  diskId_lt := by
    intro slot hslot
    have := cfg.diskBlockNum_gt
    change slot < cfg.diskBlockNum
    omega
  diskId_mod := fun slot hslot => Nat.mod_eq_of_lt hslot
  checkId_lt := by
    intro dumper
    change (List.range cfg.dataDiskManagerThreadNum).getD dumper 0 < cfg.totalBlockNum
    have hle := cfg.dumpThreads_le
    by_cases h : dumper < cfg.dataDiskManagerThreadNum
    · simp only [List.getD_eq_getElem?_getD, List.getElem?_range h, Option.getD_some]
      exact h.trans_le hle
    · rw [List.getD_eq_getElem?_getD, List.getElem?_eq_none (by simpa using h)]
      exact cfg.totalBlockNum_pos

namespace Store

variable {cfg : DataPathConfig} {threadId : ℕ}

/-- Make the calls one after the other, if all new data is accepted at once. -/
def writeAll (cfg : DataPathConfig) (threadId : ℕ) :
    List WriteRequest → Store → Option Store
  | [], store => some store
  | req :: rest, store =>
      if req.newData = true → (store.buffer.writeBlock cfg.buffer threadId req).1 = true then
        writeAll cfg threadId rest (store.write cfg threadId req)
      else none

theorem stores_of_writeAll {kept reqs : List WriteRequest} {store middle final : Store}
    (hall : writeAll cfg threadId reqs store = some middle)
    (hrest : Stores cfg threadId ((reqs.filter WriteRequest.newData).reverse ++ kept) [] middle
      final) : Stores cfg threadId kept reqs store final := by
  induction reqs generalizing store kept with
  | nil =>
      obtain rfl := Option.some.inj hall
      exact hrest
  | cons req rest ih =>
      unfold writeAll at hall
      split_ifs at hall with hwritten
      cases hnew : req.newData with
      | true =>
          refine .accepted hnew (hwritten hnew) (ih hall ?_)
          rw [List.filter_cons_of_pos hnew] at hrest
          simpa using hrest
      | false =>
          refine .patch hnew (ih hall ?_)
          rw [List.filter_cons_of_neg (by rw [hnew]; decide)] at hrest
          exact hrest

/-- The store after calls that are all accepted. -/
def writtenAll (cfg : DataPathConfig) (threadId : ℕ) (reqs : List WriteRequest) (store : Store) :
    Store :=
  (writeAll cfg threadId reqs store).getD store

theorem writeAll_eq {reqs : List WriteRequest} {store : Store}
    (hsome : (writeAll cfg threadId reqs store).isSome = true) :
    writeAll cfg threadId reqs store = some (writtenAll cfg threadId reqs store) := by
  obtain ⟨middle, hmiddle⟩ := Option.isSome_iff_exists.mp hsome
  rw [writtenAll, hmiddle, Option.getD_some]

end Store

namespace RoundTrip

open DataPath (oneReader ipv4Packet)

/-- A reader in cell 0, with 20 bytes left before the tail. -/
def reader : DPDKReader := { DPDKReader.new 64 0 0 with writeCell := 0, writeOffset := 36 }

/-- A packet of 40 bytes: 4 fit behind its header. -/
def writes : List WriteRequest :=
  (packetWrites oneReader.reader reader (readPacket oneReader.reader (ipv4Packet 40) 0) 0 true
    1).all

def before : Store := { buffer := (DataPath.State.init oneReader).buffer, disk := fun _ => 0 }

def dumped : Store :=
  ((Store.writtenAll oneReader 0 writes before).retire oneReader 0).retire oneReader 0

theorem placed : Placed oneReader.reader reader 0 := ⟨rfl, by decide⟩

/-- The packet is stored, and its blocks 0 and 1 are dumped. -/
theorem stores_dumped : Store.Stores oneReader 0 [] writes before dumped := by
  refine Store.stores_of_writeAll (Store.writeAll_eq (by decide +kernel)) ?_
  exact .retire 0 (by decide +kernel) (.retire 0 (by decide +kernel) .done)

theorem writes_dumped : ∀ req ∈ writes, ¬ dumped.buffer.Holds oneReader.buffer req.diskPos := by
  decide +kernel

/-- The payload, and nothing else, is printed whatever `new` returns. -/
def PrintsPayload : Prop :=
  ∀ fresh : ℕ → Memory, ∃ fuel, Querier.readPackets (oneReader.querier 128) dumped.disk fresh fuel
    (Querier.start [(reader.getOffset oneReader.reader
      (readPacket oneReader.reader (ipv4Packet 40) 0).len).1] fun _ => 0) =
    some [{ offset := (reader.getOffset oneReader.reader
              (readPacket oneReader.reader (ipv4Packet 40) 0).len).1
            packetLen := (readPacket oneReader.reader (ipv4Packet 40) 0).len
            packet := payload oneReader.reader (readPacket oneReader.reader (ipv4Packet 40) 0) }]

theorem readBack_iff_four_bytes : PrintsPayload ↔
    ¬ Severed oneReader.reader reader (readPacket oneReader.reader (ipv4Packet 40) 0) :=
  readBack_iff placed (by decide) (by decide +kernel) (by decide +kernel) (by decide)
    (wellFormed_init oneReader _) stores_dumped writes_dumped

/-- The packet is stored and dumped as it should be, and is not read back. -/
theorem readBack_lost : Store.WellFormed oneReader before ∧
    Store.Stores oneReader 0 [] writes before dumped ∧
    (∀ req ∈ writes, ¬ dumped.buffer.Holds oneReader.buffer req.diskPos) ∧ ¬ PrintsPayload := by
  have hwell := wellFormed_init oneReader fun _ => 0
  refine ⟨hwell, stores_dumped, writes_dumped, fun hall => ?_⟩
  have hfit : pcapHeaderLen + (readPacket oneReader.reader (ipv4Packet 40) 0).len + cellTailLen ≤
      oneReader.cellSize := by decide +kernel
  have hdisk := onDisk_stored placed (by decide) (by decide +kernel) hfit hwell stores_dumped
    writes_dumped
  -- the memory is all ones where the packet ends in a zero
  obtain ⟨fuel, hprinted⟩ := hall fun _ _ => 1
  have hprint := (readPackets_stored placed (received_readPacket _ _ _) hfit (by decide) hdisk fuel
    _).mp hprinted
  have hpacket := congrArg (fun printed => printed.map fun one => one.packet[39]?) hprint.2
  have hlast := readBack_of_severed (show Severed oneReader.reader reader
    (readPacket oneReader.reader (ipv4Packet 40) 0) by decide +kernel) fun _ => 1
  have hzero : (payload oneReader.reader (readPacket oneReader.reader (ipv4Packet 40) 0))[39]? =
      some 0 := by decide +kernel
  simp only [List.map_cons, List.map_nil, hzero, List.cons.injEq, and_true] at hpacket
  rw [show (readPacket oneReader.reader (ipv4Packet 40) 0).len - 1 = 39 by decide +kernel,
    ← hpacket] at hlast
  exact absurd hlast (by decide)

end RoundTrip

end TrafficDatabase
