import TrafficDatabase.Storage.RoundTrip

/-!
# Following a flow

The packets of a flow that are close enough to each other are meant to form a
chain on the disk: the first one is indexed, each later one is linked to the one
before it, whose header `writeBefore` patches with the distance.  `chain` is what
following such a chain should visit.

The patch goes to the first bytes of the header, while the querier takes the
distance from the last ones, where `readPacket` has put the largest number.  So a
chain always ends with its first packet: an indexed packet is followed correctly
when no later patch touches it (`visits_chain`), and a flow of two linked packets
is cut short (`chain_cut`).
-/

namespace TrafficDatabase

open DPDKReader

/-- A packet taken from the port, and the cell it gets if it needs one. -/
structure Arrival where
  buf : Mbuf
  ts : ℕ
  fetched : ℕ

/-- What the run loop did with a packet: the offset it is at, the one it was
linked to, and the calls made for it. -/
structure Handled where
  flow : FlowMetadata
  offset : ℕ
  last : Option ℕ
  reqs : List WriteRequest

/-- The call the run loop makes once the packet is stored. -/
def Epilogue.reqs : Epilogue → List WriteRequest
  | .writeBefore req => [req]
  | .writeIndexToRing _ => []

namespace FlowChain

section RunLoop

variable (cfg : ReaderConfig)

def plan (reader : DPDKReader) (arrival : Arrival) : PacketPlan :=
  reader.handlePacket cfg (readPacket cfg arrival.buf arrival.ts) arrival.ts arrival.fetched

def handle (reader : DPDKReader) (arrival : Arrival) : Handled :=
  let packet := readPacket cfg arrival.buf arrival.ts
  let offset := (reader.getOffset cfg packet.len).1
  { flow := getFlowMetaData cfg packet
    offset
    last := link cfg reader packet offset arrival.ts
    reqs := (plan cfg reader arrival).writes.all ++
      ((plan cfg reader arrival).epilogue.map Epilogue.reqs).getD [] }

/-- The run loop of one reader. -/
def runLoop : DPDKReader → List Arrival → List Handled
  | _, [] => []
  | reader, arrival :: rest =>
      handle cfg reader arrival :: runLoop (plan cfg reader arrival).reader rest

/-- The cell the reader is in after a packet. -/
def nextCell (reader : DPDKReader) (cell : ℕ) (arrival : Arrival) : ℕ :=
  if (plan cfg reader arrival).takesCell then arrival.fetched else cell

/-- An IP packet that fits in a cell, and a new cell that is a later one, less
than a lap of the disk after the cell `first`. -/
def Regular (first : ℕ) (reader : DPDKReader) (cell : ℕ) (arrival : Arrival) : Prop :=
  ¬ NonIP cfg (readPacket cfg arrival.buf arrival.ts) ∧
    pcapHeaderLen + (readPacket cfg arrival.buf arrival.ts).len + cellTailLen ≤ cfg.cellSize ∧
    ((plan cfg reader arrival).takesCell = true →
      cell < arrival.fetched ∧ arrival.fetched < first + cfg.cellNum)

instance (first : ℕ) (reader : DPDKReader) (cell : ℕ) (arrival : Arrival) :
    Decidable (Regular cfg first reader cell arrival) := inferInstanceAs (Decidable (_ ∧ _ ∧ _))

/-- Every packet of the run is regular. -/
def AllRegular (first : ℕ) : DPDKReader → ℕ → List Arrival → Prop
  | _, _, [] => True
  | reader, cell, arrival :: rest =>
      Regular cfg first reader cell arrival ∧
        AllRegular first (plan cfg reader arrival).reader (nextCell cfg reader cell arrival) rest

end RunLoop

/-- The offsets a query should visit from an indexed packet: its own, and those
of the later packets of its flow up to the next one that is indexed. -/
def chain (first : Handled) (rest : List Handled) : List ℕ :=
  first.offset ::
    ((rest.filter fun later => later.flow = first.flow).takeWhile
      fun later => later.last.isSome).map Handled.offset

/-- No later packet is linked to an offset whose patch touches the packet. -/
def Unpatched (first : Handled) (rest : List Handled) : Prop :=
  ∀ later ∈ rest, ∀ last, later.last = some last → ∀ own ∈ first.reqs, ∀ diff,
    Store.Apart (writeBefore diff last) own

variable {cfg : ReaderConfig} {reader : DPDKReader} {arrival : Arrival} {cell first : ℕ}
  {own req : WriteRequest}

/-! ## One packet -/

theorem Regular.fits (h : Regular cfg first reader cell arrival) :
    Fits cfg reader (readPacket cfg arrival.buf arrival.ts) :=
  ⟨h.2.1, fun hnon => absurd hnon h.1⟩

theorem Regular.placed (h : Regular cfg first reader cell arrival)
    (hplaced : Placed cfg reader cell) :
    Placed cfg (plan cfg reader arrival).reader (nextCell cfg reader cell arrival) :=
  handlePacket_placed hplaced h.fits

theorem handle_offset (haligned : cfg.Aligned) (hplaced : Placed cfg reader cell) :
    (handle cfg reader arrival).offset = cfg.posIn cell reader.writeOffset :=
  getOffset_fst haligned hplaced (readPacket cfg arrival.buf arrival.ts).len

theorem handle_last (haligned : cfg.Aligned) (hplaced : Placed cfg reader cell) :
    (handle cfg reader arrival).last = link cfg reader (readPacket cfg arrival.buf arrival.ts)
      (cfg.posIn cell reader.writeOffset) arrival.ts := by
  rw [← getOffset_fst haligned hplaced]
  rfl

/-- The calls that store a packet. -/
def stored (cfg : ReaderConfig) (reader : DPDKReader) (cell : ℕ) (arrival : Arrival) : CellWrites :=
  storedWrites cfg reader (readPacket cfg arrival.buf arrival.ts) arrival.fetched arrival.ts cell
    (handle cfg reader arrival).last.isNone

/-- The calls for a packet are those that store it, and the patch if it is linked. -/
theorem handle_reqs (haligned : cfg.Aligned) (hplaced : Placed cfg reader cell)
    (h : Regular cfg first reader cell arrival) :
    ∃ diff, (handle cfg reader arrival).reqs = (stored cfg reader cell arrival).all ++
      match (handle cfg reader arrival).last with
      | some last => [writeBefore diff last]
      | none => [] := by
  have hplan : StoredPlan cfg reader (readPacket cfg arrival.buf arrival.ts) arrival.ts
      arrival.fetched cell (plan cfg reader arrival) := handlePacket_of_ip haligned hplaced h.1
  have hreqs : (handle cfg reader arrival).reqs = (plan cfg reader arrival).writes.all ++
      ((plan cfg reader arrival).epilogue.map Epilogue.reqs).getD [] := rfl
  have hlast : (handle cfg reader arrival).last = _ := handle_last haligned hplaced
  rw [hreqs, hplan.writes, hplan.epilogue, ← hlast]
  unfold stored
  cases (handle cfg reader arrival).last with
  | none => exact ⟨0, rfl⟩
  | some last => exact ⟨_, rfl⟩

theorem plan_aggMap (haligned : cfg.Aligned) (hplaced : Placed cfg reader cell)
    (h : Regular cfg first reader cell arrival) :
    (plan cfg reader arrival).reader.packetAggregator.aggMap =
      Function.update reader.packetAggregator.aggMap (handle cfg reader arrival).flow
        (some ⟨cfg.posIn cell reader.writeOffset, arrival.ts⟩) := by
  have hplan : StoredPlan cfg reader (readPacket cfg arrival.buf arrival.ts) arrival.ts
      arrival.fetched cell (plan cfg reader arrival) := handlePacket_of_ip haligned hplaced h.1
  rw [hplan.aggregator, PacketAggregator.addPacket_aggMap]
  rfl

/-! ## Later calls leave the packet alone -/

/-- Everything the aggregator remembers is the offset of a packet. -/
def OffsetsPlaced (cfg : ReaderConfig) (reader : DPDKReader) : Prop :=
  ∀ flow attr, reader.packetAggregator.aggMap flow = some attr →
    ∃ cell offset, attr.lastOffset = cfg.posIn cell offset ∧ offset + cellTailLen ≤ cfg.cellSize

theorem offsetsPlaced_new (capacity threadId rxId : ℕ) :
    OffsetsPlaced cfg (DPDKReader.new capacity threadId rxId) := nofun

theorem OffsetsPlaced.plan (h : OffsetsPlaced cfg reader) (haligned : cfg.Aligned)
    (hplaced : Placed cfg reader cell) (hregular : Regular cfg first reader cell arrival) :
    OffsetsPlaced cfg (plan cfg reader arrival).reader := by
  intro flow attr hattr
  rw [plan_aggMap haligned hplaced hregular] at hattr
  by_cases hsame : flow = (handle cfg reader arrival).flow
  · rw [hsame, Function.update_self] at hattr
    obtain rfl := Option.some.inj hattr
    exact ⟨cell, reader.writeOffset, rfl, hplaced.offset_le⟩
  · rw [Function.update_of_ne hsame] at hattr
    exact h flow attr hattr

/-- A patch lies in the cell of the packet it is about. -/
theorem OffsetsPlaced.inCell (h : OffsetsPlaced cfg reader) (haligned : cfg.Aligned)
    (hplaced : Placed cfg reader cell) {last diff : ℕ}
    (hlast : (handle cfg reader arrival).last = some last) :
    ∃ place, InCell cfg place (writeBefore diff last) := by
  rw [handle_last haligned hplaced] at hlast
  obtain ⟨attr, hattr, -, rfl⟩ := PacketAggregator.addPacket_fst_eq_some.mp hlast
  obtain ⟨place, offset, hoffset, htail⟩ := h _ attr hattr
  have hwidth : (writeBefore diff attr.lastOffset).data.length = 4 := length_toLittleEndian _ _
  have hlen : 4 < cellTailLen := by decide
  refine ⟨place, inCell_mk (by omega) hoffset ?_⟩
  omega

/-- The call's bytes lie in an earlier cell of the run or before the reader's cursor. -/
def Behind (cfg : ReaderConfig) (first : ℕ) (reader : DPDKReader) (cell : ℕ) (own : WriteRequest) :
    Prop :=
  ∃ place, InCell cfg place own ∧ first ≤ place ∧ place ≤ cell ∧
    (place = cell → own.diskPos + own.data.length ≤ cfg.posIn cell reader.writeOffset)

theorem storedWrites_inCell_ge {packet : PacketMeta} {fetched ts : ℕ} {newIndex : Bool}
    (hreq : req ∈ (storedWrites cfg reader packet fetched ts cell newIndex).inCell) :
    cfg.posIn cell reader.writeOffset ≤ req.diskPos := by
  unfold storedWrites at hreq
  split_ifs at hreq <;>
    simp only [headerSplitWrites, payloadSplitWrites, wholeWrites, List.mem_append, List.mem_cons,
      List.not_mem_nil, or_false] at hreq
  all_goals aesop

theorem storedWrites_inCell_le {packet : PacketMeta} {fetched ts : ℕ} {newIndex : Bool}
    (hs : ¬ Splits cfg reader packet)
    (hreq : req ∈ (storedWrites cfg reader packet fetched ts cell newIndex).inCell) :
    req.diskPos + req.data.length ≤
      cfg.posIn cell (reader.writeOffset + pcapHeaderLen + packet.len) := by
  unfold storedWrites at hreq
  rw [if_neg hs] at hreq
  rcases List.mem_pair.mp hreq with rfl | rfl
  · simp only [ArrayListHeader.length_bytes, ReaderConfig.posIn]
    omega
  · simp only [length_payload, ReaderConfig.posIn]
    omega

theorem storedWrites_inNewCell_le {packet : PacketMeta} {fetched ts : ℕ} {newIndex : Bool}
    (hplaced : Placed cfg reader cell) (hs : Splits cfg reader packet)
    (hreq : req ∈ (storedWrites cfg reader packet fetched ts cell newIndex).inNewCell) :
    req.diskPos + req.data.length ≤ cfg.posIn fetched
      (reader.writeOffset + pcapHeaderLen + packet.len + cellTailLen - cfg.cellSize) := by
  have hoffset := hplaced.offset_le
  unfold storedWrites at hreq
  rw [if_pos hs] at hreq
  rw [Splits] at hs
  by_cases hh : pcapHeaderLen > room cfg reader
  · rw [if_pos hh] at hreq
    rw [room] at hh
    rcases List.mem_pair.mp hreq with rfl | rfl
    · split_ifs with hzero
      · simp only [room, ArrayListHeader.length_bytes, ReaderConfig.posIn] at hzero ⊢
        omega
      · simp only [room, List.length_drop, ArrayListHeader.length_bytes, ReaderConfig.posIn]
        omega
    · simp only [room, length_payload, ReaderConfig.posIn]
      omega
  · rw [if_neg hh] at hreq
    rw [room] at hh
    obtain rfl := List.mem_singleton.mp hreq
    simp only [room, Memory.length_read, ReaderConfig.posIn]
    omega

theorem takesCell_eq (hregular : Regular cfg first reader cell arrival) :
    (plan cfg reader arrival).takesCell =
      decide (Splits cfg reader (readPacket cfg arrival.buf arrival.ts)) := by
  unfold plan handlePacket
  rw [if_neg hregular.1]
  simp only [needsCell_iff]

theorem takesCell_of_splits (hregular : Regular cfg first reader cell arrival)
    (hs : Splits cfg reader (readPacket cfg arrival.buf arrival.ts)) :
    (plan cfg reader arrival).takesCell = true := by
  rw [takesCell_eq hregular, decide_eq_true hs]

/-- The calls that store a packet are elsewhere than anything behind the reader. -/
theorem Behind.apart (h : Behind cfg first reader cell own) (hplaced : Placed cfg reader cell)
    (hcell : cell < first + cfg.cellNum) (hregular : Regular cfg first reader cell arrival)
    (hreq : req ∈ (stored cfg reader cell arrival).all) : Store.Apart req own := by
  obtain ⟨place, hin, hfirst, hle, hbefore⟩ := h
  rcases List.mem_append.mp hreq with hreq | hreq
  · by_cases hsame : place = cell
    · exact .inr ((hbefore hsame).trans (storedWrites_inCell_ge hreq))
    · have hreqIn := (storedWrites_inCell hplaced hreq).1
      refine (apart_of_cells ?_ hin hreqIn).symm
      exact mod_ne_of_lap (by omega) (by omega)
  · obtain ⟨hsplits, hreqIn, -⟩ := storedWrites_inNewCell hplaced hregular.2.1 hreq
    obtain ⟨hlater, hlap⟩ := hregular.2.2 (takesCell_of_splits hregular hsplits)
    refine (apart_of_cells ?_ hin hreqIn).symm
    exact mod_ne_of_lap (by omega) (by omega)

/-- What is behind the reader stays behind it. -/
theorem Behind.next (h : Behind cfg first reader cell own)
    (hregular : Regular cfg first reader cell arrival) :
    Behind cfg first (plan cfg reader arrival).reader (nextCell cfg reader cell arrival) own := by
  obtain ⟨place, hin, hfirst, hle, hbefore⟩ := h
  refine ⟨place, hin, hfirst, ?_⟩
  unfold nextCell
  cases htakes : (plan cfg reader arrival).takesCell with
  | true =>
      have hlater := (hregular.2.2 htakes).1
      rw [if_pos rfl]
      exact ⟨by omega, fun hsame => by omega⟩
  | false =>
      rw [if_neg (by decide)]
      refine ⟨hle, fun hsame => (hbefore hsame).trans ?_⟩
      have hcursor : (plan cfg reader arrival).reader.writeOffset = _ :=
        handlePacket_writeOffset hregular.fits htakes
      rw [hcursor, ReaderConfig.posIn, ReaderConfig.posIn]
      omega

/-- Once a packet is stored it is behind the reader. -/
theorem behind_stored (hplaced : Placed cfg reader cell) (hfirst : first ≤ cell)
    (hregular : Regular cfg first reader cell arrival)
    (hreq : req ∈ (stored cfg reader cell arrival).all) :
    Behind cfg first (plan cfg reader arrival).reader (nextCell cfg reader cell arrival) req := by
  have hfit := hregular.2.1
  by_cases hs : Splits cfg reader (readPacket cfg arrival.buf arrival.ts)
  · have htakes := takesCell_of_splits hregular hs
    have hlater := (hregular.2.2 htakes).1
    have hnext : nextCell cfg reader cell arrival = arrival.fetched := if_pos htakes
    rw [hnext]
    rcases List.mem_append.mp hreq with hreq | hreq
    · refine ⟨cell, (storedWrites_inCell hplaced hreq).1, hfirst, hlater.le, fun hsame => ?_⟩
      omega
    · refine ⟨arrival.fetched, (storedWrites_inNewCell hplaced hfit hreq).2.1, by omega, le_rfl,
        fun _ => ?_⟩
      have hcursor : (plan cfg reader arrival).reader.writeOffset = _ :=
        handlePacket_writeOffset_of_splits hplaced hfit hregular.1 hs
      rw [hcursor]
      exact storedWrites_inNewCell_le hplaced hs hreq
  · have hno : (plan cfg reader arrival).takesCell = false := by
      rw [takesCell_eq hregular, decide_eq_false hs]
    have hnext : nextCell cfg reader cell arrival = cell := if_neg (by rw [hno]; decide)
    have hcursor : (plan cfg reader arrival).reader.writeOffset = _ :=
      handlePacket_writeOffset hregular.fits hno
    rw [hnext]
    rcases List.mem_append.mp hreq with hreq | hreq
    · refine ⟨cell, (storedWrites_inCell hplaced hreq).1, hfirst, le_rfl, fun _ => ?_⟩
      rw [hcursor]
      exact storedWrites_inCell_le hs hreq
    · exact absurd (storedWrites_inNewCell hplaced hfit hreq).1 hs

/-- Every call for a packet lies in one cell. -/
theorem handle_inCell (haligned : cfg.Aligned) (hplaced : Placed cfg reader cell)
    (hoffsets : OffsetsPlaced cfg reader) (hregular : Regular cfg first reader cell arrival)
    (hreq : req ∈ (handle cfg reader arrival).reqs) : ∃ place, InCell cfg place req := by
  obtain ⟨diff, hreqs⟩ := handle_reqs haligned hplaced hregular
  rw [hreqs] at hreq
  rcases List.mem_append.mp hreq with hstored | hpatch
  · rcases List.mem_append.mp hstored with hin | hin
    · exact ⟨cell, (storedWrites_inCell hplaced hin).1⟩
    · exact ⟨arrival.fetched, (storedWrites_inNewCell hplaced hregular.2.1 hin).2.1⟩
  · cases hlast : (handle cfg reader arrival).last with
    | none =>
        rw [hlast] at hpatch
        exact absurd hpatch List.not_mem_nil
    | some last =>
        rw [hlast] at hpatch
        obtain rfl := List.mem_singleton.mp hpatch
        exact hoffsets.inCell haligned hplaced hlast

/-! ## The rest of the run -/

theorem nextCell_lt (hcell : cell < first + cfg.cellNum)
    (hregular : Regular cfg first reader cell arrival) :
    nextCell cfg reader cell arrival < first + cfg.cellNum := by
  unfold nextCell
  split_ifs with htakes
  · exact (hregular.2.2 htakes).2
  · exact hcell

theorem runLoop_inCell (haligned : cfg.Aligned) {rest : List Arrival}
    (hplaced : Placed cfg reader cell) (hoffsets : OffsetsPlaced cfg reader)
    (hregular : AllRegular cfg first reader cell rest)
    (hreq : req ∈ (runLoop cfg reader rest).flatMap Handled.reqs) :
    ∃ place, InCell cfg place req := by
  induction rest generalizing reader cell with
  | nil => exact absurd hreq List.not_mem_nil
  | cons arrival rest ih =>
      obtain ⟨hnow, hrest⟩ := hregular
      rw [runLoop, List.flatMap_cons] at hreq
      rcases List.mem_append.mp hreq with hreq | hreq
      · exact handle_inCell haligned hplaced hoffsets hnow hreq
      · exact ih (hnow.placed hplaced) (hoffsets.plan haligned hplaced hnow) hrest hreq

/-- The calls of later packets are elsewhere, unless they are patches. -/
theorem runLoop_apart (haligned : cfg.Aligned) {rest : List Arrival}
    (hplaced : Placed cfg reader cell) (hcell : cell < first + cfg.cellNum)
    (hregular : AllRegular cfg first reader cell rest) (hbehind : Behind cfg first reader cell own)
    (hunpatched : ∀ later ∈ runLoop cfg reader rest, ∀ last, later.last = some last →
      ∀ diff, Store.Apart (writeBefore diff last) own)
    (hreq : req ∈ (runLoop cfg reader rest).flatMap Handled.reqs) : Store.Apart req own := by
  induction rest generalizing reader cell with
  | nil => exact absurd hreq List.not_mem_nil
  | cons arrival rest ih =>
      obtain ⟨hnow, hrest⟩ := hregular
      rw [runLoop, List.flatMap_cons] at hreq
      rcases List.mem_append.mp hreq with hreq | hreq
      · obtain ⟨diff, hreqs⟩ := handle_reqs haligned hplaced hnow
        rw [hreqs] at hreq
        rcases List.mem_append.mp hreq with hstored | hpatch
        · exact hbehind.apart hplaced hcell hnow hstored
        · cases hlast : (handle cfg reader arrival).last with
          | none =>
              rw [hlast] at hpatch
              exact absurd hpatch List.not_mem_nil
          | some last =>
              rw [hlast] at hpatch
              obtain rfl := List.mem_singleton.mp hpatch
              exact hunpatched _ List.mem_cons_self last hlast diff
      · exact ih (hnow.placed hplaced) (nextCell_lt hcell hnow) hrest (hbehind.next hnow)
          (fun later hlater => hunpatched later (List.mem_cons_of_mem _ hlater)) hreq

/-- While the flow's last packet is not patched, the flow's next one is indexed. -/
theorem takeWhile_linked_eq_nil (haligned : cfg.Aligned) {rest : List Arrival}
    {flow : FlowMetadata} {attr : FlowAttr} (hplaced : Placed cfg reader cell)
    (hregular : AllRegular cfg first reader cell rest)
    (hlatest : reader.packetAggregator.aggMap flow = some attr)
    (hnever : ∀ later ∈ runLoop cfg reader rest, later.last ≠ some attr.lastOffset) :
    ((runLoop cfg reader rest).filter fun later => later.flow = flow).takeWhile
      (fun later => later.last.isSome) = [] := by
  induction rest generalizing reader cell with
  | nil => rfl
  | cons arrival rest ih =>
      obtain ⟨hnow, hrest⟩ := hregular
      rw [runLoop]
      by_cases hflow : (handle cfg reader arrival).flow = flow
      · have hnone : (handle cfg reader arrival).last = none := by
          cases hlast : (handle cfg reader arrival).last with
          | none => rfl
          | some last =>
              refine absurd hlast ?_
              have hlinked := hlast
              rw [handle_last haligned hplaced] at hlinked
              obtain ⟨found, hfound, -, rfl⟩ := PacketAggregator.addPacket_fst_eq_some.mp hlinked
              have hsame : found = attr := by
                have hkey : getFlowMetaData cfg (readPacket cfg arrival.buf arrival.ts) = flow :=
                  hflow
                rw [hkey, hlatest] at hfound
                exact (Option.some.inj hfound).symm
              rw [hsame]
              exact hnever _ List.mem_cons_self
        rw [List.filter_cons_of_pos (by simpa using hflow),
          List.takeWhile_cons_of_neg (by rw [hnone]; decide)]
      · rw [List.filter_cons_of_neg (by simpa using hflow)]
        refine ih (hnow.placed hplaced) hrest ?_ fun later hlater =>
          hnever later (List.mem_cons_of_mem _ hlater)
        rw [plan_aggMap haligned hplaced hnow, Function.update_of_ne (Ne.symm hflow)]
        exact hlatest

/-- The first byte of a packet is one of its own calls'. -/
theorem exists_first (cfg : ReaderConfig) (reader : DPDKReader) (packet : PacketMeta)
    (fetched ts cell : ℕ) (newIndex : Bool) :
    ∃ own ∈ (storedWrites cfg reader packet fetched ts cell newIndex).all,
      own.diskPos = cfg.posIn cell reader.writeOffset ∧ 0 < own.data.length := by
  have hheader : 0 < packet.header.bytes.length := by
    rw [packet.header.length_bytes]
    decide
  unfold storedWrites
  by_cases hs : Splits cfg reader packet
  · rw [if_pos hs]
    by_cases hh : pcapHeaderLen > room cfg reader
    · rw [if_pos hh]
      by_cases hzero : room cfg reader = 0
      · refine ⟨_, List.mem_append_left _ (List.mem_append_right _ (.head _)), ?_, ?_⟩
        · rw [hzero]
          rfl
        · rw [length_toLittleEndian]
          decide
      · refine ⟨_, List.mem_append_left _ (List.mem_append_left _
          (by rw [if_pos hzero]; exact .head _)), rfl, ?_⟩
        rw [List.length_take]
        omega
    · rw [if_neg hh]
      exact ⟨_, List.mem_append_left _ (List.mem_append_left _ (List.mem_append_left _ (.head _))),
        rfl, hheader⟩
  · rw [if_neg hs]
    exact ⟨_, .head _, rfl, hheader⟩

/-! ## Following the chain -/

/-- Started at the packet, the querier visits its chain and stops. -/
def VisitsChain (q : QuerierConfig) (disk : Memory) (packet : Handled) (rest : List Handled) :
    Prop :=
  ∀ (fresh : ℕ → Memory) (dataBuffer : Memory), ∃ fuel printed,
    Querier.readPackets q disk fresh fuel (Querier.start [packet.offset] dataBuffer) =
      some printed ∧ printed.map Printed.offset = chain packet rest

/-- From an indexed packet on, any packets of a reader are stored and their blocks
dumped.  If no later patch touches the packet, its chain is followed. -/
theorem visits_chain {cfg : DataPathConfig} {reader : DPDKReader} {arrival : Arrival}
    {rest : List Arrival} {cell dataBufferSize threadId : ℕ} {store final : Store}
    (hplaced : Placed cfg.reader reader cell) (hoffsets : OffsetsPlaced cfg.reader reader)
    (hregular : AllRegular cfg.reader cell reader cell (arrival :: rest))
    (hindexed : (handle cfg.reader reader arrival).last = none)
    (hbuffer : 2 ≤ dataBufferSize / cfg.cellSize) (hwell : Store.WellFormed cfg store)
    (hstores : Store.Stores cfg threadId []
      ((runLoop cfg.reader reader (arrival :: rest)).flatMap Handled.reqs) store final)
    (hdumped : ∀ req ∈ (handle cfg.reader reader arrival).reqs,
      ¬ final.buffer.Holds cfg.buffer req.diskPos)
    (hunpatched : Unpatched (handle cfg.reader reader arrival)
      (runLoop cfg.reader (plan cfg.reader reader arrival).reader rest)) :
    VisitsChain (cfg.querier dataBufferSize) final.disk (handle cfg.reader reader arrival)
      (runLoop cfg.reader (plan cfg.reader reader arrival).reader rest) := by
  have haligned := cfg.aligned
  obtain ⟨hnow, hrest⟩ := id hregular
  obtain ⟨diff, hreqs⟩ := handle_reqs haligned hplaced hnow
  rw [hindexed, List.append_nil] at hreqs
  -- the packet's own calls come first, and nothing after them touches their bytes
  have hdisk : OnDisk final.disk (stored cfg.reader reader cell arrival).all := by
    intro own hown
    have hownHandled : own ∈ (handle cfg.reader reader arrival).reqs := hreqs ▸ hown
    obtain ⟨before, after, hsplit⟩ := List.append_of_mem hown
    have hall : (runLoop cfg.reader reader (arrival :: rest)).flatMap Handled.reqs =
        before ++ own :: (after ++ (runLoop cfg.reader (plan cfg.reader reader arrival).reader
          rest).flatMap Handled.reqs) := by
      rw [runLoop, List.flatMap_cons, hreqs, hsplit, List.append_assoc, List.cons_append]
    have hpairwise : (stored cfg.reader reader cell arrival).all.Pairwise Store.Apart := by
      by_cases hs : Splits cfg.reader reader (readPacket cfg.reader arrival.buf arrival.ts)
      · obtain ⟨hlater, hlap⟩ := hnow.2.2 (takesCell_of_splits hnow hs)
        exact storedWrites_pairwise hplaced hnow.2.1 (mod_ne_of_lap hlater hlap)
      · refine List.pairwise_append.mpr ⟨storedWrites_inCell_pairwise,
          storedWrites_inNewCell_pairwise, fun _ _ second hsecond => ?_⟩
        exact absurd (storedWrites_inNewCell hplaced hnow.2.1 hsecond).1 hs
    have hapart : ∀ req ∈ after ++ (runLoop cfg.reader (plan cfg.reader reader arrival).reader
        rest).flatMap Handled.reqs, Store.Apart req own := by
      intro req hreq
      rcases List.mem_append.mp hreq with hreq | hreq
      · rw [hsplit, List.pairwise_append, List.pairwise_cons] at hpairwise
        exact (hpairwise.2.1.1 req hreq).symm
      · refine runLoop_apart haligned (hnow.placed hplaced) (nextCell_lt ?_ hnow) hrest
          (behind_stored hplaced le_rfl hnow hown) ?_ hreq
        · exact Nat.lt_add_of_pos_right cfg.cellNum_pos
        · intro later hlater last hlast diff
          exact hunpatched later hlater last hlast own hownHandled diff
    have hblocks : ∀ req ∈ (runLoop cfg.reader reader (arrival :: rest)).flatMap Handled.reqs,
        Store.InBlock cfg req := by
      intro req hreq
      obtain ⟨place, hin⟩ := runLoop_inCell haligned hplaced hoffsets hregular hreq
      exact Store.inBlock_of_inCell hin
    have hownBlock : Store.InBlock cfg own :=
      hblocks own (hall ▸ List.mem_append_right _ (.head _))
    exact (hstores.has hwell hblocks hall (storedWrites_newData hown) hapart).disk hownBlock
      (hdumped own hownHandled)
  -- the flow's next packet is not linked to this one, for its patch would touch it
  have hchain : chain (handle cfg.reader reader arrival)
      (runLoop cfg.reader (plan cfg.reader reader arrival).reader rest) =
      [(handle cfg.reader reader arrival).offset] := by
    have hlatest : (plan cfg.reader reader arrival).reader.packetAggregator.aggMap
        (handle cfg.reader reader arrival).flow =
        some ⟨cfg.reader.posIn cell reader.writeOffset, arrival.ts⟩ := by
      rw [plan_aggMap haligned hplaced hnow, Function.update_self]
    unfold chain
    rw [takeWhile_linked_eq_nil haligned (hnow.placed hplaced) hrest hlatest, List.map_nil]
    intro later hlater hlast
    obtain ⟨own, hown, hpos, hlen⟩ := exists_first cfg.reader reader
      (readPacket cfg.reader arrival.buf arrival.ts) arrival.fetched arrival.ts cell
      (handle cfg.reader reader arrival).last.isNone
    have hapart := hunpatched later hlater _ hlast own (hreqs ▸ hown) 0
    have hwidth : (writeBefore 0 (cfg.reader.posIn cell reader.writeOffset)).data.length = 4 :=
      length_toLittleEndian _ _
    have hstart : (writeBefore 0 (cfg.reader.posIn cell reader.writeOffset)).diskPos =
        cfg.reader.posIn cell reader.writeOffset := rfl
    rw [Store.Apart, hwidth, hstart] at hapart
    omega
  intro fresh dataBuffer
  rw [hchain, handle_offset haligned hplaced]
  refine ⟨2, _, (readPackets_stored hplaced (received_readPacket _ _ _) hnow.2.1 hbuffer hdisk 2
    _).mpr ⟨le_rfl, rfl⟩, rfl⟩

open DataPath (oneReader ipv4Packet)

/-- A reader at the start of cell 0 that has seen no packet. -/
def freshReader : DPDKReader := { DPDKReader.new 64 0 0 with writeCell := 0 }

def firstArrival : Arrival := { buf := ipv4Packet 12, ts := 0, fetched := 0 }

/-- An IPv4 packet from another address. -/
def otherArrival : Arrival :=
  { buf := { data := fun addr => if addr = 14 then 0x45 else if addr = 26 then 1 else 0
             dataLen := 26 }
    ts := 0
    fetched := 0 }

/-- The calls for the first packet and one more. -/
def pairReqs (second : Arrival) : List WriteRequest :=
  (runLoop oneReader.reader freshReader [firstArrival, second]).flatMap Handled.reqs

def emptyStore : Store := { buffer := (DataPath.State.init oneReader).buffer, disk := fun _ => 0 }

/-- Both packets are stored, and their block is dumped. -/
def pairDumped (second : Arrival) : Store :=
  (Store.writtenAll oneReader 0 (pairReqs second) emptyStore).retire oneReader 0

theorem placed_fresh : Placed oneReader.reader freshReader 0 := ⟨rfl, by decide⟩

theorem allRegular_pair (second : Arrival)
    (hfirst : Regular oneReader.reader 0 freshReader 0 firstArrival)
    (hsecond : Regular oneReader.reader 0 (plan oneReader.reader freshReader firstArrival).reader
      (nextCell oneReader.reader freshReader 0 firstArrival) second) :
    AllRegular oneReader.reader 0 freshReader 0 [firstArrival, second] :=
  ⟨hfirst, hsecond, trivial⟩

theorem visits_chain_other : VisitsChain (oneReader.querier 128) (pairDumped otherArrival).disk
    (handle oneReader.reader freshReader firstArrival)
    (runLoop oneReader.reader (plan oneReader.reader freshReader firstArrival).reader
      [otherArrival]) := by
  refine visits_chain placed_fresh (offsetsPlaced_new 64 0 0)
    (allRegular_pair otherArrival (by decide +kernel) (by decide +kernel)) (by decide +kernel)
    (by decide) (wellFormed_init oneReader fun _ => 0)
    (Store.stores_of_writeAll (Store.writeAll_eq (by decide +kernel))
      (.retire 0 (by decide +kernel) .done)) (by decide +kernel) ?_
  have hnone : ∀ later ∈ runLoop oneReader.reader
      (plan oneReader.reader freshReader firstArrival).reader [otherArrival],
      later.last = none := by decide +kernel
  intro later hlater last hlast
  rw [hnone later hlater] at hlast
  exact absurd hlast (Option.some_ne_none _).symm

/-- Two packets of one flow: the second one is linked to the first, whose patched
header still says that it is the last. -/
theorem chain_cut : AllRegular oneReader.reader 0 freshReader 0 [firstArrival, firstArrival] ∧
    (handle oneReader.reader freshReader firstArrival).last = none ∧
    Store.Stores oneReader 0 [] (pairReqs firstArrival) emptyStore (pairDumped firstArrival) ∧
    (∀ req ∈ pairReqs firstArrival,
      ¬ (pairDumped firstArrival).buffer.Holds oneReader.buffer req.diskPos) ∧
    ¬ VisitsChain (oneReader.querier 128) (pairDumped firstArrival).disk
      (handle oneReader.reader freshReader firstArrival)
      (runLoop oneReader.reader (plan oneReader.reader freshReader firstArrival).reader
        [firstArrival]) := by
  refine ⟨allRegular_pair firstArrival (by decide +kernel) (by decide +kernel), by decide +kernel,
    Store.stores_of_writeAll (Store.writeAll_eq (by decide +kernel))
      (.retire 0 (by decide +kernel) .done), by decide +kernel, fun hvisits => ?_⟩
  obtain ⟨fuel, printed, hprinted, hchain⟩ := hvisits (fun _ _ => 0) fun _ => 0
  have hlocated : Querier.Located (oneReader.querier 128)
      (handle oneReader.reader freshReader firstArrival).offset 0 0 := by
    rw [handle_offset oneReader.aligned placed_fresh]
    exact located placed_fresh (by decide)
  let decoded := (Querier.loaded (oneReader.querier 128) (pairDumped firstArrival).disk
    (handle oneReader.reader freshReader firstArrival).offset 0 fun _ => 0).decode
      (oneReader.querier 128) (pairDumped firstArrival).disk (fun _ _ => 0)
      (handle oneReader.reader freshReader firstArrival).offset
  have hsome : decoded.isSome = true := by decide +kernel
  have hlast : decoded.map Decoded.next = some (2 ^ 32 - 1) := by decide +kernel
  obtain ⟨got, hgot⟩ := Option.isSome_iff_exists.mp hsome
  rw [hgot] at hlast
  have hnext : got.next = 2 ^ 32 - 1 := Option.some.inj hlast
  rw [Querier.readPackets_start hlocated hgot hnext] at hprinted
  have hlength := congrArg List.length hchain
  rw [hprinted.2, List.length_map, List.length_singleton] at hlength
  exact absurd hlength (by decide +kernel)

end FlowChain

end TrafficDatabase
