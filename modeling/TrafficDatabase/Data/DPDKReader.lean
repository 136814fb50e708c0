import TrafficDatabase.Data.PacketAggregator

/-!
# The packet reader

`DPDKReader` lays packets out on the data disk.  Every reader fills one cell at
a time; a new cell comes from the shared counter `diskWriteCell`.  The last
eight bytes of a cell are kept for the number of the cell the reader goes on in,
so a packet that does not fit is split there: `getOffset` reserves the bytes,
`writePacketToPacketBuffer` issues the `writeBlock` calls.

The calls a reader makes for one packet do not depend on their outcome (each is
retried until it succeeds), so the model lists them in order: `CellWrites`.  What
the run loop does after them (`writeBefore` for a linked packet,
`writeIndexToRing` for any other) is the plan's `epilogue`.
-/

namespace TrafficDatabase

/-- `sizeof(pcap_header)`, also the size of `array_list_header`. -/
def pcapHeaderLen : ℕ := 16

/-- `sizeof(u_int64_t)`: the bytes kept at the end of a cell. -/
def cellTailLen : ℕ := 8

structure ArrayListHeader where
  tsH : ℕ
  tsL : ℕ
  caplen : ℕ
  flowNextDiff : ℕ
deriving DecidableEq, Repr

/-- The header as it lies in memory. -/
def ArrayListHeader.bytes (header : ArrayListHeader) : List UInt8 :=
  toLittleEndian 4 header.tsH ++ toLittleEndian 4 header.tsL ++ toLittleEndian 4 header.caplen ++
    toLittleEndian 4 header.flowNextDiff

@[simp] theorem ArrayListHeader.length_bytes (header : ArrayListHeader) :
    header.bytes.length = pcapHeaderLen := by
  simp [bytes, pcapHeaderLen]

/-- A received packet: `rte_pktmbuf_mtod` and `rte_pktmbuf_data_len`. -/
structure Mbuf where
  data : Memory
  dataLen : ℕ

structure PacketMeta where
  header : ArrayListHeader
  data : Memory
  len : ℕ

/-- An index record on its way to the generators. -/
structure Index where
  ts : ℕ
  diskBlockId : ℕ
  position : ℕ
  rxId : ℕ
  flow : FlowMetadata
deriving DecidableEq, Repr

/-- The constants of a reader. -/
structure ReaderConfig where
  ethHeaderLen : ℕ
  diskSize : ℕ
  blockSize : ℕ
  cellSize : ℕ
deriving DecidableEq, Repr

def ReaderConfig.cellNum (cfg : ReaderConfig) : ℕ := cfg.diskSize / cfg.cellSize

structure DPDKReader where
  packetAggregator : PacketAggregator
  writeCell : ℕ
  writeOffset : ℕ
  threadId : ℕ
  rxId : ℕ

/-- What the run loop still has to do once the packet itself is stored. -/
inductive Epilogue
  | writeBefore (req : WriteRequest)
  | writeIndexToRing (index : Index)
deriving DecidableEq, Repr

/-- The `writeBlock` calls for one packet, in order: first those in the cell the
packet starts in, then those in the new cell. -/
structure CellWrites where
  inCell : List WriteRequest
  inNewCell : List WriteRequest
deriving DecidableEq, Repr

def CellWrites.all (writes : CellWrites) : List WriteRequest := writes.inCell ++ writes.inNewCell

/-! ## Reading the packet -/

/-- As the source has it, masks included. -/
def swapEndianness (value : UInt64) : UInt64 :=
  (value >>> 56 &&& (0x00000000000000FF : UInt64)) |||
  (value >>> 40 &&& (0x000000000000FF00 : UInt64)) |||
  (value >>> 24 &&& (0x00000000FF000000 : UInt64)) |||
  (value >>> 8 &&& (0x00FF000000000000 : UInt64)) |||
  (value <<< 8 &&& (0xFF00000000000000 : UInt64)) |||
  (value <<< 24 &&& (0x0000FF0000000000 : UInt64)) |||
  (value <<< 40 &&& (0x000000FF00000000 : UInt64)) |||
  (value <<< 56 &&& (0x00000000000000FF : UInt64))

namespace DPDKReader

variable (cfg : ReaderConfig)

/-- The constructor's checks. -/
def Accepts : Prop :=
  cfg.cellNum &&& (cfg.cellNum - 1) = 0 ∧ cfg.blockSize % cfg.cellSize = 0

instance : Decidable (Accepts cfg) := inferInstanceAs (Decidable (_ ∧ _))

def new (capacity threadId rxId : ℕ) : DPDKReader :=
  { packetAggregator := PacketAggregator.new capacity u64Max
    writeCell := u64Max
    writeOffset := 0
    threadId
    rxId }

def readPacket (buf : Mbuf) (ts : ℕ) : PacketMeta :=
  let caplen := (buf.dataLen + 2 ^ 32 - cfg.ethHeaderLen) % 2 ^ 32
  { header :=
      { tsH := ts / 2 ^ 32, tsL := ts % 2 ^ 32, caplen := caplen, flowNextDiff := 2 ^ 32 - 1 }
    data := buf.data
    len := caplen }

/-- The 16-bit number in network order at `addr`. -/
def networkPort (data : Memory) (addr : ℕ) : ℕ :=
  256 * (data addr).toNat + (data (addr + 1)).toNat

/-- The half of an IPv6 address at `addr`, as `getFlowMetaData` stores it. -/
def swappedHalf (data : Memory) (addr : ℕ) : List UInt8 :=
  toLittleEndian 8 (swapEndianness (UInt64.ofNat (ofLittleEndian (data.read addr 8)))).toNat

/-- An IPv4 address is stored by `htonl`, that is with its bytes reversed. -/
def getFlowMetaData (packet : PacketMeta) : FlowMetadata :=
  let l3 := cfg.ethHeaderLen
  let first := (packet.data l3).toNat
  let version := first / 16
  if version = 4 then
    let l4 := l3 + first % 16 * 4
    { sourceAddress := (packet.data.read (l3 + 12) 4).reverse
      destinationAddress := (packet.data.read (l3 + 16) 4).reverse
      sourcePort := networkPort packet.data l4
      destinationPort := networkPort packet.data (l4 + 2) }
  else if version = 6 then
    { sourceAddress := swappedHalf packet.data (l3 + 16) ++ swappedHalf packet.data (l3 + 8)
      destinationAddress := swappedHalf packet.data (l3 + 32) ++ swappedHalf packet.data (l3 + 24)
      sourcePort := networkPort packet.data (l3 + 40)
      destinationPort := networkPort packet.data (l3 + 42) }
  else
    { sourceAddress := [], destinationAddress := [], sourcePort := 0, destinationPort := 0 }

/-! ## Laying the packet out -/

/-- Reserve the bytes of a packet of `len` bytes; returns its disk position. -/
def getOffset (reader : DPDKReader) (len : ℕ) : ℕ × DPDKReader :=
  let offset := reader.writeOffset + reader.writeCell * cfg.cellSize
  let reserved := reader.writeOffset + (pcapHeaderLen + len)
  (offset % cfg.diskSize,
    { reader with
      writeOffset :=
        if reserved + cellTailLen > cfg.cellSize then reserved + cellTailLen else reserved })

/-- After `getOffset`: the packet goes on in a new cell. -/
def NeedsCell (reader : DPDKReader) : Prop := reader.writeOffset > cfg.cellSize

instance (reader : DPDKReader) : Decidable (NeedsCell cfg reader) :=
  inferInstanceAs (Decidable (_ > _))

/-- The payload: what follows the Ethernet header. -/
def payload (packet : PacketMeta) : List UInt8 := packet.data.read cfg.ethHeaderLen packet.len

/-- The packet stays in its cell. -/
def wholeWrites (packet : PacketMeta) (ts offset : ℕ) (newIndex : Bool) : CellWrites :=
  { inCell :=
      [ { data := packet.header.bytes, diskPos := offset, newData := true, newIndex, ts },
        { data := payload cfg packet, diskPos := offset + pcapHeaderLen, newData := true,
          newIndex := false, ts } ]
    inNewCell := [] }

/-- The header does not fit before the cell's tail. -/
def headerSplitWrites (packet : PacketMeta) (ts offset newOffset tmpLen nextPos : ℕ)
    (newIndex : Bool) : CellWrites :=
  { inCell :=
      (if tmpLen ≠ 0 then
        [{ data := packet.header.bytes.take tmpLen, diskPos := offset, newData := true, newIndex,
           ts }]
      else []) ++
      [{ data := toLittleEndian cellTailLen nextPos, diskPos := offset + tmpLen, newData := true,
         newIndex := false, ts }]
    inNewCell :=
      [ if tmpLen = 0 then
          { data := packet.header.bytes, diskPos := newOffset, newData := true, newIndex, ts }
        else
          { data := packet.header.bytes.drop tmpLen, diskPos := newOffset, newData := true,
            newIndex := false, ts },
        { data := payload cfg packet, diskPos := newOffset + pcapHeaderLen - tmpLen,
          newData := true, newIndex := false, ts } ] }

/-- The header fits but the payload does not.  Both pieces of the payload are
taken from its start, as the source has it. -/
def payloadSplitWrites (packet : PacketMeta) (ts offset newOffset tmpLen nextPos : ℕ)
    (newIndex : Bool) : CellWrites :=
  { inCell :=
      [{ data := packet.header.bytes, diskPos := offset, newData := true, newIndex, ts }] ++
      (if tmpLen > pcapHeaderLen then
        [{ data := packet.data.read cfg.ethHeaderLen (tmpLen - pcapHeaderLen),
           diskPos := offset + pcapHeaderLen, newData := true, newIndex := false, ts }]
      else []) ++
      [{ data := toLittleEndian cellTailLen nextPos, diskPos := offset + tmpLen, newData := true,
         newIndex := false, ts }]
    inNewCell :=
      [{ data := packet.data.read cfg.ethHeaderLen (packet.len + pcapHeaderLen - tmpLen),
         diskPos := newOffset, newData := true, newIndex := false, ts }] }

/-- The calls of `writePacketToPacketBuffer`; `fetched` is what `diskWriteCell`
returned, in case the packet needs a new cell. -/
def writePacketToPacketBuffer (reader : DPDKReader) (packet : PacketMeta) (ts offset : ℕ)
    (newIndex : Bool) (fetched : ℕ) : DPDKReader × CellWrites :=
  if NeedsCell cfg reader then
    let writeCell := fetched % cfg.cellNum
    let tmpLen := cfg.cellSize - offset % cfg.cellSize - cellTailLen
    let newOffset := writeCell * cfg.cellSize
    ({ reader with writeCell, writeOffset := reader.writeOffset % cfg.cellSize },
      if pcapHeaderLen > tmpLen then
        headerSplitWrites cfg packet ts offset newOffset tmpLen writeCell newIndex
      else payloadSplitWrites cfg packet ts offset newOffset tmpLen writeCell newIndex)
  else (reader, wholeWrites cfg packet ts offset newIndex)

def calDiff (offset lastOffset : ℕ) : ℕ := (offset + cfg.diskSize - lastOffset) % cfg.diskSize

/-- The one `writeBlock` call of `writeBefore`; its result is ignored. -/
def writeBefore (diff lastOffset : ℕ) : WriteRequest :=
  { data := toLittleEndian 4 diff, diskPos := lastOffset, newData := false, newIndex := false,
    ts := 0 }

def writeIndexToRing (reader : DPDKReader) (value : ℕ) (flow : FlowMetadata) (ts : ℕ) : Index :=
  { ts, diskBlockId := value / cfg.blockSize, position := value, rxId := reader.rxId, flow }

end DPDKReader

/-! ## One packet of the run loop -/

/-- What the run loop does with one packet. -/
structure PacketPlan where
  reader : DPDKReader
  /-- The packet takes a cell from `diskWriteCell`. -/
  takesCell : Bool
  writes : CellWrites
  epilogue : Option Epilogue

namespace DPDKReader

variable (cfg : ReaderConfig)

/-- A packet of no known L3 protocol. -/
def NonIP (packet : PacketMeta) : Prop := (getFlowMetaData cfg packet).sourceAddress.length = 0

instance (packet : PacketMeta) : Decidable (NonIP cfg packet) :=
  inferInstanceAs (Decidable (_ = _))

/-- The body of the run loop, for a packet read at `ts`.  A packet of no known
protocol is dropped after its bytes have been reserved. -/
def handlePacket (reader : DPDKReader) (packet : PacketMeta) (ts fetched : ℕ) : PacketPlan :=
  let offset := (reader.getOffset cfg packet.len).1
  let reserved := (reader.getOffset cfg packet.len).2
  if NonIP cfg packet then
    { reader := reserved, takesCell := false, writes := ⟨[], []⟩, epilogue := none }
  else
    let flow := getFlowMetaData cfg packet
    let added := reserved.packetAggregator.addPacket flow offset ts cfg.diskSize
    let stored := { reserved with packetAggregator := added.2 }.writePacketToPacketBuffer cfg packet
      ts offset added.1.isNone fetched
    { reader := stored.1
      takesCell := NeedsCell cfg reserved
      writes := stored.2
      epilogue := some <|
        match added.1 with
        | some last => .writeBefore (writeBefore (calDiff cfg offset last % 2 ^ 32) last)
        | none => .writeIndexToRing (stored.1.writeIndexToRing cfg offset flow ts) }

/-- `run` takes its first cell before the loop; the number is not reduced. -/
def start (reader : DPDKReader) (fetched : ℕ) : DPDKReader := { reader with writeCell := fetched }

end DPDKReader

end TrafficDatabase
