import TrafficDatabase.Data.FlowDistances

/-!
# The experiments' data handler

`dataHandler` reads a whole capture file into memory, goes through it packet by
packet, and writes it to the disk with an index beside it.  The packets stay where
they are in the file: what `main` changes is the last field of their headers, which
becomes the distance to the flow's next packet if that is near.  A packet that is
not linked to one before it gets an `IndexStore` record.

This module is the program; what it leaves on the disk is in `CaptureStore`.
-/

namespace TrafficDatabase

namespace DataHandler

def bufferSize : ℕ := 1024 * 1024 * 1024

def dataOffset : ℕ := bufferSize * 32

def indexOffset : ℕ := bufferSize * 48

/-- `sizeof(IndexStore)`. -/
def indexEnumLen : ℕ := 72

/-- The file header, which is skipped. -/
def fileHeaderLen : ℕ := 24

structure IndexStore where
  ts : ℕ
  diskBlockId : ℕ
  position : ℕ
  rxId : ℕ
  sourceAddress : List UInt8
  destinationAddress : List UInt8
  sourcePort : ℕ
  destinationPort : ℕ
  version : ℕ
deriving DecidableEq, Repr

/-- The record that lies at an offset of the index. -/
def IndexStore.read (buffer : Memory) (offset : ℕ) : IndexStore :=
  { ts := ofLittleEndian (buffer.read offset 8)
    diskBlockId := ofLittleEndian (buffer.read (offset + 8) 8)
    position := ofLittleEndian (buffer.read (offset + 16) 8)
    rxId := ofLittleEndian (buffer.read (offset + 24) 8)
    sourceAddress := buffer.read (offset + 32) 16
    destinationAddress := buffer.read (offset + 48) 16
    sourcePort := ofLittleEndian (buffer.read (offset + 64) 2)
    destinationPort := ofLittleEndian (buffer.read (offset + 66) 2)
    version := ofLittleEndian (buffer.read (offset + 68) 4) }

/-- `version` is the length of the addresses in their fields of 16 bytes. -/
def IndexStore.flow (store : IndexStore) : FlowMetadata :=
  { sourceAddress := store.sourceAddress.take store.version
    destinationAddress := store.destinationAddress.take store.version
    sourcePort := store.sourcePort
    destinationPort := store.destinationPort }

/-- The `array_list_header` at an offset. -/
def readHeader (buf : Memory) (offset : ℕ) : ArrayListHeader :=
  { tsH := ofLittleEndian (buf.read offset 4)
    tsL := ofLittleEndian (buf.read (offset + 4) 4)
    caplen := ofLittleEndian (buf.read (offset + 8) 4)
    flowNextDiff := ofLittleEndian (buf.read (offset + 12) 4) }

/-- Where `flow_next_diff` lies in a header. -/
def linkOffset : ℕ := 12

/-- The packet at an offset, and the offset behind it. -/
def readPacket (buf : Memory) (offset : ℕ) : Memory × PacketMeta × ℕ :=
  let cleared := buf.write (offset + linkOffset) (toLittleEndian 4 (2 ^ 32 - 1))
  let header := readHeader cleared offset
  (cleared,
    { header, data := fun addr => cleared (offset + pcapHeaderLen + addr), len := 0 },
    offset + header.caplen + pcapHeaderLen)

/-- The program has a copy of the reader's function, for Ethernet frames. -/
def getFlowMetaData (packet : PacketMeta) : FlowMetadata :=
  DPDKReader.getFlowMetaData
    { ethHeaderLen := 14, diskSize := bufferSize, blockSize := bufferSize,
      cellSize := bufferSize } packet

def calDiff (offset lastOffset : ℕ) : ℕ := offset - lastOffset

/-- The assignments to the fields of a record, by their offsets.  `value / BUFFER_SIZE` is a
quotient and two products, as the macro is not bracketed. -/
def indexFields (value : ℕ) (flow : FlowMetadata) (ts : ℕ) : List (ℕ × List UInt8) :=
  [ (0, toLittleEndian 8 ts),
    (16, toLittleEndian 8 value),
    (32, flow.sourceAddress),
    (48, flow.destinationAddress),
    (64, toLittleEndian 2 flow.sourcePort),
    (66, toLittleEndian 2 flow.destinationPort),
    (8, toLittleEndian 8 (value / 1024 * 1024 * 1024)),
    (24, toLittleEndian 8 0),
    (68, toLittleEndian 4 flow.sourceAddress.length) ]

def writeIndexToBuffer (value : ℕ) (flow : FlowMetadata) (ts : ℕ) (buffer : Memory)
    (offset : ℕ) : Memory × ℕ :=
  (buffer.writeFields offset (indexFields value flow ts), offset + indexEnumLen)

def writeBefore (diff lastOffset : ℕ) (buffer : Memory) : Memory :=
  buffer.write (lastOffset + linkOffset) (toLittleEndian 4 diff)

/-! ## The loop over the packets -/

/-- The variables of `main`. -/
structure State where
  readBuffer : Memory
  indexBuffer : Memory
  agg : PacketAggregator
  readOffset : ℕ
  indexOffset : ℕ
  totalLen : ℕ

/-- `ts_h` and `ts_l` as one number. -/
def timeOf (header : ArrayListHeader) : ℕ := header.tsH * 2 ^ 32 + header.tsL

/-- The body of the loop; an error is what `main` returns. -/
def turn (state : State) : Except ℕ State :=
  let read := readPacket state.readBuffer state.readOffset
  let packet := read.2.1
  let newOffset := read.2.2
  let flow := getFlowMetaData packet
  if flow.sourceAddress.length = 0 then .error 3
  else
    let added := state.agg.addPacket flow state.readOffset (timeOf packet.header) bufferSize
    let next := { state with
      readBuffer := read.1
      agg := added.2
      readOffset := newOffset
      totalLen := state.totalLen + (newOffset - state.readOffset) }
    match added.1 with
    | some last =>
        let diff := calDiff state.readOffset last % 2 ^ 32
        .ok { next with readBuffer := writeBefore diff last read.1 }
    | none =>
        let written := writeIndexToBuffer state.readOffset flow (timeOf packet.header)
          state.indexBuffer state.indexOffset
        if written.2 > bufferSize then .error 2
        else .ok { next with indexBuffer := written.1, indexOffset := written.2 }

/-- The loop, for at most `fuel` packets. -/
def run (len : ℕ) : ℕ → State → Option (Except ℕ State)
  | 0, _ => none
  | fuel + 1, state =>
      if state.totalLen ≥ len then some (.ok state)
      else
        match turn state with
        | .error code => some (.error code)
        | .ok next => run len fuel next

/-- A file or a buffer is copied in pieces of `BUFFER_SIZE` bytes. -/
def copyPieces (dst : Memory) (shift : ℕ) (src : Memory) (len : ℕ) : Memory :=
  (List.range ((len + bufferSize - 1) / bufferSize)).foldl
    (fun mem piece =>
      let i := piece * bufferSize
      let batchLen := if i + bufferSize > len then len - i else bufferSize
      mem.write (i + shift) (src.read i batchLen)) dst

/-- The file's bytes by their offsets. -/
def contents (bytes : List UInt8) : Memory := fun addr => bytes.getD addr 0

/-- The variables once the file is read.  The buffer ends with the file; the model has
zeros there and in what is not written yet of the index. -/
def start (bytes : List UInt8) : State :=
  { readBuffer := copyPieces (fun _ => 0) 0 (contents bytes) bytes.length
    indexBuffer := fun _ => 0
    agg := PacketAggregator.new bufferSize u64Max
    readOffset := fileHeaderLen
    indexOffset := 0
    totalLen := fileHeaderLen }

/-- What `main` writes once the packets are parsed. -/
def writeOut (disk : Memory) (len : ℕ) (state : State) : Memory :=
  (copyPieces disk dataOffset state.readBuffer len).write indexOffset
    (state.indexBuffer.read 0 state.indexOffset)

/-- What `main` returns for a file, and the disk after it. -/
def main (bytes : List UInt8) (disk : Memory) : Option (ℕ × Memory) :=
  (run bytes.length (bytes.length + 1) (start bytes)).map fun outcome =>
    match outcome with
    | .error code => (code, disk)
    | .ok state => (0, writeOut disk bytes.length state)

/-! ## Copies in pieces -/

theorem bufferSize_pos : 0 < bufferSize := by decide

/-- The pieces make up the whole. -/
theorem copyPieces_eq (dst : Memory) (shift : ℕ) (src : Memory) (len : ℕ) :
    copyPieces dst shift src len = dst.write shift (src.read 0 len) := by
  have hpos := bufferSize_pos
  -- after some pieces, that many bytes are copied
  have hpieces : ∀ count, (List.range count).foldl
      (fun mem piece => mem.write (piece * bufferSize + shift) (src.read (piece * bufferSize)
        (if piece * bufferSize + bufferSize > len then len - piece * bufferSize
          else bufferSize))) dst =
      dst.write shift (src.read 0 (min len (count * bufferSize))) := by
    intro count
    induction count with
    | zero => simp
    | succ count ih =>
        rw [List.range_succ, List.foldl_append, ih, List.foldl_cons, List.foldl_nil]
        rcases Nat.lt_or_ge (count * bufferSize) len with hlt | hge
        · have hsum : min len ((count + 1) * bufferSize) = count * bufferSize +
              (if count * bufferSize + bufferSize > len then len - count * bufferSize
                else bufferSize) := by
            rw [Nat.succ_mul]
            split_ifs <;> omega
          have hlength : count * bufferSize + shift =
              shift + (src.read 0 (count * bufferSize)).length := by
            rw [Memory.length_read, Nat.add_comm]
          rw [hsum, Memory.read_add, Nat.zero_add, Nat.min_eq_right hlt.le, hlength,
            Memory.write_append]
        · have hnone : (if count * bufferSize + bufferSize > len then len - count * bufferSize
              else bufferSize) = 0 := by
            rw [if_pos (by omega)]
            omega
          rw [hnone, Memory.read_zero, Memory.write_nil, Nat.min_eq_left hge,
            Nat.min_eq_left (by rw [Nat.succ_mul]; omega)]
  have hall : len ≤ (len + bufferSize - 1) / bufferSize * bufferSize := by
    have := Nat.lt_div_mul_add hpos (a := len + bufferSize - 1)
    omega
  unfold copyPieces
  rw [hpieces, Nat.min_eq_left hall]

theorem start_readBuffer (bytes : List UInt8) : (start bytes).readBuffer = contents bytes := by
  change copyPieces (fun _ => 0) 0 (contents bytes) bytes.length = contents bytes
  rw [copyPieces_eq]
  funext addr
  by_cases hin : addr < bytes.length
  · have hinside := Memory.write_apply_inside (fun _ => 0) 0 ((contents bytes).read 0 bytes.length)
      (k := addr) (by rw [Memory.length_read]; exact hin)
    rw [Nat.zero_add, Memory.getElem_read, Nat.zero_add] at hinside
    exact hinside
  · rw [Memory.write_apply_outside (.inr (by rw [Memory.length_read]; omega))]
    simp [contents, List.getElem?_eq_none (not_lt.mp hin)]

/-! ## Index records -/

section IndexRecords

variable {value ts offset : ℕ} {flow : FlowMetadata} {buffer : Memory}

/-- A record is read from its own 72 bytes. -/
theorem IndexStore.read_congr {other : Memory} {place : ℕ}
    (h : ∀ k < 72, buffer (offset + k) = other (place + k)) :
    IndexStore.read buffer offset = IndexStore.read other place := by
  have hpart : ∀ {at' width : ℕ}, at' + width ≤ 72 →
      buffer.read (offset + at') width = other.read (place + at') width := fun hle =>
    Memory.read_part (Memory.read_congr h) hle
  have hfirst := @hpart 0 8 (by decide)
  rw [Nat.add_zero, Nat.add_zero] at hfirst
  unfold IndexStore.read
  rw [hfirst, hpart (by decide), hpart (by decide), hpart (by decide), hpart (by decide),
    hpart (by decide), hpart (by decide), hpart (by decide), hpart (by decide)]

/-- What the addresses and ports of a record can be. -/
structure FlowMetadata.FitsRecord (flow : FlowMetadata) : Prop where
  source : flow.sourceAddress.length ≤ 16
  destination : flow.destinationAddress.length = flow.sourceAddress.length
  sourcePort : flow.sourcePort < 2 ^ 16
  destinationPort : flow.destinationPort < 2 ^ 16

/-- A record is written into its own 72 bytes. -/
theorem writeIndexToBuffer_outside {addr : ℕ} (hfits : FlowMetadata.FitsRecord flow)
    (hout : addr < offset ∨ offset + indexEnumLen ≤ addr) :
    (writeIndexToBuffer value flow ts buffer offset).1 addr = buffer addr := by
  have hsource := hfits.source
  have hdestination := hfits.destination
  have hlen : indexEnumLen = 72 := rfl
  refine Memory.writeFields_outside ?_
  simp only [indexFields, List.forall_mem_cons, length_toLittleEndian]
  refine ⟨?_, ?_, ?_, ?_, ?_, ?_, ?_, ?_, ?_, fun field hmem => by cases hmem⟩ <;> omega

theorem indexFields_disjoint (hfits : FlowMetadata.FitsRecord flow) :
    (indexFields value flow ts).Pairwise fun first second =>
      first.1 + first.2.length ≤ second.1 ∨ second.1 + second.2.length ≤ first.1 := by
  have hsource := hfits.source
  have hdestination := hfits.destination
  simp only [indexFields, List.pairwise_cons, List.forall_mem_cons, length_toLittleEndian]
  simp
  omega

/-- A record is read as it was written. -/
theorem read_writeIndexToBuffer (buffer : Memory) (offset : ℕ)
    (hfits : FlowMetadata.FitsRecord flow) (hvalue : value < 2 ^ 64) :
    (IndexStore.read (writeIndexToBuffer value flow ts buffer offset).1 offset).flow = flow ∧
      (IndexStore.read (writeIndexToBuffer value flow ts buffer offset).1 offset).position =
        value := by
  have hfield : ∀ field ∈ indexFields value flow ts,
      (writeIndexToBuffer value flow ts buffer offset).1.read (offset + field.1) field.2.length =
        field.2 := fun field hmem =>
    Memory.read_writeFields buffer offset (indexFields_disjoint hfits) hmem
  have hnumber : ∀ place width number, (place, toLittleEndian width number) ∈
      indexFields value flow ts → number < 256 ^ width →
      ofLittleEndian ((writeIndexToBuffer value flow ts buffer offset).1.read (offset + place)
        width) = number := by
    intro place width number hmem hlt
    have h := hfield _ hmem
    rw [length_toLittleEndian] at h
    rw [h, ofLittleEndian_toLittleEndian_of_lt hlt]
  have hversion := hnumber 68 4 flow.sourceAddress.length (by simp [indexFields])
    (lt_of_le_of_lt hfits.source (by decide))
  have hsource := hfield (32, flow.sourceAddress) (by simp [indexFields])
  have hdestination := hfield (48, flow.destinationAddress) (by simp [indexFields])
  have hsport := hnumber 64 2 flow.sourcePort (by simp [indexFields]) hfits.sourcePort
  have hdport := hnumber 66 2 flow.destinationPort (by simp [indexFields]) hfits.destinationPort
  have hposition := hnumber 16 8 value (by simp [indexFields]) hvalue
  refine ⟨?_, hposition⟩
  simp only [IndexStore.flow, IndexStore.read, hversion, hsport, hdport]
  rw [Memory.read_take _ _ hfits.source, Memory.read_take _ _ hfits.source, hsource,
    ← hfits.destination, hdestination]

end IndexRecords

end DataHandler

end TrafficDatabase
