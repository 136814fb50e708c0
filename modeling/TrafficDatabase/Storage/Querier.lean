import TrafficDatabase.Data.DPDKReader

/-!
# Reading packets back

`Querier::readPackets` follows a list of offsets on the data disk.  It reads the
cell of the offset into its buffer, decodes the packet there, prints it, and goes
on at the offset the packet's header points to, or with the next of the list.  A
packet that runs over the end of its cell is completed from the cell whose number
is in the cell's tail.

`fresh` is the content of the memory `new` returns, which the code does not
initialise; its `k`-th value is that of the `k`-th packet printed.  A read of a
cell that is not on the disk fails and ends the function, so a turn of the loop
is an `Option`; the loop itself takes fuel, since a chain of packets may be
circular.
-/

namespace TrafficDatabase

/-- The sizes a querier works with; `blockNum` is that of its data agent. -/
structure QuerierConfig where
  cellSize : ℕ
  dataBufferSize : ℕ
  blockNum : ℕ
deriving DecidableEq, Repr

/-- The arguments of a `printPacket` call, and the offset the packet was found at. -/
structure Printed where
  offset : ℕ
  packetLen : ℕ
  packet : List UInt8
deriving DecidableEq, Repr

/-- The variables of `readPackets`. -/
structure Querier where
  offsetList : List ℕ
  nowId : ℕ
  nowBufferId : ℕ
  nextBufferId : ℕ
  lastCellId : ℕ
  dataBuffer : Memory
  printed : List Printed

/-- One decoded packet; reading its second cell changes the buffer. -/
structure Decoded where
  packetLen : ℕ
  next : ℕ
  packet : List UInt8
  dataBuffer : Memory

/-- `header.caplen` of the header that lies in memory as `bytes`. -/
def headerCaplen (bytes : List UInt8) : ℕ := ofLittleEndian ((bytes.drop 8).take 4)

/-- `header.len`, which the querier takes for the distance to the next packet. -/
def headerLen (bytes : List UInt8) : ℕ := ofLittleEndian ((bytes.drop 12).take 4)

namespace Querier

variable (q : QuerierConfig) (disk : Memory) (fresh : ℕ → Memory) (st : Querier)

def start (offsetList : List ℕ) (dataBuffer : Memory) : Querier :=
  { offsetList, nowId := 0, nowBufferId := 0, nextBufferId := 0, lastCellId := u64Max, dataBuffer,
    printed := [] }

/-- `DiskAgent::read` of a cell into a cell of the buffer. -/
def readCell (dataBuffer : Memory) (bufferId cellId : ℕ) : Option Memory :=
  if cellId ≥ q.blockNum then none
  else some (dataBuffer.write (bufferId * q.cellSize)
    (disk.read (cellId * q.cellSize) q.cellSize))

/-- The offset is put off if the one after it is smaller. -/
def swapOffsets : Querier :=
  let offset := st.offsetList.getD st.nowId 0
  let after := st.offsetList.getD (st.nowId + 1) 0
  if st.nowId + 1 < st.offsetList.length ∧ after < offset then
    { st with offsetList := (st.offsetList.set st.nowId after).set (st.nowId + 1) offset }
  else st

/-- Read the cell, unless it was the last one read. -/
def load (cellId : ℕ) : Option Querier :=
  if st.lastCellId ≠ cellId then
    (readCell q disk st.dataBuffer st.nextBufferId cellId).map fun dataBuffer =>
      { st with
        dataBuffer
        lastCellId := cellId
        nowBufferId := st.nextBufferId
        nextBufferId :=
          if st.nextBufferId + 1 ≥ q.dataBufferSize / q.cellSize then 0 else st.nextBufferId + 1 }
  else some st

/-- The number in the tail of the cell last read. -/
def cellTail : ℕ :=
  ofLittleEndian (st.dataBuffer.read
    (st.nowBufferId * q.cellSize + (q.cellSize - cellTailLen)) cellTailLen)

/-- The header runs over the end of its cell, and the payload is all in the next one. -/
def decodeHeaderSplit (cellPos : ℕ) : Option Decoded :=
  let now := st.nowBufferId * q.cellSize
  let following := st.nextBufferId * q.cellSize
  let tmpLen := q.cellSize - cellPos - cellTailLen
  (readCell q disk st.dataBuffer st.nextBufferId (st.cellTail q)).map fun dataBuffer =>
    let header := dataBuffer.read (now + cellPos) tmpLen ++
      dataBuffer.read following (pcapHeaderLen - tmpLen)
    { packetLen := headerCaplen header
      next := headerLen header
      packet := dataBuffer.read (following + (pcapHeaderLen - tmpLen)) (headerCaplen header)
      dataBuffer }

/-- The payload runs over the end of its cell.  Both pieces are copied to the
start of the packet, as the source has it. -/
def decodePayloadSplit (cellPos : ℕ) (header : List UInt8) : Option Decoded :=
  let now := st.nowBufferId * q.cellSize
  let following := st.nextBufferId * q.cellSize
  let tmpLen := q.cellSize - cellPos - cellTailLen - pcapHeaderLen
  let packetLen := headerCaplen header
  (readCell q disk st.dataBuffer st.nextBufferId (st.cellTail q)).map fun dataBuffer =>
    let packet := ((fresh st.printed.length).write 0
      (dataBuffer.read (now + (cellPos + pcapHeaderLen)) tmpLen)).write 0
      (dataBuffer.read following (packetLen - tmpLen))
    { packetLen, next := headerLen header, packet := packet.read 0 packetLen, dataBuffer }

/-- The packet lies inside its cell. -/
def decodeWhole (cellPos : ℕ) (header : List UInt8) : Decoded :=
  { packetLen := headerCaplen header
    next := headerLen header
    packet := st.dataBuffer.read (st.nowBufferId * q.cellSize + (cellPos + pcapHeaderLen))
      (headerCaplen header)
    dataBuffer := st.dataBuffer }

/-- The packet at the offset, whose cell has been loaded. -/
def decode (offset : ℕ) : Option Decoded :=
  let cellPos := offset % q.cellSize
  let header := st.dataBuffer.read (st.nowBufferId * q.cellSize + cellPos) pcapHeaderLen
  if cellPos + pcapHeaderLen + cellTailLen > q.cellSize then st.decodeHeaderSplit q disk cellPos
  else if cellPos + pcapHeaderLen + cellTailLen + headerCaplen header > q.cellSize then
    st.decodePayloadSplit q disk fresh cellPos header
  else some (st.decodeWhole q cellPos header)

/-- The end of a turn: print the packet and go on where its header says. -/
def print (offset : ℕ) (got : Decoded) : Querier :=
  let printed : Querier :=
    { st with
      dataBuffer := got.dataBuffer
      printed := st.printed ++ [{ offset, packetLen := got.packetLen, packet := got.packet }] }
  if got.next = 0 ∨ got.next = 2 ^ 32 - 1 then { printed with nowId := st.nowId + 1 }
  else { printed with offsetList := st.offsetList.set st.nowId ((offset + got.next) % 2 ^ 64) }

/-- One turn of the loop; `none` where the function returns because a read failed. -/
def turn : Option Querier :=
  let swapped := st.swapOffsets
  let offset := swapped.offsetList.getD swapped.nowId 0
  (swapped.load q disk (offset / q.cellSize)).bind fun loaded =>
    (loaded.decode q disk fresh offset).map fun got => loaded.print offset got

/-- The packets printed by the loop; `none` when the fuel does not last. -/
def readPackets : ℕ → Querier → Option (List Printed)
  | 0, _ => none
  | fuel + 1, st =>
      if st.nowId < st.offsetList.length then
        match st.turn q disk fresh with
        | none => some st.printed
        | some next => readPackets fuel next
      else some st.printed

/-! ## Reading one packet

A fresh loop on one offset loads its cell into cell 0 of the buffer and the cell
the packet goes on in into cell 1. -/

/-- An offset of the disk by its cell and its place there, and a buffer of at
least two cells. -/
structure Located (q : QuerierConfig) (offset cell cellPos : ℕ) : Prop where
  offset_eq : offset = cell * q.cellSize + cellPos
  cellPos_lt : cellPos < q.cellSize
  cell_lt : cell < q.blockNum
  cell_ne : cell ≠ u64Max
  two_le : 2 ≤ q.dataBufferSize / q.cellSize

variable {q disk fresh} {offset cell cellPos len : ℕ} {dataBuffer : Memory}

theorem Located.div_eq (h : Located q offset cell cellPos) : offset / q.cellSize = cell := by
  have hpos : 0 < q.cellSize := (Nat.zero_le _).trans_lt h.cellPos_lt
  rw [h.offset_eq, Nat.mul_comm, Nat.mul_add_div hpos, Nat.div_eq_of_lt h.cellPos_lt, Nat.add_zero]

theorem Located.mod_eq (h : Located q offset cell cellPos) : offset % q.cellSize = cellPos := by
  rw [h.offset_eq, Nat.mul_add_mod_self_right, Nat.mod_eq_of_lt h.cellPos_lt]

/-- The loop's state once the offset's cell has been read. -/
def loaded (q : QuerierConfig) (disk : Memory) (offset cell : ℕ) (dataBuffer : Memory) : Querier :=
  { offsetList := [offset]
    nowId := 0
    nowBufferId := 0
    nextBufferId := 1
    lastCellId := cell
    dataBuffer := dataBuffer.write (0 * q.cellSize) (disk.read (cell * q.cellSize) q.cellSize)
    printed := [] }

theorem load_start (h : Located q offset cell cellPos) :
    (start [offset] dataBuffer).load q disk cell = some (loaded q disk offset cell dataBuffer) := by
  unfold load readCell
  have hne : (start [offset] dataBuffer).lastCellId ≠ cell := h.cell_ne.symm
  have hbuffers : ¬ (start [offset] dataBuffer).nextBufferId + 1 ≥ q.dataBufferSize / q.cellSize :=
    not_le.mpr h.two_le
  rw [if_pos hne, if_neg (not_le.mpr h.cell_lt), Option.map_some, if_neg hbuffers]
  rfl

theorem turn_start (h : Located q offset cell cellPos) :
    (start [offset] dataBuffer).turn q disk fresh =
      ((loaded q disk offset cell dataBuffer).decode q disk fresh offset).map
        ((loaded q disk offset cell dataBuffer).print offset) := by
  have hswap : (start [offset] dataBuffer).swapOffsets = start [offset] dataBuffer := rfl
  have hoffset : (start [offset] dataBuffer).offsetList.getD
      (start [offset] dataBuffer).nowId 0 = offset := rfl
  unfold turn
  simp only [hswap, hoffset]
  rw [h.div_eq, load_start h, Option.bind_some]

/-- A packet that points to no other one is the only one printed. -/
theorem readPackets_start (h : Located q offset cell cellPos) {got : Decoded}
    (hgot : (loaded q disk offset cell dataBuffer).decode q disk fresh offset = some got)
    (hnext : got.next = 2 ^ 32 - 1) (fuel : ℕ) (printed : List Printed) :
    readPackets q disk fresh fuel (start [offset] dataBuffer) = some printed ↔
      2 ≤ fuel ∧ printed = [{ offset, packetLen := got.packetLen, packet := got.packet }] := by
  have hturn : (start [offset] dataBuffer).turn q disk fresh =
      some ((loaded q disk offset cell dataBuffer).print offset got) := by
    rw [turn_start h, hgot, Option.map_some]
  have hprint : (loaded q disk offset cell dataBuffer).print offset got =
      { loaded q disk offset cell dataBuffer with
        nowId := 1
        dataBuffer := got.dataBuffer
        printed := [{ offset, packetLen := got.packetLen, packet := got.packet }] } := by
    unfold print
    rw [if_pos (.inr hnext)]
    rfl
  have hfirst : (start [offset] dataBuffer).nowId < (start [offset] dataBuffer).offsetList.length :=
    Nat.zero_lt_one
  match fuel with
  | 0 => exact ⟨fun hnone => absurd hnone (by simp [readPackets]), fun hfuel => by omega⟩
  | 1 =>
      refine ⟨fun hnone => ?_, fun hfuel => by omega⟩
      rw [readPackets, if_pos hfirst, hturn] at hnone
      exact absurd hnone (by simp [readPackets])
  | fuel + 2 =>
      rw [readPackets, if_pos hfirst, hturn, hprint]
      simp only [readPackets, loaded, List.length_singleton, lt_irrefl, if_false,
        Option.some.injEq]
      exact ⟨fun heq => ⟨by omega, heq.symm⟩, fun heq => heq.2.symm⟩

/-! ## The three layouts -/

/-- The bytes of the loaded cell. -/
theorem read_loaded (place : ℕ) (hle : place + len ≤ q.cellSize) :
    (loaded q disk offset cell dataBuffer).dataBuffer.read (0 * q.cellSize + place) len =
      disk.read (cell * q.cellSize + place) len := by
  have hinside := @Memory.read_write_inside (0 * q.cellSize) len
    (disk.read (cell * q.cellSize) q.cellSize) dataBuffer place (by rwa [Memory.length_read])
  rw [loaded, hinside, Memory.read_drop _ _ (by omega), Memory.read_take _ _ (by omega)]

/-- The buffer once the cell `following` has been read, too. -/
def followed (q : QuerierConfig) (disk : Memory) (cell following : ℕ) (dataBuffer : Memory) :
    Memory :=
  (loaded q disk 0 cell dataBuffer).dataBuffer.write (1 * q.cellSize)
    (disk.read (following * q.cellSize) q.cellSize)

theorem readCell_loaded {following : ℕ} (h : following < q.blockNum) :
    readCell q disk (loaded q disk offset cell dataBuffer).dataBuffer 1 following =
      some (followed q disk cell following dataBuffer) := by
  unfold readCell
  rw [if_neg (not_le.mpr h)]
  rfl

theorem read_followed {following : ℕ} (place : ℕ) (hle : place + len ≤ q.cellSize) :
    (followed q disk cell following dataBuffer).read (0 * q.cellSize + place) len =
      disk.read (cell * q.cellSize + place) len := by
  unfold followed
  rw [Memory.read_write_of_disjoint (by omega), read_loaded _ hle]

theorem read_following {following : ℕ} (place : ℕ) (hle : place + len ≤ q.cellSize) :
    (followed q disk cell following dataBuffer).read (1 * q.cellSize + place) len =
      disk.read (following * q.cellSize + place) len := by
  unfold followed
  rw [Memory.read_write_inside _ (by rwa [Memory.length_read]), Memory.read_drop _ _ (by omega),
    Memory.read_take _ _ (by omega)]

theorem cellTail_loaded (htail : cellTailLen ≤ q.cellSize) :
    (loaded q disk offset cell dataBuffer).cellTail q =
      ofLittleEndian (disk.read (cell * q.cellSize + (q.cellSize - cellTailLen)) cellTailLen) := by
  unfold cellTail
  exact congrArg ofLittleEndian (read_loaded _ (by omega))

/-- The packet lies inside its cell. -/
theorem decode_whole (fresh : ℕ → Memory) (dataBuffer : Memory)
    (h : Located q offset cell cellPos) {header : List UInt8}
    (hheader : disk.read (cell * q.cellSize + cellPos) pcapHeaderLen = header)
    (hfits : cellPos + pcapHeaderLen + cellTailLen + headerCaplen header ≤ q.cellSize) :
    ∃ got, (loaded q disk offset cell dataBuffer).decode q disk fresh offset = some got ∧
      got.packetLen = headerCaplen header ∧ got.next = headerLen header ∧
      got.packet =
        disk.read (cell * q.cellSize + (cellPos + pcapHeaderLen)) (headerCaplen header) := by
  have hread : (loaded q disk offset cell dataBuffer).dataBuffer.read
      ((loaded q disk offset cell dataBuffer).nowBufferId * q.cellSize + cellPos) pcapHeaderLen =
      header := (read_loaded _ (by omega)).trans hheader
  refine ⟨(loaded q disk offset cell dataBuffer).decodeWhole q cellPos header, ?_, rfl, rfl, ?_⟩
  · unfold decode
    simp only [h.mod_eq, hread]
    rw [if_neg (by omega), if_neg (by omega)]
  · exact read_loaded _ (by omega)

/-- The header runs over the end of its cell. -/
theorem decode_headerSplit (fresh : ℕ → Memory) (dataBuffer : Memory)
    (h : Located q offset cell cellPos) {following : ℕ}
    {header : List UInt8} (hroom : cellPos + cellTailLen ≤ q.cellSize)
    (hsplit : cellPos + pcapHeaderLen + cellTailLen > q.cellSize)
    (htail : ofLittleEndian (disk.read (cell * q.cellSize + (q.cellSize - cellTailLen))
      cellTailLen) = following) (hfollowing : following < q.blockNum)
    (hheader : disk.read (cell * q.cellSize + cellPos) (q.cellSize - cellPos - cellTailLen) ++
      disk.read (following * q.cellSize)
        (pcapHeaderLen - (q.cellSize - cellPos - cellTailLen)) = header)
    (hfits : pcapHeaderLen + headerCaplen header ≤ q.cellSize) :
    ∃ got, (loaded q disk offset cell dataBuffer).decode q disk fresh offset = some got ∧
      got.packetLen = headerCaplen header ∧ got.next = headerLen header ∧
      got.packet = disk.read (following * q.cellSize +
        (pcapHeaderLen - (q.cellSize - cellPos - cellTailLen))) (headerCaplen header) := by
  have hnow : (followed q disk cell following dataBuffer).read (0 * q.cellSize + cellPos)
      (q.cellSize - cellPos - cellTailLen) =
      disk.read (cell * q.cellSize + cellPos) (q.cellSize - cellPos - cellTailLen) :=
    read_followed _ (by omega)
  have hnext : (followed q disk cell following dataBuffer).read (1 * q.cellSize)
      (pcapHeaderLen - (q.cellSize - cellPos - cellTailLen)) =
      disk.read (following * q.cellSize)
        (pcapHeaderLen - (q.cellSize - cellPos - cellTailLen)) :=
    read_following 0 (by omega)
  have hdecode : (loaded q disk offset cell dataBuffer).decode q disk fresh offset = some
      { packetLen := headerCaplen header
        next := headerLen header
        packet := (followed q disk cell following dataBuffer).read
          (1 * q.cellSize + (pcapHeaderLen - (q.cellSize - cellPos - cellTailLen)))
          (headerCaplen header)
        dataBuffer := followed q disk cell following dataBuffer } := by
    unfold decode decodeHeaderSplit
    simp only [h.mod_eq]
    rw [if_pos hsplit, cellTail_loaded (by omega), htail]
    change (readCell q disk (loaded q disk offset cell dataBuffer).dataBuffer 1 following).map _ = _
    rw [readCell_loaded hfollowing, Option.map_some]
    simp only [loaded]
    rw [hnow, hnext, hheader]
  exact ⟨_, hdecode, rfl, rfl, read_following _ (by omega)⟩

/-- The payload runs over the end of its cell. -/
theorem decode_payloadSplit (fresh : ℕ → Memory) (dataBuffer : Memory)
    (h : Located q offset cell cellPos) {following : ℕ}
    {header : List UInt8} (hroom : cellPos + pcapHeaderLen + cellTailLen ≤ q.cellSize)
    (hheader : disk.read (cell * q.cellSize + cellPos) pcapHeaderLen = header)
    (hsplit : cellPos + pcapHeaderLen + cellTailLen + headerCaplen header > q.cellSize)
    (htail : ofLittleEndian (disk.read (cell * q.cellSize + (q.cellSize - cellTailLen))
      cellTailLen) = following) (hfollowing : following < q.blockNum)
    (hfits : headerCaplen header ≤ q.cellSize) :
    ∃ got, (loaded q disk offset cell dataBuffer).decode q disk fresh offset = some got ∧
      got.packetLen = headerCaplen header ∧ got.next = headerLen header ∧
      got.packet =
        (((fresh 0).write 0 (disk.read (cell * q.cellSize + (cellPos + pcapHeaderLen))
            (q.cellSize - cellPos - cellTailLen - pcapHeaderLen))).write 0
          (disk.read (following * q.cellSize)
            (headerCaplen header - (q.cellSize - cellPos - cellTailLen - pcapHeaderLen)))).read 0
          (headerCaplen header) := by
  -- the header is in the cell that is loaded, the rest of it and the next cell are read then
  have hread : (loaded q disk offset cell dataBuffer).dataBuffer.read
      ((loaded q disk offset cell dataBuffer).nowBufferId * q.cellSize + cellPos) pcapHeaderLen =
      header := (read_loaded _ (by omega)).trans hheader
  have hnow : (followed q disk cell following dataBuffer).read
      (0 * q.cellSize + (cellPos + pcapHeaderLen))
      (q.cellSize - cellPos - cellTailLen - pcapHeaderLen) =
      disk.read (cell * q.cellSize + (cellPos + pcapHeaderLen))
        (q.cellSize - cellPos - cellTailLen - pcapHeaderLen) := read_followed _ (by omega)
  have hnext : (followed q disk cell following dataBuffer).read (1 * q.cellSize)
      (headerCaplen header - (q.cellSize - cellPos - cellTailLen - pcapHeaderLen)) =
      disk.read (following * q.cellSize)
        (headerCaplen header - (q.cellSize - cellPos - cellTailLen - pcapHeaderLen)) :=
    read_following 0 (by omega)
  have hdecode : (loaded q disk offset cell dataBuffer).decode q disk fresh offset = some
      { packetLen := headerCaplen header
        next := headerLen header
        packet := (((fresh 0).write 0 (disk.read (cell * q.cellSize + (cellPos + pcapHeaderLen))
            (q.cellSize - cellPos - cellTailLen - pcapHeaderLen))).write 0
          (disk.read (following * q.cellSize)
            (headerCaplen header - (q.cellSize - cellPos - cellTailLen - pcapHeaderLen)))).read 0
          (headerCaplen header)
        dataBuffer := followed q disk cell following dataBuffer } := by
    unfold decode decodePayloadSplit
    simp only [h.mod_eq, hread]
    rw [if_neg (by omega), if_pos hsplit, cellTail_loaded (by omega), htail]
    change (readCell q disk (loaded q disk offset cell dataBuffer).dataBuffer 1 following).map _ = _
    rw [readCell_loaded hfollowing, Option.map_some]
    simp only [loaded, List.length_nil]
    rw [hnow, hnext]
  exact ⟨_, hdecode, rfl, rfl, rfl⟩

end Querier

end TrafficDatabase
