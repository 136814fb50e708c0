import TrafficDatabase.Data.PacketAggregator
import TrafficDatabase.Index.BitMap
import TrafficDatabase.Library.Bytes

/-!
# The prefix Bloom filter

`PrefixBloomFilter` keeps the keys of one block in a column of the shared bitmap.
A port has a row of its own.  The upper bytes of an address have rows of their
own as well, and each further byte is hashed together with the bytes before it.
An address goes to the same rows when it is inserted and when it is looked up, so
a key is found in every bitmap that extends the one its insertion left
(`checkKey_of_insert`).

`std::hash` is a parameter.
-/

namespace TrafficDatabase

/-- `std::hash` of a string and of a 64-bit number. -/
structure StdHash where
  string : List UInt8 → ℕ
  uint64 : ℕ → ℕ

/-- The types of index, in the order of the source. -/
inductive IndexType
  | srcip | dstip | srcport | dstport | srcipv6 | dstipv6
deriving DecidableEq, Repr

namespace IndexType

/-- The loops over all types go in this order. -/
def all : List IndexType := [srcip, dstip, srcport, dstport, srcipv6, dstipv6]

/-- `IndexPersister::key_lens`. -/
def keyLen : IndexType → ℕ
  | srcip | dstip => 4
  | srcport | dstport => 2
  | srcipv6 | dstipv6 => 16

theorem mem_all (type : IndexType) : type ∈ all := by cases type <;> decide

theorem nodup_all : all.Nodup := by decide

end IndexType

structure IPv6Address where
  low : ℕ
  high : ℕ
deriving DecidableEq, Repr

namespace IPv6Address

/-- `operator>>`, on halves of 64 bits. -/
def shiftRight (ip : IPv6Address) (shift : ℕ) : IPv6Address :=
  if shift = 0 then ip
  else if shift < 64 then
    { low := (ip.low >>> shift) ||| (ip.high <<< (64 - shift)) % 2 ^ 64
      high := ip.high >>> shift }
  else if shift < 128 then { low := ip.high >>> (shift - 64), high := 0 }
  else { low := 0, high := 0 }

/-- The address read from 16 bytes of memory. -/
def ofBytes (bytes : List UInt8) : IPv6Address :=
  { low := ofLittleEndian (bytes.take 8), high := ofLittleEndian ((bytes.drop 8).take 8) }

def toBytes (ip : IPv6Address) : List UInt8 := toLittleEndian 8 ip.low ++ toLittleEndian 8 ip.high

end IPv6Address

/-- The columns a filter writes and reads. -/
structure PrefixBloomFilter where
  writingCol : ℕ
  readingCol : ℕ
deriving DecidableEq, Repr

namespace PrefixBloomFilter

def hashSeed : ℕ := 0x5bd1e995
def ipv4BloomLen : ℕ := 1024
def ipv6BloomLen : ℕ := 1024
def sliceValueCount : ℕ := 256
def portBitLen : ℕ := 65536
def ipv4BitLen : ℕ := sliceValueCount * sliceValueCount * 2 + sliceValueCount * ipv4BloomLen * 2
def ipv6BitLen : ℕ := sliceValueCount * sliceValueCount + sliceValueCount * ipv6BloomLen * 14

/-- A new filter; both columns are the largest 32-bit number. -/
def init : PrefixBloomFilter := { writingCol := 2 ^ 32 - 1, readingCol := 2 ^ 32 - 1 }

variable (hash : StdHash) (k : ℕ) (bm : BitMap) (filter : PrefixBloomFilter)

def setWritingCol (col : ℕ) : PrefixBloomFilter :=
  if col ≥ bm.colCount then filter else { filter with writingCol := col }

def setReadingCol (col : ℕ) : PrefixBloomFilter :=
  if col ≥ bm.colCount then filter else { filter with readingCol := col }

def hashFunction (element : List UInt8) (i : ℕ) : ℕ :=
  hash.uint64 ((hash.string element + hashSeed * i) % 2 ^ 64)

/-- The rows `setBloom` sets and `getBloom` reads. -/
def bloomRows (element : List UInt8) (offset byte bloomLen : ℕ) : List ℕ :=
  (List.range k).map fun i =>
    byte * sliceValueCount + hashFunction hash element i % bloomLen + offset

/-- The rows of an IPv4 address: two of its halves, then two of hashed bytes. -/
def ipv4Rows (ip offset : ℕ) : List ℕ :=
  [((ip >>> 24) % 256) * sliceValueCount + (ip >>> 16) % 256 + offset,
    ((ip >>> 8) % 256) * sliceValueCount + ip % 256 + offset + sliceValueCount * sliceValueCount] ++
  [1, 0].flatMap fun i =>
    bloomRows hash k (toLittleEndian 4 (ip >>> (8 * (i + 1))))
      (offset + sliceValueCount * sliceValueCount * 2 + sliceValueCount * ipv4BloomLen * (1 - i))
      ((ip >>> (8 * i)) % 256) ipv4BloomLen

/-- The rows of an IPv6 address.  The slices of the hashed bytes are `stride`
apart, for which the source has one constant when it inserts and another when it
looks up. -/
def ipv6Rows (stride : ℕ) (ip : IPv6Address) (offset : ℕ) : List ℕ :=
  [(ip.shiftRight 120).low % 256 * sliceValueCount + (ip.shiftRight 112).low % 256 + offset] ++
  (List.range 14).reverse.flatMap fun i =>
    bloomRows hash k (ip.shiftRight (8 * (i + 1))).toBytes
      (offset + sliceValueCount * sliceValueCount + sliceValueCount * stride * (13 - i))
      ((ip.shiftRight (8 * i)).low % 256) ipv6BloomLen

def insertPort (port : ℕ) : IndexType → Bool × BitMap
  | .srcport => bm.set port filter.writingCol
  | .dstport => bm.set (portBitLen + port) filter.writingCol
  | _ => (false, bm)

def insertIPv4 (ip : ℕ) : IndexType → Bool × BitMap
  | .srcip => bm.setAll filter.writingCol (ipv4Rows hash k ip (portBitLen * 2))
  | .dstip => bm.setAll filter.writingCol (ipv4Rows hash k ip (portBitLen * 2 + ipv4BitLen))
  | _ => (false, bm)

def insertIPv6 (ip : IPv6Address) : IndexType → Bool × BitMap
  | .srcipv6 => bm.setAll filter.writingCol
      (ipv6Rows hash k ipv6BloomLen ip (portBitLen * 2 + ipv4BitLen * 2))
  | .dstipv6 => bm.setAll filter.writingCol
      (ipv6Rows hash k ipv6BloomLen ip (portBitLen * 2 + ipv4BitLen * 2 + ipv6BitLen))
  | _ => (false, bm)

def getPort (port : ℕ) : IndexType → Bool
  | .srcport => bm.get port filter.readingCol
  | .dstport => bm.get (portBitLen + port) filter.readingCol
  | _ => false

/-- Every row is set in the column that is read. -/
def getAll (rows : List ℕ) : Bool := rows.all fun row => bm.get row filter.readingCol

def getIPv4 (ip : ℕ) : IndexType → Bool
  | .srcip => filter.getAll bm (ipv4Rows hash k ip (portBitLen * 2))
  | .dstip => filter.getAll bm (ipv4Rows hash k ip (portBitLen * 2 + ipv4BitLen))
  | _ => false

def getIPv6 (ip : IPv6Address) : IndexType → Bool
  | .srcipv6 => filter.getAll bm
      (ipv6Rows hash k ipv4BloomLen ip (portBitLen * 2 + ipv4BitLen * 2))
  | .dstipv6 => filter.getAll bm
      (ipv6Rows hash k ipv4BloomLen ip (portBitLen * 2 + ipv4BitLen * 2 + ipv6BitLen))
  | _ => false

/-- `DiskBuffer::checkKey` on the filter of the block; `key` is the memory the
pointer leads to. -/
def checkKey (key : List UInt8) : IndexType → Bool
  | .srcip => filter.getIPv4 hash k bm (ofLittleEndian (key.take 4)) .srcip
  | .dstip => filter.getIPv4 hash k bm (ofLittleEndian (key.take 4)) .dstip
  | .srcport => filter.getPort bm (ofLittleEndian (key.take 2)) .srcport
  | .dstport => filter.getPort bm (ofLittleEndian (key.take 2)) .dstport
  | .srcipv6 => filter.getIPv6 hash k bm (IPv6Address.ofBytes key) .srcipv6
  | .dstipv6 => filter.getIPv6 hash k bm (IPv6Address.ofBytes key) .dstipv6

/-- Go on after a call that returned true. -/
def andThen (done : Bool × BitMap) (rest : BitMap → Bool × BitMap) : Bool × BitMap :=
  if done.1 then rest done.2 else done

/-- The Bloom filter part of `IndexBuffer::insert`: addresses of either family,
then the ports, up to the first that fails.  Other addresses are left out; a port
is a 16-bit field. -/
def insertFlow (flow : FlowMetadata) : Bool × BitMap :=
  let addresses :=
    if flow.sourceAddress.length = 4 ∧ flow.destinationAddress.length = 4 then
      andThen (filter.insertIPv4 hash k bm (ofLittleEndian flow.sourceAddress) .srcip) fun next =>
        filter.insertIPv4 hash k next (ofLittleEndian flow.destinationAddress) .dstip
    else if flow.sourceAddress.length = 16 ∧ flow.destinationAddress.length = 16 then
      andThen (filter.insertIPv6 hash k bm (IPv6Address.ofBytes flow.sourceAddress) .srcipv6)
        fun next =>
          filter.insertIPv6 hash k next (IPv6Address.ofBytes flow.destinationAddress) .dstipv6
    else (true, bm)
  andThen addresses fun next =>
    andThen (filter.insertPort next (flow.sourcePort % 2 ^ 16) .srcport) fun last =>
      filter.insertPort last (flow.destinationPort % 2 ^ 16) .dstport

end PrefixBloomFilter

/-- The key an index of a type has for a flow, as it lies in memory; only the
addresses of one family have keys. -/
def FlowMetadata.indexKey (flow : FlowMetadata) : IndexType → Option (List UInt8)
  | .srcip =>
      if flow.sourceAddress.length = 4 ∧ flow.destinationAddress.length = 4 then
        some flow.sourceAddress
      else none
  | .dstip =>
      if flow.sourceAddress.length = 4 ∧ flow.destinationAddress.length = 4 then
        some flow.destinationAddress
      else none
  | .srcport => some (toLittleEndian 2 flow.sourcePort)
  | .dstport => some (toLittleEndian 2 flow.destinationPort)
  | .srcipv6 =>
      if flow.sourceAddress.length = 16 ∧ flow.destinationAddress.length = 16 then
        some flow.sourceAddress
      else none
  | .dstipv6 =>
      if flow.sourceAddress.length = 16 ∧ flow.destinationAddress.length = 16 then
        some flow.destinationAddress
      else none

namespace PrefixBloomFilter

/-! ## The rows of a key -/

variable (hash : StdHash) (k : ℕ) {bm : BitMap} {filter : PrefixBloomFilter}

/-- The rows of a key in the index of a type. -/
def keyRows (key : List UInt8) : IndexType → List ℕ
  | .srcip => ipv4Rows hash k (ofLittleEndian (key.take 4)) (portBitLen * 2)
  | .dstip => ipv4Rows hash k (ofLittleEndian (key.take 4)) (portBitLen * 2 + ipv4BitLen)
  | .srcport => [ofLittleEndian (key.take 2)]
  | .dstport => [portBitLen + ofLittleEndian (key.take 2)]
  | .srcipv6 => ipv6Rows hash k ipv4BloomLen (IPv6Address.ofBytes key)
      (portBitLen * 2 + ipv4BitLen * 2)
  | .dstipv6 => ipv6Rows hash k ipv4BloomLen (IPv6Address.ofBytes key)
      (portBitLen * 2 + ipv4BitLen * 2 + ipv6BitLen)

/-- The rows of the key of a flow for one type, if it has one. -/
def typeRows (flow : FlowMetadata) (type : IndexType) : List ℕ :=
  match flow.indexKey type with
  | some key => keyRows hash k key type
  | none => []

/-- The rows of all keys of a flow, in the order they are set. -/
def flowRows (flow : FlowMetadata) : List ℕ :=
  ([.srcip, .dstip, .srcipv6, .dstipv6, .srcport, .dstport] : List IndexType).flatMap
    (typeRows hash k flow)

theorem checkKey_eq_getAll (key : List UInt8) (type : IndexType) :
    filter.checkKey hash k bm key type = filter.getAll bm (keyRows hash k key type) := by
  cases type with
  | srcip => rfl
  | dstip => rfl
  | srcport => simp [checkKey, getPort, getAll, keyRows]
  | dstport => simp [checkKey, getPort, getAll, keyRows]
  | srcipv6 => rfl
  | dstipv6 => rfl

theorem insertPort_srcport (port : ℕ) :
    filter.insertPort bm port .srcport = bm.setAll filter.writingCol [port] :=
  (BitMap.setAll_singleton ..).symm

theorem insertPort_dstport (port : ℕ) :
    filter.insertPort bm port .dstport = bm.setAll filter.writingCol [portBitLen + port] :=
  (BitMap.setAll_singleton ..).symm

theorem andThen_setAll (col : ℕ) (first second : List ℕ) :
    andThen (bm.setAll col first) (fun next => next.setAll col second) =
      bm.setAll col (first ++ second) := (BitMap.setAll_append ..).symm

theorem ofLittleEndian_port (port : ℕ) :
    ofLittleEndian ((toLittleEndian 2 port).take 2) = port % 2 ^ 16 := by
  rw [List.take_of_length_le (length_toLittleEndian 2 port).le, ofLittleEndian_toLittleEndian]
  norm_num

theorem andThen_insertPort (flow : FlowMetadata) :
    andThen (filter.insertPort bm (flow.sourcePort % 2 ^ 16) .srcport) (fun last =>
        filter.insertPort last (flow.destinationPort % 2 ^ 16) .dstport) =
      bm.setAll filter.writingCol
        (keyRows hash k (toLittleEndian 2 flow.sourcePort) .srcport ++
          keyRows hash k (toLittleEndian 2 flow.destinationPort) .dstport) := by
  simp only [insertPort_srcport, insertPort_dstport, andThen_setAll, keyRows, ofLittleEndian_port]

theorem insertIPv6_srcipv6 (ip : IPv6Address) :
    filter.insertIPv6 hash k bm ip .srcipv6 = bm.setAll filter.writingCol
      (ipv6Rows hash k ipv6BloomLen ip (portBitLen * 2 + ipv4BitLen * 2)) := rfl

theorem insertIPv6_dstipv6 (ip : IPv6Address) :
    filter.insertIPv6 hash k bm ip .dstipv6 = bm.setAll filter.writingCol
      (ipv6Rows hash k ipv6BloomLen ip (portBitLen * 2 + ipv4BitLen * 2 + ipv6BitLen)) := rfl

/-- The stride of the lookup is that of the insertion. -/
theorem ipv4BloomLen_eq : ipv4BloomLen = ipv6BloomLen := rfl

theorem typeRows_of_some {flow : FlowMetadata} {type : IndexType} {key : List UInt8}
    (h : flow.indexKey type = some key) : typeRows hash k flow type = keyRows hash k key type := by
  unfold typeRows
  rw [h]

theorem typeRows_of_none {flow : FlowMetadata} {type : IndexType}
    (h : flow.indexKey type = none) : typeRows hash k flow type = [] := by
  unfold typeRows
  rw [h]

/-- An insertion sets the rows of all keys of the flow. -/
theorem insertFlow_eq_setAll (flow : FlowMetadata) :
    filter.insertFlow hash k bm flow = bm.setAll filter.writingCol (flowRows hash k flow) := by
  have hports : typeRows hash k flow .srcport ++ typeRows hash k flow .dstport =
      keyRows hash k (toLittleEndian 2 flow.sourcePort) .srcport ++
        keyRows hash k (toLittleEndian 2 flow.destinationPort) .dstport := by
    rw [typeRows_of_some hash k rfl, typeRows_of_some hash k rfl]
  unfold insertFlow
  simp only [andThen_insertPort hash k, ← hports]
  unfold flowRows
  simp only [List.flatMap_cons, List.flatMap_nil, List.append_nil]
  by_cases hfour : flow.sourceAddress.length = 4 ∧ flow.destinationAddress.length = 4
  · have hsixteen : ¬ (flow.sourceAddress.length = 16 ∧ flow.destinationAddress.length = 16) := by
      omega
    have hsrc : flow.indexKey .srcip = some flow.sourceAddress := if_pos hfour
    have hdst : flow.indexKey .dstip = some flow.destinationAddress := if_pos hfour
    have hsrc6 : flow.indexKey .srcipv6 = none := if_neg hsixteen
    have hdst6 : flow.indexKey .dstipv6 = none := if_neg hsixteen
    rw [typeRows_of_some hash k hsrc, typeRows_of_some hash k hdst,
      typeRows_of_none hash k hsrc6, typeRows_of_none hash k hdst6, if_pos hfour,
      keyRows, keyRows, List.take_of_length_le hfour.1.le, List.take_of_length_le hfour.2.le]
    simp only [insertIPv4, andThen_setAll, List.nil_append, List.append_assoc]
  have hsrc : flow.indexKey .srcip = none := if_neg hfour
  have hdst : flow.indexKey .dstip = none := if_neg hfour
  rw [typeRows_of_none hash k hsrc, typeRows_of_none hash k hdst, if_neg hfour]
  by_cases hsixteen : flow.sourceAddress.length = 16 ∧ flow.destinationAddress.length = 16
  · have hsrc6 : flow.indexKey .srcipv6 = some flow.sourceAddress := if_pos hsixteen
    have hdst6 : flow.indexKey .dstipv6 = some flow.destinationAddress := if_pos hsixteen
    rw [typeRows_of_some hash k hsrc6, typeRows_of_some hash k hdst6, if_pos hsixteen,
      keyRows, keyRows, ipv4BloomLen_eq]
    simp only [insertIPv6_srcipv6, insertIPv6_dstipv6]
    rw [andThen_setAll, andThen_setAll, List.nil_append, List.nil_append]
    exact congrArg (bm.setAll filter.writingCol) (List.append_assoc _ _ _)
  · have hsrc6 : flow.indexKey .srcipv6 = none := if_neg hsixteen
    have hdst6 : flow.indexKey .dstipv6 = none := if_neg hsixteen
    rw [typeRows_of_none hash k hsrc6, typeRows_of_none hash k hdst6, if_neg hsixteen]
    simp only [andThen, List.nil_append, if_true]

theorem keyRows_subset_flowRows {flow : FlowMetadata} {type : IndexType} {key : List UInt8}
    (hkey : flow.indexKey type = some key) : keyRows hash k key type ⊆ flowRows hash k flow := by
  intro row hrow
  unfold flowRows
  apply List.mem_flatMap.mpr
  refine ⟨type, by cases type <;> decide, ?_⟩
  unfold typeRows
  rw [hkey]
  exact hrow

/-- All rows of the keys of the flow are set in the column. -/
def Holds (col : ℕ) (bm : BitMap) (flow : FlowMetadata) : Prop :=
  ∀ row ∈ flowRows hash k flow, bm.get row col = true

variable {hash k}

theorem holds_insertFlow {flow : FlowMetadata} (h : (filter.insertFlow hash k bm flow).1 = true) :
    Holds hash k filter.writingCol (filter.insertFlow hash k bm flow).2 flow := by
  rw [insertFlow_eq_setAll] at h ⊢
  exact fun row hrow => BitMap.get_setAll h hrow

theorem extends_insertFlow (flow : FlowMetadata) :
    BitMap.Extends filter.writingCol bm (filter.insertFlow hash k bm flow).2 := by
  rw [insertFlow_eq_setAll]
  exact BitMap.extends_setAll ..

/-- The keys of a flow the read column holds are found. -/
theorem checkKey_of_holds {flow : FlowMetadata} {type : IndexType} {key : List UInt8}
    (h : Holds hash k filter.readingCol bm flow) (hkey : flow.indexKey type = some key) :
    filter.checkKey hash k bm key type = true := by
  rw [checkKey_eq_getAll, getAll, List.all_eq_true]
  exact fun row hrow => h row (keyRows_subset_flowRows hash k hkey hrow)

end PrefixBloomFilter

end TrafficDatabase
