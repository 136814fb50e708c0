import TrafficDatabase.Experiment.DataHandler
import TrafficDatabase.Index.BloomRegions
import TrafficDatabase.Storage.PrefixLookup

/-!
# The experiments' queries

`queryTest` reads the index that `dataHandler` has left on the disk, and builds from it
what the storage engine would have: a Bloom filter for each block of the data, and for each
block and type of index a sorted array of keys with positions, which it writes to the disk
again.  A query for a key goes over the blocks, asks the filter, searches the array where
the filter does not turn the key away, and follows the links from the positions it has
found.

The model is that of the program's functions; a call that would leave a vector is `none`.
-/

namespace TrafficDatabase

namespace QueryTest

open DataHandler PrefixBloomFilter

def dataDiskSize : ℕ := 1024 * 1024 * 1024 * 64

def dataBlockSize : ℕ := 1024 * 1024 * 1024

def bitmapBackupColNum : ℕ := 8

def hashNum : ℕ := 4

def indexBlockOffset : ℕ := 1024 * 1024 * 1024 * 1024

def readSize : ℕ := 1024

/-- `sizeof(Record<KeyType>)`. -/
def recordLen (type : IndexType) : ℕ := type.keyLen + 8

/-- Where the arrays of a block begin and end, in bytes. -/
abbrev IndexArrayMeta := IndexType → ℕ × ℕ

/-- The global variables, but for those the queries add. -/
structure FillState where
  bitmap : BitMap
  prefixFilters : List PrefixBloomFilter
  metas : List IndexArrayMeta
  arrays : IndexType → List (List UInt8)

/-- The columns are those of the blocks and eight more. -/
def initBitmap : Option BitMap :=
  BitMap.new requiredRows (dataDiskSize / dataBlockSize) bitmapBackupColNum

def init : Option FillState :=
  initBitmap.map fun bitmap =>
    { bitmap, prefixFilters := [], metas := [], arrays := fun _ => [] }

/-! ## Reading the index -/

variable (hash : StdHash) (std : StdSort)

/-- The arrays of a block end where they end now, and its part of them is sorted. -/
def FillState.closeBlock (st : FillState) (block : ℕ) : Option FillState :=
  match st.metas[block]? with
  | none => none
  | some bounds => some { st with
      metas := st.metas.set block fun type =>
        ((bounds type).1, (st.arrays type).length * recordLen type)
      arrays := fun type =>
        let first := (bounds type).1 / recordLen type
        (st.arrays type).take first ++ std.sort type.keyLen ((st.arrays type).drop first) }

/-- A block that has no filter yet. -/
def FillState.openBlock (st : FillState) (block : ℕ) : Option FillState :=
  let filter :=
    (PrefixBloomFilter.init.setWritingCol st.bitmap block).setReadingCol st.bitmap block
  let withFilter := { st with prefixFilters := st.prefixFilters ++ [filter] }
  if block = 0 then
    some { withFilter with metas := withFilter.metas ++ [fun _ => (0, 0)] }
  else
    match withFilter.closeBlock std (block - 1) with
    | none => none
    | some closed =>
        match closed.metas[block - 1]? with
        | none => none
        | some last => some { closed with
            metas := closed.metas ++ [fun type => ((last type).2, 0)] }

/-- A key goes to the filter of its block and into the array of its type. -/
def FillState.addKey (filter : PrefixBloomFilter) (key : BloomKey) (bytes : List UInt8)
    (position : ℕ) (type : IndexType) (st : FillState) : FillState :=
  { st with
    bitmap := (filter.insert hash hashNum st.bitmap key type).2
    arrays := Function.update st.arrays type
      (st.arrays type ++ [bytes ++ toLittleEndian 8 position]) }

/-- The keys of an index record. -/
def FillState.addRecord (filter : PrefixBloomFilter) (store : IndexStore) (st : FillState) :
    FillState :=
  let flow := store.flow
  let addresses :=
    if store.version = 4 then
      (st.addKey hash filter (.ipv4 (UInt32.ofNat (ofLittleEndian flow.sourceAddress)))
        flow.sourceAddress store.position .srcip).addKey hash filter
          (.ipv4 (UInt32.ofNat (ofLittleEndian flow.destinationAddress)))
          flow.destinationAddress store.position .dstip
    else
      (st.addKey hash filter (.ipv6 (IPv6Address.ofBytes flow.sourceAddress))
        flow.sourceAddress store.position .srcipv6).addKey hash filter
          (.ipv6 (IPv6Address.ofBytes flow.destinationAddress))
          flow.destinationAddress store.position .dstipv6
  (addresses.addKey hash filter (.port (UInt16.ofNat flow.sourcePort))
    (toLittleEndian 2 flow.sourcePort) store.position .srcport).addKey hash filter
      (.port (UInt16.ofNat flow.destinationPort)) (toLittleEndian 2 flow.destinationPort)
      store.position .dstport

/-- The body of the loop over the index. -/
def FillState.turn (st : FillState) (store : IndexStore) : Option FillState :=
  let block := store.position / dataBlockSize
  let opened := if block ≥ st.prefixFilters.length then st.openBlock std block else some st
  match opened with
  | none => none
  | some st =>
      match st.prefixFilters[block]? with
      | none => none
      | some filter => some (st.addRecord hash filter store)

/-- The loop, and the last block closed. -/
def FillState.loop (st : FillState) (stores : List IndexStore) : Option FillState :=
  match stores.foldlM (fun st store => st.turn hash std store) st with
  | none => none
  | some st => st.closeBlock std (st.metas.length - 1)

/-! ## Writing the arrays -/

/-- What has been copied to `write_buffer`, and the bounds of the arrays in it. -/
structure Layout where
  writeBuffer : List UInt8
  indexMetas : List IndexArrayMeta

/-- The array of a type and a block is put behind what is there. -/
def copyArray (arrays : IndexType → List (List UInt8)) (bounds : IndexArrayMeta)
    (copied : List UInt8 × IndexArrayMeta) (type : IndexType) : List UInt8 × IndexArrayMeta :=
  let currentLen := copied.1.length
  let len := (bounds type).2 - (bounds type).1
  (copied.1 ++ ((arrays type).flatten.drop (bounds type).1).take len,
    Function.update copied.2 type (currentLen, currentLen + len))

def copyBlock (arrays : IndexType → List (List UInt8)) (layout : Layout)
    (bounds : IndexArrayMeta) : Layout :=
  let copied := IndexType.all.foldl (copyArray arrays bounds)
    (layout.writeBuffer, fun _ => (0, 0))
  { writeBuffer := copied.1, indexMetas := layout.indexMetas ++ [copied.2] }

def FillState.layOut (st : FillState) : Layout :=
  st.metas.foldl (copyBlock st.arrays) { writeBuffer := [], indexMetas := [] }

/-- What `write_buffer` is allocated for, and how much of it is written. -/
def FillState.totalLen (st : FillState) : ℕ :=
  match st.metas.getLast? with
  | none => 0
  | some bounds => (IndexType.all.map fun type => (bounds type).2).sum

/-- What the queries have. -/
structure Filled where
  disk : Memory
  bitmap : BitMap
  prefixFilters : List PrefixBloomFilter
  indexMetas : List IndexArrayMeta

/-- The index is read from the disk, record by record. -/
def indexStores (disk : Memory) (indexSize : ℕ) : List IndexStore :=
  (List.range ((indexSize + indexEnumLen - 1) / indexEnumLen)).map fun i =>
    IndexStore.read disk (indexOffset + i * indexEnumLen)

/-- `init` and `fill`; `indexSize` is the constant `INDEX_SIZE`, which is to be the length
that `dataHandler` has printed. -/
def fill (disk : Memory) (indexSize : ℕ) : Option Filled :=
  match init with
  | none => none
  | some st =>
      match st.loop hash std (indexStores disk indexSize) with
      | none => none
      | some st =>
          let layout := st.layOut
          some
            { disk := disk.write indexBlockOffset (layout.writeBuffer.take st.totalLen)
              bitmap := st.bitmap
              prefixFilters := st.prefixFilters
              indexMetas := layout.indexMetas }

/-! ## Queries -/

/-- The query for a whole key; an address is asked for as a prefix of its full length. -/
def queryOf (key : List UInt8) : IndexType → BloomQuery
  | .srcip | .dstip => .ipv4Prefix (UInt32.ofNat (ofLittleEndian key)) 4
  | .srcipv6 | .dstipv6 => .ipv6Prefix (IPv6Address.ofBytes key) 16
  | .srcport | .dstport => .whole (.port (UInt16.ofNat (ofLittleEndian key)))

/-- `getOffsetByPort`, on the bytes of a block. -/
def getOffsetByPort (port : UInt16) (indexBuffer : List UInt8) : Option (List ℕ) :=
  (RecordSearch.binarySearch KeyType.u16 indexBuffer port []).map (List.insertionSort (· ≤ ·))

/-- The positions of a key in the array of a block. -/
def getOffset (key : List UInt8) (indexBuffer : List UInt8) : IndexType → Option (List ℕ)
  | .srcip | .dstip =>
      PrefixLookup.getOffsetByIPv4 (UInt32.ofNat (ofLittleEndian key)) 4 indexBuffer
  | .srcipv6 | .dstipv6 => PrefixLookup.getOffsetByIPv6
      ⟨IPv6Address.ofBytes key, IPv6Address.valid_ofBytes key⟩ 16 indexBuffer
  | .srcport | .dstport => getOffsetByPort (UInt16.ofNat (ofLittleEndian key)) indexBuffer

/-- One block in the loop over the blocks. -/
def Filled.blockOffsets (filled : Filled) (type : IndexType) (key : List UInt8) (block : ℕ) :
    Option (List ℕ) :=
  match filled.prefixFilters[block]?, filled.indexMetas[block]? with
  | some filter, some bounds =>
      if answer hash hashNum filled.bitmap filter (queryOf key type) type then
        let len := (bounds type).2 - (bounds type).1
        getOffset key (filled.disk.read (indexBlockOffset + (bounds type).1) len) type
      else some []
  | _, _ => none

/-- `offset_vec` of a query: the loop over the blocks is repeated, but only its first round
keeps what it finds. -/
def Filled.offsets (filled : Filled) (type : IndexType) (key : List UInt8) : Option (List ℕ) :=
  let blocks := filled.indexMetas.length
  if blocks = 0 then none
  else if readSize / blocks = 0 then some []
  else (List.range blocks).foldlM
    (fun found block => (filled.blockOffsets hash type key block).map (found ++ ·)) []

/-- The packets and the bytes that are counted along the links from one position. -/
def readChain (disk : Memory) : ℕ → ℕ → ℕ × ℕ → Option (ℕ × ℕ)
  | 0, _, _ => none
  | fuel + 1, offset, (packetCount, byteCount) =>
      let header := readHeader disk (dataOffset + offset)
      let counts := (packetCount + 1, byteCount + header.caplen)
      if header.flowNextDiff = 2 ^ 32 - 1 ∨ header.flowNextDiff = 0 then some counts
      else readChain disk fuel (offset + header.flowNextDiff) counts

/-- `readPacket`; each chain may have `fuel` packets. -/
def readPacket (disk : Memory) (fuel : ℕ) (offsetVec : List ℕ) : Option (ℕ × ℕ) :=
  offsetVec.foldlM (fun counts offset => readChain disk fuel offset counts) (0, 0)

/-- A query for a key, from the filters to the counts. -/
def Filled.query (filled : Filled) (fuel : ℕ) (type : IndexType) (key : List UInt8) :
    Option (ℕ × ℕ) :=
  match filled.offsets hash type key with
  | none => none
  | some offsetVec => readPacket filled.disk fuel offsetVec

end QueryTest

end TrafficDatabase
