import TrafficDatabase.Index.IndexBuffer
import TrafficDatabase.Library.BinarySearch

/-!
# Looking up a key on the index disk

`Querier::getOffsetList` goes through the ranges the persisters have recorded for
a key's disk blocks.  It reads the blocks of a range to its index buffer and
searches the records there by bisection.  The last block read for a range is kept:
where the next range starts in it, it is moved to the front of the buffer and
only the blocks behind it are read.

Three things go wrong.  A range that lies in the kept block altogether is passed
over by the `continue` that was to save the read; the keys of the IPv6 types are
compared as if they had two bytes; and the index buffer has room for two index
blocks only, whatever the length of the range.  `getOffsetList_exact` says that
otherwise the lookup is complete and exact.
-/

namespace TrafficDatabase

/-- The sizes a querier looks up with; `blockNum` is that of its index agent,
whose blocks are the read blocks. -/
structure IndexQuerierConfig where
  indexBlockSize : ℕ
  readBlockSize : ℕ
  blockNum : ℕ
  readBlockSize_pos : 0 < readBlockSize
  diskSize_lt : blockNum * readBlockSize < u64Max

/-- Why a turn of the loop is the last one: the agent's read fails, or more is
written to the index buffer than it has room for, which is undefined. -/
inductive LookupError
  | readFail | overflow
deriving DecidableEq, Repr

/-- What `getOffsetList` does; after a failed read it returns what it has found before. -/
inductive Lookup
  | done (offsetList : List ℕ)
  | readFail (offsetList : List ℕ)
  | overflow
deriving DecidableEq, Repr

/-- The variables of `getOffsetList`. -/
structure IndexQuerier where
  indexBuffer : Memory
  lastId : ℕ
  lastEnd : ℕ
  offsetList : List ℕ

/-- The size of the key `getOffsetList` searches for; two bytes for an IPv6 address. -/
def searchKeyLen : IndexType → ℕ
  | .srcip | .dstip => 4
  | .srcport | .dstport => 2
  | .srcipv6 | .dstipv6 => 2

/-- `binarySearch` in `indexLen` bytes at an address, for a key of `keySize` bytes. -/
def binarySearch (mem : Memory) (index indexLen keySize : ℕ) (key : List UInt8) : List ℕ :=
  let eleLen := keySize + 8
  (BinarySearch.equalRange
      (fun i => ofLittleEndian (mem.read (index + i * eleLen) keySize)) (indexLen / eleLen)
      (recordKey keySize key)).map
    fun i => ofLittleEndian (mem.read (index + i * eleLen + keySize) 8)

namespace IndexQuerier

variable (cfg : IndexQuerierConfig) (disk : Memory) (io : ℕ → ℕ → Bool)

def indexBufferSize : ℕ := cfg.indexBlockSize * 2

def start (indexBuffer : Memory) : IndexQuerier :=
  { indexBuffer, lastId := u64Max, lastEnd := u64Max, offsetList := [] }

/-- `DiskAgent::read` of the blocks from `beginId` to `endId`, both included, to
the `place`-th block of the index buffer.  `io` is whether io_uring reads them. -/
def read (indexBuffer : Memory) (place beginId endId : ℕ) : Except LookupError Memory :=
  if beginId ≥ cfg.blockNum ∨ endId > cfg.blockNum ∨ beginId > endId ∨ io beginId endId = false then
    .error .readFail
  else if (place + (endId - beginId + 1)) * cfg.readBlockSize > indexBufferSize cfg then
    .error .overflow
  else
    .ok (indexBuffer.write (place * cfg.readBlockSize)
      (disk.read (beginId * cfg.readBlockSize) ((endId - beginId + 1) * cfg.readBlockSize)))

variable (st : IndexQuerier)

/-- `last_id` and `last_end` after a range, with its blocks in the index buffer. -/
def moveTo (range : ℕ × ℕ) (indexBuffer : Memory) : IndexQuerier :=
  { st with
    indexBuffer
    lastId := range.2 / cfg.readBlockSize
    lastEnd := range.2 / cfg.readBlockSize - range.1 / cfg.readBlockSize }

/-- The blocks of a range are brought to the front of the index buffer.  The
first result is false where the source goes on with the next range. -/
def load (range : ℕ × ℕ) : Except LookupError (Bool × IndexQuerier) :=
  let startId := range.1 / cfg.readBlockSize
  let endId := range.2 / cfg.readBlockSize
  if st.lastId = startId then
    if (st.lastEnd + 1) * cfg.readBlockSize > indexBufferSize cfg then .error .overflow
    else
      let shifted := st.indexBuffer.write 0
        (st.indexBuffer.read (st.lastEnd * cfg.readBlockSize) cfg.readBlockSize)
      if endId - startId = 0 then .ok (false, st.moveTo cfg range shifted)
      else (read cfg disk io shifted 1 (startId + 1) endId).map fun indexBuffer =>
        (true, st.moveTo cfg range indexBuffer)
  else (read cfg disk io st.indexBuffer 0 startId endId).map fun indexBuffer =>
    (true, st.moveTo cfg range indexBuffer)

/-- Search the records of a range that has been loaded. -/
def search (type : IndexType) (key : List UInt8) (range : ℕ × ℕ) : IndexQuerier :=
  { st with
    offsetList := st.offsetList ++ binarySearch st.indexBuffer (range.1 % cfg.readBlockSize)
      (range.2 - range.1) (searchKeyLen type) key }

/-- The loop of `getOffsetList`; `index_list` holds the two ends of each range in turn. -/
def getOffsetList (type : IndexType) (key : List UInt8) : List (ℕ × ℕ) → IndexQuerier → Lookup
  | [], st => .done st.offsetList
  | range :: rest, st =>
      match st.load cfg disk io range with
      | .error .readFail => .readFail st.offsetList
      | .error .overflow => .overflow
      | .ok (searched, loaded) =>
          getOffsetList type key rest
            (if searched then loaded.search cfg type key range else loaded)

end IndexQuerier

/-! ## What is to be found -/

/-- The positions the records of a key hold, in the order of the records. -/
def positionsOf (keyLen : ℕ) (key : List UInt8) (records : List (List UInt8)) : List ℕ :=
  (records.filter fun record => recordKey keyLen record = recordKey keyLen key).map
    fun record => ofLittleEndian (record.drop keyLen)

/-- The records of a type in a range of the index disk. -/
def rangeRecords (disk : Memory) (type : IndexType) (range : ℕ × ℕ) : List (List UInt8) :=
  IndexBlockBuffer.records disk range.1 (type.keyLen + 8)
    ((range.2 - range.1) / (type.keyLen + 8))

def rangePositions (disk : Memory) (type : IndexType) (key : List UInt8) (range : ℕ × ℕ) :
    List ℕ :=
  positionsOf type.keyLen key (rangeRecords disk type range)

/-- The range lies on the index disk and holds records of the type, sorted by key. -/
structure HoldsRecords (cfg : IndexQuerierConfig) (disk : Memory) (type : IndexType)
    (range : ℕ × ℕ) : Prop where
  le : range.1 ≤ range.2
  inside : range.2 ≤ cfg.blockNum * cfg.readBlockSize
  whole : (range.2 - range.1) % (type.keyLen + 8) = 0
  sorted : SortedByKey type.keyLen (rangeRecords disk type range)

instance (records : List (List UInt8)) (keyLen : ℕ) : Decidable (SortedByKey keyLen records) :=
  inferInstanceAs (Decidable (List.Pairwise _ _))

instance (cfg : IndexQuerierConfig) (disk : Memory) (type : IndexType) (range : ℕ × ℕ) :
    Decidable (HoldsRecords cfg disk type range) :=
  decidable_of_iff (range.1 ≤ range.2 ∧ range.2 ≤ cfg.blockNum * cfg.readBlockSize ∧
      (range.2 - range.1) % (type.keyLen + 8) = 0 ∧
      SortedByKey type.keyLen (rangeRecords disk type range))
    ⟨fun h => ⟨h.1, h.2.1, h.2.2.1, h.2.2.2⟩, fun h => ⟨h.le, h.inside, h.whole, h.sorted⟩⟩

/-- The blocks of the range fit in the index buffer. -/
def FitsBuffer (cfg : IndexQuerierConfig) (range : ℕ × ℕ) : Prop :=
  (range.2 / cfg.readBlockSize - range.1 / cfg.readBlockSize + 1) * cfg.readBlockSize ≤
    IndexQuerier.indexBufferSize cfg

/-- The range lies in the block read last. -/
def InLastBlock (cfg : IndexQuerierConfig) (lastId : ℕ) (range : ℕ × ℕ) : Prop :=
  lastId = range.1 / cfg.readBlockSize ∧
    range.2 / cfg.readBlockSize - range.1 / cfg.readBlockSize = 0

instance (cfg : IndexQuerierConfig) (range : ℕ × ℕ) : Decidable (FitsBuffer cfg range) :=
  inferInstanceAs (Decidable (_ ≤ _))

instance (cfg : IndexQuerierConfig) (lastId : ℕ) (range : ℕ × ℕ) :
    Decidable (InLastBlock cfg lastId range) := inferInstanceAs (Decidable (_ ∧ _))

/-- No range that lies in the block the range before it ended in has a record of the key. -/
def NothingSkipped (cfg : IndexQuerierConfig) (disk : Memory) (type : IndexType)
    (key : List UInt8) : ℕ → List (ℕ × ℕ) → Prop
  | _, [] => True
  | lastId, range :: rest =>
      (InLastBlock cfg lastId range → rangePositions disk type key range = []) ∧
        NothingSkipped cfg disk type key (range.2 / cfg.readBlockSize) rest

instance decidableNothingSkipped (cfg : IndexQuerierConfig) (disk : Memory) (type : IndexType)
    (key : List UInt8) :
    ∀ lastId ranges, Decidable (NothingSkipped cfg disk type key lastId ranges)
  | _, [] => .isTrue trivial
  | _, range :: rest =>
      have := decidableNothingSkipped cfg disk type key (range.2 / cfg.readBlockSize) rest
      inferInstanceAs (Decidable (_ ∧ _))

/-! ## Searching a range -/

variable {cfg : IndexQuerierConfig} {disk : Memory} {io : ℕ → ℕ → Bool} {type : IndexType}
  {key : List UInt8} {range : ℕ × ℕ} {st : IndexQuerier}

/-- The search in the bytes of a range finds the positions of the records of the key. -/
theorem binarySearch_eq {mem : Memory} {index : ℕ} (hrecords : HoldsRecords cfg disk type range)
    (hbytes : mem.read index (range.2 - range.1) = disk.read range.1 (range.2 - range.1)) :
    binarySearch mem index (range.2 - range.1) type.keyLen key =
      rangePositions disk type key range := by
  set recordSize := type.keyLen + 8 with hsize
  set count := (range.2 - range.1) / recordSize with hcount
  -- the bytes of a record are those on the disk, so the keys are in order in the buffer too
  have hinside : ∀ i < count, i * recordSize + recordSize ≤ range.2 - range.1 := by
    intro i hi
    calc
      i * recordSize + recordSize = (i + 1) * recordSize := (Nat.succ_mul ..).symm
      _ ≤ count * recordSize := Nat.mul_le_mul_right _ hi
      _ ≤ range.2 - range.1 := Nat.div_mul_le_self ..
  have hkey : ∀ i < count, mem.read (index + i * recordSize) type.keyLen =
      (disk.read (range.1 + i * recordSize) recordSize).take type.keyLen := by
    intro i hi
    have := hinside i hi
    rw [Memory.read_take _ _ (by omega), Memory.read_part hbytes (by omega)]
  have hvalue : ∀ i < count, mem.read (index + i * recordSize + type.keyLen) 8 =
      (disk.read (range.1 + i * recordSize) recordSize).drop type.keyLen := by
    intro i hi
    have hle := hinside i hi
    have hrest : recordSize - type.keyLen = 8 := by omega
    rw [Memory.read_drop _ _ (by omega), hrest, Nat.add_assoc, Nat.add_assoc,
      Memory.read_part hbytes (by omega)]
  have hkeyAt : ∀ i < count, ofLittleEndian (mem.read (index + i * recordSize) type.keyLen) =
      recordKey type.keyLen (disk.read (range.1 + i * recordSize) recordSize) :=
    fun i hi => congrArg ofLittleEndian (hkey i hi)
  have hmono : ∀ i j, i ≤ j → j < count →
      ofLittleEndian (mem.read (index + i * recordSize) type.keyLen) ≤
        ofLittleEndian (mem.read (index + j * recordSize) type.keyLen) := by
    intro i j hij hj
    rw [hkeyAt i (by omega), hkeyAt j hj]
    rcases Nat.lt_or_eq_of_le hij with hlt | rfl
    · have hsorted := hrecords.sorted
      change List.Pairwise _ ((List.range count).map fun i =>
        disk.read (range.1 + i * recordSize) recordSize) at hsorted
      rw [List.pairwise_map, List.pairwise_iff_getElem] at hsorted
      have hpair := hsorted i j (by simp; omega) (by simpa using hj) hlt
      rwa [List.getElem_range, List.getElem_range] at hpair
    · exact le_rfl
  change (BinarySearch.equalRange
      (fun i => ofLittleEndian (mem.read (index + i * recordSize) type.keyLen)) count
      (recordKey type.keyLen key)).map
        (fun i => ofLittleEndian (mem.read (index + i * recordSize + type.keyLen) 8)) =
    (((List.range count).map fun i => disk.read (range.1 + i * recordSize) recordSize).filter
      fun record => decide (recordKey type.keyLen record = recordKey type.keyLen key)).map
        fun record => ofLittleEndian (record.drop type.keyLen)
  -- the general search is the filter, and both sides look at the same keys and values
  rw [BinarySearch.equalRange_eq_filter hmono, List.filter_map, List.map_map]
  have hfilter : ((List.range count).filter fun i =>
        decide (ofLittleEndian (mem.read (index + i * recordSize) type.keyLen) =
          recordKey type.keyLen key)) =
      (List.range count).filter ((fun record =>
        decide (recordKey type.keyLen record = recordKey type.keyLen key)) ∘
          fun i => disk.read (range.1 + i * recordSize) recordSize) := by
    apply List.filter_congr
    intro i hi
    rw [hkeyAt i (List.mem_range.mp hi)]
    rfl
  rw [hfilter]
  apply List.map_congr_left
  intro i hi
  exact congrArg ofLittleEndian (hvalue i (List.mem_range.mp (List.mem_of_mem_filter hi)))

/-! ## Loading a range -/

namespace IndexQuerier

/-- The block read last is at its place in the index buffer. -/
def Kept (cfg : IndexQuerierConfig) (disk : Memory) (st : IndexQuerier) : Prop :=
  st.lastId = u64Max ∨
    ((st.lastEnd + 1) * cfg.readBlockSize ≤ indexBufferSize cfg ∧
      st.indexBuffer.read (st.lastEnd * cfg.readBlockSize) cfg.readBlockSize =
        disk.read (st.lastId * cfg.readBlockSize) cfg.readBlockSize)

/-- The blocks of a range are at the front of the index buffer. -/
structure Loaded (cfg : IndexQuerierConfig) (disk : Memory) (range : ℕ × ℕ)
    (st loaded : IndexQuerier) : Prop where
  lastId : loaded.lastId = range.2 / cfg.readBlockSize
  lastEnd : loaded.lastEnd = range.2 / cfg.readBlockSize - range.1 / cfg.readBlockSize
  offsetList : loaded.offsetList = st.offsetList
  fits : FitsBuffer cfg range
  blocks : loaded.indexBuffer.read 0
      ((range.2 / cfg.readBlockSize - range.1 / cfg.readBlockSize + 1) * cfg.readBlockSize) =
    disk.read (range.1 / cfg.readBlockSize * cfg.readBlockSize)
      ((range.2 / cfg.readBlockSize - range.1 / cfg.readBlockSize + 1) * cfg.readBlockSize)

theorem read_cases (indexBuffer : Memory) (place beginId endId : ℕ) :
    read cfg disk io indexBuffer place beginId endId = .error .readFail ∨
      ((place + (endId - beginId + 1)) * cfg.readBlockSize > indexBufferSize cfg ∧
        read cfg disk io indexBuffer place beginId endId = .error .overflow) ∨
      ((place + (endId - beginId + 1)) * cfg.readBlockSize ≤ indexBufferSize cfg ∧
        beginId ≤ endId ∧
        read cfg disk io indexBuffer place beginId endId =
          .ok (indexBuffer.write (place * cfg.readBlockSize)
            (disk.read (beginId * cfg.readBlockSize)
              ((endId - beginId + 1) * cfg.readBlockSize)))) := by
  unfold read
  split_ifs with hfail hover
  · exact .inl rfl
  · exact .inr (.inl ⟨hover, rfl⟩)
  · exact .inr (.inr ⟨not_lt.mp hover, by omega, rfl⟩)

/-- A read puts the block it follows in the buffer and its own blocks side by side. -/
theorem read_block_append {mem : Memory} {size startId count : ℕ}
    (hfront : mem.read 0 size = disk.read (startId * size) size) :
    (mem.write (1 * size) (disk.read ((startId + 1) * size) (count * size))).read 0
        ((count + 1) * size) =
      disk.read (startId * size) ((count + 1) * size) := by
  have hsplit : (count + 1) * size = size + count * size := by ring
  have hnext : startId * size + size = (startId + 1) * size := (Nat.succ_mul ..).symm
  rw [hsplit, Memory.read_add, Memory.read_add, hnext, Nat.one_mul,
    Memory.read_write_of_disjoint (.inl (by omega)), hfront, Nat.zero_add]
  congr 1
  have hself := Memory.read_write_self mem size (disk.read ((startId + 1) * size) (count * size))
  rwa [Memory.length_read] at hself

theorem load_cases (hkept : Kept cfg disk st) (hle : range.1 ≤ range.2)
    (hinside : range.2 ≤ cfg.blockNum * cfg.readBlockSize) :
    st.load cfg disk io range = .error .readFail ∨
      (¬ FitsBuffer cfg range ∧ st.load cfg disk io range = .error .overflow) ∨
      ∃ searched loaded, st.load cfg disk io range = .ok (searched, loaded) ∧
        Loaded cfg disk range st loaded ∧
        (searched = false ↔ InLastBlock cfg st.lastId range) := by
  have hids : range.1 / cfg.readBlockSize ≤ range.2 / cfg.readBlockSize :=
    Nat.div_le_div_right hle
  unfold load FitsBuffer InLastBlock
  set startId := range.1 / cfg.readBlockSize with hstartId
  set endId := range.2 / cfg.readBlockSize with hendId
  -- the first block may be the one kept from the last call, which then moves to the front
  by_cases hcached : st.lastId = startId
  · have hbound : startId ≠ u64Max := by
      have hpos := cfg.diskSize_lt
      have hdiv : startId ≤ range.1 := Nat.div_le_self ..
      omega
    obtain ⟨hroom, hblock⟩ := hkept.resolve_left (hcached ▸ hbound)
    rw [hcached] at hblock
    have hfront : (st.indexBuffer.write 0
        (st.indexBuffer.read (st.lastEnd * cfg.readBlockSize) cfg.readBlockSize)).read 0
          cfg.readBlockSize = disk.read (startId * cfg.readBlockSize) cfg.readBlockSize := by
      have hself := Memory.read_write_self st.indexBuffer 0
        (st.indexBuffer.read (st.lastEnd * cfg.readBlockSize) cfg.readBlockSize)
      rw [Memory.length_read] at hself
      exact hself.trans hblock
    simp only [if_pos hcached, if_neg (not_lt.mpr hroom)]
    -- it is all there is, or the blocks behind it are read
    by_cases hskip : endId - startId = 0
    · refine .inr (.inr ⟨false, st.moveTo cfg range _, if_pos hskip, ⟨rfl, rfl, rfl, ?_, ?_⟩,
        by simp [hcached, hskip]⟩)
      · calc
          (endId - startId + 1) * cfg.readBlockSize = (0 + 1) * cfg.readBlockSize := by rw [hskip]
          _ ≤ (st.lastEnd + 1) * cfg.readBlockSize := Nat.mul_le_mul_right _ (by omega)
          _ ≤ indexBufferSize cfg := hroom
      · rw [← hstartId, ← hendId, hskip, Nat.zero_add, Nat.one_mul]
        exact hfront
    · have hcount : endId - (startId + 1) + 1 = endId - startId := by omega
      have hplace : 1 + (endId - (startId + 1) + 1) = endId - startId + 1 := by omega
      simp only [if_neg hskip]
      rcases @read_cases cfg disk io (st.indexBuffer.write 0
          (st.indexBuffer.read (st.lastEnd * cfg.readBlockSize) cfg.readBlockSize)) 1 (startId + 1)
          endId with hread | ⟨hover, hread⟩ | ⟨hfits, hids', hread⟩
      · exact .inl (by rw [hread]; rfl)
      · rw [hplace] at hover
        exact .inr (.inl ⟨not_le.mpr hover, by rw [hread]; rfl⟩)
      · rw [hplace] at hfits
        refine .inr (.inr ⟨true, st.moveTo cfg range _, by rw [hread]; rfl,
          ⟨rfl, rfl, rfl, hfits, ?_⟩, by simp [hskip]⟩)
        rw [hcount]
        exact read_block_append hfront
  · simp only [if_neg hcached]
    rcases @read_cases cfg disk io st.indexBuffer 0 startId endId with
      hread | ⟨hover, hread⟩ | ⟨hfits, hids', hread⟩
    · exact .inl (by rw [hread]; rfl)
    · rw [Nat.zero_add] at hover
      exact .inr (.inl ⟨not_le.mpr hover, by rw [hread]; rfl⟩)
    · rw [Nat.zero_add] at hfits
      refine .inr (.inr ⟨true, st.moveTo cfg range _, by rw [hread]; rfl,
        ⟨rfl, rfl, rfl, hfits, ?_⟩, by simp [hcached]⟩)
      have hself := Memory.read_write_self st.indexBuffer (0 * cfg.readBlockSize)
        (disk.read (startId * cfg.readBlockSize) ((endId - startId + 1) * cfg.readBlockSize))
      rw [Memory.length_read, Nat.zero_mul] at hself
      change (st.indexBuffer.write (0 * cfg.readBlockSize) _).read 0 _ = _
      rw [Nat.zero_mul]
      exact hself

theorem Loaded.kept {loaded : IndexQuerier} (h : Loaded cfg disk range st loaded)
    (hle : range.1 ≤ range.2) : Kept cfg disk loaded := by
  have hids : range.1 / cfg.readBlockSize ≤ range.2 / cfg.readBlockSize :=
    Nat.div_le_div_right hle
  have hfits := h.fits
  have hblocks := h.blocks
  unfold FitsBuffer at hfits
  unfold Kept
  rw [h.lastEnd, h.lastId]
  generalize range.2 / cfg.readBlockSize = endId at hids hfits hblocks ⊢
  generalize range.1 / cfg.readBlockSize = startId at hids hfits hblocks ⊢
  refine .inr ⟨hfits, ?_⟩
  have hlast : (endId - startId) * cfg.readBlockSize + cfg.readBlockSize ≤
      (endId - startId + 1) * cfg.readBlockSize := (Nat.succ_mul ..).symm.le
  have hend : startId * cfg.readBlockSize + (endId - startId) * cfg.readBlockSize =
      endId * cfg.readBlockSize := by
    rw [← Nat.add_mul, Nat.add_sub_cancel' hids]
  have hpart := Memory.read_part hblocks hlast
  rwa [Nat.zero_add, hend] at hpart

/-- The bytes of a range that has been loaded. -/
theorem Loaded.bytes {loaded : IndexQuerier} (h : Loaded cfg disk range st loaded)
    (hle : range.1 ≤ range.2) :
    loaded.indexBuffer.read (range.1 % cfg.readBlockSize) (range.2 - range.1) =
      disk.read range.1 (range.2 - range.1) := by
  have hids : range.1 / cfg.readBlockSize ≤ range.2 / cfg.readBlockSize :=
    Nat.div_le_div_right hle
  have hstart := Nat.div_add_mod' range.1 cfg.readBlockSize
  have hend := Nat.div_add_mod' range.2 cfg.readBlockSize
  have hmod := Nat.mod_lt range.2 cfg.readBlockSize_pos
  have hsplit : (range.2 / cfg.readBlockSize - range.1 / cfg.readBlockSize + 1) *
      cfg.readBlockSize + range.1 / cfg.readBlockSize * cfg.readBlockSize =
      range.2 / cfg.readBlockSize * cfg.readBlockSize + cfg.readBlockSize := by
    rw [← Nat.add_mul, ← Nat.succ_mul]
    congr 1
    omega
  have hpart := Memory.read_part h.blocks
    (by omega : range.1 % cfg.readBlockSize + (range.2 - range.1) ≤ _)
  rwa [Nat.zero_add, hstart] at hpart

end IndexQuerier

/-! ## The whole list of ranges -/

/-- The positions found in the ranges, given the block read last: all but those
of the ranges in that block. -/
def foundPositions (cfg : IndexQuerierConfig) (disk : Memory) (type : IndexType)
    (key : List UInt8) : ℕ → List (ℕ × ℕ) → List ℕ
  | _, [] => []
  | lastId, range :: rest =>
      (if InLastBlock cfg lastId range then [] else rangePositions disk type key range) ++
        foundPositions cfg disk type key (range.2 / cfg.readBlockSize) rest

/-- The positions of all records of the key, range after range. -/
def allPositions (disk : Memory) (type : IndexType) (key : List UInt8) (ranges : List (ℕ × ℕ)) :
    List ℕ :=
  ranges.flatMap (rangePositions disk type key)

theorem length_foundPositions_le (lastId : ℕ) (ranges : List (ℕ × ℕ)) :
    (foundPositions cfg disk type key lastId ranges).length ≤
      (allPositions disk type key ranges).length := by
  induction ranges generalizing lastId with
  | nil => exact le_rfl
  | cons range rest ih =>
      have hrest := ih (range.2 / cfg.readBlockSize)
      unfold foundPositions
      unfold allPositions at hrest ⊢
      rw [List.flatMap_cons, List.length_append, List.length_append]
      split_ifs
      · rw [List.length_nil]
        omega
      · omega

/-- What is found is everything exactly when nothing was passed over. -/
theorem foundPositions_eq_iff (lastId : ℕ) (ranges : List (ℕ × ℕ)) :
    foundPositions cfg disk type key lastId ranges = allPositions disk type key ranges ↔
      NothingSkipped cfg disk type key lastId ranges := by
  induction ranges generalizing lastId with
  | nil => exact iff_of_true rfl trivial
  | cons range rest ih =>
      unfold foundPositions NothingSkipped
      rw [← ih]
      change _ = rangePositions disk type key range ++ allPositions disk type key rest ↔ _
      by_cases hlast : InLastBlock cfg lastId range
      · rw [if_pos hlast, List.nil_append]
        constructor
        · intro heq
          have hlength := congrArg List.length heq
          have hle := @length_foundPositions_le cfg disk type key
            (range.2 / cfg.readBlockSize) rest
          rw [List.length_append] at hlength
          have hnil : rangePositions disk type key range = [] :=
            List.eq_nil_of_length_eq_zero (by omega)
          rw [hnil, List.nil_append] at heq
          exact ⟨fun _ => hnil, heq⟩
        · rintro ⟨hnil, hrest⟩
          rw [hnil hlast, hrest, List.nil_append]
      · rw [if_neg hlast, List.append_cancel_left_eq]
        exact ⟨fun hrest => ⟨fun habsurd => absurd habsurd hlast, hrest⟩, fun hall => hall.2⟩

namespace IndexQuerier

/-- The key searched for has the type's size, or there is nothing to search. -/
def SearchesKey (type : IndexType) (range : ℕ × ℕ) : Prop :=
  searchKeyLen type = type.keyLen ∨ range.1 = range.2

instance : Decidable (SearchesKey type range) := inferInstanceAs (Decidable (_ ∨ _))

theorem search_eq {loaded : IndexQuerier} (h : Loaded cfg disk range st loaded)
    (hrecords : HoldsRecords cfg disk type range) (hkey : SearchesKey type range) :
    loaded.search cfg type key range =
      { loaded with offsetList := st.offsetList ++ rangePositions disk type key range } := by
  have hfound : binarySearch loaded.indexBuffer (range.1 % cfg.readBlockSize)
      (range.2 - range.1) (searchKeyLen type) key = rangePositions disk type key range := by
    rcases hkey with hwidth | hempty
    · rw [hwidth]
      exact binarySearch_eq hrecords (h.bytes hrecords.le)
    · have hlen : range.2 - range.1 = 0 := by omega
      simp only [binarySearch, rangePositions, rangeRecords, IndexBlockBuffer.records, hlen,
        Nat.zero_div]
      rfl
  unfold search
  rw [hfound, h.offsetList]

theorem getOffsetList_cases {ranges : List (ℕ × ℕ)} (hkept : Kept cfg disk st)
    (hrecords : ∀ range ∈ ranges, HoldsRecords cfg disk type range)
    (hkey : ∀ range ∈ ranges, SearchesKey type range) :
    (∃ offsetList, getOffsetList cfg disk io type key ranges st = .readFail offsetList) ∨
      ((∃ range ∈ ranges, ¬ FitsBuffer cfg range) ∧
        getOffsetList cfg disk io type key ranges st = .overflow) ∨
      ((∀ range ∈ ranges, FitsBuffer cfg range) ∧
        getOffsetList cfg disk io type key ranges st =
          .done (st.offsetList ++ foundPositions cfg disk type key st.lastId ranges)) := by
  induction ranges generalizing st with
  | nil =>
      refine .inr (.inr ⟨fun _ hmem => absurd hmem List.not_mem_nil, ?_⟩)
      unfold getOffsetList foundPositions
      rw [List.append_nil]
  | cons range rest ih =>
      have hhead := hrecords range List.mem_cons_self
      have hrest := fun other hmem => hrecords other (List.mem_cons_of_mem range hmem)
      have hkeys := fun other hmem => hkey other (List.mem_cons_of_mem range hmem)
      unfold getOffsetList
      rcases @load_cases cfg disk io range st hkept hhead.le hhead.inside with
        hload | ⟨hfits, hload⟩ | ⟨searched, loaded, hload, hloaded, hsearched⟩
      · rw [hload]
        exact .inl ⟨st.offsetList, rfl⟩
      · rw [hload]
        exact .inr (.inl ⟨⟨range, List.mem_cons_self, hfits⟩, rfl⟩)
      · rw [hload]
        -- the state the rest of the ranges are looked up from
        have hnext : (if searched then loaded.search cfg type key range else loaded) =
            { loaded with
              offsetList := st.offsetList ++
                if InLastBlock cfg st.lastId range then []
                else rangePositions disk type key range } := by
          cases searched with
          | false =>
              rw [if_neg Bool.false_ne_true, if_pos (hsearched.mp rfl), List.append_nil,
                ← hloaded.offsetList]
          | true =>
              have hnot : ¬ InLastBlock cfg st.lastId range := by
                rw [← hsearched]
                exact Bool.true_eq_false.mp
              rw [if_pos rfl, if_neg hnot]
              exact search_eq hloaded hhead (hkey range List.mem_cons_self)
        change (∃ offsetList, getOffsetList cfg disk io type key rest
            (if searched then loaded.search cfg type key range else loaded) =
              .readFail offsetList) ∨ (_ ∧ getOffsetList cfg disk io type key rest
            (if searched then loaded.search cfg type key range else loaded) = .overflow) ∨
          (_ ∧ getOffsetList cfg disk io type key rest
            (if searched then loaded.search cfg type key range else loaded) = _)
        rw [hnext]
        have hkept' : Kept cfg disk { loaded with
            offsetList := st.offsetList ++
              if InLastBlock cfg st.lastId range then []
              else rangePositions disk type key range } := hloaded.kept hhead.le
        rcases ih hkept' hrest hkeys with
          hfail | ⟨⟨other, hmem, hfits⟩, hover⟩ | ⟨hfits, hdone⟩
        · exact .inl hfail
        · exact .inr (.inl ⟨⟨other, List.mem_cons_of_mem range hmem, hfits⟩, hover⟩)
        · refine .inr (.inr ⟨?_, ?_⟩)
          · intro other hmem
            rcases List.mem_cons.mp hmem with rfl | hmem
            · exact hloaded.fits
            · exact hfits other hmem
          · rw [hdone]
            change Lookup.done ((st.offsetList ++ _) ++
              foundPositions cfg disk type key loaded.lastId rest) = _
            rw [hloaded.lastId, List.append_assoc]
            rfl

/-- What a list of ranges must be like for a lookup to be right. -/
structure LookupSound (cfg : IndexQuerierConfig) (disk : Memory) (type : IndexType)
    (key : List UInt8) (ranges : List (ℕ × ℕ)) : Prop where
  searches : ∀ range ∈ ranges, SearchesKey type range
  fits : ∀ range ∈ ranges, FitsBuffer cfg range
  skipped : NothingSkipped cfg disk type key u64Max ranges

/-- **The lookup is complete and exact** when the keys have the size that is
searched for, the ranges fit in the index buffer, and no range that lies in the
block read last has a record of the key; and for the types with keys of that
size, only then. -/
theorem getOffsetList_exact (indexBuffer : Memory) {ranges : List (ℕ × ℕ)}
    (hrecords : ∀ range ∈ ranges, HoldsRecords cfg disk type range)
    (hreads : ∀ offsetList, getOffsetList cfg disk io type key ranges (start indexBuffer) ≠
      .readFail offsetList) :
    (LookupSound cfg disk type key ranges →
      getOffsetList cfg disk io type key ranges (start indexBuffer) =
        .done (allPositions disk type key ranges)) ∧
    (searchKeyLen type = type.keyLen →
      getOffsetList cfg disk io type key ranges (start indexBuffer) =
        .done (allPositions disk type key ranges) → LookupSound cfg disk type key ranges) := by
  have hkept : Kept cfg disk (start indexBuffer) := .inl rfl
  constructor
  · intro hsound
    rcases @getOffsetList_cases cfg disk io type key _ ranges hkept hrecords hsound.searches with
      ⟨offsetList, hfail⟩ | ⟨⟨range, hmem, hfits⟩, -⟩ | ⟨-, hdone⟩
    · exact absurd hfail (hreads offsetList)
    · exact absurd (hsound.fits range hmem) hfits
    · rw [hdone]
      exact congrArg Lookup.done ((foundPositions_eq_iff ..).mpr hsound.skipped)
  · intro hwidth heq
    have hsearches : ∀ range ∈ ranges, SearchesKey type range := fun _ _ => .inl hwidth
    rcases @getOffsetList_cases cfg disk io type key _ ranges hkept hrecords hsearches with
      ⟨offsetList, hfail⟩ | ⟨-, hover⟩ | ⟨hfits, hdone⟩
    · exact absurd hfail (hreads offsetList)
    · rw [hover] at heq
      cases heq
    · rw [hdone] at heq
      exact ⟨hsearches, hfits, (foundPositions_eq_iff ..).mp (Lookup.done.inj heq)⟩

/-- Index blocks and read blocks of 32 bytes. -/
def smallReads : IndexQuerierConfig where
  indexBlockSize := 32
  readBlockSize := 32
  blockNum := 8
  readBlockSize_pos := by decide
  diskSize_lt := by decide

/-- A record of a port. -/
def portRecord (port position : ℕ) : List UInt8 :=
  toLittleEndian 2 port ++ toLittleEndian 8 position

/-- An index disk with three records of port 80, the last of them across the end
of the first block, and the record of an IPv6 address in the third block. -/
def smallDisk : Memory :=
  ((Memory.write (fun _ => 0) 0 (portRecord 80 100 ++ portRecord 80 200)).write 24
    (portRecord 80 250)).write 64 (toLittleEndian 16 7 ++ toLittleEndian 8 300)

/-- The second range starts in the block the first one ends in and goes on behind
it; the third lies in the block after that but is empty. -/
theorem getOffsetList_exact_shared :
    getOffsetList smallReads smallDisk (fun _ _ => true) .srcport (toLittleEndian 2 80)
      [(0, 10), (24, 34), (34, 34)] (start fun _ => 0) = .done [100, 250] := by
  have hdone : getOffsetList smallReads smallDisk (fun _ _ => true) .srcport
      (toLittleEndian 2 80) [(0, 10), (24, 34), (34, 34)] (start fun _ => 0) =
        .done [100, 250] := by decide +kernel
  have hreads : ∀ offsetList, getOffsetList smallReads smallDisk (fun _ _ => true) .srcport
      (toLittleEndian 2 80) [(0, 10), (24, 34), (34, 34)] (start fun _ => 0) ≠
        .readFail offsetList := by
    intro offsetList hfail
    cases hfail.symm.trans hdone
  have hsound : LookupSound smallReads smallDisk .srcport (toLittleEndian 2 80)
      [(0, 10), (24, 34), (34, 34)] := ⟨by decide, by decide, by decide +kernel⟩
  have hall : allPositions smallDisk .srcport (toLittleEndian 2 80)
      [(0, 10), (24, 34), (34, 34)] = [100, 250] := by decide +kernel
  rw [(getOffsetList_exact _ (by decide +kernel) hreads).1 hsound, hall]

/-- Of two ranges in one block the second is passed over; the record of an IPv6
address is not found; and three blocks do not fit in the buffer. -/
theorem getOffsetList_misses :
    ((∀ range ∈ [(0, 10), (10, 20)], HoldsRecords smallReads smallDisk .srcport range) ∧
      allPositions smallDisk .srcport (toLittleEndian 2 80) [(0, 10), (10, 20)] = [100, 200] ∧
      getOffsetList smallReads smallDisk (fun _ _ => true) .srcport (toLittleEndian 2 80)
        [(0, 10), (10, 20)] (start fun _ => 0) = .done [100]) ∧
    (HoldsRecords smallReads smallDisk .srcipv6 (64, 88) ∧
      allPositions smallDisk .srcipv6 (toLittleEndian 16 7) [(64, 88)] = [300] ∧
      getOffsetList smallReads smallDisk (fun _ _ => true) .srcipv6 (toLittleEndian 16 7)
        [(64, 88)] (start fun _ => 0) = .done []) ∧
    (HoldsRecords smallReads smallDisk .srcport (128, 208) ∧
      getOffsetList smallReads smallDisk (fun _ _ => true) .srcport (toLittleEndian 2 80)
        [(128, 208)] (start fun _ => 0) = .overflow) := by
  decide +kernel

end IndexQuerier

end TrafficDatabase
