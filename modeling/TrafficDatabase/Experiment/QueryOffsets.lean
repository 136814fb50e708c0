import TrafficDatabase.Experiment.IndexFill
import TrafficDatabase.Storage.IndexPlacement

/-!
# What a query for a key finds

The array of a block holds the records of the block sorted by their keys, so the search finds
the positions that the records of the block have for a key, and sorting them brings them back
into the order of the index (`getOffset_piece`).  The filter turns no key away that a record of
the block has, so it changes nothing (`Filled.Holds.blockOffsets`).  As the blocks follow each
other in the index, what is found in them one after the other is what the whole index has for
the key (`offsets_exact`).
-/

namespace TrafficDatabase

/-! ## Lists in the order of a number -/

/-- A list whose elements have ascending numbers is the list of those with each number in
turn. -/
theorem flatMap_filter_eq {α : Type*} (number : α → ℕ) {list : List α}
    (hascending : list.Pairwise fun first second => number first ≤ number second) {bound : ℕ}
    (hlt : ∀ element ∈ list, number element < bound) :
    ((List.range bound).flatMap fun n => list.filter fun element => number element = n) =
      list := by
  have hfirsts : ∀ n, ((List.range n).flatMap fun m =>
      list.filter fun element => number element = m) =
        list.filter fun element => number element < n := by
    intro n
    induction n with
    | zero => simp
    | succ n ih =>
        rw [List.range_succ, List.flatMap_append, ih, List.flatMap_singleton]
        -- the elements with the next number come behind those with smaller ones
        clear ih hlt
        induction list with
        | nil => rfl
        | cons first rest ih =>
            obtain ⟨hfirst, hrest⟩ := List.pairwise_cons.mp hascending
            rcases Nat.lt_or_ge (number first) n with hbelow | hfrom
            · rw [List.filter_cons_of_pos (by simpa using hbelow),
                List.filter_cons_of_neg (by simpa using hbelow.ne),
                List.filter_cons_of_pos (by simpa using Nat.lt_succ_of_lt hbelow),
                List.cons_append, ih hrest]
            · have hnone : (first :: rest).filter (fun element => number element < n) = [] := by
                rw [List.filter_eq_nil_iff]
                intro element helement
                have hle : n ≤ number element := by
                  rcases List.mem_cons.mp helement with rfl | hlater
                  · exact hfrom
                  · exact hfrom.trans (hfirst element hlater)
                simpa using hle
              rw [hnone, List.nil_append]
              refine List.filter_congr fun element helement => decide_eq_decide.mpr ?_
              have hle : n ≤ number element := by
                rcases List.mem_cons.mp helement with rfl | hlater
                · exact hfrom
                · exact hfrom.trans (hfirst element hlater)
              omega
  rw [hfirsts bound, List.filter_eq_self]
  exact fun element helement => decide_eq_true (hlt element helement)

/-- Ascending numbers below a bound are no more than the bound. -/
theorem length_le_of_ascending {numbers : List ℕ} (hascending : numbers.Pairwise (· < ·))
    {bound : ℕ} (hlt : ∀ n ∈ numbers, n < bound) : numbers.length ≤ bound := by
  have hnodup : numbers.Nodup := hascending.imp fun h => h.ne
  have hsubset : numbers.toFinset ⊆ Finset.range bound := fun n hn =>
    Finset.mem_range.mpr (hlt n (List.mem_toFinset.mp hn))
  have hcard := Finset.card_le_card hsubset
  rwa [List.toFinset_card_of_nodup hnodup, Finset.card_range] at hcard

namespace QueryTest

open DataHandler PrefixBloomFilter RecordSearch
open IndexStorageConfig (someHash someSort)

/-- An index in the order of the file, of the blocks the filters have columns for. -/
structure InOrder (stores : List IndexStore) : Prop where
  indexable : ∀ store ∈ stores, Indexable store
  steady : Steady 0 stores
  blocks : ∀ store ∈ stores, blockOf store < 72
  ascending : (stores.map fun store => store.position).Pairwise (· < ·)

/-- The positions the index has for a key. -/
def positionsOf (stores : List IndexStore) (type : IndexType) (key : List UInt8) : List ℕ :=
  (stores.filter fun store => store.flow.indexKey type = some key).map fun store => store.position

variable {hash : StdHash} {std : StdSort} {disk : Memory} {stores : List IndexStore}
  {count block : ℕ} {filled : Filled} {type : IndexType} {key : List UInt8}

/-! ## One block -/

/-- The type of the keys, as the search is instantiated. -/
def keyType : IndexType → KeyType
  | .srcip | .dstip => KeyType.u32
  | .srcport | .dstport => KeyType.u16
  | .srcipv6 | .dstipv6 => KeyType.ipv6

theorem size_keyType (type : IndexType) : (keyType type).size = type.keyLen := by
  cases type <;> rfl

theorem eleLen_keyType (type : IndexType) : eleLen (keyType type) = recordLen type := by
  rw [eleLen, size_keyType, recordLen]

theorem getOffset_eq (buffer : List UInt8) : getOffset key buffer type =
    (RecordSearch.binarySearch (keyType type) buffer ((keyType type).ofBytes key) []).map
      (List.insertionSort (· ≤ ·)) := by
  cases type <;> rfl

/-- A buffer of whole records is these records. -/
theorem records_flatten {K : KeyType} {records : List (List UInt8)}
    (h : ∀ record ∈ records, record.length = eleLen K) :
    RecordSearch.records K records.flatten = records := by
  have hpos : 0 < eleLen K := Nat.succ_pos _
  have hcount : RecordSearch.count K records.flatten = records.length := by
    rw [RecordSearch.count, length_flatten_of_forall h, Nat.mul_div_cancel _ hpos]
  refine List.ext_getElem (by rw [RecordSearch.records, List.length_map, List.length_range, hcount])
    fun i hi hlt => ?_
  rw [← flatten_drop_take h hlt]
  simp only [RecordSearch.records, List.getElem_map, List.getElem_range, recordAt]

/-- The key and the position of an entry. -/
theorem keyOf_recordOf {record : List UInt8} {store : IndexStore} (hstore : Indexable store)
    (hrecord : recordOf type store = some record) (hkey : key.length = type.keyLen) :
    (keyOf (keyType type) record = (keyType type).ofBytes key ↔
        store.flow.indexKey type = some key) ∧
      valueOf (keyType type) record = store.position := by
  obtain ⟨own, hown, rfl⟩ := recordOf_eq_some.mp hrecord
  have hlength : own.length = type.keyLen := FlowMetadata.length_indexKey hown
  have hsize : own.length = (keyType type).size := by rw [hlength, size_keyType]
  rw [keyOf, valueOf, List.take_left' hsize, List.drop_left' hsize]
  refine ⟨?_, ofLittleEndian_toLittleEndian_of_lt (hstore.position.trans_eq (by norm_num))⟩
  rw [hown, Option.some.injEq]
  constructor
  · intro heq
    have hnumber := congrArg (keyType type).number heq
    rw [KeyType.number_ofBytes _ hsize,
      KeyType.number_ofBytes _ (hkey.trans (size_keyType type).symm)] at hnumber
    rw [← toLittleEndian_ofLittleEndian own, ← toLittleEndian_ofLittleEndian key, hnumber, hlength,
      hkey]
  · exact fun heq => heq ▸ rfl

/-- In the entries of a block a key has the positions its records have. -/
theorem filter_bucket (hindexable : ∀ store ∈ stores, Indexable store)
    (hkey : key.length = type.keyLen) :
    (((bucket stores type block).filter fun record =>
        decide (keyOf (keyType type) record = (keyType type).ofBytes key)).map
          (valueOf (keyType type))) =
      positionsOf (stores.filter fun store => blockOf store = block) type key := by
  unfold bucket
  have hin : ∀ store ∈ stores.filter fun store => decide (blockOf store = block),
      Indexable store := fun store hstore => hindexable store (List.mem_of_mem_filter hstore)
  generalize (stores.filter fun store => decide (blockOf store = block)) = own at hin ⊢
  induction own with
  | nil => rfl
  | cons store rest ih =>
      have ih := ih fun other hother => hin other (List.mem_cons_of_mem _ hother)
      cases hrecord : recordOf type store with
      | none =>
          have hnone : store.flow.indexKey type = none := by
            simpa [recordOf] using hrecord
          rw [List.filterMap_cons_none hrecord, ih, positionsOf, positionsOf,
            List.filter_cons_of_neg (by simp [hnone])]
      | some record =>
          obtain ⟨hiff, hvalue⟩ := keyOf_recordOf (hin store List.mem_cons_self) hrecord hkey
          rw [List.filterMap_cons_some hrecord]
          by_cases hown : store.flow.indexKey type = some key
          · rw [List.filter_cons_of_pos (by simpa using hiff.mpr hown), List.map_cons, ih, hvalue,
              positionsOf, positionsOf, List.filter_cons_of_pos (by simpa using hown),
              List.map_cons]
          · rw [List.filter_cons_of_neg (by simpa using fun h => hown (hiff.mp h)), ih, positionsOf,
              positionsOf, List.filter_cons_of_neg (by simpa using hown)]

theorem ascending_positionsOf {some : List IndexStore} (hascending : (some.map fun store =>
    store.position).Pairwise (· < ·)) : (positionsOf some type key).Pairwise (· < ·) :=
  hascending.sublist (List.Sublist.map _ List.filter_sublist)

theorem InOrder.length_le (h : InOrder stores) : stores.length ≤ 72 * dataBlockSize := by
  have hlt : ∀ n ∈ stores.map fun store => store.position, n < 72 * dataBlockSize := by
    intro n hn
    obtain ⟨store, hstore, rfl⟩ := List.mem_map.mp hn
    exact (Nat.div_lt_iff_lt_mul (by decide)).mp (h.blocks store hstore)
  have hle := length_le_of_ascending h.ascending hlt
  rwa [List.length_map] at hle

/-- The search in the array of a block finds the positions of the key in the block. -/
theorem getOffset_piece (h : InOrder stores) (hkey : key.length = type.keyLen) :
    getOffset key (pieceOf std stores block type) type =
      some (positionsOf (stores.filter fun store => blockOf store = block) type key) := by
  set sorted := std.sort type.keyLen (bucket stores type block) with hsorted
  have hrecord : ∀ record ∈ sorted, record.length = eleLen (keyType type) := fun record hrecord =>
    (length_of_mem_sort hrecord).trans (eleLen_keyType type).symm
  have hrecords : RecordSearch.records (keyType type) sorted.flatten = sorted :=
    records_flatten hrecord
  have hinOrder : Sorted (keyType type)
      (RecordSearch.records (keyType type) sorted.flatten) := by
    rw [hrecords, sorted_iff fun record hmem => (Nat.le_add_right ..).trans (hrecord record hmem).ge,
      size_keyType]
    exact std.sorted ..
  have hlength : sorted.flatten.length < 2 ^ 64 := by
    have hbucket : (bucket stores type block).length ≤ 72 * dataBlockSize := by
      calc
        (bucket stores type block).length
          ≤ (stores.filter fun store => blockOf store = block).length :=
            List.length_filterMap_le ..
        _ ≤ stores.length := List.length_filter_le ..
        _ ≤ 72 * dataBlockSize := h.length_le
    have hwidth : recordLen type ≤ 24 := by cases type <;> decide
    calc
      sorted.flatten.length = (bucket stores type block).length * recordLen type :=
        length_pieceOf stores
      _ ≤ 72 * dataBlockSize * 24 := Nat.mul_le_mul hbucket hwidth
      _ < 2 ^ 64 := by decide
  -- sorting the positions undoes the sorting of the records
  have hperm : (valuesWhere (keyType type) sorted.flatten fun other =>
      decide (other = (keyType type).ofBytes key)).Perm
        (positionsOf (stores.filter fun store => blockOf store = block) type key) := by
    rw [← filter_bucket h.indexable hkey, valuesWhere, hrecords]
    exact ((std.perm ..).filter _).map _
  have hascending : (positionsOf (stores.filter fun store => blockOf store = block) type
      key).Pairwise (· ≤ ·) :=
    (ascending_positionsOf (h.ascending.sublist (List.Sublist.map _ List.filter_sublist))).imp
      fun hlt => hlt.le
  rw [getOffset_eq, pieceOf, ← hsorted, RecordSearch.binarySearch_eq hlength hinOrder,
    List.nil_append, Option.map_some, Option.some.injEq,
    PrefixLookup.insertionSort_eq_iff.mpr hperm, hascending.insertionSort_eq]

/-- The filter does not turn away a key whose rows are set. -/
theorem answer_queryOf {bitmap : BitMap} (hfound : Found hash bitmap block (bloomKey key type) type) :
    answer hash hashNum bitmap ⟨block, block⟩ (queryOf key type) type = true := by
  have hwhole : answer hash hashNum bitmap ⟨block, block⟩ (.whole (bloomKey key type)) type =
      true := by
    rw [answer_whole, decide_eq_true (fits_bloomKey key type), Bool.true_and, getAll,
      List.all_eq_true]
    exact hfound
  cases type with
  | srcip | dstip =>
      rw [queryOf, answer, getIPv4Prefix_full]
      exact hwhole
  | srcipv6 | dstipv6 =>
      rw [queryOf, answer, getIPv6Prefix_full]
      exact hwhole
  | srcport | dstport => exact hwhole

/-- With the filter or without it, a block gives its positions. -/
theorem Filled.Holds.blockOffsets (hholds : filled.Holds hash std disk stores count)
    (h : InOrder stores) (hkey : key.length = type.keyLen) (hlt : block < count) :
    filled.blockOffsets hash type key block =
      some (positionsOf (stores.filter fun store => blockOf store = block) type key) := by
  have hlength : filled.indexMetas.length = count := by
    rw [hholds.indexMetas.length_eq, List.length_range]
  obtain ⟨bounds, hbounds⟩ : ∃ bounds, filled.indexMetas[block]? = some bounds :=
    ⟨_, List.getElem?_eq_getElem (hlength ▸ hlt)⟩
  have hpiece : filled.disk.read (indexBlockOffset + (bounds type).1)
      ((bounds type).2 - (bounds type).1) = pieceOf std stores block type := by
    have hall := hholds.indexMetas.get (hlength ▸ hlt) (by simpa using hlt)
    rw [List.get_eq_getElem, List.get_eq_getElem, List.getElem_range] at hall
    rw [List.getElem?_eq_getElem (hlength ▸ hlt), Option.some.injEq] at hbounds
    exact hbounds ▸ hall type
  have hfilter : filled.prefixFilters[block]? = some ⟨block, block⟩ := by
    rw [hholds.prefixFilters, List.getElem?_map, List.getElem?_range hlt]
    rfl
  unfold Filled.blockOffsets
  rw [hfilter, hbounds]
  simp only
  split_ifs with hanswer
  · rw [hpiece, getOffset_piece h hkey]
  · -- a block that has the key is not turned away
    have hnone : positionsOf (stores.filter fun store => blockOf store = block) type key = [] := by
      rw [positionsOf, List.map_eq_nil_iff, List.filter_eq_nil_iff]
      intro store hstore
      obtain ⟨hmem, hblock⟩ := List.mem_filter.mp hstore
      intro hown
      refine hanswer (answer_queryOf ?_)
      rw [← decide_eq_true_iff.mp hblock]
      exact hholds.kept.found store hmem type key (decide_eq_true_iff.mp hown)
    rw [hnone]

/-! ## All blocks -/

theorem foldlM_append {α β : Type} {find : α → Option (List β)} {found : α → List β}
    {list : List α} (h : ∀ element ∈ list, find element = some (found element))
    (before : List β) :
    list.foldlM (fun found element => (find element).map (found ++ ·)) before =
      some (before ++ list.flatMap found) := by
  induction list generalizing before with
  | nil => simp
  | cons first rest ih =>
      rw [List.foldlM_cons, h first List.mem_cons_self, Option.map_some]
      exact (ih (fun other hother => h other (List.mem_cons_of_mem _ hother)) _).trans
        (by rw [List.flatMap_cons, List.append_assoc])

/-- The positions of a key, block by block. -/
theorem flatMap_positionsOf (h : InOrder stores) (hlt : ∀ store ∈ stores, blockOf store < count) :
    ((List.range count).flatMap fun block =>
        positionsOf (stores.filter fun store => blockOf store = block) type key) =
      positionsOf stores type key := by
  set own := stores.filter fun store => decide (store.flow.indexKey type = some key) with hown
  have hswap : ∀ block, positionsOf (stores.filter fun store => blockOf store = block) type key =
      (own.filter fun store => blockOf store = block).map fun store => store.position := by
    intro block
    rw [positionsOf, hown, List.filter_filter, List.filter_filter]
    exact congrArg _ (List.filter_congr fun store _ => Bool.and_comm ..)
  have hascending : own.Pairwise fun first second => blockOf first ≤ blockOf second :=
    ((List.pairwise_map.mp h.ascending).sublist List.filter_sublist).imp fun hlt =>
      Nat.div_le_div_right hlt.le
  simp only [hswap]
  rw [← List.map_flatMap, flatMap_filter_eq blockOf hascending fun store hstore =>
    hlt store (List.mem_of_mem_filter hstore)]
  rfl

theorem Filled.Holds.offsets (hholds : filled.Holds hash std disk stores count)
    (h : InOrder stores) (hpos : 0 < count) (hle : count ≤ 72) (hkey : key.length = type.keyLen) :
    filled.offsets hash type key = some (positionsOf stores type key) := by
  have hlength : filled.indexMetas.length = count := by
    rw [hholds.indexMetas.length_eq, List.length_range]
  have hrounds : readSize / count ≠ 0 :=
    (Nat.div_pos (hle.trans (by decide)) hpos).ne'
  unfold Filled.offsets
  simp only [hlength, if_neg hpos.ne', if_neg hrounds]
  rw [foldlM_append fun block hblock => hholds.blockOffsets h hkey (List.mem_range.mp hblock),
    List.nil_append, flatMap_positionsOf h hholds.blocks]

/-- From an index in order `fill` makes filters and arrays by which every query for a key finds
the positions of all index records with the key, in the order of the file, and no others. -/
theorem offsets_exact (hash : StdHash) (std : StdSort) (disk : Memory) {indexSize : ℕ}
    (hne : indexStores disk indexSize ≠ []) (h : InOrder (indexStores disk indexSize)) :
    ∃ filled, fill hash std disk indexSize = some filled ∧
      ∀ type key, key.length = type.keyLen →
        filled.offsets hash type key =
          some (positionsOf (indexStores disk indexSize) type key) := by
  obtain ⟨filled, count, hfill, hpos, hle, hholds⟩ :=
    @fill_spec hash std disk indexSize _ rfl hne h.indexable h.steady h.blocks
  exact ⟨filled, hfill, fun type key hkey => hholds.offsets h hpos hle hkey⟩

/-- An IPv4 flow in the first block and an IPv6 flow in the second. -/
def twoBlocks : Memory :=
  let first := writeIndexToBuffer 24
    { sourceAddress := [10, 0, 0, 1], destinationAddress := [10, 0, 0, 2]
      sourcePort := 80, destinationPort := 443 } 0 (fun _ => 0) indexOffset
  (writeIndexToBuffer (dataBlockSize + 24)
    { sourceAddress := List.replicate 16 1, destinationAddress := List.replicate 16 2
      sourcePort := 80, destinationPort := 53 } 0 first.1 first.2).1

def twoStores : List IndexStore :=
  [ { ts := 0, diskBlockId := 0, position := 24, rxId := 0
      sourceAddress := [10, 0, 0, 1] ++ List.replicate 12 0
      destinationAddress := [10, 0, 0, 2] ++ List.replicate 12 0
      sourcePort := 80, destinationPort := 443, version := 4 },
    { ts := 0, diskBlockId := dataBlockSize * 1024, position := dataBlockSize + 24, rxId := 0
      sourceAddress := List.replicate 16 1, destinationAddress := List.replicate 16 2
      sourcePort := 80, destinationPort := 53, version := 16 } ]

theorem indexStores_twoBlocks : indexStores twoBlocks 144 = twoStores := by decide +kernel

theorem inOrder_twoBlocks : InOrder (indexStores twoBlocks 144) := by
  rw [indexStores_twoBlocks]
  refine ⟨?_, by decide +kernel, by decide +kernel, by decide +kernel⟩
  intro store hstore
  rcases List.mem_cons.mp hstore with rfl | hstore
  · exact ⟨by decide, by decide, by decide, by decide⟩
  · obtain rfl := List.mem_singleton.mp hstore
    exact ⟨by decide, by decide, by decide, by decide⟩

theorem offsets_exact_twoBlocks : ∃ filled,
    fill someHash someSort twoBlocks 144 = some filled ∧
      filled.offsets someHash .srcport [80, 0] = some [24, dataBlockSize + 24] ∧
      filled.offsets someHash .dstport [53, 0] = some [dataBlockSize + 24] := by
  obtain ⟨filled, hfill, hoffsets⟩ := offsets_exact someHash someSort twoBlocks
    (by rw [indexStores_twoBlocks]; decide) inOrder_twoBlocks
  refine ⟨filled, hfill, ?_, ?_⟩
  · rw [hoffsets _ _ rfl, indexStores_twoBlocks]
    decide +kernel
  · rw [hoffsets _ _ rfl, indexStores_twoBlocks]
    decide +kernel

end QueryTest

end TrafficDatabase
