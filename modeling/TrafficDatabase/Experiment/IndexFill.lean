import TrafficDatabase.Experiment.QueryTest
import TrafficDatabase.Index.InsertHistory

/-!
# The arrays and filters of the blocks

The index records come in the order of their positions.  As long as none of them is in a
block before the last one, and no block is left out (`Steady`), the loop of `fill` has at
every record all keys of the blocks before, sorted block by block, and those of the last
block behind them as they came (`Filling`).  At the end the arrays are copied block by
block, and each lies where its bounds say (`Filled.Holds`).
-/

namespace TrafficDatabase

namespace QueryTest

open DataHandler PrefixBloomFilter

/-! ## What the index says -/

def blockOf (store : IndexStore) : ℕ := store.position / dataBlockSize

/-- The entry of a record in the array of a type. -/
def recordOf (type : IndexType) (store : IndexStore) : Option (List UInt8) :=
  (store.flow.indexKey type).map (· ++ toLittleEndian 8 store.position)

/-- The entries of a block, as they come. -/
def bucket (stores : List IndexStore) (type : IndexType) (block : ℕ) : List (List UInt8) :=
  (stores.filter fun store => blockOf store = block).filterMap (recordOf type)

/-- A record that `dataHandler` can have written. -/
structure Indexable (store : IndexStore) : Prop where
  ipv4 : store.version = 4 →
    store.flow.sourceAddress.length = 4 ∧ store.flow.destinationAddress.length = 4
  ipv6 : store.version ≠ 4 →
    store.flow.sourceAddress.length = 16 ∧ store.flow.destinationAddress.length = 16
  ports : store.flow.sourcePort < 2 ^ 16 ∧ store.flow.destinationPort < 2 ^ 16
  position : store.position < 2 ^ 64

/-- Each record is in the last of the blocks so far, or in the next one. -/
def Steady : ℕ → List IndexStore → Prop
  | _, [] => True
  | count, store :: rest =>
      (blockOf store + 1 = count ∨ blockOf store = count) ∧ Steady (blockOf store + 1) rest

instance decidableSteady : ∀ count stores, Decidable (Steady count stores)
  | _, [] => inferInstanceAs (Decidable True)
  | _, store :: rest =>
      have := decidableSteady (blockOf store + 1) rest
      inferInstanceAs (Decidable (_ ∧ _))

/-- How many records the blocks before a block have in the array of a type. -/
def countBefore (stores : List IndexStore) (type : IndexType) (block : ℕ) : ℕ :=
  ((List.range block).map fun earlier => (bucket stores type earlier).length).sum

def startOf (stores : List IndexStore) (type : IndexType) (block : ℕ) : ℕ :=
  countBefore stores type block * recordLen type

variable (hash : StdHash) (std : StdSort)

/-- The array of a type once the first blocks are sorted. -/
def sortedBlocks (stores : List IndexStore) (type : IndexType) (count : ℕ) :
    List (List UInt8) :=
  (List.range count).flatMap fun block => std.sort type.keyLen (bucket stores type block)

/-- The rows of a key are set in the column of a block. -/
def Found (bitmap : BitMap) (block : ℕ) (key : BloomKey) (type : IndexType) : Prop :=
  ∀ row ∈ (List.range (levelCount type)).flatMap (setRows hash hashNum key type),
    bitmap.get row block = true

/-- The key of a type as the filter takes it. -/
def bloomKey (key : List UInt8) : IndexType → BloomKey
  | .srcip | .dstip => .ipv4 (UInt32.ofNat (ofLittleEndian key))
  | .srcipv6 | .dstipv6 => .ipv6 (IPv6Address.ofBytes key)
  | .srcport | .dstport => .port (UInt16.ofNat (ofLittleEndian key))

theorem fits_bloomKey (key : List UInt8) (type : IndexType) : (bloomKey key type).Fits type := by
  cases type with
  | srcip | srcport | srcipv6 => exact .inl rfl
  | dstip | dstport | dstipv6 => exact .inr rfl

/-- The filters have all keys of the records, each in the column of its block. -/
structure Kept (done : List IndexStore) (bitmap : BitMap) : Prop where
  rowCount : bitmap.rowCount = requiredRows
  colCount : bitmap.colCount = 72
  found : ∀ store ∈ done, ∀ type key, store.flow.indexKey type = some key →
    Found hash bitmap (blockOf store) (bloomKey key type) type

/-- The bounds of the arrays, where the last block has no end yet. -/
def openMetas (stores : List IndexStore) (count : ℕ) : List IndexArrayMeta :=
  (List.range count).map fun block type =>
    (startOf stores type block, if block + 1 = count then 0 else startOf stores type (block + 1))

def closedMetas (stores : List IndexStore) (count : ℕ) : List IndexArrayMeta :=
  (List.range count).map fun block type =>
    (startOf stores type block, startOf stores type (block + 1))

/-- The loop has gone through the records `done`, which are of `count` blocks. -/
structure Filling (done : List IndexStore) (count : ℕ) (st : FillState) : Prop where
  blocks : ∀ store ∈ done, blockOf store < count
  prefixFilters : st.prefixFilters = (List.range count).map fun block => ⟨block, block⟩
  metas : st.metas = openMetas done count
  arrays : ∀ type, st.arrays type =
    sortedBlocks std done type (count - 1) ++ bucket done type (count - 1)
  kept : Kept hash done st.bitmap

variable {hash std} {done : List IndexStore} {count block : ℕ} {st : FillState}
  {store : IndexStore} {type : IndexType}

/-! ## The keys of a record -/

theorem recordOf_eq_some {record : List UInt8} : recordOf type store = some record ↔
    ∃ key, store.flow.indexKey type = some key ∧
      key ++ toLittleEndian 8 store.position = record := by
  rw [recordOf, Option.map_eq_some_iff]

theorem bucket_concat : bucket (done ++ [store]) type block =
    bucket done type block ++
      if blockOf store = block then (recordOf type store).toList else [] := by
  unfold bucket
  rw [List.filter_append, List.filterMap_append]
  congr 1
  by_cases hblock : blockOf store = block
  · cases hrecord : recordOf type store <;> simp [hblock, hrecord]
  · simp [hblock]

theorem Found.mono {bitmap other : BitMap} {key : BloomKey} {col : ℕ}
    (h : Found hash bitmap block key type) (hextends : BitMap.Extends col bitmap other) :
    Found hash other block key type := fun row hrow => hextends.mono (h row hrow)

/-- The calls of the filter for a record. -/
def callsOf (store : IndexStore) : List (BloomKey × IndexType) :=
  (if store.version = 4 then
    [(.ipv4 (UInt32.ofNat (ofLittleEndian store.flow.sourceAddress)), .srcip),
      (.ipv4 (UInt32.ofNat (ofLittleEndian store.flow.destinationAddress)), .dstip)]
  else
    [(.ipv6 (IPv6Address.ofBytes store.flow.sourceAddress), .srcipv6),
      (.ipv6 (IPv6Address.ofBytes store.flow.destinationAddress), .dstipv6)]) ++
  [(.port (UInt16.ofNat store.flow.sourcePort), .srcport),
    (.port (UInt16.ofNat store.flow.destinationPort), .dstport)]

theorem fits_callsOf : ∀ call ∈ callsOf store, call.1.Fits call.2 := by
  unfold callsOf
  by_cases hversion : store.version = 4
  · rw [if_pos hversion]
    simp [BloomKey.Fits]
  · rw [if_neg hversion]
    simp [BloomKey.Fits]

/-- Every key of a record is one of the calls. -/
theorem mem_callsOf (hstore : Indexable store) {key : List UInt8}
    (hkey : store.flow.indexKey type = some key) : (bloomKey key type, type) ∈ callsOf store := by
  have hport : ∀ port < 2 ^ 16, UInt16.ofNat (ofLittleEndian (toLittleEndian 2 port)) =
      UInt16.ofNat port := fun port hlt => by rw [ofLittleEndian_toLittleEndian_of_lt hlt]
  have hsport := hport _ hstore.ports.1
  have hdport := hport _ hstore.ports.2
  unfold callsOf
  by_cases hversion : store.version = 4
  · obtain ⟨hsource, hdestination⟩ := hstore.ipv4 hversion
    rw [if_pos hversion]
    cases type <;>
      simp only [FlowMetadata.indexKey, hsource, hdestination, Option.some.injEq] at hkey <;>
      simp_all [bloomKey]
  · obtain ⟨hsource, hdestination⟩ := hstore.ipv6 hversion
    rw [if_neg hversion]
    cases type <;>
      simp only [FlowMetadata.indexKey, hsource, hdestination, Option.some.injEq] at hkey <;>
      simp_all [bloomKey]

theorem bitmap_addRecord (filter : PrefixBloomFilter) :
    (st.addRecord hash filter store).bitmap =
      filter.insertAll hash hashNum st.bitmap (callsOf store) := by
  unfold FillState.addRecord callsOf
  by_cases hversion : store.version = 4
  · simp only [if_pos hversion]
    rfl
  · simp only [if_neg hversion]
    rfl

/-- A call sets the rows of its key. -/
theorem found_insertAll {calls : List (BloomKey × IndexType)}
    (hfits : ∀ call ∈ calls, call.1.Fits call.2) {bitmap : BitMap}
    (hrows : bitmap.rowCount = requiredRows) (hcol : block < bitmap.colCount)
    {call : BloomKey × IndexType} (hcall : call ∈ calls) :
    Found hash ((⟨block, block⟩ : PrefixBloomFilter).insertAll hash hashNum bitmap calls) block
      call.1 call.2 := by
  induction calls generalizing bitmap with
  | nil => cases hcall
  | cons first rest ih =>
      have hfirst := hfits first List.mem_cons_self
      have hextends : BitMap.Extends block bitmap ((⟨block, block⟩ : PrefixBloomFilter).insert hash
          hashNum bitmap first.1 first.2).2 :=
        @extends_insert hash hashNum bitmap ⟨block, block⟩ first.1 first.2
      rcases List.mem_cons.mp hcall with rfl | hlater
      · have hfound : Found hash ((⟨block, block⟩ : PrefixBloomFilter).insert hash hashNum bitmap
            call.1 call.2).2 block call.1 call.2 := by
          intro row hrow
          have hdone := @insert_fst hash hashNum bitmap ⟨block, block⟩ call.1 call.2 hrows.ge hcol
            hfirst
          rw [insert_eq_setAll, if_pos hfirst] at hdone ⊢
          exact BitMap.get_setAll hdone hrow
        exact hfound.mono (extends_insertAll rest)
      · exact ih (fun other hother => hfits other (List.mem_cons_of_mem _ hother))
          (hextends.shape.1.trans hrows) (by rw [hextends.shape.2.1]; exact hcol) hlater

/-- A record adds its keys to the filter of its block. -/
theorem Kept.addRecord (h : Kept hash done st.bitmap) (hstore : Indexable store)
    (hblock : blockOf store < 72) :
    Kept hash (done ++ [store])
      (st.addRecord hash ⟨blockOf store, blockOf store⟩ store).bitmap := by
  have hextends : BitMap.Extends (blockOf store) st.bitmap
      ((⟨blockOf store, blockOf store⟩ : PrefixBloomFilter).insertAll hash hashNum st.bitmap
        (callsOf store)) :=
    @extends_insertAll hash hashNum st.bitmap ⟨blockOf store, blockOf store⟩ (callsOf store)
  rw [bitmap_addRecord]
  refine ⟨hextends.shape.1.trans h.rowCount, hextends.shape.2.1.trans h.colCount, ?_⟩
  intro other hother type key hkey
  rcases List.mem_append.mp hother with hin | hnew
  · exact (h.found other hin type key hkey).mono hextends
  · obtain rfl := List.mem_singleton.mp hnew
    exact found_insertAll fits_callsOf h.rowCount (by rw [h.colCount]; exact hblock)
      (mem_callsOf hstore hkey)

/-- A record adds its entries to the arrays. -/
theorem arrays_addRecord (filter : PrefixBloomFilter) (hstore : Indexable store)
    (type : IndexType) : (st.addRecord hash filter store).arrays type =
      st.arrays type ++ (recordOf type store).toList := by
  unfold FillState.addRecord recordOf
  by_cases hversion : store.version = 4
  · obtain ⟨hsource, hdestination⟩ := hstore.ipv4 hversion
    simp only [if_pos hversion]
    cases type <;> simp [FillState.addKey, FlowMetadata.indexKey, hsource, hdestination]
  · obtain ⟨hsource, hdestination⟩ := hstore.ipv6 hversion
    simp only [if_neg hversion]
    cases type <;> simp [FillState.addKey, FlowMetadata.indexKey, hsource, hdestination]

theorem metas_addRecord (filter : PrefixBloomFilter) :
    (st.addRecord hash filter store).metas = st.metas ∧
      (st.addRecord hash filter store).prefixFilters = st.prefixFilters := by
  unfold FillState.addRecord
  by_cases hversion : store.version = 4
  · simp only [if_pos hversion]
    exact ⟨rfl, rfl⟩
  · simp only [if_neg hversion]
    exact ⟨rfl, rfl⟩

/-! ## The arrays of the blocks -/

theorem recordLen_pos (type : IndexType) : 0 < recordLen type := Nat.succ_pos _

theorem countBefore_succ : countBefore done type (block + 1) =
    countBefore done type block + (bucket done type block).length := by
  simp [countBefore, List.range_succ]

theorem sortedBlocks_succ : sortedBlocks std done type (block + 1) =
    sortedBlocks std done type block ++ std.sort type.keyLen (bucket done type block) := by
  simp [sortedBlocks, List.range_succ]

theorem length_sortedBlocks :
    (sortedBlocks std done type count).length = countBefore done type count := by
  induction count with
  | zero => rfl
  | succ count ih =>
      rw [sortedBlocks_succ, countBefore_succ, List.length_append, ih, (std.perm ..).length_eq]

/-- The block is closed: its part of the arrays is sorted. -/
theorem closeBlock_eq (hmetas : st.metas = openMetas done (count + 1))
    (harrays : ∀ type, st.arrays type =
      sortedBlocks std done type count ++ bucket done type count) :
    st.closeBlock std count = some { st with
      metas := closedMetas done (count + 1)
      arrays := fun type => sortedBlocks std done type (count + 1) } := by
  have hlast : st.metas[count]? = some fun type => (startOf done type count, 0) := by
    rw [hmetas, openMetas, List.getElem?_map, List.getElem?_range (Nat.lt_succ_self count)]
    simp
  have hends : (st.metas.set count fun type =>
      (startOf done type count, (st.arrays type).length * recordLen type)) =
      closedMetas done (count + 1) := by
    have hend : ∀ type, (st.arrays type).length * recordLen type =
        startOf done type (count + 1) := by
      intro type
      rw [harrays, List.length_append, length_sortedBlocks, ← countBefore_succ, startOf]
    simp only [hend]
    rw [hmetas, openMetas, closedMetas]
    refine List.ext_getElem (by simp) fun i hi _ => ?_
    have hlt : i < count + 1 := by simpa using hi
    rw [List.getElem_set]
    split_ifs with heq
    · simp [heq]
    · have hne : i + 1 ≠ count + 1 := by omega
      simp only [List.getElem_map, List.getElem_range, if_neg hne]
  unfold FillState.closeBlock
  rw [hlast]
  simp only [Option.some.injEq, hends]
  congr 1
  funext type
  have hfirst : startOf done type count / recordLen type =
      (sortedBlocks std done type count).length := by
    rw [startOf, Nat.mul_div_cancel _ (recordLen_pos type), length_sortedBlocks]
  rw [harrays, hfirst, List.take_left, List.drop_left, sortedBlocks_succ]

theorem Filling.bucket_eq_nil (h : Filling hash std done count st) (hle : count ≤ block)
    (type : IndexType) : bucket done type block = [] := by
  unfold bucket
  rw [List.filter_eq_nil_iff.mpr, List.filterMap_nil]
  intro store hstore
  have := h.blocks store hstore
  rw [decide_eq_true_eq]
  omega

/-- The next block is opened. -/
theorem Filling.openBlock (h : Filling hash std done count st) (hcount : count < 72) :
    ∃ opened, st.openBlock std count = some opened ∧ Filling hash std done (count + 1) opened := by
  have hcol : count < st.bitmap.colCount := by rw [h.kept.colCount]; exact hcount
  have hfilter : (PrefixBloomFilter.init.setWritingCol st.bitmap count).setReadingCol st.bitmap
      count = ⟨count, count⟩ := by
    simp only [setWritingCol, setReadingCol, if_neg (not_le.mpr hcol)]
  have hfilters : st.prefixFilters ++ [⟨count, count⟩] =
      (List.range (count + 1)).map fun block => (⟨block, block⟩ : PrefixBloomFilter) := by
    rw [h.prefixFilters, List.range_succ, List.map_append, List.map_singleton]
  have hblocks : ∀ store ∈ done, blockOf store < count + 1 := fun store hstore =>
    Nat.lt_succ_of_lt (h.blocks store hstore)
  have hempty : ∀ type, bucket done type count = [] := h.bucket_eq_nil le_rfl
  cases count with
  | zero =>
      refine ⟨{ st with
        prefixFilters := st.prefixFilters ++ [⟨0, 0⟩]
        metas := st.metas ++ [fun _ => (0, 0)] }, ?_, hblocks, hfilters, ?_, h.arrays, h.kept⟩
      · simp only [FillState.openBlock, hfilter, if_true]
      · change st.metas ++ [fun _ => (0, 0)] = openMetas done 1
        rw [h.metas]
        simp [openMetas, startOf, countBefore]
  | succ count =>
      have hclosed := @closeBlock_eq std done count
        { st with prefixFilters := st.prefixFilters ++ [⟨count + 1, count + 1⟩] } h.metas h.arrays
      have hlast : (closedMetas done (count + 1))[count]? = some fun type =>
          (startOf done type count, startOf done type (count + 1)) := by
        rw [closedMetas, List.getElem?_map, List.getElem?_range (Nat.lt_succ_self count)]
        rfl
      refine ⟨{ st with
        prefixFilters := st.prefixFilters ++ [⟨count + 1, count + 1⟩]
        metas := closedMetas done (count + 1) ++ [fun type => (startOf done type (count + 1), 0)]
        arrays := fun type => sortedBlocks std done type (count + 1) }, ?_, hblocks, hfilters, ?_,
        fun type => ?_, h.kept⟩
      · unfold FillState.openBlock
        simp only [hfilter, Nat.succ_ne_zero, if_false, Nat.add_sub_cancel]
        rw [hclosed]
        simp only [hlast]
      · change closedMetas done (count + 1) ++ [fun type => (startOf done type (count + 1), 0)] =
          openMetas done (count + 1 + 1)
        rw [openMetas, List.range_succ, List.map_append, List.map_singleton, closedMetas]
        refine congrArg₂ (· ++ ·) (List.map_congr_left fun block hblock => ?_) (by simp)
        have hne : block + 1 ≠ count + 1 + 1 := by
          have := List.mem_range.mp hblock
          omega
        simp only [if_neg hne]
      · rw [Nat.add_sub_cancel, hempty, List.append_nil]

theorem bucket_concat_of_lt (hlt : block < blockOf store) :
    bucket (done ++ [store]) type block = bucket done type block := by
  rw [bucket_concat, if_neg hlt.ne', List.append_nil]

theorem startOf_concat (hle : block ≤ blockOf store) :
    startOf (done ++ [store]) type block = startOf done type block := by
  have hbuckets : ∀ earlier ∈ List.range block,
      (bucket (done ++ [store]) type earlier).length = (bucket done type earlier).length := by
    intro earlier hearlier
    rw [bucket_concat_of_lt ((List.mem_range.mp hearlier).trans_le hle)]
  unfold startOf countBefore
  rw [List.map_congr_left hbuckets]

theorem sortedBlocks_concat (hle : block ≤ blockOf store) :
    sortedBlocks std (done ++ [store]) type block = sortedBlocks std done type block := by
  unfold sortedBlocks
  rw [List.flatMap_def, List.flatMap_def]
  refine congrArg List.flatten (List.map_congr_left fun earlier hearlier => ?_)
  rw [bucket_concat_of_lt ((List.mem_range.mp hearlier).trans_le hle)]

/-- A record of the last block. -/
theorem Filling.addRecord (h : Filling hash std done count st) (hstore : Indexable store)
    (hblock : blockOf store + 1 = count) (hcount : count ≤ 72) :
    Filling hash std (done ++ [store]) count
      (st.addRecord hash ⟨blockOf store, blockOf store⟩ store) := by
  subst hblock
  obtain ⟨hmetas, hfilters⟩ := @metas_addRecord hash st store ⟨blockOf store, blockOf store⟩
  refine ⟨?_, hfilters.trans h.prefixFilters, ?_, fun type => ?_,
    h.kept.addRecord hstore hcount⟩
  · intro other hother
    rcases List.mem_append.mp hother with hin | hnew
    · exact h.blocks other hin
    · obtain rfl := List.mem_singleton.mp hnew
      exact Nat.lt_succ_self _
  · rw [hmetas, h.metas, openMetas, openMetas]
    refine List.map_congr_left fun block hmem => ?_
    have hlt := List.mem_range.mp hmem
    funext type
    rw [startOf_concat (Nat.le_of_lt_succ hlt)]
    split_ifs with hlast
    · rfl
    · rw [startOf_concat (by omega)]
  · rw [arrays_addRecord _ hstore, h.arrays, Nat.add_sub_cancel, sortedBlocks_concat le_rfl,
      bucket_concat, if_pos rfl, List.append_assoc]

/-! ## The loop -/

/-- A record that is steady goes to its block. -/
theorem Filling.turn (h : Filling hash std done count st) (hstore : Indexable store)
    (hblock : blockOf store + 1 = count ∨ blockOf store = count) (hlt : blockOf store < 72) :
    ∃ turned, st.turn hash std store = some turned ∧
      Filling hash std (done ++ [store]) (blockOf store + 1) turned := by
  have hlength : st.prefixFilters.length = count := by
    rw [h.prefixFilters, List.length_map, List.length_range]
  have hopened : ∃ opened,
      (if blockOf store ≥ st.prefixFilters.length then st.openBlock std (blockOf store)
        else some st) = some opened ∧
      Filling hash std done (blockOf store + 1) opened := by
    rcases hblock with hlast | hnext
    · exact ⟨st, if_neg (by omega), hlast ▸ h⟩
    · obtain ⟨opened, hopen, hfilling⟩ := h.openBlock (hnext ▸ hlt)
      exact ⟨opened, by rw [if_pos (by omega), hnext, hopen], hnext ▸ hfilling⟩
  obtain ⟨opened, hopen, hfilling⟩ := hopened
  have hfilter : opened.prefixFilters[blockOf store]? = some ⟨blockOf store, blockOf store⟩ := by
    rw [hfilling.prefixFilters, List.getElem?_map, List.getElem?_range (Nat.lt_succ_self _)]
    rfl
  refine ⟨_, ?_, hfilling.addRecord hstore rfl hlt⟩
  unfold FillState.turn
  unfold blockOf at hopen hfilter
  simp only [hopen, hfilter]
  rfl

/-- The loop goes through all records, and the blocks are those of the records. -/
theorem Filling.run {stores : List IndexStore} (h : Filling hash std done count st)
    (hindexable : ∀ store ∈ stores, Indexable store) (hsteady : Steady count stores)
    (hlt : ∀ store ∈ stores, blockOf store < 72) :
    ∃ looped final, stores.foldlM (fun st store => st.turn hash std store) st = some looped ∧
      Filling hash std (done ++ stores) final looped ∧ final ≤ max count 72 ∧
      (final = 0 → count = 0 ∧ stores = []) := by
  induction stores generalizing done count st with
  | nil => exact ⟨st, count, rfl, by rwa [List.append_nil], le_max_left .., fun hz => ⟨hz, rfl⟩⟩
  | cons store rest ih =>
      obtain ⟨turned, hturn, hfilling⟩ := h.turn (hindexable store List.mem_cons_self) hsteady.1
        (hlt store List.mem_cons_self)
      obtain ⟨looped, final, hfold, hdone, hle, hzero⟩ := ih hfilling
        (fun other hother => hindexable other (List.mem_cons_of_mem _ hother)) hsteady.2
        (fun other hother => hlt other (List.mem_cons_of_mem _ hother))
      refine ⟨looped, final, ?_, by rwa [List.append_assoc] at hdone, ?_, ?_⟩
      · rw [List.foldlM_cons, hturn]
        exact hfold
      · have := hlt store List.mem_cons_self
        omega
      · exact fun hz => absurd (hzero hz).1 (Nat.succ_ne_zero _)

/-! ## The copy of the arrays -/

/-- The bytes of a piece are in a buffer, at its bounds. -/
def Lies (buffer : List UInt8) (bounds : ℕ × ℕ) (piece : List UInt8) : Prop :=
  ∃ before after, buffer = before ++ piece ++ after ∧
    bounds = (before.length, before.length + piece.length)

namespace Lies

variable {buffer piece : List UInt8} {bounds : ℕ × ℕ}

theorem append (h : Lies buffer bounds piece) (more : List UInt8) :
    Lies (buffer ++ more) bounds piece := by
  obtain ⟨before, after, rfl, hbounds⟩ := h
  exact ⟨before, after ++ more, by rw [List.append_assoc _ after], hbounds⟩

theorem last (buffer piece : List UInt8) :
    Lies (buffer ++ piece) (buffer.length, buffer.length + piece.length) piece :=
  ⟨buffer, [], by rw [List.append_nil], rfl⟩

theorem length_eq (h : Lies buffer bounds piece) : bounds.2 - bounds.1 = piece.length := by
  obtain ⟨before, after, -, rfl⟩ := h
  exact Nat.add_sub_cancel_left ..

theorem le_length (h : Lies buffer bounds piece) :
    bounds.1 + (bounds.2 - bounds.1) ≤ buffer.length := by
  obtain ⟨before, after, rfl, rfl⟩ := h
  simp

theorem cut (h : Lies buffer bounds piece) :
    (buffer.drop bounds.1).take (bounds.2 - bounds.1) = piece := by
  rw [h.length_eq]
  obtain ⟨before, after, rfl, rfl⟩ := h
  rw [List.append_assoc, List.drop_left, List.take_left]

end Lies

variable {arrays : IndexType → List (List UInt8)} {bounds : IndexArrayMeta}
  {pieces : IndexType → List UInt8}

/-- The arrays of a block come behind what is in the buffer. -/
theorem copyArrays_spec (hlies : ∀ type, Lies (arrays type).flatten (bounds type) (pieces type))
    (types : List IndexType) (copied : List UInt8 × IndexArrayMeta) :
    ∃ more, (types.foldl (copyArray arrays bounds) copied).1 = copied.1 ++ more ∧
      more.length = (types.map fun type => (bounds type).2 - (bounds type).1).sum ∧
      ∀ type, type ∈ types ∨ Lies copied.1 (copied.2 type) (pieces type) →
        Lies (copied.1 ++ more) ((types.foldl (copyArray arrays bounds) copied).2 type)
          (pieces type) := by
  induction types generalizing copied with
  | nil =>
      refine ⟨[], (List.append_nil _).symm, rfl, fun type h => ?_⟩
      rw [List.append_nil]
      exact h.resolve_left List.not_mem_nil
  | cons first rest ih =>
      have hcopied : copyArray arrays bounds copied first =
          (copied.1 ++ pieces first, Function.update copied.2 first
            (copied.1.length, copied.1.length + (pieces first).length)) := by
        unfold copyArray
        simp only [(hlies first).cut]
        rw [(hlies first).length_eq]
      obtain ⟨more, hmore, hlength, hall⟩ := ih (copyArray arrays bounds copied first)
      rw [hcopied] at hmore hall
      refine ⟨pieces first ++ more, ?_, ?_, fun type h => ?_⟩
      · rw [List.foldl_cons, hcopied, hmore, List.append_assoc]
      · rw [List.length_append, hlength, List.map_cons, List.sum_cons, (hlies first).length_eq]
      · rw [List.foldl_cons, hcopied, ← List.append_assoc]
        refine hall type ?_
        by_cases htype : type = first
        · subst htype
          exact .inr (by simp only [Function.update_self]; exact Lies.last ..)
        · simp only [Function.update_of_ne htype]
          rcases h with hmem | hlies
          · exact .inl ((List.mem_cons.mp hmem).resolve_left htype)
          · exact .inr (hlies.append _)

/-- Every array of every block is copied, and lies at the bounds that are noted for it. -/
theorem copyBlocks_spec {metas : List IndexArrayMeta} {pieces : List (IndexType → List UInt8)}
    (hlies : List.Forall₂ (fun bounds pieces => ∀ type,
      Lies (arrays type).flatten (bounds type) (pieces type)) metas pieces) (layout : Layout) :
    ∃ more placed, metas.foldl (copyBlock arrays) layout =
        { writeBuffer := layout.writeBuffer ++ more
          indexMetas := layout.indexMetas ++ placed } ∧
      more.length = (metas.map fun bounds =>
        (IndexType.all.map fun type => (bounds type).2 - (bounds type).1).sum).sum ∧
      List.Forall₂ (fun bounds pieces => ∀ type,
        Lies (layout.writeBuffer ++ more) (bounds type) (pieces type)) placed pieces := by
  induction hlies generalizing layout with
  | nil => exact ⟨[], [], by simp, rfl, .nil⟩
  | cons hfirst _ ih =>
      rename_i bounds pieces metas rest _
      obtain ⟨added, hadded, hlength, hall⟩ :=
        copyArrays_spec hfirst IndexType.all (layout.writeBuffer, fun _ => (0, 0))
      obtain ⟨more, placed, hfold, hmore, hplaced⟩ := ih (copyBlock arrays layout bounds)
      have hbuffer : (copyBlock arrays layout bounds).writeBuffer = layout.writeBuffer ++ added :=
        hadded
      refine ⟨added ++ more, (IndexType.all.foldl (copyArray arrays bounds)
          (layout.writeBuffer, fun _ => (0, 0))).2 :: placed, ?_, ?_, .cons (fun type => ?_) ?_⟩
      · rw [List.foldl_cons, hfold, hbuffer, List.append_assoc]
        simp [copyBlock]
      · rw [List.length_append, hlength, hmore, List.map_cons, List.sum_cons]
      · rw [← List.append_assoc]
        exact (hall type (.inl (IndexType.mem_all type))).append more
      · rw [hbuffer] at hplaced
        rwa [← List.append_assoc]

/-! ## The arrays when the loop is over -/

/-- The bytes of the array of a block. -/
def pieceOf (std : StdSort) (stores : List IndexStore) (block : ℕ) (type : IndexType) :
    List UInt8 :=
  (std.sort type.keyLen (bucket stores type block)).flatten

theorem length_of_mem_bucket {stores : List IndexStore} {record : List UInt8}
    (h : record ∈ bucket stores type block) : record.length = recordLen type := by
  obtain ⟨store, -, hrecord⟩ := List.mem_filterMap.mp h
  obtain ⟨key, hkey, rfl⟩ := recordOf_eq_some.mp hrecord
  rw [List.length_append, length_toLittleEndian, FlowMetadata.length_indexKey hkey, recordLen]

theorem length_of_mem_sort {stores : List IndexStore} {record : List UInt8}
    (h : record ∈ std.sort type.keyLen (bucket stores type block)) :
    record.length = recordLen type :=
  length_of_mem_bucket ((std.perm ..).mem_iff.mp h)

theorem length_pieceOf (stores : List IndexStore) : (pieceOf std stores block type).length =
    (bucket stores type block).length * recordLen type := by
  rw [pieceOf, length_flatten_of_forall fun record => length_of_mem_sort, (std.perm ..).length_eq]

theorem startOf_succ (stores : List IndexStore) : startOf stores type (block + 1) =
    startOf stores type block + (pieceOf std stores block type).length := by
  rw [startOf, countBefore_succ, Nat.add_mul, length_pieceOf, startOf]

theorem length_flatten_sortedBlocks (stores : List IndexStore) (count : ℕ) :
    (sortedBlocks std stores type count).flatten.length = startOf stores type count := by
  induction count with
  | zero => simp [sortedBlocks, startOf, countBefore]
  | succ count ih =>
      rw [sortedBlocks_succ, List.flatten_append, List.length_append, ih, startOf_succ, pieceOf]

/-- The array of a block is a piece of that of all blocks. -/
theorem lies_sortedBlocks (stores : List IndexStore) (hlt : block < count) (type : IndexType) :
    Lies (sortedBlocks std stores type count).flatten
      (startOf stores type block, startOf stores type (block + 1))
      (pieceOf std stores block type) := by
  induction count with
  | zero => cases hlt
  | succ count ih =>
      rw [sortedBlocks_succ, List.flatten_append]
      rcases Nat.lt_succ_iff_lt_or_eq.mp hlt with hearlier | rfl
      · exact (ih hearlier).append _
      · have hlast := Lies.last (sortedBlocks std stores type block).flatten
          (pieceOf std stores block type)
        rwa [length_flatten_sortedBlocks, ← startOf_succ] at hlast

theorem sum_startOf (stores : List IndexStore) (count : ℕ) :
    ((List.range count).map fun block => (IndexType.all.map fun type =>
        startOf stores type (block + 1) - startOf stores type block).sum).sum =
      (IndexType.all.map fun type => startOf stores type count).sum := by
  induction count with
  | zero => simp [startOf, countBefore, IndexType.all]
  | succ count ih =>
      have hmono : ∀ type, startOf stores type count ≤ startOf stores type (count + 1) :=
        fun type => Nat.mul_le_mul_right _ (countBefore_succ ▸ Nat.le_add_right ..)
      rw [List.range_succ, List.map_append, List.sum_append, ih, List.map_singleton,
        List.sum_singleton, ← List.sum_map_add]
      exact congrArg List.sum (List.map_congr_left fun type _ => Nat.add_sub_cancel' (hmono type))

/-! ## What `fill` leaves -/

/-- The filters have the keys of all records, and the array of each block and type can be
read from the disk; in front of the arrays the disk is as it was. -/
structure Filled.Holds (hash : StdHash) (std : StdSort) (disk : Memory)
    (stores : List IndexStore) (count : ℕ) (filled : Filled) : Prop where
  disk : ∃ arrays, filled.disk = disk.write indexBlockOffset arrays
  prefixFilters : filled.prefixFilters = (List.range count).map fun block => ⟨block, block⟩
  kept : Kept hash stores filled.bitmap
  blocks : ∀ store ∈ stores, blockOf store < count
  indexMetas : List.Forall₂ (fun bounds block => ∀ type,
    filled.disk.read (indexBlockOffset + (bounds type).1) ((bounds type).2 - (bounds type).1) =
      pieceOf std stores block type) filled.indexMetas (List.range count)

/-- The last block is closed, and all arrays are sorted. -/
theorem Filling.closeLast {stores : List IndexStore} (h : Filling hash std stores count st)
    (hpos : 0 < count) : st.closeBlock std (st.metas.length - 1) = some { st with
      metas := closedMetas stores count
      arrays := fun type => sortedBlocks std stores type count } := by
  obtain ⟨last, rfl⟩ := Nat.exists_eq_add_of_lt hpos
  rw [Nat.zero_add] at h ⊢
  have hlength : st.metas.length - 1 = last := by
    rw [h.metas, openMetas, List.length_map, List.length_range, Nat.add_sub_cancel]
  rw [hlength]
  exact closeBlock_eq h.metas h.arrays

/-- From the sorted arrays to the disk. -/
theorem layOut_spec (stores : List IndexStore) (hpos : 0 < count)
    (hmetas : st.metas = closedMetas stores count)
    (harrays : st.arrays = fun type => sortedBlocks std stores type count) (disk : Memory) :
    List.Forall₂ (fun bounds block => ∀ type,
      (disk.write indexBlockOffset (st.layOut.writeBuffer.take st.totalLen)).read
        (indexBlockOffset + (bounds type).1) ((bounds type).2 - (bounds type).1) =
          pieceOf std stores block type) st.layOut.indexMetas (List.range count) := by
  have hlies : List.Forall₂ (fun bounds pieces => ∀ type,
      Lies (st.arrays type).flatten (bounds type) (pieces type)) st.metas
      ((List.range count).map fun block type => pieceOf std stores block type) := by
    rw [hmetas, closedMetas, List.forall₂_map_left_iff, List.forall₂_map_right_iff,
      List.forall₂_same, harrays]
    exact fun block hblock type => lies_sortedBlocks stores (List.mem_range.mp hblock) type
  obtain ⟨more, placed, hfold, hlength, hplaced⟩ :=
    copyBlocks_spec hlies { writeBuffer := [], indexMetas := [] }
  have hlayout : st.layOut = { writeBuffer := more, indexMetas := placed } := hfold
  have htotal : more.length = st.totalLen := by
    obtain ⟨last, rfl⟩ := Nat.exists_eq_add_of_lt hpos
    have hlast : st.metas.getLast? = some fun type =>
        (startOf stores type (0 + last), startOf stores type (0 + last + 1)) := by
      rw [hmetas, closedMetas, List.range_succ, List.map_append, List.map_singleton,
        List.getLast?_concat]
    rw [hlength, hmetas, closedMetas, List.map_map, FillState.totalLen, hlast]
    exact sum_startOf stores _
  rw [hlayout, ← htotal, List.take_length]
  rw [List.forall₂_map_right_iff] at hplaced
  refine hplaced.imp fun bounds block h type => ?_
  have hpiece : Lies more (bounds type) (pieceOf std stores block type) := h type
  rw [Memory.read_write_inside _ hpiece.le_length, hpiece.cut]

theorem init_spec : ∃ st, init = some st ∧ Filling hash std [] 0 st := by
  let bitmap : BitMap :=
    { rowCount := requiredRows, colCount := 72, backupColCount := 8, bitmap := fun _ => 0
      colCount_mod := rfl, backup_le := by decide }
  refine ⟨{ bitmap, prefixFilters := [], metas := [], arrays := fun _ => [] }, rfl, ?_⟩
  exact ⟨nofun, rfl, rfl, fun _ => rfl, rfl, rfl, nofun⟩

/-- The index of one block or more is turned into the filters and the arrays. -/
theorem fill_spec (disk : Memory) {indexSize : ℕ} {stores : List IndexStore}
    (hread : indexStores disk indexSize = stores) (hne : stores ≠ [])
    (hindexable : ∀ store ∈ stores, Indexable store) (hsteady : Steady 0 stores)
    (hlt : ∀ store ∈ stores, blockOf store < 72) :
    ∃ filled count, fill hash std disk indexSize = some filled ∧ 0 < count ∧ count ≤ 72 ∧
      filled.Holds hash std disk stores count := by
  obtain ⟨initial, hinit, hinitial⟩ := @init_spec hash std
  obtain ⟨looped, count, hfold, hfilling, hle, hzero⟩ := hinitial.run hindexable hsteady hlt
  rw [List.nil_append] at hfilling
  have hpos : 0 < count := Nat.pos_of_ne_zero fun hz => hne (hzero hz).2
  have hloop : initial.loop hash std stores = some { looped with
      metas := closedMetas stores count
      arrays := fun type => sortedBlocks std stores type count } := by
    unfold FillState.loop
    rw [hfold]
    exact hfilling.closeLast hpos
  set closed : FillState := { looped with
    metas := closedMetas stores count
    arrays := fun type => sortedBlocks std stores type count } with hclosed
  refine ⟨{ disk := disk.write indexBlockOffset (closed.layOut.writeBuffer.take closed.totalLen)
            bitmap := looped.bitmap
            prefixFilters := looped.prefixFilters
            indexMetas := closed.layOut.indexMetas }, count, ?_, hpos, by omega, ?_⟩
  · unfold fill
    rw [hinit, hread]
    simp only [hloop]
    rfl
  · exact ⟨⟨_, rfl⟩, hfilling.prefixFilters, hfilling.kept, hfilling.blocks,
      layOut_spec stores hpos rfl rfl disk⟩

end QueryTest

end TrafficDatabase
