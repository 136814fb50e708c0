import TrafficDatabase.Experiment.CaptureStore
import TrafficDatabase.Experiment.QueryOffsets

/-!
# From a capture file to the counts of a query

The index that `dataHandler` leaves is in the order of the file, and all its records can be
indexed again (`Parsed.inOrder`).  `queryTest` puts its arrays behind the data, so the links
are still there (`readHeader_write`).  A query reads along the links from the positions it
has found, and so counts every packet of the flows with the key, and its bytes, once
(`counts_exact`).
-/

namespace TrafficDatabase

namespace QueryTest

open DataHandler
open IndexStorageConfig (someHash someSort)

/-! ## The packets that are counted -/

section Chains

variable {disk : Memory} {fuel offset : ℕ} {chain : List ℕ}

def caplenOnDisk (disk : Memory) (position : ℕ) : ℕ :=
  (readHeader disk (dataOffset + position)).caplen

/-- Along the links every packet is counted. -/
theorem readChain_eq (h : Worklist.Chain (nextOnDisk disk) offset chain)
    (hfuel : chain.length ≤ fuel) (packetCount byteCount : ℕ) :
    readChain disk fuel offset (packetCount, byteCount) =
      some (packetCount + chain.length, byteCount + (chain.map (caplenOnDisk disk)).sum) := by
  induction h generalizing fuel packetCount byteCount with
  | last hnone =>
      obtain ⟨fuel, rfl⟩ := Nat.exists_eq_succ_of_ne_zero (Nat.ne_of_gt hfuel)
      unfold nextOnDisk at hnone
      simp only [ite_eq_left_iff, reduceCtorEq, imp_false, not_not] at hnone
      rw [readChain]
      simp only [if_pos hnone]
      simp [caplenOnDisk]
  | @more entry next rest hsome _ ih =>
      obtain ⟨fuel, rfl⟩ := Nat.exists_eq_succ_of_ne_zero (Nat.ne_of_gt (Nat.zero_lt_of_lt hfuel))
      have hrest : rest.length ≤ fuel := Nat.le_of_succ_le_succ hfuel
      unfold nextOnDisk at hsome
      obtain ⟨hlink, hnext⟩ := Option.ite_none_left_eq_some.mp hsome
      rw [Option.some.injEq] at hnext
      rw [readChain]
      simp only [if_neg hlink, hnext]
      rw [ih hrest, List.length_cons, List.map_cons, List.sum_cons]
      congr 2
      · omega
      · simp only [caplenOnDisk]
        omega

/-- All chains of the positions are counted. -/
theorem readPacket_eq {offsetVec : List ℕ} {chains : List (List ℕ)}
    (h : List.Forall₂ (Worklist.Chain (nextOnDisk disk)) offsetVec chains)
    (hfuel : ∀ chain ∈ chains, chain.length ≤ fuel) :
    readPacket disk fuel offsetVec =
      some (chains.flatten.length, (chains.flatten.map (caplenOnDisk disk)).sum) := by
  have hfrom : ∀ packetCount byteCount, offsetVec.foldlM
      (fun counts offset => readChain disk fuel offset counts) (packetCount, byteCount) =
        some (packetCount + chains.flatten.length,
          byteCount + (chains.flatten.map (caplenOnDisk disk)).sum) := by
    induction h with
    | nil => intro packetCount byteCount; rfl
    | @cons _ chain _ rest hchain _ ih =>
        intro packetCount byteCount
        have ih := ih fun other hother => hfuel other (List.mem_cons_of_mem _ hother)
        rw [List.foldlM_cons, readChain_eq hchain (hfuel _ List.mem_cons_self)]
        refine (ih _ _).trans ?_
        rw [List.flatten_cons, List.length_append, List.map_append, List.sum_append, Nat.add_assoc,
          Nat.add_assoc]
  rw [readPacket, hfrom, Nat.zero_add, Nat.zero_add]

/-- What is written behind the data leaves the headers, and so the links. -/
theorem readHeader_write {arrays : List UInt8} {position : ℕ} (h : position < 16 * bufferSize) :
    readHeader (disk.write indexBlockOffset arrays) (dataOffset + position) =
      readHeader disk (dataOffset + position) := by
  have hlt : dataOffset + 16 * bufferSize + 16 ≤ indexBlockOffset := by decide
  have hread : ∀ k ≤ 12, (disk.write indexBlockOffset arrays).read (dataOffset + position + k) 4 =
      disk.read (dataOffset + position + k) 4 := fun k hk =>
    Memory.read_write_of_disjoint (.inl (by omega))
  have hfirst := hread 0 (by decide)
  rw [Nat.add_zero] at hfirst
  unfold readHeader
  rw [hfirst, hread 4 (by decide), hread 8 (by decide), hread 12 (by decide)]

theorem chains_write {arrays : List UInt8} {offsetVec : List ℕ} {chains : List (List ℕ)}
    (h : List.Forall₂ (Worklist.Chain (nextOnDisk disk)) offsetVec chains)
    (hlt : ∀ chain ∈ chains, ∀ position ∈ chain, position < 16 * bufferSize) :
    List.Forall₂ (Worklist.Chain (nextOnDisk (disk.write indexBlockOffset arrays))) offsetVec
      chains := by
  induction h with
  | nil => exact .nil
  | cons hchain _ ih =>
      refine .cons (hchain.congr fun position hposition => ?_)
        (ih fun chain hmem => hlt chain (List.mem_cons_of_mem _ hmem))
      unfold nextOnDisk
      rw [readHeader_write (hlt _ List.mem_cons_self position hposition)]

end Chains

/-! ## The index that is read again -/

variable {file disk : Memory} {positions : List ℕ} {state : State} {len count : ℕ}

/-- A flow with addresses has those of one version. -/
theorem length_sourceAddress {packet : PacketMeta}
    (h : (getFlowMetaData packet).sourceAddress.length ≠ 0) :
    (getFlowMetaData packet).sourceAddress.length = 4 ∨
      (getFlowMetaData packet).sourceAddress.length = 16 := by
  unfold getFlowMetaData DPDKReader.getFlowMetaData at h ⊢
  simp only at h ⊢
  split_ifs at h ⊢
  · exact .inl (by simp)
  · exact .inr (by simp [DPDKReader.swappedHalf])
  · exact absurd rfl h

theorem indexable_read (disk : Memory) (offset : ℕ)
    (h : (IndexStore.read disk offset).flow.sourceAddress.length = 4 ∨
      (IndexStore.read disk offset).flow.sourceAddress.length = 16) :
    Indexable (IndexStore.read disk offset) := by
  have hsource : (IndexStore.read disk offset).flow.sourceAddress.length =
      min (IndexStore.read disk offset).version 16 :=
    (List.length_take ..).trans (congrArg _ (Memory.length_read disk (offset + 32) 16))
  have hdestination : (IndexStore.read disk offset).flow.destinationAddress.length =
      min (IndexStore.read disk offset).version 16 :=
    (List.length_take ..).trans (congrArg _ (Memory.length_read disk (offset + 48) 16))
  have hport : ∀ src, ofLittleEndian (disk.read src 2) < 2 ^ 16 := fun src => by
    have := ofLittleEndian_lt (disk.read src 2)
    rwa [Memory.length_read] at this
  have hposition := ofLittleEndian_lt (disk.read (offset + 16) 8)
  rw [Memory.length_read] at hposition
  rw [hsource] at h
  refine ⟨fun hfour => ⟨?_, ?_⟩, fun hother => ⟨?_, ?_⟩, ⟨hport _, hport _⟩, hposition⟩
  · omega
  · omega
  · omega
  · omega

/-- The records are those of packets. -/
structure Describes (file : Memory) (positions : List ℕ) (stores : List IndexStore) : Prop where
  positions : (stores.map fun store => store.position) = positions
  indexable : ∀ store ∈ stores, Indexable store
  flow : ∀ store ∈ stores, store.flow = flowAt file store.position

/-- What `queryTest` reads is what `dataHandler` has indexed. -/
theorem describes_indexed (h : Parsed file positions state)
    (hip : ∀ position ∈ positions, (flowAt file position).sourceAddress.length ≠ 0) :
    Describes file (indexed file positions) (indexStores (writeOut disk len state)
      ((indexed file positions).length * indexEnumLen)) := by
  have hcount : ((indexed file positions).length * indexEnumLen + indexEnumLen - 1) /
      indexEnumLen = (indexed file positions).length := by
    unfold indexEnumLen
    omega
  have hmem : ∀ store ∈ indexStores (writeOut disk len state)
      ((indexed file positions).length * indexEnumLen), ∃ i, ∃ hi : i < (indexed file positions).length,
        store = indexOnDisk (writeOut disk len state) i ∧
          store.flow = flowAt file ((indexed file positions)[i]) ∧
          store.position = (indexed file positions)[i] := by
    intro store hstore
    rw [indexStores, hcount] at hstore
    obtain ⟨i, hi, rfl⟩ := List.mem_map.mp hstore
    exact ⟨i, List.mem_range.mp hi, rfl, h.index_disk (List.mem_range.mp hi)⟩
  refine ⟨?_, fun store hstore => ?_, fun store hstore => ?_⟩
  · rw [indexStores, hcount, List.map_map]
    refine List.ext_getElem (by rw [List.length_map, List.length_range]) fun i _ hi => ?_
    rw [List.getElem_map, List.getElem_range]
    exact (h.index_disk hi).2
  · obtain ⟨i, hi, rfl, hflow, -⟩ := hmem store hstore
    have hpacket : (indexed file positions)[i] ∈ positions :=
      (List.mem_filter.mp (List.getElem_mem hi)).1
    refine indexable_read _ _ ?_
    rw [indexOnDisk] at hflow
    rw [hflow]
    exact length_sourceAddress (hip _ hpacket)
  · obtain ⟨i, hi, -, hflow, hposition⟩ := hmem store hstore
    rw [hflow, hposition]

theorem Describes.positionsOf_eq {stores : List IndexStore} (h : Describes file positions stores)
    (type : IndexType) (key : List UInt8) : positionsOf stores type key =
      positions.filter fun p => (flowAt file p).indexKey type = some key := by
  rw [← h.positions, List.filter_map, positionsOf]
  refine congrArg _ (List.filter_congr fun store hstore => ?_)
  rw [h.flow store hstore]
  rfl

/-- No block up to that of an indexed packet is without one. -/
def NoBlockLeftOut (positions : List ℕ) : Prop :=
  ∀ position ∈ positions, ∀ block < position / dataBlockSize,
    ∃ other ∈ positions, other / dataBlockSize = block

/-- The records come block by block. -/
theorem steady_of_noBlockLeftOut {stores : List IndexStore}
    (hascending : stores.Pairwise fun first second => blockOf first ≤ blockOf second)
    (hfrom : ∀ store ∈ stores, count ≤ blockOf store + 1)
    (hall : ∀ store ∈ stores, ∀ block < blockOf store, count ≤ block →
      ∃ other ∈ stores, blockOf other = block) : Steady count stores := by
  induction stores generalizing count with
  | nil => trivial
  | cons first rest ih =>
      obtain ⟨hfirst, hrest⟩ := List.pairwise_cons.mp hascending
      have hle := hfrom first List.mem_cons_self
      refine ⟨?_, ih hrest (fun store hstore => Nat.succ_le_succ (hfirst store hstore)) ?_⟩
      · -- a block between would have a record, but none is before the first
        by_contra hgap
        obtain ⟨other, hother, hblock⟩ := hall first List.mem_cons_self count (by omega) le_rfl
        rcases List.mem_cons.mp hother with rfl | hlater
        · omega
        · have := hfirst other hlater
          omega
      · intro store hstore block hlt hblock
        obtain ⟨other, hother, rfl⟩ :=
          hall store (List.mem_cons_of_mem _ hstore) block hlt (by omega)
        rcases List.mem_cons.mp hother with rfl | hlater
        · omega
        · exact ⟨other, hlater, rfl⟩

/-- What is indexed can be filled in. -/
theorem Describes.inOrder {stores : List IndexStore} (h : Describes file positions stores)
    (hascending : positions.Pairwise (· < ·)) (hall : NoBlockLeftOut positions)
    (hlt : ∀ position ∈ positions, position < 72 * dataBlockSize) : InOrder stores := by
  obtain ⟨rfl, hindexable, -⟩ := h
  have hmem : ∀ store ∈ stores, store.position ∈ stores.map fun store => store.position :=
    fun store hstore => List.mem_map_of_mem hstore
  refine ⟨hindexable, ?_, fun store hstore => ?_, hascending⟩
  · refine steady_of_noBlockLeftOut ((List.pairwise_map.mp hascending).imp fun hlt =>
      Nat.div_le_div_right hlt.le) (fun store _ => Nat.zero_le _) ?_
    intro store hstore block hblock _
    obtain ⟨other, hother, hsame⟩ := hall _ (hmem store hstore) block hblock
    obtain ⟨found, hfound, rfl⟩ := List.mem_map.mp hother
    exact ⟨found, hfound, hsame⟩
  · exact (Nat.div_lt_iff_lt_mul (by decide)).mpr (hlt _ (hmem store hstore))

/-! ## The counts -/

/-- The first packet is indexed. -/
theorem indexed_ne_nil (hascending : positions.Pairwise (· < ·)) (hne : positions ≠ []) :
    indexed file positions ≠ [] := by
  obtain ⟨first, rest, rfl⟩ := List.exists_cons_of_ne_nil hne
  have hfirst : Indexed file (first :: rest) first := by
    intro earlier hearlier hlt
    rcases List.mem_cons.mp hearlier with rfl | hlater
    · exact absurd hlt (lt_irrefl _)
    · exact absurd hlt ((List.pairwise_cons.mp hascending).1 earlier hlater).not_gt
  exact List.ne_nil_of_mem (List.mem_filter.mpr ⟨List.mem_cons_self, decide_eq_true hfirst⟩)

/-- The packets of a capture whose flow has a key. -/
def packetsOf (capture : Capture) (type : IndexType) (key : List UInt8) : List ℕ :=
  capture.positions.filter fun p =>
    (flowAt (contents capture.bytes) p).indexKey type = some key

/-- A capture of IP packets is written, read again and indexed; then a query for a key counts
the packets of the flows with the key, and their bytes, each once. -/
theorem counts_exact (hash : StdHash) (std : StdSort) (capture : Capture) (disk : Memory)
    (hne : capture.positions ≠ []) (hlen : capture.bytes.length ≤ 16 * bufferSize)
    (hindex : (indexed (contents capture.bytes) capture.positions).length * indexEnumLen ≤
      bufferSize)
    (hall : NoBlockLeftOut (indexed (contents capture.bytes) capture.positions)) :
    ∃ stored filled, main capture.bytes disk = some (0, stored) ∧
      fill hash std stored ((indexed (contents capture.bytes) capture.positions).length *
        indexEnumLen) = some filled ∧
      ∀ fuel ≥ capture.positions.length, ∀ type key, key.length = type.keyLen →
        filled.query hash fuel type key = some ((packetsOf capture type key).length,
          ((packetsOf capture type key).map fun p =>
            (readHeader (contents capture.bytes) p).caplen).sum) := by
  have hsize : 16 * bufferSize < 2 ^ 64 := by decide
  have hcolumns : 16 * bufferSize ≤ 72 * dataBlockSize := by decide
  set file := contents capture.bytes with hfile
  obtain ⟨final, hmain, hparsed⟩ := exists_main capture disk (by omega) hindex
  have hends : ∀ p ∈ capture.positions, recordEnd file p ≤ capture.bytes.length :=
    fun p hp => (capture.records.mem p hp).2
  have hlt : ∀ p ∈ capture.positions, p < 16 * bufferSize := by
    intro p hp
    have hend := hends p hp
    have := @recordEnd_ge file p
    omega
  have hdescribes : Describes file (indexed file capture.positions) (indexStores
      (writeOut disk capture.bytes.length final)
      ((indexed file capture.positions).length * indexEnumLen)) :=
    describes_indexed hparsed capture.ip
  have hinOrder := hdescribes.inOrder (capture.ascending.filter _) hall fun p hp =>
    (hlt p (List.mem_filter.mp hp).1).trans_le hcolumns
  have hstores : indexStores (writeOut disk capture.bytes.length final)
      ((indexed file capture.positions).length * indexEnumLen) ≠ [] := by
    intro hempty
    have hpositions := hdescribes.positions
    rw [hempty] at hpositions
    exact indexed_ne_nil capture.ascending hne hpositions.symm
  obtain ⟨filled, count, hfill, hpos, hle, hholds⟩ := @fill_spec hash std _ _ _ rfl hstores
    hinOrder.indexable hinOrder.steady hinOrder.blocks
  refine ⟨_, filled, hmain, hfill, fun fuel hfuel type key hkey => ?_⟩
  obtain ⟨arrays, hdisk⟩ := hholds.disk
  obtain ⟨chains, hchains, hperm, hsublists⟩ := hparsed.chains_disk hlen hends fun flow =>
    decide (flow.indexKey type = some key)
  have hwanted : ∀ p ∈ packetsOf capture type key, p ∈ capture.positions := fun p hp =>
    List.mem_of_mem_filter hp
  have hchainLt : ∀ chain ∈ chains, ∀ p ∈ chain, p < 16 * bufferSize := fun chain hchain p hp =>
    hlt p (hwanted p ((hsublists chain hchain).subset hp))
  have hlength : ∀ chain ∈ chains, chain.length ≤ fuel := fun chain hchain =>
    ((hsublists chain hchain).trans List.filter_sublist).length_le.trans hfuel
  have hcaplen : ∀ p ∈ packetsOf capture type key, caplenOnDisk filled.disk p =
      (readHeader file p).caplen := by
    intro p hp
    have hin := hwanted p hp
    rw [caplenOnDisk, hdisk, readHeader_write (hlt p hin),
      hparsed.readHeader_disk hlen hin (hends p hin)]
  have hoffsets := (hholds.offsets hinOrder hpos hle hkey).trans
    (congrArg some (hdescribes.positionsOf_eq type key))
  rw [Filled.query, hoffsets]
  simp only
  rw [readPacket_eq (hdisk ▸ chains_write hchains hchainLt) hlength, ← hperm.length_eq,
    ← (hperm.map _).sum_eq]
  exact congrArg some (congrArg _ (congrArg List.sum (List.map_congr_left hcaplen)))

theorem counts_exact_threePackets : ∃ stored filled,
    main threeRecords (fun _ => 0) = some (0, stored) ∧
      fill someHash someSort stored 144 = some filled ∧
      filled.query someHash 3 .srcport [1, 0] = some (2, 76) ∧
      filled.query someHash 3 .dstip [2, 0, 0, 10] = some (3, 114) := by
  have hindexed : indexed (contents threePackets.bytes) threePackets.positions = [24, 78] := by
    decide +kernel
  obtain ⟨stored, filled, hmain, hfill, hquery⟩ := counts_exact someHash someSort threePackets
    (fun _ => 0) (by decide) (by decide +kernel) (by rw [hindexed]; decide) (by
      rw [hindexed]
      unfold NoBlockLeftOut
      decide)
  rw [hindexed] at hfill
  refine ⟨stored, filled, hmain, hfill, ?_, ?_⟩
  · rw [hquery 3 le_rfl _ _ rfl]
    decide +kernel
  · rw [hquery 3 le_rfl _ _ rfl]
    decide +kernel

end QueryTest

end TrafficDatabase
