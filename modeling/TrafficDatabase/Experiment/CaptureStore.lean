import Mathlib.Data.Finset.Max
import TrafficDatabase.Experiment.DataHandler
import TrafficDatabase.Library.Worklist

/-!
# What the data handler leaves on the disk

For a capture whose records fill the file and are all IP packets, `main` comes to
its end as long as the index fits its buffer.  A packet is indexed if no packet of
its flow is in the `BUFFER_SIZE` bytes before it (`Indexed`), and any other one is
what the link of the flow's packet before it leads to (`nextOf`).  So following the
links from the indexed packets of some flows visits every packet of these flows
once, and no other (`capture_chained`).

The invariant of the loop says this of the packets parsed so far (`Parsed`).
-/

namespace TrafficDatabase

namespace DataHandler

open PacketAggregator

variable (file : Memory)

/-- The packet at an offset of the file. -/
def packetAt (offset : ℕ) : PacketMeta :=
  { header := readHeader file offset
    data := fun addr => file (offset + pcapHeaderLen + addr)
    len := 0 }

def flowAt (offset : ℕ) : FlowMetadata := getFlowMetaData (packetAt file offset)

def recordEnd (offset : ℕ) : ℕ := offset + (readHeader file offset).caplen + pcapHeaderLen

/-- The records from an offset on fill the file to its end. -/
inductive Records (len : ℕ) : ℕ → List ℕ → Prop
  | done : Records len len []
  | more {offset : ℕ} {rest : List ℕ} (hlt : offset < len)
      (tail : Records len (recordEnd file offset) rest) : Records len offset (offset :: rest)

/-- A capture file of IP packets. -/
structure Capture where
  bytes : List UInt8
  positions : List ℕ
  records : Records (contents bytes) bytes.length fileHeaderLen positions
  ip : ∀ position ∈ positions, (flowAt (contents bytes) position).sourceAddress.length ≠ 0

/-- No packet of its flow is near before it. -/
def Indexed (before : List ℕ) (position : ℕ) : Prop :=
  ∀ earlier ∈ before, earlier < position → flowAt file earlier = flowAt file position →
    bufferSize < position - earlier

instance (before : List ℕ) (position : ℕ) : Decidable (Indexed file before position) :=
  inferInstanceAs (Decidable (∀ _ ∈ _, _))

def indexed (positions : List ℕ) : List ℕ := positions.filter fun p => Indexed file positions p

/-- The flow's next packet, if it is near. -/
def nextOf (positions : List ℕ) (position : ℕ) : Option ℕ :=
  (positions.find? fun later => position < later ∧ flowAt file later = flowAt file position).filter
    fun later => later - position ≤ bufferSize

/-- What `flow_next_diff` says. -/
def linkOf (positions : List ℕ) (position : ℕ) : ℕ :=
  (nextOf file positions position).elim (2 ^ 32 - 1) fun later => later - position

def linkAt (buf : Memory) (position : ℕ) : ℕ :=
  ofLittleEndian (buf.read (position + linkOffset) 4)

def arrivalAt (position : ℕ) : Arrival :=
  { flow := flowAt file position, position, ts := timeOf (readHeader file position) }

/-- The loop has gone through the packets `done`. -/
structure Parsed (done : List ℕ) (state : State) : Prop where
  ends : ∀ position ∈ done, recordEnd file position ≤ state.readOffset
  apart : done.Pairwise fun first second => recordEnd file first ≤ second
  kept : ∀ addr, (∀ position ∈ done,
    addr < position + linkOffset ∨ position + linkOffset + 4 ≤ addr) →
      state.readBuffer addr = file addr
  linked : ∀ position ∈ done, linkAt state.readBuffer position = linkOf file done position
  offsetThreshold : state.agg.offsetThreshold = bufferSize
  tsThreshold : state.agg.tsThreshold = u64Max
  aggMap : ∀ flow, state.agg.aggMap flow =
    (latest flow (done.map (arrivalAt file))).map fun call => ⟨call.position, call.ts⟩
  total : state.totalLen = state.readOffset
  indexLen : state.indexOffset = (indexed file done).length * indexEnumLen
  stored : ∀ i (hi : i < (indexed file done).length),
    (IndexStore.read state.indexBuffer (i * indexEnumLen)).flow =
        flowAt file ((indexed file done)[i]) ∧
      (IndexStore.read state.indexBuffer (i * indexEnumLen)).position = (indexed file done)[i]

variable {file} {done todo positions : List ℕ} {state : State} {position later : ℕ}

/-! ## The records of a file -/

theorem recordEnd_ge (position : ℕ) : position + 16 ≤ recordEnd file position := by
  have : pcapHeaderLen = 16 := rfl
  unfold recordEnd
  omega

theorem Records.cons {len offset next : ℕ} {rest : List ℕ} (hlt : offset < len)
    (hnext : recordEnd file offset = next) (tail : Records file len next rest) :
    Records file len offset (offset :: rest) := .more hlt (hnext ▸ tail)

theorem Records.start_le {len start : ℕ} (h : Records file len start positions) :
    start + 16 * positions.length ≤ len := by
  induction h with
  | done => simp
  | @more offset rest _ _ ih =>
      have := @recordEnd_ge file offset
      rw [List.length_cons]
      omega

theorem Records.mem {len start : ℕ} (h : Records file len start positions) :
    ∀ position ∈ positions, start ≤ position ∧ recordEnd file position ≤ len := by
  induction h with
  | done => exact fun _ hmem => by cases hmem
  | @more offset rest _ tail ih =>
      intro position hmem
      have hend := @recordEnd_ge file offset
      rcases List.mem_cons.mp hmem with rfl | hrest
      · exact ⟨le_rfl, by have := tail.start_le; omega⟩
      · have := ih position hrest
        omega

theorem Records.apart {len start : ℕ} (h : Records file len start positions) :
    positions.Pairwise fun first second => recordEnd file first ≤ second := by
  induction h with
  | done => exact List.Pairwise.nil
  | more _ tail ih => exact List.pairwise_cons.mpr ⟨fun other hmem => (tail.mem other hmem).1, ih⟩

theorem ascending_of_apart
    (h : positions.Pairwise fun first second => recordEnd file first ≤ second) :
    positions.Pairwise (· < ·) :=
  h.imp fun {first _} hle => lt_of_lt_of_le (by have := @recordEnd_ge file first; omega) hle

/-- Two headers do not overlap. -/
theorem headers_apart (h : positions.Pairwise fun first second => recordEnd file first ≤ second)
    {other : ℕ} (hposition : position ∈ positions) (hother : other ∈ positions)
    (hne : position ≠ other) : position + 16 ≤ other ∨ other + 16 ≤ position := by
  have hpairs : positions.Pairwise fun first second =>
      first + 16 ≤ second ∨ second + 16 ≤ first :=
    h.imp fun {first _} hle => .inl (by have := @recordEnd_ge file first; omega)
  have : Std.Symm fun first second : ℕ => first + 16 ≤ second ∨ second + 16 ≤ first :=
    ⟨fun _ _ => Or.symm⟩
  exact hpairs.forall hposition hother hne

/-! ## The packet after a packet -/

/-- What the search finds is the first packet of the flow behind this one. -/
theorem find?_later (hascending : positions.Pairwise (· < ·))
    (h : positions.find? (fun later => position < later ∧
      flowAt file later = flowAt file position) = some later) :
    later ∈ positions ∧ position < later ∧ flowAt file later = flowAt file position ∧
      ∀ other ∈ positions, position < other → flowAt file other = flowAt file position →
        later ≤ other := by
  have hmem := List.mem_of_find?_eq_some h
  obtain ⟨hsome, front, back, hsplit, hfront⟩ := List.find?_eq_some_iff_append.mp h
  rw [decide_eq_true_eq] at hsome
  refine ⟨hmem, hsome.1, hsome.2, fun other hother hlt hflow => ?_⟩
  rw [hsplit] at hother hascending
  rcases List.mem_append.mp hother with hbefore | hbehind
  · have := hfront other hbefore
    simp [hlt, hflow] at this
  · rcases List.mem_cons.mp hbehind with rfl | hback
    · exact le_rfl
    · exact (List.rel_of_pairwise_cons (List.pairwise_append.mp hascending).2.1 hback).le

theorem nextOf_eq_some (hascending : positions.Pairwise (· < ·)) :
    nextOf file positions position = some later ↔
      (later ∈ positions ∧ position < later ∧ flowAt file later = flowAt file position ∧
        ∀ other ∈ positions, position < other → flowAt file other = flowAt file position →
          later ≤ other) ∧ later - position ≤ bufferSize := by
  unfold nextOf
  rw [Option.filter_eq_some_iff, decide_eq_true_eq]
  refine and_congr_left fun _ => ⟨find?_later hascending, ?_⟩
  rintro ⟨hmem, hlt, hflow, hfirst⟩
  cases hfind : positions.find? (fun later => position < later ∧
      flowAt file later = flowAt file position) with
  | none =>
      have := List.find?_eq_none.mp hfind later hmem
      simp [hlt, hflow] at this
  | some found =>
      obtain ⟨hfound, hltFound, hflowFound, hleast⟩ := find?_later hascending hfind
      rw [le_antisymm (hleast later hmem hlt hflow) (hfirst found hfound hltFound hflowFound)]

/-! ## One more packet -/

/-- The last packet of the flow so far, if it is near. -/
structure Precedes (file : Memory) (done : List ℕ) (last position : ℕ) : Prop where
  mem : last ∈ done
  flow : flowAt file last = flowAt file position
  latest : ∀ other ∈ done, last < other → flowAt file other ≠ flowAt file position
  near : position - last ≤ bufferSize

theorem nextOf_concat_of_precedes (hascending : (done ++ [position]).Pairwise (· < ·))
    {last : ℕ} (h : Precedes file done last position) :
    nextOf file (done ++ [position]) last = some position := by
  have hbefore := (List.pairwise_append.mp hascending).2.2
  rw [nextOf_eq_some hascending]
  refine ⟨⟨List.mem_append_right _ (List.mem_singleton_self _),
    hbefore last h.mem position (List.mem_singleton_self _), h.flow.symm, ?_⟩, h.near⟩
  intro other hother hlt hflow
  rcases List.mem_append.mp hother with hdone | hnew
  · exact absurd (hflow.trans h.flow) (h.latest other hdone hlt)
  · exact (List.mem_singleton.mp hnew).ge

/-- The other packets are linked as before. -/
theorem nextOf_concat_of_not_precedes (hascending : (done ++ [position]).Pairwise (· < ·))
    {earlier : ℕ} (hmem : earlier ∈ done) (h : ¬ Precedes file done earlier position) :
    nextOf file (done ++ [position]) earlier = nextOf file done earlier := by
  have hbefore := (List.pairwise_append.mp hascending).2.2
  have hdone := (List.pairwise_append.mp hascending).1
  refine Option.ext fun later => ?_
  rw [nextOf_eq_some hascending, nextOf_eq_some hdone]
  constructor
  · rintro ⟨⟨hlater, hlt, hflow, hleast⟩, hnear⟩
    rcases List.mem_append.mp hlater with hin | hnew
    · exact ⟨⟨hin, hlt, hflow, fun other hother => hleast other (List.mem_append_left _ hother)⟩,
        hnear⟩
    · obtain rfl := List.mem_singleton.mp hnew
      refine absurd ⟨hmem, hflow.symm, fun other hother hltOther hsame => ?_, hnear⟩ h
      have := hleast other (List.mem_append_left _ hother) hltOther (hsame.trans hflow)
      have := hbefore other hother later (List.mem_singleton_self _)
      omega
  · rintro ⟨⟨hlater, hlt, hflow, hleast⟩, hnear⟩
    refine ⟨⟨List.mem_append_left _ hlater, hlt, hflow, fun other hother hltOther hsame => ?_⟩,
      hnear⟩
    rcases List.mem_append.mp hother with hin | hnew
    · exact hleast other hin hltOther hsame
    · rw [List.mem_singleton.mp hnew]
      exact (hbefore later hlater position (List.mem_singleton_self _)).le

theorem nextOf_concat_self (hascending : (done ++ [position]).Pairwise (· < ·)) :
    nextOf file (done ++ [position]) position = none := by
  have hbefore := (List.pairwise_append.mp hascending).2.2
  refine Option.eq_none_iff_forall_ne_some.mpr fun later hsome => ?_
  obtain ⟨⟨hmem, hlt, -, -⟩, -⟩ := (nextOf_eq_some hascending).mp hsome
  rcases List.mem_append.mp hmem with hin | hnew
  · exact lt_asymm hlt (hbefore later hin position (List.mem_singleton_self _))
  · exact hlt.ne' (List.mem_singleton.mp hnew)

/-- The packets that are indexed stay so. -/
theorem indexed_append (hascending : (done ++ todo).Pairwise (· < ·)) :
    indexed file (done ++ todo) =
      indexed file done ++ todo.filter fun p => Indexed file (done ++ todo) p := by
  have hbefore := (List.pairwise_append.mp hascending).2.2
  unfold indexed
  rw [List.filter_append]
  congr 1
  refine List.filter_congr fun p hp => decide_eq_decide.mpr ?_
  constructor
  · exact fun h earlier hearlier => h earlier (List.mem_append_left _ hearlier)
  · intro h earlier hearlier hlt
    rcases List.mem_append.mp hearlier with hin | hlater
    · exact h earlier hin hlt
    · exact absurd hlt (hbefore p hp earlier hlater).not_gt

theorem indexed_concat (hascending : (done ++ [position]).Pairwise (· < ·)) :
    indexed file (done ++ [position]) =
      indexed file done ++ if Indexed file done position then [position] else [] := by
  have hself : Indexed file (done ++ [position]) position ↔ Indexed file done position := by
    constructor
    · exact fun h earlier hearlier => h earlier (List.mem_append_left _ hearlier)
    · intro h earlier hearlier hlt
      rcases List.mem_append.mp hearlier with hin | hnew
      · exact h earlier hin hlt
      · exact absurd (List.mem_singleton.mp hnew) hlt.ne
  rw [indexed_append hascending]
  by_cases h : Indexed file done position
  · rw [if_pos h]
    exact congrArg _ (List.filter_cons_of_pos (decide_eq_true (hself.mpr h)))
  · rw [if_neg h]
    exact congrArg _ (List.filter_cons_of_neg (by rwa [decide_eq_true_eq, hself]))

/-! ## What the aggregator says -/

theorem mem_latest {flow : FlowMetadata} {call : Arrival}
    (h : latest flow (done.map (arrivalAt file)) = some call) :
    call.position ∈ done ∧ flowAt file call.position = flow ∧
      call = arrivalAt file call.position := by
  obtain ⟨hmem, hflow⟩ := latest_eq_some h
  obtain ⟨q, hq, rfl⟩ := List.mem_map.mp hmem
  exact ⟨hq, hflow, rfl⟩

/-- A packet is linked to the last one of its flow, if that is near. -/
theorem Parsed.addPacket_eq_some (h : Parsed file done state)
    (hbefore : ∀ earlier ∈ done, earlier < position) {ts last : ℕ} :
    (state.agg.addPacket (flowAt file position) position ts bufferSize).1 = some last ↔
      Precedes file done last position := by
  have hincreasing : (done.map (arrivalAt file)).Pairwise fun first second =>
      first.position < second.position :=
    List.pairwise_map.mpr (ascending_of_apart h.apart)
  have hleLatest : ∀ {call : Arrival}, latest (flowAt file position) (done.map (arrivalAt file)) =
      some call → ∀ other ∈ done, flowAt file other = flowAt file position →
        other ≤ call.position := fun hcall other hother hflow =>
    position_le_latest hincreasing hcall (List.mem_map_of_mem hother) hflow
  have hexpired : ∀ {call : Arrival}, call.position < position →
      (¬ state.agg.Expired ⟨call.position, call.ts⟩ position ts bufferSize ↔
        position - call.position ≤ bufferSize) := by
    intro call hlt
    have htime := Nat.mod_lt (ts + 2 ^ 64 - call.ts) (Nat.two_pow_pos 64)
    have horder : orderedOffset position call.position bufferSize = position :=
      if_neg (not_le.mpr hlt)
    unfold Expired
    simp only
    rw [h.offsetThreshold, h.tsThreshold, horder, u64Max]
    omega
  rw [PacketAggregator.addPacket_fst_eq_some, h.aggMap]
  constructor
  · rintro ⟨attr, hattr, hnear, rfl⟩
    obtain ⟨call, hcall, rfl⟩ := Option.map_eq_some_iff.mp hattr
    obtain ⟨hmem, hflow, -⟩ := mem_latest hcall
    refine ⟨hmem, hflow, fun other hother hlt hsame => ?_, (hexpired (hbefore _ hmem)).mp hnear⟩
    exact hlt.not_ge (hleLatest hcall other hother hsame)
  · intro hprecedes
    cases hcall : latest (flowAt file position) (done.map (arrivalAt file)) with
    | none =>
        exact absurd hprecedes.flow
          (latest_eq_none hcall (List.mem_map_of_mem hprecedes.mem))
    | some call =>
        obtain ⟨hmem, hflow, -⟩ := mem_latest hcall
        have hle := hleLatest hcall last hprecedes.mem hprecedes.flow
        have hge : ¬ last < call.position := fun hlt =>
          hprecedes.latest call.position hmem hlt hflow
        have hsame : call.position = last := by omega
        refine ⟨_, rfl, (hexpired (hbefore _ hmem)).mpr ?_, hsame⟩
        rw [hsame]
        exact hprecedes.near

/-- The other packets are indexed. -/
theorem Parsed.addPacket_eq_none (h : Parsed file done state)
    (hbefore : ∀ earlier ∈ done, earlier < position) {ts : ℕ} :
    (state.agg.addPacket (flowAt file position) position ts bufferSize).1 = none ↔
      Indexed file done position := by
  rw [Option.eq_none_iff_forall_ne_some]
  simp only [ne_eq, h.addPacket_eq_some hbefore]
  constructor
  · intro hnone earlier hmem _ hflow
    by_contra hnear
    -- the last packet of the flow is at least as near
    have hincreasing : (done.map (arrivalAt file)).Pairwise fun first second =>
        first.position < second.position :=
      List.pairwise_map.mpr (ascending_of_apart h.apart)
    cases hcall : latest (flowAt file position) (done.map (arrivalAt file)) with
    | none => exact latest_eq_none hcall (List.mem_map_of_mem hmem) hflow
    | some call =>
        obtain ⟨hin, hsame, -⟩ := mem_latest hcall
        have hle : ∀ other ∈ done, flowAt file other = flowAt file position →
            other ≤ call.position := fun other hother hflow' =>
          position_le_latest hincreasing hcall (List.mem_map_of_mem hother) hflow'
        refine hnone call.position ⟨hin, hsame, fun other hother hlt hflow' => ?_, ?_⟩
        · exact hlt.not_ge (hle other hother hflow')
        · have := hle earlier hmem hflow
          omega
  · intro hindexed last hprecedes
    have := hindexed last hprecedes.mem (hbefore last hprecedes.mem) hprecedes.flow
    have := hprecedes.near
    omega

/-! ## A turn of the loop -/

theorem getFlowMetaData_congr {packet other : PacketMeta} (h : packet.data = other.data) :
    getFlowMetaData packet = getFlowMetaData other := by
  simp only [getFlowMetaData, DPDKReader.getFlowMetaData, h]

theorem networkPort_lt (data : Memory) (addr : ℕ) : DPDKReader.networkPort data addr < 2 ^ 16 := by
  have hhigh := (data addr).toNat_lt
  have hlow := (data (addr + 1)).toNat_lt
  unfold DPDKReader.networkPort
  omega

/-- Every key fits the fields of a record. -/
theorem fitsRecord (packet : PacketMeta) : FlowMetadata.FitsRecord (getFlowMetaData packet) := by
  unfold getFlowMetaData DPDKReader.getFlowMetaData
  simp only
  split_ifs
  · exact ⟨by simp, by simp, networkPort_lt _ _, networkPort_lt _ _⟩
  · exact ⟨by simp [DPDKReader.swappedHalf], by simp [DPDKReader.swappedHalf],
      networkPort_lt _ _, networkPort_lt _ _⟩
  · exact ⟨by simp, rfl, Nat.two_pow_pos 16, Nat.two_pow_pos 16⟩

/-- What is read of a packet is what the file has. -/
theorem readPacket_spec {buf : Memory} (h : ∀ addr, position ≤ addr → buf addr = file addr) :
    (readPacket buf position).2.2 = recordEnd file position ∧
      getFlowMetaData (readPacket buf position).2.1 = flowAt file position ∧
      timeOf (readPacket buf position).2.1.header = timeOf (readHeader file position) := by
  have hlink : linkOffset = 12 := rfl
  have hpcap : pcapHeaderLen = 16 := rfl
  have hfield : ∀ src, position ≤ src → src + 4 ≤ position + 12 →
      (buf.write (position + linkOffset) (toLittleEndian 4 (2 ^ 32 - 1))).read src 4 =
        file.read src 4 := by
    intro src hge hle
    rw [Memory.read_write_of_disjoint (.inl (by omega))]
    exact Memory.read_congr fun k _ => h _ (by omega)
  have hdata : (readPacket buf position).2.1.data = (packetAt file position).data := by
    funext addr
    change (buf.write (position + linkOffset) (toLittleEndian 4 (2 ^ 32 - 1)))
      (position + pcapHeaderLen + addr) = file (position + pcapHeaderLen + addr)
    rw [Memory.write_apply_outside (.inr (by rw [length_toLittleEndian]; omega))]
    exact h _ (by omega)
  refine ⟨?_, getFlowMetaData_congr hdata, ?_⟩
  · simp only [readPacket, readHeader, recordEnd, hfield (position + 8) (by omega) (by omega)]
  · simp only [readPacket, readHeader, timeOf, hfield position le_rfl (by omega),
      hfield (position + 4) (by omega) (by omega)]

theorem linkAt_write_self {buf : Memory} {diff : ℕ} (h : diff < 2 ^ 32) :
    linkAt (buf.write (position + linkOffset) (toLittleEndian 4 diff)) position = diff := by
  have hread := Memory.read_write_self buf (position + linkOffset) (toLittleEndian 4 diff)
  rw [length_toLittleEndian] at hread
  rw [linkAt, hread, ofLittleEndian_toLittleEndian_of_lt h]

theorem linkAt_write_of_apart {buf : Memory} {diff other : ℕ}
    (h : other + 16 ≤ position ∨ position + 16 ≤ other) :
    linkAt (buf.write (position + linkOffset) (toLittleEndian 4 diff)) other =
      linkAt buf other := by
  have hlink : linkOffset = 12 := rfl
  rw [linkAt, Memory.read_write_of_disjoint (by rw [length_toLittleEndian]; omega), linkAt]

/-- What does not depend on whether the packet is linked. -/
theorem Parsed.concat (h : Parsed file done state) {next : State}
    (hread : next.readOffset = recordEnd file state.readOffset)
    (htotal : next.totalLen = next.readOffset)
    (hagg : next.agg = (state.agg.addPacket (flowAt file state.readOffset) state.readOffset
      (timeOf (readHeader file state.readOffset)) bufferSize).2)
    (hkept : ∀ addr, (∀ position ∈ done ++ [state.readOffset],
      addr < position + linkOffset ∨ position + linkOffset + 4 ≤ addr) →
        next.readBuffer addr = file addr)
    (hlinked : ∀ position ∈ done ++ [state.readOffset],
      linkAt next.readBuffer position = linkOf file (done ++ [state.readOffset]) position)
    (hindexLen : next.indexOffset =
      (indexed file (done ++ [state.readOffset])).length * indexEnumLen)
    (hstored : ∀ i (hi : i < (indexed file (done ++ [state.readOffset])).length),
      (IndexStore.read next.indexBuffer (i * indexEnumLen)).flow =
          flowAt file ((indexed file (done ++ [state.readOffset]))[i]) ∧
        (IndexStore.read next.indexBuffer (i * indexEnumLen)).position =
          (indexed file (done ++ [state.readOffset]))[i]) :
    Parsed file (done ++ [state.readOffset]) next where
  ends := by
    have hend := @recordEnd_ge file state.readOffset
    intro position hmem
    rw [hread]
    rcases List.mem_append.mp hmem with hin | hnew
    · have := h.ends position hin
      omega
    · rw [List.mem_singleton.mp hnew]
  apart := by
    refine List.pairwise_append.mpr ⟨h.apart, List.pairwise_singleton _ _, ?_⟩
    intro earlier hearlier later hlater
    rw [List.mem_singleton.mp hlater]
    exact h.ends earlier hearlier
  kept := hkept
  linked := hlinked
  offsetThreshold := by rw [hagg, addPacket_offsetThreshold, h.offsetThreshold]
  tsThreshold := by rw [hagg, addPacket_tsThreshold, h.tsThreshold]
  aggMap := by
    intro flow
    have hflow : (arrivalAt file state.readOffset).flow = flowAt file state.readOffset := rfl
    rw [hagg, addPacket_aggMap, List.map_append, List.map_singleton, latest_append, hflow]
    split_ifs with hsame
    · rw [hsame, Function.update_self]
      rfl
    · rw [Function.update_of_ne (Ne.symm hsame), h.aggMap]
  total := htotal
  indexLen := hindexLen
  stored := hstored

theorem Parsed.lt_readOffset (h : Parsed file done state) :
    ∀ earlier ∈ done, earlier + 16 ≤ state.readOffset := by
  intro earlier hmem
  have hend := @recordEnd_ge file earlier
  have := h.ends earlier hmem
  omega

theorem Parsed.ascending (h : Parsed file done state) :
    (done ++ [state.readOffset]).Pairwise (· < ·) := by
  refine List.pairwise_append.mpr ⟨ascending_of_apart h.apart, List.pairwise_singleton _ _, ?_⟩
  intro earlier hearlier later hlater
  have := h.lt_readOffset earlier hearlier
  rw [List.mem_singleton.mp hlater]
  omega

/-- The links once the packet is read, but not linked. -/
theorem Parsed.linked_read (h : Parsed file done state) :
    ∀ position ∈ done ++ [state.readOffset],
      ¬ Precedes file done position state.readOffset →
        linkAt (readPacket state.readBuffer state.readOffset).1 position =
          linkOf file (done ++ [state.readOffset]) position := by
  intro position hmem hnot
  rcases List.mem_append.mp hmem with hin | hnew
  · have hapart := h.lt_readOffset position hin
    rw [linkOf, nextOf_concat_of_not_precedes h.ascending hin hnot]
    exact (linkAt_write_of_apart (.inl hapart)).trans (h.linked position hin)
  · obtain rfl := List.mem_singleton.mp hnew
    rw [linkOf, nextOf_concat_self h.ascending]
    exact linkAt_write_self (by decide)

theorem Parsed.kept_read (h : Parsed file done state) (addr : ℕ)
    (hout : ∀ position ∈ done ++ [state.readOffset],
      addr < position + linkOffset ∨ position + linkOffset + 4 ≤ addr) :
    (readPacket state.readBuffer state.readOffset).1 addr = file addr := by
  have hself := hout state.readOffset (List.mem_append_right _ (List.mem_singleton_self _))
  have hread : (readPacket state.readBuffer state.readOffset).1 addr = state.readBuffer addr :=
    Memory.write_apply_outside (by rwa [length_toLittleEndian])
  rw [hread]
  exact h.kept addr fun position hmem => hout position (List.mem_append_left _ hmem)

theorem Parsed.unread (h : Parsed file done state) :
    ∀ addr, state.readOffset ≤ addr → state.readBuffer addr = file addr := by
  intro addr hle
  have hlink : linkOffset = 12 := rfl
  refine h.kept addr fun position hmem => .inr ?_
  have := h.lt_readOffset position hmem
  omega

theorem not_indexed_of_precedes {last : ℕ} (hlt : last < position)
    (h : Precedes file done last position) : ¬ Indexed file done position := by
  intro hindexed
  have := hindexed last h.mem hlt h.flow
  have := h.near
  omega

/-- What the aggregator is called with. -/
def added (file : Memory) (state : State) : Option ℕ × PacketAggregator :=
  state.agg.addPacket (flowAt file state.readOffset) state.readOffset
    (timeOf (readHeader file state.readOffset)) bufferSize

/-- The variables after a turn, but for what depends on the link. -/
def advanced (file : Memory) (state : State) : State :=
  { state with
    readBuffer := (readPacket state.readBuffer state.readOffset).1
    agg := (added file state).2
    readOffset := recordEnd file state.readOffset
    totalLen := state.totalLen + (recordEnd file state.readOffset - state.readOffset) }

def linkedTo (file : Memory) (state : State) (last : ℕ) : State :=
  { advanced file state with
    readBuffer := writeBefore (calDiff state.readOffset last % 2 ^ 32) last
      (readPacket state.readBuffer state.readOffset).1 }

def withIndex (file : Memory) (state : State) : State :=
  { advanced file state with
    indexBuffer := (writeIndexToBuffer state.readOffset (flowAt file state.readOffset)
      (timeOf (readHeader file state.readOffset)) state.indexBuffer state.indexOffset).1
    indexOffset := state.indexOffset + indexEnumLen }

/-- A turn, in terms of the file. -/
theorem turn_eq (hunread : ∀ addr, state.readOffset ≤ addr → state.readBuffer addr = file addr)
    (hip : (flowAt file state.readOffset).sourceAddress.length ≠ 0) :
    turn state =
      match (added file state).1 with
      | some last => .ok (linkedTo file state last)
      | none =>
          if state.indexOffset + indexEnumLen > bufferSize then .error 2
          else .ok (withIndex file state) := by
  obtain ⟨hend, hflow, htime⟩ := readPacket_spec hunread
  unfold turn
  simp only [hend, hflow, htime, if_neg hip]
  rfl

theorem Parsed.lt_of_mem (h : Parsed file done state) :
    ∀ earlier ∈ done, earlier < state.readOffset := by
  intro earlier hmem
  have := h.lt_readOffset earlier hmem
  omega

theorem Parsed.total_advanced (h : Parsed file done state) :
    state.totalLen + (recordEnd file state.readOffset - state.readOffset) =
      recordEnd file state.readOffset := by
  have hend := @recordEnd_ge file state.readOffset
  have := h.total
  omega

/-- The packet is linked to the last one of its flow. -/
theorem Parsed.linkedTo (h : Parsed file done state) {last : ℕ}
    (hlast : Precedes file done last state.readOffset) :
    Parsed file (done ++ [state.readOffset]) (linkedTo file state last) := by
  have hapart := h.lt_readOffset last hlast.mem
  have hlink : linkOffset = 12 := rfl
  have hdiff : calDiff state.readOffset last % 2 ^ 32 = state.readOffset - last := by
    have hnear := hlast.near
    have hsize : bufferSize < 2 ^ 32 := by decide
    exact Nat.mod_eq_of_lt (by unfold calDiff; omega)
  have hindexed : indexed file (done ++ [state.readOffset]) = indexed file done := by
    rw [indexed_concat h.ascending,
      if_neg (not_indexed_of_precedes (h.lt_of_mem last hlast.mem) hlast), List.append_nil]
  apply h.concat rfl h.total_advanced rfl
  · intro addr hout
    have hthere := hout last (List.mem_append_left _ hlast.mem)
    have hbefore : (DataHandler.linkedTo file state last).readBuffer addr =
        (readPacket state.readBuffer state.readOffset).1 addr :=
      Memory.write_apply_outside (by rwa [length_toLittleEndian])
    rw [hbefore]
    exact h.kept_read addr hout
  · intro position hmem
    by_cases hsame : position = last
    · rw [hsame, linkOf, nextOf_concat_of_precedes h.ascending hlast, Option.elim_some]
      refine (linkAt_write_self (Nat.mod_lt _ (by decide))).trans hdiff
    · have hnot : ¬ Precedes file done position state.readOffset := by
        intro hother
        rcases Nat.lt_or_gt_of_ne hsame with hlt | hgt
        · exact hother.latest last hlast.mem hlt hlast.flow
        · exact hlast.latest position hother.mem hgt hother.flow
      rw [← h.linked_read position hmem hnot]
      refine linkAt_write_of_apart ?_
      rcases List.mem_append.mp hmem with hin | hnew
      · exact headers_apart h.apart hin hlast.mem hsame
      · rw [List.mem_singleton.mp hnew]
        exact .inr hapart
  · rw [hindexed]
    exact h.indexLen
  · rw [hindexed]
    exact h.stored

/-- The packet is indexed. -/
theorem Parsed.withIndex (h : Parsed file done state) (hpos : state.readOffset < 2 ^ 64)
    (hindexed : Indexed file done state.readOffset) :
    Parsed file (done ++ [state.readOffset]) (withIndex file state) := by
  have hnew : indexed file (done ++ [state.readOffset]) =
      indexed file done ++ [state.readOffset] := by
    rw [indexed_concat h.ascending, if_pos hindexed]
  have hfits := fitsRecord (packetAt file state.readOffset)
  have hlen : indexEnumLen = 72 := rfl
  apply h.concat rfl h.total_advanced rfl h.kept_read
  · intro position hmem
    refine h.linked_read position hmem fun hprecedes => ?_
    exact not_indexed_of_precedes (h.lt_of_mem position hprecedes.mem) hprecedes hindexed
  · rw [hnew, List.length_append, List.length_singleton, Nat.succ_mul, ← h.indexLen]
    rfl
  · rw [hnew]
    intro i hi
    rw [List.length_append, List.length_singleton] at hi
    rcases Nat.lt_or_ge i (indexed file done).length with hlt | hge
    · -- the records before it are not touched
      have hkept : ∀ k < 72, (DataHandler.withIndex file state).indexBuffer
          (i * indexEnumLen + k) = state.indexBuffer (i * indexEnumLen + k) := by
        intro k hk
        refine writeIndexToBuffer_outside hfits (.inl ?_)
        have hnext := Nat.mul_le_mul_right indexEnumLen (Nat.succ_le_of_lt hlt)
        rw [Nat.succ_mul] at hnext
        rw [h.indexLen]
        omega
      rw [List.getElem_append_left hlt, IndexStore.read_congr hkept]
      exact h.stored i hlt
    · obtain rfl : i = (indexed file done).length := by omega
      rw [List.getElem_append_right le_rfl, ← h.indexLen]
      simp only [Nat.sub_self, List.getElem_cons_zero]
      exact read_writeIndexToBuffer state.indexBuffer state.indexOffset hfits hpos

/-! ## The whole file -/

theorem Parsed.start (bytes : List UInt8) : Parsed (contents bytes) [] (start bytes) where
  ends _ hmem := by cases hmem
  apart := List.Pairwise.nil
  kept addr _ := by rw [start_readBuffer]
  linked _ hmem := by cases hmem
  offsetThreshold := rfl
  tsThreshold := rfl
  aggMap _ := rfl
  total := rfl
  indexLen := rfl
  stored _ hi := by cases hi

/-- A packet that is none too many for the index. -/
theorem Parsed.turn (h : Parsed file done state) (hpos : state.readOffset < 2 ^ 64)
    (hip : (flowAt file state.readOffset).sourceAddress.length ≠ 0)
    (hroom : (indexed file (done ++ [state.readOffset])).length * indexEnumLen ≤ bufferSize) :
    ∃ next, turn state = .ok next ∧ next.readOffset = recordEnd file state.readOffset ∧
      Parsed file (done ++ [state.readOffset]) next := by
  rw [turn_eq h.unread hip]
  cases hadded : (added file state).1 with
  | some last =>
      exact ⟨_, rfl, rfl, h.linkedTo ((h.addPacket_eq_some h.lt_of_mem).mp hadded)⟩
  | none =>
      have hindexed := (h.addPacket_eq_none h.lt_of_mem).mp hadded
      have hnext := h.withIndex hpos hindexed
      have hfits : ¬ state.indexOffset + indexEnumLen > bufferSize := by
        have := hnext.indexLen
        change state.indexOffset + indexEnumLen = _ at this
        omega
      exact ⟨_, if_neg hfits, rfl, hnext⟩

/-- The loop goes through all that is left. -/
theorem Parsed.run {len : ℕ} (hlen : len < 2 ^ 64) :
    ∀ {todo done : List ℕ} {state : State}, Parsed file done state →
      Records file len state.readOffset todo →
      (∀ position ∈ todo, (flowAt file position).sourceAddress.length ≠ 0) →
      (indexed file (done ++ todo)).length * indexEnumLen ≤ bufferSize → ∀ {fuel : ℕ},
      todo.length < fuel → ∃ final, run len fuel state = some (.ok final) ∧
        Parsed file (done ++ todo) final := by
  intro todo
  induction todo with
  | nil =>
      intro done state h hrecords _ _ fuel hfuel
      obtain ⟨fuel, rfl⟩ := Nat.exists_eq_succ_of_ne_zero (Nat.ne_of_gt hfuel)
      have hend : state.readOffset = len := by
        cases hrecords
        rfl
      refine ⟨state, ?_, by rwa [List.append_nil]⟩
      rw [DataHandler.run, if_pos (by rw [h.total, hend])]
  | cons position rest ih =>
      intro done state h hrecords hip hroom fuel hfuel
      obtain ⟨fuel, rfl⟩ := Nat.exists_eq_succ_of_ne_zero (Nat.ne_of_gt (Nat.zero_lt_of_lt hfuel))
      obtain ⟨rfl, hlt, htail⟩ : position = state.readOffset ∧ state.readOffset < len ∧
          Records file len (recordEnd file state.readOffset) rest := by
        cases hrecords with
        | more hlt tail => exact ⟨rfl, hlt, tail⟩
      have hsplit : done ++ state.readOffset :: rest = done ++ [state.readOffset] ++ rest := by
        rw [List.append_assoc, List.singleton_append]
      rw [hsplit] at hroom ⊢
      have hascending : (done ++ [state.readOffset] ++ rest).Pairwise (· < ·) := by
        have hend := @recordEnd_ge file state.readOffset
        refine List.pairwise_append.mpr ⟨h.ascending, ascending_of_apart htail.apart, ?_⟩
        intro earlier hearlier later hlater
        have hlater := (htail.mem later hlater).1
        rcases List.mem_append.mp hearlier with hin | hnew
        · have := h.lt_of_mem earlier hin
          omega
        · rw [List.mem_singleton.mp hnew]
          omega
      have hroomNow : (indexed file (done ++ [state.readOffset])).length * indexEnumLen ≤
          bufferSize := by
        rw [indexed_append hascending, List.length_append, Nat.add_mul] at hroom
        omega
      obtain ⟨next, hturn, hread, hnext⟩ := h.turn (by omega)
        (hip _ List.mem_cons_self) hroomNow
      rw [← hread] at htail
      obtain ⟨final, hrun, hfinal⟩ := ih hnext htail
        (fun other hother => hip other (List.mem_cons_of_mem _ hother)) hroom
        (Nat.lt_of_succ_lt_succ hfuel)
      refine ⟨final, ?_, hfinal⟩
      have hgo : ¬ state.totalLen ≥ len := by
        rw [h.total]
        omega
      rw [DataHandler.run, if_neg hgo, hturn]
      exact hrun

/-! ## The links as a worklist -/

theorem Capture.apart (capture : Capture) : capture.positions.Pairwise fun first second =>
    recordEnd (contents capture.bytes) first ≤ second := capture.records.apart

theorem Capture.ascending (capture : Capture) : capture.positions.Pairwise (· < ·) :=
  ascending_of_apart capture.apart

/-- The packets that are indexed are nobody's next one. -/
theorem indexed_iff (hascending : positions.Pairwise (· < ·)) (hmem : position ∈ positions) :
    Indexed file positions position ↔
      ∀ earlier ∈ positions, nextOf file positions earlier ≠ some position := by
  constructor
  · intro hindexed earlier hearlier hnext
    obtain ⟨⟨-, hlt, hflow, -⟩, hnear⟩ := (nextOf_eq_some hascending).mp hnext
    have := hindexed earlier hearlier hlt hflow.symm
    omega
  · intro hnobody earlier hearlier hlt hflow
    by_contra hnear
    -- the last packet of the flow before this one would be followed by it
    obtain ⟨last, hlast, hgreatest⟩ := (positions.toFinset.filter fun q =>
      q < position ∧ flowAt file q = flowAt file position).exists_max_image id
      ⟨earlier, Finset.mem_filter.mpr ⟨List.mem_toFinset.mpr hearlier, hlt, hflow⟩⟩
    obtain ⟨hin, hltLast, hflowLast⟩ := Finset.mem_filter.mp hlast
    have hle := hgreatest earlier
      (Finset.mem_filter.mpr ⟨List.mem_toFinset.mpr hearlier, hlt, hflow⟩)
    simp only [id_eq] at hle
    refine hnobody last (List.mem_toFinset.mp hin) ((nextOf_eq_some hascending).mpr
      ⟨⟨hmem, hltLast, hflowLast.symm, fun other hother hbehind hsame => ?_⟩, by omega⟩)
    by_contra hbefore
    have := hgreatest other (Finset.mem_filter.mpr ⟨List.mem_toFinset.mpr hother, by omega,
      hsame.trans hflowLast⟩)
    simp only [id_eq] at this
    omega

/-- Of the packets of some flows, the heads are those that are indexed. -/
theorem heads_nextOf (hascending : positions.Pairwise (· < ·)) (select : FlowMetadata → Bool) :
    Worklist.heads (nextOf file positions) (positions.filter fun p => select (flowAt file p)) =
      (indexed file positions).filter fun p => select (flowAt file p) := by
  unfold Worklist.heads indexed
  rw [List.filter_filter, List.filter_filter]
  refine List.filter_congr fun p hp => ?_
  rw [Bool.eq_iff_iff, Bool.and_eq_true, Bool.and_eq_true, decide_eq_true_eq, decide_eq_true_eq,
    and_comm, indexed_iff hascending hp]
  refine and_congr_right fun hselect => ⟨fun h earlier hearlier hnext => ?_, ?_⟩
  · obtain ⟨⟨-, -, hflow, -⟩, -⟩ := (nextOf_eq_some hascending).mp hnext
    rw [hflow] at hselect
    exact h earlier (List.mem_filter.mpr ⟨hearlier, hselect⟩) hnext
  · exact fun h earlier hearlier => h earlier (List.mem_filter.mp hearlier).1

/-- The links lead from packet to packet of one flow. -/
theorem linked_nextOf (hascending : positions.Pairwise (· < ·)) (select : FlowMetadata → Bool) :
    Worklist.Linked (nextOf file positions)
      (positions.filter fun p => select (flowAt file p)) where
  later := by
    intro entry hentry next hnext
    obtain ⟨⟨hmem, hlt, hflow, -⟩, -⟩ := (nextOf_eq_some hascending).mp hnext
    rw [List.mem_filter] at hentry ⊢
    exact ⟨hlt, hmem, by rw [hflow]; exact hentry.2⟩
  unique := by
    intro first hfirst second hsecond next hnext hnext'
    obtain ⟨⟨-, hlt, hflow, hleast⟩, -⟩ := (nextOf_eq_some hascending).mp hnext
    obtain ⟨⟨-, hlt', hflow', hleast'⟩, -⟩ := (nextOf_eq_some hascending).mp hnext'
    have hfirst := (List.mem_filter.mp hfirst).1
    have hsecond := (List.mem_filter.mp hsecond).1
    have hsame : flowAt file second = flowAt file first := hflow'.symm.trans hflow
    -- the one before the other would be followed by it
    rcases Nat.lt_trichotomy first second with hbefore | heq | hbehind
    · have := hleast second hsecond hbefore hsame
      omega
    · exact heq
    · have := hleast' first hfirst hbehind hsame.symm
      omega

/-! ## On the disk -/

/-- The packet that is read after one, by the link in its header. -/
def nextOnDisk (disk : Memory) (position : ℕ) : Option ℕ :=
  let header := readHeader disk (dataOffset + position)
  if header.flowNextDiff = 2 ^ 32 - 1 ∨ header.flowNextDiff = 0 then none
  else some (position + header.flowNextDiff)

/-- The record with a number in the index on the disk. -/
def indexOnDisk (disk : Memory) (i : ℕ) : IndexStore :=
  IndexStore.read disk (indexOffset + i * indexEnumLen)

/-- `main` comes to its end, with all packets parsed. -/
theorem exists_main (capture : Capture) (disk : Memory) (hlen : capture.bytes.length < 2 ^ 64)
    (hindex : (indexed (contents capture.bytes) capture.positions).length * indexEnumLen ≤
      bufferSize) :
    ∃ final, main capture.bytes disk = some (0, writeOut disk capture.bytes.length final) ∧
      Parsed (contents capture.bytes) capture.positions final := by
  have hcount := capture.records.start_le
  have hroom : (indexed (contents capture.bytes) ([] ++ capture.positions)).length *
      indexEnumLen ≤ bufferSize := hindex
  have hfuel : capture.positions.length < capture.bytes.length + 1 := by omega
  obtain ⟨final, hrun, hfinal⟩ := (Parsed.start capture.bytes).run hlen capture.records capture.ip
    hroom hfuel
  exact ⟨final, by rw [main, hrun, Option.map_some], hfinal⟩

theorem writeOut_data {disk : Memory} {len addr : ℕ} (hlen : len ≤ 16 * bufferSize)
    (haddr : addr < len) :
    writeOut disk len state (dataOffset + addr) = state.readBuffer addr := by
  have hdata : dataOffset = bufferSize * 32 := rfl
  have hindex : indexOffset = bufferSize * 48 := rfl
  have hlength : addr < (state.readBuffer.read 0 len).length := by rwa [Memory.length_read]
  rw [writeOut, copyPieces_eq, Memory.write_apply_outside (.inl (by omega)),
    Memory.write_apply_inside _ _ _ hlength, Memory.getElem_read, Nat.zero_add]

theorem writeOut_index {disk : Memory} {len addr : ℕ} (haddr : addr < state.indexOffset) :
    writeOut disk len state (indexOffset + addr) = state.indexBuffer addr := by
  have hlength : addr < (state.indexBuffer.read 0 state.indexOffset).length := by
    rwa [Memory.length_read]
  rw [writeOut, Memory.write_apply_inside _ _ _ hlength, Memory.getElem_read, Nat.zero_add]

section Stored

variable {disk : Memory} {len : ℕ}

/-- The header of a packet on the disk is the file's, but for the link. -/
theorem Parsed.readHeader_disk (h : Parsed file positions state) (hlen : len ≤ 16 * bufferSize)
    (hmem : position ∈ positions) (hend : recordEnd file position ≤ len) :
    readHeader (writeOut disk len state) (dataOffset + position) =
      { readHeader file position with flowNextDiff := linkOf file positions position } := by
  have hrecord := @recordEnd_ge file position
  have hlinkOffset : linkOffset = 12 := rfl
  have hbuffer : ∀ {src}, src + 4 ≤ 16 →
      (writeOut disk len state).read (dataOffset + position + src) 4 =
        state.readBuffer.read (position + src) 4 := by
    intro src hsrc
    refine Memory.read_congr fun k hk => ?_
    rw [Nat.add_assoc, Nat.add_assoc, writeOut_data hlen (by omega), Nat.add_assoc]
  have hfile : ∀ {src}, src + 4 ≤ 12 →
      state.readBuffer.read (position + src) 4 = file.read (position + src) 4 := by
    intro src hsrc
    refine Memory.read_congr fun k hk => h.kept _ fun other hother => ?_
    by_cases hsame : position = other
    · omega
    · have := headers_apart h.apart hmem hother hsame
      omega
  have hlink := h.linked position hmem
  rw [linkAt] at hlink
  have hfirst := (@hbuffer 0 (by decide)).trans (@hfile 0 (by decide))
  rw [Nat.add_zero, Nat.add_zero] at hfirst
  unfold readHeader
  rw [hfirst, hbuffer (by decide), hbuffer (by decide), hbuffer (by decide), hfile (by decide),
    hfile (by decide), ← hlink]
  rfl

theorem Parsed.nextOnDisk_eq (h : Parsed file positions state) (hlen : len ≤ 16 * bufferSize)
    (hmem : position ∈ positions) (hend : recordEnd file position ≤ len) :
    nextOnDisk (writeOut disk len state) position = nextOf file positions position := by
  have hsize : bufferSize < 2 ^ 32 - 1 := by decide
  unfold nextOnDisk
  simp only [h.readHeader_disk hlen hmem hend, linkOf]
  cases hnext : nextOf file positions position with
  | none => rw [Option.elim_none, if_pos (.inl rfl)]
  | some later =>
      obtain ⟨⟨-, hlt, -, -⟩, hnear⟩ :=
        (nextOf_eq_some (ascending_of_apart h.apart)).mp hnext
      rw [Option.elim_some, if_neg (by omega), Nat.add_sub_cancel' hlt.le]

theorem Parsed.index_disk (h : Parsed file positions state) {i : ℕ}
    (hi : i < (indexed file positions).length) :
    (indexOnDisk (writeOut disk len state) i).flow = flowAt file ((indexed file positions)[i]) ∧
      (indexOnDisk (writeOut disk len state) i).position = (indexed file positions)[i] := by
  have hindexEnumLen : indexEnumLen = 72 := rfl
  have hbytes : ∀ k < 72, writeOut disk len state (indexOffset + i * indexEnumLen + k) =
      state.indexBuffer (i * indexEnumLen + k) := by
    intro k hk
    have hnext := Nat.mul_le_mul_right indexEnumLen (Nat.succ_le_of_lt hi)
    rw [Nat.succ_mul, ← h.indexLen] at hnext
    rw [Nat.add_assoc, writeOut_index (by omega)]
  rw [indexOnDisk, IndexStore.read_congr hbytes]
  exact h.stored i hi

/-- Chains of links are chains on the disk. -/
theorem Parsed.chain_disk (h : Parsed file positions state) (hlen : len ≤ 16 * bufferSize)
    (hends : ∀ position ∈ positions, recordEnd file position ≤ len) {chain : List ℕ}
    (hchain : Worklist.Chain (nextOf file positions) position chain)
    (hmem : position ∈ positions) :
    Worklist.Chain (nextOnDisk (writeOut disk len state)) position chain := by
  induction hchain with
  | last hnone => exact .last ((h.nextOnDisk_eq hlen hmem (hends _ hmem)).trans hnone)
  | more hsome _ ih =>
      have hnext := (nextOf_eq_some (ascending_of_apart h.apart)).mp hsome
      exact .more ((h.nextOnDisk_eq hlen hmem (hends _ hmem)).trans hsome) (ih hnext.1.1)

/-- From the indexed packets of some flows the links lead through all their packets. -/
theorem Parsed.chains_disk (h : Parsed file positions state) (hlen : len ≤ 16 * bufferSize)
    (hends : ∀ position ∈ positions, recordEnd file position ≤ len)
    (select : FlowMetadata → Bool) :
    ∃ chains, List.Forall₂ (Worklist.Chain (nextOnDisk (writeOut disk len state)))
        ((indexed file positions).filter fun p => select (flowAt file p)) chains ∧
      (positions.filter fun p => select (flowAt file p)).Perm chains.flatten ∧
      ∀ chain ∈ chains, chain.Sublist (positions.filter fun p => select (flowAt file p)) := by
  have hascending := ascending_of_apart h.apart
  obtain ⟨chains, hforall, hperm, hsublists⟩ := (@linked_nextOf file positions hascending
    select).chains (hascending.filter _)
  rw [heads_nextOf hascending] at hforall
  have hmem : ∀ p ∈ (indexed file positions).filter fun p => select (flowAt file p),
      p ∈ positions := fun p hp => (List.mem_filter.mp (List.mem_filter.mp hp).1).1
  refine ⟨chains, ?_, hperm, hsublists⟩
  exact ((List.forall₂_and_left _ _).mpr ⟨hmem, hforall⟩).imp fun _ _ h' =>
    h.chain_disk hlen hends h'.2 h'.1

end Stored

/-- A capture of IP packets comes to the disk as a whole, the bytes unchanged but for the
links.  The index has the packets with none of their flow near before them, and from those
of some flows the links lead to every packet of these flows once. -/
theorem capture_chained (capture : Capture) (disk : Memory)
    (hlen : capture.bytes.length ≤ 16 * bufferSize)
    (hindex : (indexed (contents capture.bytes) capture.positions).length * indexEnumLen ≤
      bufferSize) :
    ∃ stored, main capture.bytes disk = some (0, stored) ∧
      (∀ i (hi : i < (indexed (contents capture.bytes) capture.positions).length),
        (indexOnDisk stored i).flow = flowAt (contents capture.bytes)
            ((indexed (contents capture.bytes) capture.positions)[i]) ∧
          (indexOnDisk stored i).position =
            (indexed (contents capture.bytes) capture.positions)[i]) ∧
      (∀ select : FlowMetadata → Bool, ∃ chains,
        List.Forall₂ (Worklist.Chain (nextOnDisk stored))
          ((indexed (contents capture.bytes) capture.positions).filter fun p =>
            select (flowAt (contents capture.bytes) p)) chains ∧
        (capture.positions.filter fun p => select (flowAt (contents capture.bytes) p)).Perm
          chains.flatten ∧
        ∀ chain ∈ chains, chain.Sublist
          (capture.positions.filter fun p => select (flowAt (contents capture.bytes) p))) ∧
      ∀ addr < capture.bytes.length,
        (∀ p ∈ capture.positions, addr < p + linkOffset ∨ p + linkOffset + 4 ≤ addr) →
          stored (dataOffset + addr) = contents capture.bytes addr := by
  have hsize : 16 * bufferSize < 2 ^ 64 := by decide
  obtain ⟨final, hmain, hfinal⟩ := exists_main capture disk (by omega) hindex
  have hends : ∀ p ∈ capture.positions,
      recordEnd (contents capture.bytes) p ≤ capture.bytes.length :=
    fun p hp => (capture.records.mem p hp).2
  refine ⟨_, hmain, fun i hi => hfinal.index_disk hi,
    fun select => hfinal.chains_disk hlen hends select, fun addr haddr hout => ?_⟩
  rw [writeOut_data hlen haddr]
  exact hfinal.kept addr hout

/-- A record of a TCP packet from a port, as it lies in a capture file. -/
def tcpRecord (port : UInt8) : List UInt8 :=
  [0, 0, 0, 0, 0, 0, 0, 0, 38, 0, 0, 0, 38, 0, 0, 0] ++ List.replicate 14 0 ++ [0x45] ++
    List.replicate 11 0 ++ [10, 0, 0, 1, 10, 0, 0, 2, 0, port, 0, 80]

/-- Two packets of one flow, and one of another between them. -/
def threeRecords : List UInt8 :=
  List.replicate 24 0 ++ tcpRecord 1 ++ tcpRecord 2 ++ tcpRecord 1

theorem records_threeRecords :
    Records (contents threeRecords) threeRecords.length fileHeaderLen [24, 78, 132] := by
  have hfirst : recordEnd (contents threeRecords) 24 = 78 := by decide +kernel
  have hsecond : recordEnd (contents threeRecords) 78 = 132 := by decide +kernel
  have hthird : recordEnd (contents threeRecords) 132 = 186 := by decide +kernel
  have hlength : threeRecords.length = 186 := by decide +kernel
  rw [hlength]
  exact .cons (by decide) hfirst (.cons (by decide) hsecond (.cons (by decide) hthird .done))

def threePackets : Capture where
  bytes := threeRecords
  positions := [24, 78, 132]
  records := records_threeRecords
  ip := by decide +kernel

theorem capture_chained_threePackets : ∃ stored, main threeRecords (fun _ => 0) =
    some (0, stored) ∧ ∃ chains, List.Forall₂ (Worklist.Chain (nextOnDisk stored)) [24, 78] chains ∧
      [24, 78, 132].Perm chains.flatten := by
  obtain ⟨stored, hmain, -, hchains, -⟩ := capture_chained threePackets (fun _ => 0)
    (by decide +kernel) (by decide +kernel)
  obtain ⟨chains, hforall, hperm, -⟩ := hchains fun _ => true
  have hindexed : indexed (contents threeRecords) [24, 78, 132] = [24, 78] := by decide +kernel
  have hpositions : threePackets.positions = [24, 78, 132] := rfl
  have hbytes : threePackets.bytes = threeRecords := rfl
  rw [hbytes] at hmain
  rw [List.filter_true, hpositions, hbytes, hindexed] at hforall
  rw [List.filter_true, hpositions] at hperm
  exact ⟨stored, hmain, chains, hforall, hperm⟩

end DataHandler

end TrafficDatabase
