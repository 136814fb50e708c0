import Mathlib.Data.List.Chain
import TrafficDatabase.Data.DPDKReader

/-!
# Distances between the packets of a flow

`addPacket` works on offsets, that is on positions reduced by the size of the
disk.  From two of them it gets the distance of the positions up to whole laps
(`orderedOffset_sub_mod`), and the map keeps a flow however long it is idle.  So a
packet more than a lap after the one before it is linked like one that is near
where the rest of the distance is within the threshold (`matches_iff`).

Linked or not, each packet of a flow goes to the one directly before it, so the
packets of a flow fall into chains (`chains`).
-/

namespace TrafficDatabase

namespace PacketAggregator

/-- What the two offsets say: the distance, with whole laps taken off. -/
theorem orderedOffset_sub_mod {size first second : ℕ} (hsize : 0 < size) (hlt : first < second) :
    orderedOffset (second % size) (first % size) size - first % size =
      (second - first - 1) % size + 1 := by
  obtain ⟨distance, rfl⟩ := Nat.exists_eq_add_of_lt hlt
  have hrest : first + distance + 1 - first - 1 = distance := by omega
  have hfirst := Nat.mod_lt first hsize
  have hdistance := Nat.mod_lt distance hsize
  have hsum : (first + distance + 1) % size = (first % size + distance % size + 1) % size := by
    simp only [Nat.add_mod, Nat.mod_mod]
  rw [hrest, hsum, orderedOffset]
  generalize first % size = a at hfirst ⊢
  generalize distance % size = b at hdistance ⊢
  by_cases hover : a + b + 1 < size
  · rw [Nat.mod_eq_of_lt hover, if_neg (by omega)]
    omega
  · rw [Nat.mod_eq_sub_mod (by omega), Nat.mod_eq_of_lt (by omega), if_pos (by omega)]
    omega

/-- A call of `addPacket`, with the position before it is reduced. -/
structure Arrival where
  flow : FlowMetadata
  position : ℕ
  ts : ℕ
deriving DecidableEq, Repr

variable (size threshold : ℕ)

/-- The aggregator of a reader after some calls. -/
def after (calls : List Arrival) : PacketAggregator :=
  calls.foldl (fun agg call => (agg.addPacket call.flow (call.position % size) call.ts size).2)
    (new threshold u64Max)

/-- What a call returns after others. -/
def result (before : List Arrival) (call : Arrival) : Option ℕ :=
  ((after size threshold before).addPacket call.flow (call.position % size) call.ts size).1

/-- The last packet of a flow. -/
def latest (flow : FlowMetadata) (calls : List Arrival) : Option Arrival :=
  (calls.filter fun call => call.flow = flow).getLast?

variable {size threshold} {before : List Arrival} {call : Arrival}

theorem latest_append (flow : FlowMetadata) (calls : List Arrival) (call : Arrival) :
    latest flow (calls ++ [call]) = if call.flow = flow then some call else latest flow calls := by
  unfold latest
  rw [List.filter_append]
  split_ifs with hsame
  · simp [hsame]
  · simp [hsame]

/-- The map holds the last packet of every flow. -/
theorem after_spec (calls : List Arrival) :
    (after size threshold calls).offsetThreshold = threshold ∧
      (after size threshold calls).tsThreshold = u64Max ∧
      ∀ flow, (after size threshold calls).aggMap flow =
        (latest flow calls).map fun call => ⟨call.position % size, call.ts⟩ := by
  induction calls using List.reverseRecOn with
  | nil => exact ⟨rfl, rfl, fun _ => rfl⟩
  | append_singleton calls call ih =>
      obtain ⟨hoffset, hts, hmap⟩ := ih
      have hstep : after size threshold (calls ++ [call]) =
          ((after size threshold calls).addPacket call.flow (call.position % size) call.ts
            size).2 := by
        unfold after
        rw [List.foldl_append, List.foldl_cons, List.foldl_nil]
      rw [hstep, addPacket_offsetThreshold, addPacket_tsThreshold, addPacket_aggMap]
      refine ⟨hoffset, hts, fun flow => ?_⟩
      rw [latest_append]
      split_ifs with hsame
      · rw [hsame, Function.update_self]
        rfl
      · rw [Function.update_of_ne (Ne.symm hsame), hmap]

/-- A call returns the offset of the packet before it, where the offsets are not too
far apart. -/
theorem result_eq_some_iff {last : ℕ} : result size threshold before call = some last ↔
    ∃ preceding, latest call.flow before = some preceding ∧
      orderedOffset (call.position % size) (preceding.position % size) size -
        preceding.position % size ≤ threshold ∧ last = preceding.position % size := by
  obtain ⟨hoffset, hts, hmap⟩ := @after_spec size threshold before
  have htime : ∀ n, ¬ n % 2 ^ 64 > u64Max := by
    intro n
    have := Nat.mod_lt n (Nat.two_pow_pos 64)
    unfold u64Max
    omega
  rw [result, addPacket_fst_eq_some, hmap]
  cases latest call.flow before with
  | none => simp
  | some preceding =>
      simp only [Option.map_some, Option.some.injEq, exists_eq_left', Expired, hoffset, hts,
        htime, or_false, not_lt, gt_iff_lt]
      exact and_congr_right fun _ => eq_comm

theorem latest_eq_some {flow : FlowMetadata} {calls : List Arrival} {preceding : Arrival}
    (h : latest flow calls = some preceding) : preceding ∈ calls ∧ preceding.flow = flow := by
  have hmem := List.mem_of_getLast? h
  rw [List.mem_filter, decide_eq_true_eq] at hmem
  exact hmem

theorem latest_eq_none {flow : FlowMetadata} {calls : List Arrival} {earlier : Arrival}
    (h : latest flow calls = none) (hmem : earlier ∈ calls) : earlier.flow ≠ flow := by
  intro hflow
  rw [latest, List.getLast?_eq_none_iff, List.filter_eq_nil_iff] at h
  exact h earlier hmem (decide_eq_true hflow)

/-- No packet of the flow is behind the latest one. -/
theorem position_le_latest {flow : FlowMetadata} {calls : List Arrival}
    {preceding earlier : Arrival}
    (hincreasing : calls.Pairwise fun first second => first.position < second.position)
    (h : latest flow calls = some preceding) (hmem : earlier ∈ calls)
    (hflow : earlier.flow = flow) : earlier.position ≤ preceding.position := by
  induction calls using List.reverseRecOn with
  | nil => cases hmem
  | append_singleton calls call ih =>
      rw [List.pairwise_append] at hincreasing
      rw [latest_append] at h
      split_ifs at h with hsame
      · obtain rfl := Option.some.inj h
        rcases List.mem_append.mp hmem with hbefore | hlast
        · exact (hincreasing.2.2 earlier hbefore call (List.mem_singleton_self call)).le
        · rw [List.mem_singleton.mp hlast]
      · rcases List.mem_append.mp hmem with hbefore | hlast
        · exact ih hincreasing.1 h hbefore
        · rw [List.mem_singleton.mp hlast] at hflow
          exact absurd hflow hsame

/-! ## When a call says the distance -/

/-- The call links the packet if and only if one of its flow is near, and then to
the last one, at the distance `calDiff` gives. -/
structure Matches (cfg : ReaderConfig) (threshold : ℕ) (before : List Arrival) (call : Arrival) :
    Prop where
  linked_iff : (result cfg.diskSize threshold before call).isSome ↔
    ∃ earlier ∈ before, earlier.flow = call.flow ∧
      call.position - earlier.position ≤ threshold
  last_eq : ∀ last, result cfg.diskSize threshold before call = some last →
    ∃ preceding, latest call.flow before = some preceding ∧
      last = preceding.position % cfg.diskSize ∧
      DPDKReader.calDiff cfg (call.position % cfg.diskSize) last =
        call.position - preceding.position

/-- The packet before it is at most a lap away, or looks too far away all the same. -/
def WithinLap (cfg : ReaderConfig) (threshold : ℕ) (before : List Arrival) (call : Arrival) :
    Prop :=
  ∀ preceding, latest call.flow before = some preceding →
    call.position - preceding.position ≤ cfg.diskSize ∨
      threshold < (call.position - preceding.position - 1) % cfg.diskSize + 1

variable {cfg : ReaderConfig}

theorem calDiff_mod {first second : ℕ} (hlt : first < second)
    (hlap : second - first < cfg.diskSize) :
    DPDKReader.calDiff cfg (second % cfg.diskSize) (first % cfg.diskSize) = second - first := by
  have hsize : 0 < cfg.diskSize := by omega
  have hfirst := Nat.mod_lt first hsize
  obtain ⟨distance, rfl⟩ := Nat.exists_eq_add_of_le hlt.le
  rw [Nat.add_sub_cancel_left] at hlap ⊢
  rw [DPDKReader.calDiff, ← Nat.mod_add_mod]
  generalize first % cfg.diskSize = a at hfirst ⊢
  by_cases hover : a + distance < cfg.diskSize
  · have hback : a + distance + cfg.diskSize - a = distance + cfg.diskSize := by omega
    rw [Nat.mod_eq_of_lt hover, hback, Nat.add_mod_right, Nat.mod_eq_of_lt hlap]
  · have hmod : (a + distance) % cfg.diskSize = a + distance - cfg.diskSize := by
      rw [Nat.mod_eq_sub_mod (by omega), Nat.mod_eq_of_lt (by omega)]
    have hback : a + distance - cfg.diskSize + cfg.diskSize - a = distance := by omega
    rw [hmod, hback, Nat.mod_eq_of_lt hlap]

theorem result_of_none (h : latest call.flow before = none) :
    result size threshold before call = none := by
  rw [Option.eq_none_iff_forall_ne_some]
  intro last hsome
  obtain ⟨preceding, hpreceding, -⟩ := result_eq_some_iff.mp hsome
  rw [h] at hpreceding
  cases hpreceding

/-- The packet is linked by what is left of the distance. -/
theorem result_of_some {preceding : Arrival} (hsize : 0 < size)
    (h : latest call.flow before = some preceding) (hlt : preceding.position < call.position)
    (last : ℕ) : result size threshold before call = some last ↔
      (call.position - preceding.position - 1) % size + 1 ≤ threshold ∧
        last = preceding.position % size := by
  rw [result_eq_some_iff, h]
  simp only [Option.some.injEq, exists_eq_left', orderedOffset_sub_mod hsize hlt]

/-- If any packet of the flow is near, the last one is. -/
theorem near_iff {preceding : Arrival}
    (hincreasing : before.Pairwise fun first second => first.position < second.position)
    (h : latest call.flow before = some preceding) :
    (∃ earlier ∈ before, earlier.flow = call.flow ∧
        call.position - earlier.position ≤ threshold) ↔
      call.position - preceding.position ≤ threshold := by
  constructor
  · rintro ⟨earlier, hearlier, hsame, hle⟩
    have := position_le_latest hincreasing h hearlier hsame
    omega
  · exact fun hle => ⟨preceding, (latest_eq_some h).1, (latest_eq_some h).2, hle⟩

/-- A call says the distance exactly where that is within a lap, or what is left of
it is not within the threshold. -/
theorem matches_iff (hthreshold : threshold < cfg.diskSize)
    (hincreasing : (before ++ [call]).Pairwise fun first second =>
      first.position < second.position) :
    Matches cfg threshold before call ↔ WithinLap cfg threshold before call := by
  have hsize : 0 < cfg.diskSize := by omega
  rw [List.pairwise_append] at hincreasing
  obtain ⟨hbefore, -, hlast⟩ := hincreasing
  unfold WithinLap
  cases hlatest : latest call.flow before with
  | none =>
      have hnone := @result_of_none cfg.diskSize threshold before call hlatest
      refine iff_of_true ⟨?_, fun last hsome => ?_⟩ (fun preceding h => by cases h)
      · rw [hnone]
        refine iff_of_false Bool.false_ne_true ?_
        rintro ⟨earlier, hmem, hflow, -⟩
        exact latest_eq_none hlatest hmem hflow
      · rw [hnone] at hsome
        cases hsome
  | some preceding =>
      have hlt : preceding.position < call.position :=
        hlast preceding (latest_eq_some hlatest).1 call (List.mem_singleton_self call)
      have hresult := @result_of_some cfg.diskSize threshold before call preceding hsize hlatest hlt
      have hlinked : (result cfg.diskSize threshold before call).isSome ↔
          (call.position - preceding.position - 1) % cfg.diskSize + 1 ≤ threshold := by
        rw [Option.isSome_iff_exists]
        simp only [hresult]
        exact ⟨fun ⟨_, h, _⟩ => h, fun h => ⟨_, h, rfl⟩⟩
      -- within a lap of the disk the remainder is the distance itself
      have hlap : call.position - preceding.position ≤ cfg.diskSize →
          (call.position - preceding.position - 1) % cfg.diskSize + 1 =
            call.position - preceding.position := by
        intro hle
        rw [Nat.mod_eq_of_lt (by omega)]
        omega
      have hle := Nat.mod_le (call.position - preceding.position - 1) cfg.diskSize
      simp only [Option.some.injEq, forall_eq']
      constructor
      · intro h
        have hiff := h.linked_iff
        rw [hlinked, near_iff hbefore hlatest] at hiff
        by_contra hnot
        rw [not_or, not_le, not_lt] at hnot
        have := hiff.mp hnot.2
        omega
      · intro h
        refine ⟨?_, fun last hsome => ?_⟩
        · rw [hlinked, near_iff hbefore hlatest]
          rcases h with hwithin | hfar
          · rw [hlap hwithin]
          · omega
        · obtain ⟨hrest, rfl⟩ := (hresult last).mp hsome
          refine ⟨preceding, hlatest, rfl, calDiff_mod hlt ?_⟩
          rcases h with hwithin | hfar
          · have := hlap hwithin
            omega
          · omega

/-! ## Chains -/

variable (size threshold) in
/-- The calls with what they return. -/
def withResults (before : List Arrival) : List Arrival → List (Arrival × Option ℕ)
  | [] => []
  | call :: rest =>
      (call, result size threshold before call) :: withResults (before ++ [call]) rest

/-- The second packet is linked to the first. -/
def Linked (size : ℕ) (first second : Arrival × Option ℕ) : Prop :=
  second.2 = some (first.1.position % size)

/-- The first packet is not linked, and each other one is to the one before it. -/
def Headed (size : ℕ) : List (Arrival × Option ℕ) → Prop
  | [] => False
  | head :: rest => head.2 = none ∧ List.IsChain (Linked size) (head :: rest)

/-- What the rest of a sequence adds to the packets of a flow: more of the chain the
last packet is in, and then chains. -/
theorem chains_from (flow : FlowMetadata) (calls before : List Arrival) :
    ∃ (cont : List (Arrival × Option ℕ)) (chains : List (List (Arrival × Option ℕ))),
      cont ++ chains.flatten =
        (withResults size threshold before calls).filter (fun call => call.1.flow = flow) ∧
      (∀ chain ∈ chains, Headed size chain) ∧
      (∀ preceding, latest flow before = some preceding → ∀ last,
        List.IsChain (Linked size) ((preceding, last) :: cont)) ∧
      (latest flow before = none → cont = []) := by
  induction calls generalizing before with
  | nil =>
      refine ⟨[], [], rfl, ?_, fun _ _ _ => List.isChain_singleton _, fun _ => rfl⟩
      intro chain hchain
      cases hchain
  | cons call rest ih =>
      obtain ⟨cont, chains, hsplit, hheaded, hlinked, hnone⟩ := ih (before ++ [call])
      rw [latest_append] at hlinked hnone
      rw [withResults, List.filter_cons]
      by_cases hsame : call.flow = flow
      · rw [if_pos hsame] at hlinked hnone
        rw [if_pos (decide_eq_true hsame), ← hsplit]
        have hchain := hlinked call rfl (result size threshold before call)
        cases hresult : result size threshold before call with
        | none =>
            rw [hresult] at hchain
            refine ⟨[], ((call, none) :: cont) :: chains, rfl, ?_,
              fun _ _ _ => List.isChain_singleton _, fun _ => rfl⟩
            intro chain hmem
            rcases List.mem_cons.mp hmem with rfl | hmem
            · exact ⟨rfl, hchain⟩
            · exact hheaded chain hmem
        | some last =>
            rw [hresult] at hchain
            obtain ⟨preceding, hlatest, -, rfl⟩ := result_eq_some_iff.mp hresult
            rw [hsame] at hlatest
            refine ⟨(call, _) :: cont, chains, rfl, hheaded, ?_, ?_⟩
            · intro other hother last
              rw [hlatest] at hother
              obtain rfl := Option.some.inj hother
              exact List.isChain_cons_cons.mpr ⟨rfl, hchain⟩
            · intro habsurd
              rw [hlatest] at habsurd
              cases habsurd
      · rw [if_neg hsame] at hlinked hnone
        rw [if_neg (by simpa using hsame)]
        exact ⟨cont, chains, hsplit, hheaded, hlinked, hnone⟩

/-- On packets in the order of their positions a call says the distance exactly where
that is within a lap or looks too far away all the same, and the packets of every
flow fall into chains of which the first packet alone is not linked. -/
theorem aggregation_iff (hthreshold : threshold < cfg.diskSize) {calls : List Arrival}
    (hincreasing : calls.Pairwise fun first second => first.position < second.position) :
    (∀ before call rest, calls = before ++ call :: rest →
      (Matches cfg threshold before call ↔ WithinLap cfg threshold before call)) ∧
    ∀ flow, ∃ chains : List (List (Arrival × Option ℕ)), chains.flatten =
        (withResults cfg.diskSize threshold [] calls).filter (fun call => call.1.flow = flow) ∧
      ∀ chain ∈ chains, Headed cfg.diskSize chain := by
  constructor
  · rintro before call rest rfl
    apply matches_iff hthreshold
    rw [List.append_cons, List.pairwise_append] at hincreasing
    exact hincreasing.1
  · intro flow
    obtain ⟨cont, chains, hsplit, hheaded, -, hnone⟩ :=
      @chains_from cfg.diskSize threshold flow calls []
    rw [hnone rfl, List.nil_append] at hsplit
    exact ⟨chains, hsplit, hheaded⟩

/-- A flow between two ports, and a packet of it. -/
def packetAt (position : ℕ) : Arrival :=
  { flow := { sourceAddress := [10, 0, 0, 1], destinationAddress := [10, 0, 0, 2],
              sourcePort := 80, destinationPort := 443 }
    position, ts := position }

def lapConfig : ReaderConfig :=
  { ethHeaderLen := 14, diskSize := 1024, blockSize := 256, cellSize := 128 }

theorem aggregation_iff_twoPackets :
    Matches lapConfig 100 [packetAt 1000] (packetAt 1050) :=
  ((aggregation_iff (by decide) (by decide : [packetAt 1000, packetAt 1050].Pairwise
    fun first second => first.position < second.position)).1 [packetAt 1000] (packetAt 1050) []
    rfl).mpr (by
      rintro preceding hpreceding
      obtain rfl := Option.some.inj hpreceding
      exact .inl (by decide))

/-- The second packet comes 1074 bytes after the first, and is linked to it at a
distance of 50. -/
theorem linked_after_lap : ¬ ∀ (cfg : ReaderConfig) (threshold : ℕ) (before : List Arrival)
    (call : Arrival), threshold < cfg.diskSize →
      (before ++ [call]).Pairwise (fun first second => first.position < second.position) →
        Matches cfg threshold before call := by
  intro hall
  have h := hall lapConfig 100 [packetAt 7] (packetAt 1081) (by decide) (by decide)
  exact absurd (h.linked_iff.mp (by decide)) (by decide)

end PacketAggregator

end TrafficDatabase
