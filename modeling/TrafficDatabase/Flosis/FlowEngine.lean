import Mathlib.Data.List.Nodup
import TrafficDatabase.Data.PacketAggregator
import TrafficDatabase.Flosis.FlowBuffer
import TrafficDatabase.Library.TransitionSystem

/-!
# The flow engine

`FlowEngine::writePacketToMap` (`engine.cpp`) finds the buffer of a packet's flow under the
metadata of the packet or under those of the opposite direction, appends the packet, and returns
the buffer when it is finished.  A buffer that takes no more packets is returned and another one
put in its place; the packet it is begun with counts as upstream, whichever way it was found.

* `writePacketToMap`, `step`: one packet;
* `Conserves`: each packet is in one buffer, and each buffer is in the map or has been returned;
* `Keeps`: besides, the five parts of each buffer are those of its packets;
* `target`, `settle`: where a packet goes and what is there afterwards, with `step_eq`;
* `Suits`: the packets with which the parts are right.  None that is appended as upstream has
  data, and all fit in the blocks.
-/

namespace TrafficDatabase

open FlowBuffer (Part)

/-- The thresholds, the length of the pool's blocks, and what is in memory before it is written:
in the blocks that a `FlowBuffer` gets, and where its `finished` is. The pool has a block for
every call. -/
structure FlowEngineConfig where
  flow_buffer_len_threshold : ℕ
  flow_buffer_time_threshold : ℕ
  block_len : ℕ
  pool : ℕ → Part → ℕ → Memory
  finished : ℕ → Bool

/-- The metadata of the other direction. -/
def FlowMetadata.ob_flow_meta (flow_meta : FlowMetadata) : FlowMetadata where
  sourceAddress := flow_meta.destinationAddress
  destinationAddress := flow_meta.sourceAddress
  sourcePort := flow_meta.destinationPort
  destinationPort := flow_meta.sourcePort

namespace FlowEngine

/-- The arguments of a call. -/
structure Arrival where
  flow_meta : FlowMetadata
  packet : ParsedPacket
deriving DecidableEq

/-- A call of `append_packet`, with the buffer it was on. -/
structure Append where
  id : ℕ
  arrival : Arrival

/-- The map, and the `FlowBuffer`s by the order in which they were made. Of the past: the
packets, the calls of `append_packet`, the buffers returned, and the metadata under which each
buffer was put into the map. -/
structure State where
  flow_map : FlowMetadata → Option ℕ
  buffers : ℕ → FlowBuffer
  created : ℕ
  arrived : List Arrival
  appended : List Append
  returned : List ℕ
  key : ℕ → FlowMetadata

/-- The buffer that is found, the direction, and the metadata it was found under. -/
structure Found where
  id : ℕ
  is_upstream : Bool
  flow_meta : FlowMetadata

variable (cfg : FlowEngineConfig)

def newBuffer (id : ℕ) : FlowBuffer := .new cfg.block_len (cfg.pool id) (cfg.finished id)

/-- The buffer with the number `id` that takes the place of `old`. -/
def replacement (id : ℕ) (old : FlowBuffer) : FlowBuffer :=
  if old.is_finished then newBuffer cfg id
  else (newBuffer cfg id).set_flags old.fin_seen old.rst_seen old.count_after_fin

/-- A buffer takes the packet. The lengths are added in 32 bits. -/
def takes (buffer : FlowBuffer) (packet : ParsedPacket) : Bool :=
  decide (((buffer.get_totol_length + packet.data_length) % 2 ^ 32 + packet.header_length) %
      2 ^ 32 < cfg.flow_buffer_len_threshold) &&
    !buffer.is_finished &&
    !buffer.threshold_finished cfg.flow_buffer_time_threshold packet.timestamp

namespace State

def init : State where
  flow_map := fun _ => none
  buffers := newBuffer cfg
  created := 0
  arrived := []
  appended := []
  returned := []
  key := fun _ => ⟨[], [], 0, 0⟩

variable (st : State)

def find (flow_meta : FlowMetadata) : Option Found :=
  match st.flow_map flow_meta with
  | some id => some ⟨id, true, flow_meta⟩
  | none => (st.flow_map flow_meta.ob_flow_meta).map fun id => ⟨id, false, flow_meta.ob_flow_meta⟩

/-- `new FlowBuffer`. -/
def create (buffer : FlowBuffer) : State :=
  { st with
    buffers := Function.update st.buffers st.created buffer
    created := st.created + 1 }

def append (id : ℕ) (arrival : Arrival) (is_upstream : Bool) : Option State := do
  let buffer ← (st.buffers id).append_packet (cfg.pool id)
    { arrival.packet with is_upstream := is_upstream }
  some { st with
    buffers := Function.update st.buffers id buffer
    appended := st.appended ++ [⟨id, arrival⟩] }

/-- `(*flow_map)[flow_meta] = buffer`. -/
def insert (flow_meta : FlowMetadata) (id : ℕ) : State :=
  { st with
    flow_map := Function.update st.flow_map flow_meta (some id)
    key := Function.update st.key id flow_meta }

def erase (flow_meta : FlowMetadata) : State :=
  { st with flow_map := Function.update st.flow_map flow_meta none }

end State

/-- With the buffer that is returned. No `write` returns false, and so no call of `append_packet`
does. -/
def writePacketToMap (st : State) (arrival : Arrival) : Option (State × Option ℕ) :=
  match st.find arrival.flow_meta with
  | none => do
    let next ← (st.create (newBuffer cfg st.created)).append cfg st.created arrival true
    some (next.insert arrival.flow_meta st.created, none)
  | some found =>
    let buffer := st.buffers found.id
    if takes cfg buffer arrival.packet then do
      let next ← st.append cfg found.id arrival found.is_upstream
      if (next.buffers found.id).is_finished then
        some (next.erase found.flow_meta, some found.id)
      else some (next, none)
    else do
      let next ← (st.create (replacement cfg st.created buffer)).append cfg st.created arrival true
      some (next.insert found.flow_meta st.created, some found.id)

def step (st : State) (arrival : Arrival) : Option State :=
  (writePacketToMap cfg st arrival).map fun (next, buffer) =>
    { next with
      arrived := st.arrived ++ [arrival]
      returned := st.returned ++ buffer.toList }

/-- The engine, a packet a step. -/
def system : TransitionSystem State Arrival where
  init := .init cfg
  step := step cfg

/-! ## What the engine promises -/

/-- Every packet is appended to one buffer, and every buffer is in the map until it is
returned. -/
structure Conserves (st : State) : Prop where
  /-- The calls of `append_packet` were for the packets that came, one for each. -/
  appended : st.appended.map Append.arrival = st.arrived
  /-- A packet is in a buffer of its flow. -/
  placed : ∀ call ∈ st.appended, call.id < st.created ∧
    (call.arrival.flow_meta = st.key call.id ∨
      call.arrival.flow_meta.ob_flow_meta = st.key call.id)
  key : ∀ flow_meta id, st.flow_map flow_meta = some id →
    id < st.created ∧ st.key id = flow_meta
  returned_once : st.returned.Nodup
  /-- What has been returned is no longer in the map. -/
  gone : ∀ id ∈ st.returned, id < st.created ∧ ∀ flow_meta, st.flow_map flow_meta ≠ some id
  kept : ∀ id < st.created, id ∈ st.returned ∨ st.flow_map (st.key id) = some id

/-- What belongs in the parts of a buffer that is in the map under `key`: the data of a packet
upstream if the packet came under the same metadata, else downstream. -/
def bytesOf (key : FlowMetadata) (arrivals : List Arrival) : Part → List UInt8
  | .timestamp => arrivals.flatMap fun arrival => toLittleEndian 8 arrival.packet.timestamp
  | .length => arrivals.flatMap fun arrival => toLittleEndian 2 arrival.packet.data_length
  | .header => arrivals.flatMap fun arrival => arrival.packet.header
  | .upstream => (arrivals.filter fun arrival => arrival.flow_meta = key).flatMap
      fun arrival => arrival.packet.data
  | .downstream => (arrivals.filter fun arrival => arrival.flow_meta ≠ key).flatMap
      fun arrival => arrival.packet.data

/-- The packets of a buffer, in the order they came. -/
def State.packets (st : State) (id : ℕ) : List Arrival :=
  (st.appended.filter fun call => call.id = id).map Append.arrival

/-- Besides, each buffer has in its parts what belongs there. -/
structure Keeps (st : State) : Prop extends Conserves st where
  contents : ∀ id < st.created, ∀ p,
    ((st.buffers id).part p).contents = bytesOf (st.key id) (st.packets id) p

/-! ## Where a packet goes -/

/-- The buffer that a packet is appended to, as it is before that. -/
structure Target where
  id : ℕ
  fresh : Bool
  is_upstream : Bool
  flow_meta : FlowMetadata
  buffer : FlowBuffer

def target (st : State) (arrival : Arrival) : Target :=
  match st.find arrival.flow_meta with
  | none => ⟨st.created, true, true, arrival.flow_meta, newBuffer cfg st.created⟩
  | some found =>
    if takes cfg (st.buffers found.id) arrival.packet then
      ⟨found.id, false, found.is_upstream, found.flow_meta, st.buffers found.id⟩
    else ⟨st.created, true, true, found.flow_meta,
      replacement cfg st.created (st.buffers found.id)⟩

/-- After the call that has left `buffer`. A fresh one takes the place of the one that was
there, which is returned. -/
def State.settle (st : State) (arrival : Arrival) (goal : Target) (buffer : FlowBuffer) : State :=
  let moved := { st with
    buffers := Function.update st.buffers goal.id buffer
    arrived := st.arrived ++ [arrival]
    appended := st.appended ++ [⟨goal.id, arrival⟩] }
  if goal.fresh then
    { moved with
      flow_map := Function.update st.flow_map goal.flow_meta (some goal.id)
      created := st.created + 1
      returned := st.returned ++ (st.flow_map goal.flow_meta).toList
      key := Function.update st.key goal.id goal.flow_meta }
  else if buffer.is_finished then
    { moved with
      flow_map := Function.update st.flow_map goal.flow_meta none
      returned := st.returned ++ [goal.id] }
  else moved

/-- The packet as it is appended. -/
def Target.packet (goal : Target) (arrival : Arrival) : ParsedPacket :=
  { arrival.packet with is_upstream := goal.is_upstream }

/-- A packet that is appended as upstream has no data, and the packet fits in the blocks. -/
def Suits (st : State) (arrival : Arrival) : Prop :=
  ((target cfg st arrival).is_upstream = true → arrival.packet.data = []) ∧
    (target cfg st arrival).buffer.Fits ((target cfg st arrival).packet arrival)

instance (st : State) : DecidablePred (Suits cfg st) :=
  fun _ => inferInstanceAs (Decidable (_ ∧ _))

variable {cfg} {st next : State} {arrival : Arrival} {found : Found}

/-- What a search finds is in the map, under the one or the other metadata. -/
theorem find_some (h : st.find arrival.flow_meta = some found) :
    st.flow_map found.flow_meta = some found.id ∧
      (found.is_upstream = true ∧ arrival.flow_meta = found.flow_meta ∨
        found.is_upstream = false ∧ arrival.flow_meta ≠ found.flow_meta ∧
          arrival.flow_meta.ob_flow_meta = found.flow_meta) := by
  unfold State.find at h
  split at h
  case h_1 id hown =>
    cases h
    exact ⟨hown, Or.inl ⟨rfl, rfl⟩⟩
  case h_2 hown =>
    obtain ⟨id, hother, rfl⟩ := Option.map_eq_some_iff.mp h
    refine ⟨hother, Or.inr ⟨rfl, fun heq => ?_, rfl⟩⟩
    dsimp only at heq
    rw [← heq, hown] at hother
    cases hother

theorem find_none (h : st.find arrival.flow_meta = none) :
    st.flow_map arrival.flow_meta = none := by
  unfold State.find at h
  split at h
  case h_1 => cases h
  case h_2 hown => exact hown

/-- A call is the appending and what follows from where it was. -/
theorem step_eq (st : State) (arrival : Arrival) :
    step cfg st arrival =
      ((target cfg st arrival).buffer.append_packet (cfg.pool (target cfg st arrival).id)
        ((target cfg st arrival).packet arrival)).map
          (st.settle arrival (target cfg st arrival)) := by
  unfold step writePacketToMap target
  cases hfind : st.find arrival.flow_meta with
  | none =>
    have hmap := find_none hfind
    simp only [State.append, State.create, Function.update_self, Target.packet]
    cases FlowBuffer.append_packet _ _ _ with
    | none => rfl
    | some buffer => simp [State.settle, State.insert, hmap]
  | some found =>
    have hmap := (find_some hfind).1
    by_cases htakes : takes cfg (st.buffers found.id) arrival.packet = true
    · simp only [if_pos htakes, State.append, Target.packet]
      cases FlowBuffer.append_packet _ _ _ with
      | none => rfl
      | some buffer =>
        by_cases hfinished : buffer.is_finished = true
        · simp [State.settle, State.erase, hfinished]
        · simp [State.settle, hfinished]
    · simp only [if_neg htakes, State.append, State.create, Function.update_self, Target.packet]
      cases FlowBuffer.append_packet _ _ _ with
      | none => rfl
      | some buffer => simp [State.settle, State.insert, hmap]

/-- Where a packet goes: to a new buffer, or to the one in the map. -/
inductive Target.Sound (cfg : FlowEngineConfig) (st : State) (arrival : Arrival) (goal : Target) :
    Prop
  | fresh (hfresh : goal.fresh = true) (id : goal.id = st.created)
      (is_upstream : goal.is_upstream = true)
      (flow : arrival.flow_meta = goal.flow_meta ∨
        arrival.flow_meta.ob_flow_meta = goal.flow_meta)
      (empty : 0 < cfg.block_len → goal.buffer.Stored fun _ => [])
      (block_len : goal.buffer.upstream_data_buffer.block_len = cfg.block_len)
  | found (hfresh : goal.fresh = false) (id : st.flow_map goal.flow_meta = some goal.id)
      (buffer : goal.buffer = st.buffers goal.id)
      (flow : goal.is_upstream = true ∧ arrival.flow_meta = goal.flow_meta ∨
        goal.is_upstream = false ∧ arrival.flow_meta ≠ goal.flow_meta ∧
          arrival.flow_meta.ob_flow_meta = goal.flow_meta)

theorem stored_newBuffer (hpos : 0 < cfg.block_len) (id : ℕ) :
    (newBuffer cfg id).Stored fun _ => [] :=
  FlowBuffer.stored_new hpos _

theorem stored_replacement (hpos : 0 < cfg.block_len) (id : ℕ) (old : FlowBuffer) :
    (replacement cfg id old).Stored fun _ => [] := by
  unfold replacement
  split_ifs with hfinished
  · exact stored_newBuffer hpos id
  · exact (stored_newBuffer hpos id).set_flags _ _ _

variable (cfg) in
theorem target_sound (st : State) (arrival : Arrival) :
    (target cfg st arrival).Sound cfg st arrival := by
  unfold target
  cases hfind : st.find arrival.flow_meta with
  | none =>
    exact .fresh rfl rfl rfl (Or.inl rfl) (fun hpos => stored_newBuffer hpos _) rfl
  | some found =>
    obtain ⟨hmap, hflow⟩ := find_some hfind
    by_cases htakes : takes cfg (st.buffers found.id) arrival.packet = true
    · simp only [if_pos htakes]
      exact .found rfl hmap rfl hflow
    · simp only [if_neg htakes]
      refine .fresh rfl rfl rfl ?_ (fun hpos => stored_replacement hpos _ _) ?_
      · rcases hflow with ⟨-, hown⟩ | ⟨-, -, hother⟩
        · exact Or.inl hown
        · exact Or.inr hother
      · unfold replacement
        split_ifs <;> rfl

/-! ## The packets and the buffers -/

theorem conserves_init : Conserves (.init cfg) where
  appended := rfl
  placed := fun _ h => (nomatch h)
  key := fun _ _ h => (nomatch h)
  returned_once := List.nodup_nil
  gone := fun _ h => (nomatch h)
  kept := fun id h => absurd h (Nat.not_lt_zero id)

section Settle

variable {goal : Target} {buffer : FlowBuffer}

/-- Each case appends the packet once, and to the one buffer. -/
theorem appended_settle (st : State) (arrival : Arrival) (goal : Target) (buffer : FlowBuffer) :
    (st.settle arrival goal buffer).appended = st.appended ++ [⟨goal.id, arrival⟩] ∧
      (st.settle arrival goal buffer).arrived = st.arrived ++ [arrival] ∧
      (st.settle arrival goal buffer).buffers = Function.update st.buffers goal.id buffer := by
  unfold State.settle
  dsimp only
  split_ifs <;> exact ⟨rfl, rfl, rfl⟩

theorem Conserves.appended_settle (h : Conserves st) (arrival : Arrival) (goal : Target)
    (buffer : FlowBuffer) : (st.settle arrival goal buffer).appended.map Append.arrival =
      (st.settle arrival goal buffer).arrived := by
  obtain ⟨happended, harrived, -⟩ := FlowEngine.appended_settle st arrival goal buffer
  rw [happended, harrived, List.map_append, h.appended]
  rfl

/-- Neither what has been returned nor what was under the one metadata is under others. -/
theorem Conserves.elsewhere (h : Conserves st) {flow_meta : FlowMetadata} {id : ℕ}
    (hid : id ∈ st.returned ∨ st.flow_map flow_meta = some id) :
    id < st.created ∧ ∀ other, other ≠ flow_meta → st.flow_map other ≠ some id := by
  rcases hid with hreturned | hmap
  · exact ⟨(h.gone id hreturned).1, fun other _ => (h.gone id hreturned).2 other⟩
  · obtain ⟨hlt, hkeyed⟩ := h.key _ _ hmap
    refine ⟨hlt, fun other hne hother => hne ?_⟩
    rw [← (h.key other id hother).2, hkeyed]

/-- A new buffer is begun, and the one that was in its place is returned. -/
theorem Conserves.start (h : Conserves st) (hfresh : goal.fresh = true)
    (hid : goal.id = st.created) (hflow : arrival.flow_meta = goal.flow_meta ∨
      arrival.flow_meta.ob_flow_meta = goal.flow_meta) :
    Conserves (st.settle arrival goal buffer) := by
  have happended := h.appended_settle arrival goal buffer
  unfold State.settle at happended ⊢
  simp only [hfresh, if_true, hid] at happended ⊢
  -- the buffers that are there already keep their metadata
  have hkey : ∀ id < st.created,
      Function.update st.key st.created goal.flow_meta id = st.key id :=
    fun id hlt => Function.update_of_ne hlt.ne _ _
  refine ⟨happended, ?_, ?_, ?_, ?_, ?_⟩
  · intro call hcall
    rcases List.mem_append.mp hcall with hold | hnew
    · obtain ⟨hlt, hplaced⟩ := h.placed call hold
      dsimp only
      rw [hkey _ hlt]
      exact ⟨Nat.lt_succ_of_lt hlt, hplaced⟩
    · obtain rfl := List.mem_singleton.mp hnew
      dsimp only
      rw [Function.update_self]
      exact ⟨Nat.lt_succ_self _, hflow⟩
  · intro flow_meta id hmap
    dsimp only at hmap ⊢
    by_cases heq : flow_meta = goal.flow_meta
    · rw [heq, Function.update_self] at hmap
      cases hmap
      rw [Function.update_self]
      exact ⟨Nat.lt_succ_self _, heq.symm⟩
    · rw [Function.update_of_ne heq] at hmap
      obtain ⟨hlt, hkeyed⟩ := h.key flow_meta id hmap
      rw [hkey id hlt]
      exact ⟨Nat.lt_succ_of_lt hlt, hkeyed⟩
  -- what was in the map has not been returned
  · apply List.Nodup.append h.returned_once
    · cases st.flow_map goal.flow_meta <;> simp
    · intro id hreturned hold
      exact (h.gone id hreturned).2 goal.flow_meta (Option.mem_toList.mp hold)
  -- what is returned is older than the new buffer, and was nowhere else in the map
  · intro id hid
    dsimp only
    have hold : id ∈ st.returned ∨ st.flow_map goal.flow_meta = some id :=
      (List.mem_append.mp hid).imp_right Option.mem_toList.mp
    obtain ⟨hlt, helsewhere⟩ := h.elsewhere hold
    refine ⟨Nat.lt_succ_of_lt hlt, fun flow_meta hmap => ?_⟩
    by_cases heq : flow_meta = goal.flow_meta
    · rw [heq, Function.update_self] at hmap
      cases hmap
      exact Nat.lt_irrefl _ hlt
    · rw [Function.update_of_ne heq] at hmap
      exact helsewhere flow_meta heq hmap
  -- the buffer that loses its place is returned; the others keep theirs
  · intro id hlt
    dsimp only at hlt ⊢
    rcases Nat.lt_succ_iff_lt_or_eq.mp hlt with hold | rfl
    · rw [hkey id hold]
      rcases h.kept id hold with hreturned | hmap
      · exact Or.inl (List.mem_append_left _ hreturned)
      · by_cases heq : st.key id = goal.flow_meta
        · rw [heq] at hmap
          exact Or.inl (List.mem_append_right _ (Option.mem_toList.mpr hmap))
        · rw [Function.update_of_ne heq]
          exact Or.inr hmap
    · rw [Function.update_self, Function.update_self]
      exact Or.inr rfl

/-- A packet is appended to the buffer that was found, which is returned when it is finished. -/
theorem Conserves.goOn (h : Conserves st) (hfresh : goal.fresh = false)
    (hmap : st.flow_map goal.flow_meta = some goal.id)
    (hflow : arrival.flow_meta = goal.flow_meta ∨
      arrival.flow_meta.ob_flow_meta = goal.flow_meta) :
    Conserves (st.settle arrival goal buffer) := by
  obtain ⟨hlt, hkeyed⟩ := h.key _ _ hmap
  have happended := h.appended_settle arrival goal buffer
  have hplaced : ∀ call ∈ st.appended ++ [⟨goal.id, arrival⟩], call.id < st.created ∧
      (call.arrival.flow_meta = st.key call.id ∨
        call.arrival.flow_meta.ob_flow_meta = st.key call.id) := by
    intro call hcall
    rcases List.mem_append.mp hcall with hold | hnew
    · exact h.placed call hold
    · obtain rfl := List.mem_singleton.mp hnew
      dsimp only
      rw [hkeyed]
      exact ⟨hlt, hflow⟩
  unfold State.settle at happended ⊢
  simp only [hfresh, Bool.false_eq_true, if_false] at happended ⊢
  -- a buffer that is finished is erased and returned, else the map stays as it is
  split_ifs at happended ⊢ with hfinished
  · refine ⟨happended, hplaced, ?_, ?_, ?_, ?_⟩
    · intro flow_meta id hmap'
      dsimp only at hmap'
      by_cases heq : flow_meta = goal.flow_meta
      · rw [heq, Function.update_self] at hmap'
        cases hmap'
      · rw [Function.update_of_ne heq] at hmap'
        exact h.key flow_meta id hmap'
    · apply List.Nodup.append h.returned_once (List.nodup_singleton _)
      intro id hreturned hid
      obtain rfl := List.mem_singleton.mp hid
      exact (h.gone _ hreturned).2 _ hmap
    · intro id hid
      dsimp only
      have hold : id ∈ st.returned ∨ st.flow_map goal.flow_meta = some id := by
        refine (List.mem_append.mp hid).imp_right fun hnew => ?_
        rw [List.mem_singleton.mp hnew]
        exact hmap
      obtain ⟨hlt, helsewhere⟩ := h.elsewhere hold
      refine ⟨hlt, fun flow_meta hmap' => ?_⟩
      by_cases heq : flow_meta = goal.flow_meta
      · rw [heq, Function.update_self] at hmap'
        cases hmap'
      · rw [Function.update_of_ne heq] at hmap'
        exact helsewhere flow_meta heq hmap'
    · intro id hid
      dsimp only
      rcases h.kept id hid with hreturned | hmap'
      · exact Or.inl (List.mem_append_left _ hreturned)
      · by_cases heq : st.key id = goal.flow_meta
        · rw [heq, hmap] at hmap'
          cases hmap'
          exact Or.inl (List.mem_append_right _ (List.mem_singleton_self _))
        · rw [Function.update_of_ne heq]
          exact Or.inr hmap'
  · exact ⟨happended, hplaced, h.key, h.returned_once, h.gone, h.kept⟩

theorem Conserves.settle (h : Conserves st) (hsound : goal.Sound cfg st arrival)
    (buffer : FlowBuffer) : Conserves (st.settle arrival goal buffer) := by
  cases hsound with
  | fresh hfresh hid _ hflow => exact h.start hfresh hid hflow
  | found hfresh hid _ hflow =>
    apply h.goOn hfresh hid
    rcases hflow with ⟨-, hown⟩ | ⟨-, -, hother⟩
    · exact Or.inl hown
    · exact Or.inr hother

end Settle

theorem Conserves.step (h : Conserves st) (hstep : step cfg st arrival = some next) :
    Conserves next := by
  rw [step_eq] at hstep
  obtain ⟨buffer, -, rfl⟩ := Option.map_eq_some_iff.mp hstep
  exact h.settle (target_sound cfg st arrival) buffer

/-- Whatever the packets are, each is in one buffer, and no buffer is returned twice or lost. -/
theorem conserves_of_reachable (h : (system cfg).Reachable (fun _ _ => True) st) :
    Conserves st :=
  h.invariant Conserves conserves_init fun hinv _ hstep => hinv.step hstep

/-! ## What the parts hold -/

/-- The buffers hold in their parts what belongs there. -/
structure Inv (st : State) : Prop extends Conserves st where
  stored : ∀ id < st.created, (st.buffers id).Stored (bytesOf (st.key id) (st.packets id))

/-- A packet is written where it belongs if it has no data, or goes downstream as it should. -/
theorem bytesOf_append {goal : Target} {key : FlowMetadata}
    (hdata : goal.is_upstream = true → arrival.packet.data = [])
    (hflow : goal.is_upstream = false → arrival.flow_meta ≠ key) (arrivals : List Arrival)
    (p : Part) : bytesOf key (arrivals ++ [arrival]) p =
      bytesOf key arrivals p ++ (goal.packet arrival).written p := by
  cases p with
  | timestamp | length | header =>
    simp only [bytesOf, List.flatMap_append, List.flatMap_singleton]
    rfl
  -- upstream there is nothing to write; downstream the packet is written, as it should be
  | upstream =>
    simp only [bytesOf, List.filter_append, List.flatMap_append]
    congr 1
    cases hup : goal.is_upstream with
    | true =>
      have hempty := hdata hup
      by_cases heq : arrival.flow_meta = key <;>
        simp [heq, hempty, ParsedPacket.written, Target.packet]
    | false => simp [hflow hup, hup, ParsedPacket.written, Target.packet]
  | downstream =>
    simp only [bytesOf, List.filter_append, List.flatMap_append]
    congr 1
    cases hup : goal.is_upstream with
    | true =>
      have hempty := hdata hup
      by_cases heq : arrival.flow_meta = key <;>
        simp [heq, hempty, ParsedPacket.written, Target.packet]
    | false => simp [hflow hup, ParsedPacket.written, Target.packet]

section Settle

variable {goal : Target} {buffer : FlowBuffer} {id : ℕ}

theorem packets_settle (st : State) (arrival : Arrival) (goal : Target) (buffer : FlowBuffer) :
    (st.settle arrival goal buffer).packets goal.id = st.packets goal.id ++ [arrival] := by
  unfold State.packets
  rw [(appended_settle st arrival goal buffer).1, List.filter_append, List.map_append]
  simp

theorem packets_settle_of_ne (st : State) (arrival : Arrival) (buffer : FlowBuffer)
    (hne : id ≠ goal.id) : (st.settle arrival goal buffer).packets id = st.packets id := by
  unfold State.packets
  rw [(appended_settle st arrival goal buffer).1, List.filter_append]
  simp [hne.symm]

/-- The metadata of the other buffers stay, and the packet's buffer has those it was found
under. -/
theorem key_settle (hsound : goal.Sound cfg st arrival) (h : Conserves st)
    (buffer : FlowBuffer) : (st.settle arrival goal buffer).key goal.id = goal.flow_meta ∧
      ∀ id, id ≠ goal.id → (st.settle arrival goal buffer).key id = st.key id := by
  cases hsound with
  | fresh hfresh =>
    simp only [State.settle, hfresh, if_true]
    exact ⟨Function.update_self .., fun id hne => Function.update_of_ne hne _ _⟩
  | found hfresh hmap =>
    have hkeyed := (h.key _ _ hmap).2
    simp only [State.settle, hfresh, Bool.false_eq_true, if_false]
    split_ifs
    · exact ⟨hkeyed, fun _ _ => rfl⟩
    · exact ⟨hkeyed, fun _ _ => rfl⟩

theorem created_settle (hsound : goal.Sound cfg st arrival) (buffer : FlowBuffer)
    (hlt : id < (st.settle arrival goal buffer).created) (hne : id ≠ goal.id) :
    id < st.created := by
  cases hsound with
  | fresh hfresh hid =>
    simp only [State.settle, hfresh, if_true] at hlt
    omega
  | found hfresh =>
    simp only [State.settle, hfresh, Bool.false_eq_true, if_false] at hlt
    split_ifs at hlt
    · exact hlt
    · exact hlt

/-- No packet is in a buffer that is not there yet. -/
theorem Conserves.packets_created (h : Conserves st) : st.packets st.created = [] := by
  unfold State.packets
  rw [List.map_eq_nil_iff, List.filter_eq_nil_iff]
  intro call hcall heq
  exact (h.placed call hcall).1.ne (of_decide_eq_true heq)

/-- Before the packet is appended, its buffer holds what belongs there. -/
theorem Target.Sound.stored (hsound : goal.Sound cfg st arrival) (h : Inv st)
    (hfits : goal.buffer.Fits (goal.packet arrival)) :
    goal.buffer.Stored (bytesOf goal.flow_meta (st.packets goal.id)) := by
  cases hsound with
  | fresh _ hid _ _ hempty hblock =>
    have hpos : 0 < cfg.block_len := by
      have hwrite := hfits .upstream
      have hpart : goal.buffer.part .upstream = goal.buffer.upstream_data_buffer := rfl
      rw [hpart, hblock] at hwrite
      omega
    rw [hid, h.packets_created]
    intro p
    have hnothing : bytesOf goal.flow_meta [] p = [] := by
      cases p <;> rfl
    rw [hnothing]
    exact hempty hpos p
  | found _ hmap hbuffer =>
    obtain ⟨hlt, hkeyed⟩ := h.key _ _ hmap
    rw [hbuffer, ← hkeyed]
    exact h.stored _ hlt

theorem Target.Sound.ne_of_downstream (hsound : goal.Sound cfg st arrival)
    (hdown : goal.is_upstream = false) : arrival.flow_meta ≠ goal.flow_meta := by
  cases hsound with
  | fresh _ _ hup =>
    rw [hup] at hdown
    cases hdown
  | found _ _ _ hflow =>
    rcases hflow with ⟨hup, -⟩ | ⟨-, hne, -⟩
    · rw [hup] at hdown
      cases hdown
    · exact hne

end Settle

theorem inv_init : Inv (.init cfg) where
  toConserves := conserves_init
  stored := fun id h => absurd h (Nat.not_lt_zero id)

/-- A packet that suits is taken, and goes where it belongs. -/
theorem Inv.exists_step (h : Inv st) (hsuits : Suits cfg st arrival) :
    ∃ next, step cfg st arrival = some next ∧ Inv next := by
  obtain ⟨hdata, hfits⟩ := hsuits
  have hsound := target_sound cfg st arrival
  rw [step_eq]
  generalize target cfg st arrival = goal at hdata hfits hsound ⊢
  obtain ⟨buffer, hwrite, hstored⟩ := FlowBuffer.append_packet_of_fits (cfg.pool goal.id)
    (hsound.stored h hfits) hfits
  obtain ⟨hkey, hkeys⟩ := key_settle hsound h.toConserves buffer
  refine ⟨_, congrArg _ hwrite, h.toConserves.settle hsound buffer, fun id hlt => ?_⟩
  rw [(appended_settle st arrival goal buffer).2.2]
  by_cases heq : id = goal.id
  · rw [heq, Function.update_self, hkey, packets_settle]
    intro p
    rw [bytesOf_append hdata hsound.ne_of_downstream]
    exact hstored p
  · rw [Function.update_of_ne heq, hkeys id heq, packets_settle_of_ne st arrival buffer heq]
    exact h.stored id (created_settle hsound buffer hlt heq)

theorem Inv.keeps (h : Inv st) : Keeps st where
  toConserves := h.toConserves
  contents := fun id hlt p => (h.stored id hlt p).contents_eq

theorem Inv.exists_run (h : Inv st) {arrivals : List Arrival}
    (hsuits : (system cfg).RunAllowed (Suits cfg) st arrivals) :
    ∃ last, (system cfg).run st arrivals = some last ∧ Inv last := by
  induction arrivals generalizing st with
  | nil => exact ⟨st, rfl, h⟩
  | cons arrival arrivals ih =>
    obtain ⟨next, hstep, hnext⟩ := h.exists_step hsuits.1
    obtain ⟨last, hrun, hlast⟩ := ih hnext (hsuits.2 next hstep)
    exact ⟨last, TransitionSystem.run_cons.mpr ⟨next, hstep, hrun⟩, hlast⟩

/-- Packets that suit are taken one after the other, and all parts are right. -/
theorem keeps_of_suits {arrivals : List Arrival}
    (h : (system cfg).RunAllowed (Suits cfg) (.init cfg) arrivals) :
    ∃ last, (system cfg).run (.init cfg) arrivals = some last ∧ Keeps last := by
  obtain ⟨last, hrun, hlast⟩ := inv_init.exists_run h
  exact ⟨last, hrun, hlast.keeps⟩

/-! ### A flow of a few packets -/

def smallEngine : FlowEngineConfig where
  flow_buffer_len_threshold := 100
  flow_buffer_time_threshold := 10
  block_len := 16
  pool := fun _ _ _ _ => 0
  finished := fun _ => false

def request : FlowMetadata where
  sourceAddress := [10, 0, 0, 1]
  destinationAddress := [10, 0, 0, 2]
  sourcePort := 5000
  destinationPort := 80

def arrivalOf (flow_meta : FlowMetadata) (data : List UInt8) (timestamp : ℕ) (is_rst : Bool) :
    Arrival where
  flow_meta := flow_meta
  packet :=
    { is_upstream := false
      data := data
      header := [69]
      timestamp := timestamp
      is_fin := false
      is_rst := is_rst }

/-- Two answers to a request, then the time is over, and the next buffer ends with a reset. -/
theorem keeps_of_suits_answers :
    ∃ last, (system smallEngine).run (.init smallEngine)
        [arrivalOf request [] 1 false, arrivalOf request.ob_flow_meta [1, 2] 2 false,
          arrivalOf request.ob_flow_meta [3] 3 false, arrivalOf request [] 20 false,
          arrivalOf request.ob_flow_meta [4] 21 true] = some last ∧ Keeps last :=
  keeps_of_suits (by decide +kernel)

/-- The data of a first packet are downstream too. And an answer that comes when the time is over
is upstream in the new buffer, which has the metadata of the request. -/
theorem parts_mixed :
    (∃ st, (system smallEngine).Reachable (fun _ _ => True) st ∧ ¬ Keeps st) ∧
      ∃ st, (system smallEngine).Reachable (fun _ _ => True) st ∧
        st.packets 1 = [arrivalOf request.ob_flow_meta [7] 20 false] ∧
        st.key 1 = request ∧ ¬ Keeps st := by
  constructor
  · obtain ⟨st, hst, hcreated, hcontents, hbytes⟩ := TransitionSystem.exists_reachable
      (system smallEngine) [arrivalOf request [7] 1 false]
      (fun st => 0 < st.created ∧ ((st.buffers 0).part .downstream).contents = [7] ∧
        bytesOf (st.key 0) (st.packets 0) .downstream = [])
      (TransitionSystem.runAllowed_true _) (by decide +kernel)
    refine ⟨st, hst, fun h => ?_⟩
    have hkeeps := h.contents 0 hcreated .downstream
    rw [hcontents, hbytes] at hkeeps
    cases hkeeps
  · obtain ⟨st, hst, hcreated, hpackets, hkey, hcontents, hbytes⟩ :=
      TransitionSystem.exists_reachable (system smallEngine)
      [arrivalOf request [] 1 false, arrivalOf request.ob_flow_meta [7] 20 false]
      (fun st => 1 < st.created ∧
        st.packets 1 = [arrivalOf request.ob_flow_meta [7] 20 false] ∧ st.key 1 = request ∧
        ((st.buffers 1).part .upstream).contents = [7] ∧
        bytesOf (st.key 1) (st.packets 1) .upstream = [])
      (TransitionSystem.runAllowed_true _) (by decide +kernel)
    refine ⟨st, hst, hpackets, hkey, fun h => ?_⟩
    have hkeeps := h.contents 1 hcreated .upstream
    rw [hcontents, hbytes] at hkeeps
    cases hkeeps

end FlowEngine

end TrafficDatabase
