import Mathlib.Data.List.Infix
import Mathlib.Logic.Function.Basic
import Mathlib.Tactic.Ring
import TrafficDatabase.Library.TransitionSystem

/-!
# The ring between a reader and a generator

`PointerRingBuffer` carries the index records of one reader to one generator.
`put` and `get` are several accesses to shared memory each, taken here one at a
time: reading the own position, the test against the other one, the access to
the slot, and advancing the own position.  The positions are 64-bit counters that
are never reduced; a slot is found by reducing the position to the capacity and
permuting it, so that consecutive positions are eight pointers apart.

`Inv` is the simulation by a queue: the items of the completed puts that have
not been read lie in the slots of the positions between the two counters, at all
times.  A put that has passed its test keeps room for its item, since only the
producer adds items.
-/

namespace TrafficDatabase

/-- A capacity the constructor takes, with at least one slot for each of the
eight parts the slots are dealt to. -/
structure RingConfig where
  capacity : ℕ
  capacity_lt : capacity < 2 ^ 32
  eight_le : 8 ≤ capacity
  isPowerOfTwo : capacity &&& (capacity - 1) = 0

namespace PointerRingBuffer

/-- The slot of a position below the capacity. -/
def realPos (capacity pos : ℕ) : ℕ :=
  ((pos &&& ((capacity >>> 3) - 1)) <<< 3) + pos / (capacity >>> 3)

/-- Where a producer is in `put`. -/
inductive Put (α : Type*)
  | idle
  | waiting (data : α) (pos : ℕ)
  | storing (data : α) (pos : ℕ)
  | advancing (data : α)

/-- Where a consumer is in `get`. -/
inductive Get (α : Type*)
  | idle
  | testing (pos : ℕ)
  | loading (pos : ℕ)
  | advancing (data : Option α)

/-- The ring with its two threads.  `completed` are the items of the completed
puts and `results` what the calls of `get` have returned, null being `none`; no
step looks at these two. -/
structure State (α : Type*) where
  pointers : ℕ → Option α
  writePos : ℕ
  readPos : ℕ
  producer : Put α
  consumer : Get α
  completed : List α
  results : List (Option α)

inductive Label (α : Type*)
  | put (data : α)
  | produce
  | get
  | consume

variable {α : Type*} (cfg : RingConfig)

namespace State

def init : State α :=
  { pointers := fun _ => none
    writePos := 0
    readPos := 0
    producer := .idle
    consumer := .idle
    completed := []
    results := [] }

variable (st : State α)

/-- The non-null results, in order. -/
def received : List α := st.results.filterMap id

/-- The next access of `put`.  The loop comes back to its test while the ring is full. -/
def produce : Option (State α) :=
  match st.producer with
  | .idle => none
  | .waiting data pos =>
      if st.writePos = (cfg.capacity - 1 + st.readPos) % 2 ^ 64 then some st
      else some { st with producer := .storing data pos }
  | .storing data pos =>
      some { st with
        pointers := Function.update st.pointers (realPos cfg.capacity pos) (some data)
        producer := .advancing data }
  | .advancing data =>
      some { st with
        writePos := (st.writePos + 1) % 2 ^ 64
        producer := .idle
        completed := st.completed ++ [data] }

/-- The next access of `get`. -/
def consume : Option (State α) :=
  match st.consumer with
  | .idle => none
  | .testing pos =>
      if st.writePos = st.readPos then
        some { st with consumer := .idle, results := st.results ++ [none] }
      else some { st with consumer := .loading pos }
  | .loading pos => some { st with consumer := .advancing (st.pointers (realPos cfg.capacity pos)) }
  | .advancing data =>
      some { st with
        readPos := (st.readPos + 1) % 2 ^ 64
        consumer := .idle
        results := st.results ++ [data] }

end State

def step (st : State α) : Label α → Option (State α)
  | .put data =>
      match st.producer with
      | .idle => some { st with producer := .waiting data (st.writePos &&& (cfg.capacity - 1)) }
      | _ => none
  | .produce => st.produce cfg
  | .get =>
      match st.consumer with
      | .idle => some { st with consumer := .testing (st.readPos &&& (cfg.capacity - 1)) }
      | _ => none
  | .consume => st.consume cfg

/-- A ring with one producer and one consumer. -/
def system (α : Type*) : TransitionSystem (State α) (Label α) :=
  { init := State.init, step := step cfg }

abbrev Reachable (st : State α) : Prop := (system cfg α).Reachable (fun _ _ => True) st

/-! ## Positions and slots -/

theorem capacity_eq : ∃ n, cfg.capacity = 2 ^ (n + 3) ∧ n + 3 < 32 := by
  have hpos : cfg.capacity ≠ 0 := by
    have := cfg.eight_le
    omega
  obtain ⟨e, he⟩ := (Nat.and_sub_one_eq_zero_iff_isPowerOfTwo hpos).mp cfg.isPowerOfTwo
  have hge : 3 ≤ e := by
    refine (Nat.pow_le_pow_iff_right (by decide : 1 < 2)).mp ?_
    calc
      2 ^ 3 = 8 := rfl
      _ ≤ cfg.capacity := cfg.eight_le
      _ = 2 ^ e := he
  have hlt : e < 32 := by
    refine (Nat.pow_lt_pow_iff_right (by decide : 1 < 2)).mp ?_
    rw [← he]
    exact cfg.capacity_lt
  obtain ⟨n, rfl⟩ := Nat.exists_eq_add_of_le' hge
  exact ⟨n, he, hlt⟩

/-- The mask reduces a 64-bit counter to the capacity. -/
theorem counter_and_mask (count : ℕ) :
    (count % 2 ^ 64) &&& (cfg.capacity - 1) = count % cfg.capacity := by
  obtain ⟨n, hcap, hn⟩ := capacity_eq cfg
  rw [hcap, Nat.and_two_pow_sub_one_eq_mod]
  exact Nat.mod_mod_of_dvd _ (Nat.pow_dvd_pow 2 (by omega))

theorem realPos_eq (pos : ℕ) :
    realPos cfg.capacity pos = 8 * (pos % (cfg.capacity / 8)) + pos / (cfg.capacity / 8) := by
  obtain ⟨n, hcap, -⟩ := capacity_eq cfg
  have hpart : cfg.capacity >>> 3 = 2 ^ n := by
    rw [hcap, Nat.shiftRight_eq_div_pow, Nat.pow_add, Nat.mul_div_cancel _ (by decide)]
  have hdiv : cfg.capacity / 8 = 2 ^ n := by
    rw [hcap, Nat.pow_add]
    exact Nat.mul_div_cancel _ (by decide)
  rw [realPos, hpart, hdiv, Nat.and_two_pow_sub_one_eq_mod, Nat.shiftLeft_eq]
  ring

theorem realPos_injective {i j : ℕ} (hi : i < cfg.capacity) (hj : j < cfg.capacity)
    (h : realPos cfg.capacity i = realPos cfg.capacity j) : i = j := by
  rw [realPos_eq, realPos_eq] at h
  obtain ⟨n, hcap, -⟩ := capacity_eq cfg
  have hdiv : cfg.capacity = cfg.capacity / 8 * 8 := by
    rw [hcap, Nat.pow_add]
    exact (Nat.div_mul_cancel (Nat.dvd_mul_left ..)).symm
  have hpart : 0 < cfg.capacity / 8 := by
    have := cfg.eight_le
    omega
  have hquot : ∀ k < cfg.capacity, k / (cfg.capacity / 8) < 8 := by
    intro k hk
    rw [Nat.div_lt_iff_lt_mul hpart]
    omega
  -- the part is the remainder by eight, the place in the part the quotient
  have hpair : ∀ r q r' q' : ℕ, q < 8 → q' < 8 → 8 * r + q = 8 * r' + q' → q = q' ∧ r = r' := by
    omega
  obtain ⟨hq, hr⟩ := hpair _ _ _ _ (hquot i hi) (hquot j hj) h
  calc
    i = cfg.capacity / 8 * (i / (cfg.capacity / 8)) + i % (cfg.capacity / 8) :=
      (Nat.div_add_mod ..).symm
    _ = cfg.capacity / 8 * (j / (cfg.capacity / 8)) + j % (cfg.capacity / 8) := by rw [hq, hr]
    _ = j := Nat.div_add_mod ..

/-- The slot of an unreduced position. -/
def slot (count : ℕ) : ℕ := realPos cfg.capacity (count % cfg.capacity)

/-- Positions less than the capacity apart have different slots. -/
theorem slot_ne {i j : ℕ} (hlt : i < j) (hnear : j < i + cfg.capacity) :
    slot cfg i ≠ slot cfg j := by
  intro h
  have hpos : 0 < cfg.capacity := by
    have := cfg.eight_le
    omega
  have hmod : i % cfg.capacity = j % cfg.capacity :=
    realPos_injective cfg (Nat.mod_lt _ hpos) (Nat.mod_lt _ hpos) h
  have hdvd : cfg.capacity ∣ j - i :=
    Nat.dvd_of_mod_eq_zero (Nat.sub_mod_eq_zero_of_mod_eq hmod.symm)
  have := Nat.le_of_dvd (by omega) hdvd
  omega

/-! ## The queue in the ring -/

variable {cfg}

/-- What a producer has found out, when `written` puts are completed and `read`
items received: behind its test there is room for one more item. -/
def Put.Fits (cfg : RingConfig) (pointers : ℕ → Option α) (written read : ℕ) : Put α → Prop
  | .idle => True
  | .waiting _ pos => pos = written % cfg.capacity
  | .storing _ pos => pos = written % cfg.capacity ∧ written + 1 < read + cfg.capacity
  | .advancing data => pointers (slot cfg written) = some data ∧ written + 1 < read + cfg.capacity

/-- What a consumer has found out: behind its test there is an item to read. -/
def Get.Fits (cfg : RingConfig) (completed : List α) (read : ℕ) : Get α → Prop
  | .idle => True
  | .testing pos => pos = read % cfg.capacity
  | .loading pos => pos = read % cfg.capacity ∧ read < completed.length
  | .advancing data => read < completed.length ∧ data = completed[read]?

/-- The simulation by a queue of the completed puts. -/
structure Inv (cfg : RingConfig) (st : State α) : Prop where
  writePos : st.writePos = st.completed.length % 2 ^ 64
  readPos : st.readPos = st.received.length % 2 ^ 64
  received : st.received <+: st.completed
  room : st.completed.length < st.received.length + cfg.capacity
  slots : ∀ i, st.received.length ≤ i → i < st.completed.length →
    st.pointers (slot cfg i) = st.completed[i]?
  producer : st.producer.Fits cfg st.pointers st.completed.length st.received.length
  consumer : st.consumer.Fits cfg st.completed st.received.length

variable {st next : State α}

theorem inv_init : Inv cfg (State.init : State α) where
  writePos := rfl
  readPos := rfl
  received := List.nil_prefix
  room := by
    have := cfg.eight_le
    change 0 < 0 + cfg.capacity
    omega
  slots := by
    intro i _ hi
    exact absurd hi (Nat.not_lt_zero i)
  producer := trivial
  consumer := trivial

/-- The full test compares counters that are less than a capacity apart. -/
theorem Inv.full_iff (h : Inv cfg st) :
    st.writePos = (cfg.capacity - 1 + st.readPos) % 2 ^ 64 ↔
      st.completed.length = cfg.capacity - 1 + st.received.length := by
  have hle := h.received.length_le
  have hroom := h.room
  have hcap := cfg.capacity_lt
  have height := cfg.eight_le
  rw [h.writePos, h.readPos, Nat.add_mod_mod]
  omega

/-- The empty test compares counters that are less than a capacity apart. -/
theorem Inv.empty_iff (h : Inv cfg st) :
    st.writePos = st.readPos ↔ st.completed.length = st.received.length := by
  have hle := h.received.length_le
  have hroom := h.room
  have hcap := cfg.capacity_lt
  rw [h.writePos, h.readPos]
  omega

theorem received_append_none (st : State α) :
    ({ st with consumer := .idle, results := st.results ++ [none] } : State α).received =
      st.received := by
  simp [State.received]

theorem Inv.put (h : Inv cfg st) (data : α) :
    Inv cfg { st with producer := .waiting data (st.writePos &&& (cfg.capacity - 1)) } :=
  { h with
    producer := by
      change st.writePos &&& (cfg.capacity - 1) = _
      rw [h.writePos, counter_and_mask] }

theorem Inv.get (h : Inv cfg st) :
    Inv cfg { st with consumer := .testing (st.readPos &&& (cfg.capacity - 1)) } :=
  { h with
    consumer := by
      change st.readPos &&& (cfg.capacity - 1) = st.received.length % cfg.capacity
      rw [h.readPos, counter_and_mask] }

/-- The consumer's findings outlast a put. -/
theorem Get.Fits.append {completed : List α} {read : ℕ} {consumer : Get α}
    (h : consumer.Fits cfg completed read) (data : α) :
    consumer.Fits cfg (completed ++ [data]) read := by
  have hlength : (completed ++ [data]).length = completed.length + 1 := by simp
  cases consumer with
  | idle => trivial
  | testing pos => exact h
  | loading pos => exact ⟨h.1, by rw [hlength]; exact Nat.lt_succ_of_lt h.2⟩
  | advancing item =>
      refine ⟨by rw [hlength]; exact Nat.lt_succ_of_lt h.1, ?_⟩
      rw [List.getElem?_append_left h.1]
      exact h.2

/-- The producer's findings outlast a get. -/
theorem Put.Fits.succ {pointers : ℕ → Option α} {written read : ℕ} {producer : Put α}
    (h : producer.Fits cfg pointers written read) :
    producer.Fits cfg pointers written (read + 1) := by
  cases producer with
  | idle => trivial
  | waiting data pos => exact h
  | storing data pos => exact ⟨h.1, by have := h.2; omega⟩
  | advancing data => exact ⟨h.1, by have := h.2; omega⟩

theorem Inv.produce (h : Inv cfg st) (hstep : st.produce cfg = some next) : Inv cfg next := by
  have hproducer := h.producer
  cases hput : st.producer with
  | idle => simp [State.produce, hput] at hstep
  | waiting data pos =>
      rw [hput] at hproducer
      simp only [State.produce, hput] at hstep
      split_ifs at hstep with hfull
      · obtain rfl : st = next := by simpa using hstep
        exact h
      · obtain rfl := Option.some.inj hstep
        rw [h.full_iff] at hfull
        have hspare : st.completed.length + 1 < st.received.length + cfg.capacity := by
          have := h.room
          have := cfg.eight_le
          omega
        exact { h with producer := ⟨hproducer, hspare⟩ }
  | storing data pos =>
      rw [hput] at hproducer
      obtain ⟨rfl, hroom⟩ := hproducer
      simp only [State.produce, hput] at hstep
      obtain rfl := Option.some.inj hstep
      refine { h with slots := ?_, producer := ⟨Function.update_self .., hroom⟩ }
      -- the slot written is that of no item in the queue
      intro i hlow hi
      change Function.update st.pointers (slot cfg st.completed.length) _ _ = _
      have hnear : st.completed.length < i + cfg.capacity := by
        change st.received.length ≤ i at hlow
        have := h.room
        omega
      rw [Function.update_of_ne (slot_ne cfg hi hnear)]
      exact h.slots i hlow hi
  | advancing data =>
      rw [hput] at hproducer
      obtain ⟨hstored, hroom⟩ := hproducer
      simp only [State.produce, hput] at hstep
      obtain rfl := Option.some.inj hstep
      have hlength : (st.completed ++ [data]).length = st.completed.length + 1 := by simp
      exact {
        writePos := by
          change (st.writePos + 1) % 2 ^ 64 = (st.completed ++ [data]).length % 2 ^ 64
          rw [h.writePos, Nat.mod_add_mod, hlength]
        readPos := h.readPos
        received := h.received.trans (List.prefix_append ..)
        room := by
          change (st.completed ++ [data]).length < st.received.length + cfg.capacity
          rw [hlength]
          exact hroom
        slots := by
          intro i hlow hi
          change i < (st.completed ++ [data]).length at hi
          change st.pointers _ = (st.completed ++ [data])[i]?
          rw [hlength] at hi
          rcases Nat.lt_succ_iff_lt_or_eq.mp hi with hold | rfl
          · rw [List.getElem?_append_left hold]
            exact h.slots i hlow hold
          · rw [List.getElem?_concat_length]
            exact hstored
        producer := trivial
        consumer := h.consumer.append data }

theorem Inv.consume (h : Inv cfg st) (hstep : st.consume cfg = some next) : Inv cfg next := by
  have hconsumer := h.consumer
  cases hget : st.consumer with
  | idle => simp [State.consume, hget] at hstep
  | testing pos =>
      rw [hget] at hconsumer
      simp only [State.consume, hget] at hstep
      split_ifs at hstep with hempty
      -- the ring is empty, and the call returns nothing
      · obtain rfl := Option.some.inj hstep
        have hsame := received_append_none st
        exact {
          writePos := h.writePos
          readPos := by rw [hsame]; exact h.readPos
          received := by rw [hsame]; exact h.received
          room := by rw [hsame]; exact h.room
          slots := by rw [hsame]; exact h.slots
          producer := by rw [hsame]; exact h.producer
          consumer := trivial }
      · obtain rfl := Option.some.inj hstep
        refine { h with consumer := ⟨hconsumer, ?_⟩ }
        rw [h.empty_iff] at hempty
        exact lt_of_le_of_ne h.received.length_le (Ne.symm hempty)
  | loading pos =>
      rw [hget] at hconsumer
      obtain ⟨rfl, hlt⟩ := hconsumer
      simp only [State.consume, hget] at hstep
      obtain rfl := Option.some.inj hstep
      exact { h with consumer := ⟨hlt, h.slots _ le_rfl hlt⟩ }
  | advancing data =>
      rw [hget] at hconsumer
      obtain ⟨hlt, hdata⟩ := hconsumer
      rw [List.getElem?_eq_getElem hlt] at hdata
      subst hdata
      simp only [State.consume, hget] at hstep
      obtain rfl := Option.some.inj hstep
      -- the item counts as received when `readPos` moves
      set item := st.completed[st.received.length] with hitem
      have hreceived : ({ st with
          readPos := (st.readPos + 1) % 2 ^ 64
          consumer := .idle
          results := st.results ++ [some item] } : State α).received = st.received ++ [item] := by
        simp [State.received]
      have hlength : (st.received ++ [item]).length = st.received.length + 1 := by simp
      exact {
        writePos := h.writePos
        readPos := by
          rw [hreceived, hlength]
          change (st.readPos + 1) % 2 ^ 64 = _
          rw [h.readPos, Nat.mod_add_mod]
        received := by
          rw [hreceived]
          obtain ⟨rest, hrest⟩ := h.received
          have hdrop : rest = item :: st.completed.drop (st.received.length + 1) := by
            rw [← @List.drop_left' _ st.received rest _ rfl, hrest, List.drop_eq_getElem_cons hlt]
          refine ⟨st.completed.drop (st.received.length + 1), ?_⟩
          rw [List.append_assoc, List.singleton_append, ← hdrop, hrest]
        room := by
          rw [hreceived, hlength]
          have := h.room
          change st.completed.length < _
          omega
        slots := by
          rw [hreceived, hlength]
          exact fun i hlow hi => h.slots i (by omega) hi
        producer := by
          rw [hreceived, hlength]
          exact h.producer.succ
        consumer := trivial }

theorem inv_of_reachable (h : Reachable cfg st) : Inv cfg st := by
  refine h.invariant (Inv cfg) inv_init ?_
  intro state next label hinv _ hstep
  cases label with
  | put data =>
      cases hput : state.producer with
      | idle =>
          simp only [system, step, hput] at hstep
          obtain rfl := Option.some.inj hstep
          exact hinv.put data
      | waiting _ _ => simp [system, step, hput] at hstep
      | storing _ _ => simp [system, step, hput] at hstep
      | advancing _ => simp [system, step, hput] at hstep
  | produce => exact hinv.produce hstep
  | get =>
      cases hget : state.consumer with
      | idle =>
          simp only [system, step, hget] at hstep
          obtain rfl := Option.some.inj hstep
          exact hinv.get
      | testing _ => simp [system, step, hget] at hstep
      | loading _ => simp [system, step, hget] at hstep
      | advancing _ => simp [system, step, hget] at hstep
  | consume => exact hinv.consume hstep

end PointerRingBuffer

end TrafficDatabase
