import Mathlib.Data.List.Infix
import Mathlib.Data.Nat.Count
import TrafficDatabase.Library.TransitionSystem

/-!
# The ring with a flag for each slot

The `PointerRingBuffer` of `pointerRingBuffer.hpp` is for any number of producers and
consumers.  `put` and `get` draw a position from a counter and wait at its slot until the
flag of the slot says that it is empty, or that it holds an item.  The test of the flag and
the access to the slot are separate steps.

As long as one producer and one consumer at a time are past the test of a slot, the flag
says in turn who owns the slot, and each slot is a queue for at most one item
(`delivers_of_turns`).  But positions a lap apart have the same slot, and nothing keeps two
producers, or two consumers, from passing the test together.  And a consumer that finds
the ring stopped leaves without an item, although it has drawn a position.
-/

namespace TrafficDatabase

/-- A capacity the constructor takes. -/
structure SignalRingConfig where
  capacity : ℕ
  capacity_lt : capacity < 2 ^ 32
  isPowerOfTwo : ∃ k, capacity = 2 ^ k

namespace SignalRing

/-- Where a producer is in `put`, with its slot. -/
inductive Put (α : Type*)
  | idle
  | waiting (data : α) (pos : ℕ)
  | storing (data : α) (pos : ℕ)
  | signalling (data : α) (pos : ℕ)
deriving DecidableEq

/-- Where a consumer is in `get`; at `stopping` it has found the slot empty. -/
inductive Get (α : Type*)
  | idle
  | testing (pos : ℕ)
  | stopping (pos : ℕ)
  | loading (pos : ℕ)
  | clearing (data : Option α) (pos : ℕ)
deriving DecidableEq

/-- The slot of a producer past its test. -/
def Put.claimed {α : Type*} : Put α → Option ℕ
  | .storing _ pos | .signalling _ pos => some pos
  | _ => none

/-- The slot of a consumer past its test. -/
def Get.claimed {α : Type*} : Get α → Option ℕ
  | .loading pos | .clearing _ pos => some pos
  | _ => none

/-- The slot of a call in flight. -/
def Get.slot {α : Type*} : Get α → Option ℕ
  | .idle => none
  | .testing pos | .stopping pos | .loading pos | .clearing _ pos => some pos

/-- The next access is to the stop flag. -/
def Get.looksAtStop {α : Type*} : Get α → Bool
  | .stopping _ => true
  | _ => false

/-- The ring with its threads.  The last four fields are what has happened so far, which no
step looks at: for each slot the items that were stored there, those of them whose `put` has
returned, and what the calls of `get` have returned from it; and the calls of `get`. -/
structure State (α Producer Consumer : Type*) where
  pointers : ℕ → Option α
  signalBuffer : ℕ → Bool
  writePos : ℕ
  readPos : ℕ
  stop : Bool
  producer : Producer → Put α
  consumer : Consumer → Get α
  stored : ℕ → List α
  completed : ℕ → List α
  returned : ℕ → List (Option α)
  begun : ℕ

inductive Label (α Producer Consumer : Type*)
  | put (p : Producer) (data : α)
  | produce (p : Producer)
  | get (c : Consumer)
  | consume (c : Consumer)
  | asynchronousStop

variable {α Producer Consumer : Type*} [DecidableEq Producer] [DecidableEq Consumer]
  (cfg : SignalRingConfig)

namespace State

def init : State α Producer Consumer :=
  { pointers := fun _ => none
    signalBuffer := fun _ => false
    writePos := 0
    readPos := 0
    stop := false
    producer := fun _ => .idle
    consumer := fun _ => .idle
    stored := fun _ => []
    completed := fun _ => []
    returned := fun _ => []
    begun := 0 }

variable (st : State α Producer Consumer)

def setProducer (p : Producer) (stage : Put α) : State α Producer Consumer :=
  { st with producer := Function.update st.producer p stage }

def setConsumer (c : Consumer) (stage : Get α) : State α Producer Consumer :=
  { st with consumer := Function.update st.consumer c stage }

omit [DecidableEq Consumer] in
@[simp] theorem setProducer_producer_self (p : Producer) (stage : Put α) :
    (st.setProducer p stage).producer p = stage := Function.update_self ..

omit [DecidableEq Consumer] in
theorem setProducer_producer_of_ne {p q : Producer} (hne : q ≠ p) (stage : Put α) :
    (st.setProducer p stage).producer q = st.producer q := Function.update_of_ne hne ..

omit [DecidableEq Producer] in
@[simp] theorem setConsumer_consumer_self (c : Consumer) (stage : Get α) :
    (st.setConsumer c stage).consumer c = stage := Function.update_self ..

omit [DecidableEq Producer] in
theorem setConsumer_consumer_of_ne {c d : Consumer} (hne : d ≠ c) (stage : Get α) :
    (st.setConsumer c stage).consumer d = st.consumer d := Function.update_of_ne hne ..

/-- The next access of a call of `put`. -/
def produce (p : Producer) : Option (State α Producer Consumer) :=
  match st.producer p with
  | .idle => none
  | .waiting data pos =>
      if st.signalBuffer pos then some st else some (st.setProducer p (.storing data pos))
  | .storing data pos =>
      some { st.setProducer p (.signalling data pos) with
        pointers := Function.update st.pointers pos (some data)
        stored := Function.update st.stored pos (st.stored pos ++ [data]) }
  | .signalling data pos =>
      some { st.setProducer p .idle with
        signalBuffer := Function.update st.signalBuffer pos true
        completed := Function.update st.completed pos (st.completed pos ++ [data]) }

/-- The next access of a call of `get`. -/
def consume (c : Consumer) : Option (State α Producer Consumer) :=
  match st.consumer c with
  | .idle => none
  | .testing pos =>
      if st.signalBuffer pos then some (st.setConsumer c (.loading pos))
      else some (st.setConsumer c (.stopping pos))
  | .stopping pos =>
      if st.stop then some (st.setConsumer c .idle) else some (st.setConsumer c (.testing pos))
  | .loading pos => some (st.setConsumer c (.clearing (st.pointers pos) pos))
  | .clearing data pos =>
      some { st.setConsumer c .idle with
        signalBuffer := Function.update st.signalBuffer pos false
        returned := Function.update st.returned pos (st.returned pos ++ [data]) }

end State

def step (st : State α Producer Consumer) :
    Label α Producer Consumer → Option (State α Producer Consumer)
  | .put p data =>
      match st.producer p with
      | .idle =>
          some { st.setProducer p (.waiting data (st.writePos % cfg.capacity)) with
            writePos := (st.writePos + 1) % 2 ^ 64 }
      | _ => none
  | .produce p => st.produce p
  | .get c =>
      match st.consumer c with
      | .idle =>
          some { st.setConsumer c (.testing (st.readPos % cfg.capacity)) with
            readPos := (st.readPos + 1) % 2 ^ 64
            begun := st.begun + 1 }
      | _ => none
  | .consume c => st.consume c
  | .asynchronousStop => some { st with stop := true }

/-- The ring with its producers and consumers. -/
def system (α Producer Consumer : Type*) [DecidableEq Producer] [DecidableEq Consumer] :
    TransitionSystem (State α Producer Consumer) (Label α Producer Consumer) :=
  { init := State.init, step := step cfg }

/-- A producer does not pass the test of a slot while another one is past it. -/
def State.ProducerTurn (st : State α Producer Consumer) (p : Producer) : Put α → Prop
  | .waiting _ pos =>
      st.signalBuffer pos = false → ∀ q, q ≠ p → (st.producer q).claimed ≠ some pos
  | _ => True

/-- Nor does a consumer, and none finds its slot empty when the ring is stopped. -/
def State.ConsumerTurn (st : State α Producer Consumer) (c : Consumer) : Get α → Prop
  | .testing pos =>
      (st.signalBuffer pos = true → ∀ d, d ≠ c → (st.consumer d).claimed ≠ some pos) ∧
        (st.signalBuffer pos = false → st.stop = false)
  | _ => True

/-- The threads take turns at the slots, and no call of `get` comes to find its slot empty and
the ring stopped. -/
def TakesTurns (st : State α Producer Consumer) : Label α Producer Consumer → Prop
  | .produce p => st.ProducerTurn p (st.producer p)
  | .consume c => st.ConsumerTurn c (st.consumer c)
  | .asynchronousStop => ∀ c, (st.consumer c).looksAtStop = false
  | _ => True

section Decidable

variable [Fintype Producer] [Fintype Consumer] (st : State α Producer Consumer)

instance (p : Producer) : DecidablePred (st.ProducerTurn p)
  | .waiting .. => inferInstanceAs (Decidable (_ → _))
  | .idle | .storing .. | .signalling .. => .isTrue trivial

instance (c : Consumer) : DecidablePred (st.ConsumerTurn c)
  | .testing _ => inferInstanceAs (Decidable (_ ∧ _))
  | .idle | .stopping _ | .loading _ | .clearing .. => .isTrue trivial

instance : DecidablePred (TakesTurns st)
  | .produce p => inferInstanceAs (Decidable (st.ProducerTurn p _))
  | .consume c => inferInstanceAs (Decidable (st.ConsumerTurn c _))
  | .asynchronousStop => inferInstanceAs (Decidable (∀ _, _))
  | .put .. | .get _ => .isTrue trivial

end Decidable

/-! ## What the ring promises -/

/-- After so many steps of the consumer alone the item at an index of a slot is returned. -/
def ReturnsAfter (steps : ℕ) (st : State α Producer Consumer) (c : Consumer) (slot i : ℕ) : Prop :=
  ∃ last, (system cfg α Producer Consumer).run st (List.replicate steps (.consume c)) = some last ∧
    i < (last.returned slot).length

/-- Each item is returned once, is not overwritten before, and does not stay behind. -/
structure Delivers (st : State α Producer Consumer) : Prop where
  /-- The items of a slot are returned one by one in the order they were stored. -/
  once : ∀ slot, st.returned slot <+: (st.completed slot).map some ∧
    st.completed slot <+: st.stored slot
  /-- Where an item is about to be stored, all before it have been returned. -/
  kept : ∀ p data slot, st.producer p = .storing data slot →
    st.returned slot = (st.stored slot).map some
  /-- When as many calls of `get` have been made as there are positions up to that of an item,
  it has been returned, or a call for its slot returns it within four steps of its own. -/
  comes : ∀ slot i, slot < cfg.capacity → i < (st.completed slot).length →
    slot + i * cfg.capacity < st.begun → i < (st.returned slot).length ∨
      ∃ c, (st.consumer c).slot = some slot ∧ ∃ steps ≤ 4, ReturnsAfter cfg steps st c slot i

/-! ## Who is past a test -/

/-- One producer at most is past the test of a slot, and then its flag is clear; one consumer
at most, and then it is set. -/
structure Claims (signalBuffer : ℕ → Bool) (stop : Bool) (producer : Producer → Put α)
    (consumer : Consumer → Get α) : Prop where
  clear : ∀ p slot, (producer p).claimed = some slot → signalBuffer slot = false
  producer_unique : ∀ p q slot, (producer p).claimed = some slot →
    (producer q).claimed = some slot → p = q
  set : ∀ c slot, (consumer c).claimed = some slot → signalBuffer slot = true
  consumer_unique : ∀ c d slot, (consumer c).claimed = some slot →
    (consumer d).claimed = some slot → c = d
  running : ∀ c pos, consumer c = .stopping pos → stop = false

namespace Claims

variable {signalBuffer : ℕ → Bool} {stop : Bool} {producer : Producer → Put α}
  {consumer : Consumer → Get α} {p : Producer} {c : Consumer} {put : Put α} {get : Get α}
  {slot : ℕ}

omit [DecidableEq Consumer] in
theorem setProducer (h : Claims signalBuffer stop producer consumer)
    (hput : ∀ slot, put.claimed = some slot → signalBuffer slot = false ∧
      ∀ q, q ≠ p → (producer q).claimed ≠ some slot) :
    Claims signalBuffer stop (Function.update producer p put) consumer where
  clear := by
    intro q slot hq
    by_cases hqp : q = p
    · rw [hqp, Function.update_self] at hq
      exact (hput slot hq).1
    · rw [Function.update_of_ne hqp] at hq
      exact h.clear q slot hq
  producer_unique := by
    intro q r slot hq hr
    by_cases hqp : q = p <;> by_cases hrp : r = p
    · rw [hqp, hrp]
    · rw [hqp, Function.update_self] at hq
      rw [Function.update_of_ne hrp] at hr
      exact absurd hr ((hput slot hq).2 r hrp)
    · rw [hrp, Function.update_self] at hr
      rw [Function.update_of_ne hqp] at hq
      exact absurd hq ((hput slot hr).2 q hqp)
    · rw [Function.update_of_ne hqp] at hq
      rw [Function.update_of_ne hrp] at hr
      exact h.producer_unique q r slot hq hr
  set := h.set
  consumer_unique := h.consumer_unique
  running := h.running

omit [DecidableEq Producer] in
theorem setConsumer (h : Claims signalBuffer stop producer consumer)
    (hget : ∀ slot, get.claimed = some slot → signalBuffer slot = true ∧
      ∀ d, d ≠ c → (consumer d).claimed ≠ some slot)
    (hstop : ∀ pos, get = .stopping pos → stop = false) :
    Claims signalBuffer stop producer (Function.update consumer c get) where
  clear := h.clear
  producer_unique := h.producer_unique
  set := by
    intro d slot hd
    by_cases hdc : d = c
    · rw [hdc, Function.update_self] at hd
      exact (hget slot hd).1
    · rw [Function.update_of_ne hdc] at hd
      exact h.set d slot hd
  consumer_unique := by
    intro d e slot hd he
    by_cases hdc : d = c <;> by_cases hec : e = c
    · rw [hdc, hec]
    · rw [hdc, Function.update_self] at hd
      rw [Function.update_of_ne hec] at he
      exact absurd he ((hget slot hd).2 e hec)
    · rw [hec, Function.update_self] at he
      rw [Function.update_of_ne hdc] at hd
      exact absurd hd ((hget slot he).2 d hdc)
    · rw [Function.update_of_ne hdc] at hd
      rw [Function.update_of_ne hec] at he
      exact h.consumer_unique d e slot hd he
  running := by
    intro d pos hd
    by_cases hdc : d = c
    · rw [hdc, Function.update_self] at hd
      exact hstop pos hd
    · rw [Function.update_of_ne hdc] at hd
      exact h.running d pos hd

omit [DecidableEq Producer] [DecidableEq Consumer] in
/-- The flag of a slot changes hands when nobody is past the test that it ends. -/
theorem setSignal (h : Claims signalBuffer stop producer consumer) {flag : Bool}
    (hproducer : flag = true → ∀ p, (producer p).claimed ≠ some slot)
    (hconsumer : flag = false → ∀ c, (consumer c).claimed ≠ some slot) :
    Claims (Function.update signalBuffer slot flag) stop producer consumer where
  clear := by
    intro p other hp
    by_cases heq : other = slot
    · rw [heq, Function.update_self]
      rw [heq] at hp
      cases flag with
      | false => rfl
      | true => exact absurd hp (hproducer rfl p)
    · rw [Function.update_of_ne heq]
      exact h.clear p other hp
  producer_unique := h.producer_unique
  set := by
    intro c other hc
    by_cases heq : other = slot
    · rw [heq, Function.update_self]
      rw [heq] at hc
      cases flag with
      | true => rfl
      | false => exact absurd hc (hconsumer rfl c)
    · rw [Function.update_of_ne heq]
      exact h.set c other hc
  consumer_unique := h.consumer_unique
  running := h.running

end Claims

/-! ## What is in a slot -/

/-- A slot is empty, or being filled, or full, or being emptied. -/
structure Content (signal : Bool) (pointer : Option α) (stored completed : List α)
    (returned : List (Option α)) (signalling : α → Prop) (clearing : Option α → Prop) : Prop where
  empty : signal = false → (∀ data, ¬ signalling data) →
    completed = stored ∧ returned = stored.map some
  filled : ∀ data, signalling data →
    pointer = some data ∧ stored = completed ++ [data] ∧ returned = completed.map some
  full : signal = true → (∀ data, ¬ clearing data) →
    completed = stored ∧ stored.map some = returned ++ [pointer]
  emptied : ∀ data, clearing data → completed = stored ∧ stored.map some = returned ++ [data]

namespace Content

variable {pointer : Option α} {stored completed : List α} {returned : List (Option α)}
  {signalling : α → Prop} {clearing : Option α → Prop} {data : α} {taken : Option α}
  {signal : Bool}

theorem of_empty (hsignalling : ∀ data, ¬ signalling data) (hclearing : ∀ data, ¬ clearing data) :
    Content false pointer stored stored (stored.map some) signalling clearing where
  empty := fun _ _ => ⟨rfl, rfl⟩
  filled := fun data h => absurd h (hsignalling data)
  full := fun h => absurd h Bool.false_ne_true
  emptied := fun data h => absurd h (hclearing data)

theorem of_filled (hsignalling : ∀ other, signalling other ↔ other = data)
    (hclearing : ∀ data, ¬ clearing data) :
    Content false (some data) (completed ++ [data]) completed (completed.map some) signalling
      clearing where
  empty := fun _ h => absurd ((hsignalling data).mpr rfl) (h data)
  filled := fun other h => by
    rw [(hsignalling other).mp h]
    exact ⟨rfl, rfl, rfl⟩
  full := fun h => absurd h Bool.false_ne_true
  emptied := fun data h => absurd h (hclearing data)

theorem of_full (hsignalling : ∀ data, ¬ signalling data)
    (hreturned : stored.map some = returned ++ [pointer]) (hclearing : ∀ data, ¬ clearing data) :
    Content true pointer stored stored returned signalling clearing where
  empty := fun h => absurd h.symm Bool.false_ne_true
  filled := fun data h => absurd h (hsignalling data)
  full := fun _ _ => ⟨rfl, hreturned⟩
  emptied := fun data h => absurd h (hclearing data)

theorem of_emptied (hsignalling : ∀ data, ¬ signalling data)
    (hreturned : stored.map some = returned ++ [taken])
    (hclearing : ∀ other, clearing other ↔ other = taken) :
    Content true pointer stored stored returned signalling clearing where
  empty := fun h => absurd h.symm Bool.false_ne_true
  filled := fun data h => absurd h (hsignalling data)
  full := fun _ h => absurd ((hclearing taken).mpr rfl) (h taken)
  emptied := fun other h => by
    rw [(hclearing other).mp h]
    exact ⟨rfl, hreturned⟩

/-- The items that have been returned are those of the completed calls of `put`, but for one
where the flag is set. -/
theorem cases (h : Content signal pointer stored completed returned signalling clearing) :
    signal = false ∧ completed <+: stored ∧ returned = completed.map some ∨
      signal = true ∧ completed = stored ∧ ∃ item, completed.map some = returned ++ [item] := by
  cases signal with
  | false =>
      by_cases hnobody : ∀ data, ¬ signalling data
      · obtain ⟨hcompleted, hreturned⟩ := h.empty rfl hnobody
        exact .inl ⟨rfl, hcompleted ▸ List.prefix_refl _, hcompleted ▸ hreturned⟩
      · obtain ⟨data, hdata⟩ := not_forall_not.mp hnobody
        obtain ⟨-, hstored, hreturned⟩ := h.filled data hdata
        exact .inl ⟨rfl, hstored ▸ List.prefix_append .., hreturned⟩
  | true =>
      by_cases hnobody : ∀ data, ¬ clearing data
      · obtain ⟨hcompleted, hreturned⟩ := h.full rfl hnobody
        exact .inr ⟨rfl, hcompleted, pointer, hcompleted ▸ hreturned⟩
      · obtain ⟨data, hdata⟩ := not_forall_not.mp hnobody
        obtain ⟨hcompleted, hreturned⟩ := h.emptied data hdata
        exact .inr ⟨rfl, hcompleted, data, hcompleted ▸ hreturned⟩

end Content

/-- Some producer has stored this item in the slot and not yet set its flag. -/
def Signalling (producer : Producer → Put α) (slot : ℕ) (data : α) : Prop :=
  ∃ p, producer p = .signalling data slot

/-- Some consumer has read this from the slot and not yet cleared its flag. -/
def Clearing (consumer : Consumer → Get α) (slot : ℕ) (data : Option α) : Prop :=
  ∃ c, consumer c = .clearing data slot

section Others

variable {producer : Producer → Put α} {consumer : Consumer → Get α} {p : Producer} {c : Consumer}
  {put : Put α} {get : Get α} {slot : ℕ}

theorem signalling_update (hold : ∀ data, producer p ≠ .signalling data slot)
    (hput : ∀ data, put ≠ .signalling data slot) :
    Signalling (Function.update producer p put) slot = Signalling producer slot := by
  funext data
  refine propext ⟨fun ⟨q, hq⟩ => ⟨q, ?_⟩, fun ⟨q, hq⟩ => ⟨q, ?_⟩⟩
  · by_cases hqp : q = p
    · rw [hqp, Function.update_self] at hq
      exact absurd hq (hput data)
    · rwa [Function.update_of_ne hqp] at hq
  · have hqp : q ≠ p := fun heq => hold data (heq ▸ hq)
    rwa [Function.update_of_ne hqp]

theorem clearing_update (hold : ∀ data, consumer c ≠ .clearing data slot)
    (hget : ∀ data, get ≠ .clearing data slot) :
    Clearing (Function.update consumer c get) slot = Clearing consumer slot := by
  funext data
  refine propext ⟨fun ⟨d, hd⟩ => ⟨d, ?_⟩, fun ⟨d, hd⟩ => ⟨d, ?_⟩⟩
  · by_cases hdc : d = c
    · rw [hdc, Function.update_self] at hd
      exact absurd hd (hget data)
    · rwa [Function.update_of_ne hdc] at hd
  · have hdc : d ≠ c := fun heq => hold data (heq ▸ hd)
    rwa [Function.update_of_ne hdc]

theorem signalling_self {data other : α}
    (hothers : ∀ q, q ≠ p → (producer q).claimed ≠ some slot) :
    Signalling (Function.update producer p (.signalling data slot)) slot other ↔ other = data := by
  refine ⟨fun ⟨q, hq⟩ => ?_, fun heq => ⟨p, by rw [heq, Function.update_self]⟩⟩
  by_cases hqp : q = p
  · rw [hqp, Function.update_self] at hq
    exact (Put.signalling.inj hq).1.symm
  · rw [Function.update_of_ne hqp] at hq
    exact absurd (by rw [hq, Put.claimed]) (hothers q hqp)

theorem clearing_self {data other : Option α}
    (hothers : ∀ d, d ≠ c → (consumer d).claimed ≠ some slot) :
    Clearing (Function.update consumer c (.clearing data slot)) slot other ↔ other = data := by
  refine ⟨fun ⟨d, hd⟩ => ?_, fun heq => ⟨c, by rw [heq, Function.update_self]⟩⟩
  by_cases hdc : d = c
  · rw [hdc, Function.update_self] at hd
    exact (Get.clearing.inj hd).1.symm
  · rw [Function.update_of_ne hdc] at hd
    exact absurd (by rw [hd, Get.claimed]) (hothers d hdc)

omit [DecidableEq Producer] in
theorem not_signalling_of_claimed {data : α} (h : ∀ p, (producer p).claimed ≠ some slot) :
    ¬ Signalling producer slot data := fun ⟨p, hp⟩ => h p (by rw [hp, Put.claimed])

omit [DecidableEq Consumer] in
theorem not_clearing_of_claimed {data : Option α} (h : ∀ c, (consumer c).claimed ≠ some slot) :
    ¬ Clearing consumer slot data := fun ⟨c, hc⟩ => h c (by rw [hc, Get.claimed])

end Others

/-- What the slots hold. -/
def State.Contents (st : State α Producer Consumer) : Prop :=
  ∀ slot, Content (st.signalBuffer slot) (st.pointers slot) (st.stored slot) (st.completed slot)
    (st.returned slot) (Signalling st.producer slot) (Clearing st.consumer slot)

/-- The calls of `get` for a slot are in flight, or have returned an item. -/
def State.Counted (st : State α Producer Consumer) : Prop :=
  st.readPos = st.begun % 2 ^ 64 ∧ ∀ slot, ∃ inFlight : List Consumer, inFlight.Nodup ∧
    (∀ c, c ∈ inFlight ↔ (st.consumer c).slot = some slot) ∧
    (st.returned slot).length + inFlight.length =
      Nat.count (fun pos => pos % cfg.capacity = slot) st.begun

/-- Nothing is different about a slot. -/
structure State.SameAt (st after : State α Producer Consumer) (slot : ℕ) : Prop where
  signalBuffer : after.signalBuffer slot = st.signalBuffer slot
  pointers : after.pointers slot = st.pointers slot
  stored : after.stored slot = st.stored slot
  completed : after.completed slot = st.completed slot
  returned : after.returned slot = st.returned slot
  signalling : Signalling after.producer slot = Signalling st.producer slot
  clearing : Clearing after.consumer slot = Clearing st.consumer slot

omit [DecidableEq Producer] [DecidableEq Consumer] in
/-- A step at one slot. -/
theorem State.Contents.update {st after : State α Producer Consumer} (h : st.Contents)
    (pos : ℕ) (hothers : ∀ slot, slot ≠ pos → st.SameAt after slot)
    (hpos : Content (after.signalBuffer pos) (after.pointers pos) (after.stored pos)
      (after.completed pos) (after.returned pos) (Signalling after.producer pos)
      (Clearing after.consumer pos)) : after.Contents := by
  intro slot
  by_cases hslot : slot = pos
  · rw [hslot]
    exact hpos
  · obtain ⟨hsignal, hpointers, hstored, hcompleted, hreturned, hsignalling, hclearing⟩ :=
      hothers slot hslot
    rw [hsignal, hpointers, hstored, hcompleted, hreturned, hsignalling, hclearing]
    exact h slot

structure State.Inv (st : State α Producer Consumer) : Prop where
  claims : Claims st.signalBuffer st.stop st.producer st.consumer
  contents : st.Contents
  counted : st.Counted cfg

namespace State.Inv

variable {cfg} {st : State α Producer Consumer} {p : Producer} {c : Consumer} {put : Put α}
  {get : Get α} {data : α} {pos : ℕ}

omit [DecidableEq Consumer] in
/-- A producer that neither has stored an item nor does so now. -/
theorem setProducer (h : st.Inv cfg) (hold : ∀ data slot, st.producer p ≠ .signalling data slot)
    (hput : ∀ data slot, put ≠ .signalling data slot)
    (hclaim : ∀ slot, put.claimed = some slot → st.signalBuffer slot = false ∧
      ∀ q, q ≠ p → (st.producer q).claimed ≠ some slot) : (st.setProducer p put).Inv cfg where
  claims := h.claims.setProducer hclaim
  contents := by
    intro slot
    have hslot := h.contents slot
    rw [← signalling_update (fun data => hold data slot) fun data => hput data slot] at hslot
    exact hslot
  counted := h.counted

omit [DecidableEq Producer] in
/-- A consumer that stays at its slot and neither has taken an item nor does so now. -/
theorem setConsumer (h : st.Inv cfg) (hold : ∀ data slot, st.consumer c ≠ .clearing data slot)
    (hget : ∀ data slot, get ≠ .clearing data slot) (hsame : get.slot = (st.consumer c).slot)
    (hclaim : ∀ slot, get.claimed = some slot → st.signalBuffer slot = true ∧
      ∀ d, d ≠ c → (st.consumer d).claimed ≠ some slot)
    (hstop : ∀ pos, get = .stopping pos → st.stop = false) : (st.setConsumer c get).Inv cfg where
  claims := h.claims.setConsumer hclaim hstop
  contents := by
    intro slot
    have hslot := h.contents slot
    rw [← clearing_update (fun data => hold data slot) fun data => hget data slot] at hslot
    exact hslot
  counted := by
    refine ⟨h.counted.1, fun slot => ?_⟩
    obtain ⟨inFlight, hnodup, hmem, hcount⟩ := h.counted.2 slot
    refine ⟨inFlight, hnodup, fun d => ?_, hcount⟩
    rw [hmem]
    by_cases hdc : d = c
    · rw [hdc, setConsumer_consumer_self, hsame]
    · rw [setConsumer_consumer_of_ne st hdc]

section Slots

omit [DecidableEq Producer] [DecidableEq Consumer]

/-- The flag of a slot says which side is not past its test. -/
theorem claimed_ne_of_clear (h : st.Inv cfg) (hclear : st.signalBuffer pos = false)
    (c : Consumer) : (st.consumer c).claimed ≠ some pos := by
  intro hc
  rw [h.claims.set c pos hc] at hclear
  exact Bool.false_ne_true hclear.symm

theorem claimed_ne_of_set (h : st.Inv cfg) (hset : st.signalBuffer pos = true) (p : Producer) :
    (st.producer p).claimed ≠ some pos := by
  intro hp
  rw [h.claims.clear p pos hp] at hset
  exact Bool.false_ne_true hset

theorem others_producer (h : st.Inv cfg) (hclaimed : (st.producer p).claimed = some pos)
    (q : Producer) (hqp : q ≠ p) : (st.producer q).claimed ≠ some pos := fun hq =>
  hqp (h.claims.producer_unique q p pos hq hclaimed)

theorem others_consumer (h : st.Inv cfg) (hclaimed : (st.consumer c).claimed = some pos)
    (d : Consumer) (hdc : d ≠ c) : (st.consumer d).claimed ≠ some pos := fun hd =>
  hdc (h.claims.consumer_unique d c pos hd hclaimed)

/-- The slot is empty when an item is stored. -/
theorem empty_of_storing (h : st.Inv cfg) (hstage : st.producer p = .storing data pos) :
    st.completed pos = st.stored pos ∧ st.returned pos = (st.stored pos).map some := by
  have hclaimed : (st.producer p).claimed = some pos := by rw [hstage, Put.claimed]
  refine (h.contents pos).empty (h.claims.clear p pos hclaimed) ?_
  rintro other ⟨q, hq⟩
  obtain rfl := h.claims.producer_unique q p pos (by rw [hq, Put.claimed]) hclaimed
  simp [hstage] at hq

/-- The slot is full when its item is read. -/
theorem full_of_loading (h : st.Inv cfg) (hstage : st.consumer c = .loading pos) :
    st.completed pos = st.stored pos ∧
      (st.stored pos).map some = st.returned pos ++ [st.pointers pos] := by
  have hclaimed : (st.consumer c).claimed = some pos := by rw [hstage, Get.claimed]
  refine (h.contents pos).full (h.claims.set c pos hclaimed) ?_
  rintro other ⟨d, hd⟩
  obtain rfl := h.claims.consumer_unique d c pos (by rw [hd, Get.claimed]) hclaimed
  simp [hstage] at hd

end Slots

omit [DecidableEq Consumer] in
theorem store (h : st.Inv cfg) (hstage : st.producer p = .storing data pos) :
    ({ st.setProducer p (.signalling data pos) with
      pointers := Function.update st.pointers pos (some data)
      stored := Function.update st.stored pos (st.stored pos ++ [data]) } :
        State α Producer Consumer).Inv cfg := by
  have hclaimed : (st.producer p).claimed = some pos := by rw [hstage, Put.claimed]
  have hclear := h.claims.clear p pos hclaimed
  obtain ⟨hcompleted, hreturned⟩ := h.empty_of_storing hstage
  refine ⟨?_, h.contents.update pos (fun slot hslot => ?_) ?_, h.counted⟩
  · refine h.claims.setProducer fun slot hslot => ?_
    obtain rfl := Option.some.inj hslot
    exact ⟨hclear, h.others_producer hclaimed⟩
  · exact ⟨rfl, Function.update_of_ne hslot .., Function.update_of_ne hslot .., rfl, rfl,
      signalling_update (by simp [hstage]) (by simp [Ne.symm hslot]), rfl⟩
  · have hfilled := @Content.of_filled α (st.stored pos)
      (Signalling (Function.update st.producer p (.signalling data pos)) pos)
      (Clearing st.consumer pos) data (fun _ => signalling_self (h.others_producer hclaimed))
      fun _ => not_clearing_of_claimed (h.claimed_ne_of_clear hclear)
    rw [← hreturned, ← hclear] at hfilled
    refine Eq.mp ?_ hfilled
    congr 1
    · exact (Function.update_self pos _ st.pointers).symm
    · exact (Function.update_self pos _ st.stored).symm
    · exact hcompleted.symm

omit [DecidableEq Consumer] in
/-- Setting the flag hands the item over. -/
theorem signal (h : st.Inv cfg) (hstage : st.producer p = .signalling data pos) :
    ({ st.setProducer p .idle with
      signalBuffer := Function.update st.signalBuffer pos true
      completed := Function.update st.completed pos (st.completed pos ++ [data]) } :
        State α Producer Consumer).Inv cfg := by
  have hclaimed : (st.producer p).claimed = some pos := by rw [hstage, Put.claimed]
  have hclear := h.claims.clear p pos hclaimed
  obtain ⟨hpointer, hstored, hreturned⟩ := (h.contents pos).filled data ⟨p, hstage⟩
  have hnobody : ∀ q, (Function.update st.producer p .idle q).claimed ≠ some pos := by
    intro q
    by_cases hqp : q = p
    · rw [hqp, Function.update_self]
      exact fun hidle => Option.some_ne_none _ hidle.symm
    · rw [Function.update_of_ne hqp]
      exact h.others_producer hclaimed q hqp
  refine ⟨?_, h.contents.update pos (fun slot hslot => ?_) ?_, h.counted⟩
  · have hidle : Claims st.signalBuffer st.stop (Function.update st.producer p .idle) st.consumer :=
      h.claims.setProducer fun slot hslot => absurd hslot.symm (Option.some_ne_none _)
    exact hidle.setSignal (fun _ => hnobody) fun hfalse => absurd hfalse.symm Bool.false_ne_true
  · exact ⟨Function.update_of_ne hslot .., rfl, rfl, Function.update_of_ne hslot .., rfl,
      signalling_update (by simp [hstage, Ne.symm hslot]) (by simp), rfl⟩
  · have hfull := @Content.of_full α (st.pointers pos) (st.stored pos) (st.returned pos)
      (Signalling (Function.update st.producer p .idle) pos) (Clearing st.consumer pos)
      (fun _ => not_signalling_of_claimed hnobody)
      (by rw [hstored, hreturned, hpointer, List.map_append]; rfl)
      fun _ => not_clearing_of_claimed (h.claimed_ne_of_clear hclear)
    refine Eq.mp ?_ hfull
    congr 1
    · exact (Function.update_self pos true st.signalBuffer).symm
    · exact hstored.trans (Function.update_self pos _ st.completed).symm

omit [DecidableEq Producer] in
theorem load (h : st.Inv cfg) (hstage : st.consumer c = .loading pos) :
    (st.setConsumer c (.clearing (st.pointers pos) pos)).Inv cfg := by
  have hclaimed : (st.consumer c).claimed = some pos := by rw [hstage, Get.claimed]
  have hset := h.claims.set c pos hclaimed
  obtain ⟨hcompleted, hreturned⟩ := h.full_of_loading hstage
  refine ⟨?_, h.contents.update pos (fun slot hslot => ?_) ?_, h.counted.1, fun slot => ?_⟩
  · refine h.claims.setConsumer (fun slot hslot => ?_) fun _ heq => by simp at heq
    obtain rfl := Option.some.inj hslot
    exact ⟨hset, h.others_consumer hclaimed⟩
  · exact ⟨rfl, rfl, rfl, rfl, rfl, rfl,
      clearing_update (by simp [hstage]) (by simp [Ne.symm hslot])⟩
  · have hemptied := @Content.of_emptied α (st.pointers pos) (st.stored pos) (st.returned pos)
      (Signalling st.producer pos)
      (Clearing (Function.update st.consumer c (.clearing (st.pointers pos) pos)) pos)
      (st.pointers pos) (fun _ => not_signalling_of_claimed (h.claimed_ne_of_set hset)) hreturned
      fun _ => clearing_self (h.others_consumer hclaimed)
    refine Eq.mp ?_ hemptied
    congr 1
    · exact hset.symm
    · exact hcompleted.symm
  · obtain ⟨inFlight, hnodup, hmem, hcount⟩ := h.counted.2 slot
    refine ⟨inFlight, hnodup, fun d => ?_, hcount⟩
    rw [hmem]
    by_cases hdc : d = c
    · rw [hdc, setConsumer_consumer_self, hstage, Get.slot, Get.slot]
    · rw [setConsumer_consumer_of_ne st hdc]

omit [DecidableEq Producer] in
/-- Clearing the flag ends the call with the item. -/
theorem clear {taken : Option α} (h : st.Inv cfg) (hstage : st.consumer c = .clearing taken pos) :
    ({ st.setConsumer c .idle with
      signalBuffer := Function.update st.signalBuffer pos false
      returned := Function.update st.returned pos (st.returned pos ++ [taken]) } :
        State α Producer Consumer).Inv cfg := by
  have hclaimed : (st.consumer c).claimed = some pos := by rw [hstage, Get.claimed]
  have hset := h.claims.set c pos hclaimed
  obtain ⟨hcompleted, hreturned⟩ := (h.contents pos).emptied taken ⟨c, hstage⟩
  -- after this call nobody is past the test of the slot
  have hnobody : ∀ d, (Function.update st.consumer c .idle d).claimed ≠ some pos := by
    intro d
    by_cases hdc : d = c
    · rw [hdc, Function.update_self]
      exact fun hidle => Option.some_ne_none _ hidle.symm
    · rw [Function.update_of_ne hdc]
      exact h.others_consumer hclaimed d hdc
  refine ⟨?_, h.contents.update pos (fun slot hslot => ?_) ?_, h.counted.1, fun slot => ?_⟩
  · have hidle : Claims st.signalBuffer st.stop st.producer (Function.update st.consumer c .idle) :=
      h.claims.setConsumer (fun slot hslot => absurd hslot.symm (Option.some_ne_none _))
        fun _ heq => by simp at heq
    exact hidle.setSignal (fun htrue => absurd htrue Bool.false_ne_true) fun _ => hnobody
  · exact ⟨Function.update_of_ne hslot .., rfl, rfl, rfl, Function.update_of_ne hslot .., rfl,
      clearing_update (by simp [hstage, Ne.symm hslot]) (by simp)⟩
  · have hempty := @Content.of_empty α (st.pointers pos) (st.stored pos)
      (Signalling st.producer pos) (Clearing (Function.update st.consumer c .idle) pos)
      (fun _ => not_signalling_of_claimed (h.claimed_ne_of_set hset))
      fun _ => not_clearing_of_claimed hnobody
    refine Eq.mp ?_ hempty
    congr 1
    · exact (Function.update_self pos false st.signalBuffer).symm
    · exact hcompleted.symm
    · exact hreturned.trans (Function.update_self pos _ st.returned).symm
  -- the call is in flight no more, and one more item of its slot is returned
  · obtain ⟨inFlight, hnodup, hmem, hcount⟩ := h.counted.2 slot
    by_cases hslot : slot = pos
    · subst hslot
      have hc : c ∈ inFlight := (hmem c).mpr (by rw [hstage, Get.slot])
      refine ⟨inFlight.erase c, hnodup.erase c, fun d => ?_, ?_⟩
      · rw [hnodup.mem_erase_iff, hmem]
        by_cases hdc : d = c
        · rw [hdc, setConsumer_consumer_self, Get.slot]
          simp
        · rw [setConsumer_consumer_of_ne st hdc]
          simp [hdc]
      · have hlength :
            (Function.update st.returned slot (st.returned slot ++ [taken]) slot).length =
              (st.returned slot).length + 1 := by
          rw [Function.update_self, List.length_append, List.length_singleton]
        have hpos := List.length_pos_of_mem hc
        have htotal : (st.returned slot).length + 1 + (inFlight.erase c).length =
            Nat.count (fun pos => pos % cfg.capacity = slot) st.begun := by
          rw [List.length_erase_of_mem hc, ← hcount]
          omega
        rw [← hlength] at htotal
        exact htotal
    · refine ⟨inFlight, hnodup, fun d => ?_, ?_⟩
      · rw [hmem]
        by_cases hdc : d = c
        · rw [hdc, setConsumer_consumer_self, hstage, Get.slot, Get.slot]
          simp [Ne.symm hslot]
        · rw [setConsumer_consumer_of_ne st hdc]
      · have hsame : Function.update st.returned pos (st.returned pos ++ [taken]) slot =
            st.returned slot := Function.update_of_ne hslot ..
        rw [← hsame] at hcount
        exact hcount

omit [DecidableEq Producer] in
/-- A call of `get` draws the next position. -/
theorem draw (h : st.Inv cfg) (hidle : st.consumer c = .idle) :
    ({ st.setConsumer c (.testing (st.readPos % cfg.capacity)) with
      readPos := (st.readPos + 1) % 2 ^ 64
      begun := st.begun + 1 } : State α Producer Consumer).Inv cfg := by
  -- the counter wraps at the end of a lap, so both give the same slot
  have hslot : st.readPos % cfg.capacity = st.begun % cfg.capacity := by
    obtain ⟨k, hk⟩ := cfg.isPowerOfTwo
    have hle : k ≤ 64 := by
      by_contra hlt
      have hpow : 2 ^ 64 ≤ 2 ^ k := Nat.pow_le_pow_right (by omega) (by omega)
      have hsmall := cfg.capacity_lt
      omega
    rw [h.counted.1, hk, Nat.mod_mod_of_dvd _ (Nat.pow_dvd_pow 2 hle)]
  refine ⟨?_, fun slot => ?_, ?_, fun slot => ?_⟩
  · exact h.claims.setConsumer (fun slot hslot => absurd hslot.symm (Option.some_ne_none _))
      fun _ heq => by simp at heq
  · have hcontent := h.contents slot
    have hsame := @clearing_update α Consumer _ st.consumer c (.testing (st.readPos % cfg.capacity))
      slot (by simp [hidle]) (by simp)
    rw [← hsame] at hcontent
    exact hcontent
  · have hmod : (st.readPos + 1) % 2 ^ 64 = (st.begun + 1) % 2 ^ 64 := by
      rw [h.counted.1]
      omega
    exact hmod
  · obtain ⟨inFlight, hnodup, hmem, hcount⟩ := h.counted.2 slot
    have hnew : c ∉ inFlight := by
      rw [hmem, hidle, Get.slot]
      simp
    -- the call is in flight at its own slot only
    by_cases heq : st.begun % cfg.capacity = slot
    · refine ⟨c :: inFlight, List.nodup_cons.mpr ⟨hnew, hnodup⟩, fun d => ?_, ?_⟩
      · rw [List.mem_cons, hmem]
        by_cases hdc : d = c
        · rw [hdc, setConsumer_consumer_self, Get.slot, hslot, heq]
          simp
        · rw [setConsumer_consumer_of_ne st hdc]
          simp [hdc]
      · have htotal : (st.returned slot).length + (c :: inFlight).length =
            Nat.count (fun pos => pos % cfg.capacity = slot) (st.begun + 1) := by
          rw [Nat.count_succ, if_pos heq, List.length_cons, ← hcount, Nat.add_assoc]
        exact htotal
    · refine ⟨inFlight, hnodup, fun d => ?_, ?_⟩
      · rw [hmem]
        by_cases hdc : d = c
        · rw [hdc, setConsumer_consumer_self, hidle, Get.slot, Get.slot, hslot]
          simp [heq]
        · rw [setConsumer_consumer_of_ne st hdc]
      · have htotal : (st.returned slot).length + inFlight.length =
            Nat.count (fun pos => pos % cfg.capacity = slot) (st.begun + 1) := by
          rw [Nat.count_succ, if_neg heq, hcount, Nat.add_zero]
        exact htotal

end State.Inv

/-! ## The invariant -/

omit [DecidableEq Producer] [DecidableEq Consumer] in
theorem inv_init : (State.init : State α Producer Consumer).Inv cfg where
  claims :=
    { clear := fun _ _ h => absurd h.symm (Option.some_ne_none _)
      producer_unique := fun _ _ _ h => absurd h.symm (Option.some_ne_none _)
      set := fun _ _ h => absurd h.symm (Option.some_ne_none _)
      consumer_unique := fun _ _ _ h => absurd h.symm (Option.some_ne_none _)
      running := fun _ _ h => by simp [State.init] at h }
  contents := fun _ => .of_empty (fun _ ⟨_, hp⟩ => by simp [State.init] at hp)
    fun _ ⟨_, hc⟩ => by simp [State.init] at hc
  counted := ⟨rfl, fun _ => ⟨[], List.nodup_nil, fun _ => by simp [State.init, Get.slot], rfl⟩⟩

variable {cfg} {st next : State α Producer Consumer} {label : Label α Producer Consumer}

theorem inv_step (h : st.Inv cfg) (hturns : TakesTurns st label)
    (hstep : step cfg st label = some next) : next.Inv cfg := by
  cases label with
  | put p data =>
      cases hstage : st.producer p with
      | idle =>
          simp only [step, hstage, Option.some.injEq] at hstep
          subst hstep
          have hput : (st.setProducer p (.waiting data (st.writePos % cfg.capacity))).Inv cfg :=
            h.setProducer (by simp [hstage]) (by simp) (by simp [Put.claimed])
          exact ⟨hput.claims, hput.contents, hput.counted⟩
      | waiting | storing | signalling => simp [step, hstage] at hstep
  | produce p =>
      cases hstage : st.producer p with
      | idle => simp [step, State.produce, hstage] at hstep
      | waiting data pos =>
          simp only [step, State.produce, hstage] at hstep
          simp only [TakesTurns, State.ProducerTurn, hstage] at hturns
          -- the producer waits on, or nobody else is past the test of the slot
          split_ifs at hstep with hsignal
          · exact Option.some.inj hstep ▸ h
          · rw [Bool.not_eq_true] at hsignal
            obtain rfl := Option.some.inj hstep
            refine h.setProducer (by simp [hstage]) (by simp) fun slot hslot => ?_
            obtain rfl := Option.some.inj hslot
            exact ⟨hsignal, hturns hsignal⟩
      | storing data pos =>
          simp only [step, State.produce, hstage] at hstep
          obtain rfl := Option.some.inj hstep
          exact h.store hstage
      | signalling data pos =>
          simp only [step, State.produce, hstage] at hstep
          obtain rfl := Option.some.inj hstep
          exact h.signal hstage
  | get c =>
      cases hstage : st.consumer c with
      | idle =>
          simp only [step, hstage, Option.some.injEq] at hstep
          subst hstep
          exact h.draw hstage
      | testing | stopping | loading | clearing => simp [step, hstage] at hstep
  | consume c =>
      cases hstage : st.consumer c with
      | idle => simp [step, State.consume, hstage] at hstep
      | testing pos =>
          simp only [step, State.consume, hstage] at hstep
          simp only [TakesTurns, State.ConsumerTurn, hstage] at hturns
          -- nobody else takes the item; and a call that finds none does not find the ring stopped
          split_ifs at hstep with hsignal
          · obtain rfl := Option.some.inj hstep
            refine h.setConsumer (by simp [hstage]) (by simp) (by rw [hstage]; rfl)
              (fun slot hslot => ?_) (by simp)
            obtain rfl := Option.some.inj hslot
            exact ⟨hsignal, hturns.1 hsignal⟩
          · rw [Bool.not_eq_true] at hsignal
            obtain rfl := Option.some.inj hstep
            exact h.setConsumer (by simp [hstage]) (by simp) (by rw [hstage]; rfl)
              (by simp [Get.claimed]) fun _ _ => hturns.2 hsignal
      | stopping pos =>
          have hstop := h.claims.running c pos hstage
          simp only [step, State.consume, hstage, hstop, Bool.false_eq_true, if_false] at hstep
          obtain rfl := Option.some.inj hstep
          exact h.setConsumer (by simp [hstage]) (by simp) (by rw [hstage]; rfl)
            (by simp [Get.claimed]) (by simp)
      | loading pos =>
          simp only [step, State.consume, hstage] at hstep
          obtain rfl := Option.some.inj hstep
          exact h.load hstage
      | clearing data pos =>
          simp only [step, State.consume, hstage] at hstep
          obtain rfl := Option.some.inj hstep
          exact h.clear hstage
  | asynchronousStop =>
      obtain rfl := Option.some.inj hstep
      -- no call is about to look at `stop` when it is set
      have hnobody : ∀ c pos, st.consumer c ≠ .stopping pos := fun c pos hc => by
        have hlooks := hturns c
        rw [hc] at hlooks
        exact Bool.false_ne_true hlooks.symm
      exact ⟨{ h.claims with running := fun c pos hc => absurd hc (hnobody c pos) },
        h.contents, h.counted⟩

theorem inv_of_reachable (h : (system cfg α Producer Consumer).Reachable TakesTurns st) :
    st.Inv cfg :=
  h.invariant (fun st => st.Inv cfg) (inv_init cfg) inv_step

/-! ## The item comes -/

section Comes

variable {c : Consumer} {slot i : ℕ}

theorem ReturnsAfter.step {steps : ℕ} (hstep : SignalRing.step cfg st (.consume c) = some next)
    (h : ReturnsAfter cfg steps next c slot i) : ReturnsAfter cfg (steps + 1) st c slot i := by
  obtain ⟨last, hrun, hlast⟩ := h
  refine ⟨last, ?_, hlast⟩
  rw [List.replicate_succ]
  exact TransitionSystem.run_cons.mpr ⟨next, hstep, hrun⟩

theorem returnsAfter_clearing {data : Option α} (hstage : st.consumer c = .clearing data slot)
    (hi : i ≤ (st.returned slot).length) : ReturnsAfter cfg 1 st c slot i := by
  refine .step (by simp only [step, State.consume, hstage]; rfl) ⟨_, rfl, ?_⟩
  have hlength : (Function.update st.returned slot (st.returned slot ++ [data]) slot).length =
      (st.returned slot).length + 1 := by
    rw [Function.update_self, List.length_append, List.length_singleton]
  exact Nat.lt_of_le_of_lt hi (hlength ▸ Nat.lt_succ_self _)

theorem returnsAfter_loading (hstage : st.consumer c = .loading slot)
    (hi : i ≤ (st.returned slot).length) : ReturnsAfter cfg 2 st c slot i :=
  have hstep : step cfg st (.consume c) =
      some (st.setConsumer c (.clearing (st.pointers slot) slot)) := by
    simp only [step, State.consume, hstage]
  .step hstep (returnsAfter_clearing (st.setConsumer_consumer_self c _) hi)

theorem returnsAfter_testing (hstage : st.consumer c = .testing slot)
    (hsignal : st.signalBuffer slot = true) (hi : i ≤ (st.returned slot).length) :
    ReturnsAfter cfg 3 st c slot i :=
  .step (by simp only [step, State.consume, hstage, hsignal, if_true])
    (returnsAfter_loading (st.setConsumer_consumer_self c _) hi)

theorem returnsAfter_stopping (hstage : st.consumer c = .stopping slot) (hstop : st.stop = false)
    (hsignal : st.signalBuffer slot = true) (hi : i ≤ (st.returned slot).length) :
    ReturnsAfter cfg 4 st c slot i :=
  .step (by simp only [step, State.consume, hstage, hstop, Bool.false_eq_true, if_false])
    (returnsAfter_testing (st.setConsumer_consumer_self c _) hsignal hi)

theorem lt_count {capacity begun : ℕ} (hslot : slot < capacity)
    (h : slot + i * capacity < begun) :
    i < Nat.count (fun pos => pos % capacity = slot) begun := by
  induction i generalizing begun with
  | zero =>
      have hmono := Nat.count_monotone (fun pos => pos % capacity = slot) (Nat.succ_le_of_lt h)
      have hself : (slot + 0 * capacity) % capacity = slot := by
        rw [Nat.zero_mul, Nat.add_zero, Nat.mod_eq_of_lt hslot]
      rw [Nat.count_succ, if_pos hself] at hmono
      omega
  | succ i ih =>
      have hmono := Nat.count_monotone (fun pos => pos % capacity = slot) (Nat.succ_le_of_lt h)
      have hself : (slot + (i + 1) * capacity) % capacity = slot := by
        rw [Nat.add_mul_mod_self_right, Nat.mod_eq_of_lt hslot]
      have hbefore : i < Nat.count (fun pos => pos % capacity = slot)
          (slot + (i + 1) * capacity) := by
        apply ih
        rw [Nat.succ_mul]
        omega
      rw [Nat.count_succ, if_pos hself] at hmono
      omega

omit [DecidableEq Producer] [DecidableEq Consumer] in
/-- A slot with an item that has not been returned has its flag set, and there is one such
item. -/
theorem State.Inv.unread (h : st.Inv cfg) (hi : i < (st.completed slot).length)
    (hnot : ¬ i < (st.returned slot).length) :
    st.signalBuffer slot = true ∧ i = (st.returned slot).length := by
  rcases (h.contents slot).cases with ⟨-, -, hreturned⟩ | ⟨hsignal, -, item, hreturned⟩
  · rw [hreturned, List.length_map] at hnot
    exact absurd hi hnot
  · have hlength := congrArg List.length hreturned
    rw [List.length_map, List.length_append, List.length_singleton] at hlength
    exact ⟨hsignal, by omega⟩

end Comes

/-- **Each item is delivered once** in every run in which the threads take turns at the slots and
no call of `get` gives up. -/
theorem delivers_of_turns (h : (system cfg α Producer Consumer).Reachable TakesTurns st) :
    Delivers cfg st := by
  have hinv := inv_of_reachable h
  refine ⟨fun slot => ?_, fun p data slot hstage => (hinv.empty_of_storing hstage).2,
    fun slot i hslot hi hbegun => ?_⟩
  · rcases (hinv.contents slot).cases with ⟨-, hstored, hreturned⟩ | ⟨-, hstored, item, hreturned⟩
    · rw [hreturned]
      exact ⟨List.prefix_refl _, hstored⟩
    · rw [hreturned, hstored]
      exact ⟨List.prefix_append .., List.prefix_refl _⟩
  · by_cases hreturned : i < (st.returned slot).length
    · exact .inl hreturned
    · right
      obtain ⟨hsignal, heq⟩ := hinv.unread hi hreturned
      obtain ⟨inFlight, -, hmem, hcount⟩ := hinv.counted.2 slot
      have hlt := lt_count hslot hbegun
      have hne : inFlight ≠ [] := by
        rintro rfl
        rw [List.length_nil] at hcount
        omega
      obtain ⟨c, hc⟩ := List.exists_mem_of_ne_nil _ hne
      have hat := (hmem c).mp hc
      refine ⟨c, hat, ?_⟩
      cases hstage : st.consumer c with
      | idle => simp [hstage, Get.slot] at hat
      | testing pos =>
          obtain rfl : pos = slot := by simpa [hstage, Get.slot] using hat
          exact ⟨3, by omega, returnsAfter_testing hstage hsignal heq.le⟩
      | stopping pos =>
          obtain rfl : pos = slot := by simpa [hstage, Get.slot] using hat
          exact ⟨4, by omega,
            returnsAfter_stopping hstage (hinv.claims.running c _ hstage) hsignal heq.le⟩
      | loading pos =>
          obtain rfl : pos = slot := by simpa [hstage, Get.slot] using hat
          exact ⟨2, by omega, returnsAfter_loading hstage heq.le⟩
      | clearing data pos =>
          obtain rfl : pos = slot := by simpa [hstage, Get.slot] using hat
          exact ⟨1, by omega, returnsAfter_clearing hstage heq.le⟩

def twoSlots : SignalRingConfig where
  capacity := 2
  capacity_lt := Nat.le_of_ble_eq_true rfl
  isPowerOfTwo := ⟨1, rfl⟩

/-- Two producers a lap apart, the second of which waits until the item of the first one has
been taken. -/
def turnsRun : List (Label ℕ Bool Bool) :=
  [.put false 5, .produce false, .produce false, .produce false, .put true 6, .put false 7,
    .produce false, .get true, .consume true, .consume true, .consume true, .produce false,
    .produce true, .produce false, .asynchronousStop, .produce false, .produce true]

theorem delivers_of_turns_twoSlots : ∃ st : State ℕ Bool Bool,
    st.stored 0 = [5, 7] ∧ st.returned 0 = [some 5] ∧ Delivers twoSlots st := by
  obtain ⟨st, hst, hstored, hreturned⟩ := TransitionSystem.exists_reachable
    (system twoSlots ℕ Bool Bool) turnsRun
    (fun st => st.stored 0 = [5, 7] ∧ st.returned 0 = [some 5])
    (show TransitionSystem.RunAllowed _ TakesTurns _ _ by decide +kernel) (by decide +kernel)
  exact ⟨st, hstored, hreturned, delivers_of_turns hst⟩

/-- Two producers a lap apart pass the test of the first slot, and one has stored its item when
the other one is about to. -/
def lappedRun : List (Label ℕ (Fin 3) (Fin 3)) :=
  [.put 0 5, .put 1 6, .put 2 7, .produce 0, .produce 2, .produce 0]

/-- A call of `get` gives up on a stopped ring, and an item comes to its position. -/
def skippedRun : List (Label ℕ (Fin 3) (Fin 3)) :=
  [.get 0, .consume 0, .asynchronousStop, .consume 0, .put 0 5, .produce 0, .produce 0,
    .produce 0]

/-- Two calls of `get` pass the test of the first slot and both read its item. -/
def twiceRun : List (Label ℕ (Fin 3) (Fin 3)) :=
  [.put 0 5, .produce 0, .produce 0, .produce 0, .get 0, .get 1, .get 2, .consume 0, .consume 2,
    .consume 0, .consume 2, .consume 0, .consume 2]

theorem ring_not_delivers :
    (∃ st, (system twoSlots ℕ (Fin 3) (Fin 3)).Reachable (fun _ _ => True) st ∧
      st.producer 2 = .storing 7 0 ∧ st.stored 0 = [5] ∧ st.returned 0 = []) ∧
    (∃ st, (system twoSlots ℕ (Fin 3) (Fin 3)).Reachable (fun _ _ => True) st ∧
      st.completed 0 = [5] ∧ st.begun = 1 ∧ st.returned 0 = [] ∧ ∀ c, st.consumer c = .idle) ∧
    ∃ st, (system twoSlots ℕ (Fin 3) (Fin 3)).Reachable (fun _ _ => True) st ∧
      st.completed 0 = [5] ∧ st.returned 0 = [some 5, some 5] := by
  refine ⟨TransitionSystem.exists_reachable _ lappedRun _ (TransitionSystem.runAllowed_true _) ?_,
    TransitionSystem.exists_reachable _ skippedRun _ (TransitionSystem.runAllowed_true _) ?_,
    TransitionSystem.exists_reachable _ twiceRun _ (TransitionSystem.runAllowed_true _) ?_⟩
  · decide +kernel
  · decide +kernel
  · decide +kernel

end SignalRing

end TrafficDatabase
