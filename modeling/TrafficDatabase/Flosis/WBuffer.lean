import TrafficDatabase.Flosis.AggBuffer
import TrafficDatabase.Library.TransitionSystem

/-!
# The write buffer

A `WBuffer` (`wbuffer.hpp`) is a ring of blocks between one engine and one dumper.  `put` copies
the chunks of an `AggBuffer` behind each other into the blocks and sets the flag of a block when
it is full; `get` waits for the flag of the next block and returns the block.  Nothing clears a
flag, `get` does not go back to the first block after the last one, and what `put` has left of a
chunk when a block is full it copies from the start of the chunk again.

* `State`, `step`: the producer and the consumer, one access to what they share a step;
* `Delivers`: the stream goes through, block by block;
* `Undisturbed`: the steps with which it does.  The last block is never filled, no chunk that is
  cut has other bytes behind the cut than at its start, and `get` is not ended by `stop`;
* `Inv`: under such steps the blocks lie one after the other, as what was put does.
-/

namespace TrafficDatabase

structure WBufferConfig where
  buffer_size : ℕ
  block_size : ℕ
  block_size_pos : 0 < block_size

def WBufferConfig.block_count (cfg : WBufferConfig) : ℕ := cfg.buffer_size / cfg.block_size

namespace WBuffer

/-- The variables of `put` while it copies a chunk. -/
structure Copy where
  chunk : Memory
  rest : List Memory
  block_len : ℕ
  remaining : ℕ
  to_write : ℕ

/-- A turn of the outer loop. -/
def Copy.start (chunk : Memory) (rest : List Memory) (block_len remaining : ℕ) : Copy where
  chunk := chunk
  rest := rest
  block_len := block_len
  remaining := remaining
  to_write := if remaining < block_len then remaining else block_len

/-- Where `put` is: at the head of the outer loop, of the inner one, at the flag of the next
block, and before it sets the flag of its own. -/
inductive Put
  | idle
  | next (current : List Memory) (block_len remaining : ℕ)
  | cutting (copy : Copy)
  | waiting (copy : Copy)
  | signalling (copy : Copy)

def Put.isWaiting : Put → Bool
  | waiting _ => true
  | _ => false

inductive Get
  | idle
  | testing
  | stopping
  | reading
deriving DecidableEq

/-- The buffer with its two threads, and what has passed through it: the bytes given to `put`,
how many blocks it has signalled, and for each call of `get` the block and what was in it. -/
structure State where
  buffer : Memory
  signalBuffer : ℕ → Bool
  writingBlock : ℕ
  writePos : ℕ
  readingBlock : ℕ
  stop : Bool
  producer : Put
  consumer : Get
  given : List UInt8
  signalled : ℕ
  readFrom : List ℕ
  returned : List (List UInt8)

inductive Label
  | put (aggBuffer : AggBuffer)
  | produce
  | get
  | consume
  | asynchronousStop

variable (cfg : WBufferConfig)

namespace State

/-- After the constructor. -/
def init : State where
  buffer := fun _ => 0
  signalBuffer := fun _ => false
  writingBlock := 0
  writePos := 0
  readingBlock := 0
  stop := false
  producer := .idle
  consumer := .idle
  given := []
  signalled := 0
  readFrom := []
  returned := []

variable (st : State)

/-- What is left of the block that `put` writes to. -/
def room : ℕ := cfg.block_size - st.writePos

/-- The inner loop of `put`, where it copies `current->data`. -/
def cut (copy : Copy) : State :=
  let place := st.writingBlock * cfg.block_size + st.writePos
  if cfg.block_size ≤ st.writePos + copy.to_write then
    { st with
      buffer := st.buffer.write place (copy.chunk.read 0 (st.room cfg))
      producer := .waiting copy }
  else
    { st with
      buffer := if copy.to_write ≠ 0 then st.buffer.write place (copy.chunk.read 0 copy.to_write)
        else st.buffer
      writePos := st.writePos + copy.to_write
      producer := .next copy.rest copy.block_len (copy.remaining - copy.to_write) }

/-- The end of the inner loop. The pointer to the data of the chunk stays where it is. -/
def signal (copy : Copy) : State :=
  { st with
    signalBuffer := Function.update st.signalBuffer st.writingBlock true
    writingBlock := (st.writingBlock + 1) % cfg.block_count
    writePos := 0
    signalled := st.signalled + 1
    producer := .cutting { copy with
      remaining := copy.remaining - st.room cfg
      to_write := copy.to_write - st.room cfg } }

/-- The next access of `put`. Without a block the place of the next flag is not defined. -/
def produce : Option State :=
  match st.producer with
  | .idle => none
  | .next [] _ _ => some { st with producer := .idle }
  | .next (chunk :: rest) block_len remaining =>
      if 0 < remaining then
        some { st with producer := .cutting (.start chunk rest block_len remaining) }
      else some { st with producer := .idle }
  | .cutting copy => some (st.cut cfg copy)
  | .waiting copy =>
      if cfg.block_count = 0 then none
      else if st.signalBuffer ((st.writingBlock + 1) % cfg.block_count) then some st
      else some { st with producer := .signalling copy }
  | .signalling copy => some (st.signal cfg copy)

/-- The next access of `get`. The block is returned with what is in it then. -/
def consume : Option State :=
  match st.consumer with
  | .idle => none
  | .testing =>
      if st.signalBuffer st.readingBlock then some { st with consumer := .reading }
      else some { st with consumer := .stopping }
  | .stopping =>
      if st.stop then some { st with consumer := .reading }
      else some { st with consumer := .testing }
  | .reading =>
      some { st with
        readingBlock := st.readingBlock + 1
        consumer := .idle
        readFrom := st.readFrom ++ [st.readingBlock]
        returned := st.returned ++
          [st.buffer.read (st.readingBlock * cfg.block_size) cfg.block_size] }

end State

def step (st : State) : Label → Option State
  | .put aggBuffer =>
      match st.producer with
      | .idle =>
          some { st with
            producer := .next aggBuffer.chunks aggBuffer.block_len aggBuffer.total_len
            given := st.given ++ aggBuffer.contents }
      | _ => none
  | .produce => st.produce cfg
  | .get =>
      match st.consumer with
      | .idle => some { st with consumer := .testing }
      | _ => none
  | .consume => st.consume cfg
  | .asynchronousStop => some { st with stop := true }

/-- The buffer with one producer and one consumer. -/
def system : TransitionSystem State Label where
  init := State.init
  step := step cfg

/-! ## What the buffer promises -/

/-- The stream goes through: the blocks returned are what was put, each once and in order, they
lie in the buffer, and neither side is held up. -/
structure Delivers (st : State) : Prop where
  stream : st.returned.flatten <+: st.given
  /-- The calls of `get` go round the ring. -/
  order : st.readFrom = (List.range st.returned.length).map (· % cfg.block_count)
  /-- The block that was returned last is not written to. -/
  kept : ∀ block ∈ st.readFrom.getLast?,
    st.returned.getLast? = some (st.buffer.read (block * cfg.block_size) cfg.block_size)
  inside : (st.consumer ≠ .idle → st.readingBlock < cfg.block_count) ∧
    ∀ block ∈ st.readFrom, (block + 1) * cfg.block_size ≤ cfg.buffer_size
  /-- `put` waits only for a block that has not been returned. -/
  waits : st.producer.isWaiting = true →
    st.signalBuffer ((st.writingBlock + 1) % cfg.block_count) = true →
      st.returned.length + cfg.block_count ≤ st.signalled + 1
  /-- A block that is signalled is returned by the next call of `get`. -/
  comes : st.consumer = .idle → st.returned.length < st.signalled →
    ∃ last, (system cfg).run st [.get, .consume, .consume] = some last ∧
      last.returned.length = st.returned.length + 1

/-! ## The steps with which it does -/

/-- Behind `room` bytes of what is left of the chunk come the bytes from its start again. In
particular a chunk that ends there does. -/
def Copy.Recurs (copy : Copy) (room : ℕ) : Prop :=
  copy.chunk.read room (copy.to_write - room) = copy.chunk.read 0 (copy.to_write - room)

/-- Not the last block is filled, and what comes behind a cut is the start of the chunk. -/
def State.PutFits (st : State) : Put → Prop
  | .cutting copy => cfg.block_size ≤ st.writePos + copy.to_write →
      st.writingBlock + 1 < cfg.block_count ∧ copy.Recurs (st.room cfg)
  | _ => True

def Undisturbed (st : State) : Label → Prop
  | .produce => st.PutFits cfg st.producer
  | .get => 0 < cfg.block_count
  | .consume => st.consumer = .stopping → st.stop = false
  | _ => True

section Decidable

variable (st : State)

instance (copy : Copy) (room : ℕ) : Decidable (copy.Recurs room) :=
  inferInstanceAs (Decidable (_ = _))

instance : DecidablePred (st.PutFits cfg)
  | .cutting _ => inferInstanceAs (Decidable (_ → _))
  | .idle | .next .. | .waiting _ | .signalling _ => .isTrue trivial

instance : DecidablePred (Undisturbed cfg st)
  | .produce => inferInstanceAs (Decidable (st.PutFits cfg _))
  | .get => inferInstanceAs (Decidable (_ < _))
  | .consume => inferInstanceAs (Decidable (_ → _))
  | .put _ | .asynchronousStop => .isTrue trivial

end Decidable

/-! ## The blocks one after the other -/

namespace State

variable (st : State)

/-- How many bytes of the buffer `put` has written. -/
def written : ℕ :=
  match st.producer with
  | .waiting _ | .signalling _ => (st.writingBlock + 1) * cfg.block_size
  | _ => st.writingBlock * cfg.block_size + st.writePos

/-- What `put` has not written of the bytes it was given. -/
def pending : List UInt8 :=
  match st.producer with
  | .idle => []
  | .next current block_len remaining => AggBuffer.contentsFrom block_len current remaining
  | .cutting copy => copy.chunk.read 0 copy.to_write ++
      AggBuffer.contentsFrom copy.block_len copy.rest (copy.remaining - copy.to_write)
  | .waiting copy | .signalling copy =>
      copy.chunk.read (st.room cfg) (copy.to_write - st.room cfg) ++
        AggBuffer.contentsFrom copy.block_len copy.rest (copy.remaining - copy.to_write)

/-- A full block is one that the steps may fill. -/
def FullFits : Put → Prop
  | .waiting copy | .signalling copy => st.room cfg ≤ copy.to_write ∧
      st.writingBlock + 1 < cfg.block_count ∧ copy.Recurs (st.room cfg)
  | _ => True

end State

/-- What every undisturbed step keeps. -/
structure Inv (st : State) : Prop where
  writePos : st.writePos < cfg.block_size
  writingBlock : st.writingBlock = st.signalled
  block_lt : st.writingBlock = 0 ∨ st.writingBlock < cfg.block_count
  full : st.FullFits cfg st.producer
  given : st.buffer.read 0 (st.written cfg) ++ st.pending cfg = st.given
  flags : ∀ pos, st.signalBuffer pos = true ↔ pos < st.writingBlock
  behind : st.readingBlock ≤ st.writingBlock
  called : st.consumer ≠ .idle → 0 < cfg.block_count
  reading : st.consumer = .reading → st.readingBlock < st.writingBlock
  readFrom : st.readFrom = List.range st.readingBlock
  returned : st.returned = (List.range st.readingBlock).map fun block =>
    st.buffer.read (block * cfg.block_size) cfg.block_size

variable {cfg} {st next : State} {copy : Copy}

theorem inv_init : Inv cfg State.init where
  writePos := cfg.block_size_pos
  writingBlock := rfl
  block_lt := Or.inl rfl
  full := trivial
  given := by
    change Memory.read _ 0 (0 * cfg.block_size + 0) ++ [] = []
    rw [Nat.zero_mul]
    rfl
  flags := fun pos => ⟨fun h => (nomatch h), fun h => absurd h (Nat.not_lt_zero pos)⟩
  behind := le_rfl
  called := fun h => absurd rfl h
  reading := fun h => nomatch h
  readFrom := rfl
  returned := rfl

/-! ### The producer -/

theorem Inv.put (h : Inv cfg st) (hidle : st.producer = .idle) (aggBuffer : AggBuffer) :
    Inv cfg { st with
      producer := .next aggBuffer.chunks aggBuffer.block_len aggBuffer.total_len
      given := st.given ++ aggBuffer.contents } :=
  { h with
    full := trivial
    given := by
      have hgiven := h.given
      simp only [State.written, State.pending, hidle, List.append_nil] at hgiven
      exact congrArg (· ++ aggBuffer.contents) hgiven }

/-- The producer goes on without an access to the buffer. -/
theorem Inv.setProducer (h : Inv cfg st) (put : Put) (hfull : st.FullFits cfg put)
    (hwritten : { st with producer := put }.written cfg = st.written cfg)
    (hpending : { st with producer := put }.pending cfg = st.pending cfg) :
    Inv cfg { st with producer := put } :=
  { h with
    full := hfull
    given := by
      rw [hwritten, hpending]
      exact h.given }

theorem contentsFrom_start (chunk : Memory) (rest : List Memory) (block_len : ℕ) {remaining : ℕ}
    (hpos : 0 < remaining) :
    AggBuffer.contentsFrom block_len (chunk :: rest) remaining =
      (Copy.start chunk rest block_len remaining).chunk.read 0
          (Copy.start chunk rest block_len remaining).to_write ++
        AggBuffer.contentsFrom block_len rest
          (remaining - (Copy.start chunk rest block_len remaining).to_write) := by
  rw [AggBuffer.contentsFrom, if_pos hpos]
  rfl

/-- `put` writes behind the blocks that have been returned. -/
theorem Inv.returned_write (h : Inv cfg st) (data : List UInt8) :
    st.returned = (List.range st.readingBlock).map fun block =>
      (st.buffer.write (st.writingBlock * cfg.block_size + st.writePos) data).read
        (block * cfg.block_size) cfg.block_size := by
  rw [h.returned]
  apply List.map_congr_left
  intro block hblock
  have hlt : block < st.writingBlock := (List.mem_range.mp hblock).trans_le h.behind
  have hle : (block + 1) * cfg.block_size ≤ st.writingBlock * cfg.block_size :=
    Nat.mul_le_mul_right _ hlt
  rw [Nat.succ_mul] at hle
  symm
  apply Memory.read_write_of_disjoint
  left
  omega

/-- What is left of a chunk fills the block. -/
theorem Inv.fill (h : Inv cfg st) (hcutting : st.producer = .cutting copy)
    (hlong : cfg.block_size ≤ st.writePos + copy.to_write)
    (hfits : st.PutFits cfg st.producer) : Inv cfg (st.cut cfg copy) := by
  rw [hcutting] at hfits
  obtain ⟨hlast, hrecurs⟩ := hfits hlong
  have hwritePos := h.writePos
  have hroom : st.room cfg ≤ copy.to_write := by
    unfold State.room
    omega
  have hend : (st.writingBlock + 1) * cfg.block_size =
      st.writingBlock * cfg.block_size + st.writePos +
        (copy.chunk.read 0 (st.room cfg)).length := by
    rw [Memory.length_read, Nat.succ_mul, State.room]
    omega
  have hsplit : copy.chunk.read 0 copy.to_write = copy.chunk.read 0 (st.room cfg) ++
      copy.chunk.read (st.room cfg) (copy.to_write - st.room cfg) := by
    have hlen : copy.to_write = st.room cfg + (copy.to_write - st.room cfg) := by omega
    calc
      _ = copy.chunk.read 0 (st.room cfg + (copy.to_write - st.room cfg)) := by rw [← hlen]
      _ = _ := by rw [Memory.read_add, Nat.zero_add]
  have hgiven := h.given
  simp only [State.written, State.pending, hcutting] at hgiven
  rw [hsplit, List.append_assoc] at hgiven
  rw [State.cut, if_pos hlong]
  exact { h with
    full := ⟨hroom, hlast, hrecurs⟩
    given := by
      simp only [State.written, State.pending]
      rw [hend, Memory.read_write_append, List.append_assoc]
      exact hgiven
    returned := h.returned_write _ }

/-- What is left of a chunk fits in the block. -/
theorem Inv.finish (h : Inv cfg st) (hcutting : st.producer = .cutting copy)
    (hshort : ¬ cfg.block_size ≤ st.writePos + copy.to_write) : Inv cfg (st.cut cfg copy) := by
  have hbuffer : (if copy.to_write ≠ 0 then
      st.buffer.write (st.writingBlock * cfg.block_size + st.writePos)
        (copy.chunk.read 0 copy.to_write) else st.buffer) =
      st.buffer.write (st.writingBlock * cfg.block_size + st.writePos)
        (copy.chunk.read 0 copy.to_write) := by
    split_ifs with hne
    · rfl
    · rw [not_not.mp hne, Memory.read_zero, Memory.write_nil]
  have hend : st.writingBlock * cfg.block_size + (st.writePos + copy.to_write) =
      st.writingBlock * cfg.block_size + st.writePos +
        (copy.chunk.read 0 copy.to_write).length := by
    rw [Memory.length_read, Nat.add_assoc]
  have hgiven := h.given
  simp only [State.written, State.pending, hcutting] at hgiven
  rw [State.cut, if_neg hshort, hbuffer]
  exact { h with
    writePos := Nat.lt_of_not_le hshort
    full := trivial
    given := by
      simp only [State.written, State.pending]
      rw [hend, Memory.read_write_append, List.append_assoc]
      exact hgiven
    returned := h.returned_write _ }

/-- The flag of a full block is set, and the rest of the chunk comes behind it. -/
theorem Inv.signal (h : Inv cfg st) (hsignalling : st.producer = .signalling copy) :
    Inv cfg (st.signal cfg copy) := by
  have hfull := h.full
  rw [hsignalling] at hfull
  obtain ⟨hroom, hlast, hrecurs⟩ := hfull
  have hgiven := h.given
  simp only [State.written, State.pending, hsignalling] at hgiven
  have hrest : copy.remaining - st.room cfg - (copy.to_write - st.room cfg) =
      copy.remaining - copy.to_write := by omega
  have hnext : (st.writingBlock + 1) % cfg.block_count = st.writingBlock + 1 :=
    Nat.mod_eq_of_lt hlast
  have hbehind := h.behind
  unfold State.signal
  rw [hnext]
  exact { h with
    writePos := cfg.block_size_pos
    writingBlock := congrArg Nat.succ h.writingBlock
    block_lt := Or.inr hlast
    full := trivial
    given := by
      simp only [State.written, State.pending, Nat.add_zero]
      -- the rest of the chunk is the same as its start, where the copying goes on
      rw [hrest, ← hrecurs]
      exact hgiven
    flags := by
      intro pos
      dsimp only
      by_cases hpos : pos = st.writingBlock
      · rw [hpos, Function.update_self]
        simp
      · rw [Function.update_of_ne hpos, h.flags pos]
        omega
    behind := by
      dsimp only
      omega
    reading := fun hreading => (h.reading hreading).trans (Nat.lt_succ_self _) }

theorem Inv.produce (h : Inv cfg st) (hfits : st.PutFits cfg st.producer)
    (hstep : st.produce cfg = some next) : Inv cfg next := by
  unfold State.produce at hstep
  split at hstep
  case h_1 => cases hstep
  -- the outer loop ends, with the chunks or with the bytes
  case h_2 hnext =>
    cases hstep
    apply h.setProducer .idle trivial
    · simp only [State.written, hnext]
    · simp only [State.pending, hnext, AggBuffer.contentsFrom]
  case h_3 hnext =>
    split_ifs at hstep with hpos
    · cases hstep
      apply h.setProducer (.cutting _) trivial
      · simp only [State.written, hnext]
      · simp only [State.pending, hnext]
        exact (contentsFrom_start _ _ _ hpos).symm
    · cases hstep
      apply h.setProducer .idle trivial
      · simp only [State.written, hnext]
      · simp only [State.pending, hnext, AggBuffer.contentsFrom, if_neg hpos]
  -- a turn of the inner loop, or what comes behind it
  case h_4 copy hcutting =>
    cases hstep
    by_cases hlong : cfg.block_size ≤ st.writePos + copy.to_write
    · exact h.fill hcutting hlong hfits
    · exact h.finish hcutting hlong
  case h_5 hwaiting =>
    split_ifs at hstep with hcount hflag
    · cases hstep
      exact h
    · cases hstep
      have hfull := h.full
      rw [hwaiting] at hfull
      apply h.setProducer (.signalling _) hfull
      · simp only [State.written, hwaiting]
      · simp only [State.pending, hwaiting]
        rfl
  case h_6 hsignalling =>
    cases hstep
    exact h.signal hsignalling

/-! ### The consumer -/

theorem Inv.setConsumer {get : Get} (h : Inv cfg st) (hcount : 0 < cfg.block_count)
    (hreading : get = .reading → st.readingBlock < st.writingBlock) :
    Inv cfg { st with consumer := get } :=
  { h with
    called := fun _ => hcount
    reading := hreading }

theorem Inv.consume (h : Inv cfg st) (hstop : st.consumer = .stopping → st.stop = false)
    (hstep : st.consume cfg = some next) : Inv cfg next := by
  have hcalled := h.called
  unfold State.consume at hstep
  split at hstep
  case h_1 => cases hstep
  case h_2 htesting =>
    have hcount := hcalled (by rw [htesting]; exact fun heq => nomatch heq)
    split_ifs at hstep with hflag
    · cases hstep
      exact h.setConsumer hcount fun _ => (h.flags _).mp hflag
    · cases hstep
      exact h.setConsumer hcount fun heq => nomatch heq
  case h_3 hstopping =>
    have hcount := hcalled (by rw [hstopping]; exact fun heq => nomatch heq)
    split_ifs at hstep with hflag
    · rw [hstop hstopping] at hflag
      cases hflag
    · cases hstep
      exact h.setConsumer hcount fun heq => nomatch heq
  case h_4 hreading =>
    cases hstep
    exact { h with
      behind := h.reading hreading
      called := fun heq => absurd rfl heq
      reading := fun heq => nomatch heq
      readFrom := by
        dsimp only
        rw [h.readFrom, List.range_succ]
      returned := by
        dsimp only
        rw [List.range_succ, List.map_append, ← h.returned]
        rfl }

theorem Inv.step {label : Label} (h : Inv cfg st) (hallowed : Undisturbed cfg st label)
    (hstep : step cfg st label = some next) : Inv cfg next := by
  unfold WBuffer.step at hstep
  split at hstep
  case h_1 aggBuffer =>
    split at hstep
    case h_1 hidle =>
      cases hstep
      exact h.put hidle aggBuffer
    case h_2 => cases hstep
  case h_2 => exact h.produce hallowed hstep
  case h_3 =>
    split at hstep
    case h_1 hidle =>
      cases hstep
      exact h.setConsumer hallowed fun heq => nomatch heq
    case h_2 => cases hstep
  case h_4 => exact h.consume hallowed hstep
  case h_5 =>
    cases hstep
    exact { h with }

theorem inv_of_reachable (h : (system cfg).Reachable (Undisturbed cfg) st) : Inv cfg st :=
  h.invariant (Inv cfg) inv_init Inv.step

/-! ### What was promised -/

theorem Inv.length_returned (h : Inv cfg st) : st.returned.length = st.readingBlock := by
  rw [h.returned, List.length_map, List.length_range]

theorem Inv.stream (h : Inv cfg st) : st.returned.flatten <+: st.given := by
  have hwriting : st.writingBlock * cfg.block_size ≤ st.written cfg := by
    unfold State.written
    split
    · exact Nat.mul_le_mul_right _ (Nat.le_succ _)
    · exact Nat.mul_le_mul_right _ (Nat.le_succ _)
    · exact Nat.le_add_right _ _
  obtain ⟨more, hmore⟩ := Nat.exists_eq_add_of_le
    ((Nat.mul_le_mul_right cfg.block_size h.behind).trans hwriting)
  rw [h.returned, Memory.flatten_read_blocks, ← h.given, hmore, Memory.read_add,
    List.append_assoc]
  exact List.prefix_append _ _

/-- The blocks that have been returned are before the last one. -/
theorem Inv.lt_of_lt (h : Inv cfg st) {block : ℕ} (hblock : block < st.writingBlock) :
    block < cfg.block_count := by
  rcases h.block_lt with hzero | hlt
  · omega
  · exact hblock.trans hlt

theorem Inv.order (h : Inv cfg st) :
    st.readFrom = (List.range st.returned.length).map (· % cfg.block_count) := by
  calc
    st.readFrom = (List.range st.readingBlock).map id := by rw [h.readFrom, List.map_id]
    _ = (List.range st.readingBlock).map (· % cfg.block_count) := by
      apply List.map_congr_left
      intro block hblock
      have hlt : block < st.readingBlock := List.mem_range.mp hblock
      exact (Nat.mod_eq_of_lt (h.lt_of_lt (hlt.trans_le h.behind))).symm
    _ = _ := by rw [h.length_returned]

theorem Inv.kept (h : Inv cfg st) : ∀ block ∈ st.readFrom.getLast?,
    st.returned.getLast? = some (st.buffer.read (block * cfg.block_size) cfg.block_size) := by
  intro block hblock
  rw [h.readFrom] at hblock
  rw [h.returned, List.getLast?_map, hblock]
  rfl

theorem Inv.inside (h : Inv cfg st) : (st.consumer ≠ .idle → st.readingBlock < cfg.block_count) ∧
    ∀ block ∈ st.readFrom, (block + 1) * cfg.block_size ≤ cfg.buffer_size := by
  constructor
  · intro hcalled
    have hcount := h.called hcalled
    have hbehind := h.behind
    rcases h.block_lt with hzero | hlt
    · omega
    · omega
  · intro block hblock
    rw [h.readFrom, List.mem_range] at hblock
    have hlt : block < cfg.block_count := h.lt_of_lt (hblock.trans_le h.behind)
    calc
      (block + 1) * cfg.block_size ≤ cfg.block_count * cfg.block_size :=
        Nat.mul_le_mul_right _ hlt
      _ ≤ cfg.buffer_size := Nat.div_mul_le_self _ _

theorem Inv.comes (h : Inv cfg st) (hidle : st.consumer = .idle)
    (hsignalled : st.returned.length < st.signalled) :
    ∃ last, (system cfg).run st [.get, .consume, .consume] = some last ∧
      last.returned.length = st.returned.length + 1 := by
  have hflag : st.signalBuffer st.readingBlock = true := by
    rw [h.flags, h.writingBlock, ← h.length_returned]
    exact hsignalled
  have hget : (system cfg).step st .get = some { st with consumer := .testing } := by
    simp only [system, WBuffer.step, hidle]
  have htest : (system cfg).step { st with consumer := .testing } .consume =
      some { st with consumer := .reading } := by
    simp only [system, WBuffer.step, State.consume, hflag, if_true]
  refine ⟨_, TransitionSystem.run_cons.mpr ⟨_, hget, TransitionSystem.run_cons.mpr ⟨_, htest, rfl⟩⟩,
    ?_⟩
  rw [List.length_append]
  rfl

/-- As long as the steps are undisturbed, the stream goes through. -/
theorem delivers_of_undisturbed (h : (system cfg).Reachable (Undisturbed cfg) st) :
    Delivers cfg st := by
  have hinv := inv_of_reachable h
  refine ⟨hinv.stream, hinv.order, hinv.kept, hinv.inside, ?_, hinv.comes⟩
  -- `put` does not wait at all: no flag is set in front of it
  intro hwaiting hflag
  have hfull := hinv.full
  cases hproducer : st.producer with
  | waiting copy =>
    rw [hproducer] at hfull
    rw [Nat.mod_eq_of_lt hfull.2.1, hinv.flags] at hflag
    omega
  | idle | next | cutting | signalling =>
    rw [hproducer] at hwaiting
    cases hwaiting

/-! ### A few bytes in blocks of two -/

def blocksOfTwo (buffer_size : ℕ) : WBufferConfig where
  buffer_size := buffer_size
  block_size := 2
  block_size_pos := Nat.two_pos

/-- A buffer with chunks of four bytes that a few were written to. -/
def oneChunk (bytes : List UInt8) : AggBuffer where
  block_len := 4
  total_len := bytes.length
  full := []
  write_tail := Memory.write (fun _ => 0) 0 bytes

/-- A whole call of `put` that has to do with so many steps, and one of `get`. -/
def putCall (bytes : List UInt8) (steps : ℕ) : List Label :=
  .put (oneChunk bytes) :: List.replicate steps .produce

def getCall : List Label := [.get, .consume, .consume]

/-- Three equal bytes fill a block and begin the next one while `get` waits. -/
theorem delivers_of_undisturbed_equalBytes : ∃ st,
    st.returned = [[7, 7]] ∧ st.given = [7, 7, 7] ∧ Delivers (blocksOfTwo 6) st := by
  obtain ⟨st, hst, hreturned, hgiven⟩ := TransitionSystem.exists_reachable
    (system (blocksOfTwo 6))
    ([.get, .consume, .consume] ++ putCall [7, 7, 7] 6 ++ [.consume, .consume])
    (fun st => st.returned = [[7, 7]] ∧ st.given = [7, 7, 7])
    (show TransitionSystem.RunAllowed _ (Undisturbed (blocksOfTwo 6)) _ _ by decide +kernel)
    (by decide +kernel)
  exact ⟨st, hreturned, hgiven, delivers_of_undisturbed hst⟩

/-- The rest of a cut chunk is its start again; the second of two blocks is never signalled;
`get` leaves a ring of one block; and when it is stopped it returns a block without bytes. -/
theorem stream_broken :
    (∃ st, (system (blocksOfTwo 8)).Reachable (fun _ _ => True) st ∧
      ¬ Delivers (blocksOfTwo 8) st) ∧
    (∃ st, (system (blocksOfTwo 4)).Reachable (fun _ _ => True) st ∧
      ¬ Delivers (blocksOfTwo 4) st) ∧
    (∃ st, (system (blocksOfTwo 2)).Reachable (fun _ _ => True) st ∧
      ¬ Delivers (blocksOfTwo 2) st) ∧
    ∃ st, (system (blocksOfTwo 8)).Reachable (fun _ _ => True) st ∧
      ¬ Delivers (blocksOfTwo 8) st := by
  refine ⟨?_, ?_, ?_, ?_⟩
  · obtain ⟨st, hst, hreturned, hgiven⟩ := TransitionSystem.exists_reachable
      (system (blocksOfTwo 8))
      (putCall [1, 2, 3] 6 ++ putCall [9] 5 ++ getCall ++ getCall)
      (fun st => st.returned = [[1, 2], [1, 9]] ∧ st.given = [1, 2, 3, 9])
      (TransitionSystem.runAllowed_true _) (by decide +kernel)
    refine ⟨st, hst, fun h => absurd h.stream ?_⟩
    rw [hreturned, hgiven]
    decide
  -- both blocks are full, and the producer waits for the one that has been returned
  · obtain ⟨st, hst, hwaiting, hflag, hreturned, hsignalled, hwriting⟩ :=
      TransitionSystem.exists_reachable (system (blocksOfTwo 4))
      (putCall [1, 2] 6 ++ getCall ++ putCall [3, 4] 2)
      (fun st => st.producer.isWaiting = true ∧ st.signalBuffer 0 = true ∧
        st.returned.length = 1 ∧ st.signalled = 1 ∧ st.writingBlock = 1)
      (TransitionSystem.runAllowed_true _) (by decide +kernel)
    refine ⟨st, hst, fun h => ?_⟩
    have hcount : (blocksOfTwo 4).block_count = 2 := rfl
    have hwaits := h.waits hwaiting
    rw [hwriting, hcount, hreturned, hsignalled] at hwaits
    exact absurd (hwaits hflag) (by decide)
  · obtain ⟨st, hst, hconsumer, hreading⟩ := TransitionSystem.exists_reachable
      (system (blocksOfTwo 2)) (putCall [1, 2] 6 ++ getCall ++ [.get])
      (fun st => st.consumer = .testing ∧ st.readingBlock = 1)
      (TransitionSystem.runAllowed_true _) (by decide +kernel)
    refine ⟨st, hst, fun h => ?_⟩
    have hcount : (blocksOfTwo 2).block_count = 1 := rfl
    have hinside := h.inside.1 (by rw [hconsumer]; decide)
    rw [hreading, hcount] at hinside
    exact Nat.lt_irrefl 1 hinside
  · obtain ⟨st, hst, hreturned, hgiven⟩ := TransitionSystem.exists_reachable
      (system (blocksOfTwo 8)) [.get, .asynchronousStop, .consume, .consume, .consume]
      (fun st => st.returned = [[0, 0]] ∧ st.given = [])
      (TransitionSystem.runAllowed_true _) (by decide +kernel)
    refine ⟨st, hst, fun h => absurd h.stream ?_⟩
    rw [hreturned, hgiven]
    decide

end WBuffer

end TrafficDatabase
