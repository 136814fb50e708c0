import TrafficDatabase.Library.Bytes

/-!
# The chunks of a flow buffer

An `AggBuffer` (`aggBuffer.hpp`) appends what is written to it in chunks of `block_len` bytes
which it takes from a pool, with `total_len % block_len` as the place in the last one.

* `write`: `none` when a `memcpy` leaves the chunk it writes to;
* `contents`: the bytes of the chunks up to `total_len`, chunk by chunk;
* `Stored`: what the chunks hold after writes that fit in the chunk they begin in and the next
  one;
* `output`: all the chunks, copied to the same place.
-/

namespace TrafficDatabase

/-- The chunks before the last one, and the last one. -/
structure AggBuffer where
  block_len : ℕ
  total_len : ℕ
  full : List Memory
  write_tail : Memory

namespace AggBuffer

/-- The constructor, with the block the pool has given. -/
def new (block_len : ℕ) (block : Memory) : AggBuffer where
  block_len := block_len
  total_len := 0
  full := []
  write_tail := block

/-- From `head` on. -/
def chunks (buf : AggBuffer) : List Memory := buf.full ++ [buf.write_tail]

/-- The part of `write` for a write that reaches the end of the last chunk: a new one takes
what is left. The pool's next block is the one for the chunk after those that are there. -/
def writeAcross (blocks : ℕ → Memory) (buf : AggBuffer) (data : List UInt8) : AggBuffer :=
  let write_pos := buf.total_len % buf.block_len
  let first := buf.block_len - write_pos
  let full := buf.full ++ [buf.write_tail.write write_pos (data.take first)]
  { buf with
    full := full
    write_tail := if write_pos + data.length ≠ buf.block_len then
        (blocks full.length).write 0 (data.drop first)
      else blocks full.length
    total_len := buf.total_len + data.length }

def write (blocks : ℕ → Memory) (buf : AggBuffer) (data : List UInt8) : Option AggBuffer :=
  if buf.block_len = 0 then none
  else
    let write_pos := buf.total_len % buf.block_len
    if write_pos + data.length < buf.block_len then
      some { buf with
        write_tail := buf.write_tail.write write_pos data
        total_len := buf.total_len + data.length }
    else if data.length - (buf.block_len - write_pos) ≤ buf.block_len then
      some (writeAcross blocks buf data)
    else none

/-- A new buffer and writes to it, one after the other. -/
def writeAll (blocks : ℕ → Memory) (block_len : ℕ) (writes : List (List UInt8)) :
    Option AggBuffer :=
  writes.foldlM (write blocks) (new block_len (blocks 0))

/-- The loop of `output`, which leaves `dest` where it is. -/
def outputFrom (block_len : ℕ) : List Memory → ℕ → Memory → Memory
  | [], _, dest => dest
  | current :: rest, remaining, dest =>
    if 0 < remaining then
      let to_write := if remaining < block_len then remaining else block_len
      outputFrom block_len rest (remaining - to_write) (dest.write 0 (current.read 0 to_write))
    else dest

def output (buf : AggBuffer) (dest : Memory) : Memory :=
  outputFrom buf.block_len buf.chunks buf.total_len dest

/-! ### What the chunks hold -/

/-- The bytes that a walk along the chunks passes. -/
def contentsFrom (block_len : ℕ) : List Memory → ℕ → List UInt8
  | [], _ => []
  | current :: rest, remaining =>
    if 0 < remaining then
      let to_write := if remaining < block_len then remaining else block_len
      current.read 0 to_write ++ contentsFrom block_len rest (remaining - to_write)
    else []

def contents (buf : AggBuffer) : List UInt8 :=
  contentsFrom buf.block_len buf.chunks buf.total_len

/-- The chunks hold `bytes`: all but the last are full, and the last has the rest. -/
structure Stored (buf : AggBuffer) (bytes : List UInt8) : Prop where
  block_len_pos : 0 < buf.block_len
  total_len : buf.total_len = bytes.length
  length_full : buf.full.length = buf.total_len / buf.block_len
  bytes : (buf.full.map fun chunk => chunk.read 0 buf.block_len).flatten ++
    buf.write_tail.read 0 (buf.total_len % buf.block_len) = bytes

variable {blocks : ℕ → Memory} {buf buf' : AggBuffer} {bytes data : List UInt8}
  {writes : List (List UInt8)} {block_len : ℕ}

theorem stored_new (hpos : 0 < block_len) (block : Memory) : Stored (new block_len block) [] where
  block_len_pos := hpos
  total_len := rfl
  length_full := (Nat.zero_div _).symm
  bytes := by
    rw [new, Nat.zero_mod]
    rfl

/-- The walk along full chunks and a part of one more. -/
theorem contentsFrom_append {rest : ℕ} (hrest : rest < block_len) (tail : Memory)
    (full : List Memory) :
    contentsFrom block_len (full ++ [tail]) (full.length * block_len + rest) =
      (full.map fun chunk => chunk.read 0 block_len).flatten ++ tail.read 0 rest := by
  induction full with
  | nil =>
    simp only [List.nil_append, List.length_nil, Nat.zero_mul, Nat.zero_add, contentsFrom,
      List.map_nil, List.flatten_nil, if_pos hrest, List.append_nil]
    split_ifs with hpos
    · rfl
    · rw [Nat.eq_zero_of_not_pos hpos]
      rfl
  | cons chunk full ih =>
    have hlen : (chunk :: full).length * block_len + rest =
        block_len + (full.length * block_len + rest) := by
      rw [List.length_cons, Nat.succ_mul]
      omega
    have hpos : 0 < block_len + (full.length * block_len + rest) := by omega
    have hlt : ¬ block_len + (full.length * block_len + rest) < block_len := by omega
    rw [hlen, List.cons_append, contentsFrom, if_pos hpos]
    simp only [if_neg hlt, Nat.add_sub_cancel_left, ih]
    rw [List.map_cons, List.flatten_cons, List.append_assoc]

theorem Stored.contents_eq (hstored : Stored buf bytes) : buf.contents = bytes := by
  have hlen : buf.total_len =
      buf.full.length * buf.block_len + buf.total_len % buf.block_len := by
    rw [hstored.length_full, Nat.mul_comm, Nat.div_add_mod]
  unfold contents chunks
  rw [hlen, contentsFrom_append (Nat.mod_lt _ hstored.block_len_pos)]
  exact hstored.bytes

/-- A write within the last chunk. -/
theorem stored_inside (hstored : Stored buf bytes)
    (hinside : buf.total_len % buf.block_len + data.length < buf.block_len) :
    ∃ buf', write blocks buf data = some buf' ∧ buf'.block_len = buf.block_len ∧
      Stored buf' (bytes ++ data) := by
  have hpos := hstored.block_len_pos
  have hdiv := Nat.div_add_mod buf.total_len buf.block_len
  have hsplit : buf.total_len + data.length =
      buf.total_len % buf.block_len + data.length + buf.block_len *
        (buf.total_len / buf.block_len) := by omega
  refine ⟨{ buf with
    write_tail := buf.write_tail.write (buf.total_len % buf.block_len) data
    total_len := buf.total_len + data.length }, ?_, rfl, hpos, ?_, ?_, ?_⟩
  · rw [write, if_neg hpos.ne', if_pos hinside]
  · rw [List.length_append, ← hstored.total_len]
  · dsimp only
    rw [hsplit, Nat.add_mul_div_left _ _ hpos, Nat.div_eq_of_lt hinside, Nat.zero_add]
    exact hstored.length_full
  · dsimp only
    rw [hsplit, Nat.add_mul_mod_self_left, Nat.mod_eq_of_lt hinside, Memory.read_write_append,
      ← List.append_assoc, hstored.bytes]

/-- A write that goes on in a new chunk and does not fill it. -/
theorem stored_cross (hstored : Stored buf bytes)
    (hcross : ¬ buf.total_len % buf.block_len + data.length < buf.block_len)
    (hfits : buf.total_len % buf.block_len + data.length < 2 * buf.block_len) :
    ∃ buf', write blocks buf data = some buf' ∧ buf'.block_len = buf.block_len ∧
      Stored buf' (bytes ++ data) := by
  have hpos := hstored.block_len_pos
  have hmod := Nat.mod_lt buf.total_len hpos
  have hdiv := Nat.div_add_mod buf.total_len buf.block_len
  have hlength : (data.drop (buf.block_len - buf.total_len % buf.block_len)).length =
      data.length - (buf.block_len - buf.total_len % buf.block_len) := List.length_drop
  have hrest : data.length - (buf.block_len - buf.total_len % buf.block_len) < buf.block_len := by
    omega
  have hsplit : buf.total_len + data.length =
      data.length - (buf.block_len - buf.total_len % buf.block_len) +
        buf.block_len * (buf.total_len / buf.block_len + 1) := by
    rw [Nat.mul_succ]
    omega
  -- the old chunk gets the bytes up to its end, the new one the others
  have hold : (buf.write_tail.write (buf.total_len % buf.block_len)
      (data.take (buf.block_len - buf.total_len % buf.block_len))).read 0 buf.block_len =
        buf.write_tail.read 0 (buf.total_len % buf.block_len) ++
          data.take (buf.block_len - buf.total_len % buf.block_len) := by
    have hlen : buf.block_len = buf.total_len % buf.block_len +
        (data.take (buf.block_len - buf.total_len % buf.block_len)).length := by
      rw [List.length_take]
      omega
    calc
      _ = Memory.read _ 0 (buf.total_len % buf.block_len +
            (data.take (buf.block_len - buf.total_len % buf.block_len)).length) := by rw [← hlen]
      _ = _ := Memory.read_write_append ..
  have hnew : ∀ block : Memory, (if buf.total_len % buf.block_len + data.length ≠ buf.block_len
      then block.write 0 (data.drop (buf.block_len - buf.total_len % buf.block_len))
      else block).read 0 (data.length - (buf.block_len - buf.total_len % buf.block_len)) =
        data.drop (buf.block_len - buf.total_len % buf.block_len) := by
    intro block
    rw [← hlength]
    split_ifs with hend
    · exact Memory.read_write_self ..
    · have hempty : data.drop (buf.block_len - buf.total_len % buf.block_len) = [] := by
        apply List.drop_eq_nil_of_le
        omega
      rw [hempty]
      rfl
  refine ⟨writeAcross blocks buf data, ?_, rfl, hpos, ?_, ?_, ?_⟩
  · rw [write, if_neg hpos.ne', if_neg hcross, if_pos hrest.le]
  · change buf.total_len + data.length = _
    rw [List.length_append, ← hstored.total_len]
  · simp only [writeAcross]
    rw [hsplit, Nat.add_mul_div_left _ _ hpos, Nat.div_eq_of_lt hrest, Nat.zero_add,
      List.length_append, hstored.length_full]
    rfl
  · simp only [writeAcross]
    rw [hsplit, Nat.add_mul_mod_self_left, Nat.mod_eq_of_lt hrest, hnew, List.map_append,
      List.flatten_append]
    simp only [List.map_cons, List.map_nil, List.flatten_cons, List.flatten_nil, List.append_nil]
    rw [hold, List.append_assoc, List.append_assoc, List.take_append_drop, ← List.append_assoc,
      hstored.bytes]

/-- A write that ends before the end of the next chunk. -/
theorem stored_write (blocks : ℕ → Memory) (hstored : Stored buf bytes)
    (hfits : buf.total_len % buf.block_len + data.length < 2 * buf.block_len) :
    ∃ buf', write blocks buf data = some buf' ∧ buf'.block_len = buf.block_len ∧
      Stored buf' (bytes ++ data) := by
  by_cases hinside : buf.total_len % buf.block_len + data.length < buf.block_len
  · exact stored_inside hstored hinside
  · exact stored_cross hstored hinside hfits

/-! ### What `output` copies -/

/-- `output` writes nothing behind the first `block_len` bytes. -/
theorem outputFrom_outside {chunks : List Memory} {remaining addr : ℕ} {dest : Memory}
    (haddr : block_len ≤ addr) : outputFrom block_len chunks remaining dest addr = dest addr := by
  induction chunks generalizing remaining dest with
  | nil => rfl
  | cons current rest ih =>
    rw [outputFrom]
    split_ifs with hpos hlt
    · rw [ih, Memory.write_apply_outside]
      rw [Memory.length_read]
      omega
    · rw [ih, Memory.write_apply_outside]
      rw [Memory.length_read]
      omega
    · rfl

theorem outputFrom_zero (block_len : ℕ) (chunks : List Memory) (dest : Memory) :
    outputFrom block_len chunks 0 dest = dest := by
  cases chunks <;> rfl

theorem contentsFrom_zero (block_len : ℕ) (chunks : List Memory) :
    contentsFrom block_len chunks 0 = [] := by
  cases chunks <;> rfl

/-- What fits in the first chunk is copied as it is. -/
theorem output_eq (hstored : Stored buf bytes) (hlength : bytes.length ≤ buf.block_len)
    (dest : Memory) : buf.output dest = dest.write 0 bytes := by
  obtain ⟨current, rest, hchunks⟩ : ∃ current rest, buf.chunks = current :: rest := by
    unfold chunks
    cases buf.full with
    | nil => exact ⟨_, _, rfl⟩
    | cons chunk full => exact ⟨_, _, rfl⟩
  have htotal := hstored.total_len
  have hbytes := hstored.contents_eq
  rw [contents, hchunks] at hbytes
  rw [output, hchunks]
  by_cases hzero : buf.total_len = 0
  · rw [hzero, contentsFrom_zero] at hbytes
    rw [hzero, outputFrom_zero, ← hbytes, Memory.write_nil]
  · have hpos : 0 < buf.total_len := Nat.pos_of_ne_zero hzero
    have hto_write : (if buf.total_len < buf.block_len then buf.total_len else buf.block_len) =
        buf.total_len := by
      split_ifs with hlt
      · rfl
      · omega
    rw [contentsFrom, if_pos hpos] at hbytes
    rw [outputFrom, if_pos hpos]
    simp only [hto_write, Nat.sub_self, contentsFrom_zero, List.append_nil] at hbytes
    simp only [hto_write, Nat.sub_self, outputFrom_zero, hbytes]

/-! ### Sequences of writes -/

/-- All writes stay inside the chunks, and `output` copies what was written and changes nothing
else. -/
def Faithful (blocks : ℕ → Memory) (block_len : ℕ) (writes : List (List UInt8)) : Prop :=
  ∃ buf, writeAll blocks block_len writes = some buf ∧
    ∀ dest, buf.output dest = dest.write 0 writes.flatten

theorem writeAll_append (blocks : ℕ → Memory) (block_len : ℕ) (writes : List (List UInt8))
    (data : List UInt8) :
    writeAll blocks block_len (writes ++ [data]) =
      (writeAll blocks block_len writes).bind fun buf => write blocks buf data := by
  simp only [writeAll, List.foldlM_append, List.foldlM_cons, List.foldlM_nil, bind_pure]
  rfl

theorem block_len_of_write (h : write blocks buf data = some buf') :
    buf'.block_len = buf.block_len := by
  unfold write at h
  simp only at h
  split_ifs at h
  · cases h
    rfl
  · cases h
    rfl

theorem block_len_of_writeAll (h : writeAll blocks block_len writes = some buf) :
    buf.block_len = block_len := by
  induction writes using List.reverseRecOn generalizing buf with
  | nil =>
    cases h
    rfl
  | append_singleton writes data ih =>
    rw [writeAll_append] at h
    obtain ⟨before, hbefore, hwrite⟩ := Option.bind_eq_some_iff.mp h
    rw [block_len_of_write hwrite, ih hbefore]

/-- While all that was written fits in one chunk, every write does. -/
theorem stored_writeAll (blocks : ℕ → Memory) (hpos : 0 < block_len)
    (hlength : writes.flatten.length ≤ block_len) :
    ∃ buf, writeAll blocks block_len writes = some buf ∧ buf.block_len = block_len ∧
      Stored buf writes.flatten := by
  induction writes using List.reverseRecOn with
  | nil => exact ⟨_, rfl, rfl, stored_new hpos _⟩
  | append_singleton writes data ih =>
    rw [List.flatten_append, List.length_append] at hlength
    simp only [List.flatten_cons, List.flatten_nil, List.append_nil] at hlength
    obtain ⟨buf, hbefore, hblock, hstored⟩ := ih (by omega)
    have htotal := hstored.total_len
    have hfits : buf.total_len % buf.block_len + data.length < 2 * buf.block_len := by
      have hmod := Nat.mod_le buf.total_len buf.block_len
      omega
    obtain ⟨buf', hwrite, hblock', hstored'⟩ := stored_write blocks hstored hfits
    refine ⟨buf', ?_, hblock'.trans hblock, ?_⟩
    · rw [writeAll_append, hbefore]
      exact hwrite
    · rw [List.flatten_append]
      simpa using hstored'

/-- What was written beyond the first chunk is not in the output. -/
theorem not_faithful_of_lt (hlength : block_len < writes.flatten.length) :
    ¬ Faithful blocks block_len writes := by
  rintro ⟨buf, hwrites, houtput⟩
  have hblock := block_len_of_writeAll hwrites
  -- a destination that had another byte there before
  have hbyte := congrFun (houtput fun _ => writes.flatten[block_len] + 1) block_len
  have hinside := Memory.write_apply_inside (fun _ => writes.flatten[block_len] + 1) 0
    writes.flatten hlength
  rw [Nat.zero_add] at hinside
  rw [hinside, output, outputFrom_outside hblock.le] at hbyte
  grind

/-- `output` gives what was written if and only if it fits in one chunk. -/
theorem faithful_iff (blocks : ℕ → Memory) (block_len : ℕ) (writes : List (List UInt8)) :
    Faithful blocks block_len writes ↔
      writes.flatten.length ≤ block_len ∧ (block_len = 0 → writes = []) := by
  constructor
  · intro hfaithful
    refine ⟨Nat.le_of_not_lt fun hlt => not_faithful_of_lt hlt hfaithful, ?_⟩
    rintro rfl
    obtain ⟨buf, hwrites, -⟩ := hfaithful
    cases writes with
    | nil => rfl
    | cons data writes =>
      -- the first write divides by zero
      have hzero : write blocks (new 0 (blocks 0)) data = none := if_pos rfl
      rw [writeAll, List.foldlM_cons, hzero] at hwrites
      cases hwrites
  · rintro ⟨hlength, hempty⟩
    rcases Nat.eq_zero_or_pos block_len with rfl | hpos
    · obtain rfl := hempty rfl
      refine ⟨_, rfl, fun dest => ?_⟩
      rw [List.flatten_nil, Memory.write_nil, output]
      exact outputFrom_zero 0 _ dest
    · obtain ⟨buf, hwrites, hblock, hstored⟩ := stored_writeAll blocks hpos hlength
      exact ⟨buf, hwrites, output_eq hstored (hblock.symm ▸ hlength)⟩

/-- Three bytes in chunks of two: the third is copied over the first. Five bytes at once leave
the second chunk. -/
theorem chunks_misplaced :
    ¬ Faithful (fun _ _ => 0) 2 [[1], [2], [3]] ∧
      writeAll (fun _ _ => 0) 2 [[1, 2, 3, 4, 5]] = none :=
  ⟨not_faithful_of_lt (by decide), rfl⟩

end AggBuffer

end TrafficDatabase
