import TrafficDatabase.Library.BlockRing

/-!
# A ring of blocks with its store behind it

The bytes of a ring go to the store slot by slot: a slot is dumped to the block it is
labelled with, and when the block has been written the slot is recycled.  Seen from a
position there is one byte: that of the ring while the slot of the position holds its
block, and that of the store otherwise (`view`).

A dump does not change what is seen (`view_dump`), bytes that are put in owned slots
change it at their own positions only (`view_overwrite`), and the recycling of a slot
whose block the store has changes it in the block that comes next only (`view_recycle`).
-/

namespace TrafficDatabase

/-- The bytes of the ring, the labels of its slots, and the store. -/
structure BackedRing where
  memory : Memory
  labels : ℕ → ℕ
  store : Memory

namespace BackedRing

variable (ring : BlockRing) (backed : BackedRing)

/-- The ring and the store as one memory. -/
def view : Memory := fun pos =>
  if ring.Owned backed.labels pos then backed.memory (pos % ring.bytes) else backed.store pos

/-- The slot is written to its block. -/
def dump (slot : ℕ) : BackedRing :=
  { backed with
    store := backed.store.write (backed.labels slot * ring.size)
      (backed.memory.read (slot * ring.size) ring.size) }

/-- The slot takes up its next block. -/
def recycle (slot : ℕ) : BackedRing := { backed with labels := ring.recycle backed.labels slot }

/-- The block the slot takes up then. -/
def nextBlock (slot : ℕ) : ℕ := (backed.labels slot + ring.count) % ring.disk

/-- The store has the block of the slot as the ring has it. -/
def Stored (slot : ℕ) : Prop := ∀ k < ring.size,
  backed.store (backed.labels slot * ring.size + k) = backed.memory (slot * ring.size + k)

variable {ring backed} {pos slot : ℕ}

/-! ## Positions in the store -/

/-- Inside the store the block of a position is its quotient. -/
theorem blockOf_eq (hpos : pos < ring.disk * ring.size) : ring.blockOf pos = pos / ring.size :=
  Nat.mod_eq_of_lt (Nat.div_lt_of_lt_mul (Nat.mul_comm ring.disk _ ▸ hpos))

/-- The slot of a position is that of its block. -/
theorem slotOf_eq (hpos : pos < ring.disk * ring.size) :
    ring.slotOf pos = ring.blockOf pos % ring.count := by
  rw [blockOf_eq hpos]
  rfl

/-- The address of a position in the ring: its slot, and its place in its block. -/
theorem mod_bytes (pos : ℕ) :
    pos % ring.bytes = ring.slotOf pos * ring.size + pos % ring.size := by
  calc pos % ring.bytes = pos % (ring.size * ring.count) := by
        rw [BlockRing.bytes, Nat.mul_comm]
    _ = pos % ring.size + ring.size * (pos / ring.size % ring.count) := Nat.mod_mul
    _ = ring.slotOf pos * ring.size + pos % ring.size := by
        rw [Nat.add_comm, Nat.mul_comm]
        rfl

/-- A position in the store: its block, and its place there. -/
theorem pos_eq (hpos : pos < ring.disk * ring.size) :
    pos = ring.blockOf pos * ring.size + pos % ring.size := by
  rw [blockOf_eq hpos]
  exact (Nat.div_add_mod' pos ring.size).symm

/-- Two positions in slots that hold their blocks are told apart by the ring. -/
theorem eq_of_owned {other : ℕ} (hpos : pos < ring.disk * ring.size)
    (hother : other < ring.disk * ring.size) (howned : ring.Owned backed.labels pos)
    (hheld : ring.Owned backed.labels other) (hsame : pos % ring.bytes = other % ring.bytes) :
    pos = other := by
  have hslot : ring.slotOf pos = ring.slotOf other := by
    rw [← BlockRing.address_div_size, hsame, BlockRing.address_div_size]
  have hblock : ring.blockOf pos = ring.blockOf other := by
    rw [← howned, ← hheld, hslot]
  have hplace : pos % ring.size = other % ring.size := by
    rw [mod_bytes, mod_bytes, hslot] at hsame
    exact Nat.add_left_cancel hsame
  rw [pos_eq hpos, pos_eq hother, hblock, hplace]

/-- If slots and blocks are in step, only the slot of a position can hold its block. -/
theorem slotOf_of_label (hstep : ring.Congruent backed.labels) (hslot : slot < ring.count)
    (hpos : pos < ring.disk * ring.size) (hlabel : backed.labels slot = ring.blockOf pos) :
    ring.slotOf pos = slot := by
  rw [slotOf_eq hpos, ← hlabel, hstep slot hslot]

/-- The bytes a dump writes are those of one block. -/
theorem div_eq_of_dumped {block : ℕ} (hsize : 0 < ring.size) (hle : block * ring.size ≤ pos)
    (hlt : pos < block * ring.size + ring.size) : pos / ring.size = block := by
  refine Nat.le_antisymm ?_ ?_
  · refine Nat.lt_succ_iff.mp ((Nat.div_lt_iff_lt_mul hsize).mpr ?_)
    rw [Nat.succ_mul]
    exact hlt
  · exact (Nat.le_div_iff_mul_le hsize).mpr hle

/-- A dump leaves the store outside the block of the slot. -/
theorem dump_store_outside (hsize : 0 < ring.size)
    (hne : pos / ring.size ≠ backed.labels slot) :
    (backed.dump ring slot).store pos = backed.store pos := by
  refine Memory.write_apply_outside ?_
  rw [Memory.length_read]
  by_contra hin
  push Not at hin
  exact hne (div_eq_of_dumped hsize hin.1 hin.2)

theorem dump_store_inside {k : ℕ} (hk : k < ring.size) :
    (backed.dump ring slot).store (backed.labels slot * ring.size + k) =
      backed.memory (slot * ring.size + k) := by
  unfold dump
  simp only
  rw [Memory.write_apply_inside _ _ _ (by rwa [Memory.length_read]), Memory.getElem_read]

/-! ## What is seen -/

/-- A dump does not change what is seen. -/
theorem view_dump (hsize : 0 < ring.size) (hstep : ring.Congruent backed.labels)
    (hslot : slot < ring.count) (hpos : pos < ring.disk * ring.size) :
    (backed.dump ring slot).view ring pos = backed.view ring pos := by
  have hlabels : (backed.dump ring slot).labels = backed.labels := rfl
  unfold view
  rw [hlabels]
  split_ifs with howned
  · rfl
  · refine dump_store_outside hsize fun hblock => howned ?_
    rw [← blockOf_eq hpos] at hblock
    rw [BlockRing.Owned, slotOf_of_label hstep hslot hpos hblock.symm, hblock]

/-- Bytes put in owned slots change what is seen at their positions only. -/
theorem view_overwrite {memory : Memory} {start len : ℕ} (hcount : 0 < ring.bytes)
    (hend : start + len ≤ ring.disk * ring.size)
    (howned : ∀ k < len, ring.Owned backed.labels (start + k))
    (hframe : ∀ addr < ring.bytes, (∀ k < len, (start + k) % ring.bytes ≠ addr) →
      memory addr = backed.memory addr)
    (hpos : pos < ring.disk * ring.size) (hout : pos < start ∨ start + len ≤ pos) :
    ({ backed with memory } : BackedRing).view ring pos = backed.view ring pos := by
  unfold view
  by_cases hheld : ring.Owned backed.labels pos
  · rw [if_pos hheld, if_pos hheld]
    refine hframe _ (Nat.mod_lt _ hcount) fun k hk hsame => ?_
    have hpoint := eq_of_owned (by omega) hpos (howned k hk) hheld hsame
    omega
  · rw [if_neg hheld, if_neg hheld]

/-- The recycling of a slot whose block is in the store changes what is seen only in the
block that comes next. -/
theorem view_recycle (hstored : backed.Stored ring slot) (hsize : 0 < ring.size)
    (hpos : pos < ring.disk * ring.size) (hnext : ring.blockOf pos ≠ backed.nextBlock ring slot) :
    (backed.recycle ring slot).view ring pos = backed.view ring pos := by
  have hlabel : (backed.recycle ring slot).labels =
      Function.update backed.labels slot (backed.nextBlock ring slot) := rfl
  by_cases hslot : ring.slotOf pos = slot
  · have hleft : ¬ ring.Owned (backed.recycle ring slot).labels pos := by
      rw [BlockRing.Owned, hlabel, hslot, Function.update_self]
      exact hnext.symm
    unfold view
    rw [if_neg hleft]
    split_ifs with howned
    · -- the byte was in the ring, and the store has it
      rw [BlockRing.Owned, hslot] at howned
      have hbyte := hstored (pos % ring.size) (Nat.mod_lt _ hsize)
      rwa [howned, ← pos_eq hpos, ← hslot, ← mod_bytes] at hbyte
    · rfl
  · have hsame : ring.Owned (backed.recycle ring slot).labels pos ↔
        ring.Owned backed.labels pos := by
      rw [BlockRing.Owned, hlabel, Function.update_of_ne hslot]
      rfl
    unfold view
    simp only [hsame]
    rfl

/-- The store has what is seen where the slot does not hold the block, or the block has been
dumped. -/
theorem store_eq_view (hsize : 0 < ring.size) (hpos : pos < ring.disk * ring.size)
    (h : ¬ ring.Owned backed.labels pos ∨ backed.Stored ring (ring.slotOf pos)) :
    backed.store pos = backed.view ring pos := by
  unfold view
  split_ifs with howned
  · have hstored := h.resolve_left (not_not_intro howned)
    have hbyte := hstored (pos % ring.size) (Nat.mod_lt _ hsize)
    rwa [howned, ← pos_eq hpos, ← mod_bytes] at hbyte
  · rfl

/-! ## Blocks in the store -/

theorem stored_dump : (backed.dump ring slot).Stored ring slot :=
  fun _ hk => dump_store_inside hk

/-- The dump of another slot goes to another block. -/
theorem Stored.dump {other : ℕ} (h : backed.Stored ring slot)
    (hne : backed.labels slot ≠ backed.labels other) : (backed.dump ring other).Stored ring slot := by
  intro k hk
  refine (dump_store_outside (by omega) ?_).trans (h k hk)
  show (backed.labels slot * ring.size + k) / ring.size ≠ _
  rwa [Nat.mul_comm, Nat.mul_add_div (by omega), Nat.div_eq_of_lt hk, Nat.add_zero]

theorem Stored.overwrite {memory : Memory} (h : backed.Stored ring slot)
    (hframe : ∀ k < ring.size,
      memory (slot * ring.size + k) = backed.memory (slot * ring.size + k)) :
    ({ backed with memory } : BackedRing).Stored ring slot := fun k hk =>
  (h k hk).trans (hframe k hk).symm

theorem Stored.recycle {other : ℕ} (h : backed.Stored ring slot) (hne : slot ≠ other) :
    (backed.recycle ring other).Stored ring slot := by
  intro k hk
  have hlabel : (backed.recycle ring other).labels slot = backed.labels slot :=
    Function.update_of_ne hne ..
  rw [hlabel]
  exact h k hk

/-- Slots in step hold different blocks. -/
theorem labels_ne {other : ℕ} (hstep : ring.Congruent backed.labels) (hslot : slot < ring.count)
    (hother : other < ring.count) (hne : slot ≠ other) :
    backed.labels slot ≠ backed.labels other := fun hsame => hne <| by
  rw [← hstep slot hslot, ← hstep other hother, hsame]

end BackedRing

end TrafficDatabase
