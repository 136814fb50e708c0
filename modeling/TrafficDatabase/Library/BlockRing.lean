import Mathlib.Logic.Function.Basic
import Mathlib.Logic.Function.Iterate
import Mathlib.Tactic.Ring
import TrafficDatabase.Library.Bytes
import TrafficDatabase.Library.Residue
import TrafficDatabase.Library.TransitionSystem

/-!
# A ring of blocks over a cyclic store

`count` slots of `size` bytes are a window on a store of `disk` blocks.  A position
of the store falls in the slot and in the block that have its block number modulo
`count` and modulo `disk`; a slot is labelled with the block it holds, and recycling
moves its label `count` blocks on.

A write that checks the labels of the first two blocks it touches is in order as
far as these two blocks go (`owned_of_accepts`).  The two moduli agree on every
label exactly if the one divides the other (`congruent_iff`), while every block
comes round in its slot in any case (`exists_recycles`).
-/

namespace TrafficDatabase

structure BlockRing where
  count : ℕ
  size : ℕ
  disk : ℕ

namespace BlockRing

variable (ring : BlockRing)

/-- The bytes of the ring. -/
def bytes : ℕ := ring.count * ring.size

/-- The slot a position falls in. -/
def slotOf (pos : ℕ) : ℕ := pos / ring.size % ring.count

/-- The block of the store a position falls in. -/
def blockOf (pos : ℕ) : ℕ := pos / ring.size % ring.disk

variable (labels : ℕ → ℕ)

/-- The slot of a position holds the position's block. -/
def Owned (pos : ℕ) : Prop := labels (ring.slotOf pos) = ring.blockOf pos

instance (pos : ℕ) : Decidable (ring.Owned labels pos) := inferInstanceAs (Decidable (_ = _))

/-- The check before a write: the slot of its position holds the block, and so does
the next slot with the next block if the write reaches the end of the first one. -/
def Accepts (pos len : ℕ) : Prop :=
  ring.Owned labels pos ∧
    (ring.size ≤ pos % ring.size + len →
      labels ((ring.slotOf pos + 1) % ring.count) = (ring.blockOf pos + 1) % ring.disk)

instance (pos len : ℕ) : Decidable (ring.Accepts labels pos len) :=
  inferInstanceAs (Decidable (_ ∧ _))

/-- The store's bytes of `data` are in the ring and nothing else has changed, and each
byte that has changed is in a slot that holds the byte's block. -/
structure StoresOwned (before after : Memory) (pos : ℕ) (data : List UInt8) : Prop where
  stored : ∀ k (hk : k < data.length), after ((pos + k) % ring.bytes) = data[k]
  frame : ∀ addr, (∀ k < data.length, (pos + k) % ring.bytes ≠ addr) → after addr = before addr
  owned : ∀ k < data.length,
    after ((pos + k) % ring.bytes) ≠ before ((pos + k) % ring.bytes) →
      labels ((pos + k) % ring.bytes / ring.size) = ring.blockOf (pos + k)

/-- A write that is done stores its bytes in owned slots, one that is refused changes
no byte. -/
def InOrder (before : Memory) (result : Bool × Memory) (pos : ℕ) (data : List UInt8) : Prop :=
  if result.1 then ring.StoresOwned labels before result.2 pos data else result.2 = before

/-- Each byte behind the second block of a write is in a slot that holds the byte's
block, or is there already. -/
def BehindOwned (mem : Memory) (pos : ℕ) (data : List UInt8) : Prop :=
  ∀ k (hk : k < data.length), pos / ring.size + 2 ≤ (pos + k) / ring.size →
    ring.Owned labels (pos + k) ∨ mem ((pos + k) % ring.bytes) = data[k]

variable {ring labels} {pos len : ℕ}

/-- The slot of a byte of the ring. -/
theorem address_div_size (pos : ℕ) : pos % ring.bytes / ring.size = ring.slotOf pos := by
  rw [bytes, slotOf, Nat.mul_comm, Nat.mod_mul_right_div_self]

theorem owned_of_div_eq {other : ℕ} (h : ring.Owned labels pos)
    (hsame : other / ring.size = pos / ring.size) : ring.Owned labels other := by
  simp only [Owned, slotOf, blockOf] at h ⊢
  rw [hsame]
  exact h

/-- The check is about the first two blocks of the write. -/
theorem owned_of_accepts (h : ring.Accepts labels pos len) {k : ℕ} (hk : k < len)
    (hnear : (pos + k) / ring.size ≤ pos / ring.size + 1) : ring.Owned labels (pos + k) := by
  obtain ⟨hfirst, hnext⟩ := h
  by_cases hsame : (pos + k) / ring.size = pos / ring.size
  · exact owned_of_div_eq hfirst hsame
  have hsecond : (pos + k) / ring.size = pos / ring.size + 1 :=
    le_antisymm hnear (lt_of_le_of_ne (Nat.div_le_div_right (Nat.le_add_right ..)) (Ne.symm hsame))
  have hcross : ring.size ≤ pos % ring.size + len := by
    by_contra hinside
    refine hsame ?_
    conv_lhs => rw [← Nat.div_add_mod pos ring.size, Nat.add_assoc]
    rw [Nat.mul_add_div (by omega), Nat.div_eq_of_lt (by omega : pos % ring.size + k < ring.size),
      Nat.add_zero]
  have hlabel := hnext hcross
  simp only [Owned, slotOf, blockOf, hsecond] at hlabel ⊢
  rwa [Nat.mod_add_mod, Nat.mod_add_mod] at hlabel

/-- An accepted copy into the ring stores its bytes in owned slots exactly if the bytes
behind its second block are. -/
theorem storesOwned_ringWrite_iff {mem : Memory} {data : List UInt8}
    (hlen : data.length ≤ ring.bytes) (haccepts : ring.Accepts labels pos data.length) :
    ring.StoresOwned labels mem (mem.ringWrite ring.bytes pos data) pos data ↔
      ring.BehindOwned labels mem pos data := by
  have hstored : ∀ k (hk : k < data.length),
      mem.ringWrite ring.bytes pos data ((pos + k) % ring.bytes) = data[k] :=
    fun k hk => Memory.ringWrite_apply hlen hk
  constructor
  · intro h k hk hbehind
    by_cases hthere : mem ((pos + k) % ring.bytes) = data[k]
    · exact .inr hthere
    · have howned := h.owned k hk (by rw [hstored k hk]; exact Ne.symm hthere)
      rw [address_div_size] at howned
      exact .inl howned
  · intro h
    refine ⟨hstored, fun addr hout => Memory.ringWrite_apply_outside hlen hout, ?_⟩
    intro k hk hchanged
    rw [hstored k hk] at hchanged
    rw [address_div_size]
    by_cases hnear : (pos + k) / ring.size ≤ pos / ring.size + 1
    · exact owned_of_accepts haccepts hk hnear
    · exact (h k hk (by omega)).resolve_right (Ne.symm hchanged)

/-- A buffer that copies what the ring accepts and nothing else writes in order exactly
where the bytes behind the second block are. -/
theorem inOrder_iff {mem : Memory} {result : Bool × Memory} {data : List UInt8}
    (hlen : data.length ≤ ring.bytes)
    (hdone : result.1 = true ↔ ring.Accepts labels pos data.length)
    (hcopy : result.2 = if result.1 then mem.ringWrite ring.bytes pos data else mem) :
    ring.InOrder labels mem result pos data ↔
      (ring.Accepts labels pos data.length → ring.BehindOwned labels mem pos data) := by
  unfold InOrder
  rw [hcopy]
  by_cases hresult : result.1 = true
  · have haccepts := hdone.mp hresult
    rw [if_pos hresult, if_pos hresult, storesOwned_ringWrite_iff hlen haccepts]
    exact ⟨fun h _ => h, fun h => h haccepts⟩
  · rw [if_neg hresult, if_neg hresult]
    exact ⟨fun _ haccepts => absurd (hdone.mpr haccepts) hresult, fun _ => rfl⟩

/-! ## Several writes in a row -/

/-- Write pieces of data one behind the other; a piece that is refused is left out. -/
def writeAll (ring : BlockRing) (labels : ℕ → ℕ) : List (List UInt8) → ℕ → Memory → Memory
  | [], _, mem => mem
  | piece :: rest, pos, mem =>
      writeAll ring labels rest (pos + piece.length)
        (if ring.Accepts labels pos piece.length then mem.ringWrite ring.bytes pos piece else mem)

/-- Each piece is accepted, or its bytes are in the ring already. -/
def EachThere (ring : BlockRing) (labels : ℕ → ℕ) (mem : Memory) : List (List UInt8) → ℕ → Prop
  | [], _ => True
  | piece :: rest, pos =>
      (ring.Accepts labels pos piece.length ∨
          mem.ringRead ring.bytes pos piece.length = piece) ∧
        EachThere ring labels mem rest (pos + piece.length)

variable {mem other : Memory}

/-- A position behind or before another one is another byte of the ring. -/
theorem position_ne {first second : ℕ} (hlt : first < second)
    (hnear : second < first + ring.bytes) :
    first % ring.bytes ≠ second % ring.bytes := fun hmod =>
  hlt.ne (eq_of_mod_eq hmod (by omega) hnear)

theorem writeAll_append (first second : List (List UInt8)) :
    ring.writeAll labels (first ++ second) pos mem =
      ring.writeAll labels second (pos + first.flatten.length)
        (ring.writeAll labels first pos mem) := by
  induction first generalizing pos mem with
  | nil => rfl
  | cons piece rest ih =>
      rw [List.cons_append, writeAll, writeAll, ih, List.flatten_cons, List.length_append,
        Nat.add_assoc]

theorem writeAll_apply_outside {pieces : List (List UInt8)} {addr : ℕ}
    (hlen : pieces.flatten.length ≤ ring.bytes)
    (hout : ∀ k < pieces.flatten.length, (pos + k) % ring.bytes ≠ addr) :
    ring.writeAll labels pieces pos mem addr = mem addr := by
  induction pieces generalizing pos mem with
  | nil => rfl
  | cons piece rest ih =>
      rw [List.flatten_cons, List.length_append] at hlen hout
      have hrest : ∀ k < rest.flatten.length, (pos + piece.length + k) % ring.bytes ≠ addr := by
        intro k hk
        rw [Nat.add_assoc]
        exact hout _ (by omega)
      rw [writeAll, ih (by omega) hrest]
      split_ifs
      · exact Memory.ringWrite_apply_outside (by omega) fun k hk => hout k (by omega)
      · rfl

theorem eachThere_congr {pieces : List (List UInt8)}
    (h : ∀ k < pieces.flatten.length,
      mem ((pos + k) % ring.bytes) = other ((pos + k) % ring.bytes)) :
    ring.EachThere labels mem pieces pos ↔ ring.EachThere labels other pieces pos := by
  induction pieces generalizing pos with
  | nil => exact Iff.rfl
  | cons piece rest ih =>
      rw [List.flatten_cons, List.length_append] at h
      have hrest : ∀ k < rest.flatten.length, mem ((pos + piece.length + k) % ring.bytes) =
          other ((pos + piece.length + k) % ring.bytes) := by
        intro k hk
        rw [Nat.add_assoc]
        exact h _ (by omega)
      rw [EachThere, EachThere, ih hrest, Memory.ringRead_congr fun k hk => h k (by omega)]

/-- All bytes are in the ring after the writes exactly if each piece was accepted or was
there before. -/
theorem ringRead_writeAll_iff {pieces : List (List UInt8)}
    (hlen : pieces.flatten.length ≤ ring.bytes) :
    (ring.writeAll labels pieces pos mem).ringRead ring.bytes pos pieces.flatten.length =
      pieces.flatten ↔ ring.EachThere labels mem pieces pos := by
  induction pieces generalizing pos mem with
  | nil => exact ⟨fun _ => trivial, fun _ => rfl⟩
  | cons piece rest ih =>
      rw [List.flatten_cons, List.length_append] at hlen
      rw [List.flatten_cons, List.length_append, Memory.ringRead_add, writeAll, EachThere]
      set written := if ring.Accepts labels pos piece.length then
        mem.ringWrite ring.bytes pos piece else mem with hwritten
      -- the other pieces leave the first one alone, and it leaves them alone
      have hfirst : (ring.writeAll labels rest (pos + piece.length) written).ringRead ring.bytes pos
          piece.length = written.ringRead ring.bytes pos piece.length :=
        Memory.ringRead_congr fun k hk => writeAll_apply_outside (by omega) fun j hj =>
          (position_ne (by omega) (by omega)).symm
      have hrest : ring.EachThere labels written rest (pos + piece.length) ↔
          ring.EachThere labels mem rest (pos + piece.length) := by
        apply eachThere_congr
        intro k hk
        rw [hwritten]
        split_ifs
        · exact Memory.ringWrite_apply_outside (by omega) fun j hj =>
            position_ne (by omega) (by omega)
        · rfl
      have hpiece : written.ringRead ring.bytes pos piece.length = piece ↔
          ring.Accepts labels pos piece.length ∨
            mem.ringRead ring.bytes pos piece.length = piece := by
        rw [hwritten]
        split_ifs with haccepts
        · exact ⟨fun _ => .inl haccepts, fun _ => Memory.ringRead_ringWrite (by omega)⟩
        · exact ⟨.inr, fun h => h.resolve_left haccepts⟩
      rw [hfirst, ← hpiece, ← hrest, ← ih (by omega)]
      constructor
      · exact fun h => List.append_inj h (Memory.length_ringRead ..)
      · rintro ⟨hp, hr⟩
        rw [hp, hr]

/-! ### Writes into owned slots -/

/-- The slots of a stretch hold its blocks only if it is no longer than the ring. -/
theorem le_bytes_of_owned (hcount : 0 < ring.count) (hsize : 0 < ring.size)
    (hdisk : ring.count < ring.disk) (h : ∀ k < len, ring.Owned labels (pos + k)) :
    len ≤ ring.bytes := by
  by_contra hover
  have hbytes : 0 < ring.bytes := Nat.mul_pos hcount hsize
  have hfirst := h 0 (by omega)
  have hlast := h ring.bytes (by omega)
  have hdiv : (pos + ring.bytes) / ring.size = pos / ring.size + ring.count := by
    rw [bytes, Nat.add_mul_div_right _ _ hsize]
  simp only [Owned, slotOf, blockOf, Nat.add_zero, hdiv, Nat.add_mod_right] at hfirst hlast
  have hsame := eq_of_mod_eq (hfirst.symm.trans hlast) (by omega) (by omega)
  omega

/-- A write into owned slots is accepted, if the slot behind it holds the next block where
it ends with a block. -/
theorem accepts_of_owned (hsize : 0 < ring.size) (hlen : 0 < len)
    (h : ∀ k < len, ring.Owned labels (pos + k))
    (hend : (pos + len) % ring.size = 0 → ring.Owned labels (pos + len)) :
    ring.Accepts labels pos len := by
  refine ⟨h 0 hlen, fun hcross => ?_⟩
  have hsplit := Nat.div_add_mod' pos ring.size
  have hrest := Nat.mod_lt pos hsize
  -- the start of the next block
  obtain ⟨k, hk⟩ := Nat.exists_eq_add_of_le
    (show pos ≤ (pos / ring.size + 1) * ring.size by rw [Nat.succ_mul]; omega)
  have hnext : ring.Owned labels (pos + k) := by
    rw [Nat.succ_mul] at hk
    rcases Nat.lt_or_ge k len with hinside | hat
    · exact h k hinside
    · obtain rfl : k = len := by omega
      exact hend (by rw [← hk, ← Nat.succ_mul, Nat.mul_mod_left])
  simp only [Owned, slotOf, blockOf, ← hk, Nat.mul_div_cancel _ hsize] at hnext
  rw [slotOf, blockOf, Nat.mod_add_mod, Nat.mod_add_mod]
  exact hnext

/-- So are pieces that are written one behind the other. -/
theorem eachThere_of_owned (hsize : 0 < ring.size) {pieces : List (List UInt8)} {stop : ℕ}
    (hstop : pos + pieces.flatten.length ≤ stop)
    (h : ∀ place, pos ≤ place → place < stop → ring.Owned labels place)
    (hend : pos < stop → stop % ring.size = 0 → ring.Owned labels stop) :
    ring.EachThere labels mem pieces pos := by
  induction pieces generalizing pos with
  | nil => trivial
  | cons piece rest ih =>
      rw [List.flatten_cons, List.length_append] at hstop
      refine ⟨?_, ih (by omega) (fun place hle => h place (by omega)) fun hlt => hend (by omega)⟩
      rcases Nat.eq_zero_or_pos piece.length with hnone | hsome
      · right
        rw [List.eq_nil_of_length_eq_zero hnone]
        rfl
      · left
        refine accepts_of_owned hsize hsome (fun k hk => h _ (Nat.le_add_right ..) (by omega)) ?_
        intro hat
        rcases Nat.lt_or_ge (pos + piece.length) stop with hinside | hlast
        · exact h _ (Nat.le_add_right ..) hinside
        · have hsame : pos + piece.length = stop := by omega
          rw [hsame] at hat ⊢
          exact hend (by omega) hat

/-! ## Recycling -/

/-- A slot's label moves on by the number of slots. -/
def recycle (ring : BlockRing) (labels : ℕ → ℕ) (slot : ℕ) : ℕ → ℕ :=
  Function.update labels slot ((labels slot + ring.count) % ring.disk)

/-- Each slot bears the label it has after a number of its own recycles. -/
def Tenancy (ring : BlockRing) (labels : ℕ → ℕ) : Prop :=
  ∀ slot < ring.count, ∃ laps, labels slot = (slot + ring.count * laps) % ring.disk

theorem tenancy_id (h : ring.count ≤ ring.disk) : ring.Tenancy id := fun slot hslot =>
  ⟨0, by rw [Nat.mul_zero, Nat.add_zero, id, Nat.mod_eq_of_lt (hslot.trans_le h)]⟩

theorem Tenancy.recycle (h : ring.Tenancy labels) (slot : ℕ) :
    ring.Tenancy (ring.recycle labels slot) := by
  intro other hother
  obtain ⟨laps, hlabel⟩ := h other hother
  by_cases hsame : other = slot
  · subst hsame
    refine ⟨laps + 1, ?_⟩
    rw [BlockRing.recycle, Function.update_self, hlabel, Nat.mod_add_mod, Nat.mul_succ,
      Nat.add_assoc]
  · exact ⟨laps, by rw [BlockRing.recycle, Function.update_of_ne hsame, hlabel]⟩

/-- Each label is the slot's number modulo the number of slots. -/
def Congruent (ring : BlockRing) (labels : ℕ → ℕ) : Prop :=
  ∀ slot < ring.count, labels slot % ring.count = slot

theorem Tenancy.congruent (h : ring.Tenancy labels) (hdvd : ring.count ∣ ring.disk) :
    ring.Congruent labels := by
  intro slot hslot
  obtain ⟨laps, hlabel⟩ := h slot hslot
  rw [hlabel, Nat.mod_mod_of_dvd _ hdvd, Nat.add_mul_mod_self_left, Nat.mod_eq_of_lt hslot]

section Systems

variable {State Label : Type*} {sys : TransitionSystem State Label}
  {labelsOf : State → ℕ → ℕ} {recycled : State → ℕ → State} {state : State}

/-- A system whose steps recycle at most keeps the tenancy. -/
theorem tenancy_of_reachable (hle : ring.count ≤ ring.disk) (hinit : labelsOf sys.init = id)
    (hstep : ∀ {state next : State} {label : Label}, sys.step state label = some next →
      labelsOf next = labelsOf state ∨
        ∃ slot, labelsOf next = ring.recycle (labelsOf state) slot)
    (h : sys.Reachable (fun _ _ => True) state) : ring.Tenancy (labelsOf state) := by
  refine h.invariant (fun state => ring.Tenancy (labelsOf state)) ?_ ?_
  · rw [hinit]
    exact tenancy_id hle
  · intro state next label htenancy _ hnext
    rcases hstep hnext with hsame | ⟨slot, hrecycle⟩
    · exact hsame ▸ htenancy
    · exact hrecycle ▸ htenancy.recycle slot

end Systems

end BlockRing

end TrafficDatabase
