import Mathlib.Data.List.GetD
import TrafficDatabase.Library.Worklist
import TrafficDatabase.Storage.Querier

/-!
# Reading chains of packets

`readPackets` works off a list of offsets whose entries it replaces by the
offsets the headers point to, and swaps with their neighbours.  It is over in the
end, for an entry only ever moves towards the end of the disk, and unless a read
fails it has then visited the chains of all entries (`covers_iff`).

The distances and lengths come from the disk, and two copies trust them.  Where
an offset lies in the last seven bytes of its cell, the length of the first part
of the header is negative; where a packet goes on in a second cell, the copy of
its rest may run over the end of the data buffer.  Either is undefined.
-/

namespace TrafficDatabase

/-- What the sizes of a querier are like: a cell has room for a header and its tail,
the data buffer is three blocks of cells, and an offset of the disk is a signed
number of 64 bits. -/
structure QuerierConfig.Valid (q : QuerierConfig) : Prop where
  room : pcapHeaderLen + cellTailLen ≤ q.cellSize
  two_le : 2 ≤ q.dataBufferSize / q.cellSize
  diskSize_le : q.blockNum * q.cellSize ≤ 2 ^ 63

/-- How `readPackets` ends. -/
inductive Reading
  | done (printed : List Printed)
  | readFail (printed : List Printed)
  | undefined
deriving DecidableEq, Repr

namespace Querier

variable (q : QuerierConfig) (disk : Memory) (fresh : ℕ → Memory) (st : Querier)

/-- A copy for the packet, whose cell has been loaded, leaves its memory. -/
def CopyOverruns (offset : ℕ) : Prop :=
  let cellPos := offset % q.cellSize
  let header := st.dataBuffer.read (st.nowBufferId * q.cellSize + cellPos) pcapHeaderLen
  if cellPos + pcapHeaderLen + cellTailLen > q.cellSize then cellPos + cellTailLen > q.cellSize
  else
    cellPos + pcapHeaderLen + cellTailLen + headerCaplen header > q.cellSize ∧
      st.nextBufferId * q.cellSize + (headerCaplen header -
        (q.cellSize - cellPos - cellTailLen - pcapHeaderLen)) > q.dataBufferSize

instance (offset : ℕ) : Decidable (st.CopyOverruns q offset) := by
  unfold CopyOverruns
  infer_instance

/-- A copy in the turn leaves its memory. -/
def Overruns : Prop :=
  let swapped := st.swapOffsets
  let offset := swapped.offsetList.getD swapped.nowId 0
  match swapped.load q disk (offset / q.cellSize) with
  | none => False
  | some loaded => loaded.CopyOverruns q offset

instance : Decidable (st.Overruns q disk) := by
  unfold Overruns
  dsimp only
  split <;> infer_instance

/-- The loop, with how it ends; `none` when the fuel does not last.  The copies of a
turn come after its reads. -/
def run : ℕ → Querier → Option Reading
  | 0, _ => none
  | fuel + 1, st =>
      if st.nowId < st.offsetList.length then
        match st.turn q disk fresh with
        | none => some (.readFail st.printed)
        | some next => if st.Overruns q disk then some .undefined else run fuel next
      else some (.done st.printed)

/-- Turn after turn. -/
inductive Turns : Querier → Querier → Prop
  | refl (st : Querier) : Turns st st
  | step {st mid last : Querier} (hlt : st.nowId < st.offsetList.length)
      (hturn : st.turn q disk fresh = some mid) (tail : Turns mid last) : Turns st last

/-! ## What is on the disk -/

/-- The header of the packet at an offset. -/
def headerAt (offset : ℕ) : List UInt8 :=
  let cellPos := offset % q.cellSize
  let cell := offset / q.cellSize
  let tmpLen := q.cellSize - cellPos - cellTailLen
  if cellPos + pcapHeaderLen + cellTailLen > q.cellSize then
    let following := ofLittleEndian
      (disk.read (cell * q.cellSize + (q.cellSize - cellTailLen)) cellTailLen)
    disk.read (cell * q.cellSize + cellPos) tmpLen ++
      disk.read (following * q.cellSize) (pcapHeaderLen - tmpLen)
  else disk.read (cell * q.cellSize + cellPos) pcapHeaderLen

/-- The offset its header points to. -/
def successor (offset : ℕ) : Option ℕ :=
  let next := headerLen (headerAt q disk offset)
  if next = 0 ∨ next = 2 ^ 32 - 1 then none else some (offset + next)

/-- The loop is over, and unless a read has failed it has visited the chains of all
entries of the list, each of them in ascending order. -/
def Covers (offsets : List ℕ) (dataBuffer : Memory) : Prop :=
  ∃ fuel ending, run q disk fresh fuel (start offsets dataBuffer) = some ending ∧
    ((∃ printed, ending = .readFail printed) ∨
      ∃ printed chains, ending = .done printed ∧
        List.Forall₂ (Worklist.Chain (successor q disk)) offsets chains ∧
        (printed.map Printed.offset).Perm chains.flatten ∧
        ∀ chain ∈ chains, chain.Sublist (printed.map Printed.offset) ∧ chain.Pairwise (· < ·))

variable {q disk fresh st} {offset : ℕ}

theorem lt_of_successor {next : ℕ} (h : successor q disk offset = some next) : offset < next := by
  simp only [successor] at h
  split_ifs at h with hends
  have := Option.some.inj h
  omega

/-! ## The list -/

/-- The entries that are still to be worked off. -/
def pending (st : Querier) : List ℕ := st.offsetList.drop st.nowId

theorem drop_set_self {list : List ℕ} {i : ℕ} (hi : i < list.length) (entry : ℕ) :
    (list.set i entry).drop i = entry :: list.drop (i + 1) := by
  have hlen : i < (list.set i entry).length := by rwa [List.length_set]
  rw [List.drop_eq_getElem_cons hlen, List.getElem_set_self,
    List.drop_set_of_lt (Nat.lt_succ_self i)]

@[simp] theorem swapOffsets_nowId : st.swapOffsets.nowId = st.nowId := by
  unfold swapOffsets
  dsimp only
  split_ifs <;> rfl

@[simp] theorem swapOffsets_printed : st.swapOffsets.printed = st.printed := by
  unfold swapOffsets
  dsimp only
  split_ifs <;> rfl

@[simp] theorem length_swapOffsets : st.swapOffsets.offsetList.length = st.offsetList.length := by
  unfold swapOffsets
  dsimp only
  split_ifs <;> simp

/-- The list is only reordered, in the part that is still to be worked off. -/
theorem pending_swapOffsets (st : Querier) : st.swapOffsets.pending.Perm st.pending := by
  unfold swapOffsets pending
  dsimp only
  split_ifs with hswap
  · have hfirst : st.nowId < st.offsetList.length := by omega
    have hset : st.nowId < (st.offsetList.set (st.nowId + 1)
        (st.offsetList.getD st.nowId 0)).length := by rwa [List.length_set]
    rw [List.set_comm _ _ (Nat.ne_of_lt (Nat.lt_succ_self _)), drop_set_self hset,
      drop_set_self hswap.1, List.getD_eq_getElem _ _ hfirst, List.getD_eq_getElem _ _ hswap.1,
      List.drop_eq_getElem_cons hfirst, List.drop_eq_getElem_cons hswap.1]
    exact List.Perm.swap ..
  · exact List.Perm.refl _

/-- The entry the turn is about, and the others. -/
theorem pending_eq_cons (hlt : st.nowId < st.offsetList.length) :
    st.pending = st.offsetList.getD st.nowId 0 :: st.offsetList.drop (st.nowId + 1) := by
  rw [pending, List.drop_eq_getElem_cons hlt, List.getD_eq_getElem _ _ hlt]

/-! ## The buffer -/

/-- The last cell read is in the buffer, and the next one goes to another place. -/
structure Buffered (q : QuerierConfig) (disk : Memory) (st : Querier) : Prop where
  next_lt : st.nextBufferId < q.dataBufferSize / q.cellSize
  offset_lt : ∀ entry ∈ st.offsetList, entry < 2 ^ 64
  held : st.lastCellId ≠ u64Max → st.lastCellId < q.blockNum ∧
    st.nowBufferId ≠ st.nextBufferId ∧
    ∀ place len, place + len ≤ q.cellSize →
      st.dataBuffer.read (st.nowBufferId * q.cellSize + place) len =
        disk.read (st.lastCellId * q.cellSize + place) len

theorem buffered_start (hvalid : q.Valid) {offsets : List ℕ} (dataBuffer : Memory)
    (hoffsets : ∀ entry ∈ offsets, entry < 2 ^ 64) :
    Buffered q disk (start offsets dataBuffer) where
  next_lt := Nat.zero_lt_two.trans_le hvalid.two_le
  offset_lt := hoffsets
  held h := absurd rfl h

theorem Buffered.swapOffsets (h : Buffered q disk st) : Buffered q disk st.swapOffsets := by
  have hentries : ∀ entry ∈ st.swapOffsets.offsetList, entry < 2 ^ 64 := by
    intro entry hmem
    unfold Querier.swapOffsets at hmem
    dsimp only at hmem
    split_ifs at hmem with hswap
    · have hfirst : st.nowId < st.offsetList.length := by omega
      rcases List.mem_or_eq_of_mem_set hmem with hmem | rfl
      · rcases List.mem_or_eq_of_mem_set hmem with hmem | rfl
        · exact h.offset_lt entry hmem
        · rw [List.getD_eq_getElem _ _ hswap.1]
          exact h.offset_lt _ (List.getElem_mem _)
      · rw [List.getD_eq_getElem _ _ hfirst]
        exact h.offset_lt _ (List.getElem_mem _)
    · exact h.offset_lt entry hmem
  have hrest : st.swapOffsets.nextBufferId = st.nextBufferId ∧
      st.swapOffsets.nowBufferId = st.nowBufferId ∧ st.swapOffsets.lastCellId = st.lastCellId ∧
      st.swapOffsets.dataBuffer = st.dataBuffer := by
    unfold Querier.swapOffsets
    dsimp only
    split_ifs <;> exact ⟨rfl, rfl, rfl, rfl⟩
  obtain ⟨hnext, hnow, hlast, hbuffer⟩ := hrest
  exact
    { next_lt := hnext ▸ h.next_lt
      offset_lt := hentries
      held := by
        rw [hnext, hnow, hlast, hbuffer]
        exact h.held }

/-- A cell that is written to another place of the buffer leaves the last one. -/
theorem read_write_cell {dataBuffer : Memory} {now next place len : ℕ} {cell : List UInt8}
    (hne : now ≠ next) (hcell : cell.length = q.cellSize) (hle : place + len ≤ q.cellSize) :
    (dataBuffer.write (next * q.cellSize) cell).read (now * q.cellSize + place) len =
      dataBuffer.read (now * q.cellSize + place) len := by
  apply Memory.read_write_of_disjoint
  rw [hcell]
  rcases Nat.lt_or_gt_of_ne hne with hlt | hgt
  · have hmul := Nat.mul_le_mul_right q.cellSize (Nat.succ_le_of_lt hlt)
    rw [Nat.succ_mul] at hmul
    omega
  · have hmul := Nat.mul_le_mul_right q.cellSize (Nat.succ_le_of_lt hgt)
    rw [Nat.succ_mul] at hmul
    omega

/-- A cell that is written to the buffer can be read there. -/
theorem read_cell {dataBuffer : Memory} {next cell place len : ℕ} (hle : place + len ≤ q.cellSize) :
    (dataBuffer.write (next * q.cellSize) (disk.read (cell * q.cellSize) q.cellSize)).read
        (next * q.cellSize + place) len = disk.read (cell * q.cellSize + place) len := by
  rw [Memory.read_write_inside _ (by rwa [Memory.length_read]), Memory.read_drop _ _ (by omega),
    Memory.read_take _ _ (by omega)]

/-- The cell of an offset is loaded, and is one of the disk. -/
theorem Buffered.load (hvalid : q.Valid) (h : Buffered q disk st) {loaded : Querier}
    (hoffset : offset < 2 ^ 64) (hload : st.load q disk (offset / q.cellSize) = some loaded) :
    Buffered q disk loaded ∧ loaded.lastCellId = offset / q.cellSize ∧
      offset / q.cellSize < q.blockNum ∧ loaded.lastCellId ≠ u64Max ∧
      loaded.offsetList = st.offsetList ∧ loaded.nowId = st.nowId ∧
      loaded.printed = st.printed := by
  have hroom := hvalid.room
  have hcell : offset / q.cellSize ≠ u64Max := by
    have hle : offset / q.cellSize ≤ offset / 2 :=
      Nat.div_le_div_left (by unfold pcapHeaderLen at hroom; omega) Nat.two_pos
    unfold u64Max
    omega
  unfold Querier.load at hload
  by_cases hne : st.lastCellId ≠ offset / q.cellSize
  · rw [if_pos hne] at hload
    unfold readCell at hload
    by_cases hrange : offset / q.cellSize ≥ q.blockNum
    · rw [if_pos hrange] at hload
      cases hload
    · rw [if_neg hrange, Option.map_some] at hload
      obtain rfl := Option.some.inj hload
      have htwo := hvalid.two_le
      have hnext := h.next_lt
      refine ⟨⟨?_, h.offset_lt, fun _ => ⟨not_le.mp hrange, ?_, ?_⟩⟩, rfl, not_le.mp hrange, hcell,
        rfl, rfl, rfl⟩
      · dsimp only
        split_ifs <;> omega
      · dsimp only
        split_ifs <;> omega
      · exact fun place len hle => read_cell hle
  · rw [if_neg hne] at hload
    rw [not_not] at hne
    obtain rfl := Option.some.inj hload
    rw [← hne] at hcell
    have hblock := (h.held hcell).1
    rw [hne] at hblock
    exact ⟨h, hne, hblock, hne ▸ hcell, rfl, rfl, rfl⟩

/-- A second cell is read to the other place. -/
theorem Buffered.follow (h : Buffered q disk st) (hheld : st.lastCellId ≠ u64Max) {following : ℕ}
    {dataBuffer : Memory}
    (hread : readCell q disk st.dataBuffer st.nextBufferId following = some dataBuffer) :
    Buffered q disk { st with dataBuffer } ∧
      ∀ place len, place + len ≤ q.cellSize →
        dataBuffer.read (st.nextBufferId * q.cellSize + place) len =
          disk.read (following * q.cellSize + place) len := by
  obtain ⟨hcell, hne, hcontent⟩ := h.held hheld
  unfold readCell at hread
  split_ifs at hread with hrange
  obtain rfl := Option.some.inj hread
  refine ⟨⟨h.next_lt, h.offset_lt, fun _ => ⟨hcell, hne, fun place len hle => ?_⟩⟩,
    fun place len hle => read_cell hle⟩
  rw [read_write_cell hne (Memory.length_read ..) hle, hcontent place len hle]

/-- A packet that is decoded without leaving memory is the one on the disk. -/
theorem Buffered.decode (hvalid : q.Valid) (h : Buffered q disk st)
    (hlast : st.lastCellId = offset / q.cellSize) (hheld : st.lastCellId ≠ u64Max) {got : Decoded}
    (hgot : st.decode q disk fresh offset = some got) (hcopies : ¬ st.CopyOverruns q offset) :
    got.next = headerLen (headerAt q disk offset) ∧
      Buffered q disk { st with dataBuffer := got.dataBuffer } := by
  have hroom := hvalid.room
  have hcontent := (h.held hheld).2.2
  rw [hlast] at hcontent
  have htail : st.cellTail q = ofLittleEndian (disk.read
      (offset / q.cellSize * q.cellSize + (q.cellSize - cellTailLen)) cellTailLen) :=
    congrArg ofLittleEndian (hcontent _ _ (by omega))
  unfold CopyOverruns at hcopies
  unfold Querier.decode at hgot
  unfold headerAt
  dsimp only at hcopies hgot ⊢
  by_cases hsplit : offset % q.cellSize + pcapHeaderLen + cellTailLen > q.cellSize
  · rw [if_pos hsplit] at hcopies hgot ⊢
    obtain ⟨dataBuffer, hread, rfl⟩ := Option.map_eq_some_iff.mp hgot
    obtain ⟨hbuffered, hfollowing⟩ := h.follow hheld hread
    have hfirst := (hbuffered.held hheld).2.2 (offset % q.cellSize)
      (q.cellSize - offset % q.cellSize - cellTailLen) (by omega)
    have hsecond := hfollowing 0
      (pcapHeaderLen - (q.cellSize - offset % q.cellSize - cellTailLen)) (by omega)
    rw [Nat.add_zero, Nat.add_zero] at hsecond
    refine ⟨?_, hbuffered⟩
    dsimp only at hfirst ⊢
    rw [hfirst, hsecond, hlast, htail]
  · rw [if_neg hsplit] at hcopies hgot ⊢
    rw [← hcontent (offset % q.cellSize) pcapHeaderLen (by omega)]
    split_ifs at hgot with hlong
    · obtain ⟨dataBuffer, hread, rfl⟩ := Option.map_eq_some_iff.mp hgot
      exact ⟨rfl, (h.follow hheld hread).1⟩
    · obtain rfl := Option.some.inj hgot
      exact ⟨rfl, h⟩

/-! ## A turn -/

theorem headerLen_lt (bytes : List UInt8) : headerLen bytes < 2 ^ 32 := by
  have hlen : ((bytes.drop 12).take 4).length ≤ 4 := List.length_take_le _ _
  calc headerLen bytes < 256 ^ ((bytes.drop 12).take 4).length := ofLittleEndian_lt _
    _ ≤ 256 ^ 4 := Nat.pow_le_pow_right (by decide) hlen
    _ = 2 ^ 32 := by decide

/-- What a turn does: an entry is visited, and its successor is put in its place. -/
structure Works (q : QuerierConfig) (disk : Memory) (st next : Querier) (offset : ℕ)
    (rest : List ℕ) : Prop where
  choice : st.pending.Perm (offset :: rest)
  pending : next.pending = (successor q disk offset).toList ++ rest
  printed : next.printed.map Printed.offset = st.printed.map Printed.offset ++ [offset]
  lt_diskSize : offset < q.blockNum * q.cellSize

theorem Buffered.print (hvalid : q.Valid) {got : Decoded}
    (h : Buffered q disk { st with dataBuffer := got.dataBuffer })
    (hlt : st.nowId < st.offsetList.length) (hentry : st.offsetList.getD st.nowId 0 = offset)
    (hdisk : offset < q.blockNum * q.cellSize)
    (hnext : got.next = headerLen (headerAt q disk offset)) :
    Buffered q disk (st.print offset got) ∧
      Works q disk st (st.print offset got) offset (st.offsetList.drop (st.nowId + 1)) := by
  have hdiskSize := hvalid.diskSize_le
  have hlen := headerLen_lt (headerAt q disk offset)
  have hchoice : st.pending.Perm (offset :: st.offsetList.drop (st.nowId + 1)) := by
    rw [pending_eq_cons hlt, hentry]
  unfold Querier.print
  rw [hnext]
  by_cases hends : headerLen (headerAt q disk offset) = 0 ∨
      headerLen (headerAt q disk offset) = 2 ^ 32 - 1
  · have hlast : successor q disk offset = none := if_pos hends
    rw [if_pos hends]
    refine ⟨⟨h.next_lt, h.offset_lt, h.held⟩, hchoice, ?_, List.map_append, hdisk⟩
    rw [hlast]
    rfl
  · have hmore : successor q disk offset = some (offset + headerLen (headerAt q disk offset)) :=
      if_neg hends
    -- an entry on the disk cannot be moved beyond 64 bits
    have hmod : (offset + headerLen (headerAt q disk offset)) % 2 ^ 64 =
        offset + headerLen (headerAt q disk offset) := Nat.mod_eq_of_lt (by omega)
    rw [if_neg hends, hmod]
    refine ⟨⟨h.next_lt, fun entry hmem => ?_, h.held⟩, hchoice, ?_, List.map_append, hdisk⟩
    · rcases List.mem_or_eq_of_mem_set hmem with hmem | rfl
      · exact h.offset_lt entry hmem
      · omega
    · rw [hmore]
      exact drop_set_self hlt _

/-- A turn that leaves no memory works off one entry. -/
theorem Buffered.turn (hvalid : q.Valid) (h : Buffered q disk st)
    (hlt : st.nowId < st.offsetList.length) {next : Querier}
    (hturn : st.turn q disk fresh = some next) (hmemory : ¬ st.Overruns q disk) :
    Buffered q disk next ∧ ∃ offset rest, Works q disk st next offset rest := by
  have hswapped := h.swapOffsets
  have hswappedLt : st.swapOffsets.nowId < st.swapOffsets.offsetList.length := by
    rwa [swapOffsets_nowId, length_swapOffsets]
  unfold Querier.turn at hturn
  unfold Overruns at hmemory
  dsimp only at hturn hmemory
  generalize hentry : st.swapOffsets.offsetList.getD st.swapOffsets.nowId 0 = offset
    at hturn hmemory
  obtain ⟨loaded, hload, hdecode⟩ := Option.bind_eq_some_iff.mp hturn
  obtain ⟨got, hgot, rfl⟩ := Option.map_eq_some_iff.mp hdecode
  rw [hload] at hmemory
  have hoffset : offset < 2 ^ 64 := by
    rw [← hentry, List.getD_eq_getElem _ _ hswappedLt]
    exact hswapped.offset_lt _ (List.getElem_mem _)
  obtain ⟨hloaded, hlast, hcell, hheld, hlist, hnow, hprinted⟩ :=
    hswapped.load hvalid hoffset hload
  obtain ⟨hnext, hdecoded⟩ := hloaded.decode hvalid hlast hheld hgot hmemory
  have hroom := hvalid.room
  have hdisk : offset < q.blockNum * q.cellSize :=
    (Nat.div_lt_iff_lt_mul (by unfold pcapHeaderLen at hroom; omega)).mp hcell
  obtain ⟨hbuffered, hworks⟩ :=
    hdecoded.print hvalid (by rwa [hlist, hnow]) (by rw [hlist, hnow, hentry]) hdisk hnext
  have hpending : loaded.pending = st.swapOffsets.pending := by
    rw [pending, hlist, hnow, pending]
  refine ⟨hbuffered, offset, _, ?_, hworks.pending, ?_, hdisk⟩
  · exact (pending_swapOffsets st).symm.trans (hpending ▸ hworks.choice)
  · rw [hworks.printed, hprinted, swapOffsets_printed]

/-! ## The loop -/

/-- In a turn of the loop a copy leaves its memory. -/
def Leaves (q : QuerierConfig) (disk : Memory) (fresh : ℕ → Memory) (st : Querier) : Prop :=
  st.nowId < st.offsetList.length ∧ (st.turn q disk fresh).isSome ∧ st.Overruns q disk

/-- How the loop goes on from a state. -/
theorem run_succ {fuel : ℕ} {ending : Reading}
    (h : run q disk fresh (fuel + 1) st = some ending) :
    (¬ st.nowId < st.offsetList.length ∧ ending = .done st.printed) ∨
      (st.nowId < st.offsetList.length ∧ st.turn q disk fresh = none ∧
        ending = .readFail st.printed) ∨
      (Leaves q disk fresh st ∧ ending = .undefined) ∨
      ∃ next, st.nowId < st.offsetList.length ∧ st.turn q disk fresh = some next ∧
        ¬ st.Overruns q disk ∧ run q disk fresh fuel next = some ending := by
  rw [run] at h
  by_cases hlt : st.nowId < st.offsetList.length
  · rw [if_pos hlt] at h
    cases hturn : st.turn q disk fresh with
    | none =>
        rw [hturn] at h
        exact .inr (.inl ⟨hlt, rfl, (Option.some.inj h).symm⟩)
    | some next =>
        rw [hturn] at h
        dsimp only at h
        by_cases hmemory : st.Overruns q disk
        · rw [if_pos hmemory] at h
          have hleaves : Leaves q disk fresh st := ⟨hlt, hturn ▸ rfl, hmemory⟩
          exact .inr (.inr (.inl ⟨hleaves, (Option.some.inj h).symm⟩))
        · rw [if_neg hmemory] at h
          exact .inr (.inr (.inr ⟨next, hlt, rfl, hmemory, h⟩))
  · rw [if_neg hlt] at h
    exact .inl ⟨hlt, (Option.some.inj h).symm⟩

/-- A turn moves an entry towards the end of the disk, or drops it. -/
theorem Works.work_lt {next : Querier} {rest : List ℕ} (h : Works q disk st next offset rest) :
    Worklist.work (q.blockNum * q.cellSize) next.pending <
      Worklist.work (q.blockNum * q.cellSize) st.pending := by
  rw [h.pending]
  exact Worklist.work_visit_lt lt_of_successor h.lt_diskSize h.choice

theorem Buffered.run_ends (hvalid : q.Valid) :
    ∀ (fuel : ℕ) (st : Querier), Buffered q disk st →
      Worklist.work (q.blockNum * q.cellSize) st.pending < fuel →
      ∃ ending, run q disk fresh fuel st = some ending := by
  intro fuel
  induction fuel with
  | zero => exact fun st _ hfuel => absurd hfuel (Nat.not_lt_zero _)
  | succ fuel ih =>
      intro st h hfuel
      rw [run]
      by_cases hlt : st.nowId < st.offsetList.length
      · rw [if_pos hlt]
        cases hturn : st.turn q disk fresh with
        | none => exact ⟨_, rfl⟩
        | some next =>
            dsimp only
            by_cases hmemory : st.Overruns q disk
            · exact ⟨.undefined, if_pos hmemory⟩
            · obtain ⟨hnext, offset, rest, hworks⟩ := h.turn hvalid hlt hturn hmemory
              rw [if_neg hmemory]
              exact ih next hnext (hworks.work_lt.trans_le (Nat.le_of_lt_succ hfuel))
      · rw [if_neg hlt]
        exact ⟨_, rfl⟩

/-- A loop that gets through has worked off the list. -/
theorem Buffered.visits (hvalid : q.Valid) :
    ∀ (fuel : ℕ) (st : Querier), Buffered q disk st → ∀ {printed : List Printed},
      run q disk fresh fuel st = some (.done printed) →
      ∃ visited, printed.map Printed.offset = st.printed.map Printed.offset ++ visited ∧
        Worklist.Visits (successor q disk) st.pending visited := by
  intro fuel
  induction fuel with
  | zero => exact fun st _ printed hrun => by cases hrun
  | succ fuel ih =>
      intro st h printed hrun
      rcases run_succ hrun with ⟨hlt, hending⟩ | ⟨-, -, hending⟩ | ⟨-, hending⟩ |
        ⟨next, hlt, hturn, hmemory, hrun⟩
      · obtain rfl := Reading.done.inj hending
        have hnone : st.pending = [] := List.drop_eq_nil_of_le (not_lt.mp hlt)
        rw [hnone]
        exact ⟨[], (List.append_nil _).symm, .done⟩
      · cases hending
      · cases hending
      · obtain ⟨hnext, offset, rest, hworks⟩ := h.turn hvalid hlt hturn hmemory
        obtain ⟨visited, hprinted, hvisits⟩ := ih next hnext hrun
        rw [hworks.pending] at hvisits
        refine ⟨offset :: visited, ?_, .visit hworks.choice hvisits⟩
        rw [hprinted, hworks.printed, List.append_assoc, List.singleton_append]

/-- Unless a copy leaves its memory, the loop prints what `readPackets` prints. -/
theorem readPackets_of_run :
    ∀ {fuel : ℕ} {st : Querier} {printed : List Printed},
      run q disk fresh fuel st = some (.done printed) ∨
        run q disk fresh fuel st = some (.readFail printed) →
      readPackets q disk fresh fuel st = some printed := by
  intro fuel
  induction fuel with
  | zero => exact fun hrun => hrun.elim (fun h => by cases h) fun h => by cases h
  | succ fuel ih =>
      intro st printed hrun
      obtain ⟨ending, hrun, hending⟩ : ∃ ending, run q disk fresh (fuel + 1) st = some ending ∧
          (ending = .done printed ∨ ending = .readFail printed) :=
        hrun.elim (fun h => ⟨_, h, .inl rfl⟩) fun h => ⟨_, h, .inr rfl⟩
      rw [readPackets]
      rcases run_succ hrun with ⟨hlt, rfl⟩ | ⟨hlt, hturn, rfl⟩ | ⟨-, rfl⟩ |
        ⟨next, hlt, hturn, -, hrun⟩
      · rw [if_neg hlt]
        rcases hending with hending | hending
        · exact congrArg some (Reading.done.inj hending)
        · cases hending
      · rw [if_pos hlt, hturn]
        rcases hending with hending | hending
        · cases hending
        · exact congrArg some (Reading.readFail.inj hending)
      · rcases hending with hending | hending <;> cases hending
      · rw [if_pos hlt, hturn]
        refine ih ?_
        rcases hending with rfl | rfl
        · exact .inl hrun
        · exact .inr hrun

theorem run_of_leaves {last : Querier} (h : Turns q disk fresh st last)
    (hleaves : Leaves q disk fresh last) :
    ∀ {fuel : ℕ} {ending : Reading}, run q disk fresh fuel st = some ending →
      ending = .undefined := by
  induction h with
  | refl st =>
      obtain ⟨hlt, hsome, hmemory⟩ := hleaves
      intro fuel ending hrun
      cases fuel with
      | zero => cases hrun
      | succ fuel =>
          rcases run_succ hrun with ⟨hend, -⟩ | ⟨-, hnone, -⟩ | ⟨-, hending⟩ | ⟨-, -, -, hno, -⟩
          · exact absurd hlt hend
          · rw [hnone] at hsome
            cases hsome
          · exact hending
          · exact absurd hmemory hno
  | @step st mid last hlt hturn tail ih =>
      intro fuel ending hrun
      cases fuel with
      | zero => cases hrun
      | succ fuel =>
          rcases run_succ hrun with ⟨hend, -⟩ | ⟨-, hnone, -⟩ | ⟨-, hending⟩ |
            ⟨next, -, hnext, -, hrun⟩
          · exact absurd hlt hend
          · rw [hnone] at hturn
            cases hturn
          · exact hending
          · obtain rfl := Option.some.inj (hnext.symm.trans hturn)
            exact ih hleaves hrun

theorem leaves_of_run :
    ∀ {fuel : ℕ} {st : Querier}, run q disk fresh fuel st = some .undefined →
      ∃ last, Turns q disk fresh st last ∧ Leaves q disk fresh last := by
  intro fuel
  induction fuel with
  | zero => exact fun hrun => by cases hrun
  | succ fuel ih =>
      intro st hrun
      rcases run_succ hrun with ⟨-, hending⟩ | ⟨-, -, hending⟩ | ⟨hleaves, -⟩ |
        ⟨next, hlt, hturn, -, hrun⟩
      · cases hending
      · cases hending
      · exact ⟨st, .refl st, hleaves⟩
      · obtain ⟨last, hturns, hleaves⟩ := ih hrun
        exact ⟨last, .step hlt hturn hturns, hleaves⟩

/-- Reading is over and has visited the chains of all entries, unless a copy leaves its
memory in some turn. -/
theorem covers_iff (hvalid : q.Valid) (disk : Memory) (fresh : ℕ → Memory) (dataBuffer : Memory)
    {offsets : List ℕ} (hoffsets : ∀ entry ∈ offsets, entry < 2 ^ 64) :
    Covers q disk fresh offsets dataBuffer ↔
      ∀ last, Turns q disk fresh (start offsets dataBuffer) last →
        ¬ Leaves q disk fresh last := by
  have hstart : Buffered q disk (start offsets dataBuffer) :=
    buffered_start hvalid dataBuffer hoffsets
  constructor
  · rintro ⟨fuel, ending, hrun, hending⟩ last hturns hleaves
    have hundefined := run_of_leaves hturns hleaves hrun
    rcases hending with ⟨printed, rfl⟩ | ⟨printed, chains, rfl, _⟩ <;> cases hundefined
  · intro hsafe
    obtain ⟨ending, hrun⟩ :=
      @Buffered.run_ends q disk fresh hvalid _ _ hstart (Nat.lt_succ_self _)
    refine ⟨_, ending, hrun, ?_⟩
    cases ending with
    | readFail printed => exact .inl ⟨printed, rfl⟩
    | undefined =>
        obtain ⟨last, hturns, hleaves⟩ := leaves_of_run hrun
        exact absurd hleaves (hsafe last hturns)
    | done printed =>
        obtain ⟨visited, hprinted, hvisits⟩ := hstart.visits hvalid _ _ hrun
        obtain ⟨chains, hchains, hperm, hsublists⟩ := hvisits.chains
        have hvisited : printed.map Printed.offset = visited := hprinted
        exact .inr ⟨printed, chains, rfl, hchains, hvisited ▸ hperm, fun chain hmem =>
          ⟨hvisited ▸ hsublists chain hmem,
            Worklist.chains_pairwise_lt lt_of_successor hchains chain hmem⟩⟩

/-- A reader of a disk of four cells. -/
def smallReader : QuerierConfig := { cellSize := 32, dataBufferSize := 3 * 32, blockNum := 4 }

theorem smallReader_valid : smallReader.Valid := ⟨by decide, by decide, by decide⟩

/-- Six bytes before the end of a cell. -/
theorem reading_undefined :
    ¬ Covers smallReader (fun _ => 0) (fun _ _ => 0) [26] (fun _ => 0) := by
  rintro ⟨fuel, ending, hrun, hending⟩
  have hleaves : Leaves smallReader (fun _ => 0) (fun _ _ => 0) (start [26] fun _ => 0) := by
    unfold Leaves
    decide
  have hundefined := run_of_leaves (Turns.refl _) hleaves hrun
  rcases hending with ⟨printed, rfl⟩ | ⟨printed, chains, rfl, _⟩ <;> cases hundefined

/-- The chain that lies further back comes first in the list. -/
theorem reading_covers_iff :
    Covers smallReader (fun _ => 0) (fun _ _ => 0) [64, 0] (fun _ => 0) ↔
      ∀ last, Turns smallReader (fun _ => 0) (fun _ _ => 0) (start [64, 0] fun _ => 0) last →
        ¬ Leaves smallReader (fun _ => 0) (fun _ _ => 0) last :=
  covers_iff smallReader_valid _ _ _ (by decide)

end Querier

end TrafficDatabase
