import Mathlib.Combinatorics.Pigeonhole
import Mathlib.Logic.Function.Basic
import TrafficDatabase.Library.Residue
import TrafficDatabase.Library.TransitionSystem

/-!
# The hand-out protocol

What the writers, the dump threads and the recycler of the data block buffer do
to each other, in numbers that are never reduced: blocks and cells are counted
over all laps of the disk.  A writer owns the cells it takes from the shared
counter, fills them in order and has up to two at a time, the one its next byte
goes to (`front`) and the one it took last (`cell`).  What it publishes
(`mark`) is the block of its front cell, or the block after it once the write
that ends the block has been let through.  A dumper hands out the block its
cursor is at when every mark is more than `delay` blocks further on; a block
that was handed out may be recycled, and its slot then holds the block `slots`
further on.

Under `Timely`, that is with no more dumpers than the delay and
`dumpers + delay` at most two laps of the slots, `Invariant` is kept by every step:

* `held_cursor`: the slot a dumper looks at holds the block its cursor is at, so
  no block is skipped and none is handed out twice;
* `exists_mark_le`: some writer is at most one lap past any slot;
* `front_le`, `held_le_front`: writers and slots stay within three laps of each other, which
  is what makes comparison modulo the disk safe.

With at most `delay + 1` writers, `Settled` holds as well: a block handed out is
`delay` blocks behind every writer.
-/

namespace TrafficDatabase

namespace HandOut

/-- The sizes the protocol depends on. -/
structure Params where
  slots : ℕ
  cellsPerBlock : ℕ
  writers : ℕ
  dumpers : ℕ
  delay : ℕ
  writers_pos : 0 < writers
  writers_le_cells : writers ≤ cellsPerBlock
  writers_le_slots : writers ≤ slots
  dumpers_le_slots : dumpers ≤ slots

namespace Params

variable (p : Params)

/-- The block a cell lies in. -/
def blockOf (cell : ℕ) : ℕ := cell / p.cellsPerBlock

theorem slots_pos : 0 < p.slots := lt_of_lt_of_le p.writers_pos p.writers_le_slots

theorem cellsPerBlock_pos : 0 < p.cellsPerBlock := lt_of_lt_of_le p.writers_pos p.writers_le_cells

theorem blockOf_mono {first second : ℕ} (h : first ≤ second) : p.blockOf first ≤ p.blockOf second :=
  Nat.div_le_div_right h

theorem blockOf_lt_iff {cell block : ℕ} : p.blockOf cell < block ↔ cell < block * p.cellsPerBlock :=
  Nat.div_lt_iff_lt_mul p.cellsPerBlock_pos

theorem le_blockOf_iff {cell block : ℕ} : block ≤ p.blockOf cell ↔ block * p.cellsPerBlock ≤ cell :=
  Nat.le_div_iff_mul_le p.cellsPerBlock_pos

/-- The delay leaves the dumpers room, and the window never starts more than two
laps before the first block. -/
structure Timely : Prop where
  dumpers_le_delay : p.dumpers ≤ p.delay
  dumpers_add_delay_le : p.dumpers + p.delay ≤ 2 * p.slots + 1

end Params

structure State where
  counter : ℕ
  held : ℕ → ℕ
  cursor : ℕ → ℕ
  started : ℕ → Prop
  attempted : ℕ → Prop
  front : ℕ → ℕ
  cell : ℕ → ℕ
  mark : ℕ → ℕ

variable (p : Params)

def init : State :=
  { counter := 0
    held := id
    cursor := id
    started := fun _ => False
    attempted := fun _ => False
    front := fun _ => 0
    cell := fun _ => 0
    mark := id }

namespace State

variable (st : State)

/-- The block has been in the buffer. -/
def Reached (block : ℕ) : Prop := block ≤ st.held (block % p.slots)

/-- The block has been handed out to a dumper. -/
def Handed (block : ℕ) : Prop := 0 < p.dumpers ∧ block < st.cursor (block % p.dumpers)

def start (writer : ℕ) : State :=
  { st with
    counter := st.counter + 1
    started := Function.update st.started writer True
    front := Function.update st.front writer st.counter
    cell := Function.update st.cell writer st.counter }

def take (writer : ℕ) : State :=
  { st with
    counter := st.counter + 1
    cell := Function.update st.cell writer st.counter }

def advance (writer : ℕ) : State :=
  { st with front := Function.update st.front writer (st.cell writer) }

def publish (writer block : ℕ) : State :=
  { st with
    mark := Function.update st.mark writer block
    attempted := Function.update st.attempted writer True }

def dump (dumper : ℕ) : State :=
  { st with cursor := Function.update st.cursor dumper (st.cursor dumper + p.dumpers) }

def recycle (slot : ℕ) : State :=
  { st with held := Function.update st.held slot (st.held slot + p.slots) }

/-- The blocks a writer may publish. -/
def MayPublish (writer block : ℕ) : Prop :=
  block = p.blockOf (st.front writer) ∨
    (block = p.blockOf (st.front writer) + 1 ∧ st.Reached p (p.blockOf (st.front writer)) ∧
      block ≤ p.blockOf (st.cell writer))

/-- Every writer has published a block more than the delay past what the
dumper's slot holds. -/
def MayDump (dumper : ℕ) : Prop :=
  ∀ writer < p.writers, st.held (st.cursor dumper % p.slots) + p.delay < st.mark writer

end State

/-- One step of a writer, a dumper or the recycler. -/
inductive Step (st : State) : State → Prop
  | start {writer : ℕ} : writer < p.writers → ¬ st.started writer → Step st (st.start writer)
  | take {writer : ℕ} : writer < p.writers → st.started writer →
      st.front writer = st.cell writer → Step st (st.take writer)
  | advance {writer : ℕ} : writer < p.writers → st.started writer →
      st.Reached p (p.blockOf (st.front writer)) → Step st (st.advance writer)
  | publish {writer block : ℕ} : writer < p.writers → st.started writer →
      st.MayPublish p writer block → Step st (st.publish writer block)
  | dump {dumper : ℕ} : dumper < p.dumpers → st.MayDump p dumper → Step st (st.dump p dumper)
  | recycle {slot : ℕ} : slot < p.slots → st.Handed p (st.held slot) → Step st (st.recycle p slot)

/-! ## The invariant -/

/-- What holds of every state of a timely protocol. -/
structure Invariant (st : State) : Prop where
  held_mod : ∀ {slot}, slot < p.slots → st.held slot % p.slots = slot
  cursor_mod : ∀ {dumper}, dumper < p.dumpers → st.cursor dumper % p.dumpers = dumper
  started_lt : ∀ {writer}, st.started writer → writer < p.writers
  started_of_attempted : ∀ {writer}, st.attempted writer → st.started writer
  front_le_cell : ∀ {writer}, st.started writer → st.front writer ≤ st.cell writer
  cell_lt : ∀ {writer}, st.started writer → st.cell writer < st.counter
  /-- Every cell taken is behind its writer's front and was in the buffer, or is
  one of the writer's two cells. -/
  owned : ∀ {cell}, cell < st.counter → ∃ writer < p.writers, st.started writer ∧
    cell ≤ st.cell writer ∧ (cell < st.front writer → st.Reached p (p.blockOf cell)) ∧
    (st.front writer ≤ cell → cell = st.front writer ∨ cell = st.cell writer)
  unattempted : ∀ {writer}, writer < p.writers → ¬ st.attempted writer →
    st.mark writer = writer ∧ ∀ dumper < p.dumpers, st.cursor dumper + p.delay ≤ 2 * p.slots
  cursor_le_mark : ∀ {writer dumper}, st.attempted writer → dumper < p.dumpers →
    st.cursor dumper + p.delay ≤ st.mark writer + 2 * p.slots
  cursor_le_front : ∀ {writer dumper}, st.attempted writer → dumper < p.dumpers →
    st.cursor dumper + p.delay ≤ p.blockOf (st.front writer) + 2 * p.slots
  mark_le_cell : ∀ {writer}, st.attempted writer → st.mark writer ≤ p.blockOf (st.cell writer)
  mark_le_front : ∀ {writer}, st.attempted writer →
    st.mark writer ≤ p.blockOf (st.front writer) ∨
      (st.mark writer = p.blockOf (st.front writer) + 1 ∧
        st.Reached p (p.blockOf (st.front writer)))
  handed_of_lt : ∀ {block}, block < st.held (block % p.slots) → st.Handed p block
  reached_of_handed : ∀ {block}, st.Handed p block → st.Reached p block
  cursor_lt : ∀ {dumper slot}, dumper < p.dumpers → slot < p.slots →
    st.cursor dumper < st.held slot + p.slots

/-- What is left of it whatever the dumpers wait for: a slot's blocks come one a lap,
and the blocks before it have been handed out. -/
structure Turns (st : State) : Prop where
  held_mod : ∀ {slot}, slot < p.slots → st.held slot % p.slots = slot
  cursor_mod : ∀ {dumper}, dumper < p.dumpers → st.cursor dumper % p.dumpers = dumper
  handed_of_lt : ∀ {block}, block < st.held (block % p.slots) → st.Handed p block
  reached_of_handed : ∀ {block}, st.Handed p block → st.Reached p block

variable {p} {st : State}

theorem invariant_init (htimely : p.Timely) : Invariant p init where
  held_mod := fun h => Nat.mod_eq_of_lt h
  cursor_mod := fun h => Nat.mod_eq_of_lt h
  started_lt := False.elim
  started_of_attempted := False.elim
  front_le_cell := fun _ => le_rfl
  cell_lt := False.elim
  owned := fun h => absurd h (Nat.not_lt_zero _)
  unattempted := by
    intro writer _ _
    refine ⟨rfl, fun dumper hdumper => ?_⟩
    have := htimely.dumpers_add_delay_le
    simp only [init, id]
    omega
  cursor_le_mark := False.elim
  cursor_le_front := False.elim
  mark_le_cell := False.elim
  mark_le_front := False.elim
  handed_of_lt := by
    intro block h
    exact absurd h (Nat.mod_le _ _).not_gt
  reached_of_handed := by
    intro block h
    exact absurd h.2 (Nat.mod_le _ _).not_gt
  cursor_lt := by
    intro dumper slot hdumper _
    have := p.dumpers_le_slots
    simp only [init, id]
    omega

theorem Invariant.turns (hinv : Invariant p st) : Turns p st where
  held_mod := hinv.held_mod
  cursor_mod := hinv.cursor_mod
  handed_of_lt := hinv.handed_of_lt
  reached_of_handed := hinv.reached_of_handed

namespace Turns

/-- The slot a dumper looks at holds no later block than the one it has come to. -/
theorem held_le_cursor (hturns : Turns p st) {dumper : ℕ} (hdumper : dumper < p.dumpers) :
    st.held (st.cursor dumper % p.slots) ≤ st.cursor dumper := by
  by_contra hgt
  have hhanded := (hturns.handed_of_lt (not_le.mp hgt)).2
  rw [hturns.cursor_mod hdumper] at hhanded
  exact absurd hhanded (lt_irrefl _)

/-- It holds that very block if the dumper is less than a lap ahead. -/
theorem held_cursor (hturns : Turns p st) {dumper : ℕ} (hdumper : dumper < p.dumpers)
    (hlt : st.cursor dumper < st.held (st.cursor dumper % p.slots) + p.slots) :
    st.held (st.cursor dumper % p.slots) = st.cursor dumper := by
  have hmod := hturns.held_mod (Nat.mod_lt (st.cursor dumper) p.slots_pos)
  have hle := hturns.held_le_cursor hdumper
  have hpos := p.slots_pos
  exact eq_of_mod_eq hmod (by omega) hlt

end Turns

namespace Invariant

/-! ## What the invariant says about the marks -/

/-- A dumper has not come to a block that its slot does not hold yet. -/
theorem held_cursor (hinv : Invariant p st) {dumper : ℕ} (hdumper : dumper < p.dumpers) :
    st.held (st.cursor dumper % p.slots) = st.cursor dumper :=
  hinv.turns.held_cursor hdumper (hinv.cursor_lt hdumper (Nat.mod_lt _ p.slots_pos))

/-- Some writer is at most one lap past what a slot holds: the first cell of the
block one lap on has an owner, who is still there. -/
theorem exists_mark_le (hinv : Invariant p st) {slot : ℕ} (hslot : slot < p.slots) :
    ∃ writer < p.writers, st.mark writer ≤ st.held slot + p.slots := by
  by_contra hall
  push Not at hall
  set block := st.held slot + p.slots with hblock
  have hnot : ¬ st.Reached p block := by
    have hmod : block % p.slots = slot := by rw [hblock, Nat.add_mod_right, hinv.held_mod hslot]
    rw [State.Reached, hmod]
    have := p.slots_pos
    omega
  have hattempted : ∀ writer < p.writers, st.attempted writer := by
    intro writer hwriter
    by_contra hno
    have hmark := (hinv.unattempted hwriter hno).1
    have := hall writer hwriter
    have := p.writers_le_slots
    omega
  have hfront : ∀ writer < p.writers, block < p.blockOf (st.front writer) := by
    intro writer hwriter
    have hmark := hall writer hwriter
    rcases hinv.mark_le_front (hattempted writer hwriter) with hle | ⟨heq, hreached⟩
    · omega
    · refine lt_of_le_of_ne (by omega) fun h => hnot ?_
      rwa [← h] at hreached
  have hpos := p.writers_pos
  have hstarted := hinv.started_of_attempted (hattempted 0 hpos)
  have htaken : block * p.cellsPerBlock < st.counter := by
    have h₁ := p.le_blockOf_iff.mp (hfront 0 hpos).le
    have h₂ := hinv.front_le_cell hstarted
    have h₃ := hinv.cell_lt hstarted
    omega
  obtain ⟨owner, howner, -, -, hreached, -⟩ := hinv.owned htaken
  have hbehind : block * p.cellsPerBlock < st.front owner := by
    have hnext := p.le_blockOf_iff.mp (hfront owner howner)
    have hpos := p.cellsPerBlock_pos
    rw [Nat.succ_mul] at hnext
    omega
  have := hreached hbehind
  rw [Params.blockOf, Nat.mul_div_cancel _ p.cellsPerBlock_pos] at this
  exact hnot this

/-- Every taken cell of a block that has not been in the buffer is one of the two
cells of its writer, so there are at most two for each writer. -/
theorem unreached_le (hinv : Invariant p st) {count : ℕ} (cellAt : ℕ → ℕ)
    (hinj : ∀ k l, cellAt k = cellAt l → k = l)
    (htaken : ∀ k < count, cellAt k < st.counter)
    (hunreached : ∀ k < count, ¬ st.Reached p (p.blockOf (cellAt k))) :
    count ≤ 2 * p.writers := by
  by_contra hgt
  have howner : ∀ k < count, ∃ writer < p.writers,
      cellAt k = st.front writer ∨ cellAt k = st.cell writer := by
    intro k hk
    obtain ⟨writer, hwriter, -, -, hreached, hcell⟩ := hinv.owned (htaken k hk)
    exact ⟨writer, hwriter, hcell (not_lt.mp fun h => hunreached k hk (hreached h))⟩
  choose! owner howner hcell using howner
  obtain ⟨writer, -, hcard⟩ := Finset.exists_lt_card_fiber_of_mul_lt_card_of_maps_to
    (s := Finset.range count) (t := Finset.range p.writers) (f := owner) (n := 2)
    (fun k hk => Finset.mem_range.mpr (howner k (Finset.mem_range.mp hk)))
    (by simp only [Finset.card_range]; omega)
  refine absurd hcard (not_lt.mpr ?_)
  calc (Finset.filter (fun k => owner k = writer) (Finset.range count)).card
      ≤ ({st.front writer, st.cell writer} : Finset ℕ).card := by
        refine Finset.card_le_card_of_injOn cellAt ?_ fun k _ l _ h => hinj k l h
        intro k hk
        simp only [Finset.coe_filter, Finset.mem_range, Set.mem_ofPred_eq] at hk
        have := hcell k hk.1
        rw [hk.2] at this
        simpa using this
    _ ≤ 2 := Finset.card_le_two

/-- The `k`-th cell of the blocks one, two, ... laps past `block`. -/
def cellAfter (p : Params) (block k : ℕ) : ℕ :=
  (block + (k / p.cellsPerBlock + 1) * p.slots) * p.cellsPerBlock + k % p.cellsPerBlock

theorem blockOf_cellAfter (block k : ℕ) :
    p.blockOf (cellAfter p block k) = block + (k / p.cellsPerBlock + 1) * p.slots := by
  have hmpos := p.cellsPerBlock_pos
  unfold Params.blockOf cellAfter
  rw [Nat.mul_comm, Nat.mul_add_div hmpos, Nat.div_eq_of_lt (Nat.mod_lt _ hmpos), Nat.add_zero]

theorem cellAfter_injective (block k l : ℕ) (h : cellAfter p block k = cellAfter p block l) :
    k = l := by
  have hdiv : k / p.cellsPerBlock = l / p.cellsPerBlock := by
    have hb := blockOf_cellAfter (p := p) block k
    rw [h, blockOf_cellAfter] at hb
    have := Nat.eq_of_mul_eq_mul_right p.slots_pos (Nat.add_left_cancel hb)
    omega
  have hmod : k % p.cellsPerBlock = l % p.cellsPerBlock := by
    unfold cellAfter at h
    rw [hdiv] at h
    omega
  rw [← Nat.div_add_mod k p.cellsPerBlock, ← Nat.div_add_mod l p.cellsPerBlock, hdiv, hmod]

theorem cellAfter_lt {block laps k : ℕ} (hk : k < laps * p.cellsPerBlock) :
    cellAfter p block k < (block + laps * p.slots + 1) * p.cellsPerBlock := by
  refine p.blockOf_lt_iff.mp ?_
  rw [blockOf_cellAfter]
  have hlap : k / p.cellsPerBlock + 1 ≤ laps :=
    Nat.div_lt_of_lt_mul (by rwa [Nat.mul_comm])
  have := Nat.mul_le_mul_right p.slots hlap
  omega

/-- The blocks later laps bring to a slot have not been in the buffer. -/
theorem not_reached_cellAfter (hinv : Invariant p st) {slot : ℕ} (hslot : slot < p.slots)
    (k : ℕ) : ¬ st.Reached p (p.blockOf (cellAfter p (st.held slot) k)) := by
  have hmod : (st.held slot + (k / p.cellsPerBlock + 1) * p.slots) % p.slots = slot := by
    rw [Nat.add_mul_mod_self_right, hinv.held_mod hslot]
  rw [blockOf_cellAfter, State.Reached, hmod, Nat.succ_mul]
  have := p.slots_pos
  omega

/-- No cell three laps past a slot is taken: the blocks one, two and three laps
past it have more cells than the writers can own at a time. -/
theorem counter_le (hinv : Invariant p st) {slot : ℕ} (hslot : slot < p.slots) :
    st.counter ≤ (st.held slot + 3 * p.slots + 1) * p.cellsPerBlock := by
  by_contra hgt
  have hmpos := p.cellsPerBlock_pos
  have hcells := p.writers_le_cells
  have hcount : 3 * p.cellsPerBlock ≤ 2 * p.writers := hinv.unreached_le
    (cellAfter p (st.held slot)) (cellAfter_injective _)
    (fun k hk => (cellAfter_lt hk).trans (not_le.mp hgt))
    fun k _ => hinv.not_reached_cellAfter hslot k
  omega

/-- What slots hold is less than two laps past the oldest block there. -/
theorem held_lt_of_oldest (hinv : Invariant p st) {slot other : ℕ} (hslot : slot < p.slots)
    (hother : other < p.slots) : st.held other < st.held slot + 2 * p.slots := by
  by_cases hlap : st.held other < p.slots
  · have := p.slots_pos
    omega
  have hmod : (st.held other - p.slots) % p.slots = other := by
    rw [← Nat.mod_eq_sub_mod (not_lt.mp hlap), hinv.held_mod hother]
  obtain ⟨hpos, hhanded⟩ : st.Handed p (st.held other - p.slots) := by
    apply hinv.handed_of_lt
    rw [hmod]
    have := p.slots_pos
    omega
  have hcursor := hinv.cursor_lt (Nat.mod_lt (st.held other - p.slots) hpos) hslot
  omega

/-- No cell more than two laps past the oldest block is taken: no block from there on
has been in the buffer, nor has the one a lap past the oldest. -/
theorem counter_le_of_oldest (hinv : Invariant p st) {slot : ℕ} (hslot : slot < p.slots) :
    st.counter ≤ (st.held slot + 2 * p.slots + 1) * p.cellsPerBlock := by
  by_contra hgt
  have hmpos := p.cellsPerBlock_pos
  have hcells := p.writers_le_cells
  -- the two blocks on the slot's later laps, and one cell behind them
  set last := (st.held slot + 2 * p.slots + 1) * p.cellsPerBlock with hlast
  have hlastBlock : p.blockOf last = st.held slot + 2 * p.slots + 1 := by
    rw [hlast, Params.blockOf, Nat.mul_div_cancel _ hmpos]
  have hlt : ∀ {k}, k < 2 * p.cellsPerBlock → cellAfter p (st.held slot) k < last :=
    fun hk => cellAfter_lt hk
  let cellAt : ℕ → ℕ := fun k =>
    if k < 2 * p.cellsPerBlock then cellAfter p (st.held slot) k
    else last + (k - 2 * p.cellsPerBlock)
  have hinj : ∀ k l, cellAt k = cellAt l → k = l := by
    intro k l h
    simp only [cellAt] at h
    split_ifs at h with hk hl hl
    · exact cellAfter_injective _ k l h
    · have := hlt hk
      omega
    · have := hlt hl
      omega
    · omega
  have htaken : ∀ k < 2 * p.cellsPerBlock + 1, cellAt k < st.counter := by
    intro k hk
    simp only [cellAt]
    split_ifs with hcell
    · exact (hlt hcell).trans (not_le.mp hgt)
    · have := not_le.mp hgt
      omega
  have hunreached : ∀ k < 2 * p.cellsPerBlock + 1, ¬ st.Reached p (p.blockOf (cellAt k)) := by
    intro k hk
    simp only [cellAt]
    split_ifs with hcell
    · exact hinv.not_reached_cellAfter hslot k
    · have hzero : last + (k - 2 * p.cellsPerBlock) = last := by omega
      rw [hzero, hlastBlock, State.Reached]
      have hheld := hinv.held_lt_of_oldest hslot (Nat.mod_lt (st.held slot + 2 * p.slots + 1)
        p.slots_pos)
      omega
  have hcount := hinv.unreached_le cellAt hinj htaken hunreached
  omega

/-- No writer has published a block more than two laps past a slot. -/
theorem mark_le_oldest (hinv : Invariant p st) {writer slot : ℕ} (hwriter : writer < p.writers)
    (hslot : slot < p.slots) : st.mark writer ≤ st.held slot + 2 * p.slots := by
  by_cases hattempted : st.attempted writer
  · refine (hinv.mark_le_cell hattempted).trans ?_
    refine Nat.lt_succ_iff.mp (p.blockOf_lt_iff.mpr ?_)
    exact (hinv.cell_lt (hinv.started_of_attempted hattempted)).trans_le
      (hinv.counter_le_of_oldest hslot)
  · have hid := (hinv.unattempted hwriter hattempted).1
    have hle := p.writers_le_slots
    omega

/-- No dumper is further past a mark than the window reaches back. -/
theorem cursor_add_delay_le (hinv : Invariant p st) {writer dumper : ℕ}
    (hwriter : writer < p.writers) (hdumper : dumper < p.dumpers) :
    st.cursor dumper + p.delay ≤ st.mark writer + 2 * p.slots := by
  by_cases hattempted : st.attempted writer
  · exact hinv.cursor_le_mark hattempted hdumper
  · exact ((hinv.unattempted hwriter hattempted).2 dumper hdumper).trans (Nat.le_add_left _ _)

/-- A writer is at most three laps past a slot. -/
theorem front_le (hinv : Invariant p st) {writer slot : ℕ} (hstarted : st.started writer)
    (hslot : slot < p.slots) : p.blockOf (st.front writer) ≤ st.held slot + 3 * p.slots := by
  refine Nat.lt_succ_iff.mp (p.blockOf_lt_iff.mpr ?_)
  calc st.front writer ≤ st.cell writer := hinv.front_le_cell hstarted
    _ < st.counter := hinv.cell_lt hstarted
    _ ≤ (st.held slot + 3 * p.slots + 1) * p.cellsPerBlock := hinv.counter_le hslot

/-- The block a slot had one lap before was handed out, so some dumper has passed it. -/
theorem handed_before (hinv : Invariant p st) {slot : ℕ} (hslot : slot < p.slots)
    (hlap : p.slots ≤ st.held slot) : st.Handed p (st.held slot - p.slots) := by
  have hmod : (st.held slot - p.slots) % p.slots = slot := by
    rw [← Nat.mod_eq_sub_mod hlap, hinv.held_mod hslot]
  apply hinv.handed_of_lt
  rw [hmod]
  have := p.slots_pos
  omega

/-- A slot is less than three laps past the front of any writer that has published. -/
theorem held_lt_front (hinv : Invariant p st) {writer slot : ℕ} (hattempted : st.attempted writer)
    (hslot : slot < p.slots) :
    st.held slot < p.blockOf (st.front writer) + 3 * p.slots := by
  by_cases hlap : st.held slot < p.slots
  · have := p.slots_pos
    omega
  obtain ⟨hpos, hhanded⟩ := hinv.handed_before hslot (not_lt.mp hlap)
  have hcursor := hinv.cursor_le_front hattempted (Nat.mod_lt (st.held slot - p.slots) hpos)
  omega

/-- Nothing was recycled three laps before the first write. -/
theorem held_lt_of_unattempted (hinv : Invariant p st) {writer slot : ℕ}
    (hwriter : writer < p.writers) (hattempted : ¬ st.attempted writer) (hslot : slot < p.slots) :
    st.held slot < 3 * p.slots := by
  by_cases hlap : st.held slot < p.slots
  · have := p.slots_pos
    omega
  obtain ⟨hpos, hhanded⟩ := hinv.handed_before hslot (not_lt.mp hlap)
  have hcursor :=
    (hinv.unattempted hwriter hattempted).2 _ (Nat.mod_lt (st.held slot - p.slots) hpos)
  omega

/-- A block that was in the buffer and has not been handed out is there still. -/
theorem held_of_not_handed (hinv : Invariant p st) {block : ℕ} (hreached : st.Reached p block)
    (hnot : ¬ st.Handed p block) : st.held (block % p.slots) = block :=
  le_antisymm (not_lt.mp fun h => hnot (hinv.handed_of_lt h)) hreached

end Invariant

/-! ## Every step keeps the invariant -/

section Steps

variable {writer block dumper slot : ℕ}

theorem reached_recycle {block : ℕ} (h : st.Reached p block) :
    (st.recycle p slot).Reached p block := by
  simp only [State.Reached, State.recycle] at h ⊢
  by_cases hslot : block % p.slots = slot
  · subst hslot
    rw [Function.update_self]
    omega
  · rwa [Function.update_of_ne hslot]

theorem handed_dump (hturns : Turns p st) (hdumper : dumper < p.dumpers) :
    (st.dump p dumper).Handed p block ↔ st.Handed p block ∨ block = st.cursor dumper := by
  have hmod := hturns.cursor_mod hdumper
  simp only [State.Handed, State.dump]
  by_cases hsame : block % p.dumpers = dumper
  · rw [hsame, Function.update_self]
    constructor
    · rintro ⟨hpos, hlt⟩
      by_cases hbefore : block < st.cursor dumper
      · exact .inl ⟨hpos, hbefore⟩
      · exact .inr (eq_of_mod_eq (hsame.trans hmod.symm) hlt (by omega))
    · rintro (⟨hpos, hlt⟩ | rfl)
      · exact ⟨hpos, by omega⟩
      · exact ⟨by omega, by omega⟩
  · rw [Function.update_of_ne hsame]
    constructor
    · exact .inl
    · rintro (h | rfl)
      · exact h
      · exact absurd hmod hsame

/-- A dumper takes the block it has come to. -/
theorem Turns.dump (hturns : Turns p st) (hdumper : dumper < p.dumpers)
    (hheld : st.held (st.cursor dumper % p.slots) = st.cursor dumper) :
    Turns p (st.dump p dumper) where
  held_mod := hturns.held_mod
  cursor_mod := by
    intro other hother
    simp only [State.dump]
    by_cases h : other = dumper
    · rw [h, Function.update_self, Nat.add_mod_right, hturns.cursor_mod hdumper]
    · rw [Function.update_of_ne h, hturns.cursor_mod hother]
  handed_of_lt := fun h => (handed_dump hturns hdumper).mpr (.inl (hturns.handed_of_lt h))
  reached_of_handed := by
    intro block h
    rcases (handed_dump hturns hdumper).mp h with h | rfl
    · exact hturns.reached_of_handed h
    · exact hheld.ge

theorem Turns.recycle (hturns : Turns p st) (hslot : slot < p.slots)
    (hhanded : st.Handed p (st.held slot)) : Turns p (st.recycle p slot) where
  held_mod := by
    intro other hother
    simp only [State.recycle]
    by_cases h : other = slot
    · rw [h, Function.update_self, Nat.add_mod_right, hturns.held_mod hslot]
    · rw [Function.update_of_ne h, hturns.held_mod hother]
  cursor_mod := hturns.cursor_mod
  handed_of_lt := by
    intro block hlt
    simp only [State.recycle] at hlt
    by_cases h : block % p.slots = slot
    · -- the slot's own block is the only new one below what it holds
      rw [h, Function.update_self] at hlt
      by_cases hbefore : block < st.held slot
      · exact hturns.handed_of_lt (by rwa [h])
      · have : block = st.held slot :=
          eq_of_mod_eq (h.trans (hturns.held_mod hslot).symm) hlt (by omega)
        rwa [this]
    · rw [Function.update_of_ne h] at hlt
      exact hturns.handed_of_lt hlt
  reached_of_handed := fun h => reached_recycle (hturns.reached_of_handed h)

theorem held_le_recycle (other : ℕ) : st.held other ≤ (st.recycle p slot).held other := by
  simp only [State.recycle]
  by_cases h : other = slot
  · rw [h, Function.update_self]
    omega
  · rw [Function.update_of_ne h]

theorem Invariant.start (hinv : Invariant p st) (hwriter : writer < p.writers)
    (hnew : ¬ st.started writer) : Invariant p (st.start writer) where
  held_mod := hinv.held_mod
  cursor_mod := hinv.cursor_mod
  started_lt := by
    intro other hother
    by_cases h : other = writer
    · exact h ▸ hwriter
    · simp only [State.start] at hother
      rw [Function.update_of_ne h] at hother
      exact hinv.started_lt hother
  started_of_attempted := by
    intro other hother
    simp only [State.start]
    by_cases h : other = writer
    · simp [h]
    · rw [Function.update_of_ne h]
      exact hinv.started_of_attempted hother
  front_le_cell := by
    intro other hother
    simp only [State.start] at hother ⊢
    by_cases h : other = writer
    · simp [h]
    · rw [Function.update_of_ne h] at hother
      rw [Function.update_of_ne h, Function.update_of_ne h]
      exact hinv.front_le_cell hother
  cell_lt := by
    intro other hother
    simp only [State.start] at hother ⊢
    by_cases h : other = writer
    · simp [h]
    · rw [Function.update_of_ne h] at hother ⊢
      exact (hinv.cell_lt hother).trans (Nat.lt_succ_self _)
  owned := by
    intro cell hcell
    simp only [State.start] at hcell ⊢
    -- the cell that is handed out is the writer's first one
    by_cases hlast : cell = st.counter
    · refine ⟨writer, hwriter, ?_⟩
      simp [hlast]
    · obtain ⟨owner, howner, hstarted, hrest⟩ := hinv.owned (by omega : cell < st.counter)
      have hne : owner ≠ writer := fun h => hnew (h ▸ hstarted)
      refine ⟨owner, howner, ?_⟩
      rw [Function.update_of_ne hne, Function.update_of_ne hne, Function.update_of_ne hne]
      exact ⟨hstarted, hrest⟩
  unattempted := hinv.unattempted
  cursor_le_mark := hinv.cursor_le_mark
  cursor_le_front := by
    intro other dumper hother hdumper
    -- a writer that starts has not published
    have hne : other ≠ writer := fun h => hnew (h ▸ hinv.started_of_attempted hother)
    simp only [State.start]
    rw [Function.update_of_ne hne]
    exact hinv.cursor_le_front hother hdumper
  mark_le_cell := by
    intro other hother
    have hne : other ≠ writer := fun h => hnew (h ▸ hinv.started_of_attempted hother)
    simp only [State.start]
    rw [Function.update_of_ne hne]
    exact hinv.mark_le_cell hother
  mark_le_front := by
    intro other hother
    have hne : other ≠ writer := fun h => hnew (h ▸ hinv.started_of_attempted hother)
    simp only [State.start]
    rw [Function.update_of_ne hne]
    exact hinv.mark_le_front hother
  handed_of_lt := hinv.handed_of_lt
  reached_of_handed := hinv.reached_of_handed
  cursor_lt := hinv.cursor_lt

theorem Invariant.take (hinv : Invariant p st) (hwriter : writer < p.writers)
    (hstarted : st.started writer) (hfront : st.front writer = st.cell writer) :
    Invariant p (st.take writer) where
  held_mod := hinv.held_mod
  cursor_mod := hinv.cursor_mod
  started_lt := hinv.started_lt
  started_of_attempted := hinv.started_of_attempted
  front_le_cell := by
    intro other hother
    simp only [State.take]
    have hle := hinv.front_le_cell hother
    by_cases h : other = writer
    · subst h
      rw [Function.update_self]
      exact hle.trans (hinv.cell_lt hother).le
    · rwa [Function.update_of_ne h]
  cell_lt := by
    intro other hother
    simp only [State.take]
    by_cases h : other = writer
    · simp [h]
    · rw [Function.update_of_ne h]
      exact (hinv.cell_lt hother).trans (Nat.lt_succ_self _)
  owned := by
    intro cell hcell
    simp only [State.take] at hcell ⊢
    -- the cell that is handed out is the writer's, which is done with all before it
    by_cases hlast : cell = st.counter
    · have := hinv.cell_lt hstarted
      refine ⟨writer, hwriter, hstarted, by simp [hlast], fun h => ?_,
        fun _ => .inr (by simp [hlast])⟩
      omega
    · obtain ⟨owner, howner, hown, hle, hbehind, hcells⟩ :=
        hinv.owned (by omega : cell < st.counter)
      refine ⟨owner, howner, hown, ?_, hbehind, fun h => ?_⟩
      · by_cases hsame : owner = writer
        · subst hsame
          rw [Function.update_self]
          omega
        · rwa [Function.update_of_ne hsame]
      · by_cases hsame : owner = writer
        · subst hsame
          left
          rcases hcells h with hcell | hcell
          · exact hcell
          · rw [hcell, hfront]
        · rw [Function.update_of_ne hsame]
          exact hcells h
  unattempted := hinv.unattempted
  cursor_le_mark := hinv.cursor_le_mark
  cursor_le_front := hinv.cursor_le_front
  mark_le_cell := by
    intro other hother
    have hle := hinv.mark_le_cell hother
    simp only [State.take]
    by_cases h : other = writer
    · subst h
      rw [Function.update_self]
      exact hle.trans (p.blockOf_mono (hinv.cell_lt hstarted).le)
    · rwa [Function.update_of_ne h]
  mark_le_front := hinv.mark_le_front
  handed_of_lt := hinv.handed_of_lt
  reached_of_handed := hinv.reached_of_handed
  cursor_lt := hinv.cursor_lt

theorem Invariant.advance (hinv : Invariant p st) (hstarted : st.started writer)
    (hdone : st.Reached p (p.blockOf (st.front writer))) : Invariant p (st.advance writer) where
  held_mod := hinv.held_mod
  cursor_mod := hinv.cursor_mod
  started_lt := hinv.started_lt
  started_of_attempted := hinv.started_of_attempted
  front_le_cell := by
    intro other hother
    simp only [State.advance]
    by_cases h : other = writer
    · simp [h]
    · rw [Function.update_of_ne h]
      exact hinv.front_le_cell hother
  cell_lt := hinv.cell_lt
  owned := by
    intro cell hcell
    obtain ⟨owner, howner, hown, hle, hbehind, hcells⟩ := hinv.owned hcell
    refine ⟨owner, howner, hown, hle, ?_⟩
    simp only [State.advance]
    by_cases hsame : owner = writer
    · subst hsame
      rw [Function.update_self]
      refine ⟨fun hlt => ?_, fun hge => .inr (by omega)⟩
      -- between the old front and the new one lies the cell that is done
      by_cases hfront : cell < st.front owner
      · exact hbehind hfront
      · rcases hcells (not_lt.mp hfront) with rfl | rfl
        · exact hdone
        · exact absurd hlt (lt_irrefl _)
    · rw [Function.update_of_ne hsame]
      exact ⟨hbehind, hcells⟩
  unattempted := hinv.unattempted
  cursor_le_mark := hinv.cursor_le_mark
  cursor_le_front := by
    intro other dumper hother hdumper
    have hle := hinv.cursor_le_front hother hdumper
    simp only [State.advance]
    by_cases h : other = writer
    · subst h
      rw [Function.update_self]
      have := p.blockOf_mono (hinv.front_le_cell hstarted)
      omega
    · rwa [Function.update_of_ne h]
  mark_le_cell := hinv.mark_le_cell
  mark_le_front := by
    intro other hother
    simp only [State.advance]
    by_cases h : other = writer
    · subst h
      rw [Function.update_self]
      exact .inl (hinv.mark_le_cell hother)
    · rw [Function.update_of_ne h]
      exact hinv.mark_le_front hother
  handed_of_lt := hinv.handed_of_lt
  reached_of_handed := hinv.reached_of_handed
  cursor_lt := hinv.cursor_lt

theorem Invariant.publish (hinv : Invariant p st) (hwriter : writer < p.writers)
    (hstarted : st.started writer) (hblock : st.MayPublish p writer block) :
    Invariant p (st.publish writer block) where
  held_mod := hinv.held_mod
  cursor_mod := hinv.cursor_mod
  started_lt := hinv.started_lt
  started_of_attempted := by
    intro other hother
    by_cases h : other = writer
    · exact h ▸ hstarted
    · simp only [State.publish] at hother
      rw [Function.update_of_ne h] at hother
      exact hinv.started_of_attempted hother
  front_le_cell := hinv.front_le_cell
  cell_lt := hinv.cell_lt
  owned := hinv.owned
  unattempted := by
    intro other hother hno
    simp only [State.publish] at hno ⊢
    by_cases h : other = writer
    · simp [h] at hno
    · rw [Function.update_of_ne h] at hno ⊢
      exact hinv.unattempted hother hno
  cursor_le_mark := by
    intro other dumper hother hdumper
    simp only [State.publish] at hother ⊢
    by_cases h : other = writer
    · subst h
      rw [Function.update_self]
      -- the mark comes to the block of the front, or to the one behind it
      have hge : p.blockOf (st.front other) ≤ block := by
        rcases hblock with h | h <;> omega
      by_cases hbefore : st.attempted other
      · have := hinv.cursor_le_front hbefore hdumper
        omega
      · have := (hinv.unattempted hwriter hbefore).2 dumper hdumper
        omega
    · rw [Function.update_of_ne h] at hother ⊢
      exact hinv.cursor_le_mark hother hdumper
  cursor_le_front := by
    intro other dumper hother hdumper
    simp only [State.publish] at hother
    by_cases h : other = writer
    · subst h
      by_cases hbefore : st.attempted other
      · exact hinv.cursor_le_front hbefore hdumper
      · have := (hinv.unattempted hwriter hbefore).2 dumper hdumper
        exact this.trans (Nat.le_add_left _ _)
    · rw [Function.update_of_ne h] at hother
      exact hinv.cursor_le_front hother hdumper
  mark_le_cell := by
    intro other hother
    simp only [State.publish] at hother ⊢
    by_cases h : other = writer
    · subst h
      rw [Function.update_self]
      have := p.blockOf_mono (hinv.front_le_cell hstarted)
      rcases hblock with h | h <;> omega
    · rw [Function.update_of_ne h] at hother ⊢
      exact hinv.mark_le_cell hother
  mark_le_front := by
    intro other hother
    simp only [State.publish] at hother ⊢
    by_cases h : other = writer
    · subst h
      rw [Function.update_self]
      rcases hblock with h | ⟨h, hreached, -⟩
      · exact .inl h.le
      · exact .inr ⟨h, hreached⟩
    · rw [Function.update_of_ne h] at hother ⊢
      exact hinv.mark_le_front hother
  handed_of_lt := hinv.handed_of_lt
  reached_of_handed := hinv.reached_of_handed
  cursor_lt := hinv.cursor_lt

theorem Invariant.dump (hinv : Invariant p st) (htimely : p.Timely) (hdumper : dumper < p.dumpers)
    (hmay : st.MayDump p dumper) : Invariant p (st.dump p dumper) := by
  -- what each bound on a cursor has to allow for is the one cursor that moves
  have hmark : ∀ writer < p.writers, st.cursor dumper + p.delay < st.mark writer := by
    intro writer hwriter
    have := hmay writer hwriter
    rwa [hinv.held_cursor hdumper] at this
  have hdumpers := p.dumpers_le_slots
  have hcursor : ∀ {other bound}, st.cursor other + p.delay ≤ bound →
      st.cursor dumper + p.dumpers + p.delay ≤ bound →
      (st.dump p dumper).cursor other + p.delay ≤ bound := by
    intro other bound hother hself
    simp only [State.dump]
    by_cases h : other = dumper
    · rw [h, Function.update_self]
      omega
    · rwa [Function.update_of_ne h]
  have hturns := hinv.turns.dump hdumper (hinv.held_cursor hdumper)
  exact {
    held_mod := hturns.held_mod
    cursor_mod := hturns.cursor_mod
    started_lt := hinv.started_lt
    started_of_attempted := hinv.started_of_attempted
    front_le_cell := hinv.front_le_cell
    cell_lt := hinv.cell_lt
    owned := hinv.owned
    unattempted := by
      intro writer hwriter hno
      obtain ⟨hid, hle⟩ := hinv.unattempted hwriter hno
      refine ⟨hid, fun other hother => hcursor (hle other hother) ?_⟩
      have : st.cursor dumper + p.delay < st.mark writer := hmark writer hwriter
      have := p.writers_le_slots
      omega
    cursor_le_mark := by
      intro writer other hattempted hother
      refine hcursor (hinv.cursor_le_mark hattempted hother) ?_
      have : st.cursor dumper + p.delay < st.mark writer :=
        hmark writer (hinv.started_lt (hinv.started_of_attempted hattempted))
      change _ ≤ st.mark writer + 2 * p.slots
      omega
    cursor_le_front := by
      intro writer other hattempted hother
      refine hcursor (hinv.cursor_le_front hattempted hother) ?_
      have := hmark writer (hinv.started_lt (hinv.started_of_attempted hattempted))
      change _ ≤ p.blockOf (st.front writer) + 2 * p.slots
      rcases hinv.mark_le_front hattempted with h | h <;> omega
    mark_le_cell := hinv.mark_le_cell
    mark_le_front := hinv.mark_le_front
    handed_of_lt := hturns.handed_of_lt
    reached_of_handed := hturns.reached_of_handed
    cursor_lt := by
      intro other slot hother hslot
      simp only [State.dump]
      by_cases h : other = dumper
      · rw [h, Function.update_self]
        obtain ⟨writer, hwriter, hle⟩ := hinv.exists_mark_le hslot
        have := hmark writer hwriter
        have := htimely.dumpers_le_delay
        omega
      · rw [Function.update_of_ne h]
        exact hinv.cursor_lt hother hslot }

theorem Invariant.recycle (hinv : Invariant p st) (hslot : slot < p.slots)
    (hhanded : st.Handed p (st.held slot)) : Invariant p (st.recycle p slot) := by
  have hturns := hinv.turns.recycle hslot hhanded
  exact {
    held_mod := hturns.held_mod
    cursor_mod := hturns.cursor_mod
    started_lt := hinv.started_lt
    started_of_attempted := hinv.started_of_attempted
    front_le_cell := hinv.front_le_cell
    cell_lt := hinv.cell_lt
    owned := by
      intro cell hcell
      obtain ⟨owner, howner, hown, hle, hbehind, hcells⟩ := hinv.owned hcell
      exact ⟨owner, howner, hown, hle, fun h => reached_recycle (hbehind h), hcells⟩
    unattempted := hinv.unattempted
    cursor_le_mark := hinv.cursor_le_mark
    cursor_le_front := hinv.cursor_le_front
    mark_le_cell := hinv.mark_le_cell
    mark_le_front := by
      intro writer hattempted
      exact (hinv.mark_le_front hattempted).imp_right fun h => ⟨h.1, reached_recycle h.2⟩
    handed_of_lt := hturns.handed_of_lt
    reached_of_handed := hturns.reached_of_handed
    cursor_lt := by
      intro dumper other hdumper hother
      exact (hinv.cursor_lt hdumper hother).trans_le
        (Nat.add_le_add_right (held_le_recycle other) _) }

theorem Invariant.step {next : State} (hinv : Invariant p st) (htimely : p.Timely)
    (hstep : Step p st next) : Invariant p next := by
  cases hstep with
  | start hwriter hnew => exact hinv.start hwriter hnew
  | take hwriter hstarted hfront => exact hinv.take hwriter hstarted hfront
  | advance _ hstarted hdone => exact hinv.advance hstarted hdone
  | publish hwriter hstarted hblock => exact hinv.publish hwriter hstarted hblock
  | dump hdumper hmay => exact hinv.dump htimely hdumper hmay
  | recycle hslot hhanded => exact hinv.recycle hslot hhanded

end Steps

/-- The states the protocol can come to. -/
def Reachable (p : Params) (st : State) : Prop := Relation.ReflTransGen (Step p) init st

theorem Reachable.invariant (htimely : p.Timely) (h : Reachable p st) : Invariant p st := by
  induction h with
  | refl => exact invariant_init htimely
  | tail _ hstep ih => exact ih.step htimely hstep

/-! ## Blocks handed out are behind every writer -/

/-- Every writer has left a block that was handed out at least the delay behind. -/
def Settled (p : Params) (st : State) : Prop :=
  ∀ {block writer}, st.Handed p block → writer < p.writers →
    st.attempted writer ∧ block + p.delay ≤ p.blockOf (st.front writer) ∧
      block + p.delay < p.blockOf (st.cell writer)

theorem Settled.step {next : State} (hsettled : Settled p st) (hinv : Invariant p st)
    (hwriters : p.writers ≤ p.delay + 1) (hstep : Step p st next) : Settled p next := by
  intro block other hhanded hother
  cases hstep with
  | @start writer hwriter hnew =>
      obtain ⟨hattempted, hfront, hcell⟩ := hsettled hhanded hother
      have hne : other ≠ writer := fun h => hnew (h ▸ hinv.started_of_attempted hattempted)
      simp only [State.start]
      rw [Function.update_of_ne hne, Function.update_of_ne hne]
      exact ⟨hattempted, hfront, hcell⟩
  | @take writer hwriter hstarted hfront =>
      obtain ⟨hattempted, hle, hlt⟩ := hsettled hhanded hother
      refine ⟨hattempted, hle, ?_⟩
      simp only [State.take]
      by_cases h : other = writer
      · subst h
        rw [Function.update_self]
        exact hlt.trans_le (p.blockOf_mono (hinv.cell_lt hstarted).le)
      · rwa [Function.update_of_ne h]
  | @advance writer hwriter hstarted hdone =>
      obtain ⟨hattempted, hle, hlt⟩ := hsettled hhanded hother
      refine ⟨hattempted, ?_, hlt⟩
      simp only [State.advance]
      by_cases h : other = writer
      · subst h
        rw [Function.update_self]
        exact hlt.le
      · rwa [Function.update_of_ne h]
  | @publish writer mark hwriter hstarted hblock =>
      obtain ⟨hattempted, hle, hlt⟩ := hsettled hhanded hother
      refine ⟨?_, hle, hlt⟩
      simp only [State.publish]
      by_cases h : other = writer
      · simp [h]
      · rwa [Function.update_of_ne h]
  | @dump dumper hdumper hmay =>
      rcases (handed_dump hinv.turns hdumper).mp hhanded with hbefore | rfl
      · exact hsettled hbefore hother
      · have hmark := hmay other hother
        rw [hinv.held_cursor hdumper] at hmark
        -- a writer that has not begun is marked with its own number, which is too small
        have hattempted : st.attempted other := by
          by_contra hno
          have hid := (hinv.unattempted hother hno).1
          omega
        refine ⟨hattempted, ?_, lt_of_lt_of_le hmark (hinv.mark_le_cell hattempted)⟩
        change _ ≤ p.blockOf (st.front other)
        rcases hinv.mark_le_front hattempted with h | h <;> omega
  | recycle => exact hsettled hhanded hother

theorem Reachable.settled (htimely : p.Timely) (hwriters : p.writers ≤ p.delay + 1)
    (h : Reachable p st) : Settled p st := by
  induction h with
  | refl =>
      intro block writer hhanded _
      exact absurd hhanded.2 (Nat.mod_le _ _).not_gt
  | tail hreach hstep ih => exact ih.step (Reachable.invariant htimely hreach) hwriters hstep

end HandOut

end TrafficDatabase
