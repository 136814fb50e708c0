import TrafficDatabase.Index.Operations
import TrafficDatabase.Storage.IndexPlacement

/-!
# Who owns the columns of the bitmap

A slot of the index buffer sets the keys of its disk block in one column,
`persistMeta` makes that column the one lookups of the block read, and
`clearMeta` moves the slot on by `backupColCount` columns and empties the new one.
No one keeps account of the columns.  What keeps the slots apart is that each of
them stays at columns of its own residue modulo `backupColCount`
(`Spread`), which takes at least as many backup columns as slots.

With that, and as long as there are columns left to move on to, all columns in
use are distinct, but for the one a slot shares with its block from the block's
`persistMeta` to the slot's `clearMeta` (`columns_owned`).  With fewer backup
columns than slots, two slots meet in one column, and a slot that has come to the
last columns stays there, as do all blocks it persists (`columns_shared`).

The runs are those of `IndexState.operations` with their history: the flows
inserted for the block a slot holds, the flows lookups of a block owe an answer
to, and what has been persisted.
-/

namespace TrafficDatabase

namespace PrefixBloomFilter

variable (bm : BitMap) (filter : PrefixBloomFilter) (col : ℕ)

theorem writingCol_setWritingCol : (filter.setWritingCol bm col).writingCol =
    if col < bm.colCount then col else filter.writingCol := by
  unfold setWritingCol
  by_cases hlt : col < bm.colCount
  · rw [if_pos hlt, if_neg (not_le.mpr hlt)]
  · rw [if_neg hlt, if_pos (not_lt.mp hlt)]

theorem readingCol_setReadingCol : (filter.setReadingCol bm col).readingCol =
    if col < bm.colCount then col else filter.readingCol := by
  unfold setReadingCol
  by_cases hlt : col < bm.colCount
  · rw [if_pos hlt, if_neg (not_le.mpr hlt)]
  · rw [if_neg hlt, if_pos (not_lt.mp hlt)]

end PrefixBloomFilter

namespace IndexState

variable (st : IndexState)

/-- The column a slot sets keys in. -/
def writingCol (slot : ℕ) : ℕ := (st.metas slot).bloomFilterMeta.writingCol

/-- The column lookups of a disk block read. -/
def readingCol (diskBlockId : ℕ) : ℕ := (st.diskMetas diskBlockId).bloomFilterMeta.readingCol

/-- The disk block a slot is at. -/
def heldBlock (slot : ℕ) : ℕ := (st.metas slot).diskBlockId

/-- The column `clearMeta` moves the slot of a thread on to. -/
def nextCol (threadId : ℕ) : ℕ := st.writingCol (st.checkId threadId) + st.bitmap.backupColCount

variable {st} {next : IndexState} {cfg : IndexConfig} {hash : StdHash} {std : StdSort}
  {threadId : ℕ}

/-- No column and no slot has moved. -/
structure SameColumns (st next : IndexState) : Prop where
  writingCol : next.writingCol = st.writingCol
  readingCol : next.readingCol = st.readingCol
  heldBlock : next.heldBlock = st.heldBlock
  shape : st.bitmap.SameShape next.bitmap

/-- An insertion sets bits in the column of its slot only, and when it returned
true all rows of the flow are set there. -/
theorem sameColumns_insert {flow : FlowMetadata} {position diskBlockId rxId : ℕ} {done : Bool}
    (h : st.insert cfg hash flow position diskBlockId rxId = some (done, next)) :
    SameColumns st next ∧
      BitMap.Extends (st.writingCol (diskBlockId % cfg.totalBlockNum)) st.bitmap next.bitmap ∧
      (done = true → st.heldBlock (diskBlockId % cfg.totalBlockNum) = diskBlockId ∧
        PrefixBloomFilter.Holds hash cfg.hashNum
          (st.writingCol (diskBlockId % cfg.totalBlockNum)) next.bitmap flow) := by
  rcases insert_cases h with ⟨rfl, bitmap, rfl, hext⟩ | ⟨rfl, hinserted⟩
  · exact ⟨⟨rfl, rfl, rfl, hext.shape⟩, hext, nofun⟩
  · obtain ⟨-, hdiskMetas, -, -⟩ := hinserted.rest
    set bufferMeta := st.metas (diskBlockId % cfg.totalBlockNum) with hmeta
    have hbloom := hinserted.bloom
    have hext := @PrefixBloomFilter.extends_insertFlow hash cfg.hashNum st.bitmap
      bufferMeta.bloomFilterMeta flow
    rw [hbloom] at hext
    have hholds : PrefixBloomFilter.Holds hash cfg.hashNum bufferMeta.bloomFilterMeta.writingCol
        next.bitmap flow := by
      have hset := @PrefixBloomFilter.holds_insertFlow hash cfg.hashNum st.bitmap
        bufferMeta.bloomFilterMeta flow (by rw [hbloom])
      rwa [hbloom] at hset
    refine ⟨⟨?_, ?_, ?_, hext.shape⟩, hext, fun _ => ⟨hinserted.held, hholds⟩⟩
    · funext slot
      unfold writingCol
      rw [hinserted.metas]
      by_cases hsame : slot = diskBlockId % cfg.totalBlockNum
      · rw [hsame, Function.update_self]
      · rw [Function.update_of_ne hsame]
    · unfold readingCol
      rw [hdiskMetas]
    · funext slot
      unfold heldBlock
      rw [hinserted.metas]
      by_cases hsame : slot = diskBlockId % cfg.totalBlockNum
      · rw [hsame, Function.update_self]
      · rw [Function.update_of_ne hsame]

theorem sameColumns_setPacketCount (diskBlockId packetCount : ℕ) :
    SameColumns st (st.setPacketCount cfg diskBlockId packetCount) ∧
      (st.setPacketCount cfg diskBlockId packetCount).bitmap = st.bitmap := by
  have hbloom := @setPacketCount_bloomFilterMeta cfg st diskBlockId packetCount
  obtain ⟨diskMetas, hset⟩ := @setPacketCount_rest cfg st diskBlockId packetCount
  rw [hset] at hbloom ⊢
  refine ⟨⟨rfl, ?_, rfl, BitMap.SameShape.refl _⟩, rfl⟩
  funext other
  exact congrArg PrefixBloomFilter.readingCol (hbloom other)

/-- `persistMeta` gives the block of the slot the column of the slot, if it is in range. -/
theorem readingCol_persistMeta (hwell : st.WellFormed cfg)
    (hpersist : st.persistMeta cfg std threadId = some next)
    (hlt : st.writingCol (st.checkId threadId) < st.bitmap.colCount) :
    next.readingCol = Function.update st.readingCol (st.heldBlock (st.checkId threadId))
      (st.writingCol (st.checkId threadId)) := by
  have hblock : st.getCheckDishID threadId < cfg.diskBlockNum :=
    hwell.diskBlockId_lt _ (hwell.checkId_lt threadId)
  have hbloom := (persisted_of_persistMeta hpersist).bloomFilterMeta
  funext other
  by_cases hsame : other = st.heldBlock (st.checkId threadId)
  · have hother : next.readingCol other = _ :=
      congrArg PrefixBloomFilter.readingCol ((hbloom other hblock).trans (if_pos hsame))
    rw [hother, PrefixBloomFilter.readingCol_setReadingCol, hsame, Function.update_self]
    exact if_pos hlt
  · rw [Function.update_of_ne hsame]
    exact congrArg PrefixBloomFilter.readingCol ((hbloom other hblock).trans (if_neg hsame))

theorem writingCol_persistMeta (hpersist : st.persistMeta cfg std threadId = some next) :
    next.writingCol = st.writingCol ∧ next.heldBlock = st.heldBlock ∧ next.bitmap = st.bitmap := by
  have hpersisted := persisted_of_persistMeta hpersist
  refine ⟨?_, ?_, hpersisted.bitmap⟩
  · unfold writingCol
    rw [hpersisted.metas]
  · unfold heldBlock
    rw [hpersisted.metas]

/-- `clearMeta` moves the slot on to the next column, if there is one. -/
theorem writingCol_clearMeta : (st.clearMeta cfg threadId).writingCol =
    Function.update st.writingCol (st.checkId threadId)
      (if st.nextCol threadId < st.bitmap.colCount then st.nextCol threadId
        else st.writingCol (st.checkId threadId)) := by
  have hcleared := cleared_clearMeta cfg st threadId
  have hcols : (st.clearMeta cfg threadId).bitmap.colCount = st.bitmap.colCount := by
    rw [hcleared.bitmap]
    exact (BitMap.sameShape_clearCol ..).2.1
  funext slot
  unfold writingCol
  rw [hcleared.metas]
  by_cases hsame : slot = st.checkId threadId
  · rw [hsame, Function.update_self, Function.update_self]
    change (PrefixBloomFilter.setWritingCol _ _ _).writingCol = _
    rw [PrefixBloomFilter.writingCol_setWritingCol, hcols]
    rfl
  · rw [Function.update_of_ne hsame, Function.update_of_ne hsame]

theorem readingCol_clearMeta : (st.clearMeta cfg threadId).readingCol = st.readingCol := by
  funext other
  exact congrArg PrefixBloomFilter.readingCol
    ((cleared_clearMeta cfg st threadId).bloomFilterMeta other)

theorem heldBlock_clearMeta {slot : ℕ} (hne : slot ≠ st.checkId threadId) :
    (st.clearMeta cfg threadId).heldBlock slot = st.heldBlock slot := by
  unfold heldBlock
  rw [(cleared_clearMeta cfg st threadId).metas, Function.update_of_ne hne]

theorem bitmap_clearMeta :
    (st.clearMeta cfg threadId).bitmap = st.bitmap.clearCol (st.nextCol threadId) :=
  (cleared_clearMeta cfg st threadId).bitmap

theorem colCount_init (cfg : IndexConfig) :
    (init cfg).bitmap.colCount = cfg.diskBlockNum + cfg.backupColCount ∧
      (init cfg).bitmap.backupColCount = cfg.backupColCount := by
  have haccepted := cfg.bitmap
  have hnew : ∀ (h : (BitMap.new cfg.rowCount cfg.diskBlockNum cfg.backupColCount).isSome),
      ((BitMap.new cfg.rowCount cfg.diskBlockNum cfg.backupColCount).get h).colCount =
          cfg.diskBlockNum + cfg.backupColCount ∧
        ((BitMap.new cfg.rowCount cfg.diskBlockNum cfg.backupColCount).get h).backupColCount =
          cfg.backupColCount := by
    unfold BitMap.new
    simp only
    split_ifs
    · exact fun _ => ⟨rfl, rfl⟩
    · exact fun h => (Bool.false_ne_true h).elim
    · exact fun h => (Bool.false_ne_true h).elim
  exact hnew haccepted

theorem writingCol_init (cfg : IndexConfig) {slot : ℕ} (hslot : slot < cfg.totalBlockNum) :
    (init cfg).writingCol slot = slot := by
  have hcols := (colCount_init cfg).1
  have hle := cfg.totalBlockNum_le
  change (PrefixBloomFilter.init.setWritingCol (init cfg).bitmap slot).writingCol = slot
  rw [PrefixBloomFilter.writingCol_setWritingCol, if_pos (by omega)]

end IndexState

/-- A state of the index with its history, which no operation looks at. -/
structure IndexHistory where
  index : IndexState
  /-- By slot: the flows inserted for its block since its last `clearMeta`. -/
  taken : ℕ → List FlowMetadata
  /-- By disk block: the flows of the life of the block that was persisted last,
  until one of a later life is inserted. -/
  owed : ℕ → List FlowMetadata
  /-- By slot: its block has been persisted since its last `clearMeta`. -/
  persisted : ℕ → Bool
  /-- By disk block: it has been persisted at least once. -/
  stored : ℕ → Bool

namespace IndexHistory

variable (cfg : IndexConfig) (hash : StdHash) (std : StdSort)

def init : IndexHistory :=
  { index := IndexState.init cfg
    taken := fun _ => []
    owed := fun _ => []
    persisted := fun _ => false
    stored := fun _ => false }

variable (st : IndexHistory)

/-- A flow was inserted for the block of a slot. -/
def noteInsert (flow : FlowMetadata) (diskBlockId : ℕ) : IndexHistory :=
  let slot := diskBlockId % cfg.totalBlockNum
  { st with
    taken := Function.update st.taken slot (flow :: st.taken slot)
    owed := Function.update st.owed diskBlockId
      (if st.persisted slot then flow :: st.owed diskBlockId else []) }

/-- The block of a slot was persisted. -/
def notePersist (slot : ℕ) : IndexHistory :=
  let diskBlockId := st.index.heldBlock slot
  { st with
    owed := Function.update st.owed diskBlockId (st.taken slot)
    persisted := Function.update st.persisted slot true
    stored := Function.update st.stored diskBlockId true }

/-- The slot was moved on to its next block. -/
def noteClear (slot : ℕ) : IndexHistory :=
  { st with
    taken := Function.update st.taken slot []
    persisted := Function.update st.persisted slot false }

/-- The history after an operation. -/
def note : IndexState.Operation → IndexHistory
  | .insert flow position diskBlockId rxId =>
      if (st.index.insert cfg hash flow position diskBlockId rxId).any Prod.fst then
        st.noteInsert cfg flow diskBlockId
      else st
  | .persistMeta threadId => st.notePersist (st.index.checkId threadId)
  | .clearMeta threadId => st.noteClear (st.index.checkId threadId)
  | .setPacketCount .. | .recycleBlock .. => st

def apply (operation : IndexState.Operation) : Option IndexHistory :=
  (st.index.apply cfg hash std operation).map fun index =>
    { st.note cfg hash operation with index }

/-- The runs of the index with their history. -/
def system : TransitionSystem IndexHistory IndexState.Operation :=
  { init := init cfg, step := apply cfg hash std }

/-- Every `clearMeta` has a column left to move on to. -/
def Unspent (st : IndexHistory) : IndexState.Operation → Prop
  | .clearMeta threadId => st.index.nextCol threadId < st.index.bitmap.colCount
  | .insert .. | .persistMeta _ | .setPacketCount .. | .recycleBlock _ => True

instance : ∀ st operation, Decidable (Unspent st operation)
  | _, .clearMeta _ => inferInstanceAs (Decidable (_ < _))
  | _, .insert .. | _, .persistMeta _ | _, .setPacketCount .. | _, .recycleBlock _ =>
      .isTrue trivial

variable {cfg hash std st} {next : IndexHistory} {operation : IndexState.Operation}

/-- An insertion is noted if it returned true; then the slot holds the block. -/
theorem note_insert {flow : FlowMetadata} {position diskBlockId rxId : ℕ} {done : Bool}
    {index : IndexState}
    (h : st.index.insert cfg hash flow position diskBlockId rxId = some (done, index)) :
    st.note cfg hash (.insert flow position diskBlockId rxId) =
      if done then st.noteInsert cfg flow diskBlockId else st := by
  simp only [note, h, Option.any_some]

/-- What the steps do to the history: an insertion that returned true is noted for
the slot that holds the block, `persistMeta` and `clearMeta` are, and nothing else. -/
theorem history_cases (h : st.apply cfg hash std operation = some next) :
    (∃ flow position diskBlockId rxId done,
        st.index.insert cfg hash flow position diskBlockId rxId = some (done, next.index) ∧
        next = { (if done then st.noteInsert cfg flow diskBlockId else st) with
          index := next.index }) ∨
      (∃ threadId, st.index.persistMeta cfg std threadId = some next.index ∧
        next = { st.notePersist (st.index.checkId threadId) with index := next.index }) ∨
      (∃ threadId, operation = .clearMeta threadId ∧
        next = { st.noteClear (st.index.checkId threadId) with
          index := st.index.clearMeta cfg threadId }) ∨
      (IndexState.SameColumns st.index next.index ∧ next.index.bitmap = st.index.bitmap ∧
        next = { st with index := next.index }) := by
  obtain ⟨index, happly, rfl⟩ := Option.map_eq_some_iff.mp h
  cases operation with
  | insert flow position diskBlockId rxId =>
      left
      obtain ⟨-, hinsert⟩ := Option.ite_none_right_eq_some.mp happly
      obtain ⟨⟨done, after⟩, hdone, rfl⟩ := Option.map_eq_some_iff.mp hinsert
      refine ⟨flow, position, diskBlockId, rxId, done, hdone, ?_⟩
      rw [note_insert hdone]
  | persistMeta threadId =>
      obtain ⟨-, hpersist⟩ := Option.ite_none_right_eq_some.mp happly
      exact .inr (.inl ⟨threadId, hpersist, rfl⟩)
  | clearMeta threadId =>
      obtain ⟨-, hclear⟩ := Option.ite_none_right_eq_some.mp happly
      obtain rfl := Option.some.inj hclear
      exact .inr (.inr (.inl ⟨threadId, rfl, rfl⟩))
  | setPacketCount diskBlockId packetCount =>
      obtain rfl := Option.some.inj happly
      obtain ⟨hsame, hbitmap⟩ :=
        @IndexState.sameColumns_setPacketCount st.index cfg diskBlockId packetCount
      exact .inr (.inr (.inr ⟨hsame, hbitmap, rfl⟩))
  | recycleBlock blockId =>
      obtain ⟨-, hrecycle⟩ := Option.ite_none_right_eq_some.mp happly
      obtain rfl := Option.some.inj hrecycle
      exact .inr (.inr (.inr ⟨⟨rfl, rfl, rfl, BitMap.SameShape.refl _⟩, rfl, rfl⟩))

/-- An operation that neither persists nor clears moves no column; the others are
themselves. -/
theorem apply_cases (h : st.apply cfg hash std operation = some next) :
    (IndexState.SameColumns st.index next.index ∧ next.persisted = st.persisted ∧
        next.stored = st.stored) ∨
      (∃ threadId, st.index.persistMeta cfg std threadId = some next.index ∧
        next = { st.notePersist (st.index.checkId threadId) with index := next.index }) ∨
      (∃ threadId, operation = .clearMeta threadId ∧
        next = { st.noteClear (st.index.checkId threadId) with
          index := st.index.clearMeta cfg threadId }) := by
  rcases history_cases h with ⟨flow, position, diskBlockId, rxId, done, hinsert, hnext⟩ |
    hpersist | hclear | ⟨hsame, -, hnext⟩
  -- `noteInsert` changes the keys taken and owed only
  · refine .inl ⟨(IndexState.sameColumns_insert hinsert).1, ?_, ?_⟩
    all_goals
      rw [hnext]
      cases done <;> rfl
  · exact .inr (.inl hpersist)
  · exact .inr (.inr hclear)
  · refine .inl ⟨hsame, ?_, ?_⟩
    all_goals rw [hnext]

theorem wellFormed_apply (h : st.apply cfg hash std operation = some next)
    (hwell : st.index.WellFormed cfg) : next.index.WellFormed cfg := by
  obtain ⟨index, happly, rfl⟩ := Option.map_eq_some_iff.mp h
  exact hwell.apply happly

/-! ## Each slot stays at columns of its own residue -/

/-- What holds in every run with as many backup columns as slots: slots and the
blocks they persisted are at columns of their own residue, and a slot is at no
earlier column than the blocks it persisted. -/
structure Spread (cfg : IndexConfig) (st : IndexHistory) : Prop where
  wellFormed : st.index.WellFormed cfg
  backup : st.index.bitmap.backupColCount = cfg.backupColCount
  writing_lt : ∀ slot < cfg.totalBlockNum, st.index.writingCol slot < st.index.bitmap.colCount
  writing_mod : ∀ slot < cfg.totalBlockNum,
    st.index.writingCol slot % cfg.backupColCount = slot
  persisted : ∀ slot < cfg.totalBlockNum, st.persisted slot = true →
    st.index.readingCol (st.index.heldBlock slot) = st.index.writingCol slot
  reading_mod : ∀ diskBlockId, st.stored diskBlockId = true →
    st.index.readingCol diskBlockId % cfg.backupColCount = diskBlockId % cfg.totalBlockNum
  reading_le : ∀ diskBlockId, st.stored diskBlockId = true →
    st.index.readingCol diskBlockId ≤ st.index.writingCol (diskBlockId % cfg.totalBlockNum)

theorem spread_init (hle : cfg.totalBlockNum ≤ cfg.backupColCount) : Spread cfg (init cfg) where
  wellFormed := IndexState.wellFormed_init cfg
  backup := (IndexState.colCount_init cfg).2
  writing_lt slot hslot := by
    have hcols := (IndexState.colCount_init cfg).1
    have hdisk := cfg.totalBlockNum_le
    change (IndexState.init cfg).writingCol slot < (IndexState.init cfg).bitmap.colCount
    rw [IndexState.writingCol_init cfg hslot]
    omega
  writing_mod slot hslot := by
    change (IndexState.init cfg).writingCol slot % _ = slot
    rw [IndexState.writingCol_init cfg hslot, Nat.mod_eq_of_lt (by omega)]
  persisted := nofun
  reading_mod := nofun
  reading_le := nofun

theorem Spread.same (h : Spread cfg st) (hwell : next.index.WellFormed cfg)
    (hsame : IndexState.SameColumns st.index next.index)
    (hpersisted : next.persisted = st.persisted)
    (hstored : next.stored = st.stored) : Spread cfg next where
  wellFormed := hwell
  backup := hsame.shape.2.2.trans h.backup
  writing_lt := by
    rw [hsame.writingCol, hsame.shape.2.1]
    exact h.writing_lt
  writing_mod := by
    rw [hsame.writingCol]
    exact h.writing_mod
  persisted := by
    rw [hsame.writingCol, hsame.readingCol, hsame.heldBlock, hpersisted]
    exact h.persisted
  reading_mod := by
    rw [hsame.readingCol, hstored]
    exact h.reading_mod
  reading_le := by
    rw [hsame.writingCol, hsame.readingCol, hstored]
    exact h.reading_le

/-- A slot other than the one persisted holds another block. -/
theorem heldBlock_ne (hwell : st.index.WellFormed cfg) {first second : ℕ}
    (hfirst : first < cfg.totalBlockNum) (hsecond : second < cfg.totalBlockNum)
    (hne : first ≠ second) : st.index.heldBlock first ≠ st.index.heldBlock second := by
  intro heq
  apply hne
  calc first = st.index.heldBlock first % cfg.totalBlockNum :=
        (hwell.diskBlockId_mod first hfirst).symm
    _ = st.index.heldBlock second % cfg.totalBlockNum := by rw [heq]
    _ = second := hwell.diskBlockId_mod second hsecond

theorem Spread.persistMeta (h : Spread cfg st) {threadId : ℕ} {index : IndexState}
    (hpersist : st.index.persistMeta cfg std threadId = some index) :
    Spread cfg { st.notePersist (st.index.checkId threadId) with index } := by
  set slot := st.index.checkId threadId with hslotDef
  have hslot : slot < cfg.totalBlockNum := h.wellFormed.checkId_lt threadId
  have hmod : st.index.heldBlock slot % cfg.totalBlockNum = slot :=
    h.wellFormed.diskBlockId_mod slot hslot
  have hreading := IndexState.readingCol_persistMeta h.wellFormed hpersist (h.writing_lt slot hslot)
  obtain ⟨hwriting, hheld, hbitmap⟩ := IndexState.writingCol_persistMeta hpersist
  rw [← hslotDef] at hreading
  refine ⟨h.wellFormed.persistMeta hpersist, ?_, ?_, ?_, ?_, ?_, ?_⟩
  · rw [hbitmap]
    exact h.backup
  · rw [hwriting, hbitmap]
    exact h.writing_lt
  · rw [hwriting]
    exact h.writing_mod
  · intro other hother hpersisted
    rw [hwriting, hreading, hheld]
    by_cases hsame : other = slot
    · rw [hsame, Function.update_self]
    · have hold : st.persisted other = true := by
        simpa [notePersist, Function.update_of_ne hsame] using hpersisted
      rw [Function.update_of_ne (heldBlock_ne h.wellFormed hother hslot hsame)]
      exact h.persisted other hother hold
  · intro other hstored
    rw [hreading]
    by_cases hsame : other = st.index.heldBlock slot
    · rw [hsame, Function.update_self, hmod]
      exact h.writing_mod slot hslot
    · rw [Function.update_of_ne hsame]
      apply h.reading_mod
      simpa [notePersist, Function.update_of_ne hsame] using hstored
  · intro other hstored
    rw [hreading, hwriting]
    by_cases hsame : other = st.index.heldBlock slot
    · rw [hsame, Function.update_self, hmod]
    · rw [Function.update_of_ne hsame]
      apply h.reading_le
      simpa [notePersist, Function.update_of_ne hsame] using hstored

theorem Spread.clearMeta (h : Spread cfg st) (threadId : ℕ) :
    Spread cfg { st.noteClear (st.index.checkId threadId) with
      index := st.index.clearMeta cfg threadId } := by
  set slot := st.index.checkId threadId with hslotDef
  have hslot : slot < cfg.totalBlockNum := h.wellFormed.checkId_lt threadId
  have hwriting := @IndexState.writingCol_clearMeta st.index cfg threadId
  rw [← hslotDef] at hwriting
  have hshape : st.index.bitmap.SameShape (st.index.clearMeta cfg threadId).bitmap := by
    rw [IndexState.bitmap_clearMeta]
    exact BitMap.sameShape_clearCol ..
  -- the slot moves on or stays
  have hgrow : ∀ other, st.index.writingCol other ≤
      (st.index.clearMeta cfg threadId).writingCol other := by
    intro other
    rw [hwriting]
    by_cases hsame : other = slot
    · rw [hsame, Function.update_self]
      split_ifs
      · exact Nat.le_add_right ..
      · exact le_rfl
    · rw [Function.update_of_ne hsame]
  refine ⟨h.wellFormed.clearMeta threadId, hshape.2.2.trans h.backup, ?_, ?_, ?_, ?_, ?_⟩
  · intro other hother
    rw [hshape.2.1, hwriting]
    by_cases hsame : other = slot
    · rw [hsame, Function.update_self]
      split_ifs with hlt
      · exact hlt
      · exact h.writing_lt slot hslot
    · rw [Function.update_of_ne hsame]
      exact h.writing_lt other hother
  · intro other hother
    rw [hwriting]
    by_cases hsame : other = slot
    · rw [hsame, Function.update_self]
      split_ifs
      · rw [IndexState.nextCol, h.backup, Nat.add_mod_right]
        exact h.writing_mod slot hslot
      · exact h.writing_mod slot hslot
    · rw [Function.update_of_ne hsame]
      exact h.writing_mod other hother
  · intro other hother hpersisted
    by_cases hsame : other = slot
    · simp [noteClear, hsame] at hpersisted
    · have hold : st.persisted other = true := by
        simpa [noteClear, Function.update_of_ne hsame] using hpersisted
      rw [IndexState.readingCol_clearMeta, IndexState.heldBlock_clearMeta hsame, hwriting,
        Function.update_of_ne hsame]
      exact h.persisted other hother hold
  · rw [IndexState.readingCol_clearMeta]
    exact h.reading_mod
  · intro other hstored
    rw [IndexState.readingCol_clearMeta]
    exact (h.reading_le other hstored).trans (hgrow _)

theorem Spread.apply (h : Spread cfg st) (hstep : st.apply cfg hash std operation = some next) :
    Spread cfg next := by
  rcases apply_cases hstep with ⟨hsame, hpersisted, hstored⟩ | ⟨threadId, hpersist, hnext⟩ |
    ⟨threadId, -, rfl⟩
  · exact h.same (wellFormed_apply hstep h.wellFormed) hsame hpersisted hstored
  · rw [hnext]
    exact h.persistMeta hpersist
  · exact h.clearMeta threadId

theorem spread_of_reachable (hle : cfg.totalBlockNum ≤ cfg.backupColCount)
    {allowed : IndexHistory → IndexState.Operation → Prop}
    (h : (system cfg hash std).Reachable allowed st) : Spread cfg st :=
  h.invariant (Spread cfg) (spread_init hle) fun hspread _ hstep => hspread.apply hstep

/-! ## While there are columns left, all columns in use are distinct -/

/-- A persisted block reads a column of its own, and one its slot has left unless
the slot still holds the block. -/
structure Distinct (cfg : IndexConfig) (st : IndexHistory) : Prop where
  shared : ∀ diskBlockId, st.stored diskBlockId = true →
    st.index.readingCol diskBlockId = st.index.writingCol (diskBlockId % cfg.totalBlockNum) →
    st.index.heldBlock (diskBlockId % cfg.totalBlockNum) = diskBlockId ∧
      st.persisted (diskBlockId % cfg.totalBlockNum) = true
  reading_injective : ∀ first second, st.stored first = true → st.stored second = true →
    st.index.readingCol first = st.index.readingCol second → first = second

theorem distinct_init (cfg : IndexConfig) : Distinct cfg (init cfg) where
  shared _ hstored := (Bool.false_ne_true hstored).elim
  reading_injective _ _ hstored := (Bool.false_ne_true hstored).elim

theorem Distinct.same (h : Distinct cfg st) (hsame : IndexState.SameColumns st.index next.index)
    (hpersisted : next.persisted = st.persisted) (hstored : next.stored = st.stored) :
    Distinct cfg next where
  shared := by
    rw [hsame.readingCol, hsame.writingCol, hsame.heldBlock, hpersisted, hstored]
    exact h.shared
  reading_injective := by
    rw [hsame.readingCol, hstored]
    exact h.reading_injective

theorem Distinct.persistMeta (h : Distinct cfg st) (hspread : Spread cfg st) {threadId : ℕ}
    {index : IndexState} (hpersist : st.index.persistMeta cfg std threadId = some index) :
    Distinct cfg { st.notePersist (st.index.checkId threadId) with index } := by
  set slot := st.index.checkId threadId with hslotDef
  set block := st.index.heldBlock slot with hblock
  have hslot : slot < cfg.totalBlockNum := hspread.wellFormed.checkId_lt threadId
  have hmod : block % cfg.totalBlockNum = slot := hspread.wellFormed.diskBlockId_mod slot hslot
  have hreading := IndexState.readingCol_persistMeta hspread.wellFormed hpersist
    (hspread.writing_lt slot hslot)
  obtain ⟨hwriting, hheld, -⟩ := IndexState.writingCol_persistMeta hpersist
  rw [← hslotDef, ← hblock] at hreading
  -- a block that reads the column of the slot is the one the slot holds
  have hown : ∀ other, st.stored other = true →
      st.index.readingCol other = st.index.writingCol slot → other = block := by
    intro other hstored heq
    have hresidue : other % cfg.totalBlockNum = slot := by
      rw [← hspread.reading_mod other hstored, heq]
      exact hspread.writing_mod slot hslot
    have hshared := h.shared other hstored (by rw [hresidue]; exact heq)
    rw [hresidue] at hshared
    exact hshared.1.symm
  have hold : ∀ other, other ≠ block →
      ({ st.notePersist slot with index } : IndexHistory).stored other = true →
        st.stored other = true := by
    intro other hne hstored
    change Function.update st.stored block true other = true at hstored
    rwa [Function.update_of_ne hne] at hstored
  constructor
  · intro other hstored heq
    rw [hwriting, hreading] at heq
    rw [hheld]
    by_cases hsame : other = block
    · rw [hsame, hmod]
      exact ⟨rfl, Function.update_self ..⟩
    · rw [Function.update_of_ne hsame] at heq
      obtain ⟨hholds, hpersisted⟩ := h.shared other (hold other hsame hstored) heq
      refine ⟨hholds, ?_⟩
      change Function.update st.persisted slot true (other % cfg.totalBlockNum) = true
      by_cases hresidue : other % cfg.totalBlockNum = slot
      · rw [hresidue, Function.update_self]
      · rw [Function.update_of_ne hresidue]
        exact hpersisted
  · intro first second hfirst hsecond heq
    rw [hreading] at heq
    by_cases hone : first = block
    · by_cases htwo : second = block
      · rw [hone, htwo]
      · rw [hone, Function.update_self, Function.update_of_ne htwo] at heq
        exact absurd (hown second (hold second htwo hsecond) heq.symm) htwo
    · by_cases htwo : second = block
      · rw [htwo, Function.update_self, Function.update_of_ne hone] at heq
        exact absurd (hown first (hold first hone hfirst) heq) hone
      · rw [Function.update_of_ne hone, Function.update_of_ne htwo] at heq
        exact h.reading_injective first second (hold first hone hfirst)
          (hold second htwo hsecond) heq

theorem Distinct.clearMeta (h : Distinct cfg st) (hspread : Spread cfg st)
    (hle : cfg.totalBlockNum ≤ cfg.backupColCount) {threadId : ℕ}
    (hunspent : st.index.nextCol threadId < st.index.bitmap.colCount) :
    Distinct cfg { st.noteClear (st.index.checkId threadId) with
      index := st.index.clearMeta cfg threadId } := by
  set slot := st.index.checkId threadId with hslotDef
  have hwriting := @IndexState.writingCol_clearMeta st.index cfg threadId
  rw [if_pos hunspent, ← hslotDef] at hwriting
  have hpos := cfg.totalBlockNum_pos
  constructor
  · intro other hstored heq
    rw [IndexState.readingCol_clearMeta, hwriting] at heq
    by_cases hresidue : other % cfg.totalBlockNum = slot
    · -- the slot has left all columns of its blocks behind
      have hbehind := hspread.reading_le other hstored
      rw [hresidue] at hbehind
      rw [hresidue, Function.update_self, IndexState.nextCol, ← hslotDef, hspread.backup] at heq
      omega
    · rw [Function.update_of_ne hresidue] at heq
      rw [IndexState.heldBlock_clearMeta hresidue]
      refine ⟨(h.shared other hstored heq).1, ?_⟩
      change Function.update st.persisted slot false (other % cfg.totalBlockNum) = true
      rw [Function.update_of_ne hresidue]
      exact (h.shared other hstored heq).2
  · rw [IndexState.readingCol_clearMeta]
    exact h.reading_injective

theorem distinct_of_reachable (hle : cfg.totalBlockNum ≤ cfg.backupColCount)
    (h : (system cfg hash std).Reachable Unspent st) : Distinct cfg st := by
  have hboth : Spread cfg st ∧ Distinct cfg st := by
    refine h.invariant (fun st => Spread cfg st ∧ Distinct cfg st)
      ⟨spread_init hle, distinct_init cfg⟩ fun {st next operation} hinv hunspent hstep => ?_
    obtain ⟨hspread, hdistinct⟩ := hinv
    refine ⟨hspread.apply hstep, ?_⟩
    rcases apply_cases hstep with ⟨hsame, hpersisted, hstored⟩ | ⟨threadId, hpersist, hnext⟩ |
      ⟨threadId, rfl, rfl⟩
    · exact hdistinct.same hsame hpersisted hstored
    · rw [hnext]
      exact hdistinct.persistMeta hspread hpersist
    · exact hdistinct.clearMeta hspread hle hunspent
  exact hboth.2

/-- The columns in use: those of all slots and of all blocks persisted at least
once.  They are inside the bitmap and distinct, but for the column a slot shares
with the block it has persisted and still holds. -/
structure ColumnsOwned (cfg : IndexConfig) (st : IndexHistory) : Prop where
  writing_lt : ∀ slot < cfg.totalBlockNum, st.index.writingCol slot < st.index.bitmap.colCount
  reading_lt : ∀ diskBlockId, st.stored diskBlockId = true →
    st.index.readingCol diskBlockId < st.index.bitmap.colCount
  writing_injective : ∀ first < cfg.totalBlockNum, ∀ second < cfg.totalBlockNum,
    st.index.writingCol first = st.index.writingCol second → first = second
  reading_injective : ∀ first second, st.stored first = true → st.stored second = true →
    st.index.readingCol first = st.index.readingCol second → first = second
  shared : ∀ slot < cfg.totalBlockNum, ∀ diskBlockId, st.stored diskBlockId = true →
    st.index.writingCol slot = st.index.readingCol diskBlockId →
    st.index.heldBlock slot = diskBlockId ∧ st.persisted slot = true

/-- After a `clearMeta` the column its slot has moved on to is empty. -/
def EmptiesNext (cfg : IndexConfig) (st : IndexHistory) : Prop :=
  ∀ threadId < cfg.checkThreadNum, st.index.nextCol threadId < st.index.bitmap.colCount →
    (st.index.clearMeta cfg threadId).writingCol (st.index.checkId threadId) =
        st.index.nextCol threadId ∧
      ∀ row, (st.index.clearMeta cfg threadId).bitmap.get row (st.index.nextCol threadId) = false

/-- With at least as many backup columns as slots, and as long as there are
columns left, every column has one owner, and a slot moves on to an empty column. -/
theorem columns_owned (hle : cfg.totalBlockNum ≤ cfg.backupColCount)
    (h : (system cfg hash std).Reachable Unspent st) :
    ColumnsOwned cfg st ∧ EmptiesNext cfg st := by
  have hspread := spread_of_reachable hle h
  have hdistinct := distinct_of_reachable hle h
  refine ⟨⟨hspread.writing_lt, ?_, ?_, hdistinct.reading_injective, ?_⟩, ?_⟩
  · intro diskBlockId hstored
    have hslot := Nat.mod_lt diskBlockId cfg.totalBlockNum_pos
    exact (hspread.reading_le diskBlockId hstored).trans_lt (hspread.writing_lt _ hslot)
  · intro first hfirst second hsecond heq
    rw [← hspread.writing_mod first hfirst, heq, hspread.writing_mod second hsecond]
  · intro slot hslot diskBlockId hstored heq
    have hresidue : diskBlockId % cfg.totalBlockNum = slot := by
      rw [← hspread.reading_mod diskBlockId hstored, ← heq, hspread.writing_mod slot hslot]
    have hshared := hdistinct.shared diskBlockId hstored (by rw [hresidue, heq])
    rwa [hresidue] at hshared
  · intro threadId _ hunspent
    rw [IndexState.writingCol_clearMeta, IndexState.bitmap_clearMeta, Function.update_self,
      if_pos hunspent]
    refine ⟨rfl, fun row => ?_⟩
    rw [BitMap.get_clearCol, decide_eq_false (not_not.mpr rfl), Bool.and_false]

/-- One slot, seven disk blocks and one backup column. -/
def oneSlot : IndexConfig :=
  { IndexStorageConfig.smallStorage.index with
    diskBlockNum := 7
    rowCount := 1
    backupColCount := 1
    diskBlockNum_pos := Nat.succ_pos 6
    diskBlockNum_mod := rfl
    bitmap := rfl }

/-- As many slots as disk blocks, and one backup column. -/
def sevenSlots : IndexConfig :=
  { oneSlot with
    totalBlockNum := 7
    totalBlockNum_pos := Nat.succ_pos 6
    diskBlockNum_mod := rfl
    checkThreadNum_le := Nat.succ_pos 6 }

open IndexStorageConfig in
theorem columns_owned_oneSlot : ∃ st : IndexHistory,
    (st.stored 0 = true ∧ st.stored 1 = true ∧ st.index.writingCol 0 = 1) ∧
      ColumnsOwned oneSlot st ∧ EmptiesNext oneSlot st := by
  obtain ⟨st, hreach, hst⟩ := (system oneSlot someHash someSort).exists_reachable
    [.persistMeta 0, .clearMeta 0, .persistMeta 0]
    (fun st => st.stored 0 = true ∧ st.stored 1 = true ∧ st.index.writingCol 0 = 1)
    (show TransitionSystem.RunAllowed _ Unspent _ _ by decide +kernel) (by decide +kernel)
  exact ⟨st, hst, columns_owned (Nat.le_refl 1) hreach⟩

open IndexStorageConfig in
/-- A slot shares its column with the block it has just persisted; with more slots
than backup columns it comes to the column of another slot; and when the columns
are used up, all blocks it persists read the last one. -/
theorem columns_shared :
    (∃ st, (system oneSlot someHash someSort).Reachable (fun _ _ => True) st ∧
      st.stored 0 = true ∧ st.index.writingCol 0 = st.index.readingCol 0) ∧
    (∃ st, (system sevenSlots someHash someSort).Reachable (fun _ _ => True) st ∧
      st.index.writingCol 0 = st.index.writingCol 1) ∧
    ∃ st, (system oneSlot someHash someSort).Reachable (fun _ _ => True) st ∧
      st.stored 0 = true ∧ st.stored 1 = true ∧ st.index.readingCol 0 = st.index.readingCol 1 := by
  refine ⟨?_, ?_, ?_⟩
  · exact (system oneSlot someHash someSort).exists_reachable [.persistMeta 0] _
      (TransitionSystem.runAllowed_true _) (by decide +kernel)
  · exact (system sevenSlots someHash someSort).exists_reachable [.clearMeta 0] _
      (TransitionSystem.runAllowed_true _) (by decide +kernel)
  · exact (system oneSlot someHash someSort).exists_reachable
      ((List.replicate 8 [.persistMeta 0, .clearMeta 0]).flatten ++ [.persistMeta 0]) _
      (TransitionSystem.runAllowed_true _) (by decide +kernel)

end IndexHistory

end TrafficDatabase
