import TrafficDatabase.Index.ColumnOwnership

/-!
# Lookups find what was inserted

A key whose insertion returned true is in the column its slot writes, and that is
the column lookups of the block read once the block has been persisted.  It can
only be lost when a `clearMeta` empties a column that has such keys.

`FreeColumn` says that this does not happen, and then every lookup owed is
answered.  With at least as many backup columns as slots it never happens, since
every slot empties columns of its own residue only, all of them new
(`keys_found`).  With fewer, a slot can empty the column of another one
(`keys_lost`).
-/

namespace TrafficDatabase

namespace IndexHistory

variable (cfg : IndexConfig) (hash : StdHash) (std : StdSort)

/-- Lookups find the keys of all flows they owe an answer to. -/
def Answered (st : IndexHistory) : Prop :=
  ∀ diskBlockId, ∀ flow ∈ st.owed diskBlockId, ∀ type key, flow.indexKey type = some key →
    st.index.checkKey cfg hash diskBlockId key type = true

/-- A `clearMeta` empties a column that neither another slot with keys writes nor
lookups that owe an answer read. -/
def FreeColumn (st : IndexHistory) : IndexState.Operation → Prop
  | .clearMeta threadId =>
      (∀ slot < cfg.totalBlockNum, slot ≠ st.index.checkId threadId →
        st.index.writingCol slot = st.index.nextCol threadId → st.taken slot = []) ∧
      ∀ diskBlockId, st.index.readingCol diskBlockId = st.index.nextCol threadId →
        st.owed diskBlockId = []
  | .insert .. | .persistMeta _ | .setPacketCount .. | .recycleBlock _ => True

variable {cfg hash std} {st next : IndexHistory} {operation : IndexState.Operation}

/-! ## What the history records -/

/-- The block of a slot that has persisted it is stored, and lookups owe answers
for stored blocks only. -/
structure Recorded (cfg : IndexConfig) (st : IndexHistory) : Prop where
  wellFormed : st.index.WellFormed cfg
  persisted : ∀ slot < cfg.totalBlockNum, st.persisted slot = true →
    st.stored (st.index.heldBlock slot) = true
  owed : ∀ diskBlockId flow, flow ∈ st.owed diskBlockId → st.stored diskBlockId = true
  stored_lt : ∀ diskBlockId, st.stored diskBlockId = true → diskBlockId < cfg.diskBlockNum

theorem recorded_init (cfg : IndexConfig) : Recorded cfg (init cfg) where
  wellFormed := IndexState.wellFormed_init cfg
  persisted := nofun
  owed := nofun
  stored_lt := nofun

theorem owed_noteInsert {flow : FlowMetadata} {diskBlockId other : ℕ} {found : FlowMetadata}
    (h : found ∈ (st.noteInsert cfg flow diskBlockId).owed other) :
    found ∈ st.owed other ∨
      (other = diskBlockId ∧ found = flow ∧
        st.persisted (diskBlockId % cfg.totalBlockNum) = true) := by
  simp only [noteInsert] at h
  by_cases hsame : other = diskBlockId
  · rw [hsame, Function.update_self] at h
    split_ifs at h with hpersisted
    · rcases List.mem_cons.mp h with hnew | hold
      · exact .inr ⟨hsame, hnew, hpersisted⟩
      · exact .inl (hsame ▸ hold)
    · cases h
  · rw [Function.update_of_ne hsame] at h
    exact .inl h

theorem Recorded.apply (h : Recorded cfg st) (hstep : st.apply cfg hash std operation = some next) :
    Recorded cfg next := by
  have hwell := wellFormed_apply hstep h.wellFormed
  rcases history_cases hstep with ⟨flow, position, diskBlockId, rxId, done, hinsert, hnext⟩ |
    ⟨threadId, hpersist, hnext⟩ | ⟨threadId, -, hnext⟩ | ⟨hsame, -, hnext⟩
  -- an insert: a record of a block that is persisted already is owed to a stored block
  · obtain ⟨hsame, -, hdone⟩ := IndexState.sameColumns_insert hinsert
    have hpersisted : ∀ slot < cfg.totalBlockNum, st.persisted slot = true →
        st.stored (next.index.heldBlock slot) = true := by
      rw [hsame.heldBlock]
      exact h.persisted
    rw [hnext]
    cases done with
    | false => exact ⟨hwell, hpersisted, h.owed, h.stored_lt⟩
    | true =>
        refine ⟨hwell, hpersisted, ?_, h.stored_lt⟩
        intro other found hfound
        rcases owed_noteInsert hfound with hold | ⟨rfl, -, hpersisted⟩
        · exact h.owed other found hold
        · have hslot := Nat.mod_lt other cfg.totalBlockNum_pos
          have hstored := h.persisted _ hslot hpersisted
          rwa [(hdone rfl).1] at hstored
  -- a persister stores its block, and all others stay as they are
  · set slot := st.index.checkId threadId with hslotDef
    set block := st.index.heldBlock slot with hblock
    have hslot : slot < cfg.totalBlockNum := h.wellFormed.checkId_lt threadId
    obtain ⟨-, hheld, -⟩ := IndexState.writingCol_persistMeta hpersist
    have hgrow : ∀ other, st.stored other = true → next.stored other = true := by
      intro other hstored
      rw [hnext]
      change Function.update st.stored block true other = true
      by_cases hsame : other = block
      · rw [hsame, Function.update_self]
      · rw [Function.update_of_ne hsame]
        exact hstored
    have hnew : next.stored block = true := by
      rw [hnext]
      exact Function.update_self ..
    refine ⟨hwell, ?_, ?_, ?_⟩
    · intro other hother hpersisted
      rw [hheld]
      by_cases hsame : other = slot
      · rw [hsame]
        exact hnew
      · rw [hnext] at hpersisted
        apply hgrow
        apply h.persisted other hother
        change Function.update st.persisted slot true other = true at hpersisted
        rwa [Function.update_of_ne hsame] at hpersisted
    · intro other found hfound
      by_cases hsame : other = block
      · rw [hsame]
        exact hnew
      · rw [hnext] at hfound
        apply hgrow
        apply h.owed other found
        change found ∈ Function.update st.owed block (st.taken slot) other at hfound
        rwa [Function.update_of_ne hsame] at hfound
    · intro other hstored
      by_cases hsame : other = block
      · rw [hsame]
        exact h.wellFormed.diskBlockId_lt slot hslot
      · rw [hnext] at hstored
        apply h.stored_lt
        change Function.update st.stored block true other = true at hstored
        rwa [Function.update_of_ne hsame] at hstored
  -- a slot that is cleared has not been persisted
  · set slot := st.index.checkId threadId with hslotDef
    rw [hnext] at hwell ⊢
    refine ⟨hwell, ?_, h.owed, h.stored_lt⟩
    intro other hother hpersisted
    change Function.update st.persisted slot false other = true at hpersisted
    by_cases hsame : other = slot
    · rw [hsame, Function.update_self] at hpersisted
      cases hpersisted
    · rw [Function.update_of_ne hsame] at hpersisted
      rw [IndexState.heldBlock_clearMeta hsame]
      exact h.persisted other hother hpersisted
  · rw [hnext] at hwell ⊢
    refine ⟨hwell, ?_, h.owed, h.stored_lt⟩
    rw [hsame.heldBlock]
    exact h.persisted

theorem recorded_of_reachable {allowed : IndexHistory → IndexState.Operation → Prop}
    (h : (system cfg hash std).Reachable allowed st) : Recorded cfg st :=
  h.invariant (Recorded cfg) (recorded_init cfg) fun hrecorded _ hstep => hrecorded.apply hstep

/-! ## Where the keys are -/

/-- A column holds the keys of a flow. -/
def Keeps (cfg : IndexConfig) (hash : StdHash) (index : IndexState) (col : ℕ)
    (flow : FlowMetadata) : Prop :=
  PrefixBloomFilter.Holds hash cfg.hashNum col index.bitmap flow

theorem Keeps.mono {index after : IndexState} {col other : ℕ} {flow : FlowMetadata}
    (h : Keeps cfg hash index col flow)
    (hextends : BitMap.Extends other index.bitmap after.bitmap) : Keeps cfg hash after col flow :=
  fun row hrow => hextends.mono (h row hrow)

/-- Emptying a column leaves the keys in the others. -/
theorem Keeps.clearMeta {index : IndexState} {col threadId : ℕ} {flow : FlowMetadata}
    (h : Keeps cfg hash index col flow) (hne : col ≠ index.nextCol threadId) :
    Keeps cfg hash (index.clearMeta cfg threadId) col flow := by
  intro row hrow
  rw [IndexState.bitmap_clearMeta, BitMap.get_clearCol, h row hrow, decide_eq_true hne,
    Bool.and_true]

/-- The column a slot writes keeps the flows it has taken, and the column lookups
of a block read keeps the flows they owe an answer to. -/
structure KeysKept (cfg : IndexConfig) (hash : StdHash) (st : IndexHistory) : Prop where
  wellFormed : st.index.WellFormed cfg
  writing_lt : ∀ slot < cfg.totalBlockNum, st.index.writingCol slot < st.index.bitmap.colCount
  persisted : ∀ slot < cfg.totalBlockNum, st.persisted slot = true →
    st.index.readingCol (st.index.heldBlock slot) = st.index.writingCol slot
  taken : ∀ slot < cfg.totalBlockNum, ∀ flow ∈ st.taken slot,
    Keeps cfg hash st.index (st.index.writingCol slot) flow
  owed : ∀ diskBlockId, ∀ flow ∈ st.owed diskBlockId,
    Keeps cfg hash st.index (st.index.readingCol diskBlockId) flow

theorem keysKept_init (cfg : IndexConfig) (hash : StdHash) : KeysKept cfg hash (init cfg) where
  wellFormed := IndexState.wellFormed_init cfg
  writing_lt slot hslot := by
    have hcols := (IndexState.colCount_init cfg).1
    have hdisk := cfg.totalBlockNum_le
    change (IndexState.init cfg).writingCol slot < (IndexState.init cfg).bitmap.colCount
    rw [IndexState.writingCol_init cfg hslot]
    omega
  persisted := nofun
  taken := nofun
  owed := nofun

/-- A step that moves no column and empties none keeps the keys, if the flows it
adds are kept. -/
theorem KeysKept.same (h : KeysKept cfg hash st) (hwell : next.index.WellFormed cfg)
    (hsame : IndexState.SameColumns st.index next.index)
    (hkeeps : ∀ {col flow}, Keeps cfg hash st.index col flow → Keeps cfg hash next.index col flow)
    (hpersisted : next.persisted = st.persisted)
    (htaken : ∀ slot < cfg.totalBlockNum, ∀ flow ∈ next.taken slot, flow ∈ st.taken slot ∨
      Keeps cfg hash next.index (st.index.writingCol slot) flow)
    (howed : ∀ diskBlockId, ∀ flow ∈ next.owed diskBlockId, flow ∈ st.owed diskBlockId ∨
      Keeps cfg hash next.index (st.index.readingCol diskBlockId) flow) :
    KeysKept cfg hash next where
  wellFormed := hwell
  writing_lt := by
    rw [hsame.writingCol, hsame.shape.2.1]
    exact h.writing_lt
  persisted := by
    rw [hsame.writingCol, hsame.readingCol, hsame.heldBlock, hpersisted]
    exact h.persisted
  taken slot hslot flow hflow := by
    rw [hsame.writingCol]
    rcases htaken slot hslot flow hflow with hold | hnew
    · exact hkeeps (h.taken slot hslot flow hold)
    · exact hnew
  owed diskBlockId flow hflow := by
    rw [hsame.readingCol]
    rcases howed diskBlockId flow hflow with hold | hnew
    · exact hkeeps (h.owed diskBlockId flow hold)
    · exact hnew

theorem KeysKept.insert (h : KeysKept cfg hash st) {flow : FlowMetadata}
    {position diskBlockId rxId : ℕ} {done : Bool} (hwell : next.index.WellFormed cfg)
    (hinsert : st.index.insert cfg hash flow position diskBlockId rxId = some (done, next.index))
    (hnext : next = { (if done then st.noteInsert cfg flow diskBlockId else st) with
      index := next.index }) : KeysKept cfg hash next := by
  obtain ⟨hsame, hextends, hdone⟩ := IndexState.sameColumns_insert hinsert
  cases done with
  | false =>
      apply h.same hwell hsame (fun hkept => hkept.mono hextends)
      · rw [hnext]
        rfl
      · rw [hnext]
        exact fun _ _ _ hflow => .inl hflow
      · rw [hnext]
        exact fun _ _ hflow => .inl hflow
  | true =>
      obtain ⟨hheld, hkeeps⟩ := hdone rfl
      have hslot := Nat.mod_lt diskBlockId cfg.totalBlockNum_pos
      apply h.same hwell hsame (fun hkept => hkept.mono hextends)
      · rw [hnext]
        rfl
      · intro slot _ found hfound
        rw [hnext] at hfound
        change found ∈ Function.update st.taken (diskBlockId % cfg.totalBlockNum) _ slot at hfound
        by_cases hsameSlot : slot = diskBlockId % cfg.totalBlockNum
        · rw [hsameSlot, Function.update_self] at hfound
          rcases List.mem_cons.mp hfound with rfl | hold
          · exact .inr (hsameSlot ▸ hkeeps)
          · exact .inl (hsameSlot ▸ hold)
        · rw [Function.update_of_ne hsameSlot] at hfound
          exact .inl hfound
      · intro other found hfound
        rw [hnext] at hfound
        rcases owed_noteInsert hfound with hold | ⟨rfl, rfl, hpersisted⟩
        · exact .inl hold
        · -- the block has been persisted already: lookups read the column of the slot
          have hreading := h.persisted _ hslot hpersisted
          rw [hheld] at hreading
          rw [hreading]
          exact .inr hkeeps

theorem KeysKept.persistMeta (h : KeysKept cfg hash st) {threadId : ℕ} {index : IndexState}
    (hpersist : st.index.persistMeta cfg std threadId = some index) :
    KeysKept cfg hash { st.notePersist (st.index.checkId threadId) with index } := by
  set slot := st.index.checkId threadId with hslotDef
  set block := st.index.heldBlock slot with hblock
  have hslot : slot < cfg.totalBlockNum := h.wellFormed.checkId_lt threadId
  have hreading := IndexState.readingCol_persistMeta h.wellFormed hpersist (h.writing_lt slot hslot)
  obtain ⟨hwriting, hheld, hbitmap⟩ := IndexState.writingCol_persistMeta hpersist
  rw [← hslotDef, ← hblock] at hreading
  have hkeeps : ∀ {col flow}, Keeps cfg hash st.index col flow → Keeps cfg hash index col flow := by
    intro col flow hkept
    unfold Keeps at hkept ⊢
    rwa [hbitmap]
  refine ⟨h.wellFormed.persistMeta hpersist, ?_, ?_, ?_, ?_⟩
  · rw [hwriting, hbitmap]
    exact h.writing_lt
  · intro other hother hpersisted
    rw [hwriting, hreading, hheld]
    by_cases hsame : other = slot
    · rw [hsame, Function.update_self]
    · rw [Function.update_of_ne (heldBlock_ne h.wellFormed hother hslot hsame)]
      apply h.persisted other hother
      change Function.update st.persisted slot true other = true at hpersisted
      rwa [Function.update_of_ne hsame] at hpersisted
  · rw [hwriting]
    exact fun other hother flow hflow => hkeeps (h.taken other hother flow hflow)
  · intro other flow hflow
    rw [hreading]
    change flow ∈ Function.update st.owed block (st.taken slot) other at hflow
    by_cases hsame : other = block
    · rw [hsame, Function.update_self] at hflow ⊢
      exact hkeeps (h.taken slot hslot flow hflow)
    · rw [Function.update_of_ne hsame] at hflow ⊢
      exact hkeeps (h.owed other flow hflow)

theorem KeysKept.clearMeta (h : KeysKept cfg hash st) {threadId : ℕ}
    (hfree : FreeColumn cfg st (.clearMeta threadId)) :
    KeysKept cfg hash { st.noteClear (st.index.checkId threadId) with
      index := st.index.clearMeta cfg threadId } := by
  obtain ⟨hfreeWriting, hfreeReading⟩ := hfree
  set slot := st.index.checkId threadId with hslotDef
  have hslot : slot < cfg.totalBlockNum := h.wellFormed.checkId_lt threadId
  have hwriting := @IndexState.writingCol_clearMeta st.index cfg threadId
  rw [← hslotDef] at hwriting
  have hcols : (st.index.clearMeta cfg threadId).bitmap.colCount = st.index.bitmap.colCount := by
    rw [IndexState.bitmap_clearMeta]
    exact (BitMap.sameShape_clearCol ..).2.1
  refine ⟨h.wellFormed.clearMeta threadId, ?_, ?_, ?_, ?_⟩
  · intro other hother
    rw [hcols, hwriting]
    by_cases hsame : other = slot
    · rw [hsame, Function.update_self]
      split_ifs with hlt
      · exact hlt
      · exact h.writing_lt slot hslot
    · rw [Function.update_of_ne hsame]
      exact h.writing_lt other hother
  -- what has been persisted is in other slots, whose columns stay
  · intro other hother hpersisted
    change Function.update st.persisted slot false other = true at hpersisted
    by_cases hsame : other = slot
    · rw [hsame, Function.update_self] at hpersisted
      cases hpersisted
    · rw [Function.update_of_ne hsame] at hpersisted
      rw [IndexState.readingCol_clearMeta, IndexState.heldBlock_clearMeta hsame, hwriting,
        Function.update_of_ne hsame]
      exact h.persisted other hother hpersisted
  · intro other hother flow hflow
    change flow ∈ Function.update st.taken slot [] other at hflow
    by_cases hsame : other = slot
    · rw [hsame, Function.update_self] at hflow
      cases hflow
    · rw [Function.update_of_ne hsame] at hflow
      rw [hwriting, Function.update_of_ne hsame]
      -- the column that is cleared is none with keys
      apply (h.taken other hother flow hflow).clearMeta
      intro heq
      rw [hfreeWriting other hother hsame heq] at hflow
      cases hflow
  · intro other flow hflow
    have hflow : flow ∈ st.owed other := hflow
    rw [IndexState.readingCol_clearMeta]
    apply (h.owed other flow hflow).clearMeta
    intro heq
    rw [hfreeReading other heq] at hflow
    cases hflow

theorem KeysKept.apply (h : KeysKept cfg hash st) (hfree : FreeColumn cfg st operation)
    (hstep : st.apply cfg hash std operation = some next) : KeysKept cfg hash next := by
  have hwell := wellFormed_apply hstep h.wellFormed
  rcases history_cases hstep with ⟨flow, position, diskBlockId, rxId, done, hinsert, hnext⟩ |
    ⟨threadId, hpersist, hnext⟩ | ⟨threadId, rfl, rfl⟩ | ⟨hsame, hbitmap, hnext⟩
  · exact h.insert hwell hinsert hnext
  · rw [hnext]
    exact h.persistMeta hpersist
  · exact h.clearMeta hfree
  · apply h.same hwell hsame
    · intro col flow hkept
      unfold Keeps at hkept ⊢
      rwa [hbitmap]
    · rw [hnext]
    · rw [hnext]
      exact fun _ _ _ hflow => .inl hflow
    · rw [hnext]
      exact fun _ _ hflow => .inl hflow

theorem KeysKept.answered (h : KeysKept cfg hash st) (hrecorded : Recorded cfg st) :
    Answered cfg hash st := by
  intro diskBlockId flow hflow type key hkey
  have hlt := hrecorded.stored_lt diskBlockId (hrecorded.owed diskBlockId flow hflow)
  unfold IndexState.checkKey
  rw [if_neg (not_le.mpr hlt)]
  exact PrefixBloomFilter.checkKey_of_holds (h.owed diskBlockId flow hflow) hkey

/-! ## Enough backup columns -/

/-- With as many backup columns as slots, a slot empties columns of its own
residue, which it and its blocks have not come to yet. -/
theorem Spread.freeColumn (h : Spread cfg st) (hrecorded : Recorded cfg st)
    (hle : cfg.totalBlockNum ≤ cfg.backupColCount) (operation : IndexState.Operation) :
    FreeColumn cfg st operation := by
  cases operation with
  | clearMeta threadId =>
      have hpos := cfg.totalBlockNum_pos
      set slot := st.index.checkId threadId with hslotDef
      have hslot : slot < cfg.totalBlockNum := h.wellFormed.checkId_lt threadId
      have hresidue : st.index.nextCol threadId % cfg.backupColCount = slot := by
        rw [IndexState.nextCol, h.backup, Nat.add_mod_right]
        exact h.writing_mod slot hslot
      constructor
      · intro other hother hne heq
        have hother : other = slot := by
          rw [← hresidue, ← heq, h.writing_mod other hother]
        exact absurd hother hne
      · intro diskBlockId heq
        apply List.eq_nil_iff_forall_not_mem.mpr
        intro flow hflow
        have hstored := hrecorded.owed diskBlockId flow hflow
        have hown : diskBlockId % cfg.totalBlockNum = slot := by
          rw [← h.reading_mod diskBlockId hstored, heq, hresidue]
        have hbehind := h.reading_le diskBlockId hstored
        rw [hown, heq, IndexState.nextCol, ← hslotDef, h.backup] at hbehind
        omega
  | insert flow position diskBlockId rxId => trivial
  | persistMeta threadId => trivial
  | setPacketCount diskBlockId packetCount => trivial
  | recycleBlock blockId => trivial

/-- In a run in which no `clearMeta` empties a column in use, lookups find all keys
they owe an answer to; and with as many backup columns as slots every run is one. -/
theorem keys_found (cfg : IndexConfig) (hash : StdHash) (std : StdSort) :
    (∀ st, (system cfg hash std).Reachable (FreeColumn cfg) st → Answered cfg hash st) ∧
      (cfg.totalBlockNum ≤ cfg.backupColCount →
        ∀ st, (system cfg hash std).Reachable (fun _ _ => True) st →
          (system cfg hash std).Reachable (FreeColumn cfg) st) := by
  constructor
  · intro st h
    have hkept : KeysKept cfg hash st := h.invariant (KeysKept cfg hash) (keysKept_init cfg hash)
      fun hinv hfree hstep => hinv.apply hfree hstep
    exact hkept.answered (recorded_of_reachable h)
  · intro hle st h
    induction h with
    | init => exact .init
    | step hreach _ hstep ih =>
        apply ih.step _ hstep
        exact (spread_of_reachable hle hreach).freeColumn (recorded_of_reachable hreach) hle _

/-- One slot and a row for every port. -/
def portSlot : IndexConfig := { oneSlot with rowCount := 131072, bitmap := rfl }

/-- Seven slots, one backup column, a row for every port and two check threads. -/
def portSlots : IndexConfig :=
  { sevenSlots with
    rowCount := 131072
    bitmap := rfl
    checkThreadNum := 2
    checkThreadNum_le := Nat.le_of_ble_eq_true rfl
    writeThreadNum_le := Nat.le_refl 2 }

open IndexStorageConfig in
theorem keys_found_port : ∃ st : IndexHistory, portFlow ∈ st.owed 0 ∧
    st.index.checkKey portSlot someHash 0 (toLittleEndian 2 80) .srcport = true := by
  obtain ⟨st, hreach, howed⟩ := (system portSlot someHash someSort).exists_reachable
    [.insert portFlow 5 0 0, .persistMeta 0] (fun st => portFlow ∈ st.owed 0)
    (TransitionSystem.runAllowed_true _) (by decide +kernel)
  obtain ⟨hfound, hfree⟩ := keys_found portSlot someHash someSort
  have hanswered := hfound st (hfree (Nat.le_refl 1) st hreach)
  exact ⟨st, howed, hanswered 0 portFlow howed .srcport _ rfl⟩

open IndexStorageConfig in
/-- The slot of block 0 moves on to the column of block 1, which has been
persisted, and empties it. -/
theorem keys_lost : ∃ st, (system portSlots someHash someSort).Reachable (fun _ _ => True) st ∧
    ¬ Answered portSlots someHash st := by
  obtain ⟨st, hreach, howed, hcol, hnext⟩ :=
    (system portSlots someHash someSort).exists_reachable [.insert portFlow 5 1 0, .persistMeta 1]
      (fun st => portFlow ∈ st.owed 1 ∧ st.index.readingCol 1 = 1 ∧ st.index.nextCol 0 = 1)
      (TransitionSystem.runAllowed_true _) (by decide +kernel)
  have hstep : (system portSlots someHash someSort).step st (.clearMeta 0) =
      some { st.noteClear (st.index.checkId 0) with
        index := st.index.clearMeta portSlots 0 } := rfl
  refine ⟨_, hreach.step trivial hstep, fun hanswered => ?_⟩
  have hkey := hanswered 1 portFlow howed .srcport _ rfl
  -- the column lookups of block 1 read is the one that was emptied
  have hread : (st.index.clearMeta portSlots 0).readingCol 1 = st.index.nextCol 0 := by
    rw [IndexState.readingCol_clearMeta, hcol, hnext]
  change (st.index.clearMeta portSlots 0).bitmap.get _
    ((st.index.clearMeta portSlots 0).readingCol 1) = true at hkey
  rw [hread, IndexState.bitmap_clearMeta, BitMap.get_clearCol, decide_eq_false (not_not.mpr rfl),
    Bool.and_false] at hkey
  cases hkey

end IndexHistory

end TrafficDatabase
