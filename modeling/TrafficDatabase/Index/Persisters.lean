import TrafficDatabase.Index.Operations

/-!
# The persisters

`IndexPersister::run` goes through the slots of the index buffer: it waits for the dump
of the block in its slot, then for the block's records, persists them and clears the slot.
Each of these is a step here, and so is each write of `clearMeta`, between which the
generators go on to insert.

Beside the index and the threads the state keeps a history, which no step looks at: how
often each slot has moved on, which blocks were persisted and cleared by whom, and in which
nodes of the pools the records were put.
-/

namespace TrafficDatabase

/-- A write of `clearMeta` that other threads can see. -/
inductive ClearStep
  | packetCount
  | column
  | writingCol
  | pool (rxId : ℕ)
  | indexCount
  | diskBlock
  | checkId
deriving DecidableEq, Repr

namespace MemoryPool

/-- The place of the last node in the list. -/
def lastPlace (pool : MemoryPool) : ℕ := (pool.listTail + pool.listLen - 1) % pool.listLen

end MemoryPool

namespace IndexState

variable (cfg : IndexConfig) (st : IndexState)

def setMeta (slot : ℕ) (bufferMeta : IndexBufferMeta) : IndexState :=
  { st with metas := Function.update st.metas slot bufferMeta }

/-- The column `clearMeta` empties and the slot sets keys in afterwards. -/
def newCol (threadId : ℕ) : ℕ :=
  (st.metas (st.checkId threadId)).bloomFilterMeta.writingCol + st.bitmap.backupColCount

def clearStep (threadId newCol : ℕ) : ClearStep → IndexState
  | .packetCount => st.clearPacketCount cfg (st.getCheckDishID threadId)
  | .column => { st with bitmap := st.bitmap.clearCol newCol }
  | .writingCol =>
      let bufferMeta := st.metas (st.checkId threadId)
      st.setMeta (st.checkId threadId)
        { bufferMeta with
          bloomFilterMeta := bufferMeta.bloomFilterMeta.setWritingCol st.bitmap newCol }
  | .pool rxId =>
      { st with
        memoryPools := Function.update st.memoryPools rxId
          ((st.memoryPools rxId).recycle (st.getCheckDishID threadId)) }
  | .indexCount =>
      st.setMeta (st.checkId threadId) { st.metas (st.checkId threadId) with indexCount := 0 }
  | .diskBlock =>
      st.setMeta (st.checkId threadId)
        { st.metas (st.checkId threadId) with
          diskBlockId := (st.getCheckDishID threadId + cfg.totalBlockNum) % cfg.diskBlockNum }
  | .checkId =>
      { st with
        indexCheckIds := st.indexCheckIds.set threadId
          ((st.checkId threadId + st.indexCheckIds.length) % cfg.totalBlockNum) }

/-- The writes of `clearMeta`, in order. -/
def clearSteps : List ClearStep :=
  [.packetCount, .column, .writingCol] ++ (List.range cfg.poolNum).map .pool ++
    [.indexCount, .diskBlock, .checkId]

end IndexState

/-- Where a persister is in its loop. -/
inductive PersisterLoop
  | waiting
  | counting (packetCount : ℕ)
  | persisting
  | persisted
  | clearing (newCol : ℕ) (rest : List ClearStep)
  | left
deriving DecidableEq, Repr

structure Persister where
  loop : PersisterLoop
  stop : Bool
deriving DecidableEq, Repr

/-- A call of `persistMeta` or `clearMeta`, with the disk block counted over all laps. -/
structure Visit where
  persister : ℕ
  block : ℕ
deriving DecidableEq, Repr

/-- A record put into a pool for the block its slot was at, and the place of its node. -/
structure StoredRecord where
  block : ℕ
  rxId : ℕ
  type : IndexType
  node : ℕ
deriving DecidableEq, Repr

structure IndexStage where
  index : IndexState
  persisters : ℕ → Persister
  laps : ℕ → ℕ
  persists : List Visit
  clears : List Visit
  records : List StoredRecord

inductive StageLabel
  | insert (flow : FlowMetadata) (position diskBlockId rxId : ℕ)
  | setPacketCount (diskBlockId packetCount : ℕ)
  | recycleBlock (blockId : ℕ)
  | stopPersister (threadId : ℕ)
  | persister (threadId : ℕ)

namespace IndexStage

variable (cfg : IndexConfig) (hash : StdHash) (std : StdSort)

def init : IndexStage :=
  { index := .init cfg
    persisters := fun _ => { loop := .waiting, stop := false }
    laps := fun _ => 0
    persists := []
    clears := []
    records := [] }

variable (st : IndexStage)

/-- The disk block a slot is at, not reduced. -/
def held (slot : ℕ) : ℕ := slot + cfg.totalBlockNum * st.laps slot

def setPersister (threadId : ℕ) (persister : Persister) : IndexStage :=
  { st with persisters := Function.update st.persisters threadId persister }

def setLoop (threadId : ℕ) (loop : PersisterLoop) : IndexStage :=
  st.setPersister threadId { st.persisters threadId with loop }

def insert (flow : FlowMetadata) (position diskBlockId rxId : ℕ) : Option (Bool × IndexStage) :=
  (st.index.insert cfg hash flow position diskBlockId rxId).map fun (done, index) =>
    let records := (IndexMemoryPool.recordTypes flow).map fun type =>
      { block := st.held cfg (diskBlockId % cfg.totalBlockNum), rxId, type
        node := (index.memoryPools rxId type).lastPlace }
    (done, { st with index, records := if done then st.records ++ records else st.records })

def persistMeta (threadId : ℕ) : Option IndexStage :=
  (st.index.persistMeta cfg std threadId).map fun index =>
    { st.setLoop threadId .persisted with
      index
      persists := st.persists ++ [⟨threadId, st.held cfg (st.index.checkId threadId)⟩] }

/-- One write of `clearMeta`; the slot moves on when its disk block does. -/
def clear (threadId newCol : ℕ) (step : ClearStep) (rest : List ClearStep) : IndexStage :=
  let slot := st.index.checkId threadId
  let cleared := { st.setLoop threadId (.clearing newCol rest) with
    index := st.index.clearStep cfg threadId newCol step }
  if step = .diskBlock then
    { cleared with
      laps := Function.update st.laps slot (st.laps slot + 1)
      clears := st.clears ++ [⟨threadId, st.held cfg slot⟩] }
  else cleared

/-- The next step of a persister.  The two loops of `checkAndGetMeta` come back to their
tests, and only the first one looks at `stop`. -/
def persister (threadId : ℕ) : Option IndexStage :=
  match (st.persisters threadId).loop with
  | .waiting =>
      if (st.persisters threadId).stop then some (st.setLoop threadId .left)
      else
        let packetCount := (st.index.diskMetas (st.index.getCheckDishID threadId)).packetCount
        some (if packetCount = 0 then st else st.setLoop threadId (.counting packetCount))
  | .counting packetCount =>
      some (if st.index.checkIndexCount threadId < packetCount then st
        else st.setLoop threadId .persisting)
  | .persisting => st.persistMeta cfg std threadId
  | .persisted =>
      some (st.setLoop threadId
        (.clearing (st.index.newCol threadId) (IndexState.clearSteps cfg)))
  | .clearing _ [] => some (st.setLoop threadId .waiting)
  | .clearing newCol (step :: rest) => some (st.clear cfg threadId newCol step rest)
  | .left => none

def step (st : IndexStage) : StageLabel → Option IndexStage
  | .insert flow position diskBlockId rxId =>
      if rxId < cfg.poolNum then
        (st.insert cfg hash flow position diskBlockId rxId).map Prod.snd
      else none
  | .setPacketCount diskBlockId packetCount =>
      some { st with index := st.index.setPacketCount cfg diskBlockId packetCount }
  | .recycleBlock blockId =>
      if blockId < cfg.indexBlock.totalBlockNum then
        some { st with
          index := { st.index with
            indexBlockBuffer := st.index.indexBlockBuffer.recycleBlock cfg.indexBlock blockId } }
      else none
  | .stopPersister threadId =>
      some (st.setPersister threadId { st.persisters threadId with stop := true })
  | .persister threadId =>
      if threadId < cfg.checkThreadNum then st.persister cfg std threadId else none

/-- The index buffer with its persisters. -/
def system : TransitionSystem IndexStage StageLabel :=
  { init := init cfg, step := step cfg hash std }

end IndexStage

namespace IndexState

variable {cfg : IndexConfig} {st : IndexState}

/-! ## The writes of `clearMeta` -/

theorem foldl_clearPools (threadId newCol : ℕ) (count : ℕ) :
    ((List.range count).map ClearStep.pool).foldl (clearStep cfg · threadId newCol) st =
      { st with
        memoryPools := fun rxId =>
          if rxId < count then (st.memoryPools rxId).recycle (st.getCheckDishID threadId)
          else st.memoryPools rxId } := by
  induction count with
  | zero => simp
  | succ count ih =>
      rw [List.range_succ, List.map_append, List.foldl_append, ih]
      simp only [List.map_cons, List.map_nil, List.foldl_cons, List.foldl_nil, clearStep]
      congr 1
      funext rxId
      by_cases hsame : rxId = count
      · subst hsame
        rw [Function.update_self, if_neg (lt_irrefl _), if_pos (Nat.lt_succ_self _)]
        rfl
      · rw [Function.update_of_ne hsame]
        split_ifs
        · rfl
        · omega
        · omega
        · rfl

/-- Made in a row they are `clearMeta`, on the pools there are. -/
theorem foldl_clearSteps (threadId : ℕ) :
    (clearSteps cfg).foldl (clearStep cfg · threadId (st.newCol threadId)) st =
      { st.clearMeta cfg threadId with
        memoryPools := fun rxId =>
          if rxId < cfg.poolNum then (st.clearMeta cfg threadId).memoryPools rxId
          else st.memoryPools rxId } := by
  obtain ⟨diskMetas, hset⟩ := @setPacketCount_rest cfg st (st.getCheckDishID threadId) 0
  have hcleared :
      st.clearPacketCount cfg (st.metas (st.indexCheckIds.getD threadId 0)).diskBlockId =
        { st with diskMetas } := hset
  unfold clearSteps clearMeta
  rw [List.foldl_append, List.foldl_append]
  simp only [List.foldl_cons, List.foldl_nil]
  rw [foldl_clearPools]
  simp only [clearStep, setMeta, updateIndexBufferMeta, checkId, getCheckDishID, newCol, hcleared,
    Function.update_self, Function.update_idem]

/-- Only one of them moves a slot. -/
theorem clearStep_diskBlockId (threadId newCol : ℕ) {step : ClearStep} (h : step ≠ .diskBlock)
    (slot : ℕ) :
    ((st.clearStep cfg threadId newCol step).metas slot).diskBlockId =
      (st.metas slot).diskBlockId := by
  have hset : ∀ {bufferMeta : IndexBufferMeta},
      bufferMeta.diskBlockId = (st.metas (st.checkId threadId)).diskBlockId →
        (Function.update st.metas (st.checkId threadId) bufferMeta slot).diskBlockId =
          (st.metas slot).diskBlockId := by
    intro bufferMeta hsame
    by_cases hat : slot = st.checkId threadId
    · rw [hat, Function.update_self, hsame]
    · rw [Function.update_of_ne hat]
  cases step with
  | packetCount =>
      obtain ⟨diskMetas, hcleared⟩ := @setPacketCount_rest cfg st (st.getCheckDishID threadId) 0
      have hstep : st.clearStep cfg threadId newCol .packetCount = { st with diskMetas } := hcleared
      rw [hstep]
  | writingCol => exact hset rfl
  | indexCount => exact hset rfl
  | diskBlock => exact absurd rfl h
  | column | pool rxId | checkId => rfl

/-- Nothing but the two last elements of a list is behind them. -/
private theorem mem_of_suffix {α : Type*} {init rest : List α} {first second x : α}
    (h : x :: rest <:+ init ++ [first, second]) (hfirst : first ∉ init) (hsecond : second ∉ init)
    (hne : first ≠ second) : first ∈ rest ↔ x ≠ first ∧ x ≠ second := by
  rcases List.suffix_or_suffix_of_suffix h (List.suffix_append init [first, second]) with
    hsub | hsub
  · -- the list is one of the two suffixes of the last two elements
    rcases List.suffix_cons_iff.mp hsub with heq | hsub
    · obtain ⟨rfl, rfl⟩ := List.cons.inj heq
      simp [hne]
    · rcases List.suffix_cons_iff.mp hsub with heq | hsub
      · obtain ⟨rfl, rfl⟩ := List.cons.inj heq
        simp
      · exact absurd (List.suffix_nil.mp hsub) (List.cons_ne_nil _ _)
  · rcases List.suffix_cons_iff.mp hsub with heq | ⟨between, rfl⟩
    · obtain ⟨rfl, rfl⟩ := List.cons.inj heq
      simp [hne]
    · obtain ⟨before, hbefore⟩ := h
      have hinit : before ++ x :: between = init := by
        rw [← List.cons_append, ← List.append_assoc] at hbefore
        exact List.append_cancel_right hbefore
      have hx : x ∈ init := hinit ▸ List.mem_append_right _ List.mem_cons_self
      have hmem : first ∈ between ++ [first, second] := by simp
      refine iff_of_true hmem ⟨?_, ?_⟩
      · rintro rfl
        exact hfirst hx
      · rintro rfl
        exact hsecond hx

/-- The slot moves on last but one. -/
theorem diskBlock_mem_of_suffix {step : ClearStep} {rest : List ClearStep}
    (h : step :: rest <:+ clearSteps cfg) :
    .diskBlock ∈ rest ↔ step ≠ .diskBlock ∧ step ≠ .checkId := by
  have hsplit : clearSteps cfg =
      ([.packetCount, .column, .writingCol] ++ (List.range cfg.poolNum).map .pool ++
        [.indexCount]) ++ [.diskBlock, .checkId] := by
    simp [clearSteps]
  rw [hsplit] at h
  exact mem_of_suffix h (by simp) (by simp) (by decide)

end IndexState

end TrafficDatabase
