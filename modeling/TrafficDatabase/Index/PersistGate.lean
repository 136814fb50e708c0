import TrafficDatabase.Index.SlotTurns

/-!
# What a block is persisted upon

A persister goes on to `persistMeta` when it has read a packet count of its disk block that
is not 0, and then an index count of its slot that is at least as large.  The packet count
is reset first in `clearMeta`, the index count last but two, and the disk block of the slot
only after that: a record inserted between the two last ones is for the old block and counts
for the new one.  Such records are late.

`CountedStage` keeps beside the stage how many records were inserted for each block, how many
of those that a slot counts were late, which packet counts were handed over for each disk
block since it was last reset, and what there was of all this when a block was persisted.
-/

namespace TrafficDatabase

namespace PersisterLoop

/-- The index count has been reset, and the slot has not moved on. -/
def Resetting : PersisterLoop → Prop
  | .clearing _ rest => rest.head? = some .diskBlock
  | _ => False

instance : DecidablePred Resetting
  | .clearing _ rest => inferInstanceAs (Decidable (rest.head? = some .diskBlock))
  | .waiting | .counting _ | .persisting | .persisted | .left => .isFalse id

end PersisterLoop

/-- A block that was persisted, with the packet counts of its disk block and the numbers of
its insertions and of the late ones of the block before it at that time. -/
structure PersistRecord where
  visit : Visit
  packetCounts : List ℕ
  inserted : ℕ
  late : ℕ
deriving DecidableEq, Repr

/-- There were packets, and as many insertions. -/
def PersistRecord.Counted (record : PersistRecord) : Prop :=
  ∃ packetCount ∈ record.packetCounts, 0 < packetCount ∧
    packetCount ≤ record.inserted + record.late

namespace IndexStage

/-- The persister of a slot is between the two writes there. -/
def Resetting (cfg : IndexConfig) (st : IndexStage) (slot : ℕ) : Prop :=
  st.index.checkId (slot % cfg.checkThreadNum) = slot ∧
    (st.persisters (slot % cfg.checkThreadNum)).loop.Resetting

instance (cfg : IndexConfig) (st : IndexStage) (slot : ℕ) : Decidable (st.Resetting cfg slot) :=
  inferInstanceAs (Decidable (_ ∧ _))

/-- Persisters at two slots are at two disk blocks. -/
theorem Turns.getCheckDishID_mod {cfg : IndexConfig} {st : IndexStage} (h : st.Turns cfg)
    (threadId : ℕ) :
    st.index.getCheckDishID threadId % cfg.totalBlockNum = st.index.checkId threadId := by
  have hslot := h.checkId_lt threadId
  calc st.index.getCheckDishID threadId % cfg.totalBlockNum
      = st.held cfg (st.index.checkId threadId) % cfg.diskBlockNum % cfg.totalBlockNum :=
        congrArg (· % cfg.totalBlockNum) (h.block _ hslot)
    _ = st.held cfg (st.index.checkId threadId) % cfg.totalBlockNum :=
        Nat.mod_mod_of_dvd _ cfg.totalBlockNum_dvd
    _ = st.index.checkId threadId := held_mod hslot

end IndexStage

namespace IndexState

variable {cfg : IndexConfig}

/-- The middle one of the three last elements of a list comes after the first of them. -/
private theorem head_of_suffix {α : Type*} {init rest : List α} {first second third x : α}
    (h : x :: rest <:+ init ++ [first, second, third]) (hfirst : first ∉ init)
    (hsecond : second ∉ init) (hne : [first, second, third].Nodup) :
    rest.head? = some second ↔ x = first := by
  obtain ⟨hnotin, hrest⟩ := List.nodup_cons.mp hne
  have hfs : first ≠ second := fun h => hnotin (h ▸ List.mem_cons_self)
  have hft : first ≠ third := fun h => hnotin (h ▸ List.mem_cons_of_mem _ List.mem_cons_self)
  have hst : second ≠ third := fun h =>
    (List.nodup_cons.mp hrest).1 (h ▸ List.mem_cons_self)
  rcases List.suffix_or_suffix_of_suffix h (List.suffix_append init [first, second, third]) with
    hsub | hsub
  · rcases List.suffix_cons_iff.mp hsub with heq | hsub
    · obtain ⟨rfl, rfl⟩ := List.cons.inj heq
      exact iff_of_true rfl rfl
    rcases List.suffix_cons_iff.mp hsub with heq | hsub
    · obtain ⟨rfl, rfl⟩ := List.cons.inj heq
      exact iff_of_false (fun hhead => hst (Option.some.inj hhead).symm) hfs.symm
    rcases List.suffix_cons_iff.mp hsub with heq | hsub
    · obtain ⟨rfl, rfl⟩ := List.cons.inj heq
      exact iff_of_false (fun hhead => Option.some_ne_none _ hhead.symm) hft.symm
    · exact absurd (List.suffix_nil.mp hsub) (List.cons_ne_nil _ _)
  · rcases List.suffix_cons_iff.mp hsub with heq | ⟨between, rfl⟩
    · obtain ⟨rfl, rfl⟩ := List.cons.inj heq
      exact iff_of_true rfl rfl
    · -- both the element and the head of what follows it are then before the three
      obtain ⟨before, hbefore⟩ := h
      have hinit : before ++ x :: between = init := by
        rw [← List.cons_append, ← List.append_assoc] at hbefore
        exact List.append_cancel_right hbefore
      refine iff_of_false (fun hhead => ?_) fun heq => hfirst ?_
      · cases between with
        | nil => exact hfs (Option.some.inj hhead)
        | cons head tail =>
            obtain rfl : head = second := Option.some.inj hhead
            apply hsecond
            rw [← hinit]
            simp
      · rw [← hinit, ← heq]
        simp

/-- The index count is reset just before the slot moves on. -/
theorem diskBlock_head_of_suffix {step : ClearStep} {rest : List ClearStep}
    (h : step :: rest <:+ clearSteps cfg) : rest.head? = some .diskBlock ↔ step = .indexCount :=
  head_of_suffix h (by simp) (by simp) (by decide)

end IndexState

structure CountedStage where
  stage : IndexStage
  inserted : ℕ → ℕ
  late : ℕ → ℕ
  packetCounts : ℕ → List ℕ
  persisted : List PersistRecord

namespace CountedStage

variable (cfg : IndexConfig) (hash : StdHash) (std : StdSort) (st : CountedStage)

def init : CountedStage :=
  { stage := .init cfg
    inserted := fun _ => 0
    late := fun _ => 0
    packetCounts := fun _ => []
    persisted := [] }

/-- What there is to persist the block of a persister upon. -/
def persistRecord (threadId : ℕ) : PersistRecord :=
  let block := st.stage.held cfg (st.stage.index.checkId threadId)
  { visit := ⟨threadId, block⟩
    packetCounts := st.packetCounts (st.stage.index.getCheckDishID threadId)
    inserted := st.inserted block
    late := st.late (st.stage.index.checkId threadId) }

/-- The history after an insertion into a slot, by what it returned. -/
def recordInsert (next : IndexStage) (slot : ℕ) : Bool → CountedStage
  | true =>
      let block := st.stage.held cfg slot
      { st with
        stage := next
        inserted := Function.update st.inserted block (st.inserted block + 1)
        late :=
          if st.stage.Resetting cfg slot then Function.update st.late slot (st.late slot + 1)
          else st.late }
  | false => { st with stage := next }

/-- The history after a step of a persister, by where it was. -/
def recordPersister (next : IndexStage) (threadId : ℕ) : PersisterLoop → CountedStage
  | .persisting =>
      { st with
        stage := next
        persisted := st.persisted ++ [st.persistRecord cfg threadId] }
  | .clearing _ (.packetCount :: _) =>
      { st with
        stage := next
        packetCounts :=
          Function.update st.packetCounts (st.stage.index.getCheckDishID threadId) [] }
  | .clearing _ (.indexCount :: _) =>
      { st with
        stage := next
        late := Function.update st.late (st.stage.index.checkId threadId) 0 }
  | _ => { st with stage := next }

/-- The history after a step of the stage. -/
def record (next : IndexStage) : StageLabel → CountedStage
  | .insert flow position diskBlockId rxId =>
      st.recordInsert cfg next (diskBlockId % cfg.totalBlockNum)
        ((st.stage.insert cfg hash flow position diskBlockId rxId).any Prod.fst)
  | .setPacketCount diskBlockId packetCount =>
      { st with
        stage := next
        packetCounts := Function.update st.packetCounts diskBlockId
          (packetCount :: st.packetCounts diskBlockId) }
  | .persister threadId =>
      st.recordPersister cfg next threadId (st.stage.persisters threadId).loop
  | _ => { st with stage := next }

def step (st : CountedStage) (label : StageLabel) : Option CountedStage :=
  (st.stage.step cfg hash std label).map fun next => st.record cfg hash next label

/-- The index stage with the numbers it counts. -/
def system : TransitionSystem CountedStage StageLabel :=
  { init := init cfg, step := step cfg hash std }

/-- No record comes to a slot between the two writes. -/
def Apart (st : CountedStage) : StageLabel → Prop
  | .insert _ _ diskBlockId _ => ¬ st.stage.Resetting cfg (diskBlockId % cfg.totalBlockNum)
  | _ => True

instance (st : CountedStage) : DecidablePred (st.Apart cfg)
  | .insert .. => inferInstanceAs (Decidable (¬ _))
  | .setPacketCount .. | .recycleBlock _ | .stopPersister _ | .persister _ => .isTrue trivial

/-- What a persister knows of its block, by where it is. -/
def LoopCounted (threadId : ℕ) : Prop :=
  match (st.stage.persisters threadId).loop with
  | .counting packetCount =>
      0 < packetCount ∧ packetCount ∈ (st.persistRecord cfg threadId).packetCounts
  | .persisting => (st.persistRecord cfg threadId).Counted
  | _ => True

/-- The index counts are numbers of insertions, and the packet counts were handed over. -/
structure Counted : Prop where
  turns : st.stage.Turns cfg
  indexCount : ∀ slot < cfg.totalBlockNum, (st.stage.index.metas slot).indexCount =
    (if st.stage.Resetting cfg slot then 0 else st.inserted (st.stage.held cfg slot)) +
      st.late slot
  later : ∀ block, st.stage.held cfg (block % cfg.totalBlockNum) < block → st.inserted block = 0
  packetCount : ∀ diskBlockId, (st.stage.index.diskMetas diskBlockId).packetCount = 0 ∨
    (st.stage.index.diskMetas diskBlockId).packetCount ∈ st.packetCounts diskBlockId
  loop : ∀ threadId < cfg.checkThreadNum, st.LoopCounted cfg threadId
  visits : st.persisted.map PersistRecord.visit = st.stage.persists
  persisted : ∀ record ∈ st.persisted, record.Counted

variable {cfg hash std st} {next : CountedStage}

theorem counted_init (cfg : IndexConfig) : (init cfg).Counted cfg where
  turns := IndexStage.turns_init cfg
  indexCount _ _ := by
    rw [if_neg fun h => h.2]
    rfl
  later _ _ := rfl
  packetCount _ := .inl rfl
  loop _ _ := trivial
  visits := rfl
  persisted _ hmem := absurd hmem List.not_mem_nil

/-- A slot is at the block its index count belongs to, unless its persister says otherwise. -/
theorem resetting_eq (h : st.stage.Turns cfg) {threadId : ℕ}
    (hthread : threadId < cfg.checkThreadNum)
    (hcheckIds : next.stage.index.indexCheckIds = st.stage.index.indexCheckIds)
    (hothers : ∀ other ≠ threadId, next.stage.persisters other = st.stage.persisters other)
    (slot : ℕ) :
    next.stage.Resetting cfg slot ↔
      if slot = st.stage.index.checkId threadId then
        (next.stage.persisters threadId).loop.Resetting
      else st.stage.Resetting cfg slot := by
  have hcheckId : ∀ other, next.stage.index.checkId other = st.stage.index.checkId other := by
    intro other
    unfold IndexState.checkId
    rw [hcheckIds]
  unfold IndexStage.Resetting
  rw [hcheckId]
  by_cases hat : slot = st.stage.index.checkId threadId
  · rw [if_pos hat, h.mod_eq hthread hat.symm]
    simp only [hat, true_and]
  · rw [if_neg hat]
    by_cases howner : slot % cfg.checkThreadNum = threadId
    · rw [howner]
      exact iff_of_false (fun hreset => hat hreset.1.symm) fun hreset => hat hreset.1.symm
    · rw [hothers _ howner]

theorem resetting_checkId (h : st.stage.Turns cfg) {threadId : ℕ}
    (hthread : threadId < cfg.checkThreadNum) :
    st.stage.Resetting cfg (st.stage.index.checkId threadId) ↔
      (st.stage.persisters threadId).loop.Resetting := by
  have hself := @resetting_eq cfg st st h threadId hthread rfl (fun _ _ => rfl)
    (st.stage.index.checkId threadId)
  rwa [if_pos rfl] at hself

/-- What a persister knows depends on its loop, on its slot and on the numbers there. -/
theorem LoopCounted.of_same {threadId : ℕ} (h : st.LoopCounted cfg threadId)
    (hloop : (next.stage.persisters threadId).loop = (st.stage.persisters threadId).loop)
    (hcounts : ∀ packetCount ∈ (st.persistRecord cfg threadId).packetCounts,
      packetCount ∈ (next.persistRecord cfg threadId).packetCounts)
    (hinserted : (st.persistRecord cfg threadId).inserted + (st.persistRecord cfg threadId).late ≤
      (next.persistRecord cfg threadId).inserted + (next.persistRecord cfg threadId).late) :
    next.LoopCounted cfg threadId := by
  unfold LoopCounted at h ⊢
  rw [hloop]
  cases hat : (st.stage.persisters threadId).loop with
  | counting packetCount =>
      rw [hat] at h
      exact ⟨h.1, hcounts _ h.2⟩
  | persisting =>
      rw [hat] at h
      obtain ⟨packetCount, hmem, hpos, hle⟩ := h
      exact ⟨packetCount, hcounts _ hmem, hpos, hle.trans hinserted⟩
  | waiting | persisted | clearing newCol rest | left => trivial

/-- At a slot nobody resets, the index count is that of the insertions for its block, and of the
late ones. -/
theorem Counted.checkIndexCount (h : st.Counted cfg) {threadId : ℕ}
    (hthread : threadId < cfg.checkThreadNum)
    (hloop : ¬ (st.stage.persisters threadId).loop.Resetting) :
    st.stage.index.checkIndexCount threadId =
      (st.persistRecord cfg threadId).inserted + (st.persistRecord cfg threadId).late := by
  show (st.stage.index.metas (st.stage.index.checkId threadId)).indexCount = _
  rw [h.indexCount _ (h.turns.checkId_lt threadId),
    if_neg fun hreset => hloop ((resetting_checkId h.turns hthread).mp hreset)]
  rfl

theorem loopCounted_clearing {threadId newCol : ℕ} {rest : List ClearStep}
    (hloop : (st.stage.persisters threadId).loop = .clearing newCol rest) :
    st.LoopCounted cfg threadId := by
  unfold LoopCounted
  rw [hloop]
  trivial

namespace Counted

/-- Steps that change no number. -/
theorem of_same (h : st.Counted cfg) (hturns : next.stage.Turns cfg)
    (hindexCount : ∀ slot, (next.stage.index.metas slot).indexCount =
      (st.stage.index.metas slot).indexCount)
    (hpacketCount : ∀ diskBlockId, (next.stage.index.diskMetas diskBlockId).packetCount =
      (st.stage.index.diskMetas diskBlockId).packetCount)
    (hlaps : next.stage.laps = st.stage.laps)
    (hresetting : ∀ slot, next.stage.Resetting cfg slot ↔ st.stage.Resetting cfg slot)
    (hinserted : next.inserted = st.inserted) (hlate : next.late = st.late)
    (hcounts : next.packetCounts = st.packetCounts)
    (hloop : ∀ threadId < cfg.checkThreadNum, next.LoopCounted cfg threadId)
    (hvisits : next.persisted.map PersistRecord.visit = next.stage.persists)
    (hpersisted : ∀ record ∈ next.persisted, record.Counted) : next.Counted cfg := by
  have hheld : ∀ slot, next.stage.held cfg slot = st.stage.held cfg slot := by
    intro slot
    unfold IndexStage.held
    rw [hlaps]
  refine ⟨hturns, fun slot hslot => ?_, fun block hlater => ?_, fun diskBlockId => ?_, hloop,
    hvisits, hpersisted⟩
  · rw [hindexCount, h.indexCount slot hslot, hheld, hinserted, hlate]
    simp only [hresetting]
  · rw [hheld] at hlater
    rw [hinserted]
    exact h.later block hlater
  · rw [hpacketCount, hcounts]
    exact h.packetCount diskBlockId

/-- The numbers a persister looks at stay if its slot does. -/
theorem loop_of_same (h : st.Counted cfg) {threadId : ℕ} (hthread : threadId < cfg.checkThreadNum)
    (hpersister : next.stage.persisters threadId = st.stage.persisters threadId)
    (hcheckId : next.stage.index.checkId threadId = st.stage.index.checkId threadId)
    (hblock : next.stage.index.getCheckDishID threadId = st.stage.index.getCheckDishID threadId)
    (hheld : next.stage.held cfg (st.stage.index.checkId threadId) =
      st.stage.held cfg (st.stage.index.checkId threadId))
    (hinserted : ∀ block, st.inserted block ≤ next.inserted block)
    (hlate : st.late (st.stage.index.checkId threadId) ≤
      next.late (st.stage.index.checkId threadId))
    (hcounts : ∀ packetCount ∈ st.packetCounts (st.stage.index.getCheckDishID threadId),
      packetCount ∈ next.packetCounts (st.stage.index.getCheckDishID threadId)) :
    next.LoopCounted cfg threadId := by
  refine (h.loop threadId hthread).of_same (by rw [hpersister]) ?_ ?_
  · show ∀ packetCount ∈ _, packetCount ∈ next.packetCounts _
    rw [hblock]
    exact hcounts
  · show _ + _ ≤ next.inserted (next.stage.held cfg (next.stage.index.checkId threadId)) +
      next.late (next.stage.index.checkId threadId)
    rw [hcheckId, hheld]
    exact Nat.add_le_add (hinserted _) hlate

/-- A persister goes on, and neither the numbers nor the slots do. -/
theorem persister_same (h : st.Counted cfg) {threadId : ℕ}
    (hthread : threadId < cfg.checkThreadNum)
    (hturns : next.stage.Turns cfg)
    (hcheckIds : next.stage.index.indexCheckIds = st.stage.index.indexCheckIds)
    (hmetas : ∀ slot, (next.stage.index.metas slot).diskBlockId =
        (st.stage.index.metas slot).diskBlockId ∧
      (next.stage.index.metas slot).indexCount = (st.stage.index.metas slot).indexCount)
    (hpacketCount : ∀ diskBlockId, (next.stage.index.diskMetas diskBlockId).packetCount =
      (st.stage.index.diskMetas diskBlockId).packetCount)
    (hlaps : next.stage.laps = st.stage.laps)
    (hothers : ∀ other ≠ threadId, next.stage.persisters other = st.stage.persisters other)
    (hresetting : (next.stage.persisters threadId).loop.Resetting ↔
      (st.stage.persisters threadId).loop.Resetting)
    (hinserted : next.inserted = st.inserted) (hlate : next.late = st.late)
    (hcounts : next.packetCounts = st.packetCounts) (hloop : next.LoopCounted cfg threadId)
    (hvisits : next.persisted.map PersistRecord.visit = next.stage.persists)
    (hpersisted : ∀ record ∈ next.persisted, record.Counted) : next.Counted cfg := by
  have hcheckId : ∀ other, next.stage.index.checkId other = st.stage.index.checkId other := by
    intro other
    unfold IndexState.checkId
    rw [hcheckIds]
  refine h.of_same hturns (fun slot => (hmetas slot).2) hpacketCount hlaps (fun slot => ?_)
    hinserted hlate hcounts (fun other hlt => ?_) hvisits hpersisted
  · rw [resetting_eq h.turns hthread hcheckIds hothers slot]
    split_ifs with hat
    · rw [hresetting, hat, resetting_checkId h.turns hthread]
    · exact Iff.rfl
  · by_cases hsame : other = threadId
    · rw [hsame]
      exact hloop
    · refine h.loop_of_same hlt (hothers other hsame) (hcheckId other) ?_ ?_ ?_ ?_ ?_
      · show (next.stage.index.metas (next.stage.index.checkId other)).diskBlockId = _
        rw [hcheckId, (hmetas _).1]
        rfl
      · unfold IndexStage.held
        rw [hlaps]
      · intro block
        rw [hinserted]
      · rw [hlate]
      · rw [hcounts]
        exact fun _ hmem => hmem

/-- A step of a persister in its loop. -/
theorem setLoop (h : st.Counted cfg) {threadId : ℕ} (hthread : threadId < cfg.checkThreadNum)
    {loop : PersisterLoop} (hpending : loop.Pending ↔ (st.stage.persisters threadId).loop.Pending)
    (hrest : ∀ newCol rest, loop = .clearing newCol rest → rest <:+ IndexState.clearSteps cfg)
    (hresetting : loop.Resetting ↔ (st.stage.persisters threadId).loop.Resetting)
    (hloop : LoopCounted cfg { st with stage := st.stage.setLoop threadId loop } threadId) :
    Counted cfg { st with stage := st.stage.setLoop threadId loop } := by
  refine h.persister_same hthread (h.turns.setLoop hpending hrest rfl (fun _ => rfl) rfl) rfl
    (fun _ => ⟨rfl, rfl⟩) (fun _ => rfl) rfl (IndexStage.Turns.setLoop_others _ _ _) ?_ rfl rfl rfl
    hloop h.visits h.persisted
  show ((st.stage.setLoop threadId loop).persisters threadId).loop.Resetting ↔ _
  rw [IndexStage.Turns.setLoop_loop, hresetting]

/-- What a persister that was waiting reads was handed over, and is not 0. -/
theorem counting (h : st.Counted cfg) {threadId packetCount : ℕ}
    (hthread : threadId < cfg.checkThreadNum)
    (hloop : (st.stage.persisters threadId).loop = .waiting)
    (hread : (st.stage.index.diskMetas (st.stage.index.getCheckDishID threadId)).packetCount =
      packetCount) (hpos : packetCount ≠ 0) :
    Counted cfg { st with stage := st.stage.setLoop threadId (.counting packetCount) } := by
  refine h.setLoop hthread (hloop ▸ Iff.rfl) (fun _ _ hne => PersisterLoop.noConfusion hne)
    (hloop ▸ Iff.rfl) ?_
  unfold LoopCounted
  rw [IndexStage.Turns.setLoop_loop]
  refine ⟨Nat.pos_of_ne_zero hpos, ?_⟩
  show packetCount ∈ st.packetCounts (st.stage.index.getCheckDishID threadId)
  have hcount := h.packetCount (st.stage.index.getCheckDishID threadId)
  rw [hread] at hcount
  exact hcount.resolve_left hpos

/-- The index count it waits for is a number of insertions. -/
theorem persisting (h : st.Counted cfg) {threadId packetCount : ℕ}
    (hthread : threadId < cfg.checkThreadNum)
    (hloop : (st.stage.persisters threadId).loop = .counting packetCount)
    (hle : packetCount ≤ st.stage.index.checkIndexCount threadId) :
    Counted cfg { st with stage := st.stage.setLoop threadId .persisting } := by
  have hknown := h.loop threadId hthread
  have hcount := h.checkIndexCount hthread (show ¬ (st.stage.persisters threadId).loop.Resetting by
    rw [hloop]
    exact id)
  unfold LoopCounted at hknown
  rw [hloop] at hknown
  refine h.setLoop hthread (hloop ▸ Iff.rfl) (fun _ _ hne => PersisterLoop.noConfusion hne)
    (hloop ▸ Iff.rfl) ?_
  unfold LoopCounted
  rw [IndexStage.Turns.setLoop_loop]
  rw [hcount] at hle
  exact ⟨packetCount, hknown.2, hknown.1, hle⟩

/-- The block is persisted upon what its persister knows of it. -/
theorem persistMeta (h : st.Counted cfg) {threadId : ℕ} {stage : IndexStage}
    (hthread : threadId < cfg.checkThreadNum)
    (hloop : (st.stage.persisters threadId).loop = .persisting)
    (hpersist : st.stage.persistMeta cfg std threadId = some stage) :
    Counted cfg { st with
      stage
      persisted := st.persisted ++ [st.persistRecord cfg threadId] } := by
  have hturns := h.turns.persistMeta hthread hloop hpersist
  have hknown := h.loop threadId hthread
  unfold LoopCounted at hknown
  rw [hloop] at hknown
  obtain ⟨index, hindex, rfl⟩ := Option.map_eq_some_iff.mp hpersist
  have hpersisted := IndexState.persisted_of_persistMeta hindex
  have hself := IndexStage.Turns.setLoop_loop st.stage threadId .persisted
  refine h.persister_same hthread hturns hpersisted.indexCheckIds (fun slot => ?_)
    hpersisted.packetCount rfl (IndexStage.Turns.setLoop_others _ _ _) ?_ rfl rfl rfl ?_ ?_ ?_
  · show (index.metas slot).diskBlockId = _ ∧ (index.metas slot).indexCount = _
    rw [hpersisted.metas]
    exact ⟨rfl, rfl⟩
  · show ((st.stage.setLoop threadId .persisted).persisters threadId).loop.Resetting ↔ _
    rw [hself, hloop]
    exact Iff.rfl
  · show match ((st.stage.setLoop threadId .persisted).persisters threadId).loop with
      | .counting _ => _
      | .persisting => _
      | _ => True
    rw [hself]
    trivial
  · rw [List.map_append, h.visits]
    rfl
  · intro record hmem
    rcases List.mem_append.mp hmem with hold | hnew
    · exact h.persisted record hold
    · rw [List.mem_singleton.mp hnew]
      exact hknown

/-! ### The writes of `clearMeta` -/

/-- Those to the Bloom filter and to the pools. -/
theorem clear_rest (h : st.Counted cfg) {threadId newCol : ℕ} {step : ClearStep}
    {rest : List ClearStep} (hthread : threadId < cfg.checkThreadNum)
    (hloop : (st.stage.persisters threadId).loop = .clearing newCol (step :: rest))
    (hstep : step = .column ∨ step = .writingCol ∨ ∃ rxId, step = .pool rxId) :
    Counted cfg { st with stage := st.stage.clear cfg threadId newCol step rest } := by
  have hblock : step ≠ .diskBlock := by
    rcases hstep with rfl | rfl | ⟨rxId, rfl⟩ <;> exact ClearStep.noConfusion
  have hcheckId : step ≠ .checkId := by
    rcases hstep with rfl | rfl | ⟨rxId, rfl⟩ <;> exact ClearStep.noConfusion
  have hcount : step ≠ .indexCount := by
    rcases hstep with rfl | rfl | ⟨rxId, rfl⟩ <;> exact ClearStep.noConfusion
  have hclear : st.stage.clear cfg threadId newCol step rest =
      { st.stage.setLoop threadId (.clearing newCol rest) with
        index := st.stage.index.clearStep cfg threadId newCol step } := if_neg hblock
  have hindexCount : ∀ slot,
      ((st.stage.index.clearStep cfg threadId newCol step).metas slot).indexCount =
        (st.stage.index.metas slot).indexCount := by
    intro slot
    rcases hstep with rfl | rfl | ⟨rxId, rfl⟩
    · rfl
    · show (Function.update st.stage.index.metas (st.stage.index.checkId threadId) _
        slot).indexCount = _
      by_cases hat : slot = st.stage.index.checkId threadId
      · rw [hat, Function.update_self]
      · rw [Function.update_of_ne hat]
    · rfl
  have hself := IndexStage.Turns.setLoop_loop st.stage threadId (.clearing newCol rest)
  have hturns := h.turns.clear_of_ne hloop hblock hcheckId
  rw [hclear] at hturns ⊢
  refine h.persister_same hthread hturns ?_ (fun slot => ⟨?_, hindexCount slot⟩) (fun _ => ?_) rfl
    (IndexStage.Turns.setLoop_others _ _ _) ?_ rfl rfl rfl (loopCounted_clearing hself) h.visits
    h.persisted
  · rcases hstep with rfl | rfl | ⟨rxId, rfl⟩ <;> rfl
  · exact IndexState.clearStep_diskBlockId threadId newCol hblock slot
  · rcases hstep with rfl | rfl | ⟨rxId, rfl⟩ <;> rfl
  · show ((st.stage.setLoop threadId (.clearing newCol rest)).persisters
      threadId).loop.Resetting ↔ _
    rw [hself, hloop]
    refine iff_of_false (fun hhead => hcount ?_) fun hhead => hblock (Option.some.inj hhead)
    exact (IndexState.diskBlock_head_of_suffix (h.turns.rest _ _ _ hloop)).mp hhead

/-- Nobody else is at the disk block whose packet count is reset. -/
theorem clear_packetCount (h : st.Counted cfg) {threadId newCol : ℕ} {rest : List ClearStep}
    (hthread : threadId < cfg.checkThreadNum)
    (hloop : (st.stage.persisters threadId).loop = .clearing newCol (.packetCount :: rest)) :
    Counted cfg { st with
      stage := st.stage.clear cfg threadId newCol .packetCount rest
      packetCounts :=
        Function.update st.packetCounts (st.stage.index.getCheckDishID threadId) [] } := by
  have hturns := h.turns.clear_of_ne hloop ClearStep.noConfusion ClearStep.noConfusion
  have hread := fun diskBlockId => @IndexState.setPacketCount_packetCount cfg st.stage.index
    (st.stage.index.getCheckDishID threadId) 0 diskBlockId
  have hlt : st.stage.index.getCheckDishID threadId < cfg.diskBlockNum := by
    show (st.stage.index.metas _).diskBlockId < _
    rw [h.turns.block _ (h.turns.checkId_lt threadId)]
    exact Nat.mod_lt _ cfg.diskBlockNum_pos
  obtain ⟨diskMetas, hset⟩ :=
    @IndexState.setPacketCount_rest cfg st.stage.index (st.stage.index.getCheckDishID threadId) 0
  have hclear : st.stage.clear cfg threadId newCol .packetCount rest =
      { st.stage.setLoop threadId (.clearing newCol rest) with
        index := { st.stage.index with diskMetas } } := by
    show { st.stage.setLoop threadId (.clearing newCol rest) with
      index := st.stage.index.setPacketCount cfg (st.stage.index.getCheckDishID threadId) 0 } = _
    rw [hset]
  rw [hset] at hread
  rw [hclear] at hturns ⊢
  have hself := IndexStage.Turns.setLoop_loop st.stage threadId (.clearing newCol rest)
  have hothers := IndexStage.Turns.setLoop_others st.stage threadId (.clearing newCol rest)
  refine ⟨hturns, fun slot hslot => ?_, h.later, fun diskBlockId => ?_, fun other hother => ?_,
    h.visits, h.persisted⟩
  · have hreset := @resetting_eq cfg st { st with
      stage := { st.stage.setLoop threadId (.clearing newCol rest) with
        index := { st.stage.index with diskMetas } } } h.turns threadId hthread rfl hothers slot
    have hsame : (IndexStage.Resetting cfg { st.stage.setLoop threadId (.clearing newCol rest) with
        index := { st.stage.index with diskMetas } } slot) ↔ st.stage.Resetting cfg slot := by
      rw [hreset]
      split_ifs with hat
      · rw [hat, resetting_checkId h.turns hthread, hloop]
        show ((st.stage.setLoop threadId (.clearing newCol rest)).persisters
          threadId).loop.Resetting ↔ _
        rw [hself]
        refine iff_of_false (fun hhead => ?_) fun hhead =>
          ClearStep.noConfusion (Option.some.inj hhead)
        exact ClearStep.noConfusion
          ((IndexState.diskBlock_head_of_suffix (h.turns.rest _ _ _ hloop)).mp hhead)
      · exact Iff.rfl
    show (st.stage.index.metas slot).indexCount = _
    rw [h.indexCount slot hslot]
    simp only [hsame]
    rfl
  · show (diskMetas diskBlockId).packetCount = 0 ∨
      (diskMetas diskBlockId).packetCount ∈ Function.update st.packetCounts _ [] diskBlockId
    have hcount := hread diskBlockId hlt
    by_cases hat : diskBlockId = st.stage.index.getCheckDishID threadId
    · rw [if_pos hat] at hcount
      exact .inl hcount
    · rw [if_neg hat] at hcount
      rw [Function.update_of_ne hat, hcount]
      exact h.packetCount diskBlockId
  · by_cases hsame : other = threadId
    · rw [hsame]
      exact loopCounted_clearing hself
    · have hapart : st.stage.index.getCheckDishID other ≠
          st.stage.index.getCheckDishID threadId := by
        intro heq
        apply hsame
        apply h.turns.exclusive hother hthread
        rw [← h.turns.getCheckDishID_mod, ← h.turns.getCheckDishID_mod, heq]
      refine h.loop_of_same hother (hothers other hsame) rfl rfl rfl (fun _ => le_rfl) le_rfl
        fun packetCount hmem => ?_
      show packetCount ∈ Function.update st.packetCounts _ [] _
      rw [Function.update_of_ne hapart]
      exact hmem

/-- From here on the slot counts for its next block. -/
theorem clear_indexCount (h : st.Counted cfg) {threadId newCol : ℕ} {rest : List ClearStep}
    (hthread : threadId < cfg.checkThreadNum)
    (hloop : (st.stage.persisters threadId).loop = .clearing newCol (.indexCount :: rest)) :
    Counted cfg { st with
      stage := st.stage.clear cfg threadId newCol .indexCount rest
      late := Function.update st.late (st.stage.index.checkId threadId) 0 } := by
  have hturns := h.turns.clear_of_ne hloop ClearStep.noConfusion ClearStep.noConfusion
  have hself := IndexStage.Turns.setLoop_loop st.stage threadId (.clearing newCol rest)
  have hothers := IndexStage.Turns.setLoop_others st.stage threadId (.clearing newCol rest)
  have hreset := @resetting_eq cfg st
    { st with stage := st.stage.clear cfg threadId newCol .indexCount rest } h.turns threadId
    hthread rfl hothers
  have hhead : ((st.stage.clear cfg threadId newCol .indexCount rest).persisters
      threadId).loop.Resetting := by
    show ((st.stage.setLoop threadId (.clearing newCol rest)).persisters threadId).loop.Resetting
    rw [hself]
    exact (IndexState.diskBlock_head_of_suffix (h.turns.rest _ _ _ hloop)).mpr rfl
  refine ⟨hturns, fun slot hslot => ?_, h.later, h.packetCount, fun other hother => ?_, h.visits,
    h.persisted⟩
  · show (Function.update st.stage.index.metas (st.stage.index.checkId threadId) _
      slot).indexCount = _ + Function.update st.late (st.stage.index.checkId threadId) 0 slot
    by_cases hat : slot = st.stage.index.checkId threadId
    · rw [hat, Function.update_self, Function.update_self,
        if_pos ((hreset _).mpr (by rw [if_pos rfl]; exact hhead))]
    · rw [Function.update_of_ne hat, Function.update_of_ne hat, h.indexCount slot hslot]
      have hsame := hreset slot
      rw [if_neg hat] at hsame
      simp only [hsame]
      rfl
  · by_cases hsame : other = threadId
    · rw [hsame]
      exact loopCounted_clearing hself
    · have hat : st.stage.index.checkId other ≠ st.stage.index.checkId threadId :=
        fun heq => hsame (h.turns.exclusive hother hthread heq)
      refine h.loop_of_same hother (hothers other hsame) rfl ?_ rfl (fun _ => le_rfl) ?_
        fun _ hmem => hmem
      · show (Function.update st.stage.index.metas (st.stage.index.checkId threadId) _
          (st.stage.index.checkId other)).diskBlockId = _
        rw [Function.update_of_ne hat]
        rfl
      · show _ ≤ Function.update st.late (st.stage.index.checkId threadId) 0 _
        rw [Function.update_of_ne hat]

/-- Nothing has been inserted for the block the slot moves on to. -/
theorem clear_diskBlock (h : st.Counted cfg) {threadId newCol : ℕ} {rest : List ClearStep}
    (hthread : threadId < cfg.checkThreadNum)
    (hloop : (st.stage.persisters threadId).loop = .clearing newCol (.diskBlock :: rest)) :
    Counted cfg { st with stage := st.stage.clear cfg threadId newCol .diskBlock rest } := by
  have hturns := h.turns.clear_diskBlock hthread hloop
  have hself := IndexStage.Turns.setLoop_loop st.stage threadId (.clearing newCol rest)
  have hothers := IndexStage.Turns.setLoop_others st.stage threadId (.clearing newCol rest)
  have hslot := h.turns.checkId_lt threadId
  have hreset := @resetting_eq cfg st
    { st with stage := st.stage.clear cfg threadId newCol .diskBlock rest } h.turns threadId
    hthread rfl hothers
  have hhead : ¬ ((st.stage.clear cfg threadId newCol .diskBlock rest).persisters
      threadId).loop.Resetting := by
    show ¬ ((st.stage.setLoop threadId (.clearing newCol rest)).persisters threadId).loop.Resetting
    rw [hself]
    intro hhead
    exact ClearStep.noConfusion
      ((IndexState.diskBlock_head_of_suffix (h.turns.rest _ _ _ hloop)).mp hhead)
  have hheld : ∀ slot, (st.stage.clear cfg threadId newCol .diskBlock rest).held cfg slot =
      st.stage.held cfg slot +
        if slot = st.stage.index.checkId threadId then cfg.totalBlockNum else 0 := by
    intro slot
    show slot + cfg.totalBlockNum *
      Function.update st.stage.laps (st.stage.index.checkId threadId) _ slot = _
    by_cases hat : slot = st.stage.index.checkId threadId
    · rw [hat, Function.update_self, if_pos rfl, Nat.mul_succ, ← Nat.add_assoc]
      rfl
    · rw [Function.update_of_ne hat, if_neg hat]
      rfl
  refine ⟨hturns, fun slot hlt => ?_, fun block hlater => ?_, h.packetCount,
    fun other hother => ?_, h.visits, h.persisted⟩
  · show (Function.update st.stage.index.metas (st.stage.index.checkId threadId) _ slot).indexCount
      = (if IndexStage.Resetting cfg (st.stage.clear cfg threadId newCol .diskBlock rest) slot
        then 0 else st.inserted
          ((st.stage.clear cfg threadId newCol .diskBlock rest).held cfg slot)) + st.late slot
    by_cases hat : slot = st.stage.index.checkId threadId
    · have hcount := h.indexCount _ hslot
      rw [if_pos ((resetting_checkId h.turns hthread).mpr (by rw [hloop]; rfl))] at hcount
      have hnext : st.inserted (st.stage.held cfg (st.stage.index.checkId threadId) +
          cfg.totalBlockNum) = 0 := by
        apply h.later
        rw [Nat.add_mod_right, IndexStage.held_mod hslot]
        exact Nat.lt_add_of_pos_right cfg.totalBlockNum_pos
      rw [hat, Function.update_self, hheld, if_pos rfl, hnext, ite_self]
      exact hcount
    · have hsame := hreset slot
      rw [if_neg hat] at hsame
      rw [Function.update_of_ne hat, h.indexCount slot hlt, hheld, if_neg hat, Nat.add_zero]
      simp only [hsame]
  · apply h.later
    have hle : st.stage.held cfg (block % cfg.totalBlockNum) ≤
        (st.stage.clear cfg threadId newCol .diskBlock rest).held cfg
          (block % cfg.totalBlockNum) := by
      rw [hheld]
      exact Nat.le_add_right _ _
    exact hle.trans_lt hlater
  · by_cases hsame : other = threadId
    · rw [hsame]
      exact loopCounted_clearing hself
    · have hat : st.stage.index.checkId other ≠ st.stage.index.checkId threadId :=
        fun heq => hsame (h.turns.exclusive hother hthread heq)
      refine h.loop_of_same hother (hothers other hsame) rfl ?_ ?_ (fun _ => le_rfl) le_rfl
        fun _ hmem => hmem
      · show (Function.update st.stage.index.metas (st.stage.index.checkId threadId) _
          (st.stage.index.checkId other)).diskBlockId = _
        rw [Function.update_of_ne hat]
        rfl
      · show (st.stage.clear cfg threadId newCol .diskBlock rest).held cfg _ = _
        rw [hheld, if_neg hat, Nat.add_zero]

/-- The slot the persister leaves and the one it comes to are both at rest. -/
theorem clear_checkId (h : st.Counted cfg) (hdvd : cfg.checkThreadNum ∣ cfg.totalBlockNum)
    {threadId newCol : ℕ} {rest : List ClearStep} (hthread : threadId < cfg.checkThreadNum)
    (hloop : (st.stage.persisters threadId).loop = .clearing newCol (.checkId :: rest)) :
    Counted cfg { st with stage := st.stage.clear cfg threadId newCol .checkId rest } := by
  have hturns := h.turns.clear_checkId hdvd hthread hloop
  have hself := IndexStage.Turns.setLoop_loop st.stage threadId (.clearing newCol rest)
  have hothers := IndexStage.Turns.setLoop_others st.stage threadId (.clearing newCol rest)
  have hbefore : ¬ (st.stage.persisters threadId).loop.Resetting := by
    rw [hloop]
    exact fun hhead => ClearStep.noConfusion (Option.some.inj hhead)
  have hafter : ¬ ((st.stage.clear cfg threadId newCol .checkId rest).persisters
      threadId).loop.Resetting := by
    show ¬ ((st.stage.setLoop threadId (.clearing newCol rest)).persisters threadId).loop.Resetting
    rw [hself]
    intro hhead
    exact ClearStep.noConfusion
      ((IndexState.diskBlock_head_of_suffix (h.turns.rest _ _ _ hloop)).mp hhead)
  have hcheckId : ∀ other ≠ threadId,
      (st.stage.clear cfg threadId newCol .checkId rest).index.checkId other =
        st.stage.index.checkId other := by
    intro other hne
    show (st.stage.index.indexCheckIds.set threadId _).getD other 0 = _
    rw [List.getD_eq_getElem?_getD, List.getElem?_set_ne (Ne.symm hne),
      ← List.getD_eq_getElem?_getD]
    rfl
  refine h.of_same hturns (fun _ => rfl) (fun _ => rfl) rfl (fun slot => ?_) rfl rfl rfl
    (fun other hother => ?_) h.visits h.persisted
  · unfold IndexStage.Resetting
    by_cases howner : slot % cfg.checkThreadNum = threadId
    · rw [howner]
      exact iff_of_false (fun hreset => hafter hreset.2) fun hreset => hbefore hreset.2
    · show _ ∧ ((st.stage.setLoop threadId (.clearing newCol rest)).persisters _).loop.Resetting ↔ _
      rw [hcheckId _ howner, hothers _ howner]
  · by_cases hsame : other = threadId
    · rw [hsame]
      exact loopCounted_clearing hself
    · refine h.loop_of_same hother (hothers other hsame) (hcheckId other hsame) ?_ rfl
        (fun _ => le_rfl) le_rfl fun _ hmem => hmem
      show (st.stage.index.metas _).diskBlockId = _
      rw [hcheckId other hsame]
      rfl

/-! ### Steps -/

/-- A record counts for its slot, and for the block the slot is at unless it is late. -/
theorem insert (h : st.Counted cfg) {flow : FlowMetadata} {position diskBlockId rxId : ℕ}
    {done : Bool} {stage : IndexStage}
    (hinsert : st.stage.insert cfg hash flow position diskBlockId rxId = some (done, stage)) :
    (st.recordInsert cfg stage (diskBlockId % cfg.totalBlockNum) done).Counted cfg := by
  have hturns := h.turns.insert hinsert
  obtain ⟨⟨_, index⟩, hindex, hnext⟩ := Option.map_eq_some_iff.mp hinsert
  obtain ⟨rfl, rfl⟩ := Prod.mk.inj hnext
  rcases IndexState.insert_cases hindex with ⟨rfl, bitmap, rfl, -⟩ | ⟨rfl, hinserted⟩
  · exact ⟨hturns, h.indexCount, h.later, h.packetCount, h.loop, h.visits, h.persisted⟩
  set target := diskBlockId % cfg.totalBlockNum with htarget
  have hslot : target < cfg.totalBlockNum := Nat.mod_lt _ cfg.totalBlockNum_pos
  obtain ⟨hcheckIds, hdiskMetas, -⟩ := hinserted.rest
  have hcheckId : ∀ other, index.checkId other = st.stage.index.checkId other := by
    intro other
    unfold IndexState.checkId
    rw [hcheckIds]
  have hblock : ∀ slot,
      (index.metas slot).diskBlockId = (st.stage.index.metas slot).diskBlockId := by
    intro slot
    rw [hinserted.metas]
    by_cases hat : slot = target
    · rw [hat, Function.update_self]
    · rw [Function.update_of_ne hat]
  have hresetting : ∀ records slot,
      IndexStage.Resetting cfg { st.stage with index, records } slot ↔
        st.stage.Resetting cfg slot := by
    intro records slot
    show index.checkId _ = slot ∧ _ ↔ _
    rw [hcheckId]
    exact Iff.rfl
  set block := st.stage.held cfg target with hheld
  have hmore : ∀ other, st.inserted other ≤
      Function.update st.inserted block (st.inserted block + 1) other := by
    intro other
    by_cases hsame : other = block
    · rw [hsame, Function.update_self]
      exact Nat.le_succ _
    · rw [Function.update_of_ne hsame]
  have hlater : ∀ other, st.late other ≤
      (if st.stage.Resetting cfg target then Function.update st.late target (st.late target + 1)
        else st.late) other := by
    intro other
    split_ifs
    · by_cases hsame : other = target
      · rw [hsame, Function.update_self]
        exact Nat.le_succ _
      · rw [Function.update_of_ne hsame]
    · exact le_rfl
  refine ⟨hturns, fun slot hlt => ?_, fun other hfar => ?_, fun other => ?_,
    fun threadId hthread => ?_, h.visits, h.persisted⟩
  · show (index.metas slot).indexCount =
      (if IndexStage.Resetting cfg { st.stage with index, records := _ } slot then 0
        else Function.update st.inserted block (st.inserted block + 1) (st.stage.held cfg slot)) +
      (if st.stage.Resetting cfg target then Function.update st.late target (st.late target + 1)
        else st.late) slot
    simp only [hresetting]
    rw [hinserted.metas]
    by_cases hat : slot = target
    · have hcount := h.indexCount target hslot
      rw [← hheld] at hcount
      rw [← htarget, hat, Function.update_self, ← hheld, Function.update_self]
      show _ + 1 = _
      split_ifs at hcount ⊢
      · rw [Function.update_self]
        omega
      · omega
    · have hne : st.stage.held cfg slot ≠ block := by
        intro heq
        apply hat
        rw [← @IndexStage.held_mod cfg st.stage slot hlt, heq, hheld, IndexStage.held_mod hslot]
      have hsame : (if st.stage.Resetting cfg target then
          Function.update st.late target (st.late target + 1) else st.late) slot =
            st.late slot := by
        split_ifs
        · rw [Function.update_of_ne hat]
        · rfl
      rw [Function.update_of_ne hat, Function.update_of_ne hne, hsame]
      exact h.indexCount slot hlt
  · have hne : other ≠ block := by
      rintro rfl
      rw [hheld, IndexStage.held_mod hslot] at hfar
      exact lt_irrefl _ hfar
    show Function.update st.inserted block (st.inserted block + 1) other = 0
    rw [Function.update_of_ne hne]
    exact h.later other hfar
  · show (index.diskMetas other).packetCount = 0 ∨
      (index.diskMetas other).packetCount ∈ st.packetCounts other
    rw [hdiskMetas]
    exact h.packetCount other
  · refine h.loop_of_same hthread rfl (hcheckId threadId) ?_ rfl hmore (hlater _)
      fun _ hmem => hmem
    show (index.metas (index.checkId threadId)).diskBlockId = _
    rw [hcheckId, hblock]
    rfl

theorem setPacketCount (h : st.Counted cfg) (diskBlockId packetCount : ℕ) :
    (st.record cfg hash
      { st.stage with index := st.stage.index.setPacketCount cfg diskBlockId packetCount }
      (.setPacketCount diskBlockId packetCount)).Counted cfg := by
  have hread := fun other =>
    @IndexState.setPacketCount_packetCount cfg st.stage.index diskBlockId packetCount other
  have hout : ¬ diskBlockId < cfg.diskBlockNum →
      st.stage.index.setPacketCount cfg diskBlockId packetCount = st.stage.index := fun hnot =>
    if_neg hnot
  obtain ⟨diskMetas, hset⟩ :=
    @IndexState.setPacketCount_rest cfg st.stage.index diskBlockId packetCount
  rw [hset] at hread hout ⊢
  have hmore : ∀ {other count}, count ∈ st.packetCounts other →
      count ∈ Function.update st.packetCounts diskBlockId
        (packetCount :: st.packetCounts diskBlockId) other := by
    intro other count hmem
    by_cases hat : other = diskBlockId
    · rw [hat] at hmem ⊢
      rw [Function.update_self]
      exact List.mem_cons_of_mem _ hmem
    · rwa [Function.update_of_ne hat]
  refine ⟨h.turns.of_same rfl (fun _ => rfl) rfl rfl rfl (fun _ => Iff.rfl) h.turns.rest,
    h.indexCount, h.later, fun other => ?_, fun threadId hthread => ?_, h.visits, h.persisted⟩
  · show (diskMetas other).packetCount = 0 ∨ (diskMetas other).packetCount ∈ _
    by_cases hlt : diskBlockId < cfg.diskBlockNum
    · have hcount := hread other hlt
      by_cases hat : other = diskBlockId
      · rw [if_pos hat] at hcount
        right
        show (diskMetas other).packetCount ∈ Function.update st.packetCounts diskBlockId _ other
        rw [hat, Function.update_self]
        rw [hat] at hcount
        exact hcount ▸ List.mem_cons_self
      · rw [if_neg hat] at hcount
        rw [hcount]
        exact (h.packetCount other).imp_right hmore
    · have hsame : diskMetas = st.stage.index.diskMetas := congrArg IndexState.diskMetas (hout hlt)
      rw [hsame]
      exact (h.packetCount other).imp_right hmore
  · exact h.loop_of_same hthread rfl rfl rfl rfl (fun _ => le_rfl) le_rfl fun _ hmem => hmore hmem

/-- Each step of a persister is one of those above. -/
theorem persister (h : st.Counted cfg) (hdvd : cfg.checkThreadNum ∣ cfg.totalBlockNum)
    {threadId : ℕ} {stage : IndexStage} (hthread : threadId < cfg.checkThreadNum)
    (hstep : st.stage.persister cfg std threadId = some stage) :
    (st.record cfg hash stage (.persister threadId)).Counted cfg := by
  show (st.recordPersister cfg stage threadId (st.stage.persisters threadId).loop).Counted cfg
  unfold IndexStage.persister at hstep
  cases hloop : (st.stage.persisters threadId).loop with
  | waiting =>
      rw [hloop] at hstep
      simp only at hstep
      split_ifs at hstep with hstop hzero
      · obtain rfl := Option.some.inj hstep
        refine h.setLoop hthread (hloop ▸ Iff.rfl) (fun _ _ hne => PersisterLoop.noConfusion hne)
          (hloop ▸ Iff.rfl) ?_
        unfold LoopCounted
        rw [IndexStage.Turns.setLoop_loop]
        trivial
      · obtain rfl := Option.some.inj hstep
        exact h
      · obtain rfl := Option.some.inj hstep
        exact h.counting hthread hloop rfl hzero
  | counting packetCount =>
      rw [hloop] at hstep
      simp only at hstep
      split_ifs at hstep with hless
      · obtain rfl := Option.some.inj hstep
        exact h
      · obtain rfl := Option.some.inj hstep
        exact h.persisting hthread hloop (not_lt.mp hless)
  | persisting =>
      rw [hloop] at hstep
      exact h.persistMeta hthread hloop hstep
  | persisted =>
      rw [hloop] at hstep
      obtain rfl := Option.some.inj hstep
      refine h.setLoop hthread (iff_of_true ?_ (hloop ▸ trivial)) (fun _ _ hclearing => ?_)
        (iff_of_false (fun hhead => ClearStep.noConfusion (Option.some.inj hhead))
          (hloop ▸ id)) (loopCounted_clearing (IndexStage.Turns.setLoop_loop _ _ _))
      · show ClearStep.diskBlock ∈ IndexState.clearSteps cfg
        simp [IndexState.clearSteps]
      · obtain ⟨-, rfl⟩ := PersisterLoop.clearing.inj hclearing
        exact List.suffix_refl _
  | clearing newCol steps =>
      rw [hloop] at hstep
      cases steps with
      | nil =>
          obtain rfl := Option.some.inj hstep
          refine h.setLoop hthread (iff_of_false id (hloop ▸ List.not_mem_nil))
            (fun _ _ hne => PersisterLoop.noConfusion hne)
            (iff_of_false id (hloop ▸ fun hhead => Option.some_ne_none _ hhead.symm)) ?_
          unfold LoopCounted
          rw [IndexStage.Turns.setLoop_loop]
          trivial
      | cons step rest =>
          obtain rfl := Option.some.inj hstep
          cases step with
          | packetCount => exact h.clear_packetCount hthread hloop
          | column => exact h.clear_rest hthread hloop (.inl rfl)
          | writingCol => exact h.clear_rest hthread hloop (.inr (.inl rfl))
          | pool rxId => exact h.clear_rest hthread hloop (.inr (.inr ⟨rxId, rfl⟩))
          | indexCount => exact h.clear_indexCount hthread hloop
          | diskBlock => exact h.clear_diskBlock hthread hloop
          | checkId => exact h.clear_checkId hdvd hthread hloop
  | left =>
      rw [hloop] at hstep
      cases hstep

theorem step (h : st.Counted cfg)
    (hdvd : 0 < cfg.checkThreadNum → cfg.checkThreadNum ∣ cfg.totalBlockNum) {label : StageLabel}
    (hstep : st.step cfg hash std label = some next) : next.Counted cfg := by
  obtain ⟨stage, hstage, rfl⟩ := Option.map_eq_some_iff.mp hstep
  cases label with
  | insert flow position diskBlockId rxId =>
      obtain ⟨-, hdone⟩ := Option.ite_none_right_eq_some.mp hstage
      obtain ⟨⟨done, after⟩, hinsert, rfl⟩ := Option.map_eq_some_iff.mp hdone
      show (st.recordInsert cfg after _
        ((st.stage.insert cfg hash flow position diskBlockId rxId).any Prod.fst)).Counted cfg
      rw [hinsert]
      exact h.insert hinsert
  | setPacketCount diskBlockId packetCount =>
      obtain rfl := Option.some.inj hstage
      exact h.setPacketCount diskBlockId packetCount
  | recycleBlock blockId =>
      obtain ⟨-, hrecycle⟩ := Option.ite_none_right_eq_some.mp hstage
      obtain rfl := Option.some.inj hrecycle
      exact ⟨h.turns.of_same rfl (fun _ => rfl) rfl rfl rfl (fun _ => Iff.rfl) h.turns.rest,
        h.indexCount, h.later, h.packetCount, h.loop, h.visits, h.persisted⟩
  | stopPersister threadId =>
      obtain rfl := Option.some.inj hstage
      have hloop : ∀ other, ((st.stage.setPersister threadId
          { st.stage.persisters threadId with stop := true }).persisters other).loop =
            (st.stage.persisters other).loop := by
        intro other
        show (Function.update st.stage.persisters threadId _ other).loop = _
        by_cases hsame : other = threadId
        · rw [hsame, Function.update_self]
        · rw [Function.update_of_ne hsame]
      refine h.of_same (h.turns.of_same rfl (fun _ => rfl) rfl rfl rfl
        (fun other => iff_of_eq (congrArg PersisterLoop.Pending (hloop other)))
        fun other newCol rest hclearing => ?_) (fun _ => rfl)
        (fun _ => rfl) rfl (fun slot => ?_) rfl rfl rfl (fun other hother => ?_) h.visits h.persisted
      · exact h.turns.rest other newCol rest ((hloop other).symm.trans hclearing)
      · exact and_congr_right' (iff_of_eq (congrArg PersisterLoop.Resetting (hloop _)))
      · exact (h.loop other hother).of_same (hloop other) (fun _ hmem => hmem) le_rfl
  | persister threadId =>
      obtain ⟨hthread, hpersister⟩ := Option.ite_none_right_eq_some.mp hstage
      exact h.persister (hdvd (Nat.zero_lt_of_lt hthread)) hthread hpersister

end Counted

theorem counted_of_reachable {allowed : CountedStage → StageLabel → Prop}
    (hdvd : 0 < cfg.checkThreadNum → cfg.checkThreadNum ∣ cfg.totalBlockNum)
    (h : (system cfg hash std).Reachable allowed st) : st.Counted cfg :=
  h.invariant (Counted cfg) (counted_init cfg) fun hcounted _ hstep => hcounted.step hdvd hstep

/-- If no record is late, none was. -/
theorem late_of_reachable (h : (system cfg hash std).Reachable (Apart cfg) st) :
    (∀ slot, st.late slot = 0) ∧ ∀ record ∈ st.persisted, record.late = 0 := by
  refine h.invariant (fun st => (∀ slot, st.late slot = 0) ∧
    ∀ record ∈ st.persisted, record.late = 0) ⟨fun _ => rfl, fun _ hmem =>
      absurd hmem List.not_mem_nil⟩ ?_
  rintro st next label ⟨hlate, hrecords⟩ hapart hstep
  obtain ⟨stage, -, rfl⟩ := Option.map_eq_some_iff.mp hstep
  cases label with
  | insert flow position diskBlockId rxId =>
      have hsame : ∀ done, (st.recordInsert cfg stage (diskBlockId % cfg.totalBlockNum) done).late =
          st.late := by
        intro done
        cases done with
        | false => rfl
        | true => exact if_neg hapart
      refine ⟨fun slot => ?_, fun record hmem => hrecords record ?_⟩
      · show (st.recordInsert cfg stage _ _).late slot = 0
        rw [hsame]
        exact hlate slot
      · revert hmem
        show record ∈ (st.recordInsert cfg stage _ _).persisted → _
        cases (st.stage.insert cfg hash flow position diskBlockId rxId).any Prod.fst <;> exact id
  | setPacketCount diskBlockId packetCount => exact ⟨hlate, hrecords⟩
  | recycleBlock blockId => exact ⟨hlate, hrecords⟩
  | stopPersister threadId => exact ⟨hlate, hrecords⟩
  | persister threadId =>
      show (∀ slot, (st.recordPersister cfg stage threadId _).late slot = 0) ∧
        ∀ record ∈ (st.recordPersister cfg stage threadId _).persisted, record.late = 0
      cases (st.stage.persisters threadId).loop with
      | persisting =>
          refine ⟨hlate, fun record hmem => ?_⟩
          rcases List.mem_append.mp hmem with hold | hnew
          · exact hrecords record hold
          · rw [List.mem_singleton.mp hnew]
            exact hlate _
      | clearing newCol steps =>
          cases steps with
          | nil => exact ⟨hlate, hrecords⟩
          | cons step rest =>
              cases step with
              | indexCount =>
                  refine ⟨fun slot => ?_, hrecords⟩
                  show Function.update st.late _ 0 slot = 0
                  by_cases hat : slot = st.stage.index.checkId threadId
                  · rw [hat, Function.update_self]
                  · rw [Function.update_of_ne hat]
                    exact hlate slot
              | packetCount | column | writingCol | pool rxId | diskBlock | checkId =>
                  exact ⟨hlate, hrecords⟩
      | waiting | counting packetCount | persisted | left => exact ⟨hlate, hrecords⟩

/-- The blocks that were persisted were persisted upon a dump with packets, of which no more
than the late ones had not been inserted; and upon all of them if none is ever late. -/
theorem persisted_upon_count
    (hdvd : 0 < cfg.checkThreadNum → cfg.checkThreadNum ∣ cfg.totalBlockNum) :
    (∀ st, (system cfg hash std).Reachable (fun _ _ => True) st →
      st.persisted.map PersistRecord.visit = st.stage.persists ∧
        ∀ record ∈ st.persisted, record.Counted) ∧
    ∀ st, (system cfg hash std).Reachable (Apart cfg) st →
      ∀ record ∈ st.persisted, ∃ packetCount ∈ record.packetCounts,
        0 < packetCount ∧ packetCount ≤ record.inserted := by
  refine ⟨fun st h => ?_, fun st h record hmem => ?_⟩
  · have hcounted := counted_of_reachable hdvd h
    exact ⟨hcounted.visits, hcounted.persisted⟩
  · obtain ⟨packetCount, hcount, hpos, hle⟩ := (counted_of_reachable hdvd h).persisted record hmem
    rw [(late_of_reachable h).2 record hmem] at hle
    exact ⟨packetCount, hcount, hpos, hle⟩

/-- Two slots with a persister each, with room for several records. -/
def wideBlocks : IndexConfig :=
  { IndexStage.twoPersisters with
    poolCapacity := 480
    indexBlock := { IndexStage.twoPersisters.indexBlock with blockSize := 64 }
    indexBlock_accepted := rfl }

open IndexStage IndexStorageConfig in
/-- The first persister waits for a second packet, and the second one comes first. -/
theorem persisted_upon_count_wideBlocks : ∃ st : CountedStage,
    st.persisted.map PersistRecord.inserted = [1, 2] ∧
      ∀ record ∈ st.persisted, ∃ packetCount ∈ record.packetCounts,
        0 < packetCount ∧ packetCount ≤ record.inserted := by
  obtain ⟨st, hreach, hst⟩ := (system wideBlocks someHash someSort).exists_reachable
    ([.insert portFlow 5 0 0, .setPacketCount 0 2, .persister 0, .persister 0,
      .insert portFlow 6 0 0] ++ dumped 1 ++ List.replicate 4 (.persister 1) ++
      List.replicate 3 (.persister 0))
    (fun st => st.persisted.map PersistRecord.inserted = [1, 2])
    (show TransitionSystem.RunAllowed _ (Apart wideBlocks) _ _ by decide +kernel)
    (by decide +kernel)
  exact ⟨st, hst, (persisted_upon_count fun _ => Nat.dvd_refl 2).2 st hreach⟩

end CountedStage

end TrafficDatabase
