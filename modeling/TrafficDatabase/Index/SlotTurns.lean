import TrafficDatabase.Index.KeptNodes

/-!
# The turns of the persisters

A persister starts at the slot of its number and steps by the number of persisters, modulo
the number of slots.  If the first number divides the second, the slots of a persister are
those with its residue, and nobody else comes to them: each slot is persisted and cleared
once a lap, in the order of its blocks (`Turns`).  Otherwise two persisters come to be at
one slot.

A record is in a node that keeps it until its block has been persisted, unless it joined a
node that had been marked before (`turnsKept`).
-/

namespace TrafficDatabase

namespace PersisterLoop

/-- The slot has been persisted and has not moved on. -/
def Pending : PersisterLoop → Prop
  | .persisted => True
  | .clearing _ rest => ClearStep.diskBlock ∈ rest
  | _ => False

instance : DecidablePred Pending
  | .persisted => .isTrue trivial
  | .clearing _ rest => inferInstanceAs (Decidable (ClearStep.diskBlock ∈ rest))
  | .waiting | .counting _ | .persisting | .left => .isFalse id

end PersisterLoop

namespace IndexStage

variable (cfg : IndexConfig) (st : IndexStage)

/-- The first visits of a slot if they are made in turn. -/
def turns (slot count : ℕ) : List Visit :=
  (List.range count).map fun lap =>
    { persister := slot % cfg.checkThreadNum, block := slot + cfg.totalBlockNum * lap }

/-- The visits of the blocks of a slot. -/
def visitsOf (visits : List Visit) (slot : ℕ) : List Visit :=
  visits.filter fun visit => visit.block % cfg.totalBlockNum = slot

/-- The block of a record is persisted, or its node still holds it. -/
def Kept (record : StoredRecord) : Prop :=
  (∃ visit ∈ st.persists, visit.block = record.block) ∨
    (st.index.memoryPools record.rxId record.type).Holds record.node
      (record.block % cfg.diskBlockNum)

/-- Each block is persisted once, and in order, and its records are kept until then. -/
structure TurnsKept : Prop where
  exclusive : ∀ first < cfg.checkThreadNum, ∀ second < cfg.checkThreadNum,
    st.index.checkId first = st.index.checkId second → first = second
  block : ∀ slot < cfg.totalBlockNum,
    (st.index.metas slot).diskBlockId = st.held cfg slot % cfg.diskBlockNum
  persisted : ∀ slot < cfg.totalBlockNum, ∃ ahead ≤ 1,
    visitsOf cfg st.persists slot = turns cfg slot (st.laps slot + ahead)
  cleared : ∀ slot < cfg.totalBlockNum,
    visitsOf cfg st.clears slot = turns cfg slot (st.laps slot)
  kept : ∀ record ∈ st.records, st.Kept cfg record

/-- No record of a block that is still to be persisted joins a marked node. -/
def Unmarked (st : IndexStage) : StageLabel → Prop
  | .insert flow _ diskBlockId rxId =>
      (st.index.metas (diskBlockId % cfg.totalBlockNum)).diskBlockId = diskBlockId →
        (∀ visit ∈ st.persists, visit.block ≠ st.held cfg (diskBlockId % cfg.totalBlockNum)) →
          ∀ type ∈ IndexMemoryPool.recordTypes flow,
            (st.index.memoryPools rxId type).Unmarked diskBlockId
  | _ => True

instance (st : IndexStage) : DecidablePred (st.Unmarked cfg)
  | .insert .. => inferInstanceAs (Decidable (_ → _))
  | .setPacketCount .. | .recycleBlock _ | .stopPersister _ | .persister _ => .isTrue trivial

/-- A slot whose persister has persisted it is one visit ahead. -/
def ahead (slot : ℕ) : ℕ :=
  if st.index.checkId (slot % cfg.checkThreadNum) = slot ∧
      (st.persisters (slot % cfg.checkThreadNum)).loop.Pending then 1 else 0

/-- Each persister is at one of its own slots, and each slot at its next block. -/
structure Turns : Prop where
  length_checkIds : st.index.indexCheckIds.length = cfg.checkThreadNum
  checkId_lt : ∀ threadId, st.index.checkId threadId < cfg.totalBlockNum
  checkId_mod : ∀ threadId < cfg.checkThreadNum,
    st.index.checkId threadId % cfg.checkThreadNum = threadId
  block : ∀ slot < cfg.totalBlockNum,
    (st.index.metas slot).diskBlockId = st.held cfg slot % cfg.diskBlockNum
  rest : ∀ threadId newCol rest, (st.persisters threadId).loop = .clearing newCol rest →
    rest <:+ IndexState.clearSteps cfg
  idle : ∀ threadId, cfg.checkThreadNum ≤ threadId → ¬ (st.persisters threadId).loop.Pending
  persisted : ∀ slot < cfg.totalBlockNum,
    visitsOf cfg st.persists slot = turns cfg slot (st.laps slot + st.ahead cfg slot)
  cleared : ∀ slot < cfg.totalBlockNum,
    visitsOf cfg st.clears slot = turns cfg slot (st.laps slot)

/-- The records are in sound pools, for blocks their slots have come to. -/
structure Stored : Prop where
  sound : ∀ rxId type, (st.index.memoryPools rxId type).Sound
  le_held : ∀ record ∈ st.records, record.block ≤ st.held cfg (record.block % cfg.totalBlockNum)
  kept : ∀ record ∈ st.records, st.Kept cfg record

variable {cfg st} {hash : StdHash} {std : StdSort} {next : IndexStage}

theorem turns_succ (slot count : ℕ) :
    turns cfg slot (count + 1) = turns cfg slot count ++
      [{ persister := slot % cfg.checkThreadNum, block := slot + cfg.totalBlockNum * count }] := by
  unfold turns
  rw [List.range_succ, List.map_append, List.map_singleton]

theorem held_mod {slot : ℕ} (hslot : slot < cfg.totalBlockNum) :
    st.held cfg slot % cfg.totalBlockNum = slot := by
  unfold held
  rw [Nat.add_mul_mod_self_left, Nat.mod_eq_of_lt hslot]

/-- One more visit is one of its slot. -/
theorem visitsOf_append (visits : List Visit) (threadId : ℕ) {at' slot : ℕ}
    (hat : at' < cfg.totalBlockNum) :
    visitsOf cfg (visits ++ [⟨threadId, st.held cfg at'⟩]) slot =
      if slot = at' then visitsOf cfg visits slot ++ [⟨threadId, st.held cfg at'⟩]
      else visitsOf cfg visits slot := by
  unfold visitsOf
  rw [List.filter_append, List.filter_singleton, held_mod hat]
  by_cases hsame : slot = at'
  · rw [if_pos hsame, decide_eq_true hsame.symm]
    rfl
  · rw [if_neg hsame, decide_eq_false (Ne.symm hsame)]
    exact List.append_nil _

theorem turns_init (cfg : IndexConfig) : (init cfg).Turns cfg := by
  have hwell := IndexState.wellFormed_init cfg
  refine ⟨hwell.length_checkIds, hwell.checkId_lt, fun threadId hthread => ?_, fun slot hslot => ?_,
    fun _ _ _ h => PersisterLoop.noConfusion h, fun _ _ h => h, fun slot _ => ?_, fun slot _ => rfl⟩
  · have hid : (init cfg).index.checkId threadId = threadId := by
      show (List.range cfg.checkThreadNum).getD threadId 0 = threadId
      rw [List.getD_eq_getElem?_getD, List.getElem?_range hthread, Option.getD_some]
    rw [hid, Nat.mod_eq_of_lt hthread]
  · show slot = (slot + cfg.totalBlockNum * 0) % cfg.diskBlockNum
    rw [Nat.mul_zero, Nat.add_zero, Nat.mod_eq_of_lt (hslot.trans_le cfg.totalBlockNum_le)]
  · have hahead : (init cfg).ahead cfg slot = 0 := if_neg fun h => h.2
    rw [hahead]
    rfl

namespace Turns

/-- The persister of a slot is at most at this one of its slots. -/
theorem mod_eq (h : st.Turns cfg) {threadId slot : ℕ} (hthread : threadId < cfg.checkThreadNum)
    (hat : st.index.checkId threadId = slot) : slot % cfg.checkThreadNum = threadId :=
  hat ▸ h.checkId_mod threadId hthread

theorem exclusive (h : st.Turns cfg) {first second : ℕ} (hfirst : first < cfg.checkThreadNum)
    (hsecond : second < cfg.checkThreadNum)
    (hsame : st.index.checkId first = st.index.checkId second) : first = second :=
  (h.checkId_mod first hfirst).symm.trans
    ((congrArg (· % cfg.checkThreadNum) hsame).trans (h.checkId_mod second hsecond))

/-- Steps that move no persister and no slot. -/
theorem of_same (h : st.Turns cfg) (hcheckIds : next.index.indexCheckIds = st.index.indexCheckIds)
    (hmetas : ∀ slot, (next.index.metas slot).diskBlockId = (st.index.metas slot).diskBlockId)
    (hlaps : next.laps = st.laps) (hpersists : next.persists = st.persists)
    (hclears : next.clears = st.clears)
    (hpending : ∀ threadId, (next.persisters threadId).loop.Pending ↔
      (st.persisters threadId).loop.Pending)
    (hrest : ∀ threadId newCol rest, (next.persisters threadId).loop = .clearing newCol rest →
      rest <:+ IndexState.clearSteps cfg) : next.Turns cfg := by
  have hcheckId : ∀ threadId, next.index.checkId threadId = st.index.checkId threadId := by
    intro threadId
    unfold IndexState.checkId
    rw [hcheckIds]
  have hheld : ∀ slot, next.held cfg slot = st.held cfg slot := by
    intro slot
    unfold held
    rw [hlaps]
  have hahead : ∀ slot, next.ahead cfg slot = st.ahead cfg slot := by
    intro slot
    unfold ahead
    rw [hcheckId]
    simp only [hpending]
  refine ⟨hcheckIds ▸ h.length_checkIds, ?_, ?_, ?_, hrest, ?_, ?_, ?_⟩
  · exact fun threadId => hcheckId threadId ▸ h.checkId_lt threadId
  · exact fun threadId hthread => hcheckId threadId ▸ h.checkId_mod threadId hthread
  · intro slot hslot
    rw [hmetas, hheld]
    exact h.block slot hslot
  · exact fun threadId hidle hnext => h.idle threadId hidle ((hpending threadId).mp hnext)
  · intro slot hslot
    rw [hpersists, hlaps, hahead]
    exact h.persisted slot hslot
  · intro slot hslot
    rw [hclears, hlaps]
    exact h.cleared slot hslot

/-- What one persister does changes only whether its own slot is ahead. -/
theorem ahead_eq (h : st.Turns cfg) {threadId : ℕ} (hthread : threadId < cfg.checkThreadNum)
    (hcheckIds : next.index.indexCheckIds = st.index.indexCheckIds)
    (hothers : ∀ other ≠ threadId, next.persisters other = st.persisters other) (slot : ℕ) :
    next.ahead cfg slot =
      if slot = st.index.checkId threadId then
        if (next.persisters threadId).loop.Pending then 1 else 0
      else st.ahead cfg slot := by
  have hcheckId : ∀ other, next.index.checkId other = st.index.checkId other := by
    intro other
    unfold IndexState.checkId
    rw [hcheckIds]
  unfold ahead
  rw [hcheckId]
  by_cases hat : slot = st.index.checkId threadId
  · rw [if_pos hat, h.mod_eq hthread hat.symm]
    simp only [hat, true_and]
  · rw [if_neg hat]
    by_cases howner : slot % cfg.checkThreadNum = threadId
    · rw [howner, if_neg fun hpending => hat hpending.1.symm,
        if_neg fun hpending => hat hpending.1.symm]
    · rw [hothers _ howner]

/-- The slot of a persister is ahead if the persister says so. -/
theorem ahead_checkId (h : st.Turns cfg) {threadId : ℕ} (hthread : threadId < cfg.checkThreadNum) :
    st.ahead cfg (st.index.checkId threadId) =
      if (st.persisters threadId).loop.Pending then 1 else 0 := by
  rw [h.ahead_eq hthread rfl (fun _ _ => rfl), if_pos rfl]

theorem setLoop_others (st : IndexStage) (threadId : ℕ) (loop : PersisterLoop) :
    ∀ other ≠ threadId, (st.setLoop threadId loop).persisters other = st.persisters other :=
  fun _ hne => Function.update_of_ne hne _ _

theorem setLoop_loop (st : IndexStage) (threadId : ℕ) (loop : PersisterLoop) :
    ((st.setLoop threadId loop).persisters threadId).loop = loop := by
  show (Function.update st.persisters threadId _ threadId).loop = loop
  rw [Function.update_self]

/-- A step of a persister in its loop. -/
theorem setLoop (h : st.Turns cfg) {threadId : ℕ} {loop : PersisterLoop}
    (hpending : loop.Pending ↔ (st.persisters threadId).loop.Pending)
    (hrest : ∀ newCol rest, loop = .clearing newCol rest → rest <:+ IndexState.clearSteps cfg)
    (hcheckIds : next.index.indexCheckIds = st.index.indexCheckIds)
    (hmetas : ∀ slot, (next.index.metas slot).diskBlockId = (st.index.metas slot).diskBlockId)
    (hnext : next = { st.setLoop threadId loop with index := next.index }) :
    next.Turns cfg := by
  have hpersisters : next.persisters = (st.setLoop threadId loop).persisters := by rw [hnext]
  refine h.of_same hcheckIds hmetas (by rw [hnext]; rfl) (by rw [hnext]; rfl) (by rw [hnext]; rfl)
    (fun other => ?_) (fun other newCol rest hclearing => ?_)
  · rw [hpersisters]
    by_cases hsame : other = threadId
    · rw [hsame, setLoop_loop, hpending]
    · rw [setLoop_others _ _ _ _ hsame]
  · rw [hpersisters] at hclearing
    by_cases hsame : other = threadId
    · rw [hsame, setLoop_loop] at hclearing
      exact hrest newCol rest hclearing
    · rw [setLoop_others _ _ _ _ hsame] at hclearing
      exact h.rest other newCol rest hclearing

/-- The block is the next one of the slot. -/
theorem persistMeta (h : st.Turns cfg) {threadId : ℕ} (hthread : threadId < cfg.checkThreadNum)
    (hloop : (st.persisters threadId).loop = .persisting)
    (hpersist : st.persistMeta cfg std threadId = some next) : next.Turns cfg := by
  obtain ⟨index, hindex, hnext⟩ := Option.map_eq_some_iff.mp hpersist
  have hpersisted := IndexState.persisted_of_persistMeta hindex
  have hcheckIds : next.index.indexCheckIds = st.index.indexCheckIds :=
    hnext ▸ hpersisted.indexCheckIds
  have hmetas : next.index.metas = st.index.metas := hnext ▸ hpersisted.metas
  have hpersisters : next.persisters = (st.setLoop threadId .persisted).persisters := hnext ▸ rfl
  have hlaps : next.laps = st.laps := hnext ▸ rfl
  have hpersists : next.persists =
      st.persists ++ [⟨threadId, st.held cfg (st.index.checkId threadId)⟩] := hnext ▸ rfl
  have hcheckId : ∀ other, next.index.checkId other = st.index.checkId other := by
    intro other
    unfold IndexState.checkId
    rw [hcheckIds]
  have hothers : ∀ other ≠ threadId, next.persisters other = st.persisters other :=
    hpersisters ▸ setLoop_others st threadId .persisted
  have hself : (next.persisters threadId).loop = .persisted :=
    hpersisters ▸ setLoop_loop st threadId .persisted
  refine ⟨hcheckIds ▸ h.length_checkIds, ?_, ?_, ?_, ?_, ?_, ?_, ?_⟩
  · exact fun other => hcheckId other ▸ h.checkId_lt other
  · exact fun other hlt => hcheckId other ▸ h.checkId_mod other hlt
  · intro slot hlt
    rw [hmetas, held, hlaps]
    exact h.block slot hlt
  · intro other newCol rest hclearing
    by_cases hsame : other = threadId
    · rw [hsame, hself] at hclearing
      cases hclearing
    · rw [hothers other hsame] at hclearing
      exact h.rest other newCol rest hclearing
  · intro other hidle
    rw [hothers other (hthread.trans_le hidle).ne']
    exact h.idle other hidle
  · intro slot hlt
    rw [hpersists, visitsOf_append _ _ (h.checkId_lt threadId), h.persisted slot hlt, hlaps,
      h.ahead_eq hthread hcheckIds hothers, hself]
    by_cases hat : slot = st.index.checkId threadId
    · have hbefore := h.ahead_checkId hthread
      rw [hloop, if_neg (show ¬ PersisterLoop.Pending .persisting from id)] at hbefore
      rw [if_pos hat, if_pos hat, if_pos (show PersisterLoop.Pending .persisted from trivial),
        turns_succ, h.mod_eq hthread hat.symm, hat, hbefore]
      rfl
    · rw [if_neg hat, if_neg hat]
  · intro slot hlt
    rw [hlaps, show next.clears = st.clears from hnext ▸ rfl]
    exact h.cleared slot hlt

/-- What is left of `clearMeta`, when one persister has done a step of it. -/
theorem rest_of_clearing (h : st.Turns cfg) {threadId newCol : ℕ} {rest : List ClearStep}
    (hothers : ∀ other ≠ threadId, next.persisters other = st.persisters other)
    (hself : (next.persisters threadId).loop = .clearing newCol rest)
    (hsuffix : rest <:+ IndexState.clearSteps cfg) :
    ∀ other col steps, (next.persisters other).loop = .clearing col steps →
      steps <:+ IndexState.clearSteps cfg := by
  intro other col steps hclearing
  by_cases hsame : other = threadId
  · rw [hsame, hself] at hclearing
    obtain ⟨-, rfl⟩ := PersisterLoop.clearing.inj hclearing
    exact hsuffix
  · rw [hothers other hsame] at hclearing
    exact h.rest other col steps hclearing

/-- The writes of `clearMeta` but for the two last. -/
theorem clear_of_ne (h : st.Turns cfg) {threadId newCol : ℕ} {step : ClearStep}
    {rest : List ClearStep}
    (hloop : (st.persisters threadId).loop = .clearing newCol (step :: rest))
    (hblock : step ≠ .diskBlock) (hid : step ≠ .checkId) :
    (st.clear cfg threadId newCol step rest).Turns cfg := by
  have hsuffix := h.rest threadId newCol (step :: rest) hloop
  have hpending : PersisterLoop.Pending (.clearing newCol rest) ↔
      (st.persisters threadId).loop.Pending := by
    rw [hloop]
    show ClearStep.diskBlock ∈ rest ↔ ClearStep.diskBlock ∈ step :: rest
    rw [List.mem_cons]
    exact ⟨.inr, fun hmem => hmem.resolve_left (Ne.symm hblock)⟩
  have hcheckIds : (st.index.clearStep cfg threadId newCol step).indexCheckIds =
      st.index.indexCheckIds := by
    cases step with
    | packetCount =>
        obtain ⟨diskMetas, hcleared⟩ :=
          @IndexState.setPacketCount_rest cfg st.index (st.index.getCheckDishID threadId) 0
        have hstep : st.index.clearStep cfg threadId newCol .packetCount =
            { st.index with diskMetas } := hcleared
        rw [hstep]
    | checkId => exact absurd rfl hid
    | column | writingCol | pool rxId | indexCount | diskBlock => rfl
  have hclear : st.clear cfg threadId newCol step rest =
      { st.setLoop threadId (.clearing newCol rest) with
        index := st.index.clearStep cfg threadId newCol step } := if_neg hblock
  rw [hclear]
  refine h.setLoop hpending (fun _ _ hclearing => ?_) hcheckIds
    (IndexState.clearStep_diskBlockId threadId newCol hblock) rfl
  obtain ⟨-, rfl⟩ := PersisterLoop.clearing.inj hclearing
  exact (List.suffix_cons step rest).trans hsuffix

/-- The slot moves on to its next block. -/
theorem clear_diskBlock (h : st.Turns cfg) {threadId newCol : ℕ} {rest : List ClearStep}
    (hthread : threadId < cfg.checkThreadNum)
    (hloop : (st.persisters threadId).loop = .clearing newCol (.diskBlock :: rest)) :
    (st.clear cfg threadId newCol .diskBlock rest).Turns cfg := by
  have hsuffix := h.rest threadId newCol (.diskBlock :: rest) hloop
  have hnot : ClearStep.diskBlock ∉ rest := fun hmem =>
    ((IndexState.diskBlock_mem_of_suffix hsuffix).mp hmem).1 rfl
  have hslot := h.checkId_lt threadId
  have hothers : ∀ other ≠ threadId,
      (st.clear cfg threadId newCol .diskBlock rest).persisters other = st.persisters other :=
    setLoop_others st threadId (.clearing newCol rest)
  have hself : ((st.clear cfg threadId newCol .diskBlock rest).persisters threadId).loop =
      .clearing newCol rest := setLoop_loop st threadId (.clearing newCol rest)
  have hlaps : ∀ slot, (st.clear cfg threadId newCol .diskBlock rest).laps slot =
      if slot = st.index.checkId threadId then st.laps slot + 1 else st.laps slot := by
    intro slot
    show Function.update st.laps (st.index.checkId threadId) _ slot = _
    by_cases hat : slot = st.index.checkId threadId
    · rw [hat, Function.update_self, if_pos rfl]
    · rw [Function.update_of_ne hat, if_neg hat]
  refine ⟨h.length_checkIds, h.checkId_lt, h.checkId_mod, ?_, ?_, ?_, ?_, ?_⟩
  · intro slot hlt
    rw [held, hlaps]
    show (Function.update st.index.metas (st.index.checkId threadId) _ slot).diskBlockId = _
    by_cases hat : slot = st.index.checkId threadId
    · rw [if_pos hat, hat, Function.update_self]
      show ((st.index.metas (st.index.checkId threadId)).diskBlockId + cfg.totalBlockNum) %
        cfg.diskBlockNum = _
      rw [h.block _ hslot, Nat.mod_add_mod, held, Nat.mul_succ, Nat.add_assoc]
    · rw [if_neg hat, Function.update_of_ne hat]
      exact h.block slot hlt
  · exact h.rest_of_clearing hothers hself ((List.suffix_cons _ _).trans hsuffix)
  · intro other hidle
    rw [hothers other (hthread.trans_le hidle).ne']
    exact h.idle other hidle
  · intro slot hlt
    have hahead := @ahead_eq cfg st (st.clear cfg threadId newCol .diskBlock rest) h threadId
      hthread rfl hothers slot
    rw [hahead, hself, hlaps]
    show visitsOf cfg st.persists slot = _
    rw [h.persisted slot hlt]
    by_cases hat : slot = st.index.checkId threadId
    · have hbefore := h.ahead_checkId hthread
      rw [hloop, if_pos (show PersisterLoop.Pending (.clearing newCol (.diskBlock :: rest)) from
        List.mem_cons_self)] at hbefore
      rw [if_pos hat, if_pos hat, if_neg (show ¬ PersisterLoop.Pending (.clearing newCol rest) from
        hnot), hat, hbefore]
    · rw [if_neg hat, if_neg hat]
  · intro slot hlt
    rw [hlaps]
    show visitsOf cfg (st.clears ++ [⟨threadId, st.held cfg (st.index.checkId threadId)⟩]) slot = _
    rw [visitsOf_append _ _ hslot, h.cleared slot hlt]
    by_cases hat : slot = st.index.checkId threadId
    · rw [if_pos hat, if_pos hat, turns_succ, h.mod_eq hthread hat.symm, hat]
      rfl
    · rw [if_neg hat, if_neg hat]

/-- The persister goes on to the next of its slots. -/
theorem clear_checkId (h : st.Turns cfg) {threadId newCol : ℕ} {rest : List ClearStep}
    (hdvd : cfg.checkThreadNum ∣ cfg.totalBlockNum) (hthread : threadId < cfg.checkThreadNum)
    (hloop : (st.persisters threadId).loop = .clearing newCol (.checkId :: rest)) :
    (st.clear cfg threadId newCol .checkId rest).Turns cfg := by
  have hsuffix := h.rest threadId newCol (.checkId :: rest) hloop
  have hnot : ClearStep.diskBlock ∉ rest := fun hmem =>
    ((IndexState.diskBlock_mem_of_suffix hsuffix).mp hmem).2 rfl
  have hbefore : ¬ (st.persisters threadId).loop.Pending := by
    rw [hloop]
    exact fun hmem => hnot ((List.mem_cons.mp hmem).resolve_left ClearStep.noConfusion)
  have hothers : ∀ other ≠ threadId,
      (st.clear cfg threadId newCol .checkId rest).persisters other = st.persisters other :=
    setLoop_others st threadId (.clearing newCol rest)
  have hself : ((st.clear cfg threadId newCol .checkId rest).persisters threadId).loop =
      .clearing newCol rest := setLoop_loop st threadId (.clearing newCol rest)
  have hafter :
      ¬ ((st.clear cfg threadId newCol .checkId rest).persisters threadId).loop.Pending := by
    rw [hself]
    exact hnot
  have hcheckId : ∀ other, (st.clear cfg threadId newCol .checkId rest).index.checkId other =
      if other = threadId then
        (st.index.checkId threadId + cfg.checkThreadNum) % cfg.totalBlockNum
      else st.index.checkId other := by
    intro other
    show (st.index.indexCheckIds.set threadId _).getD other 0 = _
    rw [List.getD_eq_getElem?_getD]
    by_cases hsame : other = threadId
    · rw [if_pos hsame, hsame, List.getElem?_set_self (by rw [h.length_checkIds]; exact hthread),
        h.length_checkIds]
      rfl
    · rw [if_neg hsame, List.getElem?_set_ne (Ne.symm hsame), ← List.getD_eq_getElem?_getD]
      rfl
  refine ⟨?_, ?_, ?_, h.block, ?_, ?_, ?_, h.cleared⟩
  · show (st.index.indexCheckIds.set threadId _).length = _
    rw [List.length_set, h.length_checkIds]
  · intro other
    rw [hcheckId]
    split_ifs
    · exact Nat.mod_lt _ cfg.totalBlockNum_pos
    · exact h.checkId_lt other
  · intro other hlt
    rw [hcheckId]
    split_ifs with hsame
    · rw [Nat.mod_mod_of_dvd _ hdvd, Nat.add_mod_right, h.checkId_mod _ hthread, hsame]
    · exact h.checkId_mod other hlt
  · exact h.rest_of_clearing hothers hself ((List.suffix_cons _ _).trans hsuffix)
  · intro other hidle
    rw [hothers other (hthread.trans_le hidle).ne']
    exact h.idle other hidle
  · intro slot hlt
    have hahead : (st.clear cfg threadId newCol .checkId rest).ahead cfg slot =
        st.ahead cfg slot := by
      unfold ahead
      rw [hcheckId]
      by_cases howner : slot % cfg.checkThreadNum = threadId
      · rw [howner, if_neg fun hpending => hafter hpending.2,
          if_neg fun hpending => hbefore hpending.2]
      · rw [if_neg howner, hothers _ howner]
    rw [hahead]
    exact h.persisted slot hlt

/-- The generators do not move a slot. -/
theorem insert (h : st.Turns cfg) {flow : FlowMetadata} {position diskBlockId rxId : ℕ}
    {done : Bool}
    (hinsert : st.insert cfg hash flow position diskBlockId rxId = some (done, next)) :
    next.Turns cfg := by
  obtain ⟨⟨_, index⟩, hindex, hnext⟩ := Option.map_eq_some_iff.mp hinsert
  obtain ⟨rfl, rfl⟩ := Prod.mk.inj hnext
  rcases IndexState.insert_cases hindex with ⟨-, bitmap, rfl, -⟩ | ⟨-, hinserted⟩
  · exact h.of_same rfl (fun _ => rfl) rfl rfl rfl (fun _ => Iff.rfl) h.rest
  · refine h.of_same hinserted.rest.1 (fun slot => ?_) rfl rfl rfl (fun _ => Iff.rfl) h.rest
    show (index.metas slot).diskBlockId = _
    rw [hinserted.metas]
    by_cases hat : slot = diskBlockId % cfg.totalBlockNum
    · rw [hat, Function.update_self]
    · rw [Function.update_of_ne hat]

/-- All blocks before the one a slot is at have been persisted, and so has this one if the
slot is ahead. -/
theorem exists_visit (h : st.Turns cfg) {block : ℕ}
    (hlt : block / cfg.totalBlockNum < st.laps (block % cfg.totalBlockNum) +
      st.ahead cfg (block % cfg.totalBlockNum)) :
    ∃ visit ∈ st.persists, visit.block = block := by
  have hturn : (⟨block % cfg.totalBlockNum % cfg.checkThreadNum, block⟩ : Visit) ∈
      turns cfg (block % cfg.totalBlockNum) (st.laps (block % cfg.totalBlockNum) +
        st.ahead cfg (block % cfg.totalBlockNum)) := by
    refine List.mem_map.mpr ⟨block / cfg.totalBlockNum, List.mem_range.mpr hlt, ?_⟩
    rw [Nat.mod_add_div]
  rw [← h.persisted _ (Nat.mod_lt _ cfg.totalBlockNum_pos)] at hturn
  exact ⟨_, (List.mem_filter.mp hturn).1, rfl⟩

end Turns

/-! ## The records -/

theorem stored_init (hlist : 2 ≤ cfg.poolListLen) (hcapacity : cfg.poolCapacity ≤ u64Max) :
    (init cfg).Stored cfg := by
  refine ⟨fun rxId type => MemoryPool.sound_fresh hlist (le_trans ?_ hcapacity),
    fun record hmem => absurd hmem List.not_mem_nil,
    fun record hmem => absurd hmem List.not_mem_nil⟩
  calc cfg.poolCapacity / 6 / IndexMemoryPool.unitLen type * IndexMemoryPool.unitLen type
      ≤ cfg.poolCapacity / 6 := Nat.div_mul_le_self _ _
    _ ≤ cfg.poolCapacity := Nat.div_le_self _ _

namespace Stored

/-- Steps that touch no pool. -/
theorem of_le (h : st.Stored cfg) (hpools : next.index.memoryPools = st.index.memoryPools)
    (hlaps : ∀ slot, st.laps slot ≤ next.laps slot)
    (hpersists : ∀ visit ∈ st.persists, visit ∈ next.persists)
    (hrecords : next.records = st.records) : next.Stored cfg := by
  refine ⟨hpools ▸ h.sound, fun record hmem => ?_, fun record hmem => ?_⟩
  · rw [hrecords] at hmem
    exact (h.le_held record hmem).trans
      (Nat.add_le_add_left (Nat.mul_le_mul_left _ (hlaps _)) _)
  · rw [hrecords] at hmem
    unfold Kept
    rw [hpools]
    exact (h.kept record hmem).imp_left fun ⟨visit, hvisit, hblock⟩ =>
      ⟨visit, hpersists visit hvisit, hblock⟩

/-- The node of a new record holds its block, as far as that is still to be persisted. -/
theorem insert (h : st.Stored cfg) (hturns : st.Turns cfg) (hdisk : cfg.diskBlockNum ≤ u64Max)
    {flow : FlowMetadata} {position diskBlockId rxId : ℕ} {done : Bool}
    (hunmarked : st.Unmarked cfg (.insert flow position diskBlockId rxId))
    (hinsert : st.insert cfg hash flow position diskBlockId rxId = some (done, next)) :
    next.Stored cfg := by
  obtain ⟨⟨_, index⟩, hindex, hnext⟩ := Option.map_eq_some_iff.mp hinsert
  obtain ⟨rfl, rfl⟩ := Prod.mk.inj hnext
  rcases IndexState.insert_cases hindex with ⟨rfl, bitmap, rfl, -⟩ | ⟨rfl, hinserted⟩
  · exact h.of_le rfl (fun _ => le_rfl) (fun _ hvisit => hvisit) rfl
  have hslot : diskBlockId % cfg.totalBlockNum < cfg.totalBlockNum :=
    Nat.mod_lt _ cfg.totalBlockNum_pos
  have hid : diskBlockId = st.held cfg (diskBlockId % cfg.totalBlockNum) % cfg.diskBlockNum :=
    hinserted.held.symm.trans (hturns.block _ hslot)
  have hblock : diskBlockId ≠ u64Max := by
    have := Nat.mod_lt (st.held cfg (diskBlockId % cfg.totalBlockNum)) cfg.diskBlockNum_pos
    omega
  obtain ⟨pool, hpool, hpools⟩ := hinserted.pools
  have hinto := IndexMemoryPool.sound_insert (h.sound rxId) hblock hpool
  have hsound : ∀ other type, (index.memoryPools other type).Sound ∧
      ∀ {place block}, (st.index.memoryPools other type).Holds place block →
        (index.memoryPools other type).Holds place block := by
    intro other type
    rw [hpools]
    by_cases hsame : other = rxId
    · rw [hsame, Function.update_self]
      exact ⟨(hinto type).1, (hinto type).2.2⟩
    · rw [Function.update_of_ne hsame]
      exact ⟨h.sound other type, id⟩
  refine ⟨fun other type => (hsound other type).1, fun record hmem => ?_, fun record hmem => ?_⟩
  all_goals rcases List.mem_append.mp hmem with hold | hnew
  · exact h.le_held record hold
  · obtain ⟨type, -, rfl⟩ := List.mem_map.mp hnew
    show st.held cfg _ ≤ st.held cfg (st.held cfg _ % cfg.totalBlockNum)
    rw [held_mod hslot]
  · exact (h.kept record hold).imp_right fun hholds => (hsound record.rxId record.type).2 hholds
  · obtain ⟨type, htype, rfl⟩ := List.mem_map.mp hnew
    by_cases hvisited : ∃ visit ∈ st.persists,
        visit.block = st.held cfg (diskBlockId % cfg.totalBlockNum)
    · exact .inl hvisited
    · right
      have hlast := hunmarked hinserted.held
        (fun visit hvisit hsame => hvisited ⟨visit, hvisit, hsame⟩) type htype
      show (index.memoryPools rxId type).Holds (index.memoryPools rxId type).lastPlace
        (st.held cfg (diskBlockId % cfg.totalBlockNum) % cfg.diskBlockNum)
      rw [← hid, hpools, Function.update_self]
      exact (hinto type).2.1 htype hlast

/-- What is recycled is of a block that has been persisted. -/
theorem clear_pool (h : st.Stored cfg) (hturns : st.Turns cfg) (hdisk : cfg.diskBlockNum ≤ u64Max)
    {threadId newCol rxId : ℕ} {rest : List ClearStep} (hthread : threadId < cfg.checkThreadNum)
    (hloop : (st.persisters threadId).loop = .clearing newCol (.pool rxId :: rest)) :
    (st.clear cfg threadId newCol (.pool rxId) rest).Stored cfg := by
  have hslot := hturns.checkId_lt threadId
  have hid : st.index.getCheckDishID threadId =
      st.held cfg (st.index.checkId threadId) % cfg.diskBlockNum := hturns.block _ hslot
  have hblock : st.index.getCheckDishID threadId ≠ u64Max := by
    have := Nat.mod_lt (st.held cfg (st.index.checkId threadId)) cfg.diskBlockNum_pos
    omega
  have hahead : st.ahead cfg (st.index.checkId threadId) = 1 := by
    rw [hturns.ahead_checkId hthread, hloop]
    have hmem := (IndexState.diskBlock_mem_of_suffix (hturns.rest _ _ _ hloop)).mpr
      ⟨ClearStep.noConfusion, ClearStep.noConfusion⟩
    exact if_pos (List.mem_cons_of_mem _ hmem)
  have hpools : ∀ other type, ((st.clear cfg threadId newCol (.pool rxId) rest).index.memoryPools
      other type).Sound ∧ ∀ {place block}, block ≠ st.index.getCheckDishID threadId →
        (st.index.memoryPools other type).Holds place block →
          ((st.clear cfg threadId newCol (.pool rxId) rest).index.memoryPools other type).Holds
            place block := by
    intro other type
    have hsame : (st.clear cfg threadId newCol (.pool rxId) rest).index.memoryPools =
      Function.update st.index.memoryPools rxId
        ((st.index.memoryPools rxId).recycle (st.index.getCheckDishID threadId)) := rfl
    rw [hsame]
    by_cases hrx : other = rxId
    · rw [hrx, Function.update_self]
      exact (h.sound rxId type).recycle hblock
    · rw [Function.update_of_ne hrx]
      exact ⟨h.sound other type, fun _ => id⟩
  refine ⟨fun other type => (hpools other type).1, h.le_held, fun record hmem => ?_⟩
  rcases h.kept record hmem with hvisited | hholds
  · exact .inl hvisited
  by_cases hsame : record.block % cfg.diskBlockNum = st.index.getCheckDishID threadId
  · -- it is the block the slot is at, or one of an earlier lap
    have hat : record.block % cfg.totalBlockNum = st.index.checkId threadId := by
      rw [← Nat.mod_mod_of_dvd record.block cfg.totalBlockNum_dvd, hsame, hid,
        Nat.mod_mod_of_dvd _ cfg.totalBlockNum_dvd, held_mod hslot]
    have hle := h.le_held record hmem
    refine .inl (hturns.exists_visit ?_)
    rw [hat, hahead]
    rw [hat, held] at hle
    have hdiv := Nat.div_le_div_right (c := cfg.totalBlockNum) hle
    rw [Nat.add_mul_div_left _ _ cfg.totalBlockNum_pos, Nat.div_eq_of_lt hslot,
      Nat.zero_add] at hdiv
    exact Nat.lt_succ_of_le hdiv
  · exact .inr ((hpools record.rxId record.type).2 hsame hholds)

/-- The other writes of `clearMeta` touch no pool. -/
theorem clear_of_ne (h : st.Stored cfg) {threadId newCol : ℕ} {step : ClearStep}
    {rest : List ClearStep} (hpool : ∀ rxId, step ≠ .pool rxId) :
    (st.clear cfg threadId newCol step rest).Stored cfg := by
  cases step with
  | packetCount =>
      obtain ⟨diskMetas, hcleared⟩ :=
        @IndexState.setPacketCount_rest cfg st.index (st.index.getCheckDishID threadId) 0
      have hstep : st.index.clearStep cfg threadId newCol .packetCount =
          { st.index with diskMetas } := hcleared
      refine h.of_le ?_ (fun _ => le_rfl) (fun _ hvisit => hvisit) rfl
      show (st.index.clearStep cfg threadId newCol .packetCount).memoryPools = _
      rw [hstep]
  | pool rxId => exact absurd rfl (hpool rxId)
  | diskBlock =>
      refine h.of_le rfl (fun slot => ?_) (fun _ hvisit => hvisit) rfl
      show _ ≤ Function.update st.laps (st.index.checkId threadId) _ slot
      by_cases hat : slot = st.index.checkId threadId
      · rw [hat, Function.update_self]
        exact Nat.le_succ _
      · rw [Function.update_of_ne hat]
  | column | writingCol | indexCount | checkId =>
      exact h.of_le rfl (fun _ => le_rfl) (fun _ hvisit => hvisit) rfl

end Stored

/-! ## Runs -/

/-- Steps of a persister. -/
theorem turns_persister (h : st.Turns cfg) (hstored : st.Stored cfg)
    (hdisk : cfg.diskBlockNum ≤ u64Max) {threadId : ℕ} (hthread : threadId < cfg.checkThreadNum)
    (hdvd : cfg.checkThreadNum ∣ cfg.totalBlockNum)
    (hstep : st.persister cfg std threadId = some next) : next.Turns cfg ∧ next.Stored cfg := by
  -- most steps change only where the persister is
  have hsame : ∀ loop : PersisterLoop, (loop.Pending ↔ (st.persisters threadId).loop.Pending) →
      (∀ newCol rest, loop = .clearing newCol rest → rest <:+ IndexState.clearSteps cfg) →
        (st.setLoop threadId loop).Turns cfg ∧ (st.setLoop threadId loop).Stored cfg :=
    fun loop hpending hrest => ⟨h.setLoop hpending hrest rfl (fun _ => rfl) rfl,
      hstored.of_le rfl (fun _ => le_rfl) (fun _ hvisit => hvisit) rfl⟩
  unfold persister at hstep
  cases hloop : (st.persisters threadId).loop with
  | waiting =>
      rw [hloop] at hstep hsame
      simp only at hstep
      split_ifs at hstep
      · obtain rfl := Option.some.inj hstep
        exact hsame _ Iff.rfl fun _ _ hne => PersisterLoop.noConfusion hne
      · obtain rfl := Option.some.inj hstep
        exact ⟨h, hstored⟩
      · obtain rfl := Option.some.inj hstep
        exact hsame _ Iff.rfl fun _ _ hne => PersisterLoop.noConfusion hne
  | counting packetCount =>
      rw [hloop] at hstep hsame
      simp only at hstep
      split_ifs at hstep
      · obtain rfl := Option.some.inj hstep
        exact ⟨h, hstored⟩
      · obtain rfl := Option.some.inj hstep
        exact hsame _ Iff.rfl fun _ _ hne => PersisterLoop.noConfusion hne
  | persisting =>
      rw [hloop] at hstep
      refine ⟨h.persistMeta hthread hloop hstep, ?_⟩
      obtain ⟨index, hindex, rfl⟩ := Option.map_eq_some_iff.mp hstep
      exact hstored.of_le (IndexState.persisted_of_persistMeta hindex).memoryPools
        (fun _ => le_rfl) (fun _ hvisit => List.mem_append_left _ hvisit) rfl
  | persisted =>
      rw [hloop] at hstep hsame
      obtain rfl := Option.some.inj hstep
      refine hsame _ (iff_of_true ?_ trivial) fun _ _ hclearing => ?_
      · show ClearStep.diskBlock ∈ IndexState.clearSteps cfg
        simp [IndexState.clearSteps]
      · obtain ⟨-, rfl⟩ := PersisterLoop.clearing.inj hclearing
        exact List.suffix_refl _
  | clearing newCol steps =>
      rw [hloop] at hstep hsame
      cases steps with
      | nil =>
          obtain rfl := Option.some.inj hstep
          exact hsame _ (iff_of_false id List.not_mem_nil) fun _ _ hne =>
            PersisterLoop.noConfusion hne
      | cons step rest =>
          obtain rfl := Option.some.inj hstep
          -- two of the writes of `clearMeta` matter here: of the block and of the persister's slot
          cases step with
          | pool rxId =>
              exact ⟨h.clear_of_ne hloop ClearStep.noConfusion ClearStep.noConfusion,
                hstored.clear_pool h hdisk hthread hloop⟩
          | diskBlock =>
              exact ⟨h.clear_diskBlock hthread hloop,
                hstored.clear_of_ne fun _ => ClearStep.noConfusion⟩
          | checkId =>
              exact ⟨h.clear_checkId hdvd hthread hloop,
                hstored.clear_of_ne fun _ => ClearStep.noConfusion⟩
          | packetCount | column | writingCol | indexCount =>
              exact ⟨h.clear_of_ne hloop ClearStep.noConfusion ClearStep.noConfusion,
                hstored.clear_of_ne fun _ => ClearStep.noConfusion⟩
  | left =>
      rw [hloop] at hstep
      cases hstep

theorem turns_of_reachable (hdvd : 0 < cfg.checkThreadNum → cfg.checkThreadNum ∣ cfg.totalBlockNum)
    (hlist : 2 ≤ cfg.poolListLen) (hcapacity : cfg.poolCapacity ≤ u64Max)
    (hdisk : cfg.diskBlockNum ≤ u64Max)
    (h : (system cfg hash std).Reachable (Unmarked cfg) st) : st.Turns cfg ∧ st.Stored cfg := by
  refine h.invariant (fun st => st.Turns cfg ∧ st.Stored cfg)
    ⟨turns_init cfg, stored_init hlist hcapacity⟩ ?_
  rintro st next label ⟨hturns, hstored⟩ hunmarked hstep
  cases label with
  | insert flow position diskBlockId rxId =>
      obtain ⟨-, hdone⟩ := Option.ite_none_right_eq_some.mp hstep
      obtain ⟨⟨done, after⟩, hinsert, rfl⟩ := Option.map_eq_some_iff.mp hdone
      exact ⟨hturns.insert hinsert, hstored.insert hturns hdisk hunmarked hinsert⟩
  | setPacketCount diskBlockId packetCount =>
      obtain rfl := Option.some.inj hstep
      obtain ⟨diskMetas, hset⟩ :=
        @IndexState.setPacketCount_rest cfg st.index diskBlockId packetCount
      rw [hset]
      exact ⟨hturns.of_same rfl (fun _ => rfl) rfl rfl rfl (fun _ => Iff.rfl) hturns.rest,
        hstored.of_le rfl (fun _ => le_rfl) (fun _ hvisit => hvisit) rfl⟩
  | recycleBlock blockId =>
      obtain ⟨-, hrecycle⟩ := Option.ite_none_right_eq_some.mp hstep
      obtain rfl := Option.some.inj hrecycle
      exact ⟨hturns.of_same rfl (fun _ => rfl) rfl rfl rfl (fun _ => Iff.rfl) hturns.rest,
        hstored.of_le rfl (fun _ => le_rfl) (fun _ hvisit => hvisit) rfl⟩
  | stopPersister threadId =>
      obtain rfl := Option.some.inj hstep
      have hloop : ∀ other, ((st.setPersister threadId
          { st.persisters threadId with stop := true }).persisters other).loop =
            (st.persisters other).loop := by
        intro other
        show (Function.update st.persisters threadId _ other).loop = _
        by_cases hsame : other = threadId
        · rw [hsame, Function.update_self]
        · rw [Function.update_of_ne hsame]
      refine ⟨hturns.of_same rfl (fun _ => rfl) rfl rfl rfl (fun other => by rw [hloop]) ?_,
        hstored.of_le rfl (fun _ => le_rfl) (fun _ hvisit => hvisit) rfl⟩
      intro other newCol rest hclearing
      exact hturns.rest other newCol rest ((hloop other).symm.trans hclearing)
  | persister threadId =>
      obtain ⟨hthread, hpersister⟩ := Option.ite_none_right_eq_some.mp hstep
      exact turns_persister hturns hstored hdisk hthread (hdvd (Nat.zero_lt_of_lt hthread))
        hpersister

/-- Each slot has its turns, and no record is recycled before its block is persisted. -/
theorem turnsKept (hdvd : 0 < cfg.checkThreadNum → cfg.checkThreadNum ∣ cfg.totalBlockNum)
    (hlist : 2 ≤ cfg.poolListLen) (hcapacity : cfg.poolCapacity ≤ u64Max)
    (hdisk : cfg.diskBlockNum ≤ u64Max)
    (h : (system cfg hash std).Reachable (Unmarked cfg) st) : st.TurnsKept cfg := by
  obtain ⟨hturns, hstored⟩ := turns_of_reachable hdvd hlist hcapacity hdisk h
  refine ⟨fun first hfirst second hsecond => hturns.exclusive hfirst hsecond, hturns.block,
    fun slot hslot => ⟨st.ahead cfg slot, ?_, hturns.persisted slot hslot⟩, hturns.cleared,
    hstored.kept⟩
  unfold ahead
  split_ifs
  · exact le_rfl
  · exact Nat.zero_le 1

/-- Two slots with a persister each. -/
def twoPersisters : IndexConfig :=
  { IndexStorageConfig.smallStorage.index with
    totalBlockNum := 2
    checkThreadNum := 2
    totalBlockNum_pos := Nat.two_pos
    diskBlockNum_mod := Nat.mul_mod_right 2 4
    checkThreadNum_le := Nat.le_add_left 2 0
    writeThreadNum_le := Nat.le_add_left 2 0 }

/-- Three slots for two persisters. -/
def threeSlots : IndexConfig :=
  { twoPersisters with
    totalBlockNum := 3
    diskBlockNum := 15
    backupColCount := 1
    totalBlockNum_pos := Nat.add_pos_left Nat.two_pos 1
    diskBlockNum_pos := Nat.succ_pos 14
    diskBlockNum_mod := Nat.mul_mod_right 3 5
    bitmap := rfl
    checkThreadNum_le := Nat.le_add_right 2 1 }

/-- A record of a block and its dump. -/
def dumped (diskBlockId : ℕ) : List StageLabel :=
  [.insert IndexStorageConfig.portFlow 5 diskBlockId 0, .setPacketCount diskBlockId 1]

open IndexStorageConfig in
theorem turnsKept_twoPersisters : ∃ st : IndexStage,
    (st.persists = [⟨0, 0⟩] ∧ st.laps 0 = 1 ∧ st.records.length = 4) ∧
      st.TurnsKept twoPersisters := by
  obtain ⟨st, hreach, hst⟩ := (system twoPersisters someHash someSort).exists_reachable
    (dumped 0 ++ dumped 1 ++ List.replicate 12 (.persister 0))
    (fun st => st.persists = [⟨0, 0⟩] ∧ st.laps 0 = 1 ∧ st.records.length = 4)
    (show TransitionSystem.RunAllowed _ (Unmarked twoPersisters) _ _ by decide +kernel)
    (by decide +kernel)
  exact ⟨st, hst, turnsKept (fun _ => Nat.dvd_refl 2) (by decide) (by decide) (by decide) hreach⟩

open IndexStorageConfig in
/-- The second persister comes to the slot where the first one waits. -/
theorem turns_shared : ∃ st, (system threeSlots someHash someSort).Reachable (fun _ _ => True) st ∧
    st.index.checkId 0 = st.index.checkId 1 :=
  (system threeSlots someHash someSort).exists_reachable
    (dumped 1 ++ List.replicate 12 (.persister 1)) _
    (TransitionSystem.runAllowed_true _) (by decide +kernel)

end IndexStage

end TrafficDatabase
