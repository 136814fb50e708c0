import TrafficDatabase.Data.DPDKReader
import TrafficDatabase.Index.ColumnOwnership
import TrafficDatabase.Index.Persisters

/-!
# The generators

`IndexGenerator::run` goes round its rings and takes one record at a time.  It puts the
record into the index buffer, and tries that again until it succeeds: the slot of the
record's block may still be at an older one.  That slot moves on when a persister has
seen all records of the older block.

With one ring a generator never waits for itself, since the ring has its records in the
order of their blocks.  As soon as it has two, the record it tries may be ahead of one
that is queued in the other ring (`blocksItself_iff`).
-/

namespace TrafficDatabase

/-- The rings of the generators; there is a ring for each pool. -/
structure GeneratorConfig (cfg : IndexConfig) where
  generatorNum : ℕ
  buffers : ℕ → List ℕ
  nodup : ∀ generator, (buffers generator).Nodup
  buffers_lt : ∀ generator, ∀ ring ∈ buffers generator, ring < cfg.poolNum

/-- The rings as the controller hands them out. -/
def GeneratorConfig.ofController (cfg : IndexConfig) (indexConstructThreadNum : ℕ) :
    GeneratorConfig cfg :=
  { generatorNum := indexConstructThreadNum
    buffers := fun i => (List.range cfg.poolNum).filter fun j => j % indexConstructThreadNum = i
    nodup := fun _ => List.nodup_range.filter _
    buffers_lt := fun _ _ hring => List.mem_range.mp (List.mem_filter.mp hring).1 }

/-- A record in a ring, with its disk block counted over all laps. -/
structure QueuedRecord where
  index : Index
  block : ℕ

/-- The loop of `run` a generator is in; it drains its rings once it was stopped. -/
inductive GeneratorLoop
  | running
  | draining
  | left
deriving DecidableEq, Repr

/-- A generator: the ring it looks at next, and the record it has taken. -/
structure Generator where
  loop : GeneratorLoop
  stop : Bool
  id : ℕ
  data : Option QueuedRecord

/-- The generators with their rings, and the index buffer with its persisters.  `lastPut` is
the block of the last record that was put on a ring, which no step looks at. -/
structure GeneratorStage where
  stage : IndexStage
  rings : ℕ → List QueuedRecord
  lastPut : ℕ → ℕ
  generators : ℕ → Generator

inductive GeneratorLabel
  | put (ring : ℕ) (record : QueuedRecord)
  | generator (i : ℕ)
  | stopGenerator (i : ℕ)
  | stage (label : StageLabel)

namespace GeneratorStage

variable (cfg : IndexConfig) (gens : GeneratorConfig cfg) (hash : StdHash) (std : StdSort)

def init : GeneratorStage :=
  { stage := .init cfg
    rings := fun _ => []
    lastPut := fun _ => 0
    generators := fun _ => { loop := .running, stop := false, id := 0, data := none } }

variable (st : GeneratorStage)

def setGenerator (i : ℕ) (generator : Generator) : GeneratorStage :=
  { st with generators := Function.update st.generators i generator }

/-- The reader's side of a ring. -/
def put (ring : ℕ) (record : QueuedRecord) : GeneratorStage :=
  { st with
    rings := Function.update st.rings ring (st.rings ring ++ [record])
    lastPut := Function.update st.lastPut ring record.block }

/-- `readIndexFromBuffer`, where there is a record. -/
def take (i ring : ℕ) (record : QueuedRecord) (rest : List QueuedRecord) : GeneratorStage :=
  { st.setGenerator i { st.generators i with data := some record } with
    rings := Function.update st.rings ring rest }

/-- One attempt of `putIndexToCache`.  After it the running generator goes on to its next
ring, and the draining one looks at the same again. -/
def putIndexToCache (i : ℕ) (record : QueuedRecord) : Option GeneratorStage :=
  let generator := st.generators i
  (st.stage.insert cfg hash record.index.flow record.index.position record.index.diskBlockId
    record.index.rxId).map fun (done, stage) =>
      if done then
        { st.setGenerator i
            { generator with
              data := none
              id := if generator.loop = .running then generator.id + 1 else generator.id } with
          stage }
      else { st with stage }

/-- The next step of a generator. -/
def generator (i : ℕ) : Option GeneratorStage :=
  let generator := st.generators i
  match generator.data with
  | some record => st.putIndexToCache cfg hash i record
  | none =>
      if generator.loop = .left then none
      else
        match (gens.buffers i)[generator.id]? with
        | some ring =>
            match st.rings ring with
            | record :: rest => some (st.take i ring record rest)
            | [] => some (st.setGenerator i { generator with id := generator.id + 1 })
        | none =>
            if generator.loop = .draining then
              some (st.setGenerator i { generator with loop := .left })
            else if generator.stop then
              some (st.setGenerator i { generator with loop := .draining, id := 0 })
            else some (st.setGenerator i { generator with id := 0 })

/-- Only generators insert. -/
def stageStep : StageLabel → Option GeneratorStage
  | .insert _ _ _ _ => none
  | label => (IndexStage.step cfg hash std st.stage label).map fun stage => { st with stage }

def step (st : GeneratorStage) : GeneratorLabel → Option GeneratorStage
  | .put ring record =>
      if record.index.rxId < cfg.poolNum ∧
          record.index.diskBlockId = record.block % cfg.diskBlockNum then
        some (st.put ring record)
      else none
  | .generator i => if i < gens.generatorNum then st.generator cfg gens hash i else none
  | .stopGenerator i => some (st.setGenerator i { st.generators i with stop := true })
  | .stage label => st.stageStep cfg hash std label

/-- The index stage. -/
def system : TransitionSystem GeneratorStage GeneratorLabel :=
  { init := init cfg, step := step cfg gens hash std }

/-- Each ring gets its records in the order of their blocks. -/
def InOrder (st : GeneratorStage) : GeneratorLabel → Prop
  | .put ring record => st.lastPut ring ≤ record.block
  | _ => True

/-- The generator tries a record whose slot is at an older block; and a persister that
counts the records of this one will find too few, as one of them is queued in a ring of
the same generator. -/
def BlocksItself (i : ℕ) : Prop :=
  ∃ record, (st.generators i).data = some record ∧
    let slot := record.index.diskBlockId % cfg.totalBlockNum
    (st.stage.index.metas slot).diskBlockId ≠ record.index.diskBlockId ∧
      st.stage.held cfg slot < record.block ∧
      (∃ ring ∈ gens.buffers i, ∃ queued ∈ st.rings ring, queued.block = st.stage.held cfg slot) ∧
      ∃ threadId < cfg.checkThreadNum, st.stage.index.checkId threadId = slot ∧
        ∃ packetCount, (st.stage.persisters threadId).loop = .counting packetCount ∧
          st.stage.index.checkIndexCount threadId < packetCount

end GeneratorStage

/-! ## The blocks of the slots -/

namespace IndexStage

/-- Each slot has the number of the block it is at. -/
def SlotsAt (cfg : IndexConfig) (st : IndexStage) : Prop :=
  ∀ slot < cfg.totalBlockNum,
    (st.index.metas slot).diskBlockId = st.held cfg slot % cfg.diskBlockNum

variable {cfg : IndexConfig} {hash : StdHash} {std : StdSort} {st next : IndexStage}

theorem slotsAt_init : SlotsAt cfg (.init cfg) := by
  intro slot hslot
  change slot = (slot + cfg.totalBlockNum * 0) % cfg.diskBlockNum
  rw [Nat.mul_zero, Nat.add_zero, Nat.mod_eq_of_lt (hslot.trans_le cfg.totalBlockNum_le)]

theorem SlotsAt.of_same (h : SlotsAt cfg st) (hlaps : next.laps = st.laps)
    (hmetas : ∀ slot, (next.index.metas slot).diskBlockId = (st.index.metas slot).diskBlockId) :
    SlotsAt cfg next := by
  intro slot hslot
  rw [hmetas, held, hlaps]
  exact h slot hslot

theorem SlotsAt.insert (h : SlotsAt cfg st) {flow : FlowMetadata}
    {position diskBlockId rxId : ℕ} {done : Bool}
    (hinsert : st.insert cfg hash flow position diskBlockId rxId = some (done, next)) :
    SlotsAt cfg next := by
  obtain ⟨⟨_, index⟩, hindex, hnext⟩ := Option.map_eq_some_iff.mp hinsert
  obtain ⟨rfl, rfl⟩ := Prod.mk.inj hnext
  rcases IndexState.insert_cases hindex with ⟨-, bitmap, rfl, -⟩ | ⟨-, hinserted⟩
  · exact h.of_same rfl fun _ => rfl
  · refine h.of_same rfl fun slot => ?_
    change (index.metas slot).diskBlockId = _
    rw [hinserted.metas]
    by_cases hat : slot = diskBlockId % cfg.totalBlockNum
    · rw [hat, Function.update_self]
    · rw [Function.update_of_ne hat]

theorem SlotsAt.clear (h : SlotsAt cfg st) (threadId newCol : ℕ) (step : ClearStep)
    (rest : List ClearStep) : SlotsAt cfg (st.clear cfg threadId newCol step rest) := by
  by_cases hblock : step = .diskBlock
  · subst hblock
    intro slot hslot
    change (Function.update st.index.metas (st.index.checkId threadId) _ slot).diskBlockId =
      (slot + cfg.totalBlockNum * Function.update st.laps (st.index.checkId threadId) _ slot) %
        cfg.diskBlockNum
    by_cases hat : slot = st.index.checkId threadId
    · rw [← hat, Function.update_self, Function.update_self]
      change ((st.index.metas (st.index.checkId threadId)).diskBlockId + cfg.totalBlockNum) %
        cfg.diskBlockNum = _
      rw [← hat, h slot hslot, Nat.mod_add_mod, held, Nat.mul_succ, Nat.add_assoc]
    · rw [Function.update_of_ne hat, Function.update_of_ne hat]
      exact h slot hslot
  · have hclear : st.clear cfg threadId newCol step rest =
        { st.setLoop threadId (.clearing newCol rest) with
          index := st.index.clearStep cfg threadId newCol step } := if_neg hblock
    rw [hclear]
    exact h.of_same rfl (IndexState.clearStep_diskBlockId threadId newCol hblock)

theorem SlotsAt.persister (h : SlotsAt cfg st) {threadId : ℕ}
    (hstep : st.persister cfg std threadId = some next) : SlotsAt cfg next := by
  have hloop : ∀ loop, SlotsAt cfg (st.setLoop threadId loop) := fun loop =>
    h.of_same rfl fun _ => rfl
  unfold IndexStage.persister at hstep
  cases hat : (st.persisters threadId).loop with
  | waiting =>
      rw [hat] at hstep
      dsimp only at hstep
      split_ifs at hstep
      all_goals obtain rfl := Option.some.inj hstep
      · exact hloop _
      · exact h
      · exact hloop _
  | counting packetCount =>
      rw [hat] at hstep
      dsimp only at hstep
      split_ifs at hstep
      all_goals obtain rfl := Option.some.inj hstep
      · exact h
      · exact hloop _
  | persisting =>
      rw [hat] at hstep
      obtain ⟨index, hindex, rfl⟩ := Option.map_eq_some_iff.mp hstep
      refine h.of_same rfl fun slot => ?_
      change (index.metas slot).diskBlockId = _
      rw [(IndexState.persisted_of_persistMeta hindex).metas]
  | persisted =>
      rw [hat] at hstep
      obtain rfl := Option.some.inj hstep
      exact hloop _
  | clearing newCol steps =>
      rw [hat] at hstep
      cases steps with
      | nil =>
          obtain rfl := Option.some.inj hstep
          exact hloop _
      | cons step rest =>
          obtain rfl := Option.some.inj hstep
          exact SlotsAt.clear h threadId newCol step rest
  | left =>
      rw [hat] at hstep
      cases hstep

/-- A step of the index stage that is not one of a generator. -/
theorem SlotsAt.step (h : SlotsAt cfg st) {label : StageLabel}
    (hstep : step cfg hash std st label = some next) : SlotsAt cfg next := by
  cases label with
  | insert flow position diskBlockId rxId =>
      obtain ⟨-, hdone⟩ := Option.ite_none_right_eq_some.mp hstep
      obtain ⟨⟨done, after⟩, hinsert, rfl⟩ := Option.map_eq_some_iff.mp hdone
      exact h.insert hinsert
  | setPacketCount diskBlockId packetCount =>
      obtain rfl := Option.some.inj hstep
      obtain ⟨diskMetas, hset⟩ :=
        @IndexState.setPacketCount_rest cfg st.index diskBlockId packetCount
      rw [hset]
      exact h.of_same rfl fun _ => rfl
  | recycleBlock blockId =>
      obtain ⟨-, hrecycle⟩ := Option.ite_none_right_eq_some.mp hstep
      obtain rfl := Option.some.inj hrecycle
      exact h.of_same rfl fun _ => rfl
  | stopPersister threadId =>
      obtain rfl := Option.some.inj hstep
      exact h.of_same rfl fun _ => rfl
  | persister threadId =>
      obtain ⟨-, hpersister⟩ := Option.ite_none_right_eq_some.mp hstep
      exact h.persister hpersister

end IndexStage

namespace GeneratorStage

variable {cfg : IndexConfig} {gens : GeneratorConfig cfg} {hash : StdHash} {std : StdSort}
  {st next : GeneratorStage}

/-! ## The order of the records -/

/-- The rings have their records in order, each behind the one its generator has taken, and
the records name their blocks. -/
structure Ordered (gens : GeneratorConfig cfg) (st : GeneratorStage) : Prop where
  slotsAt : st.stage.SlotsAt cfg
  ordered : ∀ ring, (st.rings ring).Pairwise fun first second => first.block ≤ second.block
  le_lastPut : ∀ ring, ∀ queued ∈ st.rings ring, queued.block ≤ st.lastPut ring
  named : ∀ ring, ∀ queued ∈ st.rings ring,
    queued.index.diskBlockId = queued.block % cfg.diskBlockNum
  taken : ∀ i record, (st.generators i).data = some record →
    record.index.diskBlockId = record.block % cfg.diskBlockNum ∧
      ∃ ring ∈ gens.buffers i, record.block ≤ st.lastPut ring ∧
        ∀ queued ∈ st.rings ring, record.block ≤ queued.block

theorem ordered_init : Ordered gens (init cfg) where
  slotsAt := IndexStage.slotsAt_init
  ordered _ := .nil
  le_lastPut _ _ hqueued := by cases hqueued
  named _ _ hqueued := by cases hqueued
  taken _ _ hdata := by cases hdata

/-- A generator that takes no record. -/
theorem Ordered.setGenerator (h : Ordered gens st) (i : ℕ) {generator : Generator}
    (hdata : ∀ record, generator.data = some record → (st.generators i).data = some record) :
    Ordered gens (st.setGenerator i generator) where
  slotsAt := h.slotsAt
  ordered := h.ordered
  le_lastPut := h.le_lastPut
  named := h.named
  taken j record hrecord := by
    change (Function.update st.generators i generator j).data = some record at hrecord
    by_cases hsame : j = i
    · rw [hsame, Function.update_self] at hrecord
      exact h.taken j record (hsame ▸ hdata record hrecord)
    · rw [Function.update_of_ne hsame] at hrecord
      exact h.taken j record hrecord

theorem Ordered.withStage (h : Ordered gens st) {stage : IndexStage} (hslots : stage.SlotsAt cfg) :
    Ordered gens { st with stage } :=
  ⟨hslots, h.ordered, h.le_lastPut, h.named, h.taken⟩

/-- The reader puts a record behind those of its ring. -/
theorem Ordered.put (h : Ordered gens st) {ring : ℕ} {record : QueuedRecord}
    (horder : st.lastPut ring ≤ record.block)
    (hnamed : record.index.diskBlockId = record.block % cfg.diskBlockNum) :
    Ordered gens (st.put ring record) := by
  -- the ring gets the record at its end, and it is the last one put there
  have hrings : ∀ other, (st.put ring record).rings other =
      if other = ring then st.rings ring ++ [record] else st.rings other :=
    fun other => Function.update_apply ..
  have hlastPut : ∀ other, (st.put ring record).lastPut other =
      if other = ring then record.block else st.lastPut other :=
    fun other => Function.update_apply ..
  refine ⟨h.slotsAt, fun other => ?_, fun other queued => ?_, fun other queued => ?_,
    fun i taken hdata => ?_⟩
  · rw [hrings]
    split_ifs
    · refine List.pairwise_append.mpr ⟨h.ordered ring, List.pairwise_singleton _ _, ?_⟩
      intro queued hqueued last hlast
      rw [List.mem_singleton.mp hlast]
      exact (h.le_lastPut ring queued hqueued).trans horder
    · exact h.ordered other
  · rw [hrings, hlastPut]
    split_ifs
    · intro hqueued
      rcases List.mem_append.mp hqueued with hqueued | hqueued
      · exact (h.le_lastPut ring queued hqueued).trans horder
      · rw [List.mem_singleton.mp hqueued]
    · exact h.le_lastPut other queued
  · rw [hrings]
    split_ifs
    · intro hqueued
      rcases List.mem_append.mp hqueued with hqueued | hqueued
      · exact h.named ring queued hqueued
      · rw [List.mem_singleton.mp hqueued, hnamed]
    · exact h.named other queued
  · obtain ⟨hname, own, hown, hlast, hbehind⟩ := h.taken i taken hdata
    refine ⟨hname, own, hown, ?_, fun queued => ?_⟩
    · rw [hlastPut]
      split_ifs with hsame
      · exact hlast.trans (hsame ▸ horder)
      · exact hlast
    · rw [hrings]
      split_ifs with hsame
      · intro hqueued
        rcases List.mem_append.mp hqueued with hqueued | hqueued
        · exact hbehind queued (hsame ▸ hqueued)
        · rw [List.mem_singleton.mp hqueued]
          exact hlast.trans (hsame ▸ horder)
      · exact hbehind queued

/-- The record a generator takes is the first of its ring. -/
theorem Ordered.take (h : Ordered gens st) {i ring : ℕ} (hring : ring ∈ gens.buffers i)
    {record : QueuedRecord} {rest : List QueuedRecord}
    (hrecords : st.rings ring = record :: rest) : Ordered gens (st.take i ring record rest) := by
  have hrings : ∀ other, (st.take i ring record rest).rings other =
      if other = ring then rest else st.rings other := fun other => Function.update_apply ..
  have hordered : (record :: rest).Pairwise fun first second => first.block ≤ second.block :=
    hrecords ▸ h.ordered ring
  have hsub : ∀ other, ∀ queued ∈ (st.take i ring record rest).rings other,
      queued ∈ st.rings other := by
    intro other queued hqueued
    rw [hrings] at hqueued
    split_ifs at hqueued with hsame
    · rw [hsame, hrecords]
      exact List.mem_cons_of_mem _ hqueued
    · exact hqueued
  refine ⟨h.slotsAt, fun other => ?_, fun other queued hqueued =>
    h.le_lastPut other queued (hsub other queued hqueued), fun other queued hqueued =>
    h.named other queued (hsub other queued hqueued), fun j taken hdata => ?_⟩
  · rw [hrings]
    split_ifs
    · exact (List.pairwise_cons.mp hordered).2
    · exact h.ordered other
  · change (Function.update st.generators i { st.generators i with data := some record } j).data =
      some taken at hdata
    by_cases hsame : j = i
    · rw [hsame, Function.update_self] at hdata
      obtain rfl := Option.some.inj hdata
      have hfirst : record ∈ st.rings ring := hrecords ▸ List.mem_cons_self
      refine ⟨h.named ring record hfirst, ring, hsame ▸ hring, h.le_lastPut ring record hfirst,
        fun queued hqueued => ?_⟩
      rw [hrings, if_pos rfl] at hqueued
      exact (List.pairwise_cons.mp hordered).1 queued hqueued
    · rw [Function.update_of_ne hsame] at hdata
      obtain ⟨hname, own, hown, hlast, hbehind⟩ := h.taken j taken hdata
      exact ⟨hname, own, hown, hlast, fun queued hqueued =>
        hbehind queued (hsub own queued hqueued)⟩

theorem Ordered.putIndexToCache (h : Ordered gens st) {i : ℕ} {record : QueuedRecord}
    (hput : st.putIndexToCache cfg hash i record = some next) : Ordered gens next := by
  obtain ⟨⟨done, stage⟩, hinsert, hnext⟩ := Option.map_eq_some_iff.mp hput
  dsimp only at hnext
  have hslots := h.slotsAt.insert hinsert
  cases done with
  | true =>
      obtain rfl := hnext
      exact (h.setGenerator i fun record hdata => by cases hdata).withStage hslots
  | false =>
      obtain rfl := hnext
      exact h.withStage hslots

theorem Ordered.generator (h : Ordered gens st) {i : ℕ}
    (hstep : st.generator cfg gens hash i = some next) : Ordered gens next := by
  unfold GeneratorStage.generator at hstep
  dsimp only at hstep
  cases hdata : (st.generators i).data with
  | some record =>
      rw [hdata] at hstep
      exact h.putIndexToCache hstep
  | none =>
      rw [hdata] at hstep
      have hset : ∀ {generator : Generator}, generator.data = none →
          Ordered gens (st.setGenerator i generator) := fun hnone =>
        h.setGenerator i fun record hsome => by rw [hnone] at hsome; cases hsome
      dsimp only at hstep
      by_cases hleft : (st.generators i).loop = .left
      · rw [if_pos hleft] at hstep
        cases hstep
      · rw [if_neg hleft] at hstep
        cases hring : (gens.buffers i)[(st.generators i).id]? with
        | some ring =>
            rw [hring] at hstep
            dsimp only at hstep
            cases hrecords : st.rings ring with
            | cons record rest =>
                rw [hrecords] at hstep
                obtain rfl := Option.some.inj hstep
                exact h.take (List.mem_of_getElem? hring) hrecords
            | nil =>
                rw [hrecords] at hstep
                obtain rfl := Option.some.inj hstep
                exact hset rfl
        | none =>
            rw [hring] at hstep
            dsimp only at hstep
            split_ifs at hstep
            all_goals obtain rfl := Option.some.inj hstep
            all_goals exact hset rfl

/-- What is not a step of a generator leaves the rings. -/
theorem stageStep_eq_some {label : StageLabel}
    (h : st.stageStep cfg hash std label = some next) :
    ∃ stage, IndexStage.step cfg hash std st.stage label = some stage ∧
      next = { st with stage } := by
  cases label with
  | insert => cases h
  | setPacketCount diskBlockId packetCount => exact ⟨_, rfl, (Option.some.inj h).symm⟩
  | stopPersister threadId => exact ⟨_, rfl, (Option.some.inj h).symm⟩
  | recycleBlock blockId =>
      obtain ⟨stage, hstage, hnext⟩ := Option.map_eq_some_iff.mp h
      exact ⟨stage, hstage, hnext.symm⟩
  | persister threadId =>
      obtain ⟨stage, hstage, hnext⟩ := Option.map_eq_some_iff.mp h
      exact ⟨stage, hstage, hnext.symm⟩

theorem Ordered.step (h : Ordered gens st) {label : GeneratorLabel} (horder : st.InOrder label)
    (hstep : step cfg gens hash std st label = some next) : Ordered gens next := by
  cases label with
  | put ring record =>
      obtain ⟨⟨-, hnamed⟩, hput⟩ := Option.ite_none_right_eq_some.mp hstep
      obtain rfl := Option.some.inj hput
      exact h.put horder hnamed
  | generator i =>
      obtain ⟨-, hgenerator⟩ := Option.ite_none_right_eq_some.mp hstep
      exact h.generator hgenerator
  | stopGenerator i =>
      obtain rfl := Option.some.inj hstep
      exact h.setGenerator i fun record hdata => hdata
  | stage label =>
      obtain ⟨stage, hstage, rfl⟩ := stageStep_eq_some hstep
      exact h.withStage (h.slotsAt.step hstage)

theorem ordered_of_reachable (h : (system cfg gens hash std).Reachable InOrder st) :
    Ordered gens st :=
  h.invariant (Ordered gens) ordered_init fun hordered horder hstep =>
    hordered.step horder hstep

/-! ## Waiting for itself -/

/-- What is queued in its only ring is not older than what the generator has taken. -/
theorem Ordered.not_blocksItself_of_length_le (h : Ordered gens st) {i : ℕ}
    (hone : (gens.buffers i).length ≤ 1) : ¬ st.BlocksItself cfg gens i := by
  rintro ⟨record, hdata, -, hold, ⟨ring, hring, queued, hqueued, hblock⟩, -⟩
  obtain ⟨-, own, hown, -, hbehind⟩ := h.taken i record hdata
  have hsame : ring = own := by
    obtain ⟨only, honly⟩ := List.length_eq_one_iff.mp
      (le_antisymm hone (List.length_pos_of_mem hring))
    rw [honly] at hring hown
    rw [List.mem_singleton.mp hring, List.mem_singleton.mp hown]
  have := hbehind queued (hsame ▸ hqueued)
  omega

/-- With a slot for each block of the disk none is ever at another one. -/
theorem Ordered.not_blocksItself_of_eq (h : Ordered gens st)
    (hslots : cfg.totalBlockNum = cfg.diskBlockNum) (i : ℕ) : ¬ st.BlocksItself cfg gens i := by
  rintro ⟨record, hdata, hother, -⟩
  apply hother
  have hnamed := (h.taken i record hdata).1
  have hlt : record.index.diskBlockId < cfg.totalBlockNum := by
    rw [hnamed, hslots]
    exact Nat.mod_lt _ cfg.diskBlockNum_pos
  rw [Nat.mod_eq_of_lt hlt, h.slotsAt _ hlt, IndexStage.held, ← hslots,
    Nat.add_mul_mod_self_left, Nat.mod_eq_of_lt hlt]

/-- The stage when a persister has found one packet in the dump of block 0. -/
def counting (cfg : IndexConfig) : IndexStage :=
  { (IndexStage.init cfg).setLoop 0 (.counting 1) with
    index := (IndexState.init cfg).setPacketCount cfg 0 1 }

/-- The record of a packet in a block. -/
def recordOf (cfg : IndexConfig) (block : ℕ) : QueuedRecord :=
  { index :=
      { ts := 0, diskBlockId := block % cfg.diskBlockNum, position := 0, rxId := 0
        flow :=
          { sourceAddress := [], destinationAddress := [], sourcePort := 0,
            destinationPort := 0 } }
    block }

theorem checkId_init (hthread : 0 < cfg.checkThreadNum) :
    (IndexState.init cfg).checkId 0 = 0 := by
  change (List.range cfg.checkThreadNum).getD 0 0 = 0
  rw [List.getD_eq_getElem?_getD, List.getElem?_range hthread, Option.getD_some]

theorem step_counting (hthread : 0 < cfg.checkThreadNum) :
    IndexStage.step cfg hash std
      { IndexStage.init cfg with index := (IndexState.init cfg).setPacketCount cfg 0 1 }
      (.persister 0) = some (counting cfg) := by
  have hdish : ((IndexState.init cfg).setPacketCount cfg 0 1).getCheckDishID 0 = 0 := by
    unfold IndexState.setPacketCount
    rw [if_pos cfg.diskBlockNum_pos]
    exact checkId_init hthread
  have hcount : (((IndexState.init cfg).setPacketCount cfg 0 1).diskMetas 0).packetCount = 1 := by
    simp [IndexState.setPacketCount, cfg.diskBlockNum_pos]
  refine (if_pos hthread).trans ?_
  change some (if (((IndexState.init cfg).setPacketCount cfg 0 1).diskMetas
    (((IndexState.init cfg).setPacketCount cfg 0 1).getCheckDishID 0)).packetCount = 0 then _
      else _) = _
  rw [hdish, hcount, if_neg Nat.one_ne_zero]
  rfl

/-- With two rings, another block for the same slot and a persister there is a run. -/
theorem exists_blocksItself {i : ℕ} (hi : i < gens.generatorNum) {first second : ℕ}
    {others : List ℕ} (hbuffers : gens.buffers i = first :: second :: others)
    (hlt : cfg.totalBlockNum < cfg.diskBlockNum) (hthread : 0 < cfg.checkThreadNum) :
    ∃ st, (system cfg gens hash std).Reachable InOrder st ∧ st.BlocksItself cfg gens i := by
  have hne : first ≠ second := by
    have hnodup := gens.nodup i
    rw [hbuffers] at hnodup
    exact fun hsame => (List.nodup_cons.mp hnodup).1 (hsame ▸ List.mem_cons_self)
  have hpool : 0 < cfg.poolNum :=
    Nat.zero_lt_of_lt (gens.buffers_lt i first (hbuffers ▸ List.mem_cons_self))
  have hblock : cfg.totalBlockNum % cfg.diskBlockNum = cfg.totalBlockNum := Nat.mod_eq_of_lt hlt
  -- the record of a lap later comes into the first ring, one of block 0 behind it in the second
  let late := recordOf cfg cfg.totalBlockNum
  let early := recordOf cfg 0
  let dumped : GeneratorStage :=
    { init cfg with
      stage := { IndexStage.init cfg with index := (IndexState.init cfg).setPacketCount cfg 0 1 } }
  let counted : GeneratorStage := { init cfg with stage := counting cfg }
  let queued := (counted.put first late).put second early
  have hrings : queued.rings first = [late] := by
    change Function.update (Function.update _ first _) second _ first = _
    rw [Function.update_of_ne hne, Function.update_self]
    rfl
  have hdumped : (system cfg gens hash std).Reachable InOrder dumped :=
    @TransitionSystem.Reachable.step _ _ _ _ _ _ (.stage (.setPacketCount 0 1))
      .init trivial rfl
  have hcounted : (system cfg gens hash std).Reachable InOrder counted := by
    refine @TransitionSystem.Reachable.step _ _ _ _ _ _ (.stage (.persister 0)) hdumped trivial ?_
    change (IndexStage.step cfg hash std dumped.stage (.persister 0)).map _ = _
    rw [step_counting hthread]
    rfl
  have hlate : (system cfg gens hash std).Reachable InOrder (counted.put first late) :=
    @TransitionSystem.Reachable.step _ _ _ _ _ _ (.put first late) hcounted (Nat.zero_le _)
      (if_pos ⟨hpool, rfl⟩)
  have hqueued : (system cfg gens hash std).Reachable InOrder queued := by
    refine @TransitionSystem.Reachable.step _ _ _ _ _ _ (.put second early) hlate ?_
      (if_pos ⟨hpool, rfl⟩)
    change Function.update counted.lastPut first late.block second ≤ 0
    rw [Function.update_of_ne hne.symm]
    exact le_rfl
  have htaken : (system cfg gens hash std).Reachable InOrder (queued.take i first late []) := by
    refine @TransitionSystem.Reachable.step _ _ _ _ _ _ (.generator i) hqueued trivial ?_
    refine (if_pos hi).trans ?_
    change (match (gens.buffers i)[0]? with
      | some ring =>
          match queued.rings ring with
          | record :: rest => some (queued.take i ring record rest)
          | [] => _
      | none => _) = _
    rw [hbuffers]
    change (match queued.rings first with
      | record :: rest => some (queued.take i first record rest)
      | [] => _) = _
    rw [hrings]
  -- the generator has the later record, and the other one is still to come
  refine ⟨_, htaken, late, ?_, ?_⟩
  · change (Function.update queued.generators i
      { queued.generators i with data := some late } i).data = some late
    rw [Function.update_self]
  · have hslot : late.index.diskBlockId % cfg.totalBlockNum = 0 := by
      change cfg.totalBlockNum % cfg.diskBlockNum % cfg.totalBlockNum = 0
      rw [hblock, Nat.mod_self]
    have hsecond : early ∈ (queued.take i first late []).rings second := by
      change early ∈ Function.update queued.rings first [] second
      rw [Function.update_of_ne hne.symm]
      have hput : queued.rings second = (counted.put first late).rings second ++ [early] :=
        Function.update_self ..
      rw [hput]
      exact List.mem_append_right _ (List.mem_singleton_self _)
    have hmetas : (counting cfg).index.metas = (IndexState.init cfg).metas := by
      obtain ⟨diskMetas, hset⟩ := @IndexState.setPacketCount_rest cfg (IndexState.init cfg) 0 1
      change ((IndexState.init cfg).setPacketCount cfg 0 1).metas = _
      rw [hset]
    have hcheckId : (counting cfg).index.checkId 0 = 0 := by
      obtain ⟨diskMetas, hset⟩ := @IndexState.setPacketCount_rest cfg (IndexState.init cfg) 0 1
      change ((IndexState.init cfg).setPacketCount cfg 0 1).checkId 0 = 0
      rw [hset]
      exact checkId_init hthread
    have hcount : (counting cfg).index.checkIndexCount 0 = 0 := by
      rw [IndexState.checkIndexCount, hcheckId, hmetas]
      rfl
    dsimp only
    rw [hslot]
    refine ⟨?_, ?_, ⟨second, ?_, early, hsecond, ?_⟩, 0, hthread, hcheckId, 1, rfl, ?_⟩
    · change ((counting cfg).index.metas 0).diskBlockId ≠ cfg.totalBlockNum % cfg.diskBlockNum
      rw [hmetas, hblock]
      exact cfg.totalBlockNum_pos.ne
    · exact cfg.totalBlockNum_pos
    · rw [hbuffers]
      exact List.mem_cons_of_mem _ List.mem_cons_self
    · rfl
    · exact hcount.trans_lt Nat.one_pos

/-- In no run a generator waits for itself, exactly if none has two rings, or each disk
block has a slot of its own, or there is no persister. -/
theorem blocksItself_iff (cfg : IndexConfig) (gens : GeneratorConfig cfg) (hash : StdHash)
    (std : StdSort) :
    (∀ st, (system cfg gens hash std).Reachable InOrder st →
        ∀ i < gens.generatorNum, ¬ st.BlocksItself cfg gens i) ↔
      (∀ i < gens.generatorNum, (gens.buffers i).length ≤ 1) ∨
        cfg.totalBlockNum = cfg.diskBlockNum ∨ cfg.checkThreadNum = 0 := by
  constructor
  · intro hnever
    by_contra hnot
    push Not at hnot
    obtain ⟨⟨i, hi, htwo⟩, hslots, hthread⟩ := hnot
    obtain ⟨first, second, others, hbuffers⟩ :
        ∃ first second others, gens.buffers i = first :: second :: others := by
      match hrings : gens.buffers i with
      | [] => rw [hrings] at htwo; exact absurd htwo (by simp)
      | [first] => rw [hrings] at htwo; exact absurd htwo (by simp)
      | first :: second :: others => exact ⟨first, second, others, rfl⟩
    obtain ⟨st, hreach, hblocks⟩ := @exists_blocksItself cfg gens hash std i hi first second others
      hbuffers (lt_of_le_of_ne cfg.totalBlockNum_le hslots) (Nat.pos_of_ne_zero hthread)
    exact hnever st hreach i hi hblocks
  · intro hfree st hreach i hi
    have hordered := ordered_of_reachable hreach
    rcases hfree with hone | hslots | hnone
    · exact hordered.not_blocksItself_of_length_le (hone i hi)
    · exact hordered.not_blocksItself_of_eq hslots i
    · rintro ⟨record, -, -, -, -, threadId, hthread, -⟩
      rw [hnone] at hthread
      exact Nat.not_lt_zero _ hthread

/-- Two readers and with them two rings. -/
def twoRings : IndexConfig := { IndexHistory.oneSlot with poolNum := 2 }

open IndexStorageConfig in
/-- The only generator tries a record of block 1, and one of block 0 is in its other ring. -/
theorem generator_blocksItself : ∃ st,
    (system twoRings (.ofController twoRings 1) someHash someSort).Reachable InOrder st ∧
      st.BlocksItself twoRings (.ofController twoRings 1) 0 :=
  exists_blocksItself Nat.one_pos (show _ = [0, 1] from rfl) (by decide) (by decide)

end GeneratorStage

end TrafficDatabase
