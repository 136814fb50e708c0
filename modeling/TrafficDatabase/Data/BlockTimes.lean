import Mathlib.Order.Bounds.Basic
import TrafficDatabase.Data.DataBlockBuffer

/-!
# The times of a block

Beside its bytes the buffer keeps for each slot a start time and an end time.  A
write notes its own timestamp there, but only when it reaches the end of a block
or of a cell.  It is then taken for an end of the slot it is in and for a start
of the slot after it.

The start of a slot is the least timestamp ever noted for it, the end is the one
noted last (`Timed`); no recycling forgets them.
-/

namespace TrafficDatabase

/-- A `writeBlock` call: whether its block was in the slot, and whether it succeeded. -/
structure TimedCall where
  req : WriteRequest
  held : Bool
  done : Bool

namespace TimedCall

variable (cfg : DataBlockConfig) (call : TimedCall) (slot : ℕ)

/-- The call that is made to the buffer. -/
def made (buf : DataBlockBuffer) (threadId : ℕ) (req : WriteRequest) : TimedCall :=
  { req, held := decide (buf.Holds cfg req.diskPos), done := (buf.writeBlock cfg threadId req).1 }

/-- The slot the write starts in. -/
def first : ℕ := cfg.slotOf call.req.diskPos

/-- The slot it comes to: the next one, if it reaches the end of its block. -/
def last : ℕ :=
  if cfg.Crosses call.req.diskPos call.req.data.length then (call.first cfg + 1) % cfg.totalBlockNum
  else call.first cfg

/-- The write reaches the end of a part of its block; the parts are the readers' cells. -/
def EndsPart (req : WriteRequest) : Prop :=
  (req.diskPos % cfg.blockSize + req.data.length) % (cfg.blockSize / cfg.rssNum) = 0

instance (req : WriteRequest) : Decidable (EndsPart cfg req) := inferInstanceAs (Decidable (_ = _))

/-- The timestamp is noted as a start of the slot. -/
def NotesStart : Prop :=
  call.req.newData ∧ call.done ∧
    (cfg.Crosses call.req.diskPos call.req.data.length ∧ slot = call.last cfg ∨
      EndsPart cfg call.req ∧ slot = (call.last cfg + 1) % cfg.totalBlockNum)

instance : Decidable (call.NotesStart cfg slot) := inferInstanceAs (Decidable (_ ∧ _))

/-- The timestamp is noted as an end of the slot, in a write that reaches the end of its
block even if the call fails for the next one. -/
def NotesEnd : Prop :=
  call.req.newData ∧
    (call.held ∧ cfg.Crosses call.req.diskPos call.req.data.length ∧ slot = call.first cfg ∨
      call.done ∧ EndsPart cfg call.req ∧ slot = call.last cfg)

instance : Decidable (call.NotesEnd cfg slot) := inferInstanceAs (Decidable (_ ∧ _))

/-- The timestamps of the calls that note one, in their order. -/
def noted (notes : TimedCall → Prop) [DecidablePred notes] (calls : List TimedCall) : List ℕ :=
  (calls.filter fun call => notes call).map fun call => call.req.ts

/-- The constructor's start, and those noted by the calls. -/
def starts (calls : List TimedCall) : List ℕ :=
  u64Max :: noted (fun call => call.NotesStart cfg slot) calls

/-- The constructor's end, and those noted by the calls. -/
def ends (calls : List TimedCall) : List ℕ :=
  0 :: noted (fun call => call.NotesEnd cfg slot) calls

theorem noted_append {notes : TimedCall → Prop} [DecidablePred notes] {calls : List TimedCall}
    {call : TimedCall} :
    noted notes (calls ++ [call]) =
      if notes call then noted notes calls ++ [call.req.ts] else noted notes calls := by
  unfold noted
  rw [List.filter_append, List.map_append, List.filter_cons, List.filter_nil]
  split_ifs with h hnot hnot
  · rfl
  · exact absurd (of_decide_eq_true h) hnot
  · exact absurd (decide_eq_true hnot) h
  · exact List.append_nil _

end TimedCall

namespace DataBlockBuffer

variable {cfg : DataBlockConfig} {buf : DataBlockBuffer} {threadId : ℕ} {req : WriteRequest}

/-! ## What `writeBlock` notes -/

theorem finishWrite_startTimes (blockId diskId slot : ℕ) :
    (buf.finishWrite cfg threadId blockId diskId req).startTimes slot =
      if req.newData ∧ TimedCall.EndsPart cfg req ∧ slot = (blockId + 1) % cfg.totalBlockNum then
        min (buf.startTimes slot) req.ts
      else buf.startTimes slot := by
  simp only [finishWrite, setDiskWriteId, TimedCall.EndsPart]
  split_ifs <;> simp_all

theorem finishWrite_endTimes (blockId diskId slot : ℕ) :
    (buf.finishWrite cfg threadId blockId diskId req).endTimes slot =
      if req.newData ∧ TimedCall.EndsPart cfg req ∧ slot = blockId then req.ts
      else buf.endTimes slot := by
  simp only [finishWrite, setDiskWriteId, TimedCall.EndsPart]
  split_ifs <;> simp_all

/-- A call for a block that is not in its slot notes nothing. -/
theorem writeBlock_times_of_not_holds (h : ¬ buf.Holds cfg req.diskPos) :
    (buf.writeBlock cfg threadId req).2.startTimes = buf.startTimes ∧
      (buf.writeBlock cfg threadId req).2.endTimes = buf.endTimes := by
  unfold Holds at h
  unfold writeBlock
  dsimp only
  rw [if_pos h]
  cases req.newData <;> exact ⟨rfl, rfl⟩

/-- A write that stays in its block notes at most the end of a part. -/
theorem writeBlock_of_not_crosses (h : buf.Holds cfg req.diskPos)
    (hinside : ¬ cfg.Crosses req.diskPos req.data.length) :
    buf.writeBlock cfg threadId req =
      (true, buf.finishWrite cfg threadId (cfg.slotOf req.diskPos) (cfg.diskIdOf req.diskPos)
        req) := by
  unfold Holds at h
  unfold writeBlock
  dsimp only
  rw [if_neg (not_not.mpr h), if_neg hinside]

/-- A write that reaches the end of its block notes an end there first. -/
theorem writeBlock_times_of_not_holdsNext (h : buf.Holds cfg req.diskPos)
    (hcrosses : cfg.Crosses req.diskPos req.data.length) (hnext : ¬ buf.HoldsNext cfg req.diskPos) :
    (buf.writeBlock cfg threadId req).2.startTimes = buf.startTimes ∧
      (buf.writeBlock cfg threadId req).2.endTimes =
        if req.newData then Function.update buf.endTimes (cfg.slotOf req.diskPos) req.ts
        else buf.endTimes := by
  unfold Holds at h
  unfold HoldsNext at hnext
  unfold writeBlock
  dsimp only
  rw [if_neg (not_not.mpr h), if_pos hcrosses]
  cases req.newData with
  | false =>
      simp only [Bool.false_eq_true, if_false]
      rw [if_pos hnext]
      exact ⟨rfl, rfl⟩
  | true =>
      simp only [if_true]
      rw [if_pos hnext]
      exact ⟨rfl, rfl⟩

/-- A write that comes to the next block notes a start there, and maybe the end of a part. -/
theorem writeBlock_of_crosses (threadId : ℕ) (h : buf.Holds cfg req.diskPos)
    (hcrosses : cfg.Crosses req.diskPos req.data.length)
    (hnext : buf.HoldsNext cfg req.diskPos) :
    ∃ started : DataBlockBuffer,
      buf.writeBlock cfg threadId req =
        (true, started.finishWrite cfg threadId ((cfg.slotOf req.diskPos + 1) % cfg.totalBlockNum)
          ((cfg.diskIdOf req.diskPos + 1) % cfg.diskBlockNum) req) ∧
      (∀ slot, started.startTimes slot =
        if req.newData ∧ slot = (cfg.slotOf req.diskPos + 1) % cfg.totalBlockNum then
          min (buf.startTimes slot) req.ts
        else buf.startTimes slot) ∧
      ∀ slot, started.endTimes slot =
        if req.newData ∧ slot = cfg.slotOf req.diskPos then req.ts else buf.endTimes slot := by
  unfold Holds at h
  unfold HoldsNext at hnext
  unfold writeBlock
  dsimp only
  rw [if_neg (not_not.mpr h), if_pos hcrosses]
  cases req.newData with
  | false =>
      simp only [Bool.false_eq_true, if_false]
      rw [if_neg (not_not.mpr hnext)]
      exact ⟨_, rfl, fun slot => (if_neg (by simp)).symm, fun slot => (if_neg (by simp)).symm⟩
  | true =>
      simp only [if_true]
      rw [if_neg (not_not.mpr hnext)]
      refine ⟨_, rfl, fun slot => ?_, fun slot => ?_⟩
      · simp only [Function.update_apply, true_and]
        split_ifs with heq
        · rw [heq]
        · rfl
      · simp only [Function.update_apply, true_and]

variable (cfg buf threadId req) in
/-- The start of a slot is the least of what was there and what the call notes. -/
theorem writeBlock_startTimes (slot : ℕ) :
    (buf.writeBlock cfg threadId req).2.startTimes slot =
      if (TimedCall.made cfg buf threadId req).NotesStart cfg slot then
        min (buf.startTimes slot) req.ts
      else buf.startTimes slot := by
  by_cases hdone : (buf.writeBlock cfg threadId req).1 = true
  · obtain ⟨hheld, hheldNext⟩ := writeBlock_fst.mp hdone
    by_cases hcrosses : cfg.Crosses req.diskPos req.data.length
    · obtain ⟨started, hwrite, hstart, -⟩ :=
        writeBlock_of_crosses threadId hheld hcrosses (hheldNext hcrosses)
      have hnotes : (TimedCall.made cfg buf threadId req).NotesStart cfg slot ↔
          req.newData = true ∧ (slot = (cfg.slotOf req.diskPos + 1) % cfg.totalBlockNum ∨
            TimedCall.EndsPart cfg req ∧
              slot = ((cfg.slotOf req.diskPos + 1) % cfg.totalBlockNum + 1) %
                cfg.totalBlockNum) := by
        simp only [TimedCall.NotesStart, TimedCall.made, TimedCall.last, TimedCall.first, hdone,
          hcrosses, if_true, true_and]
      simp only [hnotes, hwrite, finishWrite_startTimes, hstart]
      split_ifs <;> simp_all
    · have hnotes : (TimedCall.made cfg buf threadId req).NotesStart cfg slot ↔
          req.newData = true ∧ TimedCall.EndsPart cfg req ∧
            slot = (cfg.slotOf req.diskPos + 1) % cfg.totalBlockNum := by
        simp only [TimedCall.NotesStart, TimedCall.made, TimedCall.last, TimedCall.first, hdone,
          hcrosses, if_false, true_and, false_and, false_or]
      simp only [hnotes, writeBlock_of_not_crosses hheld hcrosses, finishWrite_startTimes]
  · rw [if_neg fun h => hdone h.2.1]
    by_cases hheld : buf.Holds cfg req.diskPos
    · have hcrosses : cfg.Crosses req.diskPos req.data.length := by
        by_contra hinside
        exact hdone (writeBlock_fst.mpr ⟨hheld, fun h => absurd h hinside⟩)
      have hnext : ¬ buf.HoldsNext cfg req.diskPos := fun h =>
        hdone (writeBlock_fst.mpr ⟨hheld, fun _ => h⟩)
      rw [(writeBlock_times_of_not_holdsNext hheld hcrosses hnext).1]
    · rw [(writeBlock_times_of_not_holds hheld).1]

variable (cfg buf threadId req) in
/-- The end of a slot is what the call notes, if anything. -/
theorem writeBlock_endTimes (slot : ℕ) :
    (buf.writeBlock cfg threadId req).2.endTimes slot =
      if (TimedCall.made cfg buf threadId req).NotesEnd cfg slot then req.ts
      else buf.endTimes slot := by
  by_cases hheld : buf.Holds cfg req.diskPos
  · by_cases hcrosses : cfg.Crosses req.diskPos req.data.length
    · by_cases hnext : buf.HoldsNext cfg req.diskPos
      · obtain ⟨started, hwrite, -, hend⟩ :=
          writeBlock_of_crosses threadId hheld hcrosses hnext
        have hnotes : (TimedCall.made cfg buf threadId req).NotesEnd cfg slot ↔
            req.newData = true ∧ (slot = cfg.slotOf req.diskPos ∨
              TimedCall.EndsPart cfg req ∧
                slot = (cfg.slotOf req.diskPos + 1) % cfg.totalBlockNum) := by
          simp only [TimedCall.NotesEnd, TimedCall.made, TimedCall.last, TimedCall.first, hwrite,
            hheld, hcrosses, decide_true, if_true, true_and]
        simp only [hnotes, hwrite, finishWrite_endTimes, hend]
        split_ifs <;> simp_all
      · have hdone : (buf.writeBlock cfg threadId req).1 = false := by
          rw [← Bool.not_eq_true]
          exact fun h => hnext ((writeBlock_fst.mp h).2 hcrosses)
        have hnotes : (TimedCall.made cfg buf threadId req).NotesEnd cfg slot ↔
            req.newData = true ∧ slot = cfg.slotOf req.diskPos := by
          simp only [TimedCall.NotesEnd, TimedCall.made, TimedCall.first, hdone, hheld, hcrosses,
            decide_true, true_and, Bool.false_eq_true, false_and, or_false]
        rw [(writeBlock_times_of_not_holdsNext hheld hcrosses hnext).2]
        simp only [hnotes]
        split_ifs <;> simp_all
    · have hdone : (buf.writeBlock cfg threadId req).1 = true :=
        writeBlock_fst.mpr ⟨hheld, fun h => absurd h hcrosses⟩
      have hnotes : (TimedCall.made cfg buf threadId req).NotesEnd cfg slot ↔
          req.newData = true ∧ TimedCall.EndsPart cfg req ∧ slot = cfg.slotOf req.diskPos := by
        simp only [TimedCall.NotesEnd, TimedCall.made, TimedCall.last, TimedCall.first, hdone,
          hcrosses, if_false, true_and, false_and, and_false, false_or]
      simp only [hnotes, writeBlock_of_not_crosses hheld hcrosses, finishWrite_endTimes]
  · have hdone : ¬ (buf.writeBlock cfg threadId req).1 = true := fun h =>
      hheld (writeBlock_fst.mp h).1
    have hnotes : ¬ (TimedCall.made cfg buf threadId req).NotesEnd cfg slot := by
      rintro ⟨-, ⟨hfirst, -⟩ | ⟨hlast, -⟩⟩
      · exact hheld (of_decide_eq_true hfirst)
      · exact hdone hlast
    rw [(writeBlock_times_of_not_holds hheld).2, if_neg hnotes]

/-! ## All calls -/

/-- The times of the slots are those noted by the calls. -/
structure Timed (cfg : DataBlockConfig) (buf : DataBlockBuffer) (calls : List TimedCall) :
    Prop where
  start : ∀ slot, IsLeast {ts | ts ∈ TimedCall.starts cfg slot calls} (buf.startTimes slot)
  last : ∀ slot, (TimedCall.ends cfg slot calls).getLast? = some (buf.endTimes slot)

/-- What changes no times keeps them. -/
theorem Timed.congr {calls : List TimedCall} (h : Timed cfg buf calls) {other : DataBlockBuffer}
    (hstart : other.startTimes = buf.startTimes) (hend : other.endTimes = buf.endTimes) :
    Timed cfg other calls :=
  ⟨hstart ▸ h.start, hend ▸ h.last⟩

theorem Timed.writeBlock {calls : List TimedCall} (h : Timed cfg buf calls) (threadId : ℕ)
    (req : WriteRequest) :
    Timed cfg (buf.writeBlock cfg threadId req).2
      (calls ++ [TimedCall.made cfg buf threadId req]) where
  start slot := by
    rw [writeBlock_startTimes, TimedCall.starts, TimedCall.noted_append]
    split_ifs with hnotes
    · have hinsert : {ts | ts ∈ u64Max ::
          (TimedCall.noted (fun call => call.NotesStart cfg slot) calls ++ [req.ts])} =
          insert req.ts {ts | ts ∈ TimedCall.starts cfg slot calls} := by
        ext ts
        simp only [TimedCall.starts, Set.mem_ofPred_eq, Set.mem_insert_iff, List.mem_cons,
          List.mem_append, List.not_mem_nil, or_false]
        tauto
      rw [min_comm]
      exact hinsert ▸ (h.start slot).insert req.ts
    · exact h.start slot
  last slot := by
    rw [writeBlock_endTimes, TimedCall.ends, TimedCall.noted_append]
    split_ifs with hnotes
    · rw [← List.cons_append, List.getLast?_concat]
      rfl
    · exact h.last slot

end DataBlockBuffer

end TrafficDatabase
