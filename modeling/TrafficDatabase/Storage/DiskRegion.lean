import Mathlib.Algebra.Order.Group.Nat
import TrafficDatabase.Storage.DiskAgent

/-!
# The region of a disk agent

An agent has the bytes of a disk from `basic_offset` on, as many as `disk_size` says, in
blocks.  Each of its three calls tests the blocks it is for and prepares a request for them:
`read` refuses the block behind the last one, `asyncWrite` and the last block of a range do
not.  An offset has 64 bits in a request, a length 32.

`kept_iff` says for which calls nothing outside the region is touched and what is inside
is done.
-/

namespace TrafficDatabase

namespace DiskRegion

structure DiskAgent where
  diskFd : Int
  diskSize : ℕ
  blockSize : ℕ
  basicOffset : ℕ
  diskSize_lt : diskSize < 2 ^ 64
  blockSize_pos : 0 < blockSize
  wholeBlocks : diskSize % blockSize = 0

/-- A request of io_uring, without its buffer. -/
structure DiskRequest where
  isWrite : Bool
  diskFd : Int
  nbytes : ℕ
  offset : ℕ
  userData : ℕ
deriving DecidableEq, Repr

/-- Which of the steps of a call succeed: there is an SQE, it is submitted, and the
completion a read waits for has no error. -/
structure RingAnswer where
  sqe : Bool
  submit : Bool
  completion : Bool
deriving DecidableEq, Repr

inductive Call
  | asyncWrite (blockId writePos : ℕ)
  | read (id : ℕ)
  | readRange (beginId endId : ℕ)
deriving DecidableEq, Repr

def DiskRequest.Touches (request : DiskRequest) (address : ℕ) : Prop :=
  request.offset ≤ address ∧ address < request.offset + request.nbytes

namespace DiskAgent

variable (agent : DiskAgent)

def blockNum : ℕ := agent.diskSize / agent.blockSize

/-- `io_uring_prep_write` and `io_uring_prep_read`, which take an `unsigned` length, and
`user_data`. -/
def prepare (isWrite : Bool) (nbytes offset userData : ℕ) : DiskRequest :=
  { isWrite, diskFd := agent.diskFd, nbytes := nbytes % 2 ^ 32
    offset := (offset + agent.basicOffset) % 2 ^ 64, userData }

/-- What a call returns, and the request it submits. -/
def asyncWrite (ring : RingAnswer) (blockId writePos : ℕ) : Bool × Option DiskRequest :=
  if writePos > agent.blockNum then (false, none)
  else if ring.sqe = false then (false, none)
  else
    let offset := writePos * agent.blockSize % 2 ^ 64
    (ring.submit, some (agent.prepare true agent.blockSize offset blockId))

def read (ring : RingAnswer) (id : ℕ) : Bool × Option DiskRequest :=
  if id ≥ agent.blockNum then (false, none)
  else if ring.sqe = false then (false, none)
  else
    let offset := id * agent.blockSize % 2 ^ 64
    (ring.submit && ring.completion, some (agent.prepare false agent.blockSize offset id))

/-- The `read` of several blocks. -/
def readRange (ring : RingAnswer) (beginId endId : ℕ) : Bool × Option DiskRequest :=
  if beginId ≥ agent.blockNum ∨ endId > agent.blockNum ∨ beginId > endId then (false, none)
  else if ring.sqe = false then (false, none)
  else
    let offset := beginId * agent.blockSize % 2 ^ 64
    let nbytes := (endId - beginId + 1) * agent.blockSize % 2 ^ 64
    (ring.submit && ring.completion, some (agent.prepare false nbytes offset beginId))

def perform (ring : RingAnswer) : Call → Bool × Option DiskRequest
  | .asyncWrite blockId writePos => agent.asyncWrite ring blockId writePos
  | .read id => agent.read ring id
  | .readRange beginId endId => agent.readRange ring beginId endId

/-! ## The region and the blocks of a call -/

def InRegion (address : ℕ) : Prop :=
  agent.basicOffset ≤ address ∧ address < agent.basicOffset + agent.diskSize

end DiskAgent

namespace Call

def isWrite : Call → Bool
  | asyncWrite _ _ => true
  | _ => false

def userData : Call → ℕ
  | asyncWrite blockId _ => blockId
  | read id => id
  | readRange beginId _ => beginId

def firstBlock : Call → ℕ
  | asyncWrite _ writePos => writePos
  | read id => id
  | readRange beginId _ => beginId

/-- The number of blocks; a range is read with its last block. -/
def blockCount : Call → ℕ
  | readRange beginId endId => endId + 1 - beginId
  | _ => 1

variable (agent : DiskAgent) (call : Call)

/-- The request for exactly the blocks of a call. -/
def wanted : DiskRequest :=
  { isWrite := call.isWrite, diskFd := agent.diskFd
    nbytes := call.blockCount * agent.blockSize
    offset := agent.basicOffset + call.firstBlock * agent.blockSize
    userData := call.userData }

/-- A call for some blocks, all of them in the region. -/
def IsInside : Prop :=
  0 < call.blockCount ∧ ∀ address, (call.wanted agent).Touches address → agent.InRegion address

/-- Whatever io_uring answers, the call touches nothing outside the region, and if it is
inside and there is an SQE, what it is for is submitted. -/
def Kept : Prop :=
  ∀ ring, (∀ request ∈ (agent.perform ring call).2, ∀ address, request.Touches address →
      agent.InRegion address) ∧
    (call.IsInside agent → ring.sqe = true →
      (agent.perform ring call).2 = some (call.wanted agent))

/-- The test at the beginning of a call. -/
def accepted : Call → Bool
  | asyncWrite _ writePos => writePos ≤ agent.blockNum
  | read id => id < agent.blockNum
  | readRange beginId endId =>
      beginId < agent.blockNum && endId ≤ agent.blockNum && beginId ≤ endId

/-- An accepted call is for blocks of the agent, and its numbers fit a request; or it goes
one block too far, and its length, cut to 32 bits, does not. -/
def Fits : Prop :=
  call.accepted agent = true →
    (call.firstBlock + call.blockCount ≤ agent.blockNum ∧
      agent.basicOffset + call.firstBlock * agent.blockSize < 2 ^ 64 ∧
      call.blockCount * agent.blockSize < 2 ^ 32) ∨
    (call.firstBlock + call.blockCount = agent.blockNum + 1 ∧
      (call.blockCount * agent.blockSize % 2 ^ 32 = 0 ∨
        agent.basicOffset + call.firstBlock * agent.blockSize < 2 ^ 64 ∧
          call.blockCount * agent.blockSize % 2 ^ 32 ≤ (call.blockCount - 1) * agent.blockSize))

end Call

variable {agent : DiskAgent} {call : Call}

namespace DiskAgent

theorem blockNum_mul (agent : DiskAgent) : agent.blockNum * agent.blockSize = agent.diskSize :=
  Nat.div_mul_cancel (Nat.dvd_of_mod_eq_zero agent.wholeBlocks)

end DiskAgent

namespace Call

/-- An accepted call is for one block at least, and goes one block too far at most. -/
theorem blocks_of_accepted (h : call.accepted agent = true) :
    0 < call.blockCount ∧ call.firstBlock ≤ agent.blockNum ∧
      call.firstBlock + call.blockCount ≤ agent.blockNum + 1 := by
  cases call with
  | asyncWrite blockId writePos => simp [accepted, blockCount, firstBlock] at h ⊢; omega
  | read id => simp [accepted, blockCount, firstBlock] at h ⊢; omega
  | readRange beginId endId => simp [accepted, blockCount, firstBlock] at h ⊢; omega

/-- The numbers of a request depend on the blocks only. -/
theorem prepare_eq (isWrite : Bool) (nbytes offset userData : ℕ) :
    agent.prepare isWrite (nbytes % 2 ^ 64) (offset % 2 ^ 64) userData =
      agent.prepare isWrite nbytes offset userData := by
  have hcut : nbytes % 2 ^ 64 % 2 ^ 32 = nbytes % 2 ^ 32 :=
    Nat.mod_mod_of_dvd nbytes (Nat.pow_dvd_pow 2 (Nat.le_add_right 32 32))
  simp only [DiskAgent.prepare, hcut, Nat.mod_add_mod]

theorem prepare_offset (isWrite : Bool) (nbytes offset userData : ℕ) :
    agent.prepare isWrite nbytes (offset % 2 ^ 64) userData =
      agent.prepare isWrite nbytes offset userData := by
  simp only [DiskAgent.prepare, Nat.mod_add_mod]

/-- The two tests before a request. -/
theorem request_eq (refused : Prop) [Decidable refused] (ring : RingAnswer) (ok : Bool)
    (request : DiskRequest) :
    (if refused then (false, none) else if ring.sqe = false then (false, none)
      else (ok, some request)).2 =
      if ¬ refused ∧ ring.sqe = true then some request else none := by
  by_cases h : refused
  · simp [h]
  · cases hsqe : ring.sqe <;> simp [h]

/-- An accepted call submits a request if there is an SQE. -/
theorem perform_eq (ring : RingAnswer) :
    (agent.perform ring call).2 =
      if call.accepted agent = true ∧ ring.sqe = true then
        some (agent.prepare call.isWrite (call.blockCount * agent.blockSize)
          (call.firstBlock * agent.blockSize) call.userData)
      else none := by
  cases call with
  | asyncWrite blockId writePos =>
      simp only [DiskAgent.perform, DiskAgent.asyncWrite, prepare_offset, request_eq, accepted,
        decide_eq_true_eq, blockCount, Nat.one_mul, firstBlock, userData, isWrite, Nat.not_lt,
        gt_iff_lt]
  | read id =>
      simp only [DiskAgent.perform, DiskAgent.read, prepare_offset, request_eq, accepted,
        decide_eq_true_eq, blockCount, Nat.one_mul, firstBlock, userData, isWrite, Nat.not_le,
        ge_iff_le]
  | readRange beginId endId =>
      simp only [DiskAgent.perform, DiskAgent.readRange, prepare_eq, request_eq, accepted,
        decide_eq_true_eq, Bool.and_eq_true, blockCount, firstBlock, userData, isWrite, not_or,
        Nat.not_lt, Nat.not_le, ge_iff_le, gt_iff_lt, and_assoc]
      split_ifs with h
      · rw [Nat.sub_add_comm h.2.2.1]
      · rfl

/-- The blocks of a call are in the region if they are blocks of the agent. -/
theorem isInside_iff :
    call.IsInside agent ↔
      0 < call.blockCount ∧ call.firstBlock + call.blockCount ≤ agent.blockNum := by
  have hsize := agent.blockNum_mul
  have hpos := agent.blockSize_pos
  unfold IsInside
  refine and_congr_right fun hcount => ?_
  have hbytes : 0 < call.blockCount * agent.blockSize := Nat.mul_pos hcount hpos
  have hend : (call.firstBlock + call.blockCount) * agent.blockSize =
      call.firstBlock * agent.blockSize + call.blockCount * agent.blockSize := Nat.add_mul ..
  unfold DiskRequest.Touches DiskAgent.InRegion wanted
  constructor
  · intro h
    have hlast := (h (agent.basicOffset + (call.firstBlock * agent.blockSize +
      call.blockCount * agent.blockSize) - 1) (by simp only; omega)).2
    have hle : (call.firstBlock + call.blockCount) * agent.blockSize ≤
        agent.blockNum * agent.blockSize := by omega
    exact Nat.le_of_mul_le_mul_right hle hpos
  · intro h address
    have hle := Nat.mul_le_mul_right agent.blockSize h
    simp only
    omega

theorem accepted_of_isInside (h : call.IsInside agent) : call.accepted agent = true := by
  obtain ⟨hcount, hlast⟩ := isInside_iff.mp h
  cases call with
  | asyncWrite blockId writePos => simp [accepted, blockCount, firstBlock] at hlast ⊢; omega
  | read id => simp [accepted, blockCount, firstBlock] at hlast ⊢; omega
  | readRange beginId endId =>
      simp [accepted, blockCount, firstBlock] at hcount hlast ⊢
      omega

/-- The request an accepted call submits. -/
def request (agent : DiskAgent) (call : Call) : DiskRequest :=
  agent.prepare call.isWrite (call.blockCount * agent.blockSize)
    (call.firstBlock * agent.blockSize) call.userData

theorem kept_of_accepted (h : call.accepted agent = true) :
    call.Kept agent ↔
      (∀ address, (call.request agent).Touches address → agent.InRegion address) ∧
        (call.IsInside agent → call.request agent = call.wanted agent) := by
  have hsubmits : ∀ ring, (agent.perform ring call).2 =
      if ring.sqe = true then some (call.request agent) else none := by
    intro ring
    rw [perform_eq]
    simp only [h, true_and]
    rfl
  unfold Kept
  simp only [hsubmits]
  constructor
  · intro hkept
    obtain ⟨hregion, hdone⟩ := hkept ⟨true, true, true⟩
    exact ⟨hregion _ rfl, fun hinside => Option.some.inj (hdone hinside rfl)⟩
  · rintro ⟨hregion, hdone⟩ ring
    cases ring.sqe with
    | false => simp
    | true => exact ⟨fun other hother => Option.some.inj hother ▸ hregion, fun hinside _ =>
        congrArg some (hdone hinside)⟩

/-- An offset that goes round ends before the region. -/
theorem request_inRegion_iff (h : call.accepted agent = true) :
    (∀ address, (call.request agent).Touches address → agent.InRegion address) ↔
      call.blockCount * agent.blockSize % 2 ^ 32 = 0 ∨
        agent.basicOffset + call.firstBlock * agent.blockSize < 2 ^ 64 ∧
          call.firstBlock * agent.blockSize + call.blockCount * agent.blockSize % 2 ^ 32 ≤
            agent.diskSize := by
  obtain ⟨-, hfirst, -⟩ := blocks_of_accepted h
  have hsize := agent.blockNum_mul
  have hlt := agent.diskSize_lt
  have hstart := Nat.mul_le_mul_right agent.blockSize hfirst
  unfold DiskRequest.Touches DiskAgent.InRegion request DiskAgent.prepare
  simp only
  generalize call.firstBlock * agent.blockSize = start at hstart ⊢
  generalize call.blockCount * agent.blockSize % 2 ^ 32 = nbytes
  rcases Nat.lt_or_ge (start + agent.basicOffset) (2 ^ 64) with hfits | hround
  · rw [Nat.mod_eq_of_lt hfits]
    constructor
    · intro h
      rcases Nat.eq_zero_or_pos nbytes with hzero | hpos
      · exact .inl hzero
      · have hlast := (h (start + agent.basicOffset + nbytes - 1) (by omega)).2
        omega
    · rintro (hzero | ⟨-, hend⟩) address haddress
      · omega
      · omega
  · have hbefore : (start + agent.basicOffset) % 2 ^ 64 < agent.basicOffset := by
      rw [Nat.mod_eq_sub_mod hround]
      exact Nat.lt_of_le_of_lt (Nat.mod_le _ _) (by omega)
    constructor
    · intro h
      rcases Nat.eq_zero_or_pos nbytes with hzero | hpos
      · exact .inl hzero
      · have hfirst := (h _ ⟨Nat.le_refl _, Nat.lt_add_of_pos_right hpos⟩).1
        omega
    · rintro (hzero | ⟨hfits, -⟩) address haddress
      · omega
      · omega

theorem request_eq_wanted_iff :
    call.request agent = call.wanted agent ↔
      agent.basicOffset + call.firstBlock * agent.blockSize < 2 ^ 64 ∧
        call.blockCount * agent.blockSize < 2 ^ 32 := by
  unfold request wanted DiskAgent.prepare
  simp only [DiskRequest.mk.injEq, true_and, and_true]
  rw [Nat.mod_eq_iff_lt (by decide), Nat.add_comm agent.basicOffset,
    Nat.mod_eq_iff_lt (by decide), and_comm]

/-- **The region of an agent**: a call keeps to it, and does what is inside, if and only
if its numbers fit. -/
theorem kept_iff (agent : DiskAgent) (call : Call) : call.Kept agent ↔ call.Fits agent := by
  by_cases h : call.accepted agent = true
  · obtain ⟨hcount, -, hlast⟩ := blocks_of_accepted h
    rw [kept_of_accepted h]
    unfold Fits
    simp only [h, forall_true_left]
    by_cases hinside : call.firstBlock + call.blockCount ≤ agent.blockNum
    · -- the region has the blocks, so the request must be the one that is wanted
      have hwanted : call.IsInside agent := isInside_iff.mpr ⟨hcount, hinside⟩
      rw [← request_eq_wanted_iff]
      constructor
      · exact fun hkept => .inl ⟨hinside, hkept.2 hwanted⟩
      · rintro (⟨-, heq⟩ | ⟨hbehind, -⟩)
        · exact ⟨heq ▸ hwanted.2, fun _ => heq⟩
        · omega
    · have hbehind : call.firstBlock + call.blockCount = agent.blockNum + 1 := by omega
      have hnot : ¬ call.IsInside agent := fun hwanted => hinside (isInside_iff.mp hwanted).2
      have hsize : agent.diskSize = call.firstBlock * agent.blockSize +
          (call.blockCount - 1) * agent.blockSize := by
        rw [← agent.blockNum_mul, ← Nat.add_mul]
        congr 1
        omega
      rw [request_inRegion_iff h, hsize, Nat.add_le_add_iff_left]
      simp only [hnot, false_and, false_or, hbehind, true_and, false_imp_iff, and_true,
        Nat.not_succ_le_self]
  · constructor
    · exact fun _ haccepted => absurd haccepted h
    · intro _ ring
      rw [perform_eq]
      refine ⟨by simp [h], fun hinside => absurd (accepted_of_isInside hinside) h⟩

end Call

/-! ## The agent and its queues -/

/-- What `asyncWrite` sees of io_uring in the queues of an agent. -/
def answerOf : DiskIO.Submission → RingAnswer
  | .noSqe => ⟨false, false, false⟩
  | .failed => ⟨true, false, false⟩
  | .done => ⟨true, true, false⟩

/-- A write returns the same here and with the queues. -/
theorem asyncWrite_queues {cfg : AgentConfig} (hblocks : cfg.blockNum = agent.blockNum)
    (queues : DiskIO.DiskAgent) (request : DiskIO.Request) (writePos : ℕ)
    (submission : DiskIO.Submission) :
    (queues.asyncWrite cfg request writePos submission).1 =
      (agent.asyncWrite (answerOf submission) request.blockId writePos).1 := by
  unfold DiskIO.DiskAgent.asyncWrite DiskAgent.asyncWrite
  rw [hblocks]
  cases submission <;> split_ifs <;> simp_all [answerOf]

/-- An agent of two blocks of 512 bytes, with other data behind them. -/
def smallAgent : DiskAgent where
  diskFd := 3
  diskSize := 1024
  blockSize := 512
  basicOffset := 4096
  diskSize_lt := Nat.le_of_ble_eq_true rfl
  blockSize_pos := Nat.succ_pos 511
  wholeBlocks := rfl

/-- The write to block 2 of blocks 0 and 1, and the read of the blocks from 1 to 2. -/
theorem touches_behind :
    (smallAgent.asyncWrite ⟨true, true, true⟩ 7 2).2 = some ⟨true, 3, 512, 5120, 7⟩ ∧
      (smallAgent.readRange ⟨true, true, true⟩ 1 2).2 = some ⟨false, 3, 1024, 4608, 1⟩ ∧
      ¬ smallAgent.InRegion 5120 ∧
      ¬ (Call.asyncWrite 7 2).Kept smallAgent ∧ ¬ (Call.readRange 1 2).Kept smallAgent := by
  have hbehind : ¬ smallAgent.InRegion 5120 := fun h => absurd h.2 (by decide)
  have hwrite : (smallAgent.asyncWrite ⟨true, true, true⟩ 7 2).2 =
      some ⟨true, 3, 512, 5120, 7⟩ := by decide
  have hread : (smallAgent.readRange ⟨true, true, true⟩ 1 2).2 =
      some ⟨false, 3, 1024, 4608, 1⟩ := by decide
  refine ⟨hwrite, hread, hbehind, fun hkept => ?_, fun hkept => ?_⟩
  · exact hbehind ((hkept ⟨true, true, true⟩).1 _ hwrite 5120 ⟨by decide, by decide⟩)
  · exact hbehind ((hkept ⟨true, true, true⟩).1 _ hread 5120 ⟨by decide, by decide⟩)

end DiskRegion

end TrafficDatabase
