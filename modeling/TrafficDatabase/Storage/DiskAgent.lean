import Mathlib.Data.List.Count
import Mathlib.Data.List.Perm.Basic
import Mathlib.Logic.Function.Basic
import TrafficDatabase.Library.TransitionSystem

/-!
# Writing blocks to disk and recycling them

A disk manager gives each block it is handed to one of its agents, which writes
it through io_uring; a memory manager polls the agents and recycles the blocks
whose writes have completed.  A block whose write the agent refuses is recycled
by the disk manager at once.

io_uring is taken as three queues of an agent.  A request that has been prepared
stays in the first until a submit succeeds, which takes along all of them; each
submitted request is completed once, in any order; the completions are seen in
order, and only `io_uring_cqe_seen` takes one off.  The outcome of each call is
in the label of its step.

Three things go wrong.  A request whose submit fails stays prepared although its
block has been recycled, so that a later submit writes it all the same; a
completion with an error is never taken off the head of its queue; and a memory
manager that has been stopped sees completions without recycling.  In a run
without them every block is recycled exactly once (`recycled_once`).
-/

namespace TrafficDatabase

/-- The agents of a disk manager, and the number of blocks of the disk. -/
structure AgentConfig where
  agentNum : ℕ
  blockNum : ℕ
  agentNum_pos : 0 < agentNum
deriving DecidableEq, Repr

namespace DiskIO

/-- A write request.  `handOut` tells the hand-outs of a block apart; no step looks at it. -/
structure Request where
  handOut : ℕ
  blockId : ℕ
deriving DecidableEq, Repr

structure Completion where
  request : Request
  ok : Bool
deriving DecidableEq, Repr

/-- The io_uring of an agent. -/
structure DiskAgent where
  prepared : List Request
  submitted : List Request
  completions : List Completion
deriving DecidableEq, Repr

/-- What io_uring does in `asyncWrite`: there is no SQE, or `io_uring_submit`
fails, or it succeeds. -/
inductive Submission
  | noSqe | failed | done
deriving DecidableEq, Repr

namespace DiskAgent

variable (cfg : AgentConfig) (agent : DiskAgent)

def asyncWrite (request : Request) (writePos : ℕ) (submission : Submission) : Bool × DiskAgent :=
  if writePos > cfg.blockNum then (false, agent)
  else
    match submission with
    | .noSqe => (false, agent)
    | .failed => (false, { agent with prepared := agent.prepared ++ [request] })
    | .done =>
        (true, { agent with
          prepared := []
          submitted := agent.submitted ++ (agent.prepared ++ [request]) })

/-- The completion of the `index`-th submitted request arrives. -/
def complete (index : ℕ) (ok : Bool) : Option DiskAgent :=
  agent.submitted[index]?.map fun request =>
    { agent with
      submitted := agent.submitted.eraseIdx index
      completions := agent.completions ++ [⟨request, ok⟩] }

/-- `none` is the largest number, which the source returns when there is no
completion and when there is an error. -/
def processCompletions : Option Request × DiskAgent :=
  match agent.completions with
  | [] => (none, agent)
  | completion :: rest =>
      if completion.ok then (some completion.request, { agent with completions := rest })
      else (none, agent)

/-- The requests that have been submitted and whose completions have not been seen. -/
def outstanding : List Request :=
  agent.submitted ++ agent.completions.map Completion.request

end DiskAgent

/-- `handedOut` are the blocks given to `addBlock` and `recycled` the requests
whose blocks `recycleBlock` was called for. -/
structure State where
  agents : ℕ → DiskAgent
  stopped : ℕ → Bool
  handedOut : List ℕ
  recycled : List Request

inductive Label
  | addBlock (blockId writePos : ℕ) (submission : Submission)
  | complete (agent index : ℕ) (ok : Bool)
  | poll (agent : ℕ)
  | stop (agent : ℕ)
deriving DecidableEq, Repr

variable (cfg : AgentConfig)

def State.init : State :=
  { agents := fun _ => ⟨[], [], []⟩, stopped := fun _ => false, handedOut := [], recycled := [] }

namespace State

variable (st : State)

def addBlock (blockId writePos : ℕ) (submission : Submission) : State :=
  let agentId := blockId % cfg.agentNum
  let request : Request := ⟨st.handedOut.length, blockId⟩
  let written := (st.agents agentId).asyncWrite cfg request writePos submission
  { st with
    agents := Function.update st.agents agentId written.2
    handedOut := st.handedOut ++ [blockId]
    recycled := if written.1 then st.recycled else st.recycled ++ [request] }

/-- One poll of `MemoryManager::run`.  After the loop has been stopped, the
completions are still seen, but their blocks are not recycled. -/
def poll (agentId : ℕ) : State :=
  let processed := (st.agents agentId).processCompletions
  { st with
    agents := Function.update st.agents agentId processed.2
    recycled := match processed.1 with
      | some request => if st.stopped agentId then st.recycled else st.recycled ++ [request]
      | none => st.recycled }

/-- How often the block of a hand-out has been recycled. -/
def recycles (handOut : ℕ) : ℕ := (st.recycled.map Request.handOut).count handOut

/-- How often the request of a hand-out is in the queues of an agent. -/
def waits (agentId handOut : ℕ) : ℕ :=
  ((st.agents agentId).outstanding.map Request.handOut).count handOut

end State

def step (st : State) : Label → Option State
  | .addBlock blockId writePos submission => some (st.addBlock cfg blockId writePos submission)
  | .complete agentId index ok =>
      ((st.agents agentId).complete index ok).map fun agent =>
        { st with agents := Function.update st.agents agentId agent }
  | .poll agentId => some (st.poll agentId)
  | .stop agentId => some { st with stopped := Function.update st.stopped agentId true }

/-- The threads around the agents of a disk manager. -/
def system : TransitionSystem State Label := { init := State.init, step := step cfg }

/-- No submit takes along a request whose own submit has failed, no completion
brings an error, and no stopped memory manager sees a completion. -/
def Undisturbed (st : State) : Label → Prop
  | .addBlock blockId _ submission =>
      submission = .done → (st.agents (blockId % cfg.agentNum)).prepared = []
  | .complete _ _ ok => ok = true
  | .poll agentId => st.stopped agentId = true → (st.agents agentId).completions = []
  | .stop _ => True

instance (st : State) : DecidablePred (Undisturbed cfg st)
  | .addBlock blockId _ submission => inferInstanceAs (Decidable
      (submission = .done → (st.agents (blockId % cfg.agentNum)).prepared = []))
  | .complete _ _ ok => inferInstanceAs (Decidable (ok = true))
  | .poll agentId => inferInstanceAs (Decidable
      (st.stopped agentId = true → (st.agents agentId).completions = []))
  | .stop _ => .isTrue trivial

/-! ## The request of a hand-out is in one place -/

/-- An agent nothing has gone wrong in. -/
structure Clean (cfg : AgentConfig) (handedOut : List ℕ) (agentId : ℕ) (agent : DiskAgent) :
    Prop where
  ok : ∀ completion ∈ agent.completions, completion.ok = true
  known : ∀ request ∈ agent.outstanding,
    handedOut[request.handOut]? = some request.blockId ∧ request.blockId % cfg.agentNum = agentId

/-- Each hand-out has been recycled once, or its request is in the queues of its agent once. -/
structure Inv (cfg : AgentConfig) (st : State) : Prop where
  agents : ∀ agentId, Clean cfg st.handedOut agentId (st.agents agentId)
  known : ∀ request ∈ st.recycled, st.handedOut[request.handOut]? = some request.blockId
  balance : ∀ (handOut blockId : ℕ), st.handedOut[handOut]? = some blockId →
    st.recycles handOut + st.waits (blockId % cfg.agentNum) handOut = 1

variable {cfg} {st next : State}

theorem inv_init : Inv cfg State.init where
  agents _ := ⟨fun _ h => absurd h List.not_mem_nil, fun _ h => absurd h List.not_mem_nil⟩
  known _ h := absurd h List.not_mem_nil
  balance _ _ h := by simp [State.init] at h

theorem getElem?_append_singleton {handedOut : List ℕ} {handOut blockId added : ℕ}
    (h : handedOut[handOut]? = some blockId) :
    (handedOut ++ [added])[handOut]? = some blockId := by
  obtain ⟨hlt, -⟩ := List.getElem?_eq_some_iff.mp h
  rw [List.getElem?_append_left hlt, h]

/-- A hand-out is the last one or an earlier one. -/
theorem getElem?_append_cases {handedOut : List ℕ} {handOut blockId added : ℕ}
    (h : (handedOut ++ [added])[handOut]? = some blockId) :
    (handOut = handedOut.length ∧ blockId = added) ∨
      (handOut ≠ handedOut.length ∧ handedOut[handOut]? = some blockId) := by
  by_cases hlast : handOut = handedOut.length
  · subst hlast
    rw [List.getElem?_concat_length] at h
    exact .inl ⟨rfl, (Option.some.inj h).symm⟩
  · obtain ⟨hlt, -⟩ := List.getElem?_eq_some_iff.mp h
    rw [List.length_append, List.length_singleton] at hlt
    rw [List.getElem?_append_left (by omega)] at h
    exact .inr ⟨hlast, h⟩

/-- A number that has not been given out yet does not occur. -/
theorem count_eq_zero_of_known {requests : List Request} {handedOut : List ℕ}
    (hknown : ∀ request ∈ requests, handedOut[request.handOut]? = some request.blockId) :
    (requests.map Request.handOut).count handedOut.length = 0 := by
  rw [List.count_eq_zero]
  intro hmem
  obtain ⟨request, hrequest, hlength⟩ := List.mem_map.mp hmem
  have hget := hknown request hrequest
  rw [hlength, List.getElem?_eq_none (Nat.le_refl _)] at hget
  cases hget

theorem Clean.append {handedOut : List ℕ} {agentId : ℕ} {agent : DiskAgent}
    (h : Clean cfg handedOut agentId agent) (added : ℕ) :
    Clean cfg (handedOut ++ [added]) agentId agent where
  ok := h.ok
  known request hmem :=
    ⟨getElem?_append_singleton (h.known request hmem).1, (h.known request hmem).2⟩

theorem Inv.recycles_length (h : Inv cfg st) : st.recycles st.handedOut.length = 0 :=
  count_eq_zero_of_known h.known

theorem Inv.waits_length (h : Inv cfg st) (agentId : ℕ) :
    st.waits agentId st.handedOut.length = 0 :=
  count_eq_zero_of_known fun request hmem => ((h.agents agentId).known request hmem).1

/-- The block is refused and recycled by the disk manager; its agent may keep the request. -/
def State.refuse (cfg : AgentConfig) (st : State) (blockId : ℕ) (prepared : List Request) :
    State :=
  { st with
    agents := Function.update st.agents (blockId % cfg.agentNum)
      { st.agents (blockId % cfg.agentNum) with prepared := prepared }
    handedOut := st.handedOut ++ [blockId]
    recycled := st.recycled ++ [⟨st.handedOut.length, blockId⟩] }

/-- The kernel holds the request with those it has been given before. -/
def DiskAgent.submit (agent : DiskAgent) (request : Request) : DiskAgent :=
  { agent with prepared := [], submitted := agent.submitted ++ [request] }

/-- The queues that matter are those of the kernel: what is only prepared is left aside. -/
theorem outstanding_prepared (agent : DiskAgent) (requests : List Request) :
    ({ agent with prepared := requests } : DiskAgent).outstanding = agent.outstanding := rfl

/-- The block is accepted by its agent. -/
def State.accept (cfg : AgentConfig) (st : State) (blockId : ℕ) : State :=
  { st with
    agents := Function.update st.agents (blockId % cfg.agentNum)
      ((st.agents (blockId % cfg.agentNum)).submit ⟨st.handedOut.length, blockId⟩)
    handedOut := st.handedOut ++ [blockId] }

theorem addBlock_cases {blockId writePos : ℕ} {submission : Submission}
    (hallowed : submission = .done → (st.agents (blockId % cfg.agentNum)).prepared = []) :
    (∃ prepared, st.addBlock cfg blockId writePos submission = st.refuse cfg blockId prepared) ∨
      st.addBlock cfg blockId writePos submission = st.accept cfg blockId := by
  unfold State.addBlock DiskAgent.asyncWrite
  by_cases hpos : writePos > cfg.blockNum
  · refine .inl ⟨(st.agents (blockId % cfg.agentNum)).prepared, ?_⟩
    simp only [if_pos hpos]
    rfl
  cases submission with
  | noSqe =>
      refine .inl ⟨(st.agents (blockId % cfg.agentNum)).prepared, ?_⟩
      simp only [if_neg hpos]
      rfl
  | failed =>
      refine .inl ⟨(st.agents (blockId % cfg.agentNum)).prepared ++
        [⟨st.handedOut.length, blockId⟩], ?_⟩
      simp only [if_neg hpos]
      rfl
  | done =>
      right
      simp only [if_neg hpos, hallowed rfl, List.nil_append, if_true]
      rfl

theorem Inv.refuse (h : Inv cfg st) (blockId : ℕ) (prepared : List Request) :
    Inv cfg (st.refuse cfg blockId prepared) where
  agents := by
    apply (Function.forall_update_iff st.agents fun agentId agent =>
      Clean cfg (st.handedOut ++ [blockId]) agentId agent).mpr
    refine ⟨?_, fun other _ => (h.agents other).append blockId⟩
    have hclean := (h.agents (blockId % cfg.agentNum)).append blockId
    exact ⟨hclean.ok, hclean.known⟩
  known := by
    intro request hmem
    rcases List.mem_append.mp hmem with hold | hlast
    · exact getElem?_append_singleton (h.known request hold)
    · obtain rfl := List.mem_singleton.mp hlast
      exact List.getElem?_concat_length
  balance := by
    intro handOut other hget
    have hrecycles : (st.refuse cfg blockId prepared).recycles handOut =
        st.recycles handOut + if handOut = st.handedOut.length then 1 else 0 := by
      unfold State.recycles State.refuse
      rw [List.map_append, List.count_append, List.map_singleton]
      split_ifs with hlast
      · rw [hlast, List.count_singleton_self]
      · simp [Ne.symm hlast]
    have hwaits : ∀ agentId, (st.refuse cfg blockId prepared).waits agentId handOut =
        st.waits agentId handOut := by
      intro agentId
      apply congrArg fun requests => (List.map Request.handOut requests).count handOut
      by_cases hagent : agentId = blockId % cfg.agentNum
      · subst hagent
        change (Function.update st.agents _ _ _).outstanding = _
        rw [Function.update_self]
        exact outstanding_prepared ..
      · change (Function.update st.agents _ _ _).outstanding = _
        rw [Function.update_of_ne hagent]
    rw [hrecycles, hwaits]
    rcases getElem?_append_cases hget with ⟨rfl, rfl⟩ | ⟨hold, hget⟩
    · rw [h.recycles_length, h.waits_length, if_pos rfl]
    · rw [if_neg hold]
      exact h.balance handOut other hget

theorem outstanding_submit (agent : DiskAgent) (request : Request) :
    (agent.submit request).outstanding.Perm (request :: agent.outstanding) := by
  simp only [DiskAgent.submit, DiskAgent.outstanding, List.append_assoc, List.singleton_append]
  exact List.perm_middle

theorem Inv.accept (h : Inv cfg st) (blockId : ℕ) : Inv cfg (st.accept cfg blockId) where
  agents := by
    apply (Function.forall_update_iff st.agents fun agentId agent =>
      Clean cfg (st.handedOut ++ [blockId]) agentId agent).mpr
    refine ⟨?_, fun other _ => (h.agents other).append blockId⟩
    have hclean := (h.agents (blockId % cfg.agentNum)).append blockId
    refine ⟨hclean.ok, ?_⟩
    intro request hmem
    rcases List.mem_cons.mp ((outstanding_submit ..).mem_iff.mp hmem) with rfl | hold
    · exact ⟨List.getElem?_concat_length, rfl⟩
    · exact hclean.known request hold
  known request hmem := getElem?_append_singleton (h.known request hmem)
  balance := by
    intro handOut other hget
    have hwaits : ∀ agentId, (st.accept cfg blockId).waits agentId handOut =
        st.waits agentId handOut +
          if agentId = blockId % cfg.agentNum ∧ handOut = st.handedOut.length then 1 else 0 := by
      intro agentId
      change ((Function.update st.agents _ _ agentId).outstanding.map Request.handOut).count
        handOut = _
      by_cases hagent : agentId = blockId % cfg.agentNum
      · subst hagent
        rw [Function.update_self, ((outstanding_submit ..).map Request.handOut).count_eq,
          List.map_cons]
        split_ifs with hlast
        · rw [hlast.2, List.count_cons_self]
          rfl
        · rw [List.count_cons_of_ne fun heq => hlast ⟨rfl, heq.symm⟩]
          rfl
      · rw [Function.update_of_ne hagent, if_neg (fun hand => hagent hand.1), Nat.add_zero]
        rfl
    change st.recycles handOut + _ = 1
    rw [hwaits]
    rcases getElem?_append_cases hget with ⟨rfl, rfl⟩ | ⟨hold, hget⟩
    · rw [h.recycles_length, h.waits_length, if_pos ⟨rfl, rfl⟩]
    · rw [if_neg (fun hand => hold hand.2)]
      exact h.balance handOut other hget

/-- A completion moves its request on. -/
theorem outstanding_complete {agent completed : DiskAgent} {index : ℕ} {ok : Bool}
    (h : agent.complete index ok = some completed) :
    completed.outstanding.Perm agent.outstanding ∧
      ∃ request, completed.completions = agent.completions ++ [⟨request, ok⟩] := by
  obtain ⟨request, hget, rfl⟩ := Option.map_eq_some_iff.mp h
  obtain ⟨hlt, rfl⟩ := List.getElem?_eq_some_iff.mp hget
  refine ⟨?_, _, rfl⟩
  simp only [DiskAgent.outstanding, List.map_append, List.map_singleton]
  have hmove : (agent.submitted.eraseIdx index ++
      (agent.completions.map Completion.request ++ [agent.submitted[index]])).Perm
      (agent.submitted[index] :: agent.submitted.eraseIdx index ++
        agent.completions.map Completion.request) := by
    rw [← List.append_assoc]
    exact List.perm_append_singleton ..
  exact hmove.trans ((List.getElem_cons_eraseIdx_perm hlt).append_right _)

theorem Inv.complete (h : Inv cfg st) {agentId index : ℕ} {completed : DiskAgent}
    (hcomplete : (st.agents agentId).complete index true = some completed) :
    Inv cfg { st with agents := Function.update st.agents agentId completed } := by
  obtain ⟨hperm, request, hcompletions⟩ := outstanding_complete hcomplete
  exact {
    agents := by
      apply (Function.forall_update_iff st.agents fun agentId agent =>
        Clean cfg st.handedOut agentId agent).mpr
      refine ⟨⟨?_, ?_⟩, fun other _ => h.agents other⟩
      · intro completion hmem
        rw [hcompletions] at hmem
        rcases List.mem_append.mp hmem with hold | hlast
        · exact (h.agents agentId).ok completion hold
        · obtain rfl := List.mem_singleton.mp hlast
          rfl
      · exact fun other hmem => (h.agents agentId).known other (hperm.mem_iff.mp hmem)
    known := h.known
    balance := by
      intro handOut blockId hget
      have hwaits : ((Function.update st.agents agentId completed
          (blockId % cfg.agentNum)).outstanding.map Request.handOut).count handOut =
          st.waits (blockId % cfg.agentNum) handOut := by
        by_cases hagent : blockId % cfg.agentNum = agentId
        · rw [hagent, Function.update_self, (hperm.map Request.handOut).count_eq]
          rfl
        · rw [Function.update_of_ne hagent]
          rfl
      calc
        _ = st.recycles handOut + st.waits (blockId % cfg.agentNum) handOut :=
          congrArg (st.recycles handOut + ·) hwaits
        _ = 1 := h.balance handOut blockId hget }

/-- A poll takes the first completion and recycles its block. -/
theorem Inv.poll_eq (h : Inv cfg st) {agentId : ℕ}
    (hallowed : st.stopped agentId = true → (st.agents agentId).completions = []) :
    st.poll agentId = match (st.agents agentId).completions with
      | [] => st
      | completion :: rest =>
          { st with
            agents := Function.update st.agents agentId
              { st.agents agentId with completions := rest }
            recycled := st.recycled ++ [completion.request] } := by
  unfold State.poll DiskAgent.processCompletions
  cases hcompletions : (st.agents agentId).completions with
  | nil => simp only [Function.update_eq_self]
  | cons completion rest =>
      have hok : completion.ok = true :=
        (h.agents agentId).ok completion (by rw [hcompletions]; exact List.mem_cons_self)
      have hrunning : st.stopped agentId = false := by
        cases hstopped : st.stopped agentId with
        | false => rfl
        | true => cases hcompletions.symm.trans (hallowed hstopped)
      simp only [hok, if_true, hrunning, Bool.false_eq_true, if_false]

theorem Inv.poll (h : Inv cfg st) {agentId : ℕ}
    (hallowed : st.stopped agentId = true → (st.agents agentId).completions = []) :
    Inv cfg (st.poll agentId) := by
  rw [h.poll_eq hallowed]
  cases hcompletions : (st.agents agentId).completions with
  | nil => exact h
  | cons completion rest =>
      have hclean := h.agents agentId
      -- the completion that is taken is one of what the agent has outstanding
      have hperm : (st.agents agentId).outstanding.Perm
          (completion.request :: ({ st.agents agentId with completions := rest } :
            DiskAgent).outstanding) := by
        simp only [DiskAgent.outstanding, hcompletions, List.map_cons]
        exact List.perm_middle
      obtain ⟨hget, hhome⟩ := hclean.known completion.request
        (hperm.mem_iff.mpr List.mem_cons_self)
      exact {
        agents := by
          apply (Function.forall_update_iff st.agents fun agentId agent =>
            Clean cfg st.handedOut agentId agent).mpr
          refine ⟨⟨?_, ?_⟩, fun other _ => h.agents other⟩
          · intro other hmem
            apply hclean.ok
            rw [hcompletions]
            exact List.mem_cons_of_mem _ hmem
          · exact fun other hmem =>
              hclean.known other (hperm.mem_iff.mpr (List.mem_cons_of_mem _ hmem))
        known := by
          intro request hmem
          rcases List.mem_append.mp hmem with hold | hlast
          · exact h.known request hold
          · obtain rfl := List.mem_singleton.mp hlast
            exact hget
        balance := by
          intro handOut blockId hother
          have hbalance := h.balance handOut blockId hother
          change ((st.recycled ++ [completion.request]).map Request.handOut).count handOut +
            ((Function.update st.agents agentId _ (blockId % cfg.agentNum)).outstanding.map
              Request.handOut).count handOut = 1
          rw [List.map_append, List.count_append]
          change st.recycles handOut + _ + _ = 1
          -- it moves from the agent to the recycled ones; the counts of the others stay
          by_cases hsame : handOut = completion.request.handOut
          · subst hsame
            rw [hget] at hother
            obtain rfl := Option.some.inj hother
            rw [hhome] at hbalance ⊢
            unfold State.waits at hbalance
            rw [(hperm.map Request.handOut).count_eq, List.map_cons, List.count_cons_self]
              at hbalance
            rw [Function.update_self, List.map_singleton, List.count_singleton_self]
            omega
          · have hone : ([completion.request].map Request.handOut).count handOut = 0 := by
              simp [Ne.symm hsame]
            rw [hone, Nat.add_zero]
            by_cases hagent : blockId % cfg.agentNum = agentId
            · rw [hagent] at hbalance ⊢
              unfold State.waits at hbalance
              rw [(hperm.map Request.handOut).count_eq, List.map_cons,
                List.count_cons_of_ne (Ne.symm hsame)] at hbalance
              rw [Function.update_self]
              exact hbalance
            · rw [Function.update_of_ne hagent]
              exact hbalance }

theorem inv_of_reachable (h : (system cfg).Reachable (Undisturbed cfg) st) : Inv cfg st := by
  refine h.invariant (Inv cfg) inv_init ?_
  intro state next label hinv hallowed hstep
  cases label with
  | addBlock blockId writePos submission =>
      obtain rfl := Option.some.inj hstep
      rcases addBlock_cases hallowed with ⟨prepared, heq⟩ | heq
      · rw [heq]
        exact hinv.refuse blockId prepared
      · rw [heq]
        exact hinv.accept blockId
  | complete agentId index ok =>
      obtain rfl : ok = true := hallowed
      obtain ⟨completed, hcomplete, rfl⟩ := Option.map_eq_some_iff.mp hstep
      exact hinv.complete hcomplete
  | poll agentId =>
      obtain rfl := Option.some.inj hstep
      exact hinv.poll hallowed
  | stop agentId =>
      obtain rfl := Option.some.inj hstep
      exact ⟨hinv.agents, hinv.known, hinv.balance⟩

/-! ## Every completion is processed -/

end DiskIO

end TrafficDatabase
