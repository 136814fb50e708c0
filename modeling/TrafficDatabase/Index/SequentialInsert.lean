import Mathlib.Logic.Relation
import TrafficDatabase.Index.ConcurrentInsert

/-!
# Insertions one after the other

A call that is alone on the list finds its predecessors and links its node without
waiting: where no lock is taken it returns (`Inv.returns`), since every level ends.  So
any calls can be made in any order, each when the one before it has returned
(`exists_inserted`), and what holds of all runs of concurrent calls holds there.
-/

namespace TrafficDatabase.SkipList

variable {cfg : SkipListConfig} {Call : Type} [DecidableEq Call]
  {calls : Call → Insertion cfg.maxLevel} {call : Call}

/-- The steps of one call. -/
def Goes (calls : Call → Insertion cfg.maxLevel) (call : Call) (st after : State Call) : Prop :=
  Relation.ReflTransGen (fun first second => first.step cfg calls call = some second) st after

/-- The list after calls that were made in this order, each when the one before it had
returned. -/
inductive Inserted (calls : Call → Insertion cfg.maxLevel) : List Call → State Call → Prop
  | init : Inserted calls [] (State.init cfg)
  | insert {done : List Call} {st after : State Call} {call : Call} : Inserted calls done st →
      call ∉ done → Goes calls call st after → (after.thread call).stage = .returned →
      Inserted calls (done ++ [call]) after

namespace State

variable {st after : State Call}

@[simp] theorem setThread_getNext (thread : Thread Call) :
    (st.setThread call thread).getNext = st.getNext := rfl

@[simp] theorem setThread_compare (thread : Thread Call) :
    (st.setThread call thread).compare = st.compare := rfl

@[simp] theorem setThread_next (thread : Thread Call) :
    (st.setThread call thread).next = st.next := rfl

@[simp] theorem setThread_key (thread : Thread Call) :
    (st.setThread call thread).key = st.key := rfl

@[simp] theorem setThread_locked (thread : Thread Call) :
    (st.setThread call thread).locked = st.locked := rfl

@[simp] theorem setThread_setThread (first second : Thread Call) :
    (st.setThread call first).setThread call second = st.setThread call second := by
  simp [setThread]

theorem setThread_self : st.setThread call (st.thread call) = st := by
  simp [setThread]

def setNext (st : State Call) (level : ℕ) (ref : NodeRef Call) (next : Pointer Call) :
    State Call :=
  { st with next := Function.update st.next level (Function.update (st.next level) ref next) }

def setLock (st : State Call) (ref : NodeRef Call) (flag : Bool) : State Call :=
  { st with locked := Function.update st.locked ref flag }

theorem putNext_setThread {level : ℕ} {ref : NodeRef Call} (hlevel : level < st.level ref)
    (next : Pointer Call) (thread : Thread Call) :
    (st.setThread call thread).putNext (some ref) level next =
      some ((st.setNext level ref next).setThread call thread) := by
  have hlevel' : level < (st.setThread call thread).level ref := hlevel
  rw [putNext, Option.bind_some, if_pos hlevel']
  rfl

theorem unlockNode_setThread (ref : NodeRef Call) (thread : Thread Call) :
    (st.setThread call thread).unlockNode (some ref) =
      some ((st.setLock ref false).setThread call thread) := rfl

theorem exchangeLock_setThread (ref : NodeRef Call) (thread : Thread Call) :
    (st.setThread call thread).exchangeLock (some ref) =
      some (st.locked ref, (st.setLock ref true).setThread call thread) := rfl

/-- A lock that is taken and given back. -/
theorem setLock_setLock {ref : NodeRef Call} (hfree : st.locked ref = false) :
    (st.setLock ref true).setLock ref false = st := by
  simp [setLock, ← hfree]

@[simp] theorem setLock_getNext (ref : NodeRef Call) (flag : Bool) :
    (st.setLock ref flag).getNext = st.getNext := rfl

@[simp] theorem setLock_key (ref : NodeRef Call) (flag : Bool) :
    (st.setLock ref flag).key = st.key := rfl

/-- No lock is taken. -/
def Free (st : State Call) : Prop := ∀ ref, st.locked ref = false

namespace Inv

theorem of_step (h : st.Inv calls) (hstep : st.step cfg calls call = some after) :
    after.Inv calls := by
  have hrunning : (st.thread call).stage ≠ .returned := by
    intro hdone
    simp [State.step, hdone] at hstep
  obtain ⟨next, heq, hnext⟩ := h.step hrunning
  obtain rfl : next = after := Option.some.inj (heq.symm.trans hstep)
  exact hnext

omit [DecidableEq Call] in
/-- From a node of a level there is a way to the end of the level. -/
theorem exists_links (h : st.Inv calls) {level : ℕ} {ref : NodeRef Call}
    (hon : st.OnLevel calls level ref) : ∃ nodes, LinksTo (st.next level) ref nodes := by
  obtain ⟨nodes, hlinks, hmem⟩ := h.links level
  rcases hon with rfl | hlinked
  · exact ⟨nodes, hlinks⟩
  · obtain ⟨before, behind, rfl⟩ := List.append_of_mem ((hmem ref).mpr hlinked)
    exact ⟨behind, hlinks.of_append⟩

/-- What the search reads. -/
theorem getNext_search {level : ℕ} {thread : Thread Call} {ref : NodeRef Call}
    (h : (st.setThread call thread).Inv calls) (hstage : thread.stage = .checkNext level)
    (hcurr : thread.curr = some ref) : st.getNext (some ref) level = some (st.next level ref) := by
  have hsearch := h.threads call
  rw [setThread_thread_self] at hsearch
  simp only [ThreadInv, hstage] at hsearch
  exact h.getNext_eq hsearch.level_lt (hcurr ▸ hsearch.curr)

theorem exists_curr {level : ℕ} {thread : Thread Call}
    (h : (st.setThread call thread).Inv calls) (hstage : thread.stage = .checkNext level) :
    ∃ ref nodes, thread.curr = some ref ∧ LinksTo (st.next level) ref nodes := by
  have hsearch := h.threads call
  rw [setThread_thread_self] at hsearch
  simp only [ThreadInv, hstage] at hsearch
  obtain ⟨ref, hcurr, hon⟩ := hsearch.curr.exists_ref
  obtain ⟨nodes, hlinks⟩ := h.exists_links hon
  exact ⟨ref, nodes, hcurr, hlinks⟩

/-- The search on one level goes down to the next one. -/
theorem search_level {level : ℕ} {thread : Thread Call} {ref : NodeRef Call}
    {nodes : List (NodeRef Call)} (h : (st.setThread call thread).Inv calls)
    (hstage : thread.stage = .checkNext level) (hcurr : thread.curr = some ref)
    (hlinks : LinksTo (st.next level) ref nodes) :
    ∃ last : Thread Call, Goes calls call (st.setThread call thread)
        (st.setThread call (last.descend level)) ∧
      (st.setThread call (last.descend level)).Inv calls := by
  induction nodes generalizing thread ref with
  | nil =>
      have hget := h.getNext_search hstage hcurr
      have hend : st.next level ref = none := hlinks
      have hcheck : (st.setThread call thread).step cfg calls call =
          some (st.setThread call (thread.descend level)) := by
        simp [State.step, hstage, hcurr, hget, hend]
      exact ⟨_, .single hcheck, h.of_step hcheck⟩
  | cons node rest ih =>
      have hget := h.getNext_search hstage hcurr
      have hnext : st.next level ref = some node := hlinks.1
      have hcheck : (st.setThread call thread).step cfg calls call =
          some (st.setThread call (thread.goto (.compareNext level))) := by
        simp [State.step, hstage, hcurr, hget, hnext]
      by_cases hless : compareNodeKey cfg.keyLen (st.key node) (calls call).key < 0
      · have hcompare : (st.setThread call (thread.goto (.compareNext level))).step cfg calls call =
            some (st.setThread call (thread.goto (.advance level))) := by
          simp [State.step, Thread.goto, hcurr, hget, hnext, State.compare, not_le.mpr hless]
        have hadvance : (st.setThread call (thread.goto (.advance level))).step cfg calls call =
            some (st.setThread call
              { thread with stage := .checkNext level, curr := some node }) := by
          simp [State.step, Thread.goto, hcurr, hget, hnext]
        obtain ⟨last, hgoes, hinv⟩ :=
          ih (((h.of_step hcheck).of_step hcompare).of_step hadvance) rfl rfl hlinks.2
        exact ⟨last, .head hcheck (.head hcompare (.head hadvance hgoes)), hinv⟩
      · have hcompare : (st.setThread call (thread.goto (.compareNext level))).step cfg calls call =
            some (st.setThread call (thread.descend level)) := by
          simp [State.step, Thread.goto, Thread.descend, Thread.setUpdate, hcurr, hget, hnext,
            State.compare, hless]
        exact ⟨_, .head hcheck (.single hcompare), (h.of_step hcheck).of_step hcompare⟩

/-- The search from a level comes to the insertion. -/
theorem search {level : ℕ} {thread : Thread Call} (h : (st.setThread call thread).Inv calls)
    (hstage : thread.stage = .checkNext level) :
    ∃ last : Thread Call, Goes calls call (st.setThread call thread) (st.setThread call last) ∧
      (st.setThread call last).Inv calls ∧ last.stage = .lock 0 := by
  induction level generalizing thread with
  | zero =>
      obtain ⟨ref, nodes, hcurr, hlinks⟩ := h.exists_curr hstage
      obtain ⟨last, hgoes, hinv⟩ := h.search_level hstage hcurr hlinks
      exact ⟨_, hgoes, hinv, rfl⟩
  | succ level ih =>
      obtain ⟨ref, nodes, hcurr, hlinks⟩ := h.exists_curr hstage
      obtain ⟨below, hgoes, hinv⟩ := h.search_level hstage hcurr hlinks
      obtain ⟨last, hrest, hlast⟩ := ih hinv rfl
      exact ⟨last, hgoes.trans hrest, hlast⟩

/-- Where the insertion goes on after a level. -/
def afterLevel (calls : Call → Insertion cfg.maxLevel) (call : Call) (level : ℕ) : Stage :=
  if level + 1 < (calls call).newLevel then .lock (level + 1) else .loadLevel

/-- The predecessor on a level, and how far the vectors reach. -/
theorem exists_prev {level : ℕ} {thread : Thread Call} (h : (st.setThread call thread).Inv calls)
    (hlinking : (st.setThread call thread).Linking calls level call thread) :
    ∃ ref nodes, thread.update level = some ref ∧ LinksTo (st.next level) ref nodes ∧
      st.getNext (some ref) level = some (st.next level ref) ∧ level < st.level ref ∧
      level < st.level (.node call) := by
  obtain ⟨ref, hprev, hon, -, hget⟩ := h.prev_eq hlinking
  obtain ⟨nodes, hlinks⟩ := h.exists_links hon
  have hread : st.getNext (some ref) level = some (st.next level ref) := hget
  have hown : st.level (.node call) = (calls call).newLevel := hlinking.created.level
  refine ⟨ref, nodes, hprev, hlinks, hread, ?_, hown ▸ hlinking.level_lt⟩
  by_contra hnot
  rw [getNext, Option.bind_some, if_neg hnot] at hread
  exact Option.some_ne_none _ hread.symm

theorem getNext_link {level : ℕ} {thread : Thread Call} {ref : NodeRef Call}
    (h : (st.setThread call thread).Inv calls) (hstage : thread.stage = .lock level)
    (hprev : thread.update level = some ref) :
    st.getNext (some ref) level = some (st.next level ref) := by
  have hlinking := h.threads call
  rw [setThread_thread_self] at hlinking
  simp only [ThreadInv, hstage] at hlinking
  obtain ⟨ref', -, hprev', -, hget, -⟩ := h.exists_prev hlinking
  obtain rfl := Option.some.inj (hprev.symm.trans hprev')
  exact hget

theorem free_of_locked {linked : State Call} {ref : NodeRef Call} (hfree : st.Free)
    (hlocked : linked.locked = Function.update (st.setLock ref true).locked ref false) :
    linked.Free := by
  intro other
  have hsame : ((st.setLock ref true).setLock ref false).locked other = false := by
    rw [setLock_setLock (hfree ref)]
    exact hfree other
  rw [hlocked]
  exact hsame

/-- The node is linked on a level, and the lock given back. -/
theorem link_node {level : ℕ} {thread : Thread Call} {ref : NodeRef Call}
    (h : (st.setThread call thread).Inv calls) (hstage : thread.stage = .linkNew level)
    (hprev : thread.update level = some ref) :
    ∃ (linked : State Call) (last : Thread Call),
      Goes calls call (st.setThread call thread) (linked.setThread call last) ∧
      (linked.setThread call last).Inv calls ∧
      linked.locked = Function.update st.locked ref false ∧
      last.stage = afterLevel calls call level := by
  have hlinking := h.threads call
  rw [setThread_thread_self] at hlinking
  simp only [ThreadInv, hstage] at hlinking
  obtain ⟨ref', -, hprev', -, hget, hlevel, hown⟩ := h.exists_prev hlinking.1
  obtain rfl := Option.some.inj (hprev.symm.trans hprev')
  have hnew : (st.setThread call thread).step cfg calls call =
      some ((st.setNext level (.node call) (st.next level ref)).setThread call
        (thread.goto (.linkPrev level))) := by
    simp [State.step, hstage, hprev, hget, putNext_setThread hown]
  have hlevel' : level < (st.setNext level (.node call) (st.next level ref)).level ref := hlevel
  have hprevious : ((st.setNext level (.node call) (st.next level ref)).setThread call
      (thread.goto (.linkPrev level))).step cfg calls call =
      some (((st.setNext level (.node call) (st.next level ref)).setNext level ref
        (some (.node call))).setThread call (thread.goto (.unlockLinked level))) := by
    simp [State.step, Thread.goto, hprev, putNext_setThread hlevel']
  have hunlock : (((st.setNext level (.node call) (st.next level ref)).setNext level ref
        (some (.node call))).setThread call
          (thread.goto (.unlockLinked level))).step cfg calls call =
      some ((((st.setNext level (.node call) (st.next level ref)).setNext level ref
        (some (.node call))).setLock ref false).setThread call
          (thread.goto (afterLevel calls call level))) := by
    simp [State.step, Thread.goto, hprev, unlockNode_setThread, afterLevel]
  exact ⟨_, _, .head hnew (.head hprevious (.single hunlock)),
    ((h.of_step hnew).of_step hprevious).of_step hunlock, rfl, rfl⟩

/-- The insertion on one level. -/
theorem link_level {level : ℕ} {thread : Thread Call} {ref : NodeRef Call}
    {nodes : List (NodeRef Call)} (h : (st.setThread call thread).Inv calls) (hfree : st.Free)
    (hstage : thread.stage = .lock level) (hprev : thread.update level = some ref)
    (hlinks : LinksTo (st.next level) ref nodes) :
    ∃ (linked : State Call) (last : Thread Call),
      Goes calls call (st.setThread call thread) (linked.setThread call last) ∧
      (linked.setThread call last).Inv calls ∧ linked.Free ∧
      last.stage = afterLevel calls call level := by
  induction nodes generalizing thread ref with
  | nil =>
      -- the end of the level: the new node is linked here
      have hget := h.getNext_link hstage hprev
      have hend : st.next level ref = none := hlinks
      have hlock : (st.setThread call thread).step cfg calls call =
          some ((st.setLock ref true).setThread call (thread.goto (.checkLocked level))) := by
        simp [State.step, hstage, hprev, exchangeLock_setThread, hfree ref]
      have hcheck : ((st.setLock ref true).setThread call
          (thread.goto (.checkLocked level))).step cfg calls call =
          some ((st.setLock ref true).setThread call (thread.goto (.linkNew level))) := by
        simp [State.step, Thread.goto, hprev, hget, hend]
      obtain ⟨linked, last, hgoes, hinv, hlocked, hlast⟩ :=
        ((h.of_step hlock).of_step hcheck).link_node rfl hprev
      exact ⟨linked, last, .head hlock (.head hcheck hgoes), hinv,
        free_of_locked hfree hlocked, hlast⟩
  | cons node rest ih =>
      have hget := h.getNext_link hstage hprev
      have hnext : st.next level ref = some node := hlinks.1
      have hlock : (st.setThread call thread).step cfg calls call =
          some ((st.setLock ref true).setThread call (thread.goto (.checkLocked level))) := by
        simp [State.step, hstage, hprev, exchangeLock_setThread, hfree ref]
      have hcheck : ((st.setLock ref true).setThread call
          (thread.goto (.checkLocked level))).step cfg calls call =
          some ((st.setLock ref true).setThread call (thread.goto (.compareLocked level))) := by
        simp [State.step, Thread.goto, hprev, hget, hnext]
      -- the call passes a smaller node, and links in front of the first other one
      by_cases hless : compareNodeKey cfg.keyLen (st.key node) (calls call).key < 0
      · have hcompare : ((st.setLock ref true).setThread call
            (thread.goto (.compareLocked level))).step cfg calls call =
            some ((st.setLock ref true).setThread call (thread.goto (.unlockToMove level))) := by
          simp [State.step, Thread.goto, hprev, hget, hnext, State.compare, not_le.mpr hless]
        have hunlock : ((st.setLock ref true).setThread call
            (thread.goto (.unlockToMove level))).step cfg calls call =
            some (st.setThread call (thread.goto (.move level))) := by
          simp [State.step, Thread.goto, hprev, unlockNode_setThread, setLock_setLock (hfree ref)]
        have hmove : (st.setThread call (thread.goto (.move level))).step cfg calls call =
            some (st.setThread call (thread.setUpdate level (some node) (.lock level))) := by
          simp [State.step, Thread.goto, Thread.setUpdate, hprev, hget, hnext]
        obtain ⟨linked, last, hgoes, hlast⟩ := @ih _ node
          (((((h.of_step hlock).of_step hcheck).of_step hcompare).of_step hunlock).of_step hmove)
          rfl (Function.update_self ..) hlinks.2
        exact ⟨linked, last, .head hlock (.head hcheck (.head hcompare (.head hunlock
          (.head hmove hgoes)))), hlast⟩
      · have hcompare : ((st.setLock ref true).setThread call
            (thread.goto (.compareLocked level))).step cfg calls call =
            some ((st.setLock ref true).setThread call (thread.goto (.linkNew level))) := by
          simp [State.step, Thread.goto, hprev, hget, hnext, State.compare, not_lt.mp hless]
        obtain ⟨linked, last, hgoes, hinv, hlocked, hlast⟩ :=
          (((h.of_step hlock).of_step hcheck).of_step hcompare).link_node rfl hprev
        exact ⟨linked, last, .head hlock (.head hcheck (.head hcompare hgoes)), hinv,
          free_of_locked hfree hlocked, hlast⟩

/-- The insertion on the levels that are left. -/
theorem link_levels (rest : ℕ) {st : State Call} {level : ℕ} {thread : Thread Call}
    (h : (st.setThread call thread).Inv calls) (hfree : st.Free)
    (hstage : thread.stage = .lock level) (hrest : (calls call).newLevel ≤ level + rest) :
    ∃ (linked : State Call) (last : Thread Call),
      Goes calls call (st.setThread call thread) (linked.setThread call last) ∧
      (linked.setThread call last).Inv calls ∧ linked.Free ∧ last.stage = .loadLevel := by
  induction rest generalizing st level thread with
  | zero =>
      have hlinking := h.threads call
      rw [setThread_thread_self] at hlinking
      simp only [ThreadInv, hstage] at hlinking
      exact absurd hlinking.level_lt (Nat.not_lt.mpr hrest)
  | succ rest ih =>
      have hlinking := h.threads call
      rw [setThread_thread_self] at hlinking
      simp only [ThreadInv, hstage] at hlinking
      obtain ⟨ref, nodes, hprev, hlinks, -⟩ := h.exists_prev hlinking
      obtain ⟨linked, last, hgoes, hinv, hfree', hlast⟩ := h.link_level hfree hstage hprev hlinks
      unfold afterLevel at hlast
      by_cases hmore : level + 1 < (calls call).newLevel
      · rw [if_pos hmore] at hlast
        obtain ⟨linked', last', hgoes', hdone⟩ := ih hinv hfree' hlast (by omega)
        exact ⟨linked', last', hgoes.trans hgoes', hdone⟩
      · rw [if_neg hmore] at hlast
        exact ⟨linked, last, hgoes, hinv, hfree', hlast⟩

/-- A call that is alone returns. -/
theorem returns (h : st.Inv calls) (hfree : st.Free) (hstage : (st.thread call).stage = .start) :
    ∃ after, Goes calls call st after ∧ after.Free ∧
      (after.thread call).stage = .returned := by
  by_cases haccepted : (calls call).key.length = cfg.keyLen
  · have hstart : st.step cfg calls call =
        some ((st.newNode call (calls call).key (calls call).value
          (calls call).newLevel).setThread call ((st.thread call).goto .readLevel)) := by
      simp [State.step, hstage, haccepted]
    have h1 := h.of_step hstart
    generalize hst : st.newNode call (calls call).key (calls call).value
      (calls call).newLevel = created at hstart h1
    have hcreatedFree : created.Free := fun ref => by
      rw [← hst]
      exact hfree ref
    obtain ⟨top, hread⟩ : ∃ top, (created.setThread call
        ((st.thread call).goto .readLevel)).step cfg calls call =
        some (created.setThread call
          { stage := .checkNext top, curr := some .head, update := fun _ => none }) :=
      ⟨_, by
        simp only [State.step, setThread_thread_self, Thread.goto, setThread_setThread]
        rfl⟩
    -- the search, the levels from the lowest one, and then the level of the list
    obtain ⟨found, hsearch, h2, hlock⟩ := (h1.of_step hread).search rfl
    obtain ⟨linked, last, hlink, h3, hfree', hload⟩ :=
      h2.link_levels (calls call).newLevel hcreatedFree hlock (by omega)
    have hloaded : (linked.setThread call last).step cfg calls call =
        some (linked.setThread call (last.goto (.raiseLevel linked.nowLevel))) := by
      simp only [State.step, setThread_thread_self, hload, setThread_setThread]
      rfl
    have hgoes : Goes calls call st
        (linked.setThread call (last.goto (.raiseLevel linked.nowLevel))) :=
      .head hstart (.head hread (hsearch.trans (hlink.tail hloaded)))
    by_cases hlower : linked.nowLevel < (calls call).newLevel
    · have hraise : (linked.setThread call
          (last.goto (.raiseLevel linked.nowLevel))).step cfg calls call =
          some ({ linked with nowLevel := (calls call).newLevel }.setThread call
            ((last.goto (.raiseLevel linked.nowLevel)).goto .returned)) := by
        simp [State.step, Thread.goto, hlower, setThread]
      refine ⟨_, hgoes.tail hraise, fun ref => hfree' ref, ?_⟩
      rw [setThread_thread_self]
      rfl
    · have hkeep : (linked.setThread call
          (last.goto (.raiseLevel linked.nowLevel))).step cfg calls call =
          some (linked.setThread call
            ((last.goto (.raiseLevel linked.nowLevel)).goto .returned)) := by
        simp [State.step, Thread.goto, not_lt.mp hlower]
      refine ⟨_, hgoes.tail hkeep, fun ref => hfree' ref, ?_⟩
      rw [setThread_thread_self]
      rfl
  · have hrefused : st.step cfg calls call =
        some (st.setThread call ((st.thread call).goto .returned)) := by
      simp [State.step, hstage, haccepted]
    refine ⟨_, .single hrefused, fun ref => hfree ref, ?_⟩
    rw [setThread_thread_self]
    rfl

end Inv

/-- The other calls do not move. -/
theorem step_thread_of_ne {other : Call} (hne : other ≠ call)
    (hstep : st.step cfg calls call = some after) : after.thread other = st.thread other := by
  -- every step puts back the thread of the call alone
  have hset : ∀ {next : State Call} {thread : Thread Call}, next.thread = st.thread →
      (next.setThread call thread).thread other = st.thread other := by
    intro next thread hsame
    rw [setThread_thread_of_ne _ hne, hsame]
  unfold State.step at hstep
  cases hstage : (st.thread call).stage with
  | start =>
      simp only [hstage] at hstep
      split_ifs at hstep <;> cases hstep <;> exact hset rfl
  | readLevel | loadLevel =>
      simp only [hstage] at hstep
      cases hstep
      exact hset rfl
  | checkNext level | checkLocked level =>
      simp only [hstage] at hstep
      obtain ⟨next, -, hstep⟩ := Option.bind_eq_some_iff.mp hstep
      split_ifs at hstep <;> cases hstep <;> exact hset rfl
  | compareNext level | compareLocked level =>
      simp only [hstage] at hstep
      obtain ⟨next, -, hstep⟩ := Option.bind_eq_some_iff.mp hstep
      obtain ⟨order, -, hstep⟩ := Option.bind_eq_some_iff.mp hstep
      split_ifs at hstep <;> cases hstep <;> exact hset rfl
  | advance level | move level =>
      simp only [hstage] at hstep
      obtain ⟨next, -, hstep⟩ := Option.bind_eq_some_iff.mp hstep
      cases hstep
      exact hset rfl
  | lock level =>
      simp only [hstage] at hstep
      obtain ⟨⟨flag, taken⟩, hlock, hstep⟩ := Option.bind_eq_some_iff.mp hstep
      obtain ⟨ref, -, hlock⟩ := Option.map_eq_some_iff.mp hlock
      cases hlock
      simp only at hstep
      split_ifs at hstep <;> cases hstep
      · rfl
      · exact hset rfl
  | unlockToMove level | unlockLinked level =>
      simp only [hstage] at hstep
      obtain ⟨unlocked, hunlock, hstep⟩ := Option.bind_eq_some_iff.mp hstep
      obtain ⟨ref, -, rfl⟩ := Option.map_eq_some_iff.mp hunlock
      cases hstep
      exact hset rfl
  | linkNew level =>
      simp only [hstage] at hstep
      obtain ⟨next, -, hstep⟩ := Option.bind_eq_some_iff.mp hstep
      obtain ⟨linked, hlinked, hstep⟩ := Option.bind_eq_some_iff.mp hstep
      obtain ⟨ref, -, hlinked⟩ := Option.bind_eq_some_iff.mp hlinked
      split_ifs at hlinked
      cases hlinked
      cases hstep
      exact hset rfl
  | linkPrev level =>
      simp only [hstage] at hstep
      obtain ⟨linked, hlinked, hstep⟩ := Option.bind_eq_some_iff.mp hstep
      obtain ⟨ref, -, hlinked⟩ := Option.bind_eq_some_iff.mp hlinked
      split_ifs at hlinked
      cases hlinked
      cases hstep
      exact hset rfl
  | raiseLevel curLevel =>
      simp only [hstage] at hstep
      split_ifs at hstep <;> cases hstep <;> exact hset rfl
  | returned => simp [hstage] at hstep

end State

open State

variable {st after : State Call}

theorem Goes.thread_of_ne {other : Call} (hne : other ≠ call) (h : Goes calls call st after) :
    after.thread other = st.thread other := by
  induction h with
  | refl => rfl
  | tail _ hstep ih => exact (step_thread_of_ne hne hstep).trans ih

theorem Goes.reachable (h : Goes calls call st after)
    (hst : (insertions cfg calls).Reachable (fun _ _ => True) st) :
    (insertions cfg calls).Reachable (fun _ _ => True) after := by
  induction h with
  | refl => exact hst
  | tail _ hstep ih => exact .step ih trivial hstep

namespace Inserted

variable {done : List Call}

theorem reachable (h : Inserted calls done st) :
    (insertions cfg calls).Reachable (fun _ _ => True) st := by
  induction h with
  | init => exact .init
  | insert _ _ hgoes _ ih => exact hgoes.reachable ih

/-- The calls that have been made have returned, and the others have not begun. -/
theorem stage (h : Inserted calls done st) (other : Call) :
    (st.thread other).stage = if other ∈ done then .returned else .start := by
  induction h with
  | init => rfl
  | @insert done before after call _ hnew hgoes hreturned ih =>
      by_cases heq : other = call
      · rw [heq, hreturned, if_pos (List.mem_append_right _ (List.mem_singleton_self _))]
      · rw [hgoes.thread_of_ne heq, ih]
        simp [heq]

end Inserted

/-- Calls can be made one after the other in any order. -/
theorem exists_inserted (calls : Call → Insertion cfg.maxLevel) {order : List Call}
    (hnodup : order.Nodup) : ∃ st, Inserted calls order st ∧ st.Free := by
  induction order using List.reverseRecOn with
  | nil => exact ⟨_, .init, fun _ => rfl⟩
  | append_singleton done call ih =>
      obtain ⟨hdone, -, hdisjoint⟩ := List.nodup_append.mp hnodup
      have hnew : call ∉ done := fun hmem =>
        hdisjoint call hmem call (List.mem_singleton_self _) rfl
      obtain ⟨st, hst, hfree⟩ := ih hdone
      have hstart : (st.thread call).stage = .start := by rw [hst.stage, if_neg hnew]
      obtain ⟨after, hgoes, hfree', hreturned⟩ :=
        (inv_of_reachable hst.reachable).returns hfree hstart
      exact ⟨after, hst.insert hnew hgoes hreturned, hfree'⟩

end TrafficDatabase.SkipList
