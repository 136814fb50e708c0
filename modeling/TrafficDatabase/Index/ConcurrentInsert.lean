import TrafficDatabase.Index.SkipList

/-!
# Concurrent insertion

A call finds its predecessors without a lock, and a node is put into the list one
level after the other while other calls go over it.  What makes this safe is that
nodes are only added: a node that was on a level stays there, and the node behind
it can only be replaced by one whose key is not greater.  So a predecessor found
once stays a predecessor.  The test made under the lock stays true until the links
are written, because only the holder of its lock changes the pointers of a node
that is on the level.

`Steady` is what a call can rely on while others move, `Inv` what holds in every
state.
-/

namespace TrafficDatabase.SkipList

variable {cfg : SkipListConfig} {Call : Type}

/-- On how many levels, from below, the node of a call is linked at this stage. -/
def linkedLevels (insertion : Insertion cfg.maxLevel) : Stage → ℕ
  | .start | .readLevel | .checkNext _ | .compareNext _ | .advance _ => 0
  | .lock level | .checkLocked level | .compareLocked level | .unlockToMove level | .move level
  | .linkNew level | .linkPrev level => level
  | .unlockLinked level => level + 1
  | .loadLevel | .raiseLevel _ => insertion.newLevel
  | .returned => if insertion.key.length = cfg.keyLen then insertion.newLevel else 0

/-- What `compareNodeKey` compares of the key of a call. -/
def rank (calls : Call → Insertion cfg.maxLevel) (call : Call) : List ℕ :=
  fieldsOf cfg.keyLen (calls call).key

/-- The node whose lock a call holds. -/
def Thread.holding (thread : Thread Call) : Pointer Call :=
  match thread.stage with
  | .checkLocked level | .compareLocked level | .unlockToMove level | .linkNew level
  | .linkPrev level | .unlockLinked level => thread.update level
  | _ => none

namespace State

variable (calls : Call → Insertion cfg.maxLevel) (st : State Call)

def linked (call : Call) : ℕ := linkedLevels (calls call) (st.thread call).stage

/-- The nodes of a level, with the head. -/
def OnLevel (level : ℕ) (ref : NodeRef Call) : Prop :=
  ref = .head ∨ ∃ other, ref = .node other ∧ level < st.linked calls other

/-- The pointer leads to a node of the level with a smaller key, or to the head. -/
def Precedes (level : ℕ) (call : Call) (node : Pointer Call) : Prop :=
  node = some .head ∨ ∃ other, node = some (.node other) ∧ level < st.linked calls other ∧
    rank calls other < rank calls call

def HasNext (level : ℕ) (node : Pointer Call) : Prop :=
  ∃ ref next, node = some ref ∧ st.next level ref = some next

def NextSmaller (level : ℕ) (call : Call) (node : Pointer Call) : Prop :=
  ∃ ref other, node = some ref ∧ st.next level ref = some (.node other) ∧
    rank calls other < rank calls call

def NextNotSmaller (level : ℕ) (call : Call) (node : Pointer Call) : Prop :=
  ∀ ref other, node = some ref → st.next level ref = some (.node other) →
    rank calls call ≤ rank calls other

/-- The call has made its node. -/
structure Created (call : Call) : Prop where
  accepted : (calls call).key.length = cfg.keyLen
  key : st.key (.node call) = (calls call).key
  value : st.value (.node call) = (calls call).value
  level : st.level (.node call) = (calls call).newLevel

/-- The search is on a level, with the predecessors above it found. -/
structure Searching (level : ℕ) (call : Call) (thread : Thread Call) : Prop where
  created : st.Created calls call
  level_lt : level < cfg.maxLevel
  curr : st.Precedes calls level call thread.curr
  update : ∀ above, level < above → above < (calls call).newLevel →
    st.Precedes calls above call (thread.update above)

/-- The node is being linked on a level, and the predecessors on this level and
above it are known. -/
structure Linking (level : ℕ) (call : Call) (thread : Thread Call) : Prop where
  created : st.Created calls call
  level_lt : level < (calls call).newLevel
  update : ∀ above, level ≤ above → above < (calls call).newLevel →
    st.Precedes calls above call (thread.update above)

/-- What a call knows at its stage. -/
def ThreadInv (call : Call) (thread : Thread Call) : Prop :=
  match thread.stage with
  | .start => True
  | .readLevel | .loadLevel => st.Created calls call
  | .checkNext level => st.Searching calls level call thread
  | .compareNext level => st.Searching calls level call thread ∧ st.HasNext level thread.curr
  | .advance level =>
      st.Searching calls level call thread ∧ st.NextSmaller calls level call thread.curr
  | .lock level | .checkLocked level | .unlockLinked level => st.Linking calls level call thread
  | .compareLocked level =>
      st.Linking calls level call thread ∧ st.HasNext level (thread.update level)
  | .unlockToMove level | .move level =>
      st.Linking calls level call thread ∧ st.NextSmaller calls level call (thread.update level)
  | .linkNew level =>
      st.Linking calls level call thread ∧ st.NextNotSmaller calls level call (thread.update level)
  | .linkPrev level =>
      st.Linking calls level call thread ∧
        st.NextNotSmaller calls level call (thread.update level) ∧
        ∀ ref, thread.update level = some ref → st.next level (.node call) = st.next level ref
  | .raiseLevel curLevel => st.Created calls call ∧ curLevel ≤ st.nowLevel
  | .returned => (calls call).key.length = cfg.keyLen → st.Created calls call

/-- The invariant of the list and its calls. -/
structure Inv : Prop where
  head_level : st.level .head = cfg.maxLevel
  nowLevel_le : st.nowLevel ≤ cfg.maxLevel
  nowLevel_reached : st.nowLevel = 0 ∨ ∃ call, (st.thread call).stage = .returned ∧
    (calls call).key.length = cfg.keyLen ∧ (calls call).newLevel = st.nowLevel
  nowLevel_ge : ∀ call, (st.thread call).stage = .returned →
    (calls call).key.length = cfg.keyLen → (calls call).newLevel ≤ st.nowLevel
  links : ∀ level, ∃ nodes, LinksTo (st.next level) .head nodes ∧
    ∀ ref, ref ∈ nodes ↔ ∃ other, ref = .node other ∧ level < st.linked calls other
  ordered : ∀ level first second, level < st.linked calls first →
    st.next level (.node first) = some (.node second) → rank calls first ≤ rank calls second
  locks : ∀ call ref, (st.thread call).holding = some ref → st.locked ref = true
  exclusive : ∀ call other ref, (st.thread call).holding = some ref →
    (st.thread other).holding = some ref → call = other
  threads : ∀ call, st.ThreadInv calls call (st.thread call)

/-- What a call relies on while the list goes from `st` to `after`. -/
structure Steady (after : State Call) (call : Call) (thread : Thread Call) : Prop where
  linked_le : ∀ other, st.linked calls other ≤ after.linked calls other
  next : ∀ level ref, st.OnLevel calls level ref → after.next level ref = st.next level ref ∨
    thread.holding ≠ some ref ∧ ∃ other, after.next level ref = some (.node other) ∧
      ∀ old, st.next level ref = some (.node old) → rank calls other ≤ rank calls old
  own : ∀ level, linkedLevels (calls call) thread.stage ≤ level →
    after.next level (.node call) = st.next level (.node call)
  created : st.Created calls call → after.Created calls call
  nowLevel_le : st.nowLevel ≤ after.nowLevel

variable {calls st} {after : State Call} {call : Call} {thread : Thread Call} {level : ℕ}
  {node : Pointer Call} {ref : NodeRef Call} {stage : Stage}

/-! ## What a call knows stays true -/

theorem Precedes.exists_ref (h : st.Precedes calls level call node) :
    ∃ ref, node = some ref ∧ st.OnLevel calls level ref := by
  rcases h with rfl | ⟨other, rfl, hlinked, -⟩
  · exact ⟨.head, rfl, .inl rfl⟩
  · exact ⟨.node other, rfl, .inr ⟨other, rfl, hlinked⟩⟩

theorem Precedes.mono (h : st.Precedes calls level call node)
    (hle : ∀ other, st.linked calls other ≤ after.linked calls other) :
    after.Precedes calls level call node := by
  rcases h with rfl | ⟨other, rfl, hlinked, hlt⟩
  · exact .inl rfl
  · exact .inr ⟨other, rfl, hlinked.trans_le (hle other), hlt⟩

/-- A predecessor is one on the levels below too. -/
theorem Precedes.below {below : ℕ} (h : st.Precedes calls level call node) (hle : below ≤ level) :
    st.Precedes calls below call node := by
  rcases h with rfl | ⟨other, rfl, hlinked, hlt⟩
  · exact .inl rfl
  · exact .inr ⟨other, rfl, hle.trans_lt hlinked, hlt⟩

theorem Searching.steady (h : st.Searching calls level call thread)
    (hsteady : st.Steady calls after call thread) : after.Searching calls level call thread where
  created := hsteady.created h.created
  level_lt := h.level_lt
  curr := h.curr.mono hsteady.linked_le
  update := fun above habove hlt => (h.update above habove hlt).mono hsteady.linked_le

theorem Linking.mono (h : st.Linking calls level call thread)
    (hcreated : st.Created calls call → after.Created calls call)
    (hle : ∀ other, st.linked calls other ≤ after.linked calls other) :
    after.Linking calls level call thread where
  created := hcreated h.created
  level_lt := h.level_lt
  update := fun above habove hlt => (h.update above habove hlt).mono hle

theorem Linking.steady (h : st.Linking calls level call thread)
    (hsteady : st.Steady calls after call thread) : after.Linking calls level call thread :=
  h.mono hsteady.created hsteady.linked_le

theorem Steady.hasNext (hsteady : st.Steady calls after call thread)
    (hprec : st.Precedes calls level call node) (h : st.HasNext level node) :
    after.HasNext level node := by
  obtain ⟨ref, next, rfl, hnext⟩ := h
  obtain ⟨ref', heq, hon⟩ := hprec.exists_ref
  obtain rfl := Option.some.inj heq
  rcases hsteady.next level ref hon with hsame | ⟨-, other, hother, -⟩
  · exact ⟨ref, next, rfl, hsame.trans hnext⟩
  · exact ⟨ref, .node other, rfl, hother⟩

theorem Steady.nextSmaller (hsteady : st.Steady calls after call thread)
    (hprec : st.Precedes calls level call node) (h : st.NextSmaller calls level call node) :
    after.NextSmaller calls level call node := by
  obtain ⟨ref, old, rfl, hnext, hlt⟩ := h
  obtain ⟨ref', heq, hon⟩ := hprec.exists_ref
  obtain rfl := Option.some.inj heq
  rcases hsteady.next level ref hon with hsame | ⟨-, other, hother, hle⟩
  · exact ⟨ref, old, rfl, hsame.trans hnext, hlt⟩
  · exact ⟨ref, other, rfl, hother, (hle old hnext).trans_lt hlt⟩

/-- The pointer of a node whose lock the call holds does not change. -/
theorem Steady.next_eq (hsteady : st.Steady calls after call thread)
    (hprec : st.Precedes calls level call (some ref)) (hholding : thread.holding = some ref) :
    after.next level ref = st.next level ref := by
  obtain ⟨ref', heq, hon⟩ := hprec.exists_ref
  obtain rfl := Option.some.inj heq
  rcases hsteady.next level ref hon with hsame | ⟨hnot, -⟩
  · exact hsame
  · exact absurd hholding hnot

theorem Steady.nextNotSmaller (hsteady : st.Steady calls after call thread)
    (hprec : st.Precedes calls level call node) (hholding : thread.holding = node)
    (h : st.NextNotSmaller calls level call node) : after.NextNotSmaller calls level call node := by
  rintro ref other rfl hnext
  rw [hsteady.next_eq hprec hholding] at hnext
  exact h ref other rfl hnext

theorem ThreadInv.steady (h : st.ThreadInv calls call thread)
    (hsteady : st.Steady calls after call thread) : after.ThreadInv calls call thread := by
  unfold ThreadInv at h ⊢
  cases hstage : thread.stage with
  | start => trivial
  | readLevel | loadLevel =>
      simp only [hstage] at h ⊢
      exact hsteady.created h
  | checkNext level =>
      simp only [hstage] at h ⊢
      exact h.steady hsteady
  | compareNext level =>
      simp only [hstage] at h ⊢
      exact ⟨h.1.steady hsteady, hsteady.hasNext h.1.curr h.2⟩
  | advance level =>
      simp only [hstage] at h ⊢
      exact ⟨h.1.steady hsteady, hsteady.nextSmaller h.1.curr h.2⟩
  | lock level | checkLocked level | unlockLinked level =>
      simp only [hstage] at h ⊢
      exact h.steady hsteady
  | compareLocked level =>
      simp only [hstage] at h ⊢
      exact ⟨h.1.steady hsteady, hsteady.hasNext (h.1.update level le_rfl h.1.level_lt) h.2⟩
  | unlockToMove level | move level =>
      simp only [hstage] at h ⊢
      exact ⟨h.1.steady hsteady, hsteady.nextSmaller (h.1.update level le_rfl h.1.level_lt) h.2⟩
  | linkNew level =>
      simp only [hstage] at h ⊢
      have hprec := h.1.update level le_rfl h.1.level_lt
      have hholding : thread.holding = thread.update level := by simp [Thread.holding, hstage]
      exact ⟨h.1.steady hsteady, hsteady.nextNotSmaller hprec hholding h.2⟩
  | linkPrev level =>
      simp only [hstage] at h ⊢
      have hprec := h.1.update level le_rfl h.1.level_lt
      have hholding : thread.holding = thread.update level := by simp [Thread.holding, hstage]
      refine ⟨h.1.steady hsteady, hsteady.nextNotSmaller hprec hholding h.2.1, fun ref hrefeq => ?_⟩
      rw [hsteady.own level (by rw [hstage, linkedLevels]), h.2.2 ref hrefeq]
      rw [hrefeq] at hprec hholding
      exact (hsteady.next_eq hprec hholding).symm
  | raiseLevel curLevel =>
      simp only [hstage] at h ⊢
      exact ⟨hsteady.created h.1, h.2.trans hsteady.nowLevel_le⟩
  | returned =>
      simp only [hstage] at h ⊢
      exact fun haccepted => hsteady.created (h haccepted)

/-! ## From stage to stage -/

theorem Searching.goto (h : st.Searching calls level call thread) (stage : Stage) :
    st.Searching calls level call (thread.goto stage) :=
  ⟨h.created, h.level_lt, h.curr, h.update⟩

theorem Linking.goto (h : st.Linking calls level call thread) (stage : Stage) :
    st.Linking calls level call (thread.goto stage) :=
  ⟨h.created, h.level_lt, h.update⟩

/-- At the end of a level the current node is the predecessor there. -/
theorem Searching.descend (h : st.Searching calls level call thread) :
    st.ThreadInv calls call (thread.descend level) := by
  have hupdate : ∀ above, level ≤ above → above < (calls call).newLevel →
      st.Precedes calls above call (Function.update thread.update level thread.curr above) := by
    intro above hle hlt
    rcases hle.eq_or_lt with rfl | hgt
    · rw [Function.update_self]
      exact h.curr
    · rw [Function.update_of_ne hgt.ne']
      exact h.update above hgt hlt
  cases level with
  | zero => exact ⟨h.created, (calls call).newLevel_pos, hupdate⟩
  | succ below =>
      exact ⟨h.created, (Nat.lt_succ_self below).trans h.level_lt, h.curr.below (Nat.le_succ below),
        fun above hlt => hupdate above hlt⟩

/-! ## What a call reads -/

theorem created_of_lt_linked (h : st.ThreadInv calls call (st.thread call))
    (hlt : level < st.linked calls call) : st.Created calls call := by
  unfold ThreadInv at h
  unfold linked at hlt
  cases hstage : (st.thread call).stage with
  | start | readLevel | checkNext level | compareNext level | advance level =>
      simp only [hstage, linkedLevels] at hlt
      exact absurd hlt (Nat.not_lt_zero _)
  | lock level | checkLocked level | unlockLinked level =>
      simp only [hstage] at h
      exact h.created
  | compareLocked level | unlockToMove level | move level | linkNew level | linkPrev level =>
      simp only [hstage] at h
      exact h.1.created
  | loadLevel =>
      simp only [hstage] at h
      exact h
  | raiseLevel curLevel =>
      simp only [hstage] at h
      exact h.1
  | returned =>
      simp only [hstage, linkedLevels] at h hlt
      split_ifs at hlt with haccepted
      · exact h haccepted
      · exact absurd hlt (Nat.not_lt_zero _)

theorem linked_le (h : st.ThreadInv calls call (st.thread call)) :
    st.linked calls call ≤ (calls call).newLevel := by
  unfold ThreadInv at h
  unfold linked
  cases hstage : (st.thread call).stage with
  | start | readLevel | checkNext level | compareNext level | advance level => exact Nat.zero_le _
  | lock level | checkLocked level =>
      simp only [hstage] at h
      exact h.level_lt.le
  | unlockLinked level =>
      simp only [hstage] at h
      exact h.level_lt
  | compareLocked level | unlockToMove level | move level | linkNew level | linkPrev level =>
      simp only [hstage] at h
      exact h.1.level_lt.le
  | loadLevel | raiseLevel curLevel => exact le_rfl
  | returned =>
      simp only [linkedLevels]
      split_ifs
      · exact le_rfl
      · exact Nat.zero_le _

namespace Inv

/-- A pointer of a node on a level leads to a node on the level. -/
theorem next_linked (h : st.Inv calls) (hon : st.OnLevel calls level ref) {next : NodeRef Call}
    (hnext : st.next level ref = some next) :
    ∃ other, next = .node other ∧ level < st.linked calls other := by
  obtain ⟨nodes, hlinks, hmem⟩ := h.links level
  refine (hmem next).mp (hlinks.mem_of_next ?_ hnext)
  rcases hon with rfl | hlinked
  · exact List.mem_cons_self
  · exact List.mem_cons_of_mem _ ((hmem ref).mpr hlinked)

/-- The vector of a predecessor reaches up to the level. -/
theorem getNext_eq (h : st.Inv calls) (hlevel : level < cfg.maxLevel)
    (hprec : st.Precedes calls level call (some ref)) :
    st.getNext (some ref) level = some (st.next level ref) := by
  have hlt : level < st.level ref := by
    rcases hprec with heq | ⟨other, heq, hlinked, -⟩
    · rw [Option.some.inj heq, h.head_level]
      exact hlevel
    · rw [Option.some.inj heq, (created_of_lt_linked (h.threads other) hlinked).level]
      exact hlinked.trans_le (linked_le (h.threads other))
  rw [getNext, Option.bind_some, if_pos hlt]

/-- The comparison of the key behind a node on a level, where there is one. -/
theorem compare_eq (h : st.Inv calls) (hon : st.OnLevel calls level ref) {next : NodeRef Call}
    (hnext : st.next level ref = some next) (call : Call) :
    ∃ other order, next = .node other ∧
      st.compare cfg.keyLen (some next) (calls call).key = some order ∧
      (order < 0 ↔ rank calls other < rank calls call) := by
  obtain ⟨other, rfl, hlinked⟩ := h.next_linked hon hnext
  refine ⟨other, compareNodeKey cfg.keyLen (st.key (.node other)) (calls call).key, rfl, rfl, ?_⟩
  rw [(created_of_lt_linked (h.threads other) hlinked).key]
  exact compareNodeKey_neg_iff ..

end Inv

/-! ## One call moves -/

variable [DecidableEq Call]

variable (calls st) in
/-- A call has gone to `thread`, and nothing but the list has changed besides. -/
structure Moved (after : State Call) (call : Call) (thread : Thread Call) : Prop where
  running : (st.thread call).stage ≠ .returned
  thread : after.thread = Function.update st.thread call thread
  head_level : after.level .head = st.level .head
  created : ∀ other, other ≠ call → st.Created calls other → after.Created calls other

namespace Moved

variable (hmoved : st.Moved calls after call thread)

include hmoved

theorem self : after.thread call = thread := by rw [hmoved.thread, Function.update_self]

theorem other {other : Call} (hne : other ≠ call) : after.thread other = st.thread other := by
  rw [hmoved.thread, Function.update_of_ne hne]

theorem linked (other : Call) : after.linked calls other =
    if other = call then linkedLevels (calls call) thread.stage else st.linked calls other := by
  unfold State.linked
  split_ifs with heq
  · rw [heq, hmoved.self]
  · rw [hmoved.other heq]

theorem linked_eq (hlinked : linkedLevels (calls call) thread.stage = st.linked calls call) :
    after.linked calls = st.linked calls := by
  funext other
  rw [hmoved.linked]
  split_ifs with heq
  · rw [heq, hlinked]
  · rfl

theorem holding {other : Call} (hother : (after.thread other).holding = some ref) :
    other = call ∧ thread.holding = some ref ∨
      other ≠ call ∧ (st.thread other).holding = some ref := by
  by_cases heq : other = call
  · rw [heq, hmoved.self] at hother
    exact .inl ⟨heq, hother⟩
  · rw [hmoved.other heq] at hother
    exact .inr ⟨heq, hother⟩

theorem holding_eq (hholding : thread.holding = (st.thread call).holding) (other : Call) :
    (after.thread other).holding = (st.thread other).holding := by
  by_cases heq : other = call
  · rw [heq, hmoved.self, hholding]
  · rw [hmoved.other heq]

theorem nowLevel_reached (h : st.Inv calls) : st.nowLevel = 0 ∨
    ∃ other, (after.thread other).stage = .returned ∧
      (calls other).key.length = cfg.keyLen ∧ (calls other).newLevel = st.nowLevel := by
  rcases h.nowLevel_reached with hzero | ⟨other, hdone, haccepted, hlevel⟩
  · exact .inl hzero
  · have hne : other ≠ call := by
      rintro rfl
      exact hmoved.running hdone
    exact .inr ⟨other, by rwa [hmoved.other hne], haccepted, hlevel⟩

theorem nowLevel_ge (h : st.Inv calls) (hreturned : thread.stage = .returned →
      (calls call).key.length = cfg.keyLen → (calls call).newLevel ≤ st.nowLevel) (other : Call)
    (hdone : (after.thread other).stage = .returned)
    (haccepted : (calls other).key.length = cfg.keyLen) :
    (calls other).newLevel ≤ st.nowLevel := by
  by_cases heq : other = call
  · subst heq
    exact hreturned (hmoved.self ▸ hdone) haccepted
  · exact h.nowLevel_ge other (hmoved.other heq ▸ hdone) haccepted

/-- What holds of the call that moved, and of the others by what they rely on, holds
of all. -/
theorem threads (h : st.Inv calls) (ht : after.ThreadInv calls call thread)
    (hsteady : ∀ other, other ≠ call → st.Steady calls after other (st.thread other))
    (other : Call) :
    after.ThreadInv calls other (after.thread other) := by
  by_cases heq : other = call
  · subst heq
    rw [hmoved.self]
    exact ht
  · rw [hmoved.other heq]
    exact (h.threads other).steady (hsteady other heq)

end Moved

theorem moved_setThread (hrunning : (st.thread call).stage ≠ .returned) (thread : Thread Call)
    (locked : NodeRef Call → Bool) :
    st.Moved calls ({ st with locked := locked }.setThread call thread) call thread where
  running := hrunning
  thread := rfl
  head_level := rfl
  created := fun _ _ hc => ⟨hc.accepted, hc.key, hc.value, hc.level⟩

namespace Inv

/-- A call moves and may take or give back a lock, and no pointer changes. -/
theorem move (h : st.Inv calls) {locked : NodeRef Call → Bool}
    (hmoved : st.Moved calls ({ st with locked := locked }.setThread call thread) call thread)
    (hlinked : linkedLevels (calls call) thread.stage = st.linked calls call)
    (hreturned : thread.stage = .returned → (calls call).key.length = cfg.keyLen →
      (calls call).newLevel ≤ st.nowLevel)
    (hlocks : ∀ other ref, (Function.update st.thread call thread other).holding = some ref →
      locked ref = true)
    (hexclusive : ∀ first second ref,
      (Function.update st.thread call thread first).holding = some ref →
      (Function.update st.thread call thread second).holding = some ref → first = second)
    (ht : st.ThreadInv calls call thread) :
    ({ st with locked := locked }.setThread call thread).Inv calls := by
  have hsame := hmoved.linked_eq hlinked
  have hsteady : ∀ other known, st.Steady calls
      ({ st with locked := locked }.setThread call thread) other known := fun other known =>
    { linked_le := fun c => (congrFun hsame c).ge
      next := fun level ref _ => .inl rfl
      own := fun level _ => rfl
      created := fun hc => ⟨hc.accepted, hc.key, hc.value, hc.level⟩
      nowLevel_le := le_rfl }
  refine
    { head_level := h.head_level
      nowLevel_le := h.nowLevel_le
      nowLevel_reached := hmoved.nowLevel_reached h
      nowLevel_ge := hmoved.nowLevel_ge h hreturned
      links := ?_
      ordered := ?_
      locks := hlocks
      exclusive := hexclusive
      threads := hmoved.threads h (ht.steady (hsteady call thread))
        fun other _ => hsteady other _ }
  · rw [hsame]
    exact h.links
  · rw [hsame]
    exact h.ordered

/-- A call moves and keeps the lock it has, if any. -/
theorem keep (h : st.Inv calls) (hstage : (st.thread call).stage = stage)
    (hrunning : stage ≠ .returned)
    (hlinked : linkedLevels (calls call) thread.stage = linkedLevels (calls call) stage)
    (hreturned : thread.stage = .returned → (calls call).key.length = cfg.keyLen →
      (calls call).newLevel ≤ st.nowLevel)
    (hholding : thread.holding = (st.thread call).holding)
    (ht : st.ThreadInv calls call thread) : (st.setThread call thread).Inv calls := by
  have hmoved : st.Moved calls (st.setThread call thread) call thread :=
    moved_setThread (hstage ▸ hrunning) thread st.locked
  have hold := hmoved.holding_eq hholding
  refine h.move hmoved (by rw [hlinked, State.linked, hstage]) hreturned ?_ ?_ ht
  · intro other ref hother
    exact h.locks other ref ((hold other).symm.trans hother)
  · intro first second ref hfirst hsecond
    exact h.exclusive first second ref ((hold first).symm.trans hfirst)
      ((hold second).symm.trans hsecond)

/-- A call takes a lock that is free. -/
theorem take (h : st.Inv calls) (hstage : (st.thread call).stage = stage)
    (hrunning : stage ≠ .returned)
    (hlinked : linkedLevels (calls call) thread.stage = linkedLevels (calls call) stage)
    (hnext : thread.stage ≠ .returned) (hholding : thread.holding = some ref)
    (hfree : st.locked ref = false) (ht : st.ThreadInv calls call thread) :
    ({ st with locked := Function.update st.locked ref true }.setThread call thread).Inv calls := by
  have hmoved : st.Moved calls _ call thread :=
    moved_setThread (hstage ▸ hrunning) thread (Function.update st.locked ref true)
  have hnone : ∀ other, (st.thread other).holding ≠ some ref := by
    intro other hother
    exact Bool.false_ne_true (hfree.symm.trans (h.locks other ref hother))
  refine h.move hmoved (by rw [hlinked, State.linked, hstage])
    (fun hret => absurd hret hnext) ?_ ?_ ht
  · intro other ref' hother
    rcases hmoved.holding hother with ⟨-, hnew⟩ | ⟨-, hold⟩
    · obtain rfl : ref = ref' := Option.some.inj (hholding.symm.trans hnew)
      exact Function.update_self ..
    · have hne : ref' ≠ ref := by
        rintro rfl
        exact hnone other hold
      rw [Function.update_of_ne hne]
      exact h.locks other ref' hold
  · intro first second ref' hfirst hsecond
    rcases hmoved.holding hfirst with ⟨rfl, hnew⟩ | ⟨-, hold⟩
    · rcases hmoved.holding hsecond with ⟨rfl, -⟩ | ⟨-, hold'⟩
      · rfl
      · exact absurd (hold'.trans (hnew.symm.trans hholding)) (hnone second)
    · rcases hmoved.holding hsecond with ⟨rfl, hnew⟩ | ⟨-, hold'⟩
      · exact absurd (hold.trans (hnew.symm.trans hholding)) (hnone first)
      · exact h.exclusive first second ref' hold hold'

/-- A call gives its lock back. -/
theorem giveBack (h : st.Inv calls) (hstage : (st.thread call).stage = stage)
    (hrunning : stage ≠ .returned)
    (hlinked : linkedLevels (calls call) thread.stage = linkedLevels (calls call) stage)
    (hnext : thread.stage ≠ .returned) (hheld : (st.thread call).holding = some ref)
    (hholding : thread.holding = none) (ht : st.ThreadInv calls call thread) :
    ({ st with locked := Function.update st.locked ref false }.setThread call thread).Inv
      calls := by
  have hmoved : st.Moved calls _ call thread :=
    moved_setThread (hstage ▸ hrunning) thread (Function.update st.locked ref false)
  have hold : ∀ other ref', (Function.update st.thread call thread other).holding = some ref' →
      other ≠ call ∧ (st.thread other).holding = some ref' := by
    intro other ref' hother
    rcases hmoved.holding hother with ⟨-, hnew⟩ | hold
    · exact absurd (hholding.symm.trans hnew) (Option.some_ne_none ref').symm
    · exact hold
  refine h.move hmoved (by rw [hlinked, State.linked, hstage])
    (fun hret => absurd hret hnext) ?_ ?_ ht
  · intro other ref' hother
    obtain ⟨hne, hother⟩ := hold other ref' hother
    have hne' : ref' ≠ ref := by
      rintro rfl
      exact hne (h.exclusive other call ref' hother hheld)
    rw [Function.update_of_ne hne']
    exact h.locks other ref' hother
  · intro first second ref' hfirst hsecond
    exact h.exclusive first second ref' (hold first ref' hfirst).2 (hold second ref' hsecond).2

/-- A call writes to its own node, on levels the node is not linked on. -/
theorem writeOwn (h : st.Inv calls) (hmoved : st.Moved calls after call thread)
    (hlinked : linkedLevels (calls call) thread.stage = st.linked calls call)
    (hstage : thread.stage ≠ .returned) (hholding : thread.holding = (st.thread call).holding)
    (hlocked : after.locked = st.locked) (hnowLevel : after.nowLevel = st.nowLevel)
    (hnext : ∀ level ref, (ref = .node call → level < st.linked calls call) →
      after.next level ref = st.next level ref)
    (ht : after.ThreadInv calls call thread) : after.Inv calls := by
  have hsame := hmoved.linked_eq hlinked
  have hold := hmoved.holding_eq hholding
  -- the levels the call is not on yet are the ones it may write
  have hon : ∀ level ref, st.OnLevel calls level ref →
      after.next level ref = st.next level ref := by
    rintro level ref (rfl | ⟨other, rfl, hlt⟩)
    · exact hnext level .head fun heq => absurd heq (by simp)
    · refine hnext level (.node other) fun heq => ?_
      rw [← NodeRef.node.inj heq]
      exact hlt
  refine
    { head_level := hmoved.head_level.trans h.head_level
      nowLevel_le := hnowLevel.le.trans h.nowLevel_le
      nowLevel_reached := hnowLevel ▸ hmoved.nowLevel_reached h
      nowLevel_ge := hnowLevel ▸ hmoved.nowLevel_ge h fun hret => absurd hret hstage
      links := ?_
      ordered := ?_
      locks := ?_
      exclusive := ?_
      threads := hmoved.threads h ht fun other hne => ?_ }
  · intro level
    obtain ⟨nodes, hlinks, hmem⟩ := h.links level
    rw [hsame]
    refine ⟨nodes, hlinks.congr fun ref href => hon level ref ?_, hmem⟩
    rcases List.mem_cons.mp href with rfl | hin
    · exact .inl rfl
    · exact .inr ((hmem ref).mp hin)
  · intro level first second hlt hfirst
    rw [hsame] at hlt
    rw [hon level _ (.inr ⟨first, rfl, hlt⟩)] at hfirst
    exact h.ordered level first second hlt hfirst
  · intro other ref hother
    rw [hlocked]
    exact h.locks other ref ((hold other).symm.trans hother)
  · intro first second ref hfirst hsecond
    exact h.exclusive first second ref ((hold first).symm.trans hfirst)
      ((hold second).symm.trans hsecond)
  · exact
      { linked_le := fun c => (congrFun hsame c).ge
        next := fun level ref hin => .inl (hon level ref hin)
        own := fun level _ => hnext level _ fun heq => absurd (NodeRef.node.inj heq) hne
        created := hmoved.created other hne
        nowLevel_le := hnowLevel.ge }

/-- The second of the two link writes puts the node on the level. -/
theorem link (h : st.Inv calls) (hmoved : st.Moved calls after call thread)
    (hstage : (st.thread call).stage = .linkPrev level)
    (hprev : (st.thread call).update level = some ref)
    (hthread : thread = (st.thread call).goto (.unlockLinked level))
    (hlocked : after.locked = st.locked) (hnowLevel : after.nowLevel = st.nowLevel)
    (hcreated : st.Created calls call → after.Created calls call)
    (hnext : after.next = Function.update st.next level
      (Function.update (st.next level) ref (some (.node call)))) : after.Inv calls := by
  have hknown := h.threads call
  simp only [ThreadInv, hstage] at hknown
  obtain ⟨hlinking, hsmaller, hnew⟩ := hknown
  have hprec := hprev ▸ hlinking.update level le_rfl hlinking.level_lt
  have hlinked : st.linked calls call = level := by rw [State.linked, hstage, linkedLevels]
  have hlinked' : ∀ other, after.linked calls other =
      if other = call then level + 1 else st.linked calls other := by
    intro other
    rw [hmoved.linked, hthread, Thread.goto, linkedLevels]
  have hle : ∀ other, st.linked calls other ≤ after.linked calls other := by
    intro other
    rw [hlinked']
    split_ifs with heq
    · rw [heq, hlinked]
      exact Nat.le_succ level
    · exact le_rfl
  have hheld : (st.thread call).holding = some ref := by
    rw [Thread.holding, hstage]
    exact hprev
  have hholding : thread.holding = (st.thread call).holding := by
    rw [hheld, hthread, Thread.holding, Thread.goto]
    exact hprev
  have hold := hmoved.holding_eq hholding
  have hsame : ∀ level' ref', (level' = level → ref' ≠ ref) →
      after.next level' ref' = st.next level' ref' := by
    intro level' ref' hdiff
    rw [hnext]
    by_cases hlevel : level' = level
    · rw [hlevel, Function.update_self, Function.update_of_ne (hdiff hlevel)]
    · rw [Function.update_of_ne hlevel]
  have hat : after.next level ref = some (.node call) := by
    rw [hnext, Function.update_self, Function.update_self]
  -- the predecessor is on the level, the node is not yet
  have hne : NodeRef.node call ≠ ref := by
    rintro rfl
    rcases hprec with heq | ⟨other, heq, hlt, -⟩
    · exact absurd heq (by simp)
    · rw [← NodeRef.node.inj (Option.some.inj heq), hlinked] at hlt
      exact lt_irrefl level hlt
  refine
    { head_level := hmoved.head_level.trans h.head_level
      nowLevel_le := hnowLevel.le.trans h.nowLevel_le
      nowLevel_reached := hnowLevel ▸ hmoved.nowLevel_reached h
      nowLevel_ge := hnowLevel ▸ hmoved.nowLevel_ge h fun hret => ?_
      links := ?_
      ordered := ?_
      locks := ?_
      exclusive := ?_
      threads := hmoved.threads h ?_ fun other hother => ?_ }
  · rw [hthread] at hret
    exact Stage.noConfusion hret
  · intro level'
    obtain ⟨nodes, hlinks, hmem⟩ := h.links level'
    by_cases hlevel : level' = level
    · subst hlevel
      obtain ⟨ref', heq, hon⟩ := hprec.exists_ref
      obtain rfl := Option.some.inj heq
      have hin : ref ∈ NodeRef.head :: nodes := by
        rcases hon with rfl | hin
        · exact List.mem_cons_self
        · exact List.mem_cons_of_mem _ ((hmem ref).mpr hin)
      have hout : NodeRef.node call ∉ NodeRef.head :: nodes := by
        intro hin
        rcases List.mem_cons.mp hin with heq | hin
        · exact absurd heq (by simp)
        · obtain ⟨other, heq, hlt⟩ := (hmem _).mp hin
          rw [← NodeRef.node.inj heq, hlinked] at hlt
          exact lt_irrefl level' hlt
      obtain ⟨nodes', hlinks', hperm⟩ := hlinks.insert hin hout (hnew ref hprev)
      refine ⟨nodes', by rwa [hnext, Function.update_self], fun x => ?_⟩
      rw [hperm.mem_iff, List.mem_cons, hmem]
      constructor
      · rintro (rfl | ⟨other, rfl, hlt⟩)
        · exact ⟨call, rfl, by rw [hlinked', if_pos rfl]; exact Nat.lt_succ_self level'⟩
        · exact ⟨other, rfl, hlt.trans_le (hle other)⟩
      · rintro ⟨other, rfl, hlt⟩
        rw [hlinked'] at hlt
        split_ifs at hlt with heq
        · exact .inl (heq ▸ rfl)
        · exact .inr ⟨other, rfl, hlt⟩
    · have hlt_iff : ∀ other,
          level' < after.linked calls other ↔ level' < st.linked calls other := by
        intro other
        rw [hlinked']
        split_ifs with heq
        · rw [heq, hlinked]
          omega
        · rfl
      refine ⟨nodes, hlinks.congr fun x _ => hsame level' x fun heq => absurd heq hlevel, ?_⟩
      simpa only [hlt_iff] using hmem
  · intro level' first second hlt hfirst
    by_cases hat' : level' = level ∧ NodeRef.node first = ref
    · obtain ⟨rfl, rfl⟩ := hat'
      obtain rfl : call = second := NodeRef.node.inj (Option.some.inj (hat.symm.trans hfirst))
      rcases hprec with heq | ⟨other, heq, -, hsmall⟩
      · exact absurd heq (by simp)
      · rw [NodeRef.node.inj (Option.some.inj heq)]
        exact hsmall.le
    · rw [hsame level' _ fun hlevel href => hat' ⟨hlevel, href⟩] at hfirst
      rw [hlinked'] at hlt
      split_ifs at hlt with heq
      · subst heq
        rcases Nat.lt_succ_iff_lt_or_eq.mp hlt with hbelow | rfl
        · exact h.ordered level' first second (hlinked.symm ▸ hbelow) hfirst
        · exact hsmaller ref second hprev ((hnew ref hprev).symm.trans hfirst)
      · exact h.ordered level' first second hlt hfirst
  · intro other ref' hother
    rw [hlocked]
    exact h.locks other ref' ((hold other).symm.trans hother)
  · intro first second ref' hfirst hsecond
    exact h.exclusive first second ref' ((hold first).symm.trans hfirst)
      ((hold second).symm.trans hsecond)
  · rw [hthread, ThreadInv, Thread.goto]
    have hafter := hlinking.mono hcreated hle
    exact ⟨hafter.created, hafter.level_lt, hafter.update⟩
  · refine
      { linked_le := hle
        next := fun level' ref' _ => ?_
        own := fun level' hlevel => hsame level' _ ?_
        created := hmoved.created other hother
        nowLevel_le := hnowLevel.ge }
    · by_cases hat' : level' = level ∧ ref' = ref
      · obtain ⟨rfl, rfl⟩ := hat'
        refine .inr ⟨fun hheld' => hother (h.exclusive other call ref' hheld' hheld), call, hat, ?_⟩
        exact fun old hnextOld => hsmaller ref' old hprev hnextOld
      · exact .inl (hsame level' ref' fun hlevel href => hat' ⟨hlevel, href⟩)
    · rintro rfl rfl
      rcases hprec with heq | ⟨other', heq, hlt, -⟩
      · exact absurd heq (by simp)
      · rw [← NodeRef.node.inj (Option.some.inj heq)] at hlt
        exact absurd hlevel (not_le.mpr hlt)

/-- The level of the list is raised to the height of a node that is linked on all
its levels. -/
theorem raise (h : st.Inv calls) (hstage : (st.thread call).stage = .raiseLevel st.nowLevel)
    (hlt : st.nowLevel < (calls call).newLevel) :
    ({ st with nowLevel := (calls call).newLevel }.setThread call
      ((st.thread call).goto .returned)).Inv calls := by
  have hknown := h.threads call
  simp only [ThreadInv, hstage] at hknown
  set after := ({ st with nowLevel := (calls call).newLevel } : State Call).setThread call
    ((st.thread call).goto .returned) with hafter
  have hmoved : st.Moved calls after call ((st.thread call).goto .returned) :=
    { running := by rw [hstage]; exact Stage.noConfusion
      thread := rfl
      head_level := rfl
      created := fun _ _ hc => ⟨hc.accepted, hc.key, hc.value, hc.level⟩ }
  have hsame : after.linked calls = st.linked calls := by
    refine hmoved.linked_eq ?_
    rw [State.linked, hstage]
    simp only [Thread.goto, linkedLevels]
    exact if_pos hknown.1.accepted
  have hold := hmoved.holding_eq (by rw [Thread.holding, Thread.holding, hstage]; rfl)
  refine
    { head_level := h.head_level
      nowLevel_le := (calls call).newLevel_le
      nowLevel_reached := .inr ⟨call, by rw [hmoved.self]; rfl, hknown.1.accepted, rfl⟩
      nowLevel_ge := fun other hdone haccepted => ?_
      links := ?_
      ordered := ?_
      locks := fun other ref hother => h.locks other ref ((hold other).symm.trans hother)
      exclusive := fun first second ref hfirst hsecond => h.exclusive first second ref
        ((hold first).symm.trans hfirst) ((hold second).symm.trans hsecond)
      threads := hmoved.threads h ?_ fun other hother => ?_ }
  · by_cases heq : other = call
    · rw [heq]
      exact le_rfl
    · exact (h.nowLevel_ge other (hmoved.other heq ▸ hdone) haccepted).trans hlt.le
  · rw [hsame]
    exact h.links
  · rw [hsame]
    exact h.ordered
  · exact fun _ => ⟨hknown.1.accepted, hknown.1.key, hknown.1.value, hknown.1.level⟩
  · exact
      { linked_le := fun c => (congrFun hsame c).ge
        next := fun level ref _ => .inl rfl
        own := fun level _ => rfl
        created := hmoved.created other hother
        nowLevel_le := hlt.le }

end Inv

/-! ## The steps -/

namespace Inv

theorem step_start (h : st.Inv calls) (hstage : (st.thread call).stage = .start) :
    ∃ after, st.step cfg calls call = some after ∧ after.Inv calls := by
  have hlinked : st.linked calls call = 0 := by rw [State.linked, hstage, linkedLevels]
  have hholding : (st.thread call).holding = none := by rw [Thread.holding, hstage]
  simp only [step, hstage]
  split_ifs with hlength
  · exact ⟨_, rfl, h.keep hstage Stage.noConfusion (if_neg hlength)
      (fun _ haccepted => absurd haccepted hlength) hholding.symm
      fun haccepted => absurd haccepted hlength⟩
  · refine ⟨_, rfl, h.writeOwn
      (show st.Moved calls _ call ((st.thread call).goto .readLevel) from ?_) hlinked.symm
      Stage.noConfusion hholding.symm rfl rfl ?_ ?_⟩
    · exact
        { running := by rw [hstage]; exact Stage.noConfusion
          thread := rfl
          head_level := by simp [setThread, newNode]
          created := fun other hne hc =>
            have hne' : NodeRef.node other ≠ .node call := fun heq => hne (NodeRef.node.inj heq)
            ⟨hc.accepted, (Function.update_of_ne hne' ..).trans hc.key,
              (Function.update_of_ne hne' ..).trans hc.value,
              (Function.update_of_ne hne' ..).trans hc.level⟩ }
    · intro level ref hlevel
      refine Function.update_of_ne (fun heq => ?_) ..
      exact absurd (hlinked ▸ hlevel heq) (Nat.not_lt_zero level)
    · exact ⟨not_not.mp hlength, Function.update_self .., Function.update_self ..,
        Function.update_self ..⟩

theorem step_readLevel (h : st.Inv calls) (hstage : (st.thread call).stage = .readLevel) :
    ∃ after, st.step cfg calls call = some after ∧ after.Inv calls := by
  have hcreated := h.threads call
  simp only [ThreadInv, hstage] at hcreated
  have hpos := (calls call).newLevel_pos
  have hle := (calls call).newLevel_le
  have hnow := h.nowLevel_le
  simp only [step, hstage]
  refine ⟨_, rfl, h.keep hstage Stage.noConfusion rfl Stage.noConfusion ?_ ?_⟩
  · rw [Thread.holding, Thread.holding, hstage]
  · refine ⟨hcreated, ?_, .inl rfl, fun above habove hlt => ?_⟩
    · split_ifs <;> omega
    · split_ifs at habove <;> omega

/-- The search leaves a level. -/
theorem keep_descend (h : st.Inv calls) (hstage : (st.thread call).stage = stage)
    (hrunning : stage ≠ .returned) (hlinked : linkedLevels (calls call) stage = 0)
    (hholding : (st.thread call).holding = none)
    (hsearch : st.Searching calls level call (st.thread call)) :
    (st.setThread call ((st.thread call).descend level)).Inv calls := by
  refine h.keep hstage hrunning ?_ ?_ ?_ hsearch.descend
  · rw [hlinked]
    cases level <;> rfl
  · cases level <;> exact Stage.noConfusion
  · rw [hholding]
    cases level <;> rfl

theorem step_checkNext (h : st.Inv calls) (hstage : (st.thread call).stage = .checkNext level) :
    ∃ after, st.step cfg calls call = some after ∧ after.Inv calls := by
  have hsearch := h.threads call
  simp only [ThreadInv, hstage] at hsearch
  have hholding : (st.thread call).holding = none := by rw [Thread.holding, hstage]
  obtain ⟨ref, hcurr, hon⟩ := hsearch.curr.exists_ref
  have hget := h.getNext_eq hsearch.level_lt (hcurr ▸ hsearch.curr)
  simp only [step, hstage, hcurr, hget, Option.bind_eq_bind, Option.bind_some]
  split_ifs with hnext
  · obtain ⟨next, hnext⟩ := Option.ne_none_iff_exists'.mp hnext
    exact ⟨_, rfl, h.keep hstage Stage.noConfusion rfl Stage.noConfusion hholding.symm
      ⟨hsearch.goto _, ref, next, hcurr, hnext⟩⟩
  · exact ⟨_, rfl, h.keep_descend hstage Stage.noConfusion rfl hholding hsearch⟩

theorem step_compareNext (h : st.Inv calls) (hstage : (st.thread call).stage = .compareNext level) :
    ∃ after, st.step cfg calls call = some after ∧ after.Inv calls := by
  have hknown := h.threads call
  simp only [ThreadInv, hstage] at hknown
  obtain ⟨hsearch, ref, next, hcurr, hnext⟩ := hknown
  have hholding : (st.thread call).holding = none := by rw [Thread.holding, hstage]
  obtain ⟨ref', heq, hon⟩ := (hcurr ▸ hsearch.curr).exists_ref
  obtain rfl := Option.some.inj heq
  have hget := h.getNext_eq hsearch.level_lt (hcurr ▸ hsearch.curr)
  obtain ⟨other, order, rfl, hcompare, hiff⟩ := h.compare_eq hon hnext call
  simp only [step, hstage, hcurr, hget, hnext, hcompare, Option.bind_eq_bind, Option.bind_some]
  split_ifs with horder
  · exact ⟨_, rfl, h.keep hstage Stage.noConfusion rfl Stage.noConfusion hholding.symm
      ⟨hsearch.goto _, ref, other, hcurr, hnext, hiff.mp horder⟩⟩
  · exact ⟨_, rfl, h.keep_descend hstage Stage.noConfusion rfl hholding hsearch⟩

theorem step_advance (h : st.Inv calls) (hstage : (st.thread call).stage = .advance level) :
    ∃ after, st.step cfg calls call = some after ∧ after.Inv calls := by
  have hknown := h.threads call
  simp only [ThreadInv, hstage] at hknown
  obtain ⟨hsearch, ref, other, hcurr, hnext, hsmaller⟩ := hknown
  have hholding : (st.thread call).holding = none := by rw [Thread.holding, hstage]
  obtain ⟨ref', heq, hon⟩ := (hcurr ▸ hsearch.curr).exists_ref
  obtain rfl := Option.some.inj heq
  have hget := h.getNext_eq hsearch.level_lt (hcurr ▸ hsearch.curr)
  obtain ⟨other', heq, hlinked⟩ := h.next_linked hon hnext
  obtain rfl := NodeRef.node.inj heq
  simp only [step, hstage, hcurr, hget, hnext, Option.bind_eq_bind, Option.bind_some]
  exact ⟨_, rfl, h.keep hstage Stage.noConfusion rfl Stage.noConfusion hholding.symm
    ⟨hsearch.created, hsearch.level_lt, .inr ⟨other, rfl, hlinked, hsmaller⟩, hsearch.update⟩⟩

omit [DecidableEq Call] in
/-- The predecessor on the level that is linked next, and what is read from it. -/
theorem prev_eq (h : st.Inv calls) (hlinking : st.Linking calls level call thread) :
    ∃ ref, thread.update level = some ref ∧ st.OnLevel calls level ref ∧
      st.Precedes calls level call (some ref) ∧
      st.getNext (some ref) level = some (st.next level ref) := by
  have hprec := hlinking.update level le_rfl hlinking.level_lt
  obtain ⟨ref, hprev, hon⟩ := hprec.exists_ref
  rw [hprev] at hprec
  have hlevel := hlinking.level_lt.trans_le (calls call).newLevel_le
  exact ⟨ref, hprev, hon, hprec, h.getNext_eq hlevel hprec⟩

theorem step_lock (h : st.Inv calls) (hstage : (st.thread call).stage = .lock level) :
    ∃ after, st.step cfg calls call = some after ∧ after.Inv calls := by
  have hlinking := h.threads call
  simp only [ThreadInv, hstage] at hlinking
  obtain ⟨ref, hprev, -, -, -⟩ := h.prev_eq hlinking
  simp only [step, hstage, hprev, exchangeLock, Option.map_some, Option.bind_eq_bind,
    Option.bind_some]
  split_ifs with hflag
  · -- the lock is taken, and setting its flag once more changes nothing
    have hsame : Function.update st.locked ref true = st.locked := by
      rw [← hflag, Function.update_eq_self]
    exact ⟨_, rfl, by rwa [hsame]⟩
  · refine ⟨_, rfl, h.take hstage Stage.noConfusion rfl Stage.noConfusion hprev
      (Bool.eq_false_iff.mpr hflag) (hlinking.goto _)⟩

theorem step_checkLocked (h : st.Inv calls) (hstage : (st.thread call).stage = .checkLocked level) :
    ∃ after, st.step cfg calls call = some after ∧ after.Inv calls := by
  have hlinking := h.threads call
  simp only [ThreadInv, hstage] at hlinking
  have hholding : (st.thread call).holding = (st.thread call).update level := by
    rw [Thread.holding, hstage]
  obtain ⟨ref, hprev, -, -, hget⟩ := h.prev_eq hlinking
  simp only [step, hstage, hprev, hget, Option.bind_eq_bind, Option.bind_some]
  split_ifs with hnext
  · obtain ⟨next, hnext⟩ := Option.ne_none_iff_exists'.mp hnext
    exact ⟨_, rfl, h.keep hstage Stage.noConfusion rfl Stage.noConfusion hholding.symm
      ⟨hlinking.goto _, ref, next, hprev, hnext⟩⟩
  · refine ⟨_, rfl, h.keep hstage Stage.noConfusion rfl Stage.noConfusion hholding.symm
      ⟨hlinking.goto _, ?_⟩⟩
    intro ref' other hprev' hother
    obtain rfl := Option.some.inj (hprev.symm.trans hprev')
    exact absurd (hother ▸ Option.some_ne_none _) hnext

theorem step_compareLocked (h : st.Inv calls)
    (hstage : (st.thread call).stage = .compareLocked level) :
    ∃ after, st.step cfg calls call = some after ∧ after.Inv calls := by
  have hknown := h.threads call
  simp only [ThreadInv, hstage] at hknown
  obtain ⟨hlinking, ref, next, hprev, hnext⟩ := hknown
  have hholding : (st.thread call).holding = (st.thread call).update level := by
    rw [Thread.holding, hstage]
  obtain ⟨ref', hprev', hon, -, hget⟩ := h.prev_eq hlinking
  obtain rfl := Option.some.inj (hprev.symm.trans hprev')
  obtain ⟨other, order, rfl, hcompare, hiff⟩ := h.compare_eq hon hnext call
  simp only [step, hstage, hprev, hget, hnext, hcompare, Option.bind_eq_bind, Option.bind_some]
  split_ifs with horder
  · exact ⟨_, rfl, h.keep hstage Stage.noConfusion rfl Stage.noConfusion hholding.symm
      ⟨hlinking.goto _, ref, other, hprev, hnext, hiff.mp horder⟩⟩
  · refine ⟨_, rfl, h.keep hstage Stage.noConfusion rfl Stage.noConfusion hholding.symm
      ⟨hlinking.goto _, ?_⟩⟩
    intro ref' other' hprev' hother
    obtain rfl := Option.some.inj (hprev.symm.trans hprev')
    obtain rfl := NodeRef.node.inj (Option.some.inj (hnext.symm.trans hother))
    exact not_lt.mp fun hlt => horder (hiff.mpr hlt)

theorem step_unlockToMove (h : st.Inv calls)
    (hstage : (st.thread call).stage = .unlockToMove level) :
    ∃ after, st.step cfg calls call = some after ∧ after.Inv calls := by
  have hknown := h.threads call
  simp only [ThreadInv, hstage] at hknown
  obtain ⟨hlinking, hsmaller⟩ := hknown
  obtain ⟨ref, hprev, -, -, -⟩ := h.prev_eq hlinking
  have hheld : (st.thread call).holding = some ref := by
    rw [Thread.holding, hstage]
    exact hprev
  simp only [step, hstage, hprev, unlockNode, Option.map_some, Option.bind_eq_bind,
    Option.bind_some]
  exact ⟨_, rfl, h.giveBack hstage Stage.noConfusion rfl Stage.noConfusion hheld rfl
    ⟨hlinking.goto _, hsmaller⟩⟩

theorem step_move (h : st.Inv calls) (hstage : (st.thread call).stage = .move level) :
    ∃ after, st.step cfg calls call = some after ∧ after.Inv calls := by
  have hknown := h.threads call
  simp only [ThreadInv, hstage] at hknown
  obtain ⟨hlinking, ref, other, hprev, hnext, hsmaller⟩ := hknown
  have hholding : (st.thread call).holding = none := by rw [Thread.holding, hstage]
  obtain ⟨ref', hprev', hon, -, hget⟩ := h.prev_eq hlinking
  obtain rfl := Option.some.inj (hprev.symm.trans hprev')
  obtain ⟨other', heq, hlinked⟩ := h.next_linked hon hnext
  obtain rfl := NodeRef.node.inj heq
  simp only [step, hstage, hprev, hget, hnext, Option.bind_eq_bind, Option.bind_some]
  refine ⟨_, rfl, h.keep hstage Stage.noConfusion rfl Stage.noConfusion hholding.symm
    ⟨hlinking.created, hlinking.level_lt, fun above hle hlt => ?_⟩⟩
  show st.Precedes calls above call
    (Function.update (st.thread call).update level (some (.node other)) above)
  by_cases heq : above = level
  · rw [heq, Function.update_self]
    exact .inr ⟨other, rfl, hlinked, hsmaller⟩
  · rw [Function.update_of_ne heq]
    exact hlinking.update above hle hlt

theorem step_linkNew (h : st.Inv calls) (hstage : (st.thread call).stage = .linkNew level) :
    ∃ after, st.step cfg calls call = some after ∧ after.Inv calls := by
  have hknown := h.threads call
  simp only [ThreadInv, hstage] at hknown
  obtain ⟨hlinking, hnot⟩ := hknown
  obtain ⟨ref, hprev, hon, -, hget⟩ := h.prev_eq hlinking
  have hlinked : st.linked calls call = level := by rw [State.linked, hstage, linkedLevels]
  have hlevel : level < st.level (.node call) := by
    rw [hlinking.created.level]
    exact hlinking.level_lt
  -- the node in front is on the level, the new one is not
  have hne : ref ≠ .node call := by
    rintro rfl
    rcases hon with heq | ⟨other, heq, hlt⟩
    · exact absurd heq (by simp)
    · rw [← NodeRef.node.inj heq, hlinked] at hlt
      exact lt_irrefl level hlt
  simp only [step, hstage, hprev, hget, putNext, if_pos hlevel, Option.bind_eq_bind,
    Option.bind_some]
  have hmoved : st.Moved calls
      (({ st with next := Function.update st.next level (Function.update (st.next level)
        (.node call) (st.next level ref)) } : State Call).setThread call
          ((st.thread call).goto (.linkPrev level)))
      call ((st.thread call).goto (.linkPrev level)) :=
    { running := by rw [hstage]; exact Stage.noConfusion
      thread := rfl
      head_level := rfl
      created := fun _ _ hc => ⟨hc.accepted, hc.key, hc.value, hc.level⟩ }
  -- only the pointer of the new node is written, which nobody follows yet
  have hsame : ∀ level' ref', (ref' = .node call → level' < st.linked calls call) →
      Function.update st.next level (Function.update (st.next level) (.node call)
        (st.next level ref)) level' ref' = st.next level' ref' := by
    intro level' ref' hother
    by_cases hlevel' : level' = level
    · subst hlevel'
      rw [Function.update_self, Function.update_of_ne]
      exact fun heq => lt_irrefl level' (hlinked ▸ hother heq)
    · rw [Function.update_of_ne hlevel']
  refine ⟨_, rfl, h.writeOwn hmoved hlinked.symm Stage.noConfusion
    (by rw [Thread.holding, Thread.holding, hstage]; rfl) rfl rfl hsame ⟨?_, ?_, ?_⟩⟩
  · exact (hlinking.goto _).mono (fun hc => ⟨hc.accepted, hc.key, hc.value, hc.level⟩)
      fun other => (congrFun (hmoved.linked_eq hlinked.symm) other).ge
  · intro ref' other hprev' hother
    obtain rfl := Option.some.inj (hprev.symm.trans hprev')
    exact hnot ref other hprev ((hsame level ref fun heq => absurd heq hne).symm.trans hother)
  · intro ref' hprev'
    obtain rfl := Option.some.inj (hprev.symm.trans hprev')
    refine Eq.trans ?_ (hsame level ref fun heq => absurd heq hne).symm
    simp [setThread]

theorem step_linkPrev (h : st.Inv calls) (hstage : (st.thread call).stage = .linkPrev level) :
    ∃ after, st.step cfg calls call = some after ∧ after.Inv calls := by
  have hknown := h.threads call
  simp only [ThreadInv, hstage] at hknown
  obtain ⟨ref, hprev, -, -, hget⟩ := h.prev_eq hknown.1
  have hlevel : level < st.level ref := by
    rw [getNext, Option.bind_some] at hget
    by_contra hnot
    rw [if_neg hnot] at hget
    exact Option.some_ne_none _ hget.symm
  simp only [step, hstage, hprev, putNext, if_pos hlevel, Option.bind_eq_bind, Option.bind_some]
  refine ⟨_, rfl, h.link
    (show st.Moved calls _ call ((st.thread call).goto (.unlockLinked level)) from ?_) hstage hprev
    rfl rfl rfl (fun hc => ⟨hc.accepted, hc.key, hc.value, hc.level⟩) rfl⟩
  exact
    { running := by rw [hstage]; exact Stage.noConfusion
      thread := rfl
      head_level := rfl
      created := fun _ _ hc => ⟨hc.accepted, hc.key, hc.value, hc.level⟩ }

theorem step_unlockLinked (h : st.Inv calls)
    (hstage : (st.thread call).stage = .unlockLinked level) :
    ∃ after, st.step cfg calls call = some after ∧ after.Inv calls := by
  have hlinking := h.threads call
  simp only [ThreadInv, hstage] at hlinking
  obtain ⟨ref, hprev, -, -, -⟩ := h.prev_eq hlinking
  have hheld : (st.thread call).holding = some ref := by
    rw [Thread.holding, hstage]
    exact hprev
  simp only [step, hstage, hprev, unlockNode, Option.map_some, Option.bind_eq_bind,
    Option.bind_some]
  have hlt := hlinking.level_lt
  split_ifs with hmore
  · exact ⟨_, rfl, h.giveBack hstage Stage.noConfusion rfl Stage.noConfusion hheld rfl
      ⟨hlinking.created, hmore, fun above hle => hlinking.update above (by omega)⟩⟩
  · have hall : (calls call).newLevel = level + 1 := by omega
    exact ⟨_, rfl, h.giveBack hstage Stage.noConfusion hall Stage.noConfusion hheld rfl
      hlinking.created⟩

theorem step_loadLevel (h : st.Inv calls) (hstage : (st.thread call).stage = .loadLevel) :
    ∃ after, st.step cfg calls call = some after ∧ after.Inv calls := by
  have hcreated := h.threads call
  simp only [ThreadInv, hstage] at hcreated
  simp only [step, hstage]
  exact ⟨_, rfl, h.keep hstage Stage.noConfusion rfl Stage.noConfusion
    (by rw [Thread.holding, Thread.holding, hstage]; rfl) ⟨hcreated, le_rfl⟩⟩

theorem step_raiseLevel {curLevel : ℕ} (h : st.Inv calls)
    (hstage : (st.thread call).stage = .raiseLevel curLevel) :
    ∃ after, st.step cfg calls call = some after ∧ after.Inv calls := by
  have hknown := h.threads call
  simp only [ThreadInv, hstage] at hknown
  have hholding : (st.thread call).holding = none := by rw [Thread.holding, hstage]
  simp only [step, hstage]
  split_ifs with hlt hsame
  · subst hsame
    exact ⟨_, rfl, h.raise hstage hlt⟩
  · exact ⟨_, rfl, h.keep hstage Stage.noConfusion rfl Stage.noConfusion hholding.symm hknown.1⟩
  · exact ⟨_, rfl, h.keep hstage Stage.noConfusion (if_pos hknown.1.accepted)
      (fun _ _ => (not_lt.mp hlt).trans hknown.2) hholding.symm fun _ => hknown.1⟩

/-- A call that has not returned can move, and the invariant is kept. -/
theorem step (h : st.Inv calls) (hrunning : (st.thread call).stage ≠ .returned) :
    ∃ after, st.step cfg calls call = some after ∧ after.Inv calls := by
  cases hstage : (st.thread call).stage with
  | start => exact h.step_start hstage
  | readLevel => exact h.step_readLevel hstage
  | checkNext level => exact h.step_checkNext hstage
  | compareNext level => exact h.step_compareNext hstage
  | advance level => exact h.step_advance hstage
  | lock level => exact h.step_lock hstage
  | checkLocked level => exact h.step_checkLocked hstage
  | compareLocked level => exact h.step_compareLocked hstage
  | unlockToMove level => exact h.step_unlockToMove hstage
  | move level => exact h.step_move hstage
  | linkNew level => exact h.step_linkNew hstage
  | linkPrev level => exact h.step_linkPrev hstage
  | unlockLinked level => exact h.step_unlockLinked hstage
  | loadLevel => exact h.step_loadLevel hstage
  | raiseLevel curLevel => exact h.step_raiseLevel hstage
  | returned => exact absurd hstage hrunning

end Inv

theorem inv_init (calls : Call → Insertion cfg.maxLevel) : (init cfg : State Call).Inv calls where
  head_level := by simp [init]
  nowLevel_le := Nat.zero_le _
  nowLevel_reached := .inl rfl
  nowLevel_ge := fun _ hdone => Stage.noConfusion hdone
  links := fun level => ⟨[], rfl, fun ref => by simp [State.linked, init, linkedLevels]⟩
  ordered := fun level first second hlt => absurd hlt (Nat.not_lt_zero level)
  locks := fun _ _ hholding => absurd hholding (Option.some_ne_none _).symm
  exclusive := fun _ _ _ hholding => absurd hholding (Option.some_ne_none _).symm
  threads := fun _ => trivial

end State

open State

variable [DecidableEq Call] {calls : Call → Insertion cfg.maxLevel} {st : State Call}

theorem inv_of_reachable (h : (insertions cfg calls).Reachable (fun _ _ => True) st) :
    st.Inv calls := by
  refine h.invariant (fun st => st.Inv calls) (inv_init calls) ?_
  intro st next call hinv _ hstep
  have hrunning : (st.thread call).stage ≠ .returned := by
    intro hdone
    simp [insertions, State.step, hdone] at hstep
  obtain ⟨after, heq, hafter⟩ := hinv.step hrunning
  obtain rfl : after = next := Option.some.inj (heq.symm.trans hstep)
  exact hafter

/-- No call reads through a null pointer or past the end of a node's pointers. -/
theorem exists_step (h : (insertions cfg calls).Reachable (fun _ _ => True) st) {call : Call}
    (hrunning : (st.thread call).stage ≠ .returned) :
    ∃ after, (insertions cfg calls).step st call = some after := by
  obtain ⟨after, hstep, -⟩ := (inv_of_reachable h).step hrunning
  exact ⟨after, hstep⟩

omit [DecidableEq Call] in
/-- The nodes of a level, when all calls have returned. -/
theorem level_of_returned (h : st.Inv calls)
    (hreturned : ∀ call, (st.thread call).stage = .returned) (level : ℕ) :
    ∃ nodes, LinksTo (st.next level) .head nodes ∧ nodes.Nodup ∧
      (nodes.Pairwise fun first second =>
        compareNodeKey cfg.keyLen (st.key first) (st.key second) ≤ 0) ∧
      ∀ ref, ref ∈ nodes ↔ ∃ call, ref = .node call ∧
        (calls call).key.length = cfg.keyLen ∧ level < (calls call).newLevel := by
  obtain ⟨nodes, hlinks, hmem⟩ := h.links level
  have hlinked : ∀ call, level < st.linked calls call ↔
      (calls call).key.length = cfg.keyLen ∧ level < (calls call).newLevel := by
    intro call
    rw [linked, hreturned call, linkedLevels]
    split_ifs with haccepted <;> simp [haccepted]
  have htrans : IsTrans (NodeRef Call) fun first second =>
      compareNodeKey cfg.keyLen (st.key first) (st.key second) ≤ 0 :=
    ⟨fun first second third => by
      simp only [compareNodeKey_nonpos_iff]
      exact le_trans⟩
  refine ⟨nodes, hlinks, (List.nodup_cons.mp hlinks.nodup).2, hlinks.pairwise ?_, ?_⟩
  · intro first hfirst second hnext
    obtain ⟨call, rfl, hlt⟩ := (hmem first).mp hfirst
    obtain ⟨other, rfl, hlt'⟩ := h.next_linked (.inr ⟨call, rfl, hlt⟩) hnext
    rw [(created_of_lt_linked (h.threads call) hlt).key,
      (created_of_lt_linked (h.threads other) hlt').key, compareNodeKey_nonpos_iff]
    exact h.ordered level call other hlt hnext
  · simpa only [hlinked] using hmem

/-- When all calls have returned, every level is sorted and has the nodes that are
high enough, each once; level 0 has the keys and values that were inserted, and the
level of the list is the greatest height.  Calls with a key of another length leave
nothing. -/
theorem insert_all [Fintype Call] (h : (insertions cfg calls).Reachable (fun _ _ => True) st)
    (hreturned : ∀ call, (st.thread call).stage = .returned) :
    (∀ level, ∃ nodes, LinksTo (st.next level) .head nodes ∧ nodes.Nodup ∧
      (nodes.Pairwise fun first second =>
        compareNodeKey cfg.keyLen (st.key first) (st.key second) ≤ 0) ∧
      ∀ ref, ref ∈ nodes ↔ ∃ call, ref = .node call ∧
        (calls call).key.length = cfg.keyLen ∧ level < (calls call).newLevel) ∧
    (∃ nodes, LinksTo (st.next 0) .head nodes ∧
      (nodes.map fun ref => (st.key ref, st.value ref)).Perm
        ((Finset.univ.filter fun call => (calls call).key.length = cfg.keyLen).toList.map
          fun call => ((calls call).key, (calls call).value))) ∧
    st.nowLevel = Finset.univ.sup fun call =>
      if (calls call).key.length = cfg.keyLen then (calls call).newLevel else 0 := by
  have hinv := inv_of_reachable h
  refine ⟨level_of_returned hinv hreturned, ?_, le_antisymm ?_ ?_⟩
  · obtain ⟨nodes, hlinks, hnodup, -, hmem⟩ := level_of_returned hinv hreturned 0
    refine ⟨nodes, hlinks, ?_⟩
    have hperm : nodes.Perm ((Finset.univ.filter fun call =>
        (calls call).key.length = cfg.keyLen).toList.map NodeRef.node) := by
      refine (List.perm_ext_iff_of_nodup hnodup ?_).mpr fun ref => ?_
      · exact (Finset.nodup_toList _).map fun _ _ => NodeRef.node.inj
      · rw [hmem]
        simp [(calls _).newLevel_pos, eq_comm, and_comm]
    refine (hperm.map _).trans (List.Perm.of_eq ?_)
    rw [List.map_map]
    refine List.map_congr_left fun call hcall => ?_
    have hknown := hinv.threads call
    simp only [ThreadInv, hreturned call] at hknown
    have hcreated := hknown (by simpa using hcall)
    exact Prod.ext hcreated.key hcreated.value
  · rcases hinv.nowLevel_reached with hzero | ⟨call, -, haccepted, hlevel⟩
    · rw [hzero]
      exact Nat.zero_le _
    · rw [← hlevel]
      have hle := Finset.le_sup (f := fun call =>
        if (calls call).key.length = cfg.keyLen then (calls call).newLevel else 0)
        (Finset.mem_univ call)
      exact (if_pos haccepted).ge.trans hle
  · refine Finset.sup_le fun call _ => ?_
    split_ifs with haccepted
    · exact hinv.nowLevel_ge call (hreturned call) haccepted
    · exact Nat.zero_le _

/-- A list of ports with two calls that go step by step in turn. -/
def portList : SkipListConfig where
  keyLen := 2
  maxLevel := 3
  keyLen_supported := by decide

def portCalls : Bool → Insertion portList.maxLevel
  | false => ⟨[5, 0], 10, 3, Nat.succ_pos 2, Nat.le_refl 3⟩
  | true => ⟨[3, 0], 11, 2, Nat.succ_pos 1, Nat.le_succ 2⟩

theorem insert_all_portCalls : ∃ st,
    (insertions portList portCalls).Reachable (fun _ _ => True) st ∧
      (∀ call, (st.thread call).stage = .returned) ∧ st.nowLevel = 3 := by
  obtain ⟨st, hreach, hreturned⟩ := @TransitionSystem.exists_reachable _ _
    (insertions portList portCalls) (fun _ _ => True)
    ((List.replicate 19 [false, true]).flatten ++ List.replicate 17 false)
    (fun st => ∀ call, (st.thread call).stage = .returned) _
    (TransitionSystem.runAllowed_true _) (by decide +kernel)
  exact ⟨st, hreach, hreturned, (insert_all hreach hreturned).2.2.trans (by decide)⟩

end TrafficDatabase.SkipList
