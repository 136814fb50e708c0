import TrafficDatabase.Index.PrefixBloomFilter
import TrafficDatabase.Library.LinkedList
import TrafficDatabase.Library.TransitionSystem
import Mathlib.Data.List.Lex
import Mathlib.Order.Lattice.Nat

/-!
# The skip list

`SkipList::insert` (`skipList.hpp`) as the steps of any number of concurrent
calls.  Every access to a pointer, a lock or a counter that other calls can see
is a step of its own.  A step is `none` where the code reads through a null
pointer or past the end of a node's vector of pointers.

Nodes and pointers are `void*` in the source and the key length says what they
point to; the length is one of those the code has a key type for.
-/

namespace TrafficDatabase

/-! ## Keys -/

structure QuarTurpleIPv4 where
  dstport : ℕ
  srcport : ℕ
  dstip : ℕ
  srcip : ℕ
deriving DecidableEq, Repr

structure QuarTurpleIPv6 where
  dstport : ℕ
  srcport : ℕ
  dstip : IPv6Address
  srcip : IPv6Address
deriving DecidableEq, Repr

namespace IPv6Address

/-- `operator<`. -/
def lt (ip other : IPv6Address) : Bool :=
  if ip.high < other.high then true
  else if ip.high > other.high then false
  else ip.low < other.low

/-- `operator>`. -/
def gt (ip other : IPv6Address) : Bool :=
  if ip.high > other.high then true
  else if ip.high < other.high then false
  else ip.low > other.low

/-- The halves in the order they are compared. -/
def fields (ip : IPv6Address) : List ℕ := [ip.high, ip.low]

end IPv6Address

namespace QuarTurpleIPv4

/-- `operator<`. -/
def lt (turple other : QuarTurpleIPv4) : Bool :=
  if turple.srcip < other.srcip then true
  else if turple.srcip > other.srcip then false
  else if turple.dstip < other.dstip then true
  else if turple.dstip > other.dstip then false
  else if turple.srcport < other.srcport then true
  else if turple.srcport > other.srcport then false
  else turple.dstport < other.dstport

/-- `operator>`. -/
def gt (turple other : QuarTurpleIPv4) : Bool :=
  if turple.srcip > other.srcip then true
  else if turple.srcip < other.srcip then false
  else if turple.dstip > other.dstip then true
  else if turple.dstip < other.dstip then false
  else if turple.srcport > other.srcport then true
  else if turple.srcport < other.srcport then false
  else turple.dstport > other.dstport

/-- The turple read from 12 bytes of memory. -/
def ofBytes (bytes : List UInt8) : QuarTurpleIPv4 :=
  { dstport := ofLittleEndian (bytes.take 2)
    srcport := ofLittleEndian ((bytes.drop 2).take 2)
    dstip := ofLittleEndian ((bytes.drop 4).take 4)
    srcip := ofLittleEndian ((bytes.drop 8).take 4) }

def fields (turple : QuarTurpleIPv4) : List ℕ :=
  [turple.srcip, turple.dstip, turple.srcport, turple.dstport]

end QuarTurpleIPv4

namespace QuarTurpleIPv6

/-- `operator<`. -/
def lt (turple other : QuarTurpleIPv6) : Bool :=
  if turple.srcip.lt other.srcip then true
  else if turple.srcip.gt other.srcip then false
  else if turple.dstip.lt other.dstip then true
  else if turple.dstip.gt other.dstip then false
  else if turple.srcport < other.srcport then true
  else if turple.srcport > other.srcport then false
  else turple.dstport < other.dstport

/-- `operator>`. -/
def gt (turple other : QuarTurpleIPv6) : Bool :=
  if turple.srcip.gt other.srcip then true
  else if turple.srcip.lt other.srcip then false
  else if turple.dstip.gt other.dstip then true
  else if turple.dstip.lt other.dstip then false
  else if turple.srcport > other.srcport then true
  else if turple.srcport < other.srcport then false
  else turple.dstport > other.dstport

/-- The turple read from 40 bytes of memory; the compiler puts 4 bytes between the
ports and the addresses. -/
def ofBytes (bytes : List UInt8) : QuarTurpleIPv6 :=
  { dstport := ofLittleEndian (bytes.take 2)
    srcport := ofLittleEndian ((bytes.drop 2).take 2)
    dstip := IPv6Address.ofBytes ((bytes.drop 8).take 16)
    srcip := IPv6Address.ofBytes ((bytes.drop 24).take 16) }

def fields (turple : QuarTurpleIPv6) : List ℕ :=
  turple.srcip.fields ++ turple.dstip.fields ++ [turple.srcport, turple.dstport]

end QuarTurpleIPv6

namespace SkipList

/-- The result of a comparison by `operator<` and then `operator>`. -/
def compareWith {Key : Type*} (lt gt : Key → Key → Bool) (nodeKey key : Key) : ℤ :=
  if lt nodeKey key then -1 else if gt nodeKey key then 1 else 0

/-- `compareNodeKey`, with the key of the node.  The key length says which type the
bytes are read as; 0 is returned for a length without a type. -/
def compareNodeKey (keyLen : ℕ) (nodeKey key : List UInt8) : ℤ :=
  if keyLen = 1 ∨ keyLen = 2 ∨ keyLen = 4 ∨ keyLen = 8 then
    compareWith (fun a b => decide (a < b)) (fun a b => decide (a > b))
      (ofLittleEndian nodeKey) (ofLittleEndian key)
  else if keyLen = 12 then
    compareWith QuarTurpleIPv4.lt QuarTurpleIPv4.gt (QuarTurpleIPv4.ofBytes nodeKey)
      (QuarTurpleIPv4.ofBytes key)
  else if keyLen = 16 then
    compareWith IPv6Address.lt IPv6Address.gt (IPv6Address.ofBytes nodeKey)
      (IPv6Address.ofBytes key)
  else if keyLen = 40 then
    compareWith QuarTurpleIPv6.lt QuarTurpleIPv6.gt (QuarTurpleIPv6.ofBytes nodeKey)
      (QuarTurpleIPv6.ofBytes key)
  else 0

/-- What `compareNodeKey` compares, as a list of numbers in lexicographic order. -/
def fieldsOf (keyLen : ℕ) (key : List UInt8) : List ℕ :=
  if keyLen = 1 ∨ keyLen = 2 ∨ keyLen = 4 ∨ keyLen = 8 then [ofLittleEndian key]
  else if keyLen = 12 then (QuarTurpleIPv4.ofBytes key).fields
  else if keyLen = 16 then (IPv6Address.ofBytes key).fields
  else if keyLen = 40 then (QuarTurpleIPv6.ofBytes key).fields
  else []

end SkipList

/-! ## The order of the keys -/

theorem IPv6Address.gt_eq (ip other : IPv6Address) : ip.gt other = other.lt ip := rfl

theorem QuarTurpleIPv4.gt_eq (turple other : QuarTurpleIPv4) :
    turple.gt other = other.lt turple := rfl

theorem QuarTurpleIPv6.gt_eq (turple other : QuarTurpleIPv6) :
    turple.gt other = other.lt turple := rfl

theorem IPv6Address.lt_iff (ip other : IPv6Address) :
    ip.lt other = true ↔ ip.fields < other.fields := by
  simp only [IPv6Address.lt, IPv6Address.fields, List.cons_lt_cons_iff]
  split_ifs <;> simp <;> omega

theorem QuarTurpleIPv4.lt_iff (turple other : QuarTurpleIPv4) :
    turple.lt other = true ↔ turple.fields < other.fields := by
  simp only [QuarTurpleIPv4.lt, QuarTurpleIPv4.fields, List.cons_lt_cons_iff]
  split_ifs <;> simp <;> omega

theorem QuarTurpleIPv6.lt_iff (turple other : QuarTurpleIPv6) :
    turple.lt other = true ↔ turple.fields < other.fields := by
  simp only [QuarTurpleIPv6.lt, QuarTurpleIPv6.fields, IPv6Address.gt_eq, IPv6Address.lt_iff,
    IPv6Address.fields, List.cons_append, List.nil_append, List.cons_lt_cons_iff,
    List.not_lt_nil, and_false, or_false]
  split_ifs <;> simp <;> omega

namespace SkipList

variable {Key : Type*} {lt gt : Key → Key → Bool} (fields : Key → List ℕ)

theorem compareWith_neg_iff (hlt : ∀ a b, lt a b = true ↔ fields a < fields b)
    (nodeKey key : Key) : compareWith lt gt nodeKey key < 0 ↔ fields nodeKey < fields key := by
  rw [← hlt, compareWith]
  split_ifs <;> simp_all

theorem compareWith_nonpos_iff (hlt : ∀ a b, lt a b = true ↔ fields a < fields b)
    (hgt : ∀ a b, gt a b = lt b a) (nodeKey key : Key) :
    compareWith lt gt nodeKey key ≤ 0 ↔ fields nodeKey ≤ fields key := by
  have hle : fields nodeKey ≤ fields key ↔ ¬ lt key nodeKey = true := by rw [hlt, not_lt]
  rw [hle, compareWith, hgt]
  split_ifs with h1 h2
  · have hasymm : ¬ lt key nodeKey = true := by
      rw [hlt]
      exact ((hlt nodeKey key).mp h1).asymm
    simp [hasymm]
  · simp [h2]
  · simp [h2]

/-- The key types are those of `compareNodeKey`, and each is in the order of its
fields. -/
theorem compareNodeKey_neg_iff (keyLen : ℕ) (nodeKey key : List UInt8) :
    compareNodeKey keyLen nodeKey key < 0 ↔ fieldsOf keyLen nodeKey < fieldsOf keyLen key := by
  unfold compareNodeKey fieldsOf
  split_ifs
  · exact compareWith_neg_iff (fun n => [n]) (fun a b => by simp [List.cons_lt_cons_iff]) _ _
  · exact compareWith_neg_iff QuarTurpleIPv4.fields QuarTurpleIPv4.lt_iff _ _
  · exact compareWith_neg_iff IPv6Address.fields IPv6Address.lt_iff _ _
  · exact compareWith_neg_iff QuarTurpleIPv6.fields QuarTurpleIPv6.lt_iff _ _
  · simp

theorem compareNodeKey_nonpos_iff (keyLen : ℕ) (nodeKey key : List UInt8) :
    compareNodeKey keyLen nodeKey key ≤ 0 ↔ fieldsOf keyLen nodeKey ≤ fieldsOf keyLen key := by
  unfold compareNodeKey fieldsOf
  split_ifs
  · exact compareWith_nonpos_iff (fun n => [n])
      (fun a b => by simp [List.cons_lt_cons_iff]) (fun a b => rfl) _ _
  · exact compareWith_nonpos_iff QuarTurpleIPv4.fields QuarTurpleIPv4.lt_iff
      QuarTurpleIPv4.gt_eq _ _
  · exact compareWith_nonpos_iff IPv6Address.fields IPv6Address.lt_iff IPv6Address.gt_eq _ _
  · exact compareWith_nonpos_iff QuarTurpleIPv6.fields QuarTurpleIPv6.lt_iff
      QuarTurpleIPv6.gt_eq _ _
  · simp

end SkipList

/-! ## The list and the calls -/

/-- The arguments of `init`; `keyLen` is the length of a key type. -/
structure SkipListConfig where
  keyLen : ℕ
  maxLevel : ℕ
  keyLen_supported : keyLen ∈ [1, 2, 4, 8, 12, 16, 40]

/-- The arguments of an `insert` call, with what `randomLevel` returns in it. -/
structure Insertion (maxLevel : ℕ) where
  key : List UInt8
  value : ℕ
  newLevel : ℕ
  newLevel_pos : 0 < newLevel
  newLevel_le : newLevel ≤ maxLevel

namespace SkipList

/-- A node: the head, or the node an `insert` call makes. -/
inductive NodeRef (Call : Type)
  | head
  | node (call : Call)
deriving DecidableEq

/-- A `void*` to a node. -/
abbrev Pointer (Call : Type) := Option (NodeRef Call)

/-- What a call does next.  The argument is the level `i` of the loops, and
`curLevel` in the last one. -/
inductive Stage
  | start
  | readLevel
  | checkNext (level : ℕ)
  | compareNext (level : ℕ)
  | advance (level : ℕ)
  | lock (level : ℕ)
  | checkLocked (level : ℕ)
  | compareLocked (level : ℕ)
  | unlockToMove (level : ℕ)
  | move (level : ℕ)
  | linkNew (level : ℕ)
  | linkPrev (level : ℕ)
  | unlockLinked (level : ℕ)
  | loadLevel
  | raiseLevel (curLevel : ℕ)
  | returned
deriving DecidableEq

/-- The local variables of a call. -/
structure Thread (Call : Type) where
  stage : Stage
  curr : Pointer Call
  update : ℕ → Pointer Call

namespace Thread

variable {Call : Type} (thread : Thread Call)

def goto (stage : Stage) : Thread Call := { thread with stage := stage }

/-- `update[level] = node`, and on to `stage`. -/
def setUpdate (level : ℕ) (node : Pointer Call) (stage : Stage) : Thread Call :=
  { thread with stage := stage, update := Function.update thread.update level node }

/-- The search has come to the end of a level: down to the next one, or on to the
insertion. -/
def descend (level : ℕ) : Thread Call :=
  thread.setUpdate level thread.curr <|
    match level with
    | 0 => .lock 0
    | below + 1 => .checkNext below

end Thread

/-- The heap with the members of the list that change; `level` is the size of a
node's vector of pointers. -/
structure State (Call : Type) where
  key : NodeRef Call → List UInt8
  value : NodeRef Call → ℕ
  level : NodeRef Call → ℕ
  next : ℕ → NodeRef Call → Pointer Call
  locked : NodeRef Call → Bool
  nowLevel : ℕ
  nodeNum : ℕ
  thread : Call → Thread Call

variable {Call : Type} [DecidableEq Call]

/-- The list after `init`, before any call. -/
def State.init (cfg : SkipListConfig) : State Call :=
  { key := fun _ => List.replicate cfg.keyLen 0
    value := fun _ => 0
    level := fun ref => if ref = .head then cfg.maxLevel else 0
    next := fun _ _ => none
    locked := fun _ => false
    nowLevel := 0
    nodeNum := 0
    thread := fun _ => { stage := .start, curr := none, update := fun _ => none } }

namespace State

variable (st : State Call)

def setThread (call : Call) (thread : Thread Call) : State Call :=
  { st with thread := Function.update st.thread call thread }

@[simp] theorem setThread_thread_self (call : Call) (thread : Thread Call) :
    (st.setThread call thread).thread call = thread := Function.update_self ..

theorem setThread_thread_of_ne {call other : Call} (hne : other ≠ call) (thread : Thread Call) :
    (st.setThread call thread).thread other = st.thread other := Function.update_of_ne hne ..

/-- `nodeNum++` and `newNode`. -/
def newNode (call : Call) (key : List UInt8) (value level : ℕ) : State Call :=
  { st with
    nodeNum := st.nodeNum + 1
    key := Function.update st.key (.node call) key
    value := Function.update st.value (.node call) value
    level := Function.update st.level (.node call) level
    next := fun i => Function.update (st.next i) (.node call) none }

def getNext (node : Pointer Call) (level : ℕ) : Option (Pointer Call) :=
  node.bind fun ref => if level < st.level ref then some (st.next level ref) else none

def putNext (node : Pointer Call) (level : ℕ) (next : Pointer Call) : Option (State Call) :=
  node.bind fun ref =>
    if level < st.level ref then
      some { st with
        next := Function.update st.next level (Function.update (st.next level) ref next) }
    else none

/-- `compareNodeKey`. -/
def compare (keyLen : ℕ) (node : Pointer Call) (key : List UInt8) : Option ℤ :=
  node.map fun ref => compareNodeKey keyLen (st.key ref) key

/-- One `exchange` of `SpinLock::lock`, with the flag it finds. -/
def exchangeLock (node : Pointer Call) : Option (Bool × State Call) :=
  node.map fun ref =>
    (st.locked ref, { st with locked := Function.update st.locked ref true })

def unlockNode (node : Pointer Call) : Option (State Call) :=
  node.map fun ref => { st with locked := Function.update st.locked ref false }

/-- The next step of a call. -/
def step (cfg : SkipListConfig) (calls : Call → Insertion cfg.maxLevel) (call : Call) :
    Option (State Call) :=
  let thread := st.thread call
  let insertion := calls call
  match thread.stage with
  | .start =>
      if insertion.key.length ≠ cfg.keyLen then some (st.setThread call (thread.goto .returned))
      else
        some ((st.newNode call insertion.key insertion.value insertion.newLevel).setThread call
          (thread.goto .readLevel))
  | .readLevel =>
      let top :=
        if st.nowLevel > insertion.newLevel then st.nowLevel - 1 else insertion.newLevel - 1
      some (st.setThread call
        { stage := .checkNext top, curr := some .head, update := fun _ => none })
  | .checkNext level => do
      let next ← st.getNext thread.curr level
      if next ≠ none then some (st.setThread call (thread.goto (.compareNext level)))
      else some (st.setThread call (thread.descend level))
  | .compareNext level => do
      let next ← st.getNext thread.curr level
      let order ← st.compare cfg.keyLen next insertion.key
      if order < 0 then some (st.setThread call (thread.goto (.advance level)))
      else some (st.setThread call (thread.descend level))
  | .advance level => do
      let next ← st.getNext thread.curr level
      some (st.setThread call { thread with stage := .checkNext level, curr := next })
  | .lock level => do
      let (flag, taken) ← st.exchangeLock (thread.update level)
      if flag then some taken
      else some (taken.setThread call (thread.goto (.checkLocked level)))
  | .checkLocked level => do
      let next ← st.getNext (thread.update level) level
      if next ≠ none then some (st.setThread call (thread.goto (.compareLocked level)))
      else some (st.setThread call (thread.goto (.linkNew level)))
  | .compareLocked level => do
      let next ← st.getNext (thread.update level) level
      let order ← st.compare cfg.keyLen next insertion.key
      if order < 0 then some (st.setThread call (thread.goto (.unlockToMove level)))
      else some (st.setThread call (thread.goto (.linkNew level)))
  | .unlockToMove level => do
      let unlocked ← st.unlockNode (thread.update level)
      some (unlocked.setThread call (thread.goto (.move level)))
  | .move level => do
      let next ← st.getNext (thread.update level) level
      some (st.setThread call (thread.setUpdate level next (.lock level)))
  | .linkNew level => do
      let next ← st.getNext (thread.update level) level
      let linked ← st.putNext (some (.node call)) level next
      some (linked.setThread call (thread.goto (.linkPrev level)))
  | .linkPrev level => do
      let linked ← st.putNext (thread.update level) level (some (.node call))
      some (linked.setThread call (thread.goto (.unlockLinked level)))
  | .unlockLinked level => do
      let unlocked ← st.unlockNode (thread.update level)
      let stage := if level + 1 < insertion.newLevel then .lock (level + 1) else .loadLevel
      some (unlocked.setThread call (thread.goto stage))
  | .loadLevel => some (st.setThread call (thread.goto (.raiseLevel st.nowLevel)))
  | .raiseLevel curLevel =>
      if curLevel < insertion.newLevel then
        if st.nowLevel = curLevel then
          some ({ st with nowLevel := insertion.newLevel }.setThread call (thread.goto .returned))
        else some (st.setThread call (thread.goto .loadLevel))
      else some (st.setThread call (thread.goto .returned))
  | .returned => none

end State

/-- The calls on a list that was empty; the label says which call moves. -/
def insertions (cfg : SkipListConfig) (calls : Call → Insertion cfg.maxLevel) :
    TransitionSystem (State Call) Call where
  init := State.init cfg
  step st call := st.step cfg calls call

end SkipList

end TrafficDatabase
