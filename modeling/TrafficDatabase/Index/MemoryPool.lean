import TrafficDatabase.Data.IndexBlockBuffer
import TrafficDatabase.Index.PrefixBloomFilter

/-!
# The memory pools of the index records

A `MemoryPool` hands out its bytes in a ring.  Consecutive allocations for one
disk block share a node of the allocated list, itself a ring, which holds the
block and the offset its bytes start at; they end where those of the next node
start.  `recycle` only marks the node of a block: the next allocation moves the
head of the list over the marked nodes, up to the last one.

Two loops of `allocate` wait for a state that only `allocate` itself changes, so
a call that enters one never returns.  Such a call gives `none` here, and so does
one whose bytes lie past the end of the pool.

An `IndexMemoryPool` has one pool for each index type.
-/

namespace TrafficDatabase

structure NodeMeta where
  dataBlockId : ℕ
  startOffset : ℕ
  dirty : Bool
deriving DecidableEq, Repr

structure MemoryPool where
  capacity : ℕ
  listLen : ℕ
  buffer : Memory
  allocatePos : ℕ
  allocatedList : ℕ → NodeMeta
  listTail : ℕ
  listHead : ℕ

namespace MemoryPool

/-- A pool nothing has been allocated from.  The nodes behind the first are not
initialised, and not read before they are written. -/
def fresh (capacity listLen : ℕ) : MemoryPool :=
  { capacity, listLen
    buffer := fun _ => 0
    allocatePos := 0
    allocatedList := fun _ => { dataBlockId := u64Max, startOffset := u64Max, dirty := false }
    listTail := 1
    listHead := 0 }

/-- The constructor; `none` where it throws. -/
def new (capacity listLen unitLen : ℕ) : Option MemoryPool :=
  if capacity % unitLen ≠ 0 then none else some (fresh capacity listLen)

variable (pool : MemoryPool)

/-- The node after `node` in the ring of nodes. -/
def nextNode (node : ℕ) : ℕ := (node + 1) % pool.listLen

/-- `allocate` starts with moving the head over marked nodes; no run of the loop
is longer than the list. -/
def advanceHead : ℕ → MemoryPool → MemoryPool
  | 0, pool => pool
  | fuel + 1, pool =>
      if (pool.allocatedList pool.listHead).dirty then
        if pool.nextNode pool.listHead = pool.listTail then pool
        else advanceHead fuel { pool with listHead := pool.nextNode pool.listHead }
      else pool

/-- `none` where the loop of the source never ends. -/
def addNodeMeta (dataBlockId poolOffset : ℕ) : Option MemoryPool :=
  if pool.listHead = pool.listTail then none
  else some
    { pool with
      allocatedList := Function.update pool.allocatedList pool.listTail
        { dataBlockId, startOffset := poolOffset, dirty := false }
      listTail := pool.nextNode pool.listTail }

/-- The last node of the list. -/
def lastNode : NodeMeta := pool.allocatedList ((pool.listTail + pool.listLen - 1) % pool.listLen)

/-- `allocate` behind its first loop.  What it hands out starts at the result. -/
def allocateFrom (len diskBlockId : ℕ) : Option (ℕ × MemoryPool) :=
  let allocatePos := if pool.allocatePos + len > pool.capacity then 0 else pool.allocatePos
  let barrier := (pool.allocatedList pool.listHead).startOffset
  if allocatePos + len > pool.capacity then none
  else if barrier = u64Max then
    let first := { pool.allocatedList pool.listHead with
      dataBlockId := diskBlockId, startOffset := allocatePos }
    some (allocatePos, { pool with
      allocatedList := Function.update pool.allocatedList pool.listHead first
      allocatePos := allocatePos + len })
  else if allocatePos ≤ barrier ∧ barrier < allocatePos + len then none
  else
    let added :=
      if diskBlockId ≠ pool.lastNode.dataBlockId then pool.addNodeMeta diskBlockId allocatePos
      else some pool
    added.map fun next => (allocatePos, { next with allocatePos := allocatePos + len })

def allocate (len diskBlockId : ℕ) : Option (ℕ × MemoryPool) :=
  (advanceHead pool.listLen pool).allocateFrom len diskBlockId

/-- The loop over the nodes from the head to the tail, for the first of a block. -/
def findNode (diskBlockId : ℕ) : ℕ → ℕ → Option ℕ
  | 0, _ => none
  | count + 1, node =>
      if node = pool.listTail then none
      else if (pool.allocatedList node).dataBlockId = diskBlockId then some node
      else findNode diskBlockId count (pool.nextNode node)

def nodeOf (diskBlockId : ℕ) : Option ℕ := pool.findNode diskBlockId pool.listLen pool.listHead

/-- Where the bytes of a node end; the test for the last node does not go round
the list. -/
def endOffset (node : ℕ) : ℕ :=
  if node + 1 ≠ pool.listTail then (pool.allocatedList (pool.nextNode node)).startOffset
  else pool.allocatePos

/-- The second case is the source's unsigned `capacity - start_offset + end_offset`. -/
def getLenOfDiskID (diskBlockId : ℕ) : ℕ :=
  match pool.nodeOf diskBlockId with
  | none => 0
  | some node =>
      let startOffset := (pool.allocatedList node).startOffset
      if pool.endOffset node > startOffset then pool.endOffset node - startOffset
      else (pool.capacity + 2 ^ 64 - startOffset + pool.endOffset node) % 2 ^ 64

/-- The results of the `writeBlock` calls are ignored. -/
def writeToBuffer (cfg : IndexBlockConfig) (diskBlockId len : ℕ) (buffer : IndexBlockBuffer)
    (threadId diskPos : ℕ) : IndexBlockBuffer :=
  match pool.nodeOf diskBlockId with
  | none => buffer
  | some node =>
      let startOffset := (pool.allocatedList node).startOffset
      if startOffset + len < pool.capacity then
        (buffer.writeBlock cfg threadId (pool.buffer.read startOffset len) diskPos).2
      else
        let upper := pool.capacity - startOffset
        let first := (buffer.writeBlock cfg threadId (pool.buffer.read startOffset upper) diskPos).2
        (first.writeBlock cfg threadId (pool.buffer.read 0 (len + startOffset - pool.capacity))
          (diskPos + upper)).2

def recycle (diskBlockId : ℕ) : MemoryPool :=
  match pool.nodeOf diskBlockId with
  | none => pool
  | some node =>
      { pool with
        allocatedList := Function.update pool.allocatedList node
          { pool.allocatedList node with dirty := true } }

/-- Allocate room for a record of `IndexMemoryPool::insert` and copy it there. -/
def put (key : List UInt8) (position diskBlockId : ℕ) : Option MemoryPool :=
  (pool.allocate (key.length + 8) diskBlockId).map fun (start, next) =>
    { next with
      buffer := (next.buffer.write start key).write (start + key.length)
        (toLittleEndian 8 position) }

variable {pool} {diskBlockId : ℕ}

/-- Moving the head changes nothing else. -/
theorem advanceHead_eq (fuel : ℕ) (pool : MemoryPool) :
    ∃ listHead, advanceHead fuel pool = { pool with listHead } := by
  induction fuel generalizing pool with
  | zero => exact ⟨_, rfl⟩
  | succ fuel ih =>
      simp only [advanceHead]
      split_ifs
      · exact ⟨_, rfl⟩
      · exact ih _
      · exact ⟨_, rfl⟩

@[simp] theorem advanceHead_capacity (fuel : ℕ) (pool : MemoryPool) :
    (advanceHead fuel pool).capacity = pool.capacity := by
  obtain ⟨listHead, hmoved⟩ := advanceHead_eq fuel pool
  rw [hmoved]

/-- Before the first allocation no block is found. -/
theorem nodeOf_fresh {capacity listLen : ℕ} (hlist : 2 ≤ listLen)
    (hblock : diskBlockId ≠ u64Max) : (fresh capacity listLen).nodeOf diskBlockId = none := by
  obtain ⟨fuel, rfl⟩ := Nat.exists_eq_add_of_le' hlist
  have hplace : (fresh capacity (fuel + 2)).nextNode 0 = (fresh capacity (fuel + 2)).listTail :=
    Nat.mod_eq_of_lt hlist
  have hother : ¬ ((fresh capacity (fuel + 2)).allocatedList 0).dataBlockId = diskBlockId :=
    Ne.symm hblock
  have hfirst : 0 ≠ (fresh capacity (fuel + 2)).listTail := Nat.zero_ne_one
  show (fresh capacity (fuel + 2)).findNode diskBlockId (fuel + 2) 0 = none
  rw [findNode, if_neg hfirst, if_neg hother, hplace, findNode, if_pos rfl]

/-- Recycling changes the list only. -/
theorem recycle_eq (pool : MemoryPool) (diskBlockId : ℕ) :
    ∃ allocatedList, pool.recycle diskBlockId = { pool with allocatedList } := by
  unfold recycle
  cases pool.nodeOf diskBlockId <;> exact ⟨_, rfl⟩

/-- `recycle` changes no node but for its mark. -/
theorem recycle_node (node : ℕ) :
    ((pool.recycle diskBlockId).allocatedList node).startOffset =
        (pool.allocatedList node).startOffset ∧
      ((pool.recycle diskBlockId).allocatedList node).dataBlockId =
        (pool.allocatedList node).dataBlockId := by
  unfold recycle
  cases pool.nodeOf diskBlockId with
  | none => exact ⟨rfl, rfl⟩
  | some marked =>
      by_cases hsame : node = marked
      · simp [hsame]
      · simp [Function.update_of_ne hsame]

end MemoryPool

/-- One pool for each index type. -/
abbrev IndexMemoryPool := IndexType → MemoryPool

namespace IndexMemoryPool

/-- The length of a record of a type. -/
def unitLen (type : IndexType) : ℕ := type.keyLen + 8

/-- The capacity of the pool of a type: of an equal share of the bytes, as many
as make whole records. -/
def curCapacity (capacity : ℕ) (type : IndexType) : ℕ :=
  capacity / 6 / unitLen type * unitLen type

/-- The constructor. -/
def new (capacity listLen : ℕ) : IndexMemoryPool := fun type =>
  MemoryPool.fresh (curCapacity capacity type) listLen

/-- The constructors of the pools do not throw. -/
theorem memoryPool_new (capacity listLen : ℕ) (type : IndexType) :
    MemoryPool.new (curCapacity capacity type) listLen (unitLen type) =
      some (new capacity listLen type) :=
  if_neg (not_not.mpr (Nat.mul_mod_left ..))

variable (pool : IndexMemoryPool)

/-- Put a record into the pool of a type. -/
def putRecord (type : IndexType) (key : List UInt8) (position diskBlockId : ℕ) :
    Option IndexMemoryPool :=
  ((pool type).put key position diskBlockId).map fun next => Function.update pool type next

def insert (flow : FlowMetadata) (position diskBlockId : ℕ) : Option IndexMemoryPool :=
  let addresses :=
    if flow.sourceAddress.length = 4 ∧ flow.destinationAddress.length = 4 then
      (pool.putRecord .srcip flow.sourceAddress position diskBlockId).bind fun next =>
        next.putRecord .dstip flow.destinationAddress position diskBlockId
    else if flow.sourceAddress.length = 16 ∧ flow.destinationAddress.length = 16 then
      (pool.putRecord .srcipv6 flow.sourceAddress position diskBlockId).bind fun next =>
        next.putRecord .dstipv6 flow.destinationAddress position diskBlockId
    else some pool
  addresses.bind fun next =>
    (next.putRecord .srcport (toLittleEndian 2 flow.sourcePort) position diskBlockId).bind
      fun last =>
        last.putRecord .dstport (toLittleEndian 2 flow.destinationPort) position diskBlockId

def recycle (diskBlockId : ℕ) : IndexMemoryPool := fun type => (pool type).recycle diskBlockId

/-! ## What an insert puts where -/

/-- The types of the records of a flow. -/
def recordTypes (flow : FlowMetadata) : List IndexType :=
  IndexType.all.filter fun type => (flow.indexKey type).isSome

/-- Put the record of a flow into the pool of a type, if it has one. -/
def putKey (flow : FlowMetadata) (position diskBlockId : ℕ) (type : IndexType) :
    Option IndexMemoryPool :=
  match flow.indexKey type with
  | some key => pool.putRecord type key position diskBlockId
  | none => some pool

variable {pool} {next : IndexMemoryPool} {flow : FlowMetadata} {position diskBlockId : ℕ}

theorem mem_recordTypes {type : IndexType} :
    type ∈ recordTypes flow ↔ ∃ key, flow.indexKey type = some key := by
  unfold recordTypes
  rw [List.mem_filter, Option.isSome_iff_exists]
  exact and_iff_right (IndexType.mem_all type)

/-- One `putRecord` for each key. -/
theorem insert_eq (pool : IndexMemoryPool) (flow : FlowMetadata) (position diskBlockId : ℕ) :
    pool.insert flow position diskBlockId =
      ([.srcip, .dstip, .srcipv6, .dstipv6, .srcport, .dstport] : List IndexType).foldlM
        (fun next type => next.putKey flow position diskBlockId type) pool := by
  have hports : ∀ next : IndexMemoryPool,
      next.putKey flow position diskBlockId .srcport =
          next.putRecord .srcport (toLittleEndian 2 flow.sourcePort) position diskBlockId ∧
        next.putKey flow position diskBlockId .dstport =
          next.putRecord .dstport (toLittleEndian 2 flow.destinationPort) position diskBlockId :=
    fun _ => ⟨rfl, rfl⟩
  unfold insert
  simp only [List.foldlM_cons, List.foldlM_nil, Option.bind_eq_bind, Option.pure_def,
    Option.bind_fun_some, hports]
  unfold putKey FlowMetadata.indexKey
  by_cases hfour : flow.sourceAddress.length = 4 ∧ flow.destinationAddress.length = 4
  · have hsixteen : ¬ (flow.sourceAddress.length = 16 ∧ flow.destinationAddress.length = 16) := by
      omega
    simp only [if_pos hfour, if_neg hsixteen, Option.bind_some, Option.bind_assoc]
  · by_cases hsixteen : flow.sourceAddress.length = 16 ∧ flow.destinationAddress.length = 16
    · simp only [if_neg hfour, if_pos hsixteen, Option.bind_some, Option.bind_assoc]
    · simp only [if_neg hfour, if_neg hsixteen, Option.bind_some]

theorem putKey_put {type other : IndexType}
    (h : pool.putKey flow position diskBlockId type = some next) :
    (other = type → ∀ key, flow.indexKey other = some key →
        (pool other).put key position diskBlockId = some (next other)) ∧
      (other ≠ type ∨ flow.indexKey other = none → next other = pool other) := by
  unfold putKey at h
  cases hkey : flow.indexKey type with
  | none =>
      rw [hkey] at h
      obtain rfl := Option.some.inj h
      refine ⟨?_, fun _ => rfl⟩
      rintro rfl key hsome
      exact absurd (hkey.symm.trans hsome) (Option.some_ne_none key).symm
  | some key =>
      rw [hkey] at h
      obtain ⟨one, hone, rfl⟩ := Option.map_eq_some_iff.mp h
      refine ⟨?_, fun hother => Function.update_of_ne ?_ _ _⟩
      · rintro rfl found hsome
        rw [Function.update_self, ← Option.some.inj (hkey.symm.trans hsome)]
        exact hone
      · rintro rfl
        rcases hother with hne | hnone
        · exact hne rfl
        · exact Option.some_ne_none key (hkey.symm.trans hnone)

/-- Records of different types go to different pools. -/
theorem foldlM_putKey {types : List IndexType} (hnodup : types.Nodup)
    (h : types.foldlM (fun next type => next.putKey flow position diskBlockId type) pool =
      some next)
    (type : IndexType) :
    (type ∈ types → ∀ key, flow.indexKey type = some key →
        (pool type).put key position diskBlockId = some (next type)) ∧
      (type ∉ types ∨ flow.indexKey type = none → next type = pool type) := by
  induction types generalizing pool with
  | nil =>
      obtain rfl := Option.some.inj h
      exact ⟨fun hmem => absurd hmem List.not_mem_nil, fun _ => rfl⟩
  | cons first types ih =>
      obtain ⟨after, hafter, hrest⟩ := Option.bind_eq_some_iff.mp h
      obtain ⟨hput, hkept⟩ := ih (List.nodup_cons.mp hnodup).2 hrest
      obtain ⟨hfirst, hsame⟩ := @putKey_put pool after flow position diskBlockId first type hafter
      constructor
      · intro hmem key hkey
        rcases List.mem_cons.mp hmem with heq | hin
        · rw [hkept (.inl (heq ▸ (List.nodup_cons.mp hnodup).1))]
          exact hfirst heq key hkey
        · have hne : type ≠ first := fun heq => (List.nodup_cons.mp hnodup).1 (heq ▸ hin)
          rw [← hsame (.inl hne)]
          exact hput hin key hkey
      · rintro (hmem | hnone)
        · rw [hkept (.inl fun hin => hmem (List.mem_cons_of_mem _ hin)),
            hsame (.inl fun heq => hmem (heq ▸ List.mem_cons_self))]
        · rw [hkept (.inr hnone), hsame (.inr hnone)]

/-- An insert puts its record into the pool of each type that has a key, and no other. -/
theorem insert_put (h : pool.insert flow position diskBlockId = some next) (type : IndexType) :
    (∀ key, flow.indexKey type = some key →
        (pool type).put key position diskBlockId = some (next type)) ∧
      (flow.indexKey type = none → next type = pool type) := by
  rw [insert_eq] at h
  obtain ⟨hput, hkept⟩ := foldlM_putKey (by decide) h type
  refine ⟨hput ?_, fun hnone => hkept (.inr hnone)⟩
  cases type <;> decide

end IndexMemoryPool

end TrafficDatabase
