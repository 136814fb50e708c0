import TrafficDatabase.Storage.PublishedRuns
import TrafficDatabase.Index.Persisters

/-!
# Nodes stay in the list

A node of the allocated list stays where it is until it has been marked: `allocate` moves
the head over marked nodes only and writes new nodes behind the last one (`Sound.put`), and
`recycle` marks a node of its own block (`Sound.recycle`).  The node of a record holds its
block in this sense, but for one case: a record joins the last node if that is one of its
block, and the node may have been marked already.
-/

namespace TrafficDatabase

namespace MemoryPool

variable (pool : MemoryPool)

/-- How far behind the head a place is. -/
def offset (place : ℕ) : ℕ :=
  if pool.listHead ≤ place then place - pool.listHead
  else place + pool.listLen - pool.listHead

/-- The place is one of those from the head to the last node. -/
def InList (place : ℕ) : Prop :=
  place < pool.listLen ∧ pool.offset place ≤ pool.offset pool.lastPlace

instance (place : ℕ) : Decidable (pool.InList place) := inferInstanceAs (Decidable (_ ∧ _))

/-- The ends of the list are places, and all nodes in it are in use but for the one of a
pool nothing has been allocated from. -/
structure Ringed : Prop where
  two_le : 2 ≤ pool.listLen
  head_lt : pool.listHead < pool.listLen
  tail_lt : pool.listTail < pool.listLen
  unused : ∀ place, pool.InList place → (pool.allocatedList place).startOffset = u64Max →
    pool.lastPlace = pool.listHead ∧ (pool.allocatedList place).dirty = false

/-- What the list and its nodes keep to. -/
structure Sound : Prop where
  ringed : pool.Ringed
  inside : pool.NodesInside
  capacity_le : pool.capacity ≤ u64Max

/-- The last node is not a marked one of the block. -/
def Unmarked (diskBlockId : ℕ) : Prop :=
  pool.lastNode.dataBlockId = diskBlockId → pool.lastNode.dirty = false

instance (diskBlockId : ℕ) : Decidable (pool.Unmarked diskBlockId) :=
  inferInstanceAs (Decidable (_ → _))

/-- The place has a node of the block that has not been marked. -/
structure Holds (place diskBlockId : ℕ) : Prop where
  inList : pool.InList place
  dataBlockId : (pool.allocatedList place).dataBlockId = diskBlockId
  unmarked : (pool.allocatedList place).dirty = false
  inUse : (pool.allocatedList place).startOffset ≠ u64Max

variable {pool} {next : MemoryPool} {place diskBlockId len start : ℕ}

theorem Ringed.lastPlace_eq (h : pool.Ringed) :
    pool.lastPlace = if pool.listTail = 0 then pool.listLen - 1 else pool.listTail - 1 := by
  have htwo := h.two_le
  have htail := h.tail_lt
  unfold lastPlace
  split_ifs with hzero
  · rw [hzero, Nat.zero_add, Nat.mod_eq_of_lt (by omega)]
  · rw [show pool.listTail + pool.listLen - 1 = pool.listTail - 1 + pool.listLen by omega,
      Nat.add_mod_right, Nat.mod_eq_of_lt (by omega)]

theorem nextNode_eq (hplace : place < pool.listLen) :
    pool.nextNode place = if place + 1 = pool.listLen then 0 else place + 1 := by
  unfold nextNode
  split_ifs with hend
  · rw [hend, Nat.mod_self]
  · exact Nat.mod_eq_of_lt (by omega)

theorem Ringed.lastPlace_inList (h : pool.Ringed) : pool.InList pool.lastPlace := by
  have htwo := h.two_le
  have htail := h.tail_lt
  refine ⟨?_, le_rfl⟩
  rw [h.lastPlace_eq]
  split_ifs <;> omega

/-- The last node is looked up as the source does. -/
theorem lastNode_eq : pool.lastNode = pool.allocatedList pool.lastPlace := rfl

/-- A list of one node. -/
theorem Ringed.eq_listHead (h : pool.Ringed) (hlast : pool.lastPlace = pool.listHead)
    (hin : pool.InList place) : place = pool.listHead := by
  have hhead := h.head_lt
  obtain ⟨hplace, hle⟩ := hin
  rw [hlast] at hle
  unfold offset at hle
  split_ifs at hle <;> omega

theorem sound_fresh {capacity listLen : ℕ} (hlist : 2 ≤ listLen) (hcapacity : capacity ≤ u64Max) :
    (fresh capacity listLen).Sound := by
  refine ⟨⟨hlist, ?_, ?_, fun place hin hunused => ⟨?_, rfl⟩⟩, nodesInside_fresh _ _, hcapacity⟩
  · show 0 < listLen
    omega
  · show 1 < listLen
    omega
  · show (1 + listLen - 1) % listLen = 0
    rw [Nat.add_sub_cancel_left, Nat.mod_self]

/-! ## The head moves on -/

/-- One step of the loop over marked nodes. -/
theorem Ringed.inList_succ (h : pool.Ringed) (hlast : pool.nextNode pool.listHead ≠ pool.listTail)
    (hplace : place < pool.listLen) :
    ({ pool with listHead := pool.nextNode pool.listHead } : MemoryPool).InList place ↔
      pool.InList place ∧ place ≠ pool.listHead := by
  have htwo := h.two_le
  have hhead := h.head_lt
  have htail := h.tail_lt
  have hmoved : ({ pool with listHead := pool.nextNode pool.listHead } : MemoryPool).lastPlace =
      pool.lastPlace := rfl
  unfold InList
  rw [hmoved]
  unfold offset
  rw [h.lastPlace_eq]
  simp only
  rw [nextNode_eq hhead] at hlast ⊢
  split_ifs at hlast ⊢ <;> omega

/-- A head that can move on is not the last node. -/
theorem Ringed.lastPlace_ne (h : pool.Ringed)
    (hlast : pool.nextNode pool.listHead ≠ pool.listTail) : pool.lastPlace ≠ pool.listHead := by
  have htwo := h.two_le
  have hhead := h.head_lt
  have htail := h.tail_lt
  rw [h.lastPlace_eq]
  rw [nextNode_eq hhead] at hlast
  split_ifs at hlast ⊢ <;> omega

theorem Ringed.advanceHead (h : pool.Ringed) (fuel : ℕ) : (advanceHead fuel pool).Ringed ∧
    ∀ {place diskBlockId}, pool.Holds place diskBlockId →
      (advanceHead fuel pool).Holds place diskBlockId := by
  induction fuel generalizing pool with
  | zero => exact ⟨h, fun hholds => hholds⟩
  | succ fuel ih =>
      simp only [MemoryPool.advanceHead]
      split_ifs with hdirty hlast
      · exact ⟨h, fun hholds => hholds⟩
      · have hmoved : ({ pool with listHead := pool.nextNode pool.listHead } : MemoryPool).Ringed :=
          { two_le := h.two_le
            head_lt := Nat.mod_lt _ (Nat.zero_lt_of_lt h.two_le)
            tail_lt := h.tail_lt
            unused := fun place hin hunused =>
              absurd (h.unused place ((h.inList_succ hlast hin.1).mp hin).1 hunused).1
                (h.lastPlace_ne hlast) }
        obtain ⟨hringed, hkept⟩ := ih hmoved
        refine ⟨hringed, fun {place diskBlockId} hholds => hkept ?_⟩
        have hne : place ≠ pool.listHead := by
          rintro rfl
          exact absurd (hdirty.symm.trans hholds.unmarked) (by decide)
        exact ⟨(h.inList_succ hlast hholds.inList.1).mpr ⟨hholds.inList, hne⟩,
          hholds.dataBlockId, hholds.unmarked, hholds.inUse⟩
      · exact ⟨h, fun hholds => hholds⟩

theorem advanceHead_nodes (fuel : ℕ) :
    (advanceHead fuel pool).allocatedList = pool.allocatedList ∧
      (advanceHead fuel pool).lastPlace = pool.lastPlace := by
  induction fuel generalizing pool with
  | zero => exact ⟨rfl, rfl⟩
  | succ fuel ih =>
      simp only [MemoryPool.advanceHead]
      split_ifs
      · exact ⟨rfl, rfl⟩
      · exact ih
      · exact ⟨rfl, rfl⟩

/-! ## A new node -/

/-- The place behind the last node is not in the list. -/
theorem Ringed.tail_not_inList (h : pool.Ringed) (hfull : pool.listHead ≠ pool.listTail) :
    ¬ pool.InList pool.listTail := by
  have htwo := h.two_le
  have hhead := h.head_lt
  have htail := h.tail_lt
  rintro ⟨-, hle⟩
  unfold offset at hle
  rw [h.lastPlace_eq] at hle
  split_ifs at hle <;> omega

/-- The list with one more node. -/
theorem Ringed.addNodeMeta (h : pool.Ringed) {poolOffset : ℕ}
    (hused : (pool.allocatedList pool.listHead).startOffset ≠ u64Max)
    (hoffset : poolOffset ≠ u64Max)
    (hadd : pool.addNodeMeta diskBlockId poolOffset = some next) :
    next.Ringed ∧ next.Holds next.lastPlace diskBlockId ∧
      ∀ {place other}, pool.Holds place other → next.Holds place other := by
  have htwo := h.two_le
  have hhead := h.head_lt
  have htail := h.tail_lt
  unfold MemoryPool.addNodeMeta at hadd
  split_ifs at hadd with hfull
  -- the node comes to the tail, and the tail moves on
  let node : NodeMeta := { dataBlockId := diskBlockId, startOffset := poolOffset, dirty := false }
  have hnext : next = { pool with
      allocatedList := Function.update pool.allocatedList pool.listTail node
      listTail := pool.nextNode pool.listTail } := (Option.some.inj hadd).symm
  have hlistLen : next.listLen = pool.listLen := by rw [hnext]
  have hlistHead : next.listHead = pool.listHead := by rw [hnext]
  have hlistTail : next.listTail =
      if pool.listTail + 1 = pool.listLen then 0 else pool.listTail + 1 := by
    rw [hnext]
    exact nextNode_eq htail
  have htail' : next.listTail < next.listLen := by
    rw [hlistTail, hlistLen]
    split_ifs <;> omega
  have hlast : next.lastPlace = pool.listTail := by
    unfold lastPlace
    rw [hlistTail, hlistLen]
    split_ifs with hend
    · rw [Nat.zero_add, Nat.mod_eq_of_lt (by omega), ← hend, Nat.add_sub_cancel]
    · rw [show pool.listTail + 1 + pool.listLen - 1 = pool.listTail + pool.listLen by omega,
        Nat.add_mod_right, Nat.mod_eq_of_lt htail]
  have hnew : next.allocatedList pool.listTail = node := by
    rw [hnext]
    exact Function.update_self ..
  have hold : ∀ {place}, place ≠ pool.listTail →
      next.allocatedList place = pool.allocatedList place := fun hne => by
    rw [hnext]
    exact Function.update_of_ne hne _ _
  have hin : ∀ {place}, next.InList place ↔ pool.InList place ∨ place = pool.listTail := by
    intro place
    unfold InList
    rw [hlast]
    unfold offset
    rw [hlistHead, hlistLen, h.lastPlace_eq]
    split_ifs <;> omega
  refine ⟨⟨hlistLen ▸ htwo, hlistHead ▸ hlistLen ▸ hhead, htail', fun place hplace hunused => ?_⟩,
    ⟨?_, ?_, ?_, ?_⟩, fun {place other} hholds => ?_⟩
  · -- the head is in use, so all nodes of the list are
    rcases hin.mp hplace with hbefore | rfl
    · have hne : place ≠ pool.listTail := fun heq => h.tail_not_inList hfull (heq ▸ hbefore)
      rw [hold hne] at hunused
      have hone := h.eq_listHead (h.unused place hbefore hunused).1 hbefore
      exact absurd (hone ▸ hunused) hused
    · rw [hnew] at hunused
      exact absurd hunused hoffset
  · rw [hlast]
    exact hin.mpr (.inr rfl)
  · rw [hlast, hnew]
  · rw [hlast, hnew]
  · rw [hlast, hnew]
    exact hoffset
  · have hne : place ≠ pool.listTail := fun heq => h.tail_not_inList hfull (heq ▸ hholds.inList)
    exact ⟨hin.mpr (.inl hholds.inList), hold hne ▸ hholds.dataBlockId, hold hne ▸ hholds.unmarked,
      hold hne ▸ hholds.inUse⟩

/-- The first node of a pool nothing has been allocated from. -/
theorem Ringed.takeFirst (h : pool.Ringed) {poolOffset : ℕ} (hoffset : poolOffset ≠ u64Max)
    (hunused : (pool.allocatedList pool.listHead).startOffset = u64Max)
    (hnext : next = { pool with
      allocatedList := Function.update pool.allocatedList pool.listHead
        { pool.allocatedList pool.listHead with
          dataBlockId := diskBlockId, startOffset := poolOffset } }) :
    next.Ringed ∧ next.Holds next.lastPlace diskBlockId ∧
      ∀ {place other}, pool.Holds place other → next.Holds place other := by
  have hhead : pool.InList pool.listHead := by
    refine ⟨h.head_lt, ?_⟩
    unfold offset
    rw [if_pos le_rfl, Nat.sub_self]
    exact Nat.zero_le _
  obtain ⟨hlast, hunmarked⟩ := h.unused _ hhead hunused
  have hlast' : next.lastPlace = pool.listHead := by
    rw [hnext]
    exact hlast
  have hin : ∀ {place}, next.InList place ↔ pool.InList place := by
    intro place
    rw [hnext]
    exact Iff.rfl
  have hnode : next.allocatedList pool.listHead =
      { pool.allocatedList pool.listHead with
        dataBlockId := diskBlockId, startOffset := poolOffset } := by
    rw [hnext]
    exact Function.update_self ..
  refine ⟨⟨?_, ?_, ?_, fun place hplace hstart => ?_⟩, ⟨?_, ?_, ?_, ?_⟩,
    fun {place other} hholds => ?_⟩
  · exact hnext ▸ h.two_le
  · exact hnext ▸ h.head_lt
  · exact hnext ▸ h.tail_lt
  · rw [h.eq_listHead hlast (hin.mp hplace), hnode] at hstart
    exact absurd hstart hoffset
  · rw [hlast']
    exact hin.mpr hhead
  · rw [hlast', hnode]
  · rw [hlast', hnode]
    exact hunmarked
  · rw [hlast', hnode]
    exact hoffset
  · exact absurd (h.eq_listHead hlast hholds.inList ▸ hunused) hholds.inUse

/-! ## The operations -/

/-- What the bytes are does not matter. -/
theorem Ringed.withBytes (h : pool.Ringed) (buffer : Memory) (allocatePos : ℕ) :
    ({ pool with buffer, allocatePos } : MemoryPool).Ringed :=
  ⟨h.two_le, h.head_lt, h.tail_lt, h.unused⟩

theorem Holds.withBytes (h : pool.Holds place diskBlockId) (buffer : Memory) (allocatePos : ℕ) :
    ({ pool with buffer, allocatePos } : MemoryPool).Holds place diskBlockId :=
  ⟨h.inList, h.dataBlockId, h.unmarked, h.inUse⟩

/-- All nodes that hold a block still do, and so does the node of what was handed out. -/
theorem Ringed.allocate (h : pool.Ringed) (hinside : pool.NodesInside)
    (hcapacity : pool.capacity ≤ u64Max) (hlen : 0 < len) (hblock : diskBlockId ≠ u64Max)
    (hallocate : pool.allocate len diskBlockId = some (start, next)) :
    next.Ringed ∧ (pool.Unmarked diskBlockId → next.Holds next.lastPlace diskBlockId) ∧
      ∀ {place other}, pool.Holds place other → next.Holds place other := by
  obtain ⟨hringed, hkept⟩ := h.advanceHead pool.listLen
  obtain ⟨hnodes, hplace⟩ := @advanceHead_nodes pool pool.listLen
  have hunmarked : pool.Unmarked diskBlockId →
      (MemoryPool.advanceHead pool.listLen pool).Unmarked diskBlockId := by
    unfold Unmarked
    rw [lastNode_eq, lastNode_eq, hnodes, hplace]
    exact id
  have hstarts : ∀ node,
      ((MemoryPool.advanceHead pool.listLen pool).allocatedList node).dataBlockId ≠ u64Max →
        ((MemoryPool.advanceHead pool.listLen pool).allocatedList node).startOffset ≠ u64Max := by
    intro node hused
    rw [hnodes] at hused ⊢
    exact ((hinside node hused).trans_le hcapacity).ne
  have hcapacity' : (MemoryPool.advanceHead pool.listLen pool).capacity ≤ u64Max :=
    (advanceHead_capacity _ pool).trans_le hcapacity
  unfold MemoryPool.allocate allocateFrom at hallocate
  generalize MemoryPool.advanceHead pool.listLen pool = moved at *
  generalize (if moved.allocatePos + len > moved.capacity then 0 else moved.allocatePos) =
    allocatePos at hallocate
  simp only at hallocate
  split_ifs at hallocate with hroom hfirst hoccupied hsame
  · obtain ⟨-, rfl⟩ := Prod.mk.inj (Option.some.inj hallocate)
    obtain ⟨hnext, hholds, hold⟩ := 
      @Ringed.takeFirst moved _ diskBlockId hringed allocatePos (by omega) hfirst rfl
    exact ⟨hnext.withBytes _ _, fun _ => hholds.withBytes _ _,
      fun hbefore => (hold (hkept hbefore)).withBytes _ _⟩
  all_goals
    obtain ⟨added, hadded, hnext⟩ := Option.map_eq_some_iff.mp hallocate
    obtain ⟨-, rfl⟩ := Prod.mk.inj hnext
  · obtain ⟨hnext, hholds, hold⟩ := hringed.addNodeMeta hfirst (by omega) hadded
    exact ⟨hnext.withBytes _ _, fun _ => hholds.withBytes _ _,
      fun hbefore => (hold (hkept hbefore)).withBytes _ _⟩
  · obtain rfl := Option.some.inj hadded
    have hid := (not_not.mp hsame).symm
    refine ⟨hringed.withBytes _ _, fun hlast => ?_, fun hbefore => (hkept hbefore).withBytes _ _⟩
    exact ⟨hringed.lastPlace_inList, hid, hunmarked hlast hid,
      hstarts moved.lastPlace (by rw [← lastNode_eq, hid]; exact hblock)⟩

theorem allocate_capacity (hallocate : pool.allocate len diskBlockId = some (start, next)) :
    next.capacity = pool.capacity := by
  rw [← advanceHead_capacity pool.listLen pool]
  unfold MemoryPool.allocate allocateFrom at hallocate
  generalize MemoryPool.advanceHead pool.listLen pool = moved at *
  generalize (if moved.allocatePos + len > moved.capacity then 0 else moved.allocatePos) =
    allocatePos at hallocate
  simp only at hallocate
  split_ifs at hallocate
  · obtain ⟨-, rfl⟩ := Prod.mk.inj (Option.some.inj hallocate)
    rfl
  all_goals
    obtain ⟨added, hadded, hnext⟩ := Option.map_eq_some_iff.mp hallocate
    obtain ⟨-, rfl⟩ := Prod.mk.inj hnext
  · unfold MemoryPool.addNodeMeta at hadded
    split_ifs at hadded
    obtain rfl := Option.some.inj hadded
    rfl
  · obtain rfl := Option.some.inj hadded
    rfl

theorem Sound.put (h : pool.Sound) (hblock : diskBlockId ≠ u64Max) {key : List UInt8}
    {position : ℕ} (hput : pool.put key position diskBlockId = some next) :
    next.Sound ∧ (pool.Unmarked diskBlockId → next.Holds next.lastPlace diskBlockId) ∧
      ∀ {place other}, pool.Holds place other → next.Holds place other := by
  have hinside := h.inside.put hput
  obtain ⟨⟨start, after⟩, hallocate, rfl⟩ := Option.map_eq_some_iff.mp hput
  obtain ⟨hringed, hholds, hold⟩ :=
    h.ringed.allocate h.inside h.capacity_le (Nat.succ_pos _) hblock hallocate
  exact ⟨⟨hringed.withBytes _ _, hinside, (allocate_capacity hallocate).trans_le h.capacity_le⟩,
    fun hlast => (hholds hlast).withBytes _ _, fun hbefore => (hold hbefore).withBytes _ _⟩

/-- `recycle` marks a node of its block. -/
theorem recycle_cases (pool : MemoryPool) (diskBlockId : ℕ) :
    ∃ allocatedList, pool.recycle diskBlockId = { pool with allocatedList } ∧
      ∀ place, allocatedList place = pool.allocatedList place ∨
        (pool.allocatedList place).dataBlockId = diskBlockId := by
  unfold MemoryPool.recycle
  cases hnode : pool.nodeOf diskBlockId with
  | none => exact ⟨_, rfl, fun _ => .inl rfl⟩
  | some node =>
      refine ⟨_, rfl, fun place => ?_⟩
      by_cases hsame : place = node
      · exact .inr (hsame ▸ findNode_eq_some hnode)
      · exact .inl (Function.update_of_ne hsame _ _)

theorem Sound.recycle (h : pool.Sound) (hblock : diskBlockId ≠ u64Max) :
    (pool.recycle diskBlockId).Sound ∧
      ∀ {place other}, other ≠ diskBlockId → pool.Holds place other →
        (pool.recycle diskBlockId).Holds place other := by
  have hringed := h.ringed
  have hinside := h.inside.recycle diskBlockId
  have hstart := fun place => (@recycle_node pool diskBlockId place).1
  obtain ⟨allocatedList, hrecycle, hnodes⟩ := recycle_cases pool diskBlockId
  rw [hrecycle] at hinside hstart ⊢
  refine ⟨⟨⟨hringed.two_le, hringed.head_lt, hringed.tail_lt, fun place hin hunused => ?_⟩,
    hinside, h.capacity_le⟩, fun {place other} hne hholds => ?_⟩
  · -- a marked node has been in use
    rw [hstart] at hunused
    rcases hnodes place with hkept | hid
    · obtain ⟨hlast, hunmarked⟩ := hringed.unused place hin hunused
      exact ⟨hlast, (congrArg NodeMeta.dirty hkept).trans hunmarked⟩
    · exact absurd hunused ((h.inside place (hid ▸ hblock)).trans_le h.capacity_le).ne
  · have hkept := (hnodes place).resolve_right (hholds.dataBlockId ▸ hne)
    exact ⟨hholds.inList, (congrArg NodeMeta.dataBlockId hkept).trans hholds.dataBlockId,
      (congrArg NodeMeta.dirty hkept).trans hholds.unmarked,
      fun heq => hholds.inUse ((hstart place).symm.trans heq)⟩

end MemoryPool

namespace IndexMemoryPool

variable {pool next : IndexMemoryPool} {flow : FlowMetadata} {position diskBlockId : ℕ}

theorem sound_insert (h : ∀ type, (pool type).Sound) (hblock : diskBlockId ≠ u64Max)
    (hinsert : pool.insert flow position diskBlockId = some next) (type : IndexType) :
    (next type).Sound ∧
      (type ∈ recordTypes flow → (pool type).Unmarked diskBlockId →
        (next type).Holds (next type).lastPlace diskBlockId) ∧
      ∀ {place other}, (pool type).Holds place other → (next type).Holds place other := by
  obtain ⟨hput, hkept⟩ := insert_put hinsert type
  cases hkey : flow.indexKey type with
  | some key =>
      obtain ⟨hsound, hholds, hold⟩ := (h type).put hblock (hput key hkey)
      exact ⟨hsound, fun _ => hholds, hold⟩
  | none =>
      rw [hkept hkey]
      refine ⟨h type, fun hmem => ?_, id⟩
      obtain ⟨key, hsome⟩ := mem_recordTypes.mp hmem
      exact absurd (hkey.symm.trans hsome) (Option.some_ne_none key).symm

end IndexMemoryPool

end TrafficDatabase
