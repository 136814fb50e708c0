import Mathlib.Algebra.BigOperators.Intervals
import Mathlib.Data.Finset.Sort
import Mathlib.Order.Interval.Finset.Nat
import TrafficDatabase.Index.ZOrderCode
import TrafficDatabase.Library.Grouping

/-!
# The Z-order tree

`buildTree` of `zOrderTree.hpp` makes a tree with 24 levels of nodes out of a sorted array of
codes.  A node stands for the digits from its level on; its table leads, by the digit below,
to the nodes of the level below, and on the last level to the points.  The levels are built
from below: one loop groups the nodes of a level whose digits agree, the first of each
group is taken over to the next level.

`buildTree_stands` says of the tree that is built that its last node is the root and that
from there the digits of a code lead to the last point with this code.  The tables have
32 bits; a node gets the number of nodes built before it (`nodeNumber`).
-/

namespace TrafficDatabase

open ZOrderIPv4

/-- The array of codes, sorted by `operator<`. -/
structure SortedPoints where
  data : ℕ → ZOrderIPv4
  num : ℕ
  num_lt : num < 2 ^ 64
  sorted : ∀ i j, i < j → j < num → (data j).less (data i) = false

/-- A node; the source calls its digit `prefix`. -/
structure ZOrderTreeNode where
  digit : ℕ
  offsets : ℕ → ℕ

instance : Inhabited ZOrderTreeNode := ⟨{ digit := 0, offsets := fun _ => 0 }⟩

structure ZOrderTreeIPv4 where
  buffer : List ZOrderTreeNode
  bufferSize : ℕ
  maxLevel : ℕ

namespace ZOrderTreeIPv4

/-- `for(u_int32_t i = 0; i < size; ++i)`: the counter has 32 bits, the bound has 64.  `none`
when the fuel is used up. -/
def loop32 {σ : Type*} (size : ℕ) (body : ℕ → σ → σ) : ℕ → ℕ → σ → Option σ
  | 0, _, _ => none
  | fuel + 1, i, st =>
    if i < size then loop32 size body fuel ((i + 1) % 2 ^ 32) (body i st) else some st

/-- The nodes, and the first points of those of the level that is built. -/
structure Level where
  buffer : List ZOrderTreeNode
  left : List ℕ

namespace Level

variable (st : Level)

def newNode (point digit slot offset : ℕ) : Level :=
  { buffer := st.buffer ++
      [{ digit := digit, offsets := Function.update (fun _ => 0) slot offset }]
    left := st.left ++ [point] }

def setOffset (node slot offset : ℕ) : Level :=
  { st with
    buffer := st.buffer.modify node fun node =>
      { node with offsets := Function.update node.offsets slot offset } }

/-- One turn of the two loops: a new node, or an entry in the last one.  The number `j` of the
nodes of the level is the length of `left`. -/
def place (data : ℕ → ZOrderIPv4) (level nowOffset point slot offset : ℕ) : Level :=
  let j := st.left.length
  if j = 0 then st.newNode point ((data point).getSuffix level) slot offset
  else if !(data point).prefixCompare (data (st.left.getD (j - 1) 0)) level then
    st.newNode point ((data point).getSuffix level) slot offset
  else st.setOffset (nowOffset + j - 1) slot offset

end Level

variable (points : SortedPoints)

/-- The loop of `buildTree`: `0` in a table is for no point. -/
def buildTreeBody (i : ℕ) (st : Level) : Level :=
  st.place points.data 1 0 i ((points.data i).getSuffix 0) ((i + 1) % 2 ^ 32)

/-- The loop of `buildTreeLevel`. -/
def buildTreeLevelBody (left : List ℕ) (start nowOffset level i : ℕ) (st : Level) : Level :=
  st.place points.data level nowOffset (left.getD i 0) (st.buffer.getD (start + i) default).digit
    ((start + i + 1) % 2 ^ 32)

/-- The nodes of one level from those of the level below, which begin at `start`. -/
def buildTreeLevel : ℕ → List ℕ → ℕ → ℕ → ZOrderTreeIPv4 → Option ZOrderTreeIPv4
  | 0, _, _, _, _ => none
  | fuel + 1, left, start, level, tree =>
    if level > 24 then some tree
    else if left.length = 0 then some tree
    else
      let nowOffset := tree.buffer.length
      (loop32 left.length (buildTreeLevelBody points left start nowOffset level) fuel 0
        { buffer := tree.buffer, left := [] }).bind fun st =>
          buildTreeLevel fuel st.left nowOffset (level + 1)
            { buffer := st.buffer, bufferSize := st.buffer.length, maxLevel := level }

def buildTree (fuel : ℕ) : Option ZOrderTreeIPv4 :=
  (loop32 points.num (buildTreeBody points) fuel 0 { buffer := [], left := [] }).bind fun st =>
    (buildTreeLevel points fuel st.left 0 2
      { buffer := st.buffer, bufferSize := st.buffer.length, maxLevel := 1 }).map fun tree =>
        { tree with bufferSize := tree.buffer.length }

/-! ### The loops -/

section Loop

variable {σ : Type*} {size : ℕ} {body : ℕ → σ → σ}

theorem loop32_of_lt (hsize : size < 2 ^ 32) {fuel i : ℕ} (hi : i ≤ size) (st : σ) :
    loop32 size body fuel i st =
      if size - i < fuel then some ((List.range' i (size - i)).foldl (fun st i => body i st) st)
      else none := by
  induction fuel generalizing i st with
  | zero => rfl
  | succ fuel ih =>
    rw [loop32]
    rcases hi.lt_or_eq with hlt | rfl
    · have hnext : (i + 1) % 2 ^ 32 = i + 1 := Nat.mod_eq_of_lt (by omega)
      obtain ⟨rest, hrest⟩ : ∃ rest, size - i = rest + 1 := ⟨size - i - 1, by omega⟩
      have hrest' : size - (i + 1) = rest := by omega
      rw [if_pos hlt, hnext, ih (by omega), hrest', hrest, List.range'_succ]
      simp only [Nat.add_lt_add_iff_right, List.foldl_cons]
    · simp

/-- With enough fuel the loop runs through its body once for every number below the bound. -/
theorem loop32_eq (hsize : size < 2 ^ 32) (fuel : ℕ) (st : σ) :
    loop32 size body fuel 0 st =
      if size < fuel then some ((List.range size).foldl (fun st i => body i st) st)
      else none := by
  rw [loop32_of_lt hsize (Nat.zero_le _), Nat.sub_zero, ← List.range_eq_range']

/-- A bound that the counter never reaches. -/
theorem loop32_eq_none (hsize : 2 ^ 32 ≤ size) (fuel : ℕ) {i : ℕ} (hi : i < 2 ^ 32) (st : σ) :
    loop32 size body fuel i st = none := by
  induction fuel generalizing i st with
  | zero => rfl
  | succ fuel ih =>
    rw [loop32, if_pos (hi.trans_le hsize)]
    exact ih (Nat.mod_lt _ (Nat.two_pow_pos 32)) _

end Loop

/-! ### The loops group the nodes -/

section Grouped

variable (data : ℕ → ZOrderIPv4) (level : ℕ) (buffer : List ZOrderTreeNode)
  (point slot offset : ℕ → ℕ)

/-- The node for a group of nodes, or of points. -/
def nodeOf (group : Grouping.Group ℕ ℕ) : ZOrderTreeNode :=
  { digit := (data (point group.first)).getSuffix level
    offsets := fun digit => (group.last digit).elim 0 offset }

/-- What a loop has made when it has formed these groups. -/
def Level.ofGroups (groups : List (Grouping.Group ℕ ℕ)) : Level :=
  { buffer := buffer ++ groups.map (nodeOf data level point offset)
    left := groups.map fun group => point group.first }

theorem elim_update (last : ℕ → Option ℕ) (digit i : ℕ) :
    (fun d => (Function.update last digit (some i) d).elim 0 offset) =
      Function.update (fun d => (last d).elim 0 offset) digit (offset i) := by
  funext d
  by_cases hd : d = digit
  · rw [hd, Function.update_self, Function.update_self]
    rfl
  · rw [Function.update_of_ne hd, Function.update_of_ne hd]

theorem newNode_ofGroups (groups : List (Grouping.Group ℕ ℕ)) (i : ℕ) :
    (Level.ofGroups data level buffer point offset groups).newNode (point i)
        ((data (point i)).getSuffix level) (slot i) (offset i) =
      Level.ofGroups data level buffer point offset
        (groups ++ [Grouping.Group.start slot i]) := by
  have hoffsets := elim_update offset (fun _ => none) (slot i) i
  simp only [Option.elim_none] at hoffsets
  simp [Level.newNode, Level.ofGroups, nodeOf, Grouping.Group.start, Grouping.Group.put, hoffsets]

theorem modify_concat {α : Type*} (front : List α) (a : α) (f : α → α) :
    (front ++ [a]).modify front.length f = front ++ [f a] := by
  induction front with
  | nil => rfl
  | cons b front ih => simp [ih]

theorem setOffset_ofGroups (front : List (Grouping.Group ℕ ℕ)) (group : Grouping.Group ℕ ℕ)
    (i : ℕ) :
    (Level.ofGroups data level buffer point offset (front ++ [group])).setOffset
        (buffer.length + (front.length + 1) - 1) (slot i) (offset i) =
      Level.ofGroups data level buffer point offset (front ++ [group.put slot i]) := by
  have hlength : buffer.length + (front.length + 1) - 1 =
      (buffer ++ front.map (nodeOf data level point offset)).length := by simp
  have hput := elim_update offset group.last (slot i) i
  simp only [Level.setOffset, Level.ofGroups, List.map_append, ← List.append_assoc,
    List.map_singleton]
  rw [hlength, modify_concat]
  simp only [nodeOf, Grouping.Group.put, hput]

/-- A turn of the loop adds an item to the groups. -/
theorem place_ofGroups (groups : List (Grouping.Group ℕ ℕ)) (i : ℕ) :
    (Level.ofGroups data level buffer point offset groups).place data level buffer.length
        (point i) (slot i) (offset i) =
      Level.ofGroups data level buffer point offset
        (Grouping.add (fun i => (data (point i)).digitsFrom level) slot groups i) := by
  rcases List.eq_nil_or_concat groups with rfl | ⟨front, group, rfl⟩
  · exact newNode_ofGroups data level buffer point slot offset [] i
  · rw [List.concat_eq_append]
    have hlength : (Level.ofGroups data level buffer point offset (front ++ [group])).left.length =
        front.length + 1 := by
      simp [Level.ofGroups]
    have hlast : (Level.ofGroups data level buffer point offset
        (front ++ [group])).left.getD front.length 0 = point group.first := by
      simp [Level.ofGroups, List.getD_eq_getElem?_getD]
    simp only [Level.place, hlength, Nat.add_sub_cancel, hlast]
    rw [if_neg (Nat.succ_ne_zero _)]
    by_cases hkey : (data (point i)).digitsFrom level = (data (point group.first)).digitsFrom level
    · rw [Grouping.add_concat_of_eq _ _ hkey, (prefixCompare_iff _ _ _).mpr hkey]
      exact setOffset_ofGroups data level buffer point slot offset front group i
    · have hcompare := mt (prefixCompare_iff _ _ _).mp hkey
      rw [Grouping.add_concat_of_ne _ _ hkey, Bool.eq_false_iff.mpr hcompare]
      exact newNode_ofGroups data level buffer point slot offset (front ++ [group]) i

/-- The groups the loop ends with. -/
theorem foldl_place (body : ℕ → Level → Level) (n : ℕ)
    (hbody : ∀ i < n, ∀ groups, body i (Level.ofGroups data level buffer point offset groups) =
      (Level.ofGroups data level buffer point offset groups).place data level buffer.length
        (point i) (slot i) (offset i)) :
    (List.range n).foldl (fun st i => body i st) { buffer := buffer, left := [] } =
      Level.ofGroups data level buffer point offset
        (Grouping.groups (fun i => (data (point i)).digitsFrom level) slot (List.range n)) := by
  induction n with
  | zero => simp [Level.ofGroups, Grouping.groups]
  | succ n ih =>
    rw [List.range_succ, List.foldl_append, ih fun i hi => hbody i (Nat.lt_succ_of_lt hi),
      Grouping.groups_concat, ← place_ofGroups]
    exact hbody n (Nat.lt_succ_self n) _

end Grouped

/-! ### What a node stands for -/

/-- The different codes without their first `level` digits. -/
def prefixes (level : ℕ) : Finset ℕ :=
  (Finset.range points.num).image fun m => (points.data m).digitsFrom level

/-- The number of nodes that are built before the one a point belongs to on a level. -/
def nodeNumber (level m : ℕ) : ℕ :=
  ∑ j ∈ Finset.Ico 1 level, (prefixes points j).card +
    ((prefixes points level).filter (· < (points.data m).digitsFrom level)).card

/-- No later point has the same code. -/
def IsLast (m : ℕ) : Prop := ∀ n < points.num, m < n → points.data n ≠ points.data m

/-- Node `v` stands for the digits from `level` on of the code of point `m`: its table leads
down to the nodes that stand for one digit more. -/
def Stands (buffer : List ZOrderTreeNode) : ℕ → ℕ → ℕ → Prop
  | 0, v, m => v < points.num ∧ points.data v = points.data m ∧ IsLast points v
  | level + 1, v, m => v = nodeNumber points (level + 1) m ∧
      ∃ node, buffer[v]? = some node ∧ ∀ digit < 16,
        (node.offsets digit = 0 ∧ ∀ n < points.num,
          (points.data n).digitsFrom (level + 1) = (points.data m).digitsFrom (level + 1) →
            (points.data n).getSuffix level ≠ digit) ∨
        ∃ child n, node.offsets digit = (child + 1) % 2 ^ 32 ∧ n < points.num ∧
          (points.data n).digitsFrom (level + 1) = (points.data m).digitsFrom (level + 1) ∧
          (points.data n).getSuffix level = digit ∧ Stands buffer level child n

variable {points}

/-- The nodes that come later change nothing. -/
theorem Stands.append {buffer : List ZOrderTreeNode} (more : List ZOrderTreeNode) {level v m : ℕ}
    (h : Stands points buffer level v m) : Stands points (buffer ++ more) level v m := by
  induction level generalizing v m with
  | zero => exact h
  | succ level ih =>
    obtain ⟨hv, node, hnode, hdigits⟩ := h
    refine ⟨hv, node, ?_, fun digit hdigit => ?_⟩
    · have hlt : v < buffer.length := (List.getElem?_eq_some_iff.mp hnode).1
      rw [List.getElem?_append_left hlt, hnode]
    · rcases hdigits digit hdigit with hnone | ⟨child, n, hoffset, hn, hkey, hsuffix, hstands⟩
      · exact Or.inl hnone
      · exact Or.inr ⟨child, n, hoffset, hn, hkey, hsuffix, ih hstands⟩

/-- The things a loop groups: the points, or the nodes of a level. -/
structure Items (points : SortedPoints) (buffer : List ZOrderTreeNode) (level start n : ℕ)
    (point slot : ℕ → ℕ) : Prop where
  lt : ∀ i < n, point i < points.num
  sorted : ∀ i j, i < j → j < n →
    (points.data (point i)).code ≤ (points.data (point j)).code
  covered : ∀ m < points.num,
    ∃ i < n, (points.data (point i)).digitsFrom level = (points.data m).digitsFrom level
  slot_eq : ∀ i < n, slot i = (points.data (point i)).getSuffix level
  stands : ∀ i < n, (∀ j, i < j → j < n →
      (points.data (point j)).digitsFrom level ≠ (points.data (point i)).digitsFrom level) →
    Stands points buffer level (start + i) (point i)

/-- The nodes of a level, at the end of the buffer. -/
structure Built (points : SortedPoints) (level start : ℕ) (st : Level) : Prop where
  length_eq : st.buffer.length = start + st.left.length
  start_eq : start = ∑ j ∈ Finset.Ico 1 level, (prefixes points j).card
  card_eq : st.left.length = (prefixes points level).card
  lt : ∀ m ∈ st.left, m < points.num
  increasing : st.left.Pairwise fun m n =>
    (points.data m).digitsFrom level < (points.data n).digitsFrom level
  covered : ∀ m < points.num,
    ∃ n ∈ st.left, (points.data n).digitsFrom level = (points.data m).digitsFrom level
  stands : ∀ i (hi : i < st.left.length), Stands points st.buffer level (start + i) st.left[i]
  digit_eq : ∀ i (hi : i < st.left.length), (st.buffer.getD (start + i) default).digit =
    (points.data st.left[i]).getSuffix level

theorem code_le_of_lt {m n : ℕ} (hlt : m < n) (hn : n < points.num) :
    (points.data m).code ≤ (points.data n).code := by
  have hless := points.sorted m n hlt hn
  rw [← Nat.not_lt, ← less_iff, hless]
  exact Bool.false_ne_true

/-- The points themselves. -/
theorem items_points : Items points [] 0 0 points.num id fun i => (points.data i).getSuffix 0 where
  lt := fun _ hi => hi
  sorted := fun _ _ => code_le_of_lt
  covered := fun m hm => ⟨m, hm, rfl⟩
  slot_eq := fun _ _ => rfl
  stands := by
    intro i hi hlast
    rw [Nat.zero_add]
    refine ⟨hi, rfl, fun n hn hlt heq => hlast n hlt hn ?_⟩
    rw [id, id, heq]

/-- The nodes of a level as the things the next loop groups. -/
theorem Built.items {level start : ℕ} {st : Level} (h : Built points level start st) :
    Items points st.buffer level start st.left.length (st.left.getD · 0)
      fun i => (st.buffer.getD (start + i) default).digit where
  lt := by
    intro i hi
    rw [List.getD_eq_getElem _ _ hi]
    exact h.lt _ (List.getElem_mem hi)
  sorted := by
    intro i j hij hj
    have hlt := List.pairwise_iff_getElem.mp h.increasing i j (hij.trans hj) hj hij
    rw [List.getD_eq_getElem _ _ (hij.trans hj), List.getD_eq_getElem _ _ hj]
    exact (not_lt.mp fun hlt' => (digitsFrom_mono hlt'.le level).not_gt hlt)
  covered := by
    intro m hm
    obtain ⟨n, hn, hkey⟩ := h.covered m hm
    obtain ⟨i, hi, rfl⟩ := List.mem_iff_getElem.mp hn
    refine ⟨i, hi, ?_⟩
    rw [List.getD_eq_getElem _ _ hi]
    exact hkey
  slot_eq := by
    intro i hi
    rw [List.getD_eq_getElem _ _ hi]
    exact h.digit_eq i hi
  stands := by
    intro i hi _
    rw [List.getD_eq_getElem _ _ hi]
    exact h.stands i hi

section Build

variable {buffer : List ZOrderTreeNode} {level start n : ℕ} {point slot : ℕ → ℕ}

theorem Items.grouped (h : Items points buffer level start n point slot) :
    Grouping.Grouped (fun i => (points.data (point i)).digitsFrom (level + 1)) slot (List.range n)
      (Grouping.groups (fun i => (points.data (point i)).digitsFrom (level + 1)) slot
        (List.range n)) := by
  apply Grouping.grouped_groups
  rw [List.pairwise_iff_getElem]
  intro i j hi hj hij
  rw [List.getElem_range, List.getElem_range]
  rw [List.length_range] at hj
  exact digitsFrom_mono (h.sorted i j hij hj) (level + 1)

/-- The groups have the different codes without their first digits. -/
theorem Items.toFinset_keys (h : Items points buffer level start n point slot)
    {groups : List (Grouping.Group ℕ ℕ)}
    (hgrouped : Grouping.Grouped (fun i => (points.data (point i)).digitsFrom (level + 1)) slot
      (List.range n) groups) :
    (groups.map fun group => (points.data (point group.first)).digitsFrom (level + 1)).toFinset =
      prefixes points (level + 1) := by
  ext key
  simp only [List.mem_toFinset, List.mem_map, prefixes, Finset.mem_image, Finset.mem_range]
  constructor
  · rintro ⟨group, hgroup, rfl⟩
    have hfirst := List.mem_range.mp (hgrouped.first_mem group hgroup)
    exact ⟨point group.first, h.lt _ hfirst, rfl⟩
  · rintro ⟨m, hm, rfl⟩
    obtain ⟨i, hi, hkey⟩ := h.covered m hm
    obtain ⟨group, hgroup, hfirst⟩ := hgrouped.covered i (List.mem_range.mpr hi)
    exact ⟨group, hgroup, hfirst.trans (digitsFrom_congr (Nat.le_succ level) hkey)⟩

/-- The table of a group leads down to its last items. -/
theorem Items.table (h : Items points buffer level start n point slot)
    {groups : List (Grouping.Group ℕ ℕ)} {group : Grouping.Group ℕ ℕ}
    (hgrouped : Grouping.Grouped (fun i => (points.data (point i)).digitsFrom (level + 1)) slot
      (List.range n) groups) (hgroup : group ∈ groups) (more : List ZOrderTreeNode)
    {digit : ℕ} {node : ZOrderTreeNode}
    (hnode : node = nodeOf points.data (level + 1) point (fun i => (start + i + 1) % 2 ^ 32)
      group) :
    (node.offsets digit = 0 ∧ ∀ n < points.num, (points.data n).digitsFrom (level + 1) =
        (points.data (point group.first)).digitsFrom (level + 1) →
          (points.data n).getSuffix level ≠ digit) ∨
      ∃ child n, node.offsets digit = (child + 1) % 2 ^ 32 ∧ n < points.num ∧
        (points.data n).digitsFrom (level + 1) =
          (points.data (point group.first)).digitsFrom (level + 1) ∧
        (points.data n).getSuffix level = digit ∧
        Stands points (buffer ++ more) level child n := by
  have hlast := hgrouped.last_eq group hgroup digit
  subst hnode
  cases hfound : group.last digit with
  | none =>
    left
    rw [hfound] at hlast
    have hempty := List.filter_eq_nil_iff.mp (List.getLast?_eq_none_iff.mp hlast.symm)
    refine ⟨by simp [nodeOf, hfound], fun m hm hkey hsuffix => ?_⟩
    obtain ⟨i, hi, hitem⟩ := h.covered m hm
    obtain ⟨habove, hdigit⟩ := (digitsFrom_eq_iff _ _ level).mp hitem
    apply hempty i (List.mem_range.mpr hi)
    rw [decide_eq_true_iff]
    exact ⟨habove.trans hkey, (h.slot_eq i hi).trans (hdigit.trans hsuffix)⟩
  | some i =>
    right
    rw [hfound] at hlast
    obtain ⟨hi, hitem, hlater⟩ := Grouping.of_getLast?_filter_range hlast.symm
    obtain ⟨hkey, hslot⟩ := decide_eq_true_iff.mp hitem
    refine ⟨start + i, point i, by simp [nodeOf, hfound], h.lt i hi, hkey,
      (h.slot_eq i hi).symm.trans hslot, Stands.append more (h.stands i hi ?_)⟩
    -- a later item with the same digits would have been the last one
    intro j hij hj heq
    obtain ⟨habove, hdigit⟩ := (digitsFrom_eq_iff _ _ level).mp heq
    have hnot := decide_eq_false_iff_not.mp (hlater j hij hj)
    apply hnot
    refine ⟨habove.trans hkey, ?_⟩
    rw [h.slot_eq j hj, hdigit, ← h.slot_eq i hi, hslot]

/-- What a loop makes of its items is the next level. -/
theorem Items.built (h : Items points buffer level start n point slot)
    (hlength : buffer.length = ∑ j ∈ Finset.Ico 1 (level + 1), (prefixes points j).card) :
    Built points (level + 1) buffer.length
      (Level.ofGroups points.data (level + 1) buffer point (fun i => (start + i + 1) % 2 ^ 32)
        (Grouping.groups (fun i => (points.data (point i)).digitsFrom (level + 1)) slot
          (List.range n))) := by
  have hgrouped := h.grouped
  have hkeys := h.toFinset_keys hgrouped
  generalize Grouping.groups (fun i => (points.data (point i)).digitsFrom (level + 1)) slot
    (List.range n) = groups at hgrouped hkeys ⊢
  have hincreasing : (groups.map fun group =>
      (points.data (point group.first)).digitsFrom (level + 1)).Pairwise (· < ·) :=
    List.pairwise_map.mpr hgrouped.increasing
  refine ⟨?_, hlength, ?_, ?_, ?_, ?_, ?_, ?_⟩
  · simp [Level.ofGroups]
  · rw [← hkeys, List.toFinset_card_of_nodup (hincreasing.imp fun hlt => ne_of_lt hlt)]
    simp [Level.ofGroups]
  · intro m hm
    obtain ⟨group, hgroup, rfl⟩ := List.mem_map.mp hm
    exact h.lt _ (List.mem_range.mp (hgrouped.first_mem group hgroup))
  · exact List.pairwise_map.mpr hgrouped.increasing
  · intro m hm
    obtain ⟨i, hi, hkey⟩ := h.covered m hm
    obtain ⟨group, hgroup, hfirst⟩ := hgrouped.covered i (List.mem_range.mpr hi)
    exact ⟨point group.first, List.mem_map.mpr ⟨group, hgroup, rfl⟩,
      hfirst.trans (digitsFrom_congr (Nat.le_succ level) hkey)⟩
  · intro i hi
    have hgroups : i < groups.length := by simpa [Level.ofGroups] using hi
    have hmapped : i < (groups.map fun group => point group.first).length := by
      simpa using hgroups
    have hleft : (groups.map fun group => point group.first)[i] = point groups[i].first :=
      List.getElem_map ..
    have hrank := Grouping.card_filter_lt_getElem hincreasing (t := i) (by simpa using hgroups)
    rw [hkeys, List.getElem_map] at hrank
    simp only [Level.ofGroups, hleft]
    refine ⟨?_, nodeOf points.data (level + 1) point (fun i => (start + i + 1) % 2 ^ 32)
      groups[i], ?_, fun digit _ => ?_⟩
    · rw [nodeNumber, hrank, hlength]
    · rw [List.getElem?_append_right (Nat.le_add_right _ _), Nat.add_sub_cancel_left]
      simp [hgroups]
    · exact h.table hgrouped (List.getElem_mem hgroups) _ rfl
  · intro i hi
    have hgroups : i < groups.length := by simpa [Level.ofGroups] using hi
    simp [Level.ofGroups, List.getD_eq_getElem?_getD, hgroups, nodeOf]

end Build

/-! ### The tree that is built -/

theorem Built.length_le {level start : ℕ} {st : Level} (h : Built points level start st) :
    st.left.length ≤ points.num := by
  rw [h.card_eq]
  exact Finset.card_image_le.trans (Finset.card_range _).le

theorem Built.length_pos {level start : ℕ} {st : Level} (h : Built points level start st)
    (hnum : 0 < points.num) : 0 < st.left.length := by
  obtain ⟨n, hn, -⟩ := h.covered 0 hnum
  exact List.length_pos_of_mem hn

/-- The tree as it is handed on when a level is complete. -/
def treeOf (st : Level) (level : ℕ) : ZOrderTreeIPv4 :=
  { buffer := st.buffer, bufferSize := st.buffer.length, maxLevel := level }

/-- The first loop makes the lowest level. -/
theorem exists_built_one (hnum : points.num < 2 ^ 32) :
    ∃ st, Built points 1 0 st ∧
      ∀ fuel, loop32 points.num (buildTreeBody points) fuel 0 { buffer := [], left := [] } =
        if points.num < fuel then some st else none := by
  have hitems : Items points [] 0 0 points.num id _ := items_points
  refine ⟨_, hitems.built (by simp), fun fuel => ?_⟩
  rw [loop32_eq hnum]
  congr 2
  apply foldl_place points.data 1 [] id
  intro i _ groups
  simp [buildTreeBody]

/-- A call of `buildTreeLevel` makes a level and goes on to the next one. -/
theorem Built.next {level start : ℕ} {st : Level} (h : Built points level start st)
    (hnum : points.num < 2 ^ 32) (hpos : 0 < points.num) (hone : 1 ≤ level)
    (hlevel : level < 24) :
    ∃ next, Built points (level + 1) st.buffer.length next ∧
      ∀ fuel, buildTreeLevel points (fuel + 1) st.left start (level + 1) (treeOf st level) =
        if st.left.length < fuel then
          buildTreeLevel points fuel next.left st.buffer.length (level + 2)
            (treeOf next (level + 1))
        else none := by
  have hlength : st.buffer.length =
      ∑ j ∈ Finset.Ico 1 (level + 1), (prefixes points j).card := by
    rw [Finset.sum_Ico_succ_top hone, ← h.start_eq, ← h.card_eq, h.length_eq]
  refine ⟨_, h.items.built hlength, fun fuel => ?_⟩
  have hshort : st.left.length < 2 ^ 32 := h.length_le.trans_lt hnum
  have hnonempty : st.left.length ≠ 0 := (h.length_pos hpos).ne'
  have hloop := foldl_place points.data (level + 1) st.buffer (st.left.getD · 0)
    (fun i => (st.buffer.getD (start + i) default).digit) (fun i => (start + i + 1) % 2 ^ 32)
    (buildTreeLevelBody points st.left start st.buffer.length (level + 1)) st.left.length
    fun i hi groups => by
      have hold : start + i < st.buffer.length := by
        rw [h.length_eq]
        exact Nat.add_lt_add_left hi start
      simp [buildTreeLevelBody, Level.ofGroups, List.getD_eq_getElem?_getD,
        List.getElem?_append_left hold]
  rw [buildTreeLevel, if_neg (by omega), if_neg hnonempty]
  simp only [treeOf]
  rw [loop32_eq hshort, hloop]
  split_ifs
  · rfl
  · rfl

/-- The levels are built up to the root. -/
theorem Built.of_buildTreeLevel {level start : ℕ} {st : Level} {fuel : ℕ}
    {tree : ZOrderTreeIPv4} (h : Built points level start st) (hnum : points.num < 2 ^ 32)
    (hpos : 0 < points.num) (hone : 1 ≤ level) (hlevel : level ≤ 24)
    (hbuild : buildTreeLevel points fuel st.left start (level + 1) (treeOf st level) =
      some tree) :
    ∃ root start', Built points 24 start' root ∧ tree = treeOf root 24 := by
  induction fuel generalizing level start st with
  | zero => cases hbuild
  | succ fuel ih =>
    rcases hlevel.lt_or_eq with hlt | rfl
    · obtain ⟨next, hnext, hstep⟩ := h.next hnum hpos hone hlt
      rw [hstep] at hbuild
      split_ifs at hbuild
      exact ih hnext (Nat.le_add_left 1 level) hlt hbuild
    · cases hbuild
      exact ⟨st, start, h, rfl⟩

/-- Enough fuel for the levels that are left. -/
theorem Built.exists_buildTreeLevel {level start : ℕ} {st : Level} {fuel : ℕ}
    (h : Built points level start st) (hnum : points.num < 2 ^ 32) (hpos : 0 < points.num)
    (hone : 1 ≤ level) (hlevel : level ≤ 24) (hfuel : points.num + (25 - level) < fuel) :
    ∃ tree, buildTreeLevel points fuel st.left start (level + 1) (treeOf st level) =
      some tree := by
  induction fuel generalizing level start st with
  | zero => exact absurd hfuel (Nat.not_lt_zero _)
  | succ fuel ih =>
    rcases hlevel.lt_or_eq with hlt | rfl
    · obtain ⟨next, hnext, hstep⟩ := h.next hnum hpos hone hlt
      have hle := h.length_le
      rw [hstep, if_pos (by omega)]
      exact ih hnext (Nat.le_add_left 1 level) hlt (by omega)
    · exact ⟨treeOf st 24, rfl⟩

theorem buildTree_of_empty (hnum : points.num = 0) (fuel : ℕ) {tree : ZOrderTreeIPv4}
    (h : buildTree points fuel = some tree) : tree.bufferSize = 0 := by
  cases fuel with
  | zero => cases h
  | succ fuel =>
    have hloop : loop32 points.num (buildTreeBody points) (fuel + 1) 0
        { buffer := [], left := [] } = some { buffer := [], left := [] } := by
      rw [loop32, if_neg (by omega)]
    rw [buildTree, hloop] at h
    cases h
    rfl

/-- `buildTree` comes to its end if and only if its counter does not wrap around. -/
theorem exists_buildTree_iff :
    (∃ fuel tree, buildTree points fuel = some tree) ↔ points.num < 2 ^ 32 := by
  constructor
  · rintro ⟨fuel, tree, h⟩
    by_contra hnum
    rw [buildTree, loop32_eq_none (Nat.not_lt.mp hnum) fuel (Nat.two_pow_pos 32)] at h
    cases h
  · intro hnum
    obtain ⟨st, hst, hloop⟩ := exists_built_one hnum
    have hfuel : points.num < points.num + 25 := Nat.lt_add_of_pos_right (by decide)
    refine ⟨points.num + 25, ?_⟩
    rw [buildTree, hloop, if_pos hfuel]
    rcases Nat.eq_zero_or_pos points.num with hzero | hpos
    · have hnil : st.left.length = 0 := Nat.le_zero.mp (hst.length_le.trans hzero.le)
      refine ⟨treeOf st 1, ?_⟩
      rw [Option.bind_some, buildTreeLevel, if_neg (by decide), if_pos hnil]
      rfl
    · have hlevels : points.num + (25 - 1) < points.num + 25 := by omega
      obtain ⟨tree, htree⟩ := hst.exists_buildTreeLevel hnum hpos le_rfl (by decide) hlevels
      exact ⟨_, congrArg (Option.map _) htree⟩

/-- The root of the tree stands for all digits. -/
theorem buildTree_stands {fuel : ℕ} {tree : ZOrderTreeIPv4}
    (h : buildTree points fuel = some tree) (hpos : 0 < points.num) :
    tree.bufferSize ≠ 0 ∧ tree.maxLevel = 24 ∧
      ∃ m, Stands points tree.buffer 24 (tree.bufferSize - 1) m := by
  have hnum := exists_buildTree_iff.mp ⟨fuel, tree, h⟩
  obtain ⟨st, hst, hloop⟩ := exists_built_one hnum
  have hfuel : points.num < fuel := by
    by_contra hle
    rw [buildTree, hloop, if_neg hle] at h
    cases h
  rw [buildTree, hloop, if_pos hfuel] at h
  obtain ⟨last, hlevels, rfl⟩ := Option.map_eq_some_iff.mp h
  obtain ⟨root, start, hroot, rfl⟩ := hst.of_buildTreeLevel hnum hpos le_rfl (by decide) hlevels
  have hone : root.left.length = 1 := by
    refine le_antisymm ?_ (hroot.length_pos hpos)
    rw [hroot.card_eq, Finset.card_le_one]
    intro key hkey other hother
    obtain ⟨m, -, rfl⟩ := Finset.mem_image.mp hkey
    obtain ⟨n, -, rfl⟩ := Finset.mem_image.mp hother
    rw [digitsFrom_top, digitsFrom_top]
  have hsize : root.buffer.length = start + 1 := by rw [hroot.length_eq, hone]
  refine ⟨?_, rfl, root.left[0], ?_⟩
  · simp [treeOf, hsize]
  · have hstands := hroot.stands 0 (by omega)
    simpa [treeOf, hsize] using hstands

end ZOrderTreeIPv4

end TrafficDatabase
