import Mathlib.Algebra.Group.Action.Defs
import Mathlib.Algebra.Order.BigOperators.Group.Finset
import TrafficDatabase.Index.ZOrderTree

/-!
# Rectangle queries

`search` of `zOrderTree.hpp` goes down the tree and follows an entry of a table if the two
digits of its coordinates lie between the digits of the bounds on this level.  So what it
finds are the points all of whose digits lie between those of the bounds, of several points
with one code the last (`searchNode_finds`).  That is not what lies in the rectangle: a number
between two others need not have its digits between theirs.  The digits end at 48 bits, where
the bounds go on.

`search_iff` says for which points and rectangles the answer is right.
-/

namespace TrafficDatabase

open ZOrderIPv4

/-- The bounds, or one digit of each of them. -/
structure Board where
  xMin : ℕ
  yMin : ℕ
  xMax : ℕ
  yMax : ℕ

/-- A rectangle. -/
structure Rectangle extends Board where
  x_le : xMin ≤ xMax
  y_le : yMin ≤ yMax
  xMax_lt : xMax < 2 ^ 64
  yMax_lt : yMax < 2 ^ 64

namespace ZOrderTreeIPv4

def isInRectangle (x y : ℕ) (board : Board) : Bool :=
  board.xMin ≤ x ∧ x ≤ board.xMax ∧ board.yMin ≤ y ∧ y ≤ board.yMax

/-- `board_pre`. -/
def boardPrefix (board : Board) (level : ℕ) : Board :=
  { xMin := getPrefix level board.xMin
    yMin := getPrefix level board.yMin
    xMax := getPrefix level board.xMax
    yMax := getPrefix level board.yMax }

section Search

variable (buffer : List ZOrderTreeNode) (board : Board)

/-- The loop over the table of a node; `next` is what is done with an entry. -/
def searchTable (next : ℕ → List ℕ) (level nodeOffset : ℕ) : List ℕ :=
  (List.range 16).flatMap fun i =>
    let offset := (buffer.getD nodeOffset default).offsets i
    if offset = 0 then []
    else
      let (x, y) := decodeZOrder i
      if !isInRectangle x y (boardPrefix board level) then [] else next (offset - 1)

def searchNode : ℕ → ℕ → List ℕ
  | 0, nodeOffset => searchTable buffer board (fun found => [found]) 0 nodeOffset
  | level + 1, nodeOffset =>
    searchTable buffer board (searchNode level) (level + 1) nodeOffset

end Search

def search (tree : ZOrderTreeIPv4) (board : Board) : List ℕ :=
  if tree.bufferSize = 0 then []
  else searchNode tree.buffer board (tree.maxLevel - 1) (tree.bufferSize - 1)

/-! ### What is found -/

/-- A point of the rectangle. -/
def InRectangle (board : Board) (z : ZOrderIPv4) : Prop := isInRectangle z.x z.y board = true

instance (board : Board) (z : ZOrderIPv4) : Decidable (InRectangle board z) :=
  inferInstanceAs (Decidable (_ = true))

/-- The digits of a point on one level lie between those of the bounds. -/
def DigitInRectangle (board : Board) (level : ℕ) (z : ZOrderIPv4) : Prop :=
  isInRectangle (getPrefix level z.x) (getPrefix level z.y) (boardPrefix board level) = true

instance (board : Board) (level : ℕ) (z : ZOrderIPv4) :
    Decidable (DigitInRectangle board level z) :=
  inferInstanceAs (Decidable (_ = true))

variable (points : SortedPoints) (board : Board)

/-- No entry that the search follows is cut to 32 bits. -/
def PointersFit : Prop :=
  ∀ level < 24, 1 ≤ level → ∀ m < points.num,
    (∀ j < 24, level ≤ j → DigitInRectangle board j (points.data m)) →
      nodeNumber points level m + 1 < 2 ^ 32

/-- A list of the last points with their codes that agree with point `n` from `level` on and
have their lower digits between those of the bounds. -/
structure Finds (level n : ℕ) (found : List ℕ) : Prop where
  nodup : found.Nodup
  mem_iff : ∀ m, m ∈ found ↔ m < points.num ∧
    (points.data m).digitsFrom level = (points.data n).digitsFrom level ∧
    (∀ j < level, DigitInRectangle board j (points.data m)) ∧ IsLast points m

variable {points board}

/-- An entry on the way of the search is the place of a node, or of a point, plus one. -/
theorem offset_eq (hnum : points.num < 2 ^ 32) (hfit : PointersFit points board)
    {buffer : List ZOrderTreeNode} {level child n : ℕ} (hlevel : level < 24) (hn : n < points.num)
    (hstands : Stands points buffer level child n)
    (hdigits : ∀ j < 24, level ≤ j → DigitInRectangle board j (points.data n)) :
    (child + 1) % 2 ^ 32 = child + 1 := by
  cases level with
  | zero =>
    obtain ⟨hchild, -⟩ := hstands
    exact Nat.mod_eq_of_lt (Nat.succ_le_of_lt hchild |>.trans_lt hnum)
  | succ level =>
    obtain ⟨rfl, -⟩ := hstands
    exact Nat.mod_eq_of_lt (hfit (level + 1) hlevel (Nat.le_add_left 1 level) n hn hdigits)

/-- The digit of an entry decides as the digits of the points below it do. -/
theorem digitInRectangle_iff {level : ℕ} (hlevel : level < 24) (z : ZOrderIPv4) :
    DigitInRectangle board level z ↔
      isInRectangle (decodeZOrder (z.getSuffix level)).1 (decodeZOrder (z.getSuffix level)).2
        (boardPrefix board level) = true := by
  rw [decodeZOrder_getSuffix z hlevel]
  exact Iff.rfl

theorem digitInRectangle_congr {level j : ℕ} {z other : ZOrderIPv4} (hj : j < 24)
    (hle : level ≤ j) (h : z.digitsFrom level = other.digitsFrom level)
    (hz : DigitInRectangle board j z) : DigitInRectangle board j other := by
  have hsuffix : z.getSuffix j = other.getSuffix j := by
    rw [getSuffix_eq, getSuffix_eq, digitsFrom_congr hle h]
  rw [digitInRectangle_iff hj] at hz ⊢
  rwa [← hsuffix]

section Node

variable {buffer : List ZOrderTreeNode} {next : ℕ → List ℕ} {level v z : ℕ}

/-- What the entry for one digit contributes. -/
theorem entry_finds (hnum : points.num < 2 ^ 32) (hfit : PointersFit points board)
    (hlevel : level < 24) (hstands : Stands points buffer (level + 1) v z)
    (habove : ∀ j < 24, level < j → DigitInRectangle board j (points.data z))
    (hnext : ∀ child n, n < points.num → Stands points buffer level child n →
      (∀ j < 24, level ≤ j → DigitInRectangle board j (points.data n)) →
        Finds points board level n (next child))
    {digit : ℕ} (hdigit : digit < 16) :
    let offset := (buffer.getD v default).offsets digit
    let found := if offset = 0 then []
      else if !isInRectangle (decodeZOrder digit).1 (decodeZOrder digit).2
        (boardPrefix board level) then [] else next (offset - 1)
    found.Nodup ∧ ∀ m, m ∈ found ↔ m < points.num ∧
      (points.data m).digitsFrom (level + 1) = (points.data z).digitsFrom (level + 1) ∧
      (points.data m).getSuffix level = digit ∧
      (∀ j < level + 1, DigitInRectangle board j (points.data m)) ∧ IsLast points m := by
  obtain ⟨-, node, hnode, hdigits⟩ := hstands
  have hget : buffer.getD v default = node := by
    rw [List.getD_eq_getElem?_getD, hnode, Option.getD_some]
  rw [hget]
  rcases hdigits digit hdigit with
    ⟨hzero, hnone⟩ | ⟨child, n, hoffset, hn, hkey, hsuffix, hchild⟩
  -- no entry: no point has the digit
  · simp only [hzero, if_true]
    refine ⟨List.nodup_nil, fun m => ⟨fun hm => absurd hm List.not_mem_nil, ?_⟩⟩
    rintro ⟨hm, hdigitsFrom, hdigit, -⟩
    exact absurd hdigit (hnone m hm hdigitsFrom)
  · by_cases hin : isInRectangle (decodeZOrder digit).1 (decodeZOrder digit).2
        (boardPrefix board level) = true
    · -- the entry is followed, so it is not cut
      have hhere : DigitInRectangle board level (points.data n) := by
        rw [digitInRectangle_iff hlevel, hsuffix]
        exact hin
      have hdown : ∀ j < 24, level ≤ j → DigitInRectangle board j (points.data n) := by
        intro j hj hle
        rcases hle.lt_or_eq with hlt | rfl
        · exact digitInRectangle_congr hj hlt hkey.symm (habove j hj hlt)
        · exact hhere
      have hvalue := hoffset.trans (offset_eq hnum hfit hlevel hn hchild hdown)
      have hfinds := hnext child n hn hchild hdown
      simp only [hvalue, hin, Nat.succ_ne_zero, if_false, Bool.not_true, Bool.false_eq_true,
        Nat.add_sub_cancel]
      refine ⟨hfinds.nodup, fun m => (hfinds.mem_iff m).trans ?_⟩
      rw [digitsFrom_eq_iff, hkey, hsuffix]
      constructor
      · rintro ⟨hm, ⟨hdigitsFrom, hdigit⟩, hlower, hlast⟩
        refine ⟨hm, hdigitsFrom, hdigit, fun j hj => ?_, hlast⟩
        rcases (Nat.lt_succ_iff.mp hj).lt_or_eq with hlt | rfl
        · exact hlower j hlt
        · rw [digitInRectangle_iff hlevel, hdigit]
          exact hin
      · rintro ⟨hm, hdigitsFrom, hdigit, hlower, hlast⟩
        exact ⟨hm, ⟨hdigitsFrom, hdigit⟩, fun j hj => hlower j (Nat.lt_succ_of_lt hj), hlast⟩
    -- the entry is cut: its points are outside at this digit
    · have hout := Bool.eq_false_iff.mpr hin
      simp only [hout, Bool.not_false, if_true, ite_self]
      refine ⟨List.nodup_nil, fun m => ⟨fun hm => absurd hm List.not_mem_nil, ?_⟩⟩
      rintro ⟨-, -, hdigit, hlower, -⟩
      have hm := (digitInRectangle_iff hlevel _).mp (hlower level (Nat.lt_succ_self level))
      rw [hdigit] at hm
      exact absurd hm hin

/-- The loop over a table finds what the entries contribute. -/
theorem searchTable_finds (hnum : points.num < 2 ^ 32) (hfit : PointersFit points board)
    (hlevel : level < 24) (hstands : Stands points buffer (level + 1) v z)
    (habove : ∀ j < 24, level < j → DigitInRectangle board j (points.data z))
    (hnext : ∀ child n, n < points.num → Stands points buffer level child n →
      (∀ j < 24, level ≤ j → DigitInRectangle board j (points.data n)) →
        Finds points board level n (next child)) :
    Finds points board (level + 1) z (searchTable buffer board next level v) := by
  have hentry := fun digit (hdigit : digit ∈ List.range 16) =>
    entry_finds hnum hfit hlevel hstands habove hnext (List.mem_range.mp hdigit)
  constructor
  · refine List.nodup_flatMap.mpr ⟨fun digit hdigit => (hentry digit hdigit).1, ?_⟩
    refine (List.nodup_range (n := 16)).imp_of_mem ?_
    intro digit other hdigit hother hne m hm hm'
    obtain ⟨-, -, hsuffix, -⟩ := ((hentry digit hdigit).2 m).mp hm
    obtain ⟨-, -, hsuffix', -⟩ := ((hentry other hother).2 m).mp hm'
    exact hne (hsuffix.symm.trans hsuffix')
  · intro m
    rw [searchTable, List.mem_flatMap]
    constructor
    · rintro ⟨digit, hdigit, hm⟩
      obtain ⟨hlt, hkey, -, hrest⟩ := ((hentry digit hdigit).2 m).mp hm
      exact ⟨hlt, hkey, hrest⟩
    · rintro ⟨hlt, hkey, hrest⟩
      have hdigit := List.mem_range.mpr ((points.data m).getSuffix_lt level)
      exact ⟨_, hdigit, ((hentry _ hdigit).2 m).mpr ⟨hlt, hkey, rfl, hrest⟩⟩

/-- By induction on the level, what the search finds below a node. -/
theorem searchNode_finds (hnum : points.num < 2 ^ 32) (hfit : PointersFit points board)
    (hlevel : level < 24) (hstands : Stands points buffer (level + 1) v z)
    (habove : ∀ j < 24, level < j → DigitInRectangle board j (points.data z)) :
    Finds points board (level + 1) z (searchNode buffer board level v) := by
  induction level generalizing v z with
  | zero =>
    apply searchTable_finds hnum hfit hlevel hstands habove
    rintro child n - ⟨hlt, hdata, hlast⟩ -
    refine ⟨List.nodup_singleton child, fun m => ?_⟩
    rw [List.mem_singleton, digitsFrom_zero, digitsFrom_zero, code_inj, ← hdata]
    constructor
    · rintro rfl
      exact ⟨hlt, rfl, fun j hj => absurd hj (Nat.not_lt_zero j), hlast⟩
    · rintro ⟨hm, heq, -, hlast'⟩
      -- of two points with one code only one is the last
      rcases Nat.lt_trichotomy m child with hmc | rfl | hcm
      · exact absurd heq.symm (hlast' child hlt hmc)
      · rfl
      · exact absurd heq (hlast m hm hcm)
  | succ level ih =>
    apply searchTable_finds hnum hfit hlevel hstands habove
    intro child n _ hchild hdown
    exact ih (Nat.lt_of_succ_lt hlevel) hchild fun j hj hlt => hdown j hj hlt

end Node

/-- The result of a query. -/
theorem mem_search (hfit : PointersFit points board) {fuel : ℕ} {tree : ZOrderTreeIPv4}
    (h : buildTree points fuel = some tree) :
    (search tree board).Nodup ∧ ∀ m, m ∈ search tree board ↔
      m < points.num ∧ (∀ level < 24, DigitInRectangle board level (points.data m)) ∧
        IsLast points m := by
  have hnum := exists_buildTree_iff.mp ⟨fuel, tree, h⟩
  rcases Nat.eq_zero_or_pos points.num with hzero | hpos
  · rw [search, if_pos (buildTree_of_empty hzero fuel h)]
    simp [hzero]
  · obtain ⟨hsize, hlevel, root, hroot⟩ := buildTree_stands h hpos
    have hfinds := searchNode_finds hnum hfit (by decide) hroot
      fun j hj hlt => absurd hj (by omega)
    rw [search, if_neg hsize, hlevel]
    refine ⟨hfinds.nodup, fun m => (hfinds.mem_iff m).trans ?_⟩
    rw [digitsFrom_top, digitsFrom_top]
    simp

/-- With fewer points than this all entries fit. -/
theorem pointersFit_of_num_le (hnum : 24 * points.num < 2 ^ 32) : PointersFit points board := by
  intro level hlevel hone m hm _
  have hcard : ∀ j, (prefixes points j).card ≤ points.num := fun j =>
    Finset.card_image_le.trans (Finset.card_range _).le
  have hlower : ∑ j ∈ Finset.Ico 1 level, (prefixes points j).card ≤ (level - 1) * points.num := by
    have hsum := Finset.sum_le_card_nsmul (Finset.Ico 1 level)
      (fun j => (prefixes points j).card) points.num fun j _ => hcard j
    rwa [Nat.card_Ico, smul_eq_mul] at hsum
  have hsame : ((prefixes points level).filter
      (· < (points.data m).digitsFrom level)).card ≤ points.num :=
    (Finset.card_filter_le _ _).trans (hcard level)
  have hlevels : (level - 1) * points.num ≤ 22 * points.num :=
    Nat.mul_le_mul_right _ (by omega)
  have hpos : 0 < points.num := Nat.zero_lt_of_lt hm
  unfold nodeNumber
  omega

/-! ### The answer -/

/-- The tree is built and the query returns the indices of the points in the rectangle. -/
def Answers (points : SortedPoints) (rectangle : Rectangle) : Prop :=
  ∃ fuel tree, buildTree points fuel = some tree ∧ (search tree rectangle.toBoard).Perm
    ((List.range points.num).filter fun m =>
      InRectangle rectangle.toBoard (points.data m))

/-- The points of the rectangle are the last ones with their codes whose digits lie between
the digits of the bounds. -/
def DigitsDecide (points : SortedPoints) (rectangle : Rectangle) : Prop :=
  ∀ m < points.num, InRectangle rectangle.toBoard (points.data m) ↔
    (∀ level < 24, DigitInRectangle rectangle.toBoard level (points.data m)) ∧ IsLast points m

variable {rectangle : Rectangle}

/-- Numbers whose digits lie between those of bounds of 48 bits lie between the bounds. -/
theorem inRectangle_of_digits (hx : board.xMin < 2 ^ 48) (hy : board.yMin < 2 ^ 48)
    {z : ZOrderIPv4} (h : ∀ level < 24, DigitInRectangle board level z) : InRectangle board z := by
  have hpow : (2 : ℕ) ^ 48 = 4 ^ 24 := rfl
  have hbetween := fun level hlevel => decide_eq_true_iff.mp (h level hlevel)
  refine decide_eq_true_iff.mpr ⟨?_, ?_, ?_, ?_⟩
  · exact le_of_getPrefix_le (hpow ▸ hx) fun level hlevel => (hbetween level hlevel).1
  · exact le_of_getPrefix_le (hpow ▸ z.x_lt) fun level hlevel => (hbetween level hlevel).2.1
  · exact le_of_getPrefix_le (hpow ▸ hy) fun level hlevel => (hbetween level hlevel).2.2.1
  · exact le_of_getPrefix_le (hpow ▸ z.y_lt) fun level hlevel => (hbetween level hlevel).2.2.2

/-- With bounds of 48 bits nothing outside the rectangle is found. -/
theorem digitsDecide_iff_of_lt (hx : rectangle.xMin < 2 ^ 48) (hy : rectangle.yMin < 2 ^ 48) :
    DigitsDecide points rectangle ↔
      ∀ m < points.num, InRectangle rectangle.toBoard (points.data m) →
        (∀ level < 24, DigitInRectangle rectangle.toBoard level (points.data m)) ∧
          IsLast points m := by
  constructor
  · intro h m hm
    exact (h m hm).mp
  · intro h m hm
    exact ⟨h m hm, fun hdigits => inRectangle_of_digits hx hy hdigits.1⟩

theorem answers_iff_digitsDecide (hnum : points.num < 2 ^ 32)
    (hfit : PointersFit points rectangle.toBoard) :
    Answers points rectangle ↔ DigitsDecide points rectangle := by
  have hwanted : ((List.range points.num).filter fun m =>
      InRectangle rectangle.toBoard (points.data m)).Nodup := List.nodup_range.filter _
  constructor
  · rintro ⟨fuel, tree, hbuild, hperm⟩ m hm
    have hmem := hperm.mem_iff (a := m)
    rw [(mem_search hfit hbuild).2, List.mem_filter, List.mem_range, decide_eq_true_iff] at hmem
    constructor
    · intro hin
      exact (hmem.mpr ⟨hm, hin⟩).2
    · intro hdigits
      exact (hmem.mp ⟨hm, hdigits⟩).2
  · intro hdecide
    obtain ⟨fuel, tree, hbuild⟩ := exists_buildTree_iff.mpr hnum
    obtain ⟨hnodup, hmem⟩ := mem_search hfit hbuild
    refine ⟨fuel, tree, hbuild, (List.perm_ext_iff_of_nodup hnodup hwanted).mpr fun m => ?_⟩
    rw [hmem, List.mem_filter, List.mem_range, decide_eq_true_iff]
    exact and_congr_right fun hm => (hdecide m hm).symm

/-- The answer is right if the array has fewer than 2^32 points, no entry that is followed is
cut, and the digits decide.  With more points `buildTree` does not end; and as long as
no entry is cut, the answer is right only if the digits decide. -/
theorem search_iff (points : SortedPoints) (rectangle : Rectangle) :
    (points.num < 2 ^ 32 ∧ PointersFit points rectangle.toBoard ∧
        DigitsDecide points rectangle → Answers points rectangle) ∧
      (Answers points rectangle → points.num < 2 ^ 32 ∧
        (PointersFit points rectangle.toBoard → DigitsDecide points rectangle)) := by
  constructor
  · rintro ⟨hnum, hfit, hdecide⟩
    exact (answers_iff_digitsDecide hnum hfit).mpr hdecide
  · intro hanswers
    obtain ⟨fuel, tree, hbuild, -⟩ := id hanswers
    have hnum := exists_buildTree_iff.mp ⟨fuel, tree, hbuild⟩
    exact ⟨hnum, fun hfit => (answers_iff_digitsDecide hnum hfit).mp hanswers⟩

/-! ### Examples -/

instance (points : SortedPoints) (m : ℕ) : Decidable (IsLast points m) :=
  inferInstanceAs (Decidable (∀ _ < _, _ → _))

instance (points : SortedPoints) (rectangle : Rectangle) :
    Decidable (DigitsDecide points rectangle) :=
  inferInstanceAs (Decidable (∀ _ < _, _))

/-- A code with addresses of zero. -/
def ofLow (low : UInt32) : ZOrderIPv4 where
  low := low.toNat
  mid := 0
  high := 0
  low_lt := low.toNat_lt
  mid_lt := Nat.two_pow_pos 32
  high_lt := Nat.two_pow_pos 32

/-- The points (0, 0), (1, 1), (3, 2) and (16, 0). -/
def fourCodes (i : ℕ) : ZOrderIPv4 := ofLow ([0, 3, 14, 512].getD i 0)

theorem fourCodes_sorted : ∀ i j, i < j → j < 4 → (fourCodes j).less (fourCodes i) = false := by
  have h : ∀ j < 4, ∀ i < j, (fourCodes j).less (fourCodes i) = false := by decide
  exact fun i j hij hj => h j hj i hij

def fourPoints : SortedPoints where
  data := fourCodes
  num := 4
  num_lt := Nat.le_of_ble_eq_true rfl
  sorted := fourCodes_sorted

def smallSquare : Rectangle where
  xMin := 0
  yMin := 0
  xMax := 15
  yMax := 3
  x_le := Nat.zero_le 15
  y_le := Nat.zero_le 3
  xMax_lt := Nat.le_of_ble_eq_true rfl
  yMax_lt := Nat.le_of_ble_eq_true rfl

theorem search_iff_smallSquare : Answers fourPoints smallSquare :=
  (search_iff fourPoints smallSquare).1
    ⟨by decide, pointersFit_of_num_le (by decide), by decide⟩

/-- The point (0, 0), one or two times. -/
def origins (num : UInt64) : SortedPoints where
  data := fun _ => ofLow 0
  num := num.toNat
  num_lt := num.toNat_lt
  sorted := fun _ _ _ _ => rfl

/-- The point (3, 0). -/
def threeZero : SortedPoints where
  data := fun _ => ofLow 10
  num := 1
  num_lt := Nat.le_of_ble_eq_true rfl
  sorted := fun _ _ _ _ => rfl

/-- A rectangle without height between two values of `x`. -/
def segment (a b : UInt64) : Rectangle where
  xMin := min a.toNat b.toNat
  yMin := 0
  xMax := max a.toNat b.toNat
  yMax := 0
  x_le := min_le_max
  y_le := Nat.le_refl 0
  xMax_lt := max_lt a.toNat_lt b.toNat_lt
  yMax_lt := Nat.two_pow_pos 64

/-- Of two points with one code one is found; `3` lies between `0` and `4`, but its lowest digit
does not; and `2 ^ 48` has the digits of `0`. -/
theorem rectangle_misanswered :
    ¬ Answers (origins 2) (segment 0 0) ∧ ¬ Answers threeZero (segment 0 4) ∧
      ¬ Answers (origins 1) (segment 281474976710656 281474976710656) := by
  refine ⟨fun h => ?_, fun h => ?_, fun h => ?_⟩
  · have hdecide := (answers_iff_digitsDecide (by decide) (pointersFit_of_num_le (by decide))).mp h
    exact absurd hdecide (by decide)
  · have hdecide := (answers_iff_digitsDecide (by decide) (pointersFit_of_num_le (by decide))).mp h
    exact absurd hdecide (by decide)
  · have hdecide := (answers_iff_digitsDecide (by decide) (pointersFit_of_num_le (by decide))).mp h
    exact absurd hdecide (by decide)

end ZOrderTreeIPv4

end TrafficDatabase
