import Mathlib.Data.Nat.Bitwise
import Mathlib.Order.Basic
import Mathlib.Tactic.IntervalCases
import Mathlib.Tactic.Ring

/-!
# Z-order codes

A `ZOrderIPv4` of `zOrderTree.hpp` is a code of 96 bits in three words, with the bits of two
coordinates of 48 bits: those of `x` at the odd places, those of `y` at the even ones.
`getSuffix` reads its 24 digits of four bits, `prefixCompare` compares the digits from one
on, and `operator<` the whole code; all three are facts about the one number `code`.

A digit of the code is made of two bits of each coordinate, which `decodeZOrder` takes apart.
-/

namespace TrafficDatabase

structure ZOrderIPv4 where
  low : ℕ
  mid : ℕ
  high : ℕ
  low_lt : low < 2 ^ 32
  mid_lt : mid < 2 ^ 32
  high_lt : high < 2 ^ 32
deriving DecidableEq

namespace ZOrderIPv4

def getSuffix (z : ZOrderIPv4) (id : ℕ) : ℕ :=
  if id < 8 then z.low >>> (id * 4) &&& 15
  else if id < 16 then z.mid >>> ((id - 8) * 4) &&& 15
  else if id ≥ 24 then 0
  else z.high >>> ((id - 16) * 4) &&& 15

def prefixCompare (z other : ZOrderIPv4) (id : ℕ) : Bool :=
  if id < 8 then
    z.high = other.high ∧ z.mid = other.mid ∧ z.low ^^^ other.low < 1 <<< (id * 4)
  else if id < 16 then
    z.high = other.high ∧ z.mid ^^^ other.mid < 1 <<< ((id - 8) * 4)
  else if id ≥ 24 then true
  else z.high ^^^ other.high < 1 <<< ((id - 16) * 4)

/-- `operator<`. -/
def less (z other : ZOrderIPv4) : Bool :=
  if z.high < other.high then true
  else if z.high > other.high then false
  else if z.mid < other.mid then true
  else if z.mid > other.mid then false
  else z.low < other.low

/-- The three words as one number. -/
def code (z : ZOrderIPv4) : ℕ := z.low + 2 ^ 32 * (z.mid + 2 ^ 32 * z.high)

theorem code_lt (z : ZOrderIPv4) : z.code < 16 ^ 24 := by
  have hlow := z.low_lt
  have hmid := z.mid_lt
  have hhigh := z.high_lt
  unfold code
  omega

theorem code_inj {z other : ZOrderIPv4} : z.code = other.code ↔ z = other := by
  refine ⟨fun h => ?_, fun h => h ▸ rfl⟩
  obtain ⟨low, mid, high, hlow, hmid, hhigh⟩ := z
  obtain ⟨low', mid', high', hlow', hmid', hhigh'⟩ := other
  simp only [code] at h
  simp only [mk.injEq]
  omega

theorem less_iff (z other : ZOrderIPv4) : z.less other = true ↔ z.code < other.code := by
  have hlow := z.low_lt
  have hmid := z.mid_lt
  have hlow' := other.low_lt
  have hmid' := other.mid_lt
  unfold less code
  split_ifs
  · simp only [true_iff]
    omega
  · simp only [false_iff]
    omega
  · simp only [true_iff]
    omega
  · simp only [false_iff]
    omega
  · rw [decide_eq_true_iff]
    omega

/-! ### Digits -/

/-- The number without its first `id` digits. -/
def digitsFrom (z : ZOrderIPv4) (id : ℕ) : ℕ := z.code / 16 ^ id

theorem digitsFrom_zero (z : ZOrderIPv4) : z.digitsFrom 0 = z.code := Nat.div_one _

theorem digitsFrom_top (z : ZOrderIPv4) : z.digitsFrom 24 = 0 := Nat.div_eq_of_lt z.code_lt

theorem digitsFrom_succ (z : ZOrderIPv4) (id : ℕ) :
    z.digitsFrom (id + 1) = z.digitsFrom id / 16 := by
  unfold digitsFrom
  rw [Nat.pow_succ, Nat.div_div_eq_div_mul]

theorem digitsFrom_mono {z other : ZOrderIPv4} (h : z.code ≤ other.code) (id : ℕ) :
    z.digitsFrom id ≤ other.digitsFrom id := Nat.div_le_div_right h

/-- The digits of a number with a word of 32 bits in front, within the word. -/
theorem word_div {word id : ℕ} (hid : id ≤ 8) (rest : ℕ) :
    (word + 2 ^ 32 * rest) / 16 ^ id = word / 16 ^ id + 16 ^ (8 - id) * rest := by
  have hsplit : (2 : ℕ) ^ 32 = 16 ^ id * 16 ^ (8 - id) := by
    rw [← Nat.pow_add, Nat.add_sub_cancel' hid]
    rfl
  rw [hsplit, Nat.mul_assoc, Nat.add_mul_div_left _ _ (Nat.pow_pos (by decide))]

/-- The digits of a number with a word of 32 bits in front, behind the word. -/
theorem word_div_behind {word id : ℕ} (hword : word < 2 ^ 32) (hid : 8 ≤ id) (rest : ℕ) :
    (word + 2 ^ 32 * rest) / 16 ^ id = rest / 16 ^ (id - 8) := by
  have hsplit : 16 ^ id = 2 ^ 32 * 16 ^ (id - 8) := by
    calc 16 ^ id = 16 ^ (8 + (id - 8)) := by rw [Nat.add_sub_cancel' hid]
      _ = 2 ^ 32 * 16 ^ (id - 8) := Nat.pow_add ..
  rw [hsplit, ← Nat.div_div_eq_div_mul, Nat.add_mul_div_left _ _ (Nat.two_pow_pos 32),
    Nat.div_eq_of_lt hword, Nat.zero_add]

theorem getSuffix_word {word id : ℕ} (hid : id < 8) (rest : ℕ) :
    word >>> (id * 4) &&& 15 = (word + 2 ^ 32 * rest) / 16 ^ id % 16 := by
  obtain ⟨left, hleft⟩ : ∃ left, 8 - id = left + 1 := ⟨7 - id, by omega⟩
  calc
    word >>> (id * 4) &&& 15 = word / 2 ^ (id * 4) % 2 ^ 4 := by
      rw [Nat.shiftRight_eq_div_pow]
      exact Nat.and_two_pow_sub_one_eq_mod _ 4
    _ = word / 16 ^ id % 16 := by
      rw [Nat.mul_comm id, Nat.pow_mul]
      rfl
    _ = (word / 16 ^ id + 16 * (16 ^ left * rest)) % 16 := (Nat.add_mul_mod_self_left ..).symm
    _ = (word + 2 ^ 32 * rest) / 16 ^ id % 16 := by
      rw [word_div hid.le, hleft, Nat.pow_succ', Nat.mul_assoc]

theorem getSuffix_eq (z : ZOrderIPv4) (id : ℕ) : z.getSuffix id = z.digitsFrom id % 16 := by
  unfold getSuffix digitsFrom code
  split_ifs with hlow hmid htop
  · exact getSuffix_word hlow _
  · rw [word_div_behind z.low_lt (by omega)]
    exact getSuffix_word (by omega) _
  · have hzero : z.code / 16 ^ id = 0 :=
      Nat.div_eq_of_lt (z.code_lt.trans_le (Nat.pow_le_pow_right (by decide) htop))
    unfold code at hzero
    rw [hzero]
  · rw [word_div_behind z.low_lt (by omega), word_div_behind z.mid_lt (by omega)]
    have h : z.high >>> ((id - 16) * 4) &&& 15 = (z.high + 2 ^ 32 * 0) / 16 ^ (id - 16) % 16 :=
      getSuffix_word (by omega) 0
    rw [h, Nat.mul_zero, Nat.add_zero, Nat.sub_sub]

theorem getSuffix_lt (z : ZOrderIPv4) (id : ℕ) : z.getSuffix id < 16 := by
  rw [getSuffix_eq]
  exact Nat.mod_lt _ (by decide)

theorem digitsFrom_eq_iff (z other : ZOrderIPv4) (id : ℕ) :
    z.digitsFrom id = other.digitsFrom id ↔
      z.digitsFrom (id + 1) = other.digitsFrom (id + 1) ∧
        z.getSuffix id = other.getSuffix id := by
  rw [digitsFrom_succ, digitsFrom_succ, getSuffix_eq, getSuffix_eq]
  omega

theorem digitsFrom_congr {z other : ZOrderIPv4} {id later : ℕ} (hle : id ≤ later)
    (h : z.digitsFrom id = other.digitsFrom id) :
    z.digitsFrom later = other.digitsFrom later := by
  induction later, hle using Nat.le_induction with
  | base => exact h
  | succ later _ ih => rw [digitsFrom_succ, digitsFrom_succ, ih]

theorem xor_lt_two_pow_iff (a b n : ℕ) : a ^^^ b < 2 ^ n ↔ a / 2 ^ n = b / 2 ^ n := by
  rw [← Nat.div_eq_zero_iff_lt (Nat.two_pow_pos n), Nat.xor_div_two_pow, Nat.xor_eq_zero_iff]

/-- The comparison of one word says that its digits agree. -/
theorem prefixCompare_word {word other id rest rest' : ℕ} (hid : id < 8) (hword : word < 2 ^ 32)
    (hother : other < 2 ^ 32) :
    rest = rest' ∧ word ^^^ other < 1 <<< (id * 4) ↔
      (word + 2 ^ 32 * rest) / 16 ^ id = (other + 2 ^ 32 * rest') / 16 ^ id := by
  have hpow : 2 ^ (id * 4) = 16 ^ id := by rw [Nat.mul_comm, Nat.pow_mul]
  have hshift : 1 <<< (id * 4) = 2 ^ (id * 4) := Nat.one_shiftLeft _
  rw [hshift, xor_lt_two_pow_iff, hpow]
  constructor
  · rintro ⟨hrest, hdigits⟩
    rw [word_div hid.le, word_div hid.le, hrest, hdigits]
  · intro h
    have hrest : rest = rest' := by
      have h8 := congrArg (· / 16 ^ (8 - id)) h
      simp only [Nat.div_div_eq_div_mul, ← Nat.pow_add, Nat.add_sub_cancel' hid.le] at h8
      rwa [word_div_behind hword le_rfl, word_div_behind hother le_rfl, Nat.sub_self,
        Nat.pow_zero, Nat.div_one, Nat.div_one] at h8
    rw [word_div hid.le, word_div hid.le, hrest] at h
    exact ⟨hrest, Nat.add_right_cancel h⟩

/-- `prefixCompare` compares the digits from `id` on. -/
theorem prefixCompare_iff (z other : ZOrderIPv4) (id : ℕ) :
    z.prefixCompare other id = true ↔ z.digitsFrom id = other.digitsFrom id := by
  unfold prefixCompare digitsFrom code
  split_ifs with hlow hmid htop
  · rw [decide_eq_true_iff, ← prefixCompare_word hlow z.low_lt other.low_lt]
    have hmid := z.mid_lt
    have hmid' := other.mid_lt
    omega
  · rw [decide_eq_true_iff, word_div_behind z.low_lt (by omega),
      word_div_behind other.low_lt (by omega),
      ← prefixCompare_word (by omega) z.mid_lt other.mid_lt]
  · have hzero := Nat.div_eq_of_lt
      (z.code_lt.trans_le (Nat.pow_le_pow_right (by decide) htop))
    have hzero' := Nat.div_eq_of_lt
      (other.code_lt.trans_le (Nat.pow_le_pow_right (by decide) htop))
    unfold code at hzero hzero'
    rw [hzero, hzero']
    exact iff_of_true rfl rfl
  · have h : 0 = 0 ∧ z.high ^^^ other.high < 1 <<< ((id - 16) * 4) ↔
        (z.high + 2 ^ 32 * 0) / 16 ^ (id - 16) = (other.high + 2 ^ 32 * 0) / 16 ^ (id - 16) :=
      prefixCompare_word (by omega) z.high_lt other.high_lt
    rw [decide_eq_true_iff, word_div_behind z.low_lt (by omega),
      word_div_behind z.mid_lt (by omega), word_div_behind other.low_lt (by omega),
      word_div_behind other.mid_lt (by omega), Nat.sub_sub]
    simpa using h

/-! ### Coordinates -/

/-- The bits at the odd places. -/
def x (z : ZOrderIPv4) : ℕ := Nat.ofBits fun i : Fin 48 => z.code.testBit (2 * i + 1)

/-- The bits at the even places. -/
def y (z : ZOrderIPv4) : ℕ := Nat.ofBits fun i : Fin 48 => z.code.testBit (2 * i)

theorem x_lt (z : ZOrderIPv4) : z.x < 2 ^ 48 := Nat.ofBits_lt_two_pow _

theorem y_lt (z : ZOrderIPv4) : z.y < 2 ^ 48 := Nat.ofBits_lt_two_pow _

theorem testBit_x (z : ZOrderIPv4) {i : ℕ} (hi : i < 48) :
    z.x.testBit i = z.code.testBit (2 * i + 1) := Nat.testBit_ofBits_lt _ i hi

theorem testBit_y (z : ZOrderIPv4) {i : ℕ} (hi : i < 48) :
    z.y.testBit i = z.code.testBit (2 * i) := Nat.testBit_ofBits_lt _ i hi

/-- The two coordinates in one digit. -/
def decodeZOrder (zOrderValue : ℕ) : ℕ × ℕ :=
  (List.range 4).foldl (fun (x, y) i =>
    (x ||| (zOrderValue &&& 1 <<< (2 * i + 1)) >>> (i + 1),
      y ||| (zOrderValue &&& 1 <<< (2 * i)) >>> i)) (0, 0)

/-- A digit of a coordinate or of a bound. -/
def getPrefix (level value : ℕ) : ℕ := value >>> (level * 2) &&& 3

theorem decodeZOrder_eq : ∀ digit < 16, decodeZOrder digit =
    (digit / 2 % 2 + 2 * (digit / 8 % 2), digit % 2 + 2 * (digit / 4 % 2)) := by
  decide

theorem getPrefix_eq_mod (level value : ℕ) : getPrefix level value = value / 4 ^ level % 4 := by
  unfold getPrefix
  rw [Nat.shiftRight_eq_div_pow, Nat.mul_comm level, Nat.pow_mul]
  exact Nat.and_two_pow_sub_one_eq_mod _ 2

/-- Numbers whose digits are ordered one by one are ordered. -/
theorem le_of_getPrefix_le {a b digits : ℕ} (ha : a < 4 ^ digits)
    (h : ∀ level < digits, getPrefix level a ≤ getPrefix level b) : a ≤ b := by
  have hfrom : ∀ k ≤ digits, a / 4 ^ (digits - k) ≤ b / 4 ^ (digits - k) := by
    intro k hk
    induction k with
    | zero => rw [Nat.sub_zero, Nat.div_eq_of_lt ha]; exact Nat.zero_le _
    | succ k ih =>
      have hdigit := h (digits - (k + 1)) (by omega)
      have hrest := ih (by omega)
      have hnext : digits - k = digits - (k + 1) + 1 := by omega
      rw [hnext, Nat.pow_succ, ← Nat.div_div_eq_div_mul, ← Nat.div_div_eq_div_mul] at hrest
      rw [getPrefix_eq_mod, getPrefix_eq_mod] at hdigit
      omega
  have hall := hfrom digits le_rfl
  rwa [Nat.sub_self, Nat.pow_zero, Nat.div_one, Nat.div_one] at hall

theorem getPrefix_eq (level value : ℕ) :
    getPrefix level value =
      (value.testBit (2 * level)).toNat + 2 * (value.testBit (2 * level + 1)).toNat := by
  have hmod : ∀ n : ℕ, n % 2 ^ 2 = n % 2 + 2 * (n / 2 % 2) := by
    intro n
    omega
  calc
    getPrefix level value = value / 2 ^ (2 * level) % 2 ^ 2 := by
      rw [getPrefix_eq_mod, Nat.pow_mul]
      rfl
    _ = value / 2 ^ (2 * level) % 2 + 2 * (value / 2 ^ (2 * level + 1) % 2) := by
      rw [hmod, Nat.div_div_eq_div_mul, ← Nat.pow_succ]
    _ = _ := by rw [Nat.toNat_testBit, Nat.toNat_testBit]

theorem digit_bit (z : ZOrderIPv4) (level bit : ℕ) (hbit : bit < 4) :
    z.getSuffix level / 2 ^ bit % 2 = (z.code.testBit (4 * level + bit)).toNat := by
  have hpow : 16 ^ level * 2 ^ bit = 2 ^ (4 * level + bit) := by
    rw [Nat.pow_add, Nat.pow_mul]
  rw [Nat.toNat_testBit, ← hpow, ← Nat.div_div_eq_div_mul, getSuffix_eq]
  unfold digitsFrom
  interval_cases bit <;> omega

/-- `decodeZOrder` of a digit gives the digits of the coordinates. -/
theorem decodeZOrder_getSuffix (z : ZOrderIPv4) {level : ℕ} (hlevel : level < 24) :
    decodeZOrder (z.getSuffix level) = (getPrefix level z.x, getPrefix level z.y) := by
  have h0 := z.digit_bit level 0 (by decide)
  have h1 := z.digit_bit level 1 (by decide)
  have h2 := z.digit_bit level 2 (by decide)
  have h3 := z.digit_bit level 3 (by decide)
  simp only [Nat.reducePow, Nat.div_one, Nat.add_zero] at h0 h1 h2 h3
  have hx : 4 * level + 1 = 2 * (2 * level) + 1 := by omega
  have hx' : 4 * level + 3 = 2 * (2 * level + 1) + 1 := by omega
  have hy : 4 * level = 2 * (2 * level) := by omega
  have hy' : 4 * level + 2 = 2 * (2 * level + 1) := by omega
  rw [decodeZOrder_eq _ (z.getSuffix_lt level), getPrefix_eq, getPrefix_eq,
    testBit_x z (by omega), testBit_x z (by omega), testBit_y z (by omega),
    testBit_y z (by omega), h0, h1, h2, h3, hx, hx', hy', hy]

/-! ### The coding -/

/-- `interleaveBits` of a number of `width` bits: bit `i` goes to place `2 * i`. -/
def interleaveBits (width x : ℕ) : ℕ :=
  (List.range width).foldl
    (fun result i => result ||| ((x &&& 1 <<< i) >>> i) <<< (2 * i) % 2 ^ (2 * width)) 0

/-- `computeZOrder` of two numbers of `width` bits, in a type of twice as many. -/
def computeZOrder (width x y : ℕ) : ℕ :=
  interleaveBits width x <<< 1 % 2 ^ (2 * width) ||| interleaveBits width y

/-- `computeZOrder(uint16_t, uint16_t)`. -/
def computeZOrder16 (x y : ℕ) : ℕ := computeZOrder 16 x y

/-- `computeZOrder(uint32_t, uint32_t)`. -/
def computeZOrder32 (x y : ℕ) : ℕ := computeZOrder 32 x y

theorem testBit_place (x : ℕ) {width i : ℕ} (hi : i < width) (j : ℕ) :
    (((x &&& 1 <<< i) >>> i) <<< (2 * i) % 2 ^ (2 * width)).testBit j =
      (decide (j = 2 * i) && x.testBit i) := by
  have hone : (1 <<< i).testBit i = true := by simp [Nat.testBit_shiftLeft]
  rw [Nat.testBit_mod_two_pow, Nat.testBit_shiftLeft, Nat.testBit_shiftRight, Nat.testBit_and,
    Nat.one_shiftLeft, Nat.testBit_two_pow]
  by_cases hj : j = 2 * i
  · have hlt : 2 * i < 2 * width := by omega
    subst hj
    simp [hlt]
  · rcases Nat.lt_or_ge j (2 * i) with hlt | hge
    · simp [hj, Nat.not_le.mpr hlt]
    · have hne : j - 2 * i ≠ 0 := by omega
      simp [hj, hne]

/-- Bit by bit, the number with a zero before each bit. -/
theorem testBit_interleaveBits (width x j : ℕ) :
    (interleaveBits width x).testBit j =
      (decide (j % 2 = 0) && decide (j / 2 < width) && x.testBit (j / 2)) := by
  have hpart : ∀ n ≤ width, ((List.range n).foldl
      (fun result i => result ||| ((x &&& 1 <<< i) >>> i) <<< (2 * i) % 2 ^ (2 * width))
        0).testBit j = (decide (j % 2 = 0) && decide (j / 2 < n) && x.testBit (j / 2)) := by
    intro n hn
    induction n with
    | zero => simp
    | succ n ih =>
      rw [List.range_succ, List.foldl_append, List.foldl_cons, List.foldl_nil, Nat.testBit_or,
        ih (by omega), testBit_place x (by omega)]
      by_cases hj : j = 2 * n
      · subst hj
        simp
      · have hbit : decide (j % 2 = 0) = true → decide (j / 2 < n + 1) = decide (j / 2 < n) := by
          intro heven
          rw [decide_eq_true_iff] at heven
          apply decide_eq_decide.mpr
          omega
        rw [decide_eq_false hj, Bool.false_and, Bool.or_false]
        cases heven : decide (j % 2 = 0) with
        | true => rw [hbit heven]
        | false => rw [Bool.false_and, Bool.false_and, Bool.false_and, Bool.false_and]
  exact hpart width le_rfl

theorem interleaveBits_lt (width x : ℕ) : interleaveBits width x < 2 ^ (2 * width) := by
  apply Nat.lt_pow_two_of_testBit
  intro j hj
  have hout : ¬ j / 2 < width := by omega
  rw [testBit_interleaveBits]
  simp [hout]

/-- The bits of the code: those of `x` at the odd places, those of `y` at the even ones. -/
theorem testBit_computeZOrder (width x y j : ℕ) :
    (computeZOrder width x y).testBit j =
      (decide (j / 2 < width) && if j % 2 = 1 then x.testBit (j / 2) else y.testBit (j / 2)) := by
  rw [computeZOrder, Nat.testBit_or, Nat.testBit_mod_two_pow, Nat.testBit_shiftLeft,
    testBit_interleaveBits, testBit_interleaveBits]
  rcases Nat.mod_two_eq_zero_or_one j with heven | hodd
  · by_cases hj : 1 ≤ j
    · have hprev : (j - 1) % 2 ≠ 0 := by omega
      simp [heven, hprev]
    · simp [heven, hj]
  · have hj : 1 ≤ j := by omega
    have hprev : (j - 1) % 2 = 0 := by omega
    have hhalf : (j - 1) / 2 = j / 2 := by omega
    have hlt : decide (j < 2 * width) = decide (j / 2 < width) := by
      apply decide_eq_decide.mpr
      omega
    simp [hodd, hj, hprev, hhalf, hlt]

theorem computeZOrder_lt (width x y : ℕ) : computeZOrder width x y < 2 ^ (2 * width) :=
  Nat.or_lt_two_pow (Nat.mod_lt _ (Nat.two_pow_pos _)) (interleaveBits_lt width y)

theorem testBit_computeZOrder_odd {width i : ℕ} (hi : i < width) (x y : ℕ) :
    (computeZOrder width x y).testBit (2 * i + 1) = x.testBit i := by
  have hodd : (2 * i + 1) % 2 = 1 := by omega
  have hhalf : (2 * i + 1) / 2 = i := by omega
  rw [testBit_computeZOrder, hodd, hhalf, decide_eq_true hi, Bool.true_and, if_pos rfl]

theorem testBit_computeZOrder_even {width i : ℕ} (hi : i < width) (x y : ℕ) :
    (computeZOrder width x y).testBit (2 * i) = y.testBit i := by
  have heven : ¬ 2 * i % 2 = 1 := by omega
  have hhalf : 2 * i / 2 = i := by omega
  rw [testBit_computeZOrder, hhalf, decide_eq_true hi, Bool.true_and, if_neg heven]

/-- Numbers of `width` bits with the same bits are the same. -/
theorem eq_of_testBit_lt {width x x' : ℕ} (hx : x < 2 ^ width) (hx' : x' < 2 ^ width)
    (h : ∀ i < width, x.testBit i = x'.testBit i) : x = x' := by
  apply Nat.eq_of_testBit_eq
  intro i
  by_cases hi : i < width
  · exact h i hi
  · have hpow : 2 ^ width ≤ 2 ^ i := Nat.pow_le_pow_right (by decide) (by omega)
    rw [Nat.testBit_lt_two_pow (hx.trans_le hpow), Nat.testBit_lt_two_pow (hx'.trans_le hpow)]

theorem computeZOrder_inj {width x y x' y' : ℕ} (hx : x < 2 ^ width) (hy : y < 2 ^ width)
    (hx' : x' < 2 ^ width) (hy' : y' < 2 ^ width)
    (h : computeZOrder width x y = computeZOrder width x' y') : x = x' ∧ y = y' := by
  constructor
  · apply eq_of_testBit_lt hx hx'
    intro i hi
    rw [← testBit_computeZOrder_odd hi x y, h, testBit_computeZOrder_odd hi]
  · apply eq_of_testBit_lt hy hy'
    intro i hi
    rw [← testBit_computeZOrder_even hi x y, h, testBit_computeZOrder_even hi]

/-- The highest bit in which two numbers differ belongs to the greater one. -/
theorem exists_highest_bit {width x x' : ℕ} (hx' : x' < 2 ^ width) (h : x < x') :
    ∃ i < width, x.testBit i = false ∧ x'.testBit i = true ∧
      ∀ j, i < j → x.testBit j = x'.testBit j := by
  have hne : x ^^^ x' ≠ 0 := by
    rw [Ne, Nat.xor_eq_zero_iff]
    exact h.ne
  obtain ⟨i, hi, habove⟩ := Nat.exists_most_significant_bit hne
  have hsame : ∀ j, i < j → x.testBit j = x'.testBit j := by
    intro j hj
    have hxor := habove j hj
    rw [Nat.testBit_xor] at hxor
    simpa using hxor
  have hbits : x.testBit i = false ∧ x'.testBit i = true := by
    rw [Nat.testBit_xor] at hi
    cases hbit : x.testBit i with
    | false => simpa [hbit] using hi
    | true =>
      have hbit' : x'.testBit i = false := by simpa [hbit] using hi
      exact absurd (Nat.lt_of_testBit i hbit' hbit fun j hj => (hsame j hj).symm) h.not_gt
  refine ⟨i, ?_, hbits.1, hbits.2, hsame⟩
  by_contra hout
  have hpow : 2 ^ width ≤ 2 ^ i := Nat.pow_le_pow_right (by decide) (by omega)
  rw [Nat.testBit_lt_two_pow (hx'.trans_le hpow)] at hbits
  exact Bool.false_ne_true hbits.2

/-- A greater `x` alone makes the code greater: the highest bit in which the two differ is
also the highest bit in which the codes do. -/
theorem computeZOrder_lt_left {width x x' : ℕ} (hx' : x' < 2 ^ width) (h : x < x') (y : ℕ) :
    computeZOrder width x y < computeZOrder width x' y := by
  obtain ⟨i, hi, hbit, hbit', habove⟩ := exists_highest_bit hx' h
  apply Nat.lt_of_testBit (2 * i + 1)
  · rw [testBit_computeZOrder_odd hi, hbit]
  · rw [testBit_computeZOrder_odd hi, hbit']
  · intro j hj
    rw [testBit_computeZOrder, testBit_computeZOrder, habove (j / 2) (by omega)]

theorem computeZOrder_lt_right {width y y' : ℕ} (hy' : y' < 2 ^ width) (h : y < y') (x : ℕ) :
    computeZOrder width x y < computeZOrder width x y' := by
  obtain ⟨i, hi, hbit, hbit', habove⟩ := exists_highest_bit hy' h
  apply Nat.lt_of_testBit (2 * i)
  · rw [testBit_computeZOrder_even hi, hbit]
  · rw [testBit_computeZOrder_even hi, hbit']
  · intro j hj
    rw [testBit_computeZOrder, testBit_computeZOrder]
    -- the odd place right above belongs to `x`
    by_cases hodd : j % 2 = 1
    · rw [if_pos hodd, if_pos hodd]
    · rw [if_neg hodd, if_neg hodd, habove (j / 2) (by omega)]

theorem computeZOrder_le {width x y x' y' : ℕ} (hx' : x' < 2 ^ width) (hy' : y' < 2 ^ width)
    (hx : x ≤ x') (hy : y ≤ y') : computeZOrder width x y ≤ computeZOrder width x' y' :=
  calc
    computeZOrder width x y ≤ computeZOrder width x' y := by
      rcases hx.eq_or_lt with rfl | hlt
      · exact le_rfl
      · exact (computeZOrder_lt_left hx' hlt y).le
    _ ≤ computeZOrder width x' y' := by
      rcases hy.eq_or_lt with rfl | hlt
      · exact le_rfl
      · exact (computeZOrder_lt_right hy' hlt x').le

/-- The code of a point and its place among the codes of a rectangle, for numbers of `width`
bits. -/
structure FaithfulOn (width : ℕ) (coding : ℕ → ℕ → ℕ) : Prop where
  bits : ∀ x < 2 ^ width, ∀ y < 2 ^ width, coding x y < 2 ^ (2 * width) ∧
    ∀ i < width, (coding x y).testBit (2 * i + 1) = x.testBit i ∧
      (coding x y).testBit (2 * i) = y.testBit i
  injective : ∀ x < 2 ^ width, ∀ y < 2 ^ width, ∀ x' < 2 ^ width, ∀ y' < 2 ^ width,
    coding x y = coding x' y' → x = x' ∧ y = y'
  monotone : ∀ x' < 2 ^ width, ∀ y' < 2 ^ width, ∀ x ≤ x', ∀ y ≤ y', coding x y ≤ coding x' y'
  corners : ∀ left right lower upper, right < 2 ^ width → upper < 2 ^ width →
    ∀ x, left ≤ x → x ≤ right → ∀ y, lower ≤ y → y ≤ upper →
      coding left lower ≤ coding x y ∧ coding x y ≤ coding right upper

theorem computeZOrder_faithful (width : ℕ) : FaithfulOn width (computeZOrder width) where
  bits := fun x _ y _ => ⟨computeZOrder_lt width x y, fun _ hi =>
    ⟨testBit_computeZOrder_odd hi x y, testBit_computeZOrder_even hi x y⟩⟩
  injective := fun _ hx _ hy _ hx' _ hy' h => computeZOrder_inj hx hy hx' hy' h
  monotone := fun _ hx' _ hy' _ hx _ hy => computeZOrder_le hx' hy' hx hy
  corners := fun _ _ _ _ hright hupper _ hleft hx _ hlower hy =>
    ⟨computeZOrder_le (hx.trans_lt hright) (hy.trans_lt hupper) hleft hlower,
      computeZOrder_le hright hupper hx hy⟩

/-! ### The code of a packet -/

/-- The constructor: the ports are coded in the low word, the addresses in the other two. -/
def ofMeta (sourcePort destinationPort : UInt16) (sourceAddress destinationAddress : UInt32) :
    ZOrderIPv4 where
  low := computeZOrder16 sourcePort.toNat destinationPort.toNat
  mid := computeZOrder32 sourceAddress.toNat destinationAddress.toNat &&& 0xffffffff
  high := computeZOrder32 sourceAddress.toNat destinationAddress.toNat >>> 32
  low_lt := computeZOrder_lt 16 _ _
  mid_lt := Nat.and_lt_two_pow _ (by decide)
  high_lt := by
    rw [Nat.shiftRight_eq_div_pow]
    exact Nat.div_lt_of_lt_mul (computeZOrder_lt 32 _ _)

theorem code_ofMeta (sourcePort destinationPort : UInt16)
    (sourceAddress destinationAddress : UInt32) :
    (ofMeta sourcePort destinationPort sourceAddress destinationAddress).code =
      2 ^ 32 * computeZOrder32 sourceAddress.toNat destinationAddress.toNat +
        computeZOrder16 sourcePort.toNat destinationPort.toNat := by
  have hmid : computeZOrder32 sourceAddress.toNat destinationAddress.toNat &&& 0xffffffff =
      computeZOrder32 sourceAddress.toNat destinationAddress.toNat % 2 ^ 32 :=
    Nat.and_two_pow_sub_one_eq_mod _ 32
  simp only [code, ofMeta, hmid, Nat.shiftRight_eq_div_pow]
  omega

theorem testBit_code_ofMeta (sourcePort destinationPort : UInt16)
    (sourceAddress destinationAddress : UInt32) (j : ℕ) :
    (ofMeta sourcePort destinationPort sourceAddress destinationAddress).code.testBit j =
      if j < 32 then (computeZOrder16 sourcePort.toNat destinationPort.toNat).testBit j
      else (computeZOrder32 sourceAddress.toNat destinationAddress.toNat).testBit (j - 32) := by
  rw [code_ofMeta]
  exact Nat.testBit_two_pow_mul_add _ (computeZOrder_lt 16 _ _) j

/-- The coordinate `x` of a packet is its source, the address before the port. -/
theorem x_ofMeta (sourcePort destinationPort : UInt16)
    (sourceAddress destinationAddress : UInt32) :
    (ofMeta sourcePort destinationPort sourceAddress destinationAddress).x =
      2 ^ 16 * sourceAddress.toNat + sourcePort.toNat := by
  have haddress := sourceAddress.toNat_lt
  have hport := sourcePort.toNat_lt
  have hlt : 2 ^ 16 * sourceAddress.toNat + sourcePort.toNat < 2 ^ 48 := by omega
  apply eq_of_testBit_lt (x_lt _) hlt
  intro i hi
  rw [testBit_x _ hi, testBit_code_ofMeta, Nat.testBit_two_pow_mul_add _ hport]
  by_cases hlow : i < 16
  · have hword : 2 * i + 1 < 32 := by omega
    rw [if_pos hword, if_pos hlow]
    exact testBit_computeZOrder_odd hlow _ _
  · have hword : ¬ 2 * i + 1 < 32 := by omega
    have hplace : 2 * i + 1 - 32 = 2 * (i - 16) + 1 := by omega
    rw [if_neg hword, if_neg hlow, hplace]
    exact testBit_computeZOrder_odd (by omega) _ _

/-- The coordinate `y` of a packet is its destination. -/
theorem y_ofMeta (sourcePort destinationPort : UInt16)
    (sourceAddress destinationAddress : UInt32) :
    (ofMeta sourcePort destinationPort sourceAddress destinationAddress).y =
      2 ^ 16 * destinationAddress.toNat + destinationPort.toNat := by
  have haddress := destinationAddress.toNat_lt
  have hport := destinationPort.toNat_lt
  have hlt : 2 ^ 16 * destinationAddress.toNat + destinationPort.toNat < 2 ^ 48 := by omega
  apply eq_of_testBit_lt (y_lt _) hlt
  intro i hi
  rw [testBit_y _ hi, testBit_code_ofMeta, Nat.testBit_two_pow_mul_add _ hport]
  by_cases hlow : i < 16
  · have hword : 2 * i < 32 := by omega
    rw [if_pos hword, if_pos hlow]
    exact testBit_computeZOrder_even hlow _ _
  · have hword : ¬ 2 * i < 32 := by omega
    have hplace : 2 * i - 32 = 2 * (i - 16) := by omega
    rw [if_neg hword, if_neg hlow, hplace]
    exact testBit_computeZOrder_even (by omega) _ _

/-- The digits from `id` on are those of `getSuffix`. -/
theorem digitsFrom_eq_iff_getSuffix (z other : ZOrderIPv4) (id : ℕ) :
    z.digitsFrom id = other.digitsFrom id ↔
      ∀ k, id ≤ k → k < 24 → z.getSuffix k = other.getSuffix k := by
  constructor
  · intro h k hk _
    rw [getSuffix_eq, getSuffix_eq, digitsFrom_congr hk h]
  · -- from the digit behind the last one down to `id`
    intro h
    have hdown : ∀ left ≤ 24, ∀ k, id ≤ k → k + left = 24 →
        z.digitsFrom k = other.digitsFrom k := by
      intro left _
      induction left with
      | zero =>
        intro k _ hk
        obtain rfl : k = 24 := hk
        rw [digitsFrom_top, digitsFrom_top]
      | succ left ih =>
        intro k hid hk
        exact (digitsFrom_eq_iff z other k).mpr
          ⟨ih (by omega) (k + 1) (by omega) (by omega), h k hid (by omega)⟩
    rcases Nat.le_total id 24 with hid | hid
    · exact hdown (24 - id) (by omega) id le_rfl (by omega)
    · have htop : z.digitsFrom 24 = other.digitsFrom 24 := by
        rw [digitsFrom_top, digitsFrom_top]
      exact digitsFrom_congr hid htop

/-- Codes of both widths are faithful and keep the order, and `prefixCompare` says that all
digits from one on agree. -/
theorem zOrder_faithful :
    FaithfulOn 16 computeZOrder16 ∧ FaithfulOn 32 computeZOrder32 ∧
      ∀ (z other : ZOrderIPv4) (id : ℕ), z.prefixCompare other id = true ↔
        ∀ k, id ≤ k → k < 24 → z.getSuffix k = other.getSuffix k :=
  ⟨computeZOrder_faithful 16, computeZOrder_faithful 32, fun z other id =>
    (prefixCompare_iff z other id).trans (digitsFrom_eq_iff_getSuffix z other id)⟩

end ZOrderIPv4

end TrafficDatabase
