import TrafficDatabase.Index.SkipList

/-!
# IPv6 addresses as numbers

An `IPv6Address` is two 64-bit halves.  Its operators are those of the number of
128 bits they make: `operator>>` divides it, the comparisons compare it, and
the 16 bytes of the address in memory are its digits.
-/

namespace TrafficDatabase

namespace IPv6Address

/-- `operator==`. -/
def eq (ip other : IPv6Address) : Bool := decide (ip.high = other.high ∧ ip.low = other.low)

/-- `operator!=`. -/
def ne (ip other : IPv6Address) : Bool := !ip.eq other

/-- `operator<=`. -/
def le (ip other : IPv6Address) : Bool := !ip.gt other

/-- `operator>=`. -/
def ge (ip other : IPv6Address) : Bool := !ip.lt other

/-- The halves are 64-bit numbers. -/
def Valid (ip : IPv6Address) : Prop := ip.low < 2 ^ 64 ∧ ip.high < 2 ^ 64

instance (ip : IPv6Address) : Decidable ip.Valid := inferInstanceAs (Decidable (_ ∧ _))

/-- The address as a number of 128 bits. -/
def value (ip : IPv6Address) : ℕ := ip.high * 2 ^ 64 + ip.low

theorem valid_shiftRight {ip : IPv6Address} (h : ip.Valid) (shift : ℕ) :
    (ip.shiftRight shift).Valid := by
  obtain ⟨hlow, hhigh⟩ := h
  have hle : ∀ n, ip.high >>> n < 2 ^ 64 := fun n =>
    (Nat.shiftRight_le _ _).trans_lt hhigh
  unfold shiftRight
  split_ifs
  · exact ⟨hlow, hhigh⟩
  · refine ⟨Nat.or_lt_two_pow ((Nat.shiftRight_le _ _).trans_lt hlow) ?_, hle _⟩
    exact Nat.mod_lt _ (Nat.two_pow_pos 64)
  · exact ⟨hle _, Nat.two_pow_pos 64⟩
  · exact ⟨Nat.two_pow_pos 64, Nat.two_pow_pos 64⟩

/-- `operator>>` divides the number. -/
theorem value_shiftRight {ip : IPv6Address} (h : ip.Valid) (shift : ℕ) :
    (ip.shiftRight shift).value = ip.value / 2 ^ shift := by
  obtain ⟨hlow, hhigh⟩ := h
  unfold shiftRight
  split_ifs with hzero hlt hlt'
  · rw [hzero, Nat.pow_zero, Nat.div_one]
  · obtain ⟨rest, hrest⟩ := Nat.exists_eq_add_of_le hlt.le
    have hsub : 64 - shift = rest := by omega
    have hsplit : (2 : ℕ) ^ 64 = 2 ^ shift * 2 ^ rest := by rw [hrest, Nat.pow_add]
    have hpos : 0 < 2 ^ shift := Nat.two_pow_pos shift
    have hpart : ip.low / 2 ^ shift < 2 ^ rest := by
      rwa [Nat.div_lt_iff_lt_mul hpos, Nat.mul_comm, ← hsplit]
    -- the bits of the high half that move to the low one
    have hmoved : (ip.high * 2 ^ rest) % 2 ^ 64 = ip.high % 2 ^ shift * 2 ^ rest := by
      rw [hsplit, Nat.mul_mod_mul_right]
    simp only [value, hsub, Nat.shiftRight_eq_div_pow, Nat.shiftLeft_eq]
    rw [hmoved, or_eq_add hpart]
    calc
      ip.high / 2 ^ shift * 2 ^ 64 + (ip.low / 2 ^ shift + ip.high % 2 ^ shift * 2 ^ rest)
          = (2 ^ shift * (ip.high / 2 ^ shift) + ip.high % 2 ^ shift) * 2 ^ rest +
              ip.low / 2 ^ shift := by rw [hsplit]; ring
      _ = ip.low / 2 ^ shift + ip.high * 2 ^ rest := by rw [Nat.div_add_mod, Nat.add_comm]
      _ = (ip.low + ip.high * 2 ^ rest * 2 ^ shift) / 2 ^ shift :=
        (Nat.add_mul_div_right _ _ hpos).symm
      _ = (ip.high * 2 ^ 64 + ip.low) / 2 ^ shift := by
        rw [hsplit, Nat.mul_assoc, Nat.mul_comm (2 ^ rest), Nat.add_comm]
  · obtain ⟨rest, hrest⟩ := Nat.exists_eq_add_of_le (Nat.not_lt.mp hlt)
    have hsub : shift - 64 = rest := by omega
    have hhalf : (ip.high * 2 ^ 64 + ip.low) / 2 ^ 64 = ip.high := by omega
    simp only [value, hsub, Nat.shiftRight_eq_div_pow, Nat.zero_mul, Nat.zero_add]
    rw [hrest, Nat.pow_add, ← Nat.div_div_eq_div_mul, hhalf]
  · have hsmall : ip.value < 2 ^ shift := by
      have hpow : (2 : ℕ) ^ 128 ≤ 2 ^ shift := Nat.pow_le_pow_right (by decide) (by omega)
      unfold value
      omega
    rw [Nat.div_eq_of_lt hsmall]
    rfl

theorem value_inj {ip other : IPv6Address} (h : ip.Valid) (h' : other.Valid)
    (heq : ip.value = other.value) : ip = other := by
  obtain ⟨low, high⟩ := ip
  obtain ⟨low', high'⟩ := other
  unfold Valid at h h'
  unfold value at heq
  simp only [IPv6Address.mk.injEq]
  simp only at h h' heq
  omega

/-- Addresses that agree behind a shift agree behind every longer one. -/
theorem shiftRight_congr {ip other : IPv6Address} (h : ip.Valid) (h' : other.Valid)
    {shift longer : ℕ} (heq : ip.value / 2 ^ shift = other.value / 2 ^ shift)
    (hle : shift ≤ longer) : ip.shiftRight longer = other.shiftRight longer := by
  obtain ⟨rest, rfl⟩ := Nat.exists_eq_add_of_le hle
  apply value_inj (valid_shiftRight h _) (valid_shiftRight h' _)
  rw [value_shiftRight h, value_shiftRight h', Nat.pow_add, ← Nat.div_div_eq_div_mul,
    ← Nat.div_div_eq_div_mul, heq]

theorem valid_ofBytes (bytes : List UInt8) : (ofBytes bytes).Valid := by
  have hlt : ∀ half : List UInt8, ofLittleEndian (half.take 8) < 2 ^ 64 := by
    intro half
    refine (ofLittleEndian_lt _).trans_le ?_
    rw [show (2 : ℕ) ^ 64 = 256 ^ 8 from rfl]
    exact Nat.pow_le_pow_right (by decide) (List.length_take_le ..)
  exact ⟨hlt _, hlt _⟩

theorem lt_eq_decide {ip other : IPv6Address} (h : ip.Valid) (h' : other.Valid) :
    ip.lt other = decide (ip.value < other.value) := by
  unfold Valid at h h'
  unfold lt value
  rw [Bool.eq_iff_iff, decide_eq_true_eq]
  split_ifs with hlt hgt
  · simp only [true_iff]
    omega
  · simp only [false_iff]
    omega
  · rw [decide_eq_true_eq]
    omega

theorem gt_eq_decide {ip other : IPv6Address} (h : ip.Valid) (h' : other.Valid) :
    ip.gt other = decide (other.value < ip.value) := by
  rw [← lt_eq_decide h' h]
  rfl

theorem eq_eq_decide {ip other : IPv6Address} (h : ip.Valid) (h' : other.Valid) :
    ip.eq other = decide (ip.value = other.value) := by
  apply decide_eq_decide.mpr
  constructor
  · rintro ⟨hhigh, hlow⟩
    rw [value, value, hhigh, hlow]
  · intro hvalue
    rw [value_inj h h' hvalue]
    exact ⟨rfl, rfl⟩

theorem value_shiftRight_of_le {ip : IPv6Address} (h : ip.Valid) {shift : ℕ} (hle : 128 ≤ shift) :
    (ip.shiftRight shift).value = 0 := by
  have hlt : ip.value < 2 ^ 128 := by
    unfold Valid at h
    unfold value
    omega
  rw [value_shiftRight h]
  exact Nat.div_eq_of_lt (hlt.trans_le (Nat.pow_le_pow_right (by decide) hle))

theorem shiftRight_shiftRight {ip : IPv6Address} (h : ip.Valid) (first second : ℕ) :
    (ip.shiftRight first).shiftRight second = ip.shiftRight (first + second) := by
  have hfirst := valid_shiftRight h first
  apply value_inj (valid_shiftRight hfirst second) (valid_shiftRight h _)
  calc
    ((ip.shiftRight first).shiftRight second).value
        = (ip.shiftRight first).value / 2 ^ second := value_shiftRight hfirst second
    _ = ip.value / 2 ^ first / 2 ^ second := by rw [value_shiftRight h]
    _ = ip.value / 2 ^ (first + second) := by rw [Nat.div_div_eq_div_mul, Nat.pow_add]
    _ = (ip.shiftRight (first + second)).value := (value_shiftRight h _).symm

/-- A shift of a 64-bit number; by 64 and more it is undefined. -/
def shift64 (shifted : ℕ → ℕ → ℕ) (number shift : ℕ) : Option ℕ :=
  if shift < 64 then some (shifted number shift % 2 ^ 64) else none

/-- `operator>>` with the shifts of the halves as the language defines them. -/
def shiftRightDefined (ip : IPv6Address) (shift : ℕ) : Option IPv6Address :=
  if shift = 0 then some ip
  else if shift < 64 then do
    let fromLow ← shift64 Nat.shiftRight ip.low shift
    let fromHigh ← shift64 Nat.shiftLeft ip.high (64 - shift)
    let high ← shift64 Nat.shiftRight ip.high shift
    some { low := fromLow ||| fromHigh, high := high }
  else if shift < 128 then do
    let low ← shift64 Nat.shiftRight ip.high (shift - 64)
    some { low := low, high := 0 }
  else some { low := 0, high := 0 }

/-- No shift of a half is by 64 or more. -/
theorem shiftRightDefined_eq {ip : IPv6Address} (h : ip.Valid) (shift : ℕ) :
    ip.shiftRightDefined shift = some (ip.shiftRight shift) := by
  obtain ⟨hlow, hhigh⟩ := h
  have hmod : ∀ half < 2 ^ 64, ∀ n, Nat.shiftRight half n % 2 ^ 64 = half >>> n :=
    fun half hhalf n => Nat.mod_eq_of_lt ((Nat.shiftRight_le half n).trans_lt hhalf)
  unfold shiftRightDefined shiftRight
  split_ifs with hzero hlt hlt'
  · rfl
  · have hleft : 64 - shift < 64 := by omega
    simp only [shift64, if_pos hlt, if_pos hleft, Option.bind_eq_bind, Option.bind_some]
    rw [hmod ip.low hlow, hmod ip.high hhigh]
    rfl
  · have hright : shift - 64 < 64 := by omega
    simp only [shift64, if_pos hright, Option.bind_eq_bind, Option.bind_some]
    rw [hmod ip.high hhigh]
  · rfl

/-- The operators are those of the number of 128 bits. -/
theorem operators_of_value {ip other : IPv6Address} (h : ip.Valid) (h' : other.Valid)
    (first second : ℕ) :
    (ip.lt other = decide (ip.value < other.value) ∧ ip.gt other = decide (ip.value > other.value) ∧
      ip.eq other = decide (ip.value = other.value) ∧
      ip.ne other = decide (ip.value ≠ other.value) ∧
      ip.le other = decide (ip.value ≤ other.value) ∧
      ip.ge other = decide (ip.value ≥ other.value)) ∧
    ip.shiftRightDefined first = some (ip.shiftRight first) ∧
    (ip.shiftRight first).value = ip.value / 2 ^ first ∧
    (128 ≤ first → (ip.shiftRight first).value = 0) ∧
    (first + second < 2 ^ 32 →
      (ip.shiftRight first).shiftRight second = ip.shiftRight (first + second)) := by
  refine ⟨⟨lt_eq_decide h h', gt_eq_decide h h', eq_eq_decide h h', ?_, ?_, ?_⟩,
    shiftRightDefined_eq h first, value_shiftRight h first, value_shiftRight_of_le h,
    fun _ => shiftRight_shiftRight h first second⟩
  · rw [ne, eq_eq_decide h h', decide_not]
  · rw [le, gt_eq_decide h h', ← decide_not, decide_eq_decide, Nat.not_lt]
  · rw [ge, lt_eq_decide h h', ← decide_not, decide_eq_decide, Nat.not_lt]

/-- `::1:0:0:0:0` and `::ffff`. -/
theorem operators_of_value_halves :
    (IPv6Address.mk 0xffff 0).lt ⟨0, 1⟩ = true ∧
      (IPv6Address.mk 0 1).shiftRight 64 = ⟨1, 0⟩ ∧
      ((IPv6Address.mk 0 1).shiftRight 1).shiftRight 63 = ⟨1, 0⟩ := by
  have hfirst := @operators_of_value ⟨0xffff, 0⟩ ⟨0, 1⟩ (by decide) (by decide) 1 63
  have hsecond := @operators_of_value ⟨0, 1⟩ ⟨0, 1⟩ (by decide) (by decide) 1 63
  exact ⟨hfirst.1.1, rfl, hsecond.2.2.2.2 (by decide)⟩

theorem value_ofBytes {bytes : List UInt8} (h : bytes.length = 16) :
    (ofBytes bytes).value = ofLittleEndian bytes := by
  have hlow : (bytes.take 8).length = 8 := by rw [List.length_take, h]; rfl
  have hhigh : (bytes.drop 8).take 8 = bytes.drop 8 := by
    apply List.take_of_length_le
    rw [List.length_drop, h]
  have hsplit := ofLittleEndian_append (bytes.take 8) (bytes.drop 8)
  rw [List.take_append_drop, hlow] at hsplit
  rw [hsplit, value, ofBytes, hhigh, Nat.add_comm, Nat.mul_comm]
  rfl

end IPv6Address

end TrafficDatabase
