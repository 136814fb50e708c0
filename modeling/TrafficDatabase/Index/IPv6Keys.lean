import TrafficDatabase.Data.DPDKReader
import TrafficDatabase.Index.IPv6Address

/-!
# The keys of IPv6 packets

`getFlowMetaData` turns each half of an IPv6 address into a number by
`swap_endianness`.  Four of its masks are off, so that the number does not have
the bytes of the address in network order: from the highest one on it has the
bytes 6, 7, 2, none, 6, none, 6 and 7 of the half (`swappedHalf_eq`).

Keys then compare as six bytes of the addresses do (`keptBytes`), and a key
starts with the bytes of its address only where the missing bytes are the
repeated ones (`HalfKept`).
-/

namespace TrafficDatabase

/-! ## The number of a half -/

theorem toNat_swapEndianness (value : UInt64) : (swapEndianness value).toNat =
    value.toNat / 2 ^ 56 % 256 + value.toNat / 2 ^ 48 % 256 * 2 ^ 8 +
      value.toNat / 2 ^ 48 % 256 * 2 ^ 24 + value.toNat / 2 ^ 16 % 256 * 2 ^ 40 +
        value.toNat / 2 ^ 56 % 256 * 2 ^ 48 + value.toNat / 2 ^ 48 % 256 * 2 ^ 56 := by
  have hlt := value.toNat_lt
  unfold swapEndianness
  simp only [UInt64.toNat_or, UInt64.toNat_and, UInt64.toNat_shiftRight, UInt64.toNat_shiftLeft]
  generalize value.toNat = v at *
  simp only [UInt64.reduceToNat, Nat.reduceMod, Nat.shiftRight_eq_div_pow, Nat.shiftLeft_eq]
  show (v / 2 ^ 56 &&& 255 * 2 ^ 0) ||| (v / 2 ^ 40 &&& 255 * 2 ^ 8) |||
    (v / 2 ^ 24 &&& 255 * 2 ^ 24) ||| (v / 2 ^ 8 &&& 255 * 2 ^ 48) |||
    (v * 2 ^ 8 % 2 ^ 64 &&& 255 * 2 ^ 56) ||| (v * 2 ^ 24 % 2 ^ 64 &&& 255 * 2 ^ 40) |||
    (v * 2 ^ 40 % 2 ^ 64 &&& 255 * 2 ^ 32) ||| (v * 2 ^ 56 % 2 ^ 64 &&& 255 * 2 ^ 0) = _
  simp only [and_byteMask]
  -- each term is one byte of the value; the last two masks meet zeros only
  have hbytes : v / 2 ^ 40 / 2 ^ 8 % 256 = v / 2 ^ 48 % 256 ∧
      v / 2 ^ 24 / 2 ^ 24 % 256 = v / 2 ^ 48 % 256 ∧ v / 2 ^ 8 / 2 ^ 48 % 256 = v / 2 ^ 56 % 256 ∧
      v * 2 ^ 8 % 2 ^ 64 / 2 ^ 56 % 256 = v / 2 ^ 48 % 256 ∧
      v * 2 ^ 24 % 2 ^ 64 / 2 ^ 40 % 256 = v / 2 ^ 16 % 256 ∧
      v * 2 ^ 40 % 2 ^ 64 / 2 ^ 32 % 256 = 0 ∧ v * 2 ^ 56 % 2 ^ 64 / 2 ^ 0 % 256 = 0 := by
    omega
  obtain ⟨h1, h2, h3, h4, h5, h6, h7⟩ := hbytes
  rw [h1, h2, h3, h4, h5, h6, h7]
  have hlt2 : v / 2 ^ 16 % 256 < 256 := Nat.mod_lt _ (by decide)
  have hlt6 : v / 2 ^ 48 % 256 < 256 := Nat.mod_lt _ (by decide)
  have hlt7 : v / 2 ^ 56 % 256 < 256 := Nat.mod_lt _ (by decide)
  simp only [Nat.pow_zero, Nat.div_one, Nat.mul_one, Nat.zero_mul, Nat.or_zero]
  generalize v / 2 ^ 16 % 256 = b2 at *
  generalize v / 2 ^ 48 % 256 = b6 at *
  generalize v / 2 ^ 56 % 256 = b7 at *
  have horder : b7 ||| b6 * 2 ^ 8 ||| b6 * 2 ^ 24 ||| b7 * 2 ^ 48 ||| b6 * 2 ^ 56 |||
      b2 * 2 ^ 40 = b7 ||| b6 * 2 ^ 8 ||| b6 * 2 ^ 24 ||| b2 * 2 ^ 40 ||| b7 * 2 ^ 48 |||
      b6 * 2 ^ 56 := by
    ac_rfl
  rw [horder, @or_eq_add b7 b6 8 (by omega), @or_eq_add _ b6 24 (by omega),
    @or_eq_add _ b2 40 (by omega), @or_eq_add _ b7 48 (by omega), @or_eq_add _ b6 56 (by omega)]

namespace DPDKReader

/-- The stored half, lowest byte first. -/
theorem swappedHalf_eq (data : Memory) (addr : ℕ) : swappedHalf data addr =
    [data (addr + 7), data (addr + 6), 0, data (addr + 6), 0, data (addr + 2), data (addr + 7),
      data (addr + 6)] := by
  have hlt := ofLittleEndian_lt (data.read addr 8)
  rw [Memory.length_read, show 256 ^ 8 = 2 ^ 64 from rfl] at hlt
  have hvalue : (UInt64.ofNat (ofLittleEndian (data.read addr 8))).toNat =
      ofLittleEndian (data.read addr 8) := by
    rw [UInt64.toNat_ofNat', Nat.mod_eq_of_lt hlt]
  have hdigit : ∀ i < 8, ofLittleEndian (data.read addr 8) / 256 ^ i % 256 =
      (data (addr + i)).toNat := by
    intro i hi
    have hi' : i < (data.read addr 8).length := by rwa [Memory.length_read]
    rw [ofLittleEndian_digit hi', Memory.getElem_read]
  have hnumber : (swapEndianness (UInt64.ofNat (ofLittleEndian (data.read addr 8)))).toNat =
      ofLittleEndian [data (addr + 7), data (addr + 6), 0, data (addr + 6), 0, data (addr + 2),
        data (addr + 7), data (addr + 6)] := by
    have h2 : _ / 2 ^ 16 % 256 = _ := hdigit 2 (by decide)
    have h6 : _ / 2 ^ 48 % 256 = _ := hdigit 6 (by decide)
    have h7 : _ / 2 ^ 56 % 256 = _ := hdigit 7 (by decide)
    rw [toNat_swapEndianness, hvalue, h2, h6, h7]
    simp only [ofLittleEndian, UInt8.toNat_zero]
    ring
  rw [swappedHalf, hnumber]
  exact toLittleEndian_ofLittleEndian [data (addr + 7), data (addr + 6), 0, data (addr + 6), 0,
    data (addr + 2), data (addr + 7), data (addr + 6)]

/-- The string stored for the address at `addr`: the low half, then the high one. -/
def ipv6Key (data : Memory) (addr : ℕ) : List UInt8 :=
  swappedHalf data (addr + 8) ++ swappedHalf data addr

@[simp] theorem length_ipv6Key (data : Memory) (addr : ℕ) : (ipv6Key data addr).length = 16 := by
  simp [ipv6Key, swappedHalf]

/-- The stored address, highest byte first. -/
theorem reverse_ipv6Key (data : Memory) (addr : ℕ) : (ipv6Key data addr).reverse =
    [data (addr + 6), data (addr + 7), data (addr + 2), 0, data (addr + 6), 0, data (addr + 6),
      data (addr + 7), data (addr + 14), data (addr + 15), data (addr + 10), 0, data (addr + 14), 0,
      data (addr + 14), data (addr + 15)] := by
  rw [ipv6Key, swappedHalf_eq, swappedHalf_eq]
  rfl

end DPDKReader

/-! ## The order of the keys -/

/-- Addresses in memory compare from their last byte on. -/
theorem IPv6Address.ofBytes_lt_iff {key other : List UInt8} (h : key.length = 16)
    (h' : other.length = 16) :
    (ofBytes key).lt (ofBytes other) = true ↔ key.reverse < other.reverse := by
  rw [lt_eq_decide (valid_ofBytes key) (valid_ofBytes other), decide_eq_true_eq, value_ofBytes h,
    value_ofBytes h', ofLittleEndian_lt_iff (h.trans h'.symm)]

namespace DPDKReader

/-- Two keys compare as two lists of bytes do. -/
structure ComparesAs (first second key other : List UInt8) : Prop where
  lt_iff : (IPv6Address.ofBytes key).lt (IPv6Address.ofBytes other) = true ↔ first < second
  eq_iff : key = other ↔ first = second

/-- The bytes of the address at `addr` that the key depends on. -/
def keptBytes (data : Memory) (addr : ℕ) : List UInt8 :=
  [data (addr + 6), data (addr + 7), data (addr + 2), data (addr + 14), data (addr + 15),
    data (addr + 10)]

theorem comparesAs_keptBytes (data other : Memory) (addr otherAddr : ℕ) :
    ComparesAs (keptBytes data addr) (keptBytes other otherAddr) (ipv6Key data addr)
      (ipv6Key other otherAddr) where
  lt_iff := by
    rw [IPv6Address.ofBytes_lt_iff (length_ipv6Key ..) (length_ipv6Key ..), reverse_ipv6Key,
      reverse_ipv6Key]
    simp only [keptBytes, List.cons_lt_cons_iff, List.not_lt_nil]
    grind
  eq_iff := by
    rw [← List.reverse_inj, reverse_ipv6Key, reverse_ipv6Key]
    simp only [keptBytes, List.cons.injEq]
    tauto

/-- The bytes that the key of a half repeats or leaves out are as it has them. -/
def HalfKept (data : Memory) (addr : ℕ) : Prop :=
  data addr = data (addr + 6) ∧ data (addr + 1) = data (addr + 7) ∧ data (addr + 3) = 0 ∧
    data (addr + 4) = data (addr + 6) ∧ data (addr + 5) = 0

instance (data : Memory) (addr : ℕ) : Decidable (HalfKept data addr) :=
  inferInstanceAs (Decidable (_ ∧ _))

/-- The key is the address where the bytes of both halves are so. -/
theorem reverse_ipv6Key_eq_iff (data : Memory) (addr : ℕ) :
    (ipv6Key data addr).reverse = data.read addr 16 ↔
      HalfKept data addr ∧ HalfKept data (addr + 8) := by
  have hread : data.read addr 16 = [data addr, data (addr + 1), data (addr + 2), data (addr + 3),
      data (addr + 4), data (addr + 5), data (addr + 6), data (addr + 7), data (addr + 8),
      data (addr + 9), data (addr + 10), data (addr + 11), data (addr + 12), data (addr + 13),
      data (addr + 14), data (addr + 15)] := rfl
  rw [reverse_ipv6Key, hread]
  simp only [HalfKept, List.cons.injEq, Nat.add_assoc, Nat.reduceAdd]
  constructor
  · rintro ⟨h0, h1, -, h3, h4, h5, -, -, h8, h9, -, h11, h12, h13, -⟩
    exact ⟨⟨h0.symm, h1.symm, h3.symm, h4.symm, h5.symm⟩,
      h8.symm, h9.symm, h11.symm, h12.symm, h13.symm⟩
  · rintro ⟨⟨h0, h1, h3, h4, h5⟩, h8, h9, h11, h12, h13⟩
    exact ⟨h0.symm, h1.symm, trivial, h3.symm, h4.symm, h5.symm, trivial, trivial, h8.symm,
      h9.symm, trivial, h11.symm, h12.symm, h13.symm, trivial⟩

/-- Two keys compare as their addresses do, and each starts, from its highest
byte on, with every prefix of its address. -/
structure KeysFollow (address otherAddress key other : List UInt8) : Prop
    extends ComparesAs address otherAddress key other where
  prefix_eq : ∀ p ≤ 16, key.reverse.take p = address.take p
  other_prefix_eq : ∀ p ≤ 16, other.reverse.take p = otherAddress.take p

theorem keysFollow_iff (data other : Memory) (addr otherAddr : ℕ) :
    KeysFollow (data.read addr 16) (other.read otherAddr 16) (ipv6Key data addr)
        (ipv6Key other otherAddr) ↔
      (HalfKept data addr ∧ HalfKept data (addr + 8)) ∧
        HalfKept other otherAddr ∧ HalfKept other (otherAddr + 8) := by
  rw [← reverse_ipv6Key_eq_iff, ← reverse_ipv6Key_eq_iff]
  have hfull : ∀ (memory : Memory) (start : ℕ),
      (∀ p ≤ 16, (ipv6Key memory start).reverse.take p = (memory.read start 16).take p) →
        (ipv6Key memory start).reverse = memory.read start 16 := by
    intro memory start hprefix
    have h := hprefix 16 le_rfl
    rwa [List.take_of_length_le (by simp), List.take_of_length_le (by simp)] at h
  constructor
  · intro h
    exact ⟨hfull data addr h.prefix_eq, hfull other otherAddr h.other_prefix_eq⟩
  · rintro ⟨hkey, hother⟩
    refine ⟨⟨?_, ?_⟩, fun p _ => by rw [hkey], fun p _ => by rw [hother]⟩
    · rw [IPv6Address.ofBytes_lt_iff (length_ipv6Key ..) (length_ipv6Key ..), hkey, hother]
    · rw [← List.reverse_inj, hkey, hother]

variable (cfg : ReaderConfig)

/-- The version field says 6. -/
def IsIPv6 (packet : PacketMeta) : Prop := (packet.data cfg.ethHeaderLen).toNat / 16 = 6

instance (packet : PacketMeta) : Decidable (IsIPv6 cfg packet) :=
  inferInstanceAs (Decidable (_ = _))

def ipv6Source (packet : PacketMeta) : List UInt8 := packet.data.read (cfg.ethHeaderLen + 8) 16

def ipv6Destination (packet : PacketMeta) : List UInt8 :=
  packet.data.read (cfg.ethHeaderLen + 24) 16

variable {cfg}

theorem getFlowMetaData_of_isIPv6 {packet : PacketMeta} (h : IsIPv6 cfg packet) :
    (getFlowMetaData cfg packet).sourceAddress = ipv6Key packet.data (cfg.ethHeaderLen + 8) ∧
      (getFlowMetaData cfg packet).destinationAddress =
        ipv6Key packet.data (cfg.ethHeaderLen + 24) := by
  unfold IsIPv6 at h
  unfold getFlowMetaData
  simp only [h]
  exact ⟨rfl, rfl⟩

/-- The keys of two packets follow their addresses where all bytes that a key
repeats or leaves out are as it has them.  In every other case too they compare
as the six bytes they depend on. -/
theorem getFlowMetaData_keysFollow_iff {packet other : PacketMeta} (h : IsIPv6 cfg packet)
    (h' : IsIPv6 cfg other) :
    (KeysFollow (ipv6Source cfg packet) (ipv6Source cfg other)
          (getFlowMetaData cfg packet).sourceAddress (getFlowMetaData cfg other).sourceAddress ∧
        KeysFollow (ipv6Destination cfg packet) (ipv6Destination cfg other)
          (getFlowMetaData cfg packet).destinationAddress
          (getFlowMetaData cfg other).destinationAddress ↔
      ∀ memory ∈ [packet.data, other.data], ∀ half ∈ [8, 16, 24, 32],
        HalfKept memory (cfg.ethHeaderLen + half)) ∧
    ComparesAs (keptBytes packet.data (cfg.ethHeaderLen + 8))
      (keptBytes other.data (cfg.ethHeaderLen + 8)) (getFlowMetaData cfg packet).sourceAddress
      (getFlowMetaData cfg other).sourceAddress ∧
    ComparesAs (keptBytes packet.data (cfg.ethHeaderLen + 24))
      (keptBytes other.data (cfg.ethHeaderLen + 24)) (getFlowMetaData cfg packet).destinationAddress
      (getFlowMetaData cfg other).destinationAddress := by
  obtain ⟨hsource, hdestination⟩ := getFlowMetaData_of_isIPv6 h
  obtain ⟨hsource', hdestination'⟩ := getFlowMetaData_of_isIPv6 h'
  rw [hsource, hdestination, hsource', hdestination']
  refine ⟨?_, comparesAs_keptBytes .., comparesAs_keptBytes ..⟩
  unfold ipv6Source ipv6Destination
  rw [keysFollow_iff, keysFollow_iff]
  simp only [List.forall_mem_cons, List.not_mem_nil, false_imp_iff, implies_true, and_true,
    Nat.add_assoc, Nat.reduceAdd]
  tauto

/-- An IPv6 packet from an address to `::`, received without an Ethernet header. -/
def ipv6PacketFrom (address : List UInt8) : PacketMeta :=
  { header := { tsH := 0, tsL := 0, caplen := 44, flowNextDiff := 2 ^ 32 - 1 }
    data := fun addr =>
      if addr = 0 then 0x60 else if 8 ≤ addr ∧ addr < 24 then address.getD (addr - 8) 0 else 0
    len := 44 }

/-- The constants of a reader without an Ethernet header. -/
def bareConfig : ReaderConfig :=
  { ethHeaderLen := 0, diskSize := 4096, blockSize := 1024, cellSize := 512 }

/-- `2001:db8::1` and `fe80:db8::1` have one key. -/
theorem keys_merged : ¬ ∀ (cfg : ReaderConfig) (packet other : PacketMeta),
    IsIPv6 cfg packet → IsIPv6 cfg other →
      KeysFollow (ipv6Source cfg packet) (ipv6Source cfg other)
          (getFlowMetaData cfg packet).sourceAddress (getFlowMetaData cfg other).sourceAddress ∧
        KeysFollow (ipv6Destination cfg packet) (ipv6Destination cfg other)
          (getFlowMetaData cfg packet).destinationAddress
          (getFlowMetaData cfg other).destinationAddress := by
  intro hall
  have h := hall bareConfig
    (ipv6PacketFrom [0x20, 0x01, 0x0d, 0xb8, 0, 0, 0, 0, 0, 0, 0, 0, 0, 0, 0, 1])
    (ipv6PacketFrom [0xfe, 0x80, 0x0d, 0xb8, 0, 0, 0, 0, 0, 0, 0, 0, 0, 0, 0, 1])
    (by decide) (by decide)
  exact absurd (h.1.eq_iff.mp (by decide)) (by decide)

/-- `102:300:100:102:0:700::` and `102:400:100:102::` are kept. -/
theorem getFlowMetaData_keysFollow_iff_repeated :
    KeysFollow (ipv6Source bareConfig (ipv6PacketFrom [1, 2, 3, 0, 1, 0, 1, 2, 0, 0, 7, 0, 0, 0]))
      (ipv6Source bareConfig (ipv6PacketFrom [1, 2, 4, 0, 1, 0, 1, 2]))
      (getFlowMetaData bareConfig
        (ipv6PacketFrom [1, 2, 3, 0, 1, 0, 1, 2, 0, 0, 7, 0, 0, 0])).sourceAddress
      (getFlowMetaData bareConfig (ipv6PacketFrom [1, 2, 4, 0, 1, 0, 1, 2])).sourceAddress :=
  ((getFlowMetaData_keysFollow_iff (by decide) (by decide)).1.mpr (by decide)).1

end DPDKReader

end TrafficDatabase
