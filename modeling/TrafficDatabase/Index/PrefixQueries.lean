import TrafficDatabase.Index.IPv6Address

/-!
# The queries for a prefix

`getIPv4` and `getIPv6` also take the number of bytes of the address that count.
The direct levels of the filter are by pairs of bytes, so that an odd length is
answered by a scan over the second byte of a pair; a hashed level is asked where
the prefix reaches it.

An address and every one that starts with the same bytes are asked for the same
rows (`bloomRows_congr`), and a longer prefix is asked for more of them.
-/

namespace TrafficDatabase

namespace PrefixBloomFilter

variable (hash : StdHash) (k : ℕ) (bm : BitMap) (filter : PrefixBloomFilter)

/-! ## The queries -/

/-- The row of a pair of bytes in a direct level. -/
def pairRow (byte next offset : ℕ) : ℕ := byte * sliceValueCount + next + offset

/-- The scan over the second byte of a pair. -/
def getAnyPair (byte offset : ℕ) : Bool :=
  (List.range sliceValueCount).any fun next =>
    bm.get (pairRow byte next offset) filter.readingCol

/-- The rows of byte `i` of an IPv4 address, which is hashed. -/
def ipv4BloomRows (ip offset i : ℕ) : List ℕ :=
  bloomRows hash k (toLittleEndian 4 (ip >>> (8 * (i + 1))))
    (offset + sliceValueCount * sliceValueCount * 2 + sliceValueCount * ipv4BloomLen * (1 - i))
    ((ip >>> (8 * i)) % 256) ipv4BloomLen

/-- The rows of byte `i` of an IPv6 address, which is hashed. -/
def ipv6BloomRows (ip : IPv6Address) (offset i : ℕ) : List ℕ :=
  bloomRows hash k (ip.shiftRight (8 * (i + 1))).toBytes
    (offset + sliceValueCount * sliceValueCount + sliceValueCount * ipv4BloomLen * (13 - i))
    ((ip.shiftRight (8 * i)).low % 256) ipv6BloomLen

/-- `checkIPv4` with a prefix length, of at most 4. -/
def checkIPv4Prefix (ip offset prefixLen : ℕ) : Bool :=
  if prefixLen = 0 then true
  else if prefixLen = 1 ∧ filter.getAnyPair bm (ip >>> 24 % 256) offset then true
  else if bm.get (pairRow (ip >>> 24 % 256) (ip >>> 16 % 256) offset) filter.readingCol = false then
    false
  else if prefixLen = 2 then true
  else if prefixLen = 3 ∧ filter.getAnyPair bm (ip >>> 8 % 256)
      (offset + sliceValueCount * sliceValueCount) = false then false
  else if prefixLen = 4 ∧ bm.get (pairRow (ip >>> 8 % 256) (ip % 256)
      (offset + sliceValueCount * sliceValueCount)) filter.readingCol = false then false
  else ([1, 0].filter fun i => 4 - prefixLen ≤ i).all fun i =>
    filter.getAll bm (ipv4BloomRows hash k ip offset i)

/-- `checkIPv6` with a prefix length, of at most 16. -/
def checkIPv6Prefix (ip : IPv6Address) (offset prefixLen : ℕ) : Bool :=
  if prefixLen = 0 then true
  else if prefixLen = 1 ∧ filter.getAnyPair bm ((ip.shiftRight 120).low % 256) offset then true
  else if bm.get (pairRow ((ip.shiftRight 120).low % 256) ((ip.shiftRight 112).low % 256) offset)
      filter.readingCol = false then false
  else if prefixLen = 2 then true
  else ((List.range 14).reverse.filter fun i => 16 - prefixLen ≤ i).all fun i =>
    filter.getAll bm (ipv6BloomRows hash k ip offset i)

/-- `getIPv4` with a prefix length. -/
def getIPv4Prefix (ip : ℕ) (type : IndexType) (prefixLen : ℕ) : Bool :=
  match type with
  | .srcip => filter.checkIPv4Prefix hash k bm ip (portBitLen * 2) prefixLen
  | .dstip => filter.checkIPv4Prefix hash k bm ip (portBitLen * 2 + ipv4BitLen) prefixLen
  | _ => false

/-- `getIPv6` with a prefix length. -/
def getIPv6Prefix (ip : IPv6Address) (type : IndexType) (prefixLen : ℕ) : Bool :=
  match type with
  | .srcipv6 =>
      filter.checkIPv6Prefix hash k bm ip (portBitLen * 2 + ipv4BitLen * 2) prefixLen
  | .dstipv6 =>
      filter.checkIPv6Prefix hash k bm ip (portBitLen * 2 + ipv4BitLen * 2 + ipv6BitLen) prefixLen
  | _ => false

/-! ## What a query asks for -/

variable {hash k bm filter} {offset prefixLen : ℕ}

theorem getAnyPair_of_get {byte next : ℕ} (hnext : next < sliceValueCount)
    (h : bm.get (pairRow byte next offset) filter.readingCol = true) :
    filter.getAnyPair bm byte offset = true :=
  List.any_eq_true.mpr ⟨next, List.mem_range.mpr hnext, h⟩

theorem checkIPv4Prefix_iff (ip : ℕ) :
    filter.checkIPv4Prefix hash k bm ip offset prefixLen = true ↔
      (prefixLen = 1 → filter.getAnyPair bm (ip >>> 24 % 256) offset = true) ∧
      (2 ≤ prefixLen →
        bm.get (pairRow (ip >>> 24 % 256) (ip >>> 16 % 256) offset) filter.readingCol = true) ∧
      (prefixLen = 3 → filter.getAnyPair bm (ip >>> 8 % 256)
        (offset + sliceValueCount * sliceValueCount) = true) ∧
      (prefixLen = 4 → bm.get (pairRow (ip >>> 8 % 256) (ip % 256)
        (offset + sliceValueCount * sliceValueCount)) filter.readingCol = true) ∧
      ∀ i < 2, 4 ≤ i + prefixLen → filter.getAll bm (ipv4BloomRows hash k ip offset i) = true := by
  -- the loop goes over the rows that the prefix reaches
  have hloop : ([1, 0].filter fun i => 4 - prefixLen ≤ i).all (fun i =>
      filter.getAll bm (ipv4BloomRows hash k ip offset i)) = true ↔
      ∀ i < 2, 4 ≤ i + prefixLen → filter.getAll bm (ipv4BloomRows hash k ip offset i) = true := by
    simp only [List.all_eq_true, List.mem_filter, decide_eq_true_eq]
    refine forall_congr' fun i => ?_
    have hmem : i ∈ [1, 0] ↔ i < 2 := by simp; omega
    rw [hmem, and_imp]
    refine imp_congr_right fun _ => ?_
    rw [Nat.sub_le_iff_le_add]
  -- a pair that is set has its first byte set
  have hfirst := @getAnyPair_of_get bm filter offset (ip >>> 24 % 256) (ip >>> 16 % 256)
    (Nat.mod_lt _ (by decide))
  unfold checkIPv4Prefix
  split_ifs with h0 h1 hpair h2 h3 h4
  · simp only [true_iff]
    exact ⟨by omega, by omega, by omega, by omega, fun i hi hle => by omega⟩
  · simp only [true_iff]
    exact ⟨fun _ => h1.2, by omega, by omega, by omega, fun i hi hle => by omega⟩
  · simp only [false_iff]
    rintro ⟨hone, htwo, -⟩
    by_cases hlen : prefixLen = 1
    · exact h1 ⟨hlen, hone hlen⟩
    · rw [htwo (by omega)] at hpair
      cases hpair
  · rw [Bool.not_eq_false] at hpair
    simp only [true_iff]
    exact ⟨by omega, fun _ => hpair, by omega, by omega, fun i hi hle => by omega⟩
  · simp only [false_iff]
    rintro ⟨-, -, hthree, -⟩
    rw [hthree h3.1] at h3
    cases h3.2
  · simp only [false_iff]
    rintro ⟨-, -, -, hfour, -⟩
    rw [hfour h4.1] at h4
    cases h4.2
  · rw [Bool.not_eq_false] at hpair
    rw [hloop]
    constructor
    · intro hall
      refine ⟨fun _ => hfirst hpair, fun _ => hpair, fun hlen => ?_, fun hlen => ?_, hall⟩
      · by_contra hnot
        exact h3 ⟨hlen, Bool.not_eq_true _ ▸ hnot⟩
      · by_contra hnot
        exact h4 ⟨hlen, Bool.not_eq_true _ ▸ hnot⟩
    · exact fun h => h.2.2.2.2

theorem checkIPv6Prefix_iff (ip : IPv6Address) :
    filter.checkIPv6Prefix hash k bm ip offset prefixLen = true ↔
      (prefixLen = 1 → filter.getAnyPair bm ((ip.shiftRight 120).low % 256) offset = true) ∧
      (2 ≤ prefixLen → bm.get (pairRow ((ip.shiftRight 120).low % 256)
        ((ip.shiftRight 112).low % 256) offset) filter.readingCol = true) ∧
      ∀ i < 14, 16 ≤ i + prefixLen →
        filter.getAll bm (ipv6BloomRows hash k ip offset i) = true := by
  have hloop : ((List.range 14).reverse.filter fun i => 16 - prefixLen ≤ i).all (fun i =>
      filter.getAll bm (ipv6BloomRows hash k ip offset i)) = true ↔
      ∀ i < 14, 16 ≤ i + prefixLen →
        filter.getAll bm (ipv6BloomRows hash k ip offset i) = true := by
    simp only [List.all_eq_true, List.mem_filter, List.mem_reverse, List.mem_range,
      decide_eq_true_eq, and_imp, Nat.sub_le_iff_le_add]
  have hfirst := @getAnyPair_of_get bm filter offset ((ip.shiftRight 120).low % 256)
    ((ip.shiftRight 112).low % 256) (Nat.mod_lt _ (by decide))
  unfold checkIPv6Prefix
  split_ifs with h0 h1 hpair h2
  · simp only [true_iff]
    exact ⟨by omega, by omega, fun i hi hle => by omega⟩
  · simp only [true_iff]
    exact ⟨fun _ => h1.2, by omega, fun i hi hle => by omega⟩
  · simp only [false_iff]
    rintro ⟨hone, htwo, -⟩
    by_cases hlen : prefixLen = 1
    · exact h1 ⟨hlen, hone hlen⟩
    · rw [htwo (by omega)] at hpair
      cases hpair
  · rw [Bool.not_eq_false] at hpair
    simp only [true_iff]
    exact ⟨by omega, fun _ => hpair, fun i hi hle => by omega⟩
  · rw [Bool.not_eq_false] at hpair
    rw [hloop]
    exact ⟨fun hall => ⟨fun _ => hfirst hpair, fun _ => hpair, hall⟩, fun h => h.2.2⟩

/-- A longer prefix is asked for all that a shorter one is. -/
theorem checkIPv4Prefix_mono {ip : ℕ} (hlen : prefixLen < 4)
    (h : filter.checkIPv4Prefix hash k bm ip offset (prefixLen + 1) = true) :
    filter.checkIPv4Prefix hash k bm ip offset prefixLen = true := by
  obtain ⟨-, hpair, -, hfour, hrows⟩ := (checkIPv4Prefix_iff ip).mp h
  refine (checkIPv4Prefix_iff ip).mpr ⟨fun hone => ?_, fun htwo => hpair (by omega),
    fun hthree => ?_, fun heq => by omega, fun i hi hle => hrows i hi (by omega)⟩
  · exact getAnyPair_of_get (Nat.mod_lt _ (by decide)) (hpair (by omega))
  · exact getAnyPair_of_get (Nat.mod_lt _ (by decide)) (hfour (by omega))

theorem checkIPv6Prefix_mono {ip : IPv6Address}
    (h : filter.checkIPv6Prefix hash k bm ip offset (prefixLen + 1) = true) :
    filter.checkIPv6Prefix hash k bm ip offset prefixLen = true := by
  obtain ⟨-, hpair, hrows⟩ := (checkIPv6Prefix_iff ip).mp h
  refine (checkIPv6Prefix_iff ip).mpr ⟨fun hone => ?_, fun htwo => hpair (by omega),
    fun i hi hle => hrows i hi (by omega)⟩
  exact getAnyPair_of_get (Nat.mod_lt _ (by decide)) (hpair (by omega))

theorem getAll_append (rows others : List ℕ) :
    filter.getAll bm (rows ++ others) = true ↔
      filter.getAll bm rows = true ∧ filter.getAll bm others = true := by
  rw [getAll, List.all_append, Bool.and_eq_true]
  rfl

theorem getAll_flatMap (indices : List ℕ) (rows : ℕ → List ℕ) :
    filter.getAll bm (indices.flatMap rows) = true ↔
      ∀ i ∈ indices, filter.getAll bm (rows i) = true := by
  rw [getAll, List.all_flatMap, List.all_eq_true]
  rfl

theorem getAll_pairRow (byte next : ℕ) : filter.getAll bm [pairRow byte next offset] = true ↔
    bm.get (pairRow byte next offset) filter.readingCol = true := by
  simp [getAll]

theorem ipv4Rows_eq (hash : StdHash) (k ip offset : ℕ) : ipv4Rows hash k ip offset =
    [pairRow (ip >>> 24 % 256) (ip >>> 16 % 256) offset] ++
      ([pairRow (ip >>> 8 % 256) (ip % 256) (offset + sliceValueCount * sliceValueCount)] ++
        [1, 0].flatMap (ipv4BloomRows hash k ip offset)) := by
  unfold ipv4Rows ipv4BloomRows pairRow
  simp only [List.cons_append, List.nil_append, Nat.add_assoc]

theorem ipv6Rows_eq (hash : StdHash) (k : ℕ) (ip : IPv6Address) (offset : ℕ) :
    ipv6Rows hash k ipv4BloomLen ip offset =
      [pairRow ((ip.shiftRight 120).low % 256) ((ip.shiftRight 112).low % 256) offset] ++
        (List.range 14).reverse.flatMap (ipv6BloomRows hash k ip offset) := rfl

/-- The whole address set: both pairs and both hashed bytes. -/
theorem getAll_ipv4Rows (ip : ℕ) : filter.getAll bm (ipv4Rows hash k ip offset) = true ↔
    bm.get (pairRow (ip >>> 24 % 256) (ip >>> 16 % 256) offset) filter.readingCol = true ∧
      bm.get (pairRow (ip >>> 8 % 256) (ip % 256)
        (offset + sliceValueCount * sliceValueCount)) filter.readingCol = true ∧
      ∀ i < 2, filter.getAll bm (ipv4BloomRows hash k ip offset i) = true := by
  have hmem : ∀ i, i ∈ [1, 0] ↔ i < 2 := by
    intro i
    simp
    omega
  rw [ipv4Rows_eq, getAll_append, getAll_append, getAll_pairRow, getAll_pairRow, getAll_flatMap]
  simp only [hmem]

theorem getAll_ipv6Rows (ip : IPv6Address) :
    filter.getAll bm (ipv6Rows hash k ipv4BloomLen ip offset) = true ↔
      bm.get (pairRow ((ip.shiftRight 120).low % 256) ((ip.shiftRight 112).low % 256) offset)
        filter.readingCol = true ∧
      ∀ i < 14, filter.getAll bm (ipv6BloomRows hash k ip offset i) = true := by
  rw [ipv6Rows_eq, getAll_append, getAll_pairRow, getAll_flatMap]
  simp only [List.mem_reverse, List.mem_range]

/-- At full length a query asks for the rows of the address. -/
theorem checkIPv4Prefix_full (ip : ℕ) : filter.checkIPv4Prefix hash k bm ip offset 4 =
    filter.getAll bm (ipv4Rows hash k ip offset) := by
  rw [Bool.eq_iff_iff, checkIPv4Prefix_iff, getAll_ipv4Rows]
  constructor
  · rintro ⟨-, hpair, -, hfour, hrows⟩
    exact ⟨hpair (by decide), hfour rfl, fun i hi => hrows i hi (by omega)⟩
  · rintro ⟨hpair, hfour, hrows⟩
    exact ⟨by omega, fun _ => hpair, by omega, fun _ => hfour, fun i hi _ => hrows i hi⟩

theorem checkIPv6Prefix_full (ip : IPv6Address) : filter.checkIPv6Prefix hash k bm ip offset 16 =
    filter.getAll bm (ipv6Rows hash k ipv4BloomLen ip offset) := by
  rw [Bool.eq_iff_iff, checkIPv6Prefix_iff, getAll_ipv6Rows]
  constructor
  · rintro ⟨-, hpair, hrows⟩
    exact ⟨hpair (by decide), fun i hi => hrows i hi (by omega)⟩
  · rintro ⟨hpair, hrows⟩
    exact ⟨by omega, fun _ => hpair, fun i hi _ => hrows i hi⟩

/-! ## Addresses that start with the same bytes -/

/-- The first `prefixLen` bytes of the addresses are the same. -/
def AgreeIPv4 (prefixLen ip other : ℕ) : Prop :=
  ip / 2 ^ (8 * (4 - prefixLen)) = other / 2 ^ (8 * (4 - prefixLen))

def AgreeIPv6 (prefixLen : ℕ) (ip other : IPv6Address) : Prop :=
  ip.value / 2 ^ (8 * (16 - prefixLen)) = other.value / 2 ^ (8 * (16 - prefixLen))

instance (prefixLen ip other : ℕ) : Decidable (AgreeIPv4 prefixLen ip other) :=
  inferInstanceAs (Decidable (_ = _))

instance (prefixLen : ℕ) (ip other : IPv6Address) : Decidable (AgreeIPv6 prefixLen ip other) :=
  inferInstanceAs (Decidable (_ = _))

theorem AgreeIPv4.shift {ip other : ℕ} (h : AgreeIPv4 prefixLen ip other) {shift : ℕ}
    (hle : 8 * (4 - prefixLen) ≤ shift) : ip >>> shift = other >>> shift := by
  obtain ⟨rest, rfl⟩ := Nat.exists_eq_add_of_le hle
  unfold AgreeIPv4 at h
  rw [Nat.shiftRight_eq_div_pow, Nat.shiftRight_eq_div_pow, Nat.pow_add,
    ← Nat.div_div_eq_div_mul, ← Nat.div_div_eq_div_mul, h]

/-- A query for a prefix of an address whose rows are set finds it. -/
theorem checkIPv4Prefix_of_agree {ip other : ℕ} (hlen : prefixLen ≤ 4)
    (h : AgreeIPv4 prefixLen ip other)
    (hset : filter.getAll bm (ipv4Rows hash k other offset) = true) :
    filter.checkIPv4Prefix hash k bm ip offset prefixLen = true := by
  obtain ⟨hpair, hpair', hrows⟩ := (getAll_ipv4Rows other).mp hset
  refine (checkIPv4Prefix_iff ip).mpr ⟨fun hone => ?_, fun htwo => ?_, fun hthree => ?_,
    fun hfour => ?_, fun i hi hle => ?_⟩
  · rw [h.shift (by omega : _ ≤ 24)]
    exact getAnyPair_of_get (Nat.mod_lt _ (by decide)) hpair
  · rw [h.shift (by omega : _ ≤ 24), h.shift (by omega : _ ≤ 16)]
    exact hpair
  · rw [h.shift (by omega : _ ≤ 8)]
    exact getAnyPair_of_get (Nat.mod_lt _ (by decide)) hpair'
  · have hsame : ip = other := h.shift (by omega : _ ≤ 0)
    rw [hsame]
    exact hpair'
  · have hsame : ipv4BloomRows hash k ip offset i = ipv4BloomRows hash k other offset i := by
      unfold ipv4BloomRows
      rw [h.shift (by omega : _ ≤ 8 * (i + 1)), h.shift (by omega : _ ≤ 8 * i)]
    rw [hsame]
    exact hrows i hi

theorem checkIPv6Prefix_of_agree {ip other : IPv6Address} (hlen : prefixLen ≤ 16)
    (hvalid : ip.Valid) (hother : other.Valid) (h : AgreeIPv6 prefixLen ip other)
    (hset : filter.getAll bm (ipv6Rows hash k ipv4BloomLen other offset) = true) :
    filter.checkIPv6Prefix hash k bm ip offset prefixLen = true := by
  have hshift : ∀ shift, 8 * (16 - prefixLen) ≤ shift →
      ip.shiftRight shift = other.shiftRight shift := fun shift hle =>
    IPv6Address.shiftRight_congr hvalid hother h hle
  obtain ⟨hpair, hrows⟩ := (getAll_ipv6Rows other).mp hset
  refine (checkIPv6Prefix_iff ip).mpr ⟨fun hone => ?_, fun htwo => ?_, fun i hi hle => ?_⟩
  · rw [hshift 120 (by omega)]
    exact getAnyPair_of_get (Nat.mod_lt _ (by decide)) hpair
  · rw [hshift 120 (by omega), hshift 112 (by omega)]
    exact hpair
  · have hsame : ipv6BloomRows hash k ip offset i = ipv6BloomRows hash k other offset i := by
      unfold ipv6BloomRows
      rw [hshift (8 * (i + 1)) (by omega), hshift (8 * i) (by omega)]
    rw [hsame]
    exact hrows i hi

/-! ## Insertions in any order -/

/-- What an insertion is called with. -/
inductive BloomKey
  | port (port : UInt16)
  | ipv4 (ip : UInt32)
  | ipv6 (ip : IPv6Address)
deriving DecidableEq

variable (hash k bm filter) in
/-- `insertPort`, `insertIPv4` or `insertIPv6`. -/
def insert (key : BloomKey) (type : IndexType) : Bool × BitMap :=
  match key with
  | .port port => filter.insertPort bm port.toNat type
  | .ipv4 ip => filter.insertIPv4 hash k bm ip.toNat type
  | .ipv6 ip => filter.insertIPv6 hash k bm ip type

variable (hash k bm filter) in
/-- The bitmap after calls, whether they succeed or not. -/
def insertAll (calls : List (BloomKey × IndexType)) : BitMap :=
  calls.foldl (fun bm call => (filter.insert hash k bm call.1 call.2).2) bm

variable (hash k bm filter) in
/-- One of the calls is for the key and the type, and has returned true. -/
def Inserted (calls : List (BloomKey × IndexType)) (key : BloomKey) (type : IndexType) : Prop :=
  ∃ before after, calls = before ++ (key, type) :: after ∧
    (filter.insert hash k (filter.insertAll hash k bm before) key type).1 = true

/-- A call sets rows of the written column. -/
theorem extends_insert (key : BloomKey) (type : IndexType) :
    BitMap.Extends filter.writingCol bm (filter.insert hash k bm key type).2 := by
  cases key with
  | port port =>
      cases type with
      | srcport => exact BitMap.extends_set ..
      | dstport => exact BitMap.extends_set ..
      | srcip | dstip | srcipv6 | dstipv6 => exact BitMap.Extends.refl ..
  | ipv4 ip =>
      cases type with
      | srcip => exact BitMap.extends_setAll ..
      | dstip => exact BitMap.extends_setAll ..
      | srcport | dstport | srcipv6 | dstipv6 => exact BitMap.Extends.refl ..
  | ipv6 ip =>
      cases type with
      | srcipv6 => exact BitMap.extends_setAll ..
      | dstipv6 => exact BitMap.extends_setAll ..
      | srcip | dstip | srcport | dstport => exact BitMap.Extends.refl ..

theorem extends_insertAll (calls : List (BloomKey × IndexType)) :
    BitMap.Extends filter.writingCol bm (filter.insertAll hash k bm calls) := by
  induction calls generalizing bm with
  | nil => exact BitMap.Extends.refl ..
  | cons call rest ih => exact (extends_insert call.1 call.2).trans ih

/-- Rows that are set stay set. -/
theorem getAll_of_extends {other : BitMap} {rows : List ℕ}
    (hcol : filter.readingCol = filter.writingCol)
    (h : BitMap.Extends filter.writingCol bm other)
    (hrows : ∀ row ∈ rows, bm.get row filter.writingCol = true) :
    filter.getAll other rows = true := by
  rw [getAll, List.all_eq_true, hcol]
  exact fun row hrow => h.mono (hrows row hrow)

/-- The bitmap a successful call left has only been added to. -/
theorem Inserted.exists_extends {calls : List (BloomKey × IndexType)} {key : BloomKey}
    {type : IndexType} (h : filter.Inserted hash k bm calls key type) :
    ∃ earlier, (filter.insert hash k earlier key type).1 = true ∧
      BitMap.Extends filter.writingCol (filter.insert hash k earlier key type).2
        (filter.insertAll hash k bm calls) := by
  obtain ⟨before, after, rfl, hdone⟩ := h
  refine ⟨filter.insertAll hash k bm before, hdone, ?_⟩
  have hrun : filter.insertAll hash k bm (before ++ (key, type) :: after) =
      filter.insertAll hash k
        (filter.insert hash k (filter.insertAll hash k bm before) key type).2 after := by
    unfold insertAll
    rw [List.foldl_append, List.foldl_cons]
  rw [hrun]
  exact extends_insertAll after

theorem getIPv4Prefix_of_inserted {calls : List (BloomKey × IndexType)} {ip : UInt32} {other : ℕ}
    {type : IndexType} (hcol : filter.readingCol = filter.writingCol)
    (h : filter.Inserted hash k bm calls (.ipv4 ip) type) (hlen : prefixLen ≤ 4)
    (hagree : AgreeIPv4 prefixLen other ip.toNat) :
    filter.getIPv4Prefix hash k (filter.insertAll hash k bm calls) other type prefixLen = true := by
  obtain ⟨earlier, hdone, hafter⟩ := h.exists_extends
  cases type with
  | srcip =>
      exact checkIPv4Prefix_of_agree hlen hagree (getAll_of_extends hcol hafter
        fun row hrow => BitMap.get_setAll hdone hrow)
  | dstip =>
      exact checkIPv4Prefix_of_agree hlen hagree (getAll_of_extends hcol hafter
        fun row hrow => BitMap.get_setAll hdone hrow)
  | srcport | dstport | srcipv6 | dstipv6 => cases hdone

theorem getIPv6Prefix_of_inserted {calls : List (BloomKey × IndexType)} {ip other : IPv6Address}
    {type : IndexType} (hcol : filter.readingCol = filter.writingCol)
    (h : filter.Inserted hash k bm calls (.ipv6 ip) type) (hlen : prefixLen ≤ 16)
    (hvalid : ip.Valid) (hother : other.Valid) (hagree : AgreeIPv6 prefixLen other ip) :
    filter.getIPv6Prefix hash k (filter.insertAll hash k bm calls) other type prefixLen = true := by
  obtain ⟨earlier, hdone, hafter⟩ := h.exists_extends
  cases type with
  | srcipv6 =>
      exact checkIPv6Prefix_of_agree hlen hother hvalid hagree (getAll_of_extends hcol hafter
        fun row hrow => BitMap.get_setAll hdone hrow)
  | dstipv6 =>
      exact checkIPv6Prefix_of_agree hlen hother hvalid hagree (getAll_of_extends hcol hafter
        fun row hrow => BitMap.get_setAll hdone hrow)
  | srcip | dstip | srcport | dstport => cases hdone

theorem getIPv4Prefix_mono {ip : ℕ} {type : IndexType} (hlen : prefixLen < 4)
    (h : filter.getIPv4Prefix hash k bm ip type (prefixLen + 1) = true) :
    filter.getIPv4Prefix hash k bm ip type prefixLen = true := by
  cases type with
  | srcip => exact checkIPv4Prefix_mono hlen h
  | dstip => exact checkIPv4Prefix_mono hlen h
  | srcport | dstport | srcipv6 | dstipv6 => exact h

theorem getIPv6Prefix_mono {ip : IPv6Address} {type : IndexType}
    (h : filter.getIPv6Prefix hash k bm ip type (prefixLen + 1) = true) :
    filter.getIPv6Prefix hash k bm ip type prefixLen = true := by
  cases type with
  | srcipv6 => exact checkIPv6Prefix_mono h
  | dstipv6 => exact checkIPv6Prefix_mono h
  | srcip | dstip | srcport | dstport => exact h

theorem getIPv4Prefix_full (ip : ℕ) (type : IndexType) :
    filter.getIPv4Prefix hash k bm ip type 4 = filter.getIPv4 hash k bm ip type := by
  cases type with
  | srcip => exact checkIPv4Prefix_full ip
  | dstip => exact checkIPv4Prefix_full ip
  | srcport | dstport | srcipv6 | dstipv6 => rfl

theorem getIPv6Prefix_full (ip : IPv6Address) (type : IndexType) :
    filter.getIPv6Prefix hash k bm ip type 16 = filter.getIPv6 hash k bm ip type := by
  cases type with
  | srcipv6 => exact checkIPv6Prefix_full ip
  | dstipv6 => exact checkIPv6Prefix_full ip
  | srcip | dstip | srcport | dstport => rfl

/-- No query for a prefix of an inserted address misses it, whatever else has been
inserted.  On every bitmap, what is found with one byte more is found, and the
whole address is answered as without a length. -/
theorem prefixes_found (hash : StdHash) (k : ℕ) (bm : BitMap) {filter : PrefixBloomFilter}
    (hcol : filter.readingCol = filter.writingCol) (calls : List (BloomKey × IndexType)) :
    (∀ (ip : UInt32) (type : IndexType), filter.Inserted hash k bm calls (.ipv4 ip) type →
      ∀ prefixLen ≤ 4, ∀ other, AgreeIPv4 prefixLen other ip.toNat →
        filter.getIPv4Prefix hash k (filter.insertAll hash k bm calls) other type prefixLen =
          true) ∧
    (∀ (ip : IPv6Address) (type : IndexType), ip.Valid →
      filter.Inserted hash k bm calls (.ipv6 ip) type →
        ∀ prefixLen ≤ 16, ∀ other : IPv6Address, other.Valid → AgreeIPv6 prefixLen other ip →
          filter.getIPv6Prefix hash k (filter.insertAll hash k bm calls) other type prefixLen =
            true) ∧
    (∀ (any : BitMap) (type : IndexType) (ip : ℕ),
      (∀ prefixLen < 4, filter.getIPv4Prefix hash k any ip type (prefixLen + 1) = true →
        filter.getIPv4Prefix hash k any ip type prefixLen = true) ∧
      filter.getIPv4Prefix hash k any ip type 4 = filter.getIPv4 hash k any ip type) ∧
    ∀ (any : BitMap) (type : IndexType) (ip : IPv6Address),
      (∀ prefixLen < 16, filter.getIPv6Prefix hash k any ip type (prefixLen + 1) = true →
        filter.getIPv6Prefix hash k any ip type prefixLen = true) ∧
      filter.getIPv6Prefix hash k any ip type 16 = filter.getIPv6 hash k any ip type := by
  refine ⟨?_, ?_, ?_, ?_⟩
  · intro ip type hinserted prefixLen hlen other hagree
    exact getIPv4Prefix_of_inserted hcol hinserted hlen hagree
  · intro ip type hvalid hinserted prefixLen hlen other hother hagree
    exact getIPv6Prefix_of_inserted hcol hinserted hlen hvalid hother hagree
  · intro any type ip
    exact ⟨fun prefixLen hlen h => getIPv4Prefix_mono hlen h, getIPv4Prefix_full ip type⟩
  · intro any type ip
    exact ⟨fun prefixLen _ h => getIPv6Prefix_mono h, getIPv6Prefix_full ip type⟩

/-- 10.0.7.7 agrees with 10.0.0.1 on its first two bytes. -/
theorem prefixes_found_twoBytes :
    let hash : StdHash := { string := List.length, uint64 := id }
    let bm : BitMap := { rowCount := 9306112, colCount := 8, backupColCount := 1,
                         bitmap := fun _ => 0, colCount_mod := rfl, backup_le := le_rfl }
    let filter : PrefixBloomFilter := { writingCol := 3, readingCol := 3 }
    filter.getIPv4Prefix hash 1 (filter.insertAll hash 1 bm [(.ipv4 0x0a000001, .srcip)])
      0x0a000707 .srcip 2 = true :=
  (prefixes_found _ _ _ rfl _).1 0x0a000001 .srcip ⟨[], [], rfl, by decide +kernel⟩ 2 (by decide) _
    (by decide)

end PrefixBloomFilter

end TrafficDatabase
