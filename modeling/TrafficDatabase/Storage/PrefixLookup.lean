import TrafficDatabase.Index.PrefixQueries
import TrafficDatabase.Storage.RecordSearch

/-!
# The lookup of a prefix

`getOffsetByIPv4` and `getOffsetByIPv6` look up the addresses that agree with one on a
number of bytes.  The start and the end of the range they search are to have the bytes
behind the prefix cleared and set; they are made by shifts of as many bits as there are
such bytes (`InRangeIPv4`, `InRangeIPv6`).  The search does not return the end of its range,
and the parameter for the length of the array has 32 bits.

`prefixLookup_iff` says when the result is right: the positions that are too many are those
that are missing.
-/

namespace TrafficDatabase

namespace PrefixLookup

open RecordSearch PrefixBloomFilter

/-- `((1 << (prefix_len * 8)) - 1) << (size - prefix_len)`, in a type of `width` bits. -/
def startMask (width size prefixLen : ℕ) : ℕ :=
  (((1 <<< (prefixLen * 8)) % 2 ^ width - 1) <<< (size - prefixLen)) % 2 ^ width

/-- `(1u << (size - prefix_len)) - 1u`. -/
def endMask (size prefixLen : ℕ) : ℕ := (1 <<< (size - prefixLen)) % 2 ^ 32 - 1

/-- The part of the array that `binarySearchRange` is told of. -/
def front (indexBuffer : List UInt8) : List UInt8 :=
  indexBuffer.take (indexBuffer.length % 2 ^ 32)

/-- The lookup in the bytes of a block; `none` where a shift is as wide as its type. -/
def getOffsetByIPv4 (ip : UInt32) (prefixLen : ℕ) (indexBuffer : List UInt8) :
    Option (List ℕ) :=
  let ret :=
    if prefixLen = 4 then RecordSearch.binarySearch KeyType.u32 indexBuffer ip []
    else if prefixLen * 8 ≥ 32 then none
    else
      let startIp := UInt32.ofNat (ip.toNat &&& startMask 32 4 prefixLen)
      let endIp := UInt32.ofNat (ip.toNat ||| endMask 4 prefixLen)
      binarySearchRange KeyType.u32 (front indexBuffer) startIp endIp
  ret.map (List.insertionSort (· ≤ ·))

/-- The halves are 64-bit numbers. -/
def ipv6Key (low high : ℕ) : KeyType.ipv6.Key :=
  ⟨⟨low % 2 ^ 64, high % 2 ^ 64⟩, Nat.mod_lt _ (Nat.two_pow_pos 64),
    Nat.mod_lt _ (Nat.two_pow_pos 64)⟩

def getOffsetByIPv6 (ip : KeyType.ipv6.Key) (prefixLen : ℕ) (indexBuffer : List UInt8) :
    Option (List ℕ) :=
  let ret :=
    if prefixLen = 16 then RecordSearch.binarySearch KeyType.ipv6 indexBuffer ip []
    else if prefixLen > 8 then
      let prefixLen := prefixLen - 8
      if prefixLen * 8 ≥ 64 then none
      else
        let startIp := ipv6Key (ip.1.low &&& startMask 64 8 prefixLen) ip.1.high
        let endIp := ipv6Key (ip.1.low ||| endMask 8 prefixLen) ip.1.high
        binarySearchRange KeyType.ipv6 (front indexBuffer) startIp endIp
    else if prefixLen * 8 ≥ 64 then none
    else
      let startIp := ipv6Key 0 (ip.1.high &&& startMask 64 8 prefixLen)
      -- `end_ip.high` is first set to `end_ip.low | ...`, and then to the largest number
      let endIp := ipv6Key ip.1.low (2 ^ 64 - 1)
      binarySearchRange KeyType.ipv6 (front indexBuffer) startIp endIp
  ret.map (List.insertionSort (· ≤ ·))

/-! ## The keys that are found -/

/-- The keys from the address with the bits behind the mask cleared to the address with as
many bits set as bytes are behind the prefix. -/
def InRangeIPv4 (prefixLen ip key : ℕ) : Prop :=
  ip / 2 ^ (4 - prefixLen) % 2 ^ (8 * prefixLen) * 2 ^ (4 - prefixLen) ≤ key ∧
    key < ip / 2 ^ (4 - prefixLen) * 2 ^ (4 - prefixLen) + (2 ^ (4 - prefixLen) - 1)

/-- Behind the eighth byte the same for the low half; before it the end has nothing of the
prefix. -/
def InRangeIPv6 (prefixLen : ℕ) (ip key : IPv6Address) : Prop :=
  if prefixLen > 8 then
    key.high = ip.high ∧
      ip.low / 2 ^ (16 - prefixLen) % 2 ^ (8 * (prefixLen - 8)) * 2 ^ (16 - prefixLen) ≤ key.low ∧
      key.low < ip.low / 2 ^ (16 - prefixLen) * 2 ^ (16 - prefixLen) + (2 ^ (16 - prefixLen) - 1)
  else
    ip.high / 2 ^ (8 - prefixLen) % 2 ^ (8 * prefixLen) * 2 ^ (8 - prefixLen) ≤ key.high ∧
      (key.high < 2 ^ 64 - 1 ∨ key.high = 2 ^ 64 - 1 ∧ key.low < ip.low)

instance (prefixLen ip key : ℕ) : Decidable (InRangeIPv4 prefixLen ip key) :=
  inferInstanceAs (Decidable (_ ∧ _))

instance (prefixLen : ℕ) (ip key : IPv6Address) : Decidable (InRangeIPv6 prefixLen ip key) :=
  inferInstanceAs (Decidable (ite ..))

section Balance

variable (K : KeyType) (indexBuffer : List UInt8) (found wanted : K.Key → Bool)

/-- The records the search is told of, and the others. -/
def near : List (List UInt8) :=
  (records K indexBuffer).take (indexBuffer.length % 2 ^ 32 / eleLen K)

def far : List (List UInt8) :=
  (records K indexBuffer).drop (indexBuffer.length % 2 ^ 32 / eleLen K)

def tooMany : List ℕ :=
  ((near K indexBuffer).filter fun record =>
    found (keyOf K record) && !wanted (keyOf K record)).map (valueOf K)

def missing : List ℕ :=
  ((near K indexBuffer).filter fun record =>
    wanted (keyOf K record) && !found (keyOf K record)).map (valueOf K) ++
  ((far K indexBuffer).filter fun record => wanted (keyOf K record)).map (valueOf K)

end Balance

variable {K : KeyType} {indexBuffer : List UInt8} {found wanted : K.Key → Bool}

theorem count_front : count K (front indexBuffer) = indexBuffer.length % 2 ^ 32 / eleLen K := by
  have hle : indexBuffer.length % 2 ^ 32 ≤ indexBuffer.length := Nat.mod_le ..
  rw [count, front, List.length_take, Nat.min_eq_left hle]

theorem records_front : records K (front indexBuffer) = near K indexBuffer := by
  have hle : count K (front indexBuffer) ≤ count K indexBuffer := by
    rw [count_front]
    exact Nat.div_le_div_right (Nat.mod_le ..)
  have hnear : near K indexBuffer =
      (List.range (count K (front indexBuffer))).map (recordAt K indexBuffer) := by
    rw [near, records, ← List.map_take, List.take_range, ← count_front, Nat.min_eq_left hle]
  rw [hnear, records]
  refine List.map_congr_left fun i hi => ?_
  have hplace := place_le (List.mem_range.mp hi)
  rw [front, List.length_take] at hplace
  rw [recordAt, recordAt, front, List.drop_take, List.take_take, Nat.min_eq_left (by omega)]

theorem insertionSort_eq_iff {first second : List ℕ} :
    first.insertionSort (· ≤ ·) = second.insertionSort (· ≤ ·) ↔ first.Perm second := by
  constructor
  · intro h
    exact ((List.perm_insertionSort (· ≤ ·) first).symm.trans (h ▸ .refl _)).trans
      (List.perm_insertionSort (· ≤ ·) second)
  · intro h
    refine List.Perm.eq_of_pairwise' (List.pairwise_insertionSort _ _)
      (List.pairwise_insertionSort _ _) ?_
    exact ((List.perm_insertionSort _ _).trans h).trans (List.perm_insertionSort _ _).symm

theorem filter_split {α : Type*} (list : List α) (p q : α → Bool) :
    ((list.filter fun a => p a && q a) ++ list.filter fun a => p a && !q a).Perm
      (list.filter p) := by
  have hsplit := List.filter_append_perm q (list.filter p)
  rw [List.filter_filter, List.filter_filter] at hsplit
  have hcomm : ∀ r : α → Bool, (fun a => r a && p a) = fun a => p a && r a := fun r => by
    funext a
    exact Bool.and_comm ..
  rwa [hcomm, hcomm] at hsplit

/-- The search finds the positions it should if and only if what is too much is what is
missing. -/
theorem found_perm_iff :
    (valuesWhere K (front indexBuffer) found).Perm (valuesWhere K indexBuffer wanted) ↔
      (tooMany K indexBuffer found wanted).Perm (missing K indexBuffer found wanted) := by
  have hall : records K indexBuffer = near K indexBuffer ++ far K indexBuffer :=
    (List.take_append_drop ..).symm
  have hfound := (filter_split (near K indexBuffer) (fun record => found (keyOf K record))
    fun record => wanted (keyOf K record)).map (valueOf K)
  have hwanted := (filter_split (near K indexBuffer) (fun record => wanted (keyOf K record))
    fun record => found (keyOf K record)).map (valueOf K)
  have hboth : (near K indexBuffer).filter (fun record =>
        wanted (keyOf K record) && found (keyOf K record)) =
      (near K indexBuffer).filter (fun record =>
        found (keyOf K record) && wanted (keyOf K record)) :=
    List.filter_congr fun record _ => Bool.and_comm ..
  rw [hboth] at hwanted
  rw [List.map_append] at hfound hwanted
  rw [valuesWhere, valuesWhere, records_front, hall, List.filter_append, List.map_append]
  have hmissing := hwanted.append_right
    (((far K indexBuffer).filter fun record => wanted (keyOf K record)).map (valueOf K))
  rw [List.append_assoc] at hmissing
  unfold tooMany missing
  rw [← hfound.congr_left, ← hmissing.congr_right, List.perm_append_left_iff]

/-- If no two records have one position, nothing is too much and nothing is missing. -/
theorem perm_iff_of_nodup (hnodup : ((records K indexBuffer).map (valueOf K)).Nodup) :
    (tooMany K indexBuffer found wanted).Perm (missing K indexBuffer found wanted) ↔
      (∀ record ∈ near K indexBuffer, found (keyOf K record) = wanted (keyOf K record)) ∧
        ∀ record ∈ far K indexBuffer, wanted (keyOf K record) = false := by
  have hnear : ∀ record ∈ near K indexBuffer, record ∈ records K indexBuffer := fun _ h =>
    List.mem_of_mem_take h
  have hfar : ∀ record ∈ far K indexBuffer, record ∈ records K indexBuffer := fun _ h =>
    List.mem_of_mem_drop h
  have hinj := List.inj_on_of_nodup_map hnodup
  constructor
  · intro hperm
    -- a position of both lists would be that of one record
    have htooMany : tooMany K indexBuffer found wanted = [] := by
      apply List.eq_nil_iff_forall_not_mem.mpr
      intro value hvalue
      have hother := hperm.subset hvalue
      obtain ⟨record, hrecord, rfl⟩ := List.mem_map.mp hvalue
      obtain ⟨hrecord, htest⟩ := List.mem_filter.mp hrecord
      rcases List.mem_append.mp hother with hmem | hmem
      · obtain ⟨other, hother, heq⟩ := List.mem_map.mp hmem
        obtain ⟨hother, htest'⟩ := List.mem_filter.mp hother
        obtain rfl := hinj (hnear _ hother) (hnear _ hrecord) heq
        simp_all
      · obtain ⟨other, hother, heq⟩ := List.mem_map.mp hmem
        obtain ⟨hother, htest'⟩ := List.mem_filter.mp hother
        obtain rfl := hinj (hfar _ hother) (hnear _ hrecord) heq
        simp_all
    have hmissing : missing K indexBuffer found wanted = [] := by
      rw [htooMany] at hperm
      exact hperm.nil_eq.symm
    unfold tooMany at htooMany
    unfold missing at hmissing
    simp only [List.append_eq_nil_iff, List.map_eq_nil_iff, List.filter_eq_nil_iff,
      Bool.and_eq_true, Bool.not_eq_true', not_and] at htooMany hmissing
    refine ⟨fun record hrecord => ?_, fun record hrecord => by
      simpa using hmissing.2 record hrecord⟩
    have hfirst := htooMany record hrecord
    have hsecond := hmissing.1 record hrecord
    cases hfound : found (keyOf K record) <;> cases hwanted : wanted (keyOf K record) <;>
      simp_all
  · rintro ⟨hsame, hnone⟩
    have htooMany : tooMany K indexBuffer found wanted = [] := by
      unfold tooMany
      rw [List.map_eq_nil_iff, List.filter_eq_nil_iff]
      intro record hrecord
      simp [hsame record hrecord]
    have hmissing : missing K indexBuffer found wanted = [] := by
      unfold missing
      rw [List.append_eq_nil_iff, List.map_eq_nil_iff, List.map_eq_nil_iff,
        List.filter_eq_nil_iff, List.filter_eq_nil_iff]
      exact ⟨fun record hrecord => by simp [hsame record hrecord], fun record hrecord => by
        simp [hnone record hrecord]⟩
    rw [htooMany, hmissing]

/-! ## The lookups -/

theorem startMask_ipv4 : ∀ prefixLen < 4,
    startMask 32 4 prefixLen = (2 ^ (8 * prefixLen) - 1) * 2 ^ (4 - prefixLen) := by decide

theorem endMask_ipv4 : ∀ prefixLen < 4, endMask 4 prefixLen = 2 ^ (4 - prefixLen) - 1 := by decide

theorem startMask_half : ∀ bytes < 8,
    startMask 64 8 bytes = (2 ^ (8 * bytes) - 1) * 2 ^ (8 - bytes) := by decide

theorem endMask_half : ∀ bytes < 8, endMask 8 bytes = 2 ^ (8 - bytes) - 1 := by decide

variable {prefixLen : ℕ}

theorem sorted_front (h : Sorted K (records K indexBuffer)) :
    Sorted K (records K (front indexBuffer)) := by
  rw [records_front]
  exact List.Pairwise.sublist (List.take_sublist ..) h

/-- The positions of a range of keys, by any predicate that holds of the same keys. -/
theorem range_lookup (hsorted : Sorted K (records K indexBuffer)) {startKey endKey : K.Key}
    (hfound : ∀ key, found key =
      decide (K.number startKey ≤ K.number key ∧ K.number key < K.number endKey)) :
    (binarySearchRange K (front indexBuffer) startKey endKey).map (List.insertionSort (· ≤ ·)) =
        some ((valuesWhere K indexBuffer wanted).insertionSort (· ≤ ·)) ↔
      (tooMany K indexBuffer found wanted).Perm (missing K indexBuffer found wanted) := by
  have hlength : (front indexBuffer).length < 2 ^ 32 := by
    rw [front, List.length_take]
    exact (Nat.min_le_left ..).trans_lt (Nat.mod_lt _ (Nat.two_pow_pos 32))
  have hrange : (fun key => decide (K.number startKey ≤ K.number key ∧
      K.number key < K.number endKey)) = found := funext fun key => (hfound key).symm
  rw [binarySearchRange_eq hlength (sorted_front hsorted), hrange, Option.map_some,
    Option.some.injEq, insertionSort_eq_iff, found_perm_iff]

/-- The positions of one key. -/
theorem key_lookup (hsorted : Sorted K (records K indexBuffer))
    (hlength : indexBuffer.length < 2 ^ 64) (key : K.Key)
    (hwanted : ∀ other, wanted other = decide (other = key)) :
    (RecordSearch.binarySearch K indexBuffer key []).map (List.insertionSort (· ≤ ·)) =
      some ((valuesWhere K indexBuffer wanted).insertionSort (· ≤ ·)) := by
  have heq : (fun other => decide (other = key)) = wanted := funext fun other =>
    (hwanted other).symm
  rw [RecordSearch.binarySearch_eq hlength hsorted, heq, List.nil_append, Option.map_some]

def agreesIPv4 (prefixLen : ℕ) (ip : UInt32) (key : KeyType.u32.Key) : Bool :=
  decide (AgreeIPv4 prefixLen ip.toNat (KeyType.u32.number key))

def agreesIPv6 (prefixLen : ℕ) (ip key : KeyType.ipv6.Key) : Bool :=
  decide (AgreeIPv6 prefixLen ip.1 key.1)

def foundIPv4 (prefixLen : ℕ) (ip : UInt32) (key : KeyType.u32.Key) : Bool :=
  decide (InRangeIPv4 prefixLen ip.toNat (KeyType.u32.number key))

def foundIPv6 (prefixLen : ℕ) (ip key : KeyType.ipv6.Key) : Bool :=
  decide (InRangeIPv6 prefixLen ip.1 key.1)

/-- The lookup returns the positions of the records that agree with the address, sorted. -/
def ExactIPv4 (ip : UInt32) (prefixLen : ℕ) (indexBuffer : List UInt8) : Prop :=
  getOffsetByIPv4 ip prefixLen indexBuffer = some
    ((valuesWhere KeyType.u32 indexBuffer (agreesIPv4 prefixLen ip)).insertionSort (· ≤ ·))

def ExactIPv6 (ip : KeyType.ipv6.Key) (prefixLen : ℕ) (indexBuffer : List UInt8) : Prop :=
  getOffsetByIPv6 ip prefixLen indexBuffer = some
    ((valuesWhere KeyType.ipv6 indexBuffer (agreesIPv6 prefixLen ip)).insertionSort (· ≤ ·))

/-- The address is looked up by itself, or the positions that are too many are those that
are missing. -/
def BalancedIPv4 (ip : UInt32) (prefixLen : ℕ) (indexBuffer : List UInt8) : Prop :=
  prefixLen = 4 ∨ prefixLen < 4 ∧
    (tooMany KeyType.u32 indexBuffer (foundIPv4 prefixLen ip) (agreesIPv4 prefixLen ip)).Perm
      (missing KeyType.u32 indexBuffer (foundIPv4 prefixLen ip) (agreesIPv4 prefixLen ip))

/-- For eight bytes a shift is as wide as its type. -/
def BalancedIPv6 (ip : KeyType.ipv6.Key) (prefixLen : ℕ) (indexBuffer : List UInt8) : Prop :=
  prefixLen = 16 ∨ prefixLen < 16 ∧ prefixLen ≠ 8 ∧
    (tooMany KeyType.ipv6 indexBuffer (foundIPv6 prefixLen ip) (agreesIPv6 prefixLen ip)).Perm
      (missing KeyType.ipv6 indexBuffer (foundIPv6 prefixLen ip) (agreesIPv6 prefixLen ip))

/-- The masks make the range. -/
theorem number_startIPv4 (ip : UInt32) (hlt : prefixLen < 4) :
    KeyType.u32.number (UInt32.ofNat (ip.toNat &&& startMask 32 4 prefixLen)) =
      ip.toNat / 2 ^ (4 - prefixLen) % 2 ^ (8 * prefixLen) * 2 ^ (4 - prefixLen) := by
  have hip : ip.toNat < 2 ^ 32 := ip.toNat_lt
  have hstart : ip.toNat &&& startMask 32 4 prefixLen < 2 ^ 32 :=
    Nat.and_le_left.trans_lt hip
  calc
    (UInt32.ofNat (ip.toNat &&& startMask 32 4 prefixLen)).toNat =
        ip.toNat &&& startMask 32 4 prefixLen := by
      rw [UInt32.toNat_ofNat', Nat.mod_eq_of_lt hstart]
    _ = _ := by rw [startMask_ipv4 _ hlt, and_bitMask]

theorem number_endIPv4 (ip : UInt32) (hlt : prefixLen < 4) :
    KeyType.u32.number (UInt32.ofNat (ip.toNat ||| endMask 4 prefixLen)) =
      ip.toNat / 2 ^ (4 - prefixLen) * 2 ^ (4 - prefixLen) + (2 ^ (4 - prefixLen) - 1) := by
  have hip : ip.toNat < 2 ^ 32 := ip.toNat_lt
  have hmask : endMask 4 prefixLen < 2 ^ 32 :=
    (Nat.sub_le _ 1).trans_lt (Nat.mod_lt _ (Nat.two_pow_pos 32))
  calc
    (UInt32.ofNat (ip.toNat ||| endMask 4 prefixLen)).toNat =
        ip.toNat ||| endMask 4 prefixLen := by
      rw [UInt32.toNat_ofNat', Nat.mod_eq_of_lt (Nat.or_lt_two_pow hip hmask)]
    _ = _ := by rw [endMask_ipv4 _ hlt, or_lowMask]

theorem exactIPv4_iff {ip : UInt32} (hle : prefixLen ≤ 4) (hlength : indexBuffer.length < 2 ^ 64)
    (hsorted : Sorted KeyType.u32 (records KeyType.u32 indexBuffer)) :
    ExactIPv4 ip prefixLen indexBuffer ↔ BalancedIPv4 ip prefixLen indexBuffer := by
  rcases Nat.lt_or_eq_of_le hle with hlt | rfl
  · have hlookup := @range_lookup KeyType.u32 indexBuffer (foundIPv4 prefixLen ip)
      (agreesIPv4 prefixLen ip) hsorted
      (UInt32.ofNat (ip.toNat &&& startMask 32 4 prefixLen))
      (UInt32.ofNat (ip.toNat ||| endMask 4 prefixLen)) fun key => by
        rw [number_startIPv4 ip hlt, number_endIPv4 ip hlt]
        rfl
    rw [BalancedIPv4, or_iff_right (Nat.ne_of_lt hlt), and_iff_right hlt, ← hlookup]
    unfold ExactIPv4 getOffsetByIPv4
    simp only
    rw [if_neg (Nat.ne_of_lt hlt), if_neg (by omega)]
  · refine iff_of_true ?_ (.inl rfl)
    unfold ExactIPv4 getOffsetByIPv4
    apply key_lookup hsorted hlength
    intro other
    apply decide_eq_decide.mpr
    unfold AgreeIPv4
    rw [Nat.sub_self, Nat.mul_zero, Nat.pow_zero, Nat.div_one, Nat.div_one]
    exact ⟨fun h => KeyType.u32.number_inj h.symm, fun h => by rw [h]; rfl⟩

/-! ## The halves of an IPv6 key -/

theorem ipv6Key_val {low high : ℕ} (hlow : low < 2 ^ 64) (hhigh : high < 2 ^ 64) :
    (ipv6Key low high).1 = ⟨low, high⟩ := by
  simp only [ipv6Key, Nat.mod_eq_of_lt hlow, Nat.mod_eq_of_lt hhigh]

theorem and_startMask {bytes : ℕ} (half : ℕ) (hlt : bytes < 8) :
    half &&& startMask 64 8 bytes =
      half / 2 ^ (8 - bytes) % 2 ^ (8 * bytes) * 2 ^ (8 - bytes) := by
  rw [startMask_half _ hlt, and_bitMask]

theorem or_endMask {bytes : ℕ} (half : ℕ) (hlt : bytes < 8) :
    half ||| endMask 8 bytes =
      half / 2 ^ (8 - bytes) * 2 ^ (8 - bytes) + (2 ^ (8 - bytes) - 1) := by
  rw [endMask_half _ hlt, or_lowMask]

/-- Behind the eighth byte start and end have the high half of the address. -/
theorem foundIPv6_low (ip key : KeyType.ipv6.Key) (hgt : 8 < prefixLen) (hlt : prefixLen < 16) :
    foundIPv6 prefixLen ip key = decide
      (KeyType.ipv6.number (ipv6Key (ip.1.low &&& startMask 64 8 (prefixLen - 8)) ip.1.high) ≤
          KeyType.ipv6.number key ∧
        KeyType.ipv6.number key <
          KeyType.ipv6.number (ipv6Key (ip.1.low ||| endMask 8 (prefixLen - 8)) ip.1.high)) := by
  have hip := ip.2
  have hkey := key.2
  unfold IPv6Address.Valid at hip hkey
  have hbytes : prefixLen - 8 < 8 := by omega
  have hstart : ip.1.low &&& startMask 64 8 (prefixLen - 8) < 2 ^ 64 :=
    Nat.and_le_left.trans_lt hip.1
  have hend : ip.1.low ||| endMask 8 (prefixLen - 8) < 2 ^ 64 := by
    refine Nat.or_lt_two_pow hip.1 ?_
    rw [endMask_half _ hbytes]
    exact (Nat.sub_le _ 1).trans_lt (Nat.pow_lt_pow_right (by decide) (by omega))
  have hrest : 8 - (prefixLen - 8) = 16 - prefixLen := by omega
  apply decide_eq_decide.mpr
  change _ ↔ (ipv6Key _ _).1.value ≤ key.1.value ∧ key.1.value < (ipv6Key _ _).1.value
  rw [ipv6Key_val hstart hip.2, ipv6Key_val hend hip.2]
  rw [and_startMask _ hbytes, hrest] at hstart ⊢
  rw [or_endMask _ hbytes, hrest] at hend ⊢
  unfold InRangeIPv6 IPv6Address.value
  simp only [if_pos hgt]
  omega

/-- Up to the eighth byte the end has the largest high half and the low half of the address. -/
theorem foundIPv6_high (ip key : KeyType.ipv6.Key) (hlt : prefixLen < 8) :
    foundIPv6 prefixLen ip key = decide
      (KeyType.ipv6.number (ipv6Key 0 (ip.1.high &&& startMask 64 8 prefixLen)) ≤
          KeyType.ipv6.number key ∧
        KeyType.ipv6.number key < KeyType.ipv6.number (ipv6Key ip.1.low (2 ^ 64 - 1))) := by
  have hip := ip.2
  have hkey := key.2
  unfold IPv6Address.Valid at hip hkey
  have hstart : ip.1.high &&& startMask 64 8 prefixLen < 2 ^ 64 :=
    Nat.and_le_left.trans_lt hip.2
  apply decide_eq_decide.mpr
  change _ ↔ (ipv6Key _ _).1.value ≤ key.1.value ∧ key.1.value < (ipv6Key _ _).1.value
  rw [ipv6Key_val (by decide) hstart, ipv6Key_val hip.1 (by decide)]
  rw [and_startMask _ hlt]
  unfold InRangeIPv6 IPv6Address.value
  simp only [if_neg (show ¬ prefixLen > 8 by omega)]
  omega

theorem exactIPv6_iff {ip : KeyType.ipv6.Key} (hle : prefixLen ≤ 16)
    (hlength : indexBuffer.length < 2 ^ 64)
    (hsorted : Sorted KeyType.ipv6 (records KeyType.ipv6 indexBuffer)) :
    ExactIPv6 ip prefixLen indexBuffer ↔ BalancedIPv6 ip prefixLen indexBuffer := by
  rcases Nat.lt_or_eq_of_le hle with hlt | rfl
  · rw [BalancedIPv6, or_iff_right (Nat.ne_of_lt hlt), and_iff_right hlt]
    unfold ExactIPv6 getOffsetByIPv6
    simp only [if_neg (Nat.ne_of_lt hlt)]
    rcases Nat.lt_trichotomy prefixLen 8 with hhigh | rfl | hlow
    · rw [if_neg (by omega), if_neg (by omega), and_iff_right (Nat.ne_of_lt hhigh)]
      exact range_lookup hsorted fun key => foundIPv6_high ip key hhigh
    · simp
    · rw [if_pos hlow, if_neg (by omega), and_iff_right (Nat.ne_of_gt hlow)]
      exact range_lookup hsorted fun key => foundIPv6_low ip key hlow hlt
  · refine iff_of_true ?_ (.inl rfl)
    unfold ExactIPv6 getOffsetByIPv6
    apply key_lookup hsorted hlength
    intro other
    apply decide_eq_decide.mpr
    unfold AgreeIPv6
    rw [Nat.sub_self, Nat.mul_zero, Nat.pow_zero, Nat.div_one, Nat.div_one]
    exact ⟨fun h => KeyType.ipv6.number_inj h.symm, fun h => by rw [h]⟩

/-- **The lookup of a prefix**: on records in the order of their keys it returns the
positions of those that agree with the address if and only if the positions that are too
many are those that are missing. -/
theorem prefixLookup_iff (indexBuffer : List UInt8) (prefixLen : ℕ)
    (hlength : indexBuffer.length < 2 ^ 64) :
    (prefixLen ≤ 4 → Sorted KeyType.u32 (records KeyType.u32 indexBuffer) → ∀ ip : UInt32,
      (ExactIPv4 ip prefixLen indexBuffer ↔ BalancedIPv4 ip prefixLen indexBuffer)) ∧
    (prefixLen ≤ 16 → Sorted KeyType.ipv6 (records KeyType.ipv6 indexBuffer) →
      ∀ ip : KeyType.ipv6.Key,
        (ExactIPv6 ip prefixLen indexBuffer ↔ BalancedIPv6 ip prefixLen indexBuffer)) :=
  ⟨fun hle hsorted _ => exactIPv4_iff hle hlength hsorted,
    fun hle hsorted _ => exactIPv6_iff hle hlength hsorted⟩

/-- The record of 10.1.2.3 at position 7. -/
def oneAddress : List UInt8 := [3, 2, 1, 10, 7, 0, 0, 0, 0, 0, 0, 0]

/-- A record of the address ::1 at position 7. -/
def oneIPv6Address : List UInt8 :=
  [1, 0, 0, 0, 0, 0, 0, 0, 0, 0, 0, 0, 0, 0, 0, 0, 7, 0, 0, 0, 0, 0, 0, 0]

theorem prefixLookup_iff_oneAddress :
    (ExactIPv4 0x0A010203 3 oneAddress ↔ BalancedIPv4 0x0A010203 3 oneAddress) ∧
      (ExactIPv6 (ipv6Key 1 0) 15 oneIPv6Address ↔
        BalancedIPv6 (ipv6Key 1 0) 15 oneIPv6Address) :=
  ⟨(prefixLookup_iff oneAddress 3 (by decide)).1 (by decide) (by decide) _,
    (prefixLookup_iff oneIPv6Address 15 (by decide)).2 (by decide) (by decide) _⟩

/-- The address itself is not found by its first three bytes: it is the end of the range.
For the first eight bytes of an IPv6 address a shift is undefined. -/
theorem prefix_missed :
    getOffsetByIPv4 0x0A010203 3 oneAddress = some [] ∧
      valuesWhere KeyType.u32 oneAddress (agreesIPv4 3 0x0A010203) = [7] ∧
      ¬ ExactIPv4 0x0A010203 3 oneAddress ∧
      getOffsetByIPv6 (ipv6Key 1 0) 8 oneIPv6Address = none ∧
      ¬ ExactIPv6 (ipv6Key 1 0) 8 oneIPv6Address := by
  have hfound : getOffsetByIPv4 0x0A010203 3 oneAddress = some [] := by decide +kernel
  have hwanted : valuesWhere KeyType.u32 oneAddress (agreesIPv4 3 0x0A010203) = [7] := by
    decide +kernel
  refine ⟨hfound, hwanted, fun hexact => ?_, rfl, fun hexact => ?_⟩
  · rw [ExactIPv4, hfound, hwanted] at hexact
    simp at hexact
  · cases hexact

end PrefixLookup

end TrafficDatabase
