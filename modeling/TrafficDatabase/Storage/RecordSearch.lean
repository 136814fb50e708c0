import TrafficDatabase.Index.IPv6Address
import TrafficDatabase.Storage.IndexLookup

/-!
# The search in an array of records

`binarySearch` and `binarySearchRange` are templates over the type of the key.
Here they are as the source has them: on the bytes of the array, with the
operators of the key type, offsets of 64 and of 32 bits, and `none` for a read
outside the array.

On records in the order of `Record::operator<` both find exactly what they
should, and never leave the array (`search_exact`).
-/

namespace TrafficDatabase

/-- A key type of the templates: its size, how it is read from memory, and its
operators, which are those of the number its bytes make. -/
structure KeyType where
  Key : Type
  decEq : DecidableEq Key
  size : ℕ
  ofBytes : List UInt8 → Key
  lt : Key → Key → Bool
  ne : Key → Key → Bool
  ge : Key → Key → Bool
  number : Key → ℕ
  number_inj : ∀ {key other}, number key = number other → key = other
  number_ofBytes : ∀ {bytes}, bytes.length = size → number (ofBytes bytes) = ofLittleEndian bytes
  lt_eq : ∀ key other, lt key other = decide (number key < number other)
  ne_eq : ∀ key other, ne key other = !decide (key = other)
  ge_eq : ∀ key other, ge key other = decide (number other ≤ number key)

attribute [instance] KeyType.decEq

namespace KeyType

/-- `u_int16_t`, of the ports. -/
def u16 : KeyType where
  Key := UInt16
  decEq := inferInstance
  size := 2
  ofBytes bytes := UInt16.ofNat (ofLittleEndian bytes)
  lt key other := decide (key < other)
  ne key other := decide (key ≠ other)
  ge key other := decide (key ≥ other)
  number := UInt16.toNat
  number_inj h := UInt16.toNat_inj.mp h
  number_ofBytes h := by
    rw [UInt16.toNat_ofNat', Nat.mod_eq_of_lt]
    exact (ofLittleEndian_lt _).trans_eq (by rw [h]; rfl)
  lt_eq _ _ := rfl
  ne_eq _ _ := decide_not
  ge_eq _ _ := rfl

/-- `u_int32_t`, of the IPv4 addresses. -/
def u32 : KeyType where
  Key := UInt32
  decEq := inferInstance
  size := 4
  ofBytes bytes := UInt32.ofNat (ofLittleEndian bytes)
  lt key other := decide (key < other)
  ne key other := decide (key ≠ other)
  ge key other := decide (key ≥ other)
  number := UInt32.toNat
  number_inj h := UInt32.toNat_inj.mp h
  number_ofBytes h := by
    rw [UInt32.toNat_ofNat', Nat.mod_eq_of_lt]
    exact (ofLittleEndian_lt _).trans_eq (by rw [h]; rfl)
  lt_eq _ _ := rfl
  ne_eq _ _ := decide_not
  ge_eq _ _ := rfl

/-- `IPv6Address`, with its operators. -/
def ipv6 : KeyType where
  Key := { ip : IPv6Address // ip.Valid }
  decEq := inferInstance
  size := 16
  ofBytes bytes := ⟨IPv6Address.ofBytes bytes, IPv6Address.valid_ofBytes bytes⟩
  lt key other := key.1.lt other.1
  ne key other := key.1.ne other.1
  ge key other := key.1.ge other.1
  number key := key.1.value
  number_inj {key other} h := Subtype.ext (IPv6Address.value_inj key.2 other.2 h)
  number_ofBytes h := IPv6Address.value_ofBytes h
  lt_eq key other := IPv6Address.lt_eq_decide key.2 other.2
  ne_eq key other := by
    obtain ⟨⟨low, high⟩, _⟩ := key
    obtain ⟨⟨low', high'⟩, _⟩ := other
    simp [IPv6Address.ne, IPv6Address.eq, and_comm]
  ge_eq key other := by
    rw [IPv6Address.ge, IPv6Address.lt_eq_decide key.2 other.2, ← decide_not]
    exact decide_eq_decide.mpr not_lt

end KeyType

namespace RecordSearch

variable (K : KeyType) (index : List UInt8)

/-- `sizeof(KeyType) + sizeof(u_int64_t)`. -/
def eleLen : ℕ := K.size + 8

/-- The records of the array. -/
def count : ℕ := index.length / eleLen K

/-- `*(KeyType*)(index + pos)`. -/
def readKey (pos : ℕ) : Option K.Key :=
  if pos + K.size ≤ index.length then some (K.ofBytes ((index.drop pos).take K.size)) else none

/-- `*(u_int64_t*)(index + pos)`. -/
def readValue (pos : ℕ) : Option ℕ :=
  if pos + 8 ≤ index.length then some (ofLittleEndian ((index.drop pos).take 8)) else none

/-- The first loop; offsets have `width` bits.  `none` also if it is not over after
`turns` turns. -/
def bisect (width : ℕ) (key : K.Key) : (turns left right : ℕ) → Option ℕ
  | 0, left, right => if left < right then none else some left
  | turns + 1, left, right =>
      if left < right then
        let mid := left + (right - left) / 2
        match readKey K index (mid * eleLen K % 2 ^ width) with
        | none => none
        | some keyMid =>
            if K.lt keyMid key then bisect width key turns (mid + 1) right
            else bisect width key turns left mid
      else some left

/-- The second loop, which stops at the first key that `stop` holds of. -/
def scan (width : ℕ) (stop : K.Key → Bool) : (turns left : ℕ) → List ℕ → Option (List ℕ)
  | 0, left, ret => if left < count K index then none else some ret
  | turns + 1, left, ret =>
      if left < count K index then
        match readKey K index (left * eleLen K % 2 ^ width) with
        | none => none
        | some keyNow =>
            if stop keyNow then some ret
            else
              match readValue index (left * eleLen K % 2 ^ width + K.size) with
              | none => none
              | some value => scan width stop turns (left + 1) (ret ++ [value])
      else some ret

/-- Both functions: the values from the first key that is not below `startKey` to
the one that stops the scan are put behind `ret`. -/
def search (width : ℕ) (startKey : K.Key) (stop : K.Key → Bool) (ret : List ℕ) :
    Option (List ℕ) :=
  match bisect K index width startKey (count K index) 0 (count K index) with
  | none => none
  | some left => scan K index width stop (count K index - left) left ret

def binarySearch (key : K.Key) (ret : List ℕ) : Option (List ℕ) :=
  search K index 64 key (fun keyNow => K.ne keyNow key) ret

def binarySearchRange (startKey endKey : K.Key) : Option (List ℕ) :=
  search K index 32 startKey (fun keyNow => K.ge keyNow endKey) []

/-! ## The array as records -/

def recordAt (i : ℕ) : List UInt8 := (index.drop (i * eleLen K)).take (eleLen K)

def records : List (List UInt8) := (List.range (count K index)).map (recordAt K index)

def keyOf (record : List UInt8) : K.Key := K.ofBytes (record.take K.size)

def valueOf (record : List UInt8) : ℕ := ofLittleEndian (record.drop K.size)

/-- No record is before one in front of it, by `Record::operator<`. -/
def Sorted (records : List (List UInt8)) : Prop :=
  records.Pairwise fun first second => K.lt (keyOf K second) (keyOf K first) = false

instance (records : List (List UInt8)) : Decidable (Sorted K records) :=
  inferInstanceAs (Decidable (List.Pairwise _ _))

variable {K index} {width : ℕ}

/-- The record lies in the array. -/
theorem place_le {i : ℕ} (hi : i < count K index) :
    i * eleLen K + eleLen K ≤ index.length := by
  calc
    i * eleLen K + eleLen K = (i + 1) * eleLen K := (Nat.succ_mul ..).symm
    _ ≤ count K index * eleLen K := Nat.mul_le_mul_right _ hi
    _ ≤ index.length := Nat.div_mul_le_self ..

theorem length_recordAt {i : ℕ} (hi : i < count K index) :
    (recordAt K index i).length = eleLen K := by
  have := place_le hi
  rw [recordAt, List.length_take, List.length_drop, Nat.min_eq_left (by omega)]

theorem readKey_eq (hlength : index.length < 2 ^ width) {i : ℕ} (hi : i < count K index) :
    readKey K index (i * eleLen K % 2 ^ width) = some (keyOf K (recordAt K index i)) := by
  have hplace := place_le hi
  have hsize : K.size ≤ eleLen K := Nat.le_add_right ..
  rw [Nat.mod_eq_of_lt (by omega), readKey, if_pos (by omega), keyOf, recordAt, List.take_take,
    Nat.min_eq_left hsize]

theorem readValue_eq (hlength : index.length < 2 ^ width) {i : ℕ} (hi : i < count K index) :
    readValue index (i * eleLen K % 2 ^ width + K.size) =
      some (valueOf K (recordAt K index i)) := by
  have hplace := place_le hi
  have hsize : eleLen K = K.size + 8 := rfl
  have hrest : eleLen K - K.size = 8 := by omega
  rw [Nat.mod_eq_of_lt (by omega), readValue, if_pos (by omega), valueOf, recordAt,
    List.drop_take, List.drop_drop, hrest]

/-- The first loop is a bisection of the numbers of the keys. -/
theorem bisect_eq (hlength : index.length < 2 ^ width) (key : K.Key) {turns left right : ℕ}
    (hright : right ≤ count K index) (hturns : right - left ≤ turns) :
    bisect K index width key turns left right = some (BinarySearch.lowerBound
      (fun i => decide (K.number (keyOf K (recordAt K index i)) < K.number key)) turns left
      right) := by
  induction turns generalizing left right with
  | zero => exact if_neg (by omega)
  | succ turns ih =>
      unfold bisect BinarySearch.lowerBound
      by_cases hlt : left < right
      · have hmid : left + (right - left) / 2 < count K index := by omega
        rw [if_pos hlt, if_pos hlt]
        simp only [readKey_eq hlength hmid, K.lt_eq]
        split_ifs with hbelow
        · exact ih hright (by omega)
        · exact ih (by omega) (by omega)
      · rw [if_neg hlt, if_neg hlt]

/-- The second loop collects the values up to the first record that stops it. -/
theorem scan_eq (hlength : index.length < 2 ^ width) (stop : K.Key → Bool) {turns left : ℕ}
    (hturns : left + turns = count K index) (ret : List ℕ) :
    scan K index width stop turns left ret = some (ret ++
      (BinarySearch.collect (fun i => !stop (keyOf K (recordAt K index i))) turns left).map
        fun i => valueOf K (recordAt K index i)) := by
  induction turns generalizing left ret with
  | zero =>
      rw [scan, if_neg (by omega), BinarySearch.collect, List.map_nil, List.append_nil]
  | succ turns ih =>
      have hlt : left < count K index := by omega
      rw [scan, if_pos hlt]
      simp only [readKey_eq hlength hlt, readValue_eq hlength hlt]
      unfold BinarySearch.collect
      cases hstop : stop (keyOf K (recordAt K index left)) with
      | true => simp
      | false =>
          simp only [Bool.false_eq_true, if_false, Bool.not_false, if_true, List.map_cons]
          rw [ih (by omega), List.append_assoc, List.singleton_append]

/-! ## The order of the records -/

/-- The order of the records is that of the numbers in front of them, which is the
one they have been sorted by. -/
theorem sorted_iff {records : List (List UInt8)}
    (hlength : ∀ record ∈ records, K.size ≤ record.length) :
    Sorted K records ↔ SortedByKey K.size records := by
  have hnumber : ∀ record ∈ records, K.number (keyOf K record) = recordKey K.size record := by
    intro record hrecord
    exact K.number_ofBytes (List.length_take_of_le (hlength record hrecord))
  refine List.Pairwise.iff_of_mem fun hfirst hsecond => ?_
  rw [K.lt_eq, decide_eq_false_iff_not, hnumber _ hfirst, hnumber _ hsecond, not_lt]

theorem number_mono (h : Sorted K (records K index)) {i j : ℕ} (hij : i ≤ j)
    (hj : j < count K index) :
    K.number (keyOf K (recordAt K index i)) ≤ K.number (keyOf K (recordAt K index j)) := by
  rcases Nat.lt_or_eq_of_le hij with hlt | rfl
  · rw [Sorted, records, List.pairwise_map, List.pairwise_iff_getElem] at h
    have hpair := h i j (by simp; omega) (by simpa using hj) hlt
    rw [List.getElem_range, List.getElem_range, K.lt_eq, decide_eq_false_iff_not, not_lt] at hpair
    exact hpair
  · exact le_rfl

/-- The values of the records that a predicate on keys holds of, in their order. -/
def valuesWhere (K : KeyType) (index : List UInt8) (wanted : K.Key → Bool) : List ℕ :=
  ((records K index).filter fun record => wanted (keyOf K record)).map (valueOf K)

theorem map_filter_range (wanted : K.Key → Bool) :
    ((List.range (count K index)).filter fun i => wanted (keyOf K (recordAt K index i))).map
        (fun i => valueOf K (recordAt K index i)) = valuesWhere K index wanted := by
  rw [valuesWhere, records, List.filter_map, List.map_map]
  rfl

/-- Where no key stops the scan that a later one does not stop, the search finds the
keys from the start key on that do not. -/
theorem search_eq (hlength : index.length < 2 ^ width) (hsorted : Sorted K (records K index))
    {startKey : K.Key} {stop wanted : K.Key → Bool}
    (hwanted : ∀ key, wanted key = (decide (K.number startKey ≤ K.number key) && !stop key))
    (hinitial : ∀ key later, K.number startKey ≤ K.number key → K.number key ≤ K.number later →
      stop later = false → stop key = false) (ret : List ℕ) :
    search K index width startKey stop ret = some (ret ++ valuesWhere K index wanted) := by
  have hmono : ∀ i j, i ≤ j → j < count K index → K.number (keyOf K (recordAt K index i)) ≤
      K.number (keyOf K (recordAt K index j)) := fun i j hij hj => number_mono hsorted hij hj
  have hle := (@BinarySearch.isBound_keys _ _ (fun i => K.number (keyOf K (recordAt K index i)))
    (count K index) (K.number startKey) hmono).le_right
  have hcollect := @BinarySearch.collect_lowerBound _ _
    (fun i => K.number (keyOf K (recordAt K index i))) (count K index) (K.number startKey)
    (fun i => !stop (keyOf K (recordAt K index i))) (fun i => wanted (keyOf K (recordAt K index i)))
    hmono (fun i _ => hwanted _) (fun i j hij hj hstart hmatch => by
      rw [Bool.not_eq_true'] at hmatch ⊢
      exact hinitial _ _ hstart (hmono i j hij hj) hmatch)
  rw [search, bisect_eq hlength startKey le_rfl (Nat.sub_le ..)]
  simp only
  rw [scan_eq hlength stop (Nat.add_sub_cancel' hle), hcollect, map_filter_range]

theorem binarySearch_eq (hlength : index.length < 2 ^ 64) (hsorted : Sorted K (records K index))
    (key : K.Key) (ret : List ℕ) : binarySearch K index key ret =
      some (ret ++ valuesWhere K index fun other => decide (other = key)) := by
  refine search_eq hlength hsorted ?_ ?_ ret
  · intro other
    rw [K.ne_eq, Bool.not_not, Bool.eq_iff_iff, Bool.and_eq_true, decide_eq_true_eq,
      decide_eq_true_eq]
    exact ⟨fun h => ⟨by rw [h], h⟩, fun h => h.2⟩
  · intro other later hstart hle hstop
    rw [K.ne_eq, Bool.not_eq_false', decide_eq_true_eq] at hstop ⊢
    subst hstop
    exact K.number_inj (le_antisymm hle hstart)

theorem binarySearchRange_eq (hlength : index.length < 2 ^ 32)
    (hsorted : Sorted K (records K index)) (startKey endKey : K.Key) :
    binarySearchRange K index startKey endKey = some (valuesWhere K index fun key =>
      decide (K.number startKey ≤ K.number key ∧ K.number key < K.number endKey)) := by
  rw [binarySearchRange, ← List.nil_append (valuesWhere K index _)]
  refine search_eq hlength hsorted ?_ ?_ []
  · intro key
    rw [K.ge_eq, Bool.decide_and, ← decide_not]
    congr 1
    exact decide_eq_decide.mpr not_le.symm
  · intro key later _ hle hstop
    rw [K.ge_eq, decide_eq_false_iff_not, not_le] at hstop ⊢
    exact hle.trans_lt hstop

/-- The search of `getOffsetList` is this one, on the bytes it has read. -/
theorem binarySearch_read (mem : Memory) (start : ℕ) {indexLen : ℕ} (hlength : indexLen < 2 ^ 64)
    {key : List UInt8} (hkey : K.size ≤ key.length) (ret : List ℕ) :
    binarySearch K (mem.read start indexLen) (keyOf K key) ret =
      some (ret ++ TrafficDatabase.binarySearch mem start indexLen K.size key) := by
  set index := mem.read start indexLen with hindex
  have hbytes : index.length = indexLen := Memory.length_read ..
  have hcount : count K index = indexLen / (K.size + 8) := by rw [count, hbytes]; rfl
  have hrecord : ∀ i < count K index,
      recordAt K index i = mem.read (start + i * (K.size + 8)) (K.size + 8) := by
    intro i hi
    have hplace := place_le hi
    rw [hbytes] at hplace
    have hrest : eleLen K ≤ indexLen - i * eleLen K := by omega
    rw [recordAt, hindex, Memory.read_drop _ _ (by omega), Memory.read_take _ _ hrest]
    rfl
  have hnumber : ∀ i < count K index, K.number (keyOf K (recordAt K index i)) =
      ofLittleEndian (mem.read (start + i * (K.size + 8)) K.size) := by
    intro i hi
    rw [hrecord i hi, keyOf, Memory.read_take _ _ (Nat.le_add_right ..),
      K.number_ofBytes (Memory.length_read ..)]
  have hvalue : ∀ i < count K index, valueOf K (recordAt K index i) =
      ofLittleEndian (mem.read (start + i * (K.size + 8) + K.size) 8) := by
    intro i hi
    rw [hrecord i hi, valueOf, Memory.read_drop _ _ (Nat.le_add_right ..),
      Nat.add_sub_cancel_left]
  have hkeyNumber : K.number (keyOf K key) = recordKey K.size key :=
    K.number_ofBytes (List.length_take_of_le hkey)
  have hlower := @BinarySearch.lowerBound_congr
    (fun i => decide (K.number (keyOf K (recordAt K index i)) < K.number (keyOf K key)))
    (fun i => decide (ofLittleEndian (mem.read (start + i * (K.size + 8)) K.size) <
      recordKey K.size key)) (count K index) 0 (count K index)
    fun i hi => by rw [hnumber i hi, hkeyNumber]
  rw [binarySearch, search, bisect_eq (by omega) _ le_rfl (Nat.sub_le ..)]
  simp only
  rw [hlower, TrafficDatabase.binarySearch, BinarySearch.equalRange, ← hcount]
  generalize hleft : BinarySearch.lowerBound _ (count K index) 0 (count K index) = left
  have hle : left ≤ count K index := hleft ▸ BinarySearch.lowerBound_le _ (Nat.zero_le _)
  have hmatch := @BinarySearch.collect_congr
    (fun i => !K.ne (keyOf K (recordAt K index i)) (keyOf K key))
    (fun i => decide (ofLittleEndian (mem.read (start + i * (K.size + 8)) K.size) =
      recordKey K.size key)) (count K index - left) left
    fun i hi => by
      rw [K.ne_eq, Bool.not_not, ← hnumber i (by omega), ← hkeyNumber]
      exact decide_eq_decide.mpr ⟨fun h => by rw [h], K.number_inj⟩
  rw [scan_eq (by omega) _ (Nat.add_sub_cancel' hle), hmatch]
  refine congrArg (fun values => some (ret ++ values)) (List.map_congr_left fun i hi => ?_)
  exact hvalue i (by have := BinarySearch.lt_of_mem_collect hi; omega)

/-- The records of the array are as long as an element. -/
theorem size_le_of_mem_records {record : List UInt8} (h : record ∈ records K index) :
    K.size ≤ record.length := by
  obtain ⟨i, hi, rfl⟩ := List.mem_map.mp h
  rw [length_recordAt (List.mem_range.mp hi)]
  exact Nat.le_add_right ..

/-- On sorted records, in an array whose length the parameter has room for,
`binarySearch` puts the values of the key behind `ret`, and `binarySearchRange`
returns those of the keys from `startKey` up to `endKey`, none if these are not in
order; both in the order of the array, and without a read outside it.  The order
of the operators is the order the records are sorted by. -/
theorem search_exact (K : KeyType) {index : List UInt8} (hsorted : Sorted K (records K index)) :
    (index.length < 2 ^ 64 → ∀ key ret, binarySearch K index key ret =
      some (ret ++ valuesWhere K index fun other => decide (other = key))) ∧
    (index.length < 2 ^ 32 → ∀ startKey endKey,
      binarySearchRange K index startKey endKey = some (valuesWhere K index fun key =>
        decide (K.number startKey ≤ K.number key ∧ K.number key < K.number endKey)) ∧
      (K.ge startKey endKey = true → binarySearchRange K index startKey endKey = some [])) ∧
    SortedByKey K.size (records K index) := by
  refine ⟨fun hlength key ret => binarySearch_eq hlength hsorted key ret,
    fun hlength startKey endKey => ⟨binarySearchRange_eq hlength hsorted startKey endKey, ?_⟩,
    (sorted_iff fun _ => size_le_of_mem_records).mp hsorted⟩
  intro hge
  rw [binarySearchRange_eq hlength hsorted, valuesWhere, List.filter_eq_nil_iff.mpr, List.map_nil]
  intro record _ hwanted
  rw [K.ge_eq, decide_eq_true_eq] at hge
  rw [decide_eq_true_eq] at hwanted
  exact absurd (hwanted.1.trans_lt hwanted.2) (not_lt.mpr hge)

/-- A record of port 80 and one of port 443. -/
def twoPorts : List UInt8 :=
  toLittleEndian 2 80 ++ toLittleEndian 8 7 ++ (toLittleEndian 2 443 ++ toLittleEndian 8 9)

theorem search_exact_twoPorts :
    binarySearch KeyType.u16 twoPorts (443 : UInt16) [5] = some [5, 9] ∧
      binarySearchRange KeyType.u16 twoPorts (443 : UInt16) (80 : UInt16) = some [] :=
  have h := search_exact KeyType.u16 (show Sorted KeyType.u16 (records KeyType.u16 twoPorts) by
    decide)
  ⟨h.1 (by decide) (443 : UInt16) [5], (h.2.1 (by decide) (443 : UInt16) (80 : UInt16)).2 rfl⟩

end RecordSearch

end TrafficDatabase
