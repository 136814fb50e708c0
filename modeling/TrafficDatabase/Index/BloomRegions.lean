import TrafficDatabase.Index.PrefixQueries

/-!
# The rows of the levels

Each type of index has its own part of the rows of the bitmap, and in it one
region for each level: a port has one, an IPv4 address two direct ones and two
hashed ones, an IPv6 address a direct one and fourteen hashed ones.  The regions
are disjoint and end before `requiredRows` (`InRegion.unique`,
`InRegion.lt_requiredRows`), and every call stays in the regions of its type.

Within a hashed level the slices of the bytes are 256 rows apart, a quarter of
`IPV4_BLOOM_LEN`, so that they overlap those of the next three bytes
(`slicesApart_iff`).
-/

namespace TrafficDatabase

namespace PrefixBloomFilter

/-! ## Regions -/

/-- The rows the constructor asks for. -/
def requiredRows : ℕ := (portBitLen + ipv4BitLen + ipv6BitLen) * 2

/-- The offset of a type. -/
def typeStart : IndexType → ℕ
  | .srcport => 0
  | .dstport => portBitLen
  | .srcip => portBitLen * 2
  | .dstip => portBitLen * 2 + ipv4BitLen
  | .srcipv6 => portBitLen * 2 + ipv4BitLen * 2
  | .dstipv6 => portBitLen * 2 + ipv4BitLen * 2 + ipv6BitLen

def typeLen : IndexType → ℕ
  | .srcport | .dstport => portBitLen
  | .srcip | .dstip => ipv4BitLen
  | .srcipv6 | .dstipv6 => ipv6BitLen

/-- The levels before the first hashed one. -/
def directLevels : IndexType → ℕ
  | .srcport | .dstport => 1
  | .srcip | .dstip => 2
  | .srcipv6 | .dstipv6 => 1

def levelCount : IndexType → ℕ
  | .srcport | .dstport => 1
  | .srcip | .dstip => 4
  | .srcipv6 | .dstipv6 => 15

def directLen : ℕ := sliceValueCount * sliceValueCount

def hashedLen : ℕ := sliceValueCount * ipv4BloomLen

/-- Where a level begins, counted from the offset of its type. -/
def levelStart (type : IndexType) (level : ℕ) : ℕ :=
  min level (directLevels type) * directLen + (level - directLevels type) * hashedLen

def levelLen (type : IndexType) (level : ℕ) : ℕ :=
  if level < directLevels type then directLen else hashedLen

/-- The row is one of the level's. -/
structure InRegion (type : IndexType) (level row : ℕ) : Prop where
  level_lt : level < levelCount type
  start_le : typeStart type + levelStart type level ≤ row
  lt_end : row < typeStart type + levelStart type level + levelLen type level

/-- A level ends where the next one begins. -/
theorem levelStart_succ (type : IndexType) (level : ℕ) :
    levelStart type (level + 1) = levelStart type level + levelLen type level := by
  unfold levelStart levelLen
  split_ifs with hlt
  · have hsub : level + 1 - directLevels type = level - directLevels type := by omega
    rw [Nat.min_eq_left hlt, Nat.min_eq_left hlt.le, hsub, Nat.succ_mul]
    omega
  · have hsub : level + 1 - directLevels type = level - directLevels type + 1 := by omega
    rw [Nat.min_eq_right (by omega), Nat.min_eq_right (by omega), hsub, Nat.succ_mul,
      Nat.add_assoc]

theorem levelStart_mono (type : IndexType) {level later : ℕ} (h : level ≤ later) :
    levelStart type level ≤ levelStart type later := by
  induction later, h using Nat.le_induction with
  | base => exact le_rfl
  | succ later _ ih =>
      rw [levelStart_succ]
      exact ih.trans (Nat.le_add_right ..)

/-- All levels together are as long as the part of the type. -/
theorem levelStart_levelCount (type : IndexType) :
    levelStart type (levelCount type) = typeLen type := by
  cases type <;> rfl

theorem typeStart_add_typeLen_le (type : IndexType) :
    typeStart type + typeLen type ≤ requiredRows := by
  cases type <;> decide

theorem types_apart {type other : IndexType} (h : type ≠ other) :
    typeStart type + typeLen type ≤ typeStart other ∨
      typeStart other + typeLen other ≤ typeStart type := by
  revert h
  cases type <;> cases other <;> decide

namespace InRegion

variable {type other : IndexType} {level otherLevel row : ℕ}

theorem typeStart_le (h : InRegion type level row) : typeStart type ≤ row :=
  (Nat.le_add_right ..).trans h.start_le

theorem lt_typeEnd (h : InRegion type level row) : row < typeStart type + typeLen type := by
  have hend := levelStart_mono type (Nat.succ_le_iff.mpr h.level_lt)
  rw [Nat.succ_eq_add_one, levelStart_succ, levelStart_levelCount] at hend
  have := h.lt_end
  omega

theorem lt_requiredRows (h : InRegion type level row) : row < requiredRows :=
  h.lt_typeEnd.trans_le (typeStart_add_typeLen_le type)

/-- A row is in one region only. -/
theorem unique (h : InRegion type level row) (h' : InRegion other otherLevel row) :
    type = other ∧ level = otherLevel := by
  have htype : type = other := by
    by_contra hne
    have hstart := h.typeStart_le
    have hend := h.lt_typeEnd
    have hstart' := h'.typeStart_le
    have hend' := h'.lt_typeEnd
    rcases types_apart hne with hle | hle
    · omega
    · omega
  subst htype
  refine ⟨rfl, ?_⟩
  have hlater : ∀ {first second : ℕ}, InRegion type first row → InRegion type second row →
      ¬ first < second := by
    intro first second hfirst hsecond hlt
    have hmono := levelStart_mono type (Nat.succ_le_iff.mpr hlt)
    rw [Nat.succ_eq_add_one, levelStart_succ] at hmono
    have hend := hfirst.lt_end
    have hstart := hsecond.start_le
    omega
  exact Nat.le_antisymm (Nat.not_lt.mp (hlater h' h)) (Nat.not_lt.mp (hlater h h'))

end InRegion

/-! ## The rows of a call, by level -/

variable (hash : StdHash) (k : ℕ)

/-- The rows an IPv4 address has in a level. -/
def ipv4LevelRows (ip offset : ℕ) : ℕ → List ℕ
  | 0 => [pairRow (ip >>> 24 % 256) (ip >>> 16 % 256) offset]
  | 1 => [pairRow (ip >>> 8 % 256) (ip % 256) (offset + sliceValueCount * sliceValueCount)]
  | 2 => ipv4BloomRows hash k ip offset 1
  | 3 => ipv4BloomRows hash k ip offset 0
  | _ => []

/-- The rows an IPv6 address has in a level. -/
def ipv6LevelRows (ip : IPv6Address) (offset level : ℕ) : List ℕ :=
  if level = 0 then
    [pairRow ((ip.shiftRight 120).low % 256) ((ip.shiftRight 112).low % 256) offset]
  else if level < 15 then ipv6BloomRows hash k ip offset (14 - level)
  else []

/-- The rows of all pairs that start with a byte. -/
def pairRows (byte offset : ℕ) : List ℕ :=
  (List.range sliceValueCount).map fun next => pairRow byte next offset

/-- The types the key can be inserted for. -/
def BloomKey.Fits : BloomKey → IndexType → Prop
  | .port _, type => type = .srcport ∨ type = .dstport
  | .ipv4 _, type => type = .srcip ∨ type = .dstip
  | .ipv6 _, type => type = .srcipv6 ∨ type = .dstipv6

instance (key : BloomKey) (type : IndexType) : Decidable (key.Fits type) :=
  match key with
  | .port _ => inferInstanceAs (Decidable (_ ∨ _))
  | .ipv4 _ => inferInstanceAs (Decidable (_ ∨ _))
  | .ipv6 _ => inferInstanceAs (Decidable (_ ∨ _))

/-- The rows an insertion sets in a level. -/
def setRows (key : BloomKey) (type : IndexType) (level : ℕ) : List ℕ :=
  match key with
  | .port port => if level = 0 then [typeStart type + port.toNat] else []
  | .ipv4 ip => ipv4LevelRows hash k ip.toNat (typeStart type) level
  | .ipv6 ip => ipv6LevelRows hash k ip (typeStart type) level

/-- A query: for a whole key, or for the first bytes of an address. -/
inductive BloomQuery
  | whole (key : BloomKey)
  | ipv4Prefix (ip : UInt32) (prefixLen : ℕ)
  | ipv6Prefix (ip : IPv6Address) (prefixLen : ℕ)
deriving DecidableEq

/-- `getPort`, `getIPv4` or `getIPv6`. -/
def answer (bm : BitMap) (filter : PrefixBloomFilter) (query : BloomQuery) (type : IndexType) :
    Bool :=
  match query with
  | .whole (.port port) => filter.getPort bm port.toNat type
  | .whole (.ipv4 ip) => filter.getIPv4 hash k bm ip.toNat type
  | .whole (.ipv6 ip) => filter.getIPv6 hash k bm ip type
  | .ipv4Prefix ip prefixLen => filter.getIPv4Prefix hash k bm ip.toNat type prefixLen
  | .ipv6Prefix ip prefixLen => filter.getIPv6Prefix hash k bm ip type prefixLen

/-- The rows a query can look at in a level; a prefix may be scanned for in the
direct ones. -/
def readRows (query : BloomQuery) (type : IndexType) (level : ℕ) : List ℕ :=
  match query with
  | .whole key => setRows hash k key type level
  | .ipv4Prefix ip _ =>
      if level = 0 then pairRows (ip.toNat >>> 24 % 256) (typeStart type)
      else if level = 1 then
        pairRows (ip.toNat >>> 8 % 256) (typeStart type + sliceValueCount * sliceValueCount)
      else ipv4LevelRows hash k ip.toNat (typeStart type) level
  | .ipv6Prefix ip _ =>
      if level = 0 then pairRows ((ip.shiftRight 120).low % 256) (typeStart type)
      else ipv6LevelRows hash k ip (typeStart type) level

/-! ## The rows lie in the regions -/

variable {hash k}

theorem mem_pairRows {byte next offset : ℕ} (hnext : next < sliceValueCount) :
    pairRow byte next offset ∈ pairRows byte offset :=
  List.mem_map.mpr ⟨next, List.mem_range.mpr hnext, rfl⟩

theorem pairRows_bounds {byte offset row : ℕ} (hbyte : byte < 256)
    (h : row ∈ pairRows byte offset) : offset ≤ row ∧ row < offset + directLen := by
  obtain ⟨next, hnext, rfl⟩ := List.mem_map.mp h
  rw [List.mem_range] at hnext
  unfold pairRow directLen
  unfold sliceValueCount at hnext ⊢
  omega

theorem bloomRows_bounds {element : List UInt8} {offset byte row : ℕ} (hbyte : byte < 256)
    (h : row ∈ bloomRows hash k element offset byte ipv4BloomLen) :
    offset ≤ row ∧ row < offset + hashedLen := by
  obtain ⟨i, -, rfl⟩ := List.mem_map.mp h
  have hhash := Nat.mod_lt (hashFunction hash element i) (by decide : 0 < ipv4BloomLen)
  unfold hashedLen
  unfold sliceValueCount ipv4BloomLen at *
  omega

variable {type : IndexType} {level row : ℕ}

theorem directLevels_le (type : IndexType) : directLevels type ≤ levelCount type := by
  cases type <;> decide

/-- A pair of bytes in a direct level. -/
theorem inRegion_pairRows {byte offset : ℕ} (hbyte : byte < 256)
    (hlevel : level < directLevels type)
    (hoffset : offset = typeStart type + level * directLen) (h : row ∈ pairRows byte offset) :
    InRegion type level row := by
  obtain ⟨hstart, hend⟩ := pairRows_bounds hbyte h
  have hlevelStart : levelStart type level = level * directLen := by
    unfold levelStart
    rw [Nat.min_eq_left hlevel.le, Nat.sub_eq_zero_of_le hlevel.le, Nat.zero_mul, Nat.add_zero]
  have hlen : levelLen type level = directLen := if_pos hlevel
  refine ⟨hlevel.trans_le (directLevels_le type), ?_, ?_⟩
  · rw [hlevelStart, ← hoffset]
    exact hstart
  · rw [hlevelStart, ← hoffset, hlen]
    exact hend

/-- A byte in a hashed level. -/
theorem inRegion_bloomRows {element : List UInt8} {byte offset j : ℕ} (hbyte : byte < 256)
    (hlevel : level = directLevels type + j) (hcount : level < levelCount type)
    (hoffset : offset = typeStart type + directLevels type * directLen + j * hashedLen)
    (h : row ∈ bloomRows hash k element offset byte ipv4BloomLen) : InRegion type level row := by
  obtain ⟨hstart, hend⟩ := bloomRows_bounds hbyte h
  have hlevelStart : levelStart type level = directLevels type * directLen + j * hashedLen := by
    unfold levelStart
    rw [hlevel, Nat.min_eq_right (Nat.le_add_right ..), Nat.add_sub_cancel_left]
  have hlen : levelLen type level = hashedLen := if_neg (by omega)
  refine ⟨hcount, ?_, ?_⟩
  · rw [hlevelStart, ← Nat.add_assoc, ← hoffset]
    exact hstart
  · rw [hlevelStart, ← Nat.add_assoc, ← hoffset, hlen]
    exact hend

theorem inRegion_ipv4LevelRows {ip : ℕ} (htype : type = .srcip ∨ type = .dstip)
    (h : row ∈ ipv4LevelRows hash k ip (typeStart type) level) : InRegion type level row := by
  have hdirect : directLevels type = 2 := by rcases htype with rfl | rfl <;> rfl
  have hcount : levelCount type = 4 := by rcases htype with rfl | rfl <;> rfl
  have hbyte : ∀ n : ℕ, n % 256 < 256 := fun n => Nat.mod_lt n (by decide)
  match level with
  | 0 =>
      rw [ipv4LevelRows, List.mem_singleton] at h
      subst h
      exact inRegion_pairRows (hbyte _) (by omega) (by rw [Nat.zero_mul, Nat.add_zero])
        (mem_pairRows (hbyte _))
  | 1 =>
      rw [ipv4LevelRows, List.mem_singleton] at h
      subst h
      exact inRegion_pairRows (hbyte _) (by omega) (by rw [Nat.one_mul]; rfl)
        (mem_pairRows (hbyte _))
  | 2 => exact inRegion_bloomRows (j := 0) (hbyte _) (by omega) (by omega) (by rw [hdirect]; rfl) h
  | 3 => exact inRegion_bloomRows (j := 1) (hbyte _) (by omega) (by omega) (by rw [hdirect]; rfl) h
  | level + 4 => cases h

theorem inRegion_ipv6LevelRows {ip : IPv6Address} (htype : type = .srcipv6 ∨ type = .dstipv6)
    (h : row ∈ ipv6LevelRows hash k ip (typeStart type) level) : InRegion type level row := by
  have hdirect : directLevels type = 1 := by rcases htype with rfl | rfl <;> rfl
  have hcount : levelCount type = 15 := by rcases htype with rfl | rfl <;> rfl
  have hbyte : ∀ n : ℕ, n % 256 < 256 := fun n => Nat.mod_lt n (by decide)
  unfold ipv6LevelRows at h
  split_ifs at h with hzero hlt
  · rw [List.mem_singleton] at h
    subst hzero h
    exact inRegion_pairRows (hbyte _) (by omega) (by rw [Nat.zero_mul, Nat.add_zero])
      (mem_pairRows (hbyte _))
  · refine inRegion_bloomRows (j := level - 1) (hbyte _) (by omega) (by omega) ?_ h
    have hback : 13 - (14 - level) = level - 1 := by omega
    rw [hdirect, hback, Nat.one_mul, Nat.mul_comm (level - 1)]
    rfl
  · cases h

/-- An insertion stays in the regions of its type. -/
theorem inRegion_setRows {key : BloomKey} (hfits : key.Fits type)
    (h : row ∈ setRows hash k key type level) : InRegion type level row := by
  cases key with
  | port port =>
      have hport := port.toNat_lt
      simp only [setRows] at h
      split_ifs at h with hzero
      · rw [List.mem_singleton] at h
        subst hzero h
        rcases hfits with rfl | rfl
        · exact ⟨by decide, Nat.le_add_right .., Nat.add_lt_add_left hport _⟩
        · exact ⟨by decide, Nat.le_add_right .., Nat.add_lt_add_left hport _⟩
      · cases h
  | ipv4 ip => exact inRegion_ipv4LevelRows hfits h
  | ipv6 ip => exact inRegion_ipv6LevelRows hfits h

/-- The types a query is answered for. -/
def BloomQuery.Fits : BloomQuery → IndexType → Prop
  | .whole key, type => key.Fits type
  | .ipv4Prefix _ _, type => type = .srcip ∨ type = .dstip
  | .ipv6Prefix _ _, type => type = .srcipv6 ∨ type = .dstipv6

/-- A query stays in the regions of its type. -/
theorem inRegion_readRows {query : BloomQuery} (hfits : query.Fits type)
    (h : row ∈ readRows hash k query type level) : InRegion type level row := by
  have hbyte : ∀ n : ℕ, n % 256 < 256 := fun n => Nat.mod_lt n (by decide)
  cases query with
  | whole key => exact inRegion_setRows hfits h
  | ipv4Prefix ip prefixLen =>
      have hdirect : directLevels type = 2 := by rcases hfits with rfl | rfl <;> rfl
      simp only [readRows] at h
      split_ifs at h with hzero hone
      · subst hzero
        exact inRegion_pairRows (hbyte _) (by omega) (by rw [Nat.zero_mul, Nat.add_zero]) h
      · subst hone
        exact inRegion_pairRows (hbyte _) (by omega) (by rw [Nat.one_mul]; rfl) h
      · exact inRegion_ipv4LevelRows hfits h
  | ipv6Prefix ip prefixLen =>
      have hdirect : directLevels type = 1 := by rcases hfits with rfl | rfl <;> rfl
      simp only [readRows] at h
      split_ifs at h with hzero
      · subst hzero
        exact inRegion_pairRows (hbyte _) (by omega) (by rw [Nat.zero_mul, Nat.add_zero]) h
      · exact inRegion_ipv6LevelRows hfits h

/-! ## What a call does to the rows -/

variable {bm other : BitMap} {filter : PrefixBloomFilter}

theorem ipv4Rows_levels (ip offset : ℕ) : ipv4Rows hash k ip offset =
    (List.range 4).flatMap (ipv4LevelRows hash k ip offset) := by
  rw [ipv4Rows_eq]
  simp [List.range_succ, ipv4LevelRows]

/-- The loop goes down the bytes, that is up the levels. -/
theorem ipv6Rows_levels (ip : IPv6Address) (offset : ℕ) :
    ipv6Rows hash k ipv4BloomLen ip offset =
      (List.range 15).flatMap (ipv6LevelRows hash k ip offset) := by
  have hdown : (List.range 14).reverse = (List.range 14).map fun j => 13 - j := by decide
  have hlevel : ∀ j ∈ List.range 14,
      ipv6LevelRows hash k ip offset (j + 1) = ipv6BloomRows hash k ip offset (13 - j) := by
    intro j hj
    rw [List.mem_range] at hj
    have hback : 14 - (j + 1) = 13 - j := by omega
    rw [ipv6LevelRows, if_neg (Nat.succ_ne_zero j), if_pos (by omega), hback]
  have hup : List.range 15 = 0 :: (List.range 14).map Nat.succ := List.range_succ_eq_map
  rw [ipv6Rows_eq, hdown, hup, List.flatMap_map, List.flatMap_cons, List.flatMap_map]
  generalize List.range 14 = levels at hlevel
  exact congrArg (List.append _) (List.flatMap_congr hlevel).symm

/-- An insertion sets its rows level by level, up to the first that is out of
range; one for another family's type does nothing. -/
theorem insert_eq_setAll (key : BloomKey) (type : IndexType) :
    filter.insert hash k bm key type =
      if key.Fits type then bm.setAll filter.writingCol
        ((List.range (levelCount type)).flatMap (setRows hash k key type))
      else (false, bm) := by
  cases key with
  | port port =>
      cases type with
      | srcport =>
          rw [if_pos (.inl rfl)]
          exact (insertPort_srcport _).trans (by rw [← Nat.zero_add port.toNat]; rfl)
      | dstport =>
          rw [if_pos (.inr rfl)]
          exact insertPort_dstport _
      | srcip | dstip | srcipv6 | dstipv6 => rfl
  | ipv4 ip =>
      cases type with
      | srcip =>
          rw [if_pos (.inl rfl)]
          exact congrArg (bm.setAll filter.writingCol) (ipv4Rows_levels ..)
      | dstip =>
          rw [if_pos (.inr rfl)]
          exact congrArg (bm.setAll filter.writingCol) (ipv4Rows_levels ..)
      | srcport | dstport | srcipv6 | dstipv6 => rfl
  | ipv6 ip =>
      cases type with
      | srcipv6 =>
          rw [if_pos (.inl rfl)]
          exact congrArg (bm.setAll filter.writingCol) (ipv6Rows_levels ..)
      | dstipv6 =>
          rw [if_pos (.inr rfl)]
          exact congrArg (bm.setAll filter.writingCol) (ipv6Rows_levels ..)
      | srcip | dstip | srcport | dstport => rfl

/-! ## What a query depends on -/

theorem getAll_congr {rows : List ℕ}
    (h : ∀ row ∈ rows, bm.get row filter.readingCol = other.get row filter.readingCol) :
    filter.getAll bm rows = filter.getAll other rows := by
  unfold getAll
  rw [Bool.eq_iff_iff, List.all_eq_true, List.all_eq_true]
  exact forall₂_congr fun row hrow => by rw [h row hrow]

theorem getAnyPair_congr {byte offset : ℕ} (h : ∀ row ∈ pairRows byte offset,
    bm.get row filter.readingCol = other.get row filter.readingCol) :
    filter.getAnyPair bm byte offset = filter.getAnyPair other byte offset := by
  unfold getAnyPair
  rw [Bool.eq_iff_iff, List.any_eq_true, List.any_eq_true]
  refine exists_congr fun next => and_congr_right fun hnext => ?_
  rw [h _ (mem_pairRows (List.mem_range.mp hnext))]

theorem checkIPv4Prefix_congr {ip offset prefixLen : ℕ}
    (hfirst : ∀ row ∈ pairRows (ip >>> 24 % 256) offset,
      bm.get row filter.readingCol = other.get row filter.readingCol)
    (hsecond : ∀ row ∈ pairRows (ip >>> 8 % 256) (offset + sliceValueCount * sliceValueCount),
      bm.get row filter.readingCol = other.get row filter.readingCol)
    (hrows : ∀ i < 2, ∀ row ∈ ipv4BloomRows hash k ip offset i,
      bm.get row filter.readingCol = other.get row filter.readingCol) :
    filter.checkIPv4Prefix hash k bm ip offset prefixLen =
      filter.checkIPv4Prefix hash k other ip offset prefixLen := by
  have hbyte : ∀ n : ℕ, n % 256 < sliceValueCount := fun n => Nat.mod_lt n (by decide)
  have hloop : (∀ i < 2, 4 ≤ i + prefixLen →
        filter.getAll bm (ipv4BloomRows hash k ip offset i) = true) ↔
      ∀ i < 2, 4 ≤ i + prefixLen →
        filter.getAll other (ipv4BloomRows hash k ip offset i) = true :=
    forall₂_congr fun i hi => by rw [getAll_congr (hrows i hi)]
  rw [Bool.eq_iff_iff, checkIPv4Prefix_iff, checkIPv4Prefix_iff, getAnyPair_congr hfirst,
    getAnyPair_congr hsecond, hfirst _ (mem_pairRows (hbyte _)),
    hsecond _ (mem_pairRows (hbyte _)), hloop]

theorem checkIPv6Prefix_congr {ip : IPv6Address} {offset prefixLen : ℕ}
    (hfirst : ∀ row ∈ pairRows ((ip.shiftRight 120).low % 256) offset,
      bm.get row filter.readingCol = other.get row filter.readingCol)
    (hrows : ∀ i < 14, ∀ row ∈ ipv6BloomRows hash k ip offset i,
      bm.get row filter.readingCol = other.get row filter.readingCol) :
    filter.checkIPv6Prefix hash k bm ip offset prefixLen =
      filter.checkIPv6Prefix hash k other ip offset prefixLen := by
  have hbyte : ∀ n : ℕ, n % 256 < sliceValueCount := fun n => Nat.mod_lt n (by decide)
  have hloop : (∀ i < 14, 16 ≤ i + prefixLen →
        filter.getAll bm (ipv6BloomRows hash k ip offset i) = true) ↔
      ∀ i < 14, 16 ≤ i + prefixLen →
        filter.getAll other (ipv6BloomRows hash k ip offset i) = true :=
    forall₂_congr fun i hi => by rw [getAll_congr (hrows i hi)]
  rw [Bool.eq_iff_iff, checkIPv6Prefix_iff, checkIPv6Prefix_iff, getAnyPair_congr hfirst,
    hfirst _ (mem_pairRows (hbyte _)), hloop]

/-- The bitmaps agree on what a query can look at. -/
def SameAnswers (hash : StdHash) (k : ℕ) (filter : PrefixBloomFilter) (query : BloomQuery)
    (type : IndexType) (bm other : BitMap) : Prop :=
  query.Fits type → ∀ level < levelCount type, ∀ row ∈ readRows hash k query type level,
    bm.get row filter.readingCol = other.get row filter.readingCol

theorem getIPv4Prefix_congr {ip : UInt32} {prefixLen : ℕ} (type : IndexType)
    (h : SameAnswers hash k filter (.ipv4Prefix ip prefixLen) type bm other) :
    filter.getIPv4Prefix hash k bm ip.toNat type prefixLen =
      filter.getIPv4Prefix hash k other ip.toNat type prefixLen := by
  have hcheck : type = .srcip ∨ type = .dstip →
      filter.checkIPv4Prefix hash k bm ip.toNat (typeStart type) prefixLen =
        filter.checkIPv4Prefix hash k other ip.toNat (typeStart type) prefixLen := by
    intro htype
    have hcount : levelCount type = 4 := by rcases htype with rfl | rfl <;> rfl
    refine checkIPv4Prefix_congr (h htype 0 (by omega)) (h htype 1 (by omega)) fun i hi => ?_
    match i, hi with
    | 0, _ => exact h htype 3 (by omega)
    | 1, _ => exact h htype 2 (by omega)
  cases type with
  | srcip => exact hcheck (.inl rfl)
  | dstip => exact hcheck (.inr rfl)
  | srcport | dstport | srcipv6 | dstipv6 => rfl

theorem getIPv6Prefix_congr {ip : IPv6Address} {prefixLen : ℕ} (type : IndexType)
    (h : SameAnswers hash k filter (.ipv6Prefix ip prefixLen) type bm other) :
    filter.getIPv6Prefix hash k bm ip type prefixLen =
      filter.getIPv6Prefix hash k other ip type prefixLen := by
  have hcheck : type = .srcipv6 ∨ type = .dstipv6 →
      filter.checkIPv6Prefix hash k bm ip (typeStart type) prefixLen =
        filter.checkIPv6Prefix hash k other ip (typeStart type) prefixLen := by
    intro htype
    have hcount : levelCount type = 15 := by rcases htype with rfl | rfl <;> rfl
    refine checkIPv6Prefix_congr (h htype 0 (by omega)) fun i hi row hrow => ?_
    refine h htype (14 - i) (by omega) row ?_
    have hback : 14 - (14 - i) = i := by omega
    rw [readRows, if_neg (by omega), ipv6LevelRows, if_neg (by omega), if_pos (by omega), hback]
    exact hrow
  cases type with
  | srcipv6 => exact hcheck (.inl rfl)
  | dstipv6 => exact hcheck (.inr rfl)
  | srcip | dstip | srcport | dstport => rfl

/-- A query for a whole key asks for what an insertion sets. -/
theorem answer_whole (key : BloomKey) (type : IndexType) :
    answer hash k bm filter (.whole key) type =
      (decide (key.Fits type) && filter.getAll bm
        ((List.range (levelCount type)).flatMap (setRows hash k key type))) := by
  cases key with
  | port port =>
      have hget : ∀ row, bm.get row filter.readingCol = filter.getAll bm [row] := by
        intro row
        simp [getAll]
      cases type with
      | srcport =>
          rw [decide_eq_true (.inl rfl), Bool.true_and]
          exact (hget _).trans (by rw [← Nat.zero_add port.toNat]; rfl)
      | dstport =>
          rw [decide_eq_true (.inr rfl), Bool.true_and]
          exact hget _
      | srcip | dstip | srcipv6 | dstipv6 => rfl
  | ipv4 ip =>
      cases type with
      | srcip =>
          rw [decide_eq_true (.inl rfl), Bool.true_and]
          exact congrArg (filter.getAll bm) (ipv4Rows_levels ..)
      | dstip =>
          rw [decide_eq_true (.inr rfl), Bool.true_and]
          exact congrArg (filter.getAll bm) (ipv4Rows_levels ..)
      | srcport | dstport | srcipv6 | dstipv6 => rfl
  | ipv6 ip =>
      cases type with
      | srcipv6 =>
          rw [decide_eq_true (.inl rfl), Bool.true_and]
          exact congrArg (filter.getAll bm) (ipv6Rows_levels ..)
      | dstipv6 =>
          rw [decide_eq_true (.inr rfl), Bool.true_and]
          exact congrArg (filter.getAll bm) (ipv6Rows_levels ..)
      | srcip | dstip | srcport | dstport => rfl

/-- The rows in the levels of the type decide the answer. -/
theorem answer_congr {query : BloomQuery} (type : IndexType)
    (h : SameAnswers hash k filter query type bm other) :
    answer hash k bm filter query type = answer hash k other filter query type := by
  cases query with
  | whole key =>
      rw [answer_whole, answer_whole]
      by_cases hfits : key.Fits type
      · congr 1
        refine getAll_congr fun row hrow => ?_
        obtain ⟨level, hlevel, hmem⟩ := List.mem_flatMap.mp hrow
        exact h hfits level (List.mem_range.mp hlevel) row hmem
      · rw [decide_eq_false hfits, Bool.false_and, Bool.false_and]
  | ipv4Prefix ip prefixLen => exact getIPv4Prefix_congr type h
  | ipv6Prefix ip prefixLen => exact getIPv6Prefix_congr type h

/-! ## The levels do not touch each other -/

/-- An insertion leaves every row that is not one of its own. -/
theorem get_insert_of_notMem {key : BloomKey} {type : IndexType} {row col : ℕ}
    (h : ∀ level, row ∉ setRows hash k key type level) :
    (filter.insert hash k bm key type).2.get row col = bm.get row col := by
  rw [insert_eq_setAll]
  split_ifs
  · refine BitMap.get_setAll_of_notMem fun hmem => ?_
    obtain ⟨level, -, hrow⟩ := List.mem_flatMap.mp hmem
    exact h level hrow
  · rfl

theorem insert_fst {key : BloomKey} {type : IndexType} (hrows : requiredRows ≤ bm.rowCount)
    (hcol : filter.writingCol < bm.colCount) (hfits : key.Fits type) :
    (filter.insert hash k bm key type).1 = true := by
  rw [insert_eq_setAll, if_pos hfits]
  refine BitMap.setAll_fst fun row hrow => ?_
  obtain ⟨level, -, hmem⟩ := List.mem_flatMap.mp hrow
  exact ⟨(inRegion_setRows hfits hmem).lt_requiredRows.trans_le hrows, hcol⟩

theorem answer_insert {key : BloomKey} {type otherType : IndexType} (hne : type ≠ otherType)
    (hfits : key.Fits type) (query : BloomQuery) :
    answer hash k (filter.insert hash k bm key type).2 filter query otherType =
      answer hash k bm filter query otherType := by
  refine answer_congr otherType fun hquery level _ row hrow => ?_
  refine get_insert_of_notMem fun set hset => hne ?_
  exact ((inRegion_setRows hfits hset).unique (inRegion_readRows hquery hrow)).1

/-- The rows of a call are in the regions of its type and level, which have no row
in common and all lie in a bitmap of the size the constructor asks for.  So an
insertion into a column of it succeeds, and changes no answer for another type. -/
theorem regions_isolated (hash : StdHash) (k : ℕ) {bm : BitMap} (filter : PrefixBloomFilter)
    (hrows : requiredRows ≤ bm.rowCount) :
    (∀ key type, BloomKey.Fits key type → ∀ level, ∀ row ∈ setRows hash k key type level,
      row < bm.rowCount ∧ InRegion type level row) ∧
    (∀ query type, BloomQuery.Fits query type → ∀ level, ∀ row ∈ readRows hash k query type level,
      InRegion type level row) ∧
    (∀ type level other otherLevel row, InRegion type level row →
      InRegion other otherLevel row → type = other ∧ level = otherLevel) ∧
    (∀ key type row col, (∀ level, row ∉ setRows hash k key type level) →
      (filter.insert hash k bm key type).2.get row col = bm.get row col) ∧
    (∀ query type other, SameAnswers hash k filter query type bm other →
      answer hash k bm filter query type = answer hash k other filter query type) ∧
    ∀ key type, BloomKey.Fits key type →
      (filter.writingCol < bm.colCount → (filter.insert hash k bm key type).1 = true) ∧
      ∀ query other, type ≠ other →
        answer hash k (filter.insert hash k bm key type).2 filter query other =
          answer hash k bm filter query other := by
  refine ⟨?_, ?_, ?_, ?_, ?_, ?_⟩
  · intro key type hfits level row hrow
    have hregion := inRegion_setRows hfits hrow
    exact ⟨hregion.lt_requiredRows.trans_le hrows, hregion⟩
  · exact fun query type hfits level row hrow => inRegion_readRows hfits hrow
  · exact fun type level other otherLevel row h h' => h.unique h'
  · exact fun key type row col h => get_insert_of_notMem h
  · exact fun query type other h => answer_congr type h
  · intro key type hfits
    exact ⟨fun hcol => insert_fst hrows hcol hfits,
      fun query other hne => answer_insert hne hfits query⟩

/-- Into the last of eight columns. -/
theorem regions_isolated_eightColumns :
    let hash : StdHash := { string := List.length, uint64 := id }
    let bm : BitMap := { rowCount := requiredRows, colCount := 8, backupColCount := 0,
                         bitmap := fun _ => 0, colCount_mod := Nat.mod_self 8,
                         backup_le := Nat.zero_le 8 }
    let filter : PrefixBloomFilter := { writingCol := 7, readingCol := 7 }
    (filter.insert hash 2 bm (.ipv4 0x0a000001) .dstip).1 = true ∧
      answer hash 2 (filter.insert hash 2 bm (.ipv4 0x0a000001) .dstip).2 filter
        (.ipv4Prefix 0x0a000001 1) .srcip =
          answer hash 2 bm filter (.ipv4Prefix 0x0a000001 1) .srcip :=
  have h := (regions_isolated _ _ { writingCol := 7, readingCol := 7 } le_rfl).2.2.2.2.2
    (.ipv4 0x0a000001) .dstip (.inr rfl)
  ⟨h.1 (by decide), h.2 _ _ (by decide)⟩

/-! ## The slices of a hashed level -/

/-- The row `setBloom` and `getBloom` compute. -/
def bloomRow (offset byte residue : ℕ) : ℕ := byte * sliceValueCount + residue + offset

theorem mem_bloomRows {element : List UInt8} {offset byte bloomLen row : ℕ} :
    row ∈ bloomRows hash k element offset byte bloomLen ↔
      ∃ i < k, row = bloomRow offset byte (hashFunction hash element i % bloomLen) := by
  unfold bloomRows bloomRow
  simp only [List.mem_map, List.mem_range, eq_comm]

variable (hash k) in
/-- No byte under a prefix has a row of another byte under another prefix. -/
def SlicesApart (offset : ℕ) (first second : List UInt8) : Prop :=
  ∀ byte < 256, ∀ otherByte < 256, byte ≠ otherByte →
    ∀ row ∈ bloomRows hash k first offset byte ipv4BloomLen,
      row ∉ bloomRows hash k second offset otherByte ipv4BloomLen

/-- Rows of two bytes meet where the residues make up for the distance of the
slices; it is at most three, for the residues are below four times it. -/
theorem bloomRow_eq_iff {offset byte otherByte residue other : ℕ} (hne : byte ≠ otherByte)
    (hresidue : residue < ipv4BloomLen) (hother : other < ipv4BloomLen) :
    bloomRow offset byte residue = bloomRow offset otherByte other ↔
      ∃ d, 1 ≤ d ∧ d ≤ 3 ∧ (otherByte = byte + d ∧ residue = other + sliceValueCount * d ∨
        byte = otherByte + d ∧ other = residue + sliceValueCount * d) := by
  unfold bloomRow sliceValueCount
  unfold ipv4BloomLen at hresidue hother
  constructor
  · intro heq
    rcases Nat.lt_or_gt_of_ne hne with hlt | hgt
    · exact ⟨otherByte - byte, by omega, by omega, .inl ⟨by omega, by omega⟩⟩
    · exact ⟨byte - otherByte, by omega, by omega, .inr ⟨by omega, by omega⟩⟩
  · rintro ⟨d, -, -, ⟨hbyte, hres⟩ | ⟨hbyte, hres⟩⟩
    · omega
    · omega

/-- Two different pairs of a byte and a residue have one row at every level.  The
slices of two prefixes are apart exactly where no two of their residues are 256,
512 or 768 apart. -/
theorem slicesApart_iff (hash : StdHash) (k offset : ℕ) (first second : List UInt8) :
    (¬ ∀ byte < 256, ∀ otherByte < 256, ∀ residue < ipv4BloomLen, ∀ other < ipv4BloomLen,
      bloomRow offset byte residue = bloomRow offset otherByte other →
        byte = otherByte ∧ residue = other) ∧
    (SlicesApart hash k offset first second ↔ ∀ i < k, ∀ j < k, ∀ d, 1 ≤ d → d ≤ 3 →
      hashFunction hash first i % ipv4BloomLen ≠
          hashFunction hash second j % ipv4BloomLen + sliceValueCount * d ∧
        hashFunction hash second j % ipv4BloomLen ≠
          hashFunction hash first i % ipv4BloomLen + sliceValueCount * d) := by
  have hlt : ∀ n, n % ipv4BloomLen < ipv4BloomLen := fun n => Nat.mod_lt n (by decide)
  constructor
  · intro hinjective
    have hsame := hinjective 0 (by decide) 1 (by decide) 256 (by decide) 0 (by decide)
      ((bloomRow_eq_iff Nat.zero_ne_one (by decide) (by decide)).mpr
        ⟨1, le_rfl, by decide, .inl ⟨rfl, rfl⟩⟩)
    exact absurd hsame.1 Nat.zero_ne_one
  · constructor
    · intro hapart i hi j hj d hpos hle
      constructor
      · intro heq
        refine hapart 0 (by decide) d (by omega) (by omega) _ (mem_bloomRows.mpr ⟨i, hi, rfl⟩)
          (mem_bloomRows.mpr ⟨j, hj, ?_⟩)
        exact (bloomRow_eq_iff (by omega) (hlt _) (hlt _)).mpr
          ⟨d, hpos, hle, .inl ⟨(Nat.zero_add d).symm, heq⟩⟩
      · intro heq
        refine hapart d (by omega) 0 (by decide) (by omega) _ (mem_bloomRows.mpr ⟨i, hi, rfl⟩)
          (mem_bloomRows.mpr ⟨j, hj, ?_⟩)
        exact (bloomRow_eq_iff (by omega) (hlt _) (hlt _)).mpr
          ⟨d, hpos, hle, .inr ⟨(Nat.zero_add d).symm, heq⟩⟩
    · intro hresidues byte _ otherByte _ hne row hrow hrow'
      obtain ⟨i, hi, rfl⟩ := mem_bloomRows.mp hrow
      obtain ⟨j, hj, heq⟩ := mem_bloomRows.mp hrow'
      obtain ⟨d, hpos, hle, ⟨-, hres⟩ | ⟨-, hres⟩⟩ := (bloomRow_eq_iff hne (hlt _) (hlt _)).mp heq
      · exact (hresidues i hi j hj d hpos hle).1 hres
      · exact (hresidues i hi j hj d hpos hle).2 hres

/-- Byte 0 with residue 256 and byte 1 with residue 0: at the first hashed level of
`SRCIP`, a query for byte 0 looks at a row of byte 1. -/
theorem slices_overlap :
    bloomRow 262144 0 256 = bloomRow 262144 1 0 ∧
      ¬ SlicesApart { string := ofLittleEndian, uint64 := id } 1 262144 [0, 0, 0, 0] [0, 1, 0, 0] :=
  ⟨rfl, fun hapart => hapart 1 (by decide) 0 (by decide) (by decide) 262400 (by decide) (by decide)⟩

end PrefixBloomFilter

end TrafficDatabase
