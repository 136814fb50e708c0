import Mathlib.Logic.Function.Basic
import TrafficDatabase.Library.Bytes

/-!
# The compressor

`compress` of `compressor.hpp` copies the header of a packet to the output buffer and then the
payload: a byte of it as itself (`0xfe` with a zero behind it), or a run of at least eight
bytes as a `CompressSegment`, when four bytes are found again in the output where the
dictionary points to.

* `search`, `turn`, `loop`: the parts of the code's loop.  A read outside of the payload gives
  `none`, and so does a loop that is still going after `fuel` turns;
* `turn_blind`: a turn goes on to the next byte, or there is a byte it passes over whose value
  does not change what the turn does;
* `Determined`: what it takes to tell the payload from the output.

The loop ends eight bytes before the end of the payload, and what is left then is written
nowhere.  The last four of the eight bytes of a segment are not compared with anything.
-/

namespace TrafficDatabase

structure PcapHeader where
  ts_h : UInt32
  ts_l : UInt32
  caplen : UInt32
  len : UInt32

def PcapHeader.bytes (header : PcapHeader) : List UInt8 :=
  toLittleEndian 4 header.ts_h.toNat ++ toLittleEndian 4 header.ts_l.toNat ++
    toLittleEndian 4 header.caplen.toNat ++ toLittleEndian 4 header.len.toNat

/-- The state of a compressor; `dict` has an entry for each value of the hash. -/
structure Compressor where
  dict : UInt32 → UInt32
  buffer : Memory
  bufferOffset : ℕ

namespace Compressor

/-- `directWriteToBuffer(const char*, u_int32_t)`. -/
def directWriteToBuffer (s : Compressor) (data : List UInt8) : Compressor :=
  { s with
    buffer := s.buffer.write s.bufferOffset data
    bufferOffset := s.bufferOffset + data.length }

/-- `directWriteToBuffer(char)`, with a zero behind a flag. -/
def directWriteChar (s : Compressor) (c : UInt8) : Compressor :=
  if c = 0xfe then (s.directWriteToBuffer [c]).directWriteToBuffer [0]
  else s.directWriteToBuffer [c]

def setDict (s : Compressor) (dindex : UInt32) (pos : ℕ) : Compressor :=
  { s with dict := Function.update s.dict dindex pos.toUInt32 }

/-- A `char` taken to `unsigned`: it is signed. -/
def charToUnsigned (c : UInt8) : UInt32 := c.toInt8.toInt32.toUInt32

/-- The hash of four bytes. -/
def dindexOf (c0 c1 c2 c3 : UInt8) : UInt32 :=
  let mixed := (charToUnsigned c3 <<< 6) ^^^ charToUnsigned c2
  let mixed := (mixed <<< 5) ^^^ charToUnsigned c1
  let mixed := ((0x21 : UInt32) * (mixed <<< 5)) ^^^ charToUnsigned c0
  (mixed >>> 5) &&& 0x3ffff

/-- The bytes of a `CompressSegment`. -/
def segmentBytes (len m_off : ℕ) : List UInt8 :=
  [0xfe, len.toUInt8] ++ toLittleEndian 2 (m_off % 2 ^ 16)

/-- The inner loop, with `left` turns until `len` is `0xff`: how far the payload at `pointer`
and the buffer at `m_pos` agree. -/
def extend (buffer : Memory) (m_pos : ℕ) (data : List UInt8) (pointer now : ℕ) :
    ℕ → ℕ → Option ℕ
  | 0, _ => none
  | left + 1, len => do
    let c ← data[pointer + len]?
    if buffer ((m_pos + len) % 2 ^ 32) = c then
      if (len + 1 + now) % 2 ^ 32 = data.length ∨ len + 1 = 0xff then some (len + 1)
      else extend buffer m_pos data pointer now left (len + 1)
    else some len

/-- The part of a turn from the hash on, with `pointer` behind or at `now`. -/
def search (data : List UInt8) (s : Compressor) (pointer now : ℕ) :
    Option (Compressor × ℕ) := do
  let c0 ← data[pointer]?
  let c1 ← data[pointer + 1]?
  let c2 ← data[pointer + 2]?
  let c3 ← data[pointer + 3]?
  let dindex := dindexOf c0 c1 c2 c3
  let m_pos := (s.dict dindex).toNat
  let m_off := (s.bufferOffset + now - m_pos) % 2 ^ 32
  if m_pos ≥ s.bufferOffset ∨ m_off > 65536 ∨ m_off < 8 then
    some ((s.setDict dindex (now + s.bufferOffset)).directWriteChar c0, (now + 1) % 2 ^ 32)
  else if ¬ (s.buffer m_pos = c0 ∧ s.buffer ((m_pos + 1) % 2 ^ 32) = c1 ∧
      s.buffer ((m_pos + 2) % 2 ^ 32) = c2 ∧ s.buffer ((m_pos + 3) % 2 ^ 32) = c3) then
    some ((s.setDict dindex (now + s.bufferOffset)).directWriteChar c0, (now + 1) % 2 ^ 32)
  else
    let len ← extend s.buffer m_pos data pointer now 247 8
    let s := s.directWriteToBuffer (segmentBytes len m_off)
    some (s.setDict dindex (now + s.bufferOffset), (now + len) % 2 ^ 32)

/-- Some bytes of the payload. -/
def chars (data : List UInt8) (pointer len : ℕ) : Option (List UInt8) :=
  if pointer + len ≤ data.length then some ((data.drop pointer).take len) else none

/-- A turn of the loop. In front of `drop_offset` it writes eight bytes, skips what is dropped
and goes on with the old `pointer`. -/
def turn (data : List UInt8) (drop_offset drop_len : UInt16) (s : Compressor) (now : ℕ) :
    Option (Compressor × ℕ) :=
  if (now + 8) % 2 ^ 32 = drop_offset.toNat then do
    let written ← chars data now 8
    search data (written.foldl directWriteChar s) now ((now + 8 + drop_len.toNat) % 2 ^ 32)
  else search data s now now

/-- The loop, whose bound is a difference of unsigned numbers. -/
def loop (data : List UInt8) (drop_offset drop_len : UInt16) :
    ℕ → Compressor → ℕ → Option Compressor
  | 0, _, _ => none
  | fuel + 1, s, now =>
    if now < (data.length + 2 ^ 32 - 8) % 2 ^ 32 then do
      let next ← turn data drop_offset drop_len s now
      loop data drop_offset drop_len fuel next.1 next.2
    else some s

def compress (fuel : ℕ) (s : Compressor) (header : PcapHeader) (data : List UInt8)
    (drop_offset drop_len : UInt16) : Option Compressor := do
  let new_header := s.bufferOffset
  let s := s.directWriteToBuffer header.bytes
  let origin := s.bufferOffset
  let s := if data.length < 8 then s.directWriteToBuffer data else s
  let s ← loop data drop_offset drop_len fuel s 0
  some { s with
    buffer := s.buffer.write (new_header + 8)
      (toLittleEndian 4 ((s.bufferOffset - origin) % 2 ^ 32)) }

/-! ### What a turn looks at -/

variable {data other : List UInt8} {buffer : Memory} {m_pos pointer now left len final fuel : ℕ}
  {s s' : Compressor} {drop_offset drop_len : UInt16}

/-- A turn of the inner loop: it ends because the payload does or `len` is `0xff`, goes on, or
ends because the bytes differ. -/
theorem extend_cases (h : extend buffer m_pos data pointer now (left + 1) len = some final) :
    ∃ c, data[pointer + len]? = some c ∧
      (buffer ((m_pos + len) % 2 ^ 32) = c ∧
          ((len + 1 + now) % 2 ^ 32 = data.length ∨ len + 1 = 0xff) ∧ final = len + 1 ∨
        buffer ((m_pos + len) % 2 ^ 32) = c ∧
          ¬ ((len + 1 + now) % 2 ^ 32 = data.length ∨ len + 1 = 0xff) ∧
          extend buffer m_pos data pointer now left (len + 1) = some final ∨
        buffer ((m_pos + len) % 2 ^ 32) ≠ c ∧ final = len) := by
  rw [extend] at h
  cases hchar : data[pointer + len]? with
  | none =>
    rw [hchar] at h
    cases h
  | some c =>
    rw [hchar] at h
    simp only [Option.bind_eq_bind, Option.bind_some] at h
    refine ⟨c, rfl, ?_⟩
    split_ifs at h with hequal hend
    · exact Or.inl ⟨hequal, hend, (Option.some.inj h).symm⟩
    · exact Or.inr (Or.inl ⟨hequal, hend, h⟩)
    · exact Or.inr (Or.inr ⟨hequal, (Option.some.inj h).symm⟩)

theorem extend_le (h : extend buffer m_pos data pointer now left len = some final) :
    len ≤ final := by
  induction left generalizing len with
  | zero => cases h
  | succ left ih =>
    obtain ⟨c, -, ⟨-, -, rfl⟩ | ⟨-, -, hrest⟩ | ⟨-, rfl⟩⟩ := extend_cases h
    · exact Nat.le_succ len
    · exact Nat.le_of_succ_le (ih hrest)
    · exact le_rfl

/-- What the inner loop has compared when it ends. -/
theorem extend_spec (h : extend buffer m_pos data pointer now left len = some final)
    (hleft : len + left = 255) :
    final ≤ 255 ∧ (∀ k, len ≤ k → k < final → pointer + k < data.length) ∧
      (∀ k, len < k → k < final → (k + now) % 2 ^ 32 ≠ data.length) ∧
      (pointer + final < data.length ∨ (final + now) % 2 ^ 32 = data.length ∨ final = 255) := by
  induction left generalizing len with
  | zero => cases h
  | succ left ih =>
    obtain ⟨c, hchar, hcases⟩ := extend_cases h
    have hinside : pointer + len < data.length := (List.getElem?_eq_some_iff.mp hchar).1
    rcases hcases with ⟨-, hend, rfl⟩ | ⟨-, hend, hrest⟩ | ⟨-, rfl⟩
    · refine ⟨by omega, ?_, ?_, Or.inr hend⟩
      · intro k hk hk'
        obtain rfl : k = len := by omega
        exact hinside
      · intro k hk hk'
        omega
    · obtain ⟨hle, hread, hgone, hstop⟩ := ih hrest (by omega)
      refine ⟨hle, ?_, ?_, hstop⟩
      · intro k hk hk'
        rcases hk.eq_or_lt with rfl | hlt
        · exact hinside
        · exact hread k hlt hk'
      · intro k hk hk'
        rcases Nat.eq_or_lt_of_le (Nat.succ_le_of_lt hk) with heq | hlt
        · rw [← heq]
          exact fun hlen => hend (Or.inl hlen)
        · exact hgone k hlt hk'
    · exact ⟨by omega, fun k hk hk' => absurd hk' (by omega),
        fun k hk hk' => absurd hk' (by omega), Or.inl hinside⟩

/-- The inner loop on another payload, which agrees up to the end and at the end either
agrees too or differs from the buffer. -/
theorem extend_congr (h : extend buffer m_pos data pointer now left len = some final)
    (hlength : other.length = data.length)
    (hsame : ∀ k, len ≤ k → k < final → other[pointer + k]? = data[pointer + k]?)
    (hlast : other[pointer + final]? = data[pointer + final]? ∨
      ∃ c, other[pointer + final]? = some c ∧ buffer ((m_pos + final) % 2 ^ 32) ≠ c) :
    extend buffer m_pos other pointer now left len = some final := by
  induction left generalizing len with
  | zero => cases h
  | succ left ih =>
    obtain ⟨c, hchar, ⟨hequal, hend, rfl⟩ | ⟨hequal, hend, hrest⟩ | ⟨hequal, rfl⟩⟩ :=
      extend_cases h
    · rw [extend, hsame len le_rfl (Nat.lt_succ_self len), hchar, hlength]
      simp only [Option.bind_eq_bind, Option.bind_some, if_pos hequal, if_pos hend]
    · have hlt : len < final := extend_le hrest
      rw [extend, hsame len le_rfl hlt, hchar, hlength]
      simp only [Option.bind_eq_bind, Option.bind_some, if_pos hequal, if_neg hend]
      exact ih hrest fun k hk hk' => hsame k (Nat.le_of_succ_le hk) hk'
    · rcases hlast with hlast | ⟨c', hlast, hne⟩
      · rw [extend, hlast, hchar]
        simp only [Option.bind_eq_bind, Option.bind_some, if_neg hequal]
      · rw [extend, hlast]
        simp only [Option.bind_eq_bind, Option.bind_some, if_neg hne]

/-- From the hash on: either the first byte is written and the next one comes, or a segment is
written; and all that was looked at are four bytes and what the inner loop compared. -/
theorem search_cases {next : ℕ} (h : search data s pointer now = some (s', next)) :
    pointer + 3 < data.length ∧
      ((next = (now + 1) % 2 ^ 32 ∧ ∀ other : List UInt8,
          (∀ k < 4, other[pointer + k]? = data[pointer + k]?) →
            search other s pointer now = some (s', next)) ∨
        ∃ m_pos len, next = (now + len) % 2 ^ 32 ∧
          extend s.buffer m_pos data pointer now 247 8 = some len ∧
          ∀ other : List UInt8, (∀ k < 4, other[pointer + k]? = data[pointer + k]?) →
            extend s.buffer m_pos other pointer now 247 8 = some len →
              search other s pointer now = some (s', next)) := by
  rw [search] at h
  cases h0 : data[pointer]? with
  | none => rw [h0] at h; cases h
  | some c0 =>
  cases h1 : data[pointer + 1]? with
  | none => rw [h0, h1] at h; cases h
  | some c1 =>
  cases h2 : data[pointer + 2]? with
  | none => rw [h0, h1, h2] at h; cases h
  | some c2 =>
  cases h3 : data[pointer + 3]? with
  | none => rw [h0, h1, h2, h3] at h; cases h
  | some c3 =>
  rw [h0, h1, h2, h3] at h
  simp only [Option.bind_eq_bind, Option.bind_some] at h
  -- another payload with the four bytes finds the same entry of the dictionary
  have hother : ∀ other : List UInt8, (∀ k < 4, other[pointer + k]? = data[pointer + k]?) →
      other[pointer]? = some c0 ∧ other[pointer + 1]? = some c1 ∧
        other[pointer + 2]? = some c2 ∧ other[pointer + 3]? = some c3 := fun other hsame =>
    ⟨(hsame 0 (by decide)).trans h0, (hsame 1 (by decide)).trans h1,
      (hsame 2 (by decide)).trans h2, (hsame 3 (by decide)).trans h3⟩
  refine ⟨(List.getElem?_eq_some_iff.mp h3).1, ?_⟩
  split_ifs at h with hfar hfound
  · cases h
    refine Or.inl ⟨rfl, fun other hsame => ?_⟩
    obtain ⟨h0, h1, h2, h3⟩ := hother other hsame
    rw [search, h0, h1, h2, h3]
    simp only [Option.bind_eq_bind, Option.bind_some, if_pos hfar]
  · cases hlen : extend s.buffer (s.dict (dindexOf c0 c1 c2 c3)).toNat data pointer now 247 8 with
    | none => rw [hlen] at h; cases h
    | some len =>
      rw [hlen] at h
      cases h
      refine Or.inr ⟨_, len, rfl, hlen, fun other hsame hextend => ?_⟩
      obtain ⟨h0, h1, h2, h3⟩ := hother other hsame
      rw [search, h0, h1, h2, h3]
      simp only [Option.bind_eq_bind, Option.bind_some, if_neg hfar,
        if_neg (not_not_intro hfound), hextend]
  · cases h
    refine Or.inl ⟨rfl, fun other hsame => ?_⟩
    obtain ⟨h0, h1, h2, h3⟩ := hother other hsame
    rw [search, h0, h1, h2, h3]
    simp only [Option.bind_eq_bind, Option.bind_some, if_neg hfar, if_pos hfound]

/-- Two payloads that are the same from a position on. -/
def SameFrom (now : ℕ) (data other : List UInt8) : Prop :=
  other.length = data.length ∧ ∀ i, now ≤ i → other[i]? = data[i]?

theorem SameFrom.set {i : ℕ} (c : UInt8) (h : i < now) : SameFrom now data (data.set i c) := by
  refine ⟨List.length_set, fun k hk => ?_⟩
  rw [List.getElem?_set_ne (by omega)]

theorem search_congr {next : ℕ} (h : search data s pointer now = some (s', next))
    (hsame : SameFrom pointer data other) : search other s pointer now = some (s', next) := by
  obtain ⟨-, ⟨-, hwritten⟩ | ⟨m_pos, len, -, hlen, hfound⟩⟩ := search_cases h
  · exact hwritten other fun k _ => hsame.2 _ (Nat.le_add_right ..)
  · refine hfound other (fun k _ => hsame.2 _ (Nat.le_add_right ..)) ?_
    exact extend_congr hlen hsame.1 (fun k _ _ => hsame.2 _ (Nat.le_add_right ..))
      (Or.inl (hsame.2 _ (Nat.le_add_right ..)))

theorem chars_congr {len : ℕ} (hlength : other.length = data.length)
    (hsame : ∀ k < len, other[now + k]? = data[now + k]?) :
    chars other now len = chars data now len := by
  have htake : (other.drop now).take len = (data.drop now).take len := by
    apply List.ext_getElem?
    intro k
    rw [List.getElem?_take, List.getElem?_take]
    split_ifs with hk
    · rw [List.getElem?_drop, List.getElem?_drop, hsame k hk]
    · rfl
  rw [chars, chars, hlength, htake]

/-- A turn that is not in front of `drop_offset`. -/
theorem turn_plain (hnow : now + 8 < 2 ^ 32) (hdrop : now + 8 ≠ drop_offset.toNat) :
    turn data drop_offset drop_len s now = search data s now now := by
  have hif : ¬ (now + 8) % 2 ^ 32 = drop_offset.toNat := by
    rwa [Nat.mod_eq_of_lt hnow]
  rw [turn, if_neg hif]

/-- The turn in front of `drop_offset`, when nothing is dropped. -/
theorem turn_drop (hdrop : now + 8 = drop_offset.toNat) :
    turn data drop_offset 0 s now = (chars data now 8).bind fun written =>
      search data (written.foldl directWriteChar s) now (now + 8) := by
  have hnow : now + 8 < 2 ^ 32 := hdrop ▸ drop_offset.toNat_lt.trans (by decide)
  have hmod : (now + 8) % 2 ^ 32 = now + 8 := Nat.mod_eq_of_lt hnow
  have hnext : (now + 8 + (0 : UInt16).toNat) % 2 ^ 32 = now + 8 := hmod
  rw [turn, if_pos (hmod.trans hdrop)]
  simp only [Option.bind_eq_bind, hnext]

/-- How far the inner loop gets, when `now` is at `pointer` or eight bytes before it. -/
theorem extend_bounds (h : extend buffer m_pos data pointer now 247 8 = some len) :
    8 ≤ len ∧ len ≤ 255 ∧ (8 < len → pointer + len ≤ data.length) := by
  obtain ⟨hmax, hread, -⟩ := extend_spec h rfl
  have hmin := extend_le h
  refine ⟨hmin, hmax, fun hlt => ?_⟩
  have hlast := hread (len - 1) (by omega) (by omega)
  omega

theorem turn_lt {next : ℕ} (h : turn data drop_offset 0 s now = some (s', next))
    (hnow : now + 8 < data.length) (hlength : data.length < 2 ^ 32) : now < next := by
  by_cases hdrop : now + 8 = drop_offset.toNat
  · have hsmall : now + 8 < 2 ^ 16 := hdrop ▸ drop_offset.toNat_lt
    rw [turn_drop hdrop] at h
    obtain ⟨written, -, hsearch⟩ := Option.bind_eq_some_iff.mp h
    obtain ⟨-, ⟨rfl, -⟩ | ⟨m_pos, len, rfl, hlen, -⟩⟩ := search_cases hsearch
    · rw [Nat.mod_eq_of_lt (by omega)]
      omega
    · have hbounds := extend_bounds hlen
      rw [Nat.mod_eq_of_lt (by omega)]
      omega
  · rw [turn_plain (by omega) hdrop] at h
    obtain ⟨-, ⟨rfl, -⟩ | ⟨m_pos, len, rfl, hlen, -⟩⟩ := search_cases h
    · rw [Nat.mod_eq_of_lt (by omega)]
      omega
    · have hbounds := extend_bounds hlen
      rw [Nat.mod_eq_of_lt (by omega)]
      omega

theorem turn_congr {next : ℕ} (h : turn data drop_offset 0 s now = some (s', next))
    (hnow : now + 8 < 2 ^ 32) (hsame : SameFrom now data other) :
    turn other drop_offset 0 s now = some (s', next) := by
  by_cases hdrop : now + 8 = drop_offset.toNat
  · rw [turn_drop hdrop] at h ⊢
    rw [chars_congr hsame.1 fun k _ => hsame.2 _ (Nat.le_add_right ..)]
    obtain ⟨written, hwritten, hsearch⟩ := Option.bind_eq_some_iff.mp h
    rw [hwritten]
    exact search_congr hsearch hsame
  · rw [turn_plain hnow hdrop] at h ⊢
    exact search_congr h hsame

/-- Another byte for a place of the payload, which differs from a given one too. -/
theorem exists_byte (data : List UInt8) (i : ℕ) (b : UInt8) :
    ∃ c, data[i]? ≠ some c ∧ b ≠ c := by
  by_contra h
  have hall : ∀ c, data[i]? = some c ∨ b = c := by
    intro c
    by_contra hc
    exact h ⟨c, fun heq => hc (Or.inl heq), fun heq => hc (Or.inr heq)⟩
  have h0 := hall 0
  have h1 := hall 1
  have h2 := hall 2
  grind

/-- A turn writes the byte at `now` and looks at no byte from `now + 4` on, or there is a byte
behind that does not decide what the turn does and that no later turn looks at. -/
theorem turn_blind {next : ℕ} (h : turn data drop_offset 0 s now = some (s', next))
    (hnow : now + 8 < data.length) (hlength : data.length < 2 ^ 32) :
    (next = now + 1 ∧ ∀ other : List UInt8, (∀ k < 4, other[now + k]? = data[now + k]?) →
        turn other drop_offset 0 s now = some (s', next)) ∨
      ∃ i c, now + 4 ≤ i ∧ i < data.length ∧ i < next ∧ data[i]? ≠ some c ∧
        turn (data.set i c) drop_offset 0 s now = some (s', next) := by
  by_cases hdrop : now + 8 = drop_offset.toNat
  · have hsmall : now + 8 < 2 ^ 16 := hdrop ▸ drop_offset.toNat_lt
    rw [turn_drop hdrop] at h
    obtain ⟨written, hwritten, hsearch⟩ := Option.bind_eq_some_iff.mp h
    -- a byte from `now + 8` on is not among those written, nor are the four of the hash
    have hset : ∀ i c, now + 8 ≤ i → chars (data.set i c) now 8 = some written ∧
        ∀ k < 4, (data.set i c)[now + k]? = data[now + k]? := by
      intro i c hi
      refine ⟨?_, fun k hk => List.getElem?_set_ne (by omega)⟩
      rw [chars_congr List.length_set fun k hk => List.getElem?_set_ne (by omega), hwritten]
    obtain ⟨-, ⟨rfl, hfound⟩ | ⟨m_pos, len, rfl, hlen, hfound⟩⟩ := search_cases hsearch
    · -- the byte at `now + 8` is passed over
      obtain ⟨c, hc, -⟩ := exists_byte data (now + 8) 0
      obtain ⟨hchars, hhash⟩ := hset (now + 8) c le_rfl
      refine Or.inr ⟨now + 8, c, by omega, hnow, ?_, hc, ?_⟩
      · rw [Nat.mod_eq_of_lt (by omega)]
        exact Nat.lt_succ_self _
      · rw [turn_drop hdrop, hchars]
        exact hfound _ hhash
    · -- the byte at which the inner loop ended
      obtain ⟨hmax, hread, hgone, hstop⟩ := extend_spec hlen rfl
      have hmin := extend_le hlen
      have hinside : now + len < data.length := by
        rcases hstop with hlt | hend | rfl
        · exact hlt
        · rw [Nat.mod_eq_of_lt (by omega)] at hend
          omega
        · have hlast := hread 254 (by decide) (by decide)
          have hend := hgone 247 (by decide) (by decide)
          rw [Nat.mod_eq_of_lt (by omega)] at hend
          omega
      obtain ⟨c, hc, hbuffer⟩ := exists_byte data (now + len)
        ((written.foldl directWriteChar s).buffer ((m_pos + len) % 2 ^ 32))
      obtain ⟨hchars, hhash⟩ := hset (now + len) c (by omega)
      refine Or.inr ⟨now + len, c, by omega, hinside, ?_, hc, ?_⟩
      · rw [Nat.mod_eq_of_lt (by omega)]
        omega
      · rw [turn_drop hdrop, hchars]
        refine hfound _ hhash (extend_congr hlen List.length_set ?_ ?_)
        · exact fun k _ hk => List.getElem?_set_ne (by omega)
        · exact Or.inr ⟨c, List.getElem?_set_self hinside, hbuffer⟩
  · rw [turn_plain (by omega) hdrop] at h
    obtain ⟨-, ⟨rfl, hfound⟩ | ⟨m_pos, len, rfl, hlen, hfound⟩⟩ := search_cases h
    · refine Or.inl ⟨Nat.mod_eq_of_lt (by omega), fun other hsame => ?_⟩
      rw [turn_plain (by omega) hdrop]
      exact hfound other hsame
    · -- the fifth byte of a segment is not compared
      obtain ⟨hmin, hmax, hread⟩ := extend_bounds hlen
      obtain ⟨c, hc, -⟩ := exists_byte data (now + 4) 0
      refine Or.inr ⟨now + 4, c, le_rfl, by omega, ?_, hc, ?_⟩
      · rw [Nat.mod_eq_of_lt (by omega)]
        omega
      · rw [turn_plain (by omega) hdrop]
        refine hfound _ (fun k hk => List.getElem?_set_ne (by omega))
          (extend_congr hlen List.length_set ?_ ?_)
        · exact fun k hk _ => List.getElem?_set_ne (by omega)
        · exact Or.inl (List.getElem?_set_ne (by omega))

/-! ### Runs -/

/-- The bound of the loop, for a payload of at least eight bytes. -/
theorem loop_bound (hmin : 8 ≤ data.length) (hlength : data.length < 2 ^ 32) :
    (data.length + 2 ^ 32 - 8) % 2 ^ 32 = data.length - 8 := by
  have hsum : data.length + 2 ^ 32 - 8 = data.length - 8 + 2 ^ 32 := by omega
  rw [hsum, Nat.add_mod_right, Nat.mod_eq_of_lt (by omega)]

/-- The rest of the loop looks at no byte before `now`. -/
theorem loop_congr (h : loop data drop_offset 0 fuel s now = some s')
    (hmin : 8 ≤ data.length) (hlength : data.length < 2 ^ 32) (hsame : SameFrom now data other) :
    loop other drop_offset 0 fuel s now = some s' := by
  induction fuel generalizing s now with
  | zero => cases h
  | succ fuel ih =>
    rw [loop] at h ⊢
    rw [hsame.1]
    split_ifs at h ⊢ with hbound
    · obtain ⟨⟨s₁, next⟩, hturn, hloop⟩ := Option.bind_eq_some_iff.mp h
      rw [loop_bound hmin hlength] at hbound
      have hnext := turn_lt hturn (by omega) hlength
      have hother := turn_congr hturn (by omega) hsame
      rw [hother]
      exact ih hloop ⟨hsame.1, fun i hi => hsame.2 i (by omega)⟩
    · exact h

/-- A loop that is at its end does not look at the payload. -/
theorem loop_end (h : loop data drop_offset drop_len fuel s now = some s')
    (hend : ¬ now < (data.length + 2 ^ 32 - 8) % 2 ^ 32) (hlength : other.length = data.length) :
    loop other drop_offset drop_len fuel s now = some s' := by
  cases fuel with
  | zero => cases h
  | succ fuel =>
    rw [loop, if_neg hend] at h
    rw [loop, hlength, if_neg hend, h]

/-- A run that is still before the last eight bytes has a twin. -/
theorem loop_blind (h : loop data drop_offset 0 fuel s now = some s')
    (hnow : now + 8 < data.length) (hlength : data.length < 2 ^ 32) :
    ∃ i c, now + 4 ≤ i ∧ i < data.length ∧ data[i]? ≠ some c ∧
      loop (data.set i c) drop_offset 0 fuel s now = some s' := by
  induction fuel generalizing s now with
  | zero => cases h
  | succ fuel ih =>
    have hbound : now < (data.length + 2 ^ 32 - 8) % 2 ^ 32 := by
      rw [loop_bound (by omega) hlength]
      omega
    rw [loop, if_pos hbound] at h
    obtain ⟨⟨s₁, next⟩, hturn, hloop⟩ := Option.bind_eq_some_iff.mp h
    have hstep : ∀ i c, turn (data.set i c) drop_offset 0 s now = some (s₁, next) →
        loop (data.set i c) drop_offset 0 fuel s₁ next = some s' →
          loop (data.set i c) drop_offset 0 (fuel + 1) s now = some s' := by
      intro i c hother hrest
      rw [loop, List.length_set, if_pos hbound, hother]
      exact hrest
    rcases turn_blind hturn hnow hlength with ⟨rfl, hother⟩ | ⟨i, c, hi, hin, hnext, hc, hother⟩
    · by_cases hmore : now + 1 + 8 < data.length
      · obtain ⟨i, c, hi, hin, hc, hrest⟩ := ih hloop hmore
        refine ⟨i, c, by omega, hin, hc, hstep i c (hother _ fun k hk => ?_) hrest⟩
        exact List.getElem?_set_ne (by omega)
      · -- the loop ends: the last byte is not looked at
        obtain ⟨c, hc, -⟩ := exists_byte data (now + 8) 0
        refine ⟨now + 8, c, by omega, by omega, hc, hstep _ c (hother _ fun k hk => ?_) ?_⟩
        · exact List.getElem?_set_ne (by omega)
        · refine loop_end hloop ?_ List.length_set
          rw [loop_bound (by omega) hlength]
          omega
    · exact ⟨i, c, hi, hin, hc, hstep i c hother (loop_congr hloop (by omega) hlength
        (SameFrom.set c hnext))⟩

/-- With fewer than eight bytes the bound of the loop is below zero, and the loop runs out of
the payload. -/
theorem loop_short (hshort : data.length < 8) (hnow : now ≤ data.length) :
    loop data drop_offset 0 fuel s now = none := by
  induction fuel generalizing s now with
  | zero => rfl
  | succ fuel ih =>
    have hbound : now < (data.length + 2 ^ 32 - 8) % 2 ^ 32 := by
      rw [Nat.mod_eq_of_lt (by omega)]
      omega
    rw [loop, if_pos hbound]
    cases hturn : turn data drop_offset 0 s now with
    | none => rfl
    | some result =>
      obtain ⟨s₁, next⟩ := result
      by_cases hdrop : now + 8 = drop_offset.toNat
      · have hchars : ¬ now + 8 ≤ data.length := by omega
        rw [turn_drop hdrop, chars, if_neg hchars] at hturn
        cases hturn
      · rw [turn_plain (by omega) hdrop] at hturn
        obtain ⟨hinside, ⟨rfl, -⟩ | ⟨m_pos, len, -, hlen, -⟩⟩ := search_cases hturn
        · exact ih (by omega)
        · have hnone : data[now + 8]? = none := List.getElem?_eq_none (by omega)
          rw [extend, hnone] at hlen
          cases hlen

/-! ### Termination -/

theorem exists_extend (hlength : data.length < 2 ^ 32) (hleft : len + left = 255)
    (hpos : 0 < left) (hinside : now + len < data.length) :
    ∃ final, extend buffer m_pos data now now left len = some final := by
  induction left generalizing len with
  | zero => exact absurd hpos (Nat.lt_irrefl 0)
  | succ left ih =>
    rw [extend, List.getElem?_eq_getElem hinside]
    simp only [Option.bind_eq_bind, Option.bind_some]
    split_ifs with hequal hend
    · exact ⟨_, rfl⟩
    · rw [Nat.mod_eq_of_lt (by omega)] at hend
      exact ih (by omega) (by omega) (by omega)
    · exact ⟨_, rfl⟩

theorem exists_search (hlength : data.length < 2 ^ 32) (hnow : now + 8 < data.length) :
    ∃ s' next, search data s now now = some (s', next) := by
  have h0 := List.getElem?_eq_getElem (show now < data.length by omega)
  have h1 := List.getElem?_eq_getElem (show now + 1 < data.length by omega)
  have h2 := List.getElem?_eq_getElem (show now + 2 < data.length by omega)
  have h3 := List.getElem?_eq_getElem (show now + 3 < data.length by omega)
  rw [search, h0, h1, h2, h3]
  simp only [Option.bind_eq_bind, Option.bind_some]
  split_ifs with hfar hfound
  · exact ⟨_, _, rfl⟩
  · obtain ⟨len, hlen⟩ : ∃ len, extend s.buffer _ data now now 247 8 = some len :=
      exists_extend hlength rfl (by decide) hnow
    rw [hlen]
    exact ⟨_, _, rfl⟩
  · exact ⟨_, _, rfl⟩

/-- Where no turn is in front of `drop_offset`, the loop ends. -/
theorem exists_loop (hdrop : drop_offset.toNat < 8) (hmin : 8 ≤ data.length)
    (hlength : data.length < 2 ^ 32) (s : Compressor) (now : ℕ) :
    ∃ fuel s', loop data drop_offset 0 fuel s now = some s' := by
  -- on the bytes that are left, of which a turn takes at least one
  induction hleft : data.length - now using Nat.strongRecOn generalizing s now with
  | ind left ih =>
    by_cases hnow : now + 8 < data.length
    · obtain ⟨s₁, next, hsearch⟩ := exists_search (s := s) hlength hnow
      have hturn : turn data drop_offset 0 s now = some (s₁, next) := by
        rw [turn_plain (by omega) (by omega), hsearch]
      have hnext := turn_lt hturn hnow hlength
      obtain ⟨fuel, s', hloop⟩ := ih (data.length - next) (by omega) s₁ next rfl
      have hbound : now < (data.length + 2 ^ 32 - 8) % 2 ^ 32 := by
        rw [loop_bound hmin hlength]
        omega
      refine ⟨fuel + 1, s', ?_⟩
      rw [loop, if_pos hbound, hturn]
      exact hloop
    · have hbound : ¬ now < (data.length + 2 ^ 32 - 8) % 2 ^ 32 := by
        rw [loop_bound hmin hlength]
        omega
      exact ⟨1, s, by rw [loop, if_neg hbound]⟩

/-! ### What the output tells -/

/-- `compress` comes to its end, with the state `s'`. -/
def Ends (s : Compressor) (header : PcapHeader) (data : List UInt8) (drop_offset : UInt16)
    (s' : Compressor) : Prop :=
  ∃ fuel, compress fuel s header data drop_offset 0 = some s'

/-- The bytes emitted between two states. -/
def emitted (s s' : Compressor) : List UInt8 :=
  s'.buffer.read s.bufferOffset (s'.bufferOffset - s.bufferOffset)

/-- `compress` ends, and no other payload gives the same bytes. -/
structure Determined (s : Compressor) (header : PcapHeader) (data : List UInt8)
    (drop_offset : UInt16) : Prop where
  ends : ∃ s', Ends s header data drop_offset s'
  alone : ∀ (other : List UInt8) (s₁ s₂ : Compressor), other.length < 2 ^ 32 →
    Ends s header data drop_offset s₁ → Ends s header other drop_offset s₂ →
      emitted s s₁ = emitted s s₂ → other = data

/-- `compress` from the loop on. -/
theorem compress_of_loop {header : PcapHeader} (hmin : 8 ≤ data.length) {s₁ : Compressor}
    (h : loop data drop_offset 0 fuel (s.directWriteToBuffer header.bytes) 0 = some s₁) :
    compress fuel s header data drop_offset 0 = some { s₁ with
      buffer := s₁.buffer.write (s.bufferOffset + 8) (toLittleEndian 4
        ((s₁.bufferOffset - (s.directWriteToBuffer header.bytes).bufferOffset) % 2 ^ 32)) } := by
  have hif : ¬ data.length < 8 := by omega
  rw [compress]
  simp only [if_neg hif, h, Option.bind_eq_bind, Option.bind_some]

/-- `compress` of at least eight bytes ends. -/
theorem exists_ends (s : Compressor) (header : PcapHeader) (hdrop : drop_offset.toNat < 8)
    (hmin : 8 ≤ data.length) (hlength : data.length < 2 ^ 32) :
    ∃ s', Ends s header data drop_offset s' := by
  obtain ⟨fuel, s₁, hloop⟩ :=
    exists_loop hdrop hmin hlength (s.directWriteToBuffer header.bytes) 0
  exact ⟨_, fuel, compress_of_loop hmin hloop⟩

/-- Every payload of at least eight bytes has a twin with the same length and the same
output. -/
theorem compress_blind {header : PcapHeader} (hmin : 8 ≤ data.length)
    (hlength : data.length < 2 ^ 32) (h : Ends s header data drop_offset s') :
    ∃ i c, i < data.length ∧ data[i]? ≠ some c ∧ Ends s header (data.set i c) drop_offset s' := by
  obtain ⟨fuel, hrun⟩ := h
  have hif : ¬ data.length < 8 := by omega
  cases hloop : loop data drop_offset 0 fuel (s.directWriteToBuffer header.bytes) 0 with
  | none =>
    rw [compress] at hrun
    simp only [if_neg hif, hloop] at hrun
    cases hrun
  | some s₁ =>
    rw [compress_of_loop hmin hloop] at hrun
    obtain ⟨i, c, hi, hc, htwin⟩ : ∃ i c, i < data.length ∧ data[i]? ≠ some c ∧
        loop (data.set i c) drop_offset 0 fuel (s.directWriteToBuffer header.bytes) 0 =
          some s₁ := by
      rcases hmin.eq_or_lt with heq | hlt
      · obtain ⟨c, hc, -⟩ := exists_byte data 0 0
        refine ⟨0, c, by omega, hc, loop_end hloop ?_ List.length_set⟩
        rw [loop_bound hmin hlength]
        omega
      · obtain ⟨i, c, -, hi, hc, htwin⟩ := loop_blind hloop (by omega) hlength
        exact ⟨i, c, hi, hc, htwin⟩
    have hmin' : 8 ≤ (data.set i c).length := by rwa [List.length_set]
    exact ⟨i, c, hi, hc, fuel, (compress_of_loop hmin' htwin).trans hrun⟩

theorem not_determined_of_min (s : Compressor) (header : PcapHeader) {data : List UInt8}
    (drop_offset : UInt16) (hmin : 8 ≤ data.length) (hlength : data.length < 2 ^ 32) :
    ¬ Determined s header data drop_offset := by
  rintro ⟨⟨s', hends⟩, halone⟩
  obtain ⟨i, c, hi, hc, htwin⟩ := compress_blind hmin hlength hends
  have hsame := halone (data.set i c) s' s' (by rwa [List.length_set]) hends htwin rfl
  have hbyte : (data.set i c)[i]? = some c := List.getElem?_set_self hi
  rw [hsame] at hbyte
  exact hc hbyte

/-- No payload is determined by what `compress` writes for it, in whatever state. -/
theorem not_determined (s : Compressor) (header : PcapHeader) (data : List UInt8)
    (drop_offset : UInt16) (hlength : data.length < 2 ^ 32) :
    ¬ Determined s header data drop_offset := by
  rcases Nat.lt_or_ge data.length 8 with hshort | hmin
  · -- `compress` does not end
    rintro ⟨⟨s', fuel, hrun⟩, -⟩
    rw [compress] at hrun
    simp only [if_pos hshort, loop_short hshort (Nat.zero_le _)] at hrun
    cases hrun
  · exact not_determined_of_min s header drop_offset hmin hlength

/-- A compressor after its constructor, with a buffer of zeros. -/
def fresh : Compressor where
  dict := fun _ => 0
  buffer := fun _ => 0
  bufferOffset := 0

/-- A payload of ten bytes behind other ones. -/
theorem not_determined_tenBytes :
    ¬ Determined fresh ⟨1, 2, 10, 10⟩ [1, 2, 3, 4, 5, 6, 7, 8, 9, 10] 0 :=
  not_determined fresh _ _ 0 (by decide)

/-- Eight bytes of payload are not written at all. -/
theorem payload_lost :
    (∃ s', Ends fresh ⟨1, 2, 8, 8⟩ [1, 2, 3, 4, 5, 6, 7, 8] 0 s' ∧
      Ends fresh ⟨1, 2, 8, 8⟩ [8, 7, 6, 5, 4, 3, 2, 1] 0 s') ∧
      ¬ Determined fresh ⟨1, 2, 8, 8⟩ [1, 2, 3, 4, 5, 6, 7, 8] 0 :=
  ⟨⟨_, ⟨1, rfl⟩, 1, rfl⟩, not_determined_of_min fresh _ 0 (by decide) (by decide)⟩

end Compressor

end TrafficDatabase
