import TrafficDatabase.Query.Search
import Mathlib.Data.Rat.Cast.Order
import Mathlib.Tactic.FieldSimp
import Mathlib.Tactic.Linarith

/-!
# What a value writes

A port is written as a decimal number, an address as four decimal numbers with dots
between them, and a prefix as an address and a number of bits.  `Denotes` says that a
lookup has the key of what is written.

The code reads a number with `stoul`, which stops at the point and needs a digit before
it, and an address with `inet_aton`, which takes a part that begins with 0 as octal.  And it
makes the mask of a prefix by a shift, which is undefined for a prefix of no bits.
`denotes_atomRequest_iff` says for which values it comes out right.
-/

namespace TrafficDatabase

namespace Query

/-! ## Numerals -/

/-- The value of digits in a base. -/
def numeral (base : ℕ) (s : Token) : ℕ :=
  s.foldl (fun sum c => sum * base + (c.toNat - 48)) 0

/-- The digits of base 8. -/
def octalDigits : List Char := charRange 48 8

def IsNumeral (s : Token) : Prop := s ≠ [] ∧ ∀ c ∈ s, c ∈ digits

section Numerals

variable {base : ℕ} {s t : Token} {c : Char}

@[simp] theorem numeral_nil (base : ℕ) : numeral base [] = 0 := rfl

theorem numeral_concat (base : ℕ) (s : Token) (c : Char) :
    numeral base (s ++ [c]) = numeral base s * base + (c.toNat - 48) := by
  rw [numeral, List.foldl_append]
  rfl

theorem numeral_append (base : ℕ) (s t : Token) :
    numeral base (s ++ t) = numeral base s * base ^ t.length + numeral base t := by
  induction t using List.reverseRecOn with
  | nil => simp
  | append_singleton t c ih =>
      rw [← List.append_assoc, numeral_concat, ih, numeral_concat, List.length_append,
        List.length_singleton]
      ring

theorem digit_code (h : c ∈ digits) : c.toNat - 48 < 10 := by
  have hcode := toNat_of_mem_charRange h (by decide)
  omega

theorem numeral_lt (h : ∀ c ∈ s, c ∈ digits) : numeral 10 s < 10 ^ s.length := by
  induction s using List.reverseRecOn with
  | nil => exact Nat.one_pos
  | append_singleton s c ih =>
      have hs := ih fun d hd => h d (List.mem_append_left _ hd)
      have hc := digit_code (h c (List.mem_append_right _ (List.mem_singleton_self c)))
      rw [numeral_concat, List.length_append, List.length_singleton, pow_succ]
      omega

/-- Digits taken as octal are never worth more. -/
theorem numeral_octal_le (s : Token) : numeral 8 s ≤ numeral 10 s := by
  induction s using List.reverseRecOn with
  | nil => exact Nat.le_refl 0
  | append_singleton s c ih =>
      rw [numeral_concat, numeral_concat]
      omega

/-- `hexValue` of decimal digits. -/
theorem foldl_hexValue (h : ∀ c ∈ s, c ∈ digits) (base : ℕ) :
    s.foldl (fun sum c => sum * base + hexValue c) 0 = numeral base s := by
  induction s using List.reverseRecOn with
  | nil => rfl
  | append_singleton s c ih =>
      have hcode := toNat_of_mem_charRange
        (h c (List.mem_append_right _ (List.mem_singleton_self c))) (by decide)
      rw [List.foldl_append, ih fun d hd => h d (List.mem_append_left _ hd), numeral_concat]
      simp only [List.foldl_cons, List.foldl_nil, hexValue, if_pos hcode.2]

/-- A property of the characters of a string, one after the other. -/
theorem forall_mem_of_all {p : Char → Prop} [DecidablePred p]
    (h : s.all (fun c => decide (p c)) = true) : ∀ c ∈ s, p c :=
  fun c hc => of_decide_eq_true (List.all_eq_true.mp h c hc)

theorem isNumeral_of_all (hne : s ≠ []) (h : s.all (fun c => decide (c ∈ digits)) = true) :
    IsNumeral s := ⟨hne, forall_mem_of_all h⟩

theorem digit_ne : ∀ c ∈ digits, c ∉ spaces ∧ c ≠ '-' ∧ c ≠ '+' ∧ c ≠ '.' ∧ c ≠ '/' ∧ c ≠ 'x' ∧
    c ≠ 'X' :=
  forall_mem_of_all (by decide)

theorem octal_digit : ∀ c ∈ octalDigits, c ∈ digits := forall_mem_of_all (by decide)

end Numerals

/-- The digits at the front of a string and what stands behind them. -/
theorem span_eq {p : Char → Bool} {s rest : Token} (hall : ∀ c ∈ s, p c = true)
    (hstop : ∀ c ∈ rest.head?, p c = false) :
    (s ++ rest).takeWhile p = s ∧ (s ++ rest).dropWhile p = rest := by
  induction s with
  | nil =>
      cases rest with
      | nil => exact ⟨rfl, rfl⟩
      | cons c rest =>
          have hc := hstop c rfl
          simp [hc]
  | cons c s ih =>
      have hc := hall c List.mem_cons_self
      obtain ⟨htake, hdrop⟩ := ih fun d hd => hall d (List.mem_cons_of_mem c hd)
      simp [hc, htake, hdrop]

/-! ## Numbers -/

/-- A decimal number: a sign, digits, and digits behind a point. -/
structure WritesNumber (s sign whole fraction : Token) (q : ℚ) : Prop where
  signed : sign = [] ∨ sign = ['-']
  mem_digits : ∀ c ∈ whole ++ fraction, c ∈ digits
  ne_nil : whole ++ fraction ≠ []
  eq_append : s = sign ++ whole ++ '.' :: fraction ∨ fraction = [] ∧ s = sign ++ whole
  value : q = (if sign = [] then 1 else -1) * numeral 10 (whole ++ fraction) /
    10 ^ fraction.length

namespace WritesNumber

variable {s sign whole fraction : Token} {n : ℕ}

/-- A number that is whole has no sign but before zero, and nothing behind the point. -/
theorem whole_eq (h : WritesNumber s sign whole fraction n) :
    numeral 10 whole = n ∧ (sign = ['-'] → n = 0) := by
  have hpow : (0 : ℚ) < 10 ^ fraction.length := by positivity
  have hvalue := h.value
  rw [eq_div_iff hpow.ne'] at hvalue
  have hfraction := numeral_lt fun c hc => h.mem_digits c (List.mem_append_right whole hc)
  have happend := numeral_append 10 whole fraction
  rcases h.signed with rfl | rfl
  · rw [if_pos rfl, one_mul] at hvalue
    have hnat : n * 10 ^ fraction.length = numeral 10 (whole ++ fraction) := by
      exact_mod_cast hvalue
    refine ⟨?_, fun hsign => absurd hsign (by decide)⟩
    rw [happend] at hnat
    have hdiv := congrArg (· / 10 ^ fraction.length) hnat
    simp only [Nat.mul_div_cancel _ (Nat.pow_pos (Nat.succ_pos 9)), Nat.mul_comm (numeral 10 whole),
      Nat.mul_add_div (Nat.pow_pos (Nat.succ_pos 9)), Nat.div_eq_of_lt hfraction] at hdiv
    exact hdiv.symm
  · rw [if_neg (by decide)] at hvalue
    have hle : (n : ℚ) * 10 ^ fraction.length + numeral 10 (whole ++ fraction) = 0 := by linarith
    have hnat : n * 10 ^ fraction.length + numeral 10 (whole ++ fraction) = 0 := by
      exact_mod_cast hle
    have hboth := Nat.add_eq_zero_iff.mp hnat
    have hzero : n = 0 :=
      (Nat.mul_eq_zero.mp hboth.1).resolve_right (Nat.pow_pos (Nat.succ_pos 9)).ne'
    have hwhole := (Nat.add_eq_zero_iff.mp (happend ▸ hboth.2)).1
    refine ⟨?_, fun _ => hzero⟩
    rw [hzero]
    exact (Nat.mul_eq_zero.mp hwhole).resolve_right (Nat.pow_pos (Nat.succ_pos 9)).ne'

/-- `stoul` needs a digit before the point and wraps a number with a sign. -/
theorem stoul_eq {q : ℚ} (h : WritesNumber s sign whole fraction q) :
    stoul s = if whole = [] ∨ numeral 10 whole ≥ 2 ^ 64 then none
      else some (if sign = ['-'] then (2 ^ 64 - numeral 10 whole) % 2 ^ 64
        else numeral 10 whole) := by
  have hwhole : ∀ c ∈ whole, c ∈ Query.digits := fun c hc =>
    h.mem_digits c (List.mem_append_left fraction hc)
  obtain ⟨rest, hs, hrest, hempty⟩ : ∃ rest, s = sign ++ (whole ++ rest) ∧
      (∀ c ∈ rest.head?, c = '.') ∧ (whole = [] → rest ≠ []) := by
    rcases h.eq_append with hs | ⟨hfraction, hs⟩
    · exact ⟨'.' :: fraction, by rw [hs, List.append_assoc], by simp, by simp⟩
    · refine ⟨[], by rw [hs, List.append_nil], by simp, fun hnil => ?_⟩
      exact absurd (by rw [hnil, hfraction]; rfl) h.ne_nil
  have hstop : ∀ c ∈ rest.head?, decide (c ∈ Query.digits) = false := fun c hc => by
    rw [hrest c hc]
    decide
  have htake := (span_eq (fun c hc => decide_eq_true (hwhole c hc)) hstop).1
  rcases h.signed with rfl | rfl
  · obtain ⟨c, tail, hhead, hc⟩ : ∃ c tail, whole ++ rest = c :: tail ∧
        c ∉ spaces ∧ c ≠ '-' ∧ c ≠ '+' := by
      cases whole with
      | nil =>
          obtain ⟨c, tail, rfl⟩ := List.exists_cons_of_ne_nil (hempty rfl)
          obtain rfl : c = '.' := hrest c rfl
          exact ⟨'.', tail, rfl, by decide, by decide, by decide⟩
      | cons c tail =>
          have hc := digit_ne c (hwhole c List.mem_cons_self)
          exact ⟨c, tail ++ rest, rfl, hc.1, hc.2.1, hc.2.2.1⟩
    have hbody : s.dropWhile (· ∈ spaces) = whole ++ rest := by
      rw [hs, List.nil_append, hhead, List.dropWhile_cons_of_neg (by simpa using hc.1)]
    have hsigned : (whole ++ rest).head?.any (· ∈ ['-', '+']) = false := by
      rw [hhead]
      simp [hc.2]
    have hminus : (whole ++ rest).head? ≠ some '-' := by
      rw [hhead]
      simpa using hc.2.1
    unfold stoul
    simp only [hbody, hsigned, Bool.false_eq_true, if_false, htake, if_neg hminus]
    rw [if_neg (by decide : ¬ ([] : Token) = ['-'])]
    rfl
  · have hbody : s.dropWhile (· ∈ spaces) = '-' :: (whole ++ rest) := by
      rw [hs, List.singleton_append, List.dropWhile_cons_of_neg (by decide)]
    have hsigned : (some '-').any (· ∈ ['-', '+']) = true := by decide
    unfold stoul
    simp only [hbody, List.head?_cons, hsigned, if_true, List.drop_one, List.tail_cons, htake]
    rfl

end WritesNumber

/-! ## Ports -/

/-- The index of a variable with ports. -/
def portIndex (var : Token) : Option IndexType :=
  if var = srcportVar then some .srcport else if var = dstportVar then some .dstport else none

/-- The lookup has the port that is written. -/
def DenotesPort (type : IndexType) (value : Token) (request : Request) : Prop :=
  ∃ sign whole fraction n, WritesNumber value sign whole fraction (n : ℕ) ∧ n < 2 ^ 16 ∧
    request = .index ⟨type, toLittleEndian 2 n⟩

/-- A whole number of 16 bits with a digit before the point. -/
def PlainPort (value : Token) : Prop :=
  ∃ sign whole fraction n, WritesNumber value sign whole fraction (n : ℕ) ∧ n < 2 ^ 16 ∧
    whole ≠ []

theorem denotesPort_iff (type : IndexType) (value : Token) :
    (∃ request, portRequest type value = some request ∧ DenotesPort type value request) ↔
      PlainPort value := by
  constructor
  · rintro ⟨request, hrequest, sign, whole, fraction, n, hwrites, hn, -⟩
    refine ⟨sign, whole, fraction, n, hwrites, hn, fun hnil => ?_⟩
    rw [portRequest, hwrites.stoul_eq, if_pos (.inl hnil)] at hrequest
    exact Option.some_ne_none _ hrequest.symm
  · rintro ⟨sign, whole, fraction, n, hwrites, hn, hwhole⟩
    obtain ⟨hvalue, hsign⟩ := hwrites.whole_eq
    have hread : stoul value = some n := by
      rw [hwrites.stoul_eq, hvalue, if_neg (by simp only [hwhole, false_or]; omega)]
      by_cases hminus : sign = ['-']
      · rw [if_pos hminus, hsign hminus]
        rfl
      · rw [if_neg hminus]
    refine ⟨_, ?_, sign, whole, fraction, n, hwrites, hn, rfl⟩
    rw [portRequest, hread, Option.map_some, Nat.mod_eq_of_lt hn]

/-! ## Addresses -/

/-- Parts with dots between them. -/
def dotted : List Token → Token
  | [] => []
  | [part] => part
  | part :: rest => part ++ '.' :: dotted rest

def addressOf : List ℕ → ℕ
  | [] => 0
  | value :: rest => value * 256 ^ rest.length + addressOf rest

/-- What `inet_aton` takes a part for. -/
def readPart (part : Token) : Option ℕ :=
  if part.head? ≠ some '0' then some (numeral 10 part)
  else if part.all (· ∈ octalDigits) then some (numeral 8 part)
  else none

def readParts : List Token → Option (List ℕ)
  | [] => some []
  | part :: rest => (readPart part).bind fun value => (readParts rest).map (value :: ·)

/-- The token is an IPv4 address of four decimal parts. -/
structure WritesAddress (s : Token) (parts : List Token) : Prop where
  length_eq : parts.length = 4
  numerals : ∀ part ∈ parts, IsNumeral part
  le_255 : ∀ part ∈ parts, numeral 10 part ≤ 255
  eq_dotted : s = dotted parts

section Addresses

variable {part rest : Token} {left word value : ℕ}

/-- No part is hexadecimal. -/
theorem getD_one_ne (hpart : IsNumeral part) (hrest : ∀ c ∈ rest.head?, c = '.') :
    (part ++ rest).getD 1 ' ' ≠ 'x' ∧ (part ++ rest).getD 1 ' ' ≠ 'X' := by
  obtain ⟨hne, hall⟩ := hpart
  match part, hne with
  | [c], _ =>
      cases rest with
      | nil => exact ⟨(by decide : ' ' ≠ 'x'), (by decide : ' ' ≠ 'X')⟩
      | cons d rest =>
          obtain rfl : d = '.' := hrest d rfl
          exact ⟨(by decide : '.' ≠ 'x'), (by decide : '.' ≠ 'X')⟩
  | c :: d :: tail, _ =>
      have hd := digit_ne d (hall d (List.mem_cons_of_mem c List.mem_cons_self))
      exact hd.2.2.2.2.2

theorem head?_append_ne (hpart : IsNumeral part) : (part ++ rest).head? = part.head? := by
  cases part with
  | nil => exact absurd rfl hpart.1
  | cons c tail => rfl

/-- A digit that does not belong to the base ends the number. -/
theorem dropWhile_eq_cons {p : Char → Bool} (h : ¬ ∀ c ∈ part, p c = true) :
    ∃ c tail, (part ++ rest).dropWhile p = c :: tail ∧ c ∈ part := by
  induction part with
  | nil => exact absurd (by simp) h
  | cons c part ih =>
      cases hc : p c with
      | false => exact ⟨c, part ++ rest, by simp [hc], List.mem_cons_self⟩
      | true =>
          obtain ⟨d, tail, hdrop, hd⟩ := ih fun hall => h (by simpa [hc] using hall)
          exact ⟨d, tail, by simpa [hc] using hdrop, List.mem_cons_of_mem c hd⟩

theorem strtoul_of_readPart (hpart : IsNumeral part) (hrest : ∀ c ∈ rest.head?, c = '.')
    (hread : readPart part = some value) : strtoul (part ++ rest) = (value, rest) := by
  obtain ⟨hx, hX⟩ := getD_one_ne hpart hrest
  unfold readPart at hread
  unfold strtoul
  simp only [hx, hX, or_self, false_and, and_false, if_false, head?_append_ne hpart]
  by_cases hzero : part.head? = some '0'
  · rw [if_neg (not_not_intro hzero)] at hread
    split_ifs at hread with hoctal
    obtain rfl := Option.some.inj hread
    have hstop : ∀ c ∈ rest.head?, decide (c ∈ charRange 48 8) = false := fun c hc => by
      rw [hrest c hc]
      decide
    obtain ⟨htake, hdrop⟩ := span_eq (List.all_eq_true.mp hoctal) hstop
    simp only [if_pos hzero]
    rw [octalDigits] at htake hdrop
    rw [htake, hdrop, foldl_hexValue hpart.2]
  · rw [if_pos hzero] at hread
    obtain rfl := Option.some.inj hread
    have hstop : ∀ c ∈ rest.head?, decide (c ∈ digits) = false := fun c hc => by
      rw [hrest c hc]
      decide
    obtain ⟨htake, hdrop⟩ := span_eq (fun c hc => decide_eq_true (hpart.2 c hc)) hstop
    simp only [if_neg hzero]
    rw [htake, hdrop, foldl_hexValue hpart.2]

/-- A part with a leading zero and a digit 8 or 9 is no part of an address. -/
theorem strtoul_of_readPart_none (hpart : IsNumeral part) (hrest : ∀ c ∈ rest.head?, c = '.')
    (hread : readPart part = none) :
    ∃ c tail, (strtoul (part ++ rest)).2 = c :: tail ∧ c ∈ digits := by
  obtain ⟨hx, hX⟩ := getD_one_ne hpart hrest
  unfold readPart at hread
  split_ifs at hread with hzero hoctal
  rw [not_not] at hzero
  unfold strtoul
  simp only [hx, hX, or_self, false_and, and_false, if_false, head?_append_ne hpart,
    if_pos hzero]
  obtain ⟨c, tail, hdrop, hc⟩ := @dropWhile_eq_cons part rest (fun c => decide (c ∈ octalDigits))
    (by simpa using hoctal)
  exact ⟨c, tail, hdrop, hpart.2 c hc⟩

theorem readPart_le (hread : readPart part = some value) : value ≤ numeral 10 part := by
  unfold readPart at hread
  split_ifs at hread
  · exact (Option.some.inj hread).ge
  · exact (Option.some.inj hread).ge.trans (numeral_octal_le part)

theorem head?_digit (hpart : IsNumeral part) :
    (part ++ rest).head?.any (· ∈ digits) = true := by
  obtain ⟨c, tail, rfl⟩ := List.exists_cons_of_ne_nil hpart.1
  simpa using hpart.2 c List.mem_cons_self

theorem length_readParts {parts : List Token} {read : List ℕ} (h : readParts parts = some read) :
    read.length = parts.length := by
  induction parts generalizing read with
  | nil =>
      cases h
      rfl
  | cons part parts ih =>
      obtain ⟨value, -, hrest⟩ := Option.bind_eq_some_iff.mp h
      obtain ⟨rest, hreads, rfl⟩ := Option.map_eq_some_iff.mp hrest
      rw [List.length_cons, ih hreads, List.length_cons]

/-- `inet_aton` reads the parts one by one. -/
theorem inetAtonLoop_eq (parts : List Token) (hne : parts ≠ [])
    (hnumerals : ∀ part ∈ parts, IsNumeral part) (hle : ∀ part ∈ parts, numeral 10 part ≤ 255)
    (word : ℕ) :
    inetAtonLoop (parts.length - 1) word (dotted parts) =
      (readParts parts).map fun read => word + addressOf read := by
  induction parts generalizing word with
  | nil => exact absurd rfl hne
  | cons part parts ih =>
      have hpart := hnumerals part List.mem_cons_self
      have hsmall := hle part List.mem_cons_self
      -- the last part ends the numeral; behind another one stands a dot
      cases parts with
      | nil =>
          have hhead := @head?_digit part [] hpart
          rw [List.append_nil] at hhead
          unfold inetAtonLoop
          simp only [dotted, hhead, not_true_eq_false, if_false]
          cases hread : readPart part with
          | none =>
              obtain ⟨c, tail, hrest, hc⟩ := @strtoul_of_readPart_none part [] hpart (by simp) hread
              rw [List.append_nil] at hrest
              have hcne := digit_ne c hc
              simp [hrest, hcne, hread, readParts]
          | some value =>
              have hvalue := readPart_le hread
              have hstrtoul := @strtoul_of_readPart part [] value hpart (by simp) hread
              rw [List.append_nil] at hstrtoul
              simp [hstrtoul, hread, addressOf, readParts]
              omega
      | cons next parts =>
          have hdot : ∀ c ∈ ('.' :: dotted (next :: parts)).head?, c = '.' := by simp
          have hhead := @head?_digit part ('.' :: dotted (next :: parts)) hpart
          have hrec := ih (by simp) (fun x hx => hnumerals x (List.mem_cons_of_mem part hx))
            (fun x hx => hle x (List.mem_cons_of_mem part hx))
          unfold inetAtonLoop
          simp only [dotted, hhead, not_true_eq_false, if_false]
          cases hread : readPart part with
          | none =>
              obtain ⟨c, tail, hrest, hc⟩ := strtoul_of_readPart_none hpart hdot hread
              have hcne := digit_ne c hc
              simp [hrest, hcne, hread, readParts]
          | some value =>
              have hvalue := readPart_le hread
              have hstrtoul := strtoul_of_readPart hpart hdot hread
              have hfit : ¬ value > 255 := by omega
              simp only [hstrtoul, List.head?_cons, if_true, List.length_cons, Nat.add_sub_cancel,
                if_neg hfit, List.drop_one, List.tail_cons]
              rw [List.length_cons, Nat.add_sub_cancel] at hrec
              rw [hrec]
              conv_rhs => rw [readParts, hread, Option.bind_some, Option.map_map]
              cases hreads : readParts (next :: parts) with
              | none => rfl
              | some read =>
                  have hlength := length_readParts hreads
                  rw [Option.map_some, Option.map_some, Function.comp_apply, addressOf, hlength,
                    List.length_cons, Nat.add_assoc]

/-- The number of the written address. -/
def writtenAddress (parts : List Token) : ℕ := addressOf (parts.map (numeral 10))

theorem readParts_le {parts : List Token} {read : List ℕ} (h : readParts parts = some read)
    (hle : ∀ part ∈ parts, numeral 10 part ≤ 255) : ∀ value ∈ read, value ≤ 255 := by
  induction parts generalizing read with
  | nil =>
      cases h
      simp
  | cons part parts ih =>
      obtain ⟨value, hvalue, hrest⟩ := Option.bind_eq_some_iff.mp h
      obtain ⟨rest, hreads, rfl⟩ := Option.map_eq_some_iff.mp hrest
      intro x hx
      rcases List.mem_cons.mp hx with rfl | hx
      · exact (readPart_le hvalue).trans (hle part List.mem_cons_self)
      · exact ih hreads (fun y hy => hle y (List.mem_cons_of_mem part hy)) x hx

theorem addressOf_lt {values : List ℕ} (h : ∀ value ∈ values, value ≤ 255) :
    addressOf values < 256 ^ values.length := by
  induction values with
  | nil => exact Nat.one_pos
  | cons value rest ih =>
      have hvalue := h value List.mem_cons_self
      have hrest := ih fun x hx => h x (List.mem_cons_of_mem value hx)
      calc
        addressOf (value :: rest) < value * 256 ^ rest.length + 256 ^ rest.length :=
          Nat.add_lt_add_left hrest _
        _ = (value + 1) * 256 ^ rest.length := (Nat.succ_mul _ _).symm
        _ ≤ 256 * 256 ^ rest.length := Nat.mul_le_mul_right _ (by omega)
        _ = 256 ^ (value :: rest).length := by rw [List.length_cons, pow_succ']

/-- An address has no slash. -/
theorem ne_slash_of_mem_dotted {parts : List Token} (h : ∀ part ∈ parts, IsNumeral part) :
    ∀ c ∈ dotted parts, c ≠ '/' := by
  induction parts with
  | nil => simp [dotted]
  | cons part parts ih =>
      have hpart : ∀ c ∈ part, c ≠ '/' := fun c hc =>
        (digit_ne c ((h part List.mem_cons_self).2 c hc)).2.2.2.2.1
      cases parts with
      | nil => exact hpart
      | cons next parts =>
          intro c hc
          rcases List.mem_append.mp hc with hc | hc
          · exact hpart c hc
          · rcases List.mem_cons.mp hc with rfl | hc
            · decide
            · exact ih (fun x hx => h x (List.mem_cons_of_mem part hx)) c hc

end Addresses

namespace WritesAddress

variable {s : Token} {parts : List Token}

theorem inetAton_eq (h : WritesAddress s parts) :
    inetAton s = (readParts parts).map addressOf := by
  have hne : parts ≠ [] := fun hnil => by
    have hlength := h.length_eq
    rw [hnil] at hlength
    exact absurd hlength (by decide)
  have hloop := inetAtonLoop_eq parts hne h.numerals h.le_255 0
  rw [h.length_eq] at hloop
  rw [inetAton, h.eq_dotted, hloop]
  simp only [Nat.zero_add]

theorem splitIP_eq (h : WritesAddress s parts) (rest : Token) :
    splitIP (s ++ '/' :: rest) = s.length ∧ splitIP s = s.length := by
  have hall : ∀ c ∈ s, decide (c ≠ '/') = true := fun c hc =>
    decide_eq_true (ne_slash_of_mem_dotted h.numerals c (h.eq_dotted ▸ hc))
  have hslash : (s ++ '/' :: rest).takeWhile (fun c => decide (c ≠ '/')) = s :=
    (span_eq hall (by simp)).1
  have hnone : (s ++ []).takeWhile (fun c => decide (c ≠ '/')) = s :=
    (span_eq hall (by simp)).1
  rw [List.append_nil] at hnone
  exact ⟨by rw [splitIP, hslash], by rw [splitIP, hnone]⟩

theorem read_lt (h : WritesAddress s parts) {read : List ℕ} (hread : readParts parts = some read) :
    addressOf read < 2 ^ 32 := by
  have hlt := addressOf_lt (readParts_le hread h.le_255)
  rw [length_readParts hread, h.length_eq] at hlt
  exact hlt

theorem written_lt (h : WritesAddress s parts) : writtenAddress parts < 2 ^ 32 := by
  have hlt := @addressOf_lt (parts.map (numeral 10)) fun value hvalue => by
    obtain ⟨part, hpart, rfl⟩ := List.mem_map.mp hvalue
    exact h.le_255 part hpart
  rw [List.length_map, h.length_eq] at hlt
  exact hlt

end WritesAddress

/-! ## Prefixes -/

/-- The mask has the first bits, and the rest is the number of addresses less one. -/
theorem maskBit_eq : ∀ bits < 33, 0 < bits →
    0xFFFFFFFF <<< (32 - bits) % 2 ^ 32 = (2 ^ bits - 1) * 2 ^ (32 - bits) ∧
      0xFFFFFFFF - (2 ^ bits - 1) * 2 ^ (32 - bits) = 2 ^ (32 - bits) - 1 := by
  decide

theorem firstBits_lt {bits address : ℕ} (hle : bits ≤ 32) (h : address < 2 ^ 32) :
    address / 2 ^ (32 - bits) < 2 ^ bits := by
  rw [Nat.div_lt_iff_lt_mul (Nat.two_pow_pos _), ← pow_add, Nat.add_sub_cancel' hle]
  exact h

theorem lastAddress_lt {bits address : ℕ} (hle : bits ≤ 32) (h : address < 2 ^ 32) :
    address / 2 ^ (32 - bits) * 2 ^ (32 - bits) + (2 ^ (32 - bits) - 1) < 2 ^ 32 := by
  have hmul := Nat.mul_le_mul_right (2 ^ (32 - bits)) (firstBits_lt hle h)
  rw [← pow_add, Nat.add_sub_cancel' hle, Nat.succ_mul] at hmul
  have hunit := Nat.two_pow_pos (32 - bits)
  omega

theorem stoul_numeral {mask : Token} (h : IsNumeral mask) :
    stoul mask = if numeral 10 mask ≥ 2 ^ 64 then none else some (numeral 10 mask) := by
  have hwrites : WritesNumber mask [] mask [] (numeral 10 mask) :=
    { signed := .inl rfl
      mem_digits := by simpa using h.2
      ne_nil := by simpa using h.1
      eq_append := .inr ⟨rfl, rfl⟩
      value := by simp }
  rw [hwrites.stoul_eq]
  simp [h.1]

/-- The lookup of a prefix that has bits. -/
theorem addressRequest_range {type : IndexType} {ip mask : Token} {parts : List Token}
    {read : List ℕ} (hwrites : WritesAddress ip parts) (hmask : IsNumeral mask)
    (hle : numeral 10 mask ≤ 32) (hread : readParts parts = some read) :
    addressRequest type (ip ++ '/' :: mask) =
      if numeral 10 mask = 0 then none
      else
        let unit := 2 ^ (32 - numeral 10 mask)
        some (.range ⟨type, toLittleEndian 4 (addressOf read / unit * unit)⟩
          ⟨type, toLittleEndian 4 (addressOf read / unit * unit + (unit - 1))⟩) := by
  have hsplit := (hwrites.splitIP_eq mask).1
  have hstoul := stoul_numeral hmask
  generalize numeral 10 mask = bits at hle hstoul ⊢
  have hsmall : ¬ bits ≥ 2 ^ 64 := by omega
  rw [if_neg hsmall] at hstoul
  have hmod : bits % 2 ^ 32 = bits := Nat.mod_eq_of_lt (by omega)
  have hne : ip.length ≠ (ip ++ '/' :: mask).length := by
    rw [List.length_append, List.length_cons]
    omega
  have hdrop : (ip ++ '/' :: mask).drop (ip.length + 1) = mask := by
    rw [List.drop_append]
    simp
  unfold addressRequest
  simp only [hsplit, if_neg hne, List.take_left, hwrites.inetAton_eq, hread, Option.map_some,
    Option.bind_some, hdrop, hstoul, hmod, not_lt.mpr hle, or_false]
  by_cases hzero : bits = 0
  · rw [if_pos hzero, if_pos hzero]
  · rw [if_neg hzero, if_neg hzero]
    obtain ⟨hbits, hrest⟩ := maskBit_eq bits (by omega) (Nat.pos_of_ne_zero hzero)
    have hlt := hwrites.read_lt hread
    generalize addressOf read = address at hlt ⊢
    have hdiv := firstBits_lt hle hlt
    have hkey : address &&& (2 ^ bits - 1) * 2 ^ (32 - bits) =
        address / 2 ^ (32 - bits) * 2 ^ (32 - bits) := by
      rw [and_bitMask, Nat.mod_eq_of_lt hdiv]
    rw [hbits, hrest, hkey, Nat.mod_eq_of_lt (lastAddress_lt hle hlt)]

/-- The index of a variable with addresses. -/
def addressIndex (var : Token) : Option IndexType :=
  if var = srcipVar then some .srcip else if var = dstipVar then some .dstip else none

/-- The lookup has the address that is written, or those with its first bits. -/
def DenotesAddress (type : IndexType) (value : Token) (request : Request) : Prop :=
  (∃ parts, WritesAddress value parts ∧
    request = .index ⟨type, toLittleEndian 4 (writtenAddress parts)⟩) ∨
  ∃ ip mask parts first last, value = ip ++ '/' :: mask ∧ WritesAddress ip parts ∧
    IsNumeral mask ∧ numeral 10 mask ≤ 32 ∧ first < 2 ^ 32 ∧ last < 2 ^ 32 ∧
    request = .range ⟨type, toLittleEndian 4 first⟩ ⟨type, toLittleEndian 4 last⟩ ∧
    ∀ address < 2 ^ 32, first ≤ address ∧ address ≤ last ↔
      address / 2 ^ (32 - numeral 10 mask) = writtenAddress parts / 2 ^ (32 - numeral 10 mask)

/-- With the parts that begin with 0 read as octal it is the same address, or has the
same first bits, of which there is one at least. -/
def PlainAddress (value : Token) : Prop :=
  ∃ parts read, readParts parts = some read ∧
    (WritesAddress value parts ∧ addressOf read = writtenAddress parts ∨
    ∃ ip mask, value = ip ++ '/' :: mask ∧ WritesAddress ip parts ∧ IsNumeral mask ∧
      0 < numeral 10 mask ∧ numeral 10 mask ≤ 32 ∧
      addressOf read / 2 ^ (32 - numeral 10 mask) =
        writtenAddress parts / 2 ^ (32 - numeral 10 mask))

theorem between_iff {address other unit : ℕ} (hunit : 0 < unit) :
    address / unit * unit ≤ other ∧ other ≤ address / unit * unit + (unit - 1) ↔
      other / unit = address / unit := by
  rw [Nat.div_eq_iff hunit, Nat.add_sub_assoc hunit]

theorem denotesAddress_iff (type : IndexType) (value : Token) :
    (∃ request, addressRequest type value = some request ∧ DenotesAddress type value request) ↔
      PlainAddress value := by
  constructor
  · rintro ⟨request, hrequest, ⟨parts, hwrites, rfl⟩ |
      ⟨ip, mask, parts, first, last, rfl, hwrites, hmask, hle, hfirst, hlast, rfl, hrange⟩⟩
    -- an address alone: its key is the number that is written
    · rw [addressRequest, (hwrites.splitIP_eq []).2] at hrequest
      simp only [if_true, hwrites.inetAton_eq] at hrequest
      cases hread : readParts parts with
      | none => simp [hread] at hrequest
      | some read =>
          refine ⟨parts, read, hread, .inl ⟨hwrites, ?_⟩⟩
          rw [hread, Option.map_some, Option.map_some] at hrequest
          have hkey := congrArg AtomKey.key (Request.index.inj (Option.some.inj hrequest))
          exact toLittleEndian_inj (hwrites.read_lt hread) hwrites.written_lt hkey
    -- an address with a mask: the bounds are the first and the last address of the network
    · cases hread : readParts parts with
      | none =>
          have hne : ip.length ≠ (ip ++ '/' :: mask).length := by
            rw [List.length_append, List.length_cons]
            omega
          rw [addressRequest, (hwrites.splitIP_eq mask).1] at hrequest
          simp only [if_neg hne, List.take_left, hwrites.inetAton_eq, hread, Option.map_none,
            Option.bind_none] at hrequest
          exact absurd hrequest.symm (Option.some_ne_none _)
      | some read =>
          rw [addressRequest_range hwrites hmask hle hread] at hrequest
          split_ifs at hrequest with hzero
          obtain ⟨hs, he⟩ := Request.range.inj (Option.some.inj hrequest)
          refine ⟨parts, read, hread, .inr ⟨ip, mask, rfl, hwrites, hmask,
            Nat.pos_of_ne_zero hzero, hle, ?_⟩⟩
          have hunit := Nat.two_pow_pos (32 - numeral 10 mask)
          have hlt := hwrites.read_lt hread
          have hstart := toLittleEndian_inj
            ((Nat.div_mul_le_self _ _).trans_lt hlt) hfirst (congrArg AtomKey.key hs)
          have hend := toLittleEndian_inj (lastAddress_lt hle hlt) hlast (congrArg AtomKey.key he)
          rw [← hrange _ hlt, ← hstart, ← hend]
          exact (between_iff hunit).mpr rfl
  · rintro ⟨parts, read, hread, ⟨hwrites, hsame⟩ |
      ⟨ip, mask, rfl, hwrites, hmask, hpos, hle, hsame⟩⟩
    · refine ⟨_, ?_, .inl ⟨parts, hwrites, rfl⟩⟩
      rw [addressRequest, (hwrites.splitIP_eq []).2]
      simp only [if_true, hwrites.inetAton_eq, hread, Option.map_some, hsame]
    · have hlt := hwrites.read_lt hread
      refine ⟨_, addressRequest_range hwrites hmask hle hread |>.trans (if_neg hpos.ne'), .inr
        ⟨ip, mask, parts, _, _, rfl, hwrites, hmask, hle,
          (Nat.div_mul_le_self _ _).trans_lt hlt, lastAddress_lt hle hlt, rfl, ?_⟩⟩
      intro address _
      rw [between_iff (Nat.two_pow_pos _), hsame]

/-! ## Atoms -/

/-- The lookup is in the index of the variable, and for what is written. -/
def Denotes (var value : Token) (request : Request) : Prop :=
  (∃ type, portIndex var = some type ∧ DenotesPort type value request) ∨
    ∃ type, addressIndex var = some type ∧ DenotesAddress type value request

/-- The variable has an index, and the code reads the value as it is written. -/
def Plain (var value : Token) : Prop :=
  (portIndex var).isSome = true ∧ PlainPort value ∨
    (addressIndex var).isSome = true ∧ PlainAddress value

section Atoms

variable {var value : Token} {type : IndexType}

theorem atomRequest_of_portIndex (h : portIndex var = some type) :
    atomRequest var value = portRequest type value := by
  unfold portIndex at h
  split_ifs at h with hsrc hdst
  · obtain rfl := Option.some.inj h
    rw [hsrc]
    rfl
  · obtain rfl := Option.some.inj h
    rw [hdst]
    rfl

theorem atomRequest_of_addressIndex (h : addressIndex var = some type) :
    atomRequest var value = addressRequest type value := by
  unfold addressIndex at h
  split_ifs at h with hsrc hdst
  · obtain rfl := Option.some.inj h
    rw [hsrc]
    rfl
  · obtain rfl := Option.some.inj h
    rw [hdst]
    rfl

theorem addressIndex_of_portIndex (h : portIndex var = some type) : addressIndex var = none := by
  unfold portIndex at h
  split_ifs at h with hsrc hdst
  · rw [hsrc]
    decide
  · rw [hdst]
    decide

/-- An atom is looked up as it is written exactly if it is plain. -/
theorem denotes_atomRequest_iff (var value : Token) :
    (∃ request, atomRequest var value = some request ∧ Denotes var value request) ↔
      Plain var value := by
  unfold Denotes Plain
  cases hport : portIndex var with
  | some type =>
      rw [atomRequest_of_portIndex hport, addressIndex_of_portIndex hport, ← denotesPort_iff type]
      simp
  | none =>
      cases haddress : addressIndex var with
      | some type =>
          rw [atomRequest_of_addressIndex haddress, ← denotesAddress_iff type]
          simp
      | none => simp

end Atoms

end Query

end TrafficDatabase
