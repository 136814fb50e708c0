import TrafficDatabase.Library.RegularExpression
import Mathlib.Data.List.Basic

/-!
# The tokens of a query

`QueryTree::splitExpression` cuts an expression into tokens, at blanks, brackets,
commas and operators.  What a token is is decided by regular expressions and two
small loops: a variable, a slice, or a value, which is a number, an address, a
truth value or a quoted string.  The classes are not disjoint: `true` is a
variable and a value, `::` a slice and a value.

`back()` of an empty string is read as no character.
-/

namespace TrafficDatabase

/-- A string, as its characters. -/
abbrev Token := List Char

namespace Query

open RegularExpression

/-! ## Classes of characters -/

/-- The characters with codes from `first` on. -/
def charRange (first count : ℕ) : List Char := (List.range' first count).map Char.ofNat

def digits : List Char := charRange 48 10
def hexDigits : List Char := digits ++ charRange 65 6 ++ charRange 97 6
def letters : List Char := charRange 65 26 ++ charRange 97 26

/-- `\s`. -/
def spaces : List Char := ' ' :: charRange 9 5

/-- `.`, which matches every character that does not end a line. -/
def anyChars : List Char := (charRange 0 256).filter fun c => c ≠ '\n' ∧ c ≠ '\r'

def digit : RegularExpression Char := oneOf digits
def hexDigit : RegularExpression Char := oneOf hexDigits

/-! ## Classes of tokens -/

/-- `[a-zA-Z][a-zA-Z0-9]*(\.[a-zA-Z][a-zA-Z0-9]*)*` -/
def varRegex : RegularExpression Char :=
  oneOf letters * star (oneOf (letters ++ digits)) *
    star (char '.' * (oneOf letters * star (oneOf (letters ++ digits))))

def isVar (s : Token) : Bool := varRegex.rmatch s

/-- `\d*:\d*(:\d*)?` -/
def sliceRegex : RegularExpression Char :=
  star digit * (char ':' * (star digit * opt (char ':' * star digit)))

def isSlice (s : Token) : Bool := sliceRegex.rmatch s

/-- The loop of `isNumeric`; `before` is the character before the rest. -/
def isNumericLoop (numSeen dotSeen signSeen : Bool) (before : Option Char) : Token → Bool
  | [] => numSeen
  | c :: rest =>
      if c ∈ digits then isNumericLoop true dotSeen signSeen (some c) rest
      else if c = '.' then
        if dotSeen then false else isNumericLoop numSeen true signSeen (some c) rest
      else if c = '-' then
        if signSeen || numSeen || (dotSeen && before.any (· ≠ '.')) then false
        else isNumericLoop numSeen dotSeen true (some c) rest
      else false

def isNumeric (s : Token) : Bool := isNumericLoop false false false none s

/-- `25[0-5]|2[0-4][0-9]|[01]?[0-9][0-9]?` -/
def ipv4Part : RegularExpression Char :=
  char '2' * (char '5' * oneOf (charRange 48 6)) +
    (char '2' * (oneOf (charRange 48 5) * digit) +
      opt (oneOf ['0', '1']) * (digit * opt digit))

/-- Four parts with dots between them, and `(/(3[0-2]|[12]?[0-9]))?`. -/
def ipv4Regex : RegularExpression Char :=
  exactly 3 (ipv4Part * char '.') * ipv4Part *
    opt (char '/' * (char '3' * oneOf ['0', '1', '2'] + opt (oneOf ['1', '2']) * digit))

def isValidIPv4 (ip : Token) : Bool := ipv4Regex.rmatch ip

/-- `(25[0-5]|2[0-4]\d|1\d\d|[1-9]?\d)`, four times with dots between them. -/
def embeddedIPv4 : RegularExpression Char :=
  let part :=
    char '2' * (char '5' * oneOf (charRange 48 6)) +
      (char '2' * (oneOf (charRange 48 5) * digit) +
        (char '1' * (digit * digit) + opt (oneOf (charRange 49 9)) * digit))
  part * exactly 3 (char '.' * part)

/-- `[0-9A-Fa-f]{1,4}` -/
def hexGroup : RegularExpression Char := between 1 3 hexDigit

/-- `(([0-9A-Fa-f]{1,4}:){n} tail)` -/
def ipv6After (n : ℕ) (tail : RegularExpression Char) : RegularExpression Char :=
  exactly n (hexGroup * char ':') * tail

/-- `((:[0-9A-Fa-f]{1,4}){1,n})|((:[0-9A-Fa-f]{1,4}){0,m}:v4)|:` -/
def ipv6Tail (n m : ℕ) : RegularExpression Char :=
  between 1 (n - 1) (char ':' * hexGroup) +
    (upTo m (char ':' * hexGroup) * (char ':' * embeddedIPv4) + char ':')

/-- The alternatives of the source, in its order. -/
def ipv6Body : RegularExpression Char :=
  ipv6After 7 (hexGroup + char ':') +
    (ipv6After 6 (char ':' * hexGroup + (embeddedIPv4 + char ':')) +
      (ipv6After 5 (ipv6Tail 2 0) +
        (ipv6After 4 (ipv6Tail 3 1) +
          (ipv6After 3 (ipv6Tail 4 2) +
            (ipv6After 2 (ipv6Tail 5 3) +
              (ipv6After 1 (ipv6Tail 6 4) + char ':' * ipv6Tail 7 5))))))

/-- `((\s*(...)(%.+)?\s*)(/(([1-9])|([1-9][0-9])|(1[0-1][0-9]|12[0-8]))){0,1})*` -/
def ipv6Regex : RegularExpression Char :=
  star (star (oneOf spaces) * ipv6Body * opt (char '%' * plus1 (oneOf anyChars)) *
    star (oneOf spaces) *
    upTo 1 (char '/' * (oneOf (charRange 49 9) +
      (oneOf (charRange 49 9) * digit +
        (char '1' * (oneOf ['0', '1'] * digit) +
          char '1' * (char '2' * oneOf (charRange 48 9)))))))

def isValidIPv6 (ip : Token) : Bool := ipv6Regex.rmatch ip

/-- `([0-9A-Fa-f]{2}[:-]){5}([0-9A-Fa-f]{2})|([0-9A-Fa-f]{12})` -/
def macRegex : RegularExpression Char :=
  exactly 5 (exactly 2 hexDigit * oneOf [':', '-']) * exactly 2 hexDigit + exactly 12 hexDigit

def isValidMACAddress (address : Token) : Bool := macRegex.rmatch address

def isBoolean (s : Token) : Bool :=
  s = ['t', 'r', 'u', 'e'] || s = ['f', 'a', 'l', 's', 'e'] || s = ['1'] || s = ['0']

def isString (s : Token) : Bool :=
  2 ≤ s.length && s.head? = some '"' && s.getLast? = some '"'

def isValue (s : Token) : Bool :=
  isNumeric s || isValidIPv4 s || isValidIPv6 s || isValidMACAddress s || isBoolean s || isString s

/-! ## Splitting -/

/-- The variables of `splitExpression`. -/
structure Splitter where
  expList : List Token
  tmp : Token
deriving DecidableEq, Repr

namespace Splitter

variable (st : Splitter)

/-- The token is complete. -/
def emit : Splitter := { expList := st.expList ++ [st.tmp], tmp := [] }

def append (c : Char) : Splitter := { st with tmp := st.tmp ++ [c] }

/-- `PUSH_TMP`; `none` where it returns an empty list. -/
def pushTmp : Option Splitter :=
  match st.tmp.getLast? with
  | none => some st
  | some op => if op ∈ ['=', '|', '&', '^'] then none else some st.emit

/-- One turn of the loop. -/
def step (c : Char) : Option Splitter :=
  let st := if c ≠ '=' ∧ st.tmp.getLast?.any (· ∈ ['!', '<', '>']) then st.emit else st
  if c = ' ' then st.pushTmp
  else if c ∈ ['(', ')', '{', '}', '[', ']', ','] then
    st.pushTmp.map fun pushed => (pushed.append c).emit
  else if c ∈ ['!', '<', '>'] then st.pushTmp.map fun pushed => pushed.append c
  else if c = '=' then
    if st.tmp.getLast?.any (· ∈ ['!', '<', '>', '=']) then some (st.append c).emit
    else st.pushTmp.map fun pushed => pushed.append c
  else if c ∈ ['|', '&', '^'] then
    if st.tmp.getLast? = some c then some (st.append c).emit
    else st.pushTmp.map fun pushed => pushed.append c
  else some (st.append c)

end Splitter

def splitExpression (originExpression : List Char) : List Token :=
  match (originExpression.foldlM Splitter.step ⟨[], []⟩).bind Splitter.pushTmp with
  | none => []
  | some st => st.expList

/-! ## The classes of the fixed tokens -/

theorem exists_of_mem_charRange {first count : ℕ} {c : Char} (h : c ∈ charRange first count) :
    ∃ n, first ≤ n ∧ n < first + count ∧ c = Char.ofNat n := by
  obtain ⟨n, hn, rfl⟩ := List.mem_map.mp h
  obtain ⟨hfirst, hcount⟩ := List.mem_range'_1.mp hn
  exact ⟨n, hfirst, hcount, rfl⟩

/-- The code of a character of a range. -/
theorem toNat_of_mem_charRange {first count : ℕ} {c : Char} (h : c ∈ charRange first count)
    (hsmall : first + count ≤ 256) : first ≤ c.toNat ∧ c.toNat < first + count := by
  obtain ⟨n, hfirst, hcount, rfl⟩ := exists_of_mem_charRange h
  have hvalid : n.isValidChar := .inl (by omega)
  have hcode : (Char.ofNat n).toNat = n := by
    unfold Char.ofNat
    rw [dif_pos hvalid]
    rfl
  omega

theorem ne_colon_of_mem {c : Char} (h : c ∈ letters ++ digits) : c ≠ ':' := by
  rintro rfl
  have hcode : ':'.toNat = 58 := rfl
  rcases List.mem_append.mp h with hletter | hdigit
  · rcases List.mem_append.mp hletter with hupper | hlower
    · have := toNat_of_mem_charRange hupper (by omega)
      omega
    · have := toNat_of_mem_charRange hlower (by omega)
      omega
  · have := toNat_of_mem_charRange hdigit (by omega)
    omega

/-- A variable has no colon, and a slice has one. -/
theorem isSlice_of_isVar {s : Token} (h : isVar s = true) : isSlice s = false := by
  have husesOnly : UsesOnly (· ≠ ':') varRegex := by
    have hletters : ∀ c ∈ letters, c ≠ ':' := fun c hc =>
      ne_colon_of_mem (List.mem_append_left digits hc)
    have hrest : ∀ c ∈ letters ++ digits, c ≠ ':' := fun c hc => ne_colon_of_mem hc
    have hdot : '.' ≠ ':' := by decide
    exact ⟨⟨usesOnly_oneOf hletters, usesOnly_oneOf hrest⟩,
      hdot, usesOnly_oneOf hletters, usesOnly_oneOf hrest⟩
  have hnot : ':' ∉ s := fun hmem =>
    husesOnly.of_mem_matches' ((rmatch_iff_matches' _ _).mp h) hmem rfl
  by_contra hslice
  rw [Bool.not_eq_false] at hslice
  exact hnot (mem_of_mem_matches'_mid ((rmatch_iff_matches' _ _).mp hslice))

/-- The tokens `grammarVerify` compares with, but for `in` and `contains`. -/
def fixedTokens : List Token :=
  [['!'], ['('], ['{'], ['['], [')'], ['}'], [']'], ['=', '='], ['!', '='], ['>'], ['<'],
    ['>', '='], ['<', '='], ['|', '|'], ['&', '&'], ['^', '^'], [',']]

theorem isVar_fixed : ∀ s ∈ fixedTokens, isVar s = false := by decide +kernel

theorem isValue_fixed : ∀ s ∈ fixedTokens, isValue s = false := by decide +kernel

end Query

end TrafficDatabase
