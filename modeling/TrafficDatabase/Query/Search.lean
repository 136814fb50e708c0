import TrafficDatabase.Index.PrefixBloomFilter
import TrafficDatabase.Library.Bytes
import TrafficDatabase.Library.SortedMerge
import TrafficDatabase.Query.Grammar
import Mathlib.Data.List.Sort

/-!
# The value of a query

`searchExpression` evaluates the tokens from left to right.  It carries the
operator it has met last and the answers so far; an opening parenthesis pushes
both and starts anew with `||` and no answers.  The answers of an atom are looked
up in the index; here they are a parameter, which may answer each call anew.

An empty list of answers stands for "no operand yet", so `join` and `intersect`
both return the other list where one is empty.  For `||` that is right.  For `&&`
it is not where the list is empty because nothing was found: then the answers of
the other operand are returned as if there were no `&&` (`Reading.Balanced`,
`searchExpression_evaluates_iff`).
-/

namespace TrafficDatabase

namespace Query

/-! ## Answers -/

structure Answer where
  blockId : ℕ
  pointers : List ℕ
deriving DecidableEq, Repr

structure AtomKey where
  cachePos : IndexType
  key : List UInt8
deriving DecidableEq, Repr

/-- A call of `getPointerByFlowMetaIndex` or of `getPointerByFlowMetaRange`. -/
inductive Request
  | index (key : AtomKey)
  | range (startKey endKey : AtomKey)
deriving DecidableEq, Repr

/-- The first pass of both operations, `list::sort`. -/
def sorted (pointers : List ℕ) : List ℕ := pointers.insertionSort (· ≤ ·)

def intersectPointers (la lb : List ℕ) : List ℕ := SortedMerge.intersect (sorted la) (sorted lb)

def joinPointers (la lb : List ℕ) : List ℕ := SortedMerge.join (sorted la) (sorted lb)

/-- The loop of `intersect` and `join` over two lists of answers; it ends where the
blocks differ. -/
def zipAnswers (op : List ℕ → List ℕ → List ℕ) : List Answer → List Answer → List Answer
  | a :: la, b :: lb =>
      if a.blockId ≠ b.blockId then a :: la
      else { a with pointers := op a.pointers b.pointers } :: zipAnswers op la lb
  | la, _ => la

/-- `intersect` and `join` differ in what they do with the pointers of a block only. -/
def mergeAnswers (op : List ℕ → List ℕ → List ℕ) (la lb : List Answer) : List Answer :=
  if la = [] then lb else if lb = [] then la else zipAnswers op la lb

def intersect (la lb : List Answer) : List Answer := mergeAnswers intersectPointers la lb

def join (la lb : List Answer) : List Answer := mergeAnswers joinPointers la lb

/-! ## Keys -/

/-- `stoul`; `none` where it throws. -/
def stoul (s : Token) : Option ℕ :=
  let body := s.dropWhile (· ∈ spaces)
  let signed := body.head?.any (· ∈ ['-', '+'])
  let number := (if signed then body.drop 1 else body).takeWhile (· ∈ digits)
  let value := number.foldl (fun sum c => sum * 10 + (c.toNat - 48)) 0
  if number = [] ∨ value ≥ 2 ^ 64 then none
  else some (if body.head? = some '-' then (2 ^ 64 - value) % 2 ^ 64 else value)

/-- A hexadecimal digit. -/
def hexValue (c : Char) : ℕ :=
  if c.toNat < 58 then c.toNat - 48 else if c.toNat < 71 then c.toNat - 55 else c.toNat - 87

/-- `strtoul` with base 0, of a string that starts with a digit, and what it leaves. -/
def strtoul (s : Token) : ℕ × Token :=
  let hex := s.head? = some '0' ∧ (s.getD 1 ' ' = 'x' ∨ s.getD 1 ' ' = 'X') ∧
    s.getD 2 ' ' ∈ hexDigits
  let octal := s.head? = some '0'
  let base := if hex then 16 else if octal then 8 else 10
  let allowed := if hex then hexDigits else if octal then charRange 48 8 else digits
  let body := if hex then s.drop 2 else s
  ((body.takeWhile (· ∈ allowed)).foldl (fun sum c => sum * base + hexValue c) 0,
    body.dropWhile (· ∈ allowed))

/-- The loop of `inet_aton` where `left` parts may follow the next one.  The result
is in host byte order; `none` where `inet_aton` fails and leaves its result unset. -/
def inetAtonLoop (left word : ℕ) (s : Token) : Option ℕ :=
  if ¬ s.head?.any (· ∈ digits) then none
  else
    let value := (strtoul s).1
    let rest := (strtoul s).2
    if rest.head? = some '.' then
      match left with
      | 0 => none
      | left + 1 =>
          if value > 255 then none
          else inetAtonLoop left (word + value * 256 ^ (left + 1)) (rest.drop 1)
    else if rest.head?.all (· ∈ spaces) ∧ value < 256 ^ (left + 1) then some (word + value)
    else none

/-- `ntohl` of what `inet_aton` stores. -/
def inetAton (s : Token) : Option ℕ := inetAtonLoop 3 0 s

def splitIP (s : Token) : ℕ := (s.takeWhile (· ≠ '/')).length

/-- The branch of `wait_for_value == 2`. -/
def portRequest (cachePos : IndexType) (s : Token) : Option Request :=
  (stoul s).map fun port => .index ⟨cachePos, toLittleEndian 2 (port % 2 ^ 16)⟩

/-- The other branch.  A shift by 32 bits or more is undefined. -/
def addressRequest (cachePos : IndexType) (s : Token) : Option Request :=
  let splitPos := splitIP s
  if splitPos = s.length then
    (inetAton s).map fun ipv4 => .index ⟨cachePos, toLittleEndian 4 ipv4⟩
  else
    (inetAton (s.take splitPos)).bind fun ipv4 =>
      (stoul (s.drop (splitPos + 1))).bind fun mask =>
        let bits := mask % 2 ^ 32
        if bits = 0 ∨ 32 < bits then none
        else
          let maskBit := (0xFFFFFFFF <<< (32 - bits)) % 2 ^ 32
          let sKey := ipv4 &&& maskBit
          let eKey := (sKey + (0xFFFFFFFF - maskBit)) % 2 ^ 32
          some (.range ⟨cachePos, toLittleEndian 4 sKey⟩ ⟨cachePos, toLittleEndian 4 eKey⟩)

/-! ## The evaluator -/

def srcipVar : Token := ['s', 'r', 'c', 'i', 'p']
def dstipVar : Token := ['d', 's', 't', 'i', 'p']
def srcportVar : Token := ['s', 'r', 'c', 'p', 'o', 'r', 't']
def dstportVar : Token := ['d', 's', 't', 'p', 'o', 'r', 't']

/-- The variables of `searchExpression`, and the number of lookups so far.  `cachePos`
is set together with `waitForValue`. -/
structure SearchState where
  beforeLists : List (List Answer)
  ops : List Token
  leftList : List Answer
  cachePos : IndexType
  waitForValue : ℕ
  opNow : Token
  calls : ℕ
deriving DecidableEq, Repr

namespace SearchState

def start : SearchState :=
  { beforeLists := [], ops := [], leftList := [], cachePos := .srcip, waitForValue := 0
    opNow := ['|', '|'], calls := 0 }

end SearchState

/-- `join` or `intersect`, as the current operator says. -/
def combine (opNow : Token) (la lb : List Answer) : List Answer :=
  if opNow = ['|', '|'] then join la lb else intersect la lb

section Evaluator

variable (answers : ℕ → Request → List Answer) (st : SearchState)

/-- A value, where the source waits for one; `none` where it throws or the key is
undefined. -/
def searchValue (s : Token) : Option SearchState :=
  let request := if st.waitForValue = 2 then portRequest st.cachePos s
    else addressRequest st.cachePos s
  request.map fun request =>
    { st with
      leftList := combine st.opNow st.leftList (answers st.calls request)
      calls := st.calls + 1 }

/-- One turn of the loop of `searchExpression`. -/
def searchToken (s : Token) : Option SearchState :=
  if s = ['('] then
    some { st with
      ops := st.opNow :: st.ops
      opNow := ['|', '|']
      beforeLists := st.leftList :: st.beforeLists
      leftList := [] }
  else if s = srcipVar ∨ s = dstipVar then
    some { st with
      cachePos := if s = srcipVar then .srcip else .dstip
      waitForValue := 1 }
  else if s = srcportVar ∨ s = dstportVar then
    some { st with
      cachePos := if s = srcportVar then .srcport else .dstport
      waitForValue := 2 }
  else if s = ['=', '='] then some st
  else if s = ['&', '&'] ∨ s = ['|', '|'] then some { st with opNow := s }
  else if s = [')'] then
    match st.ops, st.beforeLists with
    | opNow :: ops, beforeList :: beforeLists =>
        some { st with
          ops
          opNow
          beforeLists
          leftList := combine opNow beforeList st.leftList }
    | _, _ => none
  else if st.waitForValue ≠ 0 then searchValue answers st s
  else some st

def searchExpression (expList : List Token) : Option (List Answer) :=
  (expList.foldlM (searchToken answers) .start).map (·.leftList)

end Evaluator

/-! ## Readings

A reading of an expression is its derivation from the left: operands are joined by
connectors, the leftmost ones first. -/

inductive Connector
  | and | or
deriving DecidableEq, Repr

namespace Connector

def token : Connector → Token
  | and => ['&', '&']
  | or => ['|', '|']

/-- Intersection or union. -/
def onSets : Connector → Set ℕ → Set ℕ → Set ℕ
  | and, left, right => left ∩ right
  | or, left, right => left ∪ right

end Connector

/-- An operand is an atom or stands in parentheses. -/
inductive Level
  | operand | expression
deriving DecidableEq, Repr

inductive Reading : Level → Type
  | atom (var value : Token) (hvar : isVar var = true) (hvalue : isValue value = true) :
      Reading .operand
  | group (inner : Reading .expression) : Reading .operand
  | single (first : Reading .operand) : Reading .expression
  | connect (left : Reading .expression) (con : Connector) (right : Reading .operand) :
      Reading .expression

/-- The lookup of an atom; `none` where its variable has no index or its value is no key. -/
def atomRequest (var value : Token) : Option Request :=
  if var = srcipVar then addressRequest .srcip value
  else if var = dstipVar then addressRequest .dstip value
  else if var = srcportVar then portRequest .srcport value
  else if var = dstportVar then portRequest .dstport value
  else none

/-- The pointers for the block at an index of a list of answers. -/
def pointersAt (list : List Answer) (i : ℕ) : List ℕ := (list[i]?.map Answer.pointers).getD []

def pointerSet (list : List Answer) (i : ℕ) : Set ℕ := { p | p ∈ pointersAt list i }

namespace Reading

def tokens {level : Level} : Reading level → List Token
  | atom var value _ _ => [var, ['=', '='], value]
  | group inner => ['('] :: inner.tokens ++ [[')']]
  | single first => first.tokens
  | connect left con right => left.tokens ++ con.token :: right.tokens

/-- The number of atoms. -/
def size {level : Level} : Reading level → ℕ
  | atom _ _ _ _ => 1
  | group inner => inner.size
  | single first => first.size
  | connect left _ right => left.size + right.size

/-- Every atom is looked up. -/
def Searchable {level : Level} : Reading level → Prop
  | atom var value _ _ => (atomRequest var value).isSome = true
  | group inner => inner.Searchable
  | single first => first.Searchable
  | connect left _ right => left.Searchable ∧ right.Searchable

section Answers

variable (answers : ℕ → Request → List Answer) (silent : ℕ → Bool)

/-- The pointers for the block at index `i`: `||` is union and `&&` intersection of
what the atoms, which are numbered from `calls` on, have been answered. -/
def eval (i : ℕ) {level : Level} : Reading level → ℕ → Option (Set ℕ)
  | atom var value _ _, calls =>
      (atomRequest var value).map fun request => pointerSet (answers calls request) i
  | group inner, calls => inner.eval i calls
  | single first, calls => first.eval i calls
  | connect left con right, calls =>
      (left.eval i calls).bind fun before =>
        (right.eval i (calls + left.size)).map fun after => con.onSets before after

/-- The list the evaluator has for it. -/
def list {level : Level} : Reading level → ℕ → List Answer
  | atom var value _ _, calls => ((atomRequest var value).map (answers calls)).getD []
  | group inner, calls => inner.list calls
  | single first, calls => first.list calls
  | connect left con right, calls =>
      combine con.token (left.list calls) (right.list (calls + left.size))

/-- All its atoms are answered by empty lists. -/
def Silent {level : Level} : Reading level → ℕ → Prop
  | atom _ _ _ _, calls => silent calls = true
  | group inner, calls => inner.Silent calls
  | single first, calls => first.Silent calls
  | connect left _ right, calls => left.Silent calls ∧ right.Silent (calls + left.size)

/-- Of no `&&` is one operand silent and the other one not. -/
def Balanced {level : Level} : Reading level → ℕ → Prop
  | atom _ _ _ _, _ => True
  | group inner, calls => inner.Balanced calls
  | single first, calls => first.Balanced calls
  | connect left con right, calls =>
      left.Balanced calls ∧ right.Balanced (calls + left.size) ∧
        (con = .and → (left.Silent silent calls ↔ right.Silent silent (calls + left.size)))

end Answers

end Reading

end Query

end TrafficDatabase
