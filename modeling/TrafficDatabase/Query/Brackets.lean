import TrafficDatabase.Query.Grammar
import TrafficDatabase.Library.Nesting

/-!
# The bracket stack of the grammar check

`grammarVerify` tests a closing bracket by `top != "(" && lastType != ..`, where `||` was
meant: a parenthesis may be closed by any bracket, and the kind of the others follows from
the type of the last token (`Stacked`).  It does not ask whether the stack is empty.

The order of the tokens alone (`typeAfter`) says how far the check gets.  In its brackets
it needs numbers only (`BracketsFit`): never more closing than opening ones, and in the
end as many braces and square brackets closed as opened.
-/

namespace TrafficDatabase

namespace Query

open Nesting

/-! ## Brackets -/

/-- A closing bracket closes the kind of its opening one. -/
def bracketRole (s : Token) : Role Token :=
  if s = ['('] ∨ s = ['{'] ∨ s = ['['] then .opens s
  else if s = [')'] then .closes ['(']
  else if s = ['}'] then .closes ['{']
  else if s = [']'] then .closes ['[']
  else .plain

def openings (expList : List Token) : ℕ :=
  expList.count ['('] + expList.count ['{'] + expList.count ['[']

def closings (expList : List Token) : ℕ :=
  expList.count [')'] + expList.count ['}'] + expList.count [']']

/-! ## The order of the tokens -/

def nextAfter (allowed : List LastType) (next lastType : LastType) : Option LastType :=
  if lastType ∈ allowed then some next else none

/-- The type of a token, where the last one may stand before it. -/
def typeAfter (lastType : LastType) (s : Token) : Option LastType :=
  if s = ['!'] then nextAfter [.empty, .con, .bracket] .con lastType
  else if s = ['('] then nextAfter [.empty, .con, .bracket] .bracket lastType
  else if s = ['{'] then nextAfter [.isIn] .brace lastType
  else if s = ['['] then nextAfter [.var] .squareBracket lastType
  -- the tests of the closing brackets, with all that is possible on the stack
  else if s = [')'] then
    nextAfter [.empty, .var, .op, .con, .exp, .bracket, .isIn] .exp lastType
  else if s = ['}'] then
    nextAfter [.empty, .var, .op, .con, .exp, .bracket, .isIn, .value] .exp lastType
  else if s = [']'] then
    nextAfter [.empty, .var, .op, .con, .exp, .bracket, .isIn, .slice] .var lastType
  else if [['=', '='], ['!', '='], ['>'], ['<'], ['>', '='], ['<', '='],
      ['c', 'o', 'n', 't', 'a', 'i', 'n', 's']].contains s then nextAfter [.var] .op lastType
  else if [['|', '|'], ['&', '&'], ['^', '^']].contains s then nextAfter [.var, .exp] .con lastType
  else if s = ['i', 'n'] then nextAfter [.var] .isIn lastType
  else if s = [','] then nextAfter [.value] .comma lastType
  else if isSlice s then nextAfter [.squareBracket] .slice lastType
  else if isVar s then nextAfter [.empty, .con, .bracket] .var lastType
  else if isValue s then
    if lastType = .op then some .exp else nextAfter [.brace, .comma] .value lastType
  else none

/-- Every token may stand after the one before it. -/
def Follows (lastType : LastType) : List Token → Bool
  | [] => true
  | s :: rest => (typeAfter lastType s).any fun next => Follows next rest

/-- In the tokens that may stand one after the other no bracket is closed that is not open,
and if all are closed, so are the braces and the square brackets. -/
def BracketsFit (expList : List Token) : Prop :=
  (∀ front, front <+: expList → Follows .empty front → closings front ≤ openings front) ∧
    (Follows .empty expList → closings expList = openings expList →
      expList.count ['}'] = expList.count ['{'] ∧ expList.count [']'] = expList.count ['['])

/-! ## The stack -/

/-- The bracket that is open around a token of a type, if it is no parenthesis. -/
def innermost : LastType → Option Token
  | .brace => some ['{']
  | .value => some ['{']
  | .comma => some ['{']
  | .squareBracket => some ['[']
  | .slice => some ['[']
  | _ => none

/-- At most one bracket is open that is no parenthesis, and it is the last one. -/
def Stacked (lastType : LastType) (bracketStack : List Token) : Prop :=
  ∃ n, bracketStack = (innermost lastType).toList ++ List.replicate n ['(']

/-- What the loop does at a token whose type is given. -/
def verdictOf (bracketStack : List Token) (s : Token) : Option LastType → Verdict
  | none => .reject
  | some next =>
      match bracketRole s with
      | .opens kind => .goOn next (kind :: bracketStack)
      | .closes _ =>
          match bracketStack with
          | [] => .undefined
          | _ :: rest => .goOn next rest
      | .plain => .goOn next bracketStack

section Tokens

variable {lastType next : LastType} {bracketStack : List Token} {s kind top : Token}

theorem bracketRole_plain (hopen : s ∉ [['('], ['{'], ['[']]) (hclose : s ∉ [[')'], ['}'], [']']]) :
    bracketRole s = .plain := by
  simp only [List.mem_cons, List.not_mem_nil, or_false, not_or] at hopen hclose
  simp [bracketRole, hopen, hclose]

theorem verdictOf_plain (h : bracketRole s = .plain) (allowed : List LastType) :
    verdictOf bracketStack s (nextAfter allowed next lastType) =
      if lastType ∈ allowed then .goOn next bracketStack else .reject := by
  unfold nextAfter verdictOf
  split_ifs <;> simp [h]

theorem verifyToken_eq (h : Stacked lastType bracketStack) :
    verifyToken lastType bracketStack s = verdictOf bracketStack s (typeAfter lastType s) := by
  by_cases hopen : s ∈ [['('], ['{'], ['[']]
  · simp only [List.mem_cons, List.not_mem_nil, or_false] at hopen
    rcases hopen with rfl | rfl | rfl
    all_goals
      cases lastType <;> simp [verifyToken, typeAfter, verdictOf, bracketRole, nextAfter]
  by_cases hclose : s ∈ [[')'], ['}'], [']']]
  · obtain ⟨n, rfl⟩ := h
    simp only [List.mem_cons, List.not_mem_nil, or_false] at hclose
    -- the test on the stack looks at its top, a parenthesis unless one is inside
    rcases hclose with rfl | rfl | rfl
    all_goals
      cases lastType <;> cases n <;>
        simp [verifyToken, typeAfter, verdictOf, bracketRole, nextAfter, closeBracket, innermost,
          List.replicate_succ]
  · have hplain := bracketRole_plain hopen hclose
    simp only [List.mem_cons, List.not_mem_nil, or_false, not_or] at hopen hclose
    unfold verifyToken typeAfter
    simp only [hopen, hclose, if_false, apply_ite (verdictOf bracketStack s),
      verdictOf_plain hplain, List.mem_cons, List.not_mem_nil, or_false, ite_not, ← not_or,
      ne_eq]
    simp [verdictOf, hplain]

theorem opens_cases (h : bracketRole s = .opens kind) :
    kind = s ∧ (s = ['('] ∨ s = ['{'] ∨ s = ['[']) := by
  unfold bracketRole at h
  split_ifs at h with hopen
  exact ⟨(Role.opens.inj h).symm, hopen⟩

theorem closes_cases (h : bracketRole s = .closes kind) :
    s = [')'] ∧ kind = ['('] ∨ s = ['}'] ∧ kind = ['{'] ∨ s = [']'] ∧ kind = ['['] := by
  unfold bracketRole at h
  split_ifs at h with hopen hround hbrace hsquare
  · exact .inl ⟨hround, (Role.closes.inj h).symm⟩
  · exact .inr (.inl ⟨hbrace, (Role.closes.inj h).symm⟩)
  · exact .inr (.inr ⟨hsquare, (Role.closes.inj h).symm⟩)

theorem plain_cases (h : bracketRole s = .plain) :
    s ∉ [['('], ['{'], ['[']] ∧ s ∉ [[')'], ['}'], [']']] := by
  constructor
  · intro hopen
    simp only [List.mem_cons, List.not_mem_nil, or_false] at hopen
    rcases hopen with rfl | rfl | rfl <;> simp [bracketRole] at h
  · intro hclose
    simp only [List.mem_cons, List.not_mem_nil, or_false] at hclose
    rcases hclose with rfl | rfl | rfl <;> simp [bracketRole] at h

theorem mem_of_nextAfter {allowed : List LastType} {target : LastType}
    (h : nextAfter allowed target lastType = some next) : lastType ∈ allowed ∧ target = next := by
  unfold nextAfter at h
  split_ifs at h with hmem
  exact ⟨hmem, Option.some.inj h⟩

theorem innermost_of_nextAfter {allowed : List LastType} {target : LastType}
    (h : nextAfter allowed target lastType = some next)
    (hallowed : ∀ type ∈ allowed, innermost type = innermost target) :
    innermost next = innermost lastType := by
  obtain ⟨hmem, rfl⟩ := mem_of_nextAfter h
  exact (hallowed lastType hmem).symm

/-- An opening bracket stands inside no braces and no square brackets. -/
theorem Stacked.opens (h : Stacked lastType bracketStack)
    (htype : typeAfter lastType s = some next) (hrole : bracketRole s = .opens kind) :
    Stacked next (kind :: bracketStack) := by
  obtain ⟨n, rfl⟩ := h
  obtain ⟨rfl, rfl | rfl | rfl⟩ := opens_cases hrole
  · obtain ⟨hmem, rfl⟩ := mem_of_nextAfter htype
    simp only [List.mem_cons, List.not_mem_nil, or_false] at hmem
    rcases hmem with rfl | rfl | rfl <;> exact ⟨n + 1, rfl⟩
  · obtain ⟨hmem, rfl⟩ := mem_of_nextAfter htype
    obtain rfl := List.mem_singleton.mp hmem
    exact ⟨n, rfl⟩
  · obtain ⟨hmem, rfl⟩ := mem_of_nextAfter htype
    obtain rfl := List.mem_singleton.mp hmem
    exact ⟨n, rfl⟩

/-- A closing bracket meets a parenthesis or its own kind. -/
theorem Stacked.closes (h : Stacked lastType (top :: bracketStack))
    (htype : typeAfter lastType s = some next) (hrole : bracketRole s = .closes kind) :
    Stacked next bracketStack ∧ (top = ['('] ∨ top = kind ∧ kind ≠ ['(']) := by
  obtain ⟨n, hstack⟩ := h
  have hsame : innermost next = none ∧ (innermost lastType = none ∨
      innermost lastType = some kind ∧ kind ≠ ['(']) := by
    rcases closes_cases hrole with ⟨rfl, rfl⟩ | ⟨rfl, rfl⟩ | ⟨rfl, rfl⟩
    all_goals
      obtain ⟨hmem, rfl⟩ := mem_of_nextAfter htype
      refine ⟨rfl, ?_⟩
      cases lastType <;> simp [innermost] at hmem ⊢
  obtain ⟨hnext, hlast | ⟨hlast, hkind⟩⟩ := hsame
  · cases n with
    | zero => simp [hlast] at hstack
    | succ n =>
        simp only [hlast, Option.toList_none, List.nil_append, List.replicate_succ,
          List.cons.injEq] at hstack
        exact ⟨⟨n, by simp [hnext, hstack.2]⟩, .inl hstack.1⟩
  · simp only [hlast, Option.toList_some, List.singleton_append, List.cons.injEq] at hstack
    exact ⟨⟨n, by simp [hnext, hstack.2]⟩, .inr ⟨hstack.1, hkind⟩⟩

theorem Stacked.plain (h : Stacked lastType bracketStack)
    (htype : typeAfter lastType s = some next) (hrole : bracketRole s = .plain) :
    Stacked next bracketStack := by
  obtain ⟨hopen, hclose⟩ := plain_cases hrole
  simp only [List.mem_cons, List.not_mem_nil, or_false, not_or] at hopen hclose
  have hsame : innermost next = innermost lastType := by
    unfold typeAfter at htype
    simp only [hopen, hclose, if_false] at htype
    split_ifs at htype with _ _ _ _ _ _ _ _ hop
    all_goals try exact innermost_of_nextAfter htype (by decide)
    rw [hop, ← Option.some.inj htype]
    rfl
  rwa [Stacked, hsame]

/-! ## The numbers of brackets -/

theorem counts_opens (h : bracketRole s = .opens kind) (rest : List Token) :
    openings (s :: rest) = openings rest + 1 ∧ closings (s :: rest) = closings rest := by
  obtain ⟨-, rfl | rfl | rfl⟩ := opens_cases h <;> constructor <;>
    simp [openings, closings] <;> omega

theorem counts_closes (h : bracketRole s = .closes kind) (rest : List Token) :
    openings (s :: rest) = openings rest ∧ closings (s :: rest) = closings rest + 1 := by
  rcases closes_cases h with ⟨rfl, -⟩ | ⟨rfl, -⟩ | ⟨rfl, -⟩ <;> constructor <;>
    simp [openings, closings] <;> omega

theorem count_plain (h : bracketRole s = .plain) {bracket : Token}
    (hbracket : bracket ∈ [['('], ['{'], ['[']] ∨ bracket ∈ [[')'], ['}'], [']']])
    (rest : List Token) : (s :: rest).count bracket = rest.count bracket := by
  obtain ⟨hopen, hclose⟩ := plain_cases h
  apply List.count_cons_of_ne
  rintro rfl
  exact hbracket.elim hopen hclose

theorem counts_plain (h : bracketRole s = .plain) (rest : List Token) :
    openings (s :: rest) = openings rest ∧ closings (s :: rest) = closings rest := by
  simp [openings, closings, count_plain h]

/-! ## The loop -/

theorem follows_cons (htype : typeAfter lastType s = some next) (rest : List Token) :
    Follows lastType (s :: rest) = Follows next rest := by
  rw [Follows, htype]
  rfl

theorem loop_cons (h : Stacked lastType bracketStack) (rest : List Token) :
    grammarVerifyLoop lastType bracketStack (s :: rest) =
      match verdictOf bracketStack s (typeAfter lastType s) with
      | .goOn next stack => grammarVerifyLoop next stack rest
      | .reject => some false
      | .undefined => none := by
  cases hverdict : verdictOf bracketStack s (typeAfter lastType s) <;>
    simp only [grammarVerifyLoop, verifyToken_eq h, hverdict]

theorem loop_refused (h : Stacked lastType bracketStack) (htype : typeAfter lastType s = none)
    (rest : List Token) : grammarVerifyLoop lastType bracketStack (s :: rest) = some false := by
  rw [loop_cons h, htype]
  rfl

theorem loop_opens (h : Stacked lastType bracketStack) (htype : typeAfter lastType s = some next)
    (hrole : bracketRole s = .opens kind) (rest : List Token) :
    grammarVerifyLoop lastType bracketStack (s :: rest) =
      grammarVerifyLoop next (kind :: bracketStack) rest := by
  rw [loop_cons h, htype]
  simp [verdictOf, hrole]

theorem loop_closes (h : Stacked lastType bracketStack)
    (htype : typeAfter lastType s = some next) (hrole : bracketRole s = .closes kind)
    (rest : List Token) :
    grammarVerifyLoop lastType bracketStack (s :: rest) =
      match bracketStack with
      | [] => none
      | _ :: outer => grammarVerifyLoop next outer rest := by
  rw [loop_cons h, htype]
  cases bracketStack <;> simp [verdictOf, hrole]

theorem loop_plain (h : Stacked lastType bracketStack) (htype : typeAfter lastType s = some next)
    (hrole : bracketRole s = .plain) (rest : List Token) :
    grammarVerifyLoop lastType bracketStack (s :: rest) =
      grammarVerifyLoop next bracketStack rest := by
  rw [loop_cons h, htype]
  simp [verdictOf, hrole]

end Tokens

/-- The tokens close no more than is open, as far as they may stand one after the other. -/
def StaysOpen (lastType : LastType) (opened : ℕ) (expList : List Token) : Prop :=
  ∀ front, front <+: expList → Follows lastType front → closings front ≤ openings front + opened

theorem staysOpen_cons {lastType next : LastType} {s : Token} {rest : List Token} {opened : ℕ}
    (htype : typeAfter lastType s = some next) :
    StaysOpen lastType opened (s :: rest) ↔ ∀ front, front <+: rest → Follows next front →
      closings (s :: front) ≤ openings (s :: front) + opened := by
  constructor
  · intro h front hfront hfollows
    apply h (s :: front) (List.cons_prefix_cons.mpr ⟨rfl, hfront⟩)
    rwa [follows_cons htype]
  · intro h front hfront hfollows
    cases front with
    | nil => exact Nat.zero_le _
    | cons first front =>
        obtain ⟨rfl, hrest⟩ := List.cons_prefix_cons.mp hfront
        rw [follows_cons htype] at hfollows
        exact h front hrest hfollows

/-- The stack is asked only if a prefix closes more than is open. -/
theorem loop_ne_none_iff {lastType : LastType} {bracketStack : List Token}
    (h : Stacked lastType bracketStack) (expList : List Token) :
    grammarVerifyLoop lastType bracketStack expList ≠ none ↔
      StaysOpen lastType bracketStack.length expList := by
  induction expList generalizing lastType bracketStack with
  | nil =>
      refine iff_of_true (by simp [grammarVerifyLoop]) fun front hfront _ => ?_
      rw [List.prefix_nil.mp hfront]
      exact Nat.zero_le _
  | cons s rest ih =>
      cases htype : typeAfter lastType s with
      | none =>
          refine iff_of_true (by simp [loop_refused h htype]) fun front hfront hfollows => ?_
          cases front with
          | nil => exact Nat.zero_le _
          | cons first front =>
              obtain ⟨rfl, -⟩ := List.cons_prefix_cons.mp hfront
              simp [Follows, htype] at hfollows
      | some next =>
          rw [staysOpen_cons htype]
          cases hrole : bracketRole s with
          | opens kind =>
              rw [loop_opens h htype hrole, ih (h.opens htype hrole)]
              simp only [counts_opens hrole, StaysOpen, List.length_cons]
              exact forall₃_congr fun front _ _ => by omega
          | plain =>
              rw [loop_plain h htype hrole, ih (h.plain htype hrole)]
              simp only [counts_plain hrole, StaysOpen]
          | closes kind =>
              rw [loop_closes h htype hrole]
              cases bracketStack with
              | nil =>
                  refine iff_of_false (fun hne => hne rfl) fun hopen => ?_
                  have hempty := hopen [] List.nil_prefix rfl
                  rw [(counts_closes hrole []).1, (counts_closes hrole []).2] at hempty
                  simp [openings, closings] at hempty
              | cons top outer =>
                  simp only
                  rw [ih (h.closes htype hrole).1]
                  simp only [counts_closes hrole, StaysOpen, List.length_cons]
                  exact forall₃_congr fun front _ _ => by omega

theorem loop_eq_true_iff {lastType : LastType} {bracketStack : List Token}
    (h : Stacked lastType bracketStack) (expList : List Token)
    (hne : grammarVerifyLoop lastType bracketStack expList ≠ none) :
    grammarVerifyLoop lastType bracketStack expList = some true ↔
      Follows lastType expList ∧
        closings expList = openings expList + bracketStack.length := by
  induction expList generalizing lastType bracketStack with
  | nil =>
      cases bracketStack <;> simp [grammarVerifyLoop, Follows, closings, openings]
  | cons s rest ih =>
      cases htype : typeAfter lastType s with
      | none => simp [loop_refused h htype, Follows, htype]
      | some next =>
          rw [follows_cons htype]
          cases hrole : bracketRole s with
          | opens kind =>
              rw [loop_opens h htype hrole] at hne ⊢
              rw [ih (h.opens htype hrole) hne, (counts_opens hrole rest).1,
                (counts_opens hrole rest).2, List.length_cons, add_right_comm, add_assoc]
          | plain =>
              rw [loop_plain h htype hrole] at hne ⊢
              rw [ih (h.plain htype hrole) hne, (counts_plain hrole rest).1,
                (counts_plain hrole rest).2]
          | closes kind =>
              rw [loop_closes h htype hrole] at hne ⊢
              cases bracketStack with
              | nil => exact absurd rfl hne
              | cons top outer =>
                  simp only at hne ⊢
                  rw [ih (h.closes htype hrole).1 hne, (counts_closes hrole rest).1,
                    (counts_closes hrole rest).2, List.length_cons, ← add_assoc,
                    Nat.add_right_cancel_iff]

/-- Accepted tokens close the braces and the square brackets by their own kind, and perhaps
parentheses by these; they are nested if this does not happen. -/
theorem closes_of_loop {lastType : LastType} {bracketStack : List Token}
    (h : Stacked lastType bracketStack) (expList : List Token)
    (hloop : grammarVerifyLoop lastType bracketStack expList = some true) :
    expList.count ['{'] + bracketStack.count ['{'] ≤ expList.count ['}'] ∧
      expList.count ['['] + bracketStack.count ['['] ≤ expList.count [']'] ∧
      (Closes bracketRole bracketStack expList ↔
        expList.count ['}'] = expList.count ['{'] + bracketStack.count ['{'] ∧
        expList.count [']'] = expList.count ['['] + bracketStack.count ['[']) := by
  induction expList generalizing lastType bracketStack with
  | nil =>
      obtain rfl : bracketStack = [] := by simpa [grammarVerifyLoop] using hloop
      simp [Closes]
  | cons s rest ih =>
      cases htype : typeAfter lastType s with
      | none => simp [loop_refused h htype] at hloop
      | some next =>
          cases hrole : bracketRole s with
          | opens kind =>
              rw [loop_opens h htype hrole] at hloop
              obtain ⟨hbrace, hsquare, hcloses⟩ := ih (h.opens htype hrole) hloop
              rw [closes_opens hrole, hcloses]
              obtain ⟨rfl, rfl | rfl | rfl⟩ := opens_cases hrole <;>
                simp at hbrace hsquare ⊢ <;> omega
          | plain =>
              rw [loop_plain h htype hrole] at hloop
              rw [closes_plain hrole]
              simp only [count_plain hrole, List.mem_cons, true_or, or_true]
              exact ih (h.plain htype hrole) hloop
          | closes kind =>
              rw [loop_closes h htype hrole] at hloop
              cases bracketStack with
              | nil => cases hloop
              | cons top outer =>
                  obtain ⟨hstacked, htop⟩ := h.closes htype hrole
                  obtain ⟨hbrace, hsquare, hcloses⟩ := ih hstacked hloop
                  have hinner : Closes bracketRole (top :: outer) (s :: rest) ↔
                      top = kind ∧ Closes bracketRole outer rest := by
                    rw [closes_closes hrole]
                    simp
                  rw [hinner, hcloses]
                  rcases closes_cases hrole with ⟨rfl, rfl⟩ | ⟨rfl, rfl⟩ | ⟨rfl, rfl⟩ <;>
                    rcases htop with rfl | ⟨rfl, hkind⟩ <;> simp at hbrace hsquare ⊢ <;> omega

theorem grammarVerify_accepts {expList : List Token} (h : grammarVerify expList = some true) :
    Nested bracketRole expList ↔
      expList.count ['}'] = expList.count ['{'] ∧ expList.count [']'] = expList.count ['['] := by
  rw [nested_iff]
  exact (closes_of_loop ⟨0, rfl⟩ expList h).2.2

/-- **The bracket stack**: the check asks an empty stack for its top, or accepts brackets
that do not match, unless the numbers of the brackets fit. -/
theorem brackets_iff (originExpression : List Char) :
    (grammarVerify (splitExpression originExpression) ≠ none ∧
        (grammarVerify (splitExpression originExpression) = some true →
          Nested bracketRole (splitExpression originExpression))) ↔
      BracketsFit (splitExpression originExpression) := by
  generalize splitExpression originExpression = expList
  have hstart : Stacked .empty [] := ⟨0, rfl⟩
  have hopen := loop_ne_none_iff hstart expList
  unfold BracketsFit
  constructor
  · rintro ⟨hne, hnested⟩
    refine ⟨hopen.mp hne, fun hfollows hcount => ?_⟩
    have htrue := (loop_eq_true_iff hstart expList hne).mpr ⟨hfollows, hcount⟩
    exact (grammarVerify_accepts htrue).mp (hnested htrue)
  · rintro ⟨hfit, hcounts⟩
    have hne := hopen.mpr hfit
    refine ⟨hne, fun htrue => (grammarVerify_accepts htrue).mpr ?_⟩
    obtain ⟨hfollows, hcount⟩ := (loop_eq_true_iff hstart expList hne).mp htrue
    exact hcounts hfollows hcount

/-- A closing parenthesis alone asks the empty stack; a parenthesis may be closed by a
brace. -/
theorem brackets_mismatched :
    grammarVerify (splitExpression ")".toList) = none ∧
      grammarVerify (splitExpression "(\x7d".toList) = some true ∧
      ¬ Nested bracketRole (splitExpression "(\x7d".toList) := by
  have haccepted : grammarVerify (splitExpression "(\x7d".toList) = some true := by decide +kernel
  refine ⟨by decide +kernel, haccepted, fun hnested => ?_⟩
  have hcounts := (grammarVerify_accepts haccepted).mp hnested
  revert hcounts
  decide +kernel

end Query

end TrafficDatabase
