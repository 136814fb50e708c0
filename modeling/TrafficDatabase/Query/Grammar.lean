import TrafficDatabase.Query.Tokens

/-!
# What the query front end accepts

`inputExpression` takes an expression whose tokens pass two checks.
`grammarVerify` follows the type of the last token and a stack of open brackets;
`grammarVerifySimply` knows only variables, `==`, values, parentheses and the two
connectors.  Neither looks at the state it ends in.

Both together come to one automaton with four positions (`follow`), but for two
things: in the place of a variable the tokens `in` and `contains` are refused, and
in the place of a value so are variables and slices.  And the automaton takes more
than the grammar `E ::= var == value | E && E | E || E | ( E )` derives: a list may
end anywhere, and a closing parenthesis may stand where an operand is expected.
`accepts_iff_derivable_iff` says for which lists these four make a difference.
-/

namespace TrafficDatabase

namespace Query

/-! ## The two checks -/

inductive LastType
  | empty | var | op | con | exp | bracket | squareBracket | slice | isIn | brace | value | comma
deriving DecidableEq, Repr

/-- What `grammarVerify` does at a token; `undefined` is `top()` of an empty stack. -/
inductive Verdict
  | goOn (lastType : LastType) (bracketStack : List Token)
  | reject
  | undefined
deriving DecidableEq, Repr

/-- A closing bracket of any kind: the test on the stack is the same for all three. -/
def closeBracket (bracketStack : List Token) (fits : Bool) (lastType : LastType) : Verdict :=
  match bracketStack with
  | [] => .undefined
  | top :: rest => if top ≠ ['('] && !fits then .reject else .goOn lastType rest

/-- One turn of the loop of `grammarVerify`. -/
def verifyToken (lastType : LastType) (bracketStack : List Token) (s : Token) : Verdict :=
  let beforeExp := lastType = .empty ∨ lastType = .con ∨ lastType = .bracket
  if s = ['!'] then
    if ¬ beforeExp then .reject else .goOn .con bracketStack
  else if s = ['('] then
    if ¬ beforeExp then .reject else .goOn .bracket (s :: bracketStack)
  else if s = ['{'] then
    if lastType ≠ .isIn then .reject else .goOn .brace (s :: bracketStack)
  else if s = ['['] then
    if lastType ≠ .var then .reject else .goOn .squareBracket (s :: bracketStack)
  else if s = [')'] then
    closeBracket bracketStack (lastType = .exp || lastType = .bracket) .exp
  else if s = ['}'] then closeBracket bracketStack (lastType = .value) .exp
  else if s = [']'] then closeBracket bracketStack (lastType = .slice) .var
  else if s ∈ [['=', '='], ['!', '='], ['>'], ['<'], ['>', '='], ['<', '='],
      ['c', 'o', 'n', 't', 'a', 'i', 'n', 's']] then
    if lastType ≠ .var then .reject else .goOn .op bracketStack
  else if s ∈ [['|', '|'], ['&', '&'], ['^', '^']] then
    if lastType ≠ .var ∧ lastType ≠ .exp then .reject else .goOn .con bracketStack
  else if s = ['i', 'n'] then
    if lastType ≠ .var then .reject else .goOn .isIn bracketStack
  else if s = [','] then
    if lastType ≠ .value then .reject else .goOn .comma bracketStack
  else if isSlice s then
    if lastType ≠ .squareBracket then .reject else .goOn .slice bracketStack
  else if isVar s then
    if ¬ beforeExp then .reject else .goOn .var bracketStack
  else if isValue s then
    if lastType = .op then .goOn .exp bracketStack
    else if lastType = .brace ∨ lastType = .comma then .goOn .value bracketStack
    else .reject
  else .reject

/-- `none` where `top()` of an empty stack is undefined. -/
def grammarVerifyLoop (lastType : LastType) (bracketStack : List Token) :
    List Token → Option Bool
  | [] => some bracketStack.isEmpty
  | s :: rest =>
      match verifyToken lastType bracketStack s with
      | .goOn next stack => grammarVerifyLoop next stack rest
      | .reject => some false
      | .undefined => none

def grammarVerify (expList : List Token) : Option Bool := grammarVerifyLoop .empty [] expList

/-- One turn of the loop of `grammarVerifySimply`; `none` where it returns false. -/
def simplyToken (expStatus : ℕ) (s : Token) : Option ℕ :=
  if isVar s then
    if expStatus ≠ 0 then none else some 1
  else if s = ['=', '='] then
    if expStatus ≠ 1 then none else some 2
  else if isValue s then
    if expStatus ≠ 2 then none else some 0
  else if s ∈ [['('], [')'], ['|', '|'], ['&', '&']] then
    if expStatus ≠ 0 then none else some expStatus
  else none

def grammarVerifySimplyLoop (expStatus : ℕ) : List Token → Bool
  | [] => true
  | s :: rest =>
      match simplyToken expStatus s with
      | none => false
      | some next => grammarVerifySimplyLoop next rest

def grammarVerifySimply (expList : List Token) : Bool := grammarVerifySimplyLoop 0 expList

def inputExpression (originExpression : List Char) : Option Bool :=
  let expList := splitExpression originExpression
  if expList = [] then some false
  else (grammarVerify expList).map fun verified => verified && grammarVerifySimply expList

/-! ## The grammar -/

/-- `E ::= var == value | E && E | E || E | ( E )`. -/
inductive Derivable : List Token → Prop
  | atom {var value : Token} : isVar var = true → isValue value = true →
      Derivable [var, ['=', '='], value]
  | connect {left right : List Token} {con : Token} : Derivable left →
      con = ['&', '&'] ∨ con = ['|', '|'] → Derivable right → Derivable (left ++ con :: right)
  | group {inner : List Token} : Derivable inner → Derivable (['('] :: inner ++ [[')']])

/-! ## The automaton -/

/-- What a list of tokens goes on with: an operand, or what follows a variable,
`==`, or a complete operand. -/
inductive Position
  | operand | equals | value | connector
deriving DecidableEq, Repr

/-- The position after a token, and the number of open parentheses. -/
def follow (position : Position) (depth : ℕ) (s : Token) : Option (Position × ℕ) :=
  match position with
  | .operand =>
      if s = ['('] then some (.operand, depth + 1)
      else if s = [')'] then if depth = 0 then none else some (.connector, depth - 1)
      else if isVar s then some (.equals, depth)
      else none
  | .equals => if s = ['=', '='] then some (.value, depth) else none
  | .value => if isValue s then some (.connector, depth) else none
  | .connector =>
      if s = ['&', '&'] ∨ s = ['|', '|'] then some (.operand, depth)
      else if s = [')'] then if depth = 0 then none else some (.connector, depth - 1)
      else none

def scan (position : Position) (depth : ℕ) : List Token → Option (Position × ℕ)
  | [] => some (position, depth)
  | s :: rest => (follow position depth s).bind fun next => scan next.1 next.2 rest

/-- A token of the scan passes a test of its position and itself. -/
def Meets (test : Position → Token → Bool) (position : Position) (depth : ℕ) : List Token → Bool
  | [] => false
  | s :: rest => test position s ||
      (follow position depth s).any fun next => Meets test next.1 next.2 rest

/-- A variable named like an operator, or a value that is a variable or a slice too. -/
def isOdd (position : Position) (s : Token) : Bool :=
  match position with
  | .operand => s = ['i', 'n'] || s = ['c', 'o', 'n', 't', 'a', 'i', 'n', 's']
  | .value => isVar s || isSlice s
  | _ => false

/-- A closing parenthesis right after an opening one or a connector. -/
def closesEarly (position : Position) (s : Token) : Bool := position = .operand && s = [')']

/-- Every token may follow the one before it, and no parenthesis is left open. -/
def Loose (expList : List Token) : Prop :=
  expList ≠ [] ∧ ∃ position, scan .operand 0 expList = some (position, 0)

/-- Some variable or value is refused. -/
def Odd (expList : List Token) : Prop := Meets isOdd .operand 0 expList = true

/-- The list ends before an operand is complete, or closes a parenthesis there. -/
def Dangling (expList : List Token) : Prop :=
  scan .operand 0 expList ≠ some (.connector, 0) ∨ Meets closesEarly .operand 0 expList = true

/-! ## The checks at a token -/

theorem not_mem_fixedTokens_of_isVar {s : Token} (h : isVar s = true) : s ∉ fixedTokens :=
  fun hmem => Bool.false_ne_true ((isVar_fixed s hmem).symm.trans h)

theorem not_mem_fixedTokens_of_isValue {s : Token} (h : isValue s = true) : s ∉ fixedTokens :=
  fun hmem => Bool.false_ne_true ((isValue_fixed s hmem).symm.trans h)

theorem isValue_in : isValue ['i', 'n'] = false := by decide +kernel

theorem isValue_contains : isValue ['c', 'o', 'n', 't', 'a', 'i', 'n', 's'] = false := by
  decide +kernel

section Tokens

variable {lastType : LastType} {bracketStack : List Token} {s : Token} {depth expStatus : ℕ}

/-- A variable goes on where an expression may begin. -/
theorem verifyToken_of_isVar (h : isVar s = true) (hodd : isOdd .operand s = false) :
    verifyToken lastType bracketStack s =
      if lastType = .empty ∨ lastType = .con ∨ lastType = .bracket then .goOn .var bracketStack
      else .reject := by
  have hfixed := not_mem_fixedTokens_of_isVar h
  simp only [fixedTokens, List.mem_cons, List.not_mem_nil, or_false, not_or] at hfixed
  simp only [isOdd, Bool.or_eq_false_iff, decide_eq_false_iff_not] at hodd
  simp [verifyToken, hfixed, hodd, isSlice_of_isVar h, h]
  simp only [← not_or, ite_not]

/-- A token named like an operator goes on after a variable only. -/
theorem verifyToken_of_isOdd (hodd : isOdd .operand s = true) (hne : lastType ≠ .var) :
    verifyToken lastType bracketStack s = .reject := by
  simp only [isOdd, Bool.or_eq_true, decide_eq_true_eq] at hodd
  rcases hodd with rfl | rfl
  · simp [verifyToken, hne]
  · simp [verifyToken, hne]

/-- A value that is no slice completes an expression after an operator. -/
theorem verifyToken_of_isValue (h : isValue s = true) (hvar : isVar s = false) :
    verifyToken .op bracketStack s = if isSlice s then .reject else .goOn .exp bracketStack := by
  have hfixed := not_mem_fixedTokens_of_isValue h
  simp only [fixedTokens, List.mem_cons, List.not_mem_nil, or_false, not_or] at hfixed
  have hin : s ≠ ['i', 'n'] := fun heq => by simp [heq, isValue_in] at h
  have hcontains : s ≠ ['c', 'o', 'n', 't', 'a', 'i', 'n', 's'] :=
    fun heq => by simp [heq, isValue_contains] at h
  simp [verifyToken, hfixed, hin, hcontains, hvar, h]

theorem simplyToken_of_isVar (h : isVar s = true) :
    simplyToken expStatus s = if expStatus = 0 then some 1 else none := by
  simp [simplyToken, h, ite_not]

theorem simplyToken_of_isValue (h : isValue s = true) (hvar : isVar s = false) :
    simplyToken expStatus s = if expStatus = 2 then some 0 else none := by
  have hne : s ≠ ['=', '='] := fun heq =>
    not_mem_fixedTokens_of_isValue h (by simp [heq, fixedTokens])
  simp [simplyToken, h, hvar, hne, ite_not]

/-- Other tokens than variables, values, `==`, parentheses and connectors are refused. -/
theorem simplyToken_eq_none (hvar : isVar s = false) (hvalue : isValue s = false)
    (hequals : s ≠ ['=', '=']) (hbracket : s ∉ [['('], [')'], ['|', '|'], ['&', '&']]) :
    simplyToken expStatus s = none := by
  simp only [simplyToken, hvar, hvalue, if_neg hequals, if_neg hbracket, Bool.false_eq_true,
    if_false]

/-- Where an operand or a connector is due, `==` and values are refused as well. -/
theorem simplyToken_zero_eq_none (hvar : isVar s = false)
    (hbracket : s ∉ [['('], [')'], ['|', '|'], ['&', '&']]) : simplyToken 0 s = none := by
  by_cases hequals : s = ['=', '=']
  · subst hequals
    simp [simplyToken, hvar]
  cases hvalue : isValue s with
  | true => rw [simplyToken_of_isValue hvalue hvar, if_neg (by decide)]
  | false => exact simplyToken_eq_none hvar hvalue hequals hbracket

/-- A closing parenthesis, where only parentheses are open. -/
theorem verifyToken_close :
    verifyToken lastType (List.replicate depth ['(']) [')'] =
      if depth = 0 then .undefined else .goOn .exp (List.replicate (depth - 1) ['(']) := by
  cases depth with
  | zero => simp [verifyToken, closeBracket]
  | succ depth => simp [verifyToken, closeBracket, List.replicate_succ]

theorem simplyToken_fixed (hmem : s ∈ [['('], [')'], ['|', '|'], ['&', '&']]) :
    simplyToken 0 s = some 0 := by
  have hfixed : s ∈ fixedTokens := by
    revert hmem
    revert s
    decide
  have hne : s ≠ ['=', '='] := by
    rintro rfl
    revert hmem
    decide
  simp only [simplyToken, isVar_fixed s hfixed, isValue_fixed s hfixed, if_neg hne, if_pos hmem,
    Bool.false_eq_true, if_false, ne_eq, not_true_eq_false]

end Tokens

/-! ## The checks follow the automaton -/

/-- Both checks at a token; `none` where one of them ends. -/
def bothChecks (lastType : LastType) (bracketStack : List Token) (expStatus : ℕ) (s : Token) :
    Option (LastType × List Token × ℕ) :=
  match verifyToken lastType bracketStack s, simplyToken expStatus s with
  | .goOn next rest, some status => some (next, rest, status)
  | _, _ => none

/-- What the two checks hold at a position. -/
inductive Agrees : Position → LastType → ℕ → Prop
  | operand {lastType : LastType} :
      lastType = .empty ∨ lastType = .con ∨ lastType = .bracket → Agrees .operand lastType 0
  | equals : Agrees .equals .var 1
  | value : Agrees .value .op 2
  | connector : Agrees .connector .exp 0

/-- The checks end at a token that may not follow or is odd, and go on as the
automaton does at any other. -/
def GoesAlong (position : Position) (depth : ℕ) (s : Token)
    (checked : Option (LastType × List Token × ℕ)) : Prop :=
  match checked with
  | none => follow position depth s = none ∨ isOdd position s = true
  | some (lastType, bracketStack, expStatus) => isOdd position s = false ∧
      ∃ next nextDepth, follow position depth s = some (next, nextDepth) ∧
        bracketStack = List.replicate nextDepth ['('] ∧ Agrees next lastType expStatus

section Steps

variable {lastType : LastType} {s : Token} {depth : ℕ}

theorem bothChecks_eq_none_of_simply {bracketStack : List Token} {expStatus : ℕ}
    (h : simplyToken expStatus s = none) : bothChecks lastType bracketStack expStatus s = none := by
  unfold bothChecks
  rw [h]
  cases verifyToken lastType bracketStack s <;> rfl

theorem bothChecks_eq_none_of_reject {bracketStack : List Token} {expStatus : ℕ}
    (h : verifyToken lastType bracketStack s = .reject) :
    bothChecks lastType bracketStack expStatus s = none := by
  unfold bothChecks
  rw [h]

/-- A closing parenthesis, in the two positions it is taken at. -/
theorem goesAlong_close {position : Position} (hposition : position = .operand ∨
    position = .connector) :
    GoesAlong position depth [')']
      (bothChecks lastType (List.replicate depth ['(']) 0 [')']) := by
  have hfollow : follow position depth [')'] =
      if depth = 0 then none else some (.connector, depth - 1) := by
    rcases hposition with rfl | rfl <;> simp [follow]
  have hodd : isOdd position [')'] = false := by
    rcases hposition with rfl | rfl <;> simp [isOdd]
  unfold bothChecks
  rw [verifyToken_close, simplyToken_fixed (by simp)]
  cases depth with
  | zero => exact .inl hfollow
  | succ depth => exact ⟨hodd, _, _, hfollow, rfl, .connector⟩

theorem goesAlong_operand
    (h : lastType = .empty ∨ lastType = .con ∨ lastType = .bracket) :
    GoesAlong .operand depth s (bothChecks lastType (List.replicate depth ['(']) 0 s) := by
  by_cases hopen : s = ['(']
  · subst hopen
    have hverify : verifyToken lastType (List.replicate depth ['(']) ['('] =
        .goOn .bracket (['('] :: List.replicate depth ['(']) := by
      simp [verifyToken, h]
    unfold bothChecks
    rw [hverify, simplyToken_fixed (by simp)]
    exact ⟨by simp [isOdd], .operand, depth + 1, by simp [follow], rfl, .operand (.inr (.inr rfl))⟩
  by_cases hclose : s = [')']
  · subst hclose
    exact goesAlong_close (.inl rfl)
  by_cases hvar : isVar s = true
  · cases hodd : isOdd .operand s with
    | true =>
        have hne : lastType ≠ .var := by rcases h with rfl | rfl | rfl <;> simp
        rw [bothChecks_eq_none_of_reject (verifyToken_of_isOdd hodd hne)]
        exact .inr hodd
    | false =>
        unfold bothChecks
        rw [verifyToken_of_isVar hvar hodd, simplyToken_of_isVar hvar, if_pos h, if_pos rfl]
        exact ⟨hodd, .equals, depth, by simp [follow, hopen, hclose, hvar], rfl, .equals⟩
  · rw [Bool.not_eq_true] at hvar
    have hfollow : follow .operand depth s = none := by simp [follow, hopen, hclose, hvar]
    by_cases hcon : s = ['|', '|'] ∨ s = ['&', '&']
    · have hverify : verifyToken lastType (List.replicate depth ['(']) s = .reject := by
        rcases hcon with rfl | rfl <;> rcases h with rfl | rfl | rfl <;> simp [verifyToken]
      rw [bothChecks_eq_none_of_reject hverify]
      exact .inl hfollow
    · have hsimply : simplyToken 0 s = none := by
        apply simplyToken_zero_eq_none hvar
        simp only [List.mem_cons, List.not_mem_nil, or_false, not_or]
        exact ⟨hopen, hclose, not_or.mp hcon⟩
      rw [bothChecks_eq_none_of_simply hsimply]
      exact .inl hfollow

theorem goesAlong_equals :
    GoesAlong .equals depth s (bothChecks .var (List.replicate depth ['(']) 1 s) := by
  by_cases hequals : s = ['=', '=']
  · subst hequals
    have hsimply : simplyToken 1 ['=', '='] = some 2 := by
      simp [simplyToken, isVar_fixed ['=', '='] (by simp [fixedTokens])]
    have hverify : verifyToken .var (List.replicate depth ['(']) ['=', '='] =
        .goOn .op (List.replicate depth ['(']) := by
      simp [verifyToken]
    unfold bothChecks
    rw [hverify, hsimply]
    exact ⟨by simp [isOdd], .value, depth, by simp [follow], rfl, .value⟩
  · have hsimply : simplyToken 1 s = none := by
      simp [simplyToken, hequals]
    rw [bothChecks_eq_none_of_simply hsimply]
    exact .inl (by simp [follow, hequals])

theorem goesAlong_value :
    GoesAlong .value depth s (bothChecks .op (List.replicate depth ['(']) 2 s) := by
  cases hvar : isVar s with
  | true =>
      have hsimply : simplyToken 2 s = none := by
        rw [simplyToken_of_isVar hvar, if_neg (by decide)]
      rw [bothChecks_eq_none_of_simply hsimply]
      exact .inr (by simp [isOdd, hvar])
  | false =>
      cases hvalue : isValue s with
      | false =>
          have hsimply : simplyToken 2 s = none := by
            simp [simplyToken, hvar, hvalue]
          rw [bothChecks_eq_none_of_simply hsimply]
          exact .inl (by simp [follow, hvalue])
      | true =>
          cases hslice : isSlice s with
          | true =>
              have hverify : verifyToken .op (List.replicate depth ['(']) s = .reject := by
                rw [verifyToken_of_isValue hvalue hvar, hslice, if_pos rfl]
              rw [bothChecks_eq_none_of_reject hverify]
              exact .inr (by simp [isOdd, hslice])
          | false =>
              unfold bothChecks
              rw [verifyToken_of_isValue hvalue hvar, simplyToken_of_isValue hvalue hvar, hslice,
                if_neg Bool.false_ne_true, if_pos rfl]
              exact ⟨by simp [isOdd, hvar, hslice], .connector, depth, by simp [follow, hvalue],
                rfl, .connector⟩

theorem goesAlong_connector :
    GoesAlong .connector depth s (bothChecks .exp (List.replicate depth ['(']) 0 s) := by
  by_cases hclose : s = [')']
  · subst hclose
    exact goesAlong_close (.inr rfl)
  by_cases hcon : s = ['&', '&'] ∨ s = ['|', '|']
  · have hverify : verifyToken .exp (List.replicate depth ['(']) s =
        .goOn .con (List.replicate depth ['(']) := by
      rcases hcon with rfl | rfl <;> simp [verifyToken]
    have hmem : s ∈ [['('], [')'], ['|', '|'], ['&', '&']] := by
      rcases hcon with rfl | rfl <;> simp
    unfold bothChecks
    rw [hverify, simplyToken_fixed hmem]
    exact ⟨by simp [isOdd], .operand, depth, by simp [follow, hcon], rfl,
      .operand (.inr (.inl rfl))⟩
  have hfollow : follow .connector depth s = none := by simp [follow, hcon, hclose]
  have hnone : bothChecks .exp (List.replicate depth ['(']) 0 s = none := by
    by_cases hopen : s = ['(']
    · subst hopen
      exact bothChecks_eq_none_of_reject (by simp [verifyToken])
    cases hvar : isVar s with
    | true =>
        cases hodd : isOdd .operand s with
        | true => exact bothChecks_eq_none_of_reject (verifyToken_of_isOdd hodd (by decide))
        | false =>
            apply bothChecks_eq_none_of_reject
            rw [verifyToken_of_isVar hvar hodd, if_neg (by decide)]
    | false =>
        apply bothChecks_eq_none_of_simply
        apply simplyToken_zero_eq_none hvar
        simp only [List.mem_cons, List.not_mem_nil, or_false, not_or]
        exact ⟨hopen, hclose, fun h => hcon (.inr h), fun h => hcon (.inl h)⟩
  rw [hnone]
  exact .inl hfollow

theorem goesAlong {position : Position} {expStatus : ℕ} (h : Agrees position lastType expStatus) :
    GoesAlong position depth s
      (bothChecks lastType (List.replicate depth ['(']) expStatus s) := by
  cases h with
  | operand hlast => exact goesAlong_operand hlast
  | equals => exact goesAlong_equals
  | value => exact goesAlong_value
  | connector => exact goesAlong_connector

end Steps

theorem loops_of_none {lastType : LastType} {bracketStack : List Token} {expStatus : ℕ} {s : Token}
    {rest : List Token} (h : bothChecks lastType bracketStack expStatus s = none) :
    ¬ (grammarVerifyLoop lastType bracketStack (s :: rest) = some true ∧
      grammarVerifySimplyLoop expStatus (s :: rest) = true) := by
  unfold bothChecks at h
  unfold grammarVerifyLoop grammarVerifySimplyLoop
  rintro ⟨hverify, hsimply⟩
  cases hverdict : verifyToken lastType bracketStack s with
  | reject => simp [hverdict] at hverify
  | undefined => simp [hverdict] at hverify
  | goOn next stack =>
      cases hstatus : simplyToken expStatus s with
      | none => simp [hstatus] at hsimply
      | some status => simp [hverdict, hstatus] at h

theorem loops_of_some {lastType next : LastType} {bracketStack stack : List Token}
    {expStatus status : ℕ} {s : Token} {rest : List Token}
    (h : bothChecks lastType bracketStack expStatus s = some (next, stack, status)) :
    grammarVerifyLoop lastType bracketStack (s :: rest) = grammarVerifyLoop next stack rest ∧
      grammarVerifySimplyLoop expStatus (s :: rest) = grammarVerifySimplyLoop status rest := by
  unfold bothChecks at h
  cases hverdict : verifyToken lastType bracketStack s with
  | reject => simp [hverdict] at h
  | undefined => simp [hverdict] at h
  | goOn other others =>
      cases hstatus : simplyToken expStatus s with
      | none => simp [hverdict, hstatus] at h
      | some after =>
          simp only [hverdict, hstatus, Option.some.injEq, Prod.mk.injEq] at h
          obtain ⟨rfl, rfl, rfl⟩ := h
          constructor
          · conv_lhs => unfold grammarVerifyLoop
            rw [hverdict]
          · conv_lhs => unfold grammarVerifySimplyLoop
            rw [hstatus]

/-- Both checks pass exactly where the automaton comes to the end with no
parenthesis open and meets no odd token. -/
theorem loops_iff {position : Position} {lastType : LastType} {expStatus depth : ℕ}
    (h : Agrees position lastType expStatus) (expList : List Token) :
    (grammarVerifyLoop lastType (List.replicate depth ['(']) expList = some true ∧
        grammarVerifySimplyLoop expStatus expList = true) ↔
      (∃ last, scan position depth expList = some (last, 0)) ∧
        Meets isOdd position depth expList = false := by
  induction expList generalizing position lastType expStatus depth with
  | nil =>
      unfold grammarVerifyLoop grammarVerifySimplyLoop scan Meets
      cases depth with
      | zero => simp
      | succ depth => simp [List.replicate_succ]
  | cons s rest ih =>
      have hstep := @goesAlong lastType s depth position expStatus h
      unfold scan Meets
      cases hboth : bothChecks lastType (List.replicate depth ['(']) expStatus s with
      | none =>
          rw [hboth] at hstep
          refine iff_of_false (loops_of_none hboth) ?_
          rintro ⟨⟨last, hscan⟩, hodd⟩
          rcases hstep with hfollow | hstepOdd
          · simp [hfollow] at hscan
          · simp [hstepOdd] at hodd
      | some checked =>
          obtain ⟨next, stack, status⟩ := checked
          rw [hboth] at hstep
          obtain ⟨hodd, after, nextDepth, hfollow, rfl, hagrees⟩ := hstep
          obtain ⟨hverify, hsimply⟩ := @loops_of_some _ _ _ _ _ _ _ rest hboth
          rw [hverify, hsimply, ih hagrees, hfollow, hodd, Option.bind_some, Option.any_some,
            Bool.false_or]

theorem inputExpression_iff (originExpression : List Char) :
    inputExpression originExpression = some true ↔
      Loose (splitExpression originExpression) ∧ ¬ Odd (splitExpression originExpression) := by
  unfold inputExpression Loose Odd
  simp only
  generalize splitExpression originExpression = expList
  have hloops := @loops_iff _ _ _ 0 (.operand (.inl rfl)) expList
  rw [Bool.not_eq_true]
  by_cases hnil : expList = []
  · simp [hnil]
  · rw [if_neg hnil, and_assoc, and_iff_right hnil, ← hloops]
    unfold grammarVerify grammarVerifySimply
    rw [List.replicate_zero]
    cases grammarVerifyLoop .empty [] expList with
    | none => simp
    | some verified => simp

/-! ## The grammar and the automaton -/

/-- A derivable list takes the automaton from an operand to a connector. -/
theorem Derivable.scan {expList : List Token} (h : Derivable expList) (depth : ℕ)
    (rest : List Token) :
    Query.scan .operand depth (expList ++ rest) = Query.scan .connector depth rest ∧
      Meets closesEarly .operand depth (expList ++ rest) =
        Meets closesEarly .connector depth rest := by
  induction h generalizing depth rest with
  | @atom var value hvar hvalue =>
      have hfixed := not_mem_fixedTokens_of_isVar hvar
      simp only [fixedTokens, List.mem_cons, List.not_mem_nil, or_false, not_or] at hfixed
      simp [Query.scan, Meets, follow, closesEarly, hfixed, hvar, hvalue]
  | @connect left right con _ hcon _ ihLeft ihRight =>
      have hfollow : follow .connector depth con = some (.operand, depth) := by
        simp [follow, hcon]
      have hleft := ihLeft depth (con :: (right ++ rest))
      have hright := ihRight depth rest
      rw [List.append_assoc, List.cons_append, hleft.1, hleft.2, ← hright.1, ← hright.2]
      simp [Query.scan, Meets, hfollow, closesEarly]
  | @group inner _ ih =>
      have hinner := ih (depth + 1) ([')'] :: rest)
      have hclose : follow .connector (depth + 1) [')'] = some (.connector, depth) := by
        simp [follow]
      have happend : ['('] :: inner ++ [[')']] ++ rest = ['('] :: (inner ++ ([')'] :: rest)) := by
        simp
      rw [happend]
      constructor
      · calc
          Query.scan .operand depth (['('] :: (inner ++ ([')'] :: rest))) =
              Query.scan .operand (depth + 1) (inner ++ ([')'] :: rest)) := by
            simp [Query.scan, follow]
          _ = Query.scan .connector (depth + 1) ([')'] :: rest) := hinner.1
          _ = Query.scan .connector depth rest := by simp [Query.scan, hclose]
      · calc
          Meets closesEarly .operand depth (['('] :: (inner ++ ([')'] :: rest))) =
              Meets closesEarly .operand (depth + 1) (inner ++ ([')'] :: rest)) := by
            simp [Meets, follow, closesEarly]
          _ = Meets closesEarly .connector (depth + 1) ([')'] :: rest) := hinner.2
          _ = Meets closesEarly .connector depth rest := by simp [Meets, hclose, closesEarly]

/-- What stands before the innermost open parenthesis and with it: an operand
belongs there. -/
inductive Opened : ℕ → List Token → Prop
  | none : Opened 0 []
  | first {depth : ℕ} {front : List Token} : Opened depth front →
      Opened (depth + 1) (front ++ [['(']])
  | connected {depth : ℕ} {front left : List Token} {con : Token} : Opened depth front →
      Derivable left → con = ['&', '&'] ∨ con = ['|', '|'] →
      Opened (depth + 1) (front ++ left ++ [con, ['(']])

/-- An operand belongs after the list. -/
def AwaitsOperand (depth : ℕ) (expList : List Token) : Prop :=
  ∃ front, Opened depth front ∧ (expList = front ∨
    ∃ left con, Derivable left ∧ (con = ['&', '&'] ∨ con = ['|', '|']) ∧
      expList = front ++ left ++ [con])

/-- The list ends with a complete operand. -/
def EndsOperand (depth : ℕ) (expList : List Token) : Prop :=
  ∃ front inner, Opened depth front ∧ Derivable inner ∧ expList = front ++ inner

/-- What has been read when the automaton is at a position. -/
def ReadAt : Position → ℕ → List Token → Prop
  | .operand, depth, expList => AwaitsOperand depth expList
  | .equals, depth, expList => ∃ before var, AwaitsOperand depth before ∧ isVar var = true ∧
      expList = before ++ [var]
  | .value, depth, expList => ∃ before var, AwaitsOperand depth before ∧ isVar var = true ∧
      expList = before ++ [var, ['=', '=']]
  | .connector, depth, expList => EndsOperand depth expList

/-- An operand completes what awaits it. -/
theorem AwaitsOperand.complete {depth : ℕ} {before operand : List Token}
    (h : AwaitsOperand depth before) (hoperand : Derivable operand) :
    EndsOperand depth (before ++ operand) := by
  obtain ⟨front, hfront, rfl | ⟨left, con, hleft, hcon, rfl⟩⟩ := h
  · exact ⟨before, operand, hfront, hoperand, rfl⟩
  · exact ⟨front, left ++ con :: operand, hfront, hleft.connect hcon hoperand, by simp⟩

theorem AwaitsOperand.opened {depth : ℕ} {before : List Token} (h : AwaitsOperand depth before) :
    AwaitsOperand (depth + 1) (before ++ [['(']]) := by
  obtain ⟨front, hfront, rfl | ⟨left, con, hleft, hcon, rfl⟩⟩ := h
  · exact ⟨_, hfront.first, .inl rfl⟩
  · exact ⟨_, hfront.connected hleft hcon, .inl (by simp)⟩

/-- A closing parenthesis makes an operand of what stands in the parentheses. -/
theorem EndsOperand.close {depth : ℕ} {before : List Token} (h : EndsOperand (depth + 1) before) :
    EndsOperand depth (before ++ [[')']]) := by
  obtain ⟨front, inner, hfront, hinner, rfl⟩ := h
  cases hfront with
  | @first _ outer houter =>
      exact ⟨outer, ['('] :: inner ++ [[')']], houter, hinner.group, by simp⟩
  | @connected _ outer left con houter hleft hcon =>
      exact ⟨outer, left ++ con :: (['('] :: inner ++ [[')']]), houter,
        hleft.connect hcon hinner.group, by simp⟩

theorem ReadAt.follow {position next : Position} {depth nextDepth : ℕ} {before : List Token}
    {s : Token} (h : ReadAt position depth before)
    (hfollow : Query.follow position depth s = some (next, nextDepth))
    (hearly : closesEarly position s = false) : ReadAt next nextDepth (before ++ [s]) := by
  cases position with
  | operand =>
      unfold Query.follow at hfollow
      simp only at hfollow
      split_ifs at hfollow with hopen hclose hzero hvar
      · obtain ⟨rfl, rfl⟩ := Prod.mk.inj (Option.some.inj hfollow)
        subst hopen
        exact AwaitsOperand.opened h
      · simp [closesEarly, hclose] at hearly
      · obtain ⟨rfl, rfl⟩ := Prod.mk.inj (Option.some.inj hfollow)
        exact ⟨before, s, h, hvar, rfl⟩
  | equals =>
      unfold Query.follow at hfollow
      simp only at hfollow
      split_ifs at hfollow with hequals
      obtain ⟨rfl, rfl⟩ := Prod.mk.inj (Option.some.inj hfollow)
      subst hequals
      obtain ⟨front, var, hfront, hvar, rfl⟩ := h
      exact ⟨front, var, hfront, hvar, by simp⟩
  | value =>
      unfold Query.follow at hfollow
      simp only at hfollow
      split_ifs at hfollow with hvalue
      obtain ⟨rfl, rfl⟩ := Prod.mk.inj (Option.some.inj hfollow)
      obtain ⟨front, var, hfront, hvar, rfl⟩ := h
      have hcomplete := AwaitsOperand.complete hfront (.atom hvar hvalue)
      rw [List.append_assoc]
      exact hcomplete
  | connector =>
      unfold Query.follow at hfollow
      simp only at hfollow
      split_ifs at hfollow with hcon hclose hzero
      · obtain ⟨rfl, rfl⟩ := Prod.mk.inj (Option.some.inj hfollow)
        obtain ⟨front, inner, hfront, hinner, rfl⟩ := h
        exact ⟨front, hfront, .inr ⟨inner, s, hinner, hcon, rfl⟩⟩
      · obtain ⟨rfl, rfl⟩ := Prod.mk.inj (Option.some.inj hfollow)
        subst hclose
        obtain ⟨outer, rfl⟩ := Nat.exists_eq_succ_of_ne_zero hzero
        exact EndsOperand.close h

theorem ReadAt.scan {position last : Position} {depth lastDepth : ℕ} {before : List Token}
    (h : ReadAt position depth before) (expList : List Token)
    (hscan : Query.scan position depth expList = some (last, lastDepth))
    (hearly : Meets closesEarly position depth expList = false) :
    ReadAt last lastDepth (before ++ expList) := by
  induction expList generalizing position depth before with
  | nil =>
      obtain ⟨rfl, rfl⟩ := Prod.mk.inj (Option.some.inj hscan)
      rwa [List.append_nil]
  | cons s rest ih =>
      unfold Query.scan at hscan
      unfold Meets at hearly
      obtain ⟨⟨next, nextDepth⟩, hfollow, hrest⟩ := Option.bind_eq_some_iff.mp hscan
      rw [Bool.or_eq_false_iff, hfollow, Option.any_some] at hearly
      have hread := ih (h.follow hfollow hearly.1) hrest hearly.2
      rwa [List.append_assoc, List.singleton_append] at hread

theorem derivable_iff (expList : List Token) :
    Derivable expList ↔ Loose expList ∧ ¬ Dangling expList := by
  unfold Loose Dangling
  rw [not_or, not_not, Bool.not_eq_true]
  constructor
  · intro h
    have hscan := h.scan 0 []
    rw [List.append_nil] at hscan
    have hend : Query.scan .operand 0 expList = some (.connector, 0) := hscan.1
    refine ⟨⟨?_, .connector, hend⟩, hend, hscan.2⟩
    rintro rfl
    cases hend
  · rintro ⟨-, hend, hearly⟩
    have hstart : ReadAt .operand 0 [] := ⟨[], .none, .inl rfl⟩
    obtain ⟨front, inner, hfront, hinner, heq⟩ := hstart.scan expList hend hearly
    cases hfront
    rw [List.nil_append, List.nil_append] at heq
    rwa [heq]

/-- **The front end accepts its grammar** at exactly those expressions that are
refused by the automaton, or have an odd token and dangle, or neither. -/
theorem accepts_iff_derivable_iff (originExpression : List Char) :
    (inputExpression originExpression = some true ↔
        Derivable (splitExpression originExpression)) ↔
      (Loose (splitExpression originExpression) →
        (Odd (splitExpression originExpression) ↔
          Dangling (splitExpression originExpression))) := by
  rw [inputExpression_iff, derivable_iff]
  by_cases hloose : Loose (splitExpression originExpression)
  · simp only [hloose, true_and, forall_const, not_iff_not]
  · simp only [hloose, false_and, false_imp_iff]

/-- Accepted and not derivable: a list that ends in `&&`, an empty pair of
parentheses, a variable alone.  Derivable and refused: a value that is a variable,
one that is a slice, and a variable named `in`. -/
theorem accepts_not_derivable :
    (∀ originExpression ∈ ["srcport == 80 &&".toList, "()".toList, "srcport".toList],
      inputExpression originExpression = some true ∧
        ¬ Derivable (splitExpression originExpression)) ∧
    ∀ originExpression ∈ ["srcport == true".toList, "srcip == ::".toList, "in == 1".toList],
      inputExpression originExpression = some false ∧
        Derivable (splitExpression originExpression) := by
  constructor
  · have hfails : ∀ originExpression ∈ ["srcport == 80 &&".toList, "()".toList, "srcport".toList],
        inputExpression originExpression = some true ∧
          ¬ (scan .operand 0 (splitExpression originExpression) = some (.connector, 0) ∧
            Meets closesEarly .operand 0 (splitExpression originExpression) = false) := by
      decide +kernel
    intro originExpression hmem
    refine ⟨(hfails originExpression hmem).1, fun hderivable => ?_⟩
    have hscan := hderivable.scan 0 []
    rw [List.append_nil] at hscan
    exact (hfails originExpression hmem).2 hscan
  · have hatoms : ∀ originExpression ∈
        ["srcport == true".toList, "srcip == ::".toList, "in == 1".toList],
        inputExpression originExpression = some false ∧
          isVar ((splitExpression originExpression).getD 0 []) = true ∧
          isValue ((splitExpression originExpression).getD 2 []) = true ∧
          splitExpression originExpression = [(splitExpression originExpression).getD 0 [],
            ['=', '='], (splitExpression originExpression).getD 2 []] := by
      decide +kernel
    intro originExpression hmem
    obtain ⟨hrefused, hvar, hvalue, hsplit⟩ := hatoms originExpression hmem
    refine ⟨hrefused, ?_⟩
    rw [hsplit]
    exact .atom hvar hvalue

end Query

end TrafficDatabase
