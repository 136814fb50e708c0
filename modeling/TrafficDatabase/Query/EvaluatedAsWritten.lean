import TrafficDatabase.Query.Evaluation
import TrafficDatabase.Query.WrittenValues

/-!
# Accepted queries as they are evaluated

The front end accepts any variable and any value in an atom, and an expression that ends
in the middle of one.  The evaluator knows four variables.  It keeps what the last of them
was: until it has met one it passes over every other token, and from then on it takes every
other token for a value of it.

So an accepted query is evaluated as it is written if all its atoms are plain and, where it
ends with a variable that has no value, the evaluator knows it or waits for no value yet
(`evaluatedAsWritten_iff`).
-/

namespace TrafficDatabase

namespace Query

/-! ## Atoms and lookups -/

/-- The atoms of an expression, from left to right. -/
def atomsOf : List Token → List (Token × Token)
  | var :: equals :: value :: rest =>
      if equals = ['=', '='] then (var, value) :: atomsOf rest
      else atomsOf (equals :: value :: rest)
  | _ => []

/-- The variable without a value at the end of an expression. -/
def openVariable : List Token → Option Token
  | [] => none
  | [s] => if isVar s then some s else none
  | [s, last] => if last = ['=', '='] then some s else openVariable [last]
  | _ :: rest => openVariable rest

/-- The evaluator knows the variable. -/
def Indexed (var : Token) : Prop := var ∈ [srcipVar, dstipVar, srcportVar, dstportVar]

/-- The tokens that are never taken for a value. -/
def keywords : List Token :=
  [['('], srcipVar, dstipVar, srcportVar, dstportVar, ['=', '='], ['&', '&'], ['|', '|'], [')']]

/-- What a turn of the loop looks up. -/
def lookupAt (st : SearchState) (s : Token) : Option Request :=
  if keywords.contains s ∨ st.waitForValue = 0 then none
  else if st.waitForValue = 2 then portRequest st.cachePos s
  else addressRequest st.cachePos s

section Run

variable (answers : ℕ → Request → List Answer)

/-- What the loop looks up, as far as it comes. -/
def lookups : SearchState → List Token → List Request
  | _, [] => []
  | st, s :: rest =>
      match searchToken answers st s with
      | none => []
      | some next => (lookupAt st s).toList ++ lookups next rest

/-- The run comes to its end and has looked up, one after the other, the atoms. -/
def RunsAsWritten (st : SearchState) (expList : List Token) : Prop :=
  (expList.foldlM (searchToken answers) st).isSome = true ∧
    (atomsOf expList).Forall₂ (fun atom request => Denotes atom.1 atom.2 request)
      (lookups answers st expList)

def EvaluatedAsWritten (expList : List Token) : Prop :=
  (searchExpression answers expList).isSome = true ∧
    (atomsOf expList).Forall₂ (fun atom request => Denotes atom.1 atom.2 request)
      (lookups answers .start expList)

variable {answers} {st next : SearchState} {s : Token}

theorem searchToken_of_not_mem (h : s ∉ keywords) :
    searchToken answers st s =
      if st.waitForValue ≠ 0 then searchValue answers st s else some st := by
  simp only [keywords, List.mem_cons, List.not_mem_nil, or_false, not_or] at h
  simp [searchToken, h]

theorem searchToken_close {op : Token} {ops : List Token} {list : List Answer}
    {lists : List (List Answer)} (hops : st.ops = op :: ops)
    (hlists : st.beforeLists = list :: lists) :
    searchToken answers st [')'] = some { st with
      ops
      opNow := op
      beforeLists := lists
      leftList := combine op list st.leftList } := by
  unfold searchToken
  rw [hops, hlists]
  rfl

theorem searchToken_close_nil (hops : st.ops = []) : searchToken answers st [')'] = none := by
  unfold searchToken
  rw [hops]
  rfl

theorem searchToken_close_nil' (hlists : st.beforeLists = []) :
    searchToken answers st [')'] = none := by
  unfold searchToken
  rw [hlists]
  cases st.ops <;> rfl

/-- The turns of the keywords look nothing up. -/
theorem searchToken_of_mem (h : s ∈ keywords) (hstep : searchToken answers st s = some next) :
    next.calls = st.calls ∧ ∀ other, searchToken other st s = some next := by
  simp only [keywords, List.mem_cons, List.not_mem_nil, or_false] at h
  rcases h with rfl | rfl | rfl | rfl | rfl | rfl | rfl | rfl | rfl
  case inr.inr.inr.inr.inr.inr.inr.inr =>
    -- a closing parenthesis needs the stacks
    cases hops : st.ops with
    | nil =>
        rw [searchToken_close_nil hops] at hstep
        exact absurd hstep.symm (Option.some_ne_none _)
    | cons op ops =>
        cases hlists : st.beforeLists with
        | nil =>
            rw [searchToken_close_nil' hlists] at hstep
            exact absurd hstep.symm (Option.some_ne_none _)
        | cons list lists =>
            rw [searchToken_close hops hlists] at hstep
            obtain rfl := Option.some.inj hstep
            exact ⟨rfl, fun other => searchToken_close hops hlists⟩
  all_goals
    obtain rfl := Option.some.inj hstep
    exact ⟨rfl, fun _ => rfl⟩

theorem lookupAt_of_mem (h : s ∈ keywords) : lookupAt st s = none :=
  if_pos (.inl (List.contains_iff_mem.mpr h))

theorem lookupAt_of_not_mem (h : s ∉ keywords) (hwait : st.waitForValue ≠ 0) :
    lookupAt st s =
      if st.waitForValue = 2 then portRequest st.cachePos s else addressRequest st.cachePos s :=
  if_neg (not_or.mpr ⟨mt List.contains_iff_mem.mp h, hwait⟩)

/-- A turn looks up what `lookupAt` says, and nothing else. -/
theorem searchToken_lookupAt (h : searchToken answers st s = some next) :
    next.calls = st.calls + (lookupAt st s).toList.length ∧
      ∀ other : ℕ → Request → List Answer,
        (∀ request, lookupAt st s = some request →
          other st.calls request = answers st.calls request) →
            searchToken other st s = some next := by
  by_cases hkey : s ∈ keywords
  · rw [lookupAt_of_mem hkey]
    exact ⟨(searchToken_of_mem hkey h).1, fun other _ => (searchToken_of_mem hkey h).2 other⟩
  · by_cases hwait : st.waitForValue = 0
    · rw [searchToken_of_not_mem hkey, if_neg (not_not_intro hwait)] at h
      rw [lookupAt, if_pos (.inr hwait)]
      refine ⟨congrArg SearchState.calls (Option.some.inj h).symm, fun other _ => ?_⟩
      rw [searchToken_of_not_mem hkey, if_neg (not_not_intro hwait), h]
    · rw [searchToken_of_not_mem hkey, if_pos hwait, searchValue] at h
      obtain ⟨request, hrequest, rfl⟩ := Option.map_eq_some_iff.mp h
      have hlookup : lookupAt st s = some request := by
        rw [lookupAt_of_not_mem hkey hwait]
        exact hrequest
      rw [hlookup]
      refine ⟨rfl, fun other hother => ?_⟩
      rw [searchToken_of_not_mem hkey, if_pos hwait, searchValue, hrequest, Option.map_some,
        hother request rfl]

end Run

/-! ## The tokens of an accepted expression -/

/-- What an accepted expression goes on with where an operand or a connector belongs; as many
parentheses are open. -/
inductive GoesOn : ℕ → List Token → Prop
  | done {depth : ℕ} : GoesOn depth []
  | opened {depth : ℕ} {rest : List Token} : GoesOn (depth + 1) rest →
      GoesOn depth (['('] :: rest)
  | closed {depth : ℕ} {rest : List Token} : GoesOn depth rest →
      GoesOn (depth + 1) ([')'] :: rest)
  | connected {depth : ℕ} {con : Token} {rest : List Token} : con = ['&', '&'] ∨ con = ['|', '|'] →
      GoesOn depth rest → GoesOn depth (con :: rest)
  | openVar {depth : ℕ} {var : Token} : isVar var = true → GoesOn depth [var]
  | openEquals {depth : ℕ} {var : Token} : isVar var = true → GoesOn depth [var, ['=', '=']]
  | atom {depth : ℕ} {var value : Token} {rest : List Token} : isVar var = true →
      isValue value = true → isVar value = false → GoesOn depth rest →
      GoesOn depth (var :: ['=', '='] :: value :: rest)

/-- What a position expects, with what has been read of an atom. -/
def Expects : Position → ℕ → List Token → Prop
  | .operand, depth, rest | .connector, depth, rest => GoesOn depth rest
  | .equals, depth, rest => ∀ var, isVar var = true → GoesOn depth (var :: rest)
  | .value, depth, rest => ∀ var, isVar var = true → GoesOn depth (var :: ['=', '='] :: rest)

theorem expects_of_scan {position last : Position} {depth lastDepth : ℕ} {rest : List Token}
    (hscan : scan position depth rest = some (last, lastDepth))
    (hodd : Meets isOdd position depth rest = false) : Expects position depth rest := by
  induction rest generalizing position depth with
  | nil =>
      cases position with
      | operand | connector => exact .done
      | equals => exact fun var hvar => .openVar hvar
      | value => exact fun var hvar => .openEquals hvar
  | cons s rest ih =>
      unfold scan at hscan
      unfold Meets at hodd
      obtain ⟨⟨next, nextDepth⟩, hfollow, hrest⟩ := Option.bind_eq_some_iff.mp hscan
      rw [Bool.or_eq_false_iff, hfollow, Option.any_some] at hodd
      have hexpects := ih hrest hodd.2
      unfold follow at hfollow
      -- one case for each position, as in `follow`
      cases position with
      | operand =>
          simp only at hfollow
          split_ifs at hfollow with hopen hclose hzero hvar
          · obtain ⟨rfl, rfl⟩ := Prod.mk.inj (Option.some.inj hfollow)
            subst hopen
            exact .opened hexpects
          · obtain ⟨rfl, rfl⟩ := Prod.mk.inj (Option.some.inj hfollow)
            subst hclose
            obtain ⟨outer, rfl⟩ := Nat.exists_eq_succ_of_ne_zero hzero
            exact .closed hexpects
          · obtain ⟨rfl, rfl⟩ := Prod.mk.inj (Option.some.inj hfollow)
            exact hexpects s hvar
      | equals =>
          simp only at hfollow
          split_ifs at hfollow with hequals
          obtain ⟨rfl, rfl⟩ := Prod.mk.inj (Option.some.inj hfollow)
          subst hequals
          exact hexpects
      | value =>
          simp only at hfollow
          split_ifs at hfollow with hvalue
          obtain ⟨rfl, rfl⟩ := Prod.mk.inj (Option.some.inj hfollow)
          have hvar : isVar s = false := (Bool.or_eq_false_iff.mp hodd.1).1
          exact fun var hvar' => .atom hvar' hvalue hvar hexpects
      | connector =>
          simp only at hfollow
          split_ifs at hfollow with hcon hclose hzero
          · obtain ⟨rfl, rfl⟩ := Prod.mk.inj (Option.some.inj hfollow)
            exact .connected hcon hexpects
          · obtain ⟨rfl, rfl⟩ := Prod.mk.inj (Option.some.inj hfollow)
            subst hclose
            obtain ⟨outer, rfl⟩ := Nat.exists_eq_succ_of_ne_zero hzero
            exact .closed hexpects

/-- No token of this list is an equality where an atom could begin. -/
theorem GoesOn.head?_ne {depth : ℕ} {rest : List Token} (h : GoesOn depth rest) :
    rest.head? ≠ some ['=', '='] := by
  have hnot : isVar ['=', '='] = false := isVar_fixed _ (by simp [fixedTokens])
  cases h with
  | done | opened _ | closed _ => simp
  | connected hcon _ => rcases hcon with rfl | rfl <;> simp
  | openVar hvar | openEquals hvar | atom hvar _ _ _ =>
      intro heq
      rw [Option.some.inj heq, hnot] at hvar
      exact Bool.false_ne_true hvar

section Keyword

variable {s : Token} {rest : List Token}

/-- A token in front that is no variable makes no atom. -/
theorem atomsOf_cons (hrest : rest.head? ≠ some ['=', '=']) :
    atomsOf (s :: rest) = atomsOf rest := by
  match rest, hrest with
  | [], _ => rfl
  | [_], _ => rfl
  | equals :: value :: rest, hrest =>
      have hne : equals ≠ ['=', '='] := fun heq => hrest (congrArg some heq)
      rw [atomsOf, if_neg hne]

theorem openVariable_cons (hvar : isVar s = false) (hrest : rest.head? ≠ some ['=', '=']) :
    openVariable (s :: rest) = openVariable rest := by
  match rest, hrest with
  | [], _ => simp [openVariable, hvar]
  | [last], hrest =>
      have hne : last ≠ ['=', '='] := fun heq => hrest (congrArg some heq)
      simp only [openVariable, if_neg hne]
  | _ :: _ :: _, _ => rfl

end Keyword

/-! ## Variables -/

section Variables

variable {answers : ℕ → Request → List Answer} {st : SearchState} {var value : Token}

theorem isVar_head (h : isVar var = true) : ∃ c rest, var = c :: rest ∧ c ∈ letters := by
  have hmem := (RegularExpression.rmatch_iff_matches' _ _).mp h
  obtain ⟨front, hfront, back, -, rfl⟩ := Language.mem_mul.mp hmem
  obtain ⟨first, hfirst, middle, -, rfl⟩ := Language.mem_mul.mp hfront
  obtain ⟨c, hc, rfl⟩ := RegularExpression.exists_of_mem_oneOf hfirst
  exact ⟨c, middle ++ back, rfl, hc⟩

theorem letter_ne : ∀ c ∈ letters, c ∉ digits ∧ c ∉ spaces ∧ c ≠ '-' ∧ c ≠ '+' ∧ c ≠ '/' :=
  forall_mem_of_all (by decide)

/-- A variable is no number and no address. -/
theorem request_of_isVar (h : isVar var = true) (type : IndexType) :
    portRequest type var = none ∧ addressRequest type var = none := by
  obtain ⟨c, rest, rfl, hc⟩ := isVar_head h
  obtain ⟨hdigit, hspace, hminus, hplus, hslash⟩ := letter_ne c hc
  have hstoul : stoul (c :: rest) = none := by
    simp [stoul, hdigit, hspace, hminus, hplus]
  have haton : ∀ tail, inetAton (c :: tail) = none := fun tail => by
    rw [inetAton, inetAtonLoop, if_pos (by simp [hdigit])]
  have hsplit : splitIP (c :: rest) = (rest.takeWhile (· ≠ '/')).length + 1 := by
    simp [splitIP, hslash]
  refine ⟨by rw [portRequest, hstoul, Option.map_none], ?_⟩
  rw [addressRequest, hsplit]
  simp only [haton, List.take_succ_cons, Option.map_none, Option.bind_none, ite_self]

theorem not_mem_keywords_of_isVar (h : isVar var = true) (hnot : ¬ Indexed var) :
    var ∉ keywords := by
  have hfixed := not_mem_fixedTokens_of_isVar h
  simp only [Indexed, fixedTokens, keywords, List.mem_cons, List.not_mem_nil, or_false,
    not_or] at hnot hfixed ⊢
  simp [hnot, hfixed]

theorem not_mem_keywords_of_isValue (h : isValue value = true) : value ∉ keywords := by
  have hfixed := not_mem_fixedTokens_of_isValue h
  have hvars : value ∉ [srcipVar, dstipVar, srcportVar, dstportVar] := fun hmem =>
    Bool.false_ne_true ((isValue_vars value hmem).symm.trans h)
  simp only [fixedTokens, keywords, List.mem_cons, List.not_mem_nil, or_false,
    not_or] at hvars hfixed ⊢
  simp [hvars, hfixed]

theorem Indexed.mem_keywords (h : Indexed var) : var ∈ keywords := by
  simp only [Indexed, keywords, List.mem_cons, List.not_mem_nil, or_false] at h ⊢
  tauto

theorem Denotes.indexed {request : Request} (h : Denotes var value request) : Indexed var := by
  rcases h with ⟨type, hindex, -⟩ | ⟨type, hindex, -⟩
  · unfold portIndex at hindex
    split_ifs at hindex with hsrc hdst
    · simp [Indexed, hsrc]
    · simp [Indexed, hdst]
  · unfold addressIndex at hindex
    split_ifs at hindex with hsrc hdst
    · simp [Indexed, hsrc]
    · simp [Indexed, hdst]

/-- A variable the evaluator knows decides where the next value is looked up. -/
theorem searchToken_indexed (h : Indexed var) :
    ∃ type wait, searchToken answers st var =
        some { st with cachePos := type, waitForValue := wait } ∧ wait ≠ 0 ∧
      ∀ value, (if wait = 2 then portRequest type value else addressRequest type value) =
        atomRequest var value := by
  simp only [Indexed, List.mem_cons, List.not_mem_nil, or_false] at h
  rcases h with rfl | rfl | rfl | rfl
  · exact ⟨.srcip, 1, rfl, by decide, fun _ => rfl⟩
  · exact ⟨.dstip, 1, rfl, by decide, fun _ => rfl⟩
  · exact ⟨.srcport, 2, rfl, by decide, fun _ => rfl⟩
  · exact ⟨.dstport, 2, rfl, by decide, fun _ => rfl⟩

end Variables

/-! ## The run -/

section Runs

variable {answers : ℕ → Request → List Answer} {st next : SearchState} {s var value : Token}
  {rest : List Token}

theorem runsAsWritten_nil (st : SearchState) : RunsAsWritten answers st [] := ⟨rfl, .nil⟩

/-- A keyword that begins no atom. -/
theorem runsAsWritten_cons (hkey : s ∈ keywords) (hstep : searchToken answers st s = some next)
    (hatoms : atomsOf (s :: rest) = atomsOf rest) :
    RunsAsWritten answers st (s :: rest) ↔ RunsAsWritten answers next rest := by
  have hnone : lookupAt st s = none := lookupAt_of_mem hkey
  unfold RunsAsWritten
  rw [hatoms, List.foldlM_cons, hstep, lookups, hstep]
  simp only [hnone, Option.bind_eq_bind, Option.bind_some, Option.toList_none, List.nil_append]

/-- The state after an atom of a variable the evaluator knows. -/
def afterAtom (answers : ℕ → Request → List Answer) (st : SearchState) (type : IndexType)
    (wait : ℕ) (request : Request) : SearchState :=
  { st with
    cachePos := type
    waitForValue := wait
    leftList := combine st.opNow st.leftList (answers st.calls request)
    calls := st.calls + 1 }

theorem exists_runsAsWritten_atom (hindexed : Indexed var) (hvalue : isValue value = true) :
    ∃ type wait, wait ≠ 0 ∧ (RunsAsWritten answers st (var :: ['=', '='] :: value :: rest) ↔
      ∃ request, atomRequest var value = some request ∧ Denotes var value request ∧
        RunsAsWritten answers (afterAtom answers st type wait request) rest) := by
  obtain ⟨type, wait, hvar, hwait, hrequest⟩ := @searchToken_indexed answers st var hindexed
  refine ⟨type, wait, hwait, ?_⟩
  have hnone : lookupAt st var = none := lookupAt_of_mem hindexed.mem_keywords
  have hequals : ∀ st : SearchState, searchToken answers st ['=', '='] = some st := fun _ => rfl
  have hnone' : ∀ st : SearchState, lookupAt st ['=', '='] = none := fun _ =>
    lookupAt_of_mem (by decide)
  have hnot := not_mem_keywords_of_isValue hvalue
  have hlookup : lookupAt { st with cachePos := type, waitForValue := wait } value =
      atomRequest var value := by
    rw [lookupAt_of_not_mem hnot hwait]
    exact hrequest value
  have hstep : searchToken answers { st with cachePos := type, waitForValue := wait } value =
      (atomRequest var value).map (afterAtom answers st type wait) := by
    rw [searchToken_of_not_mem hnot, if_pos hwait, searchValue, ← hrequest value]
    rfl
  unfold RunsAsWritten
  rw [atomsOf, if_pos rfl]
  simp only [List.foldlM_cons, lookups, hvar, hequals, hnone, hnone', hlookup, hstep,
    Option.bind_eq_bind, Option.bind_some, Option.toList_none, List.nil_append]
  cases hatom : atomRequest var value with
  | none => simp
  | some request =>
      simp only [Option.map_some, Option.bind_some, Option.toList_some, List.singleton_append,
        List.forall₂_cons, Option.some.injEq, exists_eq_left']
      tauto

/-- A variable without a value that the evaluator does not know is passed over, or looked up
where a value is awaited. -/
theorem runsAsWritten_open (hvar : isVar var = true) {tail : List Token}
    (htail : tail = [] ∨ tail = [['=', '=']]) :
    RunsAsWritten answers st (var :: tail) ↔ (¬ Indexed var → st.waitForValue = 0) := by
  have hatoms : atomsOf (var :: tail) = [] := by rcases htail with rfl | rfl <;> rfl
  have hequals : ∀ st : SearchState, searchToken answers st ['=', '='] = some st := fun _ => rfl
  have hnone : ∀ st : SearchState, lookupAt st ['=', '='] = none := fun _ =>
    lookupAt_of_mem (by decide)
  have htailRuns : ∀ st : SearchState, (tail.foldlM (searchToken answers) st).isSome = true ∧
      lookups answers st tail = [] := by
    intro st
    rcases htail with rfl | rfl
    · exact ⟨rfl, rfl⟩
    · simp [lookups, hequals, hnone]
  have hruns : (∃ next, searchToken answers st var = some next) ∧ lookupAt st var = none →
      RunsAsWritten answers st (var :: tail) := by
    rintro ⟨⟨next, hstep⟩, hlookup⟩
    unfold RunsAsWritten
    rw [hatoms, List.foldlM_cons, hstep, lookups, hstep]
    simp only [hlookup, Option.toList_none, List.nil_append, (htailRuns next).2]
    exact ⟨(htailRuns next).1, .nil⟩
  by_cases hindexed : Indexed var
  · refine iff_of_true (hruns ?_) fun hnot => absurd hindexed hnot
    obtain ⟨type, wait, hstep, -⟩ := @searchToken_indexed answers st var hindexed
    exact ⟨⟨_, hstep⟩, lookupAt_of_mem hindexed.mem_keywords⟩
  · have hnot := not_mem_keywords_of_isVar hvar hindexed
    by_cases hwait : st.waitForValue = 0
    · refine iff_of_true (hruns ⟨⟨st, ?_⟩, if_pos (.inr hwait)⟩) fun _ => hwait
      rw [searchToken_of_not_mem hnot, if_neg (not_not_intro hwait)]
    · refine iff_of_false ?_ fun h => hwait (h hindexed)
      have hnone : searchToken answers st var = none := by
        obtain ⟨hport, haddress⟩ := request_of_isVar hvar st.cachePos
        rw [searchToken_of_not_mem hnot, if_pos hwait, searchValue]
        simp only [hport, haddress, ite_self, Option.map_none]
      rintro ⟨hsome, -⟩
      rw [List.foldlM_cons, hnone] at hsome
      exact Bool.false_ne_true hsome

theorem Plain.indexed (h : Plain var value) : Indexed var := by
  obtain ⟨request, -, hdenotes⟩ := (denotes_atomRequest_iff var value).mpr h
  exact hdenotes.indexed

/-- A run from a state where as many parentheses are open. -/
theorem runsAsWritten_iff {depth : ℕ} {expList : List Token} (h : GoesOn depth expList)
    {st : SearchState} (hops : st.ops.length = depth) (hlists : st.beforeLists.length = depth) :
    RunsAsWritten answers st expList ↔
      (∀ atom ∈ atomsOf expList, Plain atom.1 atom.2) ∧
        ∀ var, openVariable expList = some var → ¬ Indexed var →
          st.waitForValue = 0 ∧ atomsOf expList = [] := by
  induction h generalizing st with
  | done => exact iff_of_true (runsAsWritten_nil st) ⟨by simp [atomsOf], by simp [openVariable]⟩
  -- parentheses and connectors change only what is put aside
  | @opened depth rest hrest ih =>
      have hvar : isVar ['('] = false := isVar_fixed _ (by simp [fixedTokens])
      have hatoms := @atomsOf_cons ['('] rest hrest.head?_ne
      rw [runsAsWritten_cons (by decide) (by rfl) hatoms, hatoms,
        openVariable_cons hvar hrest.head?_ne]
      exact ih (by simp [hops]) (by simp [hlists])
  | @closed depth rest hrest ih =>
      have hvar : isVar [')'] = false := isVar_fixed _ (by simp [fixedTokens])
      have hatoms := @atomsOf_cons [')'] rest hrest.head?_ne
      obtain ⟨op, ops, hopsEq⟩ := List.exists_cons_of_length_eq_add_one hops
      obtain ⟨list, lists, hlistsEq⟩ := List.exists_cons_of_length_eq_add_one hlists
      rw [runsAsWritten_cons (by decide) (searchToken_close hopsEq hlistsEq) hatoms, hatoms,
        openVariable_cons hvar hrest.head?_ne]
      rw [hopsEq, List.length_cons, Nat.add_right_cancel_iff] at hops
      rw [hlistsEq, List.length_cons, Nat.add_right_cancel_iff] at hlists
      exact ih hops hlists
  | @connected depth con rest hcon hrest ih =>
      have hvar : isVar con = false := by
        rcases hcon with rfl | rfl <;> exact isVar_fixed _ (by simp [fixedTokens])
      have hkey : con ∈ keywords := by rcases hcon with rfl | rfl <;> decide
      have hstep : searchToken answers st con = some { st with opNow := con } := by
        rcases hcon with rfl | rfl <;> rfl
      have hatoms := @atomsOf_cons con rest hrest.head?_ne
      rw [runsAsWritten_cons hkey hstep hatoms, hatoms, openVariable_cons hvar hrest.head?_ne]
      exact ih hops hlists
  | @openVar depth var hvar =>
      rw [runsAsWritten_open hvar (.inl rfl)]
      simp [atomsOf, openVariable, hvar]
  | @openEquals depth var hvar =>
      rw [runsAsWritten_open hvar (.inr rfl)]
      simp [atomsOf, openVariable]
  -- an atom is a lookup, if its variable has an index
  | @atom depth var value rest hvar hvalue hnotvar hrest ih =>
      have hne : value ≠ ['=', '='] := fun heq =>
        not_mem_fixedTokens_of_isValue hvalue (by simp [heq, fixedTokens])
      have hequals : isVar ['=', '='] = false := isVar_fixed _ (by simp [fixedTokens])
      have hopen : openVariable (var :: ['=', '='] :: value :: rest) = openVariable rest := calc
        openVariable (var :: ['=', '='] :: value :: rest) =
            openVariable (['=', '='] :: value :: rest) := rfl
        _ = openVariable (value :: rest) := openVariable_cons hequals (by simpa using hne)
        _ = openVariable rest := openVariable_cons hnotvar hrest.head?_ne
      have hatoms :
          atomsOf (var :: ['=', '='] :: value :: rest) = (var, value) :: atomsOf rest := by
        rw [atomsOf, if_pos rfl]
      rw [hopen, hatoms]
      by_cases hindexed : Indexed var
      · obtain ⟨type, wait, hwait, hruns⟩ :=
          @exists_runsAsWritten_atom answers st var value rest hindexed hvalue
        have hnext : ∀ request,
            RunsAsWritten answers (afterAtom answers st type wait request) rest ↔
            (∀ atom ∈ atomsOf rest, Plain atom.1 atom.2) ∧
              ∀ var, openVariable rest = some var → ¬ Indexed var → wait = 0 ∧ atomsOf rest = [] :=
          fun request => ih hops hlists
        rw [hruns, List.forall_mem_cons, ← denotes_atomRequest_iff]
        simp only [hnext, hwait, false_and, reduceCtorEq, and_false]
        tauto
      -- without an index no lookup is as written
      · refine iff_of_false ?_ fun h => hindexed (h.1 _ List.mem_cons_self).indexed
        rintro ⟨-, hlookups⟩
        rw [hatoms] at hlookups
        obtain ⟨request, requests, hdenotes, -, -⟩ := List.forall₂_cons_left_iff.mp hlookups
        exact hindexed hdenotes.indexed

end Runs

/-- **An accepted query is evaluated as it is written** exactly if its atoms are plain and no
other variable stands at its end where a value has been awaited. -/
theorem evaluatedAsWritten_iff (answers : ℕ → Request → List Answer)
    (originExpression : List Char) (haccepted : inputExpression originExpression = some true) :
    EvaluatedAsWritten answers (splitExpression originExpression) ↔
      (∀ atom ∈ atomsOf (splitExpression originExpression), Plain atom.1 atom.2) ∧
        ∀ var, openVariable (splitExpression originExpression) = some var → ¬ Indexed var →
          atomsOf (splitExpression originExpression) = [] := by
  obtain ⟨⟨-, last, hscan⟩, hodd⟩ := (inputExpression_iff originExpression).mp haccepted
  unfold Odd at hodd
  rw [Bool.not_eq_true] at hodd
  have hgoesOn : GoesOn 0 (splitExpression originExpression) := expects_of_scan hscan hodd
  have hruns := @runsAsWritten_iff answers _ _ hgoesOn .start rfl rfl
  have hstart : SearchState.start.waitForValue = 0 := rfl
  simp only [hstart, true_and] at hruns
  rw [← hruns, EvaluatedAsWritten, RunsAsWritten, searchExpression, Option.isSome_map]

theorem evaluatedAsWritten_iff_portAndPrefix :
    EvaluatedAsWritten (fun _ _ => [])
      (splitExpression "srcport == 80 && (srcip == 10.1.0.0/16)".toList) := by
  have hsplit : splitExpression "srcport == 80 && (srcip == 10.1.0.0/16)".toList =
      [srcportVar, ['=', '='], "80".toList, ['&', '&'], ['('], srcipVar, ['=', '='],
        "10.1.0.0/16".toList, [')']] := by
    decide +kernel
  have hport : PlainPort "80".toList :=
    ⟨[], "80".toList, [], 80, ⟨.inl rfl, forall_mem_of_all (by decide), by decide,
      .inr ⟨rfl, rfl⟩, by simp [numeral]⟩, by decide, by decide⟩
  have hnumeral : ∀ digits ∈ ["10".toList, "1".toList, "0".toList, "16".toList],
      IsNumeral digits := by
    intro digits hdigits
    simp only [List.mem_cons, List.not_mem_nil, or_false] at hdigits
    rcases hdigits with rfl | rfl | rfl | rfl <;>
      exact isNumeral_of_all (by decide) (by decide)
  have hplain : PlainAddress "10.1.0.0/16".toList := by
    refine ⟨["10".toList, "1".toList, "0".toList, "0".toList], [10, 1, 0, 0],
      by decide +kernel, .inr ⟨"10.1.0.0".toList, "16".toList, by decide,
        ⟨rfl, ?_, by decide, by decide⟩, hnumeral _ (by simp), by decide, by decide, by decide⟩⟩
    intro part hpart
    apply hnumeral
    simp only [List.mem_cons, List.not_mem_nil, or_false] at hpart ⊢
    tauto
  refine (evaluatedAsWritten_iff _ _ (by decide +kernel)).mpr ?_
  rw [hsplit]
  constructor
  · intro atom hatom
    have hatoms : atom ∈ [(srcportVar, "80".toList), (srcipVar, "10.1.0.0/16".toList)] := hatom
    rcases List.mem_cons.mp hatoms with rfl | hatoms
    · exact .inl ⟨rfl, hport⟩
    · obtain rfl := List.mem_singleton.mp hatoms
      exact .inr ⟨rfl, hplain⟩
  · intro var hopen
    exact absurd hopen.symm (Option.some_ne_none _)

/-- A prefix of no bits is undefined, a number above 65535 loses its upper bits, and an
atom of another variable is passed over. -/
theorem query_misread :
    (inputExpression "srcip == 1.2.3.4/0".toList = some true ∧ ∀ answers,
      searchExpression answers (splitExpression "srcip == 1.2.3.4/0".toList) = none) ∧
    (inputExpression "srcport == 65616".toList = some true ∧ ∀ answers,
      lookups answers .start (splitExpression "srcport == 65616".toList) =
        [.index ⟨.srcport, [80, 0]⟩]) ∧
    inputExpression "srcprt == 80".toList = some true ∧ ∀ answers,
      lookups answers .start (splitExpression "srcprt == 80".toList) = [] ∧
        ¬ EvaluatedAsWritten answers (splitExpression "srcprt == 80".toList) := by
  have haddress : splitExpression "srcip == 1.2.3.4/0".toList =
      [srcipVar, ['=', '='], "1.2.3.4/0".toList] := by
    decide +kernel
  have hport : splitExpression "srcport == 65616".toList =
      [srcportVar, ['=', '='], "65616".toList] := by
    decide +kernel
  have hother : splitExpression "srcprt == 80".toList =
      ["srcprt".toList, ['=', '='], "80".toList] := by
    decide +kernel
  refine ⟨⟨by decide +kernel, fun answers => ?_⟩, ⟨by decide +kernel, fun answers => ?_⟩,
    by decide +kernel, fun answers => ?_⟩
  · rw [haddress]
    rfl
  · rw [hport]
    rfl
  · rw [hother]
    refine ⟨rfl, fun h => ?_⟩
    have hnone : lookups answers .start ["srcprt".toList, ['=', '='], "80".toList] = [] := rfl
    have hlookups := h.2
    rw [hnone] at hlookups
    cases hlookups

end Query

end TrafficDatabase
