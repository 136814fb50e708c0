import TrafficDatabase.Query.Search

/-!
# Query evaluation as algebra of sets

`searchToken` keeps, over the tokens of an operand, the list of the operand
combined into the current one (`Reading.exists_foldlM`); so `searchExpression`
returns the list of the whole reading, `Reading.list`.  With an empty list for a
silent operand, that is the value of the reading wherever the reading is balanced;
where it is not, pointers can be chosen that make the difference visible.
-/

namespace TrafficDatabase

namespace Query

/-! ## Lists of answers -/

theorem mem_sorted {p : ℕ} {pointers : List ℕ} : p ∈ sorted pointers ↔ p ∈ pointers :=
  List.mem_insertionSort _

theorem pairwise_sorted (pointers : List ℕ) : (sorted pointers).Pairwise (· ≤ ·) :=
  List.pairwise_insertionSort _ _

theorem count_sorted (p : ℕ) (pointers : List ℕ) : (sorted pointers).count p = pointers.count p :=
  (List.perm_insertionSort _ pointers).count_eq p

/-- **Intersection and union of pointers** are sorted and keep each of them as often as the
smaller and the greater of its two numbers says. -/
theorem pointers_merged (la lb : List ℕ) :
    ((intersectPointers la lb).Pairwise (· ≤ ·) ∧
        ∀ p, (intersectPointers la lb).count p = min (la.count p) (lb.count p)) ∧
      (joinPointers la lb).Pairwise (· ≤ ·) ∧
        ∀ p, (joinPointers la lb).count p = max (la.count p) (lb.count p) := by
  have hla := pairwise_sorted la
  have hlb := pairwise_sorted lb
  refine ⟨⟨hla.sublist (SortedMerge.intersect_sublist _ _), fun p => ?_⟩,
    SortedMerge.pairwise_join hla hlb, fun p => ?_⟩
  · rw [intersectPointers, SortedMerge.count_intersect hla hlb, count_sorted, count_sorted]
  · rw [joinPointers, SortedMerge.count_join hla hlb, count_sorted, count_sorted]

example : intersectPointers [5, 2, 5, 9] [5, 9, 9, 5, 5] = [5, 5, 9] ∧
    joinPointers [5, 2, 5, 9] [5, 9, 9, 5, 5] = [2, 5, 5, 5, 9, 9] := by decide

namespace Connector

/-- What the connector does with the pointers of a block. -/
def onPointers : Connector → List ℕ → List ℕ → List ℕ
  | and => intersectPointers
  | or => joinPointers

theorem mem_onPointers (con : Connector) {p : ℕ} {la lb : List ℕ} :
    p ∈ con.onPointers la lb ↔ p ∈ con.onSets { q | q ∈ la } { q | q ∈ lb } := by
  cases con with
  | and =>
      unfold onPointers onSets intersectPointers
      rw [SortedMerge.mem_intersect (pairwise_sorted la) (pairwise_sorted lb), mem_sorted,
        mem_sorted]
      exact Iff.rfl
  | or =>
      unfold onPointers onSets joinPointers
      rw [SortedMerge.mem_join, mem_sorted, mem_sorted]
      exact Iff.rfl

theorem combine_token (con : Connector) : combine con.token = mergeAnswers con.onPointers := by
  cases con with
  | and => rfl
  | or => rfl

end Connector

theorem combine_or_nil (list : List Answer) : combine ['|', '|'] [] list = list := by
  simp [combine, join, mergeAnswers]

section Merge

variable {op : List ℕ → List ℕ → List ℕ} {la lb : List Answer}

theorem mergeAnswers_nil_left : mergeAnswers op [] lb = lb := if_pos rfl

theorem mergeAnswers_nil_right : mergeAnswers op la [] = la := by
  unfold mergeAnswers
  by_cases h : la = []
  · rw [if_pos h, h]
  · rw [if_neg h, if_pos rfl]

theorem map_blockId_zipAnswers (op : List ℕ → List ℕ → List ℕ) (la lb : List Answer) :
    (zipAnswers op la lb).map Answer.blockId = la.map Answer.blockId := by
  induction la generalizing lb with
  | nil => cases lb <;> rfl
  | cons a la ih =>
      cases lb with
      | nil => rfl
      | cons b lb =>
          unfold zipAnswers
          split_ifs with h
          · rfl
          · rw [List.map_cons, List.map_cons, ih]

theorem pointerSet_zipAnswers (con : Connector)
    (h : la.map Answer.blockId = lb.map Answer.blockId) (i : ℕ) :
    pointerSet (zipAnswers con.onPointers la lb) i =
      con.onSets (pointerSet la i) (pointerSet lb i) := by
  induction la generalizing lb i with
  | nil =>
      obtain rfl : lb = [] := List.map_eq_nil_iff.mp h.symm
      cases con <;> simp [zipAnswers, pointerSet, pointersAt, Connector.onSets]
  | cons a la ih =>
      cases lb with
      | nil => simp at h
      | cons b lb =>
          obtain ⟨hid, hrest⟩ := List.cons.inj h
          unfold zipAnswers
          rw [if_neg (not_not.mpr hid)]
          cases i with
          | zero => exact Set.ext fun _ => con.mem_onPointers
          | succ i => exact ih hrest i

/-- Both lists are there and about the same blocks. -/
theorem mergeAnswers_eq_zipAnswers {blocks : List ℕ} (hblocks : blocks ≠ [])
    (hla : la.map Answer.blockId = blocks) (hlb : lb.map Answer.blockId = blocks) :
    mergeAnswers op la lb = zipAnswers op la lb := by
  have hla' : la ≠ [] := fun heq => hblocks (by rw [← hla, heq, List.map_nil])
  have hlb' : lb ≠ [] := fun heq => hblocks (by rw [← hlb, heq, List.map_nil])
  unfold mergeAnswers
  rw [if_neg hla', if_neg hlb']

end Merge

/-! ## The evaluator over a reading -/

theorem isValue_vars : ∀ s ∈ [srcipVar, dstipVar, srcportVar, dstportVar], isValue s = false := by
  decide +kernel

section Run

variable {answers : ℕ → Request → List Answer} {st : SearchState}

theorem searchToken_value {s : Token} (h : isValue s = true) (hwait : st.waitForValue ≠ 0) :
    searchToken answers st s = searchValue answers st s := by
  have hfixed := not_mem_fixedTokens_of_isValue h
  simp only [fixedTokens, List.mem_cons, List.not_mem_nil, or_false, not_or] at hfixed
  have hvars : s ∉ [srcipVar, dstipVar, srcportVar, dstportVar] := fun hmem =>
    Bool.false_ne_true ((isValue_vars s hmem).symm.trans h)
  simp only [List.mem_cons, List.not_mem_nil, or_false, not_or] at hvars
  simp [searchToken, hfixed, hvars, hwait]

/-- What the tokens of an operand leave unchanged, and what they make of the answers. -/
structure Evaluates (answers : ℕ → Request → List Answer) (st : SearchState) (level : Level)
    (list : List Answer) (size : ℕ) (next : SearchState) : Prop where
  beforeLists : next.beforeLists = st.beforeLists
  ops : next.ops = st.ops
  calls : next.calls = st.calls + size
  leftList : next.leftList = combine st.opNow st.leftList list
  opNow : level = .operand → next.opNow = st.opNow

theorem exists_foldlM_atom {var value : Token} (hvalue : isValue value = true) {request : Request}
    (hrequest : atomRequest var value = some request) (st : SearchState) :
    ∃ next, [var, ['=', '='], value].foldlM (searchToken answers) st = some next ∧
      Evaluates answers st .operand (answers st.calls request) 1 next := by
  have hvar : ∃ type wait, wait ≠ 0 ∧
      searchToken answers st var = some { st with cachePos := type, waitForValue := wait } ∧
      (if wait = 2 then portRequest type value else addressRequest type value) = some request := by
    unfold atomRequest at hrequest
    split_ifs at hrequest with hsrcip hdstip hsrcport hdstport
    · exact ⟨.srcip, 1, by omega, by rw [hsrcip]; rfl, hrequest⟩
    · exact ⟨.dstip, 1, by omega, by rw [hdstip]; rfl, hrequest⟩
    · exact ⟨.srcport, 2, by omega, by rw [hsrcport]; rfl, hrequest⟩
    · exact ⟨.dstport, 2, by omega, by rw [hdstport]; rfl, hrequest⟩
  obtain ⟨type, wait, hwait, hstep, hkey⟩ := hvar
  have hequals : ∀ st : SearchState, searchToken answers st ['=', '='] = some st := fun _ => rfl
  refine ⟨{ st with
    cachePos := type
    waitForValue := wait
    leftList := combine st.opNow st.leftList (answers st.calls request)
    calls := st.calls + 1 }, ?_, rfl, rfl, rfl, rfl, fun _ => rfl⟩
  simp only [List.foldlM_cons, List.foldlM_nil, hstep, hequals, Option.bind_eq_bind,
    Option.bind_some]
  rw [searchToken_value hvalue hwait]
  simp only [searchValue, hkey, Option.map_some, Option.bind_some]
  rfl

/-- The tokens of an operand combine its list into the current one; those of an
expression, where it starts, make its list the current one. -/
theorem Reading.exists_foldlM {level : Level} (q : Reading level) (hsearch : q.Searchable)
    (st : SearchState)
    (hst : level = .expression → st.opNow = ['|', '|'] ∧ st.leftList = []) :
    ∃ next, q.tokens.foldlM (searchToken answers) st = some next ∧
      Evaluates answers st level (q.list answers st.calls) q.size next := by
  induction q generalizing st with
  | atom var value hvar hvalue =>
      obtain ⟨request, hrequest⟩ := Option.isSome_iff_exists.mp hsearch
      have hlist : (Reading.atom var value hvar hvalue).list answers st.calls =
          answers st.calls request := by
        unfold Reading.list
        rw [hrequest]
        rfl
      rw [hlist]
      exact exists_foldlM_atom hvalue hrequest st
  | group inner ih =>
      obtain ⟨next, hrun, h⟩ := ih hsearch
        { st with
          ops := st.opNow :: st.ops
          opNow := ['|', '|']
          beforeLists := st.leftList :: st.beforeLists
          leftList := [] } fun _ => ⟨rfl, rfl⟩
      -- the opening parenthesis puts operator and list aside, the closing one takes them back
      have hops := h.ops
      have hbefore := h.beforeLists
      have hleft := h.leftList
      simp only at hops hbefore hleft
      rw [combine_or_nil] at hleft
      refine ⟨{ next with
        ops := st.ops
        opNow := st.opNow
        beforeLists := st.beforeLists
        leftList := combine st.opNow st.leftList next.leftList }, ?_, rfl, rfl, h.calls,
        congrArg (combine st.opNow st.leftList) hleft, fun _ => rfl⟩
      · unfold Reading.tokens
        have hopen : searchToken answers st ['('] = some { st with
          ops := st.opNow :: st.ops
          opNow := ['|', '|']
          beforeLists := st.leftList :: st.beforeLists
          leftList := [] } := rfl
        have hclose : searchToken answers next [')'] = some { next with
            ops := st.ops
            opNow := st.opNow
            beforeLists := st.beforeLists
            leftList := combine st.opNow st.leftList next.leftList } := by
          unfold searchToken
          rw [hops, hbefore]
          rfl
        simp only [List.cons_append, List.foldlM_cons, List.foldlM_append, List.foldlM_nil, hopen,
          Option.bind_eq_bind, Option.bind_some, hrun, hclose]
        rfl
  | single first ih =>
      obtain ⟨next, hrun, h⟩ := ih hsearch st (fun heq => Level.noConfusion heq)
      exact ⟨next, hrun, h.beforeLists, h.ops, h.calls, h.leftList,
        fun heq => Level.noConfusion heq⟩
  | connect left con right ihLeft ihRight =>
      obtain ⟨hor, hempty⟩ := hst rfl
      -- the left operand is combined with nothing, the right one with what the left one leaves
      obtain ⟨middle, hleftRun, hleft⟩ := ihLeft hsearch.1 st fun _ => ⟨hor, hempty⟩
      obtain ⟨next, hrightRun, hright⟩ := ihRight hsearch.2 { middle with opNow := con.token }
        fun heq => Level.noConfusion heq
      have hcon : searchToken answers middle con.token =
          some { middle with opNow := con.token } := by
        cases con <;> rfl
      have hleftList := hleft.leftList
      rw [hor, hempty, combine_or_nil] at hleftList
      refine ⟨next, ?_, ?_⟩
      · unfold Reading.tokens
        rw [List.foldlM_append, hleftRun]
        simp only [Option.bind_eq_bind, Option.bind_some, List.foldlM_cons, hcon]
        exact hrightRun
      · refine ⟨hright.beforeLists.trans hleft.beforeLists, hright.ops.trans hleft.ops, ?_, ?_,
          fun heq => Level.noConfusion heq⟩
        · rw [hright.calls]
          simp only [hleft.calls, Reading.size]
          omega
        · rw [hright.leftList, hor, hempty, combine_or_nil]
          simp only [hleftList, hleft.calls, Reading.list]

theorem Reading.searchExpression_tokens {q : Reading .expression} (hsearch : q.Searchable) :
    searchExpression answers q.tokens = some (q.list answers 0) := by
  obtain ⟨next, hrun, h⟩ := q.exists_foldlM hsearch .start fun _ => ⟨rfl, rfl⟩
  unfold searchExpression
  rw [hrun, Option.map_some, h.leftList]
  exact congrArg some (combine_or_nil _)

end Run

/-! ## Lists and sets -/

/-- The lists of answers: empty where `silent` says so, and else one answer for each
of the blocks. -/
def Assigned (blocks : List ℕ) (silent : ℕ → Bool) (answers : ℕ → Request → List Answer) : Prop :=
  ∀ calls request, if silent calls = true then answers calls request = []
    else (answers calls request).map Answer.blockId = blocks

namespace Reading

variable {answers : ℕ → Request → List Answer} {silent : ℕ → Bool} {blocks : List ℕ}
  {level : Level}

/-- A reading has a value where all its atoms are looked up. -/
theorem isSome_eval (q : Reading level) (i calls : ℕ) :
    (q.eval answers i calls).isSome = true ↔ q.Searchable := by
  induction q generalizing calls with
  | atom var value => simp [eval, Searchable]
  | group inner ih => exact ih calls
  | single first ih => exact ih calls
  | connect left con right ihLeft ihRight =>
      unfold eval Searchable
      rw [← ihLeft calls, ← ihRight (calls + left.size)]
      cases left.eval answers i calls with
      | none => simp
      | some before => simp

/-- The list of a reading is empty where the reading is silent, and else about all
the blocks. -/
theorem list_assigned (h : Assigned blocks silent answers) (hblocks : blocks ≠ [])
    (q : Reading level) (hsearch : q.Searchable) (calls : ℕ) :
    (q.Silent silent calls → q.list answers calls = []) ∧
      (¬ q.Silent silent calls → (q.list answers calls).map Answer.blockId = blocks) := by
  induction q generalizing calls with
  | atom var value =>
      obtain ⟨request, hrequest⟩ := Option.isSome_iff_exists.mp hsearch
      have hcall := h calls request
      unfold list Silent
      rw [hrequest, Option.map_some, Option.getD_some]
      constructor
      · intro hsilent
        rwa [if_pos hsilent] at hcall
      · intro hsilent
        rwa [if_neg hsilent] at hcall
  | group inner ih => exact ih hsearch calls
  | single first ih => exact ih hsearch calls
  | connect left con right ihLeft ihRight =>
      obtain ⟨hleftSilent, hleftBlocks⟩ := ihLeft hsearch.1 calls
      obtain ⟨hrightSilent, hrightBlocks⟩ := ihRight hsearch.2 (calls + left.size)
      unfold list Silent
      rw [con.combine_token]
      by_cases hleft : left.Silent silent calls
      · rw [hleftSilent hleft, mergeAnswers_nil_left]
        exact ⟨fun hboth => hrightSilent hboth.2, fun hnot =>
          hrightBlocks fun hright => hnot ⟨hleft, hright⟩⟩
      · refine ⟨fun hboth => absurd hboth.1 hleft, fun _ => ?_⟩
        by_cases hright : right.Silent silent (calls + left.size)
        · rw [hrightSilent hright, mergeAnswers_nil_right]
          exact hleftBlocks hleft
        · rw [mergeAnswers_eq_zipAnswers hblocks (hleftBlocks hleft) (hrightBlocks hright),
            map_blockId_zipAnswers]
          exact hleftBlocks hleft

/-- A silent reading has no pointers. -/
theorem eval_of_silent (h : Assigned blocks silent answers) (q : Reading level) {calls i : ℕ}
    (hsilent : q.Silent silent calls) {value : Set ℕ}
    (hvalue : q.eval answers i calls = some value) : value = ∅ := by
  induction q generalizing calls value with
  | atom var token =>
      obtain ⟨request, -, rfl⟩ := Option.map_eq_some_iff.mp hvalue
      have hsilentCall : silent calls = true := hsilent
      have hcall := h calls request
      rw [if_pos hsilentCall] at hcall
      rw [hcall]
      simp [pointerSet, pointersAt]
  | group inner ih => exact ih hsilent hvalue
  | single first ih => exact ih hsilent hvalue
  | connect left con right ihLeft ihRight =>
      obtain ⟨before, hbefore, hrest⟩ := Option.bind_eq_some_iff.mp hvalue
      obtain ⟨after, hafter, rfl⟩ := Option.map_eq_some_iff.mp hrest
      rw [ihLeft hsilent.1 hbefore, ihRight hsilent.2 hafter]
      cases con <;> simp [Connector.onSets]

/-- Two joined operands: where one is silent the list is the other one's. -/
theorem list_connect (h : Assigned blocks silent answers) (hblocks : blocks ≠ [])
    {left : Reading .expression} {con : Connector} {right : Reading .operand}
    (hsearch : (connect left con right).Searchable) (calls : ℕ) :
    (left.Silent silent calls ∧
        (connect left con right).list answers calls = right.list answers (calls + left.size)) ∨
      (¬ left.Silent silent calls ∧ right.Silent silent (calls + left.size) ∧
        (connect left con right).list answers calls = left.list answers calls) ∨
      (¬ left.Silent silent calls ∧ ¬ right.Silent silent (calls + left.size) ∧
        ∀ i, pointerSet ((connect left con right).list answers calls) i =
          con.onSets (pointerSet (left.list answers calls) i)
            (pointerSet (right.list answers (calls + left.size)) i)) := by
  obtain ⟨hleftSilent, hleftBlocks⟩ := left.list_assigned h hblocks hsearch.1 calls
  obtain ⟨hrightSilent, hrightBlocks⟩ :=
    right.list_assigned h hblocks hsearch.2 (calls + left.size)
  have hconnect : (connect left con right).list answers calls = mergeAnswers con.onPointers
      (left.list answers calls) (right.list answers (calls + left.size)) := by
    rw [← con.combine_token]
    rfl
  rw [hconnect]
  by_cases hleft : left.Silent silent calls
  · left
    rw [hleftSilent hleft, mergeAnswers_nil_left]
    exact ⟨hleft, rfl⟩
  right
  by_cases hright : right.Silent silent (calls + left.size)
  · left
    rw [hrightSilent hright, mergeAnswers_nil_right]
    exact ⟨hleft, hright, rfl⟩
  · right
    refine ⟨hleft, hright, fun i => ?_⟩
    rw [mergeAnswers_eq_zipAnswers hblocks (hleftBlocks hleft) (hrightBlocks hright)]
    exact pointerSet_zipAnswers con ((hleftBlocks hleft).trans (hrightBlocks hright).symm) i

/-- The list of a balanced reading has the pointers of its value. -/
theorem pointerSet_list (h : Assigned blocks silent answers) (hblocks : blocks ≠ [])
    (q : Reading level) (hsearch : q.Searchable) {calls : ℕ} (hbalanced : q.Balanced silent calls)
    {i : ℕ} {value : Set ℕ} (hvalue : q.eval answers i calls = some value) :
    pointerSet (q.list answers calls) i = value := by
  induction q generalizing calls value with
  | atom var token =>
      obtain ⟨request, hrequest, rfl⟩ := Option.map_eq_some_iff.mp hvalue
      unfold list
      rw [hrequest]
      rfl
  | group inner ih => exact ih hsearch hbalanced hvalue
  | single first ih => exact ih hsearch hbalanced hvalue
  | connect left con right ihLeft ihRight =>
      obtain ⟨before, hbefore, hrest⟩ := Option.bind_eq_some_iff.mp hvalue
      obtain ⟨after, hafter, rfl⟩ := Option.map_eq_some_iff.mp hrest
      obtain ⟨hleftBalanced, hrightBalanced, hboth⟩ := hbalanced
      have hleft := ihLeft hsearch.1 hleftBalanced hbefore
      have hright := ihRight hsearch.2 hrightBalanced hafter
      rcases list_connect h hblocks hsearch calls with
        ⟨hsilent, hlist⟩ | ⟨hnot, hsilent, hlist⟩ | ⟨-, -, hlist⟩
      · rw [hlist, hright, left.eval_of_silent h hsilent hbefore]
        cases con with
        | and =>
            rw [right.eval_of_silent h ((hboth rfl).mp hsilent) hafter]
            exact (Set.inter_empty _).symm
        | or => exact (Set.empty_union _).symm
      · rw [hlist, hleft, right.eval_of_silent h hsilent hafter]
        cases con with
        | and => exact absurd ((hboth rfl).mpr hsilent) hnot
        | or => exact (Set.union_empty _).symm
      · rw [hlist, hleft, hright]

/-! ## Pointers that make the difference visible -/

/-- The lists where the chosen calls find the pointer 0 and the other ones nothing. -/
def chosenAnswers (blocks : List ℕ) (silent chosen : ℕ → Bool) (calls : ℕ) (_ : Request) :
    List Answer :=
  if silent calls = true then []
  else blocks.map fun blockId => ⟨blockId, if chosen calls = true then [0] else []⟩

theorem assigned_chosenAnswers (blocks : List ℕ) (silent chosen : ℕ → Bool) :
    Assigned blocks silent (chosenAnswers blocks silent chosen) := by
  intro calls request
  unfold chosenAnswers
  by_cases h : silent calls = true
  · rw [if_pos h, if_pos h]
  · rw [if_neg h, if_neg h, List.map_map]
    exact List.map_id _

section Chosen

variable {block : ℕ} {chosen : ℕ → Bool}

/-- The pointer is found where all the calls are chosen. -/
theorem zero_mem_list (q : Reading level) (hsearch : q.Searchable) {calls : ℕ}
    (hnot : ¬ q.Silent silent calls)
    (hchosen : ∀ j, calls ≤ j → j < calls + q.size → chosen j = true) :
    0 ∈ pointerSet (q.list (chosenAnswers (block :: blocks) silent chosen) calls) 0 := by
  induction q generalizing calls with
  | atom var token =>
      obtain ⟨request, hrequest⟩ := Option.isSome_iff_exists.mp hsearch
      have hcalls := hchosen calls le_rfl (Nat.lt_succ_self calls)
      have hsilent : ¬ silent calls = true := hnot
      unfold list
      rw [hrequest]
      simp [chosenAnswers, hsilent, hcalls, pointerSet, pointersAt]
  | group inner ih => exact ih hsearch hnot hchosen
  | single first ih => exact ih hsearch hnot hchosen
  | connect left con right ihLeft ihRight =>
      unfold size at hchosen
      have hleft := fun h => @ihLeft hsearch.1 calls h fun j hge hlt => hchosen j hge (by omega)
      have hright := fun h => @ihRight hsearch.2 (calls + left.size) h fun j hge hlt =>
        hchosen j (by omega) (by omega)
      rcases list_connect (assigned_chosenAnswers (block :: blocks) silent chosen)
        (List.cons_ne_nil _ _) hsearch calls with
        ⟨hsilent, hlist⟩ | ⟨hleftNot, -, hlist⟩ | ⟨hleftNot, hrightNot, hlist⟩
      · rw [hlist]
        exact hright fun h => hnot ⟨hsilent, h⟩
      · rw [hlist]
        exact hleft hleftNot
      · rw [hlist]
        cases con with
        | and => exact ⟨hleft hleftNot, hright hrightNot⟩
        | or => exact .inl (hleft hleftNot)

/-- It is not in the value where none of them is. -/
theorem zero_not_mem_eval (q : Reading level) {calls : ℕ}
    (hchosen : ∀ j, calls ≤ j → j < calls + q.size → chosen j = false) {value : Set ℕ}
    (hvalue : q.eval (chosenAnswers (block :: blocks) silent chosen) 0 calls = some value) :
    0 ∉ value := by
  induction q generalizing calls value with
  | atom var token =>
      obtain ⟨request, -, rfl⟩ := Option.map_eq_some_iff.mp hvalue
      have hcalls := hchosen calls le_rfl (Nat.lt_succ_self calls)
      by_cases hsilent : silent calls = true <;>
        simp [chosenAnswers, hsilent, hcalls, pointerSet, pointersAt]
  | group inner ih => exact ih hchosen hvalue
  | single first ih => exact ih hchosen hvalue
  | connect left con right ihLeft ihRight =>
      unfold size at hchosen
      obtain ⟨before, hbefore, hrest⟩ := Option.bind_eq_some_iff.mp hvalue
      obtain ⟨after, hafter, rfl⟩ := Option.map_eq_some_iff.mp hrest
      have hleft := ihLeft (fun j hge hlt => hchosen j hge (by omega)) hbefore
      have hright := ihRight (fun j hge hlt => hchosen j (by omega) (by omega)) hafter
      cases con with
      | and => exact fun h => hleft h.1
      | or => exact fun h => h.elim hleft hright

/-- The pointer of one operand is one of both, where the other operand of an `&&` has
it too or is silent. -/
theorem zero_mem_connect {left : Reading .expression} {con : Connector}
    {right : Reading .operand} (hsearch : (connect left con right).Searchable) {calls : ℕ}
    (h : 0 ∈ pointerSet (left.list (chosenAnswers (block :: blocks) silent chosen) calls) 0 ∧
        (con = .and → ¬ right.Silent silent (calls + left.size) → 0 ∈ pointerSet
          (right.list (chosenAnswers (block :: blocks) silent chosen) (calls + left.size)) 0) ∨
      0 ∈ pointerSet
          (right.list (chosenAnswers (block :: blocks) silent chosen) (calls + left.size)) 0 ∧
        (con = .and → ¬ left.Silent silent calls → 0 ∈ pointerSet
          (left.list (chosenAnswers (block :: blocks) silent chosen) calls) 0)) :
    0 ∈ pointerSet
      ((connect left con right).list (chosenAnswers (block :: blocks) silent chosen) calls) 0 := by
  have hassigned := assigned_chosenAnswers (block :: blocks) silent chosen
  have hnil : 0 ∉ pointerSet [] 0 := List.not_mem_nil
  rcases list_connect hassigned (List.cons_ne_nil _ _) hsearch calls with
    ⟨hsilent, hlist⟩ | ⟨-, hsilent, hlist⟩ | ⟨hleft, hright, hlist⟩
  · have hempty := (left.list_assigned hassigned (List.cons_ne_nil _ _) hsearch.1 calls).1 hsilent
    rw [hlist]
    rcases h with ⟨hmem, -⟩ | ⟨hmem, -⟩
    · rw [hempty] at hmem
      exact absurd hmem hnil
    · exact hmem
  · have hempty := (right.list_assigned hassigned (List.cons_ne_nil _ _) hsearch.2
      (calls + left.size)).1 hsilent
    rw [hlist]
    rcases h with ⟨hmem, -⟩ | ⟨hmem, -⟩
    · exact hmem
    · rw [hempty] at hmem
      exact absurd hmem hnil
  · rw [hlist]
    cases con with
    | and =>
        rcases h with ⟨hmem, hother⟩ | ⟨hmem, hother⟩
        · exact ⟨hmem, hother rfl hright⟩
        · exact ⟨hother rfl hleft, hmem⟩
    | or =>
        rcases h with ⟨hmem, -⟩ | ⟨hmem, -⟩
        · exact .inl hmem
        · exact .inr hmem

/-- What is seen of one of two joined operands is seen of both, where the other one's
calls are chosen for `&&` and not chosen for `||`. -/
theorem exists_difference (q : Reading level) (hsearch : q.Searchable) {calls : ℕ}
    (hunbalanced : ¬ q.Balanced silent calls) (base : ℕ → Bool) :
    ∃ chosen : ℕ → Bool, (∀ j, j < calls ∨ calls + q.size ≤ j → chosen j = base j) ∧
      0 ∈ pointerSet (q.list (chosenAnswers (block :: blocks) silent chosen) calls) 0 ∧
      ∀ value, q.eval (chosenAnswers (block :: blocks) silent chosen) 0 calls = some value →
        0 ∉ value := by
  induction q generalizing calls base with
  | atom var token => exact absurd trivial hunbalanced
  | group inner ih => exact ih hsearch hunbalanced base
  | single first ih => exact ih hsearch hunbalanced base
  | connect left con right ihLeft ihRight =>
      have hassigned := fun chosen => assigned_chosenAnswers (block :: blocks) silent chosen
      by_cases hleft : left.Balanced silent calls
      · by_cases hright : right.Balanced silent (calls + left.size)
        · -- one operand of this `&&` is silent: all the calls are chosen
          have hand : con = .and ∧
              ¬ (left.Silent silent calls ↔ right.Silent silent (calls + left.size)) := by
            by_contra hnot
            exact hunbalanced ⟨hleft, hright, fun hcon => by_contra fun h => hnot ⟨hcon, h⟩⟩
          obtain ⟨rfl, hone⟩ := hand
          refine ⟨fun j => if calls ≤ j ∧ j < calls + (connect left .and right).size then true
            else base j, ?_, ?_, ?_⟩
          · intro j hj
            exact if_neg (by omega)
          · refine zero_mem_list _ hsearch (fun h => hone (iff_of_true h.1 h.2)) ?_
            exact fun j hge hlt => if_pos ⟨hge, hlt⟩
          · intro value hvalue
            obtain ⟨before, hbefore, hrest⟩ := Option.bind_eq_some_iff.mp hvalue
            obtain ⟨after, hafter, rfl⟩ := Option.map_eq_some_iff.mp hrest
            by_cases hsilent : left.Silent silent calls
            · rw [left.eval_of_silent (hassigned _) hsilent hbefore]
              exact fun h => h.1
            · have hother : right.Silent silent (calls + left.size) := by
                by_contra hnot
                exact hone (iff_of_false hsilent hnot)
              rw [right.eval_of_silent (hassigned _) hother hafter]
              exact fun h => h.2
        -- the calls of the left operand are chosen so that the difference of the right one stays
        · obtain ⟨chosen, hbase, hmem, hnot⟩ := @ihRight hsearch.2 (calls + left.size) hright
            fun j => if calls ≤ j ∧ j < calls + left.size then decide (con = .and) else base j
          have hleftChosen : ∀ j, calls ≤ j → j < calls + left.size →
              chosen j = decide (con = .and) := fun j hge hlt =>
            (hbase j (.inl hlt)).trans (if_pos ⟨hge, hlt⟩)
          refine ⟨chosen, ?_, zero_mem_connect hsearch (.inr ⟨hmem, ?_⟩), ?_⟩
          · intro j hj
            unfold size at hj
            exact (hbase j (by omega)).trans (if_neg (by omega))
          · intro hcon hleftSilent
            exact left.zero_mem_list hsearch.1 hleftSilent fun j hge hlt =>
              (hleftChosen j hge hlt).trans (decide_eq_true hcon)
          · intro value hvalue
            obtain ⟨before, hbefore, hrest⟩ := Option.bind_eq_some_iff.mp hvalue
            obtain ⟨after, hafter, rfl⟩ := Option.map_eq_some_iff.mp hrest
            cases con with
            | and => exact fun h => hnot after hafter h.2
            | or =>
                exact fun h => h.elim (left.zero_not_mem_eval hleftChosen hbefore)
                  (hnot after hafter)
      -- the same with the operands exchanged
      · obtain ⟨chosen, hbase, hmem, hnot⟩ := @ihLeft hsearch.1 calls hleft
          fun j => if calls + left.size ≤ j ∧ j < calls + left.size + right.size
            then decide (con = .and) else base j
        have hrightChosen : ∀ j, calls + left.size ≤ j → j < calls + left.size + right.size →
            chosen j = decide (con = .and) := fun j hge hlt =>
          (hbase j (.inr hge)).trans (if_pos ⟨hge, hlt⟩)
        refine ⟨chosen, ?_, zero_mem_connect hsearch (.inl ⟨hmem, ?_⟩), ?_⟩
        · intro j hj
          unfold size at hj
          exact (hbase j (by omega)).trans (if_neg (by omega))
        · intro hcon hrightSilent
          exact right.zero_mem_list hsearch.2 hrightSilent fun j hge hlt =>
            (hrightChosen j hge hlt).trans (decide_eq_true hcon)
        · intro value hvalue
          obtain ⟨before, hbefore, hrest⟩ := Option.bind_eq_some_iff.mp hvalue
          obtain ⟨after, hafter, rfl⟩ := Option.map_eq_some_iff.mp hrest
          cases con with
          | and => exact fun h => hnot before hbefore h.1
          | or =>
              exact fun h => h.elim (hnot before hbefore)
                (right.zero_not_mem_eval hrightChosen hafter)

end Chosen

/-! ## Readings of derivable lists -/

theorem derivable (q : Reading level) : Derivable q.tokens := by
  induction q with
  | atom var value hvar hvalue => exact .atom hvar hvalue
  | group inner ih => exact .group ih
  | single first ih => exact ih
  | connect left con right ihLeft ihRight =>
      refine .connect ihLeft ?_ ihRight
      cases con with
      | and => exact .inl rfl
      | or => exact .inr rfl

/-- What is joined from the right can be joined from the left. -/
theorem exists_connect (left : Reading .expression) (con : Connector) (right : Reading level) :
    ∃ q : Reading .expression, q.tokens = left.tokens ++ con.token :: right.tokens := by
  induction right with
  | atom var value hvar hvalue => exact ⟨connect left con (atom var value hvar hvalue), rfl⟩
  | group inner => exact ⟨connect left con (group inner), rfl⟩
  | single first ih => exact ih
  | connect middle other last ihMiddle =>
      obtain ⟨q, hq⟩ := ihMiddle
      refine ⟨connect q other last, ?_⟩
      calc (connect q other last).tokens = q.tokens ++ other.token :: last.tokens := rfl
        _ = left.tokens ++ con.token :: (connect middle other last).tokens := by
          rw [hq, List.append_assoc, List.cons_append]
          rfl

end Reading

theorem Derivable.exists_reading {expList : List Token} (h : Derivable expList) :
    ∃ q : Reading .expression, q.tokens = expList := by
  induction h with
  | atom hvar hvalue => exact ⟨.single (.atom _ _ hvar hvalue), rfl⟩
  | @connect _ _ con _ hcon _ ihLeft ihRight =>
      obtain ⟨left, rfl⟩ := ihLeft
      obtain ⟨right, rfl⟩ := ihRight
      rcases hcon with rfl | rfl
      · exact left.exists_connect .and right
      · exact left.exists_connect .or right
  | group _ ih =>
      obtain ⟨inner, rfl⟩ := ih
      exact ⟨.single (.group inner), rfl⟩

/-! ## What is returned -/

/-- The query returns, for every block, the pointers of the reading's value. -/
def Reading.IsReturned (blocks : List ℕ) (answers : ℕ → Request → List Answer)
    (expList : List Token) (q : Reading .expression) : Prop :=
  ∃ ret, searchExpression answers expList = some ret ∧
    (ret = [] ∨ ret.map Answer.blockId = blocks) ∧
    ∀ i, q.eval answers i 0 = some (pointerSet ret i)

/-- **A query is evaluated as algebra of sets** where it does not dangle, each of its
atoms is looked up, and of no `&&` is one operand silent and the other one not;
otherwise some of the atoms' pointers come out wrong. -/
theorem searchExpression_evaluates_iff {originExpression : List Char}
    (haccepted : inputExpression originExpression = some true) (block : ℕ) (blocks : List ℕ)
    (silent : ℕ → Bool) :
    ((∃ q : Reading .expression, q.tokens = splitExpression originExpression) ↔
        ¬ Dangling (splitExpression originExpression)) ∧
      ∀ q : Reading .expression, q.tokens = splitExpression originExpression →
        ((∀ answers, Assigned (block :: blocks) silent answers →
            q.IsReturned (block :: blocks) answers (splitExpression originExpression)) ↔
          q.Searchable ∧ q.Balanced silent 0) := by
  have hloose := ((inputExpression_iff originExpression).mp haccepted).1
  constructor
  · constructor
    · rintro ⟨q, hq⟩
      exact ((derivable_iff _).mp (hq ▸ q.derivable)).2
    · intro hdangling
      exact ((derivable_iff _).mpr ⟨hloose, hdangling⟩).exists_reading
  · intro q hq
    rw [← hq]
    constructor
    · intro hreturned
      have hsearch : q.Searchable := by
        obtain ⟨ret, -, -, hvalue⟩ := hreturned _
          (Reading.assigned_chosenAnswers (block :: blocks) silent fun _ => false)
        exact (q.isSome_eval 0 0).mp (by rw [hvalue 0]; rfl)
      refine ⟨hsearch, ?_⟩
      by_contra hunbalanced
      obtain ⟨chosen, -, hmem, hnot⟩ :=
        @Reading.exists_difference silent blocks _ block q hsearch 0 hunbalanced fun _ => false
      obtain ⟨ret, hret, -, hvalue⟩ := hreturned _
        (Reading.assigned_chosenAnswers (block :: blocks) silent chosen)
      rw [Reading.searchExpression_tokens hsearch] at hret
      obtain rfl := Option.some.inj hret
      exact hnot _ (hvalue 0) hmem
    · rintro ⟨hsearch, hbalanced⟩ answers hassigned
      refine ⟨q.list answers 0, Reading.searchExpression_tokens hsearch, ?_, fun i => ?_⟩
      · obtain ⟨hsilent, hblocks⟩ :=
          q.list_assigned hassigned (List.cons_ne_nil _ _) hsearch 0
        by_cases h : q.Silent silent 0
        · exact .inl (hsilent h)
        · exact .inr (hblocks h)
      · obtain ⟨value, hvalue⟩ := Option.isSome_iff_exists.mp ((q.isSome_eval i 0).mpr hsearch)
        rw [hvalue, q.pointerSet_list hassigned (List.cons_ne_nil _ _) hsearch hbalanced hvalue]

/-- The accepted query `srcport == 80 && dstport == 443`. -/
theorem searchExpression_evaluates_iff_ports :
    ((∃ q : Reading .expression,
        q.tokens = splitExpression "srcport == 80 && dstport == 443".toList) ↔
        ¬ Dangling (splitExpression "srcport == 80 && dstport == 443".toList)) ∧
      ∀ q : Reading .expression,
        q.tokens = splitExpression "srcport == 80 && dstport == 443".toList →
        ((∀ answers, Assigned [7, 8] (fun calls => calls = 0) answers →
            q.IsReturned [7, 8] answers
              (splitExpression "srcport == 80 && dstport == 443".toList)) ↔
          q.Searchable ∧ q.Balanced (fun calls => calls = 0) 0) :=
  searchExpression_evaluates_iff (by decide +kernel) 7 [8] fun calls => calls = 0

/-- Nothing is found for the first atom and the pointer 5 for the second one: the
query returns 5 where its value is empty. -/
theorem searchExpression_returns_operand :
    ∃ (originExpression : List Char) (answers : ℕ → Request → List Answer)
      (q : Reading .expression),
      inputExpression originExpression = some true ∧
        q.tokens = splitExpression originExpression ∧
        Assigned [7] (fun calls => calls = 0) answers ∧
        searchExpression answers (splitExpression originExpression) = some [⟨7, [5]⟩] ∧
        q.eval answers 0 0 = some ∅ ∧
        ¬ q.IsReturned [7] answers (splitExpression originExpression) := by
  have hvars : isVar srcportVar = true ∧ isVar dstportVar = true := by decide +kernel
  have hvalues : isValue ['8', '0'] = true ∧ isValue ['4', '4', '3'] = true := by decide +kernel
  have hsplit : [srcportVar, ['=', '='], ['8', '0'], ['&', '&'], dstportVar, ['=', '='],
      ['4', '4', '3']] = splitExpression "srcport == 80 && dstport == 443".toList := by
    decide +kernel
  have hreturned : searchExpression (fun calls _ => if calls = 0 then [] else [⟨7, [5]⟩])
      (splitExpression "srcport == 80 && dstport == 443".toList) = some [⟨7, [5]⟩] := by
    decide +kernel
  have hports : atomRequest srcportVar ['8', '0'] = some (.index ⟨.srcport, [80, 0]⟩) ∧
      atomRequest dstportVar ['4', '4', '3'] = some (.index ⟨.dstport, [187, 1]⟩) := by
    decide +kernel
  let q : Reading .expression :=
    .connect (.single (.atom srcportVar ['8', '0'] hvars.1 hvalues.1)) .and
      (.atom dstportVar ['4', '4', '3'] hvars.2 hvalues.2)
  have hvalue : q.eval (fun calls _ => if calls = 0 then [] else [⟨7, [5]⟩]) 0 0 = some ∅ := by
    simp [q, Reading.eval, Reading.size, hports, pointerSet, pointersAt, Connector.onSets]
  refine ⟨_, _, q, by decide +kernel, hsplit, ?_, hreturned, hvalue, ?_⟩
  · intro calls request
    by_cases h : calls = 0
    · simp [h]
    · simp [h]
  · rintro ⟨ret, hret, -, heval⟩
    rw [hreturned] at hret
    obtain rfl := Option.some.inj hret
    have hsets := Option.some.inj (hvalue.symm.trans (heval 0))
    have hmem : 5 ∈ pointerSet [⟨7, [5]⟩] 0 := List.mem_singleton.mpr rfl
    rw [← hsets] at hmem
    exact hmem

end Query

end TrafficDatabase
