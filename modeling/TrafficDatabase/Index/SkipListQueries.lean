import TrafficDatabase.Index.SequentialInsert

/-!
# Queries on a skip list

`findByKey` and `findByRange` go down the levels to the last node before the first key
and collect the values behind it; `writeNode` writes the records of the lowest level and
frees its nodes.  All three go along the levels as the insertions have left them, sorted
by key, so the order is right and no record is left out or met twice.

The values are collected in a list of 32-bit numbers, and keys are compared as values of
their type, which does not see the bytes between the ports and the addresses of the 40-byte
key.  `multimap_iff` says when these two make a difference.
-/

namespace TrafficDatabase.SkipList

namespace State

variable {Call : Type} [DecidableEq Call] (cfg : SkipListConfig) (st : State Call)

/-- The `while` loop on one level; `none` also if it is not over after `turns` turns. -/
def searchWhile (key : List UInt8) (level : ℕ) : ℕ → Pointer Call → Option (Pointer Call)
  | 0, _ => none
  | turns + 1, curr =>
      match st.getNext curr level with
      | none => none
      | some none => some curr
      | some (some ref) =>
          if compareNodeKey cfg.keyLen (st.key ref) key < 0 then
            searchWhile key level turns (some ref)
          else some curr

/-- The loop over the levels, from the one below `level` on. -/
def searchLevels (key : List UInt8) (turns : ℕ) : ℕ → Pointer Call → Option (Pointer Call)
  | 0, curr => some curr
  | level + 1, curr =>
      match st.searchWhile cfg key level turns curr with
      | none => none
      | some last => searchLevels key turns level last

/-- The loop over the nodes of the lowest level: those before `key` are skipped, and the
first one that `stop` holds of ends it.  The list `res` has numbers of 32 bits. -/
def collectValues (key : List UInt8) (stop : List UInt8 → Bool) :
    ℕ → Pointer Call → List ℕ → Option (List ℕ)
  | _, none, res => some res
  | 0, some _, _ => none
  | turns + 1, some ref, res =>
      if compareNodeKey cfg.keyLen (st.key ref) key < 0 then
        match st.getNext (some ref) 0 with
        | none => none
        | some next => collectValues key stop turns next res
      else if stop (st.key ref) then some res
      else
        match st.getNext (some ref) 0 with
        | none => none
        | some next => collectValues key stop turns next (res ++ [st.value ref % 2 ^ 32])

/-- What the two functions share. -/
def findFrom (turns : ℕ) (key : List UInt8) (stop : List UInt8 → Bool) : Option (List ℕ) :=
  match st.searchLevels cfg key turns st.nowLevel (some .head) with
  | none => none
  | some curr =>
      match st.getNext curr 0 with
      | none => none
      | some beginNode => st.collectValues cfg key stop turns beginNode []

def findByKey (turns : ℕ) (key : List UInt8) : Option (List ℕ) :=
  if key.length ≠ cfg.keyLen then some []
  else st.findFrom cfg turns key fun nodeKey => compareNodeKey cfg.keyLen nodeKey key > 0

def findByRange (turns : ℕ) (beginKey endKey : List UInt8) : Option (List ℕ) :=
  if beginKey.length ≠ cfg.keyLen ∨ endKey.length ≠ cfg.keyLen then some []
  else st.findFrom cfg turns beginKey fun nodeKey => compareNodeKey cfg.keyLen nodeKey endKey ≥ 0

/-- The node is freed; it has no pointers to read any more. -/
def deleteNode (ref : NodeRef Call) : State Call :=
  { st with level := Function.update st.level ref 0 }

/-- `deleteNode(last_node)`, which spares the head. -/
def deleteLast (last : NodeRef Call) : State Call :=
  if last = .head then st else st.deleteNode last

/-- The loop of `writeNode`, with the calls of `writeBlock` as positions and bytes.  More
than the eight bytes of a value are not there to be written. -/
def writeNodes (valueLen diskPos : ℕ) : ℕ → State Call → NodeRef Call → Pointer Call → ℕ →
    List (ℕ × List UInt8) → Option (List (ℕ × List UInt8) × State Call)
  | _, st, last, none, _, written => some (written, st.deleteLast last)
  | 0, _, _, some _, _, _ => none
  | turns + 1, st, last, some ref, offset, written =>
      let st := st.deleteLast last
      if valueLen > 8 then none
      else
        match st.getNext (some ref) 0 with
        | none => none
        | some next =>
            writeNodes valueLen diskPos turns st ref next (offset + cfg.keyLen + valueLen)
              (written ++ [((diskPos + offset) % 2 ^ 64, st.key ref),
                ((diskPos + (offset + cfg.keyLen)) % 2 ^ 64,
                  (toLittleEndian 8 (st.value ref)).take valueLen)])

def writeNode (turns valueLen diskPos : ℕ) : Option (List (ℕ × List UInt8) × State Call) :=
  match st.getNext (some .head) 0 with
  | none => none
  | some first => writeNodes cfg valueLen diskPos turns st .head first 0 []

/-! ## The levels -/

/-- The levels of a list nobody is inserting to. -/
structure Settled (nodes : ℕ → List (NodeRef Call)) : Prop where
  links : ∀ level, LinksTo (st.next level) .head (nodes level)
  reaches : ∀ level, ∀ ref ∈ nodes level, level < st.level ref
  head_level : st.level .head = cfg.maxLevel
  below : ∀ level, ∀ ref ∈ nodes level, ref ∈ nodes 0 ∧ ∀ i ≤ level, ref ∈ nodes i
  length_le : ∀ level, (nodes level).length ≤ (nodes 0).length
  sorted : (nodes 0).Pairwise fun first second =>
    fieldsOf cfg.keyLen (st.key first) ≤ fieldsOf cfg.keyLen (st.key second)
  nowLevel_le : st.nowLevel ≤ cfg.maxLevel

variable {cfg st} {nodes : ℕ → List (NodeRef Call)} {key : List UInt8} {ref : NodeRef Call}
  {behind : List (NodeRef Call)} {turns level : ℕ}

omit [DecidableEq Call] in
theorem getNext_some (hlevel : level < st.level ref) :
    st.getNext (some ref) level = some (st.next level ref) := by
  rw [getNext, Option.bind_some, if_pos hlevel]

omit [DecidableEq Call] in
/-- The loop on a level stops at its first node or behind one with a smaller key. -/
theorem searchWhile_eq (hlinks : LinksTo (st.next level) ref behind)
    (hlevels : ∀ x ∈ ref :: behind, level < st.level x) (hturns : behind.length < turns) :
    ∃ last, st.searchWhile cfg key level turns (some ref) = some (some last) ∧
      (last = ref ∨ last ∈ behind ∧
        fieldsOf cfg.keyLen (st.key last) < fieldsOf cfg.keyLen key) := by
  induction behind generalizing ref turns with
  | nil =>
      obtain ⟨turns, rfl⟩ := Nat.exists_eq_succ_of_ne_zero (Nat.ne_of_gt hturns)
      have hend : st.next level ref = none := hlinks
      refine ⟨ref, ?_, .inl rfl⟩
      rw [searchWhile, getNext_some (hlevels ref List.mem_cons_self), hend]
  | cons node rest ih =>
      obtain ⟨turns, rfl⟩ := Nat.exists_eq_succ_of_ne_zero (Nat.ne_of_gt (Nat.zero_lt_of_lt hturns))
      rw [searchWhile, getNext_some (hlevels ref List.mem_cons_self), hlinks.1]
      simp only
      split_ifs with hless
      · obtain ⟨last, hsearch, hlast⟩ := @ih node turns hlinks.2
          (fun x hx => hlevels x (List.mem_cons_of_mem _ hx)) (Nat.lt_of_succ_lt_succ hturns)
        refine ⟨last, hsearch, .inr ?_⟩
        rcases hlast with rfl | ⟨hmem, hlt⟩
        · exact ⟨List.mem_cons_self, (compareNodeKey_neg_iff ..).mp hless⟩
        · exact ⟨List.mem_cons_of_mem _ hmem, hlt⟩
      · exact ⟨ref, rfl, .inl rfl⟩

namespace Settled

/-- The node is the head, or on all levels below one with a key before the one searched
for. -/
def Before (cfg : SkipListConfig) (st : State Call) (nodes : ℕ → List (NodeRef Call))
    (key : List UInt8) (top : ℕ) (ref : NodeRef Call) : Prop :=
  ref = .head ∨ ref ∈ nodes 0 ∧ (∀ i < top, ref ∈ nodes i) ∧
    fieldsOf cfg.keyLen (st.key ref) < fieldsOf cfg.keyLen key

omit [DecidableEq Call] in
/-- What comes behind a node of a level. -/
theorem exists_behind (h : st.Settled cfg nodes) (hmem : ref = .head ∨ ref ∈ nodes level) :
    ∃ behind, LinksTo (st.next level) ref behind ∧
      ∃ front, .head :: nodes level = front ++ ref :: behind := by
  rcases hmem with rfl | hmem
  · exact ⟨nodes level, h.links level, [], rfl⟩
  · obtain ⟨front, behind, heq⟩ := List.append_of_mem hmem
    refine ⟨behind, LinksTo.of_append (heq ▸ h.links level), .head :: front, ?_⟩
    rw [heq, List.cons_append]

omit [DecidableEq Call] in
theorem searchLevels_eq (h : st.Settled cfg nodes) (hturns : (nodes 0).length < turns) {top : ℕ}
    (htop : top ≤ cfg.maxLevel) (hbefore : Before cfg st nodes key top ref) :
    ∃ last, st.searchLevels cfg key turns top (some ref) = some (some last) ∧
      Before cfg st nodes key 0 last := by
  induction top generalizing ref with
  | zero => exact ⟨ref, rfl, hbefore⟩
  | succ level ih =>
      have hmem : ref = .head ∨ ref ∈ nodes level :=
        hbefore.imp_right fun hnode => hnode.2.1 level (Nat.lt_succ_self level)
      obtain ⟨behind, hlinks, front, hfront⟩ := h.exists_behind hmem
      have hall : ∀ x ∈ ref :: behind, x = .head ∨ x ∈ nodes level := fun x hx =>
        List.mem_cons.mp (hfront ▸ List.mem_append_right front hx)
      have hlevels : ∀ x ∈ ref :: behind, level < st.level x := by
        intro x hx
        rcases hall x hx with rfl | hx
        · rw [h.head_level]
          exact htop
        · exact h.reaches level x hx
      have hlength : behind.length < turns := by
        have hle := congrArg List.length hfront
        have := h.length_le level
        simp only [List.length_cons, List.length_append] at hle
        omega
      obtain ⟨last, hwhile, hlast⟩ := searchWhile_eq hlinks hlevels hlength
      rw [searchLevels, hwhile]
      apply ih (Nat.le_of_succ_le htop)
      rcases hlast with rfl | ⟨hmem, hlt⟩
      · exact hbefore.imp_right fun hnode =>
          ⟨hnode.1, fun i hi => hnode.2.1 i (Nat.lt_succ_of_lt hi), hnode.2.2⟩
      · rcases hall last (List.mem_cons_of_mem _ hmem) with rfl | hnode
        · exact .inl rfl
        · have hbelow := h.below level last hnode
          exact .inr ⟨hbelow.1, fun i hi => hbelow.2 i hi.le, hlt⟩

end Settled

/-! ## The values -/

/-- A key is one the queries collect the values of. -/
def wantedKey (cfg : SkipListConfig) (key : List UInt8) (stop : List UInt8 → Bool)
    (nodeKey : List UInt8) : Bool :=
  decide (fieldsOf cfg.keyLen key ≤ fieldsOf cfg.keyLen nodeKey) && !stop nodeKey

variable {stop : List UInt8 → Bool} {start : NodeRef Call}

omit [DecidableEq Call] in
theorem collectValues_eq
    (hstop : ∀ first second, fieldsOf cfg.keyLen first ≤ fieldsOf cfg.keyLen second →
      stop first = true → stop second = true)
    (hlinks : LinksTo (st.next 0) start behind) (hlevels : ∀ x ∈ behind, 0 < st.level x)
    (hsorted : behind.Pairwise fun first second =>
      fieldsOf cfg.keyLen (st.key first) ≤ fieldsOf cfg.keyLen (st.key second))
    (hturns : behind.length ≤ turns) (res : List ℕ) :
    st.collectValues cfg key stop turns (st.next 0 start) res =
      some (res ++ (behind.filter fun x => wantedKey cfg key stop (st.key x)).map
        fun x => st.value x % 2 ^ 32) := by
  induction behind generalizing start turns res with
  | nil =>
      have hend : st.next 0 start = none := hlinks
      rw [hend]
      cases turns <;> simp [collectValues]
  | cons node rest ih =>
      obtain ⟨turns, rfl⟩ := Nat.exists_eq_succ_of_ne_zero (Nat.ne_of_gt
        (Nat.lt_of_lt_of_le (Nat.succ_pos rest.length) hturns))
      have hget := getNext_some (hlevels node List.mem_cons_self)
      have hrest := fun res => ih hlinks.2 (fun x hx => hlevels x (List.mem_cons_of_mem _ hx))
        (List.pairwise_cons.mp hsorted).2 (Nat.le_of_succ_le_succ hturns) res
      rw [hlinks.1, collectValues]
      simp only [hget]
      by_cases hless : compareNodeKey cfg.keyLen (st.key node) key < 0
      · have hnot : wantedKey cfg key stop (st.key node) = false := by
          rw [wantedKey, decide_eq_false (not_le.mpr ((compareNodeKey_neg_iff ..).mp hless)),
            Bool.false_and]
        rw [if_pos hless, hrest, List.filter_cons, hnot, if_neg Bool.false_ne_true]
      · have hle : fieldsOf cfg.keyLen key ≤ fieldsOf cfg.keyLen (st.key node) :=
          not_lt.mp fun hlt => hless ((compareNodeKey_neg_iff ..).mpr hlt)
        rw [if_neg hless]
        cases hends : stop (st.key node) with
        | true =>
            -- the nodes behind have keys that are not smaller
            have hnone :
                (node :: rest).filter (fun x => wantedKey cfg key stop (st.key x)) = [] := by
              rw [List.filter_eq_nil_iff]
              intro x hx
              have hends' : stop (st.key x) = true := by
                rcases List.mem_cons.mp hx with rfl | hx
                · exact hends
                · exact hstop _ _ ((List.pairwise_cons.mp hsorted).1 x hx) hends
              simp [wantedKey, hends']
            rw [if_pos rfl, hnone, List.map_nil, List.append_nil]
        | false =>
            have hwanted : wantedKey cfg key stop (st.key node) = true := by
              rw [wantedKey, hends, decide_eq_true hle]
              rfl
            rw [if_neg Bool.false_ne_true, hrest, List.filter_cons, if_pos hwanted, List.map_cons,
              List.append_assoc, List.singleton_append]

omit [DecidableEq Call] in
/-- A query collects the values of the keys from the first one on that do not stop it. -/
theorem Settled.findFrom_eq (h : st.Settled cfg nodes) (hmax : 0 < cfg.maxLevel)
    (hturns : (nodes 0).length < turns)
    (hstop : ∀ first second, fieldsOf cfg.keyLen first ≤ fieldsOf cfg.keyLen second →
      stop first = true → stop second = true) :
    st.findFrom cfg turns key stop =
      some (((nodes 0).filter fun x => wantedKey cfg key stop (st.key x)).map
        fun x => st.value x % 2 ^ 32) := by
  obtain ⟨last, hsearch, hbefore⟩ := h.searchLevels_eq hturns h.nowLevel_le (.inl rfl)
  obtain ⟨behind, hlinks, front, hfront⟩ :=
    h.exists_behind (hbefore.imp_right fun hnode => hnode.1)
  have hsuffix : behind.length ≤ (nodes 0).length := by
    have hle := congrArg List.length hfront
    simp only [List.length_cons, List.length_append] at hle
    omega
  have hlevel : 0 < st.level last := by
    rcases hbefore with rfl | hnode
    · rw [h.head_level]
      exact hmax
    · exact h.reaches 0 last hnode.1
  -- nothing that is wanted is in front
  have hnodes : ∃ before, nodes 0 = before ++ behind ∧
      ∀ x ∈ before, wantedKey cfg key stop (st.key x) = false := by
    cases front with
    | nil =>
        obtain ⟨-, hrest⟩ := List.cons.inj hfront
        exact ⟨[], hrest, by simp⟩
    | cons first front =>
        obtain ⟨-, hrest⟩ := List.cons.inj hfront
        refine ⟨front ++ [last], by rw [hrest, List.append_assoc]; rfl, fun x hx => ?_⟩
        have hnode : last ∈ nodes 0 ∧
            fieldsOf cfg.keyLen (st.key last) < fieldsOf cfg.keyLen key := by
          rcases hbefore with rfl | hnode
          · have hmem : NodeRef.head ∈ nodes 0 := by
              rw [hrest]
              exact List.mem_append_right front List.mem_cons_self
            exact absurd hmem (List.nodup_cons.mp (h.links 0).nodup).1
          · exact ⟨hnode.1, hnode.2.2⟩
        have hle : fieldsOf cfg.keyLen (st.key x) ≤ fieldsOf cfg.keyLen (st.key last) := by
          rcases List.mem_append.mp hx with hx | hx
          · have hsorted := h.sorted
            rw [hrest] at hsorted
            exact (List.pairwise_append.mp hsorted).2.2 x hx last List.mem_cons_self
          · rw [List.mem_singleton.mp hx]
        rw [wantedKey, decide_eq_false (not_le.mpr (hle.trans_lt hnode.2)), Bool.false_and]
  obtain ⟨before, hsplit, hnone⟩ := hnodes
  have hfilter : before.filter (fun x => wantedKey cfg key stop (st.key x)) = [] :=
    List.filter_eq_nil_iff.mpr fun x hx => by simp [hnone x hx]
  have hbehind : behind.Pairwise fun first second =>
      fieldsOf cfg.keyLen (st.key first) ≤ fieldsOf cfg.keyLen (st.key second) := by
    have hsorted := h.sorted
    rw [hsplit] at hsorted
    exact (List.pairwise_append.mp hsorted).2.1
  have hcollect := @collectValues_eq _ cfg st key behind turns stop last hstop hlinks
    (fun x hx => h.reaches 0 x (hsplit ▸ List.mem_append_right before hx)) hbehind
    (hsuffix.trans hturns.le) []
  rw [findFrom, hsearch]
  simp only [getNext_some hlevel]
  rw [hcollect, hsplit, List.filter_append, hfilter, List.nil_append, List.nil_append]

/-! ## The records -/

section Records

variable {last : NodeRef Call}

@[simp] theorem deleteLast_next (last : NodeRef Call) : (st.deleteLast last).next = st.next := by
  unfold deleteLast
  split_ifs <;> rfl

@[simp] theorem deleteLast_key (last : NodeRef Call) : (st.deleteLast last).key = st.key := by
  unfold deleteLast
  split_ifs <;> rfl

@[simp] theorem deleteLast_value (last : NodeRef Call) :
    (st.deleteLast last).value = st.value := by
  unfold deleteLast
  split_ifs <;> rfl

theorem deleteLast_level_of_ne (hne : ref ≠ last) :
    (st.deleteLast last).level ref = st.level ref := by
  unfold deleteLast
  split_ifs
  · rfl
  · exact Function.update_of_ne hne 0 st.level

/-- The blocks of records that are written one behind the other. -/
def recordBlocks (keyLen valueLen diskPos : ℕ) : ℕ → List (List UInt8 × ℕ) →
    List (ℕ × List UInt8)
  | _, [] => []
  | offset, (key, value) :: rest =>
      [((diskPos + offset) % 2 ^ 64, key),
        ((diskPos + (offset + keyLen)) % 2 ^ 64, toLittleEndian valueLen value)] ++
        recordBlocks keyLen valueLen diskPos (offset + keyLen + valueLen) rest

/-- A node is freed when the one behind it has been read, so the way is there to its end. -/
theorem writeNodes_eq {valueLen : ℕ} (hvalueLen : valueLen ≤ 8)
    (hlinks : LinksTo (st.next 0) last behind) (hlevels : ∀ x ∈ behind, 0 < st.level x)
    (hturns : behind.length ≤ turns) (diskPos offset : ℕ) (written : List (ℕ × List UInt8)) :
    ∃ after, writeNodes cfg valueLen diskPos turns st last (st.next 0 last) offset written =
      some (written ++ recordBlocks cfg.keyLen valueLen diskPos offset
        (behind.map fun x => (st.key x, st.value x)), after) := by
  induction behind generalizing st last turns offset written with
  | nil =>
      have hend : st.next 0 last = none := hlinks
      rw [hend]
      cases turns <;> simp [writeNodes, recordBlocks]
  | cons node rest ih =>
      obtain ⟨turns, rfl⟩ := Nat.exists_eq_succ_of_ne_zero (Nat.ne_of_gt
        (Nat.lt_of_lt_of_le (Nat.succ_pos rest.length) hturns))
      have hnotlast : ∀ x ∈ node :: rest, (st.deleteLast last).level x = st.level x := by
        intro x hx
        apply deleteLast_level_of_ne
        rintro rfl
        exact (List.nodup_cons.mp hlinks.nodup).1 hx
      have hlevels' : ∀ x ∈ node :: rest, 0 < (st.deleteLast last).level x := by
        intro x hx
        rw [hnotlast x hx]
        exact hlevels x hx
      have hget := getNext_some (hlevels' node List.mem_cons_self)
      have hrest : LinksTo ((st.deleteLast last).next 0) node rest := by
        rw [deleteLast_next]
        exact hlinks.2
      obtain ⟨after, hafter⟩ := ih hrest (fun x hx => hlevels' x (List.mem_cons_of_mem _ hx))
        (Nat.le_of_succ_le_succ hturns) (offset + cfg.keyLen + valueLen)
        (written ++ [((diskPos + offset) % 2 ^ 64, st.key node),
          ((diskPos + (offset + cfg.keyLen)) % 2 ^ 64,
            (toLittleEndian 8 (st.value node)).take valueLen)])
      refine ⟨after, ?_⟩
      rw [hlinks.1, writeNodes]
      simp only [hget, if_neg (Nat.not_lt.mpr hvalueLen), deleteLast_key, deleteLast_value]
      rw [hafter]
      simp [recordBlocks, take_toLittleEndian hvalueLen]

end Records

end State

/-! ## Insertions and queries -/

section Multimap

open State

variable {cfg : SkipListConfig} {inserted : List (Insertion cfg.maxLevel)}
  {st : State (Fin inserted.length)}

/-- The state of a list after these calls of `insert`, one behind the other. -/
def InsertedAll (cfg : SkipListConfig) (inserted : List (Insertion cfg.maxLevel))
    (st : State (Fin inserted.length)) : Prop :=
  Inserted inserted.get (List.finRange inserted.length) st

/-- The nodes of the lowest level are the insertions. -/
theorem exists_settled (h : InsertedAll cfg inserted st)
    (hkeys : ∀ insertion ∈ inserted, insertion.key.length = cfg.keyLen) :
    ∃ nodes, st.Settled cfg nodes ∧ (nodes 0).length = inserted.length ∧
      ∃ records : List (Insertion cfg.maxLevel), records.Perm inserted ∧
        (nodes 0).map (fun ref => (st.key ref, st.value ref)) =
          records.map fun insertion => (insertion.key, insertion.value) := by
  have hinv := inv_of_reachable h.reachable
  have hreturned : ∀ call, (st.thread call).stage = .returned := fun call => by
    rw [h.stage, if_pos (List.mem_finRange call)]
  have hlength : ∀ call, (inserted.get call).key.length = cfg.keyLen := fun call =>
    hkeys _ (List.get_mem ..)
  have hcreated : ∀ call, st.Created inserted.get call := by
    intro call
    have hknown := hinv.threads call
    simp only [ThreadInv, hreturned call] at hknown
    exact hknown (hlength call)
  choose nodes hlinks hnodup hsorted hmem using level_of_returned hinv hreturned
  -- the nodes of a level are on all levels below it
  have hbelow : ∀ level, ∀ ref ∈ nodes level, ∀ i ≤ level, ref ∈ nodes i := by
    intro level ref href i hi
    obtain ⟨call, rfl, hkey, hlt⟩ := (hmem level ref).mp href
    exact (hmem i _).mpr ⟨call, rfl, hkey, Nat.lt_of_le_of_lt hi hlt⟩
  -- the lowest level has the node of every call once
  have hperm : ((List.finRange inserted.length).map NodeRef.node).Perm (nodes 0) := by
    refine (List.perm_ext_iff_of_nodup ?_ (hnodup 0)).mpr fun ref => ?_
    · exact (List.nodup_finRange _).map fun _ _ => NodeRef.node.inj
    · rw [hmem, List.mem_map]
      constructor
      · rintro ⟨call, -, rfl⟩
        exact ⟨call, rfl, hlength call, (inserted.get call).newLevel_pos⟩
      · rintro ⟨call, rfl, -⟩
        exact ⟨call, List.mem_finRange call, rfl⟩
  refine ⟨nodes, ⟨hlinks, ?_, hinv.head_level, ?_, ?_, ?_, hinv.nowLevel_le⟩, ?_, ?_⟩
  · intro level ref href
    obtain ⟨call, rfl, -, hlt⟩ := (hmem level ref).mp href
    rw [(hcreated call).level]
    exact hlt
  · exact fun level ref href =>
      ⟨hbelow level ref href 0 (Nat.zero_le level), hbelow level ref href⟩
  · intro level
    have hsub : nodes level ⊆ nodes 0 := fun ref href => hbelow level ref href 0 (Nat.zero_le level)
    exact ((hnodup level).subperm hsub).length_le
  · exact (hsorted 0).imp fun hle => (compareNodeKey_nonpos_iff ..).mp hle
  · rw [← hperm.length_eq, List.length_map, List.length_finRange]
  · -- every node of the level is that of a call
    have hcalls : ∀ rest : List (NodeRef (Fin inserted.length)), rest ⊆ nodes 0 →
        ∃ made : List (Fin inserted.length), rest = made.map NodeRef.node := by
      intro rest hrest
      induction rest with
      | nil => exact ⟨[], rfl⟩
      | cons ref rest ih =>
          obtain ⟨made, rfl⟩ := ih fun x hx => hrest (List.mem_cons_of_mem _ hx)
          obtain ⟨call, rfl, -⟩ := (hmem 0 ref).mp (hrest List.mem_cons_self)
          exact ⟨call :: made, rfl⟩
    obtain ⟨made, hmade⟩ := hcalls (nodes 0) (List.Subset.refl _)
    refine ⟨made.map inserted.get, ?_, ?_⟩
    · have hmadeperm : (List.finRange inserted.length).Perm made := by
        rw [hmade] at hperm
        exact (List.map_perm_map_iff fun _ _ => NodeRef.node.inj).mp hperm
      have hget := hmadeperm.symm.map inserted.get
      rwa [List.map_get_finRange] at hget
    · rw [hmade, List.map_map, List.map_map]
      refine List.map_congr_left fun call _ => ?_
      exact Prod.ext (hcreated call).key (hcreated call).value

/-- `findByKey` returns the values inserted under the key, in some order. -/
def FindsKey (inserted : List (Insertion cfg.maxLevel)) (st : State (Fin inserted.length))
    (turns : ℕ) (key : List UInt8) : Prop :=
  ∃ found, st.findByKey cfg turns key = some found ∧
    found.Perm ((inserted.filter fun insertion => insertion.key = key).map Insertion.value)

/-- The insertions are in the order of their keys. -/
def Ascending (records : List (Insertion cfg.maxLevel)) : Prop :=
  records.Pairwise fun first second =>
    fieldsOf cfg.keyLen first.key ≤ fieldsOf cfg.keyLen second.key

/-- `findByRange` returns the values of the keys from the one on and before the other. -/
def FindsRange (inserted : List (Insertion cfg.maxLevel)) (st : State (Fin inserted.length))
    (turns : ℕ) (beginKey endKey : List UInt8) : Prop :=
  ∃ found : List (Insertion cfg.maxLevel),
    st.findByRange cfg turns beginKey endKey = some (found.map Insertion.value) ∧
    found.Perm (inserted.filter fun insertion =>
      fieldsOf cfg.keyLen beginKey ≤ fieldsOf cfg.keyLen insertion.key ∧
        fieldsOf cfg.keyLen insertion.key < fieldsOf cfg.keyLen endKey) ∧
    Ascending found

/-- `writeNode` writes every record, with its whole value. -/
def WritesAll (inserted : List (Insertion cfg.maxLevel)) (st : State (Fin inserted.length))
    (turns valueLen diskPos : ℕ) : Prop :=
  ∃ records : List (Insertion cfg.maxLevel),
    (∃ after, st.writeNode cfg turns valueLen diskPos =
      some (recordBlocks cfg.keyLen valueLen diskPos 0
        (records.map fun insertion => (insertion.key, insertion.value)), after)) ∧
    records.Perm inserted ∧ Ascending records ∧
    ∀ insertion ∈ records,
      ofLittleEndian (toLittleEndian valueLen insertion.value) = insertion.value

variable {nodes : ℕ → List (NodeRef (Fin inserted.length))}
  {records : List (Insertion cfg.maxLevel)} {turns : ℕ}

/-- The records of the nodes, where some of the keys are chosen. -/
theorem map_filter_records
    (hrecords : (nodes 0).map (fun ref => (st.key ref, st.value ref)) =
      records.map fun insertion => (insertion.key, insertion.value))
    (wanted : List UInt8 → Bool) (narrow : ℕ → ℕ) :
    ((nodes 0).filter fun ref => wanted (st.key ref)).map (fun ref => narrow (st.value ref)) =
      (records.filter fun insertion => wanted insertion.key).map
        fun insertion => narrow insertion.value := by
  have h := congrArg
    (fun pairs => (pairs.filter fun pair => wanted pair.1).map fun pair => narrow pair.2) hrecords
  simpa only [List.filter_map, List.map_map, Function.comp_def] using h

theorem ascending_records (h : st.Settled cfg nodes)
    (hrecords : (nodes 0).map (fun ref => (st.key ref, st.value ref)) =
      records.map fun insertion => (insertion.key, insertion.value)) : Ascending records := by
  have hpairs : ((nodes 0).map fun ref => (st.key ref, st.value ref)).Pairwise
      fun first second => fieldsOf cfg.keyLen first.1 ≤ fieldsOf cfg.keyLen second.1 :=
    List.pairwise_map.mpr h.sorted
  rw [hrecords, List.pairwise_map] at hpairs
  exact hpairs

theorem compareNodeKey_pos_iff (keyLen : ℕ) (nodeKey key : List UInt8) :
    compareNodeKey keyLen nodeKey key > 0 ↔ fieldsOf keyLen key < fieldsOf keyLen nodeKey := by
  rw [gt_iff_lt, ← not_le, compareNodeKey_nonpos_iff, not_le]

theorem compareNodeKey_nonneg_iff (keyLen : ℕ) (nodeKey key : List UInt8) :
    compareNodeKey keyLen nodeKey key ≥ 0 ↔ fieldsOf keyLen key ≤ fieldsOf keyLen nodeKey := by
  rw [ge_iff_le, ← not_lt, compareNodeKey_neg_iff, not_lt]

theorem findByKey_eq (h : st.Settled cfg nodes) (hmax : 0 < cfg.maxLevel)
    (hturns : (nodes 0).length < turns)
    (hrecords : (nodes 0).map (fun ref => (st.key ref, st.value ref)) =
      records.map fun insertion => (insertion.key, insertion.value))
    {key : List UInt8} (hkey : key.length = cfg.keyLen) :
    st.findByKey cfg turns key = some ((records.filter fun insertion =>
      fieldsOf cfg.keyLen insertion.key = fieldsOf cfg.keyLen key).map
        fun insertion => insertion.value % 2 ^ 32) := by
  rw [findByKey, if_neg (not_not_intro hkey), h.findFrom_eq hmax hturns]
  · rw [map_filter_records hrecords _ (· % 2 ^ 32)]
    congr 3
    funext insertion
    simp only [wantedKey, compareNodeKey_pos_iff, ← decide_not, ← Bool.decide_and, not_lt]
    exact decide_eq_decide.mpr (le_antisymm_iff.trans and_comm).symm
  · intro first second hle hstop
    simp only [compareNodeKey_pos_iff, decide_eq_true_eq] at hstop ⊢
    exact hstop.trans_le hle

theorem findByRange_eq (h : st.Settled cfg nodes) (hmax : 0 < cfg.maxLevel)
    (hturns : (nodes 0).length < turns)
    (hrecords : (nodes 0).map (fun ref => (st.key ref, st.value ref)) =
      records.map fun insertion => (insertion.key, insertion.value))
    {beginKey endKey : List UInt8} (hbegin : beginKey.length = cfg.keyLen)
    (hend : endKey.length = cfg.keyLen) :
    st.findByRange cfg turns beginKey endKey = some ((records.filter fun insertion =>
      fieldsOf cfg.keyLen beginKey ≤ fieldsOf cfg.keyLen insertion.key ∧
        fieldsOf cfg.keyLen insertion.key < fieldsOf cfg.keyLen endKey).map
          fun insertion => insertion.value % 2 ^ 32) := by
  rw [findByRange, if_neg (by simp [hbegin, hend]), h.findFrom_eq hmax hturns]
  · rw [map_filter_records hrecords _ (· % 2 ^ 32)]
    congr 3
    funext insertion
    simp only [wantedKey, compareNodeKey_nonneg_iff, ← decide_not, ← Bool.decide_and, not_le]
  · intro first second hle hstop
    simp only [compareNodeKey_nonneg_iff, decide_eq_true_eq] at hstop ⊢
    exact hstop.trans hle

/-- Without a level there is no pointer to read. -/
theorem findFrom_noLevel (h : st.Settled cfg nodes) (hmax : ¬ 0 < cfg.maxLevel)
    (key : List UInt8) (stop : List UInt8 → Bool) : st.findFrom cfg turns key stop = none := by
  have hzero : cfg.maxLevel = 0 := Nat.eq_zero_of_not_pos hmax
  have hnow : st.nowLevel = 0 := Nat.eq_zero_of_le_zero (hzero ▸ h.nowLevel_le)
  have hget : st.getNext (some .head) 0 = none := by
    rw [getNext, Option.bind_some, h.head_level, if_neg hmax]
  rw [findFrom, hnow, searchLevels]
  simp only [hget]

theorem findsKey_iff (h : st.Settled cfg nodes) (hturns : (nodes 0).length < turns)
    (hperm : records.Perm inserted)
    (hrecords : (nodes 0).map (fun ref => (st.key ref, st.value ref)) =
      records.map fun insertion => (insertion.key, insertion.value))
    {key : List UInt8} (hkey : key.length = cfg.keyLen) :
    FindsKey inserted st turns key ↔ 0 < cfg.maxLevel ∧ ∀ insertion ∈ inserted,
      fieldsOf cfg.keyLen insertion.key = fieldsOf cfg.keyLen key →
        insertion.key = key ∧ insertion.value < 2 ^ 32 := by
  -- the insertions under the key are some of those with its fields
  have hsub : inserted.filter (fun insertion => insertion.key = key) =
      (inserted.filter fun insertion =>
        fieldsOf cfg.keyLen insertion.key = fieldsOf cfg.keyLen key).filter
          fun insertion => insertion.key = key := by
    rw [List.filter_filter]
    refine List.filter_congr fun insertion _ => ?_
    rw [← Bool.decide_and]
    refine decide_eq_decide.mpr ⟨fun heq => ⟨heq, ?_⟩, fun hboth => hboth.1⟩
    rw [heq]
  constructor
  · rintro ⟨found, hfound, hvalues⟩
    have hmax : 0 < cfg.maxLevel := by
      by_contra hnot
      rw [findByKey, if_neg (not_not_intro hkey), findFrom_noLevel h hnot] at hfound
      exact Option.some_ne_none _ hfound.symm
    rw [findByKey_eq h hmax hturns hrecords hkey] at hfound
    obtain rfl := Option.some.inj hfound
    have hsame := hperm.filter fun insertion =>
      decide (fieldsOf cfg.keyLen insertion.key = fieldsOf cfg.keyLen key)
    have hcount := hvalues.length_eq
    rw [List.length_map, List.length_map, hsame.length_eq, hsub] at hcount
    have hall := List.length_filter_eq_length_iff.mp hcount.symm
    refine ⟨hmax, fun insertion hmem hfields => ?_⟩
    have hbytes : insertion.key = key := by
      have := hall insertion (List.mem_filter.mpr ⟨hmem, decide_eq_true hfields⟩)
      exact of_decide_eq_true this
    refine ⟨hbytes, ?_⟩
    have hvalue : insertion.value ∈ (inserted.filter fun insertion => insertion.key = key).map
        Insertion.value :=
      List.mem_map_of_mem (List.mem_filter.mpr ⟨hmem, decide_eq_true hbytes⟩)
    obtain ⟨other, -, hother⟩ := List.mem_map.mp (hvalues.mem_iff.mpr hvalue)
    rw [← hother]
    exact Nat.mod_lt _ (Nat.two_pow_pos 32)
  · rintro ⟨hmax, hkept⟩
    refine ⟨_, findByKey_eq h hmax hturns hrecords hkey, ?_⟩
    have hsame : inserted.filter (fun insertion => insertion.key = key) =
        inserted.filter fun insertion =>
          fieldsOf cfg.keyLen insertion.key = fieldsOf cfg.keyLen key := by
      refine List.filter_congr fun insertion hmem =>
        decide_eq_decide.mpr ⟨fun heq => ?_, fun hfields => ?_⟩
      · rw [heq]
      · exact (hkept insertion hmem hfields).1
    have hnarrow : (inserted.filter fun insertion =>
        fieldsOf cfg.keyLen insertion.key = fieldsOf cfg.keyLen key).map
          (fun insertion => insertion.value % 2 ^ 32) =
        (inserted.filter fun insertion =>
          fieldsOf cfg.keyLen insertion.key = fieldsOf cfg.keyLen key).map Insertion.value := by
      refine List.map_congr_left fun insertion hmem => Nat.mod_eq_of_lt ?_
      obtain ⟨hmem, hfields⟩ := List.mem_filter.mp hmem
      exact (hkept insertion hmem (of_decide_eq_true hfields)).2
    rw [hsame, ← hnarrow]
    exact (hperm.filter _).map _

theorem findsRange_iff (h : st.Settled cfg nodes) (hturns : (nodes 0).length < turns)
    (hperm : records.Perm inserted)
    (hrecords : (nodes 0).map (fun ref => (st.key ref, st.value ref)) =
      records.map fun insertion => (insertion.key, insertion.value))
    {beginKey endKey : List UInt8} (hbegin : beginKey.length = cfg.keyLen)
    (hend : endKey.length = cfg.keyLen) :
    FindsRange inserted st turns beginKey endKey ↔ 0 < cfg.maxLevel ∧ ∀ insertion ∈ inserted,
      fieldsOf cfg.keyLen beginKey ≤ fieldsOf cfg.keyLen insertion.key →
        fieldsOf cfg.keyLen insertion.key < fieldsOf cfg.keyLen endKey →
          insertion.value < 2 ^ 32 := by
  constructor
  · rintro ⟨found, hfound, hvalues, -⟩
    have hmax : 0 < cfg.maxLevel := by
      by_contra hnot
      rw [findByRange, if_neg (by simp [hbegin, hend]), findFrom_noLevel h hnot] at hfound
      exact Option.some_ne_none _ hfound.symm
    rw [findByRange_eq h hmax hturns hrecords hbegin hend] at hfound
    refine ⟨hmax, fun insertion hmem hle hlt => ?_⟩
    have hin : insertion ∈ found :=
      hvalues.mem_iff.mpr (List.mem_filter.mpr ⟨hmem, decide_eq_true ⟨hle, hlt⟩⟩)
    have hvalue : insertion.value ∈ found.map Insertion.value := List.mem_map_of_mem hin
    rw [← Option.some.inj hfound] at hvalue
    obtain ⟨other, -, hother⟩ := List.mem_map.mp hvalue
    rw [← hother]
    exact Nat.mod_lt _ (Nat.two_pow_pos 32)
  · rintro ⟨hmax, hkept⟩
    refine ⟨_, ?_, hperm.filter _, (ascending_records h hrecords).filter _⟩
    rw [findByRange_eq h hmax hturns hrecords hbegin hend]
    refine congrArg some (List.map_congr_left fun insertion hmem => Nat.mod_eq_of_lt ?_)
    obtain ⟨hmem, hrange⟩ := List.mem_filter.mp hmem
    have hboth := of_decide_eq_true hrange
    exact hkept insertion (hperm.mem_iff.mp hmem) hboth.1 hboth.2

theorem writeNode_eq (h : st.Settled cfg nodes) (hmax : 0 < cfg.maxLevel)
    (hturns : (nodes 0).length < turns) {valueLen : ℕ} (hvalueLen : valueLen ≤ 8)
    (hrecords : (nodes 0).map (fun ref => (st.key ref, st.value ref)) =
      records.map fun insertion => (insertion.key, insertion.value)) (diskPos : ℕ) :
    ∃ after, st.writeNode cfg turns valueLen diskPos =
      some (recordBlocks cfg.keyLen valueLen diskPos 0
        (records.map fun insertion => (insertion.key, insertion.value)), after) := by
  obtain ⟨after, hwrite⟩ := @writeNodes_eq _ _ cfg st (nodes 0) turns .head valueLen hvalueLen
    (h.links 0) (h.reaches 0) hturns.le diskPos 0 []
  have hhead : 0 < st.level .head := h.head_level.symm ▸ hmax
  refine ⟨after, ?_⟩
  rw [writeNode, getNext_some hhead]
  simp only
  rw [hwrite, hrecords, List.nil_append]

/-- More bytes than a value has are not there for the first record. -/
theorem writeNode_wide (h : st.Settled cfg nodes) (hnodes : nodes 0 ≠ []) {valueLen : ℕ}
    (hvalueLen : 8 < valueLen) (diskPos : ℕ) :
    st.writeNode cfg turns valueLen diskPos = none := by
  have hlinks := h.links 0
  cases hlist : nodes 0 with
  | nil => exact absurd hlist hnodes
  | cons node rest =>
      rw [hlist] at hlinks
      unfold writeNode
      cases hget : st.getNext (some .head) 0 with
      | none => rfl
      | some first =>
          rw [getNext, Option.bind_some] at hget
          split_ifs at hget
          obtain rfl : some node = first := hlinks.1.symm.trans (Option.some.inj hget)
          cases turns with
          | zero => rfl
          | succ turns => simp only [writeNodes, if_pos hvalueLen]

theorem writesAll_iff (h : st.Settled cfg nodes) (hturns : (nodes 0).length < turns)
    (hperm : records.Perm inserted)
    (hrecords : (nodes 0).map (fun ref => (st.key ref, st.value ref)) =
      records.map fun insertion => (insertion.key, insertion.value)) (valueLen diskPos : ℕ) :
    WritesAll inserted st turns valueLen diskPos ↔ 0 < cfg.maxLevel ∧ (inserted = [] ∨
      valueLen ≤ 8 ∧ ∀ insertion ∈ inserted, insertion.value < 256 ^ valueLen) := by
  have hempty : nodes 0 = [] ↔ inserted = [] := by
    rw [← List.map_eq_nil_iff, hrecords, List.map_eq_nil_iff, ← List.length_eq_zero_iff,
      hperm.length_eq, List.length_eq_zero_iff]
  constructor
  · rintro ⟨written, ⟨after, hwrite⟩, hwritten, -, hvalues⟩
    have hmax : 0 < cfg.maxLevel := by
      by_contra hnot
      rw [writeNode, getNext, Option.bind_some, h.head_level, if_neg hnot] at hwrite
      exact Option.some_ne_none _ hwrite.symm
    refine ⟨hmax, ?_⟩
    by_cases hnone : inserted = []
    · exact .inl hnone
    · refine .inr ⟨?_, fun insertion hmem => ?_⟩
      · by_contra hwide
        rw [writeNode_wide h (mt hempty.mp hnone) (not_le.mp hwide)] at hwrite
        exact Option.some_ne_none _ hwrite.symm
      · have hvalue := hvalues insertion (hwritten.mem_iff.mpr hmem)
        rw [ofLittleEndian_toLittleEndian] at hvalue
        rw [← hvalue]
        exact Nat.mod_lt _ (Nat.pow_pos (by decide))
  · rintro ⟨hmax, hkept⟩
    by_cases hnone : inserted = []
    · have hnodes := hempty.mpr hnone
      refine ⟨[], ⟨st, ?_⟩, by rw [hnone], List.Pairwise.nil, by simp⟩
      have hend : st.next 0 .head = none := by
        have hlinks := h.links 0
        rwa [hnodes] at hlinks
      have hhead : 0 < st.level .head := h.head_level.symm ▸ hmax
      rw [writeNode, getNext_some hhead, hend]
      cases turns <;> rfl
    · obtain ⟨hvalueLen, hvalues⟩ := hkept.resolve_left hnone
      refine ⟨records, writeNode_eq h hmax hturns hvalueLen hrecords diskPos, hperm,
        ascending_records h hrecords, fun insertion hmem => ?_⟩
      exact ofLittleEndian_toLittleEndian_of_lt (hvalues insertion (hperm.mem_iff.mp hmem))

/-- After any insertions, whatever their heights, the queries return what was inserted and
`writeNode` writes it, but for values that are cut to 32 bits or to the bytes of a record,
and for keys that differ only where `compareNodeKey` does not look. -/
theorem multimap_iff (cfg : SkipListConfig) (inserted : List (Insertion cfg.maxLevel))
    (hkeys : ∀ insertion ∈ inserted, insertion.key.length = cfg.keyLen) :
    (∃ st, InsertedAll cfg inserted st) ∧
    ∀ st, InsertedAll cfg inserted st → ∀ turns, inserted.length < turns →
      (∀ key : List UInt8, key.length = cfg.keyLen →
        (FindsKey inserted st turns key ↔ 0 < cfg.maxLevel ∧ ∀ insertion ∈ inserted,
          fieldsOf cfg.keyLen insertion.key = fieldsOf cfg.keyLen key →
            insertion.key = key ∧ insertion.value < 2 ^ 32)) ∧
      (∀ beginKey endKey : List UInt8, beginKey.length = cfg.keyLen →
        endKey.length = cfg.keyLen →
        (FindsRange inserted st turns beginKey endKey ↔
          0 < cfg.maxLevel ∧ ∀ insertion ∈ inserted,
            fieldsOf cfg.keyLen beginKey ≤ fieldsOf cfg.keyLen insertion.key →
              fieldsOf cfg.keyLen insertion.key < fieldsOf cfg.keyLen endKey →
                insertion.value < 2 ^ 32)) ∧
      ∀ valueLen diskPos,
        (WritesAll inserted st turns valueLen diskPos ↔ 0 < cfg.maxLevel ∧ (inserted = [] ∨
          valueLen ≤ 8 ∧ ∀ insertion ∈ inserted, insertion.value < 256 ^ valueLen)) := by
  constructor
  · obtain ⟨st, hst, -⟩ := exists_inserted inserted.get (List.nodup_finRange inserted.length)
    exact ⟨st, hst⟩
  · intro st hst turns hturns
    obtain ⟨nodes, h, hlength, records, hperm, hrecords⟩ := exists_settled hst hkeys
    have hturns' : (nodes 0).length < turns := hlength.symm ▸ hturns
    exact ⟨fun key hkey => findsKey_iff h hturns' hperm hrecords hkey,
      fun beginKey endKey hbegin hend => findsRange_iff h hturns' hperm hrecords hbegin hend,
      fun valueLen diskPos => writesAll_iff h hturns' hperm hrecords valueLen diskPos⟩

/-- An insertion into some levels above the lowest one. -/
def portInsertion (key : List UInt8) (value above : ℕ) : Insertion portList.maxLevel :=
  ⟨key, value, above % 3 + 1, Nat.succ_pos _, Nat.mod_lt above (Nat.succ_pos 2)⟩

/-- Two packets of one port and one of another. -/
def portInserts : List (Insertion portList.maxLevel) :=
  [portInsertion [5, 0] 10 2, portInsertion [3, 0] 11 0, portInsertion [5, 0] 12 1]

theorem multimap_iff_portInserts : ∃ st, InsertedAll portList portInserts st ∧
    FindsKey portInserts st 4 [5, 0] ∧ FindsRange portInserts st 4 [0, 0] [5, 0] ∧
      WritesAll portInserts st 4 8 0 := by
  have hports := multimap_iff portList portInserts (by decide)
  obtain ⟨⟨st, hst⟩, hqueries⟩ := hports
  obtain ⟨hkey, hrange, hwrite⟩ := hqueries st hst 4 (by decide)
  exact ⟨st, hst, (hkey [5, 0] rfl).mpr (by decide), (hrange [0, 0] [5, 0] rfl rfl).mpr (by decide),
    (hwrite 8 0).mpr (by decide)⟩

/-- A file offset of 4 GiB and more does not come back. -/
def farOffset : List (Insertion portList.maxLevel) :=
  [portInsertion [5, 0] (2 ^ 32) 0]

theorem value_narrowed : ∃ st, InsertedAll portList farOffset st ∧
    st.findByKey portList 2 [5, 0] = some [0] ∧ ¬ FindsKey farOffset st 2 [5, 0] := by
  obtain ⟨st, hst, -⟩ := exists_inserted farOffset.get (List.nodup_finRange farOffset.length)
  obtain ⟨nodes, h, hlength, records, hperm, hrecords⟩ :=
    @exists_settled portList farOffset st hst (by decide)
  have hturns : (nodes 0).length < 2 := by
    rw [hlength]
    decide
  have hone : records = farOffset := List.perm_singleton.mp hperm
  refine ⟨st, hst, ?_, fun hfinds => ?_⟩
  · rw [findByKey_eq h (by decide) hturns hrecords rfl, hone]
    decide
  · have hkept := ((findsKey_iff h hturns hperm hrecords rfl).mp hfinds).2
    exact absurd (hkept _ List.mem_cons_self rfl).2 (Nat.lt_irrefl _)

end Multimap

end TrafficDatabase.SkipList
