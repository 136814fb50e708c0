import Mathlib.Algebra.GroupWithZero.Nat
import Mathlib.Data.List.Perm.Basic
import Mathlib.Order.Defs.LinearOrder

/-!
# Lists that are worked off

Each entry of a list is to be followed along `succ` until it has no successor.  A
worklist does so for all entries at once: it visits one entry, in whatever place,
and puts its successor there instead.  However the entries are chosen and
shuffled, each chain is visited as a whole and in its order (`Visits.chains`).
-/

namespace TrafficDatabase

namespace Worklist

variable {α : Type*} {succ : α → Option α}

/-- What is visited from an entry on. -/
inductive Chain (succ : α → Option α) : α → List α → Prop
  | last {entry : α} (h : succ entry = none) : Chain succ entry [entry]
  | more {entry next : α} {rest : List α} (h : succ entry = some next)
      (tail : Chain succ next rest) : Chain succ entry (entry :: rest)

/-- The order `visited` in which a list of pending entries can be worked off. -/
inductive Visits (succ : α → Option α) : (pending visited : List α) → Prop
  | done : Visits succ [] []
  | visit {pending rest visited : List α} {entry : α} (hchoice : pending.Perm (entry :: rest))
      (tail : Visits succ ((succ entry).toList ++ rest) visited) :
      Visits succ pending (entry :: visited)

/-- A chain is one of any links that are the same on it. -/
theorem Chain.congr {other : α → Option α} {entry : α} {chain : List α} (h : Chain succ entry chain)
    (hsame : ∀ e ∈ chain, other e = succ e) : Chain other entry chain := by
  induction h with
  | last hnone => exact .last ((hsame _ List.mem_cons_self).trans hnone)
  | more hnext _ ih =>
      exact .more ((hsame _ List.mem_cons_self).trans hnext)
        (ih fun e he => hsame e (List.mem_cons_of_mem _ he))

/-- A chain of ever larger entries is in ascending order. -/
theorem Chain.pairwise_lt [Preorder α] (hlt : ∀ {entry next}, succ entry = some next → entry < next)
    {entry : α} {chain : List α} (h : Chain succ entry chain) :
    chain.Pairwise (· < ·) ∧ ∀ other ∈ chain, entry ≤ other := by
  induction h with
  | last _ =>
      refine ⟨List.pairwise_singleton _ _, fun other hmem => ?_⟩
      rw [List.mem_singleton.mp hmem]
  | more hnext _ ih =>
      have hstep := hlt hnext
      refine ⟨List.pairwise_cons.mpr ⟨fun other hmem => ?_, ih.1⟩, fun other hmem => ?_⟩
      · exact lt_of_lt_of_le hstep (ih.2 other hmem)
      · rcases List.mem_cons.mp hmem with rfl | hmem
        · exact le_rfl
        · exact le_trans (le_of_lt hstep) (ih.2 other hmem)

theorem chains_pairwise_lt [Preorder α]
    (hlt : ∀ {entry next}, succ entry = some next → entry < next) {pending : List α}
    {chains : List (List α)} (h : List.Forall₂ (Chain succ) pending chains) :
    ∀ chain ∈ chains, chain.Pairwise (· < ·) := by
  induction h with
  | nil => exact fun chain hmem => by cases hmem
  | cons hchain _ ih =>
      intro chain hmem
      rcases List.mem_cons.mp hmem with rfl | hmem
      · exact (hchain.pairwise_lt hlt).1
      · exact ih chain hmem

theorem Visits.perm {pending other visited : List α} (h : Visits succ pending visited)
    (hperm : other.Perm pending) : Visits succ other visited := by
  cases h with
  | done =>
      rw [hperm.eq_nil]
      exact .done
  | visit hchoice tail => exact .visit (hperm.trans hchoice) tail

/-- Chains for a list are chains for it in any other order. -/
theorem exists_chains_of_perm {pending other : List α} {chains : List (List α)}
    (h : List.Forall₂ (Chain succ) other chains) (hperm : pending.Perm other) :
    ∃ reordered, List.Forall₂ (Chain succ) pending reordered ∧ reordered.Perm chains := by
  obtain ⟨reordered, hforall, hchains⟩ := List.perm_comp_forall₂ hperm h
  exact ⟨reordered, hforall, hchains⟩

/-- All that is visited are the chains of the entries, each of them in its order. -/
theorem Visits.chains {pending visited : List α} (h : Visits succ pending visited) :
    ∃ chains, List.Forall₂ (Chain succ) pending chains ∧ visited.Perm chains.flatten ∧
      ∀ chain ∈ chains, chain.Sublist visited := by
  induction h with
  | done => exact ⟨[], .nil, List.Perm.nil, fun chain hmem => by cases hmem⟩
  | @visit pending rest visited entry hchoice _ ih =>
      obtain ⟨chains, hforall, hvisited, hsublists⟩ := ih
      suffices ∃ chains, List.Forall₂ (Chain succ) (entry :: rest) chains ∧
          (entry :: visited).Perm chains.flatten ∧
          ∀ chain ∈ chains, chain.Sublist (entry :: visited) by
        obtain ⟨all, hall, hperm, hsub⟩ := this
        obtain ⟨reordered, hreordered, hchains⟩ := exists_chains_of_perm hall hchoice
        exact ⟨reordered, hreordered, hperm.trans hchains.symm.flatten,
          fun chain hmem => hsub chain (hchains.mem_iff.mp hmem)⟩
      cases hnext : succ entry with
      | none =>
          rw [hnext] at hforall
          refine ⟨[entry] :: chains, .cons (.last hnext) hforall, hvisited.cons entry, ?_⟩
          intro chain hmem
          rcases List.mem_cons.mp hmem with rfl | hmem
          · exact (List.nil_sublist visited).cons_cons entry
          · exact (hsublists chain hmem).cons entry
      | some next =>
          rw [hnext] at hforall
          -- the successor's chain is the rest of the entry's
          obtain ⟨first, others, hfirst, hothers, rfl⟩ := List.forall₂_cons_left_iff.mp hforall
          refine ⟨(entry :: first) :: others, .cons (.more hnext hfirst) hothers,
            hvisited.cons entry, ?_⟩
          intro chain hmem
          rcases List.mem_cons.mp hmem with rfl | hmem
          · exact (hsublists first List.mem_cons_self).cons_cons entry
          · exact (hsublists chain (List.mem_cons_of_mem _ hmem)).cons entry

/-! ## A list that is linked up -/

/-- Successors are later entries of the list, each of at most one entry. -/
structure Linked [LT α] (succ : α → Option α) (entries : List α) : Prop where
  later : ∀ entry ∈ entries, ∀ next, succ entry = some next → entry < next ∧ next ∈ entries
  unique : ∀ first ∈ entries, ∀ second ∈ entries, ∀ next,
    succ first = some next → succ second = some next → first = second

/-- The entries that are nobody's successor. -/
def heads [DecidableEq α] (succ : α → Option α) (entries : List α) : List α :=
  entries.filter fun entry => ∀ other ∈ entries, succ other ≠ some entry

theorem Linked.tail [Preorder α] {entry : α} {rest : List α} (h : Linked succ (entry :: rest))
    (hfirst : ∀ other ∈ rest, entry < other) : Linked succ rest where
  later := by
    intro other hother next hnext
    obtain ⟨hlt, hmem⟩ := h.later other (List.mem_cons_of_mem _ hother) next hnext
    refine ⟨hlt, List.mem_of_ne_of_mem ?_ hmem⟩
    exact ne_of_gt (lt_trans (hfirst other hother) hlt)
  unique first hfirst second hsecond :=
    h.unique first (List.mem_cons_of_mem _ hfirst) second (List.mem_cons_of_mem _ hsecond)

/-- Once the first entry is worked off, its successor is a head of what is left. -/
theorem Linked.heads_tail [Preorder α] [DecidableEq α] {entry : α} {rest : List α}
    (h : Linked succ (entry :: rest)) (hfirst : ∀ other ∈ rest, entry < other)
    (hnodup : rest.Nodup) :
    ((succ entry).toList ++ rest.filter fun later =>
      ∀ other ∈ entry :: rest, succ other ≠ some later).Perm (heads succ rest) := by
  unfold heads
  cases hnext : succ entry with
  | none => simp [hnext]
  | some next =>
      obtain ⟨hlt, hmem⟩ := h.later entry List.mem_cons_self next hnext
      have hnextRest : next ∈ rest := List.mem_of_ne_of_mem (ne_of_gt hlt) hmem
      have hhead : ∀ other ∈ rest, succ other ≠ some next := by
        intro other hother hsucc
        have hsame := h.unique entry List.mem_cons_self other (List.mem_cons_of_mem _ hother) next
          hnext hsucc
        exact ne_of_lt (hfirst other hother) hsame
      have herase : (rest.filter fun later => ∀ other ∈ entry :: rest, succ other ≠ some later) =
          (rest.filter fun later => ∀ other ∈ rest, succ other ≠ some later).erase next := by
        rw [List.Nodup.erase_eq_filter (List.filter_sublist.nodup hnodup), List.filter_filter]
        refine List.filter_congr fun later _ => ?_
        rw [Bool.eq_iff_iff, Bool.and_eq_true, bne_iff_ne, decide_eq_true_eq, decide_eq_true_eq,
          List.forall_mem_cons, hnext, ne_eq, Option.some.injEq]
        exact and_congr_left' (not_congr eq_comm)
      rw [Option.toList_some, List.singleton_append, herase]
      refine (List.perm_cons_erase ?_).symm
      rw [List.mem_filter, decide_eq_true_eq]
      exact ⟨hnextRest, hhead⟩

/-- A list in ascending order is worked off from its heads, in its own order. -/
theorem Linked.visits [Preorder α] [DecidableEq α] {entries : List α} (h : Linked succ entries)
    (hascending : entries.Pairwise (· < ·)) : Visits succ (heads succ entries) entries := by
  induction entries with
  | nil => exact .done
  | cons entry rest ih =>
      obtain ⟨hfirst, hrest⟩ := List.pairwise_cons.mp hascending
      have hhead : ∀ other ∈ entry :: rest, succ other ≠ some entry := by
        intro other hother hsucc
        obtain ⟨hlt, -⟩ := h.later other hother entry hsucc
        rcases List.mem_cons.mp hother with rfl | hother
        · exact lt_irrefl _ hlt
        · exact lt_asymm hlt (hfirst other hother)
      have hnodup : rest.Nodup := hrest.imp ne_of_lt
      have hheads : heads succ (entry :: rest) = entry :: rest.filter fun later =>
          ∀ other ∈ entry :: rest, succ other ≠ some later :=
        List.filter_cons_of_pos (decide_eq_true hhead)
      rw [hheads]
      exact .visit (List.Perm.refl _)
        ((ih (h.tail hfirst) hrest).perm (h.heads_tail hfirst hnodup))

/-- The chains from its heads are the whole list. -/
theorem Linked.chains [Preorder α] [DecidableEq α] {entries : List α} (h : Linked succ entries)
    (hascending : entries.Pairwise (· < ·)) :
    ∃ chains, List.Forall₂ (Chain succ) (heads succ entries) chains ∧
      entries.Perm chains.flatten ∧ ∀ chain ∈ chains, chain.Sublist entries :=
  (h.visits hascending).chains

/-! ## Entries with a bound -/

/-- How much work a list of entries below `bound` can be at most. -/
def work (bound : ℕ) (pending : List ℕ) : ℕ := (pending.map fun entry => bound - entry + 1).sum

theorem work_perm {bound : ℕ} {pending other : List ℕ} (h : pending.Perm other) :
    work bound pending = work bound other := (h.map _).sum_nat

/-- A visit leaves less of it, if the successor is a larger entry. -/
theorem work_visit_lt {succ : ℕ → Option ℕ} {bound entry : ℕ} {pending rest : List ℕ}
    (hlt : ∀ {next}, succ entry = some next → entry < next) (hbound : entry < bound)
    (hchoice : pending.Perm (entry :: rest)) :
    work bound ((succ entry).toList ++ rest) < work bound pending := by
  rw [work_perm hchoice]
  unfold work
  cases hnext : succ entry with
  | none =>
      simp only [Option.toList_none, List.nil_append, List.map_cons, List.sum_cons]
      omega
  | some next =>
      have := hlt hnext
      simp only [Option.toList_some, List.cons_append, List.nil_append, List.map_cons,
        List.sum_cons]
      omega

end Worklist

end TrafficDatabase
