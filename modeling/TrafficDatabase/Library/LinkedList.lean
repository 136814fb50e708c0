import Mathlib.Data.List.Perm.Basic
import Mathlib.Data.List.Chain
import Mathlib.Data.List.Nodup
import Mathlib.Logic.Function.Basic

/-!
# Linked lists in a heap

A heap is read through `next`, which gives the node a node points to.
`LinksTo next start nodes` says that the pointers lead from `start` through
`nodes` to the end.  The nodes of such a list are determined by the heap and
there is no cycle, so an order that holds from every node to the next one holds
along the whole list.
-/

namespace TrafficDatabase

variable {Node : Type*}

/-- From `start` the pointers go through `nodes`, in order, and end there. -/
def LinksTo (next : Node → Option Node) : Node → List Node → Prop
  | start, [] => next start = none
  | start, node :: rest => next start = some node ∧ LinksTo next node rest

namespace LinksTo

variable {next other : Node → Option Node} {start prev new x y : Node} {nodes : List Node}

theorem congr (h : LinksTo next start nodes) (hagree : ∀ x ∈ start :: nodes, other x = next x) :
    LinksTo other start nodes := by
  induction nodes generalizing start with
  | nil => exact (hagree start List.mem_cons_self).trans h
  | cons node rest ih =>
      refine ⟨(hagree start List.mem_cons_self).trans h.1, ih h.2 ?_⟩
      intro x hx
      exact hagree x (List.mem_cons_of_mem _ hx)

theorem unique {nodes' : List Node} (h : LinksTo next start nodes)
    (h' : LinksTo next start nodes') : nodes = nodes' := by
  induction nodes generalizing start nodes' with
  | nil =>
      cases nodes' with
      | nil => rfl
      | cons node' rest' => exact absurd (h.symm.trans h'.1) (Option.some_ne_none _).symm
  | cons node rest ih =>
      cases nodes' with
      | nil => exact absurd (h'.symm.trans h.1) (Option.some_ne_none _).symm
      | cons node' rest' =>
          obtain rfl : node = node' := Option.some.inj (h.1.symm.trans h'.1)
          rw [ih h.2 h'.2]

/-- What comes behind a node of the list. -/
theorem of_append {before after : List Node} (h : LinksTo next start (before ++ x :: after)) :
    LinksTo next x after := by
  induction before generalizing start with
  | nil => exact h.2
  | cons node rest ih => exact ih h.2

/-- A list with an end has no cycle. -/
theorem nodup (h : LinksTo next start nodes) : (start :: nodes).Nodup := by
  induction nodes generalizing start with
  | nil => exact List.nodup_singleton start
  | cons node rest ih =>
      refine List.nodup_cons.mpr ⟨fun hmem => ?_, ih h.2⟩
      -- behind the second visit of `start` would come what comes behind the first
      obtain ⟨before, after, heq⟩ := List.append_of_mem hmem
      have hlen : (node :: rest).length = after.length := by
        rw [h.unique (of_append (heq ▸ h))]
      rw [heq, List.length_append, List.length_cons] at hlen
      omega

theorem mem_of_next (h : LinksTo next start nodes) (hx : x ∈ start :: nodes)
    (hnext : next x = some y) : y ∈ nodes := by
  induction nodes generalizing start with
  | nil =>
      obtain rfl := List.mem_singleton.mp hx
      exact absurd (h.symm.trans hnext) (Option.some_ne_none y).symm
  | cons node rest ih =>
      rcases List.mem_cons.mp hx with rfl | hrest
      · obtain rfl : node = y := Option.some.inj (h.1.symm.trans hnext)
        exact List.mem_cons_self
      · exact List.mem_cons_of_mem _ (ih h.2 hrest)

/-- The same list read from a node that points to its first one. -/
theorem of_next_eq (h : LinksTo next start nodes) (hnext : next new = next start) :
    LinksTo next new nodes := by
  cases nodes with
  | nil => exact hnext.trans h
  | cons node rest => exact ⟨hnext.trans h.1, h.2⟩

variable [DecidableEq Node]

/-- A new node that already points to what comes behind `prev` is put in by one
pointer. -/
theorem insert (h : LinksTo next start nodes) (hprev : prev ∈ start :: nodes)
    (hnew : new ∉ start :: nodes) (hnext : next new = next prev) :
    ∃ nodes', LinksTo (Function.update next prev (some new)) start nodes' ∧
      nodes'.Perm (new :: nodes) := by
  induction nodes generalizing start with
  | nil =>
      obtain rfl := List.mem_singleton.mp hprev
      have hne : new ≠ prev := fun heq => hnew (heq ▸ List.mem_cons_self)
      refine ⟨[new], ⟨Function.update_self .., ?_⟩, List.Perm.refl _⟩
      exact (Function.update_of_ne hne ..).trans (hnext.trans h)
  | cons node rest ih =>
      have hnodup := List.nodup_cons.mp h.nodup
      rcases List.mem_cons.mp hprev with rfl | hrest
      · refine ⟨new :: node :: rest, ⟨Function.update_self .., ?_⟩, List.Perm.refl _⟩
        refine (h.of_next_eq hnext).congr fun x hx => Function.update_of_ne ?_ ..
        rintro rfl
        rcases List.mem_cons.mp hx with rfl | hmem
        · exact hnew List.mem_cons_self
        · exact hnodup.1 hmem
      · have hne : start ≠ prev := fun heq => hnodup.1 (heq ▸ hrest)
        obtain ⟨nodes', hlinks, hperm⟩ :=
          ih h.2 hrest fun hmem => hnew (List.mem_cons_of_mem _ hmem)
        refine ⟨node :: nodes', ⟨(Function.update_of_ne hne ..).trans h.1, hlinks⟩, ?_⟩
        exact (hperm.cons node).trans (List.Perm.swap new node rest)

omit [DecidableEq Node] in
/-- What holds from every node to the next one holds along the list. -/
theorem pairwise {R : Node → Node → Prop} [IsTrans Node R] (h : LinksTo next start nodes)
    (hstep : ∀ x ∈ nodes, ∀ y, next x = some y → R x y) : nodes.Pairwise R := by
  induction nodes generalizing start with
  | nil => exact List.Pairwise.nil
  | cons node rest ih =>
      refine List.isChain_iff_pairwise.mp ?_
      cases rest with
      | nil => exact List.isChain_singleton node
      | cons second rest' =>
          have hrest := ih h.2 fun x hx => hstep x (List.mem_cons_of_mem _ hx)
          exact List.isChain_cons_cons.mpr
            ⟨hstep node List.mem_cons_self second h.2.1, List.isChain_iff_pairwise.mpr hrest⟩

end LinksTo

end TrafficDatabase
