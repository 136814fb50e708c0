import Mathlib.Data.List.Basic
import Mathlib.Data.List.Induction
import Mathlib.Logic.Function.Basic

/-!
# The trie

`insert` of `TrieTree.hpp` walks down the bytes of the key.  A child pointer of a node has the
type `TreeNode*` whatever it points to: a key that is alone below a node hangs there as a
`ValueList`, cast, and is pushed one layer down when a second key comes.  Which of the two it
is, the code reads off `childrenNum`: with one child it is a list, with more all of them are
nodes, and on the last layer all of them are lists.

Here a child says what it is, and a cast of the code to the other type gives `none`.

* `Stands`: what a node holds, by the bytes of the keys that are left below it, with
  `childrenNum` as the type of its children;
* `insertFrom_stands`: an insertion below a node puts one value at the end of one list;
* `Multimap`: the lists that can be reached, against the insertions made.
-/

namespace TrafficDatabase

structure ValueList where
  key : List UInt8
  values : List UInt64

namespace ValueList

def insert (list : ValueList) (value : UInt64) : ValueList :=
  { list with values := list.values ++ [value] }

end ValueList

/-- A `TreeNode` over the pointers `Pointer`. -/
structure NodeOver (Pointer : Type) where
  layer : ℕ
  children : UInt8 → Pointer
  childrenNum : ℕ
  onlyChild : UInt8

/-- What a `TreeNode*` of the code points to. -/
inductive Child where
  | null
  | valueList (list : ValueList)
  | treeNode (node : NodeOver Child)

abbrev TreeNode := NodeOver Child

namespace Child

/-- The cast to `ValueList*`, of what is one. -/
def asValueList : Child → Option ValueList
  | valueList list => some list
  | _ => none

/-- A `TreeNode*` that is followed. -/
def asTreeNode : Child → Option TreeNode
  | treeNode node => some node
  | _ => none

end Child

namespace TreeNode

/-- `new TreeNode(maxLayer, layer)`. -/
def new (layer : ℕ) : TreeNode where
  layer := layer
  children := fun _ => .null
  childrenNum := 0
  onlyChild := 0

def setChild (node : TreeNode) (uc : UInt8) (child : Child) : TreeNode :=
  { node with children := Function.update node.children uc child }

@[simp] theorem setChild_children (node : TreeNode) (uc : UInt8) (child : Child) :
    (node.setChild uc child).children = Function.update node.children uc child := rfl

@[simp] theorem setChild_childrenNum (node : TreeNode) (uc : UInt8) (child : Child) :
    (node.setChild uc child).childrenNum = node.childrenNum := rfl

@[simp] theorem setChild_onlyChild (node : TreeNode) (uc : UInt8) (child : Child) :
    (node.setChild uc child).onlyChild = node.onlyChild := rfl

/-- A new node with one list. -/
def withOnly (layer : ℕ) (key_c : UInt8) (list : ValueList) : TreeNode where
  layer := layer
  children := Function.update (new layer).children key_c (.valueList list)
  childrenNum := 1
  onlyChild := key_c

/-- What a turn of the loop does: `break`, or go on below the child of the byte. -/
inductive Turn where
  | stop (node : TreeNode)
  | next (node : TreeNode)

/-- With one child: it is the list of the key, or it is pushed down a layer. -/
def splitOnly (key : List UInt8) (value : UInt64) (layer : ℕ) (node : TreeNode) :
    Option Turn := do
  let list ← (node.children node.onlyChild).asValueList
  if list.key = key then
    some (.stop (node.setChild node.onlyChild (.valueList (list.insert value))))
  else
    let key_c ← list.key[layer]?
    some (.next (node.setChild node.onlyChild (.treeNode (withOnly layer key_c list))))

/-- The branch of a missing child, on a layer that is not the last one. -/
def addChild (key : List UInt8) (value : UInt64) (layer : ℕ) (uc : UInt8) (node : TreeNode) :
    Option Turn := do
  let turn ← if node.childrenNum = 1 then splitOnly key value layer node else some (.next node)
  match turn with
  | .stop node => some (.stop node)
  | .next node =>
    some (.next { node.setChild uc (.treeNode (new layer)) with
      childrenNum := node.childrenNum + 1 })

/-- A turn of the loop, with `layer` counted up already. -/
def turn (maxLayer : ℕ) (key : List UInt8) (value : UInt64) (layer : ℕ) (uc : UInt8)
    (node : TreeNode) : Option Turn := do
  if layer = maxLayer ∨ node.childrenNum = 0 then
    match node.children uc with
    | .null =>
      some (.stop
        { node.setChild uc (.valueList ⟨key, [value]⟩) with
          childrenNum := node.childrenNum + 1
          onlyChild := if node.childrenNum + 1 = 1 then uc else node.onlyChild })
    | child =>
      let list ← child.asValueList
      some (.stop (node.setChild uc (.valueList (list.insert value))))
  else
    let added ← match node.children uc with
      | .null => addChild key value layer uc node
      | _ => some (.next node)
    match added with
    | .stop node => some (.stop node)
    | .next node =>
      if node.childrenNum = 1 then
        match ← splitOnly key value layer node with
        | .stop node => some (.stop node)
        | .next node => some (.next { node with childrenNum := node.childrenNum + 1 })
      else some (.next node)

/-- The loop over the bytes of the key that are left, below a node. -/
def insertFrom (maxLayer : ℕ) (key : List UInt8) (value : UInt64) :
    List UInt8 → ℕ → TreeNode → Option TreeNode
  | [], _, node => some node
  | uc :: rest, layer, node => do
    match ← turn maxLayer key value (layer + 1) uc node with
    | .stop node => some node
    | .next node =>
      let child ← (node.children uc).asTreeNode
      let child ← insertFrom maxLayer key value rest (layer + 1) child
      some (node.setChild uc (.treeNode child))

end TreeNode

structure TrieTree where
  maxLayer : ℕ
  keyLen : ℕ
  nodeNum : ℕ
  root : TreeNode

namespace TrieTree

/-- The constructor. -/
def new (maxLayer keyLen : ℕ) : TrieTree where
  maxLayer := maxLayer
  keyLen := keyLen
  nodeNum := 0
  root := TreeNode.new 0

def insert (tree : TrieTree) (key : List UInt8) (value : UInt64) : Option TrieTree := do
  if key.length ≠ tree.keyLen then some tree
  else
    let root ← TreeNode.insertFrom tree.maxLayer key value key 0 tree.root
    some { tree with nodeNum := tree.nodeNum + 1, root := root }

/-- Insertions one after the other. -/
def insertAll (tree : TrieTree) (inserted : List (List UInt8 × UInt64)) : Option TrieTree :=
  inserted.foldlM (fun tree entry => tree.insert entry.1 entry.2) tree

end TrieTree

namespace TreeNode

/-! ### What a node holds -/

/-- The values by what is left of their keys below a node. -/
abbrev Content := List UInt8 → List UInt64

/-- The content below the child of a byte. -/
def Content.below (content : Content) (uc : UInt8) : Content := fun rest => content (uc :: rest)

/-- The content after an insertion. -/
def Content.insert (content : Content) (rest : List UInt8) (value : UInt64) : Content :=
  Function.update content rest (content rest ++ [value])

theorem Content.insert_self (content : Content) (rest : List UInt8) (value : UInt64) :
    content.insert rest value rest = content rest ++ [value] := Function.update_self ..

theorem Content.insert_of_ne (content : Content) {rest other : List UInt8} (h : other ≠ rest)
    (value : UInt64) : content.insert rest value other = content other :=
  Function.update_of_ne h ..

theorem Content.insert_below_self (content : Content) (uc : UInt8) (rest : List UInt8)
    (value : UInt64) :
    (content.insert (uc :: rest) value).below uc = (content.below uc).insert rest value := by
  funext other
  by_cases h : other = rest
  · subst h
    rw [Content.insert_self]
    exact Content.insert_self ..
  · have hcons : uc :: other ≠ uc :: rest := fun heq => h (List.cons_injective heq)
    rw [Content.insert_of_ne _ h]
    exact Content.insert_of_ne _ hcons value

theorem Content.insert_below_of_ne (content : Content) {uc other : UInt8} (h : other ≠ uc)
    (rest : List UInt8) (value : UInt64) :
    (content.insert (uc :: rest) value).below other = content.below other := by
  funext left
  exact Content.insert_of_ne _ (fun heq => h (List.cons.inj heq).1) value

/-- On the last layer the child of a byte is a list, if there is one. -/
def Leaf (path : List UInt8) (content : Content) (uc : UInt8) : Child → Prop
  | .null => content [uc] = []
  | .valueList list => list = ⟨path ++ [uc], content [uc]⟩ ∧ content [uc] ≠ []
  | .treeNode _ => False

structure Vacant (content : Content) (node : TreeNode) : Prop where
  childrenNum : node.childrenNum = 0
  children : node.children = fun _ => .null
  empty : ∀ rest, content rest = []

/-- The one key below the node is `path ++ uc :: rest`. -/
structure Single (left : ℕ) (path : List UInt8) (content : Content) (node : TreeNode)
    (uc : UInt8) (rest : List UInt8) : Prop where
  childrenNum : node.childrenNum = 1
  onlyChild : node.onlyChild = uc
  length : rest.length = left
  children : node.children =
    Function.update (fun _ => .null) uc (.valueList ⟨path ++ uc :: rest, content (uc :: rest)⟩)
  values : content (uc :: rest) ≠ []
  others : ∀ other, other ≠ uc :: rest → content other = []

/-- On another layer the child of a byte is a node, if there is one and it is not alone. -/
def Below (holds : List UInt8 → Content → TreeNode → Prop) (path : List UInt8)
    (content : Content) (uc : UInt8) : Child → Prop
  | .null => ∀ rest, content (uc :: rest) = []
  | .valueList _ => False
  | .treeNode child => holds (path ++ [uc]) (content.below uc) child

structure Inner (holds : List UInt8 → Content → TreeNode → Prop) (path : List UInt8)
    (content : Content) (node : TreeNode) : Prop where
  childrenNum : 2 ≤ node.childrenNum
  children : ∀ uc, Below holds path content uc (node.children uc)

/-- A node with `left` bytes of the keys to come: `childrenNum` tells the type of its
children, except on the last layer, where all of them are lists. -/
def Stands : ℕ → List UInt8 → Content → TreeNode → Prop
  | 0, _, _, _ => False
  | 1, path, content, node => ∀ uc, Leaf path content uc (node.children uc)
  | left + 2, path, content, node =>
    Vacant content node ∨ (∃ uc rest, Single (left + 1) path content node uc rest) ∨
      Inner (fun path content child => Stands (left + 1) path content child) path content node

theorem stands_new (layer left : ℕ) (path : List UInt8) {content : Content}
    (hempty : ∀ rest, content rest = []) : Stands (left + 1) path content (new layer) := by
  cases left with
  | zero =>
    intro uc
    exact hempty [uc]
  | succ left => exact Or.inl ⟨rfl, rfl, hempty⟩

/-- The node made for a list that is pushed down. -/
theorem stands_withOnly {layer left : ℕ} {path rest : List UInt8} {content : Content}
    {uc : UInt8} (hlength : rest.length = left) (hvalues : content (uc :: rest) ≠ [])
    (hothers : ∀ other, other ≠ uc :: rest → content other = []) :
    Stands (left + 1) path content
      (withOnly layer uc ⟨path ++ uc :: rest, content (uc :: rest)⟩) := by
  cases left with
  | zero =>
    obtain rfl : rest = [] := List.eq_nil_of_length_eq_zero hlength
    intro other
    by_cases h : other = uc
    · subst h
      simp only [withOnly, Function.update_self]
      exact ⟨rfl, hvalues⟩
    · have hne : [other] ≠ [uc] := fun heq => h (List.cons.inj heq).1
      simp only [withOnly, Function.update_of_ne h]
      exact hothers [other] hne
  | succ left => exact Or.inr (Or.inl ⟨uc, rest, rfl, rfl, hlength, rfl, hvalues, hothers⟩)

/-! ### A turn of the loop -/

variable {maxLayer left layer : ℕ} {path rest : List UInt8} {uc : UInt8} {value : UInt64}
  {content : Content} {node : TreeNode}

theorem turn_last (hstands : Stands 1 path content node) :
    ∃ after, turn layer (path ++ [uc]) value layer uc node = some (.stop after) ∧
      Stands 1 path (content.insert [uc] value) after := by
  have hothers : ∀ other, other ≠ uc →
      Leaf path (content.insert [uc] value) other (node.children other) := by
    intro other hne
    have hsame : content.insert [uc] value [other] = content [other] :=
      Content.insert_of_ne _ (fun heq => hne (List.cons.inj heq).1) value
    have hleaf := hstands other
    cases hchild : node.children other with
    | null => rwa [hchild, Leaf, ← hsame] at hleaf
    | valueList list => rwa [hchild, Leaf, ← hsame] at hleaf
    | treeNode child => rw [hchild] at hleaf; exact hleaf.elim
  have hleaf := hstands uc
  cases hchild : node.children uc with
  | null =>
    rw [hchild] at hleaf
    have hvalues : content.insert [uc] value [uc] = [value] := by
      rw [Content.insert_self, show content [uc] = [] from hleaf]
      rfl
    refine ⟨_, by simp only [turn, true_or, if_true, hchild]; rfl, fun other => ?_⟩
    by_cases h : other = uc
    · subst h
      simp only [setChild_children, Function.update_self, Leaf, hvalues]
      exact ⟨trivial, List.cons_ne_nil _ _⟩
    · simp only [setChild_children, Function.update_of_ne h]
      exact hothers other h
  | valueList list =>
    rw [hchild] at hleaf
    obtain ⟨rfl, -⟩ := hleaf
    refine ⟨_, by simp only [turn, true_or, if_true, hchild]; rfl, fun other => ?_⟩
    by_cases h : other = uc
    · subst h
      simp only [setChild_children, Function.update_self, Leaf, Content.insert_self]
      exact ⟨rfl, List.append_ne_nil_of_right_ne_nil _ (List.cons_ne_nil _ _)⟩
    · simp only [setChild_children, Function.update_of_ne h]
      exact hothers other h
  | treeNode child => rw [hchild] at hleaf; exact hleaf.elim

theorem turn_vacant (hvacant : Vacant content node) (hlength : rest.length = left) :
    ∃ after, turn maxLayer (path ++ uc :: rest) value layer uc node = some (.stop after) ∧
      Single left path (content.insert (uc :: rest) value) after uc rest := by
  have hvalues : content.insert (uc :: rest) value (uc :: rest) = [value] := by
    rw [Content.insert_self, hvacant.empty]
    rfl
  have hnull : node.children uc = .null := by rw [hvacant.children]
  have hif : layer = maxLayer ∨ node.childrenNum = 0 := Or.inr hvacant.childrenNum
  refine ⟨_, by rw [turn, if_pos hif, hnull], ?_, ?_, hlength, ?_, ?_, ?_⟩
  · simp only [hvacant.childrenNum]
  · simp only [hvacant.childrenNum, if_true]
  · simp only [setChild_children, hvacant.children, hvalues]
  · rw [hvalues]
    exact List.cons_ne_nil _ _
  · intro other hne
    rw [Content.insert_of_ne _ hne, hvacant.empty]

theorem splitOnly_self (hsingle : Single left path content node uc rest) :
    splitOnly (path ++ uc :: rest) value layer node =
      some (.stop (node.setChild uc
        (.valueList ⟨path ++ uc :: rest, content (uc :: rest) ++ [value]⟩))) := by
  have hchild : node.children node.onlyChild =
      .valueList ⟨path ++ uc :: rest, content (uc :: rest)⟩ := by
    rw [hsingle.onlyChild, hsingle.children, Function.update_self]
  rw [splitOnly, hchild, hsingle.onlyChild]
  exact if_pos rfl

theorem splitOnly_other {key : List UInt8} {key_c : UInt8} {tail : List UInt8}
    (hsingle : Single left path content node uc (key_c :: tail))
    (hkey : key ≠ path ++ uc :: key_c :: tail) :
    splitOnly key value (path.length + 1) node =
      some (.next (node.setChild uc (.treeNode (withOnly (path.length + 1) key_c
        ⟨path ++ uc :: key_c :: tail, content (uc :: key_c :: tail)⟩)))) := by
  have hchild : node.children node.onlyChild =
      .valueList ⟨path ++ uc :: key_c :: tail, content (uc :: key_c :: tail)⟩ := by
    rw [hsingle.onlyChild, hsingle.children, Function.update_self]
  have hbyte : (path ++ uc :: key_c :: tail)[path.length + 1]? = some key_c := by
    have hindex : path.length + 1 - path.length = 1 := Nat.add_sub_cancel_left ..
    rw [List.getElem?_append_right (Nat.le_succ _), hindex]
    rfl
  rw [splitOnly, hchild, hsingle.onlyChild]
  simp only [Child.asValueList, Option.bind_eq_bind, Option.bind_some, if_neg hkey.symm, hbyte]

/-- The list pushed down: all children are nodes, though `childrenNum` is one still. -/
theorem below_pushed {key_c : UInt8} {tail : List UInt8}
    (hsingle : Single (left + 1) path content node uc (key_c :: tail)) (other : UInt8) :
    Below (Stands (left + 1)) path content other
      ((node.setChild uc (.treeNode (withOnly layer key_c
        ⟨path ++ uc :: key_c :: tail, content (uc :: key_c :: tail)⟩))).children other) := by
  by_cases h : other = uc
  · subst h
    have hlength : tail.length = left := Nat.succ.inj hsingle.length
    have hpath : path ++ other :: key_c :: tail = (path ++ [other]) ++ key_c :: tail := by
      rw [List.append_assoc]
      rfl
    simp only [setChild_children, Function.update_self, Below]
    rw [hpath]
    apply stands_withOnly hlength hsingle.values
    intro rest hne
    exact hsingle.others _ fun heq => hne (List.cons_injective heq)
  · simp only [setChild_children, Function.update_of_ne h, hsingle.children, Below]
    intro rest
    exact hsingle.others _ fun heq => h (List.cons.inj heq).1

/-- A new node below a byte without a child. -/
theorem below_new (hempty : ∀ rest, content (uc :: rest) = []) :
    Below (Stands (left + 1)) path content uc (.treeNode (new layer)) :=
  stands_new layer left _ hempty

/-- The list of a single key, after an insertion of that key. -/
theorem single_insert (hsingle : Single left path content node uc rest) :
    Single left path (content.insert (uc :: rest) value)
      (node.setChild uc (.valueList ⟨path ++ uc :: rest, content (uc :: rest) ++ [value]⟩))
      uc rest where
  childrenNum := hsingle.childrenNum
  onlyChild := hsingle.onlyChild
  length := hsingle.length
  children := by
    rw [setChild_children, hsingle.children, Function.update_idem, Content.insert_self]
  values := by
    rw [Content.insert_self]
    exact List.append_ne_nil_of_right_ne_nil _ (List.cons_ne_nil _ _)
  others := by
    intro other hne
    rw [Content.insert_of_ne _ hne, hsingle.others other hne]

/-- A turn at a single list: the value goes to this list, or the list is pushed down and the
loop goes on in a node, with all values where they were. -/
theorem turn_single {first : UInt8} {alone : List UInt8}
    (hsingle : Single (left + 1) path content node first alone)
    (hlayer : path.length + 1 ≠ maxLayer) :
    (∃ after, turn maxLayer (path ++ uc :: rest) value (path.length + 1) uc node =
        some (.stop after) ∧ Stands (left + 2) path (content.insert (uc :: rest) value) after) ∨
      ∃ after child, turn maxLayer (path ++ uc :: rest) value (path.length + 1) uc node =
        some (.next after) ∧ Inner (Stands (left + 1)) path content after ∧
          after.children uc = .treeNode child := by
  have hif : ¬ (path.length + 1 = maxLayer ∨ node.childrenNum = 0) := by
    rw [hsingle.childrenNum]
    omega
  obtain ⟨key_c, tail, rfl⟩ : ∃ key_c tail, alone = key_c :: tail := by
    cases alone with
    | nil => exact absurd hsingle.length (Nat.succ_ne_zero left).symm
    | cons key_c tail => exact ⟨key_c, tail, rfl⟩
  by_cases huc : uc = first
  · subst huc
    have hchild : node.children uc =
        .valueList ⟨path ++ uc :: key_c :: tail, content (uc :: key_c :: tail)⟩ := by
      rw [hsingle.children, Function.update_self]
    by_cases hrest : rest = key_c :: tail
    · -- the list of the key itself
      subst hrest
      refine Or.inl ⟨_, ?_, Or.inr (Or.inl ⟨uc, _, single_insert hsingle⟩)⟩
      rw [turn, if_neg hif, hchild]
      simp only [Option.bind_eq_bind, Option.bind_some, hsingle.childrenNum, if_true,
        splitOnly_self hsingle]
    · -- another key with the byte: the only child is counted twice
      have hkey : path ++ uc :: rest ≠ path ++ uc :: key_c :: tail := fun heq =>
        hrest (List.cons_injective (List.append_cancel_left heq))
      refine Or.inr ⟨{ node.setChild uc (.treeNode (withOnly (path.length + 1) key_c
        ⟨path ++ uc :: key_c :: tail, content (uc :: key_c :: tail)⟩)) with
          childrenNum := node.childrenNum + 1 }, _, ?_, ⟨?_, below_pushed hsingle⟩,
        Function.update_self ..⟩
      · rw [turn, if_neg hif, hchild]
        simp only [Option.bind_eq_bind, Option.bind_some, hsingle.childrenNum, if_true,
          splitOnly_other hsingle hkey, setChild_childrenNum]
      · exact Nat.le_of_eq (congrArg (· + 1) hsingle.childrenNum).symm
  -- another byte: the only child is pushed down, and a new node comes beside it
  · have hchild : node.children uc = .null := by
      rw [hsingle.children, Function.update_of_ne huc]
    have hkey : path ++ uc :: rest ≠ path ++ first :: key_c :: tail := fun heq =>
      huc (List.cons.inj (List.append_cancel_left heq)).1
    have hempty : ∀ left, content (uc :: left) = [] := fun left =>
      hsingle.others _ fun heq => huc (List.cons.inj heq).1
    refine Or.inr ⟨{ (node.setChild first (.treeNode (withOnly (path.length + 1) key_c
      ⟨path ++ first :: key_c :: tail, content (first :: key_c :: tail)⟩))).setChild uc
        (.treeNode (new (path.length + 1))) with childrenNum := node.childrenNum + 1 }, _, ?_,
      ⟨?_, ?_⟩, Function.update_self ..⟩
    · rw [turn, if_neg hif, hchild]
      simp only [addChild, hsingle.childrenNum, if_true, splitOnly_other hsingle hkey,
        Option.bind_eq_bind, Option.bind_some, setChild_childrenNum]
      rfl
    · exact Nat.le_of_eq (congrArg (· + 1) hsingle.childrenNum).symm
    · intro other
      by_cases h : other = uc
      · subst h
        simp only [setChild_children, Function.update_self]
        exact below_new hempty
      · have hpushed : Below (Stands (left + 1)) path content other
            ((node.setChild first (.treeNode (withOnly (path.length + 1) key_c
              ⟨path ++ first :: key_c :: tail, content (first :: key_c :: tail)⟩))).children
                other) := below_pushed hsingle other
        simp only [setChild_children, Function.update_of_ne h] at hpushed ⊢
        exact hpushed

/-- A turn at a node whose children are nodes. -/
theorem turn_inner (hinner : Inner (Stands (left + 1)) path content node)
    (hlayer : path.length + 1 ≠ maxLayer) :
    ∃ after child, turn maxLayer (path ++ uc :: rest) value (path.length + 1) uc node =
      some (.next after) ∧ Inner (Stands (left + 1)) path content after ∧
        after.children uc = .treeNode child := by
  have hnum := hinner.childrenNum
  have hif : ¬ (path.length + 1 = maxLayer ∨ node.childrenNum = 0) := by omega
  have hone : node.childrenNum ≠ 1 := by omega
  have hbelow := hinner.children uc
  cases hchild : node.children uc with
  | null =>
    rw [hchild] at hbelow
    have hnext : node.childrenNum + 1 ≠ 1 := by omega
    refine ⟨{ node.setChild uc (.treeNode (new (path.length + 1))) with
      childrenNum := node.childrenNum + 1 }, _, ?_, ⟨?_, ?_⟩, Function.update_self ..⟩
    · rw [turn, if_neg hif, hchild]
      simp only [addChild, if_neg hone, Option.bind_eq_bind, Option.bind_some, if_neg hnext]
    · exact Nat.le_succ_of_le hnum
    · intro other
      by_cases h : other = uc
      · subst h
        simp only [setChild_children, Function.update_self]
        exact below_new hbelow
      · simp only [setChild_children, Function.update_of_ne h]
        exact hinner.children other
  | valueList list => rw [hchild] at hbelow; exact hbelow.elim
  | treeNode child =>
    refine ⟨node, child, ?_, hinner, hchild⟩
    rw [turn, if_neg hif, hchild]
    simp only [Option.bind_eq_bind, Option.bind_some, if_neg hone]

/-- The child in which the loop went on, put back. -/
theorem inner_setChild {after : TreeNode}
    (hinner : Inner (Stands left) path content node)
    (hafter : Stands left (path ++ [uc]) ((content.below uc).insert rest value) after) :
    Inner (Stands left) path (content.insert (uc :: rest) value)
      (node.setChild uc (.treeNode after)) where
  childrenNum := hinner.childrenNum
  children := by
    intro other
    by_cases h : other = uc
    · subst h
      simp only [setChild_children, Function.update_self, Below]
      rwa [Content.insert_below_self]
    · have hbelow := hinner.children other
      simp only [setChild_children, Function.update_of_ne h]
      cases hchild : node.children other with
      | null =>
        rw [hchild] at hbelow
        intro left
        exact (congrFun (Content.insert_below_of_ne _ h rest value) left).trans (hbelow left)
      | valueList list => rwa [hchild] at hbelow
      | treeNode _ =>
        rw [hchild] at hbelow
        rwa [Below, Content.insert_below_of_ne _ h]

/-- Every turn above the last layer. -/
theorem turn_stands (value : UInt64) (hstands : Stands (left + 2) path content node)
    (hlength : rest.length = left + 1) (hlayer : path.length + 1 ≠ maxLayer) :
    (∃ after, turn maxLayer (path ++ uc :: rest) value (path.length + 1) uc node =
        some (.stop after) ∧ Stands (left + 2) path (content.insert (uc :: rest) value) after) ∨
      ∃ after child, turn maxLayer (path ++ uc :: rest) value (path.length + 1) uc node =
        some (.next after) ∧ Inner (Stands (left + 1)) path content after ∧
          after.children uc = .treeNode child := by
  rcases hstands with hvacant | ⟨first, alone, hsingle⟩ | hinner
  · obtain ⟨after, hturn, hafter⟩ := turn_vacant hvacant hlength
    exact Or.inl ⟨after, hturn, Or.inr (Or.inl ⟨uc, rest, hafter⟩)⟩
  · exact turn_single hsingle hlayer
  · exact Or.inr (turn_inner hinner hlayer)

/-- An insertion below a node puts the value at the end of the list of its key. -/
theorem insertFrom_stands {key : List UInt8} (value : UInt64) (hrest : rest ≠ [])
    (hkey : key = path ++ rest) (hmax : maxLayer = path.length + rest.length)
    (hstands : Stands rest.length path content node) :
    ∃ after, insertFrom maxLayer key value rest path.length node = some after ∧
      Stands rest.length path (content.insert rest value) after := by
  -- along the bytes of the key; each byte that is passed belongs to the path
  induction rest generalizing path content node with
  | nil => exact absurd rfl hrest
  | cons uc rest ih =>
    subst hkey
    cases rest with
    | nil =>
      have hlast : maxLayer = path.length + 1 := hmax
      obtain ⟨after, hturn, hafter⟩ :
          ∃ after, turn maxLayer (path ++ [uc]) value maxLayer uc node = some (.stop after) ∧
            Stands 1 path (content.insert [uc] value) after := turn_last hstands
      refine ⟨after, ?_, hafter⟩
      rw [insertFrom, ← hlast, hturn]
      rfl
    | cons next rest =>
      have hlength : (next :: rest).length = rest.length + 1 := rfl
      have hlayer : path.length + 1 ≠ maxLayer := by
        rw [hmax]
        simp only [List.length_cons]
        omega
      rcases turn_stands value hstands hlength hlayer with
        ⟨after, hturn, hafter⟩ | ⟨after, child, hturn, hinner, hchild⟩
      · refine ⟨after, ?_, hafter⟩
        rw [insertFrom, hturn]
        rfl
      · have hbelow := hinner.children uc
        rw [hchild] at hbelow
        have hpath : path ++ uc :: next :: rest = (path ++ [uc]) ++ next :: rest := by
          rw [List.append_assoc]
          rfl
        have hlayers : maxLayer = (path ++ [uc]).length + (next :: rest).length := by
          rw [hmax]
          simp only [List.length_append, List.length_cons, List.length_nil]
          omega
        obtain ⟨child', hinsert, hchild'⟩ :=
          ih (List.cons_ne_nil _ _) hpath hlayers hbelow
        refine ⟨after.setChild uc (.treeNode child'), ?_,
          Or.inr (Or.inr (inner_setChild hinner hchild'))⟩
        have hlayer' : (path ++ [uc]).length = path.length + 1 := List.length_append
        rw [hlayer'] at hinsert
        rw [insertFrom, hturn]
        simp only [Option.bind_eq_bind, Option.bind_some, hchild, Child.asTreeNode, hinsert]

/-! ### The lists that can be reached -/

/-- A list that can be reached from a node, by the bytes of the children passed. -/
inductive Reaches : TreeNode → List UInt8 → ValueList → Prop where
  | leaf {node : TreeNode} {uc : UInt8} {list : ValueList}
      (child : node.children uc = .valueList list) : Reaches node [uc] list
  | inside {node next : TreeNode} {uc : UInt8} {path : List UInt8} {list : ValueList}
      (child : node.children uc = .treeNode next) (reached : Reaches next path list) :
      Reaches node (uc :: path) list

variable {passed passed' : List UInt8} {list list' : ValueList}

/-- Only one list lies on the way of a key. -/
theorem Reaches.unique (h : Reaches node passed list) (h' : Reaches node passed' list')
    (hrest : passed <+: rest) (hrest' : passed' <+: rest) : passed = passed' ∧ list = list' := by
  induction h generalizing passed' rest with
  | leaf child =>
    obtain ⟨tail, rfl⟩ := hrest
    cases h' with
    | leaf child' =>
      obtain rfl := (List.cons_prefix_cons.mp hrest').1
      rw [child] at child'
      cases child'
      exact ⟨rfl, rfl⟩
    | inside child' _ =>
      obtain rfl := (List.cons_prefix_cons.mp hrest').1
      rw [child] at child'
      cases child'
  | inside child _ ih =>
    obtain ⟨tail, rfl⟩ := hrest
    cases h' with
    | leaf child' =>
      obtain rfl := (List.cons_prefix_cons.mp hrest').1
      rw [child] at child'
      cases child'
    | inside child' reached' =>
      obtain ⟨rfl, hprefix'⟩ := List.cons_prefix_cons.mp hrest'
      rw [child] at child'
      cases child'
      obtain ⟨rfl, rfl⟩ := ih reached' (List.prefix_append ..) hprefix'
      exact ⟨rfl, rfl⟩

/-- The one child of a node, or none. -/
theorem Single.child {first : UInt8} {alone : List UInt8}
    (hsingle : Single left path content node first alone) (uc : UInt8) :
    node.children uc = .null ∨ uc = first ∧
      node.children uc = .valueList ⟨path ++ first :: alone, content (first :: alone)⟩ := by
  rw [hsingle.children]
  by_cases huc : uc = first
  · rw [huc, Function.update_self]
    exact Or.inr ⟨rfl, rfl⟩
  · rw [Function.update_of_ne huc]
    exact Or.inl rfl

/-- A list that can be reached is the one of its key, on the way of that key. -/
theorem reaches_content (hstands : Stands left path content node)
    (h : Reaches node passed list) :
    ∃ rest, list = ⟨path ++ rest, content rest⟩ ∧ passed <+: rest ∧ content rest ≠ [] := by
  induction h generalizing left path content with
  | @leaf node uc list child =>
    match left, hstands with
    | 1, hstands =>
      have hleaf := hstands uc
      rw [child] at hleaf
      exact ⟨[uc], hleaf.1, List.prefix_rfl, hleaf.2⟩
    | left + 2, Or.inl hvacant =>
      rw [hvacant.children] at child
      cases child
    | left + 2, Or.inr (Or.inl ⟨first, alone, hsingle⟩) =>
      rcases hsingle.child uc with hnull | ⟨rfl, hlist⟩
      · rw [hnull] at child
        cases child
      · rw [hlist] at child
        cases child
        exact ⟨uc :: alone, rfl, List.prefix_append [uc] alone, hsingle.values⟩
    | left + 2, Or.inr (Or.inr hinner) =>
      have hbelow := hinner.children uc
      rw [child] at hbelow
      exact hbelow.elim
  | @inside node next uc passed list child _ ih =>
    match left, hstands with
    | 1, hstands =>
      have hleaf := hstands uc
      rw [child] at hleaf
      exact hleaf.elim
    | left + 2, Or.inl hvacant =>
      rw [hvacant.children] at child
      cases child
    | left + 2, Or.inr (Or.inl ⟨first, alone, hsingle⟩) =>
      rcases hsingle.child uc with hnull | ⟨rfl, hlist⟩
      · rw [hnull] at child
        cases child
      · rw [hlist] at child
        cases child
    | left + 2, Or.inr (Or.inr hinner) =>
      have hbelow := hinner.children uc
      rw [child] at hbelow
      obtain ⟨rest, rfl, hpassed, hvalues⟩ := ih hbelow
      refine ⟨uc :: rest, ?_, List.cons_prefix_cons.mpr ⟨rfl, hpassed⟩, hvalues⟩
      rw [List.append_assoc]
      rfl

/-- The list of every key with values can be reached. -/
theorem content_reached (hstands : Stands rest.length path content node)
    (hvalues : content rest ≠ []) :
    ∃ passed, Reaches node passed ⟨path ++ rest, content rest⟩ := by
  induction rest generalizing path content node with
  | nil => exact hstands.elim
  | cons uc rest ih =>
    cases rest with
    | nil =>
      have hleaf := hstands uc
      cases hchild : node.children uc with
      | null => rw [hchild] at hleaf; exact absurd hleaf hvalues
      | valueList list =>
        rw [hchild] at hleaf
        exact ⟨[uc], Reaches.leaf (hchild.trans (congrArg _ hleaf.1))⟩
      | treeNode child => rw [hchild] at hleaf; exact hleaf.elim
    | cons next rest =>
      rcases hstands with hvacant | ⟨first, alone, hsingle⟩ | hinner
      · exact absurd (hvacant.empty _) hvalues
      · by_cases halone : uc :: next :: rest = first :: alone
        · rw [halone]
          refine ⟨[first], Reaches.leaf ?_⟩
          rw [hsingle.children, Function.update_self]
        · exact absurd (hsingle.others _ halone) hvalues
      · have hbelow := hinner.children uc
        cases hchild : node.children uc with
        | null => rw [hchild] at hbelow; exact absurd (hbelow _) hvalues
        | valueList list => rw [hchild] at hbelow; exact hbelow.elim
        | treeNode child =>
          rw [hchild] at hbelow
          obtain ⟨passed, hpassed⟩ := ih hbelow hvalues
          rw [List.append_assoc] at hpassed
          exact ⟨uc :: passed, Reaches.inside hchild hpassed⟩

end TreeNode

namespace TrieTree

open TreeNode

/-- The values inserted under a key, in the order of the insertions. -/
def valuesOf (inserted : List (List UInt8 × UInt64)) (key : List UInt8) : List UInt64 :=
  (inserted.filter fun entry => entry.1 = key).map Prod.snd

theorem valuesOf_append (inserted : List (List UInt8 × UInt64)) (key : List UInt8)
    (value : UInt64) :
    valuesOf (inserted ++ [(key, value)]) = Content.insert (valuesOf inserted) key value := by
  funext other
  by_cases h : other = key
  · subst h
    rw [Content.insert_self, valuesOf, List.filter_append, List.map_append]
    simp [valuesOf]
  · rw [Content.insert_of_ne _ h, valuesOf, List.filter_append, List.map_append]
    simp [valuesOf, Ne.symm h]

theorem valuesOf_ne_nil {inserted : List (List UInt8 × UInt64)} {key : List UInt8} :
    valuesOf inserted key ≠ [] ↔ key ∈ inserted.map Prod.fst := by
  simp [valuesOf]

/-- The lists that can be reached are a multimap of the insertions: `lists` says where a list
lies and what it holds, `each` and `once` that every key has one. -/
structure Multimap (inserted : List (List UInt8 × UInt64)) (root : TreeNode) : Prop where
  lists : ∀ path list, Reaches root path list → path <+: list.key ∧
    list.key ∈ inserted.map Prod.fst ∧ list.values = valuesOf inserted list.key
  each : ∀ key ∈ inserted.map Prod.fst, ∃ path list, Reaches root path list ∧ list.key = key
  once : ∀ path list path' list', Reaches root path list → Reaches root path' list' →
    list.key = list'.key → path = path' ∧ list = list'

theorem multimap_of_stands {inserted : List (List UInt8 × UInt64)} {keyLen : ℕ}
    {root : TreeNode} (hkeys : ∀ entry ∈ inserted, entry.1.length = keyLen)
    (hstands : Stands keyLen [] (valuesOf inserted) root) : Multimap inserted root where
  lists := by
    intro path list h
    obtain ⟨key, rfl, hpath, hvalues⟩ := reaches_content hstands h
    exact ⟨hpath, valuesOf_ne_nil.mp hvalues, rfl⟩
  each := by
    intro key hkey
    obtain ⟨entry, hentry, rfl⟩ := List.mem_map.mp hkey
    rw [← hkeys entry hentry] at hstands
    obtain ⟨path, hpath⟩ := content_reached hstands (valuesOf_ne_nil.mpr hkey)
    exact ⟨path, _, hpath, rfl⟩
  once := by
    intro path list path' list' h h' hkey
    obtain ⟨key, rfl, hpath, -⟩ := reaches_content hstands h
    obtain ⟨key', rfl, hpath', -⟩ := reaches_content hstands h'
    obtain rfl : key = key' := hkey
    exact h.unique h' hpath hpath'

theorem insert_of_insertFrom {tree : TrieTree} {key : List UInt8} {value : UInt64}
    {root : TreeNode} (hkey : key.length = tree.keyLen)
    (h : insertFrom tree.maxLayer key value key 0 tree.root = some root) :
    tree.insert key value = some { tree with nodeNum := tree.nodeNum + 1, root := root } := by
  have hif : ¬ key.length ≠ tree.keyLen := fun hne => hne hkey
  rw [insert, if_neg hif, h]
  rfl

theorem insertAll_stands {keyLen : ℕ} (hkeyLen : 1 ≤ keyLen)
    (inserted : List (List UInt8 × UInt64))
    (hkeys : ∀ entry ∈ inserted, entry.1.length = keyLen) :
    ∃ root, (new keyLen keyLen).insertAll inserted =
        some ⟨keyLen, keyLen, inserted.length, root⟩ ∧
      Stands keyLen [] (valuesOf inserted) root := by
  induction inserted using List.reverseRecOn with
  | nil =>
    obtain ⟨left, rfl⟩ := Nat.exists_eq_add_of_le' hkeyLen
    exact ⟨TreeNode.new 0, rfl, stands_new 0 left [] fun _ => rfl⟩
  | append_singleton inserted entry ih =>
    obtain ⟨root, hall, hstands⟩ := ih fun entry hentry =>
      hkeys entry (List.mem_append_left _ hentry)
    obtain ⟨key, value⟩ := entry
    have hlength : key.length = keyLen := hkeys (key, value) (by simp)
    have hkey : key ≠ [] := by
      rintro rfl
      rw [← hlength] at hkeyLen
      exact absurd hkeyLen (Nat.not_succ_le_zero 0)
    subst hlength
    obtain ⟨after, hinsert, hafter⟩ := insertFrom_stands value hkey rfl
      (Nat.zero_add _).symm hstands
    refine ⟨after, ?_, ?_⟩
    · unfold insertAll at hall ⊢
      rw [List.foldlM_append, hall]
      simp only [Option.bind_eq_bind, Option.bind_some, List.foldlM_cons, List.foldlM_nil]
      rw [insert_of_insertFrom rfl hinsert, List.length_append]
      rfl
    · rw [valuesOf_append]
      exact hafter

/-- Insertions of keys of the tree's length make a multimap: none of them reads a child as
what it is not, and the lists hold what was inserted. -/
theorem insertAll_multimap {keyLen : ℕ} (hkeyLen : 1 ≤ keyLen)
    (inserted : List (List UInt8 × UInt64))
    (hkeys : ∀ entry ∈ inserted, entry.1.length = keyLen) :
    ∃ tree, (new keyLen keyLen).insertAll inserted = some tree ∧ Multimap inserted tree.root := by
  obtain ⟨root, hall, hstands⟩ := insertAll_stands hkeyLen inserted hkeys
  exact ⟨_, hall, multimap_of_stands hkeys hstands⟩

/-- Two keys with a common first byte, the first of them inserted again. -/
theorem insertAll_multimap_twoKeys :
    ∃ tree, (new 2 2).insertAll [([1, 2], 7), ([1, 3], 8), ([1, 2], 9)] = some tree ∧
      Multimap [([1, 2], 7), ([1, 3], 8), ([1, 2], 9)] tree.root :=
  insertAll_multimap (by decide) _ (by decide)

end TrieTree

end TrafficDatabase
