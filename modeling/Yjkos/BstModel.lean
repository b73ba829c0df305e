import Yjkos.AvlTree
import Yjkos.Machine

/-!
# Binary search tree

`kernel/lib/bst.c`.  Nodes live in a memory which maps an address to a
`struct bst_node`; a pointer is an optional address.  Loops over pointers
take a fuel argument.

`CONFIG_CHECK_TREE` is set, so every operation walks the tree before and
after its work.
-/

namespace Yjkos
namespace Bst

/-- `BST_DIR`; `dir.opposite` is the source's `1 - dir`. -/
abbrev Dir := AvlTree.Side

abbrev Ptr := Option ℕ

structure BstNode where
  parent : Ptr
  children : Dir → Ptr
  data : ℕ
  key : ℤ
  bf : ℤ
  height : ℤ

/-- A node filled with zeros. -/
def BstNode.zeroed : BstNode := ⟨none, fun _ => none, 0, 0, 0, 0⟩

abbrev Nodes := ℕ → BstNode

namespace Nodes

def setParent (m : Nodes) (node : ℕ) (parent : Ptr) : Nodes :=
  Function.update m node { m node with parent := parent }

def setChild (m : Nodes) (node : ℕ) (dir : Dir) (child : Ptr) : Nodes :=
  Function.update m node
    { m node with children := Function.update (m node).children dir child }

def setHeight (m : Nodes) (node : ℕ) (height : ℤ) : Nodes :=
  Function.update m node { m node with height := height }

def setBf (m : Nodes) (node : ℕ) (bf : ℤ) : Nodes :=
  Function.update m node { m node with bf := bf }

end Nodes

end Bst

/-- `struct bst`, with the memory of its nodes. -/
structure Bst where
  root : Bst.Ptr
  nodes : Bst.Nodes

namespace Bst

/-! ## Integrity checks -/

structure CheckFlags where
  noHeight : Bool
  noBf : Bool

/-- The height of a subtree counted from its parent, 0 without a subtree. -/
def childHeight (heightOf : ℕ → Except Fault ℤ) (child : Ptr) :
    Except Fault ℤ :=
  match child with
  | none => .ok 0
  | some c => do
      let height ← heightOf c
      .ok (height + 1)

def heightOfSubtree (m : Nodes) : ℕ → ℕ → Except Fault ℤ
  | 0, _ => .error .outOfFuel
  | fuel + 1, root => do
      let lheight ←
        childHeight (heightOfSubtree m fuel) ((m root).children .left)
      let rheight ←
        childHeight (heightOfSubtree m fuel) ((m root).children .right)
      .ok (if lheight < rheight then rheight else lheight)

def balenceFactor (m : Nodes) (fuel root : ℕ) : Except Fault ℤ := do
  let lheight ←
    childHeight (heightOfSubtree m fuel) ((m root).children .left)
  let rheight ←
    childHeight (heightOfSubtree m fuel) ((m root).children .right)
  .ok (lheight - rheight)

/-- The parent check of `check_subtree`; `true` is a mismatch.  When a root is
expected, the source ends in an assertion instead of a report. -/
def parentDiffers (m : Nodes) (root : ℕ) (parent : Ptr) :
    Except Fault Bool :=
  if (m root).parent = parent then .ok false
  else if parent = none then .error (.assertion "!\"huh?\"")
  else .ok true

def heightDiffers (m : Nodes) (flags : CheckFlags) (fuel root : ℕ) :
    Except Fault Bool :=
  if flags.noHeight then .ok false
  else do
    let expectedheight ← heightOfSubtree m fuel root
    .ok (decide ((m root).height ≠ expectedheight))

def bfDiffers (m : Nodes) (flags : CheckFlags) (fuel root : ℕ) :
    Except Fault Bool :=
  if flags.noBf then .ok false
  else do
    let expectedBf ← balenceFactor m fuel root
    .ok (decide ((m root).bf ≠ expectedBf))

/-- The three checks of `check_subtree` on one node; the result says whether
one of them failed. -/
def checkNode (m : Nodes) (flags : CheckFlags) (fuel root : ℕ)
    (parent : Ptr) : Except Fault Bool := do
  let badParent ← parentDiffers m root parent
  let badHeight ← heightDiffers m flags fuel root
  let badBf ← bfDiffers m flags fuel root
  .ok (badParent || badHeight || badBf)

def checkSubtree (m : Nodes) (preaction : Bool) (flags : CheckFlags) :
    ℕ → Ptr → Ptr → Except Fault Unit
  | 0, _, _ => .error .outOfFuel
  | _ + 1, none, _ => .ok ()
  | fuel + 1, some root, parent => do
      let failed ← checkNode m flags (fuel + 1) root parent
      if failed then
        .error (.panic (if preaction then "tree pre-check failed"
          else "tree post-check failed"))
      else do
        checkSubtree m preaction flags fuel ((m root).children .left)
          (some root)
        checkSubtree m preaction flags fuel ((m root).children .right)
          (some root)

def checkTree (fuel : ℕ) (self : Bst) (preaction : Bool)
    (flags : CheckFlags) : Except Fault Unit :=
  checkSubtree self.nodes preaction flags fuel self.root none

/-! ## Walking the tree -/

def extremeLoop (m : Nodes) (dir : Dir) : ℕ → Ptr → Ptr → Except Fault Ptr
  | 0, _, _ => .error .outOfFuel
  | _ + 1, none, result => .ok result
  | fuel + 1, some current, _ =>
      extremeLoop m dir fuel ((m current).children dir) (some current)

def bstMinOf (fuel : ℕ) (m : Nodes) (subtreeRoot : Ptr) : Except Fault Ptr :=
  extremeLoop m .left fuel subtreeRoot none

def bstMaxOf (fuel : ℕ) (m : Nodes) (subtreeRoot : Ptr) : Except Fault Ptr :=
  extremeLoop m .right fuel subtreeRoot none

def bstMinOfTree (fuel : ℕ) (self : Bst) : Except Fault Ptr :=
  bstMinOf fuel self.nodes self.root

def bstMaxOfTree (fuel : ℕ) (self : Bst) : Except Fault Ptr :=
  bstMaxOf fuel self.nodes self.root

def bstDirInParent (m : Nodes) (node : ℕ) : Except Fault Dir :=
  match (m node).parent with
  | none => .error
      (.panic "bst: attempted to child index on a node without parent")
  | some parent =>
      if (m parent).children .left = some node then .ok .left
      else if (m parent).children .right = some node then .ok .right
      else .error (.panic
        "bst: attempted to child index, but parent doesn't have the node as child")

/-- The walk towards the root in `bst_successor`. -/
def successorLoop (m : Nodes) (key : ℤ) : ℕ → Ptr → Except Fault Ptr
  | 0, _ => .error .outOfFuel
  | _ + 1, none => .ok none
  | fuel + 1, some current =>
      if key < (m current).key then .ok (some current)
      else successorLoop m key fuel (m current).parent

def bstSuccessor (fuel : ℕ) (m : Nodes) (node : ℕ) : Except Fault Ptr :=
  match (m node).children .right with
  | none => do
      let result ← successorLoop m (m node).key fuel (m node).parent
      checkSubtree m false ⟨false, false⟩ fuel (some node) (m node).parent
      .ok result
  | some rightSubtree => bstMinOf fuel m (some rightSubtree)

/-- The walk towards the root in `bst_predecessor`. -/
def predecessorLoop (m : Nodes) (key : ℤ) : ℕ → Ptr → Except Fault Ptr
  | 0, _ => .error .outOfFuel
  | _ + 1, none => .ok none
  | fuel + 1, some current =>
      if key > (m current).key then .ok (some current)
      else predecessorLoop m key fuel (m current).parent

/-- Past the root, `bst_predecessor` goes on to its last line. -/
def bstPredecessor (fuel : ℕ) (m : Nodes) (node : ℕ) : Except Fault Ptr :=
  match (m node).children .left with
  | none => do
      match ← predecessorLoop m (m node).key fuel (m node).parent with
      | some current => do
          checkSubtree m false ⟨false, false⟩ fuel (some node) (m node).parent
          .ok (some current)
      | none => bstMaxOf fuel m none
  | some leftSubtree => bstMaxOf fuel m (some leftSubtree)

/-! ## Heights and balance factors -/

/-- The height stored in a child, counted from its parent. -/
def storedHeight (m : Nodes) (child : Ptr) : ℤ :=
  match child with
  | none => 0
  | some c => (m c).height + 1

/-- The height of a node from the heights stored in its children. -/
def heightFromChildren (m : Nodes) (node : ℕ) : ℤ :=
  let lheight := storedHeight m ((m node).children .left)
  let rheight := storedHeight m ((m node).children .right)
  if lheight < rheight then rheight else lheight

/-- The balance factor of a node from the heights stored in its children. -/
def bfFromChildren (m : Nodes) (node : ℕ) : ℤ :=
  storedHeight m ((m node).children .left) -
    storedHeight m ((m node).children .right)

def recalculateHeightLoop : ℕ → Nodes → Ptr → Except Fault Nodes
  | 0, _, _ => .error .outOfFuel
  | _ + 1, m, none => .ok m
  | fuel + 1, m, some current =>
      recalculateHeightLoop fuel
        (m.setHeight current (heightFromChildren m current))
        (m current).parent

def bstRecalculateHeight (fuel : ℕ) (m : Nodes) (subtreeRoot : ℕ) :
    Except Fault Nodes := do
  checkSubtree m true ⟨true, true⟩ fuel (some subtreeRoot)
    (m subtreeRoot).parent
  let m ← recalculateHeightLoop fuel m (some subtreeRoot)
  checkSubtree m false ⟨false, true⟩ fuel (some subtreeRoot)
    (m subtreeRoot).parent
  .ok m

/-- The first loop of `bst_recalculate_bf`, from `current` to `last` in key
order. -/
def recalculateBfLoop (fuel : ℕ) (last : Ptr) :
    ℕ → Nodes → ℕ → Except Fault Nodes
  | 0, _, _ => .error .outOfFuel
  | left + 1, m, current =>
      let m := m.setBf current (bfFromChildren m current)
      if some current = last then .ok m
      else do
        match ← bstSuccessor fuel m current with
        | none => .error (.assertion "current")
        | some next => recalculateBfLoop fuel last left m next

/-- The second loop of `bst_recalculate_bf`, over the parents. -/
def recalculateBfParents : ℕ → Nodes → Ptr → Except Fault Nodes
  | 0, _, _ => .error .outOfFuel
  | _ + 1, m, none => .ok m
  | fuel + 1, m, some current =>
      recalculateBfParents fuel
        (m.setBf current (bfFromChildren m current)) (m current).parent

def bstRecalculateBf (fuel : ℕ) (m : Nodes) (subtreeRoot : ℕ) :
    Except Fault Nodes := do
  checkSubtree m true ⟨false, true⟩ fuel (some subtreeRoot)
    (m subtreeRoot).parent
  let current ← bstMinOf fuel m (some subtreeRoot)
  let last ← bstMaxOf fuel m (some subtreeRoot)
  match current with
  | none => .error .nullDereference
  | some current => do
      let m ← recalculateBfLoop fuel last fuel m current
      let m ← recalculateBfParents fuel m (m subtreeRoot).parent
      checkSubtree m false ⟨false, false⟩ fuel (some subtreeRoot)
        (m subtreeRoot).parent
      .ok m

/-! ## Rotation -/

/-- Put `replacement` where `node` hangs: below its parent, or as the root. -/
def replaceInParent (self : Bst) (node : ℕ) (replacement : Ptr) :
    Except Fault Bst :=
  match (self.nodes node).parent with
  | none => .ok { self with root := replacement }
  | some parent => do
      let dir ← bstDirInParent self.nodes node
      .ok { self with nodes := self.nodes.setChild parent dir replacement }

/-- `p->parent = parent` unless `p` is null. -/
def setParentOf (m : Nodes) (p : Ptr) (parent : Ptr) : Nodes :=
  match p with
  | none => m
  | some a => m.setParent a parent

def bstRotate (fuel : ℕ) (self : Bst) (nodeA : ℕ) (dir : Dir) :
    Except Fault Bst := do
  checkTree fuel self true ⟨false, false⟩
  match (self.nodes nodeA).children dir.opposite with
  | none => .error (.panic "bst: the subtree cannot be rotated")
  | some nodeB => do
      let nodeC := (self.nodes nodeB).children dir
      let nodeP := (self.nodes nodeA).parent
      let self ← replaceInParent self nodeA (some nodeB)
      let m := self.nodes.setParent nodeB nodeP
      let m := m.setChild nodeB dir (some nodeA)
      let m := m.setParent nodeA (some nodeB)
      let m := m.setChild nodeA dir.opposite nodeC
      let m := setParentOf m nodeC (some nodeA)
      let m ← bstRecalculateHeight fuel m nodeA
      let m ← bstRecalculateBf fuel m nodeB
      let self := { self with nodes := m }
      checkTree fuel self false ⟨false, false⟩
      .ok self

/-- The heavy child is itself heavier on its inner side. -/
def leansInward : Dir → ℤ → Bool
  | .left, bf => decide (bf < 0)
  | .right, bf => decide (bf > 0)

/-- One side of `bst_check_and_rebalence`: the subtree at `current` is too
high in direction `heavy`. -/
def rotateHeavy (fuel : ℕ) (self : Bst) (current : ℕ) (heavy : Dir) :
    Except Fault Bst := do
  match (self.nodes current).children heavy with
  | none => .error (.assertion "child")
  | some child => do
      let self ←
        if leansInward heavy (self.nodes child).bf then
          bstRotate fuel self child heavy
        else .ok self
      bstRotate fuel self current heavy.opposite

/-- The body of the loop of `bst_check_and_rebalence`. -/
def rebalenceStep (fuel : ℕ) (self : Bst) (current : ℕ) : Except Fault Bst :=
  if (self.nodes current).bf > 1 then
    rotateHeavy fuel self current .left
  else if (self.nodes current).bf < -1 then
    rotateHeavy fuel self current .right
  else .ok self

def checkAndRebalenceLoop (fuel : ℕ) : ℕ → Bst → Ptr → Except Fault Bst
  | 0, _, _ => .error .outOfFuel
  | _ + 1, self, none => .ok self
  | left + 1, self, some current => do
      let oldparent := (self.nodes current).parent
      let self ← rebalenceStep fuel self current
      cAssert (some current ≠ oldparent) "current != oldparent"
      checkAndRebalenceLoop fuel left self oldparent

def bstCheckAndRebalence (fuel : ℕ) (self : Bst) (startnode : ℕ) :
    Except Fault Bst := do
  checkTree fuel self true ⟨false, false⟩
  let self ← checkAndRebalenceLoop fuel fuel self (some startnode)
  checkTree fuel self false ⟨false, false⟩
  .ok self

/-! ## Insertion -/

/-- The search for the place of a new key: the node below which it goes and
the direction.  The last two arguments are the values which the source's
loop variables have so far. -/
def insertLoop (m : Nodes) (key : ℤ) :
    ℕ → Ptr → Option (ℕ × Dir) → Except Fault (Option (ℕ × Dir))
  | 0, _, _ => .error .outOfFuel
  | _ + 1, none, place => .ok place
  | fuel + 1, some current, _ =>
      if key < (m current).key then
        insertLoop m key fuel ((m current).children .left)
          (some (current, .left))
      else if key > (m current).key then
        insertLoop m key fuel ((m current).children .right)
          (some (current, .right))
      else .error (.panic "bst: duplicate tree key found")

/-- The parent's values are recomputed after its subtree has changed. -/
def recalculateFrom (fuel : ℕ) (m : Nodes) (parent : Ptr) :
    Except Fault Nodes :=
  match parent with
  | none => .ok m
  | some parent => do
      let m ← bstRecalculateHeight fuel m parent
      bstRecalculateBf fuel m parent

def bstInsertNodeUnbalenced (fuel : ℕ) (self : Bst) (node : ℕ) (key : ℤ)
    (data : ℕ) : Except Fault Bst := do
  checkTree fuel self true ⟨false, false⟩
  let m : Nodes := Function.update self.nodes node
    { self.nodes node with
      children := fun _ => none, bf := 0, data := data, key := key }
  match ← insertLoop m key fuel self.root none with
  | none => do
      let self : Bst := ⟨some node, m.setParent node none⟩
      checkTree fuel self false ⟨false, false⟩
      .ok self
  | some (insertparent, childindex) => do
      let m := m.setChild insertparent childindex (some node)
      let m := m.setParent node (some insertparent)
      let m ← recalculateFrom fuel m (m node).parent
      let self := { self with nodes := m }
      checkTree fuel self false ⟨false, false⟩
      .ok self

/-- The second half of the balanced operations. -/
def rebalenceFrom (fuel : ℕ) (self : Bst) (parent : Ptr) :
    Except Fault Bst := do
  let self ←
    match parent with
    | none => .ok self
    | some parent => bstCheckAndRebalence fuel self parent
  checkTree fuel self false ⟨false, false⟩
  .ok self

def bstInsertNode (fuel : ℕ) (self : Bst) (node : ℕ) (key : ℤ)
    (data : ℕ) : Except Fault Bst := do
  checkTree fuel self true ⟨false, false⟩
  let self ← bstInsertNodeUnbalenced fuel self node key data
  rebalenceFrom fuel self (self.nodes node).parent

/-! ## Removal -/

def removeTerminalNode (self : Bst) (node : ℕ) : Except Fault Bst := do
  cAssert ((self.nodes node).parent ≠ none ∨ self.root = some node)
    "self->root == node"
  replaceInParent self node none

/-- `remove_node_with_left_child` and `remove_node_with_right_child`; `dir`
is the side of the only child. -/
def removeNodeWithChild (dir : Dir) (self : Bst) (node : ℕ) :
    Except Fault Bst := do
  match (self.nodes node).children dir with
  | none => .error .nullDereference
  | some child => do
      cAssert ((self.nodes node).parent ≠ none ∨ self.root = some node)
        "self->root == node"
      let parent := (self.nodes node).parent
      let self ← replaceInParent self node (some child)
      .ok { self with nodes := self.nodes.setParent child parent }

def removeNodeWithLeftChild : Bst → ℕ → Except Fault Bst :=
  removeNodeWithChild .left

def removeNodeWithRightChild : Bst → ℕ → Except Fault Bst :=
  removeNodeWithChild .right

/-- The pointer writes of `remove_node_with_both_children` which give the
links of `node` to `replacement`. -/
def takeLinks (m : Nodes) (node replacement : ℕ) : Nodes :=
  let m := m.setParent replacement (m node).parent
  let m := m.setChild replacement .left ((m node).children .left)
  let m := m.setChild replacement .right ((m node).children .right)
  let m := setParentOf m ((m replacement).children .left) (some replacement)
  setParentOf m ((m replacement).children .right) (some replacement)

def removeNodeWithBothChildren (fuel : ℕ) (self : Bst) (node : ℕ) :
    Except Fault Bst := do
  match ← bstMaxOf fuel self.nodes ((self.nodes node).children .left) with
  | none => .error (.assertion "replacement")
  | some replacement =>
    match (self.nodes replacement).parent with
    | none => .error (.assertion "replacement->parent")
    | some oldParent => do
        let dir ← bstDirInParent self.nodes replacement
        let self : Bst :=
          { self with nodes := self.nodes.setChild oldParent dir none }
        let self ← replaceInParent self node (some replacement)
        let m := takeLinks self.nodes node replacement
        let m ← bstRecalculateHeight fuel m
          (if oldParent ≠ node then oldParent else replacement)
        let m ← bstRecalculateBf fuel m replacement
        .ok { self with nodes := m }

/-- The four cases of `bst_remove_node_unbalenced`. -/
def removeByShape (fuel : ℕ) (self : Bst) (node : ℕ) : Except Fault Bst :=
  match (self.nodes node).children .left,
      (self.nodes node).children .right with
  | none, none => removeTerminalNode self node
  | some _, none => removeNodeWithLeftChild self node
  | none, some _ => removeNodeWithRightChild self node
  | some _, some _ => removeNodeWithBothChildren fuel self node

def bstRemoveNodeUnbalenced (fuel : ℕ) (self : Bst) (node : ℕ) :
    Except Fault Bst := do
  checkTree fuel self true ⟨false, false⟩
  let parentNode := (self.nodes node).parent
  let self ← removeByShape fuel self node
  let m ← recalculateFrom fuel self.nodes parentNode
  let self := { self with nodes := m }
  checkTree fuel self false ⟨false, false⟩
  .ok self

def bstRemoveNode (fuel : ℕ) (self : Bst) (node : ℕ) :
    Except Fault Bst := do
  checkTree fuel self true ⟨false, false⟩
  let self ← bstRemoveNodeUnbalenced fuel self node
  rebalenceFrom fuel self (self.nodes node).parent

/-! ## Search -/

def findLoop (m : Nodes) (key : ℤ) : ℕ → Ptr → Except Fault Ptr
  | 0, _ => .error .outOfFuel
  | _ + 1, none => .ok none
  | fuel + 1, some current =>
      if key < (m current).key then
        findLoop m key fuel ((m current).children .left)
      else if key > (m current).key then
        findLoop m key fuel ((m current).children .right)
      else .ok (some current)

def bstFindNode (fuel : ℕ) (self : Bst) (key : ℤ) : Except Fault Ptr := do
  checkTree fuel self true ⟨false, false⟩
  let result ← findLoop self.nodes key fuel self.root
  checkTree fuel self false ⟨false, false⟩
  .ok result

end Bst
end Yjkos
