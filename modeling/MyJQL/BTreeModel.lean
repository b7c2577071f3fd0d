import MyJQL.ArrayLoops
import MyJQL.PagedPrograms
import MyJQL.TableModel

/-!
# The B-tree

A direct transcription of `b_tree.c` for any `DEGREE`, over pages that are kept in a pool or in any
other way. The control block overlays the first fields of a node. Comparators and handlers are
programs over a store of their own, which the pages of the tree do not share. Each `while` of the
source is a loop whose turns carry the variables that live across them.
-/

namespace MyJQL.BTreeModel

open MyJQL.FileIo
open MyJQL.BufferPoolModel
open MyJQL.StateProgram
open MyJQL.PageStoreLogic (PagePtr)
open MyJQL.PagedPrograms
open MyJQL.PagedPrograms.Paged
open MyJQL.TableModel
open MyJQL.ArrayLoops

set_option autoImplicit false

structure BNode where
  n : Nat
  next : Int
  parent : Int
  child : Nat → Int
  rowPtr : Nat → RID
  leaf : Bool

/-- The fields of `BCtrlBlock` -/
def rootNode (page : BNode) : Int := page.n
def freeNodeHead (page : BNode) : Int := page.next
def freeNodeTail (page : BNode) : Int := page.parent
def freeNodeNum (page : BNode) : Int := page.child 0

/-- A root is never put at a negative address. -/
def setRootNode (addr : Int) (page : BNode) : BNode := { page with n := addr.toNat }
def setFreeNodeHead (addr : Int) (page : BNode) : BNode := { page with next := addr }
def setFreeNodeTail (addr : Int) (page : BNode) : BNode := { page with parent := addr }
def setFreeNodeNum (num : Int) (page : BNode) : BNode :=
  { page with child := Function.update page.child 0 num }

section Fields

variable (addr num : Int) (page : BNode)

@[simp] theorem root_node_set_root_node (nonneg : 0 ≤ addr) : rootNode (setRootNode addr page) = addr := by
  simp only [rootNode, setRootNode]
  omega
@[simp] theorem root_node_set_free_node_head : rootNode (setFreeNodeHead addr page) = rootNode page := rfl
@[simp] theorem root_node_set_free_node_tail : rootNode (setFreeNodeTail addr page) = rootNode page := rfl
@[simp] theorem root_node_set_free_node_num : rootNode (setFreeNodeNum num page) = rootNode page := rfl

@[simp] theorem free_node_head_set_root_node :
    freeNodeHead (setRootNode addr page) = freeNodeHead page := rfl
@[simp] theorem free_node_head_set_free_node_head : freeNodeHead (setFreeNodeHead addr page) = addr := rfl
@[simp] theorem free_node_head_set_free_node_tail :
    freeNodeHead (setFreeNodeTail addr page) = freeNodeHead page := rfl
@[simp] theorem free_node_head_set_free_node_num :
    freeNodeHead (setFreeNodeNum num page) = freeNodeHead page := rfl

@[simp] theorem free_node_tail_set_root_node :
    freeNodeTail (setRootNode addr page) = freeNodeTail page := rfl
@[simp] theorem free_node_tail_set_free_node_head :
    freeNodeTail (setFreeNodeHead addr page) = freeNodeTail page := rfl
@[simp] theorem free_node_tail_set_free_node_tail : freeNodeTail (setFreeNodeTail addr page) = addr := rfl
@[simp] theorem free_node_tail_set_free_node_num :
    freeNodeTail (setFreeNodeNum num page) = freeNodeTail page := rfl

@[simp] theorem free_node_num_set_root_node : freeNodeNum (setRootNode addr page) = freeNodeNum page := rfl
@[simp] theorem free_node_num_set_free_node_head :
    freeNodeNum (setFreeNodeHead addr page) = freeNodeNum page := rfl
@[simp] theorem free_node_num_set_free_node_tail :
    freeNodeNum (setFreeNodeTail addr page) = freeNodeNum page := rfl
@[simp] theorem free_node_num_set_free_node_num : freeNodeNum (setFreeNodeNum num page) = num := by
  simp [freeNodeNum, setFreeNodeNum]

end Fields

def setNext (addr : Int) (page : BNode) : BNode := { page with next := addr }
def setParent (addr : Int) (page : BNode) : BNode := { page with parent := addr }
def setChild (j : Nat) (addr : Int) (page : BNode) : BNode :=
  { page with child := Function.update page.child j addr }

abbrev IndexPool := BufferPool BNode

/-- The pool of the tree and the store of the callbacks. -/
abbrev Index (Store : Type) := IndexPool × Store

variable {Pages Store Value : Type}

def onIndex (program : Program Pages Value) : Program (Pages × Store) Value := firstPart.run program

def onStore (program : Program Store Value) : Program (Pages × Store) Value := secondPart.run program

/-- The functions that the callers of the tree pass to it. -/
structure Callbacks (Store : Type) where
  cmp : RID → RID → Program Store Int
  insertHandler : RID → Program Store RID
  deleteHandler : RID → Program Store Unit

def bTreeInit (disk : Disk BNode) : Program IndexPool Unit := do
  modify (initBufferPool disk)
  let length ← fileLength
  if length = 0 then
    let ctr ← fetch 0
    let node ← fetch pageSize
    amend ctr fun page =>
      setFreeNodeNum 0 (setFreeNodeTail (-1) (setFreeNodeHead (-1) (setRootNode pageSize page)))
    amend node fun page => { page with n := 0, next := -1, parent := -1, leaf := true }
    unpin 0
    unpin pageSize
  else pure ()

def bTreeClose (pool : IndexPool) : IndexPool := closeBufferPool pool

variable [Paged Pages BNode]

def getNewBNode : Program Pages Int := do
  let ctr ← fetch 0
  let control ← load ctr
  if freeNodeNum control ≠ 0 then
    let ans := freeNodeHead control
    let node ← fetch ans
    let page ← load node
    amend ctr (setFreeNodeHead page.next)
    amend node (setNext (-1))
    unpin ans
    amend ctr (setFreeNodeNum (freeNodeNum control - 1))
    if freeNodeNum control - 1 = 0 then amend ctr (setFreeNodeTail (-1)) else pure ()
    unpin 0
    pure ans
  else
    unpin 0
    pure (-1)

/-- The part of `release_new_BNode` that links a page behind the free list. -/
def linkFree (addr : Int) : Program Pages Unit := do
  let ctr ← fetch 0
  let control ← load ctr
  if freeNodeNum control ≠ 0 then
    amend ctr (setFreeNodeNum (freeNodeNum control + 1))
    let tail ← fetch (freeNodeTail control)
    amend tail (setNext addr)
    unpin (freeNodeTail control)
    amend ctr (setFreeNodeTail addr)
  else
    amend ctr fun page => setFreeNodeNum 1 (setFreeNodeTail addr (setFreeNodeHead addr page))
  unpin 0
  let node ← fetch addr
  amend node (setNext (-1))
  unpin addr

def releaseNewBNode (addr : Int) : Program Pages Unit := do
  unpin addr
  let length ← fileLength
  if addr = length - pageSize then cutLast addr else linkFree addr

/-- A recycled page, or the page at the end of the file. -/
def newNode : Program Pages PagePtr := do
  let addr ← getNewBNode
  if addr = -1 then
    let length ← fileLength
    fetch length
  else fetch addr

/-- `son = get_page(addr); son->parent = parent; release(addr)` -/
def reparent (parent addr : Int) : Program Pages Unit := do
  let son ← fetch addr
  amend son (setParent parent)
  unpin addr

def lowerBoundTurn (compare : RID → Program Store Int) (row : Nat → RID) :
    Int × Int × Int → Program Store ((Int × Int × Int) ⊕ Int)
  | (l, r, ans) =>
    if l ≤ r then do
      let mid := (l + r) / 2
      let order ← compare (row mid.toNat)
      if order > 0 then pure (.inl (mid + 1, r, ans)) else pure (.inl (l, mid - 1, mid))
    else pure (.inr ans)

/-- The loop of both binary searches; `compare` has the key that is searched for. -/
def lowerBoundLoop (compare : RID → Program Store Int) (row : Nat → RID) (l r ans : Int) :
    Program Store Int := loop (lowerBoundTurn compare row) (l, r, ans)

theorem lower_bound_loop_eq (compare : RID → Program Store Int) (row : Nat → RID) (l r ans : Int) :
    lowerBoundLoop compare row l r ans = (if l ≤ r then do
      let mid := (l + r) / 2
      let order ← compare (row mid.toNat)
      if order > 0 then lowerBoundLoop compare row (mid + 1) r ans
      else lowerBoundLoop compare row l (mid - 1) mid
    else pure ans) := by
  rw [lowerBoundLoop, loop_eq, lowerBoundTurn]
  simp only [bind_assoc, bind_ite, pure_bind, afterTurn]
  rfl

def lowerBoundPr (cmp : RID → Program Store Int) (row : Nat → RID) (count : Nat) :
    Program Store Nat := do
  let ans ← lowerBoundLoop cmp row 0 (count - 1) count
  pure ans.toNat

def lowerBoundRr (cmp : RID → RID → Program Store Int) (row : Nat → RID) (count : Nat) (rid : RID) :
    Program Store Nat := lowerBoundPr (cmp rid) row count

/-- The position of a key among the rows of a node, and whether the row there has that key. -/
def locate (compare : RID → Program Store Int) (page : BNode) : Program Store (Nat × Bool) := do
  let i ← lowerBoundPr compare page.rowPtr page.n
  if i = page.n then pure (i, false)
  else
    let order ← compare (page.rowPtr i)
    pure (i, order = 0)

structure Place where
  node : PagePtr
  idx : Nat
  hit : Bool

section Operations

variable (degree : Nat)

/-- One level of a descent: right of an equal separator, else left of the first larger one. -/
def descendTurn (compare : RID → Program Store Int) (node : PagePtr) :
    Program (Pages × Store) (PagePtr ⊕ Place) := do
  let page ← onIndex (load node)
  check (page.n ≤ 2 * degree - 1)
  let (i, hit) ← onStore (locate compare page)
  if page.leaf then pure (.inr ⟨node, i, hit⟩)
  else
    onIndex (unpin node.addr)
    let next ← onIndex (fetch (page.child (if hit then i + 1 else i)))
    pure (.inl next)

/-- The descent that searching, inserting and deleting share. -/
def descend (compare : RID → Program Store Int) (node : PagePtr) : Program (Pages × Store) Place :=
  loop (descendTurn degree compare) node

def fetchRoot : Program (Pages × Store) PagePtr := onIndex do
  let ctr ← fetch 0
  let control ← load ctr
  unpin 0
  fetch (rootNode control)

def nothing : RID := ⟨-1, 0⟩

/-- `cmp` has the key and its size. -/
def bTreeSearch (cmp : RID → Program Store Int) : Program (Pages × Store) RID := do
  let node ← fetchRoot
  let root ← onIndex (load node)
  if root.n = 0 then
    onIndex (unpin node.addr)
    pure nothing
  else
    let place ← descend degree cmp node
    let page ← onIndex (load place.node)
    onIndex (unpin place.node.addr)
    pure (if place.hit then page.rowPtr place.idx else nothing)

def insertRow (i : Nat) (rid : RID) (page : BNode) : BNode :=
  { page with n := page.n + 1, rowPtr := Function.update (shiftUp i page.n page.rowPtr) i rid }

def insertChild (i : Nat) (addr : Int) (page : BNode) : BNode :=
  { page with child := Function.update (shiftUp i (page.n + 1) page.child) i addr }

/-- The left half of a full node with one more row, with `n` rows. -/
def splitLeft (i : Nat) (rid : RID) (n : Nat) (page : BNode) : BNode :=
  { page with
    n := n
    rowPtr := if i < degree then Function.update (shiftUp i (degree - 1) page.rowPtr) i rid
      else page.rowPtr }

/-- The right half, in the page `y`. -/
def splitRight (i : Nat) (rid : RID) (page y : BNode) : BNode :=
  { y with
    n := degree
    parent := page.parent
    leaf := page.leaf
    rowPtr := if i < degree then copyEntries page.rowPtr (degree - 1) 0 degree y.rowPtr
      else weave page.rowPtr i rid degree degree 0 false y.rowPtr }

/-- The children of a full node with one more. -/
def childrenWith (i : Nat) (addr : Int) (page : BNode) : Nat → Int :=
  weave page.child i addr (2 * degree + 1) 0 0 false fun _ => 0

/-- `for (; count > 0; j++) { owner->child[j] = ch[j]; child->parent = owner }` -/
def adopt (owner : PagePtr) (ch : Nat → Int) : Nat → Nat → Program Pages Unit
  | 0, _ => pure ()
  | count + 1, j => do
      amend owner (setChild j (ch j))
      reparent owner.addr (ch j)
      adopt owner ch count (j + 1)

/-- A row that goes up from a leaf is copied, one that goes up from an inner node is moved. -/
def promote (callbacks : Callbacks Store) (handler : Bool) (rid : RID) : Program (Pages × Store) RID :=
  if handler then onStore (callbacks.insertHandler rid) else pure rid

/-- The new root above the two halves of the old one. -/
def growRoot (callbacks : Callbacks Store) (node y : PagePtr) (rid : RID) (handler : Bool) :
    Program (Pages × Store) Unit := do
  let p ← onIndex newNode
  onIndex (amend p fun page => { page with
    n := 1
    next := -1
    parent := -1
    child := Function.update (Function.update page.child 0 node.addr) 1 y.addr })
  let sep ← promote callbacks handler rid
  onIndex do
    amend p fun page => { page with rowPtr := Function.update page.rowPtr 0 sep, leaf := false }
    amend y (setParent p.addr)
    amend node (setParent p.addr)
    unpin node.addr
    unpin y.addr
    let ctr ← fetch 0
    amend ctr (setRootNode p.addr)
    unpin 0
    unpin p.addr

/-- The halves of a node are at `node` and `y`, and `rid` goes between them. -/
structure Split where
  node : PagePtr
  y : PagePtr
  rid : RID
  handler : Bool

def splitTurn (callbacks : Callbacks Store) : Split → Program (Pages × Store) (Split ⊕ Unit)
  | ⟨node, y, rid, handler⟩ => do
  let page ← onIndex (load node)
  if page.parent ≥ 0 then
    let p ← onIndex (fetch page.parent)
    let parent ← onIndex (load p)
    check (parent.n ≤ 2 * degree - 1)
    let i ← onStore (lowerBoundRr callbacks.cmp parent.rowPtr parent.n rid)
    if parent.n = 2 * degree - 1 then
      let tmp ← onIndex newNode
      let sep ← promote callbacks handler rid
      onIndex (amend tmp (splitRight degree i sep parent))
      onIndex (amend p (splitLeft degree i sep (degree - 1)))
      let left ← onIndex (load p)
      onIndex (unpin node.addr)
      onIndex (unpin y.addr)
      let ch := childrenWith degree (i + 1) y.addr parent
      onIndex (adopt p ch degree 0)
      onIndex (adopt tmp (fun j => ch (j + degree)) (degree + 1) 0)
      pure (.inl ⟨p, tmp, left.rowPtr (degree - 1), false⟩)
    else
      let sep ← promote callbacks handler rid
      onIndex (amend p fun page => insertRow i sep (insertChild (i + 1) y.addr page))
      onIndex (unpin node.addr)
      onIndex (unpin y.addr)
      onIndex (unpin p.addr)
      pure (.inr ())
  else
    growRoot callbacks node y rid handler
    pure (.inr ())

/-- `while (tag_split)` -/
def splitLoop (callbacks : Callbacks Store) (node y : PagePtr) (rid : RID) (handler : Bool) :
    Program (Pages × Store) Unit := loop (splitTurn degree callbacks) ⟨node, y, rid, handler⟩

def insertAtLeaf (callbacks : Callbacks Store) (rid : RID) (place : Place) :
    Program (Pages × Store) Unit := do
  let page ← onIndex (load place.node)
  if page.n = 2 * degree - 1 then
    let y ← onIndex newNode
    onIndex (amend y (splitRight degree place.idx rid page))
    onIndex (amend place.node (splitLeft degree place.idx rid degree))
    let right ← onIndex (load y)
    splitLoop degree callbacks place.node y (right.rowPtr 0) true
  else
    onIndex (amend place.node (insertRow place.idx rid))
    onIndex (unpin place.node.addr)

/-- A row whose key is in the leaf already is reported and inserted nevertheless. -/
def bTreeInsert (callbacks : Callbacks Store) (rid : RID) : Program (Pages × Store) RID := do
  let node ← fetchRoot
  let place ← descend degree (callbacks.cmp rid) node
  insertAtLeaf degree callbacks rid place
  pure nothing

def removeRow (i : Nat) (page : BNode) : BNode :=
  { page with n := page.n - 1, rowPtr := shiftDown (page.n - 1 - i) i page.rowPtr }

/-- The child behind the row goes with it. -/
def removeChild (i : Nat) (page : BNode) : BNode :=
  { page with child := shiftDown (page.n - 1 - i) (i + 1) page.child }

def pushRow (rid : RID) (page : BNode) : BNode :=
  { page with n := page.n + 1, rowPtr := Function.update (shiftUp 0 page.n page.rowPtr) 0 rid }

def pushChild (addr : Int) (page : BNode) : BNode :=
  { page with child := Function.update (shiftUp 0 (page.n + 1) page.child) 0 addr }

def dropRow (page : BNode) : BNode :=
  { page with n := page.n - 1, rowPtr := shiftDown (page.n - 1) 0 page.rowPtr }

def dropChild (page : BNode) : BNode := { page with child := shiftDown page.n 0 page.child }

def addRow (rid : RID) (page : BNode) : BNode :=
  { page with n := page.n + 1, rowPtr := Function.update page.rowPtr page.n rid }

def addChild (addr : Int) (page : BNode) : BNode :=
  { page with child := Function.update page.child (page.n + 1) addr }

def setRow (i : Nat) (rid : RID) (page : BNode) : BNode :=
  { page with rowPtr := Function.update page.rowPtr i rid }

def setCount (n : Nat) (page : BNode) : BNode := { page with n := n }

def appendRows (source page : BNode) : BNode :=
  { page with
    n := page.n + source.n
    rowPtr := copyEntries source.rowPtr 0 page.n source.n page.rowPtr }

/-- The children of `source` behind the children of a node, which has one row more by now. -/
def appendChildren (source page : BNode) : BNode :=
  { page with child := copyEntries source.child 0 page.n (source.n + 1) page.child }

/-- What differs between leaves and inner nodes when a node is one row short. -/
structure Level (Pages Store : Type) where
  borrowLeft : (node sib p : PagePtr) → (index : Nat) → Program (Pages × Store) Unit
  borrowRight : (node sib p : PagePtr) → (index : Nat) → Program (Pages × Store) Unit
  /-- Moves all of the second node into the first; the row between them is at hand. -/
  merge : (first second : PagePtr) → RID → Program (Pages × Store) Unit

/-- The row between two leaves is exchanged: the old copy goes, and a new one is made. -/
def renewRow (callbacks : Callbacks Store) (p : PagePtr) (i : Nat) (rid : RID) :
    Program (Pages × Store) Unit := do
  let parent ← onIndex (load p)
  onStore (callbacks.deleteHandler (parent.rowPtr i))
  let sep ← onStore (callbacks.insertHandler rid)
  onIndex (amend p (setRow i sep))

def leafLevel (callbacks : Callbacks Store) : Level Pages Store where
  borrowLeft node sib p index := do
    let left ← onIndex (load sib)
    onIndex (amend node (pushRow (left.rowPtr (left.n - 1))))
    onIndex (amend sib (setCount (left.n - 1)))
    renewRow callbacks p (index - 1) (left.rowPtr (left.n - 1))
  borrowRight node sib p index := do
    let right ← onIndex (load sib)
    onIndex (amend node (addRow (right.rowPtr 0)))
    onIndex (amend sib dropRow)
    let rest ← onIndex (load sib)
    renewRow callbacks p index (rest.rowPtr 0)
  merge first second _ := onIndex do
    let source ← load second
    let target ← load first
    check (target.n + source.n ≤ 2 * degree - 1)
    amend first (appendRows source)
    amend second (setCount 0)
    releaseNewBNode second.addr
    unpin first.addr

/-- `for (j = first; count > 0; j++) child[j]->parent = parent` -/
def reparentAll (parent : Int) (child : Nat → Int) : Nat → Nat → Program Pages Unit
  | 0, _ => pure ()
  | count + 1, j => do
      reparent parent (child j)
      reparentAll parent child count (j + 1)

def innerLevel : Level Pages Store where
  borrowLeft node sib p index := onIndex do
    let left ← load sib
    let parent ← load p
    amend node fun page => pushRow (parent.rowPtr (index - 1)) (pushChild (left.child left.n) page)
    amend p (setRow (index - 1) (left.rowPtr (left.n - 1)))
    amend sib (setCount (left.n - 1))
    reparent node.addr (left.child left.n)
  borrowRight node sib p index := onIndex do
    let right ← load sib
    let parent ← load p
    amend node fun page => addRow (parent.rowPtr index) (addChild (right.child 0) page)
    amend p (setRow index (right.rowPtr 0))
    amend sib fun page => dropRow (dropChild page)
    reparent node.addr (right.child 0)
  merge first second between := onIndex do
    let source ← load second
    let target ← load first
    check (target.n + source.n + 1 ≤ 2 * degree - 1)
    amend first fun page => appendRows source (appendChildren source (addRow between page))
    reparentAll first.addr source.child (source.n + 1) 0
    amend second (setCount 0)
    releaseNewBNode second.addr
    unpin first.addr

/-- The place of a child, which is not initialized when no entry matches. -/
def findChild (parent : BNode) (addr : Int) : Option Nat :=
  (List.range (parent.n + 1)).find? fun j => parent.child j = addr

/-- Merges with the left sibling if there is one, else with the right one. What is left to do is to
take the row between them out of the parent. -/
def mergeSiblings (level : Level Pages Store) (node p : PagePtr) (index : Nat) :
    Program (Pages × Store) (Option (PagePtr × RID)) := do
  let parent ← onIndex (load p)
  if index > 0 then
    let sib ← onIndex (fetch (parent.child (index - 1)))
    level.merge sib node (parent.rowPtr (index - 1))
    pure (some (p, parent.rowPtr (index - 1)))
  else
    let sib ← onIndex (fetch (parent.child (index + 1)))
    level.merge node sib (parent.rowPtr index)
    pure (some (p, parent.rowPtr index))

/-- Looks at the right sibling. `sibAddr` is what is released when there is none: the left sibling
for the second time. -/
def tryRight (level : Level Pages Store) (node p : PagePtr) (index : Nat) (sibAddr : Option Int) :
    Program (Pages × Store) (Option (PagePtr × RID)) := do
  let parent ← onIndex (load p)
  if index < parent.n then
    let sib ← onIndex (fetch (parent.child (index + 1)))
    let right ← onIndex (load sib)
    if right.n > degree - 1 then
      level.borrowRight node sib p index
      onIndex (unpin node.addr)
      onIndex (unpin sib.addr)
      onIndex (unpin p.addr)
      pure none
    else
      onIndex (unpin sib.addr)
      mergeSiblings level node p index
  else
    let addr ← ofOption sibAddr
    onIndex (unpin addr)
    mergeSiblings level node p index

/-- A node with a row too few takes one from a sibling, or is merged with one. -/
def redistribute (level : Level Pages Store) (node : PagePtr) :
    Program (Pages × Store) (Option (PagePtr × RID)) := do
  let page ← onIndex (load node)
  let p ← onIndex (fetch page.parent)
  let parent ← onIndex (load p)
  check (parent.n ≤ 2 * degree - 1)
  let index ← ofOption (findChild parent node.addr)
  if index > 0 then
    let sib ← onIndex (fetch (parent.child (index - 1)))
    let left ← onIndex (load sib)
    if left.n > degree - 1 then
      level.borrowLeft node sib p index
      onIndex (unpin node.addr)
      onIndex (unpin sib.addr)
      onIndex (unpin p.addr)
      pure none
    else
      onIndex (unpin sib.addr)
      tryRight degree level node p index (some sib.addr)
  else tryRight degree level node p index none

/-- An empty root gives way to its only child. -/
def shrinkRoot (node : PagePtr) : Program Pages Unit := do
  let page ← load node
  let ctr ← fetch 0
  amend ctr (setRootNode (page.child 0))
  unpin 0
  releaseNewBNode node.addr
  reparent (-1) (page.child 0)

/-- The end of one turn of `while (tag_merge)`, when the row is out of the node. -/
def settle (node : PagePtr) : Program (Pages × Store) (Option (PagePtr × RID)) := do
  let page ← onIndex (load node)
  if page.parent ≥ 0 then
    if page.n < degree - 1 then redistribute degree (innerLevel degree) node
    else
      onIndex (unpin node.addr)
      pure none
  else if page.n = 0 then
    onIndex (shrinkRoot node)
    pure none
  else
    onIndex (unpin node.addr)
    pure none

/-- One turn of `while (tag_merge)`: the row between two merged nodes, and the second of them, leave
their parent. A row that stood between leaves is freed. -/
def mergeTurn (callbacks : Callbacks Store) : Bool × Option (PagePtr × RID) →
    Program (Pages × Store) (Bool × Option (PagePtr × RID) ⊕ Unit)
  | (_, none) => pure (.inr ())
  | (handler, some (node, rid)) => do
      let page ← onIndex (load node)
      check (page.n ≤ 2 * degree - 1)
      let i ← onStore (lowerBoundRr callbacks.cmp page.rowPtr page.n rid)
      if handler then onStore (callbacks.deleteHandler (page.rowPtr i)) else pure ()
      onIndex (amend node fun page => removeRow i (removeChild i page))
      let again ← settle degree node
      pure (.inl (false, again))

/-- `while (tag_merge)` -/
def mergeLoop (callbacks : Callbacks Store) (handler : Bool) (merged : Option (PagePtr × RID)) :
    Program (Pages × Store) Unit := loop (mergeTurn degree callbacks) (handler, merged)

def deleteAtLeaf (callbacks : Callbacks Store) (place : Place) : Program (Pages × Store) Unit := do
  onIndex (amend place.node (removeRow place.idx))
  let page ← onIndex (load place.node)
  if page.parent < 0 then onIndex (unpin place.node.addr)
  else if page.n < degree - 1 then
    let merged ← redistribute degree (leafLevel degree callbacks) place.node
    mergeLoop degree callbacks true merged
  else onIndex (unpin place.node.addr)

/-- A row whose key is in no leaf is reported; its leaf stays pinned. -/
def bTreeDelete (callbacks : Callbacks Store) (rid : RID) : Program (Pages × Store) Unit := do
  let node ← fetchRoot
  let place ← descend degree (callbacks.cmp rid) node
  if place.hit then deleteAtLeaf degree callbacks place else pure ()

end Operations

end MyJQL.BTreeModel
