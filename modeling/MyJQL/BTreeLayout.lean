import MyJQL.BTreeModel
import MyJQL.LinkedPages
import MyJQL.PageAccounting
import MyJQL.SearchTrees

/-!
# How a tree lies in its file

A search tree whose nodes have addresses is held by the pages at these addresses, each with the
address of the node above it. The other pages of the file are the control block, the free list
and pages that nothing refers to.
-/

namespace MyJQL.BTreeLayout

open MyJQL.FileIo
open MyJQL.BufferPoolModel
open MyJQL.StateProgram
open MyJQL.PageStoreLogic
open MyJQL.PageAccounting
open MyJQL.LinkedPages
open MyJQL.ArrayLoops
open MyJQL.TableModel
open MyJQL.SearchTrees
open MyJQL.BTreeModel

set_option autoImplicit false

abbrev IndexStore := PageStore BNode

abbrev Entry (Key : Type) := RID × Key

abbrev Leaf (Key : Type) := LeafNode Int RID Key

abbrev BTree (Key : Type) (height : Nat) := Tree Int RID Key height

abbrev Inner (Key : Type) (height : Nat) := InnerNode Int RID Key (BTree Key height)

variable {Key : Type}

structure HoldsNode (page : BNode) (leaf : Bool) (parent : Int) (rows : List RID) (kids : List Int) :
    Prop where
  n : page.n = rows.length
  leaf : page.leaf = leaf
  parent : page.parent = parent
  rows : Reads page.rowPtr rows
  kids : Reads page.child kids

def HoldsTree (page : Int → BNode) : (height : Nat) → Int → BTree Key height → Prop
  | 0, parent, (leaf : Leaf Key) =>
      HoldsNode (page leaf.addr) true parent (leaf.rows.map Prod.fst) []
  | height + 1, parent, (node : Inner Key height) =>
      HoldsNode (page node.addr) false parent (node.seps.map Prod.fst)
          (node.kids.map (Tree.addr height)) ∧
        ∀ kid ∈ node.kids, HoldsTree page height node.addr kid

section Equations

variable {page : Int → BNode} {parent : Int} {height : Nat}

@[simp] theorem holds_leaf {leaf : Leaf Key} : HoldsTree page 0 parent leaf ↔
    HoldsNode (page leaf.addr) true parent (leaf.rows.map Prod.fst) [] := Iff.rfl

@[simp] theorem holds_inner {node : Inner Key height} : HoldsTree page (height + 1) parent node ↔
    HoldsNode (page node.addr) false parent (node.seps.map Prod.fst)
      (node.kids.map (Tree.addr height)) ∧
      ∀ kid ∈ node.kids, HoldsTree page height node.addr kid := Iff.rfl

end Equations

/-- A tree reads its own pages only. -/
theorem holds_tree_frame {page changed : Int → BNode} {height : Nat} {parent : Int}
    {tree : BTree Key height} (same : ∀ addr ∈ tree.addrs height, changed addr = page addr)
    (holds : HoldsTree page height parent tree) : HoldsTree changed height parent tree := by
  induction height generalizing parent with
  | zero =>
      have here := same _ (Tree.addr_mem_addrs tree)
      simp only [Tree.addr_leaf] at here
      rw [holds_leaf, here]
      exact holds
  | succ height ih =>
      obtain ⟨own, kids⟩ := holds
      have here := same _ (Tree.addr_mem_addrs tree)
      simp only [Tree.addr_inner] at here
      rw [holds_inner, here]
      refine ⟨own, fun kid member => ih (fun addr inKid => same addr ?_) (kids kid member)⟩
      exact Multiset.mem_cons_of_mem (mem_kid_addrs member inKid)

theorem holds_tree_parent {page : Int → BNode} {height : Nat} {parent : Int} {tree : BTree Key height}
    (holds : HoldsTree page height parent tree) : (page (tree.addr height)).parent = parent := by
  cases height with
  | zero => exact holds.parent
  | succ height => exact holds.1.parent

theorem holds_tree_count {page : Int → BNode} {height : Nat} {parent : Int} {tree : BTree Key height}
    (holds : HoldsTree page height parent tree) : (page (tree.addr height)).n = tree.count height := by
  cases height with
  | zero =>
      have n := holds.n
      rwa [List.length_map] at n
  | succ height =>
      have n := holds.1.n
      rwa [List.length_map] at n

/-- A tree that is hung up elsewhere changes one field of its topmost node. -/
theorem holds_tree_reparent {page changed : Int → BNode} {height : Nat} {parent other : Int}
    {tree : BTree Key height} (nodup : (tree.addrs height).Nodup)
    (own : changed (tree.addr height) = setParent other (page (tree.addr height)))
    (same : ∀ addr ∈ tree.addrs height, addr ≠ tree.addr height → changed addr = page addr)
    (holds : HoldsTree page height parent tree) : HoldsTree changed height other tree := by
  cases height with
  | zero =>
      simp only [Tree.addr_leaf] at own
      rw [holds_leaf, own]
      exact ⟨holds.n, holds.leaf, rfl, holds.rows, holds.kids⟩
  | succ height =>
      obtain ⟨node, kids⟩ := holds
      simp only [Tree.addr_inner] at own same
      rw [Tree.addrs_inner, Multiset.nodup_cons] at nodup
      rw [holds_inner, own]
      refine ⟨⟨node.n, node.leaf, rfl, node.rows, node.kids⟩, fun kid member => ?_⟩
      apply holds_tree_frame _ (kids kid member)
      intro addr inKid
      have below := mem_kid_addrs member inKid
      exact same addr (Multiset.mem_cons_of_mem below) fun top => nodup.1 (top ▸ below)

/-- Free pages are linked through `next`. -/
def freeShape : NodeShape BNode Int where
  addr := id
  next := BNode.next
  holds _ _ := True

/-- Every page of the file once: the control block, the pages in use, the free list, and pages that
nothing refers to. -/
structure Ledger (page : Int → BNode) (length root : Int) (free : List Int) (used orphans : Multiset Int) :
    Prop where
  nonneg : 0 ≤ length
  aligned : length % pageSize = 0
  pages : pagesBelow length = 0 ::ₘ (used + (free : Multiset Int) + orphans)
  root : rootNode (page 0) = root
  links : freeShape.Segment page (freeNodeHead (page 0)) free (-1)
  tail : freeNodeTail (page 0) = free.getLast?.getD (-1)
  num : freeNodeNum (page 0) = free.length

section Ledger

variable {page changed : Int → BNode} {length root addr : Int} {free : List Int}
  {used orphans : Multiset Int}

theorem ledger_in_file (ledger : Ledger page length root free used orphans)
    (known : addr ∈ 0 ::ₘ (used + (free : Multiset Int) + orphans)) :
    0 ≤ addr ∧ addr % pageSize = 0 ∧ addr < length :=
  (mem_pages_below ledger.aligned).mp (ledger.pages ▸ known)

theorem ledger_nodup (ledger : Ledger page length root free used orphans) :
    (0 ::ₘ (used + (free : Multiset Int) + orphans)).Nodup := ledger.pages ▸ pages_below_nodup length

theorem ledger_used (ledger : Ledger page length root free used orphans) (inUse : addr ∈ used) :
    0 ≤ addr ∧ addr % pageSize = 0 ∧ addr < length ∧ addr ≠ 0 ∧ addr ∉ free := by
  have nodup := ledger_nodup ledger
  have listed : addr ∈ 0 ::ₘ (used + (free : Multiset Int) + orphans) := by simp [inUse]
  obtain ⟨nonneg, aligned, inside⟩ := ledger_in_file ledger listed
  rw [Multiset.nodup_cons, Multiset.nodup_add, Multiset.nodup_add] at nodup
  refine ⟨nonneg, aligned, inside, ?_, ?_⟩
  · rintro rfl
    exact nodup.1 (by simp [inUse])
  · intro isFree
    exact Multiset.disjoint_left.mp nodup.2.1.2.2 inUse (Multiset.mem_coe.mpr isFree)

theorem ledger_used_nodup (ledger : Ledger page length root free used orphans) : used.Nodup := by
  have nodup := ledger_nodup ledger
  rw [Multiset.nodup_cons, Multiset.nodup_add, Multiset.nodup_add] at nodup
  exact nodup.2.1.1

theorem ledger_frame (ledger : Ledger page length root free used orphans)
    (same : ∀ other, other ∉ used → changed other = page other) :
    Ledger changed length root free used orphans := by
  have control : changed 0 = page 0 :=
    same 0 fun inUse => (ledger_used ledger inUse).2.2.2.1 rfl
  refine ⟨ledger.nonneg, ledger.aligned, ledger.pages, ?_, ?_, ?_, ?_⟩
  · rw [control]
    exact ledger.root
  · rw [control]
    apply NodeShape.segment_frame _ ledger.links
    intro node member
    exact same node fun inUse => (ledger_used ledger inUse).2.2.2.2 member
  · rw [control]
    exact ledger.tail
  · rw [control]
    exact ledger.num

theorem ledger_rooted {other : Int} (ledger : Ledger page length root free used orphans) (nonneg : 0 ≤ other)
    (control : changed 0 = setRootNode other (page 0))
    (same : ∀ node, node ≠ 0 → node ∉ used → changed node = page node) :
    Ledger changed length other free used orphans := by
  refine ⟨ledger.nonneg, ledger.aligned, ledger.pages, ?_, ?_, ?_, ?_⟩
  · rw [control]
    exact root_node_set_root_node _ _ nonneg
  · rw [control]
    apply NodeShape.segment_frame _ ledger.links
    intro node member
    have isFree : node ∈ free := member
    have nodup := ledger_nodup ledger
    rw [Multiset.nodup_cons, Multiset.nodup_add, Multiset.nodup_add] at nodup
    apply same node
    · rintro rfl
      exact nodup.1 (by simp [isFree])
    · exact fun inUse => (ledger_used ledger inUse).2.2.2.2 isFree
  · rw [control]
    exact ledger.tail
  · rw [control]
    exact ledger.num

theorem ledger_taken {rest : List Int} (ledger : Ledger page length root (addr :: rest) used orphans)
    (same : ∀ other, other ≠ 0 → other ≠ addr → changed other = page other)
    (rootKept : rootNode (changed 0) = rootNode (page 0))
    (head : freeNodeHead (changed 0) = (page addr).next)
    (tail : freeNodeTail (changed 0) = rest.getLast?.getD (-1))
    (num : freeNodeNum (changed 0) = rest.length) :
    Ledger changed length root rest (addr ::ₘ used) orphans := by
  have nodup := ledger_nodup ledger
  refine ⟨ledger.nonneg, ledger.aligned, ?_, rootKept.trans ledger.root, ?_, tail, num⟩
  · rw [ledger.pages, ← Multiset.cons_coe]
    simp only [Multiset.add_cons, Multiset.cons_add]
  · obtain ⟨_, _, behind⟩ := ledger.links
    rw [head]
    apply NodeShape.segment_frame _ behind
    intro node member
    have inRest : node ∈ rest := member
    simp only [Multiset.nodup_cons, Multiset.nodup_add, Multiset.mem_add, Multiset.mem_coe, not_or,
      Multiset.coe_nodup, List.nodup_cons, List.mem_cons] at nodup
    apply same
    · rintro rfl
      exact nodup.1.1.2.2 inRest
    · rintro rfl
      exact nodup.2.1.2.1.1 inRest

theorem ledger_appended (ledger : Ledger page length root free used orphans)
    (same : ∀ other, other ≠ length → changed other = page other) :
    Ledger changed (length + pageSize) root free (length ::ₘ used) orphans := by
  have last : ∀ other ∈ 0 ::ₘ (used + (free : Multiset Int) + orphans), other ≠ length := by
    rintro other known rfl
    have := (ledger_in_file ledger known).2.2
    omega
  have control : changed 0 = page 0 := same 0 (last 0 (Multiset.mem_cons_self _ _))
  refine ⟨?_, ?_, ?_, ?_, ?_, ?_, ?_⟩
  · have nonneg := ledger.nonneg
    simp only [pageSize]
    omega
  · have aligned := ledger.aligned
    simp only [pageSize] at *
    omega
  · rw [pages_below_grow length ledger.nonneg ledger.aligned, ledger.pages, Multiset.cons_swap]
    simp only [Multiset.cons_add]
  · rw [control]
    exact ledger.root
  · rw [control]
    apply NodeShape.segment_frame _ ledger.links
    intro node member
    have inFree : node ∈ free := member
    exact same node (last node (by simp [inFree]))
  · rw [control]
    exact ledger.tail
  · rw [control]
    exact ledger.num

theorem ledger_cut (ledger : Ledger page length root free (addr ::ₘ used) orphans)
    (last : addr = length - pageSize) : Ledger page (length - pageSize) root free used orphans := by
  obtain ⟨nonneg, _, inside, _, _⟩ := ledger_used ledger (Multiset.mem_cons_self addr used)
  have aligned := ledger.aligned
  have shorter : (length - pageSize) % pageSize = 0 := by
    simp only [pageSize] at *
    omega
  have grown := pages_below_grow (length - pageSize) (by omega) shorter
  rw [Int.sub_add_cancel, ledger.pages, Multiset.cons_add, Multiset.cons_add,
    Multiset.cons_swap] at grown
  rw [← last] at grown shorter ⊢
  exact ⟨nonneg, shorter, ((Multiset.cons_inj_right _).mp grown).symm, ledger.root, ledger.links,
    ledger.tail, ledger.num⟩

theorem ledger_linked (ledger : Ledger page length root free (addr ::ₘ used) orphans)
    (links : freeShape.Segment changed (freeNodeHead (changed 0)) (free ++ [addr]) (-1))
    (rootKept : rootNode (changed 0) = rootNode (page 0)) (tail : freeNodeTail (changed 0) = addr)
    (num : freeNodeNum (changed 0) = free.length + 1) :
    Ledger changed length root (free ++ [addr]) used orphans := by
  refine ⟨ledger.nonneg, ledger.aligned, ?_, rootKept.trans ledger.root, links, ?_, ?_⟩
  · rw [ledger.pages, ← Multiset.coe_add, Multiset.coe_singleton]
    simp only [← Multiset.singleton_add]
    abel
  · simp [tail]
  · simp [num]

end Ledger

end MyJQL.BTreeLayout
