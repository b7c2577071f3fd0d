import MyJQL.BTreeRefinement
import MyJQL.BTreeUncached

/-!
# What every state of the tree looks like

Read off the pool itself: the tree below the root, the pages of the file, and the frames. Every
reachable state is a search tree whose nodes fit and know their parents, each page of its file is
the control block, a node or free, and no frame is pinned.
-/

namespace MyJQL.BTreeInvariants

open MyJQL.FileIo
open MyJQL.BufferPoolModel
open MyJQL.BufferPoolTransparency
open MyJQL.StateProgram
open MyJQL.PageStoreLogic
open MyJQL.PagedPrograms
open MyJQL.PageAccounting
open MyJQL.TableModel
open MyJQL.ArrayLoops
open MyJQL.SearchTrees
open MyJQL.BTreeModel
open MyJQL.BTreeLayout
open MyJQL.BTreePages
open MyJQL.BTreeSearch
open MyJQL.BTreeInsertion
open MyJQL.BTreeDeletion
open MyJQL.BTreeUncached
open MyJQL.BTreeRefinement

set_option autoImplicit false

variable {Key Store : Type}

/-- The nodes that a C loop visits from an address downwards along `child`, each as often as it is
visited. -/
inductive Visits (page : Int → BNode) : Int → Multiset Int → Prop
  | leaf {addr : Int} (isLeaf : (page addr).leaf = true) : Visits page addr {addr}
  | inner {addr : Int} {parts : Nat → Multiset Int} (isInner : (page addr).leaf = false)
      (below : ∀ j ≤ (page addr).n, Visits page ((page addr).child j) (parts j)) :
      Visits page addr (addr ::ₘ ((List.range ((page addr).n + 1)).map parts).sum)

theorem visits_unique {page : Int → BNode} {addr : Int} {first second : Multiset Int}
    (left : Visits page addr first) (right : Visits page addr second) : first = second := by
  induction left generalizing second with
  | leaf isLeaf =>
      cases right with
      | leaf _ => rfl
      | inner isInner _ =>
          rw [isLeaf] at isInner
          cases isInner
  | inner isInner _ ih =>
      cases right with
      | leaf isLeaf =>
          rw [isInner] at isLeaf
          cases isLeaf
      | inner _ below =>
          congr 2
          apply List.map_congr_left
          intro j member
          have inside := List.mem_range.mp member
          exact ih j (by omega) (below j (by omega))

theorem visits_of_holds {page : Int → BNode} {height : Nat} {parent : Int} {tree : BTree Key height}
    (holds : HoldsTree page height parent tree) : Visits page (tree.addr height) (tree.addrs height) := by
  induction height generalizing parent with
  | zero => exact .leaf holds.leaf
  | succ height ih =>
      obtain ⟨node, kids⟩ := holds
      have arity := tree.arity
      have n := node.n
      rw [List.length_map] at n
      have parts : (List.range ((page tree.addr).n + 1)).map
          (fun j => ((tree.kids.map (Tree.addrs height))[j]?).getD 0) = tree.kids.map (Tree.addrs height) := by
        apply List.ext_getElem
        · simp [n, arity]
        · intro j inRange inKids
          simp [List.getElem?_eq_getElem (show j < tree.kids.length by simpa using inKids)]
      rw [Tree.addrs_inner, ← parts]
      apply Visits.inner node.leaf
      intro j inside
      have place : j < tree.kids.length := by omega
      have child := node.kids j (by simpa using place)
      rw [List.getElem_map] at child
      rw [child, List.getElem?_map, List.getElem?_eq_getElem place]
      exact ih (kids _ (List.getElem_mem place))

theorem holds_tree_parents {page : Int → BNode} {height : Nat} {parent : Int} {tree : BTree Key height}
    (holds : HoldsTree page height parent tree) (nonneg : ∀ addr ∈ tree.addrs height, 0 ≤ addr) :
    ∀ addr ∈ tree.addrs height, addr ≠ tree.addr height → 0 ≤ (page addr).parent := by
  induction height generalizing parent with
  | zero =>
      intro addr member different
      exact absurd (Multiset.mem_singleton.mp member) different
  | succ height ih =>
      intro addr member different
      rw [Tree.addrs_inner] at member
      rcases Multiset.mem_cons.mp member with own | below
      · exact absurd own different
      · obtain ⟨kid, inKids, inKid⟩ := mem_kids_addrs.mp below
        have kidHolds := holds.2 kid inKids
        by_cases top : addr = kid.addr height
        · rw [top, holds_tree_parent kidHolds]
          exact nonneg _ (Multiset.mem_cons_self _ _)
        · apply ih kidHolds _ addr inKid top
          intro other inside
          exact nonneg other (Multiset.mem_cons_of_mem (mem_kid_addrs inKids inside))

section Tree

variable [LinearOrder Key]

/-- The tree below the root. Its leaves are at one depth, and a node with `n` rows has `n + 1` children,
because of the types of `tree`. -/
structure IsSearchTree (degree : Nat) (page : Int → BNode) {height : Nat} (tree : BTree Key height) : Prop where
  root : tree.addr height = rootNode (page 0)
  nodes : HoldsTree page height (-1) tree
  apart : (tree.addrs height).Nodup
  sized : tree.Sized degree (min height 1) height
  ordered : tree.Ordered height
  parents : ∀ addr ∈ tree.addrs height, (page addr).parent = -1 ↔ addr = rootNode (page 0)

end Tree

/-- Every page of the file is the control block, a node of the tree or a free page, and only one of
these. -/
structure Partitioned (page : Int → BNode) (length : Int) (live : Multiset Int) (free : List Int) : Prop where
  visits : Visits page (rootNode (page 0)) live
  links : freeShape.Segment page (freeNodeHead (page 0)) free (-1)
  tail : freeNodeTail (page 0) = free.getLast?.getD (-1)
  num : freeNodeNum (page 0) = free.length
  once : (0 ::ₘ (live + (free : Multiset Int))).Nodup
  pages : ∀ addr, addr ∈ 0 ::ₘ (live + (free : Multiset Int)) ↔ 0 ≤ addr ∧ addr % pageSize = 0 ∧ addr < length

section Reading

variable [LinearOrder Key] {degree height : Nat} {tree : BTree Key height} {free : List Int} {store : IndexStore}
  {pool : IndexPool} {addr : Int}

theorem index_view (stores : StoresPool store pool) (shape : IndexShape degree tree free 0 store)
    (known : addr ∈ 0 ::ₘ (tree.addrs height + (free : Multiset Int) + 0)) : view pool addr = store.page addr := by
  obtain ⟨nonneg, aligned, inside⟩ := ledger_in_file shape.ledger known
  exact stores.page addr ⟨nonneg, aligned, by rw [stores.length]; exact inside⟩

theorem view_control (stores : StoresPool store pool) (shape : IndexShape degree tree free 0 store) :
    view pool 0 = store.page 0 :=
  index_view stores shape (Multiset.mem_cons_self _ _)

theorem view_node (stores : StoresPool store pool) (shape : IndexShape degree tree free 0 store)
    (member : addr ∈ tree.addrs height) : view pool addr = store.page addr := by
  apply index_view stores shape
  simp [member]

theorem view_holds (stores : StoresPool store pool) (shape : IndexShape degree tree free 0 store) :
    HoldsTree (view pool) height (-1) tree := by
  apply holds_tree_frame _ shape.holds
  intro addr member
  exact view_node stores shape member

theorem index_search_tree (stores : StoresPool store pool) (shape : IndexShape degree tree free 0 store) :
    IsSearchTree degree (view pool) tree := by
  have root : tree.addr height = rootNode (view pool 0) := by
    rw [view_control stores shape]
    exact shape.ledger.root.symm
  have holds := view_holds stores shape
  refine ⟨root, holds, ledger_used_nodup shape.ledger, shape.sized, Tree.ordered_of_sorted shape.sorted, ?_⟩
  intro addr member
  rw [← root]
  constructor
  · intro parent
    by_contra different
    have named := holds_tree_parents holds (fun other inside => (ledger_used shape.ledger inside).1) addr member
      different
    omega
  · rintro rfl
    exact holds_tree_parent holds

theorem index_partitioned (stores : StoresPool store pool) (shape : IndexShape degree tree free 0 store) :
    Partitioned (view pool) pool.file.length (tree.addrs height) free := by
  have ledger := shape.ledger
  have control := view_control stores shape
  have nodup := ledger_nodup ledger
  have pages := ledger.pages
  rw [add_zero] at nodup pages
  refine ⟨?_, ?_, ?_, ?_, nodup, ?_⟩
  · rw [control, ledger.root]
    exact visits_of_holds (view_holds stores shape)
  · rw [control]
    apply LinkedPages.NodeShape.segment_frame _ ledger.links
    intro node member
    apply index_view stores shape
    have inFree : node ∈ free := member
    simp [freeShape, inFree]
  · rw [control]
    exact ledger.tail
  · rw [control]
    exact ledger.num
  · intro addr
    rw [← pages, stores.length]
    exact mem_pages_below ledger.aligned

theorem handed_out_free (stores : StoresPool store pool) (shape : IndexShape degree tree free 0 store)
    (held : Pins store []) : ∃ ans after, getNewBNode pool = some (ans, after) ∧
      (ans = -1 ∧ free = [] ∨ ans ∈ free) := by
  have known : Accounted store (tree.addr height) free (tree.addrs height) 0 [] :=
    ⟨shape.ledger, held, by simp⟩
  have handed : Ensures StoresPool store getNewBNode fun ans _ => ans = -1 ∧ free = [] ∨ ans ∈ free := by
    apply ensures_get_new_b_node known (by decide)
    · intro after none _ _ _
      exact .inl ⟨rfl, none⟩
    · intro ans rest after split _ _ _ _
      rw [split]
      exact .inr List.mem_cons_self
  obtain ⟨ans, after, _, ran, _, outcome⟩ := handed pool stores
  exact ⟨ans, after, ran, outcome⟩

end Reading

theorem invariant_unpinned [LinearOrder Key] {degree : Nat} {holds : Standing Key Store} {bindings : Bindings Key}
    {records : Multiset (Entry Key)} {index : Index Store} (invariant : Invariant degree holds bindings records index) :
    numValidPool index.1 = cachePage := by
  obtain ⟨_, _, store, stores, _, ⟨_, _, _, _, held, _⟩, _⟩ := invariant
  exact (num_valid_pool_iff stores).mpr (pins_within held)

/-- From this state the operation returns with nothing pinned. Without a cache it returns the same
value, makes the same calls of the callbacks, and leaves the same pages. -/
def Unhindered {Value : Type} (program : Program (Index Store) Value) (direct : Program (ArrayIndex Store) Value)
    (index : Index Store) : Prop :=
  ∃ value after, program index = some (value, after) ∧ numValidPool after.1 = cachePage ∧
    ∃ hints array, direct (uncached index.1 hints, index.2) = some (value, (array, after.2)) ∧
      Mirrors after.1 [] array

theorem unhindered [LinearOrder Key] {Value : Type} {program : Program (Index Store) Value}
    {direct : Program (ArrayIndex Store) Value} {degree : Nat} {holds : Standing Key Store}
    {bindings changed : Bindings Key} {records : Multiset (Entry Key)} {index after : Index Store} {value : Value}
    (follows : ProgramSimulation.Follows (mirror.beside Store) program direct)
    (before : Invariant degree holds bindings records index) (ran : program index = some (value, after))
    (invariant : Invariant degree holds changed records after) : Unhindered program direct index := by
  obtain ⟨_, _, _, stores, _⟩ := before
  obtain ⟨hints, array, ranDirect, mirrors⟩ := same_uncached follows stores.invariant value after ran
  exact ⟨value, after, ran, invariant_unpinned invariant, hints, array, ranDirect, mirrors⟩

section Runs

variable [LinearOrder Key] (degree : Nat) (enough : 2 ≤ degree) (callbacks : Callbacks Store)
  (holds : Standing Key Store) (contract : ∀ records, Contract (holds records) records callbacks)

include enough contract

/-- Every reachable tree is a search tree with the rows of the map. -/
theorem b_tree_structure : ∀ bindings records index, Reached degree callbacks holds bindings records index →
    ∃ (height : Nat) (tree : BTree Key height), IsSearchTree degree (view index.1) tree ∧
      (∀ rid key, (rid, key) ∈ rowsOf (tree.items height) ↔ bindings key = some rid) ∧
      holds records (separatorsOf (tree.items height)) index.2 := by
  intro bindings records index reached
  obtain ⟨_, _, store, stores, standing, ⟨height, tree, free, shape, _, rfl, rfl⟩, table⟩ :=
    reached_invariant contract enough reached
  exact ⟨height, tree, index_search_tree stores shape, table.mem, standing⟩

/-- Every reachable file consists of its control block, its nodes and its free pages, and what is
handed out was free. -/
theorem b_tree_pages : ∀ bindings records index, Reached degree callbacks holds bindings records index →
    ∃ live free, Partitioned (view index.1) index.1.file.length live free ∧
      ∃ ans after, getNewBNode index.1 = some (ans, after) ∧
        (ans = -1 ∧ free = [] ∨ ans ∈ free ∧ ∀ nodes, Visits (view index.1) (rootNode (view index.1 0)) nodes →
          ans ∉ nodes) := by
  intro bindings records index reached
  obtain ⟨_, _, store, stores, _, ⟨height, tree, free, shape, held, _, _⟩, _⟩ :=
    reached_invariant contract enough reached
  have partitioned := index_partitioned stores shape
  obtain ⟨ans, after, ran, outcome⟩ := handed_out_free stores shape held
  refine ⟨_, free, partitioned, ans, after, ran, outcome.imp_right fun isFree => ⟨isFree, ?_⟩⟩
  intro nodes visits inTree
  rw [visits_unique visits partitioned.visits] at inTree
  exact (ledger_used shape.ledger inTree).2.2.2.2 isFree

/-- Every allowed operation on a reachable tree goes through with all frames free at both ends. -/
theorem b_tree_pins : ∀ bindings records index, Reached degree callbacks holds bindings records index →
    numValidPool index.1 = cachePage ∧
      (∀ rid key, (rid, key) ∈ records → bindings key = none →
        Unhindered (bTreeInsert degree callbacks rid) (bTreeInsert degree callbacks rid) index) ∧
      (∀ rid key, (rid, key) ∈ records → bindings key ≠ none →
        Unhindered (bTreeDelete degree callbacks rid) (bTreeDelete degree callbacks rid) index) ∧
      ∀ key compare, ComparesKey holds records compare key →
        Unhindered (bTreeSearch degree compare) (bTreeSearch degree compare) index := by
  intro bindings records index reached
  have invariant := reached_invariant contract enough reached
  refine ⟨invariant_unpinned invariant, ?_, ?_, ?_⟩
  · intro rid key recorded absent
    obtain ⟨after, ran, next⟩ := insert_step (contract records) (by omega) invariant recorded absent
    exact unhindered (follows_b_tree_insert _ _ _) invariant ran next
  · intro rid key recorded present
    obtain ⟨after, ran, next⟩ := delete_step (contract records) enough invariant recorded present
    exact unhindered (follows_b_tree_delete _ _ _) invariant ran next
  · intro key compare compares
    obtain ⟨after, ran, next⟩ := search_step compares invariant
    exact unhindered (follows_b_tree_search _ _) invariant ran next

end Runs

/-- Six records do not fit in one leaf, so the root of their tree has children. -/
theorem numbered_inner {total : Nat} {holds : Standing Int Store} {records : Multiset (Entry Int)} {index : Index Store}
    (many : 6 ≤ total) (invariant : Invariant 3 holds (boundBelow total) records index) :
    (view index.1 (rootNode (view index.1 0))).leaf = false := by
  obtain ⟨_, _, _, stores, _, ⟨height, tree, free, shape, _, rfl, rfl⟩, table⟩ := invariant
  have isTree := index_search_tree stores shape
  have holds := isTree.nodes
  rw [← isTree.root]
  cases height with
  | zero =>
      have listed : ((List.range total).map fun number : Nat => ((⟨number, 1⟩, number) : Entry Int)) ⊆
          rowsOf (tree.items 0) := by
        intro entry member
        obtain ⟨number, less, rfl⟩ := List.mem_map.mp member
        rw [List.mem_range] at less
        exact (table.mem _ _).mpr (if_pos (by omega))
      have apart : ((List.range total).map fun number : Nat => ((⟨number, 1⟩, number) : Entry Int)).Nodup := by
        apply List.nodup_range.map
        intro first second same
        exact Int.ofNat.inj (Prod.mk.inj same).2
      have fits := (apart.subperm listed).length_le
      have few := isTree.sized.2
      rw [List.length_map, List.length_range, Tree.items_leaf, rows_of_map_row] at fits
      omega
  | succ height => exact holds.1.leaf

theorem nothing_bound_leaf [LinearOrder Key] {degree : Nat} (enough : 2 ≤ degree) {holds : Standing Key Store}
    {bindings : Bindings Key} {records : Multiset (Entry Key)} {index : Index Store}
    (invariant : Invariant degree holds bindings records index) (nothingBound : ∀ key, bindings key = none) :
    (view index.1 (rootNode (view index.1 0))).leaf = true := by
  obtain ⟨_, _, _, stores, _, ⟨height, tree, free, shape, _, rfl, rfl⟩, table⟩ := invariant
  have isTree := index_search_tree stores shape
  rw [← isTree.root]
  cases height with
  | zero => exact isTree.nodes.leaf
  | succ height =>
      refine absurd (List.eq_nil_iff_forall_not_mem.mpr fun row member => ?_)
        (Tree.rows_nonempty enough (by simp) isTree.sized)
      have bound := (table.mem row.1 row.2).mp member
      rw [nothingBound] at bound
      cases bound

/-- A tree with seven records, whose root has children. -/
theorem b_tree_structure_inner_node : ∃ (index : Index Unit) (height : Nat) (tree : BTree Int height),
    IsSearchTree 3 (view index.1) tree ∧ (view index.1 (tree.addr height)).leaf = false ∧
      (⟨6, 1⟩, 6) ∈ rowsOf (tree.items height) := by
  obtain ⟨index, reached⟩ := numbered_reached 7 le_rfl
  obtain ⟨height, tree, isTree, rows, _⟩ :=
    b_tree_structure 3 (by decide) addressCallbacks addressed address_contract _ _ _ reached
  have inner := numbered_inner (by decide) (reached_invariant address_contract (by decide) reached)
  rw [← isTree.root] at inner
  exact ⟨index, height, tree, isTree, inner, (rows _ _).mpr rfl⟩

theorem b_tree_pages_inner_node : ∃ (index : Index Unit) (live : Multiset Int) (free : List Int),
    (view index.1 (rootNode (view index.1 0))).leaf = false ∧
      Partitioned (view index.1) index.1.file.length live free := by
  obtain ⟨index, reached⟩ := numbered_reached 7 le_rfl
  obtain ⟨live, free, partitioned, _⟩ :=
    b_tree_pages 3 (by decide) addressCallbacks addressed address_contract _ _ _ reached
  have inner := numbered_inner (by decide) (reached_invariant address_contract (by decide) reached)
  exact ⟨index, live, free, inner, partitioned⟩

theorem b_tree_pins_inner_node : ∃ index : Index Unit, numValidPool index.1 = cachePage ∧
    Unhindered (bTreeInsert 3 addressCallbacks ⟨7, 1⟩) (bTreeInsert 3 addressCallbacks ⟨7, 1⟩) index ∧
    Unhindered (bTreeDelete 3 addressCallbacks ⟨6, 1⟩) (bTreeDelete 3 addressCallbacks ⟨6, 1⟩) index ∧
    Unhindered (bTreeSearch 3 (addressCompare 0)) (bTreeSearch 3 (addressCompare 0)) index := by
  obtain ⟨index, reached⟩ := numbered_reached 7 (show 7 ≤ 8 by decide)
  obtain ⟨unpinned, inserts, deletes, searches⟩ :=
    b_tree_pins 3 (by decide) addressCallbacks addressed address_contract _ _ _ reached
  exact ⟨index, unpinned, inserts _ _ (numbered_mem (by decide)) rfl,
    deletes _ _ (numbered_mem (by decide)) (by decide), searches _ _ (address_compares _ 0)⟩

end MyJQL.BTreeInvariants
