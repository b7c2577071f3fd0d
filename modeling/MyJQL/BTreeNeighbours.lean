import MyJQL.BTreeEdits
import MyJQL.BTreeSubtrees

/-!
# Two neighbouring children

A node that is one row short takes a row from a neighbour or is merged with it. Both happen to two
children that stand side by side under one parent, with one row of the parent between them.
-/

namespace MyJQL.BTreeNeighbours

open MyJQL.FileIo
open MyJQL.BufferPoolModel
open MyJQL.StateProgram
open MyJQL.PageStoreLogic
open MyJQL.ArrayLoops
open MyJQL.TableModel
open MyJQL.SearchTrees
open MyJQL.BTreeModel
open MyJQL.BTreeLayout
open MyJQL.BTreePages
open MyJQL.BTreeEdits
open MyJQL.BTreeSearch
open MyJQL.BTreeSubtrees

set_option autoImplicit false

variable {Key Store : Type} {store after : IndexStore} {root parent top : Int} {free : List Int}
  {others orphans : Multiset Int} {height : Nat} {whole : Inner Key height}
  {before behind : List (BTree Key height)} {first second : BTree Key height}
  {lefts rights : List (Entry Key)} {between : Entry Key}

structure Neighbours (store : IndexStore) (root : Int) (free : List Int) (others orphans : Multiset Int)
    (parent : Int) (whole : Inner Key height) (before : List (BTree Key height))
    (first second : BTree Key height) (behind : List (BTree Key height)) (lefts : List (Entry Key))
    (between : Entry Key) (rights : List (Entry Key)) : Prop where
  planted : @Planted Key store root free others orphans parent (height + 1) whole
  kids : whole.kids = before ++ first :: second :: behind
  seps : whole.seps = lefts ++ between :: rights
  count : before.length = lefts.length

/-- What is in use besides two children and their parent. -/
def beside (before behind : List (BTree Key height)) (others : Multiset Int) : Multiset Int :=
  (before.map (Tree.addrs height)).sum + (behind.map (Tree.addrs height)).sum + others

section Facts

variable (neighbours : Neighbours store root free others orphans parent whole before first second behind lefts
  between rights)
include neighbours

theorem neighbours_counts : behind.length = rights.length := by
  have arity := whole.arity
  rw [neighbours.kids, neighbours.seps] at arity
  have count := neighbours.count
  simp only [List.length_append, List.length_cons] at arity
  omega

theorem neighbours_page : HoldsNode (store.page whole.addr) false parent
    (lefts.map Prod.fst ++ between.1 :: rights.map Prod.fst)
    ((before ++ first :: second :: behind).map (Tree.addr height)) := by
  have own := neighbours.planted.holds.1
  rw [neighbours.kids, neighbours.seps, List.map_append, List.map_cons] at own
  exact own

theorem neighbours_row : (store.page whole.addr).rowPtr lefts.length = between.1 := by
  have row := reads_middle (neighbours_page neighbours).rows
  rwa [List.length_map] at row

theorem neighbours_children : (store.page whole.addr).child lefts.length = first.addr height ∧
    (store.page whole.addr).child (lefts.length + 1) = second.addr height := by
  have kids := (neighbours_page neighbours).kids
  rw [List.map_append, List.map_cons, List.map_cons] at kids
  have next : Reads (store.page whole.addr).child ((before.map (Tree.addr height) ++ [first.addr height]) ++
      second.addr height :: behind.map (Tree.addr height)) := by simpa using kids
  have firstChild := reads_middle kids
  have secondChild := reads_middle next
  rw [List.length_map, neighbours.count] at firstChild
  rw [List.length_append, List.length_map, List.length_singleton, neighbours.count] at secondChild
  exact ⟨firstChild, secondChild⟩

theorem neighbours_ledger : Ledger store.page store.length root free
    (first.addrs height + second.addrs height + around whole.addr before behind others) orphans := by
  have ledger := neighbours.planted.ledger
  rwa [Tree.addrs_inner, neighbours.kids, addrs_around_pair] at ledger

theorem neighbours_first : HoldsTree store.page height whole.addr first :=
  neighbours.planted.holds.2 first (by rw [neighbours.kids]; simp)

theorem neighbours_second : HoldsTree store.page height whole.addr second :=
  neighbours.planted.holds.2 second (by rw [neighbours.kids]; simp)

theorem neighbours_items : Tree.items (height + 1) whole =
    joinHead (before.map (Tree.items height)) lefts ++
      (first.items height ++ .separator between :: second.items height) ++
      joinTail rights (behind.map (Tree.items height)) := by
  rw [Tree.items_inner, neighbours.kids, neighbours.seps, List.map_append, List.map_cons, List.map_cons]
  exact join_pair (by simpa using neighbours.count)

theorem neighbours_used : ∀ addr ∈ first.addrs height + second.addrs height +
    around whole.addr before behind others, 0 ≤ addr ∧ addr % pageSize = 0 ∧ addr < store.length :=
  fun _ inUse =>
    have used := ledger_used (neighbours_ledger neighbours) inUse
    ⟨used.1, used.2.1, used.2.2.1⟩

theorem neighbours_in_file :
    (0 ≤ first.addr height ∧ first.addr height % pageSize = 0 ∧ first.addr height < store.length) ∧
      0 ≤ second.addr height ∧ second.addr height % pageSize = 0 ∧ second.addr height < store.length := by
  constructor
  · apply neighbours_used neighbours
    simp [Tree.addr_mem_addrs]
  · apply neighbours_used neighbours
    simp [Tree.addr_mem_addrs]

theorem neighbours_apart : (first.addrs height).Nodup ∧ (second.addrs height).Nodup ∧
    (∀ addr ∈ first.addrs height, addr ∉ second.addrs height) ∧
    (∀ addr ∈ first.addrs height + second.addrs height, addr ≠ whole.addr ∧ addr ∉ beside before behind others) ∧
    whole.addr ∉ beside before behind others := by
  have nodup := ledger_used_nodup (neighbours_ledger neighbours)
  rw [Multiset.nodup_add, Multiset.nodup_add, around, Multiset.nodup_cons] at nodup
  obtain ⟨⟨firstNodup, secondNodup, halves⟩, ⟨fresh, _⟩, apart⟩ := nodup
  refine ⟨firstNodup, secondNodup, fun addr => Multiset.disjoint_left.mp halves, ?_, fresh⟩
  intro addr member
  have outside := Multiset.disjoint_left.mp apart member
  rw [Multiset.mem_cons, not_or] at outside
  exact outside

theorem neighbours_tops : first.addr height ≠ whole.addr ∧ second.addr height ≠ whole.addr ∧
    first.addr height ≠ second.addr height := by
  obtain ⟨_, _, halves, outside, _⟩ := neighbours_apart neighbours
  refine ⟨(outside _ ?_).1, (outside _ ?_).1, ?_⟩
  · exact Multiset.mem_add.mpr (.inl (Tree.addr_mem_addrs first))
  · exact Multiset.mem_add.mpr (.inr (Tree.addr_mem_addrs second))
  · intro same
    exact halves _ (Tree.addr_mem_addrs first) (same ▸ Tree.addr_mem_addrs second)

end Facts

section Rebuilt

variable {degree least : Nat} {outer separators : Multiset (Entry Key)} {first' second' : BTree Key height}
  {between' : Entry Key} {rest : List Int}

theorem neighbours_replanted
    (neighbours : Neighbours store root free others orphans parent whole before first second behind lefts between
      rights)
    (rows : least ≤ whole.seps.length ∧ whole.seps.length ≤ 2 * degree - 1)
    (siblings : ∀ sibling, sibling ∈ before ∨ sibling ∈ behind → sibling.Sized degree (degree - 1) height)
    (ledger : Ledger after.page after.length root rest
      (first'.addrs height + second'.addrs height + around whole.addr before behind others) orphans)
    (own : HoldsNode (after.page whole.addr) false parent
      (lefts.map Prod.fst ++ between'.1 :: rights.map Prod.fst)
      ((before ++ first :: second :: behind).map (Tree.addr height)))
    (holdsFirst : HoldsTree after.page height whole.addr first')
    (holdsSecond : HoldsTree after.page height whole.addr second')
    (firstAddr : first'.addr height = first.addr height) (secondAddr : second'.addr height = second.addr height)
    (firstSized : first'.Sized degree (degree - 1) height) (secondSized : second'.Sized degree (degree - 1) height)
    (kept : Kept (beside before behind others) store after)
    (items : Reseparated (first.items height ++ .separator between :: second.items height)
      (first'.items height ++ .separator between' :: second'.items height))
    (separated : separators = outer + separatorsAround before behind lefts rights +
      (separatorsOf (first'.items height) +
        between' ::ₘ (separatorsOf (second'.items height) : Multiset (Entry Key)))) :
    ∃ changed : BTree Key (height + 1), Replanted degree least root rest others orphans parent outer
      (Tree.items (height + 1) whole) whole.addr store after separators changed := by
  have arity : (before ++ first' :: second' :: behind).length = (lefts ++ between' :: rights).length + 1 := by
    have counts := neighbours_counts neighbours
    have count := neighbours.count
    simp only [List.length_append, List.length_cons]
    omega
  have shape : Tree.items (height + 1) (⟨whole.addr, lefts ++ between' :: rights,
      before ++ first' :: second' :: behind, arity⟩ : Inner Key height) =
      joinHead (before.map (Tree.items height)) lefts ++
        (first'.items height ++ .separator between' :: second'.items height) ++
        joinTail rights (behind.map (Tree.items height)) := by
    rw [Tree.items_inner, List.map_append, List.map_cons, List.map_cons]
    exact join_pair (by simpa using neighbours.count)
  have siblingHolds : ∀ sibling, sibling ∈ before ∨ sibling ∈ behind →
      HoldsTree after.page height whole.addr sibling := by
    intro sibling member
    have holds := neighbours.planted.holds.2 sibling (by rw [neighbours.kids]; simp; tauto)
    apply holds_tree_frame _ holds
    intro addr inside
    apply kept addr
    rw [beside]
    rcases member with left | right
    · simp [mem_kid_addrs left inside]
    · simp [mem_kid_addrs right inside]
  refine ⟨⟨whole.addr, lefts ++ between' :: rights, before ++ first' :: second' :: behind, arity⟩,
    ⟨?_, ?_, ?_⟩, rfl, ⟨?_, ?_⟩, ?_, ?_, ?_⟩
  · rw [Tree.addrs_inner, addrs_around_pair]
    exact ledger
  · simpa [firstAddr, secondAddr] using own
  · intro tree member
    simp only [List.mem_append, List.mem_cons] at member
    rcases member with inBefore | rfl | rfl | inBehind
    · exact siblingHolds tree (.inl inBefore)
    · exact holdsFirst
    · exact holdsSecond
    · exact siblingHolds tree (.inr inBehind)
  · rw [neighbours.seps] at rows
    simp only [List.length_append, List.length_cons] at rows ⊢
    exact rows
  · intro tree member
    simp only [List.mem_append, List.mem_cons] at member
    rcases member with inBefore | rfl | rfl | inBehind
    · exact siblings tree (.inl inBefore)
    · exact firstSized
    · exact secondSized
    · exact siblings tree (.inr inBehind)
  · rw [shape, neighbours_items neighbours]
    exact reseparated_inside items
  · rw [shape, separated, separatorsAround]
    simp only [separators_of_append, separators_of_separator, ← Multiset.coe_add, ← Multiset.cons_coe,
      ← Multiset.singleton_add]
    abel
  · intro addr member
    apply kept addr
    simp [beside, member]

end Rebuilt

section Uneven

variable {records outer separators : Multiset (Entry Key)} {degree least : Nat}

theorem neighbours_of_same_pages
    (neighbours : Neighbours store root free others orphans parent whole before first second behind lefts between
      rights) (page : after.page = store.page) (length : after.length = store.length) :
    Neighbours after root free others orphans parent whole before first second behind lefts between rights :=
  ⟨planted_of_same_pages neighbours.planted page length, neighbours.kids, neighbours.seps, neighbours.count⟩

/-- Neighbours as redistribution finds them, next to nodes that have enough rows. -/
structure Uneven (records : Multiset (Entry Key)) (degree least : Nat) (outer separators : Multiset (Entry Key))
    (store : IndexStore) (root : Int) (free : List Int) (others orphans : Multiset Int) (parent : Int)
    (whole : Inner Key height) (before : List (BTree Key height)) (first second : BTree Key height)
    (behind : List (BTree Key height)) (lefts : List (Entry Key)) (between : Entry Key)
    (rights : List (Entry Key)) : Prop where
  neighbours : Neighbours store root free others orphans parent whole before first second behind lefts between
    rights
  rows : least ≤ whole.seps.length ∧ whole.seps.length ≤ 2 * degree - 1
  siblings : ∀ sibling, sibling ∈ before ∨ sibling ∈ behind → sibling.Sized degree (degree - 1) height
  first : first.Sized degree (degree - 2) height
  second : second.Sized degree (degree - 2) height
  known : ∀ row ∈ rowsOf (Tree.items (height + 1) whole), row ∈ records
  separators : separators = outer + separatorsOf (Tree.items (height + 1) whole)

variable (uneven : Uneven records degree least outer separators store root free others orphans parent whole before
  first second behind lefts between rights)
include uneven

theorem uneven_of_same_pages (after : IndexStore) (page : after.page = store.page)
    (length : after.length = store.length) :
    Uneven records degree least outer separators after root free others orphans parent whole before first second
      behind lefts between rights :=
  ⟨neighbours_of_same_pages uneven.neighbours page length, uneven.rows, uneven.siblings, uneven.first,
    uneven.second, uneven.known, uneven.separators⟩

theorem uneven_separators : separators = outer + separatorsAround before behind lefts rights +
    (separatorsOf (first.items height) + between ::ₘ (separatorsOf (second.items height) : Multiset (Entry Key))) := by
  rw [uneven.separators, neighbours_items uneven.neighbours, separatorsAround]
  simp only [separators_of_append, separators_of_separator, ← Multiset.coe_add, ← Multiset.cons_coe,
    ← Multiset.singleton_add]
  abel

theorem uneven_between : between ∈ separators := by
  rw [uneven_separators uneven]
  simp

theorem uneven_known {row : Entry Key}
    (member : row ∈ rowsOf (first.items height) ∨ row ∈ rowsOf (second.items height)) : row ∈ records := by
  apply uneven.known
  rw [neighbours_items uneven.neighbours]
  simp only [rows_of_append, rows_of_separator, List.mem_append]
  tauto

end Uneven

/-- The parent when its child has got a row from a neighbour. -/
def Rebalanced (degree least : Nat) (root : Int) (free : List Int) (others orphans : Multiset Int) (parent : Int)
    (outer : Multiset (Entry Key)) (whole : Inner Key height) (store : IndexStore)
    (final : IndexStore × Multiset (Entry Key)) : Prop :=
  ∃ changed : BTree Key (height + 1), Replanted degree least root free others orphans parent outer
    (Tree.items (height + 1) whole) whole.addr store final.1 final.2 changed

/-- All of the second neighbour has gone into the first. Between leaves the separator has no place any
more. -/
structure Merged (degree : Nat) (handler : Bool) (root : Int) (free : List Int) (others orphans : Multiset Int)
    (whole : Inner Key height) (before : List (BTree Key height)) (first second : BTree Key height)
    (behind : List (BTree Key height)) (between : Entry Key) (store after : IndexStore)
    (merged : BTree Key height) : Prop where
  ledger : Ledger after.page after.length root free
    (merged.addrs height + around whole.addr before behind others) orphans
  holds : HoldsTree after.page height whole.addr merged
  addr : merged.addr height = first.addr height
  sized : merged.Sized degree (degree - 1) height
  items : Reseparated (first.items height ++ .separator between :: second.items height) (merged.items height)
  separators : (separatorsOf (merged.items height) : Multiset (Entry Key)) + (if handler then {between} else 0) =
    separatorsOf (first.items height) + between ::ₘ (separatorsOf (second.items height) : Multiset (Entry Key))
  kept : Kept (around whole.addr before behind others) store after

end MyJQL.BTreeNeighbours
