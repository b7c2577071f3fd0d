import MyJQL.BTreeSearch

/-!
# A subtree in the middle of its file

Insertion and deletion change a subtree and then the node above it. What such a change is seen from
outside, and how a change of a child becomes a change of its parent.
-/

namespace MyJQL.BTreeSubtrees

open MyJQL.FileIo
open MyJQL.BufferPoolModel
open MyJQL.StateProgram
open MyJQL.PageStoreLogic
open MyJQL.TableModel
open MyJQL.SearchTrees
open MyJQL.BTreeModel
open MyJQL.BTreeLayout
open MyJQL.BTreePages
open MyJQL.BTreeSearch

set_option autoImplicit false

variable {Key : Type}

/-- `others` are the pages in use outside of the subtree. -/
structure Planted (store : IndexStore) (root : Int) (free : List Int) (others orphans : Multiset Int)
    (parent : Int) {height : Nat} (tree : BTree Key height) : Prop where
  ledger : Ledger store.page store.length root free (tree.addrs height + others) orphans
  holds : HoldsTree store.page height parent tree

/-- These pages are as before. -/
def Kept (others : Multiset Int) (store after : IndexStore) : Prop :=
  ∀ addr ∈ others, after.page addr = store.page addr

/-- A subtree that has become another one at the same address. `outer` are the separators outside of
it, and `items` what it should hold, up to the separators that were moved. -/
structure Replanted (degree least : Nat) (root : Int) (free : List Int) (others orphans : Multiset Int)
    (parent : Int) (outer : Multiset (Entry Key)) (items : List (Item RID Key)) (top : Int)
    (store after : IndexStore) (separators : Multiset (Entry Key)) {height : Nat}
    (changed : BTree Key height) : Prop where
  planted : Planted after root free others orphans parent changed
  addr : changed.addr height = top
  sized : changed.Sized degree least height
  items : Reseparated items (changed.items height)
  separators : separators = outer + separatorsOf (changed.items height)
  kept : Kept others store after

variable {store after : IndexStore} {root parent top : Int} {free : List Int}
  {others orphans : Multiset Int} {frame : Frame} {height : Nat}

theorem planted_accounted {height : Nat} {tree : BTree Key height}
    (planted : Planted store root free others orphans parent tree)
    (held : Pins store [(tree.addr height, frame)]) :
    Accounted store root free (tree.addrs height + others) orphans [(tree.addr height, frame)] := by
  refine ⟨planted.ledger, held, ?_⟩
  intro addr member
  simp only [List.map_cons, List.map_nil, List.mem_singleton] at member
  rw [member]
  exact Multiset.mem_add.mpr (.inl (Tree.addr_mem_addrs tree))

theorem planted_of_same_pages {height : Nat} {tree : BTree Key height}
    (planted : Planted store root free others orphans parent tree) (page : after.page = store.page)
    (length : after.length = store.length) : Planted after root free others orphans parent tree := by
  refine ⟨?_, ?_⟩
  · rw [page, length]
    exact planted.ledger
  · rw [page]
    exact planted.holds

theorem planted_outside {height : Nat} {tree : BTree Key height}
    (planted : Planted store root free others orphans parent tree) {addr : Int} (member : addr ∈ others) :
    addr ∉ tree.addrs height := by
  have nodup := ledger_used_nodup planted.ledger
  rw [Multiset.nodup_add] at nodup
  exact fun inside => Multiset.disjoint_left.mp nodup.2.2 inside member

theorem planted_kids_in_file {node : Inner Key height}
    (planted : @Planted Key store root free others orphans parent (height + 1) node) :
    ∀ kid ∈ node.kids, 0 ≤ Tree.addr height kid ∧ Tree.addr height kid % pageSize = 0 ∧
      Tree.addr height kid < store.length := by
  intro kid member
  have inUse : Tree.addr height kid ∈ Tree.addrs (height + 1) node + others := Multiset.mem_add.mpr (.inl
    (Multiset.mem_cons_of_mem (mem_kid_addrs member (Tree.addr_mem_addrs kid))))
  have used := ledger_used planted.ledger inUse
  exact ⟨used.1, used.2.1, used.2.2.1⟩

/-- The change is seen from any store with the same pages as before. -/
theorem replanted_of_same_pages {degree least : Nat} {outer separators : Multiset (Entry Key)}
    {items : List (Item RID Key)} {changed : BTree Key height} {start : IndexStore}
    (replanted : Replanted degree least root free others orphans parent outer items top store after separators
      changed) (same : store.page = start.page) :
    Replanted degree least root free others orphans parent outer items top start after separators changed := by
  refine ⟨replanted.planted, replanted.addr, replanted.sized, replanted.items, replanted.separators, ?_⟩
  intro addr member
  rw [← same]
  exact replanted.kept addr member

theorem replanted_released {degree least : Nat} {outer separators : Multiset (Entry Key)}
    {items : List (Item RID Key)} {changed : BTree Key height} {final : IndexStore}
    (replanted : Replanted degree least root free others orphans parent outer items top store after separators
      changed) (page : final.page = after.page) (length : final.length = after.length) :
    Replanted degree least root free others orphans parent outer items top store final separators changed := by
  refine ⟨⟨?_, ?_⟩, replanted.addr, replanted.sized, replanted.items, replanted.separators, ?_⟩
  · rw [page, length]
    exact replanted.planted.ledger
  · rw [page]
    exact replanted.planted.holds
  · intro addr member
    rw [page]
    exact replanted.kept addr member

theorem leaf_replanted {degree least : Nat} {separators : Multiset (Entry Key)} {leaf : Leaf Key}
    {items : List (Item RID Key)} {rows : List (Entry Key)}
    (planted : @Planted Key store root free others orphans parent 0 leaf)
    (same : ∀ addr, addr ≠ leaf.addr → after.page addr = store.page addr) (length : after.length = store.length)
    (own : HoldsNode (after.page leaf.addr) true parent (rows.map Prod.fst) [])
    (sized : least ≤ rows.length ∧ rows.length ≤ 2 * degree - 1) (held : items = rows.map Item.row) :
    @Replanted Key degree least root free others orphans parent separators items leaf.addr store after separators 0
      (⟨leaf.addr, rows⟩ : Leaf Key) := by
  refine ⟨⟨?_, ?_⟩, rfl, sized, ?_, ?_, ?_⟩
  · rw [length]
    apply ledger_frame planted.ledger
    intro addr notUsed
    exact same addr fun own => notUsed (by simp [own])
  · rw [holds_leaf]
    exact own
  · rw [held]
    exact .refl
  · simp
  · intro addr member
    exact same addr fun own => planted_outside planted member (by simp [own])

section Whole

variable {degree : Nat} {items : List (Item RID Key)} {separators : Multiset (Entry Key)}
  {tree changed : BTree Key height} [LinearOrder Key]

theorem planted_of_index (shape : IndexShape degree tree free orphans store) :
    Planted store (tree.addr height) free 0 orphans (-1) tree := by
  refine ⟨?_, shape.holds⟩
  rw [add_zero]
  exact shape.ledger

theorem shape_of_replanted (replanted : Replanted degree (min height 1) top free 0 orphans (-1) 0 items top store
    after separators changed) (sorted : Sorted items) : IndexShape degree changed free orphans after := by
  refine ⟨?_, replanted.planted.holds, replanted.sized, reseparated_sorted replanted.items sorted⟩
  have ledger := replanted.planted.ledger
  rw [add_zero] at ledger
  rw [replanted.addr]
  exact ledger

theorem index_of_replanted (replanted : Replanted degree (min height 1) top free 0 orphans (-1) 0 items top store
    after separators changed) (sorted : Sorted items) (released : Pins after []) :
    HoldsIndex degree (rowsOf items) separators orphans after := by
  refine ⟨height, changed, free, shape_of_replanted replanted sorted, released, ?_, ?_⟩
  · rw [reseparated_rows replanted.items]
  · rw [replanted.separators, zero_add]

end Whole

/-- What is in use outside of a child: its parent, its siblings, and what is outside of those. -/
def around (top : Int) (before behind : List (BTree Key height)) (others : Multiset Int) : Multiset Int :=
  top ::ₘ ((before.map (Tree.addrs height)).sum + (behind.map (Tree.addrs height)).sum + others)

/-- The separators of the parent and of the siblings. -/
def separatorsAround (before behind : List (BTree Key height)) (lefts rights : List (Entry Key)) :
    Multiset (Entry Key) :=
  (separatorsOf (joinHead (before.map (Tree.items height)) lefts) : Multiset (Entry Key)) +
    (separatorsOf (joinTail rights (behind.map (Tree.items height))) : Multiset (Entry Key))

section Child

variable {before behind : List (BTree Key height)} {kid sibling : BTree Key height}
  {node : Inner Key height}

theorem addrs_around :
    top ::ₘ ((before ++ kid :: behind).map (Tree.addrs height)).sum + others =
      kid.addrs height + around top before behind others := by
  rw [around, List.map_append, List.map_cons, List.sum_append, List.sum_cons]
  simp only [← Multiset.singleton_add]
  abel

theorem addrs_around_pair {first second : BTree Key height} :
    top ::ₘ ((before ++ first :: second :: behind).map (Tree.addrs height)).sum + others =
      first.addrs height + second.addrs height + around top before behind others := by
  rw [around, List.map_append, List.map_cons, List.map_cons, List.sum_append, List.sum_cons, List.sum_cons]
  simp only [← Multiset.singleton_add]
  abel

theorem planted_child (planted : @Planted Key store root free others orphans parent (height + 1) node)
    (kids : node.kids = before ++ kid :: behind) :
    Planted store root free (around node.addr before behind others) orphans node.addr kid := by
  have ledger := planted.ledger
  rw [Tree.addrs_inner, kids, addrs_around] at ledger
  exact ⟨ledger, planted.holds.2 kid (by rw [kids]; simp)⟩

theorem around_sibling {addr : Int} (member : sibling ∈ before ∨ sibling ∈ behind)
    (inside : addr ∈ sibling.addrs height) : addr ∈ around top before behind others := by
  rw [around]
  rcases member with left | right
  · have := mem_kid_addrs left inside
    simp [this]
  · have := mem_kid_addrs right inside
    simp [this]

theorem sibling_kept (kept : Kept (around top before behind others) store after)
    (member : sibling ∈ before ∨ sibling ∈ behind) (holds : HoldsTree store.page height parent sibling) :
    HoldsTree after.page height parent sibling :=
  holds_tree_frame (fun addr inside => kept addr (around_sibling member inside)) holds

theorem around_kept (kept : Kept (around top before behind others) store after) :
    after.page top = store.page top ∧ Kept others store after := by
  refine ⟨kept top (Multiset.mem_cons_self _ _), fun addr member => kept addr ?_⟩
  rw [around]
  simp [member]

/-- The parent of a child that became another one. How many rows the child has is left open. -/
theorem parent_of_changed {degree least : Nat} {lefts rights : List (Entry Key)}
    {outer separators : Multiset (Entry Key)} {items : List (Item RID Key)} {changed : BTree Key height}
    (planted : @Planted Key store root free others orphans parent (height + 1) node)
    (kids : node.kids = before ++ kid :: behind) (seps : node.seps = lefts ++ rights)
    (count : before.length = lefts.length) {rest : List Int}
    (replanted : Replanted degree least root rest (around node.addr before behind others) orphans
      node.addr (outer + separatorsAround before behind lefts rights)
      items (kid.addr height) store after separators changed) :
    ∃ whole : Inner Key height, whole.addr = node.addr ∧ whole.kids = before ++ changed :: behind ∧
      whole.seps = lefts ++ rights ∧ @Planted Key after root rest others orphans parent (height + 1) whole ∧
      Reseparated (joinHead (before.map (Tree.items height)) lefts ++ items ++
        joinTail rights (behind.map (Tree.items height))) (Tree.items (height + 1) whole) ∧
      separators = outer + separatorsOf (Tree.items (height + 1) whole) ∧ Kept others store after := by
  have arity : (before ++ changed :: behind).length = (lefts ++ rights).length + 1 := by
    rw [← seps, ← node.arity, kids]
    simp
  obtain ⟨own, each⟩ := planted.holds
  obtain ⟨topKept, othersKept⟩ := around_kept replanted.kept
  have shape : Tree.items (height + 1) (⟨node.addr, lefts ++ rights, before ++ changed :: behind, arity⟩ :
      Inner Key height) = joinHead (before.map (Tree.items height)) lefts ++ changed.items height ++
        joinTail rights (behind.map (Tree.items height)) := BTreeSearch.node_items rfl rfl count
  refine ⟨⟨node.addr, lefts ++ rights, before ++ changed :: behind, arity⟩, rfl, rfl, rfl, ⟨?_, ?_, ?_⟩, ?_, ?_,
    othersKept⟩
  · have ledger := replanted.planted.ledger
    rwa [← addrs_around] at ledger
  · rw [topKept]
    rw [kids, seps] at own
    simpa [replanted.addr] using own
  · intro other member
    rw [List.mem_append, List.mem_cons] at member
    rcases member with left | rfl | right
    · exact sibling_kept replanted.kept (.inl left) (each other (by rw [kids]; simp [left]))
    · exact replanted.planted.holds
    · exact sibling_kept replanted.kept (.inr right) (each other (by rw [kids]; simp [right]))
  · rw [shape]
    exact reseparated_inside replanted.items
  · rw [shape, replanted.separators, separatorsAround]
    simp only [separators_of_append, ← Multiset.coe_add]
    abel

theorem replanted_parent {degree least : Nat} {lefts rights : List (Entry Key)}
    {outer separators : Multiset (Entry Key)} {items : List (Item RID Key)} {changed : BTree Key height}
    (planted : @Planted Key store root free others orphans parent (height + 1) node)
    (sized : Tree.Sized degree least (height + 1) node)
    (kids : node.kids = before ++ kid :: behind) (seps : node.seps = lefts ++ rights)
    (count : before.length = lefts.length) {rest : List Int}
    (replanted : Replanted degree (degree - 1) root rest (around node.addr before behind others) orphans
      node.addr (outer + separatorsAround before behind lefts rights)
      items (kid.addr height) store after separators changed) :
    ∃ whole : BTree Key (height + 1), Replanted degree least root rest others orphans parent outer
      (joinHead (before.map (Tree.items height)) lefts ++ items ++
        joinTail rights (behind.map (Tree.items height))) node.addr store after separators
      whole := by
  obtain ⟨whole, addr, wholeKids, wholeSeps, wholePlanted, reseparated, separated, kept⟩ :=
    parent_of_changed planted kids seps count replanted
  refine ⟨whole, wholePlanted, addr, ⟨?_, ?_⟩, reseparated, separated, kept⟩
  · rw [wholeSeps, ← seps]
    exact sized.1
  · intro other member
    rw [wholeKids, List.mem_append, List.mem_cons] at member
    rcases member with left | rfl | right
    · exact sized.2 other (by rw [kids]; simp [left])
    · exact replanted.sized
    · exact sized.2 other (by rw [kids]; simp [right])

variable {kids : List (BTree Key height)} {page changed : Int → BNode} {other : Int}

theorem kid_addrs_nodup (nodup : (kids.map (Tree.addrs height)).sum.Nodup) (member : kid ∈ kids) :
    (kid.addrs height).Nodup := by
  obtain ⟨front, back, rfl⟩ := List.append_of_mem member
  rw [List.map_append, List.map_cons, List.sum_append, List.sum_cons, Multiset.nodup_add,
    Multiset.nodup_add] at nodup
  exact nodup.2.1.1

theorem holds_hung (nodup : (kids.map (Tree.addrs height)).sum.Nodup) (member : kid ∈ kids)
    (holds : HoldsTree page height parent kid)
    (own : changed (kid.addr height) = setParent other (page (kid.addr height)))
    (same : ∀ addr ∈ (kids.map (Tree.addrs height)).sum, addr ∉ kids.map (Tree.addr height) →
      changed addr = page addr) : HoldsTree changed height other kid := by
  apply holds_tree_reparent (kid_addrs_nodup nodup member) own _ holds
  intro addr inKid notTop
  exact same addr (mem_kid_addrs member inKid) fun top => notTop (top_inside nodup member inKid top)

end Child

end MyJQL.BTreeSubtrees
