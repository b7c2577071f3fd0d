import MyJQL.BTreePages

/-!
# Finding a key in the tree

What the tree asks of its callbacks, the binary search, and the descent from the root to a leaf.
Searching is the descent alone; insertion and deletion begin with it.
-/

namespace MyJQL.BTreeSearch

open MyJQL.FileIo
open MyJQL.BufferPoolModel
open MyJQL.StateProgram
open MyJQL.PageStoreLogic
open MyJQL.ArrayLoops
open MyJQL.TableModel
open MyJQL.SearchTrees
open MyJQL.BTreeModel
open MyJQL.BTreeLayout
open MyJQL.BTreePages

set_option autoImplicit false

variable {Key Store Value : Type} [LinearOrder Key]

/-- A comparison result as the tree reads it. -/
def Agrees (order : Int) (first second : Key) : Prop :=
  (0 < order ↔ second < first) ∧ (order = 0 ↔ first = second)

/-- The callbacks over a store from which only the separators are seen that the tree has made and
not deleted. `records` are the rows of the caller; they stay as they are. -/
structure Contract (represents : Multiset (Entry Key) → Store → Prop) (records : Multiset (Entry Key))
    (callbacks : Callbacks Store) : Prop where
  cmp : ∀ {separators : Multiset (Entry Key)} {first second : Entry Key},
    first ∈ records + separators → second ∈ records + separators →
    Ensures represents separators (callbacks.cmp first.1 second.1) fun order after =>
      after = separators ∧ Agrees order first.2 second.2
  insertHandler : ∀ {separators : Multiset (Entry Key)} {entry : Entry Key},
    entry ∈ records + separators →
    Ensures represents separators (callbacks.insertHandler entry.1) fun copy after =>
      after = (copy, entry.2) ::ₘ separators
  deleteHandler : ∀ {separators : Multiset (Entry Key)} {entry : Entry Key}, entry ∈ separators →
    Ensures represents separators (callbacks.deleteHandler entry.1) fun _ after =>
      after = separators.erase entry

/-- A comparator with the key on its left, among the entries that may be compared with. -/
def Compares (represents : Multiset (Entry Key) → Store → Prop) (separators : Multiset (Entry Key))
    (compare : RID → Program Store Int) (key : Key) (entries : List (Entry Key)) : Prop :=
  ∀ entry ∈ entries, Ensures represents separators (compare entry.1) fun order after =>
    after = separators ∧ Agrees order key entry.2

variable {represents : Multiset (Entry Key) → Store → Prop} {separators : Multiset (Entry Key)}
  {compare : RID → Program Store Int} {key : Key} {degree : Nat}

omit [LinearOrder Key] in
theorem ensures_lower_bound_loop {row : Nat → RID} {count first : Nat} (l r ans : Int) (size : Nat)
    (measure : r + 1 - l ≤ size) (lower : 0 ≤ l ∧ l ≤ first) (upper : (first : Int) ≤ ans ∧ ans ≤ count)
    (last : ans = r + 1)
    (orders : ∀ j, j < count → Ensures represents separators (compare (row j)) fun order after =>
      after = separators ∧ (0 < order ↔ j < first)) :
    Ensures represents separators (lowerBoundLoop compare row l r ans) fun found after =>
      after = separators ∧ found = first := by
  induction size generalizing l r ans with
  | zero =>
      rw [lower_bound_loop_eq, if_neg (by omega)]
      exact ensures_pure _ ⟨rfl, by omega⟩
  | succ size ih =>
      rw [lower_bound_loop_eq]
      apply ensures_ite
      · intro more
        have middle := orders ((l + r) / 2).toNat (by omega)
        apply ensures_bind
        apply ensures_mono middle
        rintro order after ⟨rfl, isLess⟩
        apply ensures_ite
        · intro greater
          have before := isLess.mp greater
          exact ih _ _ _ (by omega) (by omega) upper last
        · intro notGreater
          have behind : ¬((l + r) / 2).toNat < first := fun before => notGreater (isLess.mpr before)
          exact ih _ _ _ (by omega) lower (by omega) (by omega)
      · intro none
        exact ensures_pure _ ⟨rfl, by omega⟩

omit [LinearOrder Key] in
/-- The binary search finds where the entries stop to be smaller than the key. -/
theorem ensures_lower_bound {row : Nat → RID} {count first : Nat} (inside : first ≤ count)
    (orders : ∀ j, j < count → Ensures represents separators (compare (row j)) fun order after =>
      after = separators ∧ (0 < order ↔ j < first)) :
    Ensures represents separators (lowerBoundPr compare row count) fun found after =>
      after = separators ∧ found = first := by
  rw [lowerBoundPr]
  apply ensures_bind
  apply ensures_mono (ensures_lower_bound_loop 0 (count - 1) count count (by omega) (by omega) (by omega)
    (by omega) orders)
  rintro found after ⟨rfl, same⟩
  exact ensures_pure _ ⟨rfl, by omega⟩

theorem split_entries {entries : List (Entry Key)}
    (sorted : entries.Pairwise fun first second => first.2 < second.2) (key : Key) :
    ∃ lefts rights, entries = lefts ++ rights ∧ (∀ entry ∈ lefts, entry.2 < key) ∧
      ∀ entry ∈ rights, key ≤ entry.2 := by
  induction entries with
  | nil => exact ⟨[], [], rfl, by simp, by simp⟩
  | cons entry rest ih =>
      obtain ⟨head, tail⟩ := List.pairwise_cons.mp sorted
      by_cases less : entry.2 < key
      · obtain ⟨lefts, rights, split, below, above⟩ := ih tail
        refine ⟨entry :: lefts, rights, by rw [split]; rfl, ?_, above⟩
        intro other member
        rcases List.mem_cons.mp member with rfl | later
        · exact less
        · exact below other later
      · refine ⟨[], entry :: rest, rfl, by simp, ?_⟩
        intro other member
        rcases List.mem_cons.mp member with rfl | later
        · exact le_of_not_gt less
        · have := head other later
          order

theorem ensures_lower_bound_entries {row : Nat → RID} {lefts rights : List (Entry Key)}
    (reads : Reads row ((lefts ++ rights).map Prod.fst)) (below : ∀ entry ∈ lefts, entry.2 < key)
    (above : ∀ entry ∈ rights, key ≤ entry.2)
    (compares : Compares represents separators compare key (lefts ++ rights)) :
    Ensures represents separators (lowerBoundPr compare row (lefts ++ rights).length) fun found after =>
      after = separators ∧ found = lefts.length := by
  apply ensures_lower_bound
  · simp
  · intro j inside
    have entry := reads j (by simpa using inside)
    rw [List.getElem_map] at entry
    rw [entry]
    apply ensures_mono (compares _ (List.getElem_mem inside))
    rintro order after ⟨rfl, agrees⟩
    refine ⟨rfl, agrees.1.trans ?_⟩
    by_cases left : j < lefts.length
    · rw [List.getElem_append_left left]
      exact iff_of_true (below _ (List.getElem_mem left)) left
    · rw [List.getElem_append_right (by omega)]
      exact iff_of_false (not_lt_of_ge (above _ (List.getElem_mem _))) left

def FirstHas (entries : List (Entry Key)) (key : Key) : Prop :=
  ∃ entry rest, entries = entry :: rest ∧ entry.2 = key

theorem first_has_of_mem {entries : List (Entry Key)} {entry : Entry Key}
    (sorted : entries.Pairwise fun first second => first.2 < second.2) (above : ∀ other ∈ entries, key ≤ other.2)
    (member : entry ∈ entries) (own : entry.2 = key) : FirstHas entries key := by
  obtain ⟨head, rest, rfl⟩ := List.exists_cons_of_ne_nil (List.ne_nil_of_mem member)
  refine ⟨head, rest, rfl, ?_⟩
  have lower := above head List.mem_cons_self
  rcases List.mem_cons.mp member with rfl | later
  · exact own
  · have := (List.pairwise_cons.mp sorted).1 entry later
    order

theorem ensures_locate {page : BNode} {leaf : Bool} {parent : Int} {kids : List Int}
    {lefts rights : List (Entry Key)}
    (holds : HoldsNode page leaf parent ((lefts ++ rights).map Prod.fst) kids)
    (below : ∀ entry ∈ lefts, entry.2 < key) (above : ∀ entry ∈ rights, key ≤ entry.2)
    (compares : Compares represents separators compare key (lefts ++ rights)) :
    Ensures represents separators (locate compare page) fun found after =>
      after = separators ∧ found.1 = lefts.length ∧ (found.2 = true ↔ FirstHas rights key) := by
  have n : page.n = (lefts ++ rights).length := by rw [holds.n, List.length_map]
  rw [locate, n]
  apply ensures_bind
  apply ensures_mono (ensures_lower_bound_entries holds.rows below above compares)
  rintro i after ⟨rfl, rfl⟩
  apply ensures_ite
  · intro atEnd
    have none : rights = [] := by
      rw [← List.length_eq_zero_iff]
      simp only [List.length_append] at atEnd
      omega
    apply ensures_pure
    simp [none, FirstHas]
  · intro notEnd
    cases rights with
    | nil => exact absurd (by simp) notEnd
    | cons entry rest =>
        have row : page.rowPtr lefts.length = entry.1 := by
          have reads := holds.rows
          rw [List.map_append, List.map_cons] at reads
          simpa using reads_middle reads
        rw [row]
        apply ensures_bind
        apply ensures_mono (compares entry (by simp))
        rintro order after ⟨rfl, agrees⟩
        apply ensures_pure
        refine ⟨rfl, rfl, ?_⟩
        simp [FirstHas, agrees.2, eq_comm]

/-- The pool of the tree with its pages, the store of the callbacks with its separators. -/
abbrev Stands (rel : IndexStore → IndexPool → Prop) (represents : Multiset (Entry Key) → Store → Prop) :
    IndexStore × Multiset (Entry Key) → Index Store → Prop := Both rel represents

variable {rel : IndexStore → IndexPool → Prop}

section Rules

variable {store : IndexStore}

omit [LinearOrder Key] in
theorem ensures_index {program : Program IndexPool Value}
    {post : Value → IndexStore × Multiset (Entry Key) → Prop}
    (holds : Ensures rel store program fun value after => post value (after, separators)) :
    Ensures (Stands rel represents) (store, separators) (onIndex program) post := ensures_first holds

omit [LinearOrder Key] in
theorem ensures_store {program : Program Store Value}
    {post : Value → IndexStore × Multiset (Entry Key) → Prop}
    (holds : Ensures represents separators program fun value after => post value (store, after)) :
    Ensures (Stands rel represents) (store, separators) (onStore program) post := ensures_second holds

end Rules

section Descent

variable [PoolRules rel] {store : IndexStore} {root : Int} {free : List Int} {used orphans : Multiset Int}
  {frame : Frame} {parent : Int} {next : Place → Program (Index Store) Value}
  {post : Value → IndexStore × Multiset (Entry Key) → Prop}

theorem ensures_descend_leaf {leaf : Leaf Key} (holds : HoldsTree store.page 0 parent leaf)
    (fits : leaf.rows.length ≤ 2 * degree - 1) (sorted : Sorted (Tree.items 0 leaf))
    (pin : store.pin leaf.addr = some frame)
    (compares : Compares represents separators compare key leaf.rows)
    (continues : ∀ lefts rights hit, leaf.rows = lefts ++ rights → (∀ entry ∈ lefts, entry.2 < key) →
      (∀ entry ∈ rights, key ≤ entry.2) → (hit = true ↔ FirstHas rights key) →
      Ensures (Stands rel represents) (store, separators) (next ⟨⟨frame, leaf.addr⟩, lefts.length, hit⟩) post) :
    Ensures (Stands rel represents) (store, separators)
      (descend degree compare ⟨frame, leaf.addr⟩ >>= next) post := by
  rw [Tree.items_leaf, Sorted, List.pairwise_map] at sorted
  obtain ⟨lefts, rights, split, below, above⟩ := split_entries sorted key
  rw [holds_leaf] at holds
  have n := holds.n
  rw [List.length_map] at n
  rw [split] at holds compares
  apply ensures_bind
  rw [descend, loop_eq, descendTurn]
  simp only [bind_assoc, bind_ite, pure_bind, afterTurn]
  refine ensures_bind (ensures_index (ensures_load pin ?_))
  refine ensures_bind (ensures_check (by omega) ?_)
  refine ensures_bind (ensures_store (ensures_mono (ensures_locate holds below above compares) ?_))
  rintro ⟨i, hit⟩ after ⟨rfl, rfl, isHit⟩
  dsimp only
  rw [if_pos holds.leaf]
  exact ensures_pure _ (continues lefts rights hit split below above isHit)

/-- An equal separator stays on the left of the descent. -/
theorem descent_sides {smaller larger : List (Entry Key)} {hit : Bool}
    (increasing : (smaller ++ larger).Pairwise fun first second => first.2 < second.2)
    (below : ∀ entry ∈ smaller, entry.2 < key) (above : ∀ entry ∈ larger, key ≤ entry.2)
    (isHit : hit = true ↔ FirstHas larger key) :
    ∃ lefts rights, smaller ++ larger = lefts ++ rights ∧
      (if hit then smaller.length + 1 else smaller.length) = lefts.length ∧
      (∀ entry ∈ lefts, entry.2 ≤ key) ∧ ∀ entry ∈ rights, key < entry.2 := by
  have behind := (List.pairwise_append.mp increasing).2.1
  cases hit with
  | true =>
      obtain ⟨entry, rest, rfl, same⟩ := isHit.mp rfl
      refine ⟨smaller ++ [entry], rest, by simp, by simp, ?_, ?_⟩
      · intro other member
        rcases List.mem_append.mp member with first | last
        · exact le_of_lt (below other first)
        · rw [List.mem_singleton.mp last, same]
      · intro other member
        rw [← same]
        exact (List.pairwise_cons.mp behind).1 other member
  | false =>
      refine ⟨smaller, larger, rfl, by simp, fun other member => le_of_lt (below other member), ?_⟩
      intro other member
      refine lt_of_le_of_ne (above other member) fun same => ?_
      obtain ⟨entry, rest, rfl⟩ := List.exists_cons_of_ne_nil (List.ne_nil_of_mem member)
      have first : entry.2 = key := by
        have lower := above entry List.mem_cons_self
        rcases List.mem_cons.mp member with rfl | later
        · exact same.symm
        · have := (List.pairwise_cons.mp behind).1 other later
          order
      exact absurd (isHit.mpr ⟨entry, rest, rfl, first⟩) (by simp)

/-- The step down from an inner node: the separators up to the key stay on the left. -/
theorem ensures_descend_inner {height : Nat} {node : Inner Key height}
    (holds : HoldsTree store.page (height + 1) parent node)
    (fits : node.seps.length ≤ 2 * degree - 1) (sorted : Sorted (Tree.items (height + 1) node))
    (inFile : ∀ kid ∈ node.kids, 0 ≤ kid.addr height ∧ kid.addr height % pageSize = 0 ∧
      kid.addr height < store.length)
    (held : Pins store [(node.addr, frame)])
    (compares : Compares represents separators compare key node.seps)
    (continues : ∀ before kid behind lefts rights below after, node.kids = before ++ kid :: behind →
      node.seps = lefts ++ rights → before.length = lefts.length → behind.length = rights.length →
      (∀ entry ∈ lefts, entry.2 ≤ key) → (∀ entry ∈ rights, key < entry.2) →
      after.page = store.page → after.length = store.length → Pins after [(kid.addr height, below)] →
      Ensures (Stands rel represents) (after, separators)
        (descend degree compare ⟨below, kid.addr height⟩ >>= next) post) :
    Ensures (Stands rel represents) (store, separators)
      (descend degree compare ⟨frame, node.addr⟩ >>= next) post := by
  have arity : (node.kids.map (Tree.items height)).length = node.seps.length + 1 := by
    rw [List.length_map, node.arity]
  have increasing := join_seps_sorted arity sorted
  obtain ⟨smaller, larger, split, below, above⟩ := split_entries increasing key
  obtain ⟨own, _⟩ := holds
  have n := own.n
  rw [List.length_map] at n
  rw [split] at own compares
  have pin : store.pin node.addr = some frame := (held _ _).mpr (by simp)
  rw [descend, loop_eq, descendTurn]
  simp only [bind_assoc, bind_ite, pure_bind, afterTurn]
  refine ensures_bind (ensures_index (ensures_load pin ?_))
  refine ensures_bind (ensures_check (by omega) ?_)
  refine ensures_bind (ensures_store (ensures_mono (ensures_locate own below above compares) ?_))
  rintro ⟨i, hit⟩ after ⟨rfl, rfl, isHit⟩
  rw [split] at increasing
  obtain ⟨lefts, rights, cut, place, atMost, greater⟩ := descent_sides increasing below above isHit
  have sepsSplit : node.seps = lefts ++ rights := split.trans cut
  have inside : lefts.length ≤ node.seps.length := by
    rw [sepsSplit, List.length_append]
    omega
  obtain ⟨before, kid, behind, others, others', kidsSplit, sepsSplit', count, count', counts⟩ :=
    node_focus inside
  obtain ⟨rfl, rfl⟩ : lefts = others ∧ rights = others' :=
    List.append_inj (sepsSplit.symm.trans sepsSplit') count'.symm
  have member : kid ∈ node.kids := by
    rw [kidsSplit]
    simp
  have child : (store.page node.addr).child lefts.length = kid.addr height := by
    have reads := own.kids
    rw [kidsSplit, List.map_append, List.map_cons] at reads
    have found := reads_middle reads
    rw [List.length_map, count] at found
    exact found
  dsimp only at place ⊢
  rw [if_neg (by rw [own.leaf]; simp)]
  refine ensures_bind (ensures_index (ensures_unpin frame pin ?_))
  have released : Pins (store.unpinned node.addr) [] := pins_released held (by simp)
  rw [place, child]
  refine ensures_bind (ensures_index (ensures_pin (inFile kid member) released (by simp) (by decide) ?_))
  intro belowFrame heldKid
  exact continues before kid behind lefts rights belowFrame _ kidsSplit sepsSplit count counts atMost
    greater rfl rfl heldKid

end Descent

section Child

variable {height : Nat} {node : Inner Key height} {before behind : List (BTree Key height)}
  {kid : BTree Key height} {lefts rights : List (Entry Key)}

omit [LinearOrder Key] in
theorem node_items (kids : node.kids = before ++ kid :: behind) (seps : node.seps = lefts ++ rights)
    (count : before.length = lefts.length) :
    Tree.items (height + 1) node = joinHead (before.map (Tree.items height)) lefts ++
      kid.items height ++ joinTail rights (behind.map (Tree.items height)) := by
  rw [Tree.items_inner, kids, seps, List.map_append, List.map_cons]
  exact join_focus (by simp [count])

/-- With a row for the key the surroundings of the child are still sorted. -/
theorem around_child (entry : Entry Key) (kids : node.kids = before ++ kid :: behind)
    (seps : node.seps = lefts ++ rights) (count : before.length = lefts.length)
    (sorted : Sorted (Tree.items (height + 1) node)) (lower : ∀ sep ∈ lefts, sep.2 ≤ entry.2)
    (upper : ∀ sep ∈ rights, entry.2 < sep.2) :
    (∀ item ∈ joinHead (before.map (Tree.items height)) lefts, Before item (.row entry)) ∧
      (∀ item ∈ joinTail rights (behind.map (Tree.items height)), Before (.row entry) item) ∧
      Sorted (kid.items height) := by
  rw [node_items kids seps count] at sorted
  refine ⟨?_, ?_, ?_⟩
  · rw [List.append_assoc] at sorted
    exact join_head_before sorted lower
  · exact join_tail_behind sorted upper
  · exact (List.pairwise_append.mp (List.pairwise_append.mp sorted).1).2.1

theorem rows_around_child {entry : Entry Key} {front back : List (Item RID Key)}
    (infront : ∀ item ∈ front, Before item (.row entry)) (behind : ∀ item ∈ back, Before (.row entry) item) :
    (∀ other ∈ rowsOf front, other.2 ≠ entry.2) ∧ ∀ other ∈ rowsOf back, other.2 ≠ entry.2 := by
  constructor
  · intro other member
    exact ne_of_lt (infront _ ((mem_rows_of _ _).mp member))
  · intro other member
    exact (ne_of_lt (behind _ ((mem_rows_of _ _).mp member))).symm

end Child

theorem contract_compares {Store : Type} {represents : Multiset (Entry Key) → Store → Prop}
    {records outer separators : Multiset (Entry Key)} {callbacks : Callbacks Store} {entry : Entry Key} {height : Nat}
    {tree : BTree Key height} (contract : Contract represents records callbacks) (recorded : entry ∈ records)
    (known : ∀ row ∈ rowsOf (tree.items height), row ∈ records)
    (separated : separators = outer + separatorsOf (tree.items height)) :
    Compares represents separators (callbacks.cmp entry.1) entry.2 ((tree.items height).map Item.entry) := by
  intro other member
  apply contract.cmp (Multiset.mem_add.mpr (.inl recorded))
  obtain ⟨item, inside, rfl⟩ := List.mem_map.mp member
  cases item with
  | row row => exact Multiset.mem_add.mpr (.inl (known row ((mem_rows_of _ _).mpr inside)))
  | separator sep =>
      have listed : sep ∈ separatorsOf (tree.items height) := (mem_separators_of _ _).mpr inside
      rw [separated]
      exact Multiset.mem_add.mpr (.inr (Multiset.mem_add.mpr (.inr listed)))

section Parts

variable {Store : Type} {represents : Multiset (Entry Key) → Store → Prop} {separators : Multiset (Entry Key)}
  {compare : RID → Program Store Int} {key : Key} {height : Nat}

theorem compares_rows {leaf : Leaf Key}
    (compares : Compares represents separators compare key ((Tree.items 0 leaf).map Item.entry)) :
    Compares represents separators compare key leaf.rows := by
  rw [Tree.items_leaf, List.map_map] at compares
  rwa [show leaf.rows.map (Item.entry ∘ Item.row) = leaf.rows from List.map_id _] at compares

theorem compares_seps {node : Inner Key height}
    (compares : Compares represents separators compare key ((Tree.items (height + 1) node).map Item.entry)) :
    Compares represents separators compare key node.seps := by
  have arity : (node.kids.map (Tree.items height)).length = node.seps.length + 1 := by
    rw [List.length_map, node.arity]
  intro sep member
  apply compares
  apply List.mem_map.mpr
  exact ⟨.separator sep, (join_sublist arity).subset (List.mem_map_of_mem member), rfl⟩

theorem compares_part {items front inside back : List (Item RID Key)} (split : items = front ++ inside ++ back)
    (compares : Compares represents separators compare key (items.map Item.entry)) :
    Compares represents separators compare key (inside.map Item.entry) := by
  intro entry member
  apply compares
  rw [split]
  simp only [List.map_append, List.mem_append]
  exact .inl (.inr member)

end Parts

/-- The descent has come to the leaf where the key belongs, and it has seen whether the key is there. -/
structure Lands (store : IndexStore) (degree : Nat) {height : Nat} (tree : BTree Key height) (key : Key)
    (place : Place) : Prop where
  inTree : place.node.addr ∈ tree.addrs height
  leaf : (store.page place.node.addr).leaf = true
  fits : (store.page place.node.addr).n ≤ 2 * degree - 1
  hit : place.hit = true ↔ ∃ entry ∈ rowsOf (tree.items height), entry.2 = key
  row : place.hit = true →
    ((store.page place.node.addr).rowPtr place.idx, key) ∈ rowsOf (tree.items height)

omit [LinearOrder Key] in
theorem lands_of_child {store after : IndexStore} {height : Nat} {node : Inner Key height} {kid : BTree Key height}
    {front back : List (Item RID Key)} {place : Place} (page : after.page = store.page) (member : kid ∈ node.kids)
    (items : Tree.items (height + 1) node = front ++ kid.items height ++ back)
    (infront : ∀ other ∈ rowsOf front, other.2 ≠ key) (behind : ∀ other ∈ rowsOf back, other.2 ≠ key)
    (lands : Lands after degree kid key place) : @Lands Key store degree (height + 1) node key place := by
  have rows : rowsOf (Tree.items (height + 1) node) = rowsOf front ++ rowsOf (kid.items height) ++ rowsOf back := by
    rw [items, rows_of_append, rows_of_append]
  obtain ⟨inTree, leaf, fits, hit, row⟩ := lands
  rw [page] at leaf fits row
  refine ⟨Multiset.mem_cons_of_mem (mem_kid_addrs member inTree), leaf, fits, hit.trans ?_, ?_⟩
  · rw [rows]
    constructor
    · rintro ⟨entry, inKid, own⟩
      exact ⟨entry, by simp [inKid], own⟩
    · rintro ⟨entry, listed, own⟩
      simp only [List.mem_append] at listed
      rcases listed with (first | inKid) | last
      · exact absurd own (infront entry first)
      · exact ⟨entry, inKid, own⟩
      · exact absurd own (behind entry last)
  · intro isHit
    rw [rows]
    simp [row isHit]

section Landing

variable [PoolRules rel] {store : IndexStore} {frame : Frame} {parent : Int}
  {next : Place → Program (Index Store) Value}
  {post : Value → IndexStore × Multiset (Entry Key) → Prop}

theorem ensures_descend_below {height : Nat} {tree : BTree Key height} {least : Nat}
    (holds : HoldsTree store.page height parent tree) (sized : tree.Sized degree least height)
    (sorted : Sorted (tree.items height))
    (inFile : ∀ addr ∈ tree.addrs height, 0 ≤ addr ∧ addr % pageSize = 0 ∧ addr < store.length)
    (held : Pins store [(tree.addr height, frame)])
    (compares : Compares represents separators compare key ((tree.items height).map Item.entry))
    (continues : ∀ place after, Lands store degree tree key place → after.page = store.page →
      after.length = store.length → Pins after [(place.node.addr, place.node.frame)] →
      Ensures (Stands rel represents) (after, separators) (next place) post) :
    Ensures (Stands rel represents) (store, separators)
      (descend degree compare ⟨frame, tree.addr height⟩ >>= next) post := by
  induction height generalizing parent store frame least with
  | zero =>
      have pin : store.pin tree.addr = some frame := (held _ _).mpr (by simp)
      apply ensures_descend_leaf holds sized.2 sorted pin (compares_rows compares)
      intro lefts rights hit split below above isHit
      refine continues _ _ ?_ rfl rfl held
      have own := holds
      rw [holds_leaf] at own
      have n := own.n
      rw [List.length_map] at n
      have least : tree.rows.length ≤ 2 * degree - 1 := sized.2
      refine ⟨Multiset.mem_singleton_self _, own.leaf, by rw [n]; exact least, ?_, ?_⟩
      · rw [isHit, Tree.items_leaf, rows_of_map_row, split]
        constructor
        · rintro ⟨entry, rest, rfl, same⟩
          exact ⟨entry, by simp, same⟩
        · rintro ⟨entry, member, same⟩
          rcases List.mem_append.mp member with first | last
          · exact absurd same (ne_of_lt (below entry first))
          · rw [Tree.items_leaf, Sorted, List.pairwise_map, split] at sorted
            exact first_has_of_mem (List.pairwise_append.mp sorted).2.1 above last same
      · intro found
        obtain ⟨⟨rid, _⟩, rest, rfl, rfl⟩ := isHit.mp found
        rw [split, List.map_append, List.map_cons] at own
        have row := reads_middle own.rows
        rw [List.length_map] at row
        rw [Tree.items_leaf, rows_of_map_row, split, row]
        simp
  | succ height ih =>
      have kidsInFile : ∀ kid ∈ tree.kids, 0 ≤ Tree.addr height kid ∧
          Tree.addr height kid % pageSize = 0 ∧ Tree.addr height kid < store.length := fun kid member =>
        inFile _ (Multiset.mem_cons_of_mem (mem_kid_addrs member (Tree.addr_mem_addrs kid)))
      apply ensures_descend_inner holds sized.1.2 sorted kidsInFile held (compares_seps compares)
      intro before kid behind lefts rights below after kids seps count _ atMost greater page length heldKid
      have member : kid ∈ tree.kids := by
        rw [kids]
        simp
      have items := node_items kids seps count
      obtain ⟨infront, later, kidSorted⟩ :=
        around_child (nothing, key) kids seps count sorted atMost greater
      obtain ⟨frontRows, backRows⟩ := rows_around_child infront later
      apply ih
      · rw [page]
        exact holds.2 kid member
      · exact sized.2 kid member
      · exact kidSorted
      · intro addr inKid
        rw [length]
        exact inFile addr (Multiset.mem_cons_of_mem (mem_kid_addrs member inKid))
      · exact heldKid
      · exact compares_part items compares
      · intro place final lands finalPage finalLength finalHeld
        exact continues place final (lands_of_child page member items frontRows backRows lands)
          (finalPage.trans page) (finalLength.trans length) finalHeld

end Landing

def Sought (rows : List (Entry Key)) (key : Key) (answer : RID) : Prop :=
  (answer, key) ∈ rows ∨ (∀ entry ∈ rows, entry.2 ≠ key) ∧ answer = nothing

section Search

variable [PoolRules rel] {store : IndexStore} {frame : Frame} {parent : Int}
  {post : RID → IndexStore × Multiset (Entry Key) → Prop}

def answerAt (place : Place) : Program (Index Store) RID := do
  let page ← onIndex (load place.node)
  onIndex (unpin place.node.addr)
  pure (if place.hit then page.rowPtr place.idx else nothing)

theorem ensures_search_below {height : Nat} {tree : BTree Key height} {least : Nat}
    (holds : HoldsTree store.page height parent tree) (sized : tree.Sized degree least height)
    (sorted : Sorted (tree.items height))
    (inFile : ∀ addr ∈ tree.addrs height, 0 ≤ addr ∧ addr % pageSize = 0 ∧ addr < store.length)
    (held : Pins store [(tree.addr height, frame)])
    (compares : Compares represents separators compare key ((tree.items height).map Item.entry))
    (continues : ∀ answer after, Sought (rowsOf (tree.items height)) key answer →
      after.page = store.page → after.length = store.length → Pins after [] →
      post answer (after, separators)) :
    Ensures (Stands rel represents) (store, separators)
      (descend degree compare ⟨frame, tree.addr height⟩ >>= answerAt) post := by
  apply ensures_descend_below holds sized sorted inFile held compares
  intro place after lands page length heldLeaf
  have pin : after.pin place.node.addr = some place.node.frame := (heldLeaf _ _).mpr (by simp)
  rw [answerAt]
  refine ensures_bind (ensures_index (ensures_load pin ?_))
  refine ensures_bind (ensures_index (ensures_unpin place.node.frame pin ?_))
  apply ensures_pure
  refine continues _ _ ?_ page length (pins_released heldLeaf (by simp))
  cases found : place.hit with
  | true =>
      refine .inl ?_
      rw [page, if_pos rfl]
      exact lands.row found
  | false =>
      refine .inr ⟨fun entry member same => ?_, by simp⟩
      rw [lands.hit.mpr ⟨entry, member, same⟩] at found
      cases found

end Search

/-- A tree in its file. A root that is a leaf may be empty; any other root has a separator. -/
structure IndexShape (degree : Nat) {height : Nat} (tree : BTree Key height) (free : List Int)
    (orphans : Multiset Int) (store : IndexStore) : Prop where
  ledger : Ledger store.page store.length (tree.addr height) free (tree.addrs height) orphans
  holds : HoldsTree store.page height (-1) tree
  sized : tree.Sized degree (min height 1) height
  sorted : Sorted (tree.items height)

/-- The index holds its rows, in leaves, and its separators, in inner nodes; nothing is pinned. -/
def HoldsIndex (degree : Nat) (rows separators : Multiset (Entry Key)) (orphans : Multiset Int)
    (store : IndexStore) : Prop :=
  ∃ (height : Nat) (tree : BTree Key height) (free : List Int), IndexShape degree tree free orphans store ∧
    Pins store [] ∧ rows = rowsOf (tree.items height) ∧ separators = separatorsOf (tree.items height)

section Root

variable [PoolRules rel] {store : IndexStore} {root : Int} {free : List Int} {used orphans : Multiset Int}

omit [LinearOrder Key] in
theorem ensures_fetch_root {post : PagePtr → IndexStore × Multiset (Entry Key) → Prop}
    (ledger : Ledger store.page store.length root free used orphans) (inUse : root ∈ used)
    (held : Pins store [])
    (continues : ∀ frame after, after.page = store.page → after.length = store.length →
      Pins after [(root, frame)] → post ⟨frame, root⟩ (after, separators)) :
    Ensures (Stands rel represents) (store, separators) fetchRoot post := by
  obtain ⟨nonneg, aligned, inside, _, _⟩ := ledger_used ledger inUse
  rw [fetchRoot]
  apply ensures_index
  refine ensures_bind (ensures_pin (control_in_file ledger) held (by simp) (by decide) ?_)
  intro ctr heldControl
  refine ensures_bind (ensures_load (by simp) ?_)
  refine ensures_bind (ensures_unpin ctr (by simp) ?_)
  simp only [PageStore.pinned_page, ledger.root]
  have released : Pins ((store.pinned 0 ctr).unpinned 0) [] := pins_released heldControl (by simp)
  have inFile : 0 ≤ root ∧ root % pageSize = 0 ∧ root < ((store.pinned 0 ctr).unpinned 0).length :=
    ⟨nonneg, aligned, inside⟩
  apply ensures_pin inFile released (by simp) (by decide)
  intro frame heldRoot
  exact continues frame _ rfl rfl heldRoot

theorem ensures_find_leaf {Value : Type} {height : Nat} {tree : BTree Key height}
    {next : Place → Program (Index Store) Value}
    {post : Value → IndexStore × Multiset (Entry Key) → Prop} (shape : IndexShape degree tree free orphans store)
    (held : Pins store []) (compares : Compares represents separators compare key ((tree.items height).map Item.entry))
    (continues : ∀ place after, Lands store degree tree key place → after.page = store.page →
      after.length = store.length → Pins after [(place.node.addr, place.node.frame)] →
      Ensures (Stands rel represents) (after, separators) (next place) post) :
    Ensures (Stands rel represents) (store, separators)
      (fetchRoot >>= fun node => descend degree compare node >>= next) post := by
  apply ensures_bind
  apply ensures_fetch_root shape.ledger (Tree.addr_mem_addrs tree) held
  intro frame after page length heldRoot
  have holds : HoldsTree after.page height (-1) tree := by
    rw [page]
    exact shape.holds
  apply ensures_descend_below holds shape.sized shape.sorted _ heldRoot compares
  · intro place final lands finalPage finalLength heldLeaf
    refine continues place final ?_ (finalPage.trans page) (finalLength.trans length) heldLeaf
    obtain ⟨inTree, leaf, fits, hit, row⟩ := lands
    rw [page] at leaf fits row
    exact ⟨inTree, leaf, fits, hit, row⟩
  · intro addr inUse
    obtain ⟨nonneg, aligned, inside, _, _⟩ := ledger_used shape.ledger inUse
    exact ⟨nonneg, aligned, by rw [length]; exact inside⟩

omit [LinearOrder Key] in
theorem entries_of_items (items : List (Item RID Key)) :
    ((items.map Item.entry : List (Entry Key)) : Multiset (Entry Key)) = rowsOf items + separatorsOf items := by
  induction items with
  | nil => rfl
  | cons item rest ih =>
      rw [List.map_cons, ← Multiset.cons_coe, ih]
      cases item with
      | row entry => simp [Item.entry]
      | separator entry =>
          simp only [Item.entry, rows_of_separator, separators_of_separator, ← Multiset.cons_coe,
            Multiset.add_cons]

theorem ensures_b_tree_search {rows : Multiset (Entry Key)}
    {post : RID → IndexStore × Multiset (Entry Key) → Prop}
    (index : HoldsIndex degree rows separators orphans store)
    (compares : ∀ entry ∈ rows + separators, Ensures represents separators (compare entry.1)
      fun order after => after = separators ∧ Agrees order key entry.2)
    (continues : ∀ answer after, ((answer, key) ∈ rows ∨
        (∀ entry ∈ rows, entry.2 ≠ key) ∧ answer = nothing) →
      HoldsIndex degree rows separators orphans after → post answer (after, separators)) :
    Ensures (Stands rel represents) (store, separators) (bTreeSearch degree compare) post := by
  obtain ⟨height, tree, free, shape, held, rfl, sameSeparators⟩ := index
  have itemsCompare : Compares represents separators compare key ((tree.items height).map Item.entry) := by
    intro entry member
    apply compares entry
    rw [sameSeparators, ← entries_of_items]
    exact member
  have finish : ∀ answer after, Sought (rowsOf (tree.items height)) key answer →
      after.page = store.page → after.length = store.length → Pins after [] →
      post answer (after, separators) := by
    intro answer after sought page length released
    apply continues answer after sought
    refine ⟨height, tree, free, ⟨?_, ?_, shape.sized, shape.sorted⟩, released, rfl, sameSeparators⟩
    · rw [page, length]
      exact shape.ledger
    · rw [page]
      exact shape.holds
  rw [bTreeSearch]
  apply ensures_bind
  apply ensures_fetch_root shape.ledger (Tree.addr_mem_addrs tree) held
  intro frame after page length heldRoot
  have pin : after.pin (tree.addr height) = some frame := (heldRoot _ _).mpr (by simp)
  refine ensures_bind (ensures_index (ensures_load pin ?_))
  rw [page]
  apply ensures_ite
  · intro empty
    refine ensures_bind (ensures_index (ensures_unpin frame pin ?_))
    apply ensures_pure
    apply finish
    · cases height with
      | zero =>
          have n := shape.holds.n
          rw [Tree.addr_leaf] at empty
          rw [empty, List.length_map] at n
          rw [Tree.items_leaf, rows_of_map_row, List.length_eq_zero_iff.mp n.symm]
          exact .inr ⟨by simp, rfl⟩
      | succ height =>
          have n := shape.holds.1.n
          have least := shape.sized.1.1
          rw [Tree.addr_inner] at empty
          rw [empty, List.length_map] at n
          omega
    · exact page
    · exact length
    · exact pins_released heldRoot (by simp)
  · intro _
    have inFile : ∀ addr ∈ tree.addrs height, 0 ≤ addr ∧ addr % pageSize = 0 ∧ addr < after.length := by
      intro addr inUse
      obtain ⟨nonneg, aligned, inside, _, _⟩ := ledger_used shape.ledger inUse
      exact ⟨nonneg, aligned, by rw [length]; exact inside⟩
    have holds : HoldsTree after.page height (-1) tree := by
      rw [page]
      exact shape.holds
    apply ensures_search_below holds shape.sized shape.sorted inFile heldRoot itemsCompare
    intro answer final sought finalPage finalLength released
    exact finish answer final sought (finalPage.trans page) (finalLength.trans length) released

end Root

end MyJQL.BTreeSearch
