import MyJQL.BTreeEdits
import MyJQL.BTreeSubtrees
import Mathlib.Tactic.IntervalCases

/-!
# Inserting into the tree

The descent ends in a leaf. From there on a node either takes the new row, or it is cut in two and a
row goes up. Both outcomes are stated for a subtree of any height in the middle of its file, so the
cascade of splits is an induction on the height.
-/

namespace MyJQL.BTreeInsertion

open MyJQL.FileIo
open MyJQL.BufferPoolModel
open MyJQL.StateProgram
open MyJQL.PageStoreLogic
open MyJQL.ArrayLoops
open MyJQL.TableModel
open MyJQL.SearchTrees
open MyJQL.BTreeModel
open MyJQL.BTreeLayout
open MyJQL.BTreePages
open MyJQL.BTreeEdits
open MyJQL.BTreeSearch
open MyJQL.BTreeSubtrees

set_option autoImplicit false

variable {Key Store : Type} [LinearOrder Key]

section Rising

variable {rel : IndexStore → IndexPool → Prop} [GrowRules rel] {represents : Multiset (Entry Key) → Store → Prop}
  {records : Multiset (Entry Key)} {callbacks : Callbacks Store} {handler : Bool} {entry : Entry Key}
  {placed separators : Multiset (Entry Key)} {store : IndexStore}

/-- What stands in the tree for a row that went up: a copy of it, or the row itself. -/
def Copied (handler : Bool) (rid copy : RID) : Prop := handler = true ∨ copy = rid

/-- A row on its way up is one of the caller's, or a separator that has no place at the moment. -/
def Rising (records : Multiset (Entry Key)) (handler : Bool) (entry : Entry Key)
    (placed separators : Multiset (Entry Key)) : Prop :=
  (handler = true ∧ entry ∈ records ∧ separators = placed) ∨
    (handler = false ∧ separators = entry ::ₘ placed)

omit [LinearOrder Key] in
theorem rising_known (rising : Rising records handler entry placed separators) :
    entry ∈ records + separators := by
  rcases rising with ⟨_, recorded, _⟩ | ⟨_, rfl⟩
  · exact Multiset.mem_add.mpr (.inl recorded)
  · exact Multiset.mem_add.mpr (.inr (Multiset.mem_cons_self _ _))

omit [GrowRules rel] in
theorem ensures_promote (contract : Contract represents records callbacks)
    (rising : Rising records handler entry placed separators)
    {post : RID → IndexStore × Multiset (Entry Key) → Prop}
    (continues : ∀ copy, Copied handler entry.1 copy → post copy (store, (copy, entry.2) ::ₘ placed)) :
    Ensures (Stands rel represents) (store, separators) (promote callbacks handler entry.1) post := by
  have known := rising_known rising
  rcases rising with ⟨rfl, _, rfl⟩ | ⟨rfl, rfl⟩
  · rw [promote, if_pos rfl]
    apply ensures_store
    apply ensures_mono (contract.insertHandler known)
    rintro copy after rfl
    exact continues copy (.inl rfl)
  · rw [promote, if_neg (by simp)]
    exact ensures_pure _ (continues entry.1 (.inr rfl))

end Rising

/-- A subtree that was cut in two, the left half at its old address. The row goes between them. -/
structure Halved (degree : Nat) (root : Int) (free : List Int) (others orphans : Multiset Int)
    (parent : Int) (outer : Multiset (Entry Key)) (items : List (Item RID Key)) (top : Int)
    (store after : IndexStore) (handler : Bool) (entry : Entry Key) (placed : Multiset (Entry Key))
    {height : Nat} (left right : BTree Key height) : Prop where
  ledger : Ledger after.page after.length root free
    (left.addrs height + right.addrs height + others) orphans
  holdsLeft : HoldsTree after.page height parent left
  holdsRight : HoldsTree after.page height parent right
  addr : left.addr height = top
  sizedLeft : left.Sized degree (degree - 1) height
  sizedRight : right.Sized degree (degree - 1) height
  items : ∀ copy, Copied handler entry.1 copy →
    Reseparated items (left.items height ++ .separator (copy, entry.2) :: right.items height)
  placed : placed = outer + separatorsOf (left.items height) + separatorsOf (right.items height)
  kept : Kept others store after

section Insertion

variable {rel : IndexStore → IndexPool → Prop} [GrowRules rel] {represents : Multiset (Entry Key) → Store → Prop}
  {records : Multiset (Entry Key)} {callbacks : Callbacks Store} {degree least : Nat} {entry : Entry Key}
  {outer separators : Multiset (Entry Key)} {store : IndexStore} {root parent : Int} {free : List Int}
  {others orphans : Multiset Int} {frame : Frame} {post : Unit → IndexStore × Multiset (Entry Key) → Prop}

theorem insert_row_between {lefts rights : List (Entry Key)} (below : ∀ other ∈ lefts, other.2 < entry.2)
    (above : ∀ other ∈ rights, entry.2 < other.2) :
    SearchTrees.insertRow entry ((lefts ++ rights).map Item.row) =
      (lefts ++ entry :: rights).map Item.row := by
  rw [List.map_append, insert_row_front, List.map_append, List.map_cons]
  · congr 1
    cases rights with
    | nil => rfl
    | cons first rest =>
        have later := above first List.mem_cons_self
        rw [List.map_cons, SearchTrees.insertRow, Item.key_row, if_neg (not_le_of_gt later)]
  · intro item member
    obtain ⟨other, inside, rfl⟩ := List.mem_map.mp member
    exact below other inside

omit [LinearOrder Key] in
/-- A copy of the first row of the right half goes between the halves. -/
theorem halves_separated {rows : List (Entry Key)} {count : Nat} (positive : 0 < count)
    {raised : Entry Key} {rest : List (Entry Key)} (cut : rows.drop count = raised :: rest)
    (copy : RID) : Reseparated (rows.map Item.row)
      ((rows.take count).map Item.row ++ .separator (copy, raised.2) :: (rows.drop count).map Item.row) := by
  have bound : count < rows.length := by
    by_contra beyond
    rw [List.drop_of_length_le (by omega)] at cut
    cases cut
  have nonempty : rows.take count ≠ [] := by
    intro none
    have := congrArg List.length none
    simp only [List.length_take, List.length_nil] at this
    omega
  obtain ⟨front, last, shape⟩ := (List.eq_nil_or_concat' (rows.take count)).resolve_left nonempty
  have whole : rows = front ++ last :: raised :: rest := by
    rw [← List.take_append_drop count rows, shape, cut]
    simp
  rw [shape, cut, whole]
  have step := SeparatorStep.add (front.map Item.row) last raised (copy, raised.2) (rest.map Item.row) rfl
  simp only [List.map_append, List.map_cons, List.map_nil, List.append_assoc, List.cons_append,
    List.nil_append] at step ⊢
  exact .single step

omit [LinearOrder Key] in
theorem leaf_halved (positive : 0 < degree) {leaf : Leaf Key} {rows rest : List (Entry Key)} {raised : Entry Key}
    {after : IndexStore} {fresh : Int} {free' : List Int} (size : rows.length = 2 * degree)
    (cut : rows.drop degree = raised :: rest)
    (ledger : Ledger after.page after.length root free' (fresh ::ₘ (Tree.addrs 0 leaf + others)) orphans)
    (holdsLeft : HoldsNode (after.page leaf.addr) true parent ((rows.take degree).map Prod.fst) [])
    (holdsRight : HoldsNode (after.page fresh) true parent ((rows.drop degree).map Prod.fst) [])
    (kept : Kept others store after) :
    @Halved Key degree root free' others orphans parent separators (rows.map Item.row) leaf.addr store after true
      raised separators 0 (⟨leaf.addr, rows.take degree⟩ : Leaf Key) (⟨fresh, rows.drop degree⟩ : Leaf Key) := by
  refine ⟨?_, ?_, ?_, rfl, ?_, ?_, ?_, ?_, kept⟩
  · have split : Tree.addrs 0 (⟨leaf.addr, rows.take degree⟩ : Leaf Key) +
        Tree.addrs 0 (⟨fresh, rows.drop degree⟩ : Leaf Key) + others = fresh ::ₘ (Tree.addrs 0 leaf + others) := by
      simp only [Tree.addrs_leaf, ← Multiset.singleton_add]
      abel
    rw [split]
    exact ledger
  · rw [holds_leaf]
    exact holdsLeft
  · rw [holds_leaf]
    exact holdsRight
  · rw [Tree.sized_leaf]
    simp only [List.length_take]
    omega
  · rw [Tree.sized_leaf]
    simp only [List.length_drop]
    omega
  · intro copy _
    exact halves_separated positive cut copy
  · rw [Tree.items_leaf, Tree.items_leaf, separators_of_map_row, separators_of_map_row]
    simp

theorem ensures_insert_at_leaf (positive : 0 < degree) {leaf : Leaf Key} {lefts rights : List (Entry Key)}
    {hit : Bool} (recorded : entry ∈ records)
    (planted : @Planted Key store root free others orphans parent 0 leaf)
    (sized : Tree.Sized degree least 0 leaf) (rows : leaf.rows = lefts ++ rights)
    (below : ∀ other ∈ lefts, other.2 < entry.2) (above : ∀ other ∈ rights, entry.2 < other.2)
    (known : ∀ row ∈ leaf.rows, row ∈ records) (held : Pins store [(leaf.addr, frame)])
    (done : ∀ (changed : BTree Key 0) rest after, Replanted degree least root rest others orphans parent
      separators ((lefts ++ entry :: rights).map Item.row) leaf.addr store after separators changed →
      Thrifty free store.length rest after.length → Pins after [] → post () (after, separators))
    (halved : ∀ (left right : BTree Key 0) raised rest after first second,
      Halved degree root rest others orphans parent separators
        ((lefts ++ entry :: rights).map Item.row) leaf.addr store after true raised separators left right →
      Thrifty free store.length rest after.length → raised ∈ records →
      Pins after [(right.addr 0, second), (left.addr 0, first)] →
      Ensures (Stands rel represents) (after, separators)
        (splitLoop degree callbacks ⟨first, left.addr 0⟩ ⟨second, right.addr 0⟩ raised.1 true) post) :
    Ensures (Stands rel represents) (store, separators)
      (insertAtLeaf degree callbacks entry.1 ⟨⟨frame, leaf.addr⟩, lefts.length, hit⟩) post := by
  have pin : store.pin leaf.addr = some frame := (held _ _).mpr (by simp)
  have holds := planted.holds
  rw [holds_leaf, rows, List.map_append] at holds
  have n := holds.n
  rw [← List.map_append, ← rows, List.length_map] at n
  have inUse : leaf.addr ∈ Tree.addrs 0 leaf + others := by simp
  rw [insertAtLeaf]
  refine ensures_bind (ensures_index (ensures_load pin ?_))
  rw [n]
  apply ensures_ite
  · intro full
    rw [rows, List.length_append] at full
    obtain ⟨raised, rest, cut⟩ : ∃ raised rest, (lefts ++ entry :: rights).drop degree = raised :: rest := by
      apply List.exists_cons_of_ne_nil
      intro none
      have := congrArg List.length none
      simp only [List.length_drop, List.length_append, List.length_cons, List.length_nil] at this
      omega
    refine ensures_bind (ensures_index (ensures_new_node (planted_accounted planted held)
      (show 1 + 1 < cachePage by decide) ?_))
    intro fresh second rest' after notUsed same accounted thrifty
    have freshPin : after.pin fresh = some second := (accounted.held _ _).mpr (by simp)
    have ownPin : after.pin leaf.addr = some frame := (accounted.held _ _).mpr (by simp)
    have different : leaf.addr ≠ fresh := fun own => notUsed (own ▸ inUse)
    have holdsLeft : HoldsNode (splitLeft degree (lefts.map Prod.fst).length entry.1 degree
        (store.page leaf.addr)) true parent _ [] := holds_split_left holds (by simpa using full) (Nat.le_refl _)
    have holdsRight : HoldsNode (splitRight degree (lefts.map Prod.fst).length entry.1
        (store.page leaf.addr) (after.page fresh)) true parent _ [] :=
      holds_split_right holds (by simpa using full) positive
    have names : lefts.map Prod.fst ++ entry.1 :: rights.map Prod.fst =
        (lefts ++ entry :: rights).map Prod.fst := by simp
    rw [names, ← List.map_take, List.length_map] at holdsLeft
    rw [names, ← List.map_drop, List.length_map] at holdsRight
    have first : (splitRight degree lefts.length entry.1 (store.page leaf.addr)
        (after.page fresh)).rowPtr 0 = raised.1 := by
      have reads := holdsRight.rows
      rw [cut] at reads
      exact reads 0 (by simp)
    refine ensures_bind (ensures_index (ensures_amend freshPin ?_))
    refine ensures_bind (ensures_index (ensures_amend ownPin ?_))
    refine ensures_bind (ensures_index (ensures_load freshPin ?_))
    simp only [PageStore.written_page, if_true, if_neg different.symm, first]
    have ownSame : after.page leaf.addr = store.page leaf.addr := same _ inUse
    refine halved ⟨leaf.addr, (lefts ++ entry :: rights).take degree⟩
      ⟨fresh, (lefts ++ entry :: rights).drop degree⟩ raised rest' _ frame second
      (leaf_halved positive ?_ cut ?_ ?_ ?_ ?_) thrifty ?_ ?_
    · simp only [List.length_append, List.length_cons]
      omega
    · apply ledger_frame accounted.ledger
      intro other notThere
      simp only [Multiset.mem_cons, Multiset.mem_add, Tree.addrs_leaf, Multiset.mem_singleton, not_or] at notThere
      simp [notThere.1, notThere.2.1]
    · simpa [ownSame, different] using holdsLeft
    · simpa [different.symm] using holdsRight
    · intro addr member
      have notOwn : addr ≠ leaf.addr := fun own => planted_outside planted member (by simp [own])
      have notFresh : addr ≠ fresh := fun own => notUsed (Multiset.mem_add.mpr (.inr (own ▸ member)))
      simp [notOwn, notFresh, same addr (Multiset.mem_add.mpr (.inr member))]
    · have member : raised ∈ lefts ++ entry :: rights := by
        apply List.mem_of_mem_drop (i := degree)
        rw [cut]
        exact List.mem_cons_self
      rw [List.mem_append, List.mem_cons] at member
      rcases member with left | rfl | right
      · exact known raised (by rw [rows]; exact List.mem_append_left _ left)
      · exact recorded
      · exact known raised (by rw [rows]; exact List.mem_append_right _ right)
    · exact accounted.held
  · intro room
    refine ensures_bind (ensures_index (ensures_amend pin ?_))
    refine ensures_index (ensures_unpin frame pin ?_)
    have edited : HoldsNode (BTreeModel.insertRow (lefts.map Prod.fst).length entry.1
        (store.page leaf.addr)) true parent _ [] := holds_insert_row holds
    rw [List.length_map] at edited
    refine done ⟨leaf.addr, lefts ++ entry :: rights⟩ free _ (leaf_replanted planted ?_ rfl ?_ ?_ rfl)
      (thrifty_same _ _) (pins_released held (by simp))
    · intro other different
      simp [different]
    · simpa using edited
    · rw [Tree.sized_leaf] at sized
      rw [rows] at sized room
      simp only [List.length_append, List.length_cons] at *
      omega

section Inner

variable {height : Nat} {node : Inner Key height} {before behind : List (BTree Key height)}
  {kid left right : BTree Key height} {lefts rights : List (Entry Key)} {raised : Entry Key}

theorem raised_between {items rest : List (Item RID Key)} (count : before.length = lefts.length)
    (counts : behind.length = rights.length)
    (sorted : Sorted (joinHead (before.map (Tree.items height)) lefts ++
      (items ++ .separator raised :: rest) ++ joinTail rights (behind.map (Tree.items height)))) :
    (∀ sep ∈ lefts, sep.2 < raised.2) ∧ ∀ sep ∈ rights, raised.2 < sep.2 := by
  obtain ⟨first, _, across⟩ := List.pairwise_append.mp sorted
  constructor
  · intro sep member
    have listed : Item.separator sep ∈ joinHead (before.map (Tree.items height)) lefts :=
      (join_head_sublist (by simpa using count)).subset (List.mem_map_of_mem member)
    exact (List.pairwise_append.mp first).2.2 _ listed (.separator raised) (by simp)
  · intro sep member
    have listed : Item.separator sep ∈ joinTail rights (behind.map (Tree.items height)) :=
      (join_tail_sublist (by simpa using counts.symm)).subset (List.mem_map_of_mem member)
    exact across (.separator raised) (by simp) _ listed

omit [LinearOrder Key] in
theorem separators_around_mem (count : before.length = lefts.length)
    (counts : behind.length = rights.length) {sep : Entry Key} (member : sep ∈ lefts ++ rights) :
    sep ∈ separatorsAround before behind lefts rights := by
  rw [separatorsAround, Multiset.mem_add, Multiset.mem_coe, Multiset.mem_coe, mem_separators_of,
    mem_separators_of]
  rcases List.mem_append.mp member with first | last
  · exact .inl ((join_head_sublist (by simpa using count)).subset (List.mem_map_of_mem first))
  · exact .inr ((join_tail_sublist (by simpa using counts.symm)).subset (List.mem_map_of_mem last))

variable {after : IndexStore} {handler : Bool} {items : List (Item RID Key)}
  {placed : Multiset (Entry Key)} {first second above : Frame}

omit [LinearOrder Key] in
theorem halved_addrs {degree : Nat}
    (halved : Halved degree root free (around node.addr before behind others) orphans node.addr outer items
      (kid.addr height) store after handler raised placed left right) :
    node.addr ≠ left.addr height ∧ node.addr ≠ right.addr height ∧ left.addr height ≠ right.addr height ∧
      (∀ addr ∈ left.addrs height + right.addrs height, addr ≠ node.addr) ∧
      (∀ sibling, sibling ∈ before ∨ sibling ∈ behind → ∀ addr ∈ sibling.addrs height, addr ≠ node.addr) ∧
      ∀ addr ∈ others, addr ≠ node.addr := by
  have nodup := ledger_used_nodup halved.ledger
  rw [Multiset.nodup_add, Multiset.nodup_add, around, Multiset.nodup_cons] at nodup
  obtain ⟨⟨_, _, halves⟩, ⟨fresh, _⟩, apart⟩ := nodup
  have notTop : ∀ addr ∈ left.addrs height + right.addrs height, addr ≠ node.addr := by
    rintro addr member rfl
    exact Multiset.disjoint_left.mp apart member (Multiset.mem_cons_self _ _)
  refine ⟨(notTop _ ?_).symm, (notTop _ ?_).symm, ?_, notTop, ?_, ?_⟩
  · exact Multiset.mem_add.mpr (.inl (Tree.addr_mem_addrs left))
  · exact Multiset.mem_add.mpr (.inr (Tree.addr_mem_addrs right))
  · intro same
    exact Multiset.disjoint_left.mp halves (Tree.addr_mem_addrs left) (same ▸ Tree.addr_mem_addrs right)
  · rintro sibling member addr inside rfl
    apply fresh
    rcases member with first | last
    · simp [mem_kid_addrs first inside]
    · simp [mem_kid_addrs last inside]
  · rintro addr member rfl
    exact fresh (by simp [member])

omit [LinearOrder Key] in
theorem halved_page {degree : Nat} {rest : List Int}
    (planted : @Planted Key store root free others orphans parent (height + 1) node)
    (kids : node.kids = before ++ kid :: behind) (seps : node.seps = lefts ++ rights)
    (halved : Halved degree root rest (around node.addr before behind others) orphans node.addr outer items
      (kid.addr height) store after handler raised placed left right) :
    HoldsNode (after.page node.addr) false parent (lefts.map Prod.fst ++ rights.map Prod.fst)
      ((before.map (Tree.addr height) ++ [left.addr height]) ++ behind.map (Tree.addr height)) := by
  have own := planted.holds.1
  rw [(around_kept halved.kept).1]
  rw [kids, seps] at own
  simpa [halved.addr] using own

omit [LinearOrder Key] in
theorem halved_kid {degree : Nat} {rest : List Int} {tree : BTree Key height}
    (planted : @Planted Key store root free others orphans parent (height + 1) node)
    (sized : Tree.Sized degree least (height + 1) node) (kids : node.kids = before ++ kid :: behind)
    (halved : Halved degree root rest (around node.addr before behind others) orphans node.addr outer items
      (kid.addr height) store after handler raised placed left right)
    (member : tree ∈ before ++ left :: right :: behind) :
    HoldsTree after.page height node.addr tree ∧ tree.Sized degree (degree - 1) height := by
  have each := planted.holds.2
  rw [kids] at each
  have fits := sized.2
  rw [kids] at fits
  simp only [List.mem_append, List.mem_cons] at member
  rcases member with inBefore | rfl | rfl | inBehind
  · exact ⟨sibling_kept halved.kept (.inl inBefore) (each tree (by simp [inBefore])), fits tree (by simp [inBefore])⟩
  · exact ⟨halved.holdsLeft, halved.sizedLeft⟩
  · exact ⟨halved.holdsRight, halved.sizedRight⟩
  · exact ⟨sibling_kept halved.kept (.inr inBehind) (each tree (by simp [inBehind])), fits tree (by simp [inBehind])⟩

omit [LinearOrder Key] in
theorem pair_items {sep : Entry Key} (count : before.length = lefts.length) :
    join ((before ++ left :: right :: behind).map (Tree.items height)) (lefts ++ sep :: rights) =
      joinHead (before.map (Tree.items height)) lefts ++
        (left.items height ++ .separator sep :: right.items height) ++
        joinTail rights (behind.map (Tree.items height)) := by
  rw [List.map_append, List.map_cons, List.map_cons]
  exact join_pair (by simpa using count)

/-- The children of a node that was cut are shared out between its halves. -/
structure Shared (page final : IndexStore) (front back : List (BTree Key height)) (top fresh : Int) : Prop where
  topPage : ∃ child, final.page top = setChildren child (page.page top) ∧ Reads child (front.map (Tree.addr height))
  freshPage : ∃ child, final.page fresh = setChildren child (page.page fresh) ∧
    Reads child (back.map (Tree.addr height))
  holdsFront : ∀ kid ∈ front, HoldsTree final.page height top kid
  holdsBack : ∀ kid ∈ back, HoldsTree final.page height fresh kid
  elsewhere : ∀ addr, addr ∉ ((front ++ back).map (Tree.addrs height)).sum → addr ≠ top → addr ≠ fresh →
    final.page addr = page.page addr
  length : final.length = page.length

/-- The children of a node that hang below it, apart from it and from its new neighbour. -/
structure Shareable (page : IndexStore) (kids : List (BTree Key height)) (top fresh : Int) : Prop where
  nodup : (kids.map (Tree.addrs height)).sum.Nodup
  notTop : top ∉ (kids.map (Tree.addrs height)).sum
  notFresh : fresh ∉ (kids.map (Tree.addrs height)).sum
  different : top ≠ fresh
  inFile : ∀ addr ∈ kids.map (Tree.addr height), 0 ≤ addr ∧ addr % pageSize = 0 ∧ addr < page.length
  holds : ∀ kid ∈ kids, HoldsTree page.page height top kid

omit [LinearOrder Key] in
/-- The pages once the first children are adopted by one half and the others by the other. -/
theorem shared_of_adopted {page middle final : IndexStore} {front back : List (BTree Key height)} {top fresh : Int}
    (shareable : Shareable page (front ++ back) top fresh)
    (otherPages : ∀ other, other ≠ top →
      middle.page other = reparented top (front.map (Tree.addr height)) page.page other)
    (lastPages : ∀ other, other ≠ fresh →
      final.page other = reparented fresh (back.map (Tree.addr height)) middle.page other)
    (topAdopted : ∃ child, middle.page top = setChildren child (page.page top) ∧
      Reads child (front.map (Tree.addr height)))
    (freshAdopted : ∃ child, final.page fresh = setChildren child (middle.page fresh) ∧
      Reads child (back.map (Tree.addr height)))
    (length : final.length = page.length) : Shared page final front back top fresh := by
  obtain ⟨nodup, notTop, notFresh, different, _, holds⟩ := shareable
  have tops := tops_nodup nodup
  have inside : ∀ {addr}, addr ∈ (front ++ back).map (Tree.addr height) →
      addr ∈ ((front ++ back).map (Tree.addrs height)).sum := tops_mem
  rw [List.map_append] at tops
  have notFront : ∀ {addr}, addr ∈ back.map (Tree.addr height) → addr ∉ front.map (Tree.addr height) :=
    fun inBack inFront => (List.nodup_append.mp tops).2.2 _ inFront _ inBack rfl
  have isInside : ∀ {addr}, addr ∈ front.map (Tree.addr height) ∨ addr ∈ back.map (Tree.addr height) →
      addr ≠ top ∧ addr ≠ fresh := by
    intro addr member
    have listed : addr ∈ ((front ++ back).map (Tree.addrs height)).sum :=
      inside (by rwa [List.map_append, List.mem_append])
    exact ⟨fun same => notTop (same ▸ listed), fun same => notFresh (same ▸ listed)⟩
  have same : ∀ addr, addr ∉ (front ++ back).map (Tree.addr height) → addr ≠ top → addr ≠ fresh →
      final.page addr = page.page addr := by
    intro addr outside notTop notFresh
    rw [List.map_append, List.mem_append, not_or] at outside
    rw [lastPages addr notFresh, reparented, if_neg outside.2, otherPages addr notTop, reparented,
      if_neg outside.1]
  have within : ∀ addr ∈ ((front ++ back).map (Tree.addrs height)).sum,
      addr ∉ (front ++ back).map (Tree.addr height) → final.page addr = page.page addr := by
    intro addr listed outside
    apply same addr outside
    · rintro rfl
      exact notTop listed
    · rintro rfl
      exact notFresh listed
  refine ⟨?_, ?_, ?_, ?_, ?_, length⟩
  · obtain ⟨child, topPage, reads⟩ := topAdopted
    refine ⟨child, ?_, reads⟩
    rw [lastPages top different, reparented, if_neg, topPage]
    exact fun member => (isInside (.inr member)).1 rfl
  · obtain ⟨child, freshPage, reads⟩ := freshAdopted
    refine ⟨child, ?_, reads⟩
    rw [freshPage, otherPages fresh different.symm, reparented, if_neg]
    exact fun member => (isInside (.inl member)).2 rfl
  · intro kid member
    have top := List.mem_map_of_mem (f := Tree.addr height) member
    have placed := isInside (.inl top)
    apply holds_hung nodup (List.mem_append_left _ member) (holds kid (List.mem_append_left _ member))
    · rw [lastPages _ placed.2, reparented, if_neg fun inBack => notFront inBack top,
        otherPages _ placed.1, reparented, if_pos top]
    · exact within
  · intro kid member
    have top := List.mem_map_of_mem (f := Tree.addr height) member
    have placed := isInside (.inr top)
    apply holds_hung nodup (List.mem_append_right _ member) (holds kid (List.mem_append_right _ member))
    · rw [lastPages _ placed.2, reparented, if_pos top, otherPages _ placed.1, reparented,
        if_neg (notFront top)]
    · exact within
  · intro addr outside
    exact same addr fun member => outside (inside member)

omit [LinearOrder Key] in
theorem ensures_share_children {Value : Type} {page : IndexStore} {front back : List (BTree Key height)}
    {top fresh : Int} {frontKids backKids : Nat} {ch : Nat → Int} {next : Program (Index Store) Value}
    {result : Value → IndexStore × Multiset (Entry Key) → Prop}
    (shareable : Shareable page (front ++ back) top fresh) (reads : Reads ch ((front ++ back).map (Tree.addr height)))
    (frontCount : front.length = frontKids) (backCount : back.length = backKids)
    (held : Pins page [(fresh, second), (top, above)])
    (continues : ∀ final : IndexStore, Shared page final front back top fresh →
      Pins final [(fresh, second), (top, above)] → Ensures (Stands rel represents) (final, separators) next result) :
    Ensures (Stands rel represents) (page, separators) (do
      onIndex (adopt ⟨above, top⟩ ch frontKids 0)
      onIndex (adopt ⟨second, fresh⟩ (fun j => ch (j + frontKids)) backKids 0)
      next) result := by
  subst frontCount backCount
  have tops := tops_nodup shareable.nodup
  have inFile := shareable.inFile
  have unpinned : ∀ addr ∈ (front ++ back).map (Tree.addr height),
      addr ∉ [(fresh, second), (top, above)].map Prod.fst := by
    intro addr member pinned
    have listed : addr ∈ ((front ++ back).map (Tree.addrs height)).sum := tops_mem member
    simp only [List.map_cons, List.map_nil, List.mem_cons, List.not_mem_nil, or_false] at pinned
    rcases pinned with rfl | rfl
    · exact shareable.notFresh listed
    · exact shareable.notTop listed
  rw [List.map_append] at tops inFile reads unpinned
  obtain ⟨frontNodup, backNodup, _⟩ := List.nodup_append.mp tops
  apply ensures_bind
  apply ensures_index
  have frontLength : front.length = (front.map (Tree.addr height)).length := by simp
  have backLength : back.length = (back.map (Tree.addr height)).length := by simp
  rw [frontLength]
  apply ensures_adopt
  · intro index bound
    rw [Nat.zero_add]
    exact reads_front reads index bound
  · exact fun addr member => inFile addr (List.mem_append_left _ member)
  · exact frontNodup
  · exact held
  · simp
  · exact fun addr member => unpinned addr (List.mem_append_left _ member)
  · show 2 < cachePage
    decide
  rintro middle otherPages ⟨topChild, topPage, _, topReads⟩ length heldMiddle
  apply ensures_bind
  apply ensures_index
  rw [← frontLength, backLength]
  apply ensures_adopt
  · intro index bound
    rw [Nat.zero_add, Nat.add_comm]
    have entry := reads_back reads bound
    rwa [← frontLength] at entry
  · intro addr member
    rw [length]
    exact inFile addr (List.mem_append_right _ member)
  · exact backNodup
  · exact heldMiddle
  · simp
  · exact fun addr member => unpinned addr (List.mem_append_right _ member)
  · show 2 < cachePage
    decide
  rintro final lastPages ⟨freshChild, freshPage, _, freshReads⟩ finalLength heldFinal
  have topReads : Reads topChild (front.map (Tree.addr height)) := by
    intro index bound
    have entry := topReads index bound
    rwa [Nat.zero_add] at entry
  have freshReads : Reads freshChild (back.map (Tree.addr height)) := by
    intro index bound
    have entry := freshReads index bound
    rwa [Nat.zero_add] at entry
  exact continues final (shared_of_adopted shareable otherPages lastPages
    ⟨topChild, topPage, topReads⟩ ⟨freshChild, freshPage, freshReads⟩ (finalLength.trans length)) heldFinal

omit [LinearOrder Key] in
theorem ensures_take_row {copy : RID}
    (planted : @Planted Key store root free others orphans parent (height + 1) node)
    (sized : Tree.Sized degree least (height + 1) node) (room : node.seps.length < 2 * degree - 1)
    (kids : node.kids = before ++ kid :: behind) (seps : node.seps = lefts ++ rights)
    (count : before.length = lefts.length) {rest : List Int}
    (halved : Halved degree root rest (around node.addr before behind others) orphans node.addr
      (outer + separatorsAround before behind lefts rights) items (kid.addr height) store after handler raised
      placed left right)
    (copied : Copied handler raised.1 copy)
    (held : Pins after [(node.addr, above), (right.addr height, second), (left.addr height, first)])
    (done : ∀ (changed : BTree Key (height + 1)) final, Replanted degree least root rest others orphans parent
      outer (joinHead (before.map (Tree.items height)) lefts ++ items ++
        joinTail rights (behind.map (Tree.items height))) node.addr store final
      ((copy, raised.2) ::ₘ placed) changed → final.length = after.length → Pins final [] →
      post () (final, (copy, raised.2) ::ₘ placed)) :
    Ensures (Stands rel represents) (after, (copy, raised.2) ::ₘ placed) (do
      onIndex (amend ⟨above, node.addr⟩ fun page =>
        BTreeModel.insertRow lefts.length copy (insertChild (lefts.length + 1) (right.addr height) page))
      onIndex (unpin (left.addr height))
      onIndex (unpin (right.addr height))
      onIndex (unpin node.addr)) post := by
  obtain ⟨notLeft, notRight, halvesApart, inHalves, inSiblings, inOthers⟩ := halved_addrs halved
  obtain ⟨topKept, othersKept⟩ := around_kept halved.kept
  have edited : HoldsNode (BTreeModel.insertRow lefts.length copy
      (insertChild (lefts.length + 1) (right.addr height) (after.page node.addr))) false parent
      ((lefts ++ (copy, raised.2) :: rights).map Prod.fst)
      ((before ++ left :: right :: behind).map (Tree.addr height)) := by
    have arity := node.arity
    rw [kids, seps] at arity
    simp only [List.length_append, List.length_cons] at arity
    have split := halved_page planted kids seps halved
    have grown : HoldsNode (insertChild (before.map (Tree.addr height) ++ [left.addr height]).length
        (right.addr height) (after.page node.addr)) false parent _ _ :=
      holds_insert_child split (by simp only [List.length_append, List.length_map, List.length_singleton]; omega)
    have both : HoldsNode (BTreeModel.insertRow (lefts.map Prod.fst).length copy (insertChild
        (before.map (Tree.addr height) ++ [left.addr height]).length (right.addr height)
        (after.page node.addr))) false parent _ _ := holds_insert_row grown
    simpa [count] using both
  have pin : after.pin node.addr = some above := (held _ _).mpr (by simp)
  refine ensures_bind (ensures_index (ensures_amend pin ?_))
  have heldWritten : ∀ page, Pins (after.written node.addr page)
      [(node.addr, above), (right.addr height, second), (left.addr height, first)] := fun _ => held
  have heldTwo : ∀ page, Pins ((after.written node.addr page).unpinned (left.addr height))
      [(node.addr, above), (right.addr height, second)] := fun page =>
    pins_released_last (heldWritten page) (by simp [notLeft.symm, halvesApart])
  have heldOne : ∀ page, Pins (((after.written node.addr page).unpinned (left.addr height)).unpinned
      (right.addr height)) [(node.addr, above)] := fun page =>
    pins_released_last (heldTwo page) (by simp [notRight.symm])
  refine ensures_bind (ensures_index (ensures_unpin first ((heldWritten _ _ _).mpr (by simp)) ?_))
  refine ensures_bind (ensures_index (ensures_unpin second ((heldTwo _ _ _).mpr (by simp)) ?_))
  refine ensures_index (ensures_unpin above ((heldOne _ _ _).mpr (by simp)) ?_)
  have arity : (before ++ left :: right :: behind).length = (lefts ++ (copy, raised.2) :: rights).length + 1 := by
    have arity := node.arity
    rw [kids, seps] at arity
    simp only [List.length_append, List.length_cons] at arity ⊢
    omega
  have shape : Tree.items (height + 1) (⟨node.addr, lefts ++ (copy, raised.2) :: rights,
      before ++ left :: right :: behind, arity⟩ : Inner Key height) =
      joinHead (before.map (Tree.items height)) lefts ++
        (left.items height ++ .separator (copy, raised.2) :: right.items height) ++
        joinTail rights (behind.map (Tree.items height)) := by
    rw [Tree.items_inner]
    exact pair_items count
  refine done ⟨node.addr, lefts ++ (copy, raised.2) :: rights, before ++ left :: right :: behind, arity⟩ _ ?_ rfl
    (pins_released (heldOne _) (by simp))
  have framed : ∀ (tree : BTree Key height) page, (∀ addr ∈ tree.addrs height, addr ≠ node.addr) →
      HoldsTree after.page height node.addr tree →
      HoldsTree (after.written node.addr page).page height node.addr tree := by
    intro tree page apart holds
    refine holds_tree_frame (fun addr inside => ?_) holds
    simp [apart addr inside]
  refine ⟨⟨?_, ?_, ?_⟩, rfl, ⟨?_, ?_⟩, ?_, ?_, ?_⟩
  · rw [Tree.addrs_inner, addrs_around_pair]
    apply ledger_frame halved.ledger
    intro other notUsed
    have different : other ≠ node.addr := by
      rintro rfl
      exact notUsed (by simp [around])
    simp [different]
  · simpa using edited
  · intro tree member
    have holds := (halved_kid planted sized kids halved member).1
    simp only [List.mem_append, List.mem_cons] at member
    rcases member with inBefore | rfl | rfl | inBehind
    · exact framed tree _ (inSiblings tree (.inl inBefore)) holds
    · exact framed tree _ (fun addr inside => inHalves addr (Multiset.mem_add.mpr (.inl inside))) holds
    · exact framed tree _ (fun addr inside => inHalves addr (Multiset.mem_add.mpr (.inr inside))) holds
    · exact framed tree _ (inSiblings tree (.inr inBehind)) holds
  · have least := sized.1
    rw [seps] at least room
    simp only [List.length_append, List.length_cons] at least room ⊢
    omega
  · intro tree member
    exact (halved_kid planted sized kids halved member).2
  · rw [shape]
    exact reseparated_inside (halved.items copy copied)
  · rw [shape, halved.placed, separatorsAround]
    simp only [separators_of_append, separators_of_separator, ← Multiset.coe_add, ← Multiset.cons_coe,
      ← Multiset.singleton_add]
    abel
  · intro addr member
    simp [inOthers addr member, othersKept addr member]

/-- A node with one row and one child more than it has room for, in two halves and the row between them. -/
structure Cut (degree : Nat) (rows : List (Entry Key)) (trees : List (BTree Key height))
    (leftRows : List (Entry Key)) (up : Entry Key) (rightRows : List (Entry Key))
    (leftKids rightKids : List (BTree Key height)) : Prop where
  rows : rows = leftRows ++ up :: rightRows
  trees : trees = leftKids ++ rightKids
  leftCount : leftRows.length + 1 = degree
  rightCount : rightRows.length = degree
  leftArity : leftKids.length = leftRows.length + 1
  rightArity : rightKids.length = rightRows.length + 1

omit [LinearOrder Key] in
theorem cut_lists {degree : Nat} (positive : 0 < degree) {rows : List (Entry Key)}
    {trees : List (BTree Key height)} (full : rows.length = 2 * degree) (arity : trees.length = rows.length + 1) :
    ∃ leftRows up rightRows leftKids rightKids, Cut degree rows trees leftRows up rightRows leftKids rightKids := by
  have bound : degree - 1 < rows.length := by omega
  have next : degree - 1 + 1 = degree := by omega
  have cut := List.drop_eq_getElem_cons bound
  rw [next] at cut
  refine ⟨rows.take (degree - 1), rows[degree - 1], rows.drop degree, trees.take degree, trees.drop degree,
    ?_, (List.take_append_drop _ _).symm, ?_, ?_, ?_, ?_⟩
  · rw [← cut, List.take_append_drop]
  · rw [List.length_take]
    omega
  · rw [List.length_drop]
    omega
  · rw [List.length_take, List.length_take]
    omega
  · rw [List.length_drop, List.length_drop]
    omega

section Halves

variable {degree : Nat} {copy : RID} {trees leftKids rightKids : List (BTree Key height)}
  {leftRows rightRows : List (Entry Key)} {up : Entry Key}

omit [LinearOrder Key] in
/-- The pages of both halves, and the row that the left one has behind its rows. -/
theorem cut_pages {page : BNode} {children : List Int} (other : BNode)
    (cut : Cut degree (lefts ++ (copy, raised.2) :: rights) trees leftRows up rightRows leftKids rightKids)
    (own : HoldsNode page false parent (lefts.map Prod.fst ++ rights.map Prod.fst) children)
    (full : lefts.length + rights.length = 2 * degree - 1) (positive : 0 < degree) :
    HoldsNode (splitLeft degree lefts.length copy (degree - 1) page) false parent (leftRows.map Prod.fst) children ∧
      HoldsNode (splitRight degree lefts.length copy page other) false parent (rightRows.map Prod.fst) [] ∧
      (splitLeft degree lefts.length copy (degree - 1) page).rowPtr (degree - 1) = up.1 := by
  have sizes : (lefts.map Prod.fst).length + (rights.map Prod.fst).length = 2 * degree - 1 := by simpa using full
  have names : lefts.map Prod.fst ++ copy :: rights.map Prod.fst =
      leftRows.map Prod.fst ++ up.1 :: rightRows.map Prod.fst := by
    have rows := congrArg (List.map Prod.fst) cut.rows
    simpa using rows
  have leftCount : degree - 1 = (leftRows.map Prod.fst).length := by
    rw [List.length_map, ← cut.leftCount, Nat.add_sub_cancel]
  have leftPage : HoldsNode (splitLeft degree (lefts.map Prod.fst).length copy (degree - 1) page) false parent _ _ :=
    holds_split_left own sizes (by omega)
  have rightPage : HoldsNode (splitRight degree (lefts.map Prod.fst).length copy page other) false parent _ [] :=
    holds_split_right own sizes positive
  have taken : (lefts.map Prod.fst ++ copy :: rights.map Prod.fst).take (degree - 1) = leftRows.map Prod.fst := by
    rw [names, List.take_left' leftCount.symm]
  have dropped : (lefts.map Prod.fst ++ copy :: rights.map Prod.fst).drop (degree - 1) =
      up.1 :: rightRows.map Prod.fst := by
    rw [names, List.drop_left' leftCount.symm]
  have droppedAll : (lefts.map Prod.fst ++ copy :: rights.map Prod.fst).drop degree = rightRows.map Prod.fst := by
    rw [← Nat.sub_add_cancel positive, ← List.drop_drop, dropped]
    rfl
  have upRow := split_left_cut own sizes positive (degree - 1) dropped
  rw [taken] at leftPage
  rw [droppedAll] at rightPage
  rw [List.length_map] at leftPage rightPage upRow
  exact ⟨leftPage, rightPage, upRow⟩

omit [LinearOrder Key] in
/-- What the parent and both halves of the child hold is what the halves of the parent hold, and the row
between them. -/
theorem cut_items {sep : Entry Key} (count : before.length = lefts.length)
    (cut : Cut degree (lefts ++ sep :: rights) (before ++ left :: right :: behind) leftRows up rightRows leftKids
      rightKids) :
    joinHead (before.map (Tree.items height)) lefts ++
        (left.items height ++ .separator sep :: right.items height) ++
        joinTail rights (behind.map (Tree.items height)) =
      join (leftKids.map (Tree.items height)) leftRows ++ .separator up ::
        join (rightKids.map (Tree.items height)) rightRows := by
  rw [← pair_items count, cut.rows, cut.trees, List.map_append]
  apply join_cut
  · rw [List.length_map, cut.leftArity]
  · intro none
    have length := congrArg List.length none
    rw [List.length_map, cut.rightArity, List.length_nil] at length
    omega

omit [LinearOrder Key] in
theorem cut_separators {sep : Entry Key} (count : before.length = lefts.length)
    (cut : Cut degree (lefts ++ sep :: rights) (before ++ left :: right :: behind) leftRows up rightRows leftKids
      rightKids) :
    sep ::ₘ (outer + separatorsAround before behind lefts rights + separatorsOf (left.items height) +
        separatorsOf (right.items height)) =
      up ::ₘ (outer + (separatorsOf (join (leftKids.map (Tree.items height)) leftRows) : Multiset (Entry Key)) +
        (separatorsOf (join (rightKids.map (Tree.items height)) rightRows) : Multiset (Entry Key))) := by
  have total := congrArg (fun items => (separatorsOf items : Multiset (Entry Key))) (cut_items count cut)
  simp only [separators_of_append, separators_of_separator, ← Multiset.coe_add, ← Multiset.cons_coe,
    ← Multiset.singleton_add] at total
  rw [separatorsAround, ← Multiset.singleton_add, ← Multiset.singleton_add]
  generalize (separatorsOf (joinHead (before.map (Tree.items height)) lefts) : Multiset (Entry Key)) =
    front at total ⊢
  generalize (separatorsOf (joinTail rights (behind.map (Tree.items height))) : Multiset (Entry Key)) =
    back at total ⊢
  calc _ = outer + (front + ((separatorsOf (left.items height) : Multiset (Entry Key)) +
        ({sep} + separatorsOf (right.items height))) + back) := by abel
    _ = _ := by
      rw [total]
      abel

omit [LinearOrder Key] in
theorem cut_halved {fresh : Int} {page mid final : IndexStore} {leftRefs rightRefs : List Int}
    (count : before.length = lefts.length)
    (cut : Cut degree (lefts ++ (copy, raised.2) :: rights) (before ++ left :: right :: behind) leftRows up rightRows
      leftKids rightKids)
    (shared : Shared page final leftKids rightKids node.addr fresh)
    (ledger : Ledger mid.page mid.length root free
      (fresh ::ₘ (left.addrs height + right.addrs height + around node.addr before behind others)) orphans)
    (same : ∀ addr ∈ others, mid.page addr = store.page addr)
    (sized : ∀ tree ∈ before ++ left :: right :: behind, tree.Sized degree (degree - 1) height)
    (reseparated : Reseparated items (left.items height ++ .separator (copy, raised.2) :: right.items height))
    (leftPage : HoldsNode (page.page node.addr) false parent (leftRows.map Prod.fst) leftRefs)
    (rightPage : HoldsNode (page.page fresh) false parent (rightRows.map Prod.fst) rightRefs)
    (pages : ∀ addr, addr ≠ node.addr → addr ≠ fresh → page.page addr = mid.page addr)
    (length : page.length = mid.length) :
    Halved degree root free others orphans parent outer
      (joinHead (before.map (Tree.items height)) lefts ++ items ++ joinTail rights (behind.map (Tree.items height)))
      node.addr store final false up
      (outer + (separatorsOf (join (leftKids.map (Tree.items height)) leftRows) : Multiset (Entry Key)) +
        (separatorsOf (join (rightKids.map (Tree.items height)) rightRows) : Multiset (Entry Key)))
      (show BTree Key (height + 1) from (⟨node.addr, leftRows, leftKids, cut.leftArity⟩ : Inner Key height))
      (show BTree Key (height + 1) from (⟨fresh, rightRows, rightKids, cut.rightArity⟩ : Inner Key height)) := by
  have usedNodup := ledger_used_nodup ledger
  rw [← addrs_around_pair, Multiset.nodup_cons, Multiset.cons_add, Multiset.nodup_cons, Multiset.nodup_add,
    cut.trees] at usedNodup
  obtain ⟨freshOutside, topOutside, _, _, treesApart⟩ := usedNodup
  have elsewhere : ∀ addr, addr ∉ ((leftKids ++ rightKids).map (Tree.addrs height)).sum → addr ≠ node.addr →
      addr ≠ fresh → final.page addr = mid.page addr := fun addr outside notTop notFresh =>
    (shared.elsewhere addr outside notTop notFresh).trans (pages addr notTop notFresh)
  have leftCount := cut.leftCount
  have rightCount := cut.rightCount
  refine ⟨?_, ⟨?_, shared.holdsFront⟩, ⟨?_, shared.holdsBack⟩, rfl, ⟨?_, ?_⟩, ⟨?_, ?_⟩, ?_, rfl, ?_⟩
  · have used : Tree.addrs (height + 1) (⟨node.addr, leftRows, leftKids, cut.leftArity⟩ : Inner Key height) +
        Tree.addrs (height + 1) (⟨fresh, rightRows, rightKids, cut.rightArity⟩ : Inner Key height) + others =
          fresh ::ₘ (left.addrs height + right.addrs height + around node.addr before behind others) := by
      simp only [Tree.addrs_inner]
      rw [← addrs_around_pair, cut.trees, List.map_append, List.sum_append]
      simp only [← Multiset.singleton_add]
      abel
    rw [used, shared.length, length]
    apply ledger_frame ledger
    intro addr outside
    rw [← addrs_around_pair, cut.trees, Multiset.cons_add] at outside
    simp only [Multiset.mem_cons, Multiset.mem_add, not_or] at outside
    exact elsewhere addr outside.2.2.1 outside.2.1 outside.1
  · obtain ⟨child, topPage, reads⟩ := shared.topPage
    rw [topPage]
    exact ⟨leftPage.n, leftPage.leaf, leftPage.parent, leftPage.rows, reads⟩
  · obtain ⟨child, freshPage, reads⟩ := shared.freshPage
    rw [freshPage]
    exact ⟨rightPage.n, rightPage.leaf, rightPage.parent, rightPage.rows, reads⟩
  · dsimp only
    omega
  · intro tree member
    exact sized tree (cut.trees ▸ List.mem_append_left _ member)
  · dsimp only
    omega
  · intro tree member
    exact sized tree (cut.trees ▸ List.mem_append_right _ member)
  · rintro other (impossible | rfl)
    · cases impossible
    · exact cut_items count cut ▸ reseparated_inside reseparated
  · intro addr member
    have notTree : addr ∉ ((leftKids ++ rightKids).map (Tree.addrs height)).sum := fun inside =>
      Multiset.disjoint_left.mp treesApart inside member
    have notTop : addr ≠ node.addr := fun own => topOutside (own ▸ Multiset.mem_add.mpr (.inr member))
    have notFresh : addr ≠ fresh := by
      rintro rfl
      exact freshOutside (Multiset.mem_cons_of_mem (Multiset.mem_add.mpr (.inr member)))
    rw [elsewhere addr notTree notTop notFresh, same addr member]

omit [LinearOrder Key] in
theorem overfull_cut (positive : 0 < degree) (kids : node.kids = before ++ kid :: behind)
    (seps : node.seps = lefts ++ rights) (full : lefts.length + rights.length = 2 * degree - 1) :
    ∃ leftRows up rightRows leftKids rightKids, Cut degree (lefts ++ (copy, raised.2) :: rights)
      (before ++ left :: right :: behind) leftRows up rightRows leftKids rightKids := by
  have arity := node.arity
  rw [kids, seps] at arity
  apply cut_lists positive
  all_goals
    simp only [List.length_append, List.length_cons] at arity ⊢
    omega

omit [LinearOrder Key] in
theorem overfull_children {page : BNode} (kids : node.kids = before ++ kid :: behind)
    (seps : node.seps = lefts ++ rights) (full : lefts.length + rights.length = 2 * degree - 1) (positive : 0 < degree)
    (count : before.length = lefts.length)
    (own : HoldsNode page false parent (lefts.map Prod.fst ++ rights.map Prod.fst)
      ((before.map (Tree.addr height) ++ [left.addr height]) ++ behind.map (Tree.addr height))) :
    Reads (childrenWith degree (lefts.length + 1) (right.addr height) page)
      ((before ++ left :: right :: behind).map (Tree.addr height)) := by
  have arity := node.arity
  rw [kids, seps] at arity
  simp only [List.length_append, List.length_cons] at arity
  have woven : Reads (childrenWith degree (before.map (Tree.addr height) ++ [left.addr height]).length
      (right.addr height) page) _ :=
    reads_children_with own (by simpa using full) positive
      (by simp only [List.length_append, List.length_map, List.length_singleton]; omega)
  simpa [count] using woven

/-- Both halves of a node are written, and no other page. Its children still name it as their parent. -/
structure Parted (page parted : IndexStore) (top fresh : Int) (front back : BNode) : Prop where
  topPage : parted.page top = front
  freshPage : parted.page fresh = back
  elsewhere : ∀ addr, addr ≠ top → addr ≠ fresh → parted.page addr = page.page addr
  length : parted.length = page.length

omit [LinearOrder Key] in
theorem ensures_part {Value : Type} {page : IndexStore} {top fresh low high : Int} {third : Frame}
    {keep spread : BNode → BNode} {next : BNode → Program (Index Store) Value}
    {result : Value → IndexStore × Multiset (Entry Key) → Prop} (apart : [fresh, top, high, low].Nodup)
    (held : Pins page [(fresh, third), (top, above), (high, second), (low, first)])
    (continues : ∀ parted, Parted page parted top fresh (keep (page.page top)) (spread (page.page fresh)) →
      Pins parted [(fresh, third), (top, above)] →
      Ensures (Stands rel represents) (parted, separators) (next (keep (page.page top))) result) :
    Ensures (Stands rel represents) (page, separators) (do
      onIndex (amend ⟨third, fresh⟩ spread)
      onIndex (amend ⟨above, top⟩ keep)
      let half ← onIndex (load ⟨above, top⟩)
      onIndex (unpin low)
      onIndex (unpin high)
      next half) result := by
  simp only [List.nodup_cons, List.mem_cons, List.not_mem_nil, or_false, not_or, List.nodup_nil, and_true,
    not_false_eq_true] at apart
  obtain ⟨⟨freshTop, freshHigh, freshLow⟩, ⟨topHigh, topLow⟩, highLow⟩ := apart
  have freshPin : page.pin fresh = some third := (held _ _).mpr (by simp)
  have topPin : page.pin top = some above := (held _ _).mpr (by simp)
  refine ensures_bind (ensures_index (ensures_amend freshPin ?_))
  refine ensures_bind (ensures_index (ensures_amend topPin ?_))
  refine ensures_bind (ensures_index (ensures_load topPin ?_))
  simp only [PageStore.written_page, if_true, if_neg (Ne.symm freshTop)]
  generalize isWritten : (page.written fresh (spread (page.page fresh))).written top (keep (page.page top)) = written
  have heldFour : Pins written [(fresh, third), (top, above), (high, second), (low, first)] := by
    rw [← isWritten]
    exact held
  have heldThree : Pins (written.unpinned low) [(fresh, third), (top, above), (high, second)] :=
    pins_released_last heldFour (by simp [Ne.symm freshLow, Ne.symm topLow, Ne.symm highLow])
  have heldTwo : Pins ((written.unpinned low).unpinned high) [(fresh, third), (top, above)] :=
    pins_released_last heldThree (by simp [Ne.symm freshHigh, Ne.symm topHigh])
  refine ensures_bind (ensures_index (ensures_unpin first ((heldFour _ _).mpr (by simp)) ?_))
  refine ensures_bind (ensures_index (ensures_unpin second ((heldThree _ _).mpr (by simp)) ?_))
  refine continues _ ⟨?_, ?_, ?_, ?_⟩ heldTwo
  · simp [← isWritten]
  · simp [← isWritten, freshTop]
  · intro addr notTop notFresh
    simp [← isWritten, notTop, notFresh]
  · simp [← isWritten]

omit [LinearOrder Key] in
theorem parted_shareable {rest later : List Int} {fresh : Int} {mid parted : IndexStore} {front back : BNode}
    (planted : @Planted Key store root free others orphans parent (height + 1) node)
    (sized : Tree.Sized degree least (height + 1) node) (kids : node.kids = before ++ kid :: behind)
    (halved : Halved degree root rest (around node.addr before behind others) orphans node.addr
      (outer + separatorsAround before behind lefts rights) items (kid.addr height) store after handler raised
      placed left right)
    (ledger : Ledger mid.page mid.length root later
      (fresh ::ₘ (left.addrs height + right.addrs height + around node.addr before behind others)) orphans)
    (same : ∀ addr ∈ left.addrs height + right.addrs height + around node.addr before behind others,
      mid.page addr = after.page addr)
    (halves : Parted mid parted node.addr fresh front back) :
    Shareable parted (before ++ left :: right :: behind) node.addr fresh := by
  have inUse : ∀ addr, addr = node.addr ∨ addr ∈ ((before ++ left :: right :: behind).map (Tree.addrs height)).sum →
      addr ∈ left.addrs height + right.addrs height + around node.addr before behind others := by
    intro addr member
    rw [← addrs_around_pair, Multiset.cons_add, Multiset.mem_cons, Multiset.mem_add]
    exact member.imp_right .inl
  have usedNodup := ledger_used_nodup ledger
  have notUsed := (Multiset.nodup_cons.mp usedNodup).1
  rw [← addrs_around_pair, Multiset.nodup_cons, Multiset.cons_add, Multiset.nodup_cons,
    Multiset.nodup_add] at usedNodup
  obtain ⟨_, topOutside, treesNodup, _, _⟩ := usedNodup
  have freshNotTree : fresh ∉ ((before ++ left :: right :: behind).map (Tree.addrs height)).sum := fun member =>
    notUsed (inUse fresh (.inr member))
  have topNotTree : node.addr ∉ ((before ++ left :: right :: behind).map (Tree.addrs height)).sum := fun member =>
    topOutside (Multiset.mem_add.mpr (.inl member))
  refine ⟨treesNodup, topNotTree, freshNotTree, fun own => notUsed (own ▸ inUse _ (.inl rfl)), ?_, ?_⟩
  · intro addr member
    have used := ledger_used ledger (Multiset.mem_cons_of_mem (inUse addr (.inr (tops_mem member))))
    rw [halves.length]
    exact ⟨used.1, used.2.1, used.2.2.1⟩
  · intro tree member
    refine holds_tree_frame (fun addr inside => ?_) (halved_kid planted sized kids halved member).1
    have listed := mem_kid_addrs member inside
    rw [halves.elsewhere addr (fun own => topNotTree (own ▸ listed)) (fun own => freshNotTree (own ▸ listed))]
    exact same addr (inUse addr (.inr listed))

end Halves

omit [LinearOrder Key] in
theorem halved_accounted {rest : List Int}
    (halved : Halved degree root rest (around node.addr before behind others) orphans node.addr outer items
      (kid.addr height) store after handler raised placed left right)
    (held : Pins after [(node.addr, above), (right.addr height, second), (left.addr height, first)]) :
    Accounted after root rest (left.addrs height + right.addrs height + around node.addr before behind others) orphans
      [(node.addr, above), (right.addr height, second), (left.addr height, first)] := by
  refine ⟨halved.ledger, held, ?_⟩
  intro addr member
  simp only [List.map_cons, List.map_nil, List.mem_cons, List.not_mem_nil, or_false] at member
  rcases member with rfl | rfl | rfl
  · simp [around]
  · simp [Tree.addr_mem_addrs right]
  · simp [Tree.addr_mem_addrs left]

/-- A full parent is cut in two itself. -/
theorem ensures_cut_node (contract : Contract represents records callbacks) (positive : 0 < degree)
    (planted : @Planted Key store root free others orphans parent (height + 1) node)
    (sized : Tree.Sized degree least (height + 1) node) (full : node.seps.length = 2 * degree - 1)
    (kids : node.kids = before ++ kid :: behind) (seps : node.seps = lefts ++ rights)
    (count : before.length = lefts.length) {rest : List Int}
    (halved : Halved degree root rest (around node.addr before behind others) orphans node.addr
      (outer + separatorsAround before behind lefts rights) items (kid.addr height) store after handler raised
      placed left right)
    (rising : Rising records handler raised placed separators)
    (held : Pins after [(node.addr, above), (right.addr height, second), (left.addr height, first)])
    (halvedAbove : ∀ (left' right' : BTree Key (height + 1)) raised' placed' rest' final separators' first'
      second', Halved degree root rest' others orphans parent outer
        (joinHead (before.map (Tree.items height)) lefts ++ items ++
          joinTail rights (behind.map (Tree.items height))) node.addr store final false raised' placed'
        left' right' → Thrifty rest after.length rest' final.length → Rising records false raised' placed' separators' →
      Pins final [(right'.addr (height + 1), second'), (left'.addr (height + 1), first')] →
      Ensures (Stands rel represents) (final, separators') (splitLoop degree callbacks
        ⟨first', left'.addr (height + 1)⟩ ⟨second', right'.addr (height + 1)⟩ raised'.1 false) post) :
    Ensures (Stands rel represents) (after, separators) (do
      let tmp ← onIndex newNode
      let sep ← promote callbacks handler raised.1
      onIndex (amend tmp (splitRight degree lefts.length sep (after.page node.addr)))
      onIndex (amend ⟨above, node.addr⟩ (splitLeft degree lefts.length sep (degree - 1)))
      let page ← onIndex (load ⟨above, node.addr⟩)
      onIndex (unpin (left.addr height))
      onIndex (unpin (right.addr height))
      let ch := childrenWith degree (lefts.length + 1) (right.addr height) (after.page node.addr)
      onIndex (adopt ⟨above, node.addr⟩ ch degree 0)
      onIndex (adopt tmp (fun j => ch (j + degree)) (degree + 1) 0)
      splitLoop degree callbacks ⟨above, node.addr⟩ tmp (page.rowPtr (degree - 1)) false) post := by
  obtain ⟨notLeft, notRight, halvesApart, _, _, _⟩ := halved_addrs halved
  rw [seps, List.length_append] at full
  have ownPage := halved_page planted kids seps halved
  have reads := @overfull_children _ _ _ _ _ _ _ left right _ _ _ _ kids seps full positive count ownPage
  apply ensures_bind
  apply ensures_index
  apply ensures_new_node (halved_accounted halved held) (show 3 + 1 < cachePage by decide)
  intro fresh third rest' mid notUsed same accounted thrifty
  apply ensures_bind
  apply ensures_promote contract rising
  intro copy copied
  obtain ⟨leftRows, up, rightRows, leftKids, rightKids, cut⟩ := overfull_cut positive kids seps full
  obtain ⟨leftPage, rightPage, upRow⟩ := cut_pages (mid.page fresh) cut ownPage full positive
  have topSame : mid.page node.addr = after.page node.addr := same _ (by simp [around])
  have apart : [fresh, node.addr, right.addr height, left.addr height].Nodup := by
    have freshTop : fresh ≠ node.addr := fun own => notUsed (own ▸ by simp [around])
    have freshRight : fresh ≠ right.addr height := fun own => notUsed (own ▸ by simp [Tree.addr_mem_addrs right])
    have freshLeft : fresh ≠ left.addr height := fun own => notUsed (own ▸ by simp [Tree.addr_mem_addrs left])
    simp [freshTop, freshRight, freshLeft, notLeft, notRight, halvesApart.symm]
  apply ensures_part apart accounted.held
  intro parted halves heldTwo
  rw [topSame] at halves ⊢
  rw [upRow]
  have shareable := parted_shareable planted sized kids halved accounted.ledger same halves
  rw [cut.trees] at shareable reads
  apply ensures_share_children shareable reads (by rw [cut.leftArity, cut.leftCount])
    (by rw [cut.rightArity, cut.rightCount]) heldTwo
  intro final shared heldFinal
  have halvedNode : Halved degree root rest' others orphans parent outer _ node.addr store final false up _ _ _ :=
    cut_halved count cut shared accounted.ledger
      (fun addr member => (same addr (by simp [around, member])).trans ((around_kept halved.kept).2 addr member))
      (fun tree member => (halved_kid planted sized kids halved member).2) (halved.items copy copied)
      (halves.topPage ▸ leftPage) (halves.freshPage ▸ rightPage) halves.elsewhere halves.length
  have sameLength : final.length = mid.length := shared.length.trans halves.length
  refine halvedAbove _ _ up _ rest' final _ above third halvedNode (sameLength ▸ thrifty) (.inr ⟨rfl, ?_⟩) heldFinal
  rw [halved.placed]
  exact cut_separators count cut

omit [LinearOrder Key] in
theorem halved_of_same_pages {degree : Nat} {store' after' : IndexStore} {cut : Int}
    (halved : Halved degree root free others orphans parent outer items cut store after handler raised placed
      left right)
    (storePage : store'.page = store.page) (page : after'.page = after.page)
    (length : after'.length = after.length) :
    Halved degree root free others orphans parent outer items cut store' after' handler raised placed
      left right := by
  refine ⟨?_, ?_, ?_, halved.addr, halved.sizedLeft, halved.sizedRight, halved.items, halved.placed, ?_⟩
  · rw [page, length]
    exact halved.ledger
  · rw [page]
    exact halved.holdsLeft
  · rw [page]
    exact halved.holdsRight
  · intro addr member
    rw [page, storePage]
    exact halved.kept addr member

/-- One turn of the loop that takes rows up, at an inner node. -/
theorem ensures_split_loop (contract : Contract represents records callbacks) (positive : 0 < degree)
    (planted : @Planted Key store root free others orphans parent (height + 1) node)
    (sized : Tree.Sized degree least (height + 1) node)
    (kids : node.kids = before ++ kid :: behind) (seps : node.seps = lefts ++ rights)
    (count : before.length = lefts.length) (counts : behind.length = rights.length) {rest : List Int}
    (sorted : Sorted (joinHead (before.map (Tree.items height)) lefts ++ items ++
      joinTail rights (behind.map (Tree.items height))))
    (halved : Halved degree root rest (around node.addr before behind others) orphans node.addr
      (outer + separatorsAround before behind lefts rights) items (kid.addr height) store after handler raised
      placed left right)
    (rising : Rising records handler raised placed separators)
    (held : Pins after [(right.addr height, second), (left.addr height, first)])
    (done : ∀ (changed : BTree Key (height + 1)) rest' final separators', Replanted degree least root rest' others
      orphans parent outer (joinHead (before.map (Tree.items height)) lefts ++ items ++
        joinTail rights (behind.map (Tree.items height))) node.addr store final separators' changed →
      Thrifty rest after.length rest' final.length → Pins final [] → post () (final, separators'))
    (halvedAbove : ∀ (left' right' : BTree Key (height + 1)) raised' placed' rest' final separators' first'
      second', Halved degree root rest' others orphans parent outer
        (joinHead (before.map (Tree.items height)) lefts ++ items ++
          joinTail rights (behind.map (Tree.items height))) node.addr store final false raised' placed'
        left' right' → Thrifty rest after.length rest' final.length → Rising records false raised' placed' separators' →
      Pins final [(right'.addr (height + 1), second'), (left'.addr (height + 1), first')] →
      Ensures (Stands rel represents) (final, separators') (splitLoop degree callbacks
        ⟨first', left'.addr (height + 1)⟩ ⟨second', right'.addr (height + 1)⟩ raised'.1 false) post) :
    Ensures (Stands rel represents) (after, separators) (splitLoop degree callbacks ⟨first, left.addr height⟩
      ⟨second, right.addr height⟩ raised.1 handler) post := by
  obtain ⟨notLeft, notRight, _, _, _, _⟩ := halved_addrs halved
  have topInUse : node.addr ∈ left.addrs height + right.addrs height + around node.addr before behind others := by
    simp [around]
  obtain ⟨nonneg, aligned, inside, _, _⟩ := ledger_used halved.ledger topInUse
  have leftPin : after.pin (left.addr height) = some first := (held _ _).mpr (by simp)
  have holds : HoldsNode (after.page node.addr) false parent ((lefts ++ rights).map Prod.fst)
      (node.kids.map (Tree.addr height)) := by
    rw [(around_kept halved.kept).1, ← seps]
    exact planted.holds.1
  have n : (after.page node.addr).n = (lefts ++ rights).length := by rw [holds.n, List.length_map]
  have fits : (lefts ++ rights).length ≤ 2 * degree - 1 := by
    rw [← seps]
    exact sized.1.2
  rw [splitLoop, loop_eq, splitTurn]
  simp only [bind_assoc, bind_ite, pure_bind, afterTurn, bind_pure_unit]
  refine ensures_bind (ensures_index (ensures_load leftPin ?_))
  rw [holds_tree_parent halved.holdsLeft, if_pos nonneg]
  refine ensures_bind (ensures_index (ensures_pin ⟨nonneg, aligned, inside⟩ held ?_
    (show 2 < cachePage by decide) ?_))
  · simp [notLeft, notRight]
  intro above heldThree
  have parentPin : (after.pinned node.addr above).pin node.addr = some above := by simp
  refine ensures_bind (ensures_index (ensures_load parentPin ?_))
  refine ensures_bind (ensures_check (show (after.page node.addr).n ≤ _ by rw [n]; exact fits) ?_)
  have pinned : Halved degree root rest (around node.addr before behind others) orphans node.addr
      (outer + separatorsAround before behind lefts rights) items (kid.addr height) store
      (after.pinned node.addr above) handler raised placed left right := halved_of_same_pages halved rfl rfl rfl
  obtain ⟨below, larger⟩ := raised_between count counts
    (reseparated_sorted (reseparated_inside (halved.items raised.1 (.inr rfl))) sorted)
  have compares : Compares represents separators (callbacks.cmp raised.1) raised.2 (lefts ++ rights) := by
    intro sep member
    have placedSep : sep ∈ placed := by
      rw [halved.placed]
      have := separators_around_mem count counts member
      simp [this]
    have known : sep ∈ separators := by
      rcases rising with ⟨_, _, rfl⟩ | ⟨_, rfl⟩
      · exact placedSep
      · exact Multiset.mem_cons_of_mem placedSep
    exact contract.cmp (rising_known rising) (Multiset.mem_add.mpr (.inr known))
  have located : Ensures represents separators (lowerBoundRr callbacks.cmp (after.page node.addr).rowPtr
      (after.page node.addr).n raised.1) fun found final => final = separators ∧ found = lefts.length := by
    rw [lowerBoundRr, n]
    exact ensures_lower_bound_entries holds.rows below (fun sep member => le_of_lt (larger sep member)) compares
  apply ensures_bind
  apply ensures_store
  apply ensures_mono located
  rintro i _ ⟨rfl, rfl⟩
  apply ensures_ite
  · intro full
    have full : (after.page node.addr).n = 2 * degree - 1 := full
    rw [n, ← seps] at full
    exact ensures_cut_node contract positive planted sized full kids seps count pinned rising heldThree halvedAbove
  · intro room
    have room : ¬(after.page node.addr).n = 2 * degree - 1 := room
    rw [n] at room
    apply ensures_bind
    apply ensures_promote contract rising
    intro copy copied
    apply ensures_take_row planted sized (by rw [seps]; omega) kids seps count pinned copied heldThree
    intro changed final replanted sameLength
    exact done changed _ final _ replanted (sameLength ▸ thrifty_same _ _)

end Inner

theorem ensures_insert_below (contract : Contract represents records callbacks) (positive : 0 < degree)
    (recorded : entry ∈ records) {height : Nat} {tree : BTree Key height}
    (planted : Planted store root free others orphans parent tree)
    (sized : tree.Sized degree least height) (sorted : Sorted (tree.items height))
    (absent : ∀ other ∈ rowsOf (tree.items height), other.2 ≠ entry.2)
    (known : ∀ row ∈ rowsOf (tree.items height), row ∈ records)
    (held : Pins store [(tree.addr height, frame)])
    (separated : separators = outer + separatorsOf (tree.items height))
    (done : ∀ (changed : BTree Key height) rest after separators', Replanted degree least root rest others orphans
      parent outer (SearchTrees.insertRow entry (tree.items height)) (tree.addr height) store after separators'
        changed → Thrifty free store.length rest after.length → Pins after [] → post () (after, separators'))
    (halved : ∀ (left right : BTree Key height) handler raised placed rest after separators' first second,
      Halved degree root rest others orphans parent outer (SearchTrees.insertRow entry (tree.items height))
        (tree.addr height) store after handler raised placed left right →
      Thrifty free store.length rest after.length → Rising records handler raised placed separators' →
      Pins after [(right.addr height, second), (left.addr height, first)] →
      Ensures (Stands rel represents) (after, separators') (splitLoop degree callbacks ⟨first, left.addr height⟩
        ⟨second, right.addr height⟩ raised.1 handler) post) :
    Ensures (Stands rel represents) (store, separators)
      (descend degree (callbacks.cmp entry.1) ⟨frame, tree.addr height⟩ >>=
        insertAtLeaf degree callbacks entry.1) post := by
  have compares := contract_compares contract recorded known separated
  induction height generalizing parent store frame least others outer free with
  | zero =>
      have pin : store.pin (Tree.addr 0 tree) = some frame := (held _ _).mpr (by simp)
      have outerAll : separators = outer := by
        rw [separated, Tree.items_leaf, separators_of_map_row]
        simp
      subst outerAll
      rw [Tree.items_leaf, rows_of_map_row] at absent known
      apply ensures_descend_leaf planted.holds sized.2 sorted pin (compares_rows compares)
      intro lefts rights hit rows below above _
      have larger : ∀ other ∈ rights, entry.2 < other.2 := fun other member =>
        lt_of_le_of_ne (above other member) (absent other (by rw [rows]; exact List.mem_append_right _ member)).symm
      have inserted : SearchTrees.insertRow entry (Tree.items 0 tree) =
          (lefts ++ entry :: rights).map Item.row := by
        rw [Tree.items_leaf, rows]
        exact insert_row_between below larger
      rw [inserted] at done halved
      apply ensures_insert_at_leaf positive recorded planted sized rows below larger known held
      · intro changed rest after replanted thrifty released
        exact done changed rest after _ replanted thrifty released
      · intro left right raised rest after first second cut thrifty isRecorded heldTwo
        exact halved left right true raised _ rest after _ first second cut thrifty (.inl ⟨rfl, isRecorded, rfl⟩)
          heldTwo
  | succ height ih =>
      apply ensures_descend_inner planted.holds sized.1.2 sorted (planted_kids_in_file planted) held
        (compares_seps compares)
      intro before kid behind lefts rights below after kids seps count counts atMost greater page length heldKid
      have member : kid ∈ tree.kids := by
        rw [kids]
        simp
      have items := node_items kids seps count
      obtain ⟨infront, later, kidSorted⟩ := around_child entry kids seps count sorted atMost greater
      have inserted : SearchTrees.insertRow entry (Tree.items (height + 1) tree) =
          joinHead (before.map (Tree.items height)) lefts ++ SearchTrees.insertRow entry (kid.items height) ++
            joinTail rights (behind.map (Tree.items height)) := by
        rw [items, insert_row_back later, insert_row_front infront]
      have insertedSorted := insert_row_sorted sorted absent
      rw [inserted] at done halved insertedSorted
      rw [items] at absent known
      simp only [rows_of_append, List.mem_append] at absent known
      have plantedThere := planted_of_same_pages planted page length
      apply @ih (degree - 1) (outer + separatorsAround before behind lefts rights) after tree.addr free
        (around tree.addr before behind others) below kid (planted_child plantedThere kids) (sized.2 kid member)
        kidSorted
      · exact fun other inKid => absent other (.inl (.inr inKid))
      · exact fun row inKid => known row (.inl (.inr inKid))
      · exact heldKid
      · rw [separated, items, separatorsAround]
        simp only [separators_of_append, ← Multiset.coe_add]
        abel
      · intro changed rest final separators' replanted thrifty released
        obtain ⟨whole, replantedAbove⟩ := replanted_parent plantedThere sized kids seps count replanted
        exact done whole rest final separators' (replanted_of_same_pages replantedAbove page) (length ▸ thrifty)
          released
      · intro left right handler raised placed rest final separators' first second cut thrifty rising heldTwo
        rw [length] at thrifty
        apply ensures_split_loop contract positive plantedThere sized kids seps count counts insertedSorted cut rising
          heldTwo
        · intro whole rest' last separators'' replanted further released
          exact done whole rest' last separators'' (replanted_of_same_pages replanted page)
            (thrifty_trans thrifty further) released
        · intro left' right' raised' placed' rest' last separators'' first' second' cutAbove further risingAbove
            heldAbove
          exact halved left' right' false raised' placed' rest' last separators'' first' second'
            (halved_of_same_pages cutAbove page.symm rfl rfl) (thrifty_trans thrifty further) risingAbove heldAbove
      · exact compares_part items compares

omit [LinearOrder Key] in
theorem root_grown (positive : 0 < degree) {height : Nat} {left right : BTree Key height} {raised : Entry Key}
    {handler : Bool} {after final : IndexStore} {items : List (Item RID Key)} {placed : Multiset (Entry Key)}
    {top fresh : Int} {rest : List Int} {copy : RID}
    (halved : Halved degree root free 0 orphans (-1) 0 items top store after handler raised placed left right)
    (copied : Copied handler raised.1 copy)
    (ledger : Ledger final.page final.length fresh rest (fresh ::ₘ (left.addrs height + right.addrs height)) orphans)
    (own : HoldsNode (final.page fresh) false (-1) [copy] [left.addr height, right.addr height])
    (hung : ∀ kid ∈ [left, right], final.page (kid.addr height) = setParent fresh (after.page (kid.addr height)))
    (same : ∀ addr ∈ left.addrs height + right.addrs height, addr ≠ left.addr height → addr ≠ right.addr height →
      final.page addr = after.page addr) :
    @Replanted Key degree (min (height + 1) 1) fresh rest 0 orphans (-1) 0 items fresh after final
      ((copy, raised.2) ::ₘ placed) (height + 1)
      (⟨fresh, [(copy, raised.2)], [left, right], rfl⟩ : Inner Key height) := by
  have kidsNodup : (([left, right] : List (BTree Key height)).map (Tree.addrs height)).sum.Nodup := by
    have nodup := ledger_used_nodup halved.ledger
    rw [add_zero] at nodup
    simpa using nodup
  have shape : Tree.items (height + 1) (⟨fresh, [(copy, raised.2)], [left, right], rfl⟩ : Inner Key height) =
      left.items height ++ .separator (copy, raised.2) :: right.items height := by
    simp [join, joinTail]
  refine ⟨⟨?_, own, ?_⟩, rfl, ⟨?_, ?_⟩, ?_, ?_, ?_⟩
  · simpa using ledger
  · intro kid member
    have holds : HoldsTree after.page height (-1) kid := by
      rcases List.mem_pair.mp member with rfl | rfl
      · exact halved.holdsLeft
      · exact halved.holdsRight
    apply holds_hung kidsNodup member holds (hung kid member)
    intro addr inside notTop
    apply same addr (by simpa using inside)
    · exact fun isLeft => notTop (by simp [isLeft])
    · exact fun isRight => notTop (by simp [isRight])
  · simp only [List.length_singleton]
    omega
  · intro kid member
    rcases List.mem_pair.mp member with rfl | rfl
    · exact halved.sizedLeft
    · exact halved.sizedRight
  · rw [shape]
    exact halved.items copy copied
  · rw [shape, halved.placed]
    simp only [separators_of_append, separators_of_separator, ← Multiset.coe_add, ← Multiset.cons_coe,
      ← Multiset.singleton_add]
    abel
  · intro addr member
    simp at member

/-- The new root has its row, its children name it, and it is named by the control block. -/
structure Grown (mid grown : IndexStore) (fresh low high : Int) (copy : RID) : Prop where
  control : grown.page 0 = setRootNode fresh (mid.page 0)
  own : grown.page fresh =
    { mid.page fresh with rowPtr := Function.update (mid.page fresh).rowPtr 0 copy, leaf := false }
  hung : ∀ addr, addr = low ∨ addr = high → grown.page addr = setParent fresh (mid.page addr)
  elsewhere : ∀ addr, addr ≠ 0 → addr ≠ fresh → addr ≠ low → addr ≠ high → grown.page addr = mid.page addr
  length : grown.length = mid.length

theorem ensures_name_root {mid : IndexStore} {fresh low high : Int} {first second third : Frame} {copy : RID}
    {post : Unit → IndexStore → Prop} (apart : [0, fresh, high, low].Nodup)
    (inFile : (0 : Int) ≤ 0 ∧ (0 : Int) % pageSize = 0 ∧ 0 < mid.length)
    (held : Pins mid [(fresh, third), (high, second), (low, first)])
    (continues : ∀ grown, Grown mid grown fresh low high copy → Pins grown [] → post () grown) :
    Ensures rel mid (do
      amend ⟨third, fresh⟩ fun page => { page with rowPtr := Function.update page.rowPtr 0 copy, leaf := false }
      amend ⟨second, high⟩ (setParent fresh)
      amend ⟨first, low⟩ (setParent fresh)
      unpin low
      unpin high
      let ctr ← fetch 0
      amend ctr (setRootNode fresh)
      unpin 0
      unpin fresh) post := by
  simp only [List.nodup_cons, List.mem_cons, List.not_mem_nil, or_false, not_or, List.nodup_nil, and_true,
    not_false_eq_true] at apart
  obtain ⟨⟨controlFresh, controlHigh, controlLow⟩, ⟨freshHigh, freshLow⟩, highLow⟩ := apart
  have freshPin : mid.pin fresh = some third := (held _ _).mpr (by simp)
  have highPin : mid.pin high = some second := (held _ _).mpr (by simp)
  have lowPin : mid.pin low = some first := (held _ _).mpr (by simp)
  refine ensures_bind (ensures_amend freshPin ?_)
  refine ensures_bind (ensures_amend highPin ?_)
  refine ensures_bind (ensures_amend lowPin ?_)
  generalize isWritten : ((mid.written fresh _).written high _).written low _ = written
  have heldThree : Pins written [(fresh, third), (high, second), (low, first)] := by
    rw [← isWritten]
    exact held
  have heldTwo : Pins (written.unpinned low) [(fresh, third), (high, second)] :=
    pins_released_last heldThree (by simp [Ne.symm freshLow, Ne.symm highLow])
  have heldOne : Pins ((written.unpinned low).unpinned high) [(fresh, third)] :=
    pins_released_last heldTwo (by simp [Ne.symm freshHigh])
  refine ensures_bind (ensures_unpin first ((heldThree _ _).mpr (by simp)) ?_)
  refine ensures_bind (ensures_unpin second ((heldTwo _ _).mpr (by simp)) ?_)
  have inFile : (0 : Int) ≤ 0 ∧ (0 : Int) % pageSize = 0 ∧ 0 < ((written.unpinned low).unpinned high).length := by
    rw [← isWritten]
    exact inFile
  refine ensures_bind (ensures_pin inFile heldOne (by simp [controlFresh]) (show 1 < cachePage by decide) ?_)
  intro ctr heldControl
  refine ensures_bind (ensures_amend (by simp) ?_)
  refine ensures_bind (ensures_unpin ctr (by simp) ?_)
  have heldFresh := pins_released heldControl (by simp [controlFresh])
  refine ensures_unpin third ((heldFresh _ _).mpr (by simp)) ?_
  refine continues _ ⟨?_, ?_, ?_, ?_, ?_⟩ (pins_released heldFresh (by simp))
  · simp [← isWritten, controlFresh, controlHigh, controlLow]
  · simp [← isWritten, Ne.symm controlFresh, freshHigh, freshLow]
  · rintro addr (rfl | rfl)
    · simp [← isWritten, Ne.symm controlLow, Ne.symm highLow, Ne.symm freshLow]
    · simp [← isWritten, Ne.symm controlHigh, highLow, Ne.symm freshHigh]
  · intro addr notControl notFresh notLow notHigh
    simp [← isWritten, notControl, notFresh, notLow, notHigh]
  · simp [← isWritten]

theorem ensures_grow_root (contract : Contract represents records callbacks) (positive : 0 < degree)
    {height : Nat} {left right : BTree Key height} {raised : Entry Key} {handler : Bool} {after : IndexStore}
    {items : List (Item RID Key)} {placed : Multiset (Entry Key)} {first second : Frame} {top : Int}
    (halved : Halved degree root free 0 orphans (-1) 0 items top store after handler raised placed left right)
    (rising : Rising records handler raised placed separators)
    (held : Pins after [(right.addr height, second), (left.addr height, first)])
    (continues : ∀ (changed : BTree Key (height + 1)) fresh rest final separators',
      Replanted degree (min (height + 1) 1) fresh rest 0 orphans (-1) 0 items fresh after final separators' changed →
      Thrifty free after.length rest final.length → Pins final [] → post () (final, separators')) :
    Ensures (Stands rel represents) (after, separators)
      (growRoot callbacks ⟨first, left.addr height⟩ ⟨second, right.addr height⟩ raised.1 handler) post := by
  have ledger := halved.ledger
  rw [add_zero] at ledger
  have nodup := ledger_used_nodup ledger
  have leftInUse : left.addr height ∈ left.addrs height + right.addrs height := by simp [Tree.addr_mem_addrs]
  have rightInUse : right.addr height ∈ left.addrs height + right.addrs height := by simp [Tree.addr_mem_addrs]
  have halvesApart : left.addr height ≠ right.addr height := by
    intro same
    rw [Multiset.nodup_add] at nodup
    exact Multiset.disjoint_left.mp nodup.2.2 (Tree.addr_mem_addrs left) (same ▸ Tree.addr_mem_addrs right)
  have known : Accounted after root free (left.addrs height + right.addrs height) orphans
      [(right.addr height, second), (left.addr height, first)] := by
    refine ⟨ledger, held, ?_⟩
    intro addr member
    simp only [List.map_cons, List.map_nil, List.mem_cons, List.not_mem_nil, or_false] at member
    rcases member with rfl | rfl
    · exact rightInUse
    · exact leftInUse
  rw [growRoot]
  apply ensures_bind
  apply ensures_index
  apply ensures_new_node known (show 2 + 1 < cachePage by decide)
  intro fresh third rest mid notUsed same accounted thrifty
  have leftFresh : left.addr height ≠ fresh := fun own => notUsed (own ▸ leftInUse)
  have rightFresh : right.addr height ≠ fresh := fun own => notUsed (own ▸ rightInUse)
  have freshUsed := ledger_used accounted.ledger (Multiset.mem_cons_self fresh _)
  have notControl : ∀ addr ∈ left.addrs height + right.addrs height, addr ≠ 0 := fun addr member =>
    (ledger_used ledger member).2.2.2.1
  have freshControl : fresh ≠ 0 := freshUsed.2.2.2.1
  have freshPin : mid.pin fresh = some third := (accounted.held _ _).mpr (by simp)
  refine ensures_bind (ensures_index (ensures_amend freshPin ?_))
  apply ensures_bind
  apply ensures_promote contract rising
  intro copy copied
  apply ensures_index
  have apart : [0, fresh, right.addr height, left.addr height].Nodup := by
    simp [freshControl.symm, (notControl _ rightInUse).symm, (notControl _ leftInUse).symm, rightFresh.symm,
      leftFresh.symm, halvesApart.symm]
  have heldWritten : ∀ page, Pins (mid.written fresh page) [(fresh, third), (right.addr height, second),
      (left.addr height, first)] := fun _ => accounted.held
  have controlFile := control_in_file accounted.ledger
  refine ensures_name_root apart controlFile (heldWritten _) ?_
  intro grown named heldNone
  have pages : ∀ addr, addr ≠ 0 → addr ≠ fresh → addr ≠ left.addr height → addr ≠ right.addr height →
      grown.page addr = mid.page addr := by
    intro addr notZero notFresh notLeft notRight
    rw [named.elsewhere addr notZero notFresh notLeft notRight, PageStore.written_page, if_neg notFresh]
  have length : grown.length = mid.length := named.length
  have hung : ∀ kid, kid = left ∨ kid = right →
      grown.page (kid.addr height) = setParent fresh (after.page (kid.addr height)) := by
    rintro kid (rfl | rfl)
    · rw [named.hung _ (.inl rfl), PageStore.written_page, if_neg leftFresh, same _ leftInUse]
    · rw [named.hung _ (.inr rfl), PageStore.written_page, if_neg rightFresh, same _ rightInUse]
  refine continues _ fresh rest _ _ (root_grown positive halved copied ?_ ?_ ?_ ?_) (length ▸ thrifty) heldNone
  · rw [length]
    apply ledger_rooted accounted.ledger freshUsed.1
    · rw [named.control, PageStore.written_page, if_neg freshControl.symm]
    · intro addr notZero notListed
      simp only [Multiset.mem_cons, Multiset.mem_add, not_or] at notListed
      have notRight : addr ≠ right.addr height := fun own => notListed.2.2 (own ▸ Tree.addr_mem_addrs right)
      have notLeft : addr ≠ left.addr height := fun own => notListed.2.1 (own ▸ Tree.addr_mem_addrs left)
      exact pages addr notZero notListed.1 notLeft notRight
  · rw [named.own]
    refine ⟨by simp, rfl, by simp, ?_, ?_⟩
    · intro j bound
      obtain rfl : j = 0 := by simpa using bound
      simp
    · intro j bound
      have bound : j < 2 := bound
      interval_cases j <;> simp
  · intro kid member
    exact hung kid (List.mem_pair.mp member)
  · intro addr member notLeft notRight
    have notFresh : addr ≠ fresh := fun own => notUsed (own ▸ member)
    rw [pages addr (notControl addr member) notFresh notLeft notRight, same addr member]

/-- The tree behind an insertion, and what became of the pages that were free. -/
theorem ensures_insert_shape (contract : Contract represents records callbacks) (positive : 0 < degree)
    {height : Nat} {tree : BTree Key height} {result : RID → IndexStore × Multiset (Entry Key) → Prop}
    (shape : IndexShape degree tree free orphans store) (held : Pins store [])
    (separated : separators = separatorsOf (tree.items height)) (recorded : entry ∈ records)
    (known : ∀ row ∈ rowsOf (tree.items height), row ∈ records)
    (absent : ∀ row ∈ rowsOf (tree.items height), row.2 ≠ entry.2)
    (continues : ∀ (heightAfter : Nat) (changed : BTree Key heightAfter) rest (separators' : Multiset (Entry Key))
      after, IndexShape degree changed rest orphans after → Pins after [] →
      entry ::ₘ (rowsOf (tree.items height) : Multiset (Entry Key)) = rowsOf (changed.items heightAfter) →
      separators' = separatorsOf (changed.items heightAfter) → Thrifty free store.length rest after.length →
      result nothing (after, separators')) :
    Ensures (Stands rel represents) (store, separators) (bTreeInsert degree callbacks entry.1) result := by
  have finish : ∀ {heightAfter : Nat} {start : IndexStore} {top : Int} {rest : List Int}
      (changed : BTree Key heightAfter) after separators',
      Replanted degree (min heightAfter 1) top rest 0 orphans (-1) 0
        (SearchTrees.insertRow entry (tree.items height)) top start after separators' changed →
      Thrifty free store.length rest after.length → Pins after [] →
      Ensures (Stands rel represents) (after, separators') (pure nothing) result := by
    intro heightAfter start top rest changed after separators' replanted thrifty released
    have placed := replanted.separators
    rw [zero_add] at placed
    refine ensures_pure _ (continues heightAfter changed rest separators' after
      (shape_of_replanted replanted (insert_row_sorted shape.sorted absent)) released ?_ placed thrifty)
    rw [reseparated_rows replanted.items]
    exact (Multiset.coe_eq_coe.mpr rows_of_insert_row).symm
  rw [bTreeInsert]
  apply ensures_bind
  apply ensures_fetch_root shape.ledger (Tree.addr_mem_addrs tree) held
  intro frame after page length heldRoot
  rw [← bind_assoc]
  have planted := planted_of_same_pages (planted_of_index shape) page length
  apply ensures_bind
  apply ensures_insert_below contract positive recorded planted shape.sized shape.sorted absent known heldRoot
    (by rw [separated, zero_add])
  · intro changed rest final separators' replanted thrifty released
    exact finish changed final separators' replanted (length ▸ thrifty) released
  · intro left right handler raised placed rest final separators' first second halved thrifty rising heldTwo
    rw [length] at thrifty
    have leftPin : final.pin (left.addr height) = some first := (heldTwo _ _).mpr (by simp)
    rw [splitLoop, loop_eq, splitTurn]
    simp only [bind_assoc, bind_ite, pure_bind, afterTurn, bind_pure_unit]
    refine ensures_bind (ensures_index (ensures_load leftPin ?_))
    rw [holds_tree_parent halved.holdsLeft, if_neg (by omega)]
    apply ensures_grow_root contract positive halved rising heldTwo
    intro changed fresh rest' last separators'' replanted further released
    exact finish changed last separators'' replanted (thrifty_trans thrifty further) released

theorem ensures_b_tree_insert (contract : Contract represents records callbacks) (positive : 0 < degree)
    {rows : Multiset (Entry Key)} {result : RID → IndexStore × Multiset (Entry Key) → Prop}
    (index : HoldsIndex degree rows separators orphans store) (recorded : entry ∈ records)
    (known : ∀ row ∈ rows, row ∈ records) (absent : ∀ other ∈ rows, other.2 ≠ entry.2)
    (continues : ∀ separators' after, HoldsIndex degree (entry ::ₘ rows) separators' orphans after →
      result nothing (after, separators')) :
    Ensures (Stands rel represents) (store, separators) (bTreeInsert degree callbacks entry.1) result := by
  obtain ⟨height, tree, free, shape, held, rfl, separated⟩ := index
  apply ensures_insert_shape contract positive shape held separated recorded known absent
  intro heightAfter changed rest separators' after shapeAfter released rows separatedAfter _
  exact continues separators' after ⟨heightAfter, changed, rest, shapeAfter, released, rows, separatedAfter⟩

end Insertion

end MyJQL.BTreeInsertion
