import MyJQL.BTreeLevels

/-!
# Deleting from the tree

A row is taken out of its leaf. A node that is one row short afterwards gets one from a neighbour, or
is merged with it, and then its parent has a row and a child too many. As in an insertion, what
happens at a node is stated for a subtree in the middle of its file, and the way up to the root is an
induction on the height.
-/

namespace MyJQL.BTreeDeletion

open MyJQL.FileIo
open MyJQL.BufferPoolModel
open MyJQL.StateProgram
open MyJQL.PageStoreLogic
open MyJQL.ArrayLoops
open MyJQL.TableModel
open MyJQL.SearchTrees
open MyJQL.BTreeModel
open MyJQL.BTreeLayout
open MyJQL.BTreePages
open MyJQL.BTreeEdits
open MyJQL.BTreeSearch
open MyJQL.BTreeSubtrees
open MyJQL.BTreeNeighbours
open MyJQL.BTreeLevels

set_option autoImplicit false

variable {Key Store : Type} [LinearOrder Key]

section Deletion

variable {rel : IndexStore → IndexPool → Prop} [CutRules rel] {represents : Multiset (Entry Key) → Store → Prop}
  {records : Multiset (Entry Key)} {callbacks : Callbacks Store} {degree least : Nat} {handler : Bool}
  {level : Level IndexPool Store} {outer separators : Multiset (Entry Key)} {store after : IndexStore}
  {root parent : Int} {free : List Int} {others orphans : Multiset Int} {height : Nat} {here there above : Frame}
  {post : Unit → IndexStore × Multiset (Entry Key) → Prop}

structure Short (records : Multiset (Entry Key)) (degree least : Nat) (outer separators : Multiset (Entry Key))
    (store : IndexStore) (root : Int) (free : List Int) (others orphans : Multiset Int) (parent : Int)
    (node : Inner Key height) (before : List (BTree Key height)) (short : BTree Key height)
    (behind : List (BTree Key height)) (lefts rights : List (Entry Key)) : Prop where
  planted : @Planted Key store root free others orphans parent (height + 1) node
  kids : node.kids = before ++ short :: behind
  seps : node.seps = lefts ++ rights
  count : before.length = lefts.length
  rows : least ≤ node.seps.length ∧ node.seps.length ≤ 2 * degree - 1
  siblings : ∀ sibling, sibling ∈ before ∨ sibling ∈ behind → sibling.Sized degree (degree - 1) height
  sized : short.Sized degree (degree - 2) height
  few : short.count height < degree - 1
  known : ∀ row ∈ rowsOf (Tree.items (height + 1) node), row ∈ records
  separators : separators = outer + separatorsOf (Tree.items (height + 1) node)

section Short

variable {node : Inner Key height} {before behind : List (BTree Key height)} {short sibling : BTree Key height}
  {lefts rights : List (Entry Key)} {between : Entry Key}

omit [LinearOrder Key] in
theorem short_of_same_pages
    (isShort : Short records degree least outer separators store root free others orphans parent node before short
      behind lefts rights)
    (after : IndexStore) (page : after.page = store.page) (length : after.length = store.length) :
    Short records degree least outer separators after root free others orphans parent node before short behind lefts
      rights := by
  exact ⟨planted_of_same_pages isShort.planted page length, isShort.kids, isShort.seps, isShort.count, isShort.rows,
    isShort.siblings, isShort.sized, isShort.few, isShort.known, isShort.separators⟩

omit [LinearOrder Key] in
theorem sibling_uneven (sized : sibling.Sized degree (degree - 1) height) :
    sibling.Sized degree (degree - 2) height := by
  apply Tree.sized_least sized
  have := Tree.sized_count sized
  omega

omit [LinearOrder Key] in
theorem left_sibling
    (isShort : Short records degree least outer separators store root free others orphans parent node before short
      behind lefts rights) (some : 0 < before.length) :
    ∃ front sibling frontSeps between, before = front ++ [sibling] ∧ lefts = frontSeps ++ [between] := by
  obtain ⟨front, sibling, kids⟩ := (List.eq_nil_or_concat' before).resolve_left (List.ne_nil_of_length_pos some)
  rw [isShort.count] at some
  obtain ⟨frontSeps, between, seps⟩ := (List.eq_nil_or_concat' lefts).resolve_left (List.ne_nil_of_length_pos some)
  exact ⟨front, sibling, frontSeps, between, kids, seps⟩

omit [LinearOrder Key] in
theorem uneven_left
    (isShort : Short records degree least outer separators store root free others orphans parent node
      (before ++ [sibling]) short behind (lefts ++ [between]) rights) :
    Uneven records degree least outer separators store root free others orphans parent node before sibling short
      behind lefts between rights := by
  have count := isShort.count
  simp only [List.length_append, List.length_singleton] at count
  refine ⟨⟨isShort.planted, ?_, ?_, by omega⟩, isShort.rows, ?_, ?_, isShort.sized, isShort.known,
    isShort.separators⟩
  · rw [isShort.kids]
    simp
  · rw [isShort.seps]
    simp
  · rintro other (inBefore | inBehind)
    · exact isShort.siblings other (.inl (List.mem_append_left _ inBefore))
    · exact isShort.siblings other (.inr inBehind)
  · exact sibling_uneven (isShort.siblings sibling (.inl (by simp)))

omit [LinearOrder Key] in
theorem uneven_right
    (isShort : Short records degree least outer separators store root free others orphans parent node before short
      (sibling :: behind) lefts (between :: rights)) :
    Uneven records degree least outer separators store root free others orphans parent node before short sibling
      behind lefts between rights := by
  refine ⟨⟨isShort.planted, isShort.kids, isShort.seps, isShort.count⟩, isShort.rows, ?_, isShort.sized, ?_,
    isShort.known, isShort.separators⟩
  · rintro other (inBefore | inBehind)
    · exact isShort.siblings other (.inl inBefore)
    · exact isShort.siblings other (.inr (List.mem_cons_of_mem _ inBehind))
  · exact sibling_uneven (isShort.siblings sibling (.inr (by simp)))

end Short

section Merge

variable {whole : Inner Key height} {before behind : List (BTree Key height)}
  {first second merged : BTree Key height} {lefts rights : List (Entry Key)} {between : Entry Key}
  {rest : List Int}

omit [LinearOrder Key] in
theorem merged_replanted (final : IndexStore)
    (uneven : Uneven records degree least outer separators store root free others orphans parent whole before first
      second behind lefts between rights)
    (isMerged : Merged degree handler root rest others orphans whole before first second behind between store after
      merged)
    (own : final.page whole.addr = removeRow lefts.length (removeChild lefts.length (after.page whole.addr)))
    (pages : ∀ addr, addr ≠ whole.addr → final.page addr = after.page addr) (length : final.length = after.length) :
    ∃ changed : BTree Key (height + 1), Replanted degree (least - 1) root rest others orphans parent outer
      (Tree.items (height + 1) whole) whole.addr store final
      (outer + separatorsAround before behind lefts rights +
        (separatorsOf (merged.items height) : Multiset (Entry Key)))
      changed := by
  have neighbours := uneven.neighbours
  obtain ⟨topKept, othersKept⟩ := around_kept isMerged.kept
  have counts := neighbours_counts neighbours
  have count := neighbours.count
  have nodup := ledger_used_nodup isMerged.ledger
  rw [Multiset.nodup_add, around, Multiset.nodup_cons] at nodup
  obtain ⟨_, ⟨fresh, _⟩, apart⟩ := nodup
  have kidsSplit : HoldsNode (after.page whole.addr) false parent
      (lefts.map Prod.fst ++ between.1 :: rights.map Prod.fst)
      ((before ++ [first]).map (Tree.addr height) ++ second.addr height :: behind.map (Tree.addr height)) := by
    rw [topKept]
    simpa using neighbours_page neighbours
  have childGone := @holds_remove_child _ _ _ _ _ _ _ lefts.length kidsSplit
    (by simp only [List.length_map, List.length_append, List.length_cons, List.length_nil]; omega)
    (by simp only [List.length_map, List.length_append, List.length_cons, List.length_nil]; omega)
  have rowGone := holds_remove_row childGone
  rw [List.length_map] at rowGone
  have arity : (before ++ merged :: behind).length = (lefts ++ rights).length + 1 := by
    simp only [List.length_append, List.length_cons]
    omega
  have items : Tree.items (height + 1) (⟨whole.addr, lefts ++ rights, before ++ merged :: behind, arity⟩ :
      Inner Key height) = joinHead (before.map (Tree.items height)) lefts ++ merged.items height ++
        joinTail rights (behind.map (Tree.items height)) := node_items rfl rfl count
  have topOutside : ∀ tree, tree = merged ∨ tree ∈ before ∨ tree ∈ behind →
      ∀ addr ∈ tree.addrs height, addr ≠ whole.addr := by
    rintro tree member addr inside rfl
    rcases member with rfl | inBefore | inBehind
    · exact Multiset.disjoint_left.mp apart inside (Multiset.mem_cons_self _ _)
    · exact fresh (by simp [mem_kid_addrs inBefore inside])
    · exact fresh (by simp [mem_kid_addrs inBehind inside])
  have framed : ∀ tree, tree = merged ∨ tree ∈ before ∨ tree ∈ behind → HoldsTree after.page height whole.addr tree →
      HoldsTree final.page height whole.addr tree := fun tree member holds =>
    holds_tree_frame (fun addr inside => pages addr (topOutside tree member addr inside)) holds
  have siblingHolds : ∀ sibling, sibling ∈ before ∨ sibling ∈ behind →
      HoldsTree final.page height whole.addr sibling := by
    intro sibling member
    apply framed sibling (.inr member)
    apply sibling_kept isMerged.kept member
    exact neighbours.planted.holds.2 sibling (by rw [neighbours.kids]; simp; tauto)
  refine ⟨⟨whole.addr, lefts ++ rights, before ++ merged :: behind, arity⟩, ⟨?_, ?_, ?_⟩, rfl, ⟨?_, ?_⟩, ?_, ?_, ?_⟩
  · rw [Tree.addrs_inner, addrs_around, length]
    apply ledger_frame isMerged.ledger
    intro addr notUsed
    apply pages addr
    rintro rfl
    exact notUsed (by simp [around])
  · rw [own]
    simpa [isMerged.addr] using rowGone
  · intro tree member
    rw [List.mem_append, List.mem_cons] at member
    rcases member with inBefore | rfl | inBehind
    · exact siblingHolds tree (.inl inBefore)
    · exact framed tree (.inl rfl) isMerged.holds
    · exact siblingHolds tree (.inr inBehind)
  · have rows := uneven.rows
    rw [neighbours.seps] at rows
    simp only [List.length_append, List.length_cons] at rows ⊢
    omega
  · intro tree member
    rw [List.mem_append, List.mem_cons] at member
    rcases member with inBefore | rfl | inBehind
    · exact uneven.siblings tree (.inl inBefore)
    · exact isMerged.sized
    · exact uneven.siblings tree (.inr inBehind)
  · rw [items, neighbours_items neighbours]
    exact reseparated_inside isMerged.items
  · rw [items, separatorsAround]
    simp only [separators_of_append, ← Multiset.coe_add]
    abel
  · intro addr member
    have notTop : addr ≠ whole.addr := by
      rintro rfl
      exact fresh (by simp [member])
    rw [pages addr notTop]
    exact othersKept addr member

theorem ensures_merge_turn (contract : Contract represents records callbacks)
    (uneven : Uneven records degree least outer separators store root free others orphans parent whole before first
      second behind lefts between rights)
    (sorted : Sorted (Tree.items (height + 1) whole))
    (isMerged : Merged degree handler root rest others orphans whole before first second behind between store after
      merged)
    (held : Pins after [(whole.addr, above)])
    (lowered : ∀ (changed : BTree Key (height + 1)) final separators', Replanted degree (least - 1) root rest others
      orphans parent outer (Tree.items (height + 1) whole) whole.addr store final separators' changed →
      Pins final [(whole.addr, above)] →
      Ensures (Stands rel represents) (final, separators')
        (settle degree ⟨above, whole.addr⟩ >>= mergeLoop degree callbacks false) post) :
    Ensures (Stands rel represents) (after, separators)
      (mergeLoop degree callbacks handler (some (⟨above, whole.addr⟩, between.1))) post := by
  have neighbours := uneven.neighbours
  obtain ⟨topKept, othersKept⟩ := around_kept isMerged.kept
  have page : HoldsNode (after.page whole.addr) false parent ((lefts ++ between :: rights).map Prod.fst)
      ((before ++ first :: second :: behind).map (Tree.addr height)) := by
    rw [topKept]
    simpa using neighbours_page neighbours
  have n : (after.page whole.addr).n = (lefts ++ between :: rights).length := by rw [page.n, List.length_map]
  have pin : after.pin whole.addr = some above := (held _ _).mpr (by simp)
  have arity : (whole.kids.map (Tree.items height)).length = whole.seps.length + 1 := by
    rw [List.length_map, whole.arity]
  have increasing := join_seps_sorted arity sorted
  rw [neighbours.seps] at increasing
  obtain ⟨_, fromHere, below⟩ := List.pairwise_append.mp increasing
  have placed : ∀ sep ∈ lefts ++ between :: rights, sep ∈ separators := by
    intro sep member
    rw [uneven.separators, Multiset.mem_add, Multiset.mem_coe, mem_separators_of]
    refine .inr ((join_sublist arity).subset (List.mem_map_of_mem ?_))
    rw [neighbours.seps]
    exact member
  rw [mergeLoop, loop_eq, mergeTurn]
  simp only [bind_assoc, bind_ite, pure_bind, afterTurn]
  refine ensures_bind (ensures_index (ensures_load pin ?_))
  refine ensures_bind (ensures_check ?_ ?_)
  · rw [n, ← neighbours.seps]
    exact uneven.rows.2
  have between_placed : between ∈ separators := placed between (by simp)
  have compares : Compares represents separators (callbacks.cmp between.1) between.2
      (lefts ++ between :: rights) := fun sep member =>
    contract.cmp (Multiset.mem_add.mpr (.inr between_placed)) (Multiset.mem_add.mpr (.inr (placed sep member)))
  have located : Ensures represents separators (lowerBoundRr callbacks.cmp (after.page whole.addr).rowPtr
      (after.page whole.addr).n between.1) fun found final => final = separators ∧ found = lefts.length := by
    rw [lowerBoundRr, n]
    apply ensures_lower_bound_entries page.rows (fun sep member => below sep member between List.mem_cons_self)
      _ compares
    intro sep member
    rcases List.mem_cons.mp member with rfl | inRights
    · exact le_refl _
    · exact le_of_lt ((List.pairwise_cons.mp fromHere).1 sep inRights)
  apply ensures_bind
  apply ensures_store
  apply ensures_mono located
  rintro i final ⟨same, rfl⟩
  rw [same]
  -- the separator that stood between leaves has no place any more, and goes
  have total := uneven_separators uneven
  rw [← isMerged.separators] at total
  have row : (after.page whole.addr).rowPtr lefts.length = between.1 := by
    rw [topKept]
    exact neighbours_row neighbours
  have removed : Ensures (Stands rel represents) (after, outer + separatorsAround before behind lefts rights +
      (separatorsOf (merged.items height) : Multiset (Entry Key))) (do
        onIndex (amend ⟨above, whole.addr⟩ fun page => removeRow lefts.length (removeChild lefts.length page))
        let again ← settle degree ⟨above, whole.addr⟩
        mergeLoop degree callbacks false again) post := by
    refine ensures_bind (ensures_index (ensures_amend pin ?_))
    obtain ⟨changed, replanted⟩ := merged_replanted
      (after.written whole.addr (removeRow lefts.length (removeChild lefts.length (after.page whole.addr)))) uneven
      isMerged (by simp) (fun addr different => by simp [different]) rfl
    exact lowered changed _ _ replanted held
  cases handler with
  | true =>
      rw [if_pos rfl, row]
      apply ensures_bind
      apply ensures_store
      apply ensures_mono (contract.deleteHandler between_placed)
      rintro _ _ rfl
      have erased : separators.erase between = outer + separatorsAround before behind lefts rights +
          (separatorsOf (merged.items height) : Multiset (Entry Key)) := by
        rw [total, if_pos rfl, ← add_assoc, Multiset.erase_add_right_pos _ (by simp)]
        simp
      rw [erased]
      exact removed
  | false =>
      rw [if_neg (by simp), add_zero] at total
      rw [if_neg (by simp), total]
      exact removed

end Merge

section Redistribution

variable {node : Inner Key height} {before behind : List (BTree Key height)} {short : BTree Key height}
  {lefts rights : List (Entry Key)}

omit [LinearOrder Key] in
theorem find_child_found {page : BNode} {leaf : Bool} {rows : List RID} {front back : List Int} {addr : Int}
    (holds : HoldsNode page leaf parent rows (front ++ addr :: back)) (nodup : (front ++ addr :: back).Nodup)
    (arity : front.length + back.length = rows.length) : findChild page addr = some front.length := by
  have n := holds.n
  rw [findChild, List.find?_range_eq_some]
  refine ⟨?_, ?_, ?_⟩
  · simpa using reads_middle holds.kids
  · rw [List.mem_range]
    omega
  · intro j earlier
    have reads := holds.kids j (by simp only [List.length_append, List.length_cons]; omega)
    rw [List.getElem_append_left earlier] at reads
    have different : front[j] ≠ addr := (List.nodup_append.mp nodup).2.2 _ (List.getElem_mem earlier) addr
      List.mem_cons_self
    simp [reads, different]

omit [LinearOrder Key] in
theorem ensures_unpin_three {Value : Type} {first second third : Int} {value : Value}
    {result : Value → IndexStore × Multiset (Entry Key) → Prop}
    (held : Pins store [(first, here), (second, there), (third, above)])
    (apart : first ≠ second ∧ first ≠ third ∧ second ≠ third)
    (continues : ∀ final : IndexStore, final.page = store.page → final.length = store.length → Pins final [] →
      result value (final, separators)) :
    Ensures (Stands rel represents) (store, separators) (do
      onIndex (unpin first)
      onIndex (unpin second)
      onIndex (unpin third)
      pure value) result := by
  obtain ⟨firstSecond, firstThird, secondThird⟩ := apart
  refine ensures_bind (ensures_index (ensures_unpin here ((held _ _).mpr (by simp)) ?_))
  have heldTwo := pins_released held (by simp [firstSecond, firstThird])
  refine ensures_bind (ensures_index (ensures_unpin there ((heldTwo _ _).mpr (by simp)) ?_))
  have heldOne := pins_released heldTwo (by simp [secondThird])
  refine ensures_bind (ensures_index (ensures_unpin above ((heldOne _ _).mpr (by simp)) ?_))
  exact ensures_pure _ (continues _ rfl rfl (pins_released heldOne (by simp)))

/-- What a redistribution comes to: a parent with all its rows, or one that has to lose one. -/
structure Outcomes (rel : IndexStore → IndexPool → Prop) (callbacks : Callbacks Store)
    (represents : Multiset (Entry Key) → Store → Prop) (degree least : Nat) (root : Int)
    (others orphans : Multiset Int) (parent : Int) (outer : Multiset (Entry Key)) (node : Inner Key height)
    (store : IndexStore) (post : Unit → IndexStore × Multiset (Entry Key) → Prop) : Prop where
  done : ∀ (changed : BTree Key (height + 1)) rest final separators', Replanted degree least root rest others orphans
    parent outer (Tree.items (height + 1) node) node.addr store final separators' changed → Pins final [] →
    post () (final, separators')
  lowered : ∀ (changed : BTree Key (height + 1)) rest final separators' frame, Replanted degree (least - 1) root rest
    others orphans parent outer (Tree.items (height + 1) node) node.addr store final separators' changed →
    Pins final [(node.addr, frame)] →
    Ensures (Stands rel represents) (final, separators')
      (settle degree ⟨frame, node.addr⟩ >>= mergeLoop degree callbacks false) post

omit [LinearOrder Key] [CutRules rel] in
theorem outcomes_of_same_pages
    (outcomes : Outcomes rel callbacks represents degree least root others orphans parent outer node store post)
    (start : IndexStore)
    (same : start.page = store.page) :
    Outcomes rel callbacks represents degree least root others orphans parent outer node start post :=
  ⟨fun changed rest final separators' replanted released =>
      outcomes.done changed rest final separators' (replanted_of_same_pages replanted same) released,
    fun changed rest final separators' frame replanted held =>
      outcomes.lowered changed rest final separators' frame (replanted_of_same_pages replanted same) held⟩

omit [LinearOrder Key] in
theorem short_page (isShort : Short records degree least outer separators store root free others orphans parent node
      before short behind lefts rights) :
    HoldsNode (store.page node.addr) false parent (lefts.map Prod.fst ++ rights.map Prod.fst)
      (before.map (Tree.addr height) ++ short.addr height :: behind.map (Tree.addr height)) := by
  have own := isShort.planted.holds.1
  rw [isShort.kids, isShort.seps, List.map_append, List.map_append, List.map_cons] at own
  exact own

theorem ensures_merge_pair (contract : Contract represents records callbacks)
    (balances : Balances rel represents records degree handler height level) {first second : BTree Key height}
    {between : Entry Key}
    (uneven : Uneven records degree least outer separators store root free others orphans parent node before first
      second behind lefts between rights)
    (sorted : Sorted (Tree.items (height + 1) node))
    (outcomes : Outcomes rel callbacks represents degree least root others orphans parent outer node store post)
    (sizes : degree - 1 ≤ first.count height + second.count height)
    (fits : first.count height + second.count height + 1 ≤ 2 * degree - 1)
    (held : Pins store [(first.addr height, there), (second.addr height, here), (node.addr, above)]) :
    Ensures (Stands rel represents) (store, separators) (do
      level.merge ⟨there, first.addr height⟩ ⟨here, second.addr height⟩ between.1
      pure (some (⟨above, node.addr⟩, between.1)))
      fun result final => Ensures (Stands rel represents) final (mergeLoop degree callbacks handler result) post := by
  apply ensures_bind
  apply ensures_mono (balances.merge uneven sizes fits held)
  rintro _ ⟨after, left⟩ ⟨same, heldAfter, rest, merged, isMerged⟩
  obtain rfl : left = separators := same
  apply ensures_pure
  apply ensures_merge_turn contract uneven sorted isMerged heldAfter
  intro changed final separators' replanted heldFinal
  exact outcomes.lowered changed rest final separators' above replanted heldFinal

omit [LinearOrder Key] in
theorem pins_rotated {first second third : Int × Frame} (held : Pins store [first, second, third]) :
    Pins store [third, first, second] :=
  pins_perm held (show ([first, second] ++ [third]).Perm ([third] ++ [first, second]) from List.perm_append_comm)

theorem ensures_merge_siblings (contract : Contract represents records callbacks) (enough : 2 ≤ degree)
    (balances : Balances rel represents records degree handler height level)
    (isShort : Short records degree least outer separators store root free others orphans parent node before short
      behind lefts rights)
    (positive : 1 ≤ least) (sorted : Sorted (Tree.items (height + 1) node))
    (outcomes : Outcomes rel callbacks represents degree least root others orphans parent outer node store post)
    (leftFull : ∀ front sibling, before = front ++ [sibling] → sibling.count height ≤ degree - 1)
    (rightFull : before = [] → ∀ sibling rest, behind = sibling :: rest → sibling.count height ≤ degree - 1)
    (held : Pins store [(node.addr, above), (short.addr height, here)]) :
    Ensures (Stands rel represents) (store, separators)
      (mergeSiblings level ⟨here, short.addr height⟩ ⟨above, node.addr⟩ before.length)
      fun result final => Ensures (Stands rel represents) final (mergeLoop degree callbacks handler result) post := by
  have pin : store.pin node.addr = some above := (held _ _).mpr (by simp)
  have few := isShort.few
  have least' := (Tree.sized_count isShort.sized).1
  rw [mergeSiblings]
  refine ensures_bind (ensures_index (ensures_load pin ?_))
  apply ensures_ite
  · intro some
    obtain ⟨front, sibling, frontSeps, between, rfl, rfl⟩ := left_sibling isShort some
    have uneven := uneven_left isShort
    have count := uneven.neighbours.count
    obtain ⟨siblingTop, shortTop, apart⟩ := neighbours_tops uneven.neighbours
    have siblingSize := Tree.sized_count (isShort.siblings sibling (.inl (by simp)))
    have full := leftFull front sibling rfl
    have place : (front ++ [sibling]).length - 1 = frontSeps.length := by simp [count]
    rw [place, (neighbours_children uneven.neighbours).1, neighbours_row uneven.neighbours]
    refine ensures_bind (ensures_index (ensures_pin (neighbours_in_file uneven.neighbours).1 held ?_
      (show 2 < cachePage by decide) ?_))
    · simp [siblingTop, apart]
    intro there heldThree
    have unevenThere := uneven_of_same_pages uneven (store.pinned (sibling.addr height) there) rfl rfl
    apply ensures_merge_pair contract balances unevenThere sorted (outcomes_of_same_pages outcomes _ rfl)
    · omega
    · omega
    · exact pins_perm heldThree ((List.Perm.swap _ _ _).cons _)
  · intro none
    have isNil : before = [] := List.length_eq_zero_iff.mp (by omega)
    subst isNil
    have noLefts : lefts = [] := List.length_eq_zero_iff.mp (by rw [← isShort.count]; rfl)
    subst noLefts
    have rows := isShort.rows
    rw [isShort.seps, List.nil_append] at rows
    obtain ⟨between, restSeps, rfl⟩ : ∃ between restSeps, rights = between :: restSeps := by
      apply List.exists_cons_of_ne_nil
      intro empty
      rw [empty, List.length_nil] at rows
      omega
    obtain ⟨sibling, rest, rfl⟩ : ∃ sibling rest, behind = sibling :: rest := by
      apply List.exists_cons_of_ne_nil
      intro empty
      have arity := node.arity
      rw [isShort.kids, isShort.seps, empty] at arity
      simp at arity
    have uneven := uneven_right isShort
    obtain ⟨shortTop, siblingTop, apart⟩ := neighbours_tops uneven.neighbours
    have siblingSize := Tree.sized_count (isShort.siblings sibling (.inr (by simp)))
    have full := rightFull rfl sibling rest rfl
    have child : (store.page node.addr).child 1 = sibling.addr height := (neighbours_children uneven.neighbours).2
    have row : (store.page node.addr).rowPtr 0 = between.1 := neighbours_row uneven.neighbours
    rw [List.length_nil, Nat.zero_add, child, row]
    refine ensures_bind (ensures_index (ensures_pin (neighbours_in_file uneven.neighbours).2 held ?_
      (show 2 < cachePage by decide) ?_))
    · simp [siblingTop, apart.symm]
    intro there heldThree
    have unevenThere := uneven_of_same_pages uneven (store.pinned (sibling.addr height) there) rfl rfl
    apply ensures_merge_pair contract balances unevenThere sorted (outcomes_of_same_pages outcomes _ rfl)
    · omega
    · omega
    · exact pins_rotated heldThree

omit [LinearOrder Key] [CutRules rel] in
theorem ensures_merge_none {final : IndexStore × Multiset (Entry Key)} (holds : post () final) :
    Ensures (Stands rel represents) final (mergeLoop degree callbacks handler none) post := by
  rw [mergeLoop, loop_eq, mergeTurn, pure_bind]
  exact ensures_pure _ holds

/-- The child may take a row from its right neighbour. Its left neighbour has none to spare. -/
theorem ensures_try_right (contract : Contract represents records callbacks) (enough : 2 ≤ degree)
    (balances : Balances rel represents records degree handler height level)
    (isShort : Short records degree least outer separators store root free others orphans parent node before short
      behind lefts rights)
    (positive : 1 ≤ least) (sorted : Sorted (Tree.items (height + 1) node))
    (outcomes : Outcomes rel callbacks represents degree least root others orphans parent outer node store post)
    (leftFull : ∀ front sibling, before = front ++ [sibling] → sibling.count height ≤ degree - 1)
    {sibAddr : Option Int}
    (spare : behind = [] → ∃ addr, sibAddr = some addr ∧ store.resident addr ∧ 0 ≤ addr ∧ addr ≠ node.addr ∧
      addr ≠ short.addr height)
    (held : Pins store [(node.addr, above), (short.addr height, here)]) :
    Ensures (Stands rel represents) (store, separators)
      (tryRight degree level ⟨here, short.addr height⟩ ⟨above, node.addr⟩ before.length sibAddr)
      fun result final => Ensures (Stands rel represents) final (mergeLoop degree callbacks handler result) post := by
  have pin : store.pin node.addr = some above := (held _ _).mpr (by simp)
  have page := short_page isShort
  have n := page.n
  rw [List.length_append, List.length_map, List.length_map] at n
  have arity := node.arity
  rw [isShort.kids, isShort.seps] at arity
  simp only [List.length_append, List.length_cons] at arity
  have count := isShort.count
  rw [tryRight]
  refine ensures_bind (ensures_index (ensures_load pin ?_))
  apply ensures_ite
  · intro some
    have some : before.length < (store.page node.addr).n := some
    obtain ⟨between, restSeps, rfl⟩ : ∃ between restSeps, rights = between :: restSeps :=
      List.exists_cons_of_ne_nil (List.ne_nil_of_length_pos (by omega))
    obtain ⟨sibling, rest, rfl⟩ : ∃ sibling rest, behind = sibling :: rest :=
      List.exists_cons_of_ne_nil (List.ne_nil_of_length_pos (by omega))
    have uneven := uneven_right isShort
    obtain ⟨shortTop, siblingTop, apart⟩ := neighbours_tops uneven.neighbours
    have child : (store.page node.addr).child (before.length + 1) = sibling.addr height := by
      rw [count]
      exact (neighbours_children uneven.neighbours).2
    rw [child]
    refine ensures_bind (ensures_index (ensures_pin (neighbours_in_file uneven.neighbours).2 held ?_
      (show 2 < cachePage by decide) ?_))
    · simp [siblingTop, apart.symm]
    intro there heldThree
    have unevenThere := uneven_of_same_pages uneven (store.pinned (sibling.addr height) there) rfl rfl
    have outcomesThere := outcomes_of_same_pages outcomes (store.pinned (sibling.addr height) there) rfl
    have siblingCount : (store.page (sibling.addr height)).n = sibling.count height :=
      holds_tree_count (neighbours_second uneven.neighbours)
    refine ensures_bind (ensures_index (ensures_load (by simp) ?_))
    rw [PageStore.pinned_page, siblingCount]
    apply ensures_ite
    · intro more
      rw [count]
      apply ensures_bind
      apply ensures_mono (balances.borrowRight unevenThere isShort.few (by omega) (pins_rotated heldThree))
      rintro _ ⟨after, separators'⟩ ⟨⟨changed, replanted⟩, heldAfter⟩
      apply ensures_unpin_three heldAfter ⟨apart, shortTop, siblingTop⟩
      intro final finalPage finalLength released
      apply ensures_merge_none
      exact outcomesThere.done changed free final separators' (replanted_released replanted finalPage finalLength)
        released
    · intro few
      refine ensures_bind (ensures_index (ensures_unpin there (by simp) ?_))
      have heldTwo := pins_released heldThree (by simp [siblingTop, apart.symm])
      refine ensures_merge_siblings contract enough balances (short_of_same_pages isShort _ rfl rfl) positive sorted
        (outcomes_of_same_pages outcomes _ rfl) leftFull ?_ heldTwo
      rintro _ other others same
      obtain ⟨rfl, _⟩ := List.cons.inj same
      omega
  · intro none
    have none : ¬before.length < (store.page node.addr).n := none
    have noRights : behind = [] := List.length_eq_zero_iff.mp (by omega)
    obtain ⟨addr, rfl, resident, nonneg, notTop, notShort⟩ := spare noRights
    apply ensures_bind
    apply ensures_of_option rfl
    refine ensures_bind (ensures_index (ensures_unpin_resident resident nonneg ?_))
    have heldTwo : Pins (store.unpinned addr) [(node.addr, above), (short.addr height, here)] := by
      have released := pins_unpinned held addr
      simpa [notTop.symm, notShort.symm] using released
    refine ensures_merge_siblings contract enough balances (short_of_same_pages isShort _ rfl rfl) positive sorted
      (outcomes_of_same_pages outcomes _ rfl) leftFull ?_ heldTwo
    rintro _ other others same
    rw [noRights] at same
    cases same

theorem ensures_redistribute (contract : Contract represents records callbacks) (enough : 2 ≤ degree)
    (balances : Balances rel represents records degree handler height level)
    (isShort : Short records degree least outer separators store root free others orphans parent node before short
      behind lefts rights)
    (positive : 1 ≤ least) (sorted : Sorted (Tree.items (height + 1) node))
    (outcomes : Outcomes rel callbacks represents degree least root others orphans parent outer node store post)
    (held : Pins store [(short.addr height, here)]) :
    Ensures (Stands rel represents) (store, separators)
      (redistribute degree level ⟨here, short.addr height⟩)
      fun result final => Ensures (Stands rel represents) final (mergeLoop degree callbacks handler result) post := by
  have pin : store.pin (short.addr height) = some here := (held _ _).mpr (by simp)
  have member : short ∈ node.kids := by rw [isShort.kids]; simp
  have parentField : (store.page (short.addr height)).parent = node.addr :=
    holds_tree_parent (isShort.planted.holds.2 short member)
  have nodup := ledger_used_nodup isShort.planted.ledger
  rw [Tree.addrs_inner, Multiset.nodup_add, Multiset.nodup_cons] at nodup
  obtain ⟨⟨topOutside, kidsNodup⟩, _⟩ := nodup
  have shortTop : short.addr height ≠ node.addr := fun same =>
    topOutside (same ▸ mem_kid_addrs member (Tree.addr_mem_addrs short))
  have topInUse : node.addr ∈ Tree.addrs (height + 1) node + others := by simp
  have topUsed := ledger_used isShort.planted.ledger topInUse
  have page := short_page isShort
  have n := page.n
  rw [List.length_append, List.length_map, List.length_map] at n
  have rows := isShort.rows
  have arity := node.arity
  rw [isShort.kids, isShort.seps] at arity
  rw [isShort.seps] at rows
  simp only [List.length_append, List.length_cons] at arity rows
  have count := isShort.count
  have place : findChild (store.page node.addr) (short.addr height) = some before.length := by
    have topsNodup := tops_nodup kidsNodup
    rw [isShort.kids, List.map_append, List.map_cons] at topsNodup
    have found := find_child_found page topsNodup (by simp only [List.length_append, List.length_map]; omega)
    rwa [List.length_map] at found
  rw [redistribute]
  refine ensures_bind (ensures_index (ensures_load pin ?_))
  rw [parentField]
  refine ensures_bind (ensures_index (ensures_pin ⟨topUsed.1, topUsed.2.1, topUsed.2.2.1⟩ held (by simp [shortTop.symm])
    (show 1 < cachePage by decide) ?_))
  intro above heldTwo
  refine ensures_bind (ensures_index (ensures_load (by simp) ?_))
  rw [PageStore.pinned_page]
  refine ensures_bind (ensures_check (by rw [n]; omega) ?_)
  apply ensures_bind
  apply ensures_of_option place
  have shortThere := short_of_same_pages isShort (store.pinned node.addr above) rfl rfl
  apply ensures_ite
  · intro some
    obtain ⟨front, sibling, frontSeps, between, rfl, rfl⟩ := left_sibling isShort some
    have uneven := uneven_left shortThere
    have frontCount := uneven.neighbours.count
    obtain ⟨siblingTop, _, apart⟩ := neighbours_tops uneven.neighbours
    have index : (front ++ [sibling]).length = frontSeps.length + 1 := by simp [frontCount]
    have child : (store.page node.addr).child (frontSeps.length + 1 - 1) = sibling.addr height :=
      (neighbours_children uneven.neighbours).1
    have siblingUsed := (neighbours_in_file uneven.neighbours).1
    rw [index, child]
    refine ensures_bind (ensures_index (ensures_pin siblingUsed heldTwo ?_ (show 2 < cachePage by decide) ?_))
    · simp [siblingTop, apart]
    intro there heldThree
    have siblingCount : (store.page (sibling.addr height)).n = sibling.count height :=
      holds_tree_count (neighbours_first (uneven_left isShort).neighbours)
    let pinned := (store.pinned node.addr above).pinned (sibling.addr height) there
    have unevenThere := uneven_of_same_pages uneven pinned rfl rfl
    have outcomesThere := outcomes_of_same_pages outcomes pinned rfl
    refine ensures_bind (ensures_index (ensures_load (by simp) ?_))
    rw [PageStore.pinned_page, PageStore.pinned_page, siblingCount]
    apply ensures_ite
    · intro more
      have ordered := pins_perm heldThree (((List.Perm.swap _ _ _).cons _))
      apply ensures_bind
      apply ensures_mono (balances.borrowLeft unevenThere (by omega) isShort.few ordered)
      rintro _ ⟨after, separators'⟩ ⟨⟨changed, replanted⟩, heldAfter⟩
      apply ensures_unpin_three (pins_perm heldAfter (List.Perm.swap _ _ _)) ⟨apart.symm, shortTop, siblingTop⟩
      intro final finalPage finalLength released
      apply ensures_merge_none
      exact outcomesThere.done changed free final separators' (replanted_released replanted finalPage finalLength)
        released
    · intro few
      refine ensures_bind (ensures_index (ensures_unpin there (by simp) ?_))
      have heldBack := pins_released heldThree (by simp [siblingTop, apart])
      rw [← index]
      have shortBack := short_of_same_pages isShort (pinned.unpinned (sibling.addr height)) rfl rfl
      have outcomesBack := outcomes_of_same_pages outcomes (pinned.unpinned (sibling.addr height)) rfl
      refine ensures_try_right contract enough balances shortBack positive sorted outcomesBack ?_ ?_ heldBack
      · intro other last same
        obtain ⟨_, same⟩ := List.append_inj' same rfl
        obtain ⟨rfl, _⟩ := List.cons.inj same
        omega
      · intro _
        exact ⟨_, rfl, .inl rfl, siblingUsed.1, siblingTop, apart⟩
  · intro none
    have isNil : before = [] := List.length_eq_zero_iff.mp (by omega)
    refine ensures_try_right contract enough balances shortThere positive sorted (outcomes_of_same_pages outcomes _ rfl)
      ?_ ?_ heldTwo
    · intro front sibling same
      rw [isNil] at same
      simp at same
    · intro empty
      rw [isNil, empty] at arity
      simp only [List.length_nil] at arity
      omega

end Redistribution

/-- What follows when a row has left a leaf, or a row and a child an inner node. -/
def afterRemoval (degree : Nat) (callbacks : Callbacks Store) : Nat → PagePtr → Program (Index Store) Unit
  | 0, node => do
      let page ← onIndex (load node)
      if page.parent < 0 then onIndex (unpin node.addr)
      else if page.n < degree - 1 then
        let merged ← redistribute degree (leafLevel degree callbacks) node
        mergeLoop degree callbacks true merged
      else onIndex (unpin node.addr)
  | _ + 1, node => settle degree node >>= mergeLoop degree callbacks false

theorem ensures_after_removal {addr : Int} (contract : Contract represents records callbacks) (enough : 2 ≤ degree)
    (pin : store.pin addr = some here) (nonneg : 0 ≤ (store.page addr).parent)
    (short : ∀ handler level, Balances rel represents records degree handler height level →
      (store.page addr).n < degree - 1 →
      Ensures (Stands rel represents) (store, separators) (redistribute degree level ⟨here, addr⟩)
        fun result final => Ensures (Stands rel represents) final (mergeLoop degree callbacks handler result) post)
    (full : ¬(store.page addr).n < degree - 1 → post () (store.unpinned addr, separators)) :
    Ensures (Stands rel represents) (store, separators) (afterRemoval degree callbacks height ⟨here, addr⟩) post := by
  cases height with
  | zero =>
      rw [afterRemoval]
      refine ensures_bind (ensures_index (ensures_load pin ?_))
      rw [if_neg (by omega)]
      apply ensures_ite
      · intro few
        exact ensures_bind (short true _ (leaf_balances contract enough) few)
      · intro many
        exact ensures_index (ensures_unpin here pin (full many))
  | succ height =>
      rw [afterRemoval, settle]
      apply ensures_bind
      refine ensures_bind (ensures_index (ensures_load pin ?_))
      rw [if_pos nonneg]
      apply ensures_ite
      · intro few
        exact short false _ (inner_balances enough) few
      · intro many
        refine ensures_bind (ensures_index (ensures_unpin here pin ?_))
        exact ensures_pure _ (ensures_merge_none (full many))

section Below

variable {node : Inner Key height} {before behind : List (BTree Key height)} {kid changed : BTree Key height}
  {lefts rights : List (Entry Key)} {items : List (Item RID Key)} {rest : List Int}

/-- A child from which a row was removed, under its parent. -/
theorem ensures_mend_child (contract : Contract represents records callbacks) (enough : 2 ≤ degree)
    (planted : @Planted Key store root free others orphans parent (height + 1) node)
    (sized : Tree.Sized degree least (height + 1) node) (positive : 1 ≤ least)
    (kids : node.kids = before ++ kid :: behind) (seps : node.seps = lefts ++ rights)
    (count : before.length = lefts.length)
    (replanted : Replanted degree (degree - 1 - 1) root rest (around node.addr before behind others) orphans node.addr
      (outer + separatorsAround before behind lefts rights) items (kid.addr height) store after separators changed)
    (sorted : Sorted (joinHead (before.map (Tree.items height)) lefts ++ items ++
      joinTail rights (behind.map (Tree.items height))))
    (known : ∀ row ∈ rowsOf (joinHead (before.map (Tree.items height)) lefts ++ items ++
      joinTail rights (behind.map (Tree.items height))), row ∈ records)
    (held : Pins after [(kid.addr height, here)])
    (done : ∀ (whole : BTree Key (height + 1)) rest' final separators', Replanted degree least root rest' others
      orphans parent outer (joinHead (before.map (Tree.items height)) lefts ++ items ++
        joinTail rights (behind.map (Tree.items height))) node.addr store final separators' whole → Pins final [] →
      post () (final, separators'))
    (lowered : ∀ (whole : BTree Key (height + 1)) rest' final separators' frame, Replanted degree (least - 1) root
      rest' others orphans parent outer (joinHead (before.map (Tree.items height)) lefts ++ items ++
        joinTail rights (behind.map (Tree.items height))) node.addr store final separators' whole →
      Pins final [(node.addr, frame)] →
      Ensures (Stands rel represents) (final, separators')
        (afterRemoval degree callbacks (height + 1) ⟨frame, node.addr⟩) post) :
    Ensures (Stands rel represents) (after, separators)
      (afterRemoval degree callbacks height ⟨here, kid.addr height⟩) post := by
  have pin : after.pin (kid.addr height) = some here := (held _ _).mpr (by simp)
  have holds := replanted.planted.holds
  have topInUse : node.addr ∈ Tree.addrs (height + 1) node + others := by simp
  have topUsed := ledger_used planted.ledger topInUse
  have parentField : (after.page (kid.addr height)).parent = node.addr := by
    rw [← replanted.addr]
    exact holds_tree_parent holds
  have n : (after.page (kid.addr height)).n = changed.count height := by
    rw [← replanted.addr]
    exact holds_tree_count holds
  apply ensures_after_removal contract enough pin
  · rw [parentField]
    exact topUsed.1
  · intro handler level balances few
    rw [n] at few
    obtain ⟨whole, wholeAddr, wholeKids, wholeSeps, wholePlanted, reseparated, separated, kept⟩ :=
      parent_of_changed planted kids seps count replanted
    have isShort : Short records degree least outer separators after root rest others orphans parent whole before
        changed behind lefts rights := by
      refine ⟨wholePlanted, wholeKids, wholeSeps, count, ?_, ?_, ?_, few, ?_, separated⟩
      · rw [wholeSeps, ← seps]
        exact sized.1
      · intro sibling member
        apply sized.2 sibling
        rw [kids]
        simp
        tauto
      · apply Tree.sized_least replanted.sized
        have := (Tree.sized_count replanted.sized).1
        omega
      · rw [reseparated_rows reseparated]
        exact known
    have rebuilt : ∀ {fewer : Nat} {rest' : List Int} {final : IndexStore} {separators' : Multiset (Entry Key)}
        {whole' : BTree Key (height + 1)}, Replanted degree fewer root rest' others orphans parent outer
          (Tree.items (height + 1) whole) whole.addr after final separators' whole' →
        Replanted degree fewer root rest' others orphans parent outer
          (joinHead (before.map (Tree.items height)) lefts ++ items ++
            joinTail rights (behind.map (Tree.items height))) node.addr store final separators' whole' :=
      fun later => ⟨later.planted, later.addr.trans wholeAddr, later.sized, reseparated.trans later.items,
        later.separators, fun addr member => (later.kept addr member).trans (kept addr member)⟩
    rw [← replanted.addr] at held ⊢
    apply ensures_redistribute contract enough balances isShort positive (reseparated_sorted reseparated sorted) _ held
    constructor
    · intro whole' rest' final separators' replantedWhole released
      exact done whole' rest' final separators' (rebuilt replantedWhole) released
    · intro whole' rest' final separators' frame replantedWhole heldTop
      rw [wholeAddr] at heldTop ⊢
      exact lowered whole' rest' final separators' frame (rebuilt replantedWhole) heldTop
  · intro many
    rw [n] at many
    have replantedFull : Replanted degree (degree - 1) root rest (around node.addr before behind others) orphans
        node.addr (outer + separatorsAround before behind lefts rights) items (kid.addr height) store after separators
        changed :=
      ⟨replanted.planted, replanted.addr, Tree.sized_least replanted.sized (by omega), replanted.items,
        replanted.separators, replanted.kept⟩
    obtain ⟨whole, replantedWhole⟩ := replanted_parent planted sized kids seps count replantedFull
    exact done whole rest _ separators (replanted_released replantedWhole rfl rfl) (pins_released held (by simp))

end Below

def deleteIfHit (degree : Nat) (callbacks : Callbacks Store) (place : Place) : Program (Index Store) Unit :=
  if place.hit then deleteAtLeaf degree callbacks place else pure ()

theorem erase_key_between {entry row : Entry Key} {front back : List (Entry Key)} (own : row.2 = entry.2)
    (below : ∀ other ∈ front, other.2 < entry.2) (above : ∀ other ∈ back, entry.2 < other.2) :
    eraseKey entry.2 ((front ++ row :: back).map Item.row) = (front ++ back).map Item.row := by
  have frontAbsent : ∀ other ∈ rowsOf (front.map Item.row : List (Item RID Key)), other.2 ≠ entry.2 := by
    rw [rows_of_map_row]
    exact fun other member => ne_of_lt (below other member)
  have backAbsent : ∀ other ∈ rowsOf (back.map Item.row : List (Item RID Key)), other.2 ≠ entry.2 := by
    rw [rows_of_map_row]
    exact fun other member => (ne_of_lt (above other member)).symm
  rw [List.map_append, List.map_cons, erase_key_append, eraseKey, if_pos own, erase_key_absent frontAbsent,
    erase_key_absent backAbsent, List.map_append]

theorem ensures_delete_at_leaf {entry : Entry Key} {leaf : Leaf Key} {front back : List (Entry Key)} {row : Entry Key}
    (planted : @Planted Key store root free others orphans parent 0 leaf) (sized : Tree.Sized degree least 0 leaf)
    (rows : leaf.rows = front ++ row :: back) (own : row.2 = entry.2)
    (below : ∀ other ∈ front, other.2 < entry.2) (above : ∀ other ∈ back, entry.2 < other.2)
    (held : Pins store [(leaf.addr, here)])
    (lowered : ∀ (changed : BTree Key 0) final, Replanted degree (least - 1) root free others orphans parent
      separators (eraseKey entry.2 (Tree.items 0 leaf)) leaf.addr store final separators changed →
      Pins final [(leaf.addr, here)] →
      Ensures (Stands rel represents) (final, separators) (afterRemoval degree callbacks 0 ⟨here, leaf.addr⟩) post) :
    Ensures (Stands rel represents) (store, separators)
      (deleteAtLeaf degree callbacks ⟨⟨here, leaf.addr⟩, front.length, true⟩) post := by
  have pin : store.pin leaf.addr = some here := (held _ _).mpr (by simp)
  have holds := planted.holds
  rw [holds_leaf, rows, List.map_append, List.map_cons] at holds
  have removed := holds_remove_row holds
  rw [List.length_map] at removed
  rw [deleteAtLeaf]
  refine ensures_bind (ensures_index (ensures_amend pin ?_))
  refine lowered ⟨leaf.addr, front ++ back⟩ _ (leaf_replanted planted ?_ rfl ?_ ?_ ?_) held
  · intro addr different
    simp [different]
  · simpa using removed
  · rw [Tree.sized_leaf, rows] at sized
    simp only [List.length_append, List.length_cons] at *
    omega
  · rw [Tree.items_leaf, rows, erase_key_between own below above]

theorem ensures_delete_below (contract : Contract represents records callbacks) (enough : 2 ≤ degree)
    {entry : Entry Key} (recorded : entry ∈ records) {height : Nat} {tree : BTree Key height}
    (planted : Planted store root free others orphans parent tree)
    (sized : tree.Sized degree least height) (positive : 0 < height → 1 ≤ least)
    (sorted : Sorted (tree.items height)) (present : ∃ row ∈ rowsOf (tree.items height), row.2 = entry.2)
    (known : ∀ row ∈ rowsOf (tree.items height), row ∈ records)
    (held : Pins store [(tree.addr height, here)])
    (separated : separators = outer + separatorsOf (tree.items height))
    (done : ∀ (changed : BTree Key height) rest final separators', Replanted degree least root rest others orphans
      parent outer (eraseKey entry.2 (tree.items height)) (tree.addr height) store final separators' changed →
      Pins final [] → post () (final, separators'))
    (lowered : ∀ (changed : BTree Key height) rest final separators' frame, Replanted degree (least - 1) root rest
      others orphans parent outer (eraseKey entry.2 (tree.items height)) (tree.addr height) store final separators'
        changed → Pins final [(tree.addr height, frame)] →
      Ensures (Stands rel represents) (final, separators')
        (afterRemoval degree callbacks height ⟨frame, tree.addr height⟩) post) :
    Ensures (Stands rel represents) (store, separators)
      (descend degree (callbacks.cmp entry.1) ⟨here, tree.addr height⟩ >>= deleteIfHit degree callbacks) post := by
  have compares := contract_compares contract recorded known separated
  induction height generalizing parent store here least others outer free with
  | zero =>
      have pin : store.pin (Tree.addr 0 tree) = some here := (held _ _).mpr (by simp)
      have outerAll : separators = outer := by
        rw [separated, Tree.items_leaf, separators_of_map_row]
        simp
      subst outerAll
      obtain ⟨row, member, own⟩ := present
      rw [Tree.items_leaf, rows_of_map_row] at member
      apply ensures_descend_leaf planted.holds sized.2 sorted pin (compares_rows compares)
      intro lefts rights hit rows below above isHit
      have increasing := sorted
      rw [Tree.items_leaf, Sorted, List.pairwise_map, rows] at increasing
      have rightsSorted := (List.pairwise_append.mp increasing).2.1
      have inRights : row ∈ rights := by
        rw [rows] at member
        exact (List.mem_append.mp member).resolve_left fun inLefts => ne_of_lt (below row inLefts) own
      have isFirst := first_has_of_mem rightsSorted above inRights own
      obtain rfl : hit = true := isHit.mpr isFirst
      obtain ⟨first, rest, rfl, firstOwn⟩ := isFirst
      rw [deleteIfHit, if_pos rfl]
      apply ensures_delete_at_leaf planted sized rows firstOwn below
      · intro other later
        rw [← firstOwn]
        exact (List.pairwise_cons.mp rightsSorted).1 other later
      · exact held
      · intro changed final replanted heldLeaf
        exact lowered changed free final _ here replanted heldLeaf
  | succ height ih =>
      apply ensures_descend_inner planted.holds sized.1.2 sorted (planted_kids_in_file planted) held
        (compares_seps compares)
      intro before kid behind lefts rights below after kids seps count counts atMost greater page length heldKid
      have member : kid ∈ tree.kids := by
        rw [kids]
        simp
      have items := node_items kids seps count
      obtain ⟨infront, later, kidSorted⟩ := around_child entry kids seps count sorted atMost greater
      obtain ⟨frontRows, backRows⟩ := rows_around_child infront later
      have erased : eraseKey entry.2 (Tree.items (height + 1) tree) =
          joinHead (before.map (Tree.items height)) lefts ++ eraseKey entry.2 (kid.items height) ++
            joinTail rights (behind.map (Tree.items height)) := by
        rw [items, erase_key_append, erase_key_append, erase_key_absent frontRows, erase_key_absent backRows]
      have erasedSorted : Sorted (eraseKey entry.2 (Tree.items (height + 1) tree)) :=
        sorted.sublist (erase_key_sublist _ _)
      have erasedKnown : ∀ row ∈ rowsOf (eraseKey entry.2 (Tree.items (height + 1) tree)), row ∈ records := by
        intro row inside
        rw [rows_of_erase_key] at inside
        exact known row (List.mem_of_mem_filter inside)
      rw [erased] at done lowered erasedSorted erasedKnown
      have kidPresent : ∃ row ∈ rowsOf (kid.items height), row.2 = entry.2 := by
        obtain ⟨row, inside, own⟩ := present
        rw [items, rows_of_append, rows_of_append, List.mem_append, List.mem_append] at inside
        rcases inside with (inFront | inKid) | inBack
        · exact absurd own (frontRows row inFront)
        · exact ⟨row, inKid, own⟩
        · exact absurd own (backRows row inBack)
      have plantedThere := planted_of_same_pages planted page length
      apply @ih (degree - 1) (outer + separatorsAround before behind lefts rights) after tree.addr free
        (around tree.addr before behind others) below kid (planted_child plantedThere kids) (sized.2 kid member)
        (fun _ => by omega) kidSorted kidPresent
      · intro row inKid
        apply known row
        rw [items, rows_of_append, rows_of_append, List.mem_append, List.mem_append]
        exact .inl (.inr inKid)
      · exact heldKid
      · rw [separated, items, separatorsAround]
        simp only [separators_of_append, ← Multiset.coe_add]
        abel
      · intro changed rest final separators' replanted released
        obtain ⟨whole, replantedAbove⟩ := replanted_parent plantedThere sized kids seps count replanted
        exact done whole rest final separators' (replanted_of_same_pages replantedAbove page) released
      · intro changed rest final separators' frame replanted heldFinal
        apply ensures_mend_child contract enough plantedThere sized (positive (Nat.succ_pos _)) kids seps count
          replanted erasedSorted erasedKnown heldFinal
        · intro whole rest' last separators'' replantedWhole released
          exact done whole rest' last separators'' (replanted_of_same_pages replantedWhole page) released
        · intro whole rest' last separators'' above replantedWhole heldTop
          exact lowered whole rest' last separators'' above (replanted_of_same_pages replantedWhole page) heldTop
      · exact compares_part items compares

omit [LinearOrder Key] in
theorem ensures_shrink_root {items : List (Item RID Key)} {whole : Inner Key height} {kid : BTree Key height}
    {start : IndexStore} {top : Int} {result : Unit → IndexStore → Prop}
    (replanted : @Replanted Key degree 0 root free 0 orphans (-1) outer items top start store separators (height + 1)
      whole)
    (kids : whole.kids = [kid]) (seps : whole.seps = []) (held : Pins store [(whole.addr, here)])
    (continues : ∀ rest final, Replanted degree (degree - 1) (kid.addr height) rest 0 orphans (-1) outer items
      (kid.addr height) final final separators kid → Pins final [] → result () final) :
    Ensures rel store (shrinkRoot ⟨here, whole.addr⟩) result := by
  have ledger := replanted.planted.ledger
  obtain ⟨own, each⟩ := replanted.planted.holds
  have used : Tree.addrs (height + 1) whole + 0 = whole.addr ::ₘ kid.addrs height := by simp [kids]
  rw [used] at ledger
  have nodup := ledger_used_nodup ledger
  rw [Multiset.nodup_cons] at nodup
  have kidIn : kid.addr height ∈ kid.addrs height := Tree.addr_mem_addrs kid
  have kidUsed := ledger_used ledger (Multiset.mem_cons_of_mem kidIn)
  have topUsed := ledger_used ledger (Multiset.mem_cons_self whole.addr _)
  have pin : store.pin whole.addr = some here := (held _ _).mpr (by simp)
  have child : (store.page whole.addr).child 0 = kid.addr height := by
    have reads := own.kids
    rw [kids] at reads
    exact reads 0 (by simp)
  have notControl : ∀ addr ∈ whole.addr ::ₘ kid.addrs height, addr ≠ 0 := fun addr member =>
    (ledger_used ledger member).2.2.2.1
  rw [shrinkRoot]
  refine ensures_bind (ensures_load pin ?_)
  rw [child]
  refine ensures_bind (ensures_pin (control_in_file ledger) held (by simp [topUsed.2.2.2.1.symm])
    (show 1 < cachePage by decide) ?_)
  intro ctr heldControl
  refine ensures_bind (ensures_amend (by simp) ?_)
  refine ensures_bind (ensures_unpin ctr (by simp) ?_)
  have heldTop := pins_released heldControl (by simp [topUsed.2.2.2.1.symm])
  rw [PageStore.pinned_page]
  have ledgerRooted : Ledger (Function.update store.page 0 (setRootNode (kid.addr height) (store.page 0)))
      store.length (kid.addr height) free (whole.addr ::ₘ kid.addrs height) orphans := by
    apply ledger_rooted ledger kidUsed.1
    · simp
    · intro addr notZero _
      simp [notZero]
  apply ensures_bind
  refine ensures_release_new_b_node ledgerRooted heldTop (by simp) (show 0 + 1 < cachePage by decide) ?_
  intro rest after same accounted
  have kidFile := ledger_used accounted.ledger kidIn
  apply ensures_reparent ⟨kidFile.1, kidFile.2.1, kidFile.2.2.1⟩ accounted.held (by simp)
    (show 0 < cachePage by decide)
  intro final page length released
  have pages : ∀ addr ∈ kid.addrs height, after.page addr = store.page addr := by
    intro addr member
    rw [same addr member]
    exact Function.update_of_ne (notControl addr (Multiset.mem_cons_of_mem member)) _ _
  have items : Tree.items (height + 1) whole = kid.items height := by
    rw [Tree.items_inner, kids, seps]
    simp [join, joinTail]
  have kidSized := replanted.sized.2 kid (by rw [kids]; simp)
  refine continues rest final ⟨⟨?_, ?_⟩, rfl, kidSized, ?_, ?_, fun _ _ => rfl⟩ released
  · rw [add_zero, length]
    apply ledger_frame accounted.ledger
    intro addr outside
    have different : addr ≠ kid.addr height := fun same => outside (same ▸ kidIn)
    rw [page, Function.update_of_ne different]
  · apply holds_tree_reparent nodup.2 _ _ (each kid (by rw [kids]; simp))
    · rw [page, Function.update_self, pages _ kidIn]
    · intro addr member notTop
      rw [page, Function.update_of_ne notTop, pages addr member]
  · rw [← items]
    exact replanted.items
  · rw [← items]
    exact replanted.separators

theorem ensures_settle_root {items : List (Item RID Key)} {whole : BTree Key height} {start : IndexStore} {top : Int}
    (enough : 2 ≤ degree) (sorted : Sorted items)
    (replanted : Replanted degree (min height 1 - 1) top free 0 orphans (-1) 0 items top start store separators whole)
    (held : Pins store [(top, here)])
    (continues : ∀ final, HoldsIndex degree (rowsOf items) separators orphans final → post () (final, separators)) :
    Ensures (Stands rel represents) (store, separators) (afterRemoval degree callbacks height ⟨here, top⟩) post := by
  have pin : store.pin top = some here := (held _ _).mpr (by simp)
  have parentField : (store.page top).parent = -1 := by
    rw [← replanted.addr]
    exact holds_tree_parent replanted.planted.holds
  have n : (store.page top).n = whole.count height := by
    rw [← replanted.addr]
    exact holds_tree_count replanted.planted.holds
  have rooted : min height 1 ≤ whole.count height → post () (store.unpinned top, separators) := by
    intro rows
    apply continues
    have replantedFull : Replanted degree (min height 1) top free 0 orphans (-1) 0 items top start store separators
        whole :=
      ⟨replanted.planted, replanted.addr, Tree.sized_least replanted.sized rows, replanted.items,
        replanted.separators, replanted.kept⟩
    exact index_of_replanted (replanted_released replantedFull rfl rfl) sorted (pins_released held (by simp))
  cases height with
  | zero =>
      rw [afterRemoval]
      refine ensures_bind (ensures_index (ensures_load pin ?_))
      rw [parentField, if_pos (by omega)]
      exact ensures_index (ensures_unpin here pin (rooted (by simp)))
  | succ height =>
      rw [afterRemoval, settle]
      apply ensures_bind
      refine ensures_bind (ensures_index (ensures_load pin ?_))
      rw [parentField, if_neg (by omega), n]
      apply ensures_ite
      · intro empty
        have topmost : whole.addr = top := replanted.addr
        have seps : whole.seps = [] := List.length_eq_zero_iff.mp empty
        obtain ⟨kid, kids⟩ : ∃ kid, whole.kids = [kid] := by
          have arity := whole.arity
          rw [seps] at arity
          exact List.length_eq_one_iff.mp arity
        rw [← topmost] at held ⊢
        have least : min (height + 1) 1 - 1 = 0 := by omega
        rw [least] at replanted
        apply ensures_bind
        apply ensures_index
        apply ensures_shrink_root replanted kids seps held
        intro rest final replantedKid released
        apply ensures_pure
        apply ensures_merge_none
        apply continues
        have size := (Tree.sized_count replantedKid.sized).1
        have replantedRoot : Replanted degree (min height 1) (kid.addr height) rest 0 orphans (-1) 0 items
            (kid.addr height) final final separators kid :=
          ⟨replantedKid.planted, rfl, Tree.sized_least replantedKid.sized (by omega), replantedKid.items,
            replantedKid.separators, replantedKid.kept⟩
        exact index_of_replanted replantedRoot sorted released
      · intro some
        have some : ¬Tree.count (height + 1) whole = 0 := some
        refine ensures_bind (ensures_index (ensures_unpin here pin ?_))
        exact ensures_pure _ (ensures_merge_none (rooted (by omega)))

theorem ensures_b_tree_delete (contract : Contract represents records callbacks) (enough : 2 ≤ degree)
    {entry : Entry Key} {rows : Multiset (Entry Key)}
    (index : HoldsIndex degree rows separators orphans store) (recorded : entry ∈ records)
    (known : ∀ row ∈ rows, row ∈ records) (present : ∃ row ∈ rows, row.2 = entry.2)
    (continues : ∀ separators' final, HoldsIndex degree (rows.filter fun row => row.2 ≠ entry.2) separators' orphans
      final → post () (final, separators')) :
    Ensures (Stands rel represents) (store, separators) (bTreeDelete degree callbacks entry.1) post := by
  obtain ⟨height, tree, free, shape, held, rfl, separated⟩ := index
  have erasedSorted : Sorted (eraseKey entry.2 (tree.items height)) := shape.sorted.sublist (erase_key_sublist _ _)
  have rows : ((rowsOf (tree.items height) : List (Entry Key)) : Multiset (Entry Key)).filter
      (fun row => row.2 ≠ entry.2) = rowsOf (eraseKey entry.2 (tree.items height)) := by
    rw [rows_of_erase_key, Multiset.filter_coe]
  rw [rows] at continues
  rw [bTreeDelete]
  apply ensures_bind
  apply ensures_fetch_root shape.ledger (Tree.addr_mem_addrs tree) held
  intro frame after page length heldRoot
  have planted := planted_of_same_pages (planted_of_index shape) page length
  refine ensures_delete_below contract enough recorded planted shape.sized ?_ shape.sorted present known heldRoot
    (by rw [separated, zero_add]) ?_ ?_
  · intro inner
    omega
  · intro changed rest final separators' replanted released
    exact continues separators' final (index_of_replanted replanted erasedSorted released)
  · intro changed rest final separators' frame replanted heldFinal
    apply ensures_settle_root enough erasedSorted replanted heldFinal
    intro last index
    exact continues separators' last index

end Deletion

end MyJQL.BTreeDeletion
