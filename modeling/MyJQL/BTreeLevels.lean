import MyJQL.BTreeNeighbours

/-!
# Borrowing and merging

A node that is one row short takes a row from a neighbour that can spare one, or the two are merged.
Between leaves a row is moved and the separator is made anew. Between inner nodes rows go round over
the parent, and all separators stay.
-/

namespace MyJQL.BTreeLevels

open MyJQL.FileIo
open MyJQL.BufferPoolModel
open MyJQL.StateProgram
open MyJQL.PageStoreLogic
open MyJQL.ArrayLoops
open MyJQL.TableModel
open MyJQL.SearchTrees
open MyJQL.BTreeModel
open MyJQL.BTreeLayout
open MyJQL.BTreePages
open MyJQL.BTreeEdits
open MyJQL.BTreeSearch
open MyJQL.BTreeSubtrees
open MyJQL.BTreeNeighbours

set_option autoImplicit false

variable {Key Store : Type} [LinearOrder Key]

section Levels

variable {rel : IndexStore → IndexPool → Prop} [CutRules rel] {represents : Multiset (Entry Key) → Store → Prop}
  {records : Multiset (Entry Key)} {callbacks : Callbacks Store} {degree least : Nat}
  {outer separators : Multiset (Entry Key)} {store : IndexStore} {root parent : Int} {free : List Int}
  {others orphans : Multiset Int}
  {lefts rights : List (Entry Key)} {between : Entry Key} {here there above : Frame}

omit [LinearOrder Key] in
theorem ensures_retire {first second top : Int} {used : Multiset Int} {post : Unit → IndexStore → Prop}
    (ledger : Ledger store.page store.length root free (second ::ₘ used) orphans)
    (held : Pins store [(first, there), (second, here), (top, above)]) (firstUsed : first ∈ used)
    (topUsed : top ∈ used) (different : first ≠ top)
    (continues : ∀ rest after, (∀ other ∈ used, after.page other = store.page other) →
      Ledger after.page after.length root rest used orphans → Pins after [(top, above)] → post () after) :
    Ensures rel store (do releaseNewBNode second; unpin first) post := by
  have reordered : Pins store [(second, here), (first, there), (top, above)] :=
    pins_perm held (List.Perm.swap _ _ _)
  apply ensures_bind
  apply ensures_release_new_b_node ledger reordered
  · intro other member
    simp only [List.map_cons, List.map_nil, List.mem_cons, List.not_mem_nil, or_false] at member
    rcases member with rfl | rfl
    · exact firstUsed
    · exact topUsed
  · show 2 + 1 < cachePage
    decide
  intro rest after same accounted
  refine ensures_unpin there ((accounted.held _ _).mpr (by simp)) ?_
  have released := pins_released accounted.held (by simpa using different)
  exact continues rest (after.unpinned first) same accounted.ledger released

theorem ensures_renew_row {post : Unit → IndexStore × Multiset (Entry Key) → Prop} {top : Int} {i : Nat}
    {moved : Entry Key} (contract : Contract represents records callbacks) (pin : store.pin top = some above)
    (row : (store.page top).rowPtr i = between.1) (placed : between ∈ separators) (recorded : moved ∈ records)
    (continues : ∀ copy, post () (store.written top (setRow i copy (store.page top)),
      (copy, moved.2) ::ₘ separators.erase between)) :
    Ensures (Stands rel represents) (store, separators) (renewRow callbacks ⟨above, top⟩ i moved.1) post := by
  rw [renewRow]
  refine ensures_bind (ensures_index (ensures_load pin ?_))
  rw [row]
  apply ensures_bind
  apply ensures_store
  apply ensures_mono (contract.deleteHandler placed)
  rintro _ _ rfl
  apply ensures_bind
  apply ensures_store
  apply ensures_mono (contract.insertHandler (Multiset.mem_add.mpr (.inl recorded)))
  rintro copy _ rfl
  exact ensures_index (ensures_amend pin (continues copy))

section Leaves

variable {whole : Inner Key 0} {before behind : List (BTree Key 0)} {first second : BTree Key 0}

theorem leaves_rebalanced (firstRows secondRows : List (Entry Key)) {after : IndexStore} {copy : RID} {key : Key}
    (uneven : Uneven records degree least outer separators store root free others orphans parent whole before first
      second behind lefts between rights)
    (pages : ∀ addr, addr ≠ whole.addr → addr ≠ first.addr → addr ≠ second.addr →
      after.page addr = store.page addr) (length : after.length = store.length)
    (own : after.page whole.addr = setRow lefts.length copy (store.page whole.addr))
    (holdsFirst : HoldsNode (after.page first.addr) true whole.addr (firstRows.map Prod.fst) [])
    (holdsSecond : HoldsNode (after.page second.addr) true whole.addr (secondRows.map Prod.fst) [])
    (firstCount : degree - 1 ≤ firstRows.length ∧ firstRows.length ≤ 2 * degree - 1)
    (secondCount : degree - 1 ≤ secondRows.length ∧ secondRows.length ≤ 2 * degree - 1)
    (items : Reseparated (first.rows.map .row ++ .separator between :: second.rows.map .row)
      (firstRows.map .row ++ .separator (copy, key) :: secondRows.map .row)) :
    Rebalanced degree least root free others orphans parent outer whole store
      (after, (copy, key) ::ₘ separators.erase between) := by
  have neighbours := uneven.neighbours
  obtain ⟨_, _, _, outside, fresh⟩ := neighbours_apart neighbours
  have firstIn : first.addr ∈ Tree.addrs 0 first + Tree.addrs 0 second := by simp
  have secondIn : second.addr ∈ Tree.addrs 0 first + Tree.addrs 0 second := by simp
  have page : HoldsNode (store.page whole.addr) false parent _ _ := neighbours_page neighbours
  have edited := holds_set_row copy page
  rw [List.length_map] at edited
  let first' : Leaf Key := ⟨first.addr, firstRows⟩
  let second' : Leaf Key := ⟨second.addr, secondRows⟩
  have holdsFirst : HoldsTree after.page 0 whole.addr first' := holdsFirst
  have holdsSecond : HoldsTree after.page 0 whole.addr second' := holdsSecond
  have items : Reseparated (Tree.items 0 first ++ .separator between :: Tree.items 0 second)
      (Tree.items 0 first' ++ .separator (copy, key) :: Tree.items 0 second') := items
  refine neighbours_replanted neighbours uneven.rows uneven.siblings ?_ ?_ holdsFirst holdsSecond rfl rfl
    firstCount secondCount ?_ items ?_
  · rw [length]
    apply ledger_frame (neighbours_ledger neighbours)
    intro addr notUsed
    simp only [Tree.addrs_leaf, around, Multiset.mem_add, Multiset.mem_cons, Multiset.mem_singleton, not_or]
      at notUsed
    exact pages addr notUsed.2.1 notUsed.1.1 notUsed.1.2
  · rw [own]
    exact edited
  · intro addr member
    apply pages addr
    · rintro rfl
      exact fresh member
    · rintro rfl
      exact (outside _ firstIn).2 member
    · rintro rfl
      exact (outside _ secondIn).2 member
  · have placed := uneven_separators uneven
    simp only [Tree.items_leaf, separators_of_map_row, Multiset.coe_nil, zero_add, first', second'] at placed ⊢
    rw [placed, Multiset.erase_add_right_pos _ (by simp), Multiset.erase_cons_head, Multiset.add_cons,
      add_zero]

theorem ensures_leaf_borrow_left (contract : Contract represents records callbacks) (enough : 2 ≤ degree)
    (uneven : Uneven records degree least outer separators store root free others orphans parent whole before first
      second behind lefts between rights)
    (more : degree ≤ Tree.count 0 first) (short : Tree.count 0 second < degree - 1)
    (held : Pins store [(first.addr 0, there), (second.addr 0, here), (whole.addr, above)]) :
    Ensures (Stands rel represents) (store, separators)
      ((leafLevel degree callbacks).borrowLeft ⟨here, second.addr 0⟩ ⟨there, first.addr 0⟩ ⟨above, whole.addr⟩
        (lefts.length + 1))
      fun _ final => Rebalanced degree least root free others orphans parent outer whole store final ∧
        Pins final.1 [(first.addr 0, there), (second.addr 0, here), (whole.addr, above)] := by
  have neighbours := uneven.neighbours
  obtain ⟨firstTop, secondTop, apart⟩ := neighbours_tops neighbours
  rw [Tree.addr_leaf] at firstTop secondTop apart
  rw [Tree.addr_leaf] at apart
  have firstPin : store.pin (first.addr 0) = some there := (held _ _).mpr (by simp)
  have secondPin : store.pin (second.addr 0) = some here := (held _ _).mpr (by simp)
  have topPin : store.pin whole.addr = some above := (held _ _).mpr (by simp)
  -- two rows at least stay, so the new separator has a row on its left
  obtain ⟨front, last, moved, rows⟩ : ∃ front last moved, first.rows = front ++ [last] ++ [moved] := by
    rw [Tree.count_leaf] at more
    rcases List.eq_nil_or_concat' first.rows with none | ⟨most, moved, shape⟩
    · rw [none, List.length_nil] at more
      omega
    · rcases List.eq_nil_or_concat' most with none | ⟨front, last, most⟩
      · rw [shape, none] at more
        simp only [List.nil_append, List.length_singleton] at more
        omega
      · exact ⟨front, last, moved, by rw [shape, most]⟩
  have firstPage : HoldsNode (store.page (first.addr 0)) true whole.addr
      ((front ++ [last]).map Prod.fst ++ [moved.1]) ([] ++ []) := by
    have holds := neighbours_first neighbours
    rw [holds_leaf, rows, @List.map_append _ _ _ _ [moved]] at holds
    exact holds
  have secondPage : HoldsNode (store.page (second.addr 0)) true whole.addr (second.rows.map Prod.fst) [] :=
    neighbours_second neighbours
  have n : (store.page (first.addr 0)).n - 1 = (front ++ [last]).length := by
    rw [firstPage.n]
    simp
  have row : (store.page (first.addr 0)).rowPtr (front ++ [last]).length = moved.1 := by
    have reads := reads_middle firstPage.rows
    rwa [List.length_map] at reads
  have betweenRow := neighbours_row neighbours
  have recorded : moved ∈ records := by
    apply uneven_known uneven (.inl _)
    rw [Tree.items_leaf, rows_of_map_row, rows]
    simp
  have sizes := uneven.first
  have sizes' := uneven.second
  rw [Tree.sized_leaf, rows] at sizes
  rw [Tree.sized_leaf] at sizes'
  rw [Tree.count_leaf, rows] at more
  rw [Tree.count_leaf] at short
  simp only [List.length_append, List.length_singleton] at sizes more
  simp only [leafLevel]
  refine ensures_bind (ensures_index (ensures_load firstPin ?_))
  rw [n, row]
  refine ensures_bind (ensures_index (ensures_amend secondPin ?_))
  refine ensures_bind (ensures_index (ensures_amend firstPin ?_))
  rw [Nat.add_sub_cancel]
  refine ensures_renew_row contract topPin ?_ (uneven_between uneven) recorded ?_
  · simpa [firstTop.symm, secondTop.symm] using betweenRow
  · intro copy
    refine ⟨leaves_rebalanced (front ++ [last]) (moved :: second.rows) uneven ?_ rfl ?_ ?_ ?_ ?_ ?_ ?_, held⟩
    · intro addr notTop notFirst notSecond
      rw [Tree.addr_leaf] at notFirst notSecond
      simp [notTop, notFirst, notSecond]
    · simp [firstTop.symm, secondTop.symm]
    · simpa [firstTop, apart] using holds_set_count firstPage rfl
    · simpa [secondTop, apart.symm] using holds_push_row moved.1 secondPage
    · simp only [List.length_append, List.length_singleton]
      omega
    · simp only [List.length_cons]
      omega
    · rw [rows]
      simp only [List.map_append, List.map_cons, List.map_nil, List.append_assoc, List.cons_append,
        List.nil_append]
      have same : front.map Item.row ++ [.row last, .row moved] ++ second.rows.map Item.row =
          front.map Item.row ++ .row last :: .row moved :: second.rows.map Item.row := by simp
      have moves := @separator_moved _ _ _ _ _ _ between _ _ copy same
      simpa using moves

theorem ensures_leaf_borrow_right (contract : Contract represents records callbacks) (enough : 2 ≤ degree)
    (uneven : Uneven records degree least outer separators store root free others orphans parent whole before first
      second behind lefts between rights)
    (short : Tree.count 0 first < degree - 1) (more : degree ≤ Tree.count 0 second)
    (held : Pins store [(first.addr 0, here), (second.addr 0, there), (whole.addr, above)]) :
    Ensures (Stands rel represents) (store, separators)
      ((leafLevel degree callbacks).borrowRight ⟨here, first.addr 0⟩ ⟨there, second.addr 0⟩ ⟨above, whole.addr⟩
        lefts.length)
      fun _ final => Rebalanced degree least root free others orphans parent outer whole store final ∧
        Pins final.1 [(first.addr 0, here), (second.addr 0, there), (whole.addr, above)] := by
  have neighbours := uneven.neighbours
  obtain ⟨firstTop, secondTop, apart⟩ := neighbours_tops neighbours
  rw [Tree.addr_leaf] at firstTop secondTop apart
  rw [Tree.addr_leaf] at apart
  have firstPin : store.pin (first.addr 0) = some here := (held _ _).mpr (by simp)
  have secondPin : store.pin (second.addr 0) = some there := (held _ _).mpr (by simp)
  have topPin : store.pin whole.addr = some above := (held _ _).mpr (by simp)
  rw [Tree.count_leaf] at more short
  -- the first of the rows that stay is the one that is copied
  obtain ⟨moved, next, rest, rows⟩ : ∃ moved next rest, second.rows = moved :: next :: rest := by
    cases shape : second.rows with
    | nil =>
        rw [shape, List.length_nil] at more
        omega
    | cons moved tail =>
        cases tail with
        | nil =>
            rw [shape, List.length_singleton] at more
            omega
        | cons next rest => exact ⟨moved, next, rest, rfl⟩
  have firstPage : HoldsNode (store.page (first.addr 0)) true whole.addr (first.rows.map Prod.fst) [] :=
    neighbours_first neighbours
  have secondPage : HoldsNode (store.page (second.addr 0)) true whole.addr
      (moved.1 :: (next :: rest).map Prod.fst) [] := by
    have holds := neighbours_second neighbours
    rw [holds_leaf, rows, List.map_cons] at holds
    exact holds
  have dropped := holds_drop_row secondPage
  have row : (store.page (second.addr 0)).rowPtr 0 = moved.1 := secondPage.rows 0 (by simp)
  have nextRow : (dropRow (store.page (second.addr 0))).rowPtr 0 = next.1 := dropped.rows 0 (by simp)
  have betweenRow := neighbours_row neighbours
  have recorded : next ∈ records := by
    apply uneven_known uneven (.inr _)
    rw [Tree.items_leaf, rows_of_map_row, rows]
    simp
  have sizes := uneven.first
  have sizes' := uneven.second
  rw [Tree.sized_leaf] at sizes
  rw [Tree.sized_leaf, rows] at sizes'
  rw [rows] at more
  simp only [List.length_cons] at sizes' more
  simp only [leafLevel]
  refine ensures_bind (ensures_index (ensures_load secondPin ?_))
  rw [row]
  refine ensures_bind (ensures_index (ensures_amend firstPin ?_))
  refine ensures_bind (ensures_index (ensures_amend secondPin ?_))
  refine ensures_bind (ensures_index (ensures_load secondPin ?_))
  simp only [PageStore.written_page, if_true, Tree.addr_leaf, if_neg apart.symm]
  rw [Tree.addr_leaf] at nextRow
  rw [nextRow]
  refine ensures_renew_row contract topPin ?_ (uneven_between uneven) recorded ?_
  · simpa [firstTop.symm, secondTop.symm] using betweenRow
  · intro copy
    refine ⟨leaves_rebalanced (first.rows ++ [moved]) (next :: rest) uneven ?_ rfl ?_ ?_ ?_ ?_ ?_ ?_, held⟩
    · intro addr notTop notFirst notSecond
      rw [Tree.addr_leaf] at notFirst notSecond
      simp [notTop, notFirst, notSecond]
    · simp [firstTop.symm, secondTop.symm]
    · simpa [firstTop, apart] using holds_add_row moved.1 firstPage
    · simpa [secondTop] using dropped
    · simp only [List.length_append, List.length_singleton]
      omega
    · simp only [List.length_cons]
      omega
    · rw [rows]
      have same : first.rows.map Item.row ++ (moved :: next :: rest).map Item.row =
          first.rows.map Item.row ++ .row moved :: .row next :: rest.map Item.row := by simp
      have moves := @separator_moved _ _ _ _ _ _ between _ _ copy same
      simpa using moves

omit [LinearOrder Key] in
theorem ensures_leaf_merge {rid : RID}
    (uneven : Uneven records degree least outer separators store root free others orphans parent whole before first
      second behind lefts between rights)
    (sizes : degree - 1 ≤ Tree.count 0 first + Tree.count 0 second)
    (fits : Tree.count 0 first + Tree.count 0 second + 1 ≤ 2 * degree - 1)
    (held : Pins store [(first.addr 0, there), (second.addr 0, here), (whole.addr, above)]) :
    Ensures (Stands rel represents) (store, separators)
      ((leafLevel degree callbacks).merge ⟨there, first.addr 0⟩ ⟨here, second.addr 0⟩ rid)
      fun _ final => final.2 = separators ∧ Pins final.1 [(whole.addr, above)] ∧
        ∃ rest, ∃ merged : BTree Key 0, Merged degree true root rest others orphans whole before first second behind
          between store final.1 merged := by
  have neighbours := uneven.neighbours
  obtain ⟨firstTop, secondTop, apart⟩ := neighbours_tops neighbours
  rw [Tree.addr_leaf] at firstTop secondTop apart
  rw [Tree.addr_leaf] at apart
  have firstPin : store.pin (first.addr 0) = some there := (held _ _).mpr (by simp)
  have secondPin : store.pin (second.addr 0) = some here := (held _ _).mpr (by simp)
  have firstPage : HoldsNode (store.page (first.addr 0)) true whole.addr (first.rows.map Prod.fst) [] :=
    neighbours_first neighbours
  have secondPage : HoldsNode (store.page (second.addr 0)) true whole.addr (second.rows.map Prod.fst) [] :=
    neighbours_second neighbours
  have n : (store.page (first.addr 0)).n = first.rows.length := by rw [firstPage.n, List.length_map]
  have n' : (store.page (second.addr 0)).n = second.rows.length := by rw [secondPage.n, List.length_map]
  rw [Tree.count_leaf, Tree.count_leaf] at sizes fits
  simp only [leafLevel]
  apply ensures_index
  refine ensures_bind (ensures_load secondPin ?_)
  refine ensures_bind (ensures_load firstPin ?_)
  refine ensures_bind (ensures_check (by rw [n, n']; omega) ?_)
  refine ensures_bind (ensures_amend firstPin ?_)
  refine ensures_bind (ensures_amend secondPin ?_)
  let merged : Leaf Key := ⟨first.addr, first.rows ++ second.rows⟩
  have used : Tree.addrs 0 first + Tree.addrs 0 second + around whole.addr before behind others =
      second.addr ::ₘ (Tree.addrs 0 merged + around whole.addr before behind others) := by
    simp only [Tree.addrs_leaf, merged, Tree.addr_leaf, ← Multiset.singleton_add]
    abel
  have ledger := neighbours_ledger neighbours
  rw [used] at ledger
  have nodup := ledger_used_nodup ledger
  refine ensures_retire (ledger_frame ledger ?_) held ?_ ?_ firstTop ?_
  · intro addr notUsed
    simp only [Tree.addrs_leaf, merged, Tree.addr_leaf, Multiset.mem_cons, Multiset.mem_add,
      Multiset.mem_singleton, not_or] at notUsed
    simp [notUsed.1, notUsed.2.1]
  · simp [merged]
  · simp [around]
  · intro rest after same ledgerAfter released
    refine ⟨rfl, released, rest, merged, ledgerAfter, ?_, rfl, ?_, ?_, ?_, ?_⟩
    · have own := same first.addr (by simp [merged])
      rw [holds_leaf, show merged.addr = first.addr from rfl, own]
      simpa [apart, merged] using holds_append_rows firstPage secondPage
    · rw [Tree.sized_leaf]
      simp only [merged, List.length_append]
      omega
    · have dropped := SeparatorStep.drop (first.rows.map Item.row) between (second.rows.map Item.row)
      rw [← List.map_append] at dropped
      exact .single dropped
    · simp only [Tree.items_leaf, separators_of_map_row]
      simp
    · intro addr member
      have listed : addr ∈ Tree.addrs 0 merged + around whole.addr before behind others :=
        Multiset.mem_add.mpr (.inr member)
      rw [same addr listed]
      rw [Multiset.nodup_cons, Multiset.nodup_add] at nodup
      have notFirst : addr ≠ first.addr := by
        rintro rfl
        exact Multiset.disjoint_left.mp nodup.2.2.2 (by simp [merged]) member
      have notSecond : addr ≠ second.addr := by
        rintro rfl
        exact nodup.1 listed
      rw [Tree.addr_leaf] at notFirst notSecond
      simp [notFirst, notSecond]

end Leaves

section Nodes

variable {height : Nat} {whole : BTreeLayout.Inner Key (height + 1)} {before behind : List (BTree Key (height + 1))}
  {first second : BTree Key (height + 1)}

omit [LinearOrder Key] in
/-- Two inner nodes with a separator between them read like one. -/
theorem pair_items (first second : Inner Key height) (sep : Entry Key) :
    Tree.items (height + 1) first ++ .separator sep :: Tree.items (height + 1) second =
      join ((first.kids ++ second.kids).map (Tree.items height)) (first.seps ++ sep :: second.seps) := by
  rw [List.map_append, join_cut]
  · rfl
  · rw [List.length_map]
    exact first.arity
  · intro none
    have arity := second.arity
    rw [List.map_eq_nil_iff.mp none, List.length_nil] at arity
    omega

omit [LinearOrder Key] in
theorem kids_apart (neighbours : Neighbours store root free others orphans parent whole before first second behind
      lefts between rights) :
    ((first.kids ++ second.kids).map (Tree.addrs height)).sum.Nodup ∧
      ∀ addr ∈ ((first.kids ++ second.kids).map (Tree.addrs height)).sum,
        addr ≠ first.addr ∧ addr ≠ second.addr ∧ addr ≠ whole.addr ∧ addr ∉ beside before behind others := by
  obtain ⟨firstNodup, secondNodup, halves, outside, _⟩ := neighbours_apart neighbours
  rw [Tree.addrs_inner, Multiset.nodup_cons] at firstNodup secondNodup
  rw [List.map_append, List.sum_append]
  constructor
  · rw [Multiset.nodup_add]
    refine ⟨firstNodup.2, secondNodup.2, Multiset.disjoint_left.mpr fun inFirst inSecond => ?_⟩
    exact halves _ (Multiset.mem_cons_of_mem inFirst) (Multiset.mem_cons_of_mem inSecond)
  · intro addr member
    rcases Multiset.mem_add.mp member with inFirst | inSecond
    · have listed : addr ∈ Tree.addrs (height + 1) first := Multiset.mem_cons_of_mem inFirst
      refine ⟨?_, ?_, outside addr (Multiset.mem_add.mpr (.inl listed))⟩
      · rintro rfl
        exact firstNodup.1 inFirst
      · rintro rfl
        exact halves _ listed (Multiset.mem_cons_self _ _)
    · have listed : addr ∈ Tree.addrs (height + 1) second := Multiset.mem_cons_of_mem inSecond
      refine ⟨?_, ?_, outside addr (Multiset.mem_add.mpr (.inr listed))⟩
      · rintro rfl
        exact halves _ (Multiset.mem_cons_self _ _) listed
      · rintro rfl
        exact secondNodup.1 inSecond

omit [LinearOrder Key] in
/-- Two inner nodes that have the same rows and children in another division. -/
theorem nodes_rebalanced (first' second' : Inner Key height) (up : Entry Key) {after : IndexStore}
    (uneven : Uneven records degree least outer separators store root free others orphans parent whole before first
      second behind lefts between rights)
    (firstAddr : first'.addr = first.addr) (secondAddr : second'.addr = second.addr)
    (sameKids : first'.kids ++ second'.kids = first.kids ++ second.kids)
    (sameSeps : first'.seps ++ up :: second'.seps = first.seps ++ between :: second.seps)
    (pages : ∀ addr, addr ≠ whole.addr → addr ≠ first.addr → addr ≠ second.addr →
      addr ∉ ((first.kids ++ second.kids).map (Tree.addrs height)).sum → after.page addr = store.page addr)
    (length : after.length = store.length)
    (own : after.page whole.addr = setRow lefts.length up.1 (store.page whole.addr))
    (holdsFirst : @HoldsTree Key after.page (height + 1) whole.addr first')
    (holdsSecond : @HoldsTree Key after.page (height + 1) whole.addr second')
    (firstCount : degree - 1 ≤ first'.seps.length ∧ first'.seps.length ≤ 2 * degree - 1)
    (secondCount : degree - 1 ≤ second'.seps.length ∧ second'.seps.length ≤ 2 * degree - 1) :
    Rebalanced degree least root free others orphans parent outer whole store (after, separators) := by
  have neighbours := uneven.neighbours
  obtain ⟨_, _, _, outside, fresh⟩ := neighbours_apart neighbours
  obtain ⟨_, kidsApart⟩ := kids_apart neighbours
  have page : HoldsNode (store.page whole.addr) false parent _ _ := neighbours_page neighbours
  have edited := holds_set_row up.1 page
  rw [List.length_map] at edited
  have items : Tree.items (height + 1) first ++ .separator between :: Tree.items (height + 1) second =
      Tree.items (height + 1) first' ++ .separator up :: Tree.items (height + 1) second' := by
    rw [pair_items, pair_items, sameKids, sameSeps]
  have used : Tree.addrs (height + 1) first' + Tree.addrs (height + 1) second' =
      Tree.addrs (height + 1) first + Tree.addrs (height + 1) second := by
    have kids := congrArg (fun kids => (kids.map (Tree.addrs height)).sum) sameKids
    simp only [List.map_append, List.sum_append] at kids
    simp only [Tree.addrs_inner, firstAddr, secondAddr, Tree.addr_inner, ← Multiset.singleton_add]
    rw [add_add_add_comm, kids, add_add_add_comm]
  have kidSized : ∀ kid ∈ first'.kids ++ second'.kids, kid.Sized degree (degree - 1) height := by
    rw [sameKids]
    intro kid member
    rcases List.mem_append.mp member with inFirst | inSecond
    · exact uneven.first.2 kid inFirst
    · exact uneven.second.2 kid inSecond
  have besideApart : ∀ addr ∈ beside before behind others, after.page addr = store.page addr := by
    intro addr member
    apply pages addr
    · rintro rfl
      exact fresh member
    · rintro rfl
      exact (outside _ (Multiset.mem_add.mpr (.inl (Tree.addr_mem_addrs first)))).2 member
    · rintro rfl
      exact (outside _ (Multiset.mem_add.mpr (.inr (Tree.addr_mem_addrs second)))).2 member
    · exact fun inKids => (kidsApart addr inKids).2.2.2 member
  have reseparated : Reseparated
      (Tree.items (height + 1) first ++ .separator between :: Tree.items (height + 1) second)
      (Tree.items (height + 1) first' ++ .separator up :: Tree.items (height + 1) second') := by rw [items]
  refine neighbours_replanted neighbours uneven.rows uneven.siblings ?_ ?_ holdsFirst holdsSecond firstAddr
    secondAddr ⟨firstCount, ?_⟩ ⟨secondCount, ?_⟩ besideApart reseparated ?_
  · rw [used, length]
    apply ledger_frame (neighbours_ledger neighbours)
    intro addr notUsed
    simp only [Tree.addrs_inner, around, Multiset.mem_add, Multiset.mem_cons, not_or] at notUsed
    apply pages addr notUsed.2.1 notUsed.1.1.1 notUsed.1.2.1
    rw [List.map_append, List.sum_append, Multiset.mem_add, not_or]
    exact ⟨notUsed.1.1.2, notUsed.1.2.2⟩
  · rw [own]
    exact edited
  · exact fun kid member => kidSized kid (List.mem_append_left _ member)
  · exact fun kid member => kidSized kid (List.mem_append_right _ member)
  · have total := congrArg (fun items => (separatorsOf items : Multiset (Entry Key))) items
    simp only [separators_of_append, separators_of_separator, ← Multiset.coe_add, ← Multiset.cons_coe] at total
    rw [uneven_separators uneven, total]

omit [LinearOrder Key] in
theorem kids_rotated {front back : List (BTree Key height)} {moved : BTree Key height} {owner : Int}
    {after : IndexStore} (neighbours : Neighbours store root free others orphans parent whole before first second
      behind lefts between rights) (kids : first.kids ++ second.kids = front ++ moved :: back)
    (inFirst : ∀ kid ∈ front, kid ∈ first.kids) (inSecond : ∀ kid ∈ back, kid ∈ second.kids)
    (own : after.page (moved.addr height) = setParent owner (store.page (moved.addr height)))
    (pages : ∀ addr ∈ ((first.kids ++ second.kids).map (Tree.addrs height)).sum, addr ≠ moved.addr height →
      after.page addr = store.page addr) :
    (∀ kid ∈ front, HoldsTree after.page height first.addr kid) ∧
      (∀ kid ∈ back, HoldsTree after.page height second.addr kid) ∧ HoldsTree after.page height owner moved := by
  obtain ⟨nodup, _⟩ := kids_apart neighbours
  rw [kids] at nodup pages
  have listed : ∀ {kid addr}, kid ∈ front ++ moved :: back → addr ∈ kid.addrs height →
      addr ∈ ((front ++ moved :: back).map (Tree.addrs height)).sum := fun member inside =>
    mem_kid_addrs member inside
  have split := nodup
  rw [List.map_append, List.map_cons, List.sum_append, List.sum_cons, Multiset.nodup_add,
    Multiset.nodup_add] at split
  obtain ⟨_, ⟨_, _, behindApart⟩, frontApart⟩ := split
  refine ⟨?_, ?_, ?_⟩
  · intro kid member
    apply holds_tree_frame _ ((neighbours_first neighbours).2 kid (inFirst kid member))
    intro addr inside
    apply pages addr (listed (List.mem_append_left _ member) inside)
    rintro rfl
    apply Multiset.disjoint_left.mp frontApart (mem_kid_addrs member inside)
    simp [Tree.addr_mem_addrs]
  · intro kid member
    apply holds_tree_frame _ ((neighbours_second neighbours).2 kid (inSecond kid member))
    intro addr inside
    apply pages addr (listed (List.mem_append_right _ (List.mem_cons_of_mem _ member)) inside)
    rintro rfl
    exact Multiset.disjoint_left.mp behindApart (Tree.addr_mem_addrs moved) (mem_kid_addrs member inside)
  · have member : moved ∈ front ++ moved :: back := List.mem_append_right _ List.mem_cons_self
    obtain ⟨before, holds⟩ : ∃ before, HoldsTree store.page height before moved := by
      rw [← kids, List.mem_append] at member
      rcases member with inFirst | inSecond
      · exact ⟨_, (neighbours_first neighbours).2 moved inFirst⟩
      · exact ⟨_, (neighbours_second neighbours).2 moved inSecond⟩
    exact holds_tree_reparent (kid_addrs_nodup nodup member) own
      (fun addr inside notTop => pages addr (listed member inside) notTop) holds

omit [LinearOrder Key] in
/-- The end of a rotation: the rows are in place, and the child that went over gets its new parent. -/
theorem ensures_rotate {front back : List (BTree Key height)} {moved : BTree Key height} {owner : Int}
    {edited : IndexStore} {pins : List (Int × Frame)} (first' second' : Inner Key height) (up : Entry Key)
    (uneven : Uneven records degree least outer separators store root free others orphans parent whole before first
      second behind lefts between rights)
    (firstAddr : first'.addr = first.addr) (secondAddr : second'.addr = second.addr)
    (kids : first.kids ++ second.kids = front ++ moved :: back)
    (inFirst : ∀ kid ∈ front, kid ∈ first.kids) (inSecond : ∀ kid ∈ back, kid ∈ second.kids)
    (placed : (first'.kids = front ∧ second'.kids = moved :: back ∧ owner = second.addr) ∨
      (first'.kids = front ++ [moved] ∧ second'.kids = back ∧ owner = first.addr))
    (seps : first'.seps ++ up :: second'.seps = first.seps ++ between :: second.seps)
    (pages : ∀ addr, addr ≠ whole.addr → addr ≠ first.addr → addr ≠ second.addr →
      edited.page addr = store.page addr) (length : edited.length = store.length)
    (own : edited.page whole.addr = setRow lefts.length up.1 (store.page whole.addr))
    (firstPage : HoldsNode (edited.page first.addr) false whole.addr (first'.seps.map Prod.fst)
      (first'.kids.map (Tree.addr height)))
    (secondPage : HoldsNode (edited.page second.addr) false whole.addr (second'.seps.map Prod.fst)
      (second'.kids.map (Tree.addr height)))
    (firstCount : degree - 1 ≤ first'.seps.length ∧ first'.seps.length ≤ 2 * degree - 1)
    (secondCount : degree - 1 ≤ second'.seps.length ∧ second'.seps.length ≤ 2 * degree - 1)
    (held : Pins edited pins) (few : pins.length < cachePage)
    (pinned : ∀ addr ∈ pins.map Prod.fst, addr = first.addr ∨ addr = second.addr ∨ addr = whole.addr) :
    Ensures rel edited (reparent owner (moved.addr height)) fun _ final =>
      Rebalanced degree least root free others orphans parent outer whole store (final, separators) ∧
        Pins final pins := by
  have neighbours := uneven.neighbours
  obtain ⟨_, kidsApart⟩ := kids_apart neighbours
  have listed : moved.addr height ∈ ((first.kids ++ second.kids).map (Tree.addrs height)).sum := by
    rw [kids]
    exact mem_kid_addrs (List.mem_append_right _ List.mem_cons_self) (Tree.addr_mem_addrs moved)
  obtain ⟨notFirst, notSecond, notTop, _⟩ := kidsApart _ listed
  have inUse : moved.addr height ∈ Tree.addrs (height + 1) first + Tree.addrs (height + 1) second +
      around whole.addr before behind others := by
    rw [List.map_append, List.sum_append, Multiset.mem_add] at listed
    simp only [Tree.addrs_inner, Multiset.mem_add, Multiset.mem_cons]
    tauto
  have inFile := neighbours_used neighbours _ inUse
  rw [← length] at inFile
  apply ensures_reparent inFile held
  · intro member
    rcases pinned _ member with same | same | same
    · exact notFirst same
    · exact notSecond same
    · exact notTop same
  · exact few
  intro after page afterLength heldAfter
  have elsewhere : ∀ addr, addr ≠ moved.addr height → after.page addr = edited.page addr := by
    intro addr different
    rw [page, Function.update_of_ne different]
  have movedPage : after.page (moved.addr height) = setParent owner (store.page (moved.addr height)) := by
    rw [page, Function.update_self, pages _ notTop notFirst notSecond]
  have kidPages : ∀ addr ∈ ((first.kids ++ second.kids).map (Tree.addrs height)).sum, addr ≠ moved.addr height →
      after.page addr = store.page addr := by
    intro addr inKids different
    obtain ⟨notFirst, notSecond, notTop, _⟩ := kidsApart addr inKids
    rw [elsewhere addr different, pages addr notTop notFirst notSecond]
  obtain ⟨frontHolds, backHolds, movedHolds⟩ := kids_rotated neighbours kids inFirst inSecond movedPage kidPages
  have sameKids : first'.kids ++ second'.kids = first.kids ++ second.kids := by
    rw [kids]
    rcases placed with ⟨left, right, _⟩ | ⟨left, right, _⟩
    · rw [left, right]
    · rw [left, right]
      simp
  refine ⟨nodes_rebalanced first' second' up uneven firstAddr secondAddr sameKids seps ?_
    (afterLength.trans length) ?_ ⟨?_, ?_⟩ ⟨?_, ?_⟩ firstCount secondCount, heldAfter⟩
  · intro addr notTop notFirst notSecond outside
    have notMoved : addr ≠ moved.addr height := fun same => outside (same ▸ listed)
    rw [elsewhere addr notMoved, pages addr notTop notFirst notSecond]
  · rw [elsewhere _ notTop.symm, own]
  · rw [firstAddr, elsewhere _ notFirst.symm]
    exact firstPage
  · intro kid member
    rw [firstAddr]
    rcases placed with ⟨left, _, _⟩ | ⟨left, _, rfl⟩
    · rw [left] at member
      exact frontHolds kid member
    · rw [left, List.mem_append, List.mem_singleton] at member
      rcases member with inFront | rfl
      · exact frontHolds kid inFront
      · exact movedHolds
  · rw [secondAddr, elsewhere _ notSecond.symm]
    exact secondPage
  · intro kid member
    rw [secondAddr]
    rcases placed with ⟨_, right, rfl⟩ | ⟨_, right, _⟩
    · rw [right, List.mem_cons] at member
      rcases member with rfl | inBack
      · exact movedHolds
      · exact backHolds kid inBack
    · rw [right] at member
      exact backHolds kid member

omit [LinearOrder Key] in
theorem ensures_inner_borrow_left (enough : 2 ≤ degree)
    (uneven : Uneven records degree least outer separators store root free others orphans parent whole before first
      second behind lefts between rights)
    (more : degree ≤ Tree.count (height + 1) first) (short : Tree.count (height + 1) second < degree - 1)
    (held : Pins store [(first.addr (height + 1), there), (second.addr (height + 1), here), (whole.addr, above)]) :
    Ensures (Stands rel represents) (store, separators)
      ((innerLevel degree).borrowLeft ⟨here, second.addr (height + 1)⟩ ⟨there, first.addr (height + 1)⟩
        ⟨above, whole.addr⟩ (lefts.length + 1))
      fun _ final => Rebalanced degree least root free others orphans parent outer whole store final ∧
        Pins final.1 [(first.addr (height + 1), there), (second.addr (height + 1), here), (whole.addr, above)] := by
  have neighbours := uneven.neighbours
  obtain ⟨firstTop, secondTop, apart⟩ := neighbours_tops neighbours
  have firstPin : store.pin (first.addr (height + 1)) = some there := (held _ _).mpr (by simp)
  have secondPin : store.pin (second.addr (height + 1)) = some here := (held _ _).mpr (by simp)
  have topPin : store.pin whole.addr = some above := (held _ _).mpr (by simp)
  have sizes := uneven.first.1
  have sizes' := uneven.second.1
  have arity := first.arity
  have arity' := second.arity
  rw [Tree.count_inner] at more short
  obtain ⟨front, moved, kids⟩ : ∃ front moved, first.kids = front ++ [moved] := by
    rcases List.eq_nil_or_concat' first.kids with none | some
    · rw [none, List.length_nil] at arity
      omega
    · exact some
  obtain ⟨frontSeps, up, seps⟩ : ∃ frontSeps up, first.seps = frontSeps ++ [up] := by
    rcases List.eq_nil_or_concat' first.seps with none | some
    · rw [none, List.length_nil] at more
      omega
    · exact some
  rw [kids, seps] at arity
  rw [seps] at sizes more
  simp only [List.length_append, List.length_singleton] at arity sizes more
  have firstPage : HoldsNode (store.page first.addr) false whole.addr (frontSeps.map Prod.fst ++ [up.1])
      (front.map (Tree.addr height) ++ [moved.addr height]) := by
    have holds := (neighbours_first neighbours).1
    rw [seps, kids, List.map_append, List.map_append] at holds
    exact holds
  have secondPage : HoldsNode (store.page second.addr) false whole.addr (second.seps.map Prod.fst)
      (second.kids.map (Tree.addr height)) := (neighbours_second neighbours).1
  have n : (store.page first.addr).n = frontSeps.length + 1 := by
    rw [firstPage.n]
    simp
  have child : (store.page first.addr).child (store.page first.addr).n = moved.addr height := by
    have reads := reads_middle firstPage.kids
    rwa [List.length_map, show front.length = (store.page first.addr).n by omega] at reads
  have row : (store.page first.addr).rowPtr ((store.page first.addr).n - 1) = up.1 := by
    have reads := reads_middle firstPage.rows
    rwa [List.length_map, show frontSeps.length = (store.page first.addr).n - 1 by omega] at reads
  have betweenRow := neighbours_row neighbours
  simp only [innerLevel]
  apply ensures_index
  refine ensures_bind (ensures_load firstPin ?_)
  refine ensures_bind (ensures_load topPin ?_)
  simp only [Nat.add_sub_cancel, betweenRow, child, row]
  refine ensures_bind (ensures_amend secondPin ?_)
  refine ensures_bind (ensures_amend topPin ?_)
  refine ensures_bind (ensures_amend firstPin ?_)
  rw [Tree.addr_inner] at firstTop secondTop apart
  rw [Tree.addr_inner] at apart
  apply ensures_rotate ⟨first.addr, frontSeps, front, by omega⟩
    ⟨second.addr, between :: second.seps, moved :: second.kids, by simp [arity']⟩ up uneven rfl rfl
  · show first.kids ++ second.kids = front ++ moved :: second.kids
    simp [kids]
  · intro kid member
    simp [kids, member]
  · exact fun kid member => member
  · exact .inl ⟨rfl, rfl, rfl⟩
  · simp [seps]
  · intro addr notTop notFirst notSecond
    rw [Tree.addr_inner] at notFirst notSecond
    simp [notTop, notFirst, notSecond]
  · rfl
  · simp [firstTop.symm, secondTop.symm]
  · have cut := holds_set_count firstPage (show (store.page first.addr).n - 1 = (frontSeps.map Prod.fst).length by
      rw [List.length_map]
      omega)
    simpa [firstTop, apart] using cut
  · have pushed := holds_push_row between.1 (holds_push_child (moved.addr height) secondPage
      (by simpa using arity'))
    simpa [secondTop, apart.symm] using pushed
  · simp only
    omega
  · simp only [List.length_cons]
    omega
  · exact held
  · show 3 < cachePage
    decide
  · simp

omit [LinearOrder Key] in
theorem ensures_inner_borrow_right (enough : 2 ≤ degree)
    (uneven : Uneven records degree least outer separators store root free others orphans parent whole before first
      second behind lefts between rights)
    (short : Tree.count (height + 1) first < degree - 1) (more : degree ≤ Tree.count (height + 1) second)
    (held : Pins store [(first.addr (height + 1), here), (second.addr (height + 1), there), (whole.addr, above)]) :
    Ensures (Stands rel represents) (store, separators)
      ((innerLevel degree).borrowRight ⟨here, first.addr (height + 1)⟩ ⟨there, second.addr (height + 1)⟩
        ⟨above, whole.addr⟩ lefts.length)
      fun _ final => Rebalanced degree least root free others orphans parent outer whole store final ∧
        Pins final.1 [(first.addr (height + 1), here), (second.addr (height + 1), there), (whole.addr, above)] := by
  have neighbours := uneven.neighbours
  obtain ⟨firstTop, secondTop, apart⟩ := neighbours_tops neighbours
  have firstPin : store.pin (first.addr (height + 1)) = some here := (held _ _).mpr (by simp)
  have secondPin : store.pin (second.addr (height + 1)) = some there := (held _ _).mpr (by simp)
  have topPin : store.pin whole.addr = some above := (held _ _).mpr (by simp)
  have sizes := uneven.first.1
  have sizes' := uneven.second.1
  have arity := first.arity
  have arity' := second.arity
  rw [Tree.count_inner] at more short
  obtain ⟨moved, back, kids⟩ : ∃ moved back, second.kids = moved :: back := by
    apply List.exists_cons_of_ne_nil
    intro none
    rw [none, List.length_nil] at arity'
    omega
  obtain ⟨up, backSeps, seps⟩ : ∃ up backSeps, second.seps = up :: backSeps := by
    apply List.exists_cons_of_ne_nil
    intro none
    rw [none, List.length_nil] at more
    omega
  rw [kids, seps] at arity'
  rw [seps] at sizes' more
  simp only [List.length_cons] at arity' sizes' more
  have firstPage : HoldsNode (store.page first.addr) false whole.addr (first.seps.map Prod.fst)
      (first.kids.map (Tree.addr height)) := (neighbours_first neighbours).1
  have secondPage : HoldsNode (store.page second.addr) false whole.addr (up.1 :: backSeps.map Prod.fst)
      (moved.addr height :: back.map (Tree.addr height)) := by
    have holds := (neighbours_second neighbours).1
    rw [seps, kids, List.map_cons, List.map_cons] at holds
    exact holds
  have child : (store.page second.addr).child 0 = moved.addr height := secondPage.kids 0 (by simp)
  have row : (store.page second.addr).rowPtr 0 = up.1 := secondPage.rows 0 (by simp)
  have betweenRow := neighbours_row neighbours
  simp only [innerLevel]
  apply ensures_index
  refine ensures_bind (ensures_load secondPin ?_)
  refine ensures_bind (ensures_load topPin ?_)
  simp only [betweenRow, child, row]
  refine ensures_bind (ensures_amend firstPin ?_)
  refine ensures_bind (ensures_amend topPin ?_)
  refine ensures_bind (ensures_amend secondPin ?_)
  rw [Tree.addr_inner] at firstTop secondTop apart
  rw [Tree.addr_inner] at apart
  apply ensures_rotate ⟨first.addr, first.seps ++ [between], first.kids ++ [moved], by simp [arity]⟩
    ⟨second.addr, backSeps, back, by omega⟩ up uneven rfl rfl
  · show first.kids ++ second.kids = first.kids ++ moved :: back
    rw [kids]
  · exact fun kid member => member
  · intro kid member
    simp [kids, member]
  · exact .inr ⟨rfl, rfl, rfl⟩
  · simp [seps]
  · intro addr notTop notFirst notSecond
    rw [Tree.addr_inner] at notFirst notSecond
    simp [notTop, notFirst, notSecond]
  · rfl
  · simp [firstTop.symm, secondTop.symm]
  · have added := holds_add_row between.1 (holds_add_child (moved.addr height) firstPage
      (by simpa using arity))
    simpa [firstTop, apart] using added
  · have dropped := holds_drop_row (holds_drop_child secondPage
      (by simpa using Nat.succ.inj arity'))
    simpa [secondTop, apart.symm] using dropped
  · simp only [List.length_append, List.length_singleton]
    omega
  · simp only
    omega
  · exact held
  · show 3 < cachePage
    decide
  · simp

/-- Two inner nodes with a separator between them as one node, in the place of the first. -/
def joinedNode (first second : Inner Key height) (sep : Entry Key) : Inner Key height :=
  ⟨first.addr, first.seps ++ sep :: second.seps, first.kids ++ second.kids, by
    have arity := first.arity
    have arity' := second.arity
    simp only [List.length_append, List.length_cons]
    omega⟩

omit [LinearOrder Key] in
theorem joined_used (first second : Inner Key height) (sep : Entry Key) (used : Multiset Int) :
    Tree.addrs (height + 1) first + Tree.addrs (height + 1) second + used =
      second.addr ::ₘ (Tree.addrs (height + 1) (joinedNode first second sep) + used) := by
  simp only [Tree.addrs_inner, joinedNode, List.map_append, List.sum_append, ← Multiset.singleton_add]
  abel

omit [LinearOrder Key] in
theorem mem_joined_addrs {first second : Inner Key height} {sep : Entry Key} {addr : Int}
    (member : addr = first.addr ∨ addr ∈ ((first.kids ++ second.kids).map (Tree.addrs height)).sum) :
    addr ∈ Tree.addrs (height + 1) (joinedNode first second sep) := by
  rw [Tree.addrs_inner, Multiset.mem_cons]
  exact member

omit [LinearOrder Key] in
theorem second_tops_mem {first second : Inner Key height} {addr : Int}
    (member : addr ∈ second.kids.map (Tree.addr height)) :
    addr ∈ ((first.kids ++ second.kids).map (Tree.addrs height)).sum := by
  rw [List.map_append, List.sum_append, Multiset.mem_add]
  exact .inr (tops_mem member)

omit [LinearOrder Key] in
/-- The children of both neighbours hang below the first once the second's have it as their parent. -/
theorem joined_kids {after : IndexStore}
    (neighbours : Neighbours store root free others orphans parent whole before first second behind lefts between
      rights)
    (hung : ∀ addr ∈ second.kids.map (Tree.addr height),
      after.page addr = setParent first.addr (store.page addr))
    (elsewhere : ∀ addr ∈ ((first.kids ++ second.kids).map (Tree.addrs height)).sum,
      addr ∉ second.kids.map (Tree.addr height) → after.page addr = store.page addr) :
    ∀ kid ∈ first.kids ++ second.kids, HoldsTree after.page height first.addr kid := by
  obtain ⟨kidsNodup, _⟩ := kids_apart neighbours
  rw [List.map_append, List.sum_append, Multiset.nodup_add] at kidsNodup
  obtain ⟨_, secondNodup, halves⟩ := kidsNodup
  intro kid member
  rcases List.mem_append.mp member with inFirst | inSecond
  · have framed : ∀ addr ∈ kid.addrs height, after.page addr = store.page addr := by
      intro addr inside
      apply elsewhere addr (mem_kid_addrs member inside)
      intro top
      exact Multiset.disjoint_left.mp halves (mem_kid_addrs inFirst inside) (tops_mem top)
    exact holds_tree_frame framed ((neighbours_first neighbours).2 kid inFirst)
  · have kidTop : kid.addr height ∈ second.kids.map (Tree.addr height) := List.mem_map_of_mem inSecond
    apply holds_hung secondNodup inSecond ((neighbours_second neighbours).2 kid inSecond) (hung _ kidTop)
    intro addr inside outside
    apply elsewhere addr _ outside
    rw [List.map_append, List.sum_append, Multiset.mem_add]
    exact .inr inside

/-- The first node has the rows and the children of both, and all of its children name it. -/
structure Joined (store joined : IndexStore) (top : Int) (first second : Inner Key height) (between : Entry Key) :
    Prop where
  own : HoldsNode (joined.page first.addr) false top ((joinedNode first second between).seps.map Prod.fst)
    ((joinedNode first second between).kids.map (Tree.addr height))
  hung : ∀ addr ∈ second.kids.map (Tree.addr height), joined.page addr = setParent first.addr (store.page addr)
  elsewhere : ∀ addr, addr ≠ first.addr → addr ∉ second.kids.map (Tree.addr height) →
    joined.page addr = store.page addr
  length : joined.length = store.length

omit [LinearOrder Key] in
theorem joined_of_reparented {joined : IndexStore}
    (neighbours : Neighbours store root free others orphans parent whole before first second behind lefts between
      rights)
    (page : joined.page = reparented first.addr (second.kids.map (Tree.addr height)) (store.written first.addr
      (appendRows (store.page second.addr) (appendChildren (store.page second.addr)
        (addRow between.1 (store.page first.addr))))).page)
    (length : joined.length = store.length) : Joined store joined whole.addr first second between := by
  have notFirst : ∀ addr ∈ second.kids.map (Tree.addr height), addr ≠ first.addr := fun addr top =>
    ((kids_apart neighbours).2 addr (second_tops_mem top)).1
  simp only [Tree.addr_inner] at page notFirst
  refine ⟨?_, ?_, ?_, length⟩
  · have firstPage : HoldsNode (store.page first.addr) false whole.addr (first.seps.map Prod.fst)
        (first.kids.map (Tree.addr height)) := (neighbours_first neighbours).1
    have secondPage : HoldsNode (store.page second.addr) false whole.addr (second.seps.map Prod.fst)
        (second.kids.map (Tree.addr height)) := (neighbours_second neighbours).1
    simp only [Tree.addr_inner] at firstPage secondPage
    have added := holds_add_row between.1 firstPage
    have children := holds_append_children added secondPage (by simpa using first.arity) (by simpa using second.arity)
    rw [page, reparented, if_neg fun member => notFirst _ member rfl]
    simpa [joinedNode] using holds_append_rows children secondPage
  · intro addr top
    rw [page, reparented, if_pos top, PageStore.written_page, if_neg (notFirst addr top)]
  · intro addr different outside
    rw [page, reparented, if_neg outside, PageStore.written_page, if_neg different]

omit [LinearOrder Key] in
theorem joined_ledger {joined : IndexStore} (emptied : BNode)
    (neighbours : Neighbours store root free others orphans parent whole before first second behind lefts between
      rights)
    (moved : Joined store joined whole.addr first second between) :
    Ledger (joined.written second.addr emptied).page joined.length root free
      (second.addr ::ₘ (Tree.addrs (height + 1) (joinedNode first second between) +
        around whole.addr before behind others)) orphans := by
  have ledger := neighbours_ledger neighbours
  rw [joined_used first second between] at ledger
  rw [moved.length, Tree.addr_inner]
  apply ledger_frame ledger
  intro addr notUsed
  simp only [Multiset.mem_cons, Multiset.mem_add, not_or] at notUsed
  have notFirst : addr ≠ first.addr := fun same => notUsed.2.1 (mem_joined_addrs (.inl same))
  have outside : addr ∉ second.kids.map (Tree.addr height) := fun member =>
    notUsed.2.1 (mem_joined_addrs (.inr (second_tops_mem member)))
  rw [PageStore.written_page, if_neg notUsed.1, moved.elsewhere addr notFirst outside]

omit [LinearOrder Key] in
theorem nodes_merged {rest : List Int} {joined after : IndexStore}
    (uneven : Uneven records degree least outer separators store root free others orphans parent whole before first
      second behind lefts between rights)
    (sizes : degree - 1 ≤ Tree.count (height + 1) first + Tree.count (height + 1) second)
    (fits : Tree.count (height + 1) first + Tree.count (height + 1) second + 1 ≤ 2 * degree - 1)
    (moved : Joined store joined whole.addr first second between)
    (ledger : Ledger after.page after.length root rest
      (Tree.addrs (height + 1) (joinedNode first second between) + around whole.addr before behind others) orphans)
    (same : ∀ addr ∈ Tree.addrs (height + 1) (joinedNode first second between) +
      around whole.addr before behind others, after.page addr = joined.page addr) :
    @Merged Key (height + 1) degree false root rest others orphans whole before first second behind between store after
      (joinedNode first second between) := by
  have neighbours := uneven.neighbours
  obtain ⟨_, kidsApart⟩ := kids_apart neighbours
  have inside : ∀ addr, addr = first.addr ∨ addr ∈ ((first.kids ++ second.kids).map (Tree.addrs height)).sum →
      after.page addr = joined.page addr := fun addr member =>
    same addr (Multiset.mem_add.mpr (.inl (mem_joined_addrs member)))
  simp only [Tree.addr_inner] at inside kidsApart
  rw [Tree.count_inner, Tree.count_inner] at sizes fits
  refine ⟨ledger, ⟨?_, ?_⟩, rfl, ⟨?_, ?_⟩, ?_, ?_, ?_⟩
  · have own := moved.own
    rwa [← inside _ (.inl rfl)] at own
  · apply joined_kids neighbours
    · intro addr top
      rw [inside addr (.inr (second_tops_mem top)), moved.hung addr top, Tree.addr_inner]
    · intro addr inKids outside
      rw [inside addr (.inr inKids), moved.elsewhere addr (kidsApart addr inKids).1 outside]
  · simp only [joinedNode, List.length_append, List.length_cons]
    omega
  · intro kid member
    rcases List.mem_append.mp member with inFirst | inSecond
    · exact uneven.first.2 kid inFirst
    · exact uneven.second.2 kid inSecond
  · rw [pair_items]
    exact .refl
  · have items := pair_items first second between
    have total := congrArg (fun items => (separatorsOf items : Multiset (Entry Key))) items
    simp only [separators_of_append, separators_of_separator, ← Multiset.coe_add, ← Multiset.cons_coe] at total
    rw [total]
    simp [joinedNode]
  · intro addr member
    have nodup := ledger_used_nodup ledger
    rw [Multiset.nodup_add] at nodup
    have apartMerged : addr ∉ Tree.addrs (height + 1) (joinedNode first second between) := fun inside =>
      Multiset.disjoint_left.mp nodup.2.2 inside member
    rw [same addr (Multiset.mem_add.mpr (.inr member)), moved.elsewhere]
    · exact fun same => apartMerged (mem_joined_addrs (.inl same))
    · exact fun top => apartMerged (mem_joined_addrs (.inr (second_tops_mem top)))

omit [LinearOrder Key] in
theorem ensures_join_nodes {Value : Type} {next : Program IndexPool Value} {post : Value → IndexStore → Prop}
    (neighbours : Neighbours store root free others orphans parent whole before first second behind lefts between
      rights)
    (fits : Tree.count (height + 1) first + Tree.count (height + 1) second + 1 ≤ 2 * degree - 1)
    (held : Pins store [(first.addr, there), (second.addr, here), (whole.addr, above)])
    (continues : ∀ joined, Joined store joined whole.addr first second between →
      Pins joined [(first.addr, there), (second.addr, here), (whole.addr, above)] → Ensures rel joined next post) :
    Ensures rel store (do
      let source ← load ⟨here, second.addr⟩
      let target ← load ⟨there, first.addr⟩
      check (target.n + source.n + 1 ≤ 2 * degree - 1)
      amend ⟨there, first.addr⟩ fun page => appendRows source (appendChildren source (addRow between.1 page))
      reparentAll first.addr source.child (source.n + 1) 0
      next) post := by
  obtain ⟨kidsNodup, kidsApart⟩ := kids_apart neighbours
  have firstPin : store.pin first.addr = some there := (held _ _).mpr (by simp)
  have secondPin : store.pin second.addr = some here := (held _ _).mpr (by simp)
  have firstPage : HoldsNode (store.page first.addr) false whole.addr (first.seps.map Prod.fst)
      (first.kids.map (Tree.addr height)) := (neighbours_first neighbours).1
  have secondPage : HoldsNode (store.page second.addr) false whole.addr (second.seps.map Prod.fst)
      (second.kids.map (Tree.addr height)) := (neighbours_second neighbours).1
  have n : (store.page first.addr).n = first.seps.length := by rw [firstPage.n, List.length_map]
  have n' : (store.page second.addr).n = second.seps.length := by rw [secondPage.n, List.length_map]
  have count : (store.page second.addr).n + 1 = (second.kids.map (Tree.addr height)).length := by
    rw [n', List.length_map]
    exact second.arity.symm
  have room : first.seps.length + second.seps.length + 1 ≤ 2 * degree - 1 := fits
  have inUse : ∀ addr ∈ second.kids.map (Tree.addr height), addr ∈ Tree.addrs (height + 1) first +
      Tree.addrs (height + 1) second + around whole.addr before behind others := by
    intro addr member
    rw [joined_used first second between, Multiset.mem_cons, Multiset.mem_add]
    exact .inr (.inl (mem_joined_addrs (.inr (second_tops_mem member))))
  refine ensures_bind (ensures_load secondPin ?_)
  refine ensures_bind (ensures_load firstPin ?_)
  refine ensures_bind (ensures_check (by rw [n, n']; omega) ?_)
  refine ensures_bind (ensures_amend firstPin ?_)
  -- the children of the second node move below the first
  apply ensures_bind
  rw [count]
  apply ensures_reparent_all
  · intro index inside
    rw [Nat.zero_add]
    exact secondPage.kids index inside
  · exact fun addr member => neighbours_used neighbours addr (inUse addr member)
  · have nodup := tops_nodup kidsNodup
    rw [List.map_append] at nodup
    exact (List.nodup_append.mp nodup).2.1
  · exact held
  · intro addr member pinned
    obtain ⟨notFirst, notSecond, notTop, _⟩ := kidsApart addr (second_tops_mem member)
    simp only [List.map_cons, List.map_nil, List.mem_cons, List.not_mem_nil, or_false] at pinned
    rcases pinned with same | same | same
    · exact notFirst same
    · exact notSecond same
    · exact notTop same
  · show 3 < cachePage
    decide
  intro hung page length heldHung
  exact continues hung (joined_of_reparented neighbours page length) heldHung

omit [LinearOrder Key] in
theorem ensures_inner_merge
    (uneven : Uneven records degree least outer separators store root free others orphans parent whole before first
      second behind lefts between rights)
    (sizes : degree - 1 ≤ Tree.count (height + 1) first + Tree.count (height + 1) second)
    (fits : Tree.count (height + 1) first + Tree.count (height + 1) second + 1 ≤ 2 * degree - 1)
    (held : Pins store [(first.addr (height + 1), there), (second.addr (height + 1), here), (whole.addr, above)]) :
    Ensures (Stands rel represents) (store, separators)
      ((innerLevel degree).merge ⟨there, first.addr (height + 1)⟩ ⟨here, second.addr (height + 1)⟩ between.1)
      fun _ final => final.2 = separators ∧ Pins final.1 [(whole.addr, above)] ∧
        ∃ rest, ∃ merged : BTree Key (height + 1), Merged degree false root rest others orphans whole before first
          second behind between store final.1 merged := by
  have neighbours := uneven.neighbours
  obtain ⟨firstTop, _, _⟩ := neighbours_tops neighbours
  have ledger := neighbours_ledger neighbours
  rw [joined_used first second between] at ledger
  have secondApart := (Multiset.nodup_cons.mp (ledger_used_nodup ledger)).1
  simp only [innerLevel]
  apply ensures_index
  apply ensures_join_nodes neighbours fits held
  intro joined moved heldJoined
  refine ensures_bind (ensures_amend ((heldJoined _ _).mpr (by simp)) ?_)
  -- the second page goes to the free list
  have firstUsed : first.addr (height + 1) ∈ Tree.addrs (height + 1) (joinedNode first second between) +
      around whole.addr before behind others := Multiset.mem_add.mpr (.inl (mem_joined_addrs (.inl rfl)))
  refine ensures_retire (joined_ledger _ neighbours moved) heldJoined firstUsed (by simp [around]) firstTop ?_
  intro rest after same ledgerAfter released
  refine ⟨rfl, released, rest, _, nodes_merged uneven sizes fits moved ledgerAfter ?_⟩
  intro addr member
  have notSecond : addr ≠ second.addr := by
    rintro rfl
    exact secondApart member
  rw [same addr member, PageStore.written_page, if_neg notSecond]

end Nodes

/-- What redistribution asks of a level. -/
structure Balances (rel : IndexStore → IndexPool → Prop) (represents : Multiset (Entry Key) → Store → Prop)
    (records : Multiset (Entry Key)) (degree : Nat) (handler : Bool) (height : Nat)
    (level : Level IndexPool Store) : Prop where
  borrowLeft : ∀ {least : Nat} {outer separators : Multiset (Entry Key)} {store : IndexStore} {root parent : Int}
    {free : List Int} {others orphans : Multiset Int} {whole : Inner Key height}
    {before behind : List (BTree Key height)} {first second : BTree Key height} {lefts rights : List (Entry Key)}
    {between : Entry Key} {here there above : Frame},
    Uneven records degree least outer separators store root free others orphans parent whole before first second
      behind lefts between rights →
    degree ≤ first.count height → second.count height < degree - 1 →
    Pins store [(first.addr height, there), (second.addr height, here), (whole.addr, above)] →
    Ensures (Stands rel represents) (store, separators)
      (level.borrowLeft ⟨here, second.addr height⟩ ⟨there, first.addr height⟩ ⟨above, whole.addr⟩ (lefts.length + 1))
      fun _ final => Rebalanced degree least root free others orphans parent outer whole store final ∧
        Pins final.1 [(first.addr height, there), (second.addr height, here), (whole.addr, above)]
  borrowRight : ∀ {least : Nat} {outer separators : Multiset (Entry Key)} {store : IndexStore} {root parent : Int}
    {free : List Int} {others orphans : Multiset Int} {whole : Inner Key height}
    {before behind : List (BTree Key height)} {first second : BTree Key height} {lefts rights : List (Entry Key)}
    {between : Entry Key} {here there above : Frame},
    Uneven records degree least outer separators store root free others orphans parent whole before first second
      behind lefts between rights →
    first.count height < degree - 1 → degree ≤ second.count height →
    Pins store [(first.addr height, here), (second.addr height, there), (whole.addr, above)] →
    Ensures (Stands rel represents) (store, separators)
      (level.borrowRight ⟨here, first.addr height⟩ ⟨there, second.addr height⟩ ⟨above, whole.addr⟩ lefts.length)
      fun _ final => Rebalanced degree least root free others orphans parent outer whole store final ∧
        Pins final.1 [(first.addr height, here), (second.addr height, there), (whole.addr, above)]
  merge : ∀ {least : Nat} {outer separators : Multiset (Entry Key)} {store : IndexStore} {root parent : Int}
    {free : List Int} {others orphans : Multiset Int} {whole : Inner Key height}
    {before behind : List (BTree Key height)} {first second : BTree Key height} {lefts rights : List (Entry Key)}
    {between : Entry Key} {here there above : Frame},
    Uneven records degree least outer separators store root free others orphans parent whole before first second
      behind lefts between rights →
    degree - 1 ≤ first.count height + second.count height →
    first.count height + second.count height + 1 ≤ 2 * degree - 1 →
    Pins store [(first.addr height, there), (second.addr height, here), (whole.addr, above)] →
    Ensures (Stands rel represents) (store, separators)
      (level.merge ⟨there, first.addr height⟩ ⟨here, second.addr height⟩ between.1)
      fun _ final => final.2 = separators ∧ Pins final.1 [(whole.addr, above)] ∧
        ∃ rest, ∃ merged : BTree Key height, Merged degree handler root rest others orphans whole before first second
          behind between store final.1 merged

theorem leaf_balances (contract : Contract represents records callbacks) (enough : 2 ≤ degree) :
    Balances rel represents records degree true 0 (leafLevel degree callbacks) :=
  ⟨fun uneven more short held => ensures_leaf_borrow_left contract enough uneven more short held,
    fun uneven short more held => ensures_leaf_borrow_right contract enough uneven short more held,
    fun uneven sizes fits held => ensures_leaf_merge uneven sizes fits held⟩

omit [LinearOrder Key] in
theorem inner_balances {height : Nat} (enough : 2 ≤ degree) :
    Balances rel represents records degree false (height + 1) (innerLevel degree) :=
  ⟨fun uneven more short held => ensures_inner_borrow_left enough uneven more short held,
    fun uneven short more held => ensures_inner_borrow_right enough uneven short more held,
    fun uneven sizes fits held => ensures_inner_merge uneven sizes fits held⟩

end Levels

end MyJQL.BTreeLevels
