import MyJQL.HashMapInsertion

/-!
# Removal from the space map

The two ways to take an entry out of a chain share their tail, `removeItem`: the gap is closed
with the last entry, or the emptied block is unlinked and its page cut off or recycled.
-/

namespace MyJQL.HashMapRemoval

open MyJQL.FileIo
open MyJQL.BufferPoolModel
open MyJQL.StateProgram
open MyJQL.PageStoreLogic
open MyJQL.HashMapModel
open MyJQL.HashMapLayout
open MyJQL.HashMapFreeList
open MyJQL.HashMapChains
open MyJQL.HashMapInsertion
open MyJQL.LinkedPages
open MyJQL.PageAccounting

set_option autoImplicit false

def closeGap (items : List Int) (index : Nat) : List Int :=
  match items.getLast? with
  | some last => (items.set index last).dropLast
  | none => []

@[simp] theorem close_gap_length (items : List Int) (index : Nat) :
    (closeGap items index).length = items.length - 1 := by
  rcases List.eq_nil_or_concat items with rfl | ⟨front, last, rfl⟩
  · rfl
  · simp [closeGap]

theorem close_gap_perm {items : List Int} {index : Nat} (inside : index < items.length) :
    items.Perm (items[index] :: closeGap items index) := by
  rcases List.eq_nil_or_concat items with rfl | ⟨front, last, rfl⟩
  · simp at inside
  simp only [List.concat_eq_append, List.length_append, List.length_singleton] at inside
  simp only [List.concat_eq_append, closeGap, List.getLast?_append, List.getLast?_singleton,
    Option.some_or]
  by_cases inFront : index < front.length
  · have change : (front ++ [last]).set index last = front.set index last ++ [last] :=
      List.set_append_left _ _ inFront
    rw [change, List.dropLast_concat, List.getElem_append_left inFront]
    calc (front ++ [last]).Perm (last :: front) := List.perm_append_singleton last front
      _ |>.Perm (last :: front[index] :: front.eraseIdx index) :=
        (List.getElem_cons_eraseIdx_perm inFront).symm.cons last
      _ |>.Perm (front[index] :: last :: front.eraseIdx index) := .swap _ _ _
      _ |>.Perm (front[index] :: front.set index last) :=
        (List.set_perm_cons_eraseIdx inFront last).symm.cons _
  · have isLast : index = front.length := by omega
    subst isLast
    have change : (front ++ [last]).set front.length last = front ++ [last] := by
      simp
    rw [change, List.dropLast_concat]
    simp

theorem close_gap_get {items : List Int} {index other : Nat} (inside : index < items.length)
    (bound : other < (closeGap items index).length) (lastInside : items.length - 1 < items.length)
    (otherInside : other < items.length) :
    (closeGap items index)[other] =
      if other = index then items[items.length - 1] else items[other] := by
  rcases List.eq_nil_or_concat items with rfl | ⟨front, last, rfl⟩
  · simp at inside
  simp only [close_gap_length, List.concat_eq_append, List.length_append, List.length_singleton,
    Nat.add_sub_cancel] at bound
  simp only [List.concat_eq_append, closeGap, List.getLast?_append, List.getLast?_singleton,
    Option.some_or, List.getElem_dropLast, List.getElem_set, List.length_append,
    List.length_singleton, Nat.add_sub_cancel]
  by_cases same : index = other
  · simp [same]
  · simp [same, Ne.symm same]

theorem find_last {found : Nat → Prop} [DecidablePred found] {bound last : Nat} (inside : last < bound)
    (holds : found last) (above : ∀ index, last < index → index < bound → ¬found index) :
    (List.range bound).reverse.find? (fun index => found index) = some last := by
  induction bound with
  | zero => omega
  | succ bound ih =>
      rw [List.range_succ, List.reverse_append, List.reverse_singleton, List.singleton_append]
      by_cases top : last = bound
      · subst top
        rw [List.find?_cons_of_pos (by simpa using holds)]
      · rw [List.find?_cons_of_neg (by simpa using above bound (by omega) (by omega))]
        exact ih (by omega) fun index lower upper => above index lower (by omega)

theorem fill_gap_behind {block : HashPage} {gap : Nat} (last : Nat) (behind : gap < last)
    (inside : last < hashMapBlockSize) (entry : 0 ≤ table block last)
    (above : ∀ index, last < index → index < hashMapBlockSize → table block index < 0) :
    fillGap gap block = setTable last (-1) (setTable gap (table block last) block) := by
  rw [fillGap, find_last inside ⟨behind, entry⟩]
  intro index lower upper taken
  have := above index lower upper
  omega

theorem fill_gap_at_end {block : HashPage} {gap : Nat}
    (above : ∀ index, gap < index → index < hashMapBlockSize → table block index < 0) :
    fillGap gap block = block := by
  rw [fillGap, List.find?_eq_none.mpr]
  intro index member
  have bound := List.mem_range.mp (List.mem_reverse.mp member)
  simp only [decide_eq_true_eq, not_and, not_le]
  exact fun behind => above index behind bound

theorem chain_block_remove {page : HashPage} {block : ChainBlock} {index : Nat}
    (holds : HoldsChainBlock page block) (inside : index < block.items.length)
    (several : block.items.length ≠ 1) :
    HoldsChainBlock (fillGap index (setNItems (nItems page - 1) (setTable index (-1) page)))
      ⟨block.addr, block.previous, closeGap block.items index⟩ ∧
    next (fillGap index (setNItems (nItems page - 1) (setTable index (-1) page))) = next page := by
  have count := holds.count
  have bounded := holds.bounded
  have entries := holds.entries
  have cleared := holds.cleared
  have keeps : ∀ item ∈ closeGap block.items index, item ∈ block.items := fun item member =>
    (close_gap_perm inside).mem_iff.mpr (List.mem_cons_of_mem _ member)
  have someLeft : closeGap block.items index ≠ [] := by
    rw [← List.length_pos_iff, close_gap_length]
    omega
  by_cases atEnd : index = block.items.length - 1
  · rw [fill_gap_at_end (by
      intro other lower upper
      simp only [table_set_n_items, table_set_table]
      rw [if_neg (by omega), cleared other (by omega) upper]
      omega)]
    refine ⟨⟨⟨?_, ?_, ?_⟩, ?_, someLeft, fun item member => holds.nonneg item (keeps item member),
      ?_⟩, by simp⟩
    · simp only [n_items_set_n_items, close_gap_length]
      omega
    · simp only [close_gap_length]
      omega
    · intro other bound
      rw [close_gap_length] at bound
      rw [close_gap_get inside (by simpa using bound) (by omega) (by omega), if_neg (by omega)]
      simp only [table_set_n_items, table_set_table]
      rw [if_neg (by omega), entries other (by omega)]
    · simpa using holds.previous
    · intro other lower upper
      simp only [close_gap_length] at lower
      simp only [table_set_n_items, table_set_table]
      split_ifs
      · rfl
      · exact cleared other (by omega) upper
  · have lastEntry := entries (block.items.length - 1) (by omega)
    rw [fill_gap_behind (block.items.length - 1) (by omega) (by omega)]
    · refine ⟨⟨⟨?_, ?_, ?_⟩, ?_, someLeft, fun item member => holds.nonneg item (keeps item member),
        ?_⟩, by simp⟩
      · simp only [n_items_set_n_items, n_items_set_table, close_gap_length]
        omega
      · simp only [close_gap_length]
        omega
      · intro other bound
        rw [close_gap_length] at bound
        rw [close_gap_get inside (by simpa using bound) (by omega) (by omega)]
        simp only [table_set_n_items, table_set_table]
        rw [if_neg (by omega), if_neg (Ne.symm atEnd), lastEntry]
        split_ifs
        · rfl
        · rw [entries other (by omega)]
      · simpa using holds.previous
      · intro other lower upper
        simp only [close_gap_length] at lower
        simp only [table_set_n_items, table_set_table]
        by_cases isLast : other = block.items.length - 1
        · rw [if_pos isLast]
        · rw [if_neg isLast, if_neg (by omega), if_neg (by omega)]
          exact cleared other (by omega) upper
    · simp only [table_set_n_items, table_set_table]
      rw [if_neg (Ne.symm atEnd), lastEntry]
      exact holds.nonneg _ (List.getElem_mem _)
    · intro other lower upper
      simp only [table_set_n_items, table_set_table]
      split_ifs
      · omega
      · rw [cleared other (by omega) upper]
        omega

theorem find_item_some {page : HashPage} {items : List Int} {addr : Int} {index : Nat}
    (holds : HoldsItems page items) (found : findItem page addr = some index) :
    ∃ inside : index < items.length, items[index] = addr := by
  have count := holds.count
  have member := List.mem_range.mp (List.mem_of_find?_eq_some found)
  have entry := List.find?_some found
  simp only [decide_eq_true_eq] at entry
  have inside : index < items.length := by omega
  exact ⟨inside, (holds.entries index inside).symm.trans entry⟩

theorem find_item_none {page : HashPage} {items : List Int} {addr : Int}
    (holds : HoldsItems page items) (missing : findItem page addr = none) : addr ∉ items := by
  intro member
  obtain ⟨index, inside, entry⟩ := List.getElem_of_mem member
  have count := holds.count
  have none := List.find?_eq_none.mp missing index (List.mem_range.mpr (by omega))
  simp only [decide_eq_true_eq] at none
  exact none ((holds.entries index inside).trans entry)

section Heap

variable {rel : HashStore → HashPool → Prop} {store : HashStore} {layout : HashLayout} {others : List Int} {size : Nat}
  {front back : List ChainBlock} {block : ChainBlock}

theorem entries_without_item {index : Nat} (inRange : size < sizes)
    (bucket : layout.bucket size = front ++ block :: back) (inside : index < block.items.length)
    (previous : Int) :
    (layout.withBucket size (front ++ ⟨block.addr, previous, closeGap block.items index⟩ :: back)).entries =
      layout.entries.erase (size, block.items[index]) := by
  have change := layout.entries_with_bucket
    (front ++ ⟨block.addr, previous, closeGap block.items index⟩ :: back) inRange
  have moved := (close_gap_perm inside).map fun addr => (size, addr)
  have whole : layout.entries = (size, block.items[index]) ::ₘ (layout.withBucket size
      (front ++ ⟨block.addr, previous, closeGap block.items index⟩ :: back)).entries := by
    rw [bucket] at change
    refine add_right_cancel (change.symm.trans ?_)
    simp only [HashLayout.bucketEntries, List.flatMap_append, List.flatMap_cons, List.map_append,
      ← Multiset.coe_add]
    rw [Multiset.coe_eq_coe.mpr moved, List.map_cons, ← Multiset.cons_coe]
    simp only [← Multiset.singleton_add]
    abel
  rw [whole, Multiset.erase_cons_head]

theorem entries_without_block (inRange : size < sizes)
    (bucket : layout.bucket size = front ++ block :: back) {addr : Int} (items : block.items = [addr]) :
    (layout.withBucket size (front ++ back)).entries = layout.entries.erase (size, addr) := by
  have change := layout.entries_with_bucket (front ++ back) inRange
  have whole : layout.entries = (size, addr) ::ₘ (layout.withBucket size (front ++ back)).entries := by
    rw [bucket] at change
    refine add_right_cancel (change.symm.trans ?_)
    simp only [HashLayout.bucketEntries, List.flatMap_append, List.flatMap_cons, List.map_append,
      items, List.map_cons, List.map_nil, ← Multiset.coe_add, ← Multiset.cons_coe, Multiset.coe_nil,
      ← Multiset.singleton_add]
    abel
  rw [whole, Multiset.erase_cons_head]

/-- One address leaves a block of a chain, and the block leaves the chain if it stored nothing else. -/
inductive Taken (front : List ChainBlock) (block : ChainBlock) (back : List ChainBlock) (addr : Int) :
    List ChainBlock → Prop
  | kept (index : Nat) (inside : index < block.items.length) (item : block.items[index] = addr)
      (several : block.items.length ≠ 1) :
      Taken front block back addr (front ++ ⟨block.addr, block.previous, closeGap block.items index⟩ :: back)
  | emptied (items : block.items = [addr]) : Taken front block back addr (front ++ back)

theorem entries_taken (inRange : size < sizes) (bucket : layout.bucket size = front ++ block :: back) {addr : Int}
    {blocks : List ChainBlock} (taken : Taken front block back addr blocks) :
    (layout.withBucket size blocks).entries = layout.entries.erase (size, addr) := by
  cases taken with
  | kept index inside item several =>
      rw [← item]
      exact entries_without_item inRange bucket inside block.previous
  | emptied items => exact entries_without_block inRange bucket items

theorem heap_cut_last {page : Int → HashPage} {length addr : Int} {extra : Multiset Int}
    (heap : Heap page length layout (addr ::ₘ extra)) (last : addr = length - pageSize) :
    Heap page (length - pageSize) layout extra := by
  obtain ⟨nonneg, aligned, _⟩ := extra_in_file heap (Multiset.mem_cons_self _ _)
  refine ⟨heap.directory, heap.free, heap.control, ?_, by rw [← last]; exact aligned⟩
  have grown := pages_below_grow (length - pageSize) (by omega) (by rw [← last]; exact aligned)
  have accounted := heap.accounted
  rw [sub_add_cancel] at grown
  rw [grown, ← last, Multiset.add_cons] at accounted
  rw [← last]
  exact (Multiset.cons_inj_right addr).mp accounted

/-- `unlinked` says what becomes of the chain when the block is taken out of it; it is the only
part that depends on whether the directory or another block links to the block. -/
theorem ensures_remove_item [CutRules rel] {index slot : Nat} {holderAddr : Int} {holderFrame frame : Frame}
    (inRange : size < sizes) (heap : Heap store.page store.length layout 0)
    (bucket : layout.bucket size = front ++ block :: back) (inside : index < block.items.length)
    (holderApart : holderAddr ≠ block.addr)
    (unlinked : ∀ changed : Int → HashPage,
      (∀ addr, addr ≠ holderAddr → addr ≠ block.addr → changed addr = store.page addr) →
      changed holderAddr = setWord slot (next (store.page block.addr)) (store.page holderAddr) →
      Heap changed store.length (layout.withBucket size (front ++ back)) (block.addr ::ₘ 0))
    (holderPin : store.pin holderAddr = some holderFrame) (pin : store.pin block.addr = some frame)
    (within : PinnedWithin store (block.addr :: holderAddr :: others))
    (room : others.length + 4 < cachePage) :
    Ensures rel store
      (removeItem ⟨holderFrame, holderAddr⟩ slot holderAddr block.addr ⟨frame, block.addr⟩ index)
      fun _ after => ∃ blocks, Taken front block back block.items[index] blocks ∧
        BucketPost layout others size blocks after := by
  obtain ⟨nonneg, aligned, inFile⟩ := chain_in_file heap inRange (show block ∈ layout.bucket size by rw [bucket]; simp)
  have holds : HoldsChainBlock (store.page block.addr) block := by
    have segment := heap.directory size inRange
    rw [bucket] at segment
    exact (NodeShape.segment_focus segment).2.1
  have count := holds.count
  have bounded := holds.bounded
  -- what follows once the emptied block is out of its chain
  have giveBack : ∀ current : HashStore,
      Heap current.page current.length (layout.withBucket size (front ++ back)) (block.addr ::ₘ 0) →
      current.pin block.addr = some frame → PinnedWithin current (block.addr :: others) →
      Ensures rel current (do
        let length ← fileLength
        if block.addr = length - pageSize then cutLast block.addr
        else
          unpin block.addr
          releaseNewHashBlock block.addr) fun _ after => BucketPost layout others size (front ++ back) after := by
    intro current left currentPin currentWithin
    refine ensures_bind (ensures_file_length ?_)
    refine ensures_ite ?_ ?_
    · intro last
      refine ensures_cut_last nonneg last ?_
      exact ⟨_, heap_cut_last left last, rfl, rfl, pinned_within_cut currentWithin (by simp; tauto)⟩
    · intro notLast
      refine ensures_bind (ensures_unpin _ currentPin ?_)
      refine ensures_release_new_hash_block left
        (pinned_within_unpinned currentWithin (by simp; tauto)) (by omega) ?_
      intro free after afterHeap _ afterWithin
      exact ⟨_, afterHeap, rfl, rfl, afterWithin⟩
  rw [removeItem]
  refine ensures_bind (ensures_check (by omega) ?_)
  refine ensures_bind (ensures_amend pin ?_)
  refine ensures_bind (ensures_load pin ?_)
  refine ensures_ite ?_ ?_
  · intro emptied
    simp only [PageStore.written_page, if_true, n_items_set_n_items] at emptied
    obtain ⟨addr, items⟩ := List.length_eq_one_iff.mp (show block.items.length = 1 by omega)
    have item : block.items[index] = addr := by simp [items]
    rw [item]
    refine ensures_bind (ensures_amend holderPin ?_)
    refine ensures_bind (ensures_amend pin ?_)
    refine ensures_bind (ensures_unpin _ holderPin ?_)
    refine ensures_mono (giveBack _ (unlinked _ ?_ ?_) ?_ ?_) fun _ _ post => ⟨_, .emptied items, post⟩
    · intro other notHolder notBlock
      simp [notHolder, notBlock]
    · simp [holderApart]
    · simp [holderApart.symm, pin]
    · exact pinned_within_unpinned within (by simp; tauto)
  · intro remains
    simp only [PageStore.written_page, if_true, n_items_set_n_items] at remains
    obtain ⟨removed, link⟩ := chain_block_remove holds inside (by omega)
    refine ensures_bind (ensures_amend pin ?_)
    refine ensures_bind (ensures_unpin _ holderPin ?_)
    refine ensures_unpin frame (by simp [holderApart.symm, pin]) ?_
    refine ⟨_, .kept index inside rfl (by omega), _, ?_, rfl, rfl, ?_⟩
    · simp only [PageStore.unpinned_length, PageStore.written_length]
      refine heap_replace_block heap inRange bucket rfl ?_ ?_ ?_
      · intro other notBlock
        simp [notBlock]
      · simp only [PageStore.unpinned_page, PageStore.written_page, if_true]
        exact removed
      · simp only [PageStore.unpinned_page, PageStore.written_page, if_true]
        exact link
    · intro other holder pin
      have known := within other holder
      simp at pin known
      grind

end Heap

end MyJQL.HashMapRemoval
