import MyJQL.HashMapLayout

/-!
# The free list of the space map

One specification for each function that takes a page from the free list or returns one to it,
and the walk they share with insertion. The free list is kept inside the free blocks themselves.
-/

namespace MyJQL.HashMapFreeList

open MyJQL.FileIo
open MyJQL.BufferPoolModel
open MyJQL.StateProgram
open MyJQL.PageStoreLogic
open MyJQL.HashMapModel
open MyJQL.HashMapLayout
open MyJQL.LinkedPages
open MyJQL.PageAccounting

set_option autoImplicit false

abbrev HashStore := PageStore HashPage

def KeepsPins (store after : HashStore) (touched : Int → Prop) : Prop :=
  ∀ addr frame, store.pin addr = some frame → ¬touched addr → after.pin addr = some frame

variable {rel : HashStore → HashPool → Prop}

theorem ensures_seek_room [PoolRules rel] {Node : Type} (shape : NodeShape HashPage Node) (items : Node → List Int)
    (link : shape.next = next)
    (hasItems : ∀ page node, shape.holds page node → HoldsItems page (items node))
    (others : List Int) {rest : List Node} {node : Node} {store : HashStore} {frame : Frame}
    {post : Int × PagePtr → HashStore → Prop}
    (segment : shape.Segment store.page (shape.addr node) (node :: rest) (-1))
    (inFile : ∀ member ∈ node :: rest, 0 ≤ shape.addr member ∧
      shape.addr member % pageSize = 0 ∧ shape.addr member < store.length)
    (nodup : ((node :: rest).map shape.addr).Nodup)
    (pin : store.pin (shape.addr node) = some frame)
    (within : PinnedWithin store (shape.addr node :: others)) (room : others.length + 1 < cachePage)
    (continues : ∀ passed found behind last after, node :: rest = passed ++ found :: behind →
      (∀ full ∈ passed, (items full).length = hashMapBlockSize) →
      ((items found).length < hashMapBlockSize ∨ behind = []) →
      after.page = store.page → after.length = store.length →
      after.pin (shape.addr found) = some last →
      PinnedWithin after (shape.addr found :: others) →
      post (shape.addr found, ⟨last, shape.addr found⟩) after) :
    Ensures rel store (seekRoom (shape.addr node) ⟨frame, shape.addr node⟩) post := by
  induction rest generalizing node store frame with
  | nil =>
      obtain ⟨_, holds, link'⟩ := segment
      rw [seek_room_eq]
      refine ensures_bind (ensures_load pin ?_)
      have last : next (store.page (shape.addr node)) = -1 := by rw [← link]; exact link'
      rw [if_neg (by rw [last]; omega)]
      exact ensures_pure _ (continues [] node [] frame store rfl (by simp) (.inr rfl) rfl rfl pin within)
  | cons second rest ih =>
      obtain ⟨_, holds, behind⟩ := segment
      have entry := hasItems _ _ holds
      have linked : next (store.page (shape.addr node)) = shape.addr second := by
        rw [← link]; exact behind.1
      obtain ⟨nonneg, aligned, inside⟩ := inFile second (by simp)
      have apart : shape.addr second ≠ shape.addr node := by
        simp only [List.map_cons, List.nodup_cons, List.mem_cons, not_or] at nodup
        exact fun same => nodup.1.1 same.symm
      rw [seek_room_eq]
      refine ensures_bind (ensures_load pin ?_)
      refine ensures_ite ?_ ?_
      · rintro ⟨full, _⟩
        have fullItems : (items node).length = hashMapBlockSize := by
          have := entry.count
          omega
        simp only [linked]
        refine ensures_bind (ensures_fetch nonneg aligned inside within (by simpa using room) ?_)
        intro secondFrame _
        refine ensures_bind (ensures_unpin frame (by simp [apart.symm, pin]) ?_)
        have relinked : shape.Segment store.page (shape.addr second) (second :: rest) (-1) := by
          rw [← linked, ← link]
          exact behind
        refine ih relinked (fun member inRest => inFile member (List.mem_cons_of_mem _ inRest))
          (List.nodup_cons.mp nodup).2 (by simp [apart]) ?_ ?_
        · refine pinned_within_unpinned (pinned_within_pinned within) fun page member different => ?_
          simp only [List.mem_cons] at member ⊢
          tauto
        · intro passed found last final after split fulls stop pages length foundPin foundWithin
          refine continues (node :: passed) found last final after (by rw [split]; rfl) ?_ stop
            pages length foundPin foundWithin
          intro full member
          rcases List.mem_cons.mp member with rfl | inPassed
          · exact fullItems
          · exact fulls full inPassed
      · intro notFull
        refine ensures_pure _ (continues [] node (second :: rest) frame store rfl (by simp) (.inl ?_)
          rfl rfl pin within)
        have := entry.count
        have := entry.bounded
        by_contra full
        exact notFull ⟨by omega, by rw [linked]; omega⟩

theorem holds_items_push {block : HashPage} {items : List Int} (holds : HoldsItems block items)
    (room : items.length < hashMapBlockSize) (addr : Int) :
    HoldsItems (setNItems (nItems block + 1) (setTable (nItems block).toNat addr block))
      (items ++ [addr]) := by
  have count := holds.count
  refine ⟨?_, ?_, ?_⟩
  · simp only [n_items_set_n_items, List.length_append, List.length_singleton]
    omega
  · simp only [List.length_append, List.length_singleton]
    omega
  · intro index inside
    simp only [List.length_append, List.length_singleton] at inside
    simp only [table_set_n_items, table_set_table, count, Int.toNat_natCast]
    split_ifs with last
    · simp [last]
    · rw [List.getElem_append_left (by omega)]
      exact holds.entries index (by omega)

theorem free_block_push {block : HashPage} {node : FreeBlock} (holds : HoldsFreeBlock block node)
    (room : node.items.length < hashMapBlockSize) (addr : Int) :
    HoldsFreeBlock (setNItems (nItems block + 1) (setTable (nItems block).toNat addr block))
      ⟨node.addr, node.items ++ [addr]⟩ := by
  have own := holds.own
  refine ⟨holds_items_push holds.toHoldsItems room addr, ?_⟩
  rw [List.head?_append_of_ne_nil _ fun nil => by simp [nil] at own]
  exact own

theorem free_block_started {addr : Int} (links : HashPage → HashPage) (old : HashPage) :
    HoldsFreeBlock (setTable 0 addr (setNItems 1 (links old))) ⟨addr, [addr]⟩ := by
  refine ⟨⟨by simp, by simp, ?_⟩, rfl⟩
  intro index inside
  have first : index = 0 := by simpa using inside
  simp [first]

theorem ensures_push_item [PoolRules rel] (items : List Int) {store : HashStore} {frame : Frame} {now : Int}
    {addr : Int} {post : Unit → HashStore → Prop}
    (holds : HoldsItems (store.page now) items) (room : items.length < hashMapBlockSize)
    (pin : store.pin now = some frame)
    (continues : post () (store.written now (setNItems (nItems (store.page now) + 1)
      (setTable (nItems (store.page now)).toNat addr (store.page now))))) :
    Ensures rel store (pushItem ⟨frame, now⟩ addr) post := by
  have := holds.count
  rw [pushItem]
  refine ensures_bind (ensures_load pin ?_)
  refine ensures_bind (ensures_check ⟨by omega, by omega⟩ ?_)
  exact ensures_amend pin continues

section Heap

variable {store : HashStore} {layout : HashLayout} {extra : Multiset Int} {others : List Int}

theorem heap_with_free (heap : Heap store.page store.length layout extra) {changed : Int → HashPage}
    {free : List FreeBlock} {newExtra : Multiset Int}
    (same : ∀ addr, addr ≠ 0 → addr ∉ layout.freePages + extra → changed addr = store.page addr)
    (control : maxSize (changed 0) = maxSize (store.page 0))
    (freeList : freeShape.Segment changed (freeBlockHead (changed 0)) free (-1))
    (accounted : (layout.withFree free).freePages + newExtra = layout.freePages + extra) :
    Heap changed store.length (layout.withFree free) newExtra := by
  refine ⟨?_, freeList, control.trans heap.control, ?_, heap.aligned⟩
  · intro size inRange
    have dirSame : changed (dirAddr size) = store.page (dirAddr size) := by
      refine same _ dir_addr_ne_zero fun member => ?_
      have once := owners_once heap inRange (dirAddr size)
      have := Multiset.count_pos.mpr (dir_addr_reserved inRange)
      have := Multiset.count_pos.mpr member
      rw [Multiset.count_add] at this
      omega
    rw [dirSame]
    refine NodeShape.segment_frame ?_ (heap.directory size inRange)
    intro block member
    have once := owners_once heap inRange block.addr
    have inChain : 0 < (blockAddrs (layout.bucket size)).count block.addr :=
      Multiset.count_pos.mpr (mem_block_addrs member)
    refine same block.addr ?_ fun taken => ?_
    · intro isZero
      have := Multiset.count_pos.mpr zero_reserved
      rw [isZero] at once inChain
      omega
    · have := Multiset.count_pos.mpr taken
      rw [Multiset.count_add] at this
      omega
  · rw [← heap.accounted, HashLayout.owned, HashLayout.owned]
    have chains := layout.with_free_chain_pages free
    have orphans : (layout.withFree free).orphans = layout.orphans := rfl
    rw [chains, orphans]
    calc reservedPages + layout.chainPages + (layout.withFree free).freePages + layout.orphans +
          newExtra
        = reservedPages + layout.chainPages + layout.orphans +
          ((layout.withFree free).freePages + newExtra) := by abel
      _ = reservedPages + layout.chainPages + layout.freePages + layout.orphans + extra := by
          rw [accounted]; abel

theorem free_ne_zero (heap : Heap store.page store.length layout extra) {addr : Int}
    (member : addr ∈ layout.freePages) : addr ≠ 0 := by
  rintro rfl
  have once := owners_once heap sizes_pos 0
  have := Multiset.count_pos.mpr member
  have := Multiset.count_pos.mpr zero_reserved
  omega

theorem free_pages_nodup (heap : Heap store.page store.length layout extra) :
    (layout.free.flatMap FreeBlock.items).Nodup := by
  rw [← Multiset.coe_nodup, Multiset.nodup_iff_count_le_one]
  intro addr
  have once := owners_once heap sizes_pos addr
  simp only [HashLayout.freePages] at once
  omega

theorem free_block_addr_mem {page : Int → HashPage} {head tail : Int} {blocks : List FreeBlock}
    (segment : freeShape.Segment page head blocks tail) {block : FreeBlock} (member : block ∈ blocks) :
    block.addr ∈ blocks.flatMap FreeBlock.items := by
  obtain ⟨front, back, rfl⟩ := List.append_of_mem member
  have holds := (NodeShape.segment_focus segment).2.1
  exact List.mem_flatMap.mpr ⟨block, member, List.mem_of_head? holds.own⟩

/-- The blocks of the free list live on different pages: each lists its own address. -/
theorem free_block_addrs_nodup {page : Int → HashPage} {head tail : Int} {blocks : List FreeBlock}
    (segment : freeShape.Segment page head blocks tail)
    (nodup : (blocks.flatMap FreeBlock.items).Nodup) : (blocks.map FreeBlock.addr).Nodup := by
  induction blocks generalizing head with
  | nil => simp
  | cons block rest ih =>
      obtain ⟨_, holds, behind⟩ := segment
      rw [List.flatMap_cons, List.nodup_append'] at nodup
      obtain ⟨_, restNodup, disjoint⟩ := nodup
      rw [List.map_cons, List.nodup_cons]
      refine ⟨fun member => ?_, ih behind restNodup⟩
      obtain ⟨other, inRest, same⟩ := List.mem_map.mp member
      have otherMem := free_block_addr_mem behind inRest
      rw [same] at otherMem
      exact disjoint (List.mem_of_head? holds.own) otherMem

theorem holds_items_pop {block : HashPage} {front : List Int} {addr : Int}
    (holds : HoldsItems block (front ++ [addr])) :
    HoldsItems (setNItems (nItems block - 1) (setTable front.length (-1) block)) front := by
  have count := holds.count
  have bounded := holds.bounded
  simp only [List.length_append, List.length_singleton] at count bounded
  refine ⟨?_, by omega, ?_⟩
  · simp only [n_items_set_n_items]
    omega
  · intro index inside
    have entry := holds.entries index (by simp; omega)
    rw [List.getElem_append_left inside] at entry
    simp only [table_set_n_items, table_set_table, if_neg (show index ≠ front.length by omega)]
    exact entry

/-- The blocks behind the first do not depend on the first block's page. -/
theorem free_rest_kept (heap : Heap store.page store.length layout extra) {block : FreeBlock} {rest : List FreeBlock}
    {changed : Int → HashPage} (free : layout.free = block :: rest)
    (same : ∀ other, other ≠ 0 → other ≠ block.addr → changed other = store.page other) :
    freeShape.Segment changed (next (store.page block.addr)) rest (-1) := by
  have list := heap.free
  have nodup := free_block_addrs_nodup heap.free (free_pages_nodup heap)
  rw [free, List.map_cons, List.nodup_cons] at nodup
  rw [free] at list
  refine NodeShape.segment_frame ?_ list.2.2
  intro other member
  apply same other.addr
  · exact free_ne_zero heap (free_block_page heap (by rw [free]; exact List.mem_cons_of_mem _ member))
  · exact fun taken => nodup.1 (by rw [← taken]; exact List.mem_map_of_mem member)

theorem heap_block_taken (heap : Heap store.page store.length layout extra) {block : FreeBlock}
    {rest : List FreeBlock} {addr : Int} {changed : Int → HashPage} (free : layout.free = block :: rest)
    (items : block.items = [addr])
    (same : ∀ other, other ≠ 0 → other ≠ block.addr → changed other = store.page other)
    (control : maxSize (changed 0) = maxSize (store.page 0))
    (head : freeBlockHead (changed 0) = next (store.page block.addr)) :
    Heap changed store.length (layout.withFree rest) (addr ::ₘ extra) := by
  have blockFree : block.addr ∈ layout.freePages := free_block_page heap (by simp [free])
  refine heap_with_free heap ?_ control ?_ ?_
  · intro other nonzero notOurs
    exact same other nonzero (by rintro rfl; exact notOurs (Multiset.mem_add.mpr (.inl blockFree)))
  · rw [head]
    exact free_rest_kept heap free same
  · have whole : layout.freePages = addr ::ₘ (layout.withFree rest).freePages := by
      simp [HashLayout.freePages, HashLayout.withFree, free, items]
    rw [whole]
    simp only [Multiset.cons_add, Multiset.add_cons]

/-- The first block loses its last item and stays, since its own page is another item of it. -/
theorem heap_item_taken (heap : Heap store.page store.length layout extra) {block : FreeBlock}
    {rest : List FreeBlock} {front : List Int} {addr : Int} {changed : Int → HashPage}
    (free : layout.free = block :: rest) (items : block.items = front ++ [addr]) (remains : front ≠ [])
    (same : ∀ other, other ≠ block.addr → changed other = store.page other)
    (popped : changed block.addr = setNItems (nItems (store.page block.addr) - 1)
      (setTable front.length (-1) (store.page block.addr))) :
    Heap changed store.length (layout.withFree (⟨block.addr, front⟩ :: rest)) (addr ::ₘ extra) := by
  have blockFree : block.addr ∈ layout.freePages := free_block_page heap (by simp [free])
  have list := heap.free
  rw [free] at list
  obtain ⟨head, holds, behind⟩ := list
  have notZero := free_ne_zero heap blockFree
  refine heap_with_free heap ?_ (by rw [same 0 notZero.symm]) ?_ ?_
  · intro other _ notOurs
    exact same other (by rintro rfl; exact notOurs (Multiset.mem_add.mpr (.inl blockFree)))
  · refine ⟨by rw [same 0 notZero.symm]; exact head, ?_, ?_⟩
    · simp only [freeShape, popped]
      have own := holds.own
      rw [items, List.head?_append_of_ne_nil _ remains] at own
      exact ⟨holds_items_pop (items ▸ holds.toHoldsItems), own⟩
    · simp only [freeShape, popped, next_set_n_items, next_set_table]
      exact free_rest_kept heap free fun other _ different => same other different
  · have whole : layout.freePages = addr ::ₘ (layout.withFree (⟨block.addr, front⟩ :: rest)).freePages := by
      simp only [HashLayout.freePages, HashLayout.withFree, free, items, List.flatMap_cons, List.append_assoc,
        List.singleton_append]
      rw [Multiset.cons_coe, Multiset.coe_eq_coe]
      exact List.perm_middle
    rw [whole]
    simp only [Multiset.cons_add, Multiset.add_cons]

theorem ensures_get_new_hash_block [PoolRules rel] {post : Int → HashStore → Prop}
    (heap : Heap store.page store.length layout extra) (within : PinnedWithin store others)
    (room : others.length + 1 < cachePage)
    (empty : layout.free = [] → ∀ after : HashStore, after.page = store.page →
      after.length = store.length → KeepsPins store after (· = 0) → PinnedWithin after others →
      post (-1) after)
    (taken : ∀ addr free, ∀ after : HashStore, addr ∈ layout.freePages →
      Heap after.page after.length (layout.withFree free) (addr ::ₘ extra) →
      after.length = store.length →
      (∀ other, other ≠ 0 → other ∉ layout.freePages → after.page other = store.page other) →
      KeepsPins store after (fun other => other = 0 ∨ other ∈ layout.freePages) →
      PinnedWithin after others → post addr after) :
    Ensures rel store getNewHashBlock post := by
  obtain ⟨zeroNonneg, zeroAligned, zeroInside⟩ := reserved_in_file heap zero_reserved
  have list := heap.free
  rw [getNewHashBlock]
  refine ensures_bind (ensures_fetch zeroNonneg zeroAligned zeroInside within (by omega) ?_)
  intro zeroFrame _
  refine ensures_bind (ensures_load (by simp) ?_)
  cases free : layout.free with
  | nil =>
      rw [free] at list
      have none : freeBlockHead (store.page 0) = -1 := list
      rw [if_neg (by simp [none])]
      refine ensures_bind (ensures_unpin zeroFrame (by simp) ?_)
      refine ensures_pure _ (empty free _ rfl rfl ?_ ?_)
      · intro addr frame pin untouched
        simpa [untouched] using pin
      · exact pinned_within_unpinned (pinned_within_pinned within) (by simp; tauto)
  | cons block rest =>
      rw [free] at list
      obtain ⟨head, holds, _⟩ := list
      obtain ⟨front, addr, items⟩ : ∃ front addr, block.items = front ++ [addr] :=
        (List.eq_nil_or_concat' block.items).resolve_left
          (fun nil => by have := holds.own; simp [nil] at this)
      have blockFree : block.addr ∈ layout.freePages := free_block_page heap (by simp [free])
      obtain ⟨nonneg, aligned, inside⟩ := free_in_file heap blockFree
      have notZero := free_ne_zero heap blockFree
      have head' : freeBlockHead (store.page 0) = block.addr := head
      have entries : HoldsItems (store.page block.addr) (front ++ [addr]) := items ▸ holds.toHoldsItems
      have count := entries.count
      have bounded := entries.bounded
      simp only [List.length_append, List.length_singleton] at count bounded
      have lastIndex : (nItems (store.page block.addr) - 1).toNat = front.length := by omega
      have lastEntry : table (store.page block.addr) front.length = addr := by
        have := entries.entries front.length (by simp)
        simpa using this
      rw [if_pos (by simp [head']; omega)]
      simp only [PageStore.pinned_page, head']
      refine ensures_bind (ensures_fetch nonneg aligned inside (pinned_within_pinned within)
        (by simpa using room) ?_)
      intro frame _
      refine ensures_bind (ensures_load (by simp) ?_)
      refine ensures_bind (ensures_check (by simp only [PageStore.pinned_page]; omega) ?_)
      refine ensures_bind (ensures_amend (by simp) ?_)
      simp only [PageStore.pinned_page, lastIndex, lastEntry]
      -- both branches end by releasing the two pages; what they leave is a shorter free list
      have finish : ∀ (current : HashStore) (shorter : List FreeBlock),
          current.pin = ((store.pinned 0 zeroFrame).pinned block.addr frame).pin →
          current.length = store.length →
          (∀ other, other ≠ 0 → other ≠ block.addr → current.page other = store.page other) →
          Heap current.page store.length (layout.withFree shorter) (addr ::ₘ extra) →
          Ensures rel current (do unpin 0; unpin block.addr; pure addr) post := by
        intro current shorter pins length pages heapAfter
        refine ensures_bind (ensures_unpin zeroFrame (by simp [pins, notZero.symm]) ?_)
        refine ensures_bind (ensures_unpin frame (by simp [pins, notZero]) ?_)
        refine ensures_pure _ (taken addr shorter _ ?_ ?_ length ?_ ?_ ?_)
        · refine Multiset.mem_coe.mpr (List.mem_flatMap.mpr ⟨block, by simp [free], ?_⟩)
          simp [items]
        · simpa only [PageStore.unpinned_page, PageStore.unpinned_length, length] using heapAfter
        · intro other nonzero notFree
          exact pages other nonzero (by rintro rfl; exact notFree blockFree)
        · intro other holder pin untouched
          have notBlock : other ≠ block.addr := fun same => untouched (.inr (same ▸ blockFree))
          have nonzero : other ≠ 0 := fun same => untouched (.inl same)
          simp [pins, notBlock, nonzero, pin]
        · intro other holder pin
          have known := within other holder
          simp [pins] at pin
          grind
      refine ensures_ite ?_ ?_
      · intro emptied
        have nothing : front = [] := by
          rw [← List.length_eq_zero_iff]
          omega
        refine ensures_bind (ensures_amend (by simp [notZero.symm]) ?_)
        refine ensures_bind (ensures_amend (by simp) ?_)
        refine finish _ rest rfl rfl ?_ ?_
        · intro other nonzero notBlock
          simp [nonzero, notBlock]
        · apply heap_block_taken heap free (by rw [items, nothing, List.nil_append])
          · intro other nonzero notBlock
            simp [nonzero, notBlock]
          · simp [notZero.symm]
          · simp [notZero.symm]
      · intro left
        have remains : front ≠ [] := by
          intro nothing
          rw [nothing] at count
          simp only [List.length_nil] at count
          omega
        refine finish _ (⟨block.addr, front⟩ :: rest) rfl rfl ?_ ?_
        · intro other nonzero notBlock
          simp [notBlock]
        · apply heap_item_taken heap free items remains
          · intro other notBlock
            simp [notBlock]
          · simp

theorem extra_ne_zero (heap : Heap store.page store.length layout extra) {addr : Int}
    (member : addr ∈ extra) : addr ≠ 0 := by
  rintro rfl
  have once := owners_once heap sizes_pos 0
  have := Multiset.count_pos.mpr member
  have := Multiset.count_pos.mpr zero_reserved
  omega

theorem extra_not_free (heap : Heap store.page store.length layout extra) {addr : Int}
    (member : addr ∈ extra) : addr ∉ layout.freePages := by
  intro isFree
  have once := owners_once heap sizes_pos addr
  have := Multiset.count_pos.mpr member
  have := Multiset.count_pos.mpr isFree
  omega

theorem heap_list_started {addr : Int} (heap : Heap store.page store.length layout (addr ::ₘ extra))
    {changed : Int → HashPage} (free : layout.free = [])
    (same : ∀ other, other ≠ 0 → other ≠ addr → changed other = store.page other)
    (control : maxSize (changed 0) = maxSize (store.page 0)) (head : freeBlockHead (changed 0) = addr)
    (started : HoldsFreeBlock (changed addr) ⟨addr, [addr]⟩) (last : next (changed addr) = -1) :
    Heap changed store.length (layout.withFree [⟨addr, [addr]⟩]) extra := by
  refine heap_with_free heap ?_ control ⟨head, started, last⟩ ?_
  · intro other nonzero notOurs
    exact same other nonzero (by rintro rfl; exact notOurs (by simp))
  · simp [HashLayout.freePages, HashLayout.withFree, free]

section Release

variable {addr : Int} {passed behind : List FreeBlock} {found : FreeBlock} {changed : Int → HashPage}

theorem found_apart (heap : Heap store.page store.length layout extra)
    (free : layout.free = passed ++ found :: behind) :
    ∀ other ∈ passed ++ behind, other.addr ≠ found.addr := by
  have nodup := free_block_addrs_nodup heap.free (free_pages_nodup heap)
  rw [free, List.map_append, List.map_cons, List.nodup_middle, List.nodup_cons, ← List.map_append] at nodup
  exact fun other member same => nodup.1 (List.mem_map.mpr ⟨other, member, same⟩)

theorem heap_item_released (heap : Heap store.page store.length layout (addr ::ₘ extra))
    (free : layout.free = passed ++ found :: behind) (room : found.items.length < hashMapBlockSize)
    (same : ∀ other, other ≠ found.addr → changed other = store.page other)
    (pushed : changed found.addr = setNItems (nItems (store.page found.addr) + 1)
      (setTable (nItems (store.page found.addr)).toNat addr (store.page found.addr))) :
    Heap changed store.length (layout.withFree (passed ++ ⟨found.addr, found.items ++ [addr]⟩ :: behind)) extra := by
  have foundFree : found.addr ∈ layout.freePages := free_block_page heap (by simp [free])
  have notZero := free_ne_zero heap foundFree
  have list := heap.free
  rw [free] at list
  have holds : HoldsFreeBlock (store.page found.addr) found := (NodeShape.segment_focus list).2.1
  refine heap_with_free heap ?_ (by rw [same 0 notZero.symm]) ?_ ?_
  · intro other _ notOurs
    exact same other (by rintro rfl; exact notOurs (Multiset.mem_add.mpr (.inl foundFree)))
  · rw [same 0 notZero.symm]
    refine NodeShape.segment_replace list rfl ?_ ?_ ?_
    · exact fun other member => same other.addr (found_apart heap free other member)
    · simp only [free_shape_addr, pushed]
      exact free_block_push holds room addr
    · simp [pushed]
  · have accounted : (layout.withFree (passed ++ ⟨found.addr, found.items ++ [addr]⟩ :: behind)).freePages =
        addr ::ₘ layout.freePages := by
      simp only [HashLayout.freePages, HashLayout.withFree, free, List.flatMap_append, List.flatMap_cons]
      rw [Multiset.cons_coe, Multiset.coe_eq_coe]
      simp only [List.append_assoc]
      refine (List.Perm.append_left _ ?_).trans List.perm_middle
      refine (List.Perm.append_left _ ?_).trans List.perm_middle
      exact List.Perm.refl _
    rw [accounted]
    simp only [Multiset.cons_add, Multiset.add_cons]

theorem heap_block_released (heap : Heap store.page store.length layout (addr ::ₘ extra))
    (free : layout.free = passed ++ [found])
    (same : ∀ other, other ≠ found.addr → other ≠ addr → changed other = store.page other)
    (linked : changed found.addr = setNext addr (store.page found.addr))
    (started : HoldsFreeBlock (changed addr) ⟨addr, [addr]⟩) (last : next (changed addr) = -1) :
    Heap changed store.length (layout.withFree (passed ++ [found, ⟨addr, [addr]⟩])) extra := by
  have held : addr ∈ addr ::ₘ extra := Multiset.mem_cons_self _ _
  have addrNonzero := extra_ne_zero heap held
  have foundFree : found.addr ∈ layout.freePages := free_block_page heap (by simp [free])
  have notZero := free_ne_zero heap foundFree
  have list := heap.free
  rw [free] at list
  have holds : HoldsFreeBlock (store.page found.addr) found := (NodeShape.segment_focus list).2.1
  have notHeld : ∀ other ∈ layout.free, other.addr ≠ addr := fun other member taken =>
    extra_not_free heap held (taken ▸ free_block_page heap member)
  have zeroSame : changed 0 = store.page 0 := same 0 notZero.symm addrNonzero.symm
  refine heap_with_free heap ?_ (by rw [zeroSame]) ?_ ?_
  · intro other _ notOurs
    apply same other
    · rintro rfl
      exact notOurs (Multiset.mem_add.mpr (.inl foundFree))
    · rintro rfl
      exact notOurs (Multiset.mem_add.mpr (.inr held))
  · rw [zeroSame]
    refine NodeShape.segment_extend list ?_ ?_ ?_ started last
    · intro other member
      exact same other.addr (found_apart heap free other (by simp [member])) (notHeld other (by simp [free, member]))
    · simp only [free_shape_addr, linked]
      exact ⟨⟨by simpa using holds.count, holds.bounded, by simpa using holds.entries⟩, holds.own⟩
    · simp [linked]
  · have accounted : (layout.withFree (passed ++ [found, ⟨addr, [addr]⟩])).freePages = addr ::ₘ layout.freePages := by
      simp only [HashLayout.freePages, HashLayout.withFree, free, List.flatMap_append, List.flatMap_cons,
        List.flatMap_nil, List.append_nil]
      rw [Multiset.cons_coe, Multiset.coe_eq_coe, ← List.append_assoc]
      exact List.perm_append_singleton _ _
    rw [accounted]
    simp only [Multiset.cons_add, Multiset.add_cons]

end Release

section Listing

variable [PoolRules rel] {addr : Int} {frame : Frame} {post : Unit → HashStore → Prop}

theorem ensures_start_list (heap : Heap store.page store.length layout (addr ::ₘ extra)) (free : layout.free = [])
    (pin : store.pin 0 = some frame) (within : PinnedWithin store (0 :: others)) (room : others.length + 2 < cachePage)
    (released : ∀ free, ∀ after : HashStore, Heap after.page after.length (layout.withFree free) extra →
      after.length = store.length → PinnedWithin after others → post () after) :
    Ensures rel store (do
      amend ⟨frame, 0⟩ (setFreeBlockHead addr)
      unpin 0
      let mp ← fetch addr
      amend mp fun page => setTable 0 addr (setNItems 1 (setNext (-1) page))
      unpin addr) post := by
  have held : addr ∈ addr ::ₘ extra := Multiset.mem_cons_self _ _
  obtain ⟨addrNonneg, addrAligned, addrInside⟩ := extra_in_file heap held
  have addrNonzero := extra_ne_zero heap held
  refine ensures_bind (ensures_amend pin ?_)
  refine ensures_bind (ensures_unpin frame (by simpa using pin) ?_)
  have headWithin : PinnedWithin (store.written 0 (setFreeBlockHead addr (store.page 0))) (0 :: others) := within
  have freeWithin : PinnedWithin ((store.written 0 (setFreeBlockHead addr (store.page 0))).unpinned 0) others :=
    pinned_within_unpinned headWithin (by simp; tauto)
  refine ensures_bind (ensures_fetch addrNonneg addrAligned addrInside freeWithin (by omega) ?_)
  intro addrFrame _
  refine ensures_bind (ensures_amend (by simp) ?_)
  refine ensures_unpin addrFrame (by simp) ?_
  refine released [⟨addr, [addr]⟩] _ ?_ rfl ?_
  · apply heap_list_started heap free
    · intro other nonzero notAddr
      simp [nonzero, notAddr]
    · simp [addrNonzero.symm]
    · simp [addrNonzero.symm]
    · simp only [PageStore.unpinned_page, PageStore.written_page, if_true]
      exact free_block_started (setNext (-1)) _
    · simp
  · exact pinned_within_unpinned (pinned_within_pinned freeWithin) (by simp; tauto)

theorem ensures_list_page {passed behind : List FreeBlock} {found : FreeBlock}
    (heap : Heap store.page store.length layout (addr ::ₘ extra)) (free : layout.free = passed ++ found :: behind)
    (stop : found.items.length < hashMapBlockSize ∨ behind = []) (pin : store.pin found.addr = some frame)
    (within : PinnedWithin store (found.addr :: others)) (room : others.length + 2 < cachePage)
    (released : ∀ free, ∀ after : HashStore, Heap after.page after.length (layout.withFree free) extra →
      after.length = store.length → PinnedWithin after others → post () after) :
    Ensures rel store (do
      let block ← load ⟨frame, found.addr⟩
      if nItems block < hashMapBlockSize then
        pushItem ⟨frame, found.addr⟩ addr
        unpin found.addr
      else
        amend ⟨frame, found.addr⟩ (setNext addr)
        let fresh ← fetch addr
        unpin found.addr
        amend fresh fun page => setTable 0 addr (setNItems 1 (setNext (-1) (setPrv found.addr page)))
        unpin addr) post := by
  have held : addr ∈ addr ::ₘ extra := Multiset.mem_cons_self _ _
  obtain ⟨addrNonneg, addrAligned, addrInside⟩ := extra_in_file heap held
  have list := heap.free
  rw [free] at list
  have entries : HoldsItems (store.page found.addr) found.items := (NodeShape.segment_focus list).2.1.toHoldsItems
  have count := entries.count
  have bounded := entries.bounded
  have foundFree : found.addr ∈ layout.freePages := free_block_page heap (by simp [free])
  have foundNotAddr : found.addr ≠ addr := fun same => extra_not_free heap held (same ▸ foundFree)
  refine ensures_bind (ensures_load pin ?_)
  refine ensures_ite ?_ ?_
  · intro hasRoom
    have hasRoom : found.items.length < hashMapBlockSize := by omega
    refine ensures_bind (ensures_push_item found.items entries hasRoom pin ?_)
    refine ensures_unpin frame pin ?_
    refine released (passed ++ ⟨found.addr, found.items ++ [addr]⟩ :: behind) _ ?_ rfl ?_
    · apply heap_item_released heap free hasRoom
      · intro other notFound
        simp [notFound]
      · simp
    · have pushedWithin : ∀ page, PinnedWithin (store.written found.addr page) (found.addr :: others) := fun _ => within
      exact pinned_within_unpinned (pushedWithin _) (by simp; tauto)
  · intro noRoom
    obtain rfl : behind = [] := stop.resolve_left (by omega)
    refine ensures_bind (ensures_amend pin ?_)
    refine ensures_bind (ensures_fetch addrNonneg addrAligned addrInside within
      (by simp only [List.length_cons]; omega) ?_)
    intro addrFrame _
    refine ensures_bind (ensures_unpin frame (by simp [foundNotAddr, pin]) ?_)
    refine ensures_bind (ensures_amend (by simp [foundNotAddr.symm]) ?_)
    refine ensures_unpin addrFrame (by simp [foundNotAddr.symm]) ?_
    refine released (passed ++ [found, ⟨addr, [addr]⟩]) _ ?_ rfl ?_
    · apply heap_block_released heap free
      · intro other notFound notAddr
        simp [notFound, notAddr]
      · simp [foundNotAddr]
      · simp only [PageStore.unpinned_page, PageStore.written_page, if_true]
        exact free_block_started (fun page => setNext (-1) (setPrv found.addr page)) _
      · simp
    · intro other holder pinned
      have known := within other holder
      simp at pinned known
      grind

/-- A page the operation holds becomes a free page, in the first block with room or as a new last
block. -/
theorem ensures_release_new_hash_block (heap : Heap store.page store.length layout (addr ::ₘ extra))
    (within : PinnedWithin store others) (room : others.length + 2 < cachePage)
    (released : ∀ free, ∀ after : HashStore, Heap after.page after.length (layout.withFree free) extra →
      after.length = store.length → PinnedWithin after others → post () after) :
    Ensures rel store (releaseNewHashBlock addr) post := by
  obtain ⟨zeroNonneg, zeroAligned, zeroInside⟩ := reserved_in_file heap zero_reserved
  have list := heap.free
  rw [releaseNewHashBlock]
  refine ensures_bind (ensures_fetch zeroNonneg zeroAligned zeroInside within (by omega) ?_)
  intro zeroFrame _
  refine ensures_bind (ensures_load (by simp) ?_)
  have heapPinned : Heap (store.pinned 0 zeroFrame).page (store.pinned 0 zeroFrame).length layout (addr ::ₘ extra) :=
    heap
  cases free : layout.free with
  | nil =>
      rw [free] at list
      have none : freeBlockHead (store.page 0) = -1 := list
      rw [if_neg (by simp [none])]
      exact ensures_start_list heapPinned free (by simp) (pinned_within_pinned within) room released
  | cons block rest =>
      rw [free] at list
      have head : freeBlockHead (store.page 0) = block.addr := list.1
      have inFile : ∀ member ∈ block :: rest, 0 ≤ freeShape.addr member ∧
          freeShape.addr member % pageSize = 0 ∧ freeShape.addr member < store.length := fun member inList =>
        free_in_file heap (free_block_page heap (by rw [free]; exact inList))
      obtain ⟨nonneg, aligned, inside⟩ := inFile block List.mem_cons_self
      have blockNonzero : block.addr ≠ 0 := free_ne_zero heap (free_block_page heap (by simp [free]))
      have nodup : ((block :: rest).map freeShape.addr).Nodup := by
        have := free_block_addrs_nodup heap.free (free_pages_nodup heap)
        rwa [free] at this
      have chain : freeShape.Segment store.page (freeShape.addr block) (block :: rest) (-1) := by
        rw [head] at list
        exact list
      have blockNonneg : 0 ≤ block.addr := nonneg
      rw [if_pos (by simp only [PageStore.pinned_page, head]; omega)]
      simp only [PageStore.pinned_page, head]
      refine ensures_bind (ensures_fetch nonneg aligned inside (pinned_within_pinned within)
        (by simp only [List.length_cons]; omega) ?_)
      intro firstFrame _
      refine ensures_bind (ensures_unpin zeroFrame (by simp [blockNonzero.symm]) ?_)
      refine ensures_bind (ensures_seek_room freeShape FreeBlock.items rfl
        (fun _ _ holds => holds.toHoldsItems) others chain inFile nodup
        (by simp [blockNonzero]) ?_ (by omega) ?_)
      · exact pinned_within_unpinned (pinned_within_pinned (pinned_within_pinned within))
          (by simp; tauto)
      intro passed found behind last after split fulls stop pages length pin afterWithin
      have heapFound : Heap after.page after.length layout (addr ::ₘ extra) := by
        rw [pages, length]
        exact heap
      apply ensures_list_page heapFound (free.trans split) stop pin afterWithin room
      intro longer final finalHeap finalLength finalWithin
      exact released longer final finalHeap (finalLength.trans length) finalWithin

end Listing

end Heap

end MyJQL.HashMapFreeList
