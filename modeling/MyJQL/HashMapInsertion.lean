import MyJQL.HashMapChains

/-!
# Insertion into the space map
-/

namespace MyJQL.HashMapInsertion

open MyJQL.FileIo
open MyJQL.BufferPoolModel
open MyJQL.StateProgram
open MyJQL.PageStoreLogic
open MyJQL.HashMapModel
open MyJQL.HashMapLayout
open MyJQL.HashMapFreeList
open MyJQL.HashMapChains
open MyJQL.LinkedPages
open MyJQL.PageAccounting

set_option autoImplicit false

variable {rel : HashStore → HashPool → Prop} {store : HashStore} {layout : HashLayout} {extra : Multiset Int}
  {others : List Int}

/-- The address is a recycled page or the end of the file. Once it is fetched the file is as long
as the heap in the conclusion says. -/
theorem ensures_new_store_addr [PoolRules rel] {post : Int → HashStore → Prop}
    (heap : Heap store.page store.length layout extra) (within : PinnedWithin store others)
    (room : others.length + 1 < cachePage)
    (continues : ∀ addr free, ∀ after : HashStore, after.length = store.length →
      addr ≤ store.length →
      Heap after.page (if addr = store.length then store.length + pageSize else store.length)
        (layout.withFree free) (addr ::ₘ extra) →
      KeepsPins store after (fun other => other = 0 ∨ other ∈ layout.freePages) →
      PinnedWithin after others → (addr = store.length → free = []) → post addr after) :
    Ensures rel store newStoreAddr post := by
  obtain ⟨_, _, zeroInside⟩ := reserved_in_file heap zero_reserved
  rw [newStoreAddr]
  refine ensures_bind (ensures_get_new_hash_block heap within room ?_ ?_)
  · intro none after pages length pins afterWithin
    rw [if_pos rfl]
    refine ensures_file_length ?_
    refine continues _ layout.free after length (by omega) ?_
      (fun addr frame pin untouched => pins addr frame pin fun isZero => untouched (.inl isZero))
      afterWithin (fun _ => none)
    rw [length, if_pos rfl, pages]
    refine ⟨heap.directory, heap.free, heap.control, ?_, ?_⟩
    · rw [pages_below_grow _ (by omega) heap.aligned, ← heap.accounted]
      exact Multiset.add_cons _ _ _
    · have := heap.aligned
      simp only [pageSize] at *
      omega
  · intro addr free after member afterHeap length pages pins afterWithin
    obtain ⟨nonneg, _, inside⟩ := free_in_file heap member
    rw [if_neg (by omega)]
    refine ensures_pure _ (continues addr free after length (by omega) ?_ pins afterWithin (by omega))
    rw [if_neg (by omega), ← length]
    exact afterHeap

theorem chain_block_push {page : HashPage} {block : ChainBlock} {addr : Int}
    (holds : HoldsChainBlock page block) (room : block.items.length < hashMapBlockSize)
    (nonneg : 0 ≤ addr) :
    HoldsChainBlock (setNItems (nItems page + 1) (setTable (nItems page).toNat addr page))
      ⟨block.addr, block.previous, block.items ++ [addr]⟩ := by
  have count := holds.count
  refine ⟨holds_items_push holds.toHoldsItems room addr, ?_, by simp, ?_, ?_⟩
  · simpa using holds.previous
  · intro item member
    rcases List.mem_append.mp member with old | new
    · exact holds.nonneg item old
    · rw [List.mem_singleton.mp new]
      exact nonneg
  · intro index lower upper
    simp only [List.length_append, List.length_singleton] at lower
    simp only [table_set_n_items, table_set_table, count, Int.toNat_natCast]
    rw [if_neg (by omega)]
    exact holds.cleared index (by omega) upper

theorem entries_with_push {size : Nat} (inRange : size < sizes) {front back : List ChainBlock}
    {block : ChainBlock} (bucket : layout.bucket size = front ++ block :: back) {addr : Int}
    (fresh : ChainBlock)
    (items : fresh.items = block.items ++ [addr]) :
    (layout.withBucket size (front ++ fresh :: back)).entries = (size, addr) ::ₘ layout.entries := by
  have change := layout.entries_with_bucket (front ++ fresh :: back) inRange
  refine add_right_cancel (b := HashLayout.bucketEntries size (layout.bucket size)) ?_
  rw [change, bucket]
  simp only [HashLayout.bucketEntries, List.flatMap_append, List.flatMap_cons, items,
    List.map_append, List.map_cons, List.map_nil, ← Multiset.coe_add, ← Multiset.cons_coe,
    Multiset.coe_nil, ← Multiset.singleton_add]
  abel

theorem entries_with_link {size : Nat} (inRange : size < sizes) {blocks : List ChainBlock}
    (bucket : layout.bucket size = blocks) {addr : Int} (fresh : ChainBlock)
    (items : fresh.items = [addr]) :
    (layout.withBucket size (blocks ++ [fresh])).entries = (size, addr) ::ₘ layout.entries := by
  have change := layout.entries_with_bucket (blocks ++ [fresh]) inRange
  refine add_right_cancel (b := HashLayout.bucketEntries size (layout.bucket size)) ?_
  rw [change, bucket]
  simp only [HashLayout.bucketEntries, List.flatMap_append, List.flatMap_cons, List.flatMap_nil,
    List.append_nil, items, List.map_append, List.map_cons, List.map_nil, ← Multiset.coe_add,
    ← Multiset.cons_coe, Multiset.coe_nil, ← Multiset.singleton_add]
  abel

/-- What an operation leaves: a file with the given entries, and no page pinned but `others`. -/
def HashPost (orphans : Multiset Int) (others : List Int) (entries : Multiset (Nat × Int))
    (after : HashStore) : Prop :=
  ∃ layout : HashLayout, Heap after.page after.length layout 0 ∧ layout.entries = entries ∧
    layout.orphans = orphans ∧ PinnedWithin after others

/-- What an operation on one bucket leaves: the chains are those of the layout with the blocks given for
that bucket. -/
def BucketPost (layout : HashLayout) (others : List Int) (size : Nat) (blocks : List ChainBlock)
    (after : HashStore) : Prop :=
  ∃ left : HashLayout, Heap after.page after.length left 0 ∧ left.bucket = (layout.withBucket size blocks).bucket ∧
    left.orphans = layout.orphans ∧ PinnedWithin after others

theorem bucket_post_hash {size : Nat} {blocks : List ChainBlock} {after : HashStore} {entries : Multiset (Nat × Int)}
    (post : BucketPost layout others size blocks after) (change : (layout.withBucket size blocks).entries = entries) :
    HashPost layout.orphans others entries after := by
  obtain ⟨left, heap, bucket, orphans, within⟩ := post
  refine ⟨left, heap, ?_, orphans, within⟩
  rw [← change, HashLayout.entries, bucket]
  rfl

/-- An address is pushed to a block of a chain, or starts a block behind it. `head` is the page that a first
block names as the one before it. -/
inductive PutIn (head addr : Int) : List ChainBlock → List ChainBlock → Prop
  | pushed (front back : List ChainBlock) (block : ChainBlock) : PutIn head addr (front ++ block :: back)
      (front ++ ⟨block.addr, block.previous, block.items ++ [addr]⟩ :: back)
  | first (store : Int) : PutIn head addr [] [⟨store, head, [addr]⟩]
  | behind (front : List ChainBlock) (last : ChainBlock) (store : Int) : PutIn head addr (front ++ [last])
      (front ++ [last, ⟨store, last.addr, [addr]⟩])

theorem entries_put_in {size : Nat} (inRange : size < sizes) {head addr : Int} {blocks : List ChainBlock}
    (put : PutIn head addr (layout.bucket size) blocks) :
    (layout.withBucket size blocks).entries = (size, addr) ::ₘ layout.entries := by
  generalize bucket : layout.bucket size = before at put
  cases put with
  | pushed front back block => exact entries_with_push inRange bucket _ rfl
  | first store => exact entries_with_link inRange bucket _ rfl
  | behind front last store =>
      have linked := entries_with_link inRange bucket ⟨store, last.addr, [addr]⟩ rfl
      simpa using linked

theorem ensures_start_block [GrowRules rel] {holder addr : Int} {holderFrame : Frame}
    {link : Int → HashPage → HashPage} {post : Unit → HashStore → Prop}
    (heap : Heap store.page store.length layout 0) (pin : store.pin holder = some holderFrame)
    (within : PinnedWithin store (holder :: others)) (room : others.length + 2 < cachePage)
    (untouched : ¬(holder = 0 ∨ holder ∈ layout.freePages))
    (apart : ∀ storeAddr free page length, Heap page length (layout.withFree free) (storeAddr ::ₘ 0) →
      storeAddr ≠ holder)
    (continues : ∀ storeAddr free page length old after, Heap page length (layout.withFree free) (storeAddr ::ₘ 0) →
      after.length = length → (∀ other, other ≠ holder → other ≠ storeAddr → after.page other = page other) →
      after.page holder = link storeAddr (page holder) → after.page storeAddr = startBlock holder addr old →
      PinnedWithin after others → (length = store.length ∨ free = []) → post () after) :
    Ensures rel store (do
      let storeAddr ← newStoreAddr
      amend ⟨holderFrame, holder⟩ (link storeAddr)
      let mp ← fetch storeAddr
      unpin holder
      amend mp (startBlock holder addr)
      unpin storeAddr) post := by
  refine ensures_bind (ensures_new_store_addr heap within (by simp only [List.length_cons]; omega) ?_)
  intro storeAddr free after length upper afterHeap pins afterWithin none
  obtain ⟨storeNonneg, storeAligned, _⟩ := extra_in_file afterHeap (Multiset.mem_cons_self _ _)
  have holderPin : after.pin holder = some holderFrame := pins _ _ pin untouched
  have storeApart : storeAddr ≠ holder := apart _ _ _ _ afterHeap
  refine ensures_bind (ensures_amend holderPin ?_)
  refine ensures_bind (ensures_fetch_grow storeNonneg storeAligned
    (by simp only [PageStore.written_length]; omega) afterWithin (by simp only [List.length_cons]; omega) ?_)
  intro frame old _
  refine ensures_bind (ensures_unpin holderFrame (by simp [storeApart.symm, holderPin]) ?_)
  refine ensures_bind (ensures_amend (by simp [storeApart]) ?_)
  refine ensures_unpin frame (by simp [storeApart]) ?_
  refine continues storeAddr free _ _ old _ afterHeap ?_ ?_ ?_ ?_ ?_ ?_
  · simp only [PageStore.unpinned_length, PageStore.written_length, PageStore.pinned_length,
      PageStore.grown_length, length]
  · intro other notHolder notStore
    simp [notHolder, notStore]
  · simp [storeApart.symm]
  · simp
  · intro other known pinned
    have listed := afterWithin other known
    simp at pinned listed
    grind
  · by_cases atEnd : storeAddr = store.length
    · exact .inr (none atEnd)
    · exact .inl (if_neg atEnd)

/-- What an insertion leaves: the address is in its chain, and the file has grown only if no page is free. -/
def InsertPost (layout : HashLayout) (others : List Int) (size : Nat) (addr length : Int) (after : HashStore) : Prop :=
  ∃ blocks, PutIn (dirAddr size) addr (layout.bucket size) blocks ∧
    ∃ left : HashLayout, Heap after.page after.length left 0 ∧ left.bucket = (layout.withBucket size blocks).bucket ∧
      left.orphans = layout.orphans ∧ PinnedWithin after others ∧ (after.length = length ∨ left.free = [])

section Placing

variable {size : Nat} {addr : Int} {frame : Frame}

theorem dir_not_listed (heap : Heap store.page store.length layout extra) (inRange : size < sizes) :
    ¬(dirAddr size = 0 ∨ dirAddr size ∈ layout.freePages) := by
  rintro (isZero | isFree)
  · exact dir_addr_ne_zero isZero
  · have once := owners_once heap inRange (dirAddr size)
    have := Multiset.count_pos.mpr (dir_addr_reserved inRange)
    have := Multiset.count_pos.mpr isFree
    omega

theorem block_not_listed (heap : Heap store.page store.length layout extra) (inRange : size < sizes)
    {block : ChainBlock} (member : block ∈ layout.bucket size) :
    ¬(block.addr = 0 ∨ block.addr ∈ layout.freePages) := by
  have once := owners_once heap inRange block.addr
  have := Multiset.count_pos.mpr (mem_block_addrs member)
  rintro (isZero | isFree)
  · have := Multiset.count_pos.mpr zero_reserved
    rw [← isZero] at this
    omega
  · have := Multiset.count_pos.mpr isFree
    omega

theorem ensures_put_first [GrowRules rel] (inRange : size < sizes) (nonneg : 0 ≤ addr)
    (heap : Heap store.page store.length layout 0) (bucket : layout.bucket size = [])
    (pin : store.pin (dirAddr size) = some frame) (within : PinnedWithin store (dirAddr size :: others))
    (room : others.length + 2 < cachePage) :
    Ensures rel store (do
      let storeAddr ← newStoreAddr
      amend ⟨frame, dirAddr size⟩ (setDirectory (dirSlot size) storeAddr)
      let mp ← fetch storeAddr
      unpin (dirAddr size)
      amend mp (startBlock (dirAddr size) addr)
      unpin storeAddr) fun _ after => InsertPost layout others size addr store.length after := by
  apply ensures_start_block heap pin within room (dir_not_listed heap inRange)
  · intro storeAddr free page length afterHeap
    exact dir_apart afterHeap inRange (by simp)
  intro storeAddr free page length old after afterHeap afterLength same relinked started afterWithin thrifty
  refine ⟨[⟨storeAddr, dirAddr size, [addr]⟩], ?_, (layout.withFree free).withBucket size
    [⟨storeAddr, dirAddr size, [addr]⟩], ?_, rfl, rfl, afterWithin, thrifty.imp_left afterLength.trans⟩
  · rw [bucket]
    exact .first storeAddr
  · rw [afterLength]
    exact heap_link_first old afterHeap inRange bucket nonneg same relinked started

theorem ensures_put_in [GrowRules rel] {passed behind : List ChainBlock} {found : ChainBlock} (inRange : size < sizes)
    (nonneg : 0 ≤ addr) (heap : Heap store.page store.length layout 0)
    (bucket : layout.bucket size = passed ++ found :: behind)
    (stop : found.items.length < hashMapBlockSize ∨ behind = []) (pin : store.pin found.addr = some frame)
    (within : PinnedWithin store (found.addr :: others)) (room : others.length + 2 < cachePage) :
    Ensures rel store (do
      let block ← load ⟨frame, found.addr⟩
      if nItems block < hashMapBlockSize then
        pushItem ⟨frame, found.addr⟩ addr
        unpin found.addr
      else
        let storeAddr ← newStoreAddr
        amend ⟨frame, found.addr⟩ (setNext storeAddr)
        let fresh ← fetch storeAddr
        unpin found.addr
        amend fresh (startBlock found.addr addr)
        unpin storeAddr) fun _ after => InsertPost layout others size addr store.length after := by
  have chain := heap.directory size inRange
  rw [bucket] at chain
  have holds : HoldsChainBlock (store.page found.addr) found := (NodeShape.segment_focus chain).2.1
  have count := holds.count
  refine ensures_bind (ensures_load pin ?_)
  refine ensures_ite ?_ ?_
  · intro hasRoom
    have hasRoom : found.items.length < hashMapBlockSize := by omega
    refine ensures_bind (ensures_push_item found.items holds.toHoldsItems hasRoom pin ?_)
    refine ensures_unpin frame pin ?_
    refine ⟨passed ++ ⟨found.addr, found.previous, found.items ++ [addr]⟩ :: behind, ?_, _, ?_, rfl, rfl, ?_, .inl rfl⟩
    · rw [bucket]
      exact .pushed passed behind found
    · simp only [PageStore.unpinned_length, PageStore.written_length]
      refine heap_replace_block heap inRange bucket rfl ?_ ?_ ?_
      · intro other notFound
        simp [notFound]
      · simp only [PageStore.unpinned_page, PageStore.written_page, if_true]
        exact chain_block_push holds hasRoom nonneg
      · simp
    · have pushedWithin : ∀ page, PinnedWithin (store.written found.addr page) (found.addr :: others) := fun _ => within
      exact pinned_within_unpinned (pushedWithin _) (by simp; tauto)
  · intro noRoom
    obtain rfl : behind = [] := stop.resolve_left (by omega)
    apply ensures_start_block heap pin within room (block_not_listed heap inRange (by simp [bucket]))
    · intro storeAddr free page length finalHeap same
      have once := owners_once finalHeap inRange found.addr
      have := Multiset.count_pos.mpr (mem_block_addrs (show found ∈ (layout.withFree free).bucket size by
        rw [HashLayout.with_free_bucket, bucket]; simp))
      have := Multiset.count_pos.mpr (show found.addr ∈ storeAddr ::ₘ 0 by simp [same])
      omega
    intro storeAddr free page length old final finalHeap finalLength same relinked started finalWithin thrifty
    refine ⟨passed ++ [found, ⟨storeAddr, found.addr, [addr]⟩], ?_, (layout.withFree free).withBucket size
      (passed ++ [found, ⟨storeAddr, found.addr, [addr]⟩]), ?_, rfl, rfl, finalWithin,
      thrifty.imp_left finalLength.trans⟩
    · rw [bucket]
      exact .behind passed found storeAddr
    · rw [finalLength]
      exact heap_link_behind old finalHeap inRange bucket nonneg same relinked started

theorem ensures_insert_thrifty [GrowRules rel] (inRange : size < sizes) (nonneg : 0 ≤ addr)
    (heap : Heap store.page store.length layout 0) (within : PinnedWithin store others)
    (room : others.length + 4 < cachePage) :
    Ensures rel store (hashTableInsert size addr) fun _ after =>
      InsertPost layout others size addr store.length after := by
  obtain ⟨dirNonneg, dirAligned, dirInside⟩ := reserved_in_file heap (dir_addr_reserved inRange)
  have chain := heap.directory size inRange
  rw [hashTableInsert, if_pos (by simp only [pageSize, sizes] at *; omega)]
  refine ensures_bind (ensures_fetch dirNonneg dirAligned dirInside within (by omega) ?_)
  intro dirFrame _
  refine ensures_bind (ensures_load (by simp) ?_)
  have heapPinned : Heap (store.pinned (dirAddr size) dirFrame).page (store.pinned (dirAddr size) dirFrame).length
      layout 0 := heap
  cases bucket : layout.bucket size with
  | nil =>
      rw [bucket] at chain
      have none : directory (store.page (dirAddr size)) (dirSlot size) = -1 := chain
      rw [if_pos (by simp only [PageStore.pinned_page, none])]
      exact ensures_put_first inRange nonneg heapPinned bucket (by simp) (pinned_within_pinned within) (by omega)
  | cons block rest =>
      rw [bucket] at chain
      have head : directory (store.page (dirAddr size)) (dirSlot size) = block.addr := chain.1
      have inFile : ∀ member ∈ block :: rest, 0 ≤ chainShape.addr member ∧
          chainShape.addr member % pageSize = 0 ∧ chainShape.addr member < store.length :=
        fun member inList => chain_in_file heap inRange (by rw [bucket]; exact inList)
      have nodup : ((block :: rest).map chainShape.addr).Nodup := by
        have := chain_block_addrs_nodup heap inRange
        rwa [bucket] at this
      have blockNotDir : block.addr ≠ dirAddr size := dir_apart heap inRange (by simp [mem_block_addrs, bucket])
      have segment : chainShape.Segment store.page (chainShape.addr block) (block :: rest) (-1) := by
        rw [head] at chain
        exact chain
      obtain ⟨blockNonneg, blockAligned, blockInside⟩ := inFile block List.mem_cons_self
      simp only [chain_shape_addr] at blockNonneg
      rw [if_neg (by simp only [PageStore.pinned_page, head]; omega)]
      simp only [PageStore.pinned_page, head]
      refine ensures_bind (ensures_fetch blockNonneg blockAligned blockInside
        (pinned_within_pinned within) (by simp only [List.length_cons]; omega) ?_)
      intro firstFrame _
      refine ensures_bind (ensures_unpin dirFrame (by simp [blockNotDir.symm]) ?_)
      refine ensures_bind (ensures_seek_room chainShape ChainBlock.items rfl
        (fun _ _ holds => holds.toHoldsItems) others segment inFile nodup
        (by simp [blockNotDir]) ?_ (by omega) ?_)
      · exact pinned_within_unpinned (pinned_within_pinned (pinned_within_pinned within))
          (by simp; tauto)
      intro passed found behind last after split fulls stop pages length pin afterWithin
      have heapFound : Heap after.page after.length layout 0 := by
        rw [pages, length]
        exact heap
      have put : Ensures rel after _ _ :=
        ensures_put_in inRange nonneg heapFound (bucket.trans split) stop pin afterWithin (by omega)
      rw [length] at put
      exact put

end Placing

theorem ensures_insert_chain [GrowRules rel] {size : Nat} {addr : Int} (inRange : size < sizes)
    (nonneg : 0 ≤ addr) (heap : Heap store.page store.length layout 0)
    (within : PinnedWithin store others) (room : others.length + 4 < cachePage) :
    Ensures rel store (hashTableInsert size addr) fun _ after =>
      ∃ blocks, PutIn (dirAddr size) addr (layout.bucket size) blocks ∧
        BucketPost layout others size blocks after := by
  apply ensures_mono (ensures_insert_thrifty inRange nonneg heap within room)
  rintro _ after ⟨blocks, put, left, afterHeap, bucket, orphans, afterWithin, _⟩
  exact ⟨blocks, put, left, afterHeap, bucket, orphans, afterWithin⟩

theorem ensures_hash_table_insert [GrowRules rel] {size : Nat} {addr : Int} (inRange : size < sizes)
    (nonneg : 0 ≤ addr) (heap : Heap store.page store.length layout 0)
    (within : PinnedWithin store others) (room : others.length + 4 < cachePage) :
    Ensures rel store (hashTableInsert size addr) fun _ after =>
      HashPost layout.orphans others ((size, addr) ::ₘ layout.entries) after := by
  apply ensures_mono (ensures_insert_chain inRange nonneg heap within room)
  rintro _ after ⟨blocks, put, post⟩
  exact bucket_post_hash post (entries_put_in inRange put)

end MyJQL.HashMapInsertion
