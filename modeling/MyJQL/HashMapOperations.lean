import MyJQL.HashMapRemoval

/-!
# The two pops of the space map
-/

namespace MyJQL.HashMapOperations

open MyJQL.FileIo
open MyJQL.BufferPoolModel
open MyJQL.StateProgram
open MyJQL.PageStoreLogic
open MyJQL.HashMapModel
open MyJQL.HashMapLayout
open MyJQL.HashMapFreeList
open MyJQL.HashMapChains
open MyJQL.HashMapInsertion
open MyJQL.HashMapRemoval
open MyJQL.LinkedPages
open MyJQL.PageAccounting

set_option autoImplicit false

variable {rel : HashStore → HashPool → Prop} {store : HashStore} {layout : HashLayout} {others : List Int}
  {size : Nat} {addr : Int}

theorem chain_focus {length : Int} {page : Int → HashPage} {front back : List ChainBlock}
    {block : ChainBlock} (heap : Heap page length layout 0) (inRange : size < sizes)
    (bucket : layout.bucket size = front ++ block :: back) :
    HoldsChainBlock (page block.addr) block ∧
      chainShape.Segment page (next (page block.addr)) back (-1) := by
  have segment := heap.directory size inRange
  rw [bucket] at segment
  exact (NodeShape.segment_focus segment).2

/-- An address leaves its bucket, from whichever block stores it. -/
def Removed (layout : HashLayout) (others : List Int) (size : Nat) (addr : Int) (after : HashStore) : Prop :=
  ∃ front block back blocks, layout.bucket size = front ++ block :: back ∧ Taken front block back addr blocks ∧
    BucketPost layout others size blocks after

theorem removed_hash {after : HashStore} (inRange : size < sizes) (removed : Removed layout others size addr after) :
    HashPost layout.orphans others (layout.entries.erase (size, addr)) after := by
  obtain ⟨_, _, _, _, bucket, taken, post⟩ := removed
  exact bucket_post_hash post (entries_taken inRange bucket taken)

/-- The search behind a block finds the address in whichever later block stores it. -/
theorem ensures_pop_further [CutRules rel] {rest : List ChainBlock} {front : List ChainBlock} {block : ChainBlock}
    {pre : Int} {preFrame frame : Frame} (inRange : size < sizes)
    (heap : Heap store.page store.length layout 0)
    (bucket : layout.bucket size = front ++ block :: rest)
    (present : ∃ later ∈ rest, addr ∈ later.items) (apart : pre ≠ block.addr)
    (prePin : store.pin pre = some preFrame) (pin : store.pin block.addr = some frame)
    (within : PinnedWithin store (block.addr :: pre :: others)) (room : others.length + 4 < cachePage) :
    Ensures rel store (popFurther pre block.addr ⟨frame, block.addr⟩ addr) fun _ after =>
      Removed layout others size addr after := by
  induction rest generalizing front block pre preFrame frame store with
  | nil => simp at present
  | cons second rest ih =>
      have bucket' : layout.bucket size = (front ++ [block]) ++ second :: rest := by simpa using bucket
      obtain ⟨_, behind⟩ := chain_focus heap inRange bucket
      have linked : next (store.page block.addr) = second.addr := behind.1
      obtain ⟨holds, _⟩ := chain_focus heap inRange bucket'
      obtain ⟨nonneg, aligned, inside⟩ := chain_in_file heap inRange
        (show second ∈ layout.bucket size by rw [bucket']; simp)
      have distinct : block.addr ≠ second.addr :=
        neighbours_apart heap inRange bucket' block (by simp)
      have count := holds.count
      have bounded := holds.bounded
      rw [pop_further_eq]
      refine ensures_bind (ensures_load pin ?_)
      rw [if_pos (by rw [linked]; omega), linked]
      refine ensures_bind (ensures_unpin _ prePin ?_)
      have unpinnedWithin : PinnedWithin (store.unpinned pre) (block.addr :: others) :=
        pinned_within_unpinned within (by simp; tauto)
      refine ensures_bind (ensures_fetch nonneg aligned inside unpinnedWithin
        (by simp only [List.length_cons]; omega) ?_)
      intro secondFrame _
      refine ensures_bind (ensures_load (by simp) ?_)
      refine ensures_bind (ensures_check (by
        simp only [PageStore.pinned_page, PageStore.unpinned_page]; omega) ?_)
      simp only [PageStore.pinned_page, PageStore.unpinned_page]
      have blockPin : ((store.unpinned pre).pinned second.addr secondFrame).pin block.addr =
          some frame := by
        simp [distinct, apart.symm, pin]
      cases found : findItem (store.page second.addr) addr with
      | some index =>
          obtain ⟨indexInside, item⟩ := find_item_some holds.toHoldsItems found
          have heapNow : Heap ((store.unpinned pre).pinned second.addr secondFrame).page
              store.length layout 0 := heap
          rw [← item]
          refine ensures_mono (ensures_remove_item inRange heapNow bucket' indexInside distinct ?_ blockPin (by simp)
            (pinned_within_pinned unpinnedWithin) room) ?_
          · intro changed same relinked
            have unlinked := heap_unlink_behind heap inRange bucket same relinked
            simpa using unlinked
          · rintro _ after ⟨blocks, taken, post⟩
            exact ⟨_, second, rest, blocks, bucket', taken, post⟩
      | none =>
          refine ih heap bucket' ?_ distinct blockPin (by simp) (pinned_within_pinned unpinnedWithin)
          obtain ⟨later, member, inItems⟩ := present
          rcases List.mem_cons.mp member with rfl | behindSecond
          · exact absurd inItems (find_item_none holds.toHoldsItems found)
          · exact ⟨later, behindSecond, inItems⟩

/-- What opening a bucket leads to: its directory page and its first block are pinned. -/
structure OpenBucket (store after : HashStore) (others : List Int) (size : Nat) (block : ChainBlock)
    (dirFrame frame : Frame) : Prop where
  page : after.page = store.page
  length : after.length = store.length
  dirPin : after.pin (dirAddr size) = some dirFrame
  pin : after.pin block.addr = some frame
  within : PinnedWithin after (block.addr :: dirAddr size :: others)

theorem bucket_head {block : ChainBlock} {back : List ChainBlock}
    (heap : Heap store.page store.length layout 0) (inRange : size < sizes)
    (bucket : layout.bucket size = block :: back) :
    directory (store.page (dirAddr size)) (dirSlot size) = block.addr ∧
      block.addr ≠ dirAddr size ∧ 0 ≤ block.addr ∧ block.addr % pageSize = 0 ∧
      block.addr < store.length := by
  have chain := heap.directory size inRange
  rw [bucket] at chain
  refine ⟨chain.1, dir_apart heap inRange (by simp [blockAddrs, bucket]), ?_⟩
  exact chain_in_file heap inRange (by rw [bucket]; exact List.mem_cons_self)

theorem open_bucket_pinned {block : ChainBlock} (notDir : block.addr ≠ dirAddr size)
    (within : PinnedWithin store others) (dirFrame frame : Frame) :
    OpenBucket store ((store.pinned (dirAddr size) dirFrame).pinned block.addr frame) others size block
      dirFrame frame :=
  ⟨rfl, rfl, by simp [notDir.symm], by simp, pinned_within_pinned (pinned_within_pinned within)⟩

theorem ensures_remove_first [CutRules rel] {after : HashStore} {block : ChainBlock} {back : List ChainBlock}
    {dirFrame frame : Frame} {index : Nat} (inRange : size < sizes)
    (heap : Heap store.page store.length layout 0) (bucket : layout.bucket size = block :: back)
    (opened : OpenBucket store after others size block dirFrame frame)
    (inside : index < block.items.length) (room : others.length + 4 < cachePage) :
    Ensures rel after (removeItem ⟨dirFrame, dirAddr size⟩ (dirSlot size) (dirAddr size)
      block.addr ⟨frame, block.addr⟩ index) fun _ final =>
        ∃ blocks, Taken [] block back block.items[index] blocks ∧ BucketPost layout others size blocks final := by
  have heapNow : Heap after.page after.length layout 0 := by
    rw [opened.page, opened.length]
    exact heap
  have notDir := (bucket_head heap inRange bucket).2.1
  refine ensures_remove_item inRange heapNow
    (show layout.bucket size = [] ++ block :: back from bucket) inside notDir.symm ?_ opened.dirPin
    opened.pin opened.within room
  intro changed same relinked
  exact heap_unlink_first heapNow inRange bucket same relinked

theorem ensures_pop_chain [CutRules rel] (inRange : size < sizes)
    (heap : Heap store.page store.length layout 0) (present : (size, addr) ∈ layout.entries)
    (within : PinnedWithin store others) (room : others.length + 4 < cachePage) :
    Ensures rel store (hashTablePop size addr) fun _ after => Removed layout others size addr after := by
  obtain ⟨_, holder, inBucket, inItems⟩ := layout.mem_entries.mp present
  obtain ⟨dirNonneg, dirAligned, dirInside⟩ := reserved_in_file heap (dir_addr_reserved inRange)
  cases bucket : layout.bucket size with
  | nil => simp [bucket] at inBucket
  | cons block back =>
      obtain ⟨head, notDir, nonneg, aligned, inside⟩ := bucket_head heap inRange bucket
      obtain ⟨holds, _⟩ := chain_focus heap inRange
        (show layout.bucket size = [] ++ block :: back from bucket)
      have count := holds.count
      have bounded := holds.bounded
      rw [hashTablePop, if_pos (by simp only [pageSize, sizes] at *; omega)]
      refine ensures_bind (ensures_fetch dirNonneg dirAligned dirInside within (by omega) ?_)
      intro dirFrame _
      refine ensures_bind (ensures_load (by simp) ?_)
      simp only [PageStore.pinned_page, head]
      refine ensures_bind (ensures_fetch nonneg aligned inside (pinned_within_pinned within)
        (by simp only [List.length_cons]; omega) ?_)
      intro frame _
      have opened := open_bucket_pinned notDir within dirFrame frame
      refine ensures_bind (ensures_load opened.pin ?_)
      refine ensures_bind (ensures_check (by simp only [PageStore.pinned_page]; omega) ?_)
      simp only [PageStore.pinned_page]
      cases found : findItem (store.page block.addr) addr with
      | some index =>
          obtain ⟨indexInside, item⟩ := find_item_some holds.toHoldsItems found
          rw [← item]
          apply ensures_mono (ensures_remove_first inRange heap bucket opened indexInside room)
          rintro _ after ⟨blocks, taken, post⟩
          exact ⟨[], block, back, blocks, bucket, taken, post⟩
      | none =>
          refine ensures_pop_further inRange heap
            (show layout.bucket size = [] ++ block :: back from bucket) ?_ notDir.symm opened.dirPin
            opened.pin opened.within room
          rw [bucket] at inBucket
          rcases List.mem_cons.mp inBucket with rfl | later
          · exact absurd inItems (find_item_none holds.toHoldsItems found)
          · exact ⟨holder, later, inItems⟩

theorem ensures_hash_table_pop [CutRules rel] (inRange : size < sizes)
    (heap : Heap store.page store.length layout 0) (present : (size, addr) ∈ layout.entries)
    (within : PinnedWithin store others) (room : others.length + 4 < cachePage) :
    Ensures rel store (hashTablePop size addr) fun _ after =>
      HashPost layout.orphans others (layout.entries.erase (size, addr)) after :=
  ensures_mono (ensures_pop_chain inRange heap present within room) fun _ _ => removed_hash inRange

theorem ensures_my_hash_table_pop [CutRules rel] {block : ChainBlock} {back : List ChainBlock} {index : Nat}
    (inRange : size < sizes) (heap : Heap store.page store.length layout 0)
    (bucket : layout.bucket size = block :: back) (indexInside : index < block.items.length)
    (within : PinnedWithin store others) (room : others.length + 4 < cachePage) :
    Ensures rel store (myHashTablePop size addr index) fun _ after =>
      ∃ blocks, Taken [] block back block.items[index] blocks ∧ BucketPost layout others size blocks after := by
  obtain ⟨dirNonneg, dirAligned, dirInside⟩ := reserved_in_file heap (dir_addr_reserved inRange)
  obtain ⟨head, notDir, nonneg, aligned, inside⟩ := bucket_head heap inRange bucket
  rw [myHashTablePop, if_pos (by simp only [pageSize, sizes] at *; omega)]
  refine ensures_bind (ensures_fetch dirNonneg dirAligned dirInside within (by omega) ?_)
  intro dirFrame _
  refine ensures_bind (ensures_load (by simp) ?_)
  simp only [PageStore.pinned_page, head]
  refine ensures_bind (ensures_fetch nonneg aligned inside (pinned_within_pinned within)
    (by simp only [List.length_cons]; omega) ?_)
  intro frame _
  exact ensures_remove_first inRange heap bucket (open_bucket_pinned notDir within dirFrame frame)
    indexInside room

def behindDirectory : Int := 1152

theorem dir_addr_behind : dirAddr pageSize = behindDirectory := rfl

theorem reserved_length (heap : Heap store.page store.length layout 0) :
    behindDirectory ≤ store.length := by
  obtain ⟨_, _, inside⟩ := reserved_in_file heap (dir_addr_reserved 
    (show 127 < sizes by simp only [sizes]; omega))
  have aligned := heap.aligned
  simp only [behindDirectory, dirAddr, pageSize, hashMapDirBlockSize] at *
  omega

/-- Fetching the page at the end of the file only adds a page that belongs to nothing. -/
theorem heap_grown {extra : Multiset Int} {fetched : Int} {content : HashPage}
    (heap : Heap store.page store.length layout extra) (nonneg : 0 ≤ store.length)
    (inside : fetched ≤ store.length)
    (same : fetched < store.length → content = store.page fetched) :
    Heap (store.grown fetched content).page (store.grown fetched content).length
      { layout with orphans :=
          if fetched = store.length then fetched ::ₘ layout.orphans else layout.orphans } extra := by
  by_cases atEnd : fetched = store.length
  · have others : ∀ other, other < store.length →
        (store.grown fetched content).page other = store.page other := by
      intro other before
      rw [PageStore.grown_page, if_neg (by omega)]
    refine ⟨?_, ?_, ?_, ?_, ?_⟩
    · intro size inRange
      rw [others _ (reserved_in_file heap (dir_addr_reserved inRange)).2.2]
      refine NodeShape.segment_frame (fun block member => others _ ?_) (heap.directory size inRange)
      exact (chain_in_file heap inRange member).2.2
    · rw [others _ (reserved_in_file heap zero_reserved).2.2]
      refine NodeShape.segment_frame (fun block member => others _ ?_) heap.free
      exact (free_in_file heap (free_block_page heap member)).2.2
    · rw [others _ (reserved_in_file heap zero_reserved).2.2]
      exact heap.control
    · rw [PageStore.grown_length, if_pos atEnd, if_pos atEnd, pages_below_grow _ nonneg heap.aligned,
        ← heap.accounted, atEnd]
      simp only [HashLayout.owned, Multiset.add_cons, Multiset.cons_add]
      rfl
    · have aligned := heap.aligned
      rw [PageStore.grown_length, if_pos atEnd]
      simp only [pageSize] at *
      omega
  · have unchanged : (store.grown fetched content).page = store.page := by
      funext other
      rw [PageStore.grown_page]
      split_ifs with own
      · rw [own, same (by omega)]
      · rfl
    rw [PageStore.grown_length, if_neg atEnd, if_neg atEnd, unchanged]
    exact heap

theorem ensures_leave_directory [GrowRules rel] {post : Int × PagePtr → HashStore → Prop}
    (heap : Heap store.page store.length layout 0) (within : PinnedWithin store others)
    (room : others.length + 4 < cachePage)
    (left : ∀ dirFrame, ∀ after : HashStore,
      Heap after.page after.length { layout with orphans :=
        if behindDirectory = store.length then behindDirectory ::ₘ layout.orphans
        else layout.orphans } 0 →
      after.length = (if behindDirectory = store.length then store.length + pageSize else store.length) →
      after.pin behindDirectory = some dirFrame →
      PinnedWithin after (behindDirectory :: others) →
      post (pageSize, ⟨dirFrame, behindDirectory⟩) after) :
    Ensures rel store (do
      let following ← fetch behindDirectory
      scanDirectory pageSize following) post := by
  obtain ⟨_, _, zeroInside⟩ := reserved_in_file heap zero_reserved
  refine ensures_bind (ensures_fetch_grow (by decide) (by decide) (reserved_length heap) within (by omega) ?_)
  intro dirFrame content same
  rw [scanDirectory]
  refine ensures_bind (ensures_load (by simp) ?_)
  rw [dif_neg (by omega)]
  refine ensures_pure _ (left dirFrame _ ?_ rfl ?_ ?_)
  · exact heap_grown heap zeroInside.le (reserved_length heap) same
  · simp
  · exact pinned_within_pinned within

/-- The scan stops at the least size from the start on whose bucket holds anything. -/
theorem ensures_scan_directory [PoolRules rel] {remaining : Nat} {frame : Frame}
    {post : Int × PagePtr → HashStore → Prop} (bound : size + remaining = sizes) (started : size < sizes)
    (heap : Heap store.page store.length layout 0)
    (pin : store.pin (dirAddr size) = some frame)
    (within : PinnedWithin store (dirAddr size :: others)) (room : others.length + 4 < cachePage)
    (found : ∀ (least : Nat) dirFrame, ∀ after : HashStore, size ≤ least → least < sizes →
      layout.bucket least ≠ [] → (∀ smaller, size ≤ smaller → smaller < least →
        layout.bucket smaller = []) →
      after.page = store.page → after.length = store.length →
      after.pin (dirAddr least) = some dirFrame →
      PinnedWithin after (dirAddr least :: others) →
      post (least, ⟨dirFrame, dirAddr least⟩) after)
    (none : ∀ after : HashStore,
      (∀ larger, size ≤ larger → larger < sizes → layout.bucket larger = []) →
      after.page = store.page → after.length = store.length → PinnedWithin after others →
      Ensures rel after (do
        let following ← fetch behindDirectory
        scanDirectory pageSize following) post) :
    Ensures rel store (scanDirectory size ⟨frame, dirAddr size⟩) post := by
  induction remaining generalizing size store frame with
  | zero => omega
  | succ remaining ih =>
      have chain := heap.directory size started
      have inSizes : (size : Int) < pageSize := by simp only [pageSize, sizes] at *; omega
      rw [scanDirectory]
      refine ensures_bind (ensures_load pin ?_)
      cases bucket : layout.bucket size with
      | cons block back =>
          obtain ⟨head, _, nonneg, _⟩ := bucket_head heap started bucket
          rw [dif_neg (by rw [head]; omega)]
          refine ensures_pure _ (found size frame store le_rfl started (by simp [bucket]) ?_ rfl rfl
            pin within)
          intro smaller lower upper
          omega
      | nil =>
          rw [bucket] at chain
          have empty : directory (store.page (dirAddr size)) (dirSlot size) = -1 := chain
          rw [dif_pos ⟨empty, inSizes⟩]
          have emptyFrom : ∀ {limit : Nat}, (∀ smaller, size + 1 ≤ smaller → smaller < limit →
              layout.bucket smaller = []) → ∀ smaller, size ≤ smaller → smaller < limit →
              layout.bucket smaller = [] := by
            intro limit rest smaller lower upper
            rcases Nat.eq_or_lt_of_le lower with here | above
            · rw [← here]; exact bucket
            · exact rest smaller above upper
          have cast : ((size : Int) + 1) = ((size + 1 : Nat) : Int) := by push_cast; rfl
          have foundNext := fun least dirFrame after lower => found least dirFrame after
            (Nat.le_of_succ_le lower)
          rw [cast]
          by_cases atEnd : size + 1 = sizes
          · have last : ((size + 1 : Nat) : Int) = pageSize := by
              simp only [pageSize, sizes] at *; omega
            rw [last, dir_addr_behind, if_pos (show dirSlot pageSize = 0 from rfl)]
            refine ensures_bind (ensures_unpin frame pin ?_)
            have freeWithin : PinnedWithin (store.unpinned (dirAddr size)) others :=
              pinned_within_released within
            refine none _ (emptyFrom ?_) rfl rfl freeWithin
            intro larger lower upper
            omega
          · have nextStarted : size + 1 < sizes := by omega
            by_cases newPage : dirSlot ((size + 1 : Nat) : Int) = 0
            · rw [if_pos newPage]
              obtain ⟨nonneg, aligned, inside⟩ :=
                reserved_in_file heap (dir_addr_reserved nextStarted)
              refine ensures_bind (ensures_unpin frame pin ?_)
              have freeWithin : PinnedWithin (store.unpinned (dirAddr size)) others :=
                pinned_within_released within
              refine ensures_bind (ensures_fetch nonneg aligned inside freeWithin (by omega) ?_)
              intro nextFrame _
              refine ih (by omega) nextStarted heap (by simp) (pinned_within_pinned freeWithin) ?_ ?_
              · intro least dirFrame after lower upper nonempty smallest
                exact foundNext least dirFrame after lower upper nonempty (emptyFrom smallest)
              · intro after larger
                exact none after (emptyFrom larger)
            · have samePage : dirAddr (size : Int) = dirAddr ((size + 1 : Nat) : Int) := by
                simp only [dirAddr, dirSlot, hashMapDirBlockSize, pageSize] at *
                omega
              rw [if_neg newPage, samePage]
              rw [samePage] at pin within
              refine ih (by omega) nextStarted heap pin within ?_ ?_
              · intro least dirFrame after lower upper nonempty smallest
                exact foundNext least dirFrame after lower upper nonempty (emptyFrom smallest)
              · intro after larger
                exact none after (emptyFrom larger)

/-- No stored size is large enough, and the page behind the directory stays pinned. -/
def MissedPost (layout : HashLayout) (length : Int) (others : List Int) (size : Nat) (ans : Int)
    (after : HashStore) : Prop :=
  ans = -1 ∧ (∀ larger item, (larger, item) ∈ layout.entries → larger < size) ∧
    after.length = (if behindDirectory = length then length + pageSize else length) ∧
    (∃ frame, after.pin behindDirectory = some frame) ∧
    HashPost (if behindDirectory = length then behindDirectory ::ₘ layout.orphans else layout.orphans)
      (behindDirectory :: others) layout.entries after

/-- One address leaves the bucket of the least size that is large enough. -/
def FoundPost (layout : HashLayout) (others : List Int) (size : Nat) (ans : Int) (after : HashStore) :
    Prop :=
  ∃ least, (least, ans) ∈ layout.entries ∧ 0 ≤ ans ∧ size ≤ least ∧
    (∀ other item, (other, item) ∈ layout.entries → size ≤ other → least ≤ other) ∧
    HashPost layout.orphans others (layout.entries.erase (least, ans)) after

theorem entries_smaller (larger : ∀ larger, size ≤ larger → larger < sizes → layout.bucket larger = []) :
    ∀ other item, (other, item) ∈ layout.entries → other < size := by
  intro other item member
  by_contra atLeast
  obtain ⟨otherInRange, holder, inBucket, _⟩ := layout.mem_entries.mp member
  rw [larger other (by omega) otherInRange] at inBucket
  simp at inBucket

theorem bucket_empty (heap : Heap store.page store.length layout 0) (inRange : size < sizes)
    (none : ∀ item, (size, item) ∉ layout.entries) : layout.bucket size = [] := by
  cases bucket : layout.bucket size with
  | nil => rfl
  | cons block back =>
      obtain ⟨holds, _⟩ := chain_focus heap inRange (show layout.bucket size = [] ++ block :: back from bucket)
      obtain ⟨item, member⟩ := List.exists_mem_of_ne_nil _ holds.nonempty
      exact absurd (layout.mem_entries.mpr ⟨inRange, block, by simp [bucket], member⟩) (none item)

/-- An address leaves the first block of the first chain from a size on. -/
structure LeastRemoved (layout : HashLayout) (others : List Int) (size : Nat) (ans : Int) (after : HashStore)
    (least : Nat) (block : ChainBlock) (back blocks : List ChainBlock) : Prop where
  inRange : size ≤ least ∧ least < sizes
  smaller : ∀ smaller, size ≤ smaller → smaller < least → layout.bucket smaller = []
  bucket : layout.bucket least = block :: back
  item : ans ∈ block.items ∧ 0 ≤ ans
  taken : Taken [] block back ans blocks
  post : BucketPost layout others least blocks after

theorem least_removed_found {ans : Int} {after : HashStore} {least : Nat} {block : ChainBlock}
    {back blocks : List ChainBlock} (removed : LeastRemoved layout others size ans after least block back blocks) :
    FoundPost layout others size ans after := by
  obtain ⟨⟨lower, leastInRange⟩, smallest, bucket, ⟨item, nonneg⟩, taken, post⟩ := removed
  refine ⟨least, layout.mem_entries.mpr ⟨leastInRange, block, by simp [bucket], item⟩, nonneg, lower, ?_, ?_⟩
  · intro other item member atLeast
    by_contra smaller
    obtain ⟨_, holder, inBucket, _⟩ := layout.mem_entries.mp member
    rw [smallest other atLeast (by omega)] at inBucket
    simp at inBucket
  · exact bucket_post_hash post
      (entries_taken leastInRange (show layout.bucket least = [] ++ block :: back from bucket) taken)

theorem ensures_pop_lower_bound_chain [CutRules rel] (inRange : size < sizes)
    (heap : Heap store.page store.length layout 0) (within : PinnedWithin store others)
    (room : others.length + 4 < cachePage) {large : Nat} {stored : Int}
    (present : (large, stored) ∈ layout.entries) (enough : size ≤ large) :
    Ensures rel store (hashTablePopLowerBound size) fun ans after =>
      ∃ least block back blocks, LeastRemoved layout others size ans after least block back blocks := by
  obtain ⟨dirNonneg, dirAligned, dirInside⟩ := reserved_in_file heap (dir_addr_reserved inRange)
  rw [hashTablePopLowerBound, if_pos (by simp only [pageSize, sizes] at *; omega)]
  refine ensures_bind (ensures_fetch dirNonneg dirAligned dirInside within (by omega) ?_)
  intro startFrame _
  refine ensures_bind (ensures_scan_directory (Nat.add_sub_of_le inRange.le) inRange heap (by simp)
    (pinned_within_pinned within) room ?_ ?_)
  · intro least dirFrame after lower leastInRange nonempty smallest pages length dirPin afterWithin
    simp only [PageStore.pinned_page] at pages
    simp only [PageStore.pinned_length] at length
    cases bucket : layout.bucket least with
    | nil => exact absurd bucket nonempty
    | cons block back =>
        obtain ⟨head, notDir, nonneg, aligned, inside⟩ := bucket_head heap leastInRange bucket
        obtain ⟨holds, _⟩ := chain_focus heap leastInRange
          (show layout.bucket least = [] ++ block :: back from bucket)
        have count := holds.count
        have bounded := holds.bounded
        have itemsNonempty := List.length_pos_iff.mpr holds.nonempty
        have lastEntry := holds.entries (block.items.length - 1) (by omega)
        dsimp only
        rw [if_neg (by simp only [pageSize, sizes] at *; omega)]
        refine ensures_bind (ensures_load dirPin ?_)
        simp only [pages, head]
        refine ensures_bind (ensures_fetch nonneg aligned (by rw [length]; exact inside) afterWithin
          (by simp only [List.length_cons]; omega) ?_)
        intro frame _
        refine ensures_bind (ensures_unpin dirFrame (by simp [notDir.symm, dirPin]) ?_)
        refine ensures_bind (ensures_load (by simp [notDir]) ?_)
        simp only [PageStore.unpinned_page, PageStore.pinned_page]
        refine ensures_bind (ensures_check (by rw [pages]; omega) ?_)
        simp only [pages]
        refine ensures_bind (ensures_unpin frame (by simp [notDir]) ?_)
        have lastIndex : (nItems (store.page block.addr) - 1).toNat = block.items.length - 1 := by omega
        rw [lastIndex, lastEntry]
        refine ensures_bind (ensures_mono (ensures_my_hash_table_pop leastInRange
          (by simpa [pages, length] using heap) bucket (show block.items.length - 1 < _ by omega) ?_ room) ?_)
        · intro other holder pin
          have known := afterWithin other holder
          simp at pin known
          grind
        · rintro _ final ⟨blocks, taken, post⟩
          have item : block.items[block.items.length - 1] ∈ block.items := List.getElem_mem _
          exact ensures_pure _ ⟨least, block, back, blocks, ⟨lower, leastInRange⟩, smallest, bucket,
            ⟨item, holds.nonneg _ item⟩, taken, post⟩
  · intro after larger
    have := entries_smaller larger large stored present
    omega

theorem ensures_pop_lower_bound_found [CutRules rel] (inRange : size < sizes)
    (heap : Heap store.page store.length layout 0) (within : PinnedWithin store others)
    (room : others.length + 4 < cachePage) {large : Nat} {stored : Int}
    (present : (large, stored) ∈ layout.entries) (enough : size ≤ large) :
    Ensures rel store (hashTablePopLowerBound size) (FoundPost layout others size) := by
  apply ensures_mono (ensures_pop_lower_bound_chain inRange heap within room present enough)
  rintro ans after ⟨least, block, back, blocks, removed⟩
  exact least_removed_found removed

theorem ensures_pop_lower_bound_kept [GrowRules rel] (inRange : size < sizes)
    (heap : Heap store.page store.length layout 0) (within : PinnedWithin store others)
    (room : others.length + 4 < cachePage)
    (smaller : ∀ other item, (other, item) ∈ layout.entries → other < size) :
    Ensures rel store (hashTablePopLowerBound size) fun ans after => ans = -1 ∧
      after.length = (if behindDirectory = store.length then store.length + pageSize else store.length) ∧
      (∃ frame, after.pin behindDirectory = some frame) ∧ PinnedWithin after (behindDirectory :: others) ∧
      Heap after.page after.length { layout with orphans :=
        if behindDirectory = store.length then behindDirectory ::ₘ layout.orphans else layout.orphans } 0 := by
  obtain ⟨dirNonneg, dirAligned, dirInside⟩ := reserved_in_file heap (dir_addr_reserved inRange)
  rw [hashTablePopLowerBound, if_pos (by simp only [pageSize, sizes] at *; omega)]
  refine ensures_bind (ensures_fetch dirNonneg dirAligned dirInside within (by omega) ?_)
  intro startFrame _
  refine ensures_bind (ensures_scan_directory (Nat.add_sub_of_le inRange.le) inRange heap (by simp)
    (pinned_within_pinned within) room ?_ ?_)
  · intro least dirFrame after lower leastInRange nonempty
    refine absurd (bucket_empty heap leastInRange ?_) nonempty
    intro item member
    have := smaller least item member
    omega
  · intro after _ pages length afterWithin
    simp only [PageStore.pinned_page] at pages
    simp only [PageStore.pinned_length] at length
    have afterHeap : Heap after.page after.length layout 0 := by
      rw [pages, length]
      exact heap
    apply ensures_leave_directory afterHeap afterWithin room
    intro dirFrame final finalHeap finalLength finalPin finalWithin
    rw [length] at finalHeap finalLength
    dsimp only
    rw [if_pos rfl]
    exact ensures_pure _ ⟨rfl, finalLength, ⟨dirFrame, finalPin⟩, finalWithin, finalHeap⟩

theorem ensures_pop_lower_bound_missed [GrowRules rel] (inRange : size < sizes)
    (heap : Heap store.page store.length layout 0) (within : PinnedWithin store others)
    (room : others.length + 4 < cachePage)
    (smaller : ∀ other item, (other, item) ∈ layout.entries → other < size) :
    Ensures rel store (hashTablePopLowerBound size) (MissedPost layout store.length others size) := by
  apply ensures_mono (ensures_pop_lower_bound_kept inRange heap within room smaller)
  rintro ans after ⟨missing, length, pinned, afterWithin, afterHeap⟩
  exact ⟨missing, smaller, length, pinned, _, afterHeap, rfl, rfl, afterWithin⟩

/-- Either the search misses, or one address leaves. -/
def LowerBoundPost (layout : HashLayout) (length : Int) (others : List Int) (size : Nat) (ans : Int)
    (after : HashStore) : Prop :=
  MissedPost layout length others size ans after ∨ FoundPost layout others size ans after

theorem ensures_hash_table_pop_lower_bound [GrowRules rel] [CutRules rel] (inRange : size < sizes)
    (heap : Heap store.page store.length layout 0) (within : PinnedWithin store others)
    (room : others.length + 4 < cachePage) :
    Ensures rel store (hashTablePopLowerBound size)
      (LowerBoundPost layout store.length others size) := by
  by_cases finds : ∃ large stored, (large, stored) ∈ layout.entries ∧ size ≤ large
  · obtain ⟨large, stored, present, enough⟩ := finds
    apply ensures_mono (ensures_pop_lower_bound_found inRange heap within room present enough)
    exact fun _ _ found => .inr found
  · have smaller : ∀ other item, (other, item) ∈ layout.entries → other < size := by
      intro other item member
      by_contra enough
      exact finds ⟨other, item, member, by omega⟩
    apply ensures_mono (ensures_pop_lower_bound_missed inRange heap within room smaller)
    exact fun _ _ missed => .inl missed

end MyJQL.HashMapOperations
