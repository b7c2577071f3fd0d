import MyJQL.HashMapOperations

/-!
# The space map refines a finite map

Opening an empty file, printing, and the run theorem: in every state that the public operations
reach, the printed pairs are exactly the pairs of a reference map, and every allowed call answers
and moves as the reference does.
-/

namespace MyJQL.HashMapRefinement

open MyJQL.FileIo
open MyJQL.BufferPoolModel
open MyJQL.StateProgram
open MyJQL.PageStoreLogic
open MyJQL.HashMapModel
open MyJQL.HashMapLayout
open MyJQL.HashMapFreeList
open MyJQL.HashMapChains
open MyJQL.HashMapInsertion
open MyJQL.HashMapRemoval
open MyJQL.HashMapOperations
open MyJQL.LinkedPages
open MyJQL.PageAccounting

set_option autoImplicit false

def emptyLayout : HashLayout := ⟨fun _ => [], [], 0⟩

theorem empty_entries : emptyLayout.entries = 0 := by
  simp [HashLayout.entries, HashLayout.bucketEntries, emptyLayout]

theorem reserved_pages_below : reservedPages = pagesBelow 1152 := by
  rw [reservedPages, pagesBelow]
  rfl

/-- After `first` directory pages: the pages so far read as empty. -/
structure Started (store : HashStore) (first : Nat) : Prop where
  length : store.length = first * pageSize
  size : store.size = store.length
  maxSize : maxSize (store.page 0) = sizes
  freeHead : freeBlockHead (store.page 0) = -1
  words : ∀ page : Nat, 1 ≤ page → page < first → ∀ slot, slot < hashMapDirBlockSize →
    directory (store.page (page * pageSize)) slot = -1

theorem ensures_init_directories {count first : Nat} {store : HashStore} (started : Started store first)
    (positive : 1 ≤ first) (within : PinnedWithin store []) :
    Ensures StoresPool store (initDirectories count first) fun _ after =>
      Started after (first + count) ∧ PinnedWithin after [] := by
  induction count generalizing first store with
  | zero => exact ensures_pure _ ⟨started, within⟩
  | succ count ih =>
      rw [initDirectories]
      refine ensures_bind (ensures_append started.length.symm within (by decide) ?_)
      intro frame page
      refine ensures_bind (ensures_amend (by simp) ?_)
      refine ensures_bind (ensures_unpin frame (by simp) ?_)
      refine ensures_mono (ih ⟨?_, ?_, ?_, ?_, ?_⟩ (by omega) ?_) ?_
      · simp only [PageStore.unpinned_length, PageStore.written_length, PageStore.pinned_length,
          PageStore.appended_length, started.length, pageSize]
        push_cast
        ring
      · simp [started.size, pageSize]
      · have apart : (0 : Int) ≠ first * pageSize := by simp only [pageSize]; omega
        have apart' : (0 : Int) ≠ store.length := by rw [started.length]; exact apart
        simp [apart, apart', started.maxSize]
      · have apart : (0 : Int) ≠ first * pageSize := by simp only [pageSize]; omega
        have apart' : (0 : Int) ≠ store.length := by rw [started.length]; exact apart
        simp [apart, apart', started.freeHead]
      · intro index lower upper slot inside
        by_cases last : index = first
        · subst last
          simp [directory, inside]
        · have apart : (index : Int) * pageSize ≠ first * pageSize := by
            simp only [pageSize]
            omega
          have apart' : (index : Int) * pageSize ≠ store.length := by rw [started.length]; exact apart
          simp only [PageStore.unpinned_page, PageStore.written_page, PageStore.pinned_page,
            PageStore.appended_page, if_neg apart, if_neg apart']
          exact started.words index lower (by omega) slot inside
      · exact pinned_within_released (pinned_within_pinned (show PinnedWithin (store.appended page) [] from within))
      · intro _ after post
        rwa [Nat.add_right_comm, Nat.add_assoc] at post

theorem hash_table_init_empty (disk : Disk HashPage) (empty : disk.size = 0) (memory : HashPool) :
    ∃ store pool, hashTableInit disk 8 memory = some ((), pool) ∧ StoresPool store pool ∧
      Heap store.page store.length emptyLayout 0 ∧ PinnedWithin store [] ∧ store.size = store.length := by
  have built : Ensures StoresPool (PageStore.opened disk) (do
      let length ← fileLength
      if length = 0 then
        let ctr ← fetch 0
        amend ctr fun page =>
          setMaxSize ((8 : Nat) * hashMapDirBlockSize)
            (setNDirectoryBlocks (8 : Nat) (setFreeBlockHead (-1) page))
        unpin 0
        initDirectories 8 1
      else pure ()) fun _ after => Started after 9 ∧ PinnedWithin after [] := by
    refine ensures_bind (ensures_file_length ?_)
    rw [if_pos (by exact empty)]
    refine ensures_bind (ensures_append (by exact empty.symm) (opened_pinned_within disk [])
      (by decide) ?_)
    intro frame page
    refine ensures_bind (ensures_amend (by simp) ?_)
    refine ensures_bind (ensures_unpin frame (by simp) ?_)
    refine ensures_init_directories ⟨?_, ?_, ?_, ?_, fun index lower upper => by omega⟩ le_rfl ?_
    · simp [PageStore.opened, empty]
    · simp [PageStore.opened, empty, pageSize]
    · simp [maxSize, setMaxSize, setWord, sizes]
    · simp [freeBlockHead, setMaxSize, setNDirectoryBlocks, setFreeBlockHead, setWord]
    · exact pinned_within_released (pinned_within_pinned
        (show PinnedWithin ((PageStore.opened disk).appended page) [] from opened_pinned_within disk []))
  obtain ⟨_, pool, store, ran, stores, started, within⟩ :=
    built _ (opened_stores disk memory (by omega) (by rw [empty]; rfl))
  refine ⟨store, pool, ran, stores, ⟨?_, ?_, started.maxSize, ?_, ?_⟩, within, started.size⟩
  · intro size inRange
    have lower : size / 16 + 1 < 9 := by simp only [sizes] at inRange; omega
    have word := started.words (size / 16 + 1) (by omega) lower (dirSlot size) (dir_slot_lt _)
    rw [show ((size / 16 + 1 : Nat) : Int) * pageSize = dirAddr size by
      simp only [dirAddr, pageSize, hashMapDirBlockSize]; push_cast; rfl] at word
    exact word
  · exact started.freeHead
  · have chains : emptyLayout.chainPages = 0 := by
      simp [HashLayout.chainPages, emptyLayout, blockAddrs]
    have length : store.length = 1152 := by rw [started.length]; rfl
    rw [HashLayout.owned, chains, length, ← reserved_pages_below]
    simp [HashLayout.freePages, emptyLayout]
  · rw [started.length]
    rfl

section Printing

variable {store : HashStore} {layout : HashLayout} {others : List Int}

def printedBlock (block : ChainBlock) : PrintedBlock := (block.addr, block.items)

theorem printed_items {page : HashPage} {items : List Int} (holds : HoldsItems page items) :
    (List.range (nItems page).toNat).map (table page) = items := by
  refine List.ext_getElem ?_ ?_
  · simp [holds.count]
  · intro index _ inside
    simp [holds.entries index inside]

theorem ensures_print_blocks {blocks : List ChainBlock} {head : Int} (printed : List PrintedBlock)
    (segment : chainShape.Segment store.page head blocks (-1))
    (inFile : ∀ block ∈ blocks, 0 ≤ block.addr ∧ block.addr % pageSize = 0 ∧ block.addr < store.length)
    (within : PinnedWithin store others) (room : others.length < cachePage) :
    Ensures StoresPool store (printBlocks head printed) fun lines after =>
      lines = printed ++ blocks.map printedBlock ∧ after.page = store.page ∧ after.length = store.length ∧
        KeepsPins store after (· ∈ blocks.map ChainBlock.addr) ∧ PinnedWithin after others := by
  induction blocks generalizing head store printed with
  | nil =>
      have isEnd : head = -1 := segment
      rw [print_blocks_eq, if_neg (by simp [isEnd])]
      exact ensures_pure _ ⟨(List.append_nil _).symm, rfl, rfl, fun _ _ pin _ => pin, within⟩
  | cons block rest ih =>
      obtain ⟨own, holds, behind⟩ := segment
      obtain ⟨nonneg, aligned, inside⟩ := inFile block List.mem_cons_self
      simp only [chain_shape_addr, chain_shape_next] at own holds behind
      have bounded := holds.bounded
      have count := holds.count
      rw [print_blocks_eq, own, if_pos (by omega)]
      refine ensures_bind (ensures_fetch nonneg aligned inside within room ?_)
      intro frame _
      refine ensures_bind (ensures_load (by simp) ?_)
      refine ensures_bind (ensures_check (by simp only [PageStore.pinned_page]; omega) ?_)
      refine ensures_bind (ensures_unpin frame (by simp) ?_)
      simp only [PageStore.pinned_page]
      rw [printed_items holds.toHoldsItems]
      have left : PinnedWithin ((store.pinned block.addr frame).unpinned block.addr) others :=
        pinned_within_released (pinned_within_pinned within)
      refine ensures_mono (ih _ behind (fun other member => inFile other (List.mem_cons_of_mem _ member)) left) ?_
      rintro lines after ⟨more, pages, length, pins, afterWithin⟩
      refine ⟨?_, pages, length, ?_, afterWithin⟩
      · rw [more, List.append_assoc]
        rfl
      · intro addr holder pin untouched
        simp only [List.map_cons, List.mem_cons, not_or] at untouched
        exact pins addr holder (by simp [untouched.1, pin]) untouched.2

theorem ensures_print_chain {blocks : List ChainBlock} {head : Int}
    (segment : chainShape.Segment store.page head blocks (-1))
    (inFile : ∀ block ∈ blocks, 0 ≤ block.addr ∧ block.addr % pageSize = 0 ∧ block.addr < store.length)
    (within : PinnedWithin store others) (room : others.length < cachePage) :
    Ensures StoresPool store (printChain head) fun lines after =>
      lines = blocks.map printedBlock ∧ after.page = store.page ∧ after.length = store.length ∧
        KeepsPins store after (· ∈ blocks.map ChainBlock.addr) ∧ PinnedWithin after others :=
  ensures_print_blocks [] segment inFile within room

def printedSize (layout : HashLayout) (size : Nat) : List (Nat × List PrintedBlock) :=
  match layout.bucket size with
  | [] => []
  | blocks => [(size, blocks.map printedBlock)]

theorem ensures_print_sizes {count first : Nat} (bound : first + count ≤ sizes)
    (heap : Heap store.page store.length layout 0) (within : PinnedWithin store others)
    (room : others.length + 1 < cachePage) :
    Ensures StoresPool store (printSizes count first) fun lines after =>
      lines = (List.range' first count).flatMap (printedSize layout) ∧ after.page = store.page ∧
        after.length = store.length ∧ KeepsPins store after (· ≠ 0) ∧ PinnedWithin after others := by
  induction count generalizing first store with
  | zero => exact ensures_pure _ ⟨rfl, rfl, rfl, fun _ _ pin _ => pin, within⟩
  | succ count ih =>
      have inRange : first < sizes := by omega
      obtain ⟨nonneg, aligned, inside⟩ := reserved_in_file heap (dir_addr_reserved inRange)
      rw [printSizes]
      refine ensures_bind (ensures_fetch nonneg aligned inside within (by omega) ?_)
      intro dirFrame _
      refine ensures_bind (ensures_load (by simp) ?_)
      simp only [PageStore.pinned_page]
      refine ensures_bind (ensures_mono (ensures_print_chain (heap.directory first inRange)
        (fun block member => chain_in_file heap inRange member) (pinned_within_pinned within)
        (by simpa using room)) ?_)
      rintro lines middle ⟨printed, pages, length, pins, middleWithin⟩
      simp only [PageStore.pinned_page] at pages
      simp only [PageStore.pinned_length] at length
      have dirPin : middle.pin (dirAddr first) = some dirFrame := by
        refine pins _ _ (by simp) fun member => ?_
        obtain ⟨block, inBucket, same⟩ := List.mem_map.mp member
        exact dir_apart heap inRange (Multiset.mem_add.mpr (.inl (mem_block_addrs inBucket))) same
      refine ensures_bind (ensures_unpin dirFrame dirPin ?_)
      have middleHeap : Heap (middle.unpinned (dirAddr first)).page
          (middle.unpinned (dirAddr first)).length layout 0 := by
        simp only [PageStore.unpinned_page, PageStore.unpinned_length, pages, length]
        exact heap
      refine ensures_bind (ensures_mono (ih (by omega) middleHeap (pinned_within_released middleWithin)) ?_)
      rintro rest after ⟨restPrinted, restPages, restLength, restPins, restWithin⟩
      have samePages : after.page = store.page := restPages.trans pages
      have sameLength : after.length = store.length := restLength.trans length
      have keeps : KeepsPins store after (· ≠ 0) := by
        intro addr holder pin isZero
        have isZero : addr = 0 := not_not.mp isZero
        have notDir : addr ≠ dirAddr first := by rw [isZero]; exact dir_addr_ne_zero.symm
        refine restPins addr holder ?_ (not_not.mpr isZero)
        have kept := pins addr holder (by simp [notDir, pin]) fun member => ?_
        · simp [notDir, kept]
        · obtain ⟨block, inBucket, same⟩ := List.mem_map.mp member
          have once := owners_once heap inRange 0
          have := Multiset.count_pos.mpr zero_reserved
          have := Multiset.count_pos.mpr (mem_block_addrs inBucket)
          rw [same, isZero] at this
          omega
      rw [List.range'_succ, List.flatMap_cons]
      cases bucket : layout.bucket first with
      | nil =>
          have chain := heap.directory first inRange
          rw [bucket] at chain
          have none : directory (store.page (dirAddr first)) (dirSlot first) = -1 := chain
          refine ensures_ite (fun taken => absurd none taken) fun _ => ?_
          refine ensures_pure _ ⟨?_, samePages, sameLength, keeps, restWithin⟩
          simp [printedSize, bucket, restPrinted]
      | cons block back =>
          obtain ⟨head, _, blockNonneg, _⟩ := bucket_head heap inRange bucket
          have taken : directory (store.page (dirAddr first)) (dirSlot first) ≠ -1 := by
            rw [head]
            omega
          refine ensures_ite (fun _ => ?_) fun skipped => absurd taken skipped
          refine ensures_pure _ ⟨?_, samePages, sameLength, keeps, restWithin⟩
          simp [printedSize, bucket, restPrinted, printed]

theorem printed_size_pairs (layout : HashLayout) (size : Nat) :
    (printedPairs (printedSize layout size) : Multiset (Nat × Int)) =
      HashLayout.bucketEntries size (layout.bucket size) := by
  rw [printedSize, HashLayout.bucketEntries]
  cases layout.bucket size with
  | nil => rfl
  | cons block back => simp [printedPairs, printedBlock, List.flatMap_map]

theorem printed_pairs_range (layout : HashLayout) (count : Nat) :
    (printedPairs ((List.range count).flatMap (printedSize layout)) : Multiset (Nat × Int)) =
      ∑ size ∈ Finset.range count, HashLayout.bucketEntries size (layout.bucket size) := by
  induction count with
  | zero => rfl
  | succ count ih =>
      rw [Finset.sum_range_succ, ← ih, ← printed_size_pairs, Multiset.coe_add, List.range_succ,
        List.flatMap_append, List.flatMap_singleton, printedPairs, List.flatMap_append]
      rfl

theorem ensures_print_hash_table (heap : Heap store.page store.length layout 0)
    (within : PinnedWithin store others) (room : others.length + 2 < cachePage) :
    Ensures StoresPool store printHashTable fun lines after =>
      (printedPairs lines : Multiset (Nat × Int)) = layout.entries ∧
        HashPost layout.orphans others layout.entries after := by
  obtain ⟨nonneg, aligned, inside⟩ := reserved_in_file heap zero_reserved
  rw [printHashTable]
  refine ensures_bind (ensures_fetch nonneg aligned inside within (by omega) ?_)
  intro frame _
  refine ensures_bind (ensures_load (by simp) ?_)
  simp only [PageStore.pinned_page, heap.control, Int.toNat_natCast]
  have bound : 0 + sizes ≤ sizes := by omega
  refine ensures_bind (ensures_mono (ensures_print_sizes bound
    (show Heap (store.pinned 0 frame).page (store.pinned 0 frame).length layout 0 from heap)
    (pinned_within_pinned within) (by simp only [List.length_cons]; omega)) ?_)
  rintro lines after ⟨printed, pages, length, pins, afterWithin⟩
  refine ensures_bind (ensures_unpin frame (pins 0 frame (by simp) (by simp)) ?_)
  refine ensures_pure _ ⟨?_, layout, ?_, rfl, rfl, pinned_within_released afterWithin⟩
  · rw [printed, ← List.range_eq_range', printed_pairs_range, HashLayout.entries]
  · simp only [PageStore.unpinned_page, PageStore.unpinned_length, pages, length]
    exact heap

end Printing

/-- The reference: which size an address is stored under. -/
abbrev SizeMap := Int → Option Nat

inductive HashCall where
  | insert (size : Nat) (addr : Int)
  | pop (size : Nat) (addr : Int)
  | popLowerBound (size : Nat)

namespace HashCall

def run : HashCall → Program HashPool (Option Int)
  | insert size addr => do
      hashTableInsert size addr
      pure none
  | pop size addr => do
      hashTablePop size addr
      pure none
  | popLowerBound size => do
      let ans ← hashTablePopLowerBound size
      pure (some ans)

/-- What the callers promise. -/
def Allowed (map : SizeMap) : HashCall → Prop
  | insert size addr => size < 128 ∧ 0 ≤ addr ∧ map addr = none
  | pop size addr => map addr = some size
  | popLowerBound _ => True

def advance (map : SizeMap) : HashCall → Option Int → SizeMap
  | insert size addr, _ => Function.update map addr (some size)
  | pop _ addr, _ => Function.update map addr none
  | popLowerBound _, some ans => if ans = -1 then map else Function.update map ans none
  | popLowerBound _, none => map

def Answers (map : SizeMap) : HashCall → Option Int → Prop
  | insert _ _, result => result = none
  | pop _ _, result => result = none
  | popLowerBound size, result => ∃ ans, result = some ans ∧
      (ans = -1 ↔ ∀ addr stored, map addr = some stored → stored < size) ∧
      (ans ≠ -1 → ∃ least, map ans = some least ∧ size ≤ least ∧
        ∀ other stored, map other = some stored → size ≤ stored → least ≤ stored)

end HashCall

/-- The pools that the public operations reach from an empty file, each with its reference. -/
inductive HashReachable : HashPool → SizeMap → Prop
  | opened {disk : Disk HashPage} {memory pool : HashPool} (empty : disk.size = 0)
      (ran : hashTableInit disk 8 memory = some ((), pool)) : HashReachable pool fun _ => none
  | called {pool after : HashPool} {map : SizeMap} {call : HashCall} {result : Option Int}
      (before : HashReachable pool map) (allowed : call.Allowed map)
      (ran : call.run pool = some (result, after)) :
      HashReachable after (call.advance map result)

/-- The pool prints every pair of the reference, once, and nothing else. -/
def PrintsMap (pool : HashPool) (map : SizeMap) : Prop :=
  ∃ lines after, printHashTable pool = some (lines, after) ∧
    ((printedPairs lines).map Prod.snd).Nodup ∧
    ∀ size addr, (size, addr) ∈ printedPairs lines ↔ map addr = some size

/-- A multiset of pairs that is the graph of a map. -/
structure IsGraph (entries : Multiset (Nat × Int)) (map : SizeMap) : Prop where
  nodup : (entries.map Prod.snd).Nodup
  mem : ∀ size addr, (size, addr) ∈ entries ↔ map addr = some size

theorem graph_insert {entries : Multiset (Nat × Int)} {map : SizeMap} {size : Nat} {addr : Int}
    (graph : IsGraph entries map) (absent : map addr = none) :
    IsGraph ((size, addr) ::ₘ entries) (Function.update map addr (some size)) := by
  refine ⟨?_, ?_⟩
  · rw [Multiset.map_cons, Multiset.nodup_cons]
    refine ⟨fun member => ?_, graph.nodup⟩
    obtain ⟨⟨stored, _⟩, inEntries, rfl⟩ := Multiset.mem_map.mp member
    have bound := (graph.mem stored _).mp inEntries
    rw [absent] at bound
    cases bound
  · intro other item
    rw [Multiset.mem_cons, graph.mem, Function.update_apply, Prod.mk.injEq]
    split_ifs with same
    · simp [same, absent, eq_comm]
    · simp [same]

theorem graph_erase {entries : Multiset (Nat × Int)} {map : SizeMap} {size : Nat} {addr : Int}
    (graph : IsGraph entries map) (present : (size, addr) ∈ entries) :
    IsGraph (entries.erase (size, addr)) (Function.update map addr none) := by
  obtain ⟨rest, rfl⟩ := Multiset.exists_cons_of_mem present
  rw [Multiset.erase_cons_head]
  have nodup := graph.nodup
  rw [Multiset.map_cons, Multiset.nodup_cons] at nodup
  refine ⟨nodup.2, ?_⟩
  intro other item
  rw [Function.update_apply]
  split_ifs with same
  · simp only [iff_false]
    intro member
    exact nodup.1 (Multiset.mem_map.mpr ⟨(other, item), member, same⟩)
  · rw [← graph.mem, Multiset.mem_cons]
    simp [same]

/-- The invariant of a run. At most the page behind the directory is still pinned. -/
def HashInvariant (pool : HashPool) (map : SizeMap) : Prop :=
  ∃ store layout, StoresPool store pool ∧ Heap store.page store.length layout 0 ∧
    PinnedWithin store [behindDirectory] ∧ IsGraph layout.entries map

/-- A search for a size from which on nothing is stored. -/
def HashCall.Misses (map : SizeMap) : HashCall → Prop
  | popLowerBound size => size < 128 ∧ ∀ addr stored, map addr = some stored → stored < size
  | insert _ _ => False
  | pop _ _ => False

/-- What a call leaves of a store with the given layout, where at most `others` are pinned. -/
structure CallLeaves (store : HashStore) (layout : HashLayout) (others : List Int) (map : SizeMap)
    (call : HashCall) (result : Option Int) (after : HashStore) (left : HashLayout) : Prop where
  answers : call.Answers map result
  heap : Heap after.page after.length left 0
  graph : IsGraph left.entries (call.advance map result)
  found : ¬call.Misses map → left.orphans = layout.orphans ∧ PinnedWithin after others
  missed : call.Misses map → result = some (-1) ∧
    after.length = (if behindDirectory = store.length then store.length + pageSize else store.length) ∧
    left.orphans =
      (if behindDirectory = store.length then behindDirectory ::ₘ layout.orphans else layout.orphans) ∧
    (∃ frame, after.pin behindDirectory = some frame) ∧ PinnedWithin after (behindDirectory :: others)

theorem stored_below {layout : HashLayout} {map : SizeMap} {addr : Int} {size : Nat}
    (graph : IsGraph layout.entries map) (stored : map addr = some size) : size < sizes :=
  (layout.mem_entries.mp ((graph.mem size addr).mpr stored)).1

theorem search_outside {size : Nat} (outside : ¬size < sizes) :
    (HashCall.popLowerBound size).run = pure (some (-1)) := by
  have rejected : ¬((size : Int) ≥ 0 ∧ (size : Int) < pageSize) := by
    simp only [pageSize, sizes] at *
    omega
  simp only [HashCall.run, hashTablePopLowerBound, if_neg rejected, pure_bind]

theorem hash_call_leaves {store : HashStore} {layout : HashLayout} {others : List Int} {map : SizeMap}
    {call : HashCall} (heap : Heap store.page store.length layout 0)
    (within : PinnedWithin store others) (room : others.length + 4 < cachePage)
    (graph : IsGraph layout.entries map) (allowed : call.Allowed map) :
    Ensures StoresPool store call.run fun result after =>
      ∃ left, CallLeaves store layout others map call result after left := by
  cases call with
  | insert size addr =>
      obtain ⟨inRange, nonneg, absent⟩ := allowed
      have inSizes : size < sizes := by simp only [sizes]; exact inRange
      apply ensures_bind
      apply ensures_mono (ensures_hash_table_insert inSizes nonneg heap within room)
      rintro _ after ⟨left, afterHeap, entries, orphans, afterWithin⟩
      refine ensures_pure _ ⟨left, rfl, afterHeap, ?_, fun _ => ⟨orphans, afterWithin⟩, False.elim⟩
      rw [entries]
      exact graph_insert graph absent
  | pop size addr =>
      have present := (graph.mem size addr).mpr allowed
      apply ensures_bind
      apply ensures_mono (ensures_hash_table_pop (layout.mem_entries.mp present).1 heap present within room)
      rintro _ after ⟨left, afterHeap, entries, orphans, afterWithin⟩
      refine ensures_pure _ ⟨left, rfl, afterHeap, ?_, fun _ => ⟨orphans, afterWithin⟩, False.elim⟩
      rw [entries]
      exact graph_erase graph present
  | popLowerBound size =>
      by_cases inRange : size < sizes
      · apply ensures_bind
        apply ensures_mono (ensures_hash_table_pop_lower_bound inRange heap within room)
        rintro ans after (missing | found)
        · obtain ⟨rfl, smaller, length, pinned, left, afterHeap, entries, orphans, afterWithin⟩ := missing
          have allSmaller : ∀ addr stored, map addr = some stored → stored < size :=
            fun addr stored bound => smaller stored addr ((graph.mem stored addr).mpr bound)
          have misses : (HashCall.popLowerBound size).Misses map :=
            ⟨by simpa only [sizes] using inRange, allSmaller⟩
          refine ensures_pure _ ⟨left, ⟨-1, rfl, ⟨fun _ => allSmaller, fun _ => rfl⟩, by simp⟩, afterHeap, ?_,
            fun finds => absurd misses finds, fun _ => ⟨rfl, length, orphans, pinned, afterWithin⟩⟩
          simpa [HashCall.advance, entries] using graph
        · obtain ⟨least, present, nonneg, atLeast, smallest, left, afterHeap, entries, orphans, afterWithin⟩ :=
            found
          have notMissing : ans ≠ -1 := by omega
          have stored := (graph.mem least ans).mp present
          refine ensures_pure _ ⟨left, ⟨ans, rfl, ⟨fun missing => absurd missing notMissing, fun none => ?_⟩,
            fun _ => ⟨least, stored, atLeast, ?_⟩⟩, afterHeap, ?_, fun _ => ⟨orphans, afterWithin⟩,
            fun misses => ?_⟩
          · have := none ans least stored
            omega
          · intro other otherSize bound lower
            exact smallest otherSize other ((graph.mem otherSize other).mpr bound) lower
          · simpa [HashCall.advance, notMissing, entries] using graph_erase graph present
          · have := misses.2 ans least stored
            omega
      · rw [search_outside inRange]
        refine ensures_pure _ ⟨layout, ⟨-1, rfl, ⟨fun _ addr stored bound => ?_, fun _ => rfl⟩, by simp⟩, heap, ?_,
          fun _ => ⟨rfl, within⟩, fun misses => absurd misses.1 (by simpa only [sizes] using inRange)⟩
        · have := stored_below graph bound
          omega
        · simpa [HashCall.advance] using graph

theorem hash_call_step {pool : HashPool} {map : SizeMap} {call : HashCall}
    (invariant : HashInvariant pool map) (allowed : call.Allowed map) :
    ∃ result after, call.run pool = some (result, after) ∧ call.Answers map result ∧
      HashInvariant after (call.advance map result) := by
  obtain ⟨store, layout, stores, heap, within, graph⟩ := invariant
  obtain ⟨result, after, final, ran, finalStores, left, leaves⟩ :=
    hash_call_leaves heap within (by decide) graph allowed pool stores
  refine ⟨result, after, ran, leaves.answers, final, left, finalStores, leaves.heap, ?_, leaves.graph⟩
  by_cases misses : call.Misses map
  · exact pinned_within_mono (leaves.missed misses).2.2.2.2 (by simp)
  · exact (leaves.found misses).2

theorem hash_reachable_invariant {pool : HashPool} {map : SizeMap} (run : HashReachable pool map) :
    HashInvariant pool map := by
  induction run with
  | opened empty ran =>
      obtain ⟨store, pool, same, stores, heap, within, _⟩ := hash_table_init_empty _ empty _
      rw [ran] at same
      cases same
      refine ⟨store, emptyLayout, stores, heap, pinned_within_mono within (by simp), ?_, ?_⟩
      · simp [empty_entries]
      · simp [empty_entries]
  | called before allowed ran ih =>
      obtain ⟨result, after, same, _, invariant⟩ := hash_call_step ih allowed
      rw [ran] at same
      cases same
      exact invariant

theorem hash_invariant_prints {pool : HashPool} {map : SizeMap} (invariant : HashInvariant pool map) :
    PrintsMap pool map := by
  obtain ⟨store, layout, stores, heap, within, graph⟩ := invariant
  obtain ⟨lines, after, final, ran, _, pairs, _⟩ :=
    ensures_print_hash_table heap within (by decide) pool stores
  refine ⟨lines, after, ran, ?_, ?_⟩
  · rw [← Multiset.coe_nodup, ← Multiset.map_coe, pairs]
    exact graph.nodup
  · intro size addr
    rw [← graph.mem, ← pairs, Multiset.mem_coe]

/-- From an empty file on, every pool prints its reference, and every allowed call returns, answers
what the reference allows and leaves a pool that prints the reference after the call. -/
theorem hash_map_refines_size_map :
    (∀ (disk : Disk HashPage) (memory : HashPool), disk.size = 0 →
      ∃ pool, hashTableInit disk 8 memory = some ((), pool)) ∧
    ∀ pool map, HashReachable pool map → PrintsMap pool map ∧
      ∀ call : HashCall, call.Allowed map → ∃ result after, call.run pool = some (result, after) ∧
        call.Answers map result ∧ PrintsMap after (call.advance map result) := by
  refine ⟨?_, ?_⟩
  · intro disk memory empty
    obtain ⟨_, pool, ran, _⟩ := hash_table_init_empty disk empty memory
    exact ⟨pool, ran⟩
  · intro pool map run
    have invariant := hash_reachable_invariant run
    refine ⟨hash_invariant_prints invariant, ?_⟩
    intro call allowed
    obtain ⟨result, after, ran, answer, afterInvariant⟩ := hash_call_step invariant allowed
    exact ⟨result, after, ran, answer, hash_invariant_prints afterInvariant⟩

/-- The first pair of a new map. -/
theorem hash_map_refines_size_map_first_pair :
    ∃ pool result after, HashReachable pool (fun _ => none) ∧
      (HashCall.insert 5 128).run pool = some (result, after) ∧
      PrintsMap after (Function.update (fun _ => none) 128 (some 5)) := by
  obtain ⟨opens, refines⟩ := hash_map_refines_size_map
  let disk : Disk HashPage := ⟨0, fun _ _ => 0⟩
  obtain ⟨pool, ran⟩ := opens disk
    ⟨⟨disk, 0⟩, fun _ _ => 0, fun _ => 0, fun _ => 0, fun _ => 0⟩ rfl
  have reachable : HashReachable pool fun _ => none := .opened rfl ran
  obtain ⟨result, after, inserted, _, prints⟩ :=
    (refines pool _ reachable).2 (.insert 5 128) ⟨by decide, by decide, rfl⟩
  exact ⟨pool, result, after, reachable, inserted, prints⟩

end MyJQL.HashMapRefinement
