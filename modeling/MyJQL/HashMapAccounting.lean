import MyJQL.HashMapRefinement

/-!
# Pins and pages of the space map

What the calls leave pinned and where the pages of the file go, read off the pool itself: chains and
free list are walks along the links of its pages. One call spoils both accounts, a search that finds
no block: it fetches the page behind the directory, keeps it pinned, and appends it to a file that
ends there.
-/

namespace MyJQL.HashMapAccounting

open MyJQL.FileIo
open MyJQL.BufferPoolModel
open MyJQL.BufferPoolTransparency
open MyJQL.StateProgram
open MyJQL.PageStoreLogic
open MyJQL.HashMapModel
open MyJQL.HashMapLayout
open MyJQL.HashMapFreeList
open MyJQL.HashMapOperations
open MyJQL.HashMapRefinement
open MyJQL.LinkedPages
open MyJQL.PageAccounting

set_option autoImplicit false

/-- The blocks that a C loop visits when it follows `next` until -1. -/
def Walk (page : Int → HashPage) : Int → List Int → Prop
  | head, [] => head = -1
  | head, block :: rest => head ≠ -1 ∧ head = block ∧ Walk page (next (page block)) rest

def chainHead (page : Int → HashPage) (size : Nat) : Int :=
  directory (page (dirAddr size)) (dirSlot size)

def liveEntries (page : Int → HashPage) (block : Int) : List Int :=
  (List.range (nItems (page block)).toNat).map (table (page block))

def InChain (page : Int → HashPage) (addr : Int) : Prop :=
  ∃ size blocks, size < 128 ∧ Walk page (chainHead page size) blocks ∧ addr ∈ blocks

def ListedFree (page : Int → HashPage) (addr : Int) : Prop :=
  ∃ blocks, Walk page (freeBlockHead (page 0)) blocks ∧
    ∃ block ∈ blocks, addr ∈ liveEntries page block

def Reserved (addr : Int) : Prop := ∃ index : Nat, index ≤ 8 ∧ addr = index * pageSize

theorem walk_unique {page : Int → HashPage} {head : Int} {first second : List Int}
    (left : Walk page head first) (right : Walk page head second) : first = second := by
  induction first generalizing head second with
  | nil =>
      cases second with
      | nil => rfl
      | cons block rest => exact absurd left right.1
  | cons block rest ih =>
      cases second with
      | nil => exact absurd right left.1
      | cons other behind =>
          obtain ⟨_, rfl, leftRest⟩ := left
          obtain ⟨_, rfl, rightRest⟩ := right
          rw [ih leftRest rightRest]

theorem walk_of_segment {Node : Type} {shape : NodeShape HashPage Node} {page seen : Int → HashPage}
    {head : Int} {nodes : List Node} (links : shape.next = next)
    (same : ∀ node ∈ nodes, seen (shape.addr node) = page (shape.addr node))
    (nonneg : ∀ node ∈ nodes, 0 ≤ shape.addr node) (segment : shape.Segment page head nodes (-1)) :
    Walk seen head (nodes.map shape.addr) := by
  induction nodes generalizing head with
  | nil => exact segment
  | cons node rest ih =>
      obtain ⟨own, _, behind⟩ := segment
      have lower := nonneg node List.mem_cons_self
      refine ⟨by omega, own, ?_⟩
      rw [same node List.mem_cons_self, ← links]
      exact ih (fun other member => same other (List.mem_cons_of_mem _ member))
        (fun other member => nonneg other (List.mem_cons_of_mem _ member)) behind

section Reading

variable {pool : HashPool} {store : HashStore} {layout : HashLayout} {extra : Multiset Int}
  {size : Nat} {addr : Int}

theorem view_in_file (stores : StoresPool store pool)
    (inFile : 0 ≤ addr ∧ addr % pageSize = 0 ∧ addr < store.length) : view pool addr = store.page addr :=
  stores.page addr ⟨inFile.1, inFile.2.1, by rw [stores.length]; exact inFile.2.2⟩

theorem chain_walk (stores : StoresPool store pool) (heap : Heap store.page store.length layout extra)
    (inRange : size < sizes) :
    Walk (view pool) (chainHead (view pool) size) ((layout.bucket size).map ChainBlock.addr) := by
  rw [chainHead, view_in_file stores (reserved_in_file heap (dir_addr_reserved inRange))]
  apply walk_of_segment (show chainShape.next = next from rfl) _ _ (heap.directory size inRange)
  · intro block member
    exact view_in_file stores (chain_in_file heap inRange member)
  · intro block member
    exact (chain_in_file heap inRange member).1

theorem free_walk (stores : StoresPool store pool) (heap : Heap store.page store.length layout extra) :
    Walk (view pool) (freeBlockHead (view pool 0)) (layout.free.map FreeBlock.addr) := by
  rw [view_in_file stores (reserved_in_file heap zero_reserved)]
  apply walk_of_segment (show freeShape.next = next from rfl) _ _ heap.free
  · intro block member
    exact view_in_file stores (free_in_file heap (free_block_page heap member))
  · intro block member
    exact (free_in_file heap (free_block_page heap member)).1

theorem free_block_holds (heap : Heap store.page store.length layout extra) {block : FreeBlock}
    (member : block ∈ layout.free) : HoldsFreeBlock (store.page block.addr) block := by
  obtain ⟨front, back, split⟩ := List.append_of_mem member
  have segment := heap.free
  rw [split] at segment
  exact (NodeShape.segment_focus segment).2.1

theorem chain_block_holds (heap : Heap store.page store.length layout extra) (inRange : size < sizes)
    {block : ChainBlock} (member : block ∈ layout.bucket size) :
    HoldsChainBlock (store.page block.addr) block := by
  obtain ⟨front, back, split⟩ := List.append_of_mem member
  have segment := heap.directory size inRange
  rw [split] at segment
  exact (NodeShape.segment_focus segment).2.1

theorem live_entries_eq (stores : StoresPool store pool)
    (inFile : 0 ≤ addr ∧ addr % pageSize = 0 ∧ addr < store.length) {items : List Int}
    (holds : HoldsItems (store.page addr) items) : liveEntries (view pool) addr = items := by
  rw [liveEntries, view_in_file stores inFile]
  exact printed_items holds

theorem in_chain_iff (stores : StoresPool store pool) (heap : Heap store.page store.length layout extra) :
    InChain (view pool) addr ↔ addr ∈ layout.chainPages := by
  rw [HashLayout.chainPages, Multiset.mem_sum]
  constructor
  · rintro ⟨size, blocks, inRange, walk, member⟩
    have inSizes : size < sizes := by simpa only [sizes] using inRange
    rw [walk_unique walk (chain_walk stores heap inSizes)] at member
    exact ⟨size, Finset.mem_range.mpr inSizes, Multiset.mem_coe.mpr member⟩
  · rintro ⟨size, inSizes, member⟩
    have inSizes := Finset.mem_range.mp inSizes
    exact ⟨size, _, by simpa only [sizes] using inSizes, chain_walk stores heap inSizes,
      Multiset.mem_coe.mp member⟩

theorem listed_entries (stores : StoresPool store pool) (heap : Heap store.page store.length layout extra) :
    (layout.free.map FreeBlock.addr).flatMap (liveEntries (view pool)) =
      layout.free.flatMap FreeBlock.items := by
  rw [List.flatMap_map, List.flatMap_congr]
  intro block member
  exact live_entries_eq stores (free_in_file heap (free_block_page heap member))
    (free_block_holds heap member).toHoldsItems

theorem listed_free_iff (stores : StoresPool store pool) (heap : Heap store.page store.length layout extra) :
    ListedFree (view pool) addr ↔ addr ∈ layout.freePages := by
  rw [HashLayout.freePages, Multiset.mem_coe, ← listed_entries stores heap, List.mem_flatMap]
  constructor
  · rintro ⟨blocks, walk, block, member, listed⟩
    rw [walk_unique walk (free_walk stores heap)] at member
    exact ⟨block, member, listed⟩
  · rintro ⟨block, member, listed⟩
    exact ⟨_, free_walk stores heap, block, member, listed⟩

theorem reserved_iff : addr ∈ reservedPages ↔ Reserved addr := by
  simp only [reservedPages, Multiset.mem_map, Multiset.mem_range, Reserved]
  constructor
  · rintro ⟨index, bound, rfl⟩
    exact ⟨index, by omega, rfl⟩
  · rintro ⟨index, bound, rfl⟩
    exact ⟨index, by omega, rfl⟩

end Reading

/-- From a reachable pool with nothing pinned, a call leaves nothing pinned exactly if it is not a
search that misses. -/
theorem pins_after_call {pool : HashPool} {map : SizeMap} {call : HashCall}
    (invariant : HashInvariant pool map) (unpinned : numValidPool pool = cachePage)
    (allowed : call.Allowed map) :
    ∃ result after, call.run pool = some (result, after) ∧
      (numValidPool after = cachePage ↔ ¬call.Misses map) := by
  obtain ⟨store, layout, stores, heap, _, graph⟩ := invariant
  have within := (num_valid_pool_iff stores).mp unpinned
  obtain ⟨result, after, final, ran, finalStores, left, leaves⟩ :=
    hash_call_leaves heap within (by decide) graph allowed pool stores
  refine ⟨result, after, ran, ?_⟩
  rw [num_valid_pool_iff finalStores]
  constructor
  · intro none misses
    obtain ⟨_, _, _, ⟨frame, pin⟩, _⟩ := leaves.missed misses
    cases none _ frame pin
  · intro finds
    exact (leaves.found finds).2

/-- The runs in which every call meets a condition on the pool and the reference before it. -/
inductive RunWhere (condition : HashPool → SizeMap → HashCall → Prop) : HashPool → SizeMap → Prop
  | opened {disk : Disk HashPage} {memory pool : HashPool} (empty : disk.size = 0)
      (ran : hashTableInit disk 8 memory = some ((), pool)) : RunWhere condition pool fun _ => none
  | called {pool after : HashPool} {map : SizeMap} {call : HashCall} {result : Option Int}
      (before : RunWhere condition pool map) (allowed : call.Allowed map) (meets : condition pool map call)
      (ran : call.run pool = some (result, after)) : RunWhere condition after (call.advance map result)

section Runs

variable {condition : HashPool → SizeMap → HashCall → Prop} {pool : HashPool} {map : SizeMap}

theorem run_where_reachable (run : RunWhere condition pool map) : HashReachable pool map := by
  induction run with
  | opened empty ran => exact .opened empty ran
  | called _ allowed _ ran ih => exact .called ih allowed ran

theorem run_where_next {call : HashCall} (run : RunWhere condition pool map) (allowed : call.Allowed map)
    (meets : condition pool map call) : ∃ result after, call.run pool = some (result, after) ∧
      call.Answers map result ∧ RunWhere condition after (call.advance map result) := by
  obtain ⟨result, after, ran, answers, _⟩ := hash_call_step (hash_reachable_invariant (run_where_reachable run)) allowed
  exact ⟨result, after, ran, answers, .called run allowed meets ran⟩

theorem run_where_keeps {property : HashPool → Prop} (run : RunWhere condition pool map)
    (fresh : ∀ (store : HashStore) pool, StoresPool store pool → PinnedWithin store [] →
      Heap store.page store.length emptyLayout 0 → property pool)
    (step : ∀ {pool map call}, HashInvariant pool map → property pool → call.Allowed map →
      condition pool map call →
      ∃ result after, call.run pool = some (result, after) ∧ property after) : property pool := by
  induction run with
  | opened empty ran =>
      obtain ⟨store, pool, same, stores, heap, within, _⟩ := hash_table_init_empty _ empty _
      rw [ran] at same
      cases same
      exact fresh store _ stores within heap
  | called before allowed meets ran ih =>
      have invariant := hash_reachable_invariant (run_where_reachable before)
      obtain ⟨result, after, same, kept⟩ := step invariant ih allowed meets
      rw [ran] at same
      cases same
      exact kept

end Runs

def emptyDisk : Disk HashPage := ⟨0, fun _ _ => 0⟩

def blankPool : HashPool := ⟨⟨emptyDisk, 0⟩, fun _ _ => 0, fun _ => 0, fun _ => 0, fun _ => 0⟩

theorem fresh_pool : ∃ pool store, hashTableInit emptyDisk 8 blankPool = some ((), pool) ∧
    HashReachable pool (fun _ => none) ∧ StoresPool store pool ∧ PinnedWithin store [] ∧
      Heap store.page store.length emptyLayout 0 ∧ store.length = 9 * pageSize := by
  obtain ⟨store, pool, ran, stores, heap, within, _⟩ := hash_table_init_empty emptyDisk rfl blankPool
  refine ⟨pool, store, ran, .opened rfl ran, stores, within, heap, ?_⟩
  have accounted := congrArg Multiset.card heap.accounted
  have aligned := heap.aligned
  have lower := reserved_length heap
  simp only [HashLayout.owned, HashLayout.chainPages, HashLayout.freePages, emptyLayout, blockAddrs,
    List.map_nil, Multiset.coe_nil, Finset.sum_const_zero, List.flatMap_nil, add_zero, reservedPages,
    pagesBelow, Multiset.card_map, Multiset.card_range, pageSize, behindDirectory] at *
  omega

def firstAddrs (count : Nat) : SizeMap := fun addr => if 0 ≤ addr ∧ addr < count then some 5 else none

theorem first_addrs_absent (count : Nat) : firstAddrs count count = none := if_neg (by omega)

theorem first_addrs_succ (count : Nat) :
    Function.update (firstAddrs count) (count : Int) (some 5) = firstAddrs (count + 1) := by
  funext addr
  rw [Function.update_apply, firstAddrs, firstAddrs]
  split_ifs
  all_goals first | rfl | omega

theorem first_addrs_run {condition : HashPool → SizeMap → HashCall → Prop}
    (meets : ∀ pool count, condition pool (firstAddrs count) (.insert 5 count)) (count : Nat) :
    ∃ pool, RunWhere condition pool (firstAddrs count) := by
  induction count with
  | zero =>
      obtain ⟨pool, _, ran, _⟩ := fresh_pool
      have none : firstAddrs 0 = fun _ => none := by
        funext addr
        exact if_neg (by omega)
      exact ⟨pool, none ▸ .opened rfl ran⟩
  | succ count ih =>
      obtain ⟨_, run⟩ := ih
      have allowed : (HashCall.insert 5 count).Allowed (firstAddrs count) :=
        ⟨by decide, by omega, first_addrs_absent count⟩
      obtain ⟨_, after, _, _, next⟩ := run_where_next run allowed (meets _ _)
      exact ⟨after, first_addrs_succ count ▸ next⟩

/-- The pins of every call from a reachable pool, and of every run whose searches all find. -/
theorem hash_map_pins (pool : HashPool) (map : SizeMap) :
    (HashReachable pool map → numValidPool pool = cachePage →
      ∀ call : HashCall, call.Allowed map → ∃ result after, call.run pool = some (result, after) ∧
        (numValidPool after = cachePage ↔ ¬call.Misses map)) ∧
    (RunWhere (fun _ map call => ¬call.Misses map) pool map → numValidPool pool = cachePage) := by
  refine ⟨?_, ?_⟩
  · intro run unpinned call allowed
    exact pins_after_call (hash_reachable_invariant run) unpinned allowed
  · intro run
    apply run_where_keeps run
    · intro store pool stores within _
      exact (num_valid_pool_iff stores).mpr within
    · intro pool map call invariant unpinned allowed finds
      obtain ⟨result, after, ran, leaves⟩ := pins_after_call invariant unpinned allowed
      exact ⟨result, after, ran, leaves.mpr finds⟩

/-- A search in a map that was just opened. -/
theorem hash_map_pins_first_search : ∃ pool result after, numValidPool pool = cachePage ∧
    (HashCall.popLowerBound 0).run pool = some (result, after) ∧ numValidPool after ≠ cachePage := by
  obtain ⟨pool, store, _, reachable, stores, within, _⟩ := fresh_pool
  have unpinned := (num_valid_pool_iff stores).mpr within
  obtain ⟨result, after, ran, leaves⟩ :=
    (hash_map_pins pool _).1 reachable unpinned (.popLowerBound 0) trivial
  refine ⟨pool, result, after, unpinned, ran, fun full => leaves.mp full ⟨by decide, ?_⟩⟩
  intro addr stored bound
  cases bound

/-- The directory page that this search fetches last stays pinned. -/
theorem search_without_result_pins : ¬∀ pool map, HashReachable pool map →
    numValidPool pool = cachePage → ∀ call : HashCall, call.Allowed map →
      ∀ result after, call.run pool = some (result, after) → numValidPool after = cachePage := by
  intro keeps
  obtain ⟨pool, store, _, reachable, stores, within, _⟩ := fresh_pool
  have unpinned := (num_valid_pool_iff stores).mpr within
  have invariant := hash_reachable_invariant reachable
  obtain ⟨result, after, ran, leaves⟩ :=
    pins_after_call invariant unpinned (show (HashCall.popLowerBound 0).Allowed _ from trivial)
  have full := keeps pool _ reachable unpinned (.popLowerBound 0) trivial result after ran
  refine leaves.mp full ⟨by decide, ?_⟩
  intro addr stored bound
  cases bound

/-- Behind the directory every page is in a chain or listed as free. -/
def NoOrphanPage (pool : HashPool) : Prop :=
  ∀ addr, 9 * pageSize ≤ addr → addr % pageSize = 0 → addr < pool.file.length →
    InChain (view pool) addr ∨ ListedFree (view pool) addr

theorem page_owned {pool : HashPool} {store : HashStore} {layout : HashLayout} (stores : StoresPool store pool)
    (heap : Heap store.page store.length layout 0) {addr : Int} (behind : 9 * pageSize ≤ addr)
    (aligned : addr % pageSize = 0) (inside : addr < pool.file.length) :
    InChain (view pool) addr ∨ ListedFree (view pool) addr ∨ addr ∈ layout.orphans := by
  have member : addr ∈ pagesBelow store.length := by
    refine (mem_pages_below heap.aligned).mpr ⟨?_, aligned, by rw [← stores.length]; exact inside⟩
    simp only [pageSize] at behind
    omega
  rw [← heap.accounted, add_zero, HashLayout.owned, Multiset.mem_add, Multiset.mem_add, Multiset.mem_add] at member
  rcases member with ((reserved | chained) | listed) | orphan
  · obtain ⟨index, bound, rfl⟩ := reserved_iff.mp reserved
    simp only [pageSize] at behind
    omega
  · exact .inl ((in_chain_iff stores heap).mpr chained)
  · exact .inr (.inl ((listed_free_iff stores heap).mpr listed))
  · exact .inr (.inr orphan)

theorem no_orphan_page_iff {pool : HashPool} {store : HashStore} {layout : HashLayout}
    (stores : StoresPool store pool) (heap : Heap store.page store.length layout 0) :
    NoOrphanPage pool ↔ layout.orphans = 0 := by
  have accounted := heap.accounted
  have nodup := pages_below_nodup store.length
  rw [add_zero, HashLayout.owned] at accounted
  constructor
  · intro covered
    refine Multiset.eq_zero_of_forall_notMem fun addr orphan => ?_
    have member : addr ∈ pagesBelow store.length := by
      rw [← accounted]
      exact Multiset.mem_add.mpr (.inr orphan)
    obtain ⟨nonneg, aligned, inside⟩ := (mem_pages_below heap.aligned).mp member
    rw [← accounted, Multiset.nodup_add] at nodup
    have apart := fun known => Multiset.disjoint_left.mp nodup.2.2 known orphan
    simp only [Multiset.mem_add] at apart
    have behind : 9 * pageSize ≤ addr := by
      by_contra before
      refine apart (.inl (.inl (reserved_iff.mpr ⟨(addr / pageSize).toNat, ?_, ?_⟩)))
      all_goals
        simp only [pageSize] at *
        omega
    rcases covered addr behind aligned (by rw [stores.length]; exact inside) with chained | listed
    · exact apart (.inl (.inr ((in_chain_iff stores heap).mp chained)))
    · exact apart (.inr ((listed_free_iff stores heap).mp listed))
  · intro none addr behind aligned inside
    rcases page_owned stores heap behind aligned inside with chained | listed | orphan
    · exact .inl chained
    · exact .inr listed
    · rw [none] at orphan
      exact absurd orphan (Multiset.notMem_zero addr)

/-- A search that finds nothing in a file that ends with the directory. -/
def Overruns (pool : HashPool) (map : SizeMap) (call : HashCall) : Prop :=
  call.Misses map ∧ pool.file.length = 9 * pageSize

theorem pages_after_call {pool : HashPool} {map : SizeMap} {call : HashCall}
    (invariant : HashInvariant pool map) (covered : NoOrphanPage pool) (allowed : call.Allowed map) :
    ∃ result after, call.run pool = some (result, after) ∧
      (NoOrphanPage after ↔ ¬Overruns pool map call) := by
  obtain ⟨store, layout, stores, heap, within, graph⟩ := invariant
  obtain ⟨result, after, final, ran, finalStores, left, leaves⟩ :=
    hash_call_leaves heap within (by decide) graph allowed pool stores
  refine ⟨result, after, ran, ?_⟩
  have noneBefore := (no_orphan_page_iff stores heap).mp covered
  have same : pool.file.length = 9 * pageSize ↔ behindDirectory = store.length := by
    rw [stores.length, eq_comm]
    exact Iff.rfl
  rw [no_orphan_page_iff finalStores leaves.heap, Overruns, same]
  by_cases misses : call.Misses map
  · obtain ⟨_, _, orphans, _⟩ := leaves.missed misses
    rw [orphans, noneBefore]
    by_cases atEnd : behindDirectory = store.length
    · simp [misses, atEnd]
    · simp [atEnd]
  · simp [misses, (leaves.found misses).1, noneBefore]

theorem length_after_miss {pool : HashPool} {map : SizeMap} {call : HashCall}
    (invariant : HashInvariant pool map) (misses : call.Misses map) (allowed : call.Allowed map) :
    ∃ after, call.run pool = some (some (-1), after) ∧
      (after.file.length = pool.file.length ↔ pool.file.length ≠ 9 * pageSize) := by
  obtain ⟨store, layout, stores, heap, within, graph⟩ := invariant
  obtain ⟨result, after, final, ran, finalStores, left, leaves⟩ :=
    hash_call_leaves heap within (by decide) graph allowed pool stores
  obtain ⟨rfl, length, _⟩ := leaves.missed misses
  refine ⟨after, ran, ?_⟩
  rw [finalStores.length, stores.length, length]
  simp only [behindDirectory, pageSize]
  split_ifs <;> omega

/-- The pages of every call from a reachable pool, of every run that never overruns, and the file
length after a search that finds nothing. -/
theorem hash_map_pages (pool : HashPool) (map : SizeMap) :
    (HashReachable pool map → NoOrphanPage pool → ∀ call : HashCall, call.Allowed map →
      ∃ result after, call.run pool = some (result, after) ∧
        (NoOrphanPage after ↔ ¬Overruns pool map call)) ∧
    (RunWhere (fun pool map call => ¬Overruns pool map call) pool map → NoOrphanPage pool) ∧
    (HashReachable pool map → ∀ call : HashCall, call.Allowed map → call.Misses map →
      ∃ after, call.run pool = some (some (-1), after) ∧
        (after.file.length = pool.file.length ↔ pool.file.length ≠ 9 * pageSize)) := by
  refine ⟨?_, ?_, ?_⟩
  · intro run covered call allowed
    exact pages_after_call (hash_reachable_invariant run) covered allowed
  · intro run
    apply run_where_keeps run
    · intro store pool stores _ heap
      exact (no_orphan_page_iff stores heap).mpr rfl
    · intro pool map call invariant covered allowed stays
      obtain ⟨result, after, ran, leaves⟩ := pages_after_call invariant covered allowed
      exact ⟨result, after, ran, leaves.mpr stays⟩
  · intro run call allowed misses
    exact length_after_miss (hash_reachable_invariant run) misses allowed

/-- Two searches in a map that was just opened: the first one overruns. -/
theorem hash_map_pages_first_search : ∃ pool result after, NoOrphanPage pool ∧
    (HashCall.popLowerBound 0).run pool = some (result, after) ∧ ¬NoOrphanPage after := by
  obtain ⟨pool, store, _, reachable, stores, _, heap, length⟩ := fresh_pool
  have covered := (no_orphan_page_iff stores heap).mpr rfl
  obtain ⟨result, after, ran, leaves⟩ :=
    (hash_map_pages pool _).1 reachable covered (.popLowerBound 0) trivial
  refine ⟨pool, result, after, covered, ran, fun still => leaves.mp still ⟨⟨by decide, ?_⟩, ?_⟩⟩
  · intro addr stored bound
    cases bound
  · rw [stores.length, length]

/-- The page that this search appends belongs to nothing. -/
theorem search_without_result_appends :
    ¬∀ pool map, HashReachable pool map → NoOrphanPage pool := by
  intro always
  obtain ⟨pool, store, _, reachable, stores, _, heap, length⟩ := fresh_pool
  obtain ⟨result, after, ran, leaves⟩ := pages_after_call (hash_reachable_invariant reachable)
    (always pool _ reachable) (show (HashCall.popLowerBound 0).Allowed _ from trivial)
  have found : (HashCall.popLowerBound 0).Allowed fun _ => none := trivial
  refine leaves.mp (always after _ (.called reachable found ran)) ⟨⟨by decide, ?_⟩, ?_⟩
  · intro addr stored bound
    cases bound
  · rw [stores.length, length]

/-- A block of a chain as every call leaves it. -/
structure ChainBlockFilled (page : Int → HashPage) (block : Int) : Prop where
  filled : 1 ≤ nItems (page block) ∧ nItems (page block) ≤ hashMapBlockSize
  cleared : ∀ index : Nat, nItems (page block) ≤ index → index < hashMapBlockSize →
    table (page block) index = -1

structure AllocationSafe (page : Int → HashPage) (length : Int) : Prop where
  chains : ∀ size, size < 128 → ∃ blocks, Walk page (chainHead page size) blocks ∧ blocks.Nodup ∧
    ∀ block ∈ blocks, ChainBlockFilled page block
  disjoint : ∀ size other blocks others, size < 128 → other < 128 → size ≠ other →
    Walk page (chainHead page size) blocks → Walk page (chainHead page other) others →
      ∀ block ∈ blocks, block ∉ others
  freeList : ∃ blocks, Walk page (freeBlockHead (page 0)) blocks ∧
    (∀ block ∈ blocks, 1 ≤ nItems (page block) ∧ table (page block) 0 = block) ∧
    (blocks.flatMap (liveEntries page)).Nodup
  freeApart : ∀ addr, ListedFree page addr →
    0 ≤ addr ∧ addr < length ∧ ¬InChain page addr ∧ ¬Reserved addr

/-- What `get_new_hash_block` hands out: a page that was free, that nothing else uses, and that
no longer stores any of the addresses that stay free. -/
structure HandedOut (before after : Int → HashPage) (ans : Int) : Prop where
  wasFree : ListedFree before ans
  notInUse : ¬InChain before ans ∧ ¬Reserved ans
  restListed : ∀ addr, ListedFree after addr ↔ ListedFree before addr ∧ addr ≠ ans
  storesNothing : ∀ blocks, Walk after (freeBlockHead (after 0)) blocks → ans ∉ blocks

section Allocation

variable {pool : HashPool} {store : HashStore} {layout : HashLayout} {size : Nat} {addr : Int}

theorem chain_pages_apart (heap : Heap store.page store.length layout 0) {first second : Nat}
    (firstRange : first < sizes) (secondRange : second < sizes) (different : first ≠ second)
    (member : addr ∈ (layout.bucket first).map ChainBlock.addr) :
    addr ∉ (layout.bucket second).map ChainBlock.addr := by
  intro other
  obtain ⟨block, inSecond, rfl⟩ := List.mem_map.mp other
  have once := owners_once heap firstRange block.addr
  have := Multiset.count_pos.mpr (Multiset.mem_coe.mpr member)
  have := Multiset.count_pos.mpr (layout.mem_other_chains secondRange different.symm inSecond)
  simp only [blockAddrs] at once
  omega

theorem free_page_apart (heap : Heap store.page store.length layout 0) (free : addr ∈ layout.freePages) :
    addr ∉ layout.chainPages ∧ addr ∉ reservedPages ∧ layout.freePages.Nodup := by
  have nodup := pages_below_nodup store.length
  rw [← heap.accounted, add_zero, HashLayout.owned, Multiset.nodup_add, Multiset.nodup_add,
    Multiset.nodup_add] at nodup
  have apart := Multiset.disjoint_right.mp nodup.1.2.2 free
  rw [Multiset.mem_add, not_or] at apart
  exact ⟨apart.2, apart.1, nodup.1.2.1⟩

theorem allocation_safe (stores : StoresPool store pool)
    (heap : Heap store.page store.length layout 0) : AllocationSafe (view pool) pool.file.length := by
  refine ⟨?_, ?_, ?_, ?_⟩
  · intro size inRange
    have inSizes : size < sizes := by simpa only [sizes] using inRange
    refine ⟨_, chain_walk stores heap inSizes, chain_block_addrs_nodup heap inSizes, ?_⟩
    intro addr member
    obtain ⟨block, inBucket, rfl⟩ := List.mem_map.mp member
    have holds := chain_block_holds heap inSizes inBucket
    have positive := List.length_pos_iff.mpr holds.nonempty
    have count := holds.count
    have bounded := holds.bounded
    simp only [hashMapBlockSize] at bounded
    refine ⟨?_, ?_⟩
    · rw [view_in_file stores (chain_in_file heap inSizes inBucket)]
      simp only [hashMapBlockSize]
      omega
    · intro index behind inTable
      rw [view_in_file stores (chain_in_file heap inSizes inBucket)] at behind ⊢
      exact holds.cleared index (by omega) inTable
  · intro size other blocks others inRange otherInRange different walk otherWalk addr member
    have inSizes : size < sizes := by simpa only [sizes] using inRange
    have otherInSizes : other < sizes := by simpa only [sizes] using otherInRange
    rw [walk_unique walk (chain_walk stores heap inSizes)] at member
    rw [walk_unique otherWalk (chain_walk stores heap otherInSizes)]
    exact chain_pages_apart heap inSizes otherInSizes different member
  · refine ⟨_, free_walk stores heap, ?_, ?_⟩
    · intro addr member
      obtain ⟨block, inFree, rfl⟩ := List.mem_map.mp member
      have holds := free_block_holds heap inFree
      rw [view_in_file stores (free_in_file heap (free_block_page heap inFree))]
      have own := holds.own
      rw [List.head?_eq_getElem?, List.getElem?_eq_some_iff] at own
      obtain ⟨positive, first⟩ := own
      have count := holds.count
      exact ⟨by omega, by rw [holds.entries 0 positive, first]⟩
    · rw [listed_entries stores heap, ← Multiset.coe_nodup]
      cases free : layout.free with
      | nil => simp
      | cons block back =>
          have listed := free_block_page heap (show block ∈ layout.free by simp [free])
          have nodup := (free_page_apart heap listed).2.2
          rwa [HashLayout.freePages, free] at nodup
  · intro addr listed
    have free := (listed_free_iff stores heap).mp listed
    obtain ⟨nonneg, _, inside⟩ := free_in_file heap free
    obtain ⟨notChain, notReserved, _⟩ := free_page_apart heap free
    refine ⟨nonneg, by rw [stores.length]; exact inside, ?_, ?_⟩
    · rw [in_chain_iff stores heap]
      exact notChain
    · rw [← reserved_iff]
      exact notReserved

theorem free_pages_taken {changed : Int → HashPage} {free : List FreeBlock}
    (heap : Heap store.page store.length layout 0)
    (taken : Heap changed store.length (layout.withFree free) (addr ::ₘ 0)) :
    layout.freePages = addr ::ₘ (layout.withFree free).freePages := by
  have accounted := taken.accounted.trans heap.accounted.symm
  have before : layout.owned + 0 =
      reservedPages + layout.chainPages + layout.orphans + layout.freePages := by
    simp only [HashLayout.owned]
    abel
  have after : (layout.withFree free).owned + addr ::ₘ 0 =
      reservedPages + layout.chainPages + layout.orphans + addr ::ₘ (layout.withFree free).freePages := by
    have orphans : (layout.withFree free).orphans = layout.orphans := rfl
    simp only [HashLayout.owned, HashLayout.with_free_chain_pages, orphans, ← Multiset.singleton_add,
      add_zero]
    abel
  rw [before, after] at accounted
  exact (add_left_cancel accounted).symm

theorem handed_out_safe (stores : StoresPool store pool)
    (heap : Heap store.page store.length layout 0) (within : PinnedWithin store [behindDirectory]) :
    ∃ ans after, getNewHashBlock pool = some (ans, after) ∧
      (ans = -1 ∧ (∀ addr, ¬ListedFree (view pool) addr) ∨ HandedOut (view pool) (view after) ans) := by
  have taken : Ensures StoresPool store getNewHashBlock fun ans final =>
      (ans = -1 ∧ layout.free = []) ∨ (ans ∈ layout.freePages ∧
        ∃ free, Heap final.page final.length (layout.withFree free) (ans ::ₘ 0) ∧
          final.length = store.length) := by
    apply ensures_get_new_hash_block heap within (by decide)
    · intro none after _ _ _ _
      exact .inl ⟨rfl, none⟩
    · intro ans free after member afterHeap length _ _ _
      exact .inr ⟨member, free, afterHeap, length⟩
  obtain ⟨ans, after, final, ran, finalStores, ⟨rfl, none⟩ | ⟨member, free, afterHeap, length⟩⟩ :=
    taken pool stores
  · refine ⟨-1, after, ran, .inl ⟨rfl, ?_⟩⟩
    intro addr listed
    have free := (listed_free_iff stores heap).mp listed
    simp [HashLayout.freePages, none] at free
  · have listed := (listed_free_iff stores heap).mpr member
    have split := free_pages_taken heap (length ▸ afterHeap)
    have nodup := (free_page_apart heap member).2.2
    rw [split, Multiset.nodup_cons] at nodup
    refine ⟨ans, after, ran, .inr ⟨listed, ((allocation_safe stores heap).freeApart ans listed).2.2, ?_, ?_⟩⟩
    · intro addr
      rw [listed_free_iff finalStores afterHeap, listed_free_iff stores heap, split, Multiset.mem_cons]
      constructor
      · intro still
        exact ⟨.inr still, fun same => nodup.1 (same ▸ still)⟩
      · rintro ⟨own | still, different⟩
        · exact absurd own different
        · exact still
    · intro blocks walk stored
      rw [walk_unique walk (free_walk finalStores afterHeap)] at stored
      obtain ⟨block, inFree, rfl⟩ := List.mem_map.mp stored
      exact nodup.1 (free_block_page afterHeap inFree)

end Allocation

/-- Every reachable space map is safe to allocate from, and what it hands out was free. -/
theorem hash_map_allocation : ∀ pool map, HashReachable pool map →
    AllocationSafe (view pool) pool.file.length ∧
    ∃ ans after, getNewHashBlock pool = some (ans, after) ∧
      (ans = -1 ∧ (∀ addr, ¬ListedFree (view pool) addr) ∨
        HandedOut (view pool) (view after) ans) := by
  intro pool map run
  obtain ⟨store, layout, stores, heap, within, _⟩ := hash_reachable_invariant run
  exact ⟨allocation_safe stores heap, handed_out_safe stores heap within⟩

theorem walk_starts {page : Int → HashPage} {head : Int} {blocks : List Int} (walk : Walk page head blocks)
    (isBlock : head ≠ -1) : head ∈ blocks := by
  cases blocks with
  | nil => exact absurd walk isBlock
  | cons block rest => exact walk.2.1 ▸ List.mem_cons_self

/-- Two addresses of two sizes are stored and the first one is taken out, so that its page is free. -/
theorem one_freed_reached : ∃ pool map, HashReachable pool map ∧ freeBlockHead (view pool 0) = 1152 ∧
    nItems (view pool 1152) = 1 ∧ table (view pool 1152) 0 = 1152 ∧ chainHead (view pool) 7 = 1280 := by
  obtain ⟨fresh, _, opened, start, _⟩ := fresh_pool
  have first : (HashCall.insert 5 0).Allowed fun _ => none := ⟨by decide, by decide, rfl⟩
  obtain ⟨_, one, pushed, _⟩ := hash_call_step (hash_reachable_invariant start) first
  have middle := HashReachable.called start first pushed
  have second : (HashCall.insert 7 128).Allowed ((HashCall.insert 5 0).advance (fun _ => none) none) :=
    ⟨by decide, by decide, rfl⟩
  obtain ⟨_, two, again, _⟩ := hash_call_step (hash_reachable_invariant middle) second
  have full := HashReachable.called middle second again
  have pops : (HashCall.pop 5 0).Allowed
      ((HashCall.insert 7 128).advance ((HashCall.insert 5 0).advance (fun _ => none) none) none) := by
    simp [HashCall.Allowed, HashCall.advance]
  obtain ⟨_, pool, popped, _⟩ := hash_call_step (hash_reachable_invariant full) pops
  have words : ((hashTableInit emptyDisk 8 blankPool).bind fun opened =>
      ((HashCall.insert 5 0).run opened.2).bind fun pushed =>
        ((HashCall.insert 7 128).run pushed.2).bind fun again =>
          ((HashCall.pop 5 0).run again.2).map fun popped =>
            (freeBlockHead (view popped.2 0), nItems (view popped.2 1152), table (view popped.2 1152) 0,
              chainHead (view popped.2) 7)) = some (1152, 1, 1152, 1280) := by
    decide +kernel
  rw [opened, Option.bind_some, pushed, Option.bind_some, again, Option.bind_some, popped, Option.map_some,
    Option.some.injEq] at words
  simp only [Prod.mk.injEq] at words
  exact ⟨pool, _, .called full pops popped, words⟩

/-- The page that was given back is handed out, and the one in a chain is not touched. -/
theorem hash_map_allocation_one_freed : ∃ pool ans after, AllocationSafe (view pool) pool.file.length ∧
    InChain (view pool) 1280 ∧ ListedFree (view pool) 1152 ∧ getNewHashBlock pool = some (ans, after) ∧
      HandedOut (view pool) (view after) ans := by
  obtain ⟨pool, map, reachable, freeHead, items, listed, chain⟩ := one_freed_reached
  obtain ⟨safe, ans, after, ran, handed⟩ := hash_map_allocation pool map reachable
  have inChain : InChain (view pool) 1280 := by
    obtain ⟨blocks, walk, _⟩ := safe.chains 7 (by decide)
    exact ⟨7, blocks, by decide, walk, chain ▸ walk_starts walk (by rw [chain]; decide)⟩
  have free : ListedFree (view pool) 1152 := by
    obtain ⟨blocks, walk, _⟩ := safe.freeList
    refine ⟨blocks, walk, 1152, freeHead ▸ walk_starts walk (by rw [freeHead]; decide), ?_⟩
    rw [liveEntries, items]
    exact List.mem_map.mpr ⟨0, by decide, listed⟩
  exact ⟨pool, ans, after, safe, inChain, free, ran, handed.resolve_left fun empty => empty.2 1152 free⟩

end MyJQL.HashMapAccounting
