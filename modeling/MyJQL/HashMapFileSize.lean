import MyJQL.Restarts
import Mathlib.Algebra.Order.BigOperators.Group.Finset

/-!
# How long the file of the space map gets

A new chain block takes a free page if there is one, so the file grows only when every page behind the
directory is in a chain, or is the one that a search without result appends once. No chain block is empty.
-/

namespace MyJQL.HashMapFileSize

open MyJQL.FileIo
open MyJQL.BufferPoolModel
open MyJQL.StateProgram
open MyJQL.PageStoreLogic
open MyJQL.PageAccounting
open MyJQL.HashMapModel
open MyJQL.HashMapLayout
open MyJQL.HashMapFreeList
open MyJQL.HashMapInsertion
open MyJQL.HashMapOperations
open MyJQL.HashMapRefinement
open MyJQL.HashMapAccounting
open MyJQL.Reopening
open MyJQL.Restarts

set_option autoImplicit false

variable {bound : Nat} {store : HashStore} {layout : HashLayout} {map : SizeMap}

def Few (bound : Nat) (map : SizeMap) : Prop :=
  ∃ addrs : Finset Int, addrs.card ≤ bound ∧ ∀ addr, map addr ≠ none → addr ∈ addrs

theorem chain_pages_few {extra : Multiset Int} (heap : Heap store.page store.length layout extra) :
    layout.chainPages.card ≤ layout.entries.card := by
  rw [HashLayout.chainPages, HashLayout.entries, Multiset.card_sum, Multiset.card_sum]
  refine Finset.sum_le_sum fun size inSizes => ?_
  have inRange := Finset.mem_range.mp inSizes
  have each : ∀ block ∈ layout.bucket size, 1 ≤ block.items.length := fun block member =>
    List.length_pos_iff.mpr (chain_block_holds heap inRange member).nonempty
  have counted := List.card_nsmul_le_sum ((layout.bucket size).map fun block => block.items.length) 1
    (List.forall_mem_map.mpr each)
  rw [List.length_map, nsmul_eq_mul, mul_one, Nat.cast_id] at counted
  rw [blockAddrs, HashLayout.bucketEntries, Multiset.coe_card, Multiset.coe_card, List.length_map, List.length_map,
    List.length_flatMap]
  exact counted

theorem entries_few (graph : IsGraph layout.entries map) (few : Few bound map) : layout.entries.card ≤ bound := by
  obtain ⟨addrs, card, inAddrs⟩ := few
  have inside : (layout.entries.map Prod.snd).toFinset ⊆ addrs := by
    intro addr member
    obtain ⟨⟨size, _⟩, listed, rfl⟩ := Multiset.mem_map.mp (Multiset.mem_toFinset.mp member)
    apply inAddrs
    rw [(graph.mem size _).mp listed]
    exact Option.some_ne_none _
  have counted := Finset.card_le_card inside
  rw [Multiset.toFinset_card_of_nodup graph.nodup, Multiset.card_map] at counted
  exact counted.trans card

def pagesFor (bound : Nat) : Nat := 10 + bound

theorem full_length (heap : Heap store.page store.length layout 0) (full : layout.free = [])
    (orphans : layout.orphans ≤ {behindDirectory}) (graph : IsGraph layout.entries map) (few : Few bound map) :
    store.length ≤ pagesFor bound * pageSize := by
  have counted := congrArg Multiset.card heap.accounted
  have chains := (chain_pages_few heap).trans (entries_few graph few)
  have single := Multiset.card_le_card orphans
  have aligned := heap.aligned
  rw [Multiset.card_singleton] at single
  rw [card_pages_below, add_zero, HashLayout.owned, Multiset.card_add, Multiset.card_add, Multiset.card_add,
    HashLayout.freePages, full, reservedPages, Multiset.card_map, Multiset.card_range, List.flatMap_nil,
    Multiset.coe_nil, Multiset.card_zero] at counted
  simp only [pagesFor, pageSize] at *
  omega

/-- The invariant of a run, in which at most the page behind the directory belongs to nothing. -/
def Tidy (pool : HashPool) (map : SizeMap) : Prop :=
  ∃ store layout, StoresPool store pool ∧ Heap store.page store.length layout 0 ∧
    PinnedWithin store [behindDirectory] ∧ IsGraph layout.entries map ∧ layout.orphans ≤ {behindDirectory}

/-- The page behind the directory is appended only to a file that ends there. -/
theorem orphans_absent (heap : Heap store.page store.length layout 0) (ends : behindDirectory = store.length)
    (orphans : layout.orphans ≤ {behindDirectory}) : layout.orphans = 0 := by
  refine Multiset.eq_zero_of_forall_notMem fun addr orphan => ?_
  have same := Multiset.mem_singleton.mp (Multiset.mem_of_le orphans orphan)
  have inFile := heap_in_file heap (show addr ∈ layout.owned + 0 by simp [HashLayout.owned, orphan])
  omega

theorem tidy_step {pool after : HashPool} {call : HashCall} {result : Option Int} (tidy : Tidy pool map)
    (allowed : call.Allowed map) (ran : call.run pool = some (result, after)) :
    Tidy after (call.advance map result) := by
  obtain ⟨store, layout, stores, heap, within, graph, orphans⟩ := tidy
  obtain ⟨final, finalStores, left, leaves⟩ :=
    allows_of_ensures (hash_call_leaves heap within (by decide) graph allowed) pool stores _ _ ran
  refine ⟨final, left, finalStores, leaves.heap, ?_, leaves.graph, ?_⟩
  · by_cases misses : call.Misses map
    · exact pinned_within_mono (leaves.missed misses).2.2.2.2 (by simp)
    · exact (leaves.found misses).2
  · by_cases misses : call.Misses map
    · rw [(leaves.missed misses).2.2.1]
      split_ifs with ends
      · rw [orphans_absent heap ends orphans]
        exact le_refl _
      · exact orphans
    · rw [(leaves.found misses).1]
      exact orphans

theorem insert_fills {pool after : HashPool} {size : Nat} {addr : Int} {result : Option Int} (tidy : Tidy pool map)
    (allowed : (HashCall.insert size addr).Allowed map)
    (few : Few bound (Function.update map addr (some size)))
    (ran : (HashCall.insert size addr).run pool = some (result, after)) :
    after.file.length ≤ max pool.file.length (pagesFor bound * pageSize) := by
  obtain ⟨store, layout, stores, heap, within, graph, orphans⟩ := tidy
  obtain ⟨inRange, nonneg, absent⟩ := allowed
  have inSizes : size < sizes := by simpa only [sizes] using inRange
  have inserted : Ensures StoresPool store (HashCall.insert size addr).run
      fun _ final => final.length ≤ max store.length (pagesFor bound * pageSize) := by
    apply ensures_bind
    apply ensures_mono (ensures_insert_thrifty inSizes nonneg heap within (by decide))
    rintro _ final ⟨blocks, put, left, finalHeap, bucket, sameOrphans, _, same | full⟩
    · exact ensures_pure _ (same ▸ le_max_left _ _)
    · have entries : left.entries = (size, addr) ::ₘ layout.entries := by
        rw [← entries_put_in inSizes put, HashLayout.entries, HashLayout.entries, bucket]
      have graphAfter : IsGraph left.entries (Function.update map addr (some size)) := by
        rw [entries]
        exact graph_insert graph absent
      have short := full_length finalHeap full (sameOrphans ▸ orphans) graphAfter few
      exact ensures_pure _ (short.trans (le_max_right _ _))
  obtain ⟨final, finalStores, shorter⟩ := allows_of_ensures inserted pool stores _ _ ran
  rw [finalStores.length, stores.length]
  exact shorter

theorem removal_shortens {pool after : HashPool} {call : HashCall} {result : Option Int} (tidy : Tidy pool map)
    (allowed : call.Allowed map) (finds : ¬call.Misses map) (removes : ∀ size addr, call ≠ .insert size addr)
    (ran : call.run pool = some (result, after)) : after.file.length ≤ pool.file.length := by
  obtain ⟨store, layout, stores, heap, within, graph, _⟩ := tidy
  have removed : Ensures (StoresWhere (Shrank store.length store.size)) store call.run fun _ _ => True := by
    cases call with
    | insert size addr => exact absurd rfl (removes size addr)
    | pop size addr =>
        have present := (graph.mem size addr).mpr allowed
        apply ensures_bind
        apply ensures_mono (ensures_hash_table_pop (layout.mem_entries.mp present).1 heap present within (by decide))
        exact fun _ _ _ => ensures_pure _ trivial
    | popLowerBound size =>
        by_cases inRange : size < sizes
        · have large : ∃ addr stored, map addr = some stored ∧ size ≤ stored := by
            by_contra none
            refine finds ⟨by simpa only [sizes] using inRange, fun addr stored present => ?_⟩
            by_contra enough
            exact none ⟨addr, stored, present, by omega⟩
          obtain ⟨addr, stored, present, enough⟩ := large
          have listed := (graph.mem stored addr).mpr present
          apply ensures_bind
          apply ensures_mono (ensures_pop_lower_bound_found inRange heap within (by decide) listed enough)
          exact fun _ _ _ => ensures_pure _ trivial
        · rw [search_outside inRange]
          exact ensures_pure _ trivial
  obtain ⟨final, ⟨finalStores, shorter, _⟩, _⟩ := allows_of_ensures removed pool (shrank_refl stores) _ _ ran
  rw [finalStores.length, stores.length]
  exact shorter

theorem miss_appends {pool after : HashPool} {call : HashCall} {result : Option Int} (tidy : Tidy pool map)
    (allowed : call.Allowed map) (misses : call.Misses map) (ran : call.run pool = some (result, after)) :
    after.file.length ≤ max pool.file.length (10 * pageSize) := by
  obtain ⟨store, layout, stores, heap, within, graph, _⟩ := tidy
  obtain ⟨final, finalStores, left, leaves⟩ :=
    allows_of_ensures (hash_call_leaves heap within (by decide) graph allowed) pool stores _ _ ran
  rw [finalStores.length, stores.length, (leaves.missed misses).2.1]
  simp only [behindDirectory, pageSize]
  split_ifs <;> omega

/-- At most `bound` addresses are stored after the call, one that a search takes out among them. -/
def LeavesFew (bound : Nat) (map : SizeMap) (call : HashCall) : Prop := Few bound (call.advance map none)

theorem call_fills {pool after : HashPool} {call : HashCall} {result : Option Int} (tidy : Tidy pool map)
    (allowed : call.Allowed map) (few : LeavesFew bound map call) (ran : call.run pool = some (result, after)) :
    after.file.length ≤ max pool.file.length (pagesFor bound * pageSize) := by
  by_cases misses : call.Misses map
  · refine (miss_appends tidy allowed misses ran).trans (max_le_max le_rfl ?_)
    simp only [pagesFor, pageSize]
    omega
  · cases call with
    | insert size addr => exact insert_fills tidy allowed few ran
    | pop size addr =>
        exact (removal_shortens tidy allowed misses (by simp) ran).trans (le_max_left _ _)
    | popLowerBound size =>
        exact (removal_shortens tidy allowed misses (by simp) ran).trans (le_max_left _ _)

theorem confined_short {pool : HashPool} (run : RunWhere (fun _ map call => LeavesFew bound map call) pool map) :
    Tidy pool map ∧ pool.file.length ≤ pagesFor bound * pageSize ∧ pool.file.fp.size ≤ pagesFor bound * pageSize := by
  induction run with
  | opened empty ran =>
      obtain ⟨store, pool, same, stores, heap, within, size⟩ := hash_table_init_empty _ empty _
      rw [ran] at same
      cases same
      have graph : IsGraph emptyLayout.entries fun _ => none := by
        refine ⟨?_, ?_⟩ <;> simp [empty_entries]
      have short := full_length heap rfl (Multiset.zero_le _) graph (⟨∅, Nat.zero_le bound, by simp⟩)
      rw [stores.size, size, stores.length]
      exact ⟨⟨store, _, stores, heap, pinned_within_mono within (by simp), graph, Multiset.zero_le _⟩, short, short⟩
  | called before allowed few ran ih =>
      obtain ⟨tidy, short, disk⟩ := ih
      have resized := hash_call_resizes (hash_reachable_invariant (run_where_reachable before)) allowed ran
      have length := (call_fills tidy allowed few ran).trans (max_le short le_rfl)
      exact ⟨tidy_step tidy allowed ran, length, resized.le.trans (max_le disk length)⟩

/-- Behind the directory, a page that is in no chain and not free is the first one. -/
def OneOrphan (pool : HashPool) : Prop :=
  ∀ addr, 9 * pageSize ≤ addr → addr % pageSize = 0 → addr < pool.file.length →
    InChain (view pool) addr ∨ ListedFree (view pool) addr ∨ addr = 9 * pageSize

theorem tidy_one_orphan {pool : HashPool} (tidy : Tidy pool map) : OneOrphan pool := by
  obtain ⟨store, layout, stores, heap, _, _, orphans⟩ := tidy
  intro addr behind aligned inside
  refine (page_owned stores heap behind aligned inside).imp_right fun owned => owned.imp_right fun orphan => ?_
  exact Multiset.mem_singleton.mp (Multiset.mem_of_le orphans orphan)

/-- However often addresses come and go and searches fail, the file is never longer than the addresses that
were stored at one time ask for, and one page at most belongs to nothing. -/
theorem space_file_bounded (bound : Nat) : ∀ pool map,
    RunWhere (fun _ map call => LeavesFew bound map call) pool map →
      pool.file.length ≤ pagesFor bound * pageSize ∧ pool.file.fp.size ≤ pagesFor bound * pageSize ∧
        OneOrphan pool := by
  intro pool map run
  obtain ⟨tidy, length, size⟩ := confined_short run
  exact ⟨length, size, tidy_one_orphan tidy⟩

section OneAddress

def oneAddr : SizeMap := Function.update (fun _ => none) 0 (some 5)

theorem none_few : Few 1 fun _ => none := ⟨∅, by simp, fun _ present => absurd rfl present⟩

theorem one_addr_few : Few 1 oneAddr := by
  refine ⟨{0}, by simp, fun addr present => ?_⟩
  rw [Finset.mem_singleton]
  by_contra different
  exact present (Function.update_of_ne different _ _)

variable {pool : HashPool}

theorem one_addr_comes (run : RunWhere (fun _ map call => LeavesFew 1 map call) pool fun _ => none) :
    ∃ after, (HashCall.insert 5 0).run pool = some (none, after) ∧
      RunWhere (fun _ map call => LeavesFew 1 map call) after oneAddr := by
  have allowed : (HashCall.insert 5 0).Allowed fun _ => none := ⟨by decide, by decide, rfl⟩
  obtain ⟨_, after, ran, rfl, next⟩ := run_where_next run allowed one_addr_few
  exact ⟨after, ran, next⟩

theorem one_addr_goes (run : RunWhere (fun _ map call => LeavesFew 1 map call) pool oneAddr) :
    ∃ after, (HashCall.pop 5 0).run pool = some (none, after) ∧
      RunWhere (fun _ map call => LeavesFew 1 map call) after fun _ => none := by
  have gone : Function.update oneAddr 0 none = fun _ => none := by
    rw [oneAddr, Function.update_idem, Function.update_eq_self_iff]
  have few : LeavesFew 1 oneAddr (.pop 5 0) := (congrArg (Few 1) gone).mpr none_few
  obtain ⟨_, after, ran, rfl, next⟩ := run_where_next run (show (HashCall.pop 5 0).Allowed _ from rfl) few
  exact ⟨after, ran, gone ▸ next⟩

theorem nothing_found (run : RunWhere (fun _ map call => LeavesFew 1 map call) pool fun _ => none) :
    ∃ after, (HashCall.popLowerBound 0).run pool = some (some (-1), after) ∧
      RunWhere (fun _ map call => LeavesFew 1 map call) after fun _ => none := by
  obtain ⟨_, after, ran, ⟨_, rfl, missed, _⟩, next⟩ :=
    run_where_next run (show (HashCall.popLowerBound 0).Allowed _ from trivial) none_few
  obtain rfl := missed.mpr fun _ _ bound => by cases bound
  exact ⟨after, ran, next⟩

end OneAddress

/-- One address comes, goes, and comes back after a search that finds nothing: the file has as many pages as it may
have, and one of them belongs to nothing. -/
theorem space_file_bounded_come_and_go : ∃ fresh one cut searched last : HashPool,
    hashTableInit emptyDisk 8 blankPool = some ((), fresh) ∧
    (HashCall.insert 5 0).run fresh = some (none, one) ∧ (HashCall.pop 5 0).run one = some (none, cut) ∧
    (HashCall.popLowerBound 0).run cut = some (some (-1), searched) ∧
    (HashCall.insert 5 0).run searched = some (none, last) ∧
    last.file.length = pagesFor 1 * pageSize ∧ last.file.fp.size ≤ pagesFor 1 * pageSize ∧ OneOrphan last := by
  obtain ⟨fresh, _, opened, _⟩ := fresh_pool
  obtain ⟨one, pushed, runOne⟩ := one_addr_comes (.opened rfl opened)
  obtain ⟨cut, popped, runCut⟩ := one_addr_goes runOne
  obtain ⟨searched, missed, runSearched⟩ := nothing_found runCut
  obtain ⟨last, again, run⟩ := one_addr_comes runSearched
  have length : ((hashTableInit emptyDisk 8 blankPool).bind fun opened =>
      ((HashCall.insert 5 0).run opened.2).bind fun pushed =>
        ((HashCall.pop 5 0).run pushed.2).bind fun popped =>
          ((HashCall.popLowerBound 0).run popped.2).bind fun missed =>
            ((HashCall.insert 5 0).run missed.2).map fun again => again.2.file.length) =
      some (pagesFor 1 * pageSize) := by
    decide +kernel
  rw [opened, Option.bind_some, pushed, Option.bind_some, popped, Option.bind_some, missed, Option.bind_some, again,
    Option.map_some, Option.some.injEq] at length
  obtain ⟨_, size, orphan⟩ := space_file_bounded 1 _ _ run
  exact ⟨fresh, one, cut, searched, last, opened, pushed, popped, missed, again, length, size, orphan⟩

end MyJQL.HashMapFileSize
