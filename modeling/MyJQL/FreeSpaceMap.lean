import MyJQL.HashMapRefinement

/-!
# The space map as a multiset of pairs

The specifications of the space map in the form its user needs: from above it is a multiset of
pairs of size and address, and nothing else of it is visible.
-/

namespace MyJQL.FreeSpaceMap

open MyJQL.FileIo
open MyJQL.BufferPoolModel
open MyJQL.StateProgram
open MyJQL.PageStoreLogic
open MyJQL.HashMapModel
open MyJQL.HashMapLayout
open MyJQL.HashMapInsertion
open MyJQL.HashMapOperations
open MyJQL.HashMapRefinement
open MyJQL.HashMapFreeList

set_option autoImplicit false

/-- The stores of a map with the given pairs. A search without result may have left the page
behind the directory pinned. -/
def FsmStore (entries : Multiset (Nat × Int)) (store : HashStore) : Prop :=
  ∃ orphans, HashPost orphans [behindDirectory] entries store

def FsmHolds (entries : Multiset (Nat × Int)) (pool : HashPool) : Prop :=
  ∃ store, FsmStore entries store ∧ StoresPool store pool

section Rules

variable {entries : Multiset (Nat × Int)} {size : Nat} {addr : Int}

theorem ensures_fsm_insert {post : Unit → Multiset (Nat × Int) → Prop} (inRange : size < sizes)
    (nonneg : 0 ≤ addr) (continues : post () ((size, addr) ::ₘ entries)) :
    Ensures FsmHolds entries (hashTableInsert size addr) post := by
  apply ensures_lift
  rintro store ⟨_, layout, heap, rfl, rfl, within⟩
  refine ensures_mono (ensures_hash_table_insert inRange nonneg heap within (by decide)) ?_
  intro _ after left
  exact ⟨_, ⟨_, left⟩, continues⟩

theorem ensures_fsm_pop {post : Unit → Multiset (Nat × Int) → Prop} (present : (size, addr) ∈ entries)
    (continues : post () (entries.erase (size, addr))) :
    Ensures FsmHolds entries (hashTablePop size addr) post := by
  apply ensures_lift
  rintro store ⟨_, layout, heap, rfl, rfl, within⟩
  have inRange := (layout.mem_entries.mp present).1
  refine ensures_mono (ensures_hash_table_pop inRange heap present within (by decide)) ?_
  intro _ after left
  exact ⟨_, ⟨_, left⟩, continues⟩

theorem ensures_fsm_pop_lower_bound {post : Int → Multiset (Nat × Int) → Prop} (inRange : size < sizes)
    (missing : (∀ larger item, (larger, item) ∈ entries → larger < size) → post (-1) entries)
    (found : ∀ least ans, (least, ans) ∈ entries → 0 ≤ ans → size ≤ least →
      (∀ other item, (other, item) ∈ entries → size ≤ other → least ≤ other) →
      post ans (entries.erase (least, ans))) :
    Ensures FsmHolds entries (hashTablePopLowerBound size) post := by
  apply ensures_lift
  rintro store ⟨_, layout, heap, rfl, rfl, within⟩
  refine ensures_mono (ensures_hash_table_pop_lower_bound inRange heap within (by decide)) ?_
  rintro ans after (⟨rfl, smaller, _, _, layout', afterHeap, same, orphans, afterWithin⟩ |
    ⟨least, present, nonneg, atLeast, smallest, left⟩)
  · refine ⟨_, ⟨_, layout', afterHeap, same, orphans, ?_⟩, missing smaller⟩
    exact pinned_within_mono afterWithin (by simp)
  · exact ⟨_, ⟨_, left⟩, found least ans present nonneg atLeast smallest⟩

theorem fsm_prints {pool : HashPool} (holds : FsmHolds entries pool) :
    ∃ lines after, printHashTable pool = some (lines, after) ∧
      (printedPairs lines : Multiset (Nat × Int)) = entries := by
  obtain ⟨store, ⟨_, layout, heap, rfl, rfl, within⟩, stores⟩ := holds
  obtain ⟨lines, after, _, ran, _, pairs, _⟩ :=
    ensures_print_hash_table heap within (by decide) pool stores
  exact ⟨lines, after, ran, pairs⟩

theorem fsm_opened (disk : Disk HashPage) (empty : disk.size = 0) (memory : HashPool) :
    ∃ pool, hashTableInit disk 8 memory = some ((), pool) ∧ FsmHolds 0 pool := by
  obtain ⟨store, pool, ran, stores, heap, within, _⟩ := hash_table_init_empty disk empty memory
  refine ⟨pool, ran, store, ⟨_, emptyLayout, heap, empty_entries, rfl, ?_⟩, stores⟩
  exact pinned_within_mono within (by simp)

end Rules

end MyJQL.FreeSpaceMap
