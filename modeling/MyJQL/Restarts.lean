import MyJQL.BTreeInvariants
import MyJQL.HashMapAccounting
import MyJQL.Reopening

/-!
# What a restart keeps of a file

Two of the owners of a pool cut pages off its file, the space map and the tree. The cut shortens the
file in memory only, so a restart after it finds pages that belong to nothing. It loses no space
exactly if the file never was longer than at the restart.
-/

namespace MyJQL.Restarts

open MyJQL.FileIo
open MyJQL.BufferPoolModel
open MyJQL.BufferPoolInvariant
open MyJQL.StateProgram
open MyJQL.PageStoreLogic
open MyJQL.PageAccounting
open MyJQL.Reopening
open MyJQL.TableModel

set_option autoImplicit false

section SpaceMap

open MyJQL.HashMapModel
open MyJQL.HashMapLayout
open MyJQL.HashMapFreeList
open MyJQL.HashMapInsertion
open MyJQL.HashMapOperations
open MyJQL.HashMapRefinement
open MyJQL.HashMapAccounting

/-- The runs of a space map, with the lengths that its file had before. -/
inductive HashHistory : List Int → HashPool → SizeMap → Prop
  | opened {disk : Disk HashPage} {memory pool : HashPool} (empty : disk.size = 0)
      (ran : hashTableInit disk 8 memory = some ((), pool)) : HashHistory [] pool fun _ => none
  | called {lengths : List Int} {pool after : HashPool} {map : SizeMap} {call : HashCall} {result : Option Int}
      (before : HashHistory lengths pool map) (allowed : call.Allowed map)
      (ran : call.run pool = some (result, after)) :
      HashHistory (pool.file.length :: lengths) after (call.advance map result)

theorem hash_history_reachable {lengths : List Int} {pool : HashPool} {map : SizeMap}
    (history : HashHistory lengths pool map) : HashReachable pool map := by
  induction history with
  | opened empty ran => exact .opened empty ran
  | called _ allowed ran ih => exact .called ih allowed ran

theorem hash_call_resizes {pool after : HashPool} {map : SizeMap} {call : HashCall} {result : Option Int}
    (invariant : HashInvariant pool map) (allowed : call.Allowed map) (ran : call.run pool = some (result, after)) :
    Resized pool after := by
  obtain ⟨store, layout, stores, heap, within, graph⟩ := invariant
  have grows : Ensures (StoresWhere (Grew store.length store.size)) store call.run (fun _ _ => True) →
      Resized pool after := by
    intro runs
    obtain ⟨_, related, _⟩ := allows_of_ensures runs pool (grew_refl stores) _ _ ran
    exact grew_resized stores related
  have shrinks : Ensures (StoresWhere (Shrank store.length store.size)) store call.run (fun _ _ => True) →
      Resized pool after := by
    intro runs
    obtain ⟨_, related, _⟩ := allows_of_ensures runs pool (shrank_refl stores) _ _ ran
    exact shrank_resized stores related
  cases call with
  | insert size addr =>
      obtain ⟨inRange, nonneg, absent⟩ := allowed
      apply grows
      apply ensures_bind
      apply ensures_mono
        (ensures_hash_table_insert (by simpa only [sizes] using inRange) nonneg heap within (by decide))
      exact fun _ _ _ => ensures_pure _ trivial
  | pop size addr =>
      have present := (graph.mem size addr).mpr allowed
      apply shrinks
      apply ensures_bind
      apply ensures_mono (ensures_hash_table_pop (layout.mem_entries.mp present).1 heap present within (by decide))
      exact fun _ _ _ => ensures_pure _ trivial
  | popLowerBound size =>
      by_cases inRange : size < sizes
      · by_cases finds : ∃ large stored, (large, stored) ∈ layout.entries ∧ size ≤ large
        · obtain ⟨large, stored, present, enough⟩ := finds
          apply shrinks
          apply ensures_bind
          apply ensures_mono (ensures_pop_lower_bound_found inRange heap within (by decide) present enough)
          exact fun _ _ _ => ensures_pure _ trivial
        · have smaller : ∀ other item, (other, item) ∈ layout.entries → other < size := by
            intro other item member
            by_contra enough
            exact finds ⟨other, item, member, by omega⟩
          apply grows
          apply ensures_bind
          apply ensures_mono (ensures_pop_lower_bound_missed inRange heap within (by decide) smaller)
          exact fun _ _ _ => ensures_pure _ trivial
      · apply grows
        have outside : ¬((size : Int) ≥ 0 ∧ (size : Int) < pageSize) := by
          simp only [pageSize, sizes] at *
          omega
        simp only [HashCall.run, hashTablePopLowerBound, if_neg outside, pure_bind]
        exact ensures_pure _ trivial

theorem hash_history_water {lengths : List Int} {pool : HashPool} {map : SizeMap}
    (history : HashHistory lengths pool map) : HighWater pool lengths := by
  induction history with
  | opened empty ran =>
      obtain ⟨store, pool, same, stores, _, _, size⟩ := hash_table_init_empty _ empty _
      rw [ran] at same
      cases same
      apply high_water_fresh
      rw [stores.size, stores.length, size]
  | called before allowed ran ih =>
      have invariant := hash_reachable_invariant (hash_history_reachable before)
      have resized := hash_call_resizes invariant allowed ran
      obtain ⟨_, _, stores, _⟩ := invariant
      exact high_water_resized ih stores.invariant resized

/-- A heap in a file that got its stale pages back: they belong to nothing. -/
theorem heap_reopened {page changed : Int → HashPage} {length size : Int} {layout : HashLayout}
    (heap : Heap page length layout 0) (longer : length ≤ size) (aligned : size % pageSize = 0)
    (same : ∀ addr, 0 ≤ addr → addr % pageSize = 0 → addr < length → changed addr = page addr) :
    Heap changed size { layout with orphans := layout.orphans + stalePages length size } 0 := by
  have reserved : ∀ addr ∈ reservedPages, changed addr = page addr := by
    intro addr member
    obtain ⟨nonneg, addrAligned, inside⟩ := reserved_in_file heap member
    exact same addr nonneg addrAligned inside
  refine ⟨?_, ?_, ?_, ?_, aligned⟩
  · intro size inRange
    rw [reserved _ (dir_addr_reserved inRange)]
    apply LinkedPages.NodeShape.segment_frame _ (heap.directory size inRange)
    intro block member
    obtain ⟨nonneg, addrAligned, inside⟩ := chain_in_file heap inRange member
    exact same _ nonneg addrAligned inside
  · rw [reserved _ zero_reserved]
    apply LinkedPages.NodeShape.segment_frame _ heap.free
    intro block member
    obtain ⟨nonneg, addrAligned, inside⟩ := free_in_file heap (free_block_page heap member)
    exact same _ nonneg addrAligned inside
  · rw [reserved _ zero_reserved]
    exact heap.control
  · rw [pages_come_back heap.aligned aligned longer, ← heap.accounted]
    simp only [HashLayout.owned, HashLayout.chainPages, HashLayout.freePages]
    abel

theorem reopened_orphans {pool : HashPool} {map : SizeMap} (invariant : HashInvariant pool map) (memory : HashPool)
    (same : (reopen pool memory).file.length = pool.file.length) :
    NoOrphanPage (reopen pool memory) ↔ NoOrphanPage pool := by
  obtain ⟨store, layout, stores, heap, _, _⟩ := invariant
  obtain ⟨again, againStores, _, length, _, pages⟩ := reopened_stores stores memory
  have size : store.size = store.length := by
    rw [← length, ← againStores.length, same, stores.length]
  have heapAgain := heap_reopened heap (size_covers_length stores) stores.sizeAligned pages
  rw [← length] at heapAgain
  rw [no_orphan_page_iff againStores heapAgain, no_orphan_page_iff stores heap, length, size, no_stale_pages, add_zero]

end SpaceMap

section Index

open MyJQL.SearchTrees
open MyJQL.BTreeModel
open MyJQL.BTreeLayout
open MyJQL.BTreePages
open MyJQL.BTreeSearch
open MyJQL.BTreeInsertion
open MyJQL.BTreeDeletion
open MyJQL.BTreeRefinement
open MyJQL.BTreeInvariants

variable {Key Store : Type} [LinearOrder Key]

variable {degree : Nat} {callbacks : Callbacks Store} {holds : Standing Key Store}
  {earlier : List (Bindings Key × IndexPool)} {bindings : Bindings Key} {records : Multiset (Entry Key)}
  {index after : Index Store}

def lengthsOf (earlier : List (Bindings Key × IndexPool)) : List Int := earlier.map fun state => state.2.file.length

theorem insert_grows (contract : Contract (holds records) records callbacks) (positive : 0 < degree)
    (invariant : Invariant degree holds bindings records index) {rid answer : RID} {key : Key}
    (recorded : (rid, key) ∈ records) (absent : bindings key = none)
    (ran : bTreeInsert degree callbacks rid index = some (answer, after)) :
    Resized index.1 after.1 ∧ index.1.file.length ≤ after.1.file.length := by
  obtain ⟨rows, separators, store, stores, standing, shape, table⟩ := invariant
  have inserted : Ensures (Stands (StoresWhere (Grew store.length store.size)) (holds records)) (store, separators)
      (bTreeInsert degree callbacks rid) fun _ _ => True := by
    apply ensures_b_tree_insert contract positive shape recorded table.recorded (table_absent table absent)
    intro _ _ _
    trivial
  obtain ⟨_, related, _⟩ := allows_of_ensures inserted index ⟨grew_refl stores, standing⟩ _ _ ran
  exact ⟨grew_resized stores related.1, grew_lengthens stores related.1⟩

theorem delete_shrinks (contract : Contract (holds records) records callbacks) (enough : 2 ≤ degree)
    (invariant : Invariant degree holds bindings records index) {rid : RID} {key : Key}
    (recorded : (rid, key) ∈ records) (present : bindings key ≠ none)
    (ran : bTreeDelete degree callbacks rid index = some ((), after)) :
    Resized index.1 after.1 ∧ after.1.file.length ≤ index.1.file.length := by
  obtain ⟨rows, separators, store, stores, standing, shape, table⟩ := invariant
  have deleted : Ensures (Stands (StoresWhere (Shrank store.length store.size)) (holds records)) (store, separators)
      (bTreeDelete degree callbacks rid) fun _ _ => True := by
    apply ensures_b_tree_delete contract enough shape recorded table.recorded (table_present table present)
    intro _ _ _
    trivial
  obtain ⟨_, related, _⟩ := allows_of_ensures deleted index ⟨shrank_refl stores, standing⟩ _ _ ran
  exact ⟨shrank_resized stores related.1, shrank_shortens stores related.1⟩

theorem search_shrinks {compare : RID → Program Store Int} {key : Key}
    (compares : ComparesKey holds records compare key)
    (invariant : Invariant degree holds bindings records index) {answer : RID}
    (ran : bTreeSearch degree compare index = some (answer, after)) :
    Resized index.1 after.1 ∧ after.1.file.length ≤ index.1.file.length := by
  obtain ⟨rows, separators, store, stores, standing, shape, table⟩ := invariant
  have searched : Ensures (Stands (StoresWhere (Shrank store.length store.size)) (holds records)) (store, separators)
      (bTreeSearch degree compare) fun _ _ => True := by
    apply ensures_b_tree_search shape
    · intro entry member
      apply compares
      rcases Multiset.mem_add.mp member with row | separator
      · exact Multiset.mem_add.mpr (.inl (table.recorded entry row))
      · exact Multiset.mem_add.mpr (.inr separator)
    · intro _ _ _ _
      trivial
  obtain ⟨_, related, _⟩ := allows_of_ensures searched index ⟨shrank_refl stores, standing⟩ _ _ ran
  exact ⟨shrank_resized stores related.1, shrank_shortens stores related.1⟩

theorem invariant_pool (invariant : Invariant degree holds bindings records index) : PoolInvariant index.1 := by
  obtain ⟨_, _, _, stores, _⟩ := invariant
  exact stores.invariant

theorem index_history_water (contract : ∀ records, Contract (holds records) records callbacks) (enough : 2 ≤ degree)
    (history : History degree callbacks holds earlier bindings records index) :
    HighWater index.1 (lengthsOf earlier) := by
  induction history with
  | opened empty ran ready =>
      obtain ⟨store, pool, same, stores, _, size⟩ := @b_tree_init_empty Key _ degree _ empty _
      rw [ran] at same
      cases same
      apply high_water_fresh
      rw [stores.size, stores.length, size]
  | inserted before recorded absent ran ih =>
      have invariant := reached_invariant contract enough ⟨_, before⟩
      have grows := insert_grows (contract _) (by omega) invariant recorded absent ran
      exact high_water_resized ih (invariant_pool invariant) grows.1
  | deleted before recorded present ran ih =>
      have invariant := reached_invariant contract enough ⟨_, before⟩
      have shrinks := delete_shrinks (contract _) enough invariant recorded present ran
      exact high_water_resized ih (invariant_pool invariant) shrinks.1
  | searched before compares ran ih =>
      have invariant := reached_invariant contract enough ⟨_, before⟩
      have shrinks := search_shrinks compares invariant ran
      exact high_water_resized ih (invariant_pool invariant) shrinks.1
  | moved _ _ _ ih => exact ih

theorem ledger_reopened {page changed : Int → BNode} {length size root : Int} {free : List Int}
    {used orphans : Multiset Int} (ledger : Ledger page length root free used orphans) (longer : length ≤ size)
    (aligned : size % pageSize = 0)
    (same : ∀ addr, 0 ≤ addr → addr % pageSize = 0 → addr < length → changed addr = page addr) :
    Ledger changed size root free used (orphans + stalePages length size) := by
  have nonneg := ledger.nonneg
  have known : ∀ addr ∈ 0 ::ₘ (used + (free : Multiset Int) + orphans), changed addr = page addr := by
    intro addr member
    obtain ⟨addrNonneg, addrAligned, inside⟩ := ledger_in_file ledger member
    exact same addr addrNonneg addrAligned inside
  have control := known 0 (Multiset.mem_cons_self _ _)
  refine ⟨by omega, aligned, ?_, ?_, ?_, ?_, ?_⟩
  · rw [pages_come_back ledger.aligned aligned longer, ledger.pages, Multiset.cons_add, add_assoc]
  · rw [control]
    exact ledger.root
  · rw [control]
    apply LinkedPages.NodeShape.segment_frame _ ledger.links
    intro node member
    have isFree : node ∈ free := member
    exact known node (by simp [isFree])
  · rw [control]
    exact ledger.tail
  · rw [control]
    exact ledger.num

theorem index_reopened {height : Nat} {tree : BTree Key height} {free : List Int} {orphans : Multiset Int}
    {store again : IndexStore} (shape : IndexShape degree tree free orphans store) (longer : store.length ≤ store.size)
    (aligned : store.size % pageSize = 0) (length : again.length = store.size)
    (same : ∀ addr, 0 ≤ addr → addr % pageSize = 0 → addr < store.length → again.page addr = store.page addr) :
    IndexShape degree tree free (orphans + stalePages store.length store.size) again := by
  refine ⟨?_, ?_, shape.sized, shape.sorted⟩
  · rw [length]
    exact ledger_reopened shape.ledger longer aligned same
  · apply holds_tree_frame _ shape.holds
    intro addr member
    obtain ⟨nonneg, addrAligned, inside, _⟩ := ledger_used shape.ledger member
    exact same addr nonneg addrAligned inside

theorem reopened_partitioned (invariant : Invariant degree holds bindings records index) (memory : IndexPool)
    (same : (reopen index.1 memory).file.length = index.1.file.length) :
    ∃ live free, Partitioned (view (reopen index.1 memory)) (reopen index.1 memory).file.length live free := by
  obtain ⟨_, _, store, stores, _, ⟨height, tree, free, shape, _⟩, _⟩ := invariant
  obtain ⟨again, againStores, _, length, _, pages⟩ := reopened_stores stores memory
  have size : store.size = store.length := by
    rw [← length, ← againStores.length, same, stores.length]
  have shapeAgain := index_reopened shape (size_covers_length stores) stores.sizeAligned length pages
  rw [size, no_stale_pages, add_zero] at shapeAgain
  exact ⟨_, free, index_partitioned againStores shapeAgain⟩

end Index

section Restarts

open MyJQL.HashMapModel
open MyJQL.HashMapRefinement
open MyJQL.HashMapAccounting
open MyJQL.BTreeModel
open MyJQL.BTreeLayout
open MyJQL.BTreeSearch
open MyJQL.BTreeInsertion
open MyJQL.BTreeRefinement
open MyJQL.BTreeInvariants

/-- After any run of a space map or of a tree, the file that is opened again has its length and every page
accounted for exactly if it never was longer, and if every page of the space map was accounted for. -/
theorem restart_loses_no_space {Key Store : Type} [LinearOrder Key] (degree : Nat) (callbacks : Callbacks Store)
    (holds : Standing Key Store) (enough : 2 ≤ degree)
    (contract : ∀ records, Contract (holds records) records callbacks) :
    (∀ lengths pool map, HashHistory lengths pool map → ∀ memory,
      ((reopen pool memory).file.length = pool.file.length ∧ NoOrphanPage (reopen pool memory) ↔
        (∀ length ∈ lengths, length ≤ pool.file.length) ∧ NoOrphanPage pool)) ∧
    ∀ earlier bindings records index, History degree callbacks holds earlier bindings records index → ∀ memory,
      ((reopen index.1 memory).file.length = index.1.file.length ∧
          (∃ live free,
            Partitioned (view (reopen index.1 memory)) (reopen index.1 memory).file.length live free) ↔
        ∀ length ∈ lengthsOf earlier, length ≤ index.1.file.length) := by
  refine ⟨?_, ?_⟩
  · intro lengths pool map history memory
    have invariant := hash_reachable_invariant (hash_history_reachable history)
    obtain ⟨store, stores⟩ : ∃ store, StoresPool store pool := invariant.imp fun _ ⟨_, stores, _⟩ => stores
    have exactly := reopen_length_iff (hash_history_water history) stores.invariant
      (by rw [stores.size]; exact stores.sizeAligned) memory
    rw [← exactly]
    exact and_congr_right fun same => reopened_orphans invariant memory same
  · intro earlier bindings records index history memory
    have invariant := reached_invariant contract enough ⟨_, history⟩
    obtain ⟨store, stores⟩ : ∃ store, StoresPool store index.1 := by
      obtain ⟨_, _, store, stores, _⟩ := invariant
      exact ⟨store, stores⟩
    have exactly := reopen_length_iff (index_history_water contract enough history) stores.invariant
      (by rw [stores.size]; exact stores.sizeAligned) memory
    rw [← exactly]
    constructor
    · exact fun kept => kept.1
    · exact fun same => ⟨same, reopened_partitioned invariant memory same⟩

theorem still_accounted {lengths : List Int} {pool after : HashPool} {map : SizeMap} {call : HashCall}
    {result : Option Int} (history : HashHistory lengths pool map) (covered : NoOrphanPage pool)
    (allowed : call.Allowed map) (finds : ¬call.Misses map) (ran : call.run pool = some (result, after)) :
    NoOrphanPage after := by
  have invariant := hash_reachable_invariant (hash_history_reachable history)
  obtain ⟨_, _, same, leaves⟩ := pages_after_call invariant covered allowed
  rw [ran] at same
  cases same
  exact leaves.mpr fun overruns => finds overruns.1

theorem pushed_and_popped : ∃ (cut full : HashPool) (map filled : SizeMap),
    HashHistory [1280, 1152] cut map ∧ cut.file.length = 1152 ∧ cut.file.fp.size = 1280 ∧ NoOrphanPage cut ∧
      HashHistory [1152, 1280, 1152] full filled ∧ full.file.length = 1280 ∧ NoOrphanPage full := by
  obtain ⟨_, fresh, opened, stores, heap, _⟩ := hash_table_init_empty emptyDisk rfl blankPool
  have start : HashHistory [] fresh fun _ => none := .opened rfl opened
  have covered := (no_orphan_page_iff stores heap).mpr rfl
  have pushes : (HashCall.insert 5 0).Allowed fun _ => none := ⟨by decide, by decide, rfl⟩
  obtain ⟨_, first, pushed, _⟩ := hash_call_step (hash_reachable_invariant (hash_history_reachable start)) pushes
  have middle := HashHistory.called start pushes pushed
  have coveredFirst := still_accounted start covered pushes (fun misses => misses) pushed
  have pops : (HashCall.pop 5 0).Allowed ((HashCall.insert 5 0).advance (fun _ => none) none) := by
    simp [HashCall.Allowed, HashCall.advance]
  obtain ⟨_, cut, popped, _⟩ := hash_call_step (hash_reachable_invariant (hash_history_reachable middle)) pops
  have last := HashHistory.called middle pops popped
  have coveredCut := still_accounted middle coveredFirst pops (fun misses => misses) popped
  have pushesAgain : (HashCall.insert 5 0).Allowed
      ((HashCall.pop 5 0).advance ((HashCall.insert 5 0).advance (fun _ => none) none) none) := by
    simp [HashCall.Allowed, HashCall.advance]
  obtain ⟨_, full, again, _⟩ := hash_call_step (hash_reachable_invariant (hash_history_reachable last)) pushesAgain
  have coveredFull := still_accounted last coveredCut pushesAgain (fun misses => misses) again
  have lengths : ((hashTableInit emptyDisk 8 blankPool).bind fun opened =>
      ((HashCall.insert 5 0).run opened.2).bind fun pushed =>
        ((HashCall.pop 5 0).run pushed.2).bind fun popped =>
          ((HashCall.insert 5 0).run popped.2).map fun again =>
            (opened.2.file.length, pushed.2.file.length, popped.2.file.length, popped.2.file.fp.size,
              again.2.file.length)) = some (1152, 1280, 1152, 1280, 1280) := by
    decide +kernel
  rw [opened, Option.bind_some, pushed, Option.bind_some, popped, Option.bind_some, again, Option.map_some,
    Option.some.injEq] at lengths
  simp only [Prod.mk.injEq] at lengths
  obtain ⟨freshLength, firstLength, cutLength, cutSize, fullLength⟩ := lengths
  have history := HashHistory.called last pushesAgain again
  rw [freshLength, firstLength] at last history
  rw [cutLength] at history
  exact ⟨cut, full, _, _, last, cutLength, cutSize, coveredCut, history, fullLength, coveredFull⟩

theorem numbered_grow {total : Nat} (count : Nat) (fits : count ≤ total) : ∃ earlier, ∃ index : Index Unit,
    History 3 addressCallbacks addressed earlier (boundBelow count) (numbered total) index ∧
      ∀ length ∈ lengthsOf earlier, length ≤ index.1.file.length := by
  induction count with
  | zero =>
      obtain ⟨index, start⟩ := numbered_start total
      exact ⟨[], index, start, by simp [lengthsOf]⟩
  | succ count ih =>
      obtain ⟨earlier, index, before, longest⟩ := ih (by omega)
      obtain ⟨after, inserted, next⟩ := numbered_insert (by omega) before
      have invariant := reached_invariant address_contract (by decide) ⟨_, before⟩
      have longer := (insert_grows (address_contract _) (by decide) invariant (numbered_mem (by omega))
        (bound_below_self count) inserted).2
      refine ⟨_, after, next, fun length member => ?_⟩
      rcases List.mem_cons.mp member with rfl | old
      · exact longer
      · exact (longest length old).trans longer

/-- The page that was cut off is lost, unless it is in use again. A tree with seven records loses none. -/
theorem restart_loses_no_space_cut : ∃ (cut full : HashPool) (index : Index Unit),
    ¬((reopen cut blankPool).file.length = 1152 ∧ NoOrphanPage (reopen cut blankPool)) ∧
    ((reopen full blankPool).file.length = 1280 ∧ NoOrphanPage (reopen full blankPool)) ∧
    Reached 3 addressCallbacks addressed (boundBelow 7) (numbered 7) index ∧
    (reopen index.1 blankIndexPool).file.length = index.1.file.length := by
  obtain ⟨maps, trees⟩ := restart_loses_no_space 3 addressCallbacks addressed (by decide) address_contract
  obtain ⟨cut, full, map, filled, popped, cutLength, _, _, pushed, fullLength, covered⟩ := pushed_and_popped
  obtain ⟨earlier, index, history, longest⟩ := numbered_grow 7 le_rfl
  have cutOff := maps _ cut map popped blankPool
  have comesBack := maps _ full filled pushed blankPool
  have comesBackTree := trees _ _ _ _ history blankIndexPool
  rw [cutLength] at cutOff
  rw [fullLength] at comesBack
  refine ⟨cut, full, index, fun kept => ?_, comesBack.mpr ⟨by decide, covered⟩, ⟨_, history⟩,
    (comesBackTree.mpr longest).1⟩
  have shorter := (cutOff.mp kept).1 1280 List.mem_cons_self
  omega

/-- The page that was cut off comes back. -/
theorem restart_returns_cut_page : ¬∀ pool map, HashReachable pool map → ∀ memory,
    (reopen pool memory).file.length = pool.file.length := by
  intro always
  obtain ⟨pool, _, map, _, history, length, size, _⟩ := pushed_and_popped
  have reachable := hash_history_reachable history
  have same := always pool map reachable blankPool
  obtain ⟨_, _, stores, _⟩ := hash_reachable_invariant reachable
  rw [reopen_length stores.invariant (by rw [size]; decide), length, size] at same
  cases same

end Restarts

end MyJQL.Restarts
