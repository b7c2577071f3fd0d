import MyJQL.DatabaseRefinement

/-!
# Closing the database and opening its files again

Pages that were cut off in memory come back from the disk as pages that belong to nothing. Neither the
space maps nor the tree look at them, so the map that the database stands for is the same.
-/

namespace MyJQL.DatabasePersistence

open MyJQL.FileIo
open MyJQL.BufferPoolModel
open MyJQL.StateProgram
open MyJQL.PageStoreLogic
open MyJQL.PageAccounting
open MyJQL.Reopening
open MyJQL.HashMapModel
open MyJQL.HashMapLayout
open MyJQL.HashMapInsertion
open MyJQL.FreeSpaceMap
open MyJQL.BlockModel
open MyJQL.TableModel
open MyJQL.TableStore
open MyJQL.BTreeModel
open MyJQL.BTreeLayout
open MyJQL.BTreeSearch
open MyJQL.DatabaseModel
open MyJQL.RecordStore
open MyJQL.DatabaseRefinement
open MyJQL.Restarts
open MyJQL.KeyValueStore

set_option autoImplicit false

/-- A file that is not empty is not set up a second time. -/
theorem opened_again {Page : Type} {disk : Disk Page} {memory : BufferPool Page}
    {setUp : Program (BufferPool Page) Unit}
    (filled : (initBufferPool disk memory).file.length ≠ 0) :
    (do
      modify (initBufferPool disk)
      let length ← fileLength
      if length = 0 then setUp else pure ()) memory = some ((), initBufferPool disk memory) := by
  change (if (initBufferPool disk memory).file.length = 0 then setUp else pure ()) (initBufferPool disk memory) = _
  rw [if_neg filled]
  rfl

theorem fsm_reopened {entries : Multiset (Nat × Int)} {pool : HashPool} (holds : FsmHolds entries pool)
    (memory : HashPool) : hashTableInit (closeBufferPool pool).file.fp fsmDirectoryBlocks memory =
      some ((), reopen pool memory) ∧ FsmHolds entries (reopen pool memory) := by
  obtain ⟨store, ⟨orphans, layout, heap, rfl, rfl, _⟩, stores⟩ := holds
  obtain ⟨again, againStores, within, length, _, pages⟩ := reopened_stores stores memory
  have longer := size_covers_length stores
  have inside := (reserved_in_file heap zero_reserved).2.2
  refine ⟨?_, ?_⟩
  · apply opened_again
    rw [show initBufferPool (closeBufferPool pool).file.fp memory = reopen pool memory from rfl, againStores.length,
      length]
    omega
  · have heapAgain := heap_reopened heap longer stores.sizeAligned pages
    rw [← length] at heapAgain
    exact ⟨again, ⟨_, _, heapAgain, rfl, rfl, pinned_within_mono within (by simp)⟩, againStores⟩

theorem heap_blocks_reopened {heap : Heap} {store again : PageStore Block} {entries : Multiset (Nat × Int)}
    (holds : HoldsHeap heap (store, entries)) (length : again.length = store.size) (size : again.size = store.size)
    (pages : ∀ addr, 0 ≤ addr → addr % pageSize = 0 → addr < store.length → again.page addr = store.page addr) :
    HoldsHeap heap (again, entries) := by
  have sameSize : store.size = store.length := holds.size
  have same : ∀ addr ∈ pagesBelow store.length, again.page addr = store.page addr := by
    intro addr member
    obtain ⟨nonneg, aligned, inside⟩ := in_file_bounds holds member
    exact pages addr nonneg aligned inside
  rw [sameSize] at length size
  refine ⟨?_, ?_, ?_, ?_, ?_, ?_⟩
  · rw [length]
    exact holds.nonneg
  · rw [length]
    exact holds.aligned
  · rw [length, size]
  · simp only [length]
    intro addr member
    rw [same addr member]
    exact holds.blocks addr member
  · simp only [length]
    rw [show entries = _ from holds.entries]
    apply Multiset.map_congr rfl
    intro addr member
    rw [same addr member]
  · intro rid
    rw [holds.live rid]
    simp only [length]
    split_ifs with inFile
    · rw [same _ inFile]
    · rfl

theorem table_reopened {heap : Heap} {table : Table} (holds : TableHolds heap table) (memory : Table) :
    ∃ again, tableInit (tableClose table).1.file.fp (tableClose table).2.file.fp memory = some ((), again) ∧
      TableHolds heap again := by
  obtain ⟨⟨store, entries⟩, ⟨heapHolds, _⟩, stores, fsm⟩ := holds
  obtain ⟨again, againStores, within, length, size, pages⟩ := reopened_stores stores memory.1
  obtain ⟨ran, fsmAgain⟩ := fsm_reopened fsm memory.2
  refine ⟨(reopen table.1 memory.1, reopen table.2 memory.2), ?_, (again, entries),
    ⟨heap_blocks_reopened heapHolds length size pages, within⟩, againStores, fsmAgain⟩
  change ((hashTableInit (closeBufferPool table.2).file.fp fsmDirectoryBlocks) memory.2).map _ = _
  rw [ran]
  rfl

theorem holds_index_reopened {degree : Nat} {rows separators : Multiset (Entry SortKey)} {orphans : Multiset Int}
    {store again : IndexStore} (index : HoldsIndex degree rows separators orphans store)
    (longer : store.length ≤ store.size) (aligned : store.size % pageSize = 0) (within : PinnedWithin again [])
    (length : again.length = store.size)
    (pages : ∀ addr, 0 ≤ addr → addr % pageSize = 0 → addr < store.length → again.page addr = store.page addr) :
    0 < store.length ∧ HoldsIndex degree rows separators (orphans + stalePages store.length store.size) again := by
  obtain ⟨height, tree, free, shape, _, sameRows, sameSeparators⟩ := index
  refine ⟨(BTreePages.control_in_file shape.ledger).2.2, height, tree, free, ?_, pins_of_within within, sameRows,
    sameSeparators⟩
  exact index_reopened shape longer aligned length pages

theorem tables_reopened {shelf : Multiset Holding} {tables : Tables} (shelved : Shelved shelf tables)
    (memory : Tables) :
    ∃ recTable strTable,
      tableInit (tableClose tables.1).1.file.fp (tableClose tables.1).2.file.fp memory.1 = some ((), recTable) ∧
      tableInit (tableClose tables.2).1.file.fp (tableClose tables.2).2.file.fp memory.2 = some ((), strTable) ∧
      Shelved shelf (recTable, strTable) := by
  obtain ⟨⟨recHeap, recGraph, recHolds⟩, strings, strGraph, strHeap, owns, strHolds⟩ := shelved
  obtain ⟨recTable, ranRec, recAgain⟩ := table_reopened recHolds memory.1
  obtain ⟨strTable, ranStr, strAgain⟩ := table_reopened strHolds memory.2
  exact ⟨recTable, strTable, ranRec, ranStr, ⟨recHeap, recGraph, recAgain⟩, strings, strGraph, strHeap, owns, strAgain⟩

/-- A restart adds orphans to the tree and changes nothing that a call can see. -/
theorem database_reopened {orphans : Multiset Int} {bindings : Bindings} {database : Database}
    (holds : DatabaseHolds orphans bindings database) (memory : Database) :
    ∃ again stale, myjqlInit (filesOf (myjqlClose database)) memory = some ((), again) ∧
      DatabaseHolds (orphans + stale) bindings again := by
  obtain ⟨shelf, binds, separators, store, stores, index, copies, same, isCopy, shelved⟩ := holds
  obtain ⟨again, againStores, within, length, _, pages⟩ := reopened_stores stores memory.1
  obtain ⟨recTable, strTable, ranRec, ranStr, shelvedAgain⟩ := tables_reopened shelved memory.2
  have longer := size_covers_length stores
  obtain ⟨filled, indexAgain⟩ := holds_index_reopened index longer stores.sizeAligned within length pages
  have ranIdx : bTreeInit (closeBufferPool database.1).file.fp memory.1 = some ((), reopen database.1 memory.1) := by
    apply opened_again
    rw [show initBufferPool (closeBufferPool database.1).file.fp memory.1 = reopen database.1 memory.1 from rfl,
      againStores.length, length]
    omega
  exact ⟨(reopen database.1 memory.1, recTable, strTable), _, init_parts ranIdx ranRec ranStr, shelf, binds,
    separators, again, againStores, indexAgain, copies, same, isCopy, shelvedAgain⟩

/-- Calls from empty files, with the database closed and opened again at any points between them. -/
inductive Persisted : List StoreCall → Database → Prop
  | opened {files : Files} {memory database : Database} (empty : Files.Empty files)
      (ran : myjqlInit files memory = some ((), database)) : Persisted [] database
  | called {calls : List StoreCall} {call : StoreCall} {answer : StoreAnswer} {database after : Database}
      (before : Persisted calls database) (ran : databaseCall call database = some (answer, after)) :
      Persisted (calls ++ [call]) after
  | restarted {calls : List StoreCall} {memory database again : Database} (before : Persisted calls database)
      (ran : myjqlInit (filesOf (myjqlClose database)) memory = some ((), again)) : Persisted calls again

theorem persisted_holds {calls : List StoreCall} {database : Database} (persisted : Persisted calls database) :
    ∃ orphans, DatabaseHolds orphans (replay noBindings calls) database := by
  induction persisted with
  | opened empty ran => exact ⟨0, served_holds (.opened empty ran)⟩
  | called _ ran ih =>
      obtain ⟨orphans, holds⟩ := ih
      rw [replay_append]
      exact ⟨orphans, (database_call_holds holds ran).2⟩
  | @restarted calls memory database again _ ran ih =>
      obtain ⟨orphans, holds⟩ := ih
      obtain ⟨other, stale, same, reopened⟩ := database_reopened holds memory
      rw [ran] at same
      cases same
      exact ⟨_, reopened⟩

theorem served_persisted {calls : List StoreCall} {database : Database} (served : Served calls database) :
    Persisted calls database := by
  induction served with
  | opened empty ran => exact .opened empty ran
  | called _ ran ih => exact .called ih ran

/-- A restart always succeeds, and no `get` can tell whether there were any. -/
theorem restarts_change_no_answer :
    (∀ calls database, Persisted calls database → ∀ memory,
      ∃ again, myjqlInit (filesOf (myjqlClose database)) memory = some ((), again)) ∧
    ∀ calls plain mixed, Served calls plain → Persisted calls mixed →
      (∀ key maxSize, ∃ reply after other, myjqlGet key maxSize plain = some (reply, after) ∧
        myjqlGet key maxSize mixed = some (reply, other)) ∧
      ∀ call, ∃ answer after other, databaseCall call plain = some (answer, after) ∧
        databaseCall call mixed = some (answer, other) := by
  refine ⟨?_, ?_⟩
  · intro calls database persisted memory
    obtain ⟨orphans, holds⟩ := persisted_holds persisted
    obtain ⟨again, _, ran, _⟩ := database_reopened holds memory
    exact ⟨again, ran⟩
  · intro calls plain mixed served persisted
    have plainHolds := served_holds served
    obtain ⟨orphans, mixedHolds⟩ := persisted_holds persisted
    refine ⟨?_, ?_⟩
    · intro key maxSize
      obtain ⟨after, ran⟩ := get_replies plainHolds key maxSize
      obtain ⟨other, ranMixed⟩ := get_replies mixedHolds key maxSize
      exact ⟨_, after, other, ran, ranMixed⟩
    · intro call
      obtain ⟨_, after, _, ran, _, rfl, _⟩ := database_faithful 0 _ call plain plainHolds
      obtain ⟨_, other, _, ranMixed, _, rfl, _⟩ := database_faithful orphans _ call mixed mixedHolds
      exact ⟨_, after, other, ran, ranMixed⟩

/-- A value that was set before a restart. -/
theorem restarts_change_no_answer_first_value : ∃ plain mixed reply after other,
    myjqlGet [107] 2 plain = some (reply, after) ∧ myjqlGet [107] 2 mixed = some (reply, other) ∧
      ∃ memory, myjqlInit (filesOf (myjqlClose plain)) memory = some ((), mixed) := by
  obtain ⟨opens, same⟩ := restarts_change_no_answer
  obtain ⟨plain, served⟩ := first_value_served
  have persisted := served_persisted served
  obtain ⟨mixed, ran⟩ := opens _ plain persisted blankDatabase
  obtain ⟨reply, after, other, first, second⟩ := (same _ plain mixed served (.restarted persisted ran)).1 [107] 2
  exact ⟨plain, mixed, reply, after, other, first, second, blankDatabase, ran⟩

end MyJQL.DatabasePersistence
