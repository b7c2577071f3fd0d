import MyJQL.BTreeInvariants
import MyJQL.RecordStore
import MyJQL.Restarts

/-!
# The database refines a finite map

The tree holds one row for each record of the caller, and its separators are the copies. A call goes
through states in which the two do not agree, so the tree and the tables are followed separately until
the call is over.
-/

namespace MyJQL.DatabaseRefinement

open MyJQL.FileIo
open MyJQL.BufferPoolModel
open MyJQL.StateProgram
open MyJQL.PageStoreLogic
open MyJQL.TableModel
open MyJQL.TableStore
open MyJQL.StringModel
open MyJQL.StringStore (HoldsString textOf chunksOf)
open MyJQL.BTreeModel
open MyJQL.BTreeLayout
open MyJQL.BTreeSearch
open MyJQL.BTreeInsertion
open MyJQL.BTreeDeletion
open MyJQL.BTreeRefinement (b_tree_init_empty)
open MyJQL.DatabaseModel
open MyJQL.RecordStore
open MyJQL.FiniteGraphs
open MyJQL.KeyValueStore

set_option autoImplicit false

/-- The rows of the tree, and the records that the caller has in the tables. -/
def Keeps (orphans : Multiset Int) (held : Multiset (Entry SortKey) × Multiset Holding) (database : Database) : Prop :=
  ∃ separators store, StoresPool store database.1 ∧ HoldsIndex bTreeDegree held.1 separators orphans store ∧
    Stocked held.2 separators database.2

section Rules

variable {Value : Type} {orphans : Multiset Int} {rows : Multiset (Entry SortKey)} {shelf : Multiset Holding}
  {post : Value → Multiset (Entry SortKey) × Multiset Holding → Prop}

theorem ensures_keeps {program : Program Database Value}
    (holds : ∀ separators store, HoldsIndex bTreeDegree rows separators orphans store →
      Ensures (Stands StoresPool (Stocked shelf)) (store, separators) program fun value final =>
        ∃ left, HoldsIndex bTreeDegree left final.2 orphans final.1 ∧ post value (left, shelf)) :
    Ensures (Keeps orphans) (rows, shelf) program post := by
  rintro database ⟨separators, store, stores, index, stocked⟩
  obtain ⟨value, after, ⟨_, _⟩, ran, ⟨afterStores, afterStocked⟩, left, afterIndex, satisfied⟩ :=
    holds separators store index database ⟨stores, stocked⟩
  exact ⟨value, after, _, ran, ⟨_, _, afterStores, afterIndex, afterStocked⟩, satisfied⟩

/-- A program on the tables may change the records of the caller; the copies stay. -/
theorem ensures_tables {program : Program Tables Value}
    (holds : ∀ copies : Multiset Holding,
      Ensures Filed ((shelf + copies).map Holding.item, (shelf + copies).bind Holding.texts) program fun value after =>
        ∃ left, after = ((left + copies).map Holding.item, (left + copies).bind Holding.texts) ∧
          post value (rows, left)) :
    Ensures (Keeps orphans) (rows, shelf) (onStore program) post := by
  rintro ⟨pool, tables⟩ ⟨separators, store, stores, index, copies, same, isCopy, shelved⟩
  obtain ⟨value, after, _, ran, filed, left, rfl, satisfied⟩ := holds copies tables shelved
  refine ⟨value, (pool, after), (rows, left), ?_, ⟨separators, store, stores, index, copies, same, isCopy, ?_⟩,
    satisfied⟩
  · simp only [onStore, Part.run, secondPart, ran, Option.map_some]
  · exact filed

theorem ensures_database_search {key : Bytes} {post : RID → Multiset (Entry SortKey) × Multiset Holding → Prop}
    (known : ∀ row ∈ rows, row ∈ shelf.map Holding.entry)
    (continues : ∀ answer, ((answer, sortKey key) ∈ rows ∨
      (∀ row ∈ rows, row.2 ≠ sortKey key) ∧ answer = nothing) → post answer (rows, shelf)) :
    Ensures (Keeps orphans) (rows, shelf) (bTreeSearch bTreeDegree (ridPtrRowCmp key)) post := by
  apply ensures_keeps
  intro separators store index
  apply ensures_b_tree_search index
  · intro entry member
    apply ensures_stocked_read
    intro all entries
    have listed : entry ∈ all.map Holding.entry := by
      rw [entries]
      rcases Multiset.mem_add.mp member with row | separator
      · exact Multiset.mem_add.mpr (.inl (known entry row))
      · exact Multiset.mem_add.mpr (.inr separator)
    obtain ⟨holding, inShelf, ridEq, keyEq⟩ := known_holding listed
    rw [ridEq, keyEq]
    exact ensures_rid_ptr_row_cmp inShelf ⟨rfl, rfl, compare_chars_agrees _ _⟩
  · intro answer after sought afterIndex
    exact ⟨rows, afterIndex, continues answer sought⟩

theorem ensures_database_insert {holding : Holding} {post : RID → Multiset (Entry SortKey) × Multiset Holding → Prop}
    (recorded : holding ∈ shelf) (known : ∀ row ∈ rows, row ∈ shelf.map Holding.entry)
    (absent : ∀ row ∈ rows, row.2 ≠ sortKey holding.key) (continues : post nothing (holding.entry ::ₘ rows, shelf)) :
    Ensures (Keeps orphans) (rows, shelf) (bTreeInsert bTreeDegree recordCallbacks holding.rid) post := by
  apply ensures_keeps
  intro separators store index
  change Ensures _ _ (bTreeInsert bTreeDegree recordCallbacks holding.entry.1) _
  apply ensures_b_tree_insert (record_contract shelf) (by decide) index (Multiset.mem_map_of_mem _ recorded) known
    absent
  intro separators' after afterIndex
  exact ⟨_, afterIndex, continues⟩

theorem ensures_database_delete {holding : Holding} {post : Unit → Multiset (Entry SortKey) × Multiset Holding → Prop}
    (recorded : holding ∈ shelf) (known : ∀ row ∈ rows, row ∈ shelf.map Holding.entry)
    (present : ∃ row ∈ rows, row.2 = sortKey holding.key)
    (continues : post () (rows.filter fun row => row.2 ≠ sortKey holding.key, shelf)) :
    Ensures (Keeps orphans) (rows, shelf) (bTreeDelete bTreeDegree recordCallbacks holding.rid) post := by
  apply ensures_keeps
  intro separators store index
  change Ensures _ _ (bTreeDelete bTreeDegree recordCallbacks holding.entry.1) _
  apply ensures_b_tree_delete (record_contract shelf) (by decide) index (Multiset.mem_map_of_mem _ recorded) known
    present
  intro separators' after afterIndex
  exact ⟨_, afterIndex, continues⟩

end Rules

/-- The records of the caller are the bindings of a map. -/
def Binds (shelf : Multiset Holding) (bindings : Bindings) : Prop :=
  Graph (fun key => (bindings key).map some) (shelf.map fun holding => (holding.key, holding.value))

section Binds

variable {shelf rest : Multiset Holding} {bindings : Bindings} {holding : Holding} {key value : Bytes}

theorem binds_empty : Binds 0 noBindings := graph_empty

theorem binds_absent (binds : Binds shelf bindings) (absent : bindings key = none) :
    ∀ row ∈ shelf.map Holding.entry, row.2 ≠ sortKey key := by
  intro row member same
  obtain ⟨holding, inShelf, rfl⟩ := Multiset.mem_map.mp member
  have own : holding.key = key := sort_key_injective same
  have bound := (binds.mem _ _).mp (Multiset.mem_map_of_mem (fun holding => (holding.key, holding.value)) inShelf)
  rw [own, absent] at bound
  cases bound

theorem binds_row (binds : Binds shelf bindings) (member : holding ∈ shelf) :
    ∃ value, holding.value = some value ∧ bindings holding.key = some value := by
  have bound := (binds.mem _ _).mp (Multiset.mem_map_of_mem (fun holding => (holding.key, holding.value)) member)
  obtain ⟨value, stored, same⟩ := Option.map_eq_some_iff.mp bound
  exact ⟨value, same.symm, stored⟩

theorem binds_present (binds : Binds shelf bindings) (bound : bindings key = some value) :
    ∃ holding ∈ shelf, holding.key = key ∧ holding.value = some value := by
  have member := (binds.mem key (some value)).mpr (by rw [bound]; rfl)
  obtain ⟨holding, inShelf, same⟩ := Multiset.mem_map.mp member
  obtain ⟨rfl, written⟩ := Prod.mk.inj same
  exact ⟨holding, inShelf, rfl, written⟩

theorem binds_added (binds : Binds shelf bindings) (absent : bindings holding.key = none)
    (written : holding.value = some value) :
    Binds (holding ::ₘ shelf) (Function.update bindings holding.key (some value)) := by
  have added : FiniteGraphs.Graph _ ((holding.key, some value) ::ₘ _) := graph_insert binds (by rw [absent]; rfl)
  rw [Binds, Multiset.map_cons, written]
  convert added using 1
  funext other
  rw [Function.update_apply, Function.update_apply]
  split_ifs <;> rfl

theorem binds_removed (binds : Binds (holding ::ₘ rest) bindings) :
    Binds rest (Function.update bindings holding.key none) := by
  have erased := graph_erase binds (by rw [Multiset.map_cons]; exact Multiset.mem_cons_self _ _)
  rw [Multiset.map_cons, Multiset.erase_cons_head] at erased
  rw [Binds]
  convert erased using 1
  funext other
  rw [Function.update_apply, Function.update_apply]
  split_ifs <;> rfl

theorem binds_filter (binds : Binds (holding ::ₘ rest) bindings) :
    (((holding ::ₘ rest).map Holding.entry).filter fun row => row.2 ≠ sortKey holding.key) =
      rest.map Holding.entry := by
  rw [Multiset.map_cons, Multiset.filter_cons_of_neg _ (by simp [Holding.entry]), Multiset.filter_eq_self]
  exact binds_absent (binds_removed binds) (Function.update_self _ _ _)

end Binds

/-- Between two calls the tree has one row for each record. -/
def DatabaseHolds (orphans : Multiset Int) (bindings : Bindings) (database : Database) : Prop :=
  ∃ shelf, Binds shelf bindings ∧ Keeps orphans (shelf.map Holding.entry, shelf) database

section Operations

variable {orphans : Multiset Int} {bindings : Bindings} {shelf : Multiset Holding} {key : Bytes}

theorem ensures_database {Value : Type} {program : Program Database Value} {post : Value → Bindings → Prop}
    (holds : ∀ shelf, Binds shelf bindings →
      Ensures (Keeps orphans) (shelf.map Holding.entry, shelf) program fun value held =>
        ∃ left changed, held = (left.map Holding.entry, left) ∧ Binds left changed ∧ post value changed) :
    Ensures (DatabaseHolds orphans) bindings program post := by
  rintro database ⟨shelf, binds, keeps⟩
  obtain ⟨value, after, _, ran, kept, left, changed, rfl, leftBinds, satisfied⟩ := holds shelf binds database keeps
  exact ⟨value, after, changed, ran, ⟨left, leftBinds, kept⟩, satisfied⟩

/-- The records of the caller have addresses in the file, so that `-1` is none of them. -/
theorem keeps_nonneg {rows : Multiset (Entry SortKey)} {database : Database} {holding : Holding}
    (keeps : Keeps orphans (rows, shelf) database) (member : holding ∈ shelf) : 0 ≤ holding.rid.blockAddr := by
  obtain ⟨_, _, _, _, copies, _, _, ⟨heap, graph, tableHolds⟩, _⟩ := keeps
  have inShelf : holding ∈ shelf + copies := Multiset.mem_add.mpr (.inl member)
  have listed := Multiset.mem_map_of_mem (fun entry : RID × Record => (entry.1, encodeRecord entry.2))
    (item_mem inShelf)
  exact StringStore.live_nonneg tableHolds ((graph.mem _ _).mp listed)

theorem sought_record (binds : Binds shelf bindings) {answer : RID}
    (sought : (answer, sortKey key) ∈ shelf.map Holding.entry ∨
      (∀ row ∈ shelf.map Holding.entry, row.2 ≠ sortKey key) ∧ answer = nothing) :
    (bindings key = none ∧ answer = nothing) ∨
    ∃ holding rest value, shelf = holding ::ₘ rest ∧ holding.rid = answer ∧ holding.key = key ∧
      holding.value = some value ∧ bindings key = some value := by
  rcases sought with present | ⟨absent, isNothing⟩
  · obtain ⟨holding, member, same⟩ := Multiset.mem_map.mp present
    obtain ⟨rid, own⟩ := Prod.mk.inj same
    have sameKey : holding.key = key := sort_key_injective own
    obtain ⟨value, written, bound⟩ := binds_row binds member
    obtain ⟨rest, rfl⟩ := Multiset.exists_cons_of_mem member
    exact .inr ⟨holding, rest, value, rfl, rid, sameKey, written, sameKey ▸ bound⟩
  · refine .inl ⟨?_, isNothing⟩
    cases bound : bindings key with
    | none => rfl
    | some value =>
        obtain ⟨holding, member, sameKey, _⟩ := binds_present binds bound
        exact absurd (congrArg sortKey sameKey) (absent _ (Multiset.mem_map_of_mem _ member))

theorem myjql_get_eq (key : Bytes) (maxSize : Nat) : myjqlGet key maxSize = (do
    let rid ← bTreeSearch bTreeDegree (ridPtrRowCmp key)
    if rid.blockAddr < 0 then pure (-1, [])
    else
      onStore do
        let re ← onRec (readRecord rid)
        onStr (loadText (fun _ => maxSize) re.value)) := by
  simp only [myjqlGet, loadText, onStr, Part.run_bind]
  rfl

theorem ensures_myjql_get {maxSize : Nat} {post : Int × Bytes → Bindings → Prop}
    (missing : bindings key = none → post (-1, []) bindings)
    (found : ∀ value, bindings key = some value → post (value.length, value.take maxSize) bindings) :
    Ensures (DatabaseHolds orphans) bindings (myjqlGet key maxSize) post := by
  apply ensures_database
  intro shelf binds
  rw [myjql_get_eq]
  apply ensures_bind
  apply ensures_database_search fun _ listed => listed
  intro answer sought
  obtain ⟨absent, rfl⟩ | ⟨holding, rest, value, rfl, rfl, rfl, written, bound⟩ := sought_record binds sought
  · rw [if_pos (by decide)]
    exact ensures_pure _ ⟨shelf, bindings, rfl, binds, missing absent⟩
  · apply ensures_known fun database keeps => keeps_nonneg keeps (Multiset.mem_cons_self holding rest)
    intro nonneg
    rw [if_neg (by omega)]
    apply ensures_tables
    intro copies
    have inShelf : holding ∈ holding ::ₘ rest + copies := by simp
    apply ensures_bind
    apply ensures_rec
    apply ensures_read_record (item_mem inShelf)
    apply ensures_str
    apply ensures_load_text (value_mem inShelf written)
    exact ⟨_, rfl, _, bindings, rfl, binds, found value bound⟩

theorem shelf_added {holding : Holding} {value : Bytes} (copies : Multiset Holding)
    (written : holding.value = some value) :
    ((holding ::ₘ shelf + copies).map Holding.item, (holding ::ₘ shelf + copies).bind Holding.texts) =
      ((holding.rid, holding.record) ::ₘ (shelf + copies).map Holding.item,
        (holding.record.value, value) ::ₘ (holding.record.key, holding.key) ::ₘ
          (shelf + copies).bind Holding.texts) := by
  rw [Multiset.cons_add, Multiset.map_cons, Multiset.cons_bind, texts_of_row written, Multiset.cons_add,
    Multiset.singleton_add, Multiset.cons_swap]
  rfl

theorem ensures_insert_record {holding : Holding} {value : Bytes} {post : Unit → Bindings → Prop}
    (binds : Binds shelf bindings) (absent : bindings holding.key = none) (written : holding.value = some value)
    (continues : post () (Function.update bindings holding.key (some value))) :
    Ensures (Keeps orphans) (shelf.map Holding.entry, holding ::ₘ shelf)
      (do
        let _ ← bTreeInsert bTreeDegree recordCallbacks holding.rid
        pure ())
      fun value held => ∃ left changed, held = (left.map Holding.entry, left) ∧ Binds left changed ∧
        post value changed := by
  apply ensures_bind
  apply ensures_database_insert (Multiset.mem_cons_self _ _)
  · intro row listed
    rw [Multiset.map_cons]
    exact Multiset.mem_cons_of_mem listed
  · exact binds_absent binds absent
  · apply ensures_pure
    refine ⟨holding ::ₘ shelf, _, ?_, binds_added binds absent written, continues⟩
    rw [Multiset.map_cons]

theorem old_row_listed (old : Holding) (rest : Multiset Holding) :
    ∃ row ∈ (old ::ₘ rest).map Holding.entry, row.2 = sortKey old.key :=
  ⟨old.entry, Multiset.mem_map_of_mem _ (Multiset.mem_cons_self _ _), rfl⟩

theorem ensures_myjql_set {value : Bytes} {post : Unit → Bindings → Prop}
    (continues : post () (Function.update bindings key (some value))) :
    Ensures (DatabaseHolds orphans) bindings (myjqlSet key value) post := by
  apply ensures_database
  intro shelf binds
  rw [myjqlSet]
  apply ensures_bind
  apply ensures_database_search fun _ listed => listed
  intro answer sought
  obtain ⟨absent, rfl⟩ | ⟨old, rest, oldValue, rfl, rfl, rfl, written, bound⟩ := sought_record binds sought
  · rw [if_pos (by decide)]
    apply ensures_bind
    apply ensures_tables
    intro copies
    apply ensures_bind
    apply ensures_str
    apply ensures_write_text
    intro ridKey _
    apply ensures_bind
    apply ensures_str
    apply ensures_write_text
    intro ridValue _
    apply ensures_rec
    apply ensures_write_record
    intro rid _
    refine ⟨⟨rid, ⟨ridKey, ridValue⟩, key, some value⟩ ::ₘ shelf, ?_, ?_⟩
    · rw [shelf_added copies rfl]
    · exact ensures_insert_record binds absent rfl continues
  · apply ensures_known fun database keeps => keeps_nonneg keeps (Multiset.mem_cons_self old rest)
    intro nonneg
    rw [if_neg (by omega)]
    apply ensures_bind
    apply ensures_database_delete (Multiset.mem_cons_self _ _) (fun _ listed => listed) (old_row_listed old rest)
    rw [binds_filter binds]
    apply ensures_bind
    apply ensures_tables
    intro copies
    rw [shelf_added copies written]
    apply ensures_bind
    apply ensures_rec
    apply ensures_read_record (Multiset.mem_cons_self _ _)
    apply ensures_bind
    apply ensures_str
    apply ensures_delete_text (Multiset.mem_cons_self _ _)
    rw [Multiset.erase_cons_head]
    apply ensures_bind
    apply ensures_str
    apply ensures_write_text
    intro ridValue _
    apply ensures_bind
    apply ensures_rec
    apply ensures_delete_record (Multiset.mem_cons_self _ _)
    rw [Multiset.erase_cons_head]
    apply ensures_rec
    apply ensures_write_record
    intro rid _
    refine ⟨⟨rid, { old.record with value := ridValue }, old.key, some value⟩ ::ₘ rest, ?_, ?_⟩
    · rw [shelf_added copies rfl]
    · have removed := binds_removed binds
      refine ensures_insert_record removed ?_ rfl ?_
      · exact Function.update_self _ _ _
      · rw [Function.update_idem]
        exact continues

theorem ensures_myjql_del {post : Unit → Bindings → Prop} (continues : post () (Function.update bindings key none)) :
    Ensures (DatabaseHolds orphans) bindings (myjqlDel key) post := by
  apply ensures_database
  intro shelf binds
  rw [myjqlDel]
  apply ensures_bind
  apply ensures_database_search fun _ listed => listed
  intro answer sought
  obtain ⟨absent, rfl⟩ | ⟨old, rest, value, rfl, rfl, rfl, written, bound⟩ := sought_record binds sought
  · rw [if_pos (by decide)]
    rw [← absent, Function.update_eq_self] at continues
    exact ensures_pure _ ⟨shelf, bindings, rfl, binds, continues⟩
  · apply ensures_known fun database keeps => keeps_nonneg keeps (Multiset.mem_cons_self old rest)
    intro nonneg
    rw [if_neg (by omega)]
    apply ensures_bind
    apply ensures_database_delete (Multiset.mem_cons_self _ _) (fun _ listed => listed) (old_row_listed old rest)
    rw [binds_filter binds]
    apply ensures_tables
    intro copies
    rw [shelf_added copies written]
    apply ensures_bind
    apply ensures_rec
    apply ensures_read_record (Multiset.mem_cons_self _ _)
    apply ensures_bind
    apply ensures_str
    apply ensures_delete_text (Multiset.mem_cons_of_mem (Multiset.mem_cons_self _ _))
    rw [Multiset.cons_swap, Multiset.erase_cons_head]
    apply ensures_bind
    apply ensures_str
    apply ensures_delete_text (Multiset.mem_cons_self _ _)
    rw [Multiset.erase_cons_head]
    apply ensures_rec
    apply ensures_delete_record (Multiset.mem_cons_self _ _)
    rw [Multiset.erase_cons_head]
    exact ⟨rest, rfl, rest, _, rfl, binds_removed binds, continues⟩

theorem database_faithful (orphans : Multiset Int) : Faithful (DatabaseHolds orphans) databaseCall := by
  intro bindings call
  cases call with
  | get key maxSize =>
      apply ensures_bind
      apply ensures_myjql_get
      · intro absent
        apply ensures_pure
        simp [StoreCall.answer, StoreCall.apply, absent]
      · intro value bound
        have notMissing : (value.length : Int) ≠ -1 := by omega
        apply ensures_pure
        simp [StoreCall.answer, StoreCall.apply, bound, notMissing]
  | set key value =>
      apply ensures_bind
      apply ensures_myjql_set
      exact ensures_pure _ ⟨rfl, rfl⟩
  | del key =>
      apply ensures_bind
      apply ensures_myjql_del
      exact ensures_pure _ ⟨rfl, rfl⟩

end Operations

/-- Files that were just created. -/
structure Files.Empty (files : Files) : Prop where
  idx : files.idx.size = 0
  recData : files.recData.size = 0
  recFsm : files.recFsm.size = 0
  strData : files.strData.size = 0
  strFsm : files.strFsm.size = 0

theorem init_parts {files : Files} {pool index : IndexPool} {records texts recTable strTable : Table}
    (ranIdx : bTreeInit files.idx pool = some ((), index))
    (ranRec : tableInit files.recData files.recFsm records = some ((), recTable))
    (ranStr : tableInit files.strData files.strFsm texts = some ((), strTable)) :
    myjqlInit files (pool, records, texts) = some ((), (index, recTable, strTable)) := by
  change ((onIndex (bTreeInit files.idx)) (pool, records, texts)).bind _ = _
  simp only [onIndex, Part.run, firstPart, ranIdx, Option.map_some, Option.bind_some]
  change ((onStore (onRec (tableInit files.recData files.recFsm))) (index, records, texts)).bind _ = _
  simp only [onStore, onRec, Part.run, firstPart, secondPart, ranRec, Option.map_some, Option.bind_some]
  simp only [onStr, Part.run, secondPart, ranStr, Option.map_some]

theorem database_opened {files : Files} (empty : Files.Empty files) (memory : Database) :
    ∃ database, myjqlInit files memory = some ((), database) ∧ DatabaseHolds 0 noBindings database := by
  obtain ⟨pool, records, texts⟩ := memory
  obtain ⟨store, index, opened, stores, holds, _⟩ :=
    @b_tree_init_empty SortKey _ bTreeDegree files.idx empty.idx pool
  obtain ⟨recTable, ranRec, recHolds⟩ :=
    TableRefinement.table_opened files.recData files.recFsm empty.recData empty.recFsm records
  obtain ⟨strTable, ranStr, _⟩ :=
    TableRefinement.table_opened files.strData files.strFsm empty.strData empty.strFsm texts
  have strHolds := StringStore.string_reachable_holds (.opened empty.strData empty.strFsm ranStr)
  refine ⟨(index, recTable, strTable), init_parts opened ranRec ranStr, 0, binds_empty, 0, store, stores, holds, 0,
    rfl, by simp, ?_, ?_⟩
  · exact ⟨_, graph_empty, recHolds⟩
  · exact ⟨_, graph_empty, strHolds⟩

/-- The databases that calls reach from empty files. -/
inductive Served : List StoreCall → Database → Prop
  | opened {files : Files} {memory database : Database} (empty : Files.Empty files)
      (ran : myjqlInit files memory = some ((), database)) : Served [] database
  | called {calls : List StoreCall} {call : StoreCall} {answer : StoreAnswer} {database after : Database}
      (before : Served calls database) (ran : databaseCall call database = some (answer, after)) :
      Served (calls ++ [call]) after

theorem database_call_holds {orphans : Multiset Int} {bindings : Bindings} {call : StoreCall} {answer : StoreAnswer}
    {database after : Database} (holds : DatabaseHolds orphans bindings database)
    (ran : databaseCall call database = some (answer, after)) :
    answer = call.answer bindings ∧ DatabaseHolds orphans (call.apply bindings) after := by
  obtain ⟨_, kept, answered, rfl⟩ :=
    allows_of_ensures (database_faithful orphans bindings call) database holds _ _ ran
  exact ⟨answered, kept⟩

theorem served_holds {calls : List StoreCall} {database : Database} (served : Served calls database) :
    DatabaseHolds 0 (replay noBindings calls) database := by
  induction served with
  | opened empty ran =>
      obtain ⟨database, same, holds⟩ := database_opened empty _
      rw [ran] at same
      cases same
      exact holds
  | called _ ran ih =>
      rw [replay_append]
      exact (database_call_holds ih ran).2

/-- What `myjql_get` returns and writes for a value. -/
structure Reads (bound : Option Bytes) (maxSize : Nat) (ans : Int) (written : Bytes) : Prop where
  missing : ans = -1 ↔ bound = none
  found : ∀ value, bound = some value →
    ans = value.length ∧ written = value.take (min value.length maxSize)

/-- What `myjql_get` does with what is bound to the key. -/
def getReply (bound : Option Bytes) (maxSize : Nat) : Int × Bytes :=
  match bound with
  | none => (-1, [])
  | some value => (value.length, value.take maxSize)

theorem get_replies {orphans : Multiset Int} {bindings : Bindings} {database : Database}
    (holds : DatabaseHolds orphans bindings database) (key : Bytes) (maxSize : Nat) :
    ∃ after, myjqlGet key maxSize database = some (getReply (bindings key) maxSize, after) := by
  have gets : Ensures (DatabaseHolds orphans) bindings (myjqlGet key maxSize) fun reply _ =>
      reply = getReply (bindings key) maxSize := by
    apply ensures_myjql_get
    · intro absent
      rw [absent]
      rfl
    · intro value bound
      rw [bound]
      rfl
  obtain ⟨_, after, _, ran, _, rfl⟩ := gets database holds
  exact ⟨after, ran⟩

theorem get_reply_reads (bound : Option Bytes) (maxSize : Nat) :
    Reads bound maxSize (getReply bound maxSize).1 (getReply bound maxSize).2 := by
  cases bound with
  | none => exact ⟨by simp [getReply], by simp⟩
  | some value =>
      refine ⟨?_, ?_⟩
      · constructor
        · intro impossible
          have : (value.length : Int) = -1 := impossible
          omega
        · intro impossible
          cases impossible
      · rintro _ ⟨rfl⟩
        refine ⟨rfl, ?_⟩
        rw [Nat.min_comm]
        exact List.take_eq_take_min

/-- After any calls every call returns, and a `get` answers from the map that the calls make. -/
theorem database_refines_map :
    (∀ files memory, Files.Empty files → ∃ database, myjqlInit files memory = some ((), database)) ∧
    ∀ calls database, Served calls database →
      (∀ key maxSize, ∃ ans written after, myjqlGet key maxSize database = some ((ans, written), after) ∧
        Reads (replay noBindings calls key) maxSize ans written) ∧
      (∀ key value, ∃ after, myjqlSet key value database = some ((), after)) ∧
      ∀ key, ∃ after, myjqlDel key database = some ((), after) := by
  refine ⟨?_, ?_⟩
  · intro files memory empty
    obtain ⟨database, ran, _⟩ := database_opened empty memory
    exact ⟨database, ran⟩
  · intro calls database served
    have holds := served_holds served
    refine ⟨?_, ?_, ?_⟩
    · intro key maxSize
      obtain ⟨after, ran⟩ := get_replies holds key maxSize
      exact ⟨_, _, after, ran, get_reply_reads _ _⟩
    · intro key value
      have sets : Ensures (DatabaseHolds 0) (replay noBindings calls) (myjqlSet key value) fun _ _ => True :=
        ensures_myjql_set trivial
      obtain ⟨_, after, _, ran, _⟩ := sets database holds
      exact ⟨after, ran⟩
    · intro key
      have dels : Ensures (DatabaseHolds 0) (replay noBindings calls) (myjqlDel key) fun _ _ => True :=
        ensures_myjql_del trivial
      obtain ⟨_, after, _, ran, _⟩ := dels database holds
      exact ⟨after, ran⟩

def emptyFiles : Files :=
  ⟨BTreeRefinement.emptyIndexDisk, TableRefinement.emptyDataDisk, TableRefinement.emptySpaceDisk,
    TableRefinement.emptyDataDisk, TableRefinement.emptySpaceDisk⟩

def blankDatabase : Database :=
  (BTreeRefinement.blankIndexPool, TableRefinement.blankTable, TableRefinement.blankTable)

theorem empty_files_empty : Files.Empty emptyFiles := ⟨rfl, rfl, rfl, rfl, rfl⟩

theorem first_value_served : ∃ database, Served [.set [107] [1, 2, 3]] database := by
  obtain ⟨database, ran, holds⟩ := database_opened empty_files_empty blankDatabase
  obtain ⟨_, after, _, set, _⟩ := database_faithful 0 noBindings (.set [107] [1, 2, 3]) database holds
  exact ⟨after, .called (.opened empty_files_empty ran) set⟩

theorem database_refines_map_first_value : ∃ database after written,
    myjqlGet [107] 2 database = some ((3, [1, 2]), after) ∧
      ∃ last, myjqlGet [] 2 database = some ((-1, written), last) := by
  obtain ⟨database, served⟩ := first_value_served
  obtain ⟨gets, _⟩ := database_refines_map.2 _ database served
  obtain ⟨ans, written, after, ran, reads⟩ := gets [107] 2
  obtain ⟨other, nothing, last, ranOther, missing⟩ := gets [] 2
  obtain ⟨rfl, rfl⟩ := reads.found [1, 2, 3] (by decide)
  obtain rfl := missing.missing.mpr (by decide)
  exact ⟨database, after, nothing, ran, last, ranOther⟩

end MyJQL.DatabaseRefinement
