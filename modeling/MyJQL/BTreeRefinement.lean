import MyJQL.BTreeInsertion
import MyJQL.BTreeDeletion

/-!
# The tree refines a finite map

Every state that the operations reach from an empty file, with any callbacks that keep their
contract and any changes that the caller makes to its records in between, holds the rows of a finite
map. Every allowed call returns and answers as the map does.
-/

namespace MyJQL.BTreeRefinement

open MyJQL.FileIo
open MyJQL.BufferPoolModel
open MyJQL.StateProgram
open MyJQL.PageStoreLogic
open MyJQL.PageAccounting
open MyJQL.TableModel
open MyJQL.SearchTrees
open MyJQL.BTreeModel
open MyJQL.BTreeLayout
open MyJQL.BTreePages
open MyJQL.BTreeSearch
open MyJQL.BTreeInsertion
open MyJQL.BTreeDeletion

set_option autoImplicit false

variable {Key Store : Type}

def emptyRoot : BTree Key 0 := ⟨pageSize, []⟩

theorem empty_ledger {page : Int → BNode} (root : rootNode (page 0) = pageSize)
    (head : freeNodeHead (page 0) = -1) (tail : freeNodeTail (page 0) = -1) (num : freeNodeNum (page 0) = 0) :
    Ledger page (pageSize + pageSize) pageSize [] (Tree.addrs 0 (emptyRoot : BTree Key 0)) 0 := by
  refine ⟨by decide, by decide, ?_, root, head, tail, num⟩
  have below : pagesBelow 0 = 0 := by
    rw [pagesBelow]
    rfl
  have first := pages_below_grow 0 (by decide) (by decide)
  have second := pages_below_grow pageSize (by decide) (by decide)
  rw [zero_add, below] at first
  rw [second, first, Multiset.cons_swap]
  rfl

theorem empty_index [LinearOrder Key] (degree : Nat) {store : IndexStore} (length : store.length = pageSize + pageSize)
    (root : rootNode (store.page 0) = pageSize) (head : freeNodeHead (store.page 0) = -1)
    (tail : freeNodeTail (store.page 0) = -1) (num : freeNodeNum (store.page 0) = 0)
    (n : (store.page pageSize).n = 0) (parent : (store.page pageSize).parent = -1)
    (leaf : (store.page pageSize).leaf = true) (within : PinnedWithin store []) :
    @HoldsIndex Key _ degree 0 0 0 store := by
  have holds : HoldsTree store.page 0 (-1) (emptyRoot : BTree Key 0) := by
    refine ⟨n, leaf, parent, ?_, ?_⟩
    · intro j inside
      cases inside
    · intro j inside
      cases inside
  refine ⟨0, emptyRoot, [], ⟨?_, holds, ?_, List.Pairwise.nil⟩, pins_of_within within, rfl, rfl⟩
  · rw [length]
    exact empty_ledger root head tail num
  · exact ⟨Nat.zero_le _, Nat.zero_le _⟩

theorem b_tree_init_fresh [LinearOrder Key] (degree : Nat) (disk : Disk BNode) (empty : disk.size = 0)
    (memory : IndexPool) :
    ∃ store pool, bTreeInit disk memory = some ((), pool) ∧ StoresPool store pool ∧
      @HoldsIndex Key _ degree 0 0 0 store ∧ store.size = store.length ∧ store.length = pageSize + pageSize := by
  have built : Ensures StoresPool (PageStore.opened disk) (do
      let length ← fileLength
      if length = 0 then
        let ctr ← fetch 0
        let node ← fetch pageSize
        amend ctr fun page =>
          setFreeNodeNum 0 (setFreeNodeTail (-1) (setFreeNodeHead (-1) (setRootNode pageSize page)))
        amend node fun page => { page with n := 0, next := -1, parent := -1, leaf := true }
        unpin 0
        unpin pageSize
      else pure ()) fun _ after => @HoldsIndex Key _ degree 0 0 0 after ∧ after.size = after.length ∧
        after.length = pageSize + pageSize := by
    have start := opened_pinned_within disk []
    have apart : (0 : Int) ≠ pageSize := by decide
    have nonneg : (0 : Int) ≤ pageSize := by decide
    refine ensures_bind (ensures_file_length ?_)
    rw [if_pos (by exact empty)]
    refine ensures_bind (ensures_append (by exact empty.symm) start (by decide) ?_)
    intro ctr control
    have within : PinnedWithin (((PageStore.opened disk).appended control).pinned 0 ctr) [0] :=
      pinned_within_pinned (show PinnedWithin ((PageStore.opened disk).appended control) [] from start)
    refine ensures_bind (ensures_append (by simp [PageStore.opened, empty]) within (by decide) ?_)
    intro node fresh
    refine ensures_bind (ensures_amend (by simp [apart]) ?_)
    refine ensures_bind (ensures_amend (by simp) ?_)
    refine ensures_bind (ensures_unpin ctr (by simp [apart]) ?_)
    refine ensures_unpin node (by simp [apart.symm]) ?_
    refine ⟨empty_index degree ?_ ?_ ?_ ?_ ?_ ?_ ?_ ?_ ?_, ?_, ?_⟩
    · simp [PageStore.opened, empty]
    · simp [apart, nonneg]
    · simp [apart]
    · simp [apart]
    · simp [apart]
    · simp
    · simp
    · simp
    · have grown : PinnedWithin ((((PageStore.opened disk).appended control).pinned 0 ctr).appended fresh) [0] :=
        within
      have both : PinnedWithin (((((PageStore.opened disk).appended control).pinned 0 ctr).appended fresh).pinned
          pageSize node) [pageSize, 0] := pinned_within_pinned grown
      intro addr frame pin
      simp only [PageStore.unpinned_pin, PageStore.written_pin] at pin
      split_ifs at pin with isNode isControl
      have known := both addr frame pin
      simp [isNode, isControl] at known
    · simp [PageStore.opened, empty, pageSize]
    · simp [PageStore.opened, empty]
  obtain ⟨_, pool, store, ran, stores, index, size, length⟩ :=
    built _ (opened_stores disk memory (by omega) (by rw [empty]; rfl))
  exact ⟨store, pool, ran, stores, index, size, length⟩

theorem b_tree_init_empty [LinearOrder Key] (degree : Nat) (disk : Disk BNode) (empty : disk.size = 0)
    (memory : IndexPool) :
    ∃ store pool, bTreeInit disk memory = some ((), pool) ∧ StoresPool store pool ∧
      @HoldsIndex Key _ degree 0 0 0 store ∧ store.size = store.length := by
  obtain ⟨store, pool, ran, stores, index, size, _⟩ := @b_tree_init_fresh Key _ degree disk empty memory
  exact ⟨store, pool, ran, stores, index, size⟩

variable [LinearOrder Key]

/-- How the records of the caller and the separators of the tree stand in the store of the callbacks. -/
abbrev Standing (Key Store : Type) := Multiset (Entry Key) → Multiset (Entry Key) → Store → Prop

def ComparesKey (holds : Standing Key Store) (records : Multiset (Entry Key))
    (compare : RID → Program Store Int) (key : Key) : Prop :=
  ∀ {separators : Multiset (Entry Key)} {entry : Entry Key}, entry ∈ records + separators →
    Ensures (holds records) separators (compare entry.1) fun order after =>
      after = separators ∧ Agrees order key entry.2

/-- The reference: the record of a key. -/
abbrev Bindings (Key : Type) := Key → Option RID

/-- The runs of the operations from an empty file, with the references and the pools that there were before.
Each state has its reference and the records of the caller. In between the caller may change its store as
long as it touches no separator and keeps the records that the tree refers to. -/
inductive History (degree : Nat) (callbacks : Callbacks Store) (holds : Standing Key Store) :
    List (Bindings Key × IndexPool) → Bindings Key → Multiset (Entry Key) → Index Store → Prop
  | opened {disk : Disk BNode} {memory pool : IndexPool} {records : Multiset (Entry Key)} {store : Store}
      (empty : disk.size = 0) (ran : bTreeInit disk memory = some ((), pool)) (ready : holds records 0 store) :
      History degree callbacks holds [] (fun _ => none) records (pool, store)
  | inserted {earlier : List (Bindings Key × IndexPool)} {bindings : Bindings Key} {records : Multiset (Entry Key)}
      {index after : Index Store} {rid answer : RID} {key : Key}
      (before : History degree callbacks holds earlier bindings records index)
      (recorded : (rid, key) ∈ records) (absent : bindings key = none)
      (ran : bTreeInsert degree callbacks rid index = some (answer, after)) :
      History degree callbacks holds ((bindings, index.1) :: earlier) (Function.update bindings key (some rid))
        records after
  | deleted {earlier : List (Bindings Key × IndexPool)} {bindings : Bindings Key} {records : Multiset (Entry Key)}
      {index after : Index Store} {rid : RID} {key : Key}
      (before : History degree callbacks holds earlier bindings records index)
      (recorded : (rid, key) ∈ records) (present : bindings key ≠ none)
      (ran : bTreeDelete degree callbacks rid index = some ((), after)) :
      History degree callbacks holds ((bindings, index.1) :: earlier) (Function.update bindings key none) records after
  | searched {earlier : List (Bindings Key × IndexPool)} {bindings : Bindings Key} {records : Multiset (Entry Key)}
      {index after : Index Store} {answer : RID} {key : Key} {compare : RID → Program Store Int}
      (before : History degree callbacks holds earlier bindings records index)
      (compares : ComparesKey holds records compare key)
      (ran : bTreeSearch degree compare index = some (answer, after)) :
      History degree callbacks holds ((bindings, index.1) :: earlier) bindings records after
  | moved {earlier : List (Bindings Key × IndexPool)} {bindings : Bindings Key}
      {records others : Multiset (Entry Key)} {pool : IndexPool} {store changed : Store}
      (before : History degree callbacks holds earlier bindings records (pool, store))
      (moves : ∀ separators, holds records separators store → holds others separators changed)
      (kept : ∀ key rid, bindings key = some rid → (rid, key) ∈ others) :
      History degree callbacks holds earlier bindings others (pool, changed)

/-- The states of the runs. -/
def Reached (degree : Nat) (callbacks : Callbacks Store) (holds : Standing Key Store) (bindings : Bindings Key)
    (records : Multiset (Entry Key)) (index : Index Store) : Prop :=
  ∃ earlier, History degree callbacks holds earlier bindings records index

namespace Reached

variable {degree : Nat} {callbacks : Callbacks Store} {holds : Standing Key Store} {bindings : Bindings Key}
  {records others : Multiset (Entry Key)} {index after : Index Store} {rid answer : RID} {key : Key}

theorem opened {disk : Disk BNode} {memory pool : IndexPool} {store : Store} (empty : disk.size = 0)
    (ran : bTreeInit disk memory = some ((), pool)) (ready : holds records 0 store) :
    Reached degree callbacks holds (fun _ => none) records (pool, store) := ⟨_, .opened empty ran ready⟩

theorem inserted (before : Reached degree callbacks holds bindings records index) (recorded : (rid, key) ∈ records)
    (absent : bindings key = none) (ran : bTreeInsert degree callbacks rid index = some (answer, after)) :
    Reached degree callbacks holds (Function.update bindings key (some rid)) records after :=
  before.imp' _ fun _ history => .inserted history recorded absent ran

theorem deleted (before : Reached degree callbacks holds bindings records index) (recorded : (rid, key) ∈ records)
    (present : bindings key ≠ none) (ran : bTreeDelete degree callbacks rid index = some ((), after)) :
    Reached degree callbacks holds (Function.update bindings key none) records after :=
  before.imp' _ fun _ history => .deleted history recorded present ran

theorem searched {compare : RID → Program Store Int} (before : Reached degree callbacks holds bindings records index)
    (compares : ComparesKey holds records compare key)
    (ran : bTreeSearch degree compare index = some (answer, after)) :
    Reached degree callbacks holds bindings records after :=
  before.imp' _ fun _ history => .searched history compares ran

theorem moved {pool : IndexPool} {store changed : Store}
    (before : Reached degree callbacks holds bindings records (pool, store))
    (moves : ∀ separators, holds records separators store → holds others separators changed)
    (kept : ∀ key rid, bindings key = some rid → (rid, key) ∈ others) :
    Reached degree callbacks holds bindings others (pool, changed) :=
  before.imp fun _ history => .moved history moves kept

end Reached

/-- Rows that are the graph of a map, among the records of the caller. -/
structure IsTable (rows records : Multiset (Entry Key)) (bindings : Bindings Key) : Prop where
  mem : ∀ rid key, (rid, key) ∈ rows ↔ bindings key = some rid
  recorded : ∀ row ∈ rows, row ∈ records

/-- The invariant of a run. -/
def Invariant (degree : Nat) (holds : Standing Key Store) (bindings : Bindings Key)
    (records : Multiset (Entry Key)) (index : Index Store) : Prop :=
  ∃ rows separators store, StoresPool store index.1 ∧ holds records separators index.2 ∧
    HoldsIndex degree rows separators 0 store ∧ IsTable rows records bindings

section Tables

variable {rows records : Multiset (Entry Key)} {bindings : Bindings Key} {rid : RID} {key : Key}

omit [LinearOrder Key] in
theorem table_absent (table : IsTable rows records bindings) (absent : bindings key = none) :
    ∀ other ∈ rows, other.2 ≠ key := by
  rintro ⟨other, _⟩ member rfl
  rw [(table.mem other _).mp member] at absent
  cases absent

omit [LinearOrder Key] in
theorem table_present (table : IsTable rows records bindings) (present : bindings key ≠ none) :
    ∃ row ∈ rows, row.2 = key := by
  obtain ⟨other, bound⟩ := Option.ne_none_iff_exists'.mp present
  exact ⟨(other, key), (table.mem other key).mpr bound, rfl⟩

theorem table_inserted (table : IsTable rows records bindings) (recorded : (rid, key) ∈ records)
    (absent : bindings key = none) :
    IsTable ((rid, key) ::ₘ rows) records (Function.update bindings key (some rid)) := by
  refine ⟨?_, ?_⟩
  · intro other otherKey
    rw [Multiset.mem_cons, table.mem, Prod.mk.injEq, Function.update_apply]
    split_ifs with same
    · rw [same, absent]
      simp [eq_comm]
    · simp [same]
  · intro row member
    rcases Multiset.mem_cons.mp member with rfl | old
    · exact recorded
    · exact table.recorded row old

theorem table_deleted (table : IsTable rows records bindings) :
    IsTable (rows.filter fun row => row.2 ≠ key) records (Function.update bindings key none) := by
  refine ⟨?_, ?_⟩
  · intro other otherKey
    rw [Multiset.mem_filter, table.mem, Function.update_apply]
    split_ifs with same
    · simp [same]
    · simp [same]
  · intro row member
    exact table.recorded row (Multiset.mem_filter.mp member).1

end Tables

section Steps

variable {degree : Nat} {callbacks : Callbacks Store} {holds : Standing Key Store} {bindings : Bindings Key}
  {records : Multiset (Entry Key)} {index : Index Store} {rid : RID} {key : Key}

theorem insert_step (contract : Contract (holds records) records callbacks) (positive : 0 < degree)
    (invariant : Invariant degree holds bindings records index) (recorded : (rid, key) ∈ records)
    (absent : bindings key = none) :
    ∃ after, bTreeInsert degree callbacks rid index = some (nothing, after) ∧
      Invariant degree holds (Function.update bindings key (some rid)) records after := by
  obtain ⟨rows, separators, store, stores, standing, shape, table⟩ := invariant
  have inserted : Ensures (Stands StoresPool (holds records)) (store, separators) (bTreeInsert degree callbacks rid)
      fun answer final => answer = nothing ∧ HoldsIndex degree ((rid, key) ::ₘ rows) final.2 0 final.1 := by
    apply ensures_b_tree_insert contract positive shape recorded table.recorded (table_absent table absent)
    intro separators' after shapeAfter
    exact ⟨rfl, shapeAfter⟩
  obtain ⟨_, after, final, ran, related, rfl, shapeAfter⟩ := inserted index ⟨stores, standing⟩
  exact ⟨after, ran, _, _, _, related.1, related.2, shapeAfter, table_inserted table recorded absent⟩

theorem delete_step (contract : Contract (holds records) records callbacks) (enough : 2 ≤ degree)
    (invariant : Invariant degree holds bindings records index) (recorded : (rid, key) ∈ records)
    (present : bindings key ≠ none) :
    ∃ after, bTreeDelete degree callbacks rid index = some ((), after) ∧
      Invariant degree holds (Function.update bindings key none) records after := by
  obtain ⟨rows, separators, store, stores, standing, shape, table⟩ := invariant
  have deleted : Ensures (Stands StoresPool (holds records)) (store, separators) (bTreeDelete degree callbacks rid)
      fun _ final => HoldsIndex degree (rows.filter fun row => row.2 ≠ key) final.2 0 final.1 := by
    apply ensures_b_tree_delete contract enough shape recorded table.recorded (table_present table present)
    intro separators' after shapeAfter
    exact shapeAfter
  obtain ⟨_, after, final, ran, related, shapeAfter⟩ := deleted index ⟨stores, standing⟩
  exact ⟨after, ran, _, _, _, related.1, related.2, shapeAfter, table_deleted table⟩

theorem search_step {compare : RID → Program Store Int} (compares : ComparesKey holds records compare key)
    (invariant : Invariant degree holds bindings records index) :
    ∃ after, bTreeSearch degree compare index = some ((bindings key).getD nothing, after) ∧
      Invariant degree holds bindings records after := by
  obtain ⟨rows, separators, store, stores, standing, shape, table⟩ := invariant
  have searched : Ensures (Stands StoresPool (holds records)) (store, separators) (bTreeSearch degree compare)
      fun answer final => answer = (bindings key).getD nothing ∧ final.2 = separators ∧
        HoldsIndex degree rows separators 0 final.1 := by
    have comparable : ∀ entry ∈ rows + separators, Ensures (holds records) separators (compare entry.1)
        fun order after => after = separators ∧ Agrees order key entry.2 := by
      intro entry member
      apply compares
      rcases Multiset.mem_add.mp member with row | separator
      · exact Multiset.mem_add.mpr (.inl (table.recorded entry row))
      · exact Multiset.mem_add.mpr (.inr separator)
    apply ensures_b_tree_search shape comparable
    intro answer after sought shapeAfter
    refine ⟨?_, rfl, shapeAfter⟩
    rcases sought with present | ⟨absent, rfl⟩
    · rw [(table.mem answer key).mp present]
      rfl
    · cases bound : bindings key with
      | none => rfl
      | some rid => exact absurd rfl (absent (rid, key) ((table.mem rid key).mpr bound))
  obtain ⟨_, after, final, ran, related, rfl, rfl, shapeAfter⟩ := searched index ⟨stores, standing⟩
  exact ⟨after, ran, _, _, _, related.1, related.2, shapeAfter, table⟩

theorem reached_invariant (contract : ∀ records, Contract (holds records) records callbacks) (enough : 2 ≤ degree)
    (reached : Reached degree callbacks holds bindings records index) :
    Invariant degree holds bindings records index := by
  obtain ⟨_, history⟩ := reached
  induction history with
  | opened empty ran ready =>
      obtain ⟨store, pool, same, stores, shape, _⟩ := @b_tree_init_empty Key _ degree _ empty _
      rw [ran] at same
      cases same
      exact ⟨0, 0, store, stores, ready, shape, by simp, by simp⟩
  | inserted _ recorded absent ran ih =>
      obtain ⟨after, same, invariant⟩ := insert_step (contract _) (by omega) ih recorded absent
      rw [ran] at same
      cases same
      exact invariant
  | deleted _ recorded present ran ih =>
      obtain ⟨after, same, invariant⟩ := delete_step (contract _) enough ih recorded present
      rw [ran] at same
      cases same
      exact invariant
  | searched _ compares ran ih =>
      obtain ⟨after, same, invariant⟩ := search_step compares ih
      rw [ran] at same
      cases same
      exact invariant
  | moved _ moves kept ih =>
      obtain ⟨rows, separators, store, stores, standing, shape, table⟩ := ih
      refine ⟨rows, separators, store, stores, moves separators standing, shape, table.mem, ?_⟩
      rintro ⟨rid, key⟩ member
      exact kept key rid ((table.mem rid key).mp member)

end Steps

/-- In every reachable state every allowed call returns, and a search finds the record that was last
inserted for its key and not deleted since. -/
theorem b_tree_refines_map (degree : Nat) (enough : 2 ≤ degree) (callbacks : Callbacks Store)
    (holds : Standing Key Store) (contract : ∀ records, Contract (holds records) records callbacks) :
    (∀ (disk : Disk BNode) memory, disk.size = 0 → ∃ pool, bTreeInit disk memory = some ((), pool)) ∧
    ∀ bindings records index, Reached degree callbacks holds bindings records index →
      (∀ rid key, (rid, key) ∈ records → bindings key = none →
        ∃ after, bTreeInsert degree callbacks rid index = some (nothing, after)) ∧
      (∀ rid key, (rid, key) ∈ records → bindings key ≠ none →
        ∃ after, bTreeDelete degree callbacks rid index = some ((), after)) ∧
      ∀ key compare, ComparesKey holds records compare key →
        ∃ after, bTreeSearch degree compare index = some ((bindings key).getD nothing, after) := by
  refine ⟨?_, ?_⟩
  · intro disk memory empty
    obtain ⟨_, pool, ran, _⟩ := @b_tree_init_empty Key _ degree disk empty memory
    exact ⟨pool, ran⟩
  · intro bindings records index reached
    have invariant := reached_invariant contract enough reached
    refine ⟨?_, ?_, ?_⟩
    · intro rid key recorded absent
      obtain ⟨after, ran, _⟩ := insert_step (contract records) (by omega) invariant recorded absent
      exact ⟨after, ran⟩
    · intro rid key recorded present
      obtain ⟨after, ran, _⟩ := delete_step (contract records) enough invariant recorded present
      exact ⟨after, ran⟩
    · intro key compare compares
      obtain ⟨after, ran, _⟩ := search_step compares invariant
      exact ⟨after, ran⟩

def op (a b : Int) : Int := if a > b then 1 else if a < b then -1 else 0

/-- The key of a record is its block address, and a separator is told apart by its index. -/
def addressCallbacks : Callbacks Unit where
  cmp a b := pure (op a.blockAddr b.blockAddr)
  insertHandler rid := pure ⟨rid.blockAddr, -1⟩
  deleteHandler _ := pure ()

def addressCompare (key : Int) (rid : RID) : Program Unit Int := pure (op key rid.blockAddr)

def addressed : Standing Int Unit := fun records separators _ =>
  ∀ entry ∈ records + separators, entry.1.blockAddr = entry.2

theorem op_agrees (a b : Int) : Agrees (op a b) a b := by
  rw [Agrees, op]
  split_ifs with above below
  · exact ⟨iff_of_true (by decide) above, iff_of_false (by decide) (ne_of_gt above)⟩
  · exact ⟨iff_of_false (by decide) (not_lt_of_gt below), iff_of_false (by decide) (ne_of_lt below)⟩
  · exact ⟨iff_of_false (by decide) above, iff_of_true rfl (le_antisymm (not_lt.mp above) (not_lt.mp below))⟩

theorem address_compares (records : Multiset (Entry Int)) (key : Int) :
    ComparesKey addressed records (addressCompare key) key := by
  intro separators entry member state standing
  refine ⟨_, state, separators, rfl, standing, rfl, ?_⟩
  rw [standing entry member]
  exact op_agrees key entry.2

theorem address_contract (records : Multiset (Entry Int)) :
    Contract (addressed records) records addressCallbacks where
  cmp := by
    intro separators first second isFirst isSecond state standing
    refine ⟨_, state, separators, rfl, standing, rfl, ?_⟩
    rw [standing first isFirst, standing second isSecond]
    exact op_agrees first.2 second.2
  insertHandler := by
    intro separators entry member state standing
    refine ⟨_, state, _, rfl, ?_, rfl⟩
    intro other known
    rw [Multiset.add_cons, Multiset.mem_cons] at known
    rcases known with rfl | old
    · exact standing entry member
    · exact standing other old
  deleteHandler := by
    intro separators entry member state standing
    refine ⟨_, state, _, rfl, ?_, rfl⟩
    intro other known
    apply standing other
    rcases Multiset.mem_add.mp known with row | separator
    · exact Multiset.mem_add.mpr (.inl row)
    · exact Multiset.mem_add.mpr (.inr (Multiset.mem_of_mem_erase separator))

def emptyIndexDisk : Disk BNode := ⟨0, fun _ => ⟨0, 0, 0, fun _ => 0, fun _ => ⟨0, 0⟩, false⟩⟩

def blankIndexPool : IndexPool :=
  ⟨⟨emptyIndexDisk, 0⟩, fun _ => ⟨0, 0, 0, fun _ => 0, fun _ => ⟨0, 0⟩, false⟩, fun _ => 0, fun _ => 0, fun _ => 0⟩

theorem no_row_reached : ∃ index : Index Unit, Reached 3 addressCallbacks addressed (fun _ => none)
    {((⟨256, 1⟩, 256) : Entry Int)} index := by
  obtain ⟨_, pool, opened, _⟩ := @b_tree_init_empty Int _ 3 emptyIndexDisk rfl blankIndexPool
  refine ⟨(pool, ()), .opened rfl opened ?_⟩
  intro entry member
  rw [add_zero, Multiset.mem_singleton] at member
  rw [member]

theorem first_row_reached : ∃ index : Index Unit, Reached 3 addressCallbacks addressed
    (Function.update (fun _ => none) 256 (some ⟨256, 1⟩)) {((⟨256, 1⟩, 256) : Entry Int)} index := by
  obtain ⟨empty, start⟩ := no_row_reached
  have recorded : ((⟨256, 1⟩, 256) : Entry Int) ∈ ({((⟨256, 1⟩, 256) : Entry Int)} : Multiset (Entry Int)) :=
    Multiset.mem_singleton_self _
  obtain ⟨after, inserted, _⟩ := insert_step (address_contract _) (by decide)
    (reached_invariant address_contract (by decide) start) recorded rfl
  exact ⟨after, .inserted start recorded rfl inserted⟩

def numbered (total : Nat) : Multiset (Entry Int) :=
  (Multiset.range total).map fun number : Nat => (⟨number, 1⟩, (number : Int))

def boundBelow (count : Nat) : Bindings Int := fun key => if 0 ≤ key ∧ key < count then some ⟨key, 1⟩ else none

theorem numbered_mem {total number : Nat} (less : number < total) :
    (⟨number, 1⟩, (number : Int)) ∈ numbered total :=
  Multiset.mem_map.mpr ⟨number, Multiset.mem_range.mpr less, rfl⟩

theorem numbered_addressed (total : Nat) : addressed (numbered total) 0 () := by
  intro entry member
  rw [add_zero] at member
  obtain ⟨number, _, rfl⟩ := Multiset.mem_map.mp member
  rfl

theorem bound_below_self (count : Nat) : boundBelow count count = none := if_neg (by omega)

theorem bound_below_succ (count : Nat) :
    Function.update (boundBelow count) (count : Int) (some ⟨count, 1⟩) = boundBelow (count + 1) := by
  funext key
  rw [Function.update_apply, boundBelow, boundBelow]
  split_ifs with same
  all_goals first | rfl | omega | rw [same]

theorem bound_below_pred (count : Nat) :
    Function.update (boundBelow (count + 1)) (count : Int) none = boundBelow count := by
  rw [← bound_below_succ, Function.update_idem, ← bound_below_self count, Function.update_eq_self]

theorem numbered_start (total : Nat) : ∃ index : Index Unit,
    History 3 addressCallbacks addressed [] (boundBelow 0) (numbered total) index := by
  obtain ⟨_, pool, opened, _⟩ := @b_tree_init_empty Int _ 3 emptyIndexDisk rfl blankIndexPool
  have noneBound : boundBelow 0 = fun _ => none := by
    funext key
    exact if_neg (by omega)
  rw [noneBound]
  exact ⟨(pool, ()), .opened rfl opened (numbered_addressed total)⟩

theorem numbered_insert {total count : Nat} {earlier : List (Bindings Int × IndexPool)} {index : Index Unit}
    (less : count < total)
    (before : History 3 addressCallbacks addressed earlier (boundBelow count) (numbered total) index) :
    ∃ after, bTreeInsert 3 addressCallbacks ⟨count, 1⟩ index = some (nothing, after) ∧
      History 3 addressCallbacks addressed ((boundBelow count, index.1) :: earlier) (boundBelow (count + 1))
        (numbered total) after := by
  obtain ⟨after, inserted, _⟩ := insert_step (address_contract _) (by decide)
    (reached_invariant address_contract (by decide) ⟨_, before⟩) (numbered_mem less) (bound_below_self count)
  have next := History.inserted before (numbered_mem less) (bound_below_self count) inserted
  rw [bound_below_succ] at next
  exact ⟨after, inserted, next⟩

theorem numbered_delete {total count : Nat} {earlier : List (Bindings Int × IndexPool)} {index : Index Unit}
    (less : count < total)
    (before : History 3 addressCallbacks addressed earlier (boundBelow (count + 1)) (numbered total) index) :
    ∃ after, bTreeDelete 3 addressCallbacks ⟨count, 1⟩ index = some ((), after) ∧
      History 3 addressCallbacks addressed ((boundBelow (count + 1), index.1) :: earlier) (boundBelow count)
        (numbered total) after := by
  have present : boundBelow (count + 1) count ≠ none := by
    rw [boundBelow, if_pos (by omega)]
    exact Option.some_ne_none _
  obtain ⟨after, deleted, _⟩ := delete_step (address_contract _) (by decide)
    (reached_invariant address_contract (by decide) ⟨_, before⟩) (numbered_mem less) present
  have next := History.deleted before (numbered_mem less) present deleted
  rw [bound_below_pred] at next
  exact ⟨after, deleted, next⟩

theorem numbered_reached {total : Nat} (count : Nat) (fits : count ≤ total) : ∃ index : Index Unit,
    Reached 3 addressCallbacks addressed (boundBelow count) (numbered total) index := by
  induction count with
  | zero =>
      obtain ⟨index, start⟩ := numbered_start total
      exact ⟨index, _, start⟩
  | succ count ih =>
      obtain ⟨_, _, before⟩ := ih (by omega)
      obtain ⟨after, _, next⟩ := numbered_insert (by omega) before
      exact ⟨after, _, next⟩

/-- A record of a key that the tree does not have yet is found once it is inserted. -/
theorem b_tree_refines_map_first_row : ∃ index after final : Index Unit,
    bTreeInsert 3 addressCallbacks ⟨256, 1⟩ index = some (nothing, after) ∧
      bTreeSearch 3 (addressCompare 256) after = some (⟨256, 1⟩, final) ∧
      ∃ last : Index Unit, bTreeSearch 3 (addressCompare 384) after = some (nothing, last) := by
  obtain ⟨opens, calls⟩ := b_tree_refines_map 3 (by decide) addressCallbacks addressed address_contract
  obtain ⟨pool, opened⟩ := opens emptyIndexDisk blankIndexPool rfl
  have start : Reached 3 addressCallbacks addressed (fun _ => none) {((⟨256, 1⟩, 256) : Entry Int)} (pool, ()) := by
    refine .opened rfl opened ?_
    intro entry member
    rw [add_zero, Multiset.mem_singleton] at member
    rw [member]
  have recorded : ((⟨256, 1⟩, 256) : Entry Int) ∈ ({((⟨256, 1⟩, 256) : Entry Int)} : Multiset (Entry Int)) :=
    Multiset.mem_singleton_self _
  obtain ⟨after, inserted⟩ := (calls _ _ _ start).1 ⟨256, 1⟩ 256 recorded rfl
  have next := Reached.inserted start recorded rfl inserted
  obtain ⟨final, found⟩ := (calls _ _ _ next).2.2 256 _ (address_compares _ 256)
  obtain ⟨last, missed⟩ := (calls _ _ _ next).2.2 384 _ (address_compares _ 384)
  exact ⟨_, after, final, inserted, found, last, missed⟩

end MyJQL.BTreeRefinement
