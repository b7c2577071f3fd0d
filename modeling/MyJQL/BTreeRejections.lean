import MyJQL.BTreeInvariants

/-!
# Updates that the tree reports as wrong

An insertion of a key that a leaf has already and a deletion of a key that no leaf has are printed as
errors. Neither is rejected: the insertion goes on and puts the row in a second time, and the deletion
returns before it has given its leaf back.
-/

namespace MyJQL.BTreeRejections

open MyJQL.FileIo
open MyJQL.BufferPoolModel
open MyJQL.BufferPoolTransparency
open MyJQL.StateProgram
open MyJQL.PageStoreLogic
open MyJQL.PageAccounting
open MyJQL.SearchTrees
open MyJQL.TableModel
open MyJQL.BTreeModel
open MyJQL.BTreeLayout
open MyJQL.BTreePages
open MyJQL.BTreeSearch
open MyJQL.BTreeRefinement
open MyJQL.BTreeInvariants

set_option autoImplicit false

variable {Key Store : Type}

/-- With handlers that never return, an operation returns exactly if it calls none. -/
def withoutHandlers (callbacks : Callbacks Store) : Callbacks Store :=
  { callbacks with insertHandler := fun _ => stuck, deleteHandler := fun _ => stuck }

/-- The operation returns without having called a handler; every page is what it was, and no frame is
pinned. -/
def Rejected {Value : Type} (operation : Callbacks Store → Program (Index Store) Value)
    (callbacks : Callbacks Store) (index : Index Store) : Prop :=
  ∃ value after, operation (withoutHandlers callbacks) index = some (value, after) ∧
    SameContents index.1 after.1 ∧ numValidPool after.1 = cachePage

section Handlers

variable {callbacks : Callbacks Store} {degree : Nat} {node y : PagePtr} {rid : RID}

private theorem promote_calls :
    (promote (withoutHandlers callbacks) true rid : Program (Index Store) RID) = stuck := rfl

private theorem grow_root_calls :
    (growRoot (withoutHandlers callbacks) node y rid true : Program (Index Store) Unit) = stuck := by
  rw [growRoot]
  apply bind_stuck
  intro p
  apply bind_stuck
  intro _
  rw [promote_calls]
  rfl

/-- Whatever the pages are, the row between the halves of a leaf is copied before anything else can
happen. -/
theorem split_loop_calls :
    (splitLoop degree (withoutHandlers callbacks) node y rid true : Program (Index Store) Unit) = stuck := by
  have turn : (splitTurn degree (withoutHandlers callbacks) ⟨node, y, rid, true⟩ :
      Program (Index Store) (Split ⊕ Unit)) = stuck := by
    rw [splitTurn]
    apply bind_stuck
    intro page
    split_ifs
    · apply bind_stuck
      intro p
      apply bind_stuck
      intro parent
      apply bind_stuck
      intro _
      apply bind_stuck
      intro i
      split_ifs
      · apply bind_stuck
        intro tmp
        rw [promote_calls]
        rfl
      · rw [promote_calls]
        rfl
    · rw [grow_root_calls]
      rfl
  rw [splitLoop, loop_eq, turn]
  rfl

end Handlers

variable [LinearOrder Key]

section Calls

variable {degree height : Nat} {tree : BTree Key height} {free : List Int} {store : IndexStore}
  {separators records : Multiset (Entry Key)} {represents : Multiset (Entry Key) → Store → Prop}
  {callbacks : Callbacks Store} {entry : Entry Key}

theorem insert_adds_row (shape : IndexShape degree tree free 0 store) (held : Pins store [])
    (compares : Compares represents separators (callbacks.cmp entry.1) entry.2 ((tree.items height).map Item.entry)) :
    Allows (Stands StoresPool represents) (store, separators) (bTreeInsert degree (withoutHandlers callbacks) entry.1)
      fun _ final => ∃ addr ∈ tree.addrs height, (final.1.page addr).n = (store.page addr).n + 1 := by
  have parts : (bTreeInsert degree (withoutHandlers callbacks) entry.1 : Program (Index Store) RID) =
      (fetchRoot >>= fun node => descend degree (callbacks.cmp entry.1) node >>= pure) >>= fun place =>
        insertAtLeaf degree (withoutHandlers callbacks) entry.1 place >>= fun _ => pure nothing := by
    simp only [bTreeInsert, bind_assoc, pure_bind]
    rfl
  rw [parts]
  apply allows_bind
  apply ensures_find_leaf shape held compares
  intro place after lands page _ heldLeaf
  apply ensures_pure
  have pin : after.pin place.node.addr = some place.node.frame := (heldLeaf _ _).mpr (by simp)
  simp only [insertAtLeaf, bind_assoc]
  apply allows_bind
  apply ensures_index
  apply ensures_load pin
  by_cases full : (after.page place.node.addr).n = 2 * degree - 1
  · rw [if_pos full]
    simp only [bind_assoc]
    rw [bind_stuck]
    · exact allows_stuck
    · intro y
      apply bind_stuck
      intro _
      apply bind_stuck
      intro _
      apply bind_stuck
      intro right
      rw [split_loop_calls]
      rfl
  · rw [if_neg full]
    apply allows_of_ensures
    rw [bind_assoc]
    refine ensures_bind (ensures_index (ensures_amend pin ?_))
    refine ensures_bind (ensures_index (ensures_unpin place.node.frame (by simpa using pin) ?_))
    apply ensures_pure
    refine ⟨place.node.addr, lands.inTree, ?_⟩
    simp [BTreeModel.insertRow, page]

/-- A deletion of a key that no leaf has comes back with the leaf still pinned. -/
theorem delete_keeps_leaf (shape : IndexShape degree tree free 0 store) (held : Pins store [])
    (compares : Compares represents separators (callbacks.cmp entry.1) entry.2 ((tree.items height).map Item.entry))
    (absent : ∀ row ∈ rowsOf (tree.items height), row.2 ≠ entry.2) :
    Ensures (Stands StoresPool represents) (store, separators) (bTreeDelete degree (withoutHandlers callbacks) entry.1)
      fun _ final => final.1.page = store.page ∧ final.1.length = store.length ∧
        ∃ addr ∈ tree.addrs height, ∃ frame, Pins final.1 [(addr, frame)] := by
  rw [bTreeDelete]
  apply ensures_find_leaf shape held compares
  intro place after lands page length heldLeaf
  apply ensures_ite
  · intro found
    obtain ⟨row, listed, own⟩ := lands.hit.mp found
    exact absurd own (absent row listed)
  · intro _
    exact ensures_pure _ ⟨page, length, place.node.addr, lands.inTree, _, heldLeaf⟩

end Calls

section Runs

variable {degree : Nat} {callbacks : Callbacks Store} {holds : Standing Key Store} {bindings : Bindings Key}
  {records : Multiset (Entry Key)} {index : Index Store} {rid : RID} {key : Key}

theorem insert_not_rejected (contract : Contract (holds records) records callbacks)
    (invariant : Invariant degree holds bindings records index) (recorded : (rid, key) ∈ records) :
    ¬Rejected (fun callbacks => bTreeInsert degree callbacks rid) callbacks index := by
  rintro ⟨value, after, ran, ⟨length, same⟩, _⟩
  obtain ⟨_, separators, store, stores, standing, ⟨height, tree, free, shape, held, rfl, rfl⟩, table⟩ := invariant
  have compares := contract_compares contract recorded table.recorded (zero_add _).symm
  obtain ⟨final, related, addr, inTree, more⟩ :=
    insert_adds_row shape held compares index ⟨stores, standing⟩ value after ran
  obtain ⟨nonneg, aligned, inside, _, _⟩ := ledger_used shape.ledger inTree
  have inFile : InFile index.1 addr := ⟨nonneg, aligned, by rw [stores.length]; exact inside⟩
  have inFileAfter : InFile after.1 addr := ⟨nonneg, aligned, by rw [length]; exact inFile.2.2⟩
  have unchanged := same addr inFile
  rw [stores.page addr inFile, related.1.page addr inFileAfter] at unchanged
  rw [unchanged] at more
  omega

theorem delete_not_rejected (contract : Contract (holds records) records callbacks)
    (invariant : Invariant degree holds bindings records index) (recorded : (rid, key) ∈ records)
    (absent : bindings key = none) :
    ¬Rejected (fun callbacks => bTreeDelete degree callbacks rid) callbacks index := by
  rintro ⟨value, after, ran, _, unpinned⟩
  obtain ⟨_, separators, store, stores, standing, ⟨height, tree, free, shape, held, rfl, rfl⟩, table⟩ := invariant
  have compares := contract_compares contract recorded table.recorded (zero_add _).symm
  have keeps := delete_keeps_leaf shape held compares (table_absent table absent)
  obtain ⟨final, related, _, _, addr, _, frame, heldLeaf⟩ :=
    allows_of_ensures keeps index ⟨stores, standing⟩ value after ran
  have within := (num_valid_pool_iff related.1).mp unpinned
  have pin : final.1.pin addr = some frame := (heldLeaf _ _).mpr (by simp)
  have impossible := within addr frame pin
  simp at impossible

/-- No reachable tree rejects an insertion of a key that it has, or a deletion of one that it has not. -/
theorem updates_never_rejected (degree : Nat) (enough : 2 ≤ degree) (callbacks : Callbacks Store)
    (holds : Standing Key Store) (contract : ∀ records, Contract (holds records) records callbacks) :
    ∀ bindings records index, Reached degree callbacks holds bindings records index →
      (∀ rid key, (rid, key) ∈ records → bindings key ≠ none →
        ¬Rejected (fun callbacks => bTreeInsert degree callbacks rid) callbacks index) ∧
      ∀ rid key, (rid, key) ∈ records → bindings key = none →
        ¬Rejected (fun callbacks => bTreeDelete degree callbacks rid) callbacks index := by
  intro bindings records index reached
  have invariant := reached_invariant contract enough reached
  refine ⟨?_, ?_⟩
  · intro rid key recorded _
    exact insert_not_rejected (contract records) invariant recorded
  · intro rid key recorded absent
    exact delete_not_rejected (contract records) invariant recorded absent

end Runs

theorem updates_never_rejected_first_row : ∃ index : Index Unit,
    ¬Rejected (fun callbacks => bTreeInsert 3 callbacks ⟨256, 1⟩) addressCallbacks index := by
  obtain ⟨index, reached⟩ := first_row_reached
  obtain ⟨inserts, _⟩ :=
    updates_never_rejected 3 (by decide) addressCallbacks addressed address_contract _ _ _ reached
  exact ⟨index, inserts _ _ (Multiset.mem_singleton_self _) (by simp)⟩

/-- The record of the tree is inserted once more, and it is deleted from a tree without records. -/
theorem wrong_updates_go_on :
    (∃ index : Index Unit, Reached 3 addressCallbacks addressed (Function.update (fun _ => none) 256 (some ⟨256, 1⟩))
        {((⟨256, 1⟩, 256) : Entry Int)} index ∧
      ¬Rejected (fun callbacks => bTreeInsert 3 callbacks ⟨256, 1⟩) addressCallbacks index) ∧
    ∃ index : Index Unit, Reached 3 addressCallbacks addressed (fun _ => none) {((⟨256, 1⟩, 256) : Entry Int)} index ∧
      ¬Rejected (fun callbacks => bTreeDelete 3 callbacks ⟨256, 1⟩) addressCallbacks index := by
  have recorded : ((⟨256, 1⟩, 256) : Entry Int) ∈ ({((⟨256, 1⟩, 256) : Entry Int)} : Multiset (Entry Int)) :=
    Multiset.mem_singleton_self _
  refine ⟨?_, ?_⟩
  · obtain ⟨index, reached⟩ := first_row_reached
    refine ⟨index, reached, ?_⟩
    exact insert_not_rejected (address_contract _) (reached_invariant address_contract (by decide) reached) recorded
  · obtain ⟨index, reached⟩ := no_row_reached
    refine ⟨index, reached, ?_⟩
    exact delete_not_rejected (address_contract _) (reached_invariant address_contract (by decide) reached) recorded rfl

end MyJQL.BTreeRejections
