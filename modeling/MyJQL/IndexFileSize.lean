import MyJQL.BTreeSearchCost
import MyJQL.Restarts

/-!
# How long the file of the tree gets

An insertion takes free pages before it puts new ones behind the file, so the file grows only when all
of it is in use. It is never longer than the greatest number of keys so far asks for, however many keys
have come and gone.
-/

namespace MyJQL.IndexFileSize

open MyJQL.FileIo
open MyJQL.BufferPoolModel
open MyJQL.StateProgram
open MyJQL.PageStoreLogic
open MyJQL.PageAccounting
open MyJQL.SearchTrees
open MyJQL.SearchTreeHeights
open MyJQL.TableModel
open MyJQL.Reopening
open MyJQL.Restarts
open MyJQL.BTreeModel
open MyJQL.BTreeLayout
open MyJQL.BTreePages
open MyJQL.BTreeSearch
open MyJQL.BTreeInsertion
open MyJQL.BTreeDeletion
open MyJQL.BTreeRefinement
open MyJQL.BTreeSearchCost

set_option autoImplicit false

variable {Key Store : Type} [LinearOrder Key]

def pagesFor (degree keys : Nat) : Nat := max 2 (2 * keys / (degree - 1))

theorem pages_for_mono {degree fewer more : Nat} (le : fewer ≤ more) : pagesFor degree fewer ≤ pagesFor degree more :=
  max_le_max le_rfl (Nat.div_le_div_right (Nat.mul_le_mul_left 2 le))

def Few (bound : Nat) (bindings : Bindings Key) : Prop :=
  ∃ keys : Finset Key, keys.card ≤ bound ∧ ∀ key, bindings key ≠ none → key ∈ keys

/-- There are and were never more than `bound` keys. -/
def Confined (bound : Nat) (earlier : List (Bindings Key × IndexPool)) (bindings : Bindings Key) : Prop :=
  (∀ state ∈ earlier, Few bound state.1) ∧ Few bound bindings

section Steps

variable {degree bound : Nat} {callbacks : Callbacks Store} {holds : Standing Key Store}
  {earlier : List (Bindings Key × IndexPool)} {bindings : Bindings Key} {records : Multiset (Entry Key)}
  {index after : Index Store} {rid answer : RID} {key : Key}

theorem rows_few {items : List (Item RID Key)} (sorted : Sorted items)
    (table : IsTable (rowsOf items) records bindings) (few : Few bound bindings) : (rowsOf items).length ≤ bound := by
  obtain ⟨keys, card, inKeys⟩ := few
  have inside : ((rowsOf items).map Prod.snd).toFinset ⊆ keys := by
    intro key member
    obtain ⟨⟨rid, _⟩, listed, rfl⟩ := List.mem_map.mp (List.mem_toFinset.mp member)
    apply inKeys
    rw [(table.mem rid _).mp listed]
    exact Option.some_ne_none _
  have counted := Finset.card_le_card inside
  rw [List.toFinset_card_of_nodup (rows_keys_nodup sorted), List.length_map] at counted
  exact counted.trans card

theorem full_length {height : Nat} {tree : BTree Key height} {store : IndexStore}
    (shape : IndexShape degree tree [] 0 store) : store.length = ((tree.addrs height).card + 1 : Nat) * pageSize := by
  have counted := congrArg Multiset.card shape.ledger.pages
  rw [card_pages_below, Multiset.card_cons, Multiset.coe_nil, add_zero, add_zero] at counted
  have nonneg := shape.ledger.nonneg
  have aligned := shape.ledger.aligned
  rw [← counted]
  simp only [pageSize] at *
  omega

theorem insert_fills (contract : Contract (holds records) records callbacks) (enough : 2 ≤ degree)
    (invariant : Invariant degree holds bindings records index) (recorded : (rid, key) ∈ records)
    (absent : bindings key = none) (few : Few bound (Function.update bindings key (some rid)))
    (ran : bTreeInsert degree callbacks rid index = some (answer, after)) :
    after.1.file.length ≤ max index.1.file.length (pagesFor degree bound * pageSize) := by
  obtain ⟨_, _, store, stores, standing, ⟨height, tree, free, shape, held, rfl, rfl⟩, table⟩ := invariant
  have inserted : Ensures (Stands StoresPool (holds records)) (store, (separatorsOf (tree.items height) : Multiset _))
      (bTreeInsert degree callbacks rid)
      fun _ final => final.1.length ≤ max store.length (pagesFor degree bound * pageSize) := by
    apply ensures_insert_shape contract (by omega) shape held rfl recorded table.recorded (table_absent table absent)
    intro heightAfter changed rest _ final shapeAfter _ rows _ thrifty
    have tableAfter := table_inserted table recorded absent
    rw [rows] at tableAfter
    rcases thrifty with ⟨_, same⟩ | ⟨rfl, _⟩
    · exact same ▸ le_max_left _ _
    · have counted : (changed.addrs heightAfter).card + 1 ≤ pagesFor degree bound :=
        (nodes_of_rows enough shapeAfter.sized).trans (pages_for_mono (rows_few shapeAfter.sorted tableAfter few))
      rw [full_length shapeAfter]
      simp only [pageSize]
      omega
  obtain ⟨_, related, shorter⟩ := allows_of_ensures inserted index ⟨stores, standing⟩ _ _ ran
  have lengthAfter := related.1.length
  have length := stores.length
  omega

/-- What holds of every run: the file is short enough, in memory and on the disk. -/
def Short (degree bound : Nat) (pool : IndexPool) : Prop :=
  pool.file.length ≤ pagesFor degree bound * pageSize ∧ pool.file.fp.size ≤ pagesFor degree bound * pageSize

theorem short_resized {pool changed : IndexPool} (short : Short degree bound pool)
    (resized : Resized pool changed)
    (length : changed.file.length ≤ max pool.file.length (pagesFor degree bound * pageSize)) :
    Short degree bound changed := by
  have lengthAfter := length.trans (max_le short.1 le_rfl)
  exact ⟨lengthAfter, resized.le.trans (max_le short.2 lengthAfter)⟩

omit [LinearOrder Key] in
theorem confined_before {state : Bindings Key × IndexPool} (confined : Confined bound (state :: earlier) bindings) :
    Confined bound earlier state.1 :=
  ⟨fun other member => confined.1 other (List.mem_cons_of_mem _ member), confined.1 state List.mem_cons_self⟩

theorem confined_short (contract : ∀ records, Contract (holds records) records callbacks) (enough : 2 ≤ degree)
    (history : History degree callbacks holds earlier bindings records index)
    (confined : Confined bound earlier bindings) : Short degree bound index.1 := by
  induction history with
  | opened empty ran ready =>
      obtain ⟨store, pool, same, stores, _, size, length⟩ := @b_tree_init_fresh Key _ degree _ empty _
      rw [ran] at same
      cases same
      have two : 2 ≤ pagesFor degree bound := le_max_left _ _
      rw [Short, stores.size, size, stores.length, length]
      simp only [pageSize]
      omega
  | inserted before recorded absent ran ih =>
      have invariant := reached_invariant contract enough ⟨_, before⟩
      exact short_resized (ih (confined_before confined))
        (insert_grows (contract _) (by omega) invariant recorded absent ran).1
        (insert_fills (contract _) enough invariant recorded absent confined.2 ran)
  | deleted before recorded present ran ih =>
      have shrinks := delete_shrinks (contract _) enough (reached_invariant contract enough ⟨_, before⟩) recorded
        present ran
      exact short_resized (ih (confined_before confined)) shrinks.1 (shrinks.2.trans (le_max_left _ _))
  | searched before compares ran ih =>
      have shrinks := search_shrinks compares (reached_invariant contract enough ⟨_, before⟩) ran
      exact short_resized (ih (confined_before confined)) shrinks.1 (shrinks.2.trans (le_max_left _ _))
  | moved _ _ _ ih => exact ih confined

end Steps

theorem bound_below_few {bound count : Nat} (le : count ≤ bound) : Few bound (boundBelow count) := by
  refine ⟨(Finset.range count).image Nat.cast, Finset.card_image_le.trans (by simpa using le), fun key present => ?_⟩
  have inside : 0 ≤ key ∧ key < count := by
    by_contra outside
    exact present (if_neg outside)
  exact Finset.mem_image.mpr ⟨key.toNat, Finset.mem_range.mpr (by omega), by omega⟩

/-- A run in which so many of seven records are there now, and as many as in `seen` were there before. -/
def Numbering (seen : List Nat) (count : Nat) (index : Index Unit) : Prop :=
  ∃ earlier, History 3 addressCallbacks addressed earlier (boundBelow count) (numbered 7) index ∧
    Confined 7 earlier (boundBelow count) ∧ ∀ fewer ∈ seen, boundBelow fewer ∈ earlier.map Prod.fst

theorem numbering_next {seen : List Nat} {count other : Nat} {earlier : List (Bindings Int × IndexPool)}
    {index after : Index Unit} (confined : Confined 7 earlier (boundBelow count))
    (before : ∀ fewer ∈ seen, boundBelow fewer ∈ earlier.map Prod.fst) (le : other ≤ 7)
    (next : History 3 addressCallbacks addressed ((boundBelow count, index.1) :: earlier) (boundBelow other)
      (numbered 7) after) : Numbering (count :: seen) other after := by
  refine ⟨_, next, ⟨List.forall_mem_cons.mpr ⟨confined.2, confined.1⟩, bound_below_few le⟩, fun fewer member => ?_⟩
  rcases List.mem_cons.mp member with rfl | old
  · exact List.mem_cons_self
  · exact List.mem_cons_of_mem _ (before fewer old)

theorem numbering_inserted {seen : List Nat} {count : Nat} {index : Index Unit} (le : count + 1 ≤ 7)
    (numbering : Numbering seen count index) : ∃ after, Numbering (count :: seen) (count + 1) after := by
  obtain ⟨_, history, confined, before⟩ := numbering
  obtain ⟨after, _, next⟩ := numbered_insert (by omega) history
  exact ⟨after, numbering_next confined before le next⟩

theorem numbering_deleted {seen : List Nat} {count : Nat} {index : Index Unit} (le : count + 1 ≤ 7)
    (numbering : Numbering seen (count + 1) index) : ∃ after, Numbering ((count + 1) :: seen) count after := by
  obtain ⟨_, history, confined, before⟩ := numbering
  obtain ⟨after, _, next⟩ := numbered_delete (by omega) history
  exact ⟨after, numbering_next confined before (by omega) next⟩

theorem numbering_rises {seen : List Nat} {count : Nat} (more : Nat) (total : count + more = 7) {index : Index Unit}
    (start : Numbering seen count index) : ∃ after, ∃ longer ⊇ seen, Numbering longer 7 after := by
  induction more generalizing seen count index with
  | zero => exact ⟨index, seen, List.Subset.refl _, total ▸ start⟩
  | succ more ih =>
      obtain ⟨_, next⟩ := numbering_inserted (by omega) start
      obtain ⟨after, longer, sub, last⟩ := ih (by omega) next
      exact ⟨after, longer, List.subset_of_cons_subset sub, last⟩

theorem numbering_falls {seen : List Nat} {count : Nat} (le : count ≤ 7) {index : Index Unit}
    (start : Numbering seen count index) : ∃ after, ∃ longer ⊇ seen, Numbering longer 0 after := by
  induction count generalizing seen index with
  | zero => exact ⟨index, seen, List.Subset.refl _, start⟩
  | succ count ih =>
      obtain ⟨_, next⟩ := numbering_deleted le start
      obtain ⟨after, longer, sub, last⟩ := ih (by omega) next
      exact ⟨after, longer, List.subset_of_cons_subset sub, last⟩

/-- However often keys come and go, the file is never longer than the keys there were at one time ask for. -/
theorem index_file_bounded (degree : Nat) (enough : 2 ≤ degree) (callbacks : Callbacks Store)
    (holds : Standing Key Store) (contract : ∀ records, Contract (holds records) records callbacks) (bound : Nat) :
    ∀ earlier bindings records index, History degree callbacks holds earlier bindings records index →
      Confined bound earlier bindings →
        index.1.file.length ≤ pagesFor degree bound * pageSize ∧
          index.1.file.fp.size ≤ pagesFor degree bound * pageSize :=
  fun _ _ _ _ history confined => confined_short contract enough history confined

/-- Seven records come, go, and come back, and the file has seven pages at most. -/
theorem index_file_bounded_come_and_go : ∃ earlier, ∃ index : Index Unit,
    History 3 addressCallbacks addressed earlier (boundBelow 7) (numbered 7) index ∧
      boundBelow 7 ∈ earlier.map Prod.fst ∧ boundBelow 0 ∈ earlier.map Prod.fst ∧
      index.1.file.length ≤ 7 * pageSize ∧ index.1.file.fp.size ≤ 7 * pageSize := by
  obtain ⟨_, started⟩ := numbered_start 7
  have start : Numbering [] 0 _ := ⟨[], started, ⟨by simp, bound_below_few (by omega)⟩, by simp⟩
  obtain ⟨_, _, _, full⟩ := numbering_rises 7 rfl start
  obtain ⟨_, fewer⟩ := numbering_deleted le_rfl full
  obtain ⟨_, _, sub, empty⟩ := numbering_falls (by omega) fewer
  obtain ⟨_, first⟩ := numbering_inserted (by omega) empty
  obtain ⟨index, _, subLast, earlier, history, confined, before⟩ := numbering_rises 6 rfl first
  have short := index_file_bounded 3 (by decide) addressCallbacks addressed address_contract 7 _ _ _ _ history confined
  have hadNone := before 0 (subLast List.mem_cons_self)
  have hadAll := before 7 (subLast (List.mem_cons_of_mem _ (sub List.mem_cons_self)))
  exact ⟨earlier, index, history, hadAll, hadNone, short⟩

end MyJQL.IndexFileSize
