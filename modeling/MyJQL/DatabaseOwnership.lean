import MyJQL.DatabasePersistence
import Mathlib.Data.Multiset.Bind

/-!
# Who owns what in the tables

The tables are read without looking at how they came about. Every live record is in one place of the
tree, every chunk of a string is in one string of one record, and nothing else is live. On the records
that are live the two comparators are one strict total order.
-/

namespace MyJQL.DatabaseOwnership

open MyJQL.BufferPoolModel
open MyJQL.StateProgram
open MyJQL.TableModel
open MyJQL.TableStore
open MyJQL.TableRefinement
open MyJQL.StringModel
open MyJQL.StringStore
open MyJQL.SearchTrees
open MyJQL.BTreeModel
open MyJQL.BTreeLayout
open MyJQL.BTreeSearch
open MyJQL.BTreeInvariants
open MyJQL.DatabaseModel
open MyJQL.RecordStore
open MyJQL.DatabaseRefinement
open MyJQL.DatabasePersistence
open MyJQL.FiniteGraphs
open MyJQL.KeyValueStore

set_option autoImplicit false

/-- The chunks of the strings are the live items, each in one place of one string. -/
structure ChunksOnce (live : Heap) (roots : Multiset RID) (chunks : RID → List RID) : Prop where
  walks : ∀ root ∈ roots, ChunkWalk live root (chunks root)
  once : (roots.bind fun root => (chunks root : Multiset RID)).Nodup
  live : ∀ rid, live rid ≠ none ↔ rid ∈ roots.bind fun root => (chunks root : Multiset RID)

theorem texts_chunks {texts : Multiset (RID × Bytes)} {table : Table} (holds : HoldsTexts texts table) :
    ∃ chunks, ChunksOnce (liveItem table) (texts.map Prod.fst) chunks := by
  obtain ⟨strings, graph, heap, ⟨pieces, owns⟩, tableHolds⟩ := holds
  have live : ∀ root ∈ texts.map Prod.fst, strings root ≠ none := fun root => (graph_live graph).mpr
  refine ⟨fun root => chunksOf (pieces root), ?_⟩
  rw [table_holds_live tableHolds]
  refine ⟨?_, ?_, ?_⟩
  · intro root listed
    exact linked_walk (owns_live owns (live root listed)).linked
  · rw [Multiset.nodup_bind]
    refine ⟨fun root listed => Multiset.coe_nodup.mpr (owns.nodup root (live root listed)), ?_⟩
    apply Multiset.Nodup.pairwise _ graph.nodup
    intro first isFirst second isSecond different
    rw [Function.onFun, Multiset.disjoint_left]
    intro chunk
    exact owns.apart first second (live first isFirst) (live second isSecond) different chunk
  · intro rid
    rw [Multiset.mem_bind]
    constructor
    · intro isLive
      obtain ⟨root, stored, member⟩ := owns.owned rid isLive
      exact ⟨root, (graph_live graph).mp stored, member⟩
    · rintro ⟨root, listed, member⟩
      exact linked_live (owns_live owns (live root listed)).linked rid member

def recordOf (table : Table) (rid : RID) : Option Record := (liveItem table rid).bind decodeRecord

def rowRoots (table : Table) (rid : RID) : Multiset RID :=
  match recordOf table rid with
  | some record => {record.key, record.value}
  | none => 0

def copyRoots (table : Table) (rid : RID) : Multiset RID :=
  match recordOf table rid with
  | some record => {record.key}
  | none => 0

/-- The live records are those of the tree, each in one place of it, and the live chunks are those of
their strings. -/
structure Owned (tables : Tables) (rows separators : Multiset RID) : Prop where
  once : (rows + separators).Nodup
  live : ∀ rid, liveItem tables.1 rid ≠ none ↔ rid ∈ rows + separators
  records : ∀ rid ∈ rows + separators, recordOf tables.1 rid ≠ none
  strings : ∃ chunks, ChunksOnce (liveItem tables.2)
    (rows.bind (rowRoots tables.1) + separators.bind (copyRoots tables.1)) chunks

section Shelves

variable {shelf rows copies : Multiset Holding} {tables : Tables} {holding : Holding} {rid : RID}

private theorem rids_of_items :
    ((shelf.map Holding.item).map fun entry => (entry.1, encodeRecord entry.2)).map Prod.fst =
      shelf.map Holding.rid := by
  rw [Multiset.map_map, Multiset.map_map]
  rfl

theorem shelved_live (shelved : Shelved shelf tables) : liveItem tables.1 rid ≠ none ↔ rid ∈ shelf.map Holding.rid := by
  obtain ⟨⟨heap, graph, holds⟩, _⟩ := shelved
  rw [table_holds_live holds, graph_live graph, rids_of_items]

theorem shelved_once (shelved : Shelved shelf tables) : (shelf.map Holding.rid).Nodup := by
  obtain ⟨⟨heap, graph, _⟩, _⟩ := shelved
  rw [← rids_of_items]
  exact graph.nodup

theorem shelved_record (shelved : Shelved shelf tables) (member : holding ∈ shelf) :
    recordOf tables.1 holding.rid = some holding.record := by
  obtain ⟨⟨heap, graph, holds⟩, _⟩ := shelved
  have listed := Multiset.mem_map_of_mem (fun entry : RID × Record => (entry.1, encodeRecord entry.2)) (item_mem member)
  rw [recordOf, table_holds_live holds, (graph.mem _ _).mp listed, Option.bind_some, decode_encode_record]

theorem rows_roots (shelved : Shelved shelf tables) (inShelf : ∀ row ∈ rows, row ∈ shelf)
    (written : ∀ row ∈ rows, ∃ value, row.value = some value) :
    (rows.bind Holding.texts).map Prod.fst = (rows.map Holding.rid).bind (rowRoots tables.1) := by
  rw [Multiset.map_bind, Multiset.bind_map]
  apply Multiset.bind_congr
  intro row member
  obtain ⟨value, isWritten⟩ := written row member
  rw [texts_of_row isWritten, rowRoots, shelved_record shelved (inShelf row member)]
  rfl

theorem copies_roots (shelved : Shelved shelf tables) (inShelf : ∀ copy ∈ copies, copy ∈ shelf)
    (isCopy : ∀ copy ∈ copies, copy.value = none) :
    (copies.bind Holding.texts).map Prod.fst = (copies.map Holding.rid).bind (copyRoots tables.1) := by
  rw [Multiset.map_bind, Multiset.bind_map]
  apply Multiset.bind_congr
  intro copy member
  rw [texts_of_copy (isCopy copy member), copyRoots, shelved_record shelved (inShelf copy member)]
  rfl

theorem shelved_owned (shelved : Shelved (rows + copies) tables)
    (written : ∀ row ∈ rows, ∃ value, row.value = some value)
    (isCopy : ∀ copy ∈ copies, copy.value = none) : Owned tables (rows.map Holding.rid) (copies.map Holding.rid) := by
  have together : rows.map Holding.rid + copies.map Holding.rid = (rows + copies).map Holding.rid :=
    (Multiset.map_add _ _ _).symm
  refine ⟨?_, ?_, ?_, ?_⟩
  · rw [together]
    exact shelved_once shelved
  · intro rid
    rw [together]
    exact shelved_live shelved
  · intro rid listed
    rw [together] at listed
    obtain ⟨holding, member, rfl⟩ := Multiset.mem_map.mp listed
    rw [shelved_record shelved member]
    exact Option.some_ne_none _
  · rw [← rows_roots shelved (fun row member => Multiset.mem_add.mpr (.inl member)) written,
      ← copies_roots shelved (fun copy member => Multiset.mem_add.mpr (.inr member)) isCopy,
      ← Multiset.map_add, ← Multiset.add_bind]
    exact texts_chunks shelved.2

end Shelves

theorem nothing_shelved {tables : Tables} (shelved : Shelved 0 tables) :
    (∀ rid, liveItem tables.1 rid = none) ∧ ∀ rid, liveItem tables.2 rid = none := by
  refine ⟨?_, ?_⟩
  · intro rid
    by_contra live
    have listed := (shelved_live shelved).mp live
    simp at listed
  · intro rid
    by_contra live
    obtain ⟨chunks, once⟩ := texts_chunks shelved.2
    have listed := (once.live rid).mp live
    simp at listed

theorem no_rows_no_separators {degree height : Nat} {tree : BTree SortKey height} (enough : 2 ≤ degree)
    (sized : tree.Sized degree (min height 1) height) (none : rowsOf (tree.items height) = []) :
    separatorsOf (tree.items height) = [] := by
  cases height with
  | zero =>
      rw [Tree.items_leaf]
      exact separators_of_map_row _
  | succ height => exact absurd none (Tree.rows_nonempty enough (by omega) sized)

/-- After any calls the live records and the live chunks belong to the tree, each to one place; when
nothing is bound any more, nothing is live. -/
theorem tables_owned_exactly : ∀ calls database, Served calls database →
    (∃ (height : Nat) (tree : BTree SortKey height), IsSearchTree bTreeDegree (view database.1) tree ∧
      Owned database.2 ((rowsOf (tree.items height) : Multiset (Entry SortKey)).map Prod.fst)
        ((separatorsOf (tree.items height) : Multiset (Entry SortKey)).map Prod.fst)) ∧
    ((∀ key, replay noBindings calls key = none) →
      (∀ rid, liveItem database.2.1 rid = none) ∧ ∀ rid, liveItem database.2.2 rid = none) := by
  intro calls database served
  obtain ⟨shelf, binds, separators, store, stores, ⟨height, tree, free, shape, _, rows, seps⟩, copies, same, isCopy,
    shelved⟩ := served_holds served
  refine ⟨⟨height, tree, index_search_tree stores shape, ?_⟩, ?_⟩
  · have owned := shelved_owned shelved (fun row member => by
      obtain ⟨value, written, _⟩ := binds_row binds member
      exact ⟨value, written⟩) isCopy
    rw [← rows, ← seps, ← same, Multiset.map_map, Multiset.map_map]
    exact owned
  · intro unbound
    have noRow : shelf = 0 := by
      apply Multiset.eq_zero_of_forall_notMem
      intro row member
      obtain ⟨value, _, bound⟩ := binds_row binds member
      rw [unbound] at bound
      cases bound
    rw [noRow, Multiset.map_zero] at rows
    have noSeparator := no_rows_no_separators (by decide) shape.sized (by simpa using rows.symm)
    rw [seps, noSeparator, Multiset.coe_nil, Multiset.map_eq_zero] at same
    rw [noRow, same, add_zero] at shelved
    exact nothing_shelved shelved

/-- One key that is set and deleted again. -/
theorem tables_owned_exactly_deleted : ∃ database, Served [.set [107] [1, 2, 3], .del [107]] database ∧
    (∀ rid, liveItem database.2.1 rid = none) ∧ ∀ rid, liveItem database.2.2 rid = none := by
  obtain ⟨database, served⟩ := first_value_served
  obtain ⟨_, after, _, ran, _⟩ := database_faithful 0 _ (.del [107]) database (served_holds served)
  have deleted := Served.called served ran
  refine ⟨after, deleted, (tables_owned_exactly _ after deleted).2 ?_⟩
  intro key
  by_cases same : key = [107]
  · simp [replay, StoreCall.apply, same]
  · simp [replay, StoreCall.apply, noBindings, Function.update_of_ne same]

/-- `-1`, `0` or `1`: the order of two texts, character by character, a prefix before what continues it. -/
def textOrder (left right : Bytes) : Int :=
  if sortKey left < sortKey right then -1 else if sortKey right < sortKey left then 1 else 0

section Order

variable {left middle right : Bytes}

theorem compare_chars_sign (left right : Bytes) :
    compareChars left right = -1 ∨ compareChars left right = 0 ∨ compareChars left right = 1 := by
  induction left generalizing right with
  | nil => cases right <;> simp [compareChars]
  | cons x xs ih =>
      cases right with
      | nil => simp [compareChars]
      | cons y ys =>
          rw [compareChars]
          split_ifs
          · simp
          · simp
          · exact ih ys

theorem compare_chars_eq (left right : Bytes) : compareChars left right = textOrder left right := by
  obtain ⟨above, same⟩ := compare_chars_agrees left right
  rw [textOrder]
  split_ifs with less more
  · have notAbove := mt above.mp (not_lt_of_gt less)
    have notSame := mt same.mp (ne_of_lt less)
    rcases compare_chars_sign left right with sign | sign | sign
    · exact sign
    · exact absurd sign notSame
    · rw [sign] at notAbove
      exact absurd Int.one_pos notAbove
  · have isAbove := above.mpr more
    rcases compare_chars_sign left right with sign | sign | sign
    · omega
    · omega
    · exact sign
  · exact same.mpr (le_antisymm (le_of_not_gt more) (le_of_not_gt less))

theorem text_order_swap (left right : Bytes) : textOrder right left = -textOrder left right := by
  rw [textOrder, textOrder]
  split_ifs with less more
  · exact absurd more (not_lt_of_gt less)
  · rfl
  · rfl
  · rfl

theorem text_order_nonpos : textOrder left right ≤ 0 ↔ sortKey left ≤ sortKey right := by
  rw [textOrder]
  split_ifs with less more
  · simp [le_of_lt less]
  · simp [more]
  · simp [le_of_not_gt more]

theorem text_order_neg : textOrder left right < 0 ↔ sortKey left < sortKey right := by
  rw [textOrder]
  split_ifs with less more
  · simp [less]
  · simp [less]
  · simp [less]

theorem text_order_zero : textOrder left right = 0 ↔ left = right := by
  rw [← compare_chars_eq, (compare_chars_agrees left right).2]
  exact sort_key_injective.eq_iff

theorem text_order_trans (first : textOrder left middle ≤ 0) (second : textOrder middle right ≤ 0) :
    textOrder left right ≤ 0 ∧
      (textOrder left middle < 0 ∨ textOrder middle right < 0 → textOrder left right < 0) := by
  rw [text_order_nonpos] at first second
  refine ⟨text_order_nonpos.mpr (le_trans first second), ?_⟩
  rw [text_order_neg, text_order_neg, text_order_neg]
  rintro (strict | strict)
  · exact lt_of_lt_of_le strict second
  · exact lt_of_le_of_lt first strict

end Order

/-- What `rid_row_row_cmp` returns. -/
def rowOrder (tables : Tables) (a b : RID) : Option Int := (ridRowRowCmp a b tables).map Prod.fst

/-- What `rid_ptr_row_cmp` returns. -/
def pointerOrder (tables : Tables) (p : Bytes) (b : RID) : Option Int := (ridPtrRowCmp p b tables).map Prod.fst

/-- Every live record has a key that its string reads back as, and both comparators compare keys. -/
structure KeysCompared (tables : Tables) (keyOf : RID → Bytes) : Prop where
  keys : ∀ rid, liveItem tables.1 rid ≠ none →
    ∃ record, recordOf tables.1 rid = some record ∧ ReadsBack tables.2 record.key (keyOf rid)
  rows : ∀ a b, liveItem tables.1 a ≠ none → liveItem tables.1 b ≠ none →
    rowOrder tables a b = some (textOrder (keyOf a) (keyOf b))
  pointers : ∀ p b, liveItem tables.1 b ≠ none → pointerOrder tables p b = some (textOrder p (keyOf b))

section Comparators

variable {shelf : Multiset Holding} {tables : Tables} {first second holding : Holding}

theorem shelved_row_order (shelved : Shelved shelf tables) (isFirst : first ∈ shelf) (isSecond : second ∈ shelf) :
    rowOrder tables first.rid second.rid = some (textOrder first.key second.key) := by
  have compares : Ensures Filed (shelf.map Holding.item, shelf.bind Holding.texts)
      (ridRowRowCmp first.rid second.rid) fun order _ => order = compareChars first.key second.key :=
    ensures_rid_row_row_cmp isFirst isSecond rfl
  obtain ⟨_, after, _, ran, _, rfl⟩ := compares tables shelved
  rw [rowOrder, ran, compare_chars_eq]
  rfl

theorem shelved_pointer_order (shelved : Shelved shelf tables) (member : holding ∈ shelf) (p : Bytes) :
    pointerOrder tables p holding.rid = some (textOrder p holding.key) := by
  have compares : Ensures Filed (shelf.map Holding.item, shelf.bind Holding.texts)
      (ridPtrRowCmp p holding.rid) fun order _ => order = compareChars p holding.key :=
    ensures_rid_ptr_row_cmp member rfl
  obtain ⟨_, after, _, ran, _, rfl⟩ := compares tables shelved
  rw [pointerOrder, ran, compare_chars_eq]
  rfl

theorem shelved_key_reads (shelved : Shelved shelf tables) (member : holding ∈ shelf) :
    ReadsBack tables.2 holding.record.key holding.key := by
  obtain ⟨_, strings, graph, holds⟩ := shelved
  exact reads_back holds ((graph.mem _ _).mp (key_mem member))

theorem shelved_compared (shelved : Shelved shelf tables) : ∃ keyOf, KeysCompared tables keyOf := by
  have listed : ∀ rid, liveItem tables.1 rid ≠ none →
      ∃ key, ∃ holding ∈ shelf, holding.rid = rid ∧ holding.key = key := by
    intro rid live
    obtain ⟨holding, member, own⟩ := Multiset.mem_map.mp ((shelved_live shelved).mp live)
    exact ⟨holding.key, holding, member, own, rfl⟩
  choose! keyOf isKey using listed
  refine ⟨keyOf, ?_, ?_, ?_⟩
  · intro rid live
    obtain ⟨holding, member, rfl, same⟩ := isKey rid live
    rw [← same]
    exact ⟨holding.record, shelved_record shelved member, shelved_key_reads shelved member⟩
  · intro a b liveA liveB
    obtain ⟨first, isFirst, rfl, sameA⟩ := isKey a liveA
    obtain ⟨second, isSecond, rfl, sameB⟩ := isKey b liveB
    rw [← sameA, ← sameB]
    exact shelved_row_order shelved isFirst isSecond
  · intro p b live
    obtain ⟨holding, member, rfl, same⟩ := isKey b live
    rw [← same]
    exact shelved_pointer_order shelved member p

end Comparators

/-- The two comparators are one strict total order of the keys, whatever records the tables hold. -/
theorem comparators_one_order :
    (∀ calls database, Persisted calls database → ∃ shelf, Shelved shelf database.2) ∧
    ∀ shelf tables, Shelved shelf tables → ∃ keyOf, KeysCompared tables keyOf ∧
      ∀ a b c, liveItem tables.1 a ≠ none → liveItem tables.1 b ≠ none → liveItem tables.1 c ≠ none →
        rowOrder tables b a = (rowOrder tables a b).map (fun order => -order) ∧
        (rowOrder tables a b = some 0 ↔ keyOf a = keyOf b) ∧
        (∀ x y, rowOrder tables a b = some x → rowOrder tables b c = some y → x ≤ 0 → y ≤ 0 →
          ∃ z, rowOrder tables a c = some z ∧ z ≤ 0 ∧ (x < 0 ∨ y < 0 → z < 0)) ∧
        pointerOrder tables (keyOf a) b = rowOrder tables a b := by
  refine ⟨?_, ?_⟩
  · intro calls database persisted
    obtain ⟨_, shelf, _, _, _, _, _, copies, _, _, shelved⟩ := persisted_holds persisted
    exact ⟨shelf + copies, shelved⟩
  · intro shelf tables shelved
    obtain ⟨keyOf, compared⟩ := shelved_compared shelved
    refine ⟨keyOf, compared, ?_⟩
    intro a b c liveA liveB liveC
    rw [compared.rows a b liveA liveB, compared.rows b a liveB liveA, compared.rows b c liveB liveC,
      compared.rows a c liveA liveC, compared.pointers _ b liveB]
    refine ⟨?_, ?_, ?_, rfl⟩
    · rw [text_order_swap]
      rfl
    · rw [Option.some.injEq]
      exact text_order_zero
    · rintro x y ⟨⟩ ⟨⟩ first second
      exact ⟨_, rfl, text_order_trans first second⟩

/-- The records of a key and of one that continues it. -/
theorem comparators_one_order_two_keys : ∃ database a b keyOf,
    Served [.set [107] [1, 2, 3], .set [107, 1] [4]] database ∧
    KeysCompared database.2 keyOf ∧ keyOf a ≠ keyOf b ∧ rowOrder database.2 a b = some (-1) ∧
    rowOrder database.2 b a = some 1 ∧ pointerOrder database.2 (keyOf a) b = some (-1) := by
  obtain ⟨first, served⟩ := first_value_served
  obtain ⟨_, database, _, ran, _⟩ := database_faithful 0 _ (.set [107, 1] [4]) first (served_holds served)
  have servedBoth := Served.called served ran
  obtain ⟨shelf, binds, _, _, _, _, copies, _, _, shelved⟩ := served_holds servedBoth
  have there : ∀ key value, replay noBindings [.set [107] [1, 2, 3], .set [107, 1] [4]] key = some value →
      ∃ holding ∈ shelf + copies, holding.key = key ∧ liveItem database.2.1 holding.rid ≠ none := by
    intro key value bound
    obtain ⟨holding, member, own, _⟩ := binds_present binds bound
    have inBoth : holding ∈ shelf + copies := Multiset.mem_add.mpr (.inl member)
    exact ⟨holding, inBoth, own, (shelved_live shelved).mpr (Multiset.mem_map_of_mem Holding.rid inBoth)⟩
  obtain ⟨a, isA, keyA, liveA⟩ := there [107] [1, 2, 3] (by decide)
  obtain ⟨b, isB, keyB, liveB⟩ := there [107, 1] [4] (by decide)
  have less := shelved_row_order shelved isA isB
  rw [keyA, keyB, show textOrder [107] [107, 1] = -1 by decide] at less
  obtain ⟨keyOf, compared, order⟩ := comparators_one_order.2 _ _ shelved
  obtain ⟨swapped, equal, _, agree⟩ := order a.rid b.rid b.rid liveA liveB liveB
  rw [less] at swapped equal agree
  have apart : keyOf a.rid ≠ keyOf b.rid := fun same => absurd (equal.mpr same) (by decide)
  exact ⟨database, a.rid, b.rid, keyOf, servedBoth, compared, apart, less, swapped, agree⟩

end MyJQL.DatabaseOwnership
