import MyJQL.BTreeLayout

/-!
# Editing a node

What each edit of a page does to the rows and the children that the page holds. The edits of the
source are loops over arrays; here they become cuts and joins of lists.
-/

namespace MyJQL.BTreeEdits

open MyJQL.ArrayLoops
open MyJQL.TableModel
open MyJQL.BTreeModel
open MyJQL.BTreeLayout

set_option autoImplicit false

variable {page other : BNode} {leaf : Bool} {parent addr : Int} {rows front back : List RID}
  {kids before behind : List Int} {rid : RID} {degree : Nat}

theorem holds_insert_row (holds : HoldsNode page leaf parent (front ++ back) kids) :
    HoldsNode (insertRow front.length rid page) leaf parent (front ++ rid :: back) kids := by
  have n := holds.n
  refine ⟨?_, holds.leaf, holds.parent, ?_, holds.kids⟩
  · simp only [BTreeModel.insertRow, n, List.length_append, List.length_cons]
    omega
  · apply reads_congr (reads_inserted holds.rows)
    intro j inside
    apply shift_up_inserted
    rw [n]
    simp only [List.length_append, List.length_cons] at *
    omega

theorem holds_insert_child (holds : HoldsNode page leaf parent rows (before ++ behind))
    (arity : before.length + behind.length = rows.length + 1) :
    HoldsNode (insertChild before.length addr page) leaf parent rows (before ++ addr :: behind) := by
  have n := holds.n
  refine ⟨n, holds.leaf, holds.parent, holds.rows, ?_⟩
  apply reads_congr (reads_inserted holds.kids)
  intro j inside
  apply shift_up_inserted
  rw [n]
  simp only [List.length_append, List.length_cons] at *
  omega

theorem reads_take {Entry : Type} {array : Nat → Entry} {list : List Entry} (count : Nat)
    (reads : Reads array list) : Reads array (list.take count) := by
  rw [← List.take_append_drop count list] at reads
  exact reads_front reads

theorem holds_split_left (holds : HoldsNode page leaf parent (front ++ back) kids)
    (full : front.length + back.length = 2 * degree - 1) {n : Nat} (few : n ≤ degree) :
    HoldsNode (splitLeft degree front.length rid n page) leaf parent
      ((front ++ rid :: back).take n) kids := by
  refine ⟨?_, holds.leaf, holds.parent, ?_, holds.kids⟩
  · simp only [splitLeft, List.length_take, List.length_append, List.length_cons]
    omega
  · have reads : Reads (inserted page.rowPtr front.length rid) ((front ++ rid :: back).take n) :=
      reads_take n (reads_inserted holds.rows)
    apply reads_congr reads
    intro j inside
    rw [List.length_take] at inside
    simp only [splitLeft]
    split_ifs with left
    · exact shift_up_inserted (by omega)
    · rw [inserted, if_pos (by omega)]

theorem split_left_cut (holds : HoldsNode page leaf parent (front ++ back) kids)
    (full : front.length + back.length = 2 * degree - 1) (positive : 0 < degree) (n : Nat) {first : RID}
    {rest : List RID} (cut : (front ++ rid :: back).drop (degree - 1) = first :: rest) :
    (splitLeft degree front.length rid n page).rowPtr (degree - 1) = first := by
  have bound : degree - 1 < (front ++ rid :: back).length := by
    simp only [List.length_append, List.length_cons]
    omega
  have entry := reads_inserted (x := rid) holds.rows (degree - 1) bound
  rw [List.drop_eq_getElem_cons bound] at cut
  rw [(List.cons.inj cut).1] at entry
  rw [← entry]
  simp only [splitLeft]
  split_ifs with left
  · exact shift_up_inserted (Nat.le_refl _)
  · rw [inserted]
    split_ifs
    · rfl
    · omega
    · omega

theorem holds_split_right (holds : HoldsNode page leaf parent (front ++ back) kids)
    (full : front.length + back.length = 2 * degree - 1) (positive : 0 < degree) :
    HoldsNode (splitRight degree front.length rid page other) leaf parent
      ((front ++ rid :: back).drop degree) [] := by
  refine ⟨?_, holds.leaf, holds.parent, ?_, fun j inside => by cases inside⟩
  · simp only [splitRight, List.length_drop, List.length_append, List.length_cons]
    omega
  · intro j inside
    rw [List.length_drop] at inside
    rw [List.getElem_drop, ← reads_inserted (x := rid) holds.rows (degree + j) (by omega)]
    simp only [List.length_append, List.length_cons] at inside
    simp only [splitRight]
    split_ifs with left
    · rw [copy_entries_eq, if_pos (by omega), inserted, if_neg (by omega), if_neg (by omega)]
      congr 1
      omega
    · rw [weave_inserted (by omega) (by omega) (by omega)]
      congr 1

theorem reads_children_with (holds : HoldsNode page leaf parent rows (before ++ behind))
    (full : rows.length = 2 * degree - 1) (positive : 0 < degree)
    (arity : before.length + behind.length = rows.length + 1) :
    Reads (childrenWith degree before.length addr page) (before ++ addr :: behind) := by
  apply reads_congr (reads_inserted holds.kids)
  intro j inside
  simp only [List.length_append, List.length_cons] at inside
  rw [childrenWith, weave_inserted (by omega) (by omega) (by omega)]
  congr 1
  omega

theorem holds_remove_row (holds : HoldsNode page leaf parent (front ++ rid :: back) kids) :
    HoldsNode (removeRow front.length page) leaf parent (front ++ back) kids := by
  have n := holds.n
  simp only [List.length_append, List.length_cons] at n
  refine ⟨?_, holds.leaf, holds.parent, ?_, holds.kids⟩
  · simp only [removeRow, n, List.length_append]
    omega
  · apply reads_congr (reads_removed holds.rows)
    intro j inside
    apply shift_down_removed
    rw [n]
    simp only [List.length_append] at inside
    omega

theorem holds_remove_child {i : Nat} (holds : HoldsNode page leaf parent rows (before ++ addr :: behind))
    (arity : before.length + behind.length = rows.length) (place : before.length = i + 1) :
    HoldsNode (removeChild i page) leaf parent rows (before ++ behind) := by
  have n := holds.n
  refine ⟨n, holds.leaf, holds.parent, holds.rows, ?_⟩
  apply reads_congr (reads_removed holds.kids)
  intro j inside
  have count : page.n - 1 - i = page.n - before.length := by omega
  simp only [removeChild, count, ← place]
  apply shift_down_removed
  rw [n]
  simp only [List.length_append] at inside
  omega

theorem holds_drop_row (holds : HoldsNode page leaf parent (rid :: rows) kids) :
    HoldsNode (dropRow page) leaf parent rows kids := by
  have removed : HoldsNode (removeRow ([] : List RID).length page) leaf parent ([] ++ rows) kids :=
    holds_remove_row holds
  exact removed

theorem holds_drop_child (holds : HoldsNode page leaf parent rows (addr :: kids))
    (arity : kids.length = rows.length) : HoldsNode (dropChild page) leaf parent rows kids := by
  have n := holds.n
  have reads : Reads (removed page.child ([] : List Int).length) ([] ++ kids) := reads_removed holds.kids
  refine ⟨n, holds.leaf, holds.parent, holds.rows, ?_⟩
  apply reads_congr reads
  intro j inside
  have inside : j < kids.length := inside
  have shifted : shiftDown (page.n - 0) 0 page.child j = removed page.child 0 j :=
    shift_down_removed (by omega)
  exact shifted

theorem holds_set_count {lastKids : List Int} {n : Nat}
    (holds : HoldsNode page leaf parent (front ++ back) (kids ++ lastKids)) (count : n = front.length) :
    HoldsNode (setCount n page) leaf parent front kids :=
  ⟨count, holds.leaf, holds.parent, reads_front holds.rows, reads_front holds.kids⟩

theorem holds_set_row (other : RID) (holds : HoldsNode page leaf parent (front ++ rid :: back) kids) :
    HoldsNode (setRow front.length other page) leaf parent (front ++ other :: back) kids := by
  have n := holds.n
  refine ⟨?_, holds.leaf, holds.parent, ?_, holds.kids⟩
  · simpa [setRow] using n
  · intro j inside
    simp only [setRow, Function.update_apply]
    have bound : j < (front ++ rid :: back).length := by simpa using inside
    split_ifs with here
    · simp [here]
    · rw [holds.rows j bound]
      by_cases left : j < front.length
      · rw [List.getElem_append_left left, List.getElem_append_left left]
      · rw [List.getElem_append_right (by omega), List.getElem_append_right (by omega), List.getElem_cons,
          List.getElem_cons, dif_neg (by omega), dif_neg (by omega)]

theorem holds_push_row (rid : RID) (holds : HoldsNode page leaf parent rows kids) :
    HoldsNode (pushRow rid page) leaf parent (rid :: rows) kids := by
  have inserted : HoldsNode (BTreeModel.insertRow ([] : List RID).length rid page) leaf parent
      ([] ++ rid :: rows) kids := holds_insert_row holds
  exact inserted

theorem holds_push_child (addr : Int) (holds : HoldsNode page leaf parent rows kids)
    (arity : kids.length = rows.length + 1) :
    HoldsNode (pushChild addr page) leaf parent rows (addr :: kids) := by
  have inserted : HoldsNode (insertChild ([] : List Int).length addr page) leaf parent rows
      ([] ++ addr :: kids) := holds_insert_child holds (by simpa using arity)
  exact inserted

theorem reads_snoc {Entry : Type} {array : Nat → Entry} {list : List Entry} {x : Entry}
    (reads : Reads array list) : Reads (Function.update array list.length x) (list ++ [x]) := by
  apply reads_append
  · exact reads_congr reads fun j inside => Function.update_of_ne (by omega) _ _
  · intro j inside
    obtain rfl : j = 0 := by simpa using inside
    simp

theorem holds_add_row (rid : RID) (holds : HoldsNode page leaf parent rows kids) :
    HoldsNode (addRow rid page) leaf parent (rows ++ [rid]) kids := by
  have n := holds.n
  refine ⟨by simp [addRow, n], holds.leaf, holds.parent, ?_, holds.kids⟩
  have reads : Reads (Function.update page.rowPtr rows.length rid) (rows ++ [rid]) := reads_snoc holds.rows
  rw [← n] at reads
  exact reads

theorem holds_add_child (addr : Int) (holds : HoldsNode page leaf parent rows kids)
    (arity : kids.length = rows.length + 1) :
    HoldsNode (addChild addr page) leaf parent rows (kids ++ [addr]) := by
  have n := holds.n
  refine ⟨n, holds.leaf, holds.parent, holds.rows, ?_⟩
  have reads : Reads (Function.update page.child kids.length addr) (kids ++ [addr]) := reads_snoc holds.kids
  rw [arity, ← n] at reads
  exact reads

theorem reads_copied {Entry : Type} {array source : Nat → Entry} {list more : List Entry}
    (reads : Reads array list) (copied : Reads source more) :
    Reads (copyEntries source 0 list.length more.length array) (list ++ more) := by
  apply reads_append
  · apply reads_congr reads
    intro j inside
    rw [copy_entries_eq, if_neg (by omega)]
  · intro j inside
    rw [copy_entries_eq, if_pos (by omega), ← copied j inside]
    congr 1
    omega

section Append

variable {sourceLeaf : Bool} {sourceParent : Int} {sourceRows : List RID} {sourceKids : List Int}

theorem holds_append_rows (holds : HoldsNode page leaf parent rows kids)
    (source : HoldsNode other sourceLeaf sourceParent sourceRows sourceKids) :
    HoldsNode (appendRows other page) leaf parent (rows ++ sourceRows) kids := by
  have reads := reads_copied holds.rows source.rows
  rw [← holds.n, ← source.n] at reads
  exact ⟨by simp [appendRows, holds.n, source.n], holds.leaf, holds.parent, reads, holds.kids⟩

theorem holds_append_children (holds : HoldsNode page leaf parent rows kids)
    (source : HoldsNode other sourceLeaf sourceParent sourceRows sourceKids)
    (arity : kids.length = rows.length) (sourceArity : sourceKids.length = sourceRows.length + 1) :
    HoldsNode (appendChildren other page) leaf parent rows (kids ++ sourceKids) := by
  have reads := reads_copied holds.kids source.kids
  rw [arity, sourceArity, ← holds.n, ← source.n] at reads
  exact ⟨holds.n, holds.leaf, holds.parent, holds.rows, reads⟩

end Append

end MyJQL.BTreeEdits
