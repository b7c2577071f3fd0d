import MyJQL.BTreeModel

/-!
# The tree without a cache

Every function of the tree over an array of pages follows the same function over the pool.
-/

namespace MyJQL.BTreeUncached

open MyJQL.StateProgram
open MyJQL.ProgramSimulation
open MyJQL.PageStoreLogic (PagePtr)
open MyJQL.PagedPrograms
open MyJQL.TableModel
open MyJQL.BTreeModel

set_option autoImplicit false

/-- The tree over an array of pages, with the store of its callbacks. -/
abbrev ArrayIndex (Store : Type) := PageArray BNode × Store

variable {Store Value : Type} (addr parent : Int) (degree : Nat) (callbacks : Callbacks Store)

theorem follows_get_new_b_node : Follows mirror (getNewBNode : Program IndexPool Int) getNewBNode := by
  refine follows_bind (follows_fetch _) fun ctr => ?_
  refine follows_bind (follows_load _) fun control => ?_
  apply follows_ite
  · refine follows_bind (follows_fetch _) fun node => ?_
    refine follows_bind (follows_load _) fun page => ?_
    refine follows_bind (follows_amend _ _) fun _ => ?_
    refine follows_bind (follows_amend _ _) fun _ => ?_
    refine follows_bind (follows_unpin _) fun _ => ?_
    refine follows_bind (follows_amend _ _) fun _ => ?_
    apply follows_ite
    · refine follows_bind (follows_amend _ _) fun _ => ?_
      refine follows_bind (follows_unpin _) fun _ => ?_
      exact follows_pure _
    · refine follows_bind (follows_unpin _) fun _ => ?_
      exact follows_pure _
  · refine follows_bind (follows_unpin _) fun _ => ?_
    exact follows_pure _

theorem follows_link_free : Follows mirror (linkFree addr : Program IndexPool Unit) (linkFree addr) := by
  have finish : Follows mirror (do
      Paged.unpin 0
      let node ← Paged.fetch addr
      Paged.amend node (setNext (-1))
      Paged.unpin addr : Program IndexPool Unit) (do
      Paged.unpin 0
      let node ← Paged.fetch addr
      Paged.amend node (setNext (-1))
      Paged.unpin addr) := by
    refine follows_bind (follows_unpin _) fun _ => ?_
    refine follows_bind (follows_fetch _) fun node => ?_
    refine follows_bind (follows_amend _ _) fun _ => ?_
    exact follows_unpin _
  refine follows_bind (follows_fetch _) fun ctr => ?_
  refine follows_bind (follows_load _) fun control => ?_
  apply follows_ite
  · refine follows_bind (follows_amend _ _) fun _ => ?_
    refine follows_bind (follows_fetch _) fun tail => ?_
    refine follows_bind (follows_amend _ _) fun _ => ?_
    refine follows_bind (follows_unpin _) fun _ => ?_
    refine follows_bind (follows_amend _ _) fun _ => ?_
    exact finish
  · refine follows_bind (follows_amend _ _) fun _ => ?_
    exact finish

theorem follows_release_new_b_node :
    Follows mirror (releaseNewBNode addr : Program IndexPool Unit) (releaseNewBNode addr) := by
  refine follows_bind (follows_unpin _) fun _ => ?_
  refine follows_bind follows_file_length fun length => ?_
  apply follows_ite
  · exact follows_cut_last _
  · exact follows_link_free _

theorem follows_new_node : Follows mirror (newNode : Program IndexPool PagePtr) newNode := by
  refine follows_bind follows_get_new_b_node fun addr => ?_
  apply follows_ite
  · refine follows_bind follows_file_length fun length => ?_
    exact follows_fetch _
  · exact follows_fetch _

theorem follows_reparent :
    Follows mirror (reparent parent addr : Program IndexPool Unit) (reparent parent addr) := by
  refine follows_bind (follows_fetch _) fun son => ?_
  refine follows_bind (follows_amend _ _) fun _ => ?_
  exact follows_unpin _

theorem follows_reparent_all (child : Nat → Int) (count j : Nat) :
    Follows mirror (reparentAll parent child count j : Program IndexPool Unit)
      (reparentAll parent child count j) := by
  induction count generalizing j with
  | zero => exact follows_pure _
  | succ count ih =>
      refine follows_bind (follows_reparent _ _) fun _ => ?_
      exact ih (j + 1)

theorem follows_adopt (owner : PagePtr) (ch : Nat → Int) (count j : Nat) :
    Follows mirror (adopt owner ch count j : Program IndexPool Unit) (adopt owner ch count j) := by
  induction count generalizing j with
  | zero => exact follows_pure _
  | succ count ih =>
      refine follows_bind (follows_amend _ _) fun _ => ?_
      refine follows_bind (follows_reparent _ _) fun _ => ?_
      exact ih (j + 1)

theorem follows_shrink_root (node : PagePtr) :
    Follows mirror (shrinkRoot node : Program IndexPool Unit) (shrinkRoot node) := by
  refine follows_bind (follows_load _) fun page => ?_
  refine follows_bind (follows_fetch _) fun ctr => ?_
  refine follows_bind (follows_amend _ _) fun _ => ?_
  refine follows_bind (follows_unpin _) fun _ => ?_
  refine follows_bind (follows_release_new_b_node _) fun _ => ?_
  exact follows_reparent _ _

section Parts

theorem follows_index {program : Program IndexPool Value} {direct : Program (PageArray BNode) Value}
    (follows : Follows mirror program direct) :
    Follows (mirror.beside Store) (onIndex program) (onIndex direct) := follows_first follows

theorem follows_store (program : Program Store Value) :
    Follows (mirror.beside Store) (onStore program : Program (Index Store) Value) (onStore program) :=
  follows_second program

end Parts

theorem follows_fetch_root :
    Follows (mirror.beside Store) (fetchRoot : Program (Index Store) PagePtr) fetchRoot := by
  apply follows_index
  refine follows_bind (follows_fetch _) fun ctr => ?_
  refine follows_bind (follows_load _) fun control => ?_
  refine follows_bind (follows_unpin _) fun _ => ?_
  exact follows_fetch _

theorem follows_descend (compare : RID → Program Store Int) (node : PagePtr) :
    Follows (mirror.beside Store) (descend degree compare node : Program (Index Store) Place)
      (descend degree compare node) := by
  apply follows_loop
  intro node
  refine follows_bind (follows_index (follows_load _)) fun page => ?_
  refine follows_bind (follows_check _) fun _ => ?_
  refine follows_bind (follows_store _) fun found => ?_
  apply follows_ite
  · exact follows_pure _
  · refine follows_bind (follows_index (follows_unpin _)) fun _ => ?_
    refine follows_bind (follows_index (follows_fetch _)) fun next => ?_
    exact follows_pure _

theorem follows_b_tree_search (compare : RID → Program Store Int) :
    Follows (mirror.beside Store) (bTreeSearch degree compare : Program (Index Store) RID)
      (bTreeSearch degree compare) := by
  refine follows_bind follows_fetch_root fun node => ?_
  refine follows_bind (follows_index (follows_load _)) fun root => ?_
  apply follows_ite
  · refine follows_bind (follows_index (follows_unpin _)) fun _ => ?_
    exact follows_pure _
  · refine follows_bind (follows_descend _ _ _) fun place => ?_
    refine follows_bind (follows_index (follows_load _)) fun page => ?_
    refine follows_bind (follows_index (follows_unpin _)) fun _ => ?_
    exact follows_pure _

theorem follows_promote (handler : Bool) (rid : RID) :
    Follows (mirror.beside Store) (promote callbacks handler rid : Program (Index Store) RID)
      (promote callbacks handler rid) := by
  apply follows_ite
  · exact follows_store _
  · exact follows_pure _

theorem follows_grow_root (node y : PagePtr) (rid : RID) (handler : Bool) :
    Follows (mirror.beside Store) (growRoot callbacks node y rid handler : Program (Index Store) Unit)
      (growRoot callbacks node y rid handler) := by
  refine follows_bind (follows_index follows_new_node) fun p => ?_
  refine follows_bind (follows_index (follows_amend _ _)) fun _ => ?_
  refine follows_bind (follows_promote _ _ _) fun sep => ?_
  apply follows_index
  refine follows_bind (follows_amend _ _) fun _ => ?_
  refine follows_bind (follows_amend _ _) fun _ => ?_
  refine follows_bind (follows_amend _ _) fun _ => ?_
  refine follows_bind (follows_unpin _) fun _ => ?_
  refine follows_bind (follows_unpin _) fun _ => ?_
  refine follows_bind (follows_fetch _) fun ctr => ?_
  refine follows_bind (follows_amend _ _) fun _ => ?_
  refine follows_bind (follows_unpin _) fun _ => ?_
  exact follows_unpin _

theorem follows_split_loop (node y : PagePtr) (rid : RID) (handler : Bool) :
    Follows (mirror.beside Store) (splitLoop degree callbacks node y rid handler : Program (Index Store) Unit)
      (splitLoop degree callbacks node y rid handler) := by
  apply follows_loop
  rintro ⟨node, y, rid, handler⟩
  refine follows_bind (follows_index (follows_load _)) fun page => ?_
  apply follows_ite
  · refine follows_bind (follows_index (follows_fetch _)) fun p => ?_
    refine follows_bind (follows_index (follows_load _)) fun above => ?_
    refine follows_bind (follows_check _) fun _ => ?_
    refine follows_bind (follows_store _) fun i => ?_
    apply follows_ite
    · refine follows_bind (follows_index follows_new_node) fun tmp => ?_
      refine follows_bind (follows_promote _ _ _) fun sep => ?_
      refine follows_bind (follows_index (follows_amend _ _)) fun _ => ?_
      refine follows_bind (follows_index (follows_amend _ _)) fun _ => ?_
      refine follows_bind (follows_index (follows_load _)) fun left => ?_
      refine follows_bind (follows_index (follows_unpin _)) fun _ => ?_
      refine follows_bind (follows_index (follows_unpin _)) fun _ => ?_
      refine follows_bind (follows_index (follows_adopt _ _ _ _)) fun _ => ?_
      refine follows_bind (follows_index (follows_adopt _ _ _ _)) fun _ => ?_
      exact follows_pure _
    · refine follows_bind (follows_promote _ _ _) fun sep => ?_
      refine follows_bind (follows_index (follows_amend _ _)) fun _ => ?_
      refine follows_bind (follows_index (follows_unpin _)) fun _ => ?_
      refine follows_bind (follows_index (follows_unpin _)) fun _ => ?_
      refine follows_bind (follows_index (follows_unpin _)) fun _ => ?_
      exact follows_pure _
  · refine follows_bind (follows_grow_root _ _ _ _ _) fun _ => ?_
    exact follows_pure _

theorem follows_insert_at_leaf (rid : RID) (place : Place) :
    Follows (mirror.beside Store) (insertAtLeaf degree callbacks rid place : Program (Index Store) Unit)
      (insertAtLeaf degree callbacks rid place) := by
  refine follows_bind (follows_index (follows_load _)) fun page => ?_
  apply follows_ite
  · refine follows_bind (follows_index follows_new_node) fun y => ?_
    refine follows_bind (follows_index (follows_amend _ _)) fun _ => ?_
    refine follows_bind (follows_index (follows_amend _ _)) fun _ => ?_
    refine follows_bind (follows_index (follows_load _)) fun right => ?_
    exact follows_split_loop _ _ _ _ _ _
  · refine follows_bind (follows_index (follows_amend _ _)) fun _ => ?_
    exact follows_index (follows_unpin _)

theorem follows_b_tree_insert (rid : RID) :
    Follows (mirror.beside Store) (bTreeInsert degree callbacks rid : Program (Index Store) RID)
      (bTreeInsert degree callbacks rid) := by
  refine follows_bind follows_fetch_root fun node => ?_
  refine follows_bind (follows_descend _ _ _) fun place => ?_
  refine follows_bind (follows_insert_at_leaf _ _ _ _) fun _ => ?_
  exact follows_pure _

structure FollowsLevel (level : Level IndexPool Store) (direct : Level (PageArray BNode) Store) : Prop where
  borrowLeft : ∀ node sib p index, Follows (mirror.beside Store) (level.borrowLeft node sib p index)
    (direct.borrowLeft node sib p index)
  borrowRight : ∀ node sib p index, Follows (mirror.beside Store) (level.borrowRight node sib p index)
    (direct.borrowRight node sib p index)
  merge : ∀ first second rid, Follows (mirror.beside Store) (level.merge first second rid)
    (direct.merge first second rid)

theorem follows_renew_row (p : PagePtr) (i : Nat) (rid : RID) :
    Follows (mirror.beside Store) (renewRow callbacks p i rid : Program (Index Store) Unit)
      (renewRow callbacks p i rid) := by
  refine follows_bind (follows_index (follows_load _)) fun above => ?_
  refine follows_bind (follows_store _) fun _ => ?_
  refine follows_bind (follows_store _) fun sep => ?_
  exact follows_index (follows_amend _ _)

theorem follows_leaf_level :
    FollowsLevel (leafLevel degree callbacks : Level IndexPool Store) (leafLevel degree callbacks) := by
  constructor
  · intro node sib p index
    refine follows_bind (follows_index (follows_load _)) fun left => ?_
    refine follows_bind (follows_index (follows_amend _ _)) fun _ => ?_
    refine follows_bind (follows_index (follows_amend _ _)) fun _ => ?_
    exact follows_renew_row _ _ _ _
  · intro node sib p index
    refine follows_bind (follows_index (follows_load _)) fun right => ?_
    refine follows_bind (follows_index (follows_amend _ _)) fun _ => ?_
    refine follows_bind (follows_index (follows_amend _ _)) fun _ => ?_
    refine follows_bind (follows_index (follows_load _)) fun rest => ?_
    exact follows_renew_row _ _ _ _
  · intro first second rid
    apply follows_index
    refine follows_bind (follows_load _) fun source => ?_
    refine follows_bind (follows_load _) fun target => ?_
    refine follows_bind (follows_check _) fun _ => ?_
    refine follows_bind (follows_amend _ _) fun _ => ?_
    refine follows_bind (follows_amend _ _) fun _ => ?_
    refine follows_bind (follows_release_new_b_node _) fun _ => ?_
    exact follows_unpin _

theorem follows_inner_level :
    FollowsLevel (innerLevel degree : Level IndexPool Store) (innerLevel degree) := by
  constructor
  · intro node sib p index
    apply follows_index
    refine follows_bind (follows_load _) fun left => ?_
    refine follows_bind (follows_load _) fun above => ?_
    refine follows_bind (follows_amend _ _) fun _ => ?_
    refine follows_bind (follows_amend _ _) fun _ => ?_
    refine follows_bind (follows_amend _ _) fun _ => ?_
    exact follows_reparent _ _
  · intro node sib p index
    apply follows_index
    refine follows_bind (follows_load _) fun right => ?_
    refine follows_bind (follows_load _) fun above => ?_
    refine follows_bind (follows_amend _ _) fun _ => ?_
    refine follows_bind (follows_amend _ _) fun _ => ?_
    refine follows_bind (follows_amend _ _) fun _ => ?_
    exact follows_reparent _ _
  · intro first second between
    apply follows_index
    refine follows_bind (follows_load _) fun source => ?_
    refine follows_bind (follows_load _) fun target => ?_
    refine follows_bind (follows_check _) fun _ => ?_
    refine follows_bind (follows_amend _ _) fun _ => ?_
    refine follows_bind (follows_reparent_all _ _ _ _) fun _ => ?_
    refine follows_bind (follows_amend _ _) fun _ => ?_
    refine follows_bind (follows_release_new_b_node _) fun _ => ?_
    exact follows_unpin _

section Balancing

variable {level : Level IndexPool Store} {direct : Level (PageArray BNode) Store}

theorem follows_merge_siblings (levels : FollowsLevel level direct) (node p : PagePtr) (index : Nat) :
    Follows (mirror.beside Store) (mergeSiblings level node p index) (mergeSiblings direct node p index) := by
  refine follows_bind (follows_index (follows_load _)) fun above => ?_
  apply follows_ite
  · refine follows_bind (follows_index (follows_fetch _)) fun sib => ?_
    refine follows_bind (levels.merge _ _ _) fun _ => ?_
    exact follows_pure _
  · refine follows_bind (follows_index (follows_fetch _)) fun sib => ?_
    refine follows_bind (levels.merge _ _ _) fun _ => ?_
    exact follows_pure _

theorem follows_try_right (levels : FollowsLevel level direct) (node p : PagePtr) (index : Nat)
    (sibAddr : Option Int) :
    Follows (mirror.beside Store) (tryRight degree level node p index sibAddr)
      (tryRight degree direct node p index sibAddr) := by
  refine follows_bind (follows_index (follows_load _)) fun above => ?_
  apply follows_ite
  · refine follows_bind (follows_index (follows_fetch _)) fun sib => ?_
    refine follows_bind (follows_index (follows_load _)) fun right => ?_
    apply follows_ite
    · refine follows_bind (levels.borrowRight _ _ _ _) fun _ => ?_
      refine follows_bind (follows_index (follows_unpin _)) fun _ => ?_
      refine follows_bind (follows_index (follows_unpin _)) fun _ => ?_
      refine follows_bind (follows_index (follows_unpin _)) fun _ => ?_
      exact follows_pure _
    · refine follows_bind (follows_index (follows_unpin _)) fun _ => ?_
      exact follows_merge_siblings levels _ _ _
  · refine follows_bind (follows_of_option _) fun addr => ?_
    refine follows_bind (follows_index (follows_unpin _)) fun _ => ?_
    exact follows_merge_siblings levels _ _ _

theorem follows_redistribute (levels : FollowsLevel level direct) (node : PagePtr) :
    Follows (mirror.beside Store) (redistribute degree level node) (redistribute degree direct node) := by
  refine follows_bind (follows_index (follows_load _)) fun page => ?_
  refine follows_bind (follows_index (follows_fetch _)) fun p => ?_
  refine follows_bind (follows_index (follows_load _)) fun above => ?_
  refine follows_bind (follows_check _) fun _ => ?_
  refine follows_bind (follows_of_option _) fun index => ?_
  apply follows_ite
  · refine follows_bind (follows_index (follows_fetch _)) fun sib => ?_
    refine follows_bind (follows_index (follows_load _)) fun left => ?_
    apply follows_ite
    · refine follows_bind (levels.borrowLeft _ _ _ _) fun _ => ?_
      refine follows_bind (follows_index (follows_unpin _)) fun _ => ?_
      refine follows_bind (follows_index (follows_unpin _)) fun _ => ?_
      refine follows_bind (follows_index (follows_unpin _)) fun _ => ?_
      exact follows_pure _
    · refine follows_bind (follows_index (follows_unpin _)) fun _ => ?_
      exact follows_try_right _ levels _ _ _ _
  · exact follows_try_right _ levels _ _ _ _

end Balancing

theorem follows_settle (node : PagePtr) :
    Follows (mirror.beside Store)
      (settle degree node : Program (Index Store) (Option (PagePtr × RID))) (settle degree node) := by
  refine follows_bind (follows_index (follows_load _)) fun page => ?_
  apply follows_ite
  · apply follows_ite
    · exact follows_redistribute _ (follows_inner_level _) _
    · refine follows_bind (follows_index (follows_unpin _)) fun _ => ?_
      exact follows_pure _
  · apply follows_ite
    · refine follows_bind (follows_index (follows_shrink_root _)) fun _ => ?_
      exact follows_pure _
    · refine follows_bind (follows_index (follows_unpin _)) fun _ => ?_
      exact follows_pure _

theorem follows_merge_loop (handler : Bool) (merged : Option (PagePtr × RID)) :
    Follows (mirror.beside Store) (mergeLoop degree callbacks handler merged : Program (Index Store) Unit)
      (mergeLoop degree callbacks handler merged) := by
  apply follows_loop
  rintro ⟨handler, _ | ⟨node, rid⟩⟩
  · exact follows_pure _
  · refine follows_bind (follows_index (follows_load _)) fun page => ?_
    refine follows_bind (follows_check _) fun _ => ?_
    refine follows_bind (follows_store _) fun i => ?_
    have finish : Follows (mirror.beside Store) (do
        onIndex (Paged.amend node fun page => removeRow i (removeChild i page))
        let again ← settle degree node
        pure (.inl (false, again)) : Program (Index Store) (Bool × Option (PagePtr × RID) ⊕ Unit)) (do
        onIndex (Paged.amend node fun page => removeRow i (removeChild i page))
        let again ← settle degree node
        pure (.inl (false, again))) := by
      refine follows_bind (follows_index (follows_amend _ _)) fun _ => ?_
      refine follows_bind (follows_settle _ _) fun again => ?_
      exact follows_pure _
    apply follows_ite
    · refine follows_bind (follows_store _) fun _ => ?_
      exact finish
    · exact finish

theorem follows_delete_at_leaf (place : Place) :
    Follows (mirror.beside Store) (deleteAtLeaf degree callbacks place : Program (Index Store) Unit)
      (deleteAtLeaf degree callbacks place) := by
  refine follows_bind (follows_index (follows_amend _ _)) fun _ => ?_
  refine follows_bind (follows_index (follows_load _)) fun page => ?_
  apply follows_ite
  · exact follows_index (follows_unpin _)
  · apply follows_ite
    · refine follows_bind (follows_redistribute _ (follows_leaf_level _ _) _) fun merged => ?_
      exact follows_merge_loop _ _ _ _
    · exact follows_index (follows_unpin _)

theorem follows_b_tree_delete (rid : RID) :
    Follows (mirror.beside Store) (bTreeDelete degree callbacks rid : Program (Index Store) Unit)
      (bTreeDelete degree callbacks rid) := by
  refine follows_bind follows_fetch_root fun node => ?_
  refine follows_bind (follows_descend _ _ _) fun place => ?_
  apply follows_ite
  · exact follows_delete_at_leaf _ _ _
  · exact follows_pure _

/-- The same operation on the uncached array of the same pages: it returns the same value, makes the
same calls of the callbacks, and leaves the same pages. -/
def SameUncached (program : Program (Index Store) Value) (direct : Program (ArrayIndex Store) Value)
    (index : Index Store) : Prop :=
  ∀ value after, program index = some (value, after) → ∃ hints array,
    direct (uncached index.1 hints, index.2) = some (value, (array, after.2)) ∧ Mirrors after.1 [] array

theorem same_uncached {program : Program (Index Store) Value} {direct : Program (ArrayIndex Store) Value}
    {index : Index Store} (follows : Follows (mirror.beside Store) program direct)
    (invariant : BufferPoolInvariant.PoolInvariant index.1) : SameUncached program direct index := by
  intro value after ran
  obtain ⟨_, hints, moves⟩ := follows index value after invariant ran
  have start : (mirror.beside Store).stands index (hints ++ []) (uncached index.1 hints, index.2) := by
    rw [List.append_nil]
    exact ⟨uncached_mirrors _ _, rfl⟩
  obtain ⟨⟨array, side⟩, ranDirect, mirrors, same⟩ := moves [] _ start
  simp only at same
  subst same
  exact ⟨hints, array, ranDirect, mirrors⟩

end MyJQL.BTreeUncached
