import MyJQL.BTreeInvariants
import MyJQL.FetchTraces
import MyJQL.SearchTreeHeights
import Mathlib.Data.Nat.Log

/-!
# What a search in the tree costs

A search fetches the control block and then the pages of one branch, from the root to a leaf, each of them
once. Since the nodes are at least half full, a branch is no longer than the logarithm of the number of
keys.
-/

namespace MyJQL.BTreeSearchCost

open MyJQL.FileIo
open MyJQL.BufferPoolModel
open MyJQL.BufferPoolTransparency
open MyJQL.StateProgram
open MyJQL.PageStoreLogic
open MyJQL.ProgramSimulation
open MyJQL.PagedPrograms
open MyJQL.FetchTraces
open MyJQL.TableModel
open MyJQL.ArrayLoops
open MyJQL.SearchTrees
open MyJQL.SearchTreeHeights
open MyJQL.BTreeModel
open MyJQL.BTreeLayout
open MyJQL.BTreePages
open MyJQL.BTreeSearch
open MyJQL.BTreeRefinement
open MyJQL.BTreeInvariants

set_option autoImplicit false

variable {Key Store Value : Type}

section Erasure

variable (degree : Nat)

theorem follows_load_traced (pointer : PagePtr) : Follows erased (Paged.load pointer : Program IndexPool BNode)
    (Paged.load pointer) := follows_pages _

theorem follows_unpin_traced (addr : Int) : Follows erased (Paged.unpin addr : Program IndexPool Unit)
    (Paged.unpin addr) := follows_pages _

theorem follows_fetch_root_traced : Follows (erased.beside Store) (fetchRoot : Program (Index Store) PagePtr)
    fetchRoot := by
  refine follows_first (follows_bind (follows_fetch_traced _) fun ctr => ?_)
  refine follows_bind (follows_load_traced _) fun control => ?_
  refine follows_bind (follows_unpin_traced _) fun _ => ?_
  exact follows_fetch_traced _

theorem follows_descend_traced (compare : RID → Program Store Int) (node : PagePtr) :
    Follows (erased.beside Store) (descend degree compare node : Program (Index Store) Place)
      (descend degree compare node) := by
  apply follows_loop
  intro node
  refine follows_bind (follows_first (follows_load_traced _)) fun page => ?_
  refine follows_bind (follows_check _) fun _ => ?_
  refine follows_bind (follows_second _) fun found => ?_
  apply follows_ite
  · exact follows_pure _
  · refine follows_bind (follows_first (follows_unpin_traced _)) fun _ => ?_
    refine follows_bind (follows_first (follows_fetch_traced _)) fun next => ?_
    exact follows_pure _

theorem follows_search_traced (compare : RID → Program Store Int) :
    Follows (erased.beside Store) (bTreeSearch degree compare : Program (Index Store) RID)
      (bTreeSearch degree compare) := by
  refine follows_bind follows_fetch_root_traced fun node => ?_
  refine follows_bind (follows_first (follows_load_traced _)) fun root => ?_
  apply follows_ite
  · refine follows_bind (follows_first (follows_unpin_traced _)) fun _ => ?_
    exact follows_pure _
  · refine follows_bind (follows_descend_traced _ _ _) fun place => ?_
    refine follows_bind (follows_first (follows_load_traced _)) fun page => ?_
    refine follows_bind (follows_first (follows_unpin_traced _)) fun _ => ?_
    exact follows_pure _

end Erasure

section Node

variable {compare : RID → Program Store Int} {row : Nat → RID} {count : Nat} {page : BNode} {start final : Store}

/-- Whatever the comparator says, the binary search stays within the array. -/
theorem lower_bound_loop_inside {l r ans found : Int} (inside : 0 ≤ l ∧ r < count ∧ 0 ≤ ans ∧ ans ≤ count)
    (ran : lowerBoundLoop compare row l r ans start = some (found, final)) : 0 ≤ found ∧ found ≤ count := by
  refine loop_returns (fun (arg : Int × Int × Int) _ (outcome : Int × Store) =>
    0 ≤ arg.1 ∧ arg.2.1 < count ∧ 0 ≤ arg.2.2 ∧ arg.2.2 ≤ count → 0 ≤ outcome.1 ∧ outcome.1 ≤ count) ?_ ?_ ran inside
  · rintro ⟨l, r, ans⟩ start result after turn ⟨_, _, lower, upper⟩
    rw [lowerBoundTurn] at turn
    split_ifs at turn with more
    · obtain ⟨⟨order, between⟩, _, turn⟩ := Option.bind_eq_some_iff.mp turn
      dsimp only at turn
      split_ifs at turn <;> cases turn
    · cases turn
      exact ⟨lower, upper⟩
  · rintro ⟨l, r, ans⟩ start next after outcome turn earlier bounds
    obtain ⟨left, right, lower, upper⟩ : 0 ≤ l ∧ r < count ∧ 0 ≤ ans ∧ ans ≤ count := bounds
    rw [lowerBoundTurn] at turn
    split_ifs at turn with more
    · obtain ⟨⟨order, between⟩, _, turn⟩ := Option.bind_eq_some_iff.mp turn
      dsimp only at turn
      split_ifs at turn <;> cases turn <;> exact earlier (by dsimp only; omega)
    · cases turn

theorem locate_inside {i : Nat} {hit : Bool} (ran : locate compare page start = some ((i, hit), final)) :
    (if hit then i + 1 else i) ≤ page.n := by
  obtain ⟨⟨found, between⟩, search, rest⟩ := Option.bind_eq_some_iff.mp ran
  obtain ⟨⟨ans, _⟩, loops, ends⟩ := Option.bind_eq_some_iff.mp search
  cases ends
  have bounds : (0 : Int) ≤ 0 ∧ (page.n : Int) - 1 < page.n ∧ (0 : Int) ≤ page.n ∧ (page.n : Int) ≤ page.n := by omega
  have inside := lower_bound_loop_inside bounds loops
  dsimp only at rest inside
  split_ifs at rest with atEnd
  · cases rest
    rw [if_neg Bool.false_ne_true, atEnd]
  · obtain ⟨⟨order, _⟩, _, rest⟩ := Option.bind_eq_some_iff.mp rest
    cases rest
    split_ifs <;> omega

end Node

section Descent

variable {page : Int → BNode} {length : Int} {degree height : Nat} {tree : BTree Key height} {parent : Int}
  {compare : RID → Program Store Int} {fetched : List Int} {frame : Frame}

/-- Every node on the way down is fetched once, whatever the comparator says. -/
theorem allows_descend {post : Place → List Int → Prop} (holds : HoldsTree page height parent tree)
    (inFile : ∀ addr ∈ tree.addrs height, IsPageAddr addr ∧ addr < length)
    (continues : ∀ place below, Branch height tree (tree.addr height :: below) → post place (fetched ++ below)) :
    Allows (@Reading BNode Store page length) fetched (descend degree compare ⟨frame, tree.addr height⟩) post := by
  induction height generalizing parent fetched frame with
  | zero =>
      rw [holds_leaf] at holds
      rw [descend, loop_eq, descendTurn]
      simp only [bind_assoc, bind_ite, pure_bind, afterTurn]
      refine allows_seq (allows_load (allows_seq (allows_check fun _ => ?_)))
      refine allows_seq (allows_side fun _ found _ _ => ?_)
      dsimp only
      rw [Tree.addr_leaf, if_pos holds.leaf]
      exact allows_pure _ ((List.append_nil fetched) ▸ continues _ [] rfl)
  | succ height ih =>
      obtain ⟨own, kids⟩ := holds
      rw [descend, loop_eq, descendTurn]
      simp only [bind_assoc, bind_ite, pure_bind, afterTurn]
      refine allows_seq (allows_load (allows_seq (allows_check fun _ => allows_seq (allows_side ?_))))
      rintro store ⟨i, hit⟩ last ran
      dsimp only at ran ⊢
      rw [Tree.addr_inner] at ran ⊢
      have place := locate_inside ran
      rw [if_neg (by rw [own.leaf]; exact Bool.false_ne_true)]
      have inKids : (if hit then i + 1 else i) < tree.kids.length := by
        have count := own.n
        rw [List.length_map] at count
        have arity := tree.arity
        omega
      have child := own.kids _ (by rw [List.length_map]; exact inKids)
      rw [List.getElem_map] at child
      rw [child]
      have member := List.getElem_mem inKids
      generalize tree.kids[if hit then i + 1 else i] = kid at member ⊢
      have inside : ∀ addr ∈ Tree.addrs height kid, IsPageAddr addr ∧ addr < length := fun addr inKid =>
        inFile addr (Multiset.mem_cons_of_mem (mem_kid_addrs member inKid))
      obtain ⟨isPage, within⟩ := inside _ (Tree.addr_mem_addrs kid)
      refine allows_seq (allows_unpin (allows_seq (allows_fetch isPage within fun below => ?_)))
      refine ih (kids kid member) inside fun place rest branch => ?_
      rw [List.append_assoc, List.singleton_append]
      exact continues place _ ⟨kid, member, _, branch, rfl⟩

theorem allows_search (control : rootNode (page 0) = tree.addr height) (holds : HoldsTree page height parent tree)
    (sized : tree.Sized degree (min height 1) height)
    (inFile : ∀ addr, addr = 0 ∨ addr ∈ tree.addrs height → IsPageAddr addr ∧ addr < length) :
    Allows (@Reading BNode Store page length) [] (bTreeSearch degree compare)
      fun _ fetched => ∃ path, fetched = 0 :: path ∧ Branch height tree path := by
  obtain ⟨isPage, within⟩ := inFile 0 (.inl rfl)
  obtain ⟨rootIsPage, rootWithin⟩ := inFile _ (.inr (Tree.addr_mem_addrs tree))
  have fetches : Allows (@Reading BNode Store page length) [] (fetchRoot : Program (Traced IndexPool × Store) PagePtr)
      fun node fetched => node.addr = tree.addr height ∧ fetched = [0, tree.addr height] := by
    rw [fetchRoot, onIndex, Part.run_bind]
    refine allows_seq (allows_fetch isPage within fun ctr => ?_)
    rw [Part.run_bind]
    refine allows_seq (allows_load ?_)
    rw [Part.run_bind, control]
    refine allows_seq (allows_unpin (allows_fetch rootIsPage rootWithin fun frame => ⟨rfl, rfl⟩))
  rw [bTreeSearch]
  refine allows_seq (allows_mono fetches ?_)
  rintro ⟨frame, _⟩ _ ⟨rfl, rfl⟩
  refine allows_seq (allows_load (allows_ite (fun empty => ?_) fun _ => ?_))
  · refine allows_seq (allows_unpin (allows_pure _ ⟨_, rfl, ?_⟩))
    cases height with
    | zero => rfl
    | succ height =>
        have n := holds.1.n
        have least : min (height + 1) 1 ≤ tree.seps.length := sized.1.1
        rw [List.length_map] at n
        exact absurd (n.symm.trans empty) (by omega)
  · refine allows_seq (allows_descend holds (fun addr member => inFile addr (.inr member)) fun place below branch => ?_)
    exact allows_seq (allows_load (allows_seq (allows_unpin (allows_pure _ ⟨_, rfl, branch⟩))))

end Descent

section Keys

variable [LinearOrder Key] {items : List (Item RID Key)}

theorem rows_keys_nodup (sorted : Sorted items) : ((rowsOf items).map Prod.snd).Nodup := by
  have increasing : (rowsOf items).Pairwise fun first second => first.2 < second.2 := by
    rw [rowsOf, List.pairwise_filterMap]
    refine sorted.imp fun {first second} before row isRow other isOther => ?_
    cases first <;> cases isRow
    cases second <;> cases isOther
    exact row_before.mp before
  rw [List.Nodup, List.pairwise_map]
  exact increasing.imp ne_of_lt

end Keys

section Runs

variable [LinearOrder Key] (degree : Nat) (enough : 2 ≤ degree) (callbacks : Callbacks Store)
  (holds : Standing Key Store) (contract : ∀ records, Contract (holds records) records callbacks)

include enough contract

/-- A search in a reachable tree fetches the control block and the nodes of one branch, and nothing else. The height
of the tree, and with it what a search fetches, is logarithmic in the number of keys. -/
theorem search_fetches : ∀ bindings records index, Reached degree callbacks holds bindings records index →
    ∃ (height : Nat) (tree : BTree Key height) (keys : Finset Key), IsSearchTree degree (view index.1) tree ∧
      (∀ key, key ∈ keys ↔ bindings key ≠ none) ∧
      keys.card ≤ (2 * degree - 1) * (2 * degree) ^ height ∧ height ≤ Nat.log degree keys.card + 1 ∧
      ∀ key compare, ComparesKey holds records compare key → ∃ after path, Branch height tree path ∧
        bTreeSearch degree compare index = some ((bindings key).getD nothing, after) ∧
        bTreeSearch degree compare (Traced.started index.1, index.2) =
          some ((bindings key).getD nothing, (⟨after.1, 0 :: path⟩, after.2)) ∧
        (0 :: path).length ≤ Nat.log degree keys.card + 3 := by
  intro bindings records index reached
  have invariant := reached_invariant contract enough reached
  obtain ⟨_, _, store, stores, _, ⟨height, tree, free, shape, _, rfl, rfl⟩, table⟩ := invariant
  have isTree := index_search_tree stores shape
  have card : ((rowsOf (tree.items height)).map Prod.snd).toFinset.card = (rowsOf (tree.items height)).length := by
    rw [List.toFinset_card_of_nodup (rows_keys_nodup shape.sorted), List.length_map]
  have low : height ≤ Nat.log degree ((rowsOf (tree.items height)).map Prod.snd).toFinset.card + 1 := by
    cases height with
    | zero => exact Nat.zero_le _
    | succ height =>
        have rows := rows_below_root (Nat.min_eq_right (Nat.le_add_left 1 height) ▸ isTree.sized)
        have positive : 1 ≤ 2 * (degree - 1) := by omega
        have power : degree ^ height ≤ 2 * ((degree - 1) * degree ^ height) := by
          rw [← Nat.mul_assoc]
          exact Nat.le_mul_of_pos_left _ positive
        rw [card]
        exact Nat.succ_le_succ (Nat.le_log_of_pow_le (by omega) (power.trans rows))
  refine ⟨height, tree, _, isTree, fun key => ?_, ?_, low, fun key compare compares => ?_⟩
  · rw [List.mem_toFinset, List.mem_map]
    constructor
    · rintro ⟨⟨rid, _⟩, member, rfl⟩
      rw [(table.mem rid _).mp member]
      exact Option.some_ne_none _
    · intro bound
      obtain ⟨rid, bound⟩ := Option.ne_none_iff_exists'.mp bound
      exact ⟨(rid, key), (table.mem rid key).mpr bound, rfl⟩
  · rw [card]
    exact rows_most (by omega) isTree.sized
  · obtain ⟨after, ran, _⟩ := search_step compares (reached_invariant contract enough reached)
    obtain ⟨_, used, moves⟩ := follows_search_traced degree compare index _ after trivial ran
    obtain ⟨⟨⟨pages, fetched⟩, side⟩, traced, same, sideSame⟩ := moves [] (.started index.1, index.2) ⟨rfl, rfl⟩
    have same : pages = after.1 := same
    have sideSame : side = after.2 := sideSame
    subst same sideSame
    have inFile : ∀ addr, addr = 0 ∨ addr ∈ tree.addrs height → IsPageAddr addr ∧ addr < index.1.file.length := by
      rw [stores.length]
      rintro addr (rfl | inTree)
      · obtain ⟨nonneg, aligned, inside⟩ := control_in_file shape.ledger
        exact ⟨⟨nonneg, aligned⟩, inside⟩
      · obtain ⟨nonneg, aligned, inside, _, _⟩ := ledger_used shape.ledger inTree
        exact ⟨⟨nonneg, aligned⟩, inside⟩
    have reading : Reading (view index.1) index.1.file.length [] (Traced.started index.1, index.2) :=
      ⟨rfl, stores.invariant, rfl, fun _ _ => rfl⟩
    obtain ⟨_, ⟨trace, _⟩, path, sameTrace, branch⟩ :=
      allows_search isTree.root.symm isTree.nodes isTree.sized inFile _ reading _ _ traced
    obtain rfl : fetched = 0 :: path := trace.trans sameTrace
    refine ⟨after, path, branch, ran, traced, ?_⟩
    rw [List.length_cons, branch_length branch]
    exact Nat.succ_le_succ (Nat.succ_le_succ low)

end Runs

/-- In a tree with one record a search fetches three pages at most. -/
theorem search_fetches_first_row : ∃ (index after : Index Unit) (path : List Int),
    bTreeSearch 3 (addressCompare 256) (Traced.started index.1, index.2) =
      some (⟨256, 1⟩, (⟨after.1, 0 :: path⟩, after.2)) ∧ (0 :: path).length ≤ 3 := by
  obtain ⟨index, reached⟩ := first_row_reached
  obtain ⟨height, tree, keys, _, bound, _, _, searches⟩ :=
    search_fetches 3 (by decide) addressCallbacks addressed address_contract _ _ _ reached
  obtain ⟨after, path, _, _, ran, short⟩ := searches 256 _ (address_compares _ 256)
  have one : keys = {256} := Finset.ext fun key => by
    rw [bound, Finset.mem_singleton, Function.update_apply]
    split_ifs with same <;> simp [same]
  rw [one, Finset.card_singleton, Nat.log_one_right] at short
  exact ⟨index, after, path, ran, short⟩

end MyJQL.BTreeSearchCost
