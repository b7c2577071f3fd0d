import MyJQL.SearchTrees
import Mathlib.Algebra.BigOperators.Ring.List
import Mathlib.Algebra.Order.BigOperators.Group.List
import Mathlib.Algebra.Order.Group.Multiset
import Mathlib.Algebra.Order.Ring.Nat

/-!
# How high a search tree is

A tree whose nodes are at least half full is low: each level multiplies the rows by the degree. A branch
is what a search walks along.
-/

namespace MyJQL.SearchTreeHeights

open MyJQL.SearchTrees

set_option autoImplicit false

variable {Addr Ref Key : Type} {height degree least : Nat}

theorem rows_join_tail {seps : List (Ref × Key)} {parts : List (List (Item Ref Key))}
    (count : seps.length = parts.length) :
    (rowsOf (joinTail seps parts)).length = (parts.map fun part => (rowsOf part).length).sum := by
  induction parts generalizing seps with
  | nil =>
      rw [List.eq_nil_of_length_eq_zero count]
      rfl
  | cons part parts ih =>
      cases seps with
      | nil => cases count
      | cons sep seps =>
          rw [join_tail_cons, List.cons_append, rows_of_separator, rows_of_append, List.length_append,
            ih (Nat.succ.inj count), List.map_cons, List.sum_cons]

theorem rows_join {seps : List (Ref × Key)} {parts : List (List (Item Ref Key))}
    (arity : parts.length = seps.length + 1) :
    (rowsOf (join parts seps)).length = (parts.map fun part => (rowsOf part).length).sum := by
  cases parts with
  | nil => cases arity
  | cons part parts =>
      rw [join, rows_of_append, List.length_append, rows_join_tail (Nat.succ.inj arity).symm, List.map_cons,
        List.sum_cons]

theorem rows_inner (node : InnerNode Addr Ref Key (Tree Addr Ref Key height)) :
    (rowsOf (Tree.items (height + 1) node)).length =
      (node.kids.map fun kid => (rowsOf (Tree.items height kid)).length).sum := by
  rw [Tree.items_inner, rows_join (by rw [List.length_map, node.arity]), List.map_map]
  rfl

variable {tree : Tree Addr Ref Key height}

/-- Below the root every level has at least `degree` times as many nodes as the one above. -/
theorem rows_least (sized : tree.Sized degree (degree - 1) height) :
    (degree - 1) * degree ^ height ≤ (rowsOf (tree.items height)).length := by
  induction height with
  | zero =>
      rw [Nat.pow_zero, Nat.mul_one, Tree.items_leaf, rows_of_map_row]
      exact sized.1
  | succ height ih =>
      have arity := tree.arity
      have seps : degree - 1 ≤ tree.seps.length := sized.1.1
      have below := List.card_nsmul_le_sum _ _
        (List.forall_mem_map.mpr fun kid member => ih (sized.2 kid member))
      rw [List.length_map, nsmul_eq_mul, Nat.cast_id] at below
      rw [rows_inner]
      refine le_trans ?_ below
      calc (degree - 1) * degree ^ (height + 1)
          = degree * ((degree - 1) * degree ^ height) := by rw [Nat.pow_succ, Nat.mul_comm degree, Nat.mul_assoc]
        _ ≤ tree.kids.length * ((degree - 1) * degree ^ height) := Nat.mul_le_mul_right _ (by omega)

theorem rows_most (positive : 0 < degree) (sized : tree.Sized degree least height) :
    (rowsOf (tree.items height)).length ≤ (2 * degree - 1) * (2 * degree) ^ height := by
  induction height generalizing least with
  | zero =>
      rw [Nat.pow_zero, Nat.mul_one, Tree.items_leaf, rows_of_map_row]
      exact sized.2
  | succ height ih =>
      have arity := tree.arity
      have seps : tree.seps.length ≤ 2 * degree - 1 := sized.1.2
      have below := List.sum_le_card_nsmul _ _
        (List.forall_mem_map.mpr fun kid member => ih (sized.2 kid member))
      rw [List.length_map, nsmul_eq_mul, Nat.cast_id] at below
      rw [rows_inner]
      refine le_trans below ?_
      calc tree.kids.length * ((2 * degree - 1) * (2 * degree) ^ height)
          ≤ 2 * degree * ((2 * degree - 1) * (2 * degree) ^ height) := Nat.mul_le_mul_right _ (by omega)
        _ = (2 * degree - 1) * (2 * degree) ^ (height + 1) := by
            rw [Nat.pow_succ, Nat.mul_comm (2 * degree), Nat.mul_assoc]

theorem rows_below_root {root : Tree Addr Ref Key (height + 1)} (sized : root.Sized degree 1 (height + 1)) :
    2 * ((degree - 1) * degree ^ height) ≤ (rowsOf (root.items (height + 1))).length := by
  have arity := root.arity
  have seps : 1 ≤ root.seps.length := sized.1.1
  have below := List.card_nsmul_le_sum _ _
    (List.forall_mem_map.mpr fun kid member => rows_least (sized.2 kid member))
  rw [List.length_map, nsmul_eq_mul, Nat.cast_id] at below
  rw [rows_inner]
  exact le_trans (Nat.mul_le_mul_right _ (by omega)) below

theorem nodes_below {root : Tree Addr Ref Key (height + 1)} (seps : 1 ≤ root.seps.length)
    (each : ∀ kid ∈ root.kids,
      (degree - 1) * ((kid.addrs height).card + 1) ≤ 2 * (rowsOf (kid.items height)).length) :
    (degree - 1) * ((root.addrs (height + 1)).card + 1) ≤ 2 * (rowsOf (root.items (height + 1))).length := by
  have arity := root.arity
  have kids : (root.kids.map fun kid => (kid.addrs height).card + 1).sum =
      (root.kids.map fun kid => (kid.addrs height).card).sum + root.kids.length := by
    rw [List.sum_map_add]
    simp
  have nodes : (root.addrs (height + 1)).card + 1 ≤ (root.kids.map fun kid => (kid.addrs height).card + 1).sum := by
    have below : (root.kids.map (Tree.addrs height)).sum.card =
        (root.kids.map fun kid => (kid.addrs height).card).sum :=
      (map_list_sum Multiset.cardHom _).trans (congrArg List.sum List.map_map)
    rw [Tree.addrs_inner, Multiset.card_cons, below, kids]
    omega
  calc (degree - 1) * ((root.addrs (height + 1)).card + 1)
      ≤ (degree - 1) * (root.kids.map fun kid => (kid.addrs height).card + 1).sum := Nat.mul_le_mul_left _ nodes
    _ = (root.kids.map fun kid => (degree - 1) * ((kid.addrs height).card + 1)).sum := by rw [List.sum_map_mul_left]
    _ ≤ (root.kids.map fun kid => 2 * (rowsOf (kid.items height)).length).sum := List.sum_le_sum each
    _ = 2 * (rowsOf (root.items (height + 1))).length := by rw [List.sum_map_mul_left, rows_inner]

/-- Half of the nodes are leaves at least, and a leaf has `degree - 1` rows at least. -/
theorem nodes_most (enough : 2 ≤ degree) (sized : tree.Sized degree (degree - 1) height) :
    (degree - 1) * ((tree.addrs height).card + 1) ≤ 2 * (rowsOf (tree.items height)).length := by
  induction height with
  | zero =>
      rw [Tree.addrs_leaf, Multiset.card_singleton, Tree.items_leaf, rows_of_map_row, Nat.mul_comm]
      exact Nat.mul_le_mul_left 2 sized.1
  | succ height ih =>
      have seps : 1 ≤ tree.seps.length := le_trans (by omega) sized.1.1
      exact nodes_below seps fun kid member => ih (sized.2 kid member)

theorem nodes_of_rows {root : Tree Addr Ref Key height} (enough : 2 ≤ degree)
    (sized : root.Sized degree (min height 1) height) :
    (root.addrs height).card + 1 ≤ max 2 (2 * (rowsOf (root.items height)).length / (degree - 1)) := by
  cases height with
  | zero =>
      rw [Tree.addrs_leaf, Multiset.card_singleton]
      exact le_max_left _ _
  | succ height =>
      have seps : 1 ≤ root.seps.length := le_trans (by omega) sized.1.1
      refine le_trans ?_ (le_max_right _ _)
      rw [Nat.le_div_iff_mul_le (by omega), Nat.mul_comm]
      exact nodes_below seps fun kid member => nodes_most enough (sized.2 kid member)

def Branch : (height : Nat) → Tree Addr Ref Key height → List Addr → Prop
  | 0, (leaf : LeafNode Addr Ref Key), path => path = [leaf.addr]
  | height + 1, (node : InnerNode Addr Ref Key (Tree Addr Ref Key height)), path =>
      ∃ kid ∈ node.kids, ∃ rest, Branch height kid rest ∧ path = node.addr :: rest

theorem branch_length {path : List Addr} (branch : Branch height tree path) : path.length = height + 1 := by
  induction height generalizing path with
  | zero =>
      rw [show path = [tree.addr] from branch]
      rfl
  | succ height ih =>
      obtain ⟨kid, _, rest, below, rfl⟩ := branch
      rw [List.length_cons, ih below]

end MyJQL.SearchTreeHeights
