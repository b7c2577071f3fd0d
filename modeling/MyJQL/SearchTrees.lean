import Mathlib.Data.List.Basic
import Mathlib.Data.Multiset.MapFold
import Mathlib.Data.Multiset.AddSub
import Mathlib.Logic.Relation
import Mathlib.Order.Defs.LinearOrder
import Mathlib.Algebra.Order.Group.Multiset
import Mathlib.Tactic.Abel
import Mathlib.Tactic.Order

/-!
# Search trees with separators

A search tree keeps its rows in leaves and puts separators between its subtrees. Read from left to
right it is one sequence of rows and separators, and every question of order is a question about
that sequence: splitting, merging and rotating inner nodes leave it as it is.

Trees are indexed by their height, so all leaves are at one depth by construction. Nothing here
knows how nodes are stored.
-/

namespace MyJQL.SearchTrees

set_option autoImplicit false

variable {Ref Key : Type}

inductive Item (Ref Key : Type) where
  | row (entry : Ref × Key)
  | separator (entry : Ref × Key)

namespace Item

def key : Item Ref Key → Key
  | row entry => entry.2
  | separator entry => entry.2

@[simp] theorem key_row (entry : Ref × Key) : (row entry).key = entry.2 := rfl
@[simp] theorem key_separator (entry : Ref × Key) : (separator entry).key = entry.2 := rfl

def entry : Item Ref Key → Ref × Key
  | row entry => entry
  | separator entry => entry

def asRow : Item Ref Key → Option (Ref × Key)
  | row entry => some entry
  | separator _ => none

def asSeparator : Item Ref Key → Option (Ref × Key)
  | row _ => none
  | separator entry => some entry

end Item

def rowsOf (items : List (Item Ref Key)) : List (Ref × Key) := items.filterMap Item.asRow

def separatorsOf (items : List (Item Ref Key)) : List (Ref × Key) := items.filterMap Item.asSeparator

section Projections

variable (entry : Ref × Key) (items front back : List (Item Ref Key))

@[simp] theorem rows_of_nil : rowsOf ([] : List (Item Ref Key)) = [] := rfl
@[simp] theorem rows_of_row : rowsOf (.row entry :: items) = entry :: rowsOf items := rfl
@[simp] theorem rows_of_separator : rowsOf (.separator entry :: items) = rowsOf items := rfl
@[simp] theorem rows_of_append : rowsOf (front ++ back) = rowsOf front ++ rowsOf back := by
  simp [rowsOf]

@[simp] theorem separators_of_nil : separatorsOf ([] : List (Item Ref Key)) = [] := rfl
@[simp] theorem separators_of_row : separatorsOf (.row entry :: items) = separatorsOf items := rfl
@[simp] theorem separators_of_separator :
    separatorsOf (.separator entry :: items) = entry :: separatorsOf items := rfl
@[simp] theorem separators_of_append :
    separatorsOf (front ++ back) = separatorsOf front ++ separatorsOf back := by
  simp [separatorsOf]

@[simp] theorem rows_of_map_row (rows : List (Ref × Key)) : rowsOf (rows.map .row) = rows := by
  induction rows with
  | nil => rfl
  | cons first rest ih => simp [ih]

@[simp] theorem separators_of_map_row (rows : List (Ref × Key)) :
    separatorsOf (rows.map .row) = [] := by
  induction rows with
  | nil => rfl
  | cons first rest ih => simp [ih]

theorem mem_rows_of : entry ∈ rowsOf items ↔ .row entry ∈ items := by
  induction items with
  | nil => simp
  | cons item rest ih => cases item <;> simp [ih]

theorem mem_separators_of : entry ∈ separatorsOf items ↔ .separator entry ∈ items := by
  induction items with
  | nil => simp
  | cons item rest ih => cases item <;> simp [ih]

end Projections

section Moves

/-- A separator is dropped, or put between two neighbouring rows with the key of the second. -/
inductive SeparatorStep : List (Item Ref Key) → List (Item Ref Key) → Prop
  | drop (front : List (Item Ref Key)) (entry : Ref × Key) (back : List (Item Ref Key)) :
      SeparatorStep (front ++ .separator entry :: back) (front ++ back)
  | add (front : List (Item Ref Key)) (first second entry : Ref × Key) (back : List (Item Ref Key))
      (copied : entry.2 = second.2) :
      SeparatorStep (front ++ .row first :: .row second :: back)
        (front ++ .row first :: .separator entry :: .row second :: back)

abbrev Reseparated : List (Item Ref Key) → List (Item Ref Key) → Prop :=
  Relation.ReflTransGen SeparatorStep

variable {items changed front back : List (Item Ref Key)}

theorem separator_step_inside (step : SeparatorStep items changed) :
    SeparatorStep (front ++ items ++ back) (front ++ changed ++ back) := by
  cases step with
  | drop before entry behind =>
      have step := SeparatorStep.drop (front ++ before) entry (behind ++ back)
      simpa using step
  | add before first second entry behind copied =>
      have step := SeparatorStep.add (front ++ before) first second entry (behind ++ back) copied
      simpa using step

theorem reseparated_inside (steps : Reseparated items changed) :
    Reseparated (front ++ items ++ back) (front ++ changed ++ back) :=
  steps.lift (fun middle => front ++ middle ++ back) fun _ _ => separator_step_inside

theorem separator_moved {first second old : Ref × Key} {before behind : List (Item Ref Key)} (copy : Ref)
    (same : before ++ behind = front ++ .row first :: .row second :: back) :
    Reseparated (before ++ .separator old :: behind)
      (front ++ .row first :: .separator (copy, second.2) :: .row second :: back) := by
  have dropped := SeparatorStep.drop before old behind
  rw [same] at dropped
  exact (Relation.ReflTransGen.single dropped).tail (SeparatorStep.add front first second _ back rfl)

theorem separator_step_rows (step : SeparatorStep items changed) : rowsOf changed = rowsOf items := by
  cases step <;> simp

theorem reseparated_rows (steps : Reseparated items changed) : rowsOf changed = rowsOf items := by
  induction steps with
  | refl => rfl
  | tail _ step ih => rw [separator_step_rows step, ih]

end Moves

section Order

variable [LinearOrder Key]

/-- Keys increase, except that a separator may have the key of a row behind it. -/
def Before : Item Ref Key → Item Ref Key → Prop
  | .row first, .row second => first.2 < second.2
  | .row first, .separator second => first.2 < second.2
  | .separator first, .row second => first.2 ≤ second.2
  | .separator first, .separator second => first.2 < second.2

abbrev Sorted (items : List (Item Ref Key)) : Prop := items.Pairwise Before

theorem before_le {first second : Item Ref Key} (before : Before first second) :
    first.key ≤ second.key := by
  cases first <;> cases second <;> simp only [Before, Item.key] at * <;> order

theorem row_before {entry : Ref × Key} {item : Item Ref Key} :
    Before (.row entry) item ↔ entry.2 < item.key := by
  cases item <;> rfl

theorem before_separator {entry : Ref × Key} {item : Item Ref Key} :
    Before item (.separator entry) ↔ item.key < entry.2 := by
  cases item <;> rfl

def insertRow (entry : Ref × Key) : List (Item Ref Key) → List (Item Ref Key)
  | [] => [.row entry]
  | item :: rest =>
      if item.key ≤ entry.2 then item :: insertRow entry rest else .row entry :: item :: rest

variable {entry : Ref × Key} {items changed front back : List (Item Ref Key)}

theorem insert_row_front (before : ∀ item ∈ front, Before item (.row entry)) :
    insertRow entry (front ++ back) = front ++ insertRow entry back := by
  induction front with
  | nil => rfl
  | cons item rest ih =>
      have lower : item.key ≤ entry.2 := before_le (before item List.mem_cons_self)
      rw [List.cons_append, insertRow, if_pos lower,
        ih fun other member => before other (List.mem_cons_of_mem _ member), List.cons_append]

theorem insert_row_back (behind : ∀ item ∈ back, Before (.row entry) item) :
    insertRow entry (front ++ back) = insertRow entry front ++ back := by
  induction front with
  | nil =>
      cases back with
      | nil => rfl
      | cons item rest =>
          have later := row_before.mp (behind item List.mem_cons_self)
          rw [List.nil_append]
          simp only [insertRow, if_neg (not_le_of_gt later), List.cons_append, List.nil_append]
  | cons item rest ih =>
      rw [List.cons_append, insertRow, insertRow, ih]
      split_ifs <;> rfl

theorem rows_of_insert_row : (rowsOf (insertRow entry items)).Perm (entry :: rowsOf items) := by
  induction items with
  | nil => exact List.Perm.refl _
  | cons item rest ih =>
      rw [insertRow]
      split_ifs
      · cases item with
        | row other =>
            simp only [rows_of_row]
            exact (ih.cons other).trans (List.Perm.swap _ _ _)
        | separator other => simpa using ih
      · exact List.Perm.refl _

theorem mem_insert_row {item : Item Ref Key} (member : item ∈ insertRow entry items) :
    item = .row entry ∨ item ∈ items := by
  induction items with
  | nil => exact .inl (List.mem_singleton.mp member)
  | cons first rest ih =>
      rw [insertRow] at member
      split_ifs at member
      · rcases List.mem_cons.mp member with rfl | later
        · exact .inr List.mem_cons_self
        · exact (ih later).imp_right (List.mem_cons_of_mem _)
      · rcases List.mem_cons.mp member with rfl | later
        · exact .inl rfl
        · exact .inr later

theorem insert_row_sorted (sorted : Sorted items) (absent : ∀ other ∈ rowsOf items, other.2 ≠ entry.2) :
    Sorted (insertRow entry items) := by
  induction items with
  | nil => exact List.pairwise_singleton _ _
  | cons item rest ih =>
      obtain ⟨head, tail⟩ := List.pairwise_cons.mp sorted
      have restAbsent : ∀ other ∈ rowsOf rest, other.2 ≠ entry.2 := by
        intro other member
        exact absent other ((mem_rows_of _ _).mpr (List.mem_cons_of_mem _ ((mem_rows_of _ _).mp member)))
      rw [insertRow]
      split_ifs with lower
      · refine List.pairwise_cons.mpr ⟨fun other member => ?_, ih tail restAbsent⟩
        rcases mem_insert_row member with rfl | old
        · cases item with
          | row first => exact lt_of_le_of_ne lower (absent first (by simp))
          | separator first => exact lower
        · exact head other old
      · refine List.pairwise_cons.mpr ⟨fun other member => ?_, sorted⟩
        apply row_before.mpr
        rcases List.mem_cons.mp member with rfl | later
        · order
        · have := before_le (head other later)
          order

def eraseKey (key : Key) : List (Item Ref Key) → List (Item Ref Key)
  | [] => []
  | .row entry :: rest => if entry.2 = key then eraseKey key rest else .row entry :: eraseKey key rest
  | .separator entry :: rest => .separator entry :: eraseKey key rest

theorem erase_key_append (key : Key) (front back : List (Item Ref Key)) :
    eraseKey key (front ++ back) = eraseKey key front ++ eraseKey key back := by
  induction front with
  | nil => rfl
  | cons item rest ih =>
      cases item with
      | row other =>
          simp only [List.cons_append, eraseKey, ih]
          split_ifs <;> rfl
      | separator other => simp only [List.cons_append, eraseKey, ih]

theorem erase_key_absent {key : Key} (absent : ∀ other ∈ rowsOf items, other.2 ≠ key) :
    eraseKey key items = items := by
  induction items with
  | nil => rfl
  | cons item rest ih =>
      cases item with
      | row other =>
          simp only [rows_of_row, List.mem_cons, forall_eq_or_imp] at absent
          rw [eraseKey, if_neg absent.1, ih absent.2]
      | separator other => rw [eraseKey, ih absent]

theorem rows_of_erase_key (key : Key) (items : List (Item Ref Key)) :
    rowsOf (eraseKey key items) = (rowsOf items).filter fun entry => entry.2 ≠ key := by
  induction items with
  | nil => rfl
  | cons item rest ih =>
      cases item with
      | row other =>
          rw [eraseKey]
          split_ifs with own
          · simp [own, ih]
          · simp [own, ih]
      | separator other => simp [eraseKey, ih]

theorem erase_key_sublist (key : Key) (items : List (Item Ref Key)) :
    (eraseKey key items).Sublist items := by
  induction items with
  | nil => exact List.Sublist.refl _
  | cons item rest ih =>
      cases item with
      | row other =>
          rw [eraseKey]
          split_ifs
          · exact ih.cons _
          · exact ih.cons_cons _
      | separator other => exact ih.cons_cons _

theorem separator_step_sorted (step : SeparatorStep items changed) (sorted : Sorted items) :
    Sorted changed := by
  cases step with
  | drop before entry behind =>
      exact sorted.sublist ((List.sublist_cons_self _ _).append_left _)
  | add before first second entry behind copied =>
      simp only [Sorted, List.pairwise_append, List.pairwise_cons, List.mem_cons,
        row_before] at sorted ⊢
      obtain ⟨front, ⟨neighbours, rest⟩, across⟩ := sorted
      refine ⟨front, ⟨?_, ?_, rest⟩, ?_⟩
      · rintro item (rfl | later)
        · rw [Item.key_separator, copied]
          exact neighbours _ (.inl rfl)
        · exact neighbours item later
      · rintro item (rfl | later)
        · exact le_of_eq copied
        · have := rest.1 item later
          cases item with
          | row other => exact le_of_lt (lt_of_eq_of_lt copied this)
          | separator other => exact lt_of_eq_of_lt copied this
      · rintro item member other (rfl | rfl | later)
        · exact across item member _ (.inl rfl)
        · rw [before_separator, copied]
          have upTo := before_le (across item member _ (.inl rfl))
          have := neighbours _ (.inl rfl)
          simp only [Item.key_row] at upTo this
          order
        · exact across item member other (.inr later)

theorem reseparated_sorted (steps : Reseparated items changed) (sorted : Sorted items) :
    Sorted changed := by
  induction steps with
  | refl => exact sorted
  | tail _ step ih => exact separator_step_sorted step ih

end Order

section Join

/-- Sequences with a separator behind each. -/
def joinHead (parts : List (List (Item Ref Key))) (seps : List (Ref × Key)) : List (Item Ref Key) :=
  (parts.zip seps).flatMap fun pair => pair.1 ++ [.separator pair.2]

/-- Sequences with a separator in front of each. -/
def joinTail (seps : List (Ref × Key)) (parts : List (List (Item Ref Key))) : List (Item Ref Key) :=
  (seps.zip parts).flatMap fun pair => .separator pair.1 :: pair.2

def join (parts : List (List (Item Ref Key))) (seps : List (Ref × Key)) : List (Item Ref Key) :=
  match parts with
  | [] => []
  | part :: rest => part ++ joinTail seps rest

variable {head tail parts : List (List (Item Ref Key))} {before behind seps : List (Ref × Key)}
  {part : List (Item Ref Key)}

@[simp] theorem join_tail_cons (sep : Ref × Key) (seps : List (Ref × Key))
    (part : List (Item Ref Key)) (parts : List (List (Item Ref Key))) :
    joinTail (sep :: seps) (part :: parts) = .separator sep :: part ++ joinTail seps parts := by
  simp [joinTail]

theorem join_focus (left : head.length = before.length) :
    join (head ++ part :: tail) (before ++ behind) =
      joinHead head before ++ part ++ joinTail behind tail := by
  induction head generalizing before with
  | nil =>
      cases before with
      | nil => rfl
      | cons _ _ => cases left
  | cons first rest ih =>
      cases before with
      | nil => cases left
      | cons sep before =>
          have inner := ih (Nat.succ.inj left)
          cases rest with
          | nil =>
              cases before with
              | nil => simp [join, joinHead, joinTail]
              | cons _ _ => cases left
          | cons second rest =>
              simp only [List.cons_append, join, join_tail_cons] at inner ⊢
              simp only [joinHead, List.zip_cons_cons, List.flatMap_cons] at inner ⊢
              simp [inner]

theorem join_split {sep : Ref × Key} (left : head.length = before.length + 1) :
    join (head ++ tail) (before ++ sep :: behind) =
      join head before ++ joinTail (sep :: behind) tail := by
  cases head with
  | nil => cases left
  | cons first rest =>
      have count : before.length = rest.length := (Nat.succ.inj left).symm
      simp only [List.cons_append, join, joinTail, List.zip_append count]
      simp

theorem join_tail_join {sep : Ref × Key} (nonempty : tail ≠ []) :
    joinTail (sep :: behind) tail = .separator sep :: join tail behind := by
  cases tail with
  | nil => exact absurd rfl nonempty
  | cons part rest => simp [join]

theorem join_tail_sublist (count : behind.length = tail.length) :
    (behind.map Item.separator).Sublist (joinTail behind tail) := by
  induction tail generalizing behind with
  | nil =>
      have none : behind = [] := List.length_eq_zero_iff.mp count
      simp [none, joinTail]
  | cons part rest ih =>
      cases behind with
      | nil => cases count
      | cons sep behind =>
          rw [join_tail_cons, List.map_cons, List.cons_append]
          exact ((ih (Nat.succ.inj count)).trans (List.sublist_append_right _ _)).cons_cons _

theorem join_head_sublist (count : head.length = before.length) :
    (before.map Item.separator).Sublist (joinHead head before) := by
  induction head generalizing before with
  | nil =>
      have none : before = [] := List.length_eq_zero_iff.mp count.symm
      simp [none, joinHead]
  | cons part rest ih =>
      cases before with
      | nil => cases count
      | cons sep before =>
          have unfolded : joinHead (part :: rest) (sep :: before) =
              part ++ .separator sep :: joinHead rest before := by simp [joinHead]
          rw [unfolded, List.map_cons]
          exact ((ih (Nat.succ.inj count)).cons_cons _).trans (List.sublist_append_right _ _)

theorem join_pair {first second : List (Item Ref Key)} {sep : Ref × Key}
    (left : head.length = before.length) :
    join (head ++ first :: second :: tail) (before ++ sep :: behind) =
      joinHead head before ++ (first ++ .separator sep :: second) ++ joinTail behind tail := by
  rw [join_focus left, join_tail_cons]
  simp

theorem join_cut {sep : Ref × Key} (left : head.length = before.length + 1) (nonempty : tail ≠ []) :
    join (head ++ tail) (before ++ sep :: behind) =
      join head before ++ .separator sep :: join tail behind := by
  rw [join_split left, join_tail_join nonempty]

theorem join_sublist (arity : parts.length = seps.length + 1) :
    (seps.map Item.separator).Sublist (join parts seps) := by
  cases parts with
  | nil => cases arity
  | cons part rest =>
      exact (join_tail_sublist (Nat.succ.inj arity).symm).trans (List.sublist_append_right _ _)

theorem separators_of_join_tail (count : behind.length = tail.length) :
    (separatorsOf (joinTail behind tail) : Multiset (Ref × Key)) =
      behind + (tail.map fun part => (separatorsOf part : Multiset (Ref × Key))).sum := by
  induction tail generalizing behind with
  | nil =>
      have none : behind = [] := List.length_eq_zero_iff.mp count
      simp [joinTail, none]
  | cons part rest ih =>
      cases behind with
      | nil => cases count
      | cons sep behind =>
          rw [join_tail_cons]
          simp only [List.cons_append, separators_of_separator, separators_of_append,
            ← Multiset.cons_coe, ← Multiset.coe_add, ih (Nat.succ.inj count), List.map_cons,
            List.sum_cons]
          simp only [← Multiset.singleton_add]
          abel

theorem separators_of_join (arity : parts.length = seps.length + 1) :
    (separatorsOf (join parts seps) : Multiset (Ref × Key)) =
      seps + (parts.map fun part => (separatorsOf part : Multiset (Ref × Key))).sum := by
  cases parts with
  | nil => cases arity
  | cons part rest =>
      rw [join, separators_of_append, ← Multiset.coe_add, separators_of_join_tail (Nat.succ.inj arity).symm,
        List.map_cons, List.sum_cons]
      abel

section Order

variable [LinearOrder Key]

theorem join_seps_sorted (arity : parts.length = seps.length + 1) (sorted : Sorted (join parts seps)) :
    seps.Pairwise fun first second => first.2 < second.2 := by
  have separators := sorted.sublist (join_sublist arity)
  rw [List.pairwise_map] at separators
  exact separators

/-- Everything in front of a separator that is not above a key is in front of a row with it. -/
theorem join_head_before {rest : List (Item Ref Key)} {entry : Ref × Key}
    (sorted : Sorted (joinHead head before ++ rest)) (lower : ∀ sep ∈ before, sep.2 ≤ entry.2) :
    ∀ item ∈ joinHead head before, Before item (.row entry) := by
  induction head generalizing before with
  | nil =>
      intro item member
      simp [joinHead] at member
  | cons part head ih =>
      cases before with
      | nil =>
          intro item member
          simp [joinHead] at member
      | cons sep before =>
          have unfolded : joinHead (part :: head) (sep :: before) =
              part ++ .separator sep :: joinHead head before := by simp [joinHead]
          rw [unfolded, List.append_assoc, List.cons_append] at sorted
          obtain ⟨_, behind, across⟩ := List.pairwise_append.mp sorted
          intro item member
          rw [unfolded, List.mem_append, List.mem_cons] at member
          rcases member with first | rfl | later
          · have less := across item first _ List.mem_cons_self
            have bound := lower sep List.mem_cons_self
            rw [before_separator] at less
            cases item with
            | row other => exact row_before.mpr (lt_of_lt_of_le less bound)
            | separator other => exact le_of_lt (lt_of_lt_of_le less bound)
          · exact lower sep List.mem_cons_self
          · exact ih (List.pairwise_cons.mp behind).2
              (fun other member => lower other (List.mem_cons_of_mem _ member)) item later

theorem join_tail_behind {rest : List (Item Ref Key)} {entry : Ref × Key}
    (sorted : Sorted (rest ++ joinTail behind tail)) (upper : ∀ sep ∈ behind, entry.2 < sep.2) :
    ∀ item ∈ joinTail behind tail, Before (.row entry) item := by
  induction tail generalizing behind rest with
  | nil =>
      intro item member
      simp [joinTail] at member
  | cons part tail ih =>
      cases behind with
      | nil =>
          intro item member
          simp [joinTail] at member
      | cons sep behind =>
          rw [join_tail_cons] at sorted ⊢
          have bound := upper sep List.mem_cons_self
          have first := (List.pairwise_append.mp sorted).2.1
          intro item member
          rw [List.cons_append, List.mem_cons, List.mem_append] at member
          rcases member with rfl | inPart | later
          · exact bound
          · have := before_le ((List.pairwise_cons.mp first).1 item (by simp [inPart]))
            exact row_before.mpr (lt_of_lt_of_le bound this)
          · have rest : Sorted (part ++ joinTail behind tail) := (List.pairwise_cons.mp first).2
            exact ih rest (fun other member => upper other (List.mem_cons_of_mem _ member)) item later

end Order

end Join

section Trees

variable (Addr Ref Key : Type)

structure LeafNode where
  addr : Addr
  rows : List (Ref × Key)

structure InnerNode (Child : Type) where
  addr : Addr
  seps : List (Ref × Key)
  kids : List Child
  arity : kids.length = seps.length + 1

abbrev Tree : Nat → Type
  | 0 => LeafNode Addr Ref Key
  | height + 1 => InnerNode Addr Ref Key (Tree height)

variable {Addr Ref Key}

namespace Tree

def addr : (height : Nat) → Tree Addr Ref Key height → Addr
  | 0, (leaf : LeafNode Addr Ref Key) => leaf.addr
  | _ + 1, (node : InnerNode Addr Ref Key (Tree Addr Ref Key _)) => node.addr

def count : (height : Nat) → Tree Addr Ref Key height → Nat
  | 0, (leaf : LeafNode Addr Ref Key) => leaf.rows.length
  | _ + 1, (node : InnerNode Addr Ref Key (Tree Addr Ref Key _)) => node.seps.length

def items : (height : Nat) → Tree Addr Ref Key height → List (Item Ref Key)
  | 0, (leaf : LeafNode Addr Ref Key) => leaf.rows.map .row
  | height + 1, (node : InnerNode Addr Ref Key (Tree Addr Ref Key height)) =>
      join (node.kids.map (items height)) node.seps

def addrs : (height : Nat) → Tree Addr Ref Key height → Multiset Addr
  | 0, (leaf : LeafNode Addr Ref Key) => {leaf.addr}
  | height + 1, (node : InnerNode Addr Ref Key (Tree Addr Ref Key height)) =>
      node.addr ::ₘ (node.kids.map (addrs height)).sum

/-- The topmost node has between `least` and `2 * degree - 1` rows, the nodes below it have at least
`degree - 1`. -/
def Sized (degree least : Nat) : (height : Nat) → Tree Addr Ref Key height → Prop
  | 0, (leaf : LeafNode Addr Ref Key) => least ≤ leaf.rows.length ∧ leaf.rows.length ≤ 2 * degree - 1
  | height + 1, (node : InnerNode Addr Ref Key (Tree Addr Ref Key height)) =>
      (least ≤ node.seps.length ∧ node.seps.length ≤ 2 * degree - 1) ∧
        ∀ kid ∈ node.kids, Sized degree (degree - 1) height kid

section Equations

variable (leaf : LeafNode Addr Ref Key) {height : Nat} (degree least : Nat)
  (node : InnerNode Addr Ref Key (Tree Addr Ref Key height))

@[simp] theorem addr_leaf : addr 0 leaf = leaf.addr := rfl
@[simp] theorem addr_inner : addr (height + 1) node = node.addr := rfl
@[simp] theorem count_leaf : count 0 leaf = leaf.rows.length := rfl
@[simp] theorem count_inner : count (height + 1) node = node.seps.length := rfl
@[simp] theorem items_leaf : items 0 leaf = leaf.rows.map .row := rfl
@[simp] theorem items_inner :
    items (height + 1) node = join (node.kids.map (items height)) node.seps := rfl
@[simp] theorem addrs_leaf : addrs 0 leaf = {leaf.addr} := rfl
@[simp] theorem addrs_inner :
    addrs (height + 1) node = node.addr ::ₘ (node.kids.map (addrs height)).sum := rfl
@[simp] theorem sized_leaf : Sized degree least 0 leaf ↔
    least ≤ leaf.rows.length ∧ leaf.rows.length ≤ 2 * degree - 1 := Iff.rfl
@[simp] theorem sized_inner : Sized degree least (height + 1) node ↔
    (least ≤ node.seps.length ∧ node.seps.length ≤ 2 * degree - 1) ∧
      ∀ kid ∈ node.kids, Sized degree (degree - 1) height kid := Iff.rfl

end Equations

/-- Only the bound from below depends on what the topmost node may have. -/
theorem sized_least {height degree least fewer : Nat} {tree : Tree Addr Ref Key height}
    (sized : tree.Sized degree least height) (enough : fewer ≤ tree.count height) :
    tree.Sized degree fewer height := by
  cases height with
  | zero => exact ⟨enough, sized.2⟩
  | succ height => exact ⟨⟨enough, sized.1.2⟩, sized.2⟩

theorem sized_count {height degree least : Nat} {tree : Tree Addr Ref Key height}
    (sized : tree.Sized degree least height) :
    least ≤ tree.count height ∧ tree.count height ≤ 2 * degree - 1 := by
  cases height with
  | zero => exact sized
  | succ height => exact sized.1

theorem rows_nonempty {height degree least : Nat} {tree : Tree Addr Ref Key height} (enough : 2 ≤ degree)
    (positive : 1 ≤ least) (sized : tree.Sized degree least height) : rowsOf (tree.items height) ≠ [] := by
  induction height generalizing least with
  | zero =>
      intro none
      rw [items_leaf, rows_of_map_row] at none
      have some : least ≤ tree.rows.length := sized.1
      rw [none, List.length_nil] at some
      omega
  | succ height ih =>
      intro none
      obtain ⟨kid, rest, kids⟩ : ∃ kid rest, tree.kids = kid :: rest := by
        apply List.exists_cons_of_ne_nil
        intro childless
        have arity := tree.arity
        rw [childless, List.length_nil] at arity
        omega
      have below := ih (show 1 ≤ degree - 1 by omega) (sized.2 kid (by rw [kids]; exact List.mem_cons_self))
      apply below
      rw [items_inner, kids, List.map_cons, join, rows_of_append, List.append_eq_nil_iff] at none
      exact none.1

theorem addr_mem_addrs {height : Nat} (tree : Tree Addr Ref Key height) :
    tree.addr height ∈ tree.addrs height := by
  cases height with
  | zero => exact Multiset.mem_singleton_self _
  | succ height => exact Multiset.mem_cons_self _ _

end Tree

theorem mem_kid_addrs {height : Nat} {kids : List (Tree Addr Ref Key height)}
    {kid : Tree Addr Ref Key height} (member : kid ∈ kids) {addr : Addr}
    (inKid : addr ∈ kid.addrs height) : addr ∈ (kids.map (Tree.addrs height)).sum := by
  obtain ⟨before, behind, rfl⟩ := List.append_of_mem member
  simp [inKid]

theorem mem_kids_addrs {height : Nat} {kids : List (Tree Addr Ref Key height)} {addr : Addr} :
    addr ∈ (kids.map (Tree.addrs height)).sum ↔ ∃ kid ∈ kids, addr ∈ kid.addrs height := by
  constructor
  · intro member
    induction kids with
    | nil => cases member
    | cons kid rest ih =>
        rw [List.map_cons, List.sum_cons, Multiset.mem_add] at member
        rcases member with first | later
        · exact ⟨kid, List.mem_cons_self, first⟩
        · obtain ⟨other, inRest, inOther⟩ := ih later
          exact ⟨other, List.mem_cons_of_mem _ inRest, inOther⟩
  · rintro ⟨kid, member, inKid⟩
    exact mem_kid_addrs member inKid

end Trees

section Tops

variable {Addr Ref Key : Type} {height : Nat} {kids : List (Tree Addr Ref Key height)}
  {kid : Tree Addr Ref Key height} {addr : Addr}

theorem tops_mem (member : addr ∈ kids.map (Tree.addr height)) :
    addr ∈ (kids.map (Tree.addrs height)).sum := by
  obtain ⟨kid, inside, rfl⟩ := List.mem_map.mp member
  exact mem_kid_addrs inside (Tree.addr_mem_addrs kid)

theorem tops_nodup (nodup : (kids.map (Tree.addrs height)).sum.Nodup) :
    (kids.map (Tree.addr height)).Nodup := by
  induction kids with
  | nil => exact List.nodup_nil
  | cons kid rest ih =>
      rw [List.map_cons, List.sum_cons, Multiset.nodup_add] at nodup
      rw [List.map_cons, List.nodup_cons]
      refine ⟨fun member => ?_, ih nodup.2.1⟩
      exact Multiset.disjoint_left.mp nodup.2.2 (Tree.addr_mem_addrs kid) (tops_mem member)

theorem top_inside (nodup : (kids.map (Tree.addrs height)).sum.Nodup) (member : kid ∈ kids)
    (inKid : addr ∈ kid.addrs height) (top : addr ∈ kids.map (Tree.addr height)) :
    addr = kid.addr height := by
  induction kids with
  | nil => cases member
  | cons first rest ih =>
      rw [List.map_cons, List.sum_cons, Multiset.nodup_add] at nodup
      rw [List.map_cons, List.mem_cons] at top
      rcases List.mem_cons.mp member with rfl | later
      · rcases top with own | other
        · exact own
        · exact absurd (tops_mem other) (Multiset.disjoint_left.mp nodup.2.2 inKid)
      · rcases top with rfl | other
        · exact absurd (mem_kid_addrs later inKid)
            (Multiset.disjoint_left.mp nodup.2.2 (Tree.addr_mem_addrs first))
        · exact ih nodup.2.1 later other

end Tops

section Ordered

variable {Addr : Type} [LinearOrder Key]

/-- The keys of every node increase, and a separator is above everything in the child before it and
not above anything in the child behind it. -/
def Tree.Ordered : (height : Nat) → Tree Addr Ref Key height → Prop
  | 0, (leaf : LeafNode Addr Ref Key) => leaf.rows.Pairwise fun first second => first.2 < second.2
  | height + 1, (node : InnerNode Addr Ref Key (Tree Addr Ref Key height)) =>
      (node.seps.Pairwise fun first second => first.2 < second.2) ∧
        (∀ (i : Nat) sep kid, node.seps[i]? = some sep → node.kids[i]? = some kid →
          ∀ item ∈ kid.items height, item.key < sep.2) ∧
        (∀ (i : Nat) sep kid, node.seps[i]? = some sep → node.kids[i + 1]? = some kid →
          ∀ item ∈ kid.items height, sep.2 ≤ item.key) ∧
        ∀ kid ∈ node.kids, Tree.Ordered height kid

theorem split_at {Value : Type} {list : List Value} {place : Nat} {value : Value} (found : list[place]? = some value) :
    ∃ front back, list = front ++ value :: back ∧ front.length = place := by
  obtain ⟨inside, rfl⟩ := List.getElem?_eq_some_iff.mp found
  refine ⟨list.take place, list.drop (place + 1), ?_, ?_⟩
  · rw [List.getElem_cons_drop, List.take_append_drop]
  · rw [List.length_take]
    omega

omit [LinearOrder Key] in
theorem part_sublist {parts : List (List (Item Ref Key))} {part : List (Item Ref Key)} {seps : List (Ref × Key)}
    (arity : parts.length = seps.length + 1) (member : part ∈ parts) : part.Sublist (join parts seps) := by
  obtain ⟨head, tail, rfl⟩ := List.append_of_mem member
  rw [List.length_append, List.length_cons] at arity
  have left : head.length = (seps.take head.length).length := by
    rw [List.length_take]
    omega
  rw [← List.take_append_drop head.length seps, join_focus left]
  exact (List.sublist_append_right _ _).trans (List.sublist_append_left _ _)

theorem around_separator {parts : List (List (Item Ref Key))} {seps : List (Ref × Key)} {place : Nat}
    {sep : Ref × Key} (arity : parts.length = seps.length + 1) (sorted : Sorted (join parts seps))
    (found : seps[place]? = some sep) :
    (∀ part, parts[place]? = some part → ∀ item ∈ part, item.key < sep.2) ∧
      ∀ part, parts[place + 1]? = some part → ∀ item ∈ part, sep.2 ≤ item.key := by
  obtain ⟨lefts, rights, rfl, count⟩ := split_at found
  rw [List.length_append, List.length_cons] at arity
  obtain ⟨first, child⟩ : ∃ first, parts[place]? = some first :=
    ⟨_, List.getElem?_eq_getElem (by omega)⟩
  obtain ⟨head, rest, rfl, before⟩ := split_at child
  rw [List.length_append, List.length_cons] at arity
  cases rest with
  | nil =>
      rw [List.length_nil] at arity
      omega
  | cons second tail =>
      rw [join_pair (before.trans count.symm)] at sorted
      have middle := (List.pairwise_append.mp (List.pairwise_append.mp sorted).1).2.1
      obtain ⟨_, behind, across⟩ := List.pairwise_append.mp middle
      refine ⟨?_, ?_⟩
      · intro part same item member
        rw [child, Option.some.injEq] at same
        rw [← same] at member
        exact before_separator.mp (across item member _ List.mem_cons_self)
      · intro part same item member
        rw [← before, List.getElem?_append_right (by omega), show head.length + 1 - head.length = 1 by omega,
          List.getElem?_cons_succ, List.getElem?_cons_zero, Option.some.injEq] at same
        rw [← same] at member
        exact before_le ((List.pairwise_cons.mp behind).1 item member)

theorem Tree.ordered_of_sorted {height : Nat} {tree : Tree Addr Ref Key height}
    (sorted : Sorted (tree.items height)) : tree.Ordered height := by
  induction height with
  | zero =>
      rw [Tree.items_leaf, Sorted, List.pairwise_map] at sorted
      exact sorted
  | succ height ih =>
      have arity : (tree.kids.map (Tree.items height)).length = tree.seps.length + 1 := by
        rw [List.length_map, tree.arity]
      refine ⟨join_seps_sorted arity sorted, ?_, ?_, ?_⟩
      · intro i sep kid found child
        apply (around_separator arity sorted found).1
        rw [List.getElem?_map, child, Option.map_some]
      · intro i sep kid found child
        apply (around_separator arity sorted found).2
        rw [List.getElem?_map, child, Option.map_some]
      · intro kid member
        apply ih
        exact sorted.sublist (part_sublist arity (List.mem_map_of_mem member))

end Ordered

section Focus

variable {Addr Child : Type} {node : InnerNode Addr Ref Key Child}

theorem node_focus {place : Nat} (inside : place ≤ node.seps.length) :
    ∃ before kid behind lefts rights, node.kids = before ++ kid :: behind ∧
      node.seps = lefts ++ rights ∧ before.length = place ∧ lefts.length = place ∧
      behind.length = rights.length := by
  have arity := node.arity
  have bound : place < node.kids.length := by omega
  refine ⟨node.kids.take place, node.kids[place], node.kids.drop (place + 1), node.seps.take place,
    node.seps.drop place, ?_, (List.take_append_drop _ _).symm, ?_, ?_, ?_⟩
  · rw [List.getElem_cons_drop, List.take_append_drop]
  · simp
    omega
  · simp
    omega
  · simp
    omega

end Focus

end MyJQL.SearchTrees
