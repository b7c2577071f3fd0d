import Mathlib.Algebra.BigOperators.Group.Multiset.Basic
import MyJQL.BTreeInvariants
import MyJQL.CallLogs

/-!
# What the tree does with the references of its callbacks

The callbacks work on a store of records and keys. The tree asks `insertHandler` for a copy of a key
before it puts it above the leaves, and gives the copy to `deleteHandler` when it takes it out again.
All calls are written down, over whole runs and with whatever the caller does to its own records
between the operations.
-/

namespace MyJQL.BTreeHandlers

open MyJQL.FileIo
open MyJQL.BufferPoolModel
open MyJQL.StateProgram
open MyJQL.PageStoreLogic
open MyJQL.TableModel
open MyJQL.ArrayLoops
open MyJQL.SearchTrees
open MyJQL.BTreeModel
open MyJQL.BTreeLayout
open MyJQL.BTreeSearch
open MyJQL.BTreeRefinement
open MyJQL.BTreeInvariants
open MyJQL.CallLogs

set_option autoImplicit false

variable {Key Store Value : Type}

/-- The references `row_ptr[0]` to `row_ptr[n - 1]` of a node that is no leaf. -/
def innerRow (node : BNode) : Multiset RID :=
  if node.leaf then 0 else ((List.range node.n).map node.rowPtr : List RID)

def innerRids (page : Int → BNode) (nodes : Multiset Int) : Multiset RID :=
  (nodes.map fun addr => innerRow (page addr)).sum

@[simp] theorem inner_rids_zero (page : Int → BNode) : innerRids page 0 = 0 := rfl

@[simp] theorem inner_rids_cons (page : Int → BNode) (addr : Int) (nodes : Multiset Int) :
    innerRids page (addr ::ₘ nodes) = innerRow (page addr) + innerRids page nodes := by
  rw [innerRids, Multiset.map_cons, Multiset.sum_cons, innerRids]

@[simp] theorem inner_rids_add (page : Int → BNode) (first second : Multiset Int) :
    innerRids page (first + second) = innerRids page first + innerRids page second := by
  rw [innerRids, Multiset.map_add, Multiset.sum_add, innerRids, innerRids]

theorem inner_row_of_holds {page : BNode} {parent : Int} {rows : List RID} {kids : List Int}
    (holds : HoldsNode page false parent rows kids) : innerRow page = rows := by
  have same : (List.range page.n).map page.rowPtr = rows := by
    apply List.ext_getElem
    · simp [holds.n]
    · intro j _ inRows
      rw [List.getElem_map, List.getElem_range]
      exact holds.rows j inRows
  simp [innerRow, holds.leaf, same]

theorem inner_rids_of_kids {page : Int → BNode} {height : Nat} {kids : List (BTree Key height)}
    (each : ∀ kid ∈ kids, innerRids page (kid.addrs height) =
      (separatorsOf (kid.items height) : Multiset (Entry Key)).map Prod.fst) :
    innerRids page (kids.map (Tree.addrs height)).sum =
      ((kids.map fun kid => (separatorsOf (kid.items height) : Multiset (Entry Key))).sum).map Prod.fst := by
  induction kids with
  | nil => rfl
  | cons kid rest ih =>
      have first := each kid List.mem_cons_self
      have others := ih fun other member => each other (List.mem_cons_of_mem _ member)
      rw [List.map_cons, List.sum_cons, inner_rids_add, first, others, List.map_cons, List.sum_cons,
        Multiset.map_add]

theorem inner_rids_of_holds {page : Int → BNode} {height : Nat} {parent : Int} {tree : BTree Key height}
    (holds : HoldsTree page height parent tree) : innerRids page (tree.addrs height) =
      (separatorsOf (tree.items height) : Multiset (Entry Key)).map Prod.fst := by
  induction height generalizing parent with
  | zero =>
      rw [holds_leaf] at holds
      simp [innerRids, innerRow, holds.leaf]
  | succ height ih =>
      obtain ⟨node, kids⟩ := holds
      have below := inner_rids_of_kids fun kid member => ih (kids kid member)
      have arity : (tree.kids.map (Tree.items height)).length = tree.seps.length + 1 := by
        rw [List.length_map, tree.arity]
      rw [Tree.addrs_inner, inner_rids_cons, inner_row_of_holds node, below, Tree.items_inner,
        separators_of_join arity, Multiset.map_add, List.map_map]
      rfl

/-- A reference is live where the store has a key for it. -/
def Live (keyOf : Store → RID → Option Key) (store : Store) (rid : RID) : Prop := keyOf store rid ≠ none

/-- A store with the calls that were made on it. -/
abbrev Watched (Store : Type) := Store × Log RID Store

/-- Runs a program and writes its call down. -/
def noted (call : Store → Value → Call RID Store) (program : Program Store Value) : Program (Watched Store) Value :=
  fun state => (program state.1).map fun result => (result.1, (result.2, call state.1 result.1 :: state.2))

theorem noted_ran {call : Store → Value → Call RID Store} {program : Program Store Value} {store after : Store}
    {value : Value} (ran : program store = some (value, after)) (log : Log RID Store) :
    noted call program (store, log) = some (value, (after, call store value :: log)) := by
  rw [noted, ran]
  rfl

theorem noted_adds (call : Store → Value → Call RID Store) (program : Program Store Value) (state : Watched Store)
    (value : Value) (after : Watched Store) (ran : noted call program state = some (value, after)) :
    state.2 <:+ after.2 := by
  obtain ⟨_, _, same⟩ := Option.map_eq_some_iff.mp ran
  cases same
  exact List.suffix_cons _ _

def watch (callbacks : Callbacks Store) : Callbacks (Watched Store) where
  cmp first second := noted (fun store _ => .compared store [first, second]) (callbacks.cmp first second)
  insertHandler rid := noted (fun store copy => .copied store rid copy) (callbacks.insertHandler rid)
  deleteHandler rid := noted (fun store _ => .freed store rid) (callbacks.deleteHandler rid)

section Watch

variable {callbacks : Callbacks Store} {store after : Store} {first second rid copy : RID} {order : Int}

theorem watch_cmp (ran : callbacks.cmp first second store = some (order, after)) (log : Log RID Store) :
    (watch callbacks).cmp first second (store, log) =
      some (order, (after, .compared store [first, second] :: log)) := by
  simp only [watch, noted_ran ran]

theorem watch_insert_handler (ran : callbacks.insertHandler rid store = some (copy, after)) (log : Log RID Store) :
    (watch callbacks).insertHandler rid (store, log) = some (copy, (after, .copied store rid copy :: log)) := by
  simp only [watch, noted_ran ran]

theorem watch_delete_handler (ran : callbacks.deleteHandler rid store = some ((), after)) (log : Log RID Store) :
    (watch callbacks).deleteHandler rid (store, log) = some ((), (after, .freed store rid :: log)) := by
  simp only [watch, noted_ran ran]

end Watch

def watchSearch (compare : RID → Program Store Int) (rid : RID) : Program (Watched Store) Int :=
  noted (fun store _ => .compared store [rid]) (compare rid)

/-- The separators are what the tree holds, and they have keys like the records, but are none of them. -/
structure Watching (keyOf : Store → RID → Option Key) (records separators : Multiset (Entry Key))
    (state : Watched Store) : Prop where
  orderly : Orderly (Live keyOf) state.2 (separators.map Prod.fst)
  keyed : ∀ entry ∈ records + separators, keyOf state.1 entry.1 = some entry.2
  apart : ∀ entry ∈ records, entry.1 ∉ separators.map Prod.fst

section Contract

variable {keyOf : Store → RID → Option Key} {records separators : Multiset (Entry Key)} {store after : Store}
  {log : Log RID Store} {entry : Entry Key} {copy : RID}

theorem watching_live (watching : Watching keyOf records separators (store, log))
    (member : entry ∈ records + separators) : Live keyOf store entry.1 := by
  rw [Live, watching.keyed entry member]
  exact Option.some_ne_none _

theorem watching_compared {refs : List RID} (watching : Watching keyOf records separators (store, log))
    (known : ∀ rid ∈ refs, Live keyOf store rid) (same : keyOf after = keyOf store) :
    Watching keyOf records separators (after, .compared store refs :: log) := by
  refine ⟨watching.orderly.compared known, ?_, watching.apart⟩
  intro entry member
  change keyOf after entry.1 = _
  rw [same]
  exact watching.keyed entry member

theorem watching_copied (watching : Watching keyOf records separators (store, log))
    (member : entry ∈ records + separators) (fresh : keyOf store copy = none)
    (changed : keyOf after = Function.update (keyOf store) copy (some entry.2)) :
    Watching keyOf records ((copy, entry.2) ::ₘ separators) (after, .copied store entry.1 copy :: log) := by
  have different : ∀ other ∈ records + separators, other.1 ≠ copy := by
    rintro other known rfl
    have key := watching.keyed other known
    change keyOf store other.1 = _ at key
    rw [fresh] at key
    cases key
  refine ⟨?_, ?_, ?_⟩
  · rw [Multiset.map_cons]
    apply watching.orderly.copied (watching_live watching member)
    intro held
    obtain ⟨other, isSeparator, same⟩ := Multiset.mem_map.mp held
    exact different other (Multiset.mem_add.mpr (.inr isSeparator)) same
  · intro other known
    change keyOf after other.1 = _
    rw [Multiset.add_cons, Multiset.mem_cons] at known
    rw [changed]
    rcases known with rfl | old
    · exact Function.update_self ..
    · rw [Function.update_of_ne (different other old)]
      exact watching.keyed other old
  · intro other isRecord
    rw [Multiset.map_cons, Multiset.mem_cons, not_or]
    exact ⟨different other (Multiset.mem_add.mpr (.inl isRecord)), watching.apart other isRecord⟩

variable [LinearOrder Key]

theorem watching_freed (watching : Watching keyOf records separators (store, log)) (member : entry ∈ separators)
    (changed : keyOf after = Function.update (keyOf store) entry.1 none) :
    Watching keyOf records (separators.erase entry) (after, .freed store entry.1 :: log) := by
  have held : entry.1 ∈ separators.map Prod.fst := Multiset.mem_map_of_mem Prod.fst member
  have rest : (separators.erase entry).map Prod.fst = (separators.map Prod.fst).erase entry.1 :=
    Multiset.map_erase_of_mem Prod.fst separators member
  have once := orderly_nodup watching.orderly
  have others : ∀ other ∈ records + separators.erase entry,
      other ∈ records + separators ∧ other.1 ≠ entry.1 := by
    intro other known
    rcases Multiset.mem_add.mp known with isRecord | isSeparator
    · refine ⟨Multiset.mem_add.mpr (.inl isRecord), ?_⟩
      intro same
      exact watching.apart other isRecord (same ▸ held)
    · refine ⟨Multiset.mem_add.mpr (.inr (Multiset.mem_of_mem_erase isSeparator)), ?_⟩
      have inRest := Multiset.mem_map_of_mem Prod.fst isSeparator
      rw [rest] at inRest
      exact (once.mem_erase_iff.mp inRest).1
  refine ⟨?_, ?_, ?_⟩
  · rw [rest]
    exact watching.orderly.freed (watching_live watching (Multiset.mem_add.mpr (.inr member))) held
  · intro other known
    obtain ⟨old, different⟩ := others other known
    change keyOf after other.1 = _
    rw [changed, Function.update_of_ne different]
    exact watching.keyed other old
  · intro other isRecord inRest
    rw [rest] at inRest
    exact watching.apart other isRecord (Multiset.mem_of_mem_erase inRest)

end Contract

variable [LinearOrder Key]

/-- What the callbacks do with live references. Nothing is known about the others. -/
structure Keeps (keyOf : Store → RID → Option Key) (callbacks : Callbacks Store) : Prop where
  cmp : ∀ {store : Store} {first second : RID} {firstKey secondKey : Key},
    keyOf store first = some firstKey → keyOf store second = some secondKey →
    ∃ order after, callbacks.cmp first second store = some (order, after) ∧ Agrees order firstKey secondKey ∧
      keyOf after = keyOf store
  insertHandler : ∀ {store : Store} {rid : RID} {key : Key}, keyOf store rid = some key →
    ∃ copy after, callbacks.insertHandler rid store = some (copy, after) ∧ keyOf store copy = none ∧
      keyOf after = Function.update (keyOf store) copy (some key)
  deleteHandler : ∀ {store : Store} {rid : RID} {key : Key}, keyOf store rid = some key →
    ∃ after, callbacks.deleteHandler rid store = some ((), after) ∧
      keyOf after = Function.update (keyOf store) rid none

def KeepsSearch (keyOf : Store → RID → Option Key) (key : Key) (compare : RID → Program Store Int) : Prop :=
  ∀ {store : Store} {rid : RID} {own : Key}, keyOf store rid = some own →
    ∃ order after, compare rid store = some (order, after) ∧ Agrees order key own ∧ keyOf after = keyOf store

section Contract

variable {keyOf : Store → RID → Option Key} {callbacks : Callbacks Store}

theorem watch_contract (keeps : Keeps keyOf callbacks) (records : Multiset (Entry Key)) :
    Contract (Watching keyOf records) records (watch callbacks) where
  cmp := by
    rintro separators first second isFirst isSecond ⟨store, log⟩ watching
    obtain ⟨order, after, ran, agrees, same⟩ :=
      keeps.cmp (watching.keyed first isFirst) (watching.keyed second isSecond)
    refine ⟨order, _, separators, watch_cmp ran log, ?_, rfl, agrees⟩
    apply watching_compared watching _ same
    intro rid member
    rw [List.mem_pair] at member
    rcases member with rfl | rfl
    · exact watching_live watching isFirst
    · exact watching_live watching isSecond
  insertHandler := by
    rintro separators entry member ⟨store, log⟩ watching
    obtain ⟨copy, after, ran, fresh, changed⟩ := keeps.insertHandler (watching.keyed entry member)
    exact ⟨copy, _, _, watch_insert_handler ran log, watching_copied watching member fresh changed, rfl⟩
  deleteHandler := by
    rintro separators entry member ⟨store, log⟩ watching
    obtain ⟨after, ran, changed⟩ :=
      keeps.deleteHandler (watching.keyed entry (Multiset.mem_add.mpr (.inr member)))
    exact ⟨(), _, _, watch_delete_handler ran log, watching_freed watching member changed, rfl⟩

omit [LinearOrder Key] in
theorem ensures_extending {represents : Multiset (Entry Key) → Watched Store → Prop}
    {separators : Multiset (Entry Key)} {program : Program (Watched Store) Value}
    {post : Value → Multiset (Entry Key) → Prop} (earlier : Log RID Store)
    (adds : ∀ state value after, program state = some (value, after) → state.2 <:+ after.2)
    (runs : Ensures represents separators program post) :
    Ensures (fun separators state => represents separators state ∧ earlier <:+ state.2) separators program post := by
  rintro state ⟨related, longer⟩
  obtain ⟨value, final, abstract, ran, relatedAfter, outcome⟩ := runs state related
  exact ⟨value, final, abstract, ran, ⟨relatedAfter, longer.trans (adds _ _ _ ran)⟩, outcome⟩

theorem watch_extends (keeps : Keeps keyOf callbacks) (earlier : Log RID Store) (records : Multiset (Entry Key)) :
    Contract (fun separators state => Watching keyOf records separators state ∧ earlier <:+ state.2) records
      (watch callbacks) where
  cmp {_ first second} isFirst isSecond := by
    have adds := noted_adds (fun store _ => .compared store [first.1, second.1]) (callbacks.cmp first.1 second.1)
    exact ensures_extending earlier adds ((watch_contract keeps records).cmp isFirst isSecond)
  insertHandler {_ entry} member := by
    have adds := noted_adds (fun store copy => .copied store entry.1 copy) (callbacks.insertHandler entry.1)
    exact ensures_extending earlier adds ((watch_contract keeps records).insertHandler member)
  deleteHandler {_ entry} member := by
    have adds := noted_adds (fun store _ => .freed store entry.1) (callbacks.deleteHandler entry.1)
    exact ensures_extending earlier adds ((watch_contract keeps records).deleteHandler member)

theorem watch_search_compares {key : Key} {compare : RID → Program Store Int} (keeps : KeepsSearch keyOf key compare)
    (records : Multiset (Entry Key)) : ComparesKey (Watching keyOf) records (watchSearch compare) key := by
  rintro separators entry member ⟨store, log⟩ watching
  obtain ⟨order, after, ran, agrees, same⟩ := keeps (watching.keyed entry member)
  refine ⟨order, (after, .compared store [entry.1] :: log), separators, noted_ran ran log, ?_, rfl, agrees⟩
  apply watching_compared watching _ same
  intro rid own
  rw [List.mem_singleton.mp own]
  exact watching_live watching member

end Contract

/-- Runs from an empty file, with the records that the caller has at the end. The caller inserts absent
keys, deletes present ones and searches. In between it may change its store, but not the copies that were
made for the tree, and it keeps the records that are in the tree. -/
inductive Run (degree : Nat) (callbacks : Callbacks Store) (keyOf : Store → RID → Option Key) :
    Bindings Key → Multiset (Entry Key) → IndexPool → Store → Log RID Store → Prop
  | opened {disk : Disk BNode} {memory pool : IndexPool} {records : Multiset (Entry Key)} {store : Store}
      (empty : disk.size = 0) (ran : bTreeInit disk memory = some ((), pool))
      (keyed : ∀ entry ∈ records, keyOf store entry.1 = some entry.2) :
      Run degree callbacks keyOf (fun _ => none) records pool store []
  | inserted {bindings : Bindings Key} {records : Multiset (Entry Key)} {pool later : IndexPool}
      {store after : Store} {log longer : Log RID Store} {rid answer : RID} {key : Key}
      (before : Run degree callbacks keyOf bindings records pool store log) (recorded : (rid, key) ∈ records)
      (absent : bindings key = none)
      (ran : bTreeInsert degree (watch callbacks) rid (pool, (store, log)) = some (answer, (later, (after, longer)))) :
      Run degree callbacks keyOf (Function.update bindings key (some rid)) records later after longer
  | deleted {bindings : Bindings Key} {records : Multiset (Entry Key)} {pool later : IndexPool}
      {store after : Store} {log longer : Log RID Store} {rid : RID} {key : Key}
      (before : Run degree callbacks keyOf bindings records pool store log) (recorded : (rid, key) ∈ records)
      (present : bindings key ≠ none)
      (ran : bTreeDelete degree (watch callbacks) rid (pool, (store, log)) = some ((), (later, (after, longer)))) :
      Run degree callbacks keyOf (Function.update bindings key none) records later after longer
  | searched {bindings : Bindings Key} {records : Multiset (Entry Key)} {pool later : IndexPool}
      {store after : Store} {log longer : Log RID Store} {answer : RID} {key : Key}
      {compare : RID → Program Store Int} (before : Run degree callbacks keyOf bindings records pool store log)
      (keeps : KeepsSearch keyOf key compare)
      (ran : bTreeSearch degree (watchSearch compare) (pool, (store, log)) = some (answer, (later, (after, longer)))) :
      Run degree callbacks keyOf bindings records later after longer
  | moved {bindings : Bindings Key} {records others : Multiset (Entry Key)} {pool : IndexPool}
      {store changed : Store} {log : Log RID Store}
      (before : Run degree callbacks keyOf bindings records pool store log)
      (keyed : ∀ entry ∈ others, keyOf changed entry.1 = some entry.2)
      (apart : ∀ entry ∈ others, entry.1 ∉ returned log - passed log)
      (untouched : ∀ rid ∈ returned log - passed log, keyOf changed rid = keyOf store rid)
      (kept : ∀ key rid, bindings key = some rid → (rid, key) ∈ others) :
      Run degree callbacks keyOf bindings others pool changed log

section Runs

variable {degree : Nat} {callbacks : Callbacks Store} {keyOf : Store → RID → Option Key} {bindings : Bindings Key}
  {records : Multiset (Entry Key)} {pool : IndexPool} {store : Store} {log : Log RID Store}

theorem run_reached (run : Run degree callbacks keyOf bindings records pool store log) :
    Reached degree (watch callbacks) (Watching keyOf) bindings records (pool, (store, log)) := by
  induction run with
  | opened empty ran keyed =>
      apply Reached.opened empty ran
      refine ⟨.nil, ?_, by simp⟩
      intro entry member
      rw [add_zero] at member
      exact keyed entry member
  | inserted _ recorded absent ran ih => exact .inserted ih recorded absent ran
  | deleted _ recorded present ran ih => exact .deleted ih recorded present ran
  | searched _ keeps ran ih => exact .searched ih (watch_search_compares keeps _) ran
  | moved _ keyed apart untouched kept ih =>
      apply Reached.moved ih _ kept
      intro separators watching
      have held := Multiset.eq_sub_of_add_eq (orderly_balance watching.orderly)
      rw [← held] at apart untouched
      refine ⟨watching.orderly, ?_, apart⟩
      intro entry member
      rcases Multiset.mem_add.mp member with isRecord | isSeparator
      · exact keyed entry isRecord
      · rw [untouched entry.1 (Multiset.mem_map_of_mem Prod.fst isSeparator)]
        exact watching.keyed entry (Multiset.mem_add.mpr (.inr isSeparator))

theorem run_invariant (keeps : Keeps keyOf callbacks) (enough : 2 ≤ degree)
    (run : Run degree callbacks keyOf bindings records pool store log) :
    Invariant degree (Watching keyOf) bindings records (pool, (store, log)) :=
  reached_invariant (watch_contract keeps) enough (run_reached run)

end Runs

/-- What the calls have in common with the references in inner nodes. -/
structure Protocol (keyOf : Store → RID → Option Key) (bindings : Bindings Key) (records : Multiset (Entry Key))
    (inner : Multiset RID) (log : Log RID Store) : Prop where
  balanced : inner + passed log = returned log
  notRecorded : ∀ entry ∈ records, entry.1 ∉ inner
  notInserted : ∀ key rid, bindings key = some rid → rid ∉ inner
  alternates : Alternates log
  live : ∀ call ∈ log, ∀ rid ∈ call.refs, Live keyOf call.store rid

/-- In every run the inner nodes hold what `insertHandler` returned and `deleteHandler` was not given since,
nothing else is freed or freed twice, all calls are about live references, and no operation gets stuck. -/
theorem handler_protocol (degree : Nat) (enough : 2 ≤ degree) (callbacks : Callbacks Store)
    (keyOf : Store → RID → Option Key) (keeps : Keeps keyOf callbacks) :
    ∀ bindings records pool store log, Run degree callbacks keyOf bindings records pool store log →
      (∃ nodes, Visits (view pool) (rootNode (view pool 0)) nodes ∧
        Protocol keyOf bindings records (innerRids (view pool) nodes) log) ∧
      (∀ rid key, (rid, key) ∈ records → bindings key = none →
        ∃ after, bTreeInsert degree (watch callbacks) rid (pool, (store, log)) = some (nothing, after)) ∧
      ∀ rid key, (rid, key) ∈ records → bindings key ≠ none →
        ∃ after, bTreeDelete degree (watch callbacks) rid (pool, (store, log)) = some ((), after) := by
  intro bindings records pool store log run
  have contract := watch_contract keeps
  have invariant := run_invariant keeps enough run
  refine ⟨?_, ?_, ?_⟩
  · obtain ⟨rows, _, index, stores, watching, ⟨height, tree, free, shape, _, _, rfl⟩, table⟩ := invariant
    have holds := view_holds stores shape
    have visits := visits_of_holds holds
    rw [(index_search_tree stores shape).root] at visits
    refine ⟨tree.addrs height, visits, ?_⟩
    rw [inner_rids_of_holds holds]
    refine ⟨orderly_balance watching.orderly, watching.apart, ?_, orderly_alternates watching.orderly,
      orderly_live watching.orderly⟩
    intro key rid bound
    exact watching.apart (rid, key) (table.recorded _ ((table.mem rid key).mpr bound))
  · intro rid key recorded absent
    obtain ⟨after, ran, _⟩ := insert_step (contract records) (by omega) invariant recorded absent
    exact ⟨after, ran⟩
  · intro rid key recorded present
    obtain ⟨after, ran, _⟩ := delete_step (contract records) enough invariant recorded present
    exact ⟨after, ran⟩

/-- The keys of the live references. No reference with the next number is live. -/
structure Shelf where
  next : Int
  keyOf : RID → Option Int
  unused : ∀ rid, next ≤ rid.idx → keyOf rid = none

def Shelf.put (shelf : Shelf) (key : Int) : Shelf where
  next := shelf.next + 1
  keyOf := Function.update shelf.keyOf ⟨0, shelf.next⟩ (some key)
  unused := by
    intro rid above
    rw [Function.update_of_ne]
    · exact shelf.unused rid (by omega)
    · rintro rfl
      simp at above

def Shelf.free (shelf : Shelf) (rid : RID) : Shelf where
  next := shelf.next
  keyOf := Function.update shelf.keyOf rid none
  unused := by
    intro other above
    rw [Function.update_apply]
    split_ifs
    · rfl
    · exact shelf.unused other above

/-- Every callback gets stuck on a reference that is not live. -/
def shelfCallbacks : Callbacks Shelf where
  cmp first second := fun shelf => do
    let a ← shelf.keyOf first
    let b ← shelf.keyOf second
    some (op a b, shelf)
  insertHandler rid := fun shelf => do
    let key ← shelf.keyOf rid
    some (⟨0, shelf.next⟩, shelf.put key)
  deleteHandler rid := fun shelf => do
    let _ ← shelf.keyOf rid
    some ((), shelf.free rid)

theorem shelf_keeps : Keeps Shelf.keyOf shelfCallbacks where
  cmp := by
    intro shelf first second a b isFirst isSecond
    refine ⟨op a b, shelf, ?_, op_agrees a b, rfl⟩
    simp [shelfCallbacks, isFirst, isSecond]
  insertHandler := by
    intro shelf rid key known
    refine ⟨⟨0, shelf.next⟩, shelf.put key, ?_, shelf.unused _ (le_refl _), rfl⟩
    simp [shelfCallbacks, known]
  deleteHandler := by
    intro shelf rid key known
    refine ⟨shelf.free rid, ?_, rfl⟩
    simp [shelfCallbacks, known]

/-- The records of the caller, each with its block address as its key. -/
def firstShelf : Shelf where
  next := 2
  keyOf rid := if rid.idx = 1 then some rid.blockAddr else none
  unused := by
    intro rid above
    exact if_neg (by omega)

/-- A run with these calls goes on until so many of seven records are in the tree. -/
def Shelved (earlier : Log RID Shelf) (count : Nat) : Prop :=
  ∃ pool shelf log, Run 3 shelfCallbacks Shelf.keyOf (boundBelow count) (numbered 7) pool shelf log ∧ earlier <:+ log

theorem shelved_none : Shelved [] 0 := by
  obtain ⟨_, empty, opened, _⟩ := @b_tree_init_empty Int _ 3 emptyIndexDisk rfl blankIndexPool
  have noneBound : boundBelow 0 = fun _ => none := by
    funext key
    exact if_neg (by omega)
  refine ⟨empty, firstShelf, [], noneBound ▸ .opened rfl opened ?_, List.suffix_refl _⟩
  intro entry member
  obtain ⟨number, _, rfl⟩ := Multiset.mem_map.mp member
  rfl

theorem invariant_extends {bindings : Bindings Int} {pool : IndexPool} {shelf : Shelf} {earlier log : Log RID Shelf}
    (run : Run 3 shelfCallbacks Shelf.keyOf bindings (numbered 7) pool shelf log) (longer : earlier <:+ log) :
    Invariant 3 (fun records separators state => Watching Shelf.keyOf records separators state ∧ earlier <:+ state.2)
      bindings (numbered 7) (pool, (shelf, log)) := by
  obtain ⟨rows, separators, store, stores, watching, shape, table⟩ := run_invariant shelf_keeps (by decide) run
  exact ⟨rows, separators, store, stores, ⟨watching, longer⟩, shape, table⟩

theorem shelved_more {earlier : Log RID Shelf} {count : Nat} (less : count < 7) (before : Shelved earlier count) :
    Shelved earlier (count + 1) := by
  obtain ⟨pool, shelf, log, run, longer⟩ := before
  obtain ⟨⟨later, after, last⟩, ran, _, _, _, _, ⟨_, extended⟩, _⟩ := insert_step (watch_extends shelf_keeps earlier _)
    (by decide) (invariant_extends run longer) (numbered_mem less) (bound_below_self count)
  have next := Run.inserted run (numbered_mem less) (bound_below_self count) ran
  rw [bound_below_succ] at next
  exact ⟨later, after, last, next, extended⟩

theorem shelved_fewer {earlier : Log RID Shelf} {count : Nat} (less : count < 7)
    (before : Shelved earlier (count + 1)) : Shelved earlier count := by
  obtain ⟨pool, shelf, log, run, longer⟩ := before
  have present : boundBelow (count + 1) count ≠ none := by
    rw [boundBelow, if_pos (by omega)]
    exact Option.some_ne_none _
  obtain ⟨⟨later, after, last⟩, ran, _, _, _, _, ⟨_, extended⟩, _⟩ := delete_step (watch_extends shelf_keeps earlier _)
    (by decide) (invariant_extends run longer) (numbered_mem less) present
  have next := Run.deleted run (numbered_mem less) present ran
  rw [bound_below_pred] at next
  exact ⟨later, after, last, next, extended⟩

theorem shelved_rises (count : Nat) (le : count ≤ 7) : Shelved [] count := by
  induction count with
  | zero => exact shelved_none
  | succ count ih => exact shelved_more (by omega) (ih (by omega))

theorem shelved_falls {earlier : Log RID Shelf} (count : Nat) (le : count ≤ 7) (start : Shelved earlier count) :
    Shelved earlier 0 := by
  induction count with
  | zero => exact start
  | succ count ih => exact ih (by omega) (shelved_fewer (by omega) start)

theorem copies_in_use {total : Nat} {records : Multiset (Entry Int)} {pool : IndexPool} {shelf : Shelf}
    {log : Log RID Shelf} (many : 6 ≤ total)
    (run : Run 3 shelfCallbacks Shelf.keyOf (boundBelow total) records pool shelf log) : passed log ≠ returned log := by
  have invariant := run_invariant shelf_keeps (by decide) run
  have inner := numbered_inner many invariant
  obtain ⟨_, _, _, stores, watching, ⟨height, tree, _, shape, _, _, rfl⟩, _⟩ := invariant
  intro same
  have held := orderly_balance watching.orderly
  rw [same, add_eq_right, Multiset.map_eq_zero] at held
  have isTree := index_search_tree stores shape
  rw [← isTree.root] at inner
  cases height with
  | zero => exact absurd (isTree.nodes.leaf.symm.trans inner) (by decide)
  | succ height =>
      have arity : (tree.kids.map (Tree.items height)).length = tree.seps.length + 1 := by
        rw [List.length_map, tree.arity]
      have least : min (height + 1) 1 ≤ tree.seps.length := isTree.sized.1.1
      have counted := congrArg Multiset.card held
      rw [Tree.items_inner, separators_of_join arity, Multiset.card_add, Multiset.coe_card,
        Multiset.card_zero] at counted
      omega

theorem root_leaf_rids {page : Int → BNode} {addr : Int} {nodes : Multiset Int} (isLeaf : (page addr).leaf = true)
    (visits : Visits page addr nodes) : innerRids page nodes = 0 := by
  cases visits with
  | leaf _ => simp [innerRids, innerRow, isLeaf]
  | inner isInner _ => exact absurd (isLeaf.symm.trans isInner) (by decide)

/-- Seven records are inserted, which splits the root, and deleted again, which merges its children, and every
copy that was made is freed. -/
theorem handler_protocol_split_and_merge : ∃ (split merged : IndexPool) (shelf last : Shelf)
    (log longer : Log RID Shelf) (nodes rest : Multiset Int),
    (Run 3 shelfCallbacks Shelf.keyOf (boundBelow 7) (numbered 7) split shelf log ∧
      Visits (view split) (rootNode (view split 0)) nodes ∧
      Protocol Shelf.keyOf (boundBelow 7) (numbered 7) (innerRids (view split) nodes) log ∧
      passed log ≠ returned log) ∧
    Run 3 shelfCallbacks Shelf.keyOf (boundBelow 0) (numbered 7) merged last longer ∧ log <:+ longer ∧
      Visits (view merged) (rootNode (view merged 0)) rest ∧ innerRids (view merged) rest = 0 ∧
      Protocol Shelf.keyOf (boundBelow 0) (numbered 7) (innerRids (view merged) rest) longer := by
  have calls := handler_protocol 3 (by decide) shelfCallbacks Shelf.keyOf shelf_keeps
  obtain ⟨split, shelf, log, full, _⟩ := shelved_rises 7 le_rfl
  obtain ⟨merged, last, longer, empty, extended⟩ := shelved_falls 7 le_rfl ⟨split, shelf, log, full, List.suffix_refl _⟩
  obtain ⟨⟨nodes, visits, protocol⟩, _⟩ := calls _ _ _ _ _ full
  obtain ⟨⟨rest, visitsRest, protocolRest⟩, _⟩ := calls _ _ _ _ _ empty
  have merges := nothing_bound_leaf (by decide) (run_invariant shelf_keeps (by decide) empty)
    fun key => if_neg (by omega)
  exact ⟨split, merged, shelf, last, log, longer, nodes, rest, ⟨full, visits, protocol, copies_in_use (by decide) full⟩,
    empty, extended, visitsRest, root_leaf_rids merges visitsRest, protocolRest⟩

end MyJQL.BTreeHandlers
