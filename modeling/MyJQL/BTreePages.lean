import MyJQL.BTreeLayout

/-!
# Pages of the tree

Specifications of the functions that hand out pages and take them back, and of the loops that hang
children up under another node.
-/

namespace MyJQL.BTreePages

open MyJQL.FileIo
open MyJQL.BufferPoolModel
open MyJQL.StateProgram
open MyJQL.PageStoreLogic
open MyJQL.PageAccounting
open MyJQL.LinkedPages
open MyJQL.BTreeModel
open MyJQL.BTreeLayout

set_option autoImplicit false

variable {store : IndexStore} {root addr : Int} {free : List Int} {used orphans : Multiset Int}
  {pins : List (Int × Frame)} {rel : IndexStore → IndexPool → Prop}

/-- What the functions that handle pages rely on: a file that is accounted for, and pins on pages in
use only. -/
structure Accounted (store : IndexStore) (root : Int) (free : List Int) (used orphans : Multiset Int)
    (pins : List (Int × Frame)) : Prop where
  ledger : Ledger store.page store.length root free used orphans
  held : Pins store pins
  inUse : ∀ addr ∈ pins.map Prod.fst, addr ∈ used

theorem zero_unpinned (known : Accounted store root free used orphans pins) :
    (0 : Int) ∉ pins.map Prod.fst := fun member =>
  (ledger_used known.ledger (known.inUse 0 member)).2.2.2.1 rfl

theorem control_in_file (ledger : Ledger store.page store.length root free used orphans) :
    (0 : Int) ≤ 0 ∧ (0 : Int) % pageSize = 0 ∧ 0 < store.length :=
  ledger_in_file ledger (Multiset.mem_cons_self _ _)

theorem pins_released {frame : Frame} (held : Pins store ((addr, frame) :: pins))
    (absent : addr ∉ pins.map Prod.fst) : Pins (store.unpinned addr) pins := by
  have filtered := pins_unpinned held addr
  have rest : ((addr, frame) :: pins).filter (fun pin => pin.1 ≠ addr) = pins := by
    rw [List.filter_cons_of_neg (by simp), List.filter_eq_self]
    intro pin member
    have different : pin.1 ≠ addr := fun same => absent (same ▸ List.mem_map_of_mem member)
    simpa using different
  rw [rest] at filtered
  exact filtered

theorem pins_released_last {frame : Frame} (held : Pins store (pins ++ [(addr, frame)]))
    (absent : addr ∉ pins.map Prod.fst) : Pins (store.unpinned addr) pins :=
  pins_released (pins_perm held (List.perm_append_singleton _ _)) absent

theorem ensures_get_new_b_node [PoolRules rel] {post : Int → IndexStore → Prop}
    (known : Accounted store root free used orphans pins) (room : pins.length + 1 < cachePage)
    (none : ∀ after : IndexStore, free = [] → after.page = store.page → after.length = store.length →
      Pins after pins → post (-1) after)
    (recycled : ∀ ans rest after, free = ans :: rest →
      (∀ other ∈ used, after.page other = store.page other) → after.length = store.length →
      Ledger after.page after.length root rest (ans ::ₘ used) orphans → Pins after pins →
      post ans after) :
    Ensures rel store getNewBNode post := by
  have ledger := known.ledger
  have noControl := zero_unpinned known
  rw [getNewBNode]
  refine ensures_bind (ensures_pin (control_in_file ledger) known.held noControl (by omega) ?_)
  intro ctr held
  refine ensures_bind (ensures_load (by simp) ?_)
  simp only [PageStore.pinned_page, ledger.num]
  cases free with
  | nil =>
      rw [if_neg (by simp)]
      refine ensures_bind (ensures_unpin ctr (by simp) ?_)
      exact ensures_pure _ (none _ rfl rfl rfl (pins_released held noControl))
  | cons ans rest =>
      obtain ⟨isHead, _, behind⟩ := ledger.links
      simp only [freeShape, id_eq] at isHead behind
      have nodup := ledger_nodup ledger
      have ansFile : 0 ≤ ans ∧ ans % pageSize = 0 ∧ ans < store.length :=
        ledger_in_file ledger (by simp)
      have ansApart : ans ≠ 0 ∧ ans ∉ used ∧ ans ∉ rest := by
        simp only [Multiset.nodup_cons, Multiset.nodup_add, Multiset.mem_add, Multiset.mem_coe,
          not_or, Multiset.coe_nodup, List.nodup_cons, List.mem_cons] at nodup
        refine ⟨fun same => nodup.1.1.2.1 same.symm, fun inUse => ?_, nodup.2.1.2.1.1⟩
        exact Multiset.disjoint_left.mp nodup.2.1.2.2 inUse (by simp)
      have ansUnpinned : ans ∉ ((0, ctr) :: pins).map Prod.fst := by
        simp only [List.map_cons, List.mem_cons, not_or]
        exact ⟨ansApart.1, fun member => ansApart.2.1 (known.inUse ans member)⟩
      rw [if_pos (by simp only [List.length_cons]; omega), isHead]
      refine ensures_bind (ensures_pin ansFile held ansUnpinned (by simpa using room) ?_)
      intro node heldBoth
      refine ensures_bind (ensures_load (by simp) ?_)
      refine ensures_bind (ensures_amend (by simp [ansApart.1.symm]) ?_)
      refine ensures_bind (ensures_amend (by simp) ?_)
      refine ensures_bind (ensures_unpin node (by simp) ?_)
      refine ensures_bind (ensures_amend (by simp [ansApart.1.symm]) ?_)
      have rejoin : ∀ after : IndexStore, (∀ other, other ≠ 0 → other ≠ ans →
          after.page other = store.page other) → rootNode (after.page 0) = rootNode (store.page 0) →
          freeNodeHead (after.page 0) = (store.page ans).next →
          freeNodeTail (after.page 0) = rest.getLast?.getD (-1) →
          freeNodeNum (after.page 0) = rest.length → after.length = store.length →
          Pins after ((0, ctr) :: pins) →
          Ensures rel after (do unpin 0; pure ans) post := by
        intro after same rootKept head tail num length afterHeld
        refine ensures_bind (ensures_unpin ctr ((afterHeld 0 ctr).mpr List.mem_cons_self) ?_)
        refine ensures_pure _ (recycled ans rest _ rfl ?_ length ?_ (pins_released afterHeld noControl))
        · intro other inUse
          exact same other (ledger_used ledger inUse).2.2.2.1 fun isAns => ansApart.2.1 (isAns ▸ inUse)
        · have taken := ledger_taken ledger same rootKept head tail num
          rw [← length] at taken
          exact taken
      have released := pins_released heldBoth ansUnpinned
      have zeroFree := ansApart.1.symm
      apply ensures_ite
      · intro empty
        have none : rest = [] := by
          rw [← List.length_eq_zero_iff]
          simp only [List.length_cons] at empty
          omega
        apply ensures_bind
        apply ensures_amend
        · simp [zeroFree]
        apply rejoin
        · intro other notControl notAns
          simp [notControl, notAns]
        · simp [zeroFree]
        · simp [zeroFree]
        · simp [zeroFree, none]
        · simp [zeroFree]
        · rfl
        · exact released
      · intro more
        have some : rest ≠ [] := by
          rintro rfl
          simp at more
        apply rejoin
        · intro other notControl notAns
          simp [notControl, notAns]
        · simp [zeroFree]
        · simp [zeroFree]
        · have tail := ledger.tail
          rw [List.getLast?_cons_of_ne_nil some] at tail
          simpa [zeroFree] using tail
        · simp [zeroFree]
        · rfl
        · exact released

/-- The file grows only when no page is free. -/
def Thrifty (free : List Int) (length : Int) (rest : List Int) (after : Int) : Prop :=
  (rest <:+ free ∧ after = length) ∨ (rest = [] ∧ length ≤ after)

theorem thrifty_same (free : List Int) (length : Int) : Thrifty free length free length :=
  .inl ⟨List.suffix_rfl, rfl⟩

theorem thrifty_trans {rest last : List Int} {length middle after : Int} (first : Thrifty free length rest middle)
    (second : Thrifty rest middle last after) : Thrifty free length last after := by
  rcases first with ⟨fewer, rfl⟩ | ⟨rfl, longer⟩
  · exact second.imp_left fun further => ⟨further.1.trans fewer, further.2⟩
  · rcases second with ⟨none, rfl⟩ | ⟨none, further⟩
    · exact .inr ⟨List.suffix_nil.mp none, longer⟩
    · exact .inr ⟨none, longer.trans further⟩

theorem ensures_new_node [GrowRules rel] {post : PagePtr → IndexStore → Prop}
    (known : Accounted store root free used orphans pins) (room : pins.length + 1 < cachePage)
    (continues : ∀ addr frame rest after, addr ∉ used →
      (∀ other ∈ used, after.page other = store.page other) →
      Accounted after root rest (addr ::ₘ used) orphans ((addr, frame) :: pins) →
      Thrifty free store.length rest after.length → post ⟨frame, addr⟩ after) :
    Ensures rel store newNode post := by
  have finish : ∀ addr frame rest (after : IndexStore),
      (∀ other ∈ used, after.page other = store.page other) →
      Ledger after.page after.length root rest (addr ::ₘ used) orphans →
      Pins after ((addr, frame) :: pins) → Thrifty free store.length rest after.length →
      post ⟨frame, addr⟩ after := by
    intro addr frame rest after same ledger held thrifty
    apply continues addr frame rest after
    · exact (Multiset.nodup_cons.mp (ledger_used_nodup ledger)).1
    · exact same
    · refine ⟨ledger, held, ?_⟩
      intro other member
      rw [List.map_cons, List.mem_cons] at member
      exact Multiset.mem_cons.mpr (member.imp_right (known.inUse other))
    · exact thrifty
  rw [newNode]
  apply ensures_bind
  apply ensures_get_new_b_node known room
  · intro after noFree page length held
    rw [if_pos rfl]
    apply ensures_bind
    apply ensures_file_length
    have ledger := known.ledger
    rw [← page, ← length] at ledger
    have within := pins_within held
    apply ensures_append rfl within (by rw [List.length_map]; omega)
    intro frame fresh
    have notInFile : after.length ∉ used := fun inUse => by
      have := (ledger_used ledger inUse).2.2.1
      omega
    apply finish _ _ free
    · intro other inUse
      have different : other ≠ after.length := fun same => notInFile (same ▸ inUse)
      simp [different, page]
    · apply ledger_appended ledger
      intro other different
      simp [different]
    · apply pins_pinned
      · exact held
      · exact fun member => notInFile (known.inUse _ member)
    · rw [PageStore.pinned_length, PageStore.appended_length, length]
      exact .inr ⟨noFree, by simp [pageSize]⟩
  · intro ans rest after isFree same length ledger held
    obtain ⟨nonneg, aligned, inside, _, _⟩ := ledger_used ledger (Multiset.mem_cons_self ans used)
    have absent : ans ∉ pins.map Prod.fst := fun member =>
      (Multiset.nodup_cons.mp (ledger_used_nodup ledger)).1 (known.inUse ans member)
    rw [if_neg (by omega)]
    apply ensures_pin ⟨nonneg, aligned, inside⟩ held absent (by omega)
    intro frame heldAns
    refine finish ans frame rest _ same ledger heldAns ?_
    rw [PageStore.pinned_length, isFree]
    exact .inl ⟨List.suffix_cons ans rest, length⟩

theorem segment_snoc {page changed : Int → BNode} {head addr : Int} {front : List Int} {last : Int}
    (segment : freeShape.Segment page head (front ++ [last]) (-1))
    (same : ∀ other ∈ front, changed other = page other) (linked : (changed last).next = addr)
    (ended : (changed addr).next = -1) :
    freeShape.Segment changed head (front ++ [last] ++ [addr]) (-1) := by
  obtain ⟨first, _, _⟩ := NodeShape.segment_focus segment
  apply NodeShape.segment_append.mpr
  refine ⟨addr, NodeShape.segment_append.mpr ⟨last, NodeShape.segment_frame same first, rfl, trivial, linked⟩,
    rfl, trivial, ended⟩

/-- The last three steps, once the list and the control block name the page. -/
theorem ensures_end_list [PoolRules rel] {ctr : Frame} {after : IndexStore} {post : Unit → IndexStore → Prop}
    (ledger : Ledger store.page store.length root free (addr ::ₘ used) orphans)
    (inUse : ∀ other ∈ pins.map Prod.fst, other ∈ used) (room : pins.length + 1 < cachePage)
    (length : after.length = store.length) (heldAfter : Pins after ((0, ctr) :: pins))
    (same : ∀ other ∈ used, after.page other = store.page other)
    (rootKept : rootNode (after.page 0) = rootNode (store.page 0)) (tail : freeNodeTail (after.page 0) = addr)
    (num : freeNodeNum (after.page 0) = free.length + 1)
    (links : ∀ changed : Int → BNode, (∀ other, other ≠ addr → changed other = after.page other) →
      (changed addr).next = -1 → freeShape.Segment changed (freeNodeHead (changed 0)) (free ++ [addr]) (-1))
    (continues : ∀ final : IndexStore, (∀ other ∈ used, final.page other = store.page other) →
      Accounted final root (free ++ [addr]) used orphans pins → post () final) :
    Ensures rel after (do
      unpin 0
      let node ← fetch addr
      amend node (setNext (-1))
      unpin addr) post := by
  have addrUsed := ledger_used ledger (Multiset.mem_cons_self addr used)
  have addrFresh : addr ∉ used := (Multiset.nodup_cons.mp (ledger_used_nodup ledger)).1
  have noAddr : addr ∉ pins.map Prod.fst := fun member => addrFresh (inUse addr member)
  have noControl : (0 : Int) ∉ pins.map Prod.fst := fun member =>
    (ledger_used ledger (Multiset.mem_cons_of_mem (inUse 0 member))).2.2.2.1 rfl
  have zero : addr ≠ 0 := addrUsed.2.2.2.1
  refine ensures_bind (ensures_unpin ctr ((heldAfter 0 ctr).mpr List.mem_cons_self) ?_)
  have released := pins_released heldAfter noControl
  have inFile : 0 ≤ addr ∧ addr % pageSize = 0 ∧ addr < (after.unpinned 0).length := by
    rw [PageStore.unpinned_length, length]
    exact ⟨addrUsed.1, addrUsed.2.1, addrUsed.2.2.1⟩
  refine ensures_bind (ensures_pin inFile released noAddr (by omega) ?_)
  intro frame heldAddr
  refine ensures_bind (ensures_amend (by simp) ?_)
  refine ensures_unpin frame (by simp) ?_
  apply continues
  · intro other member
    have different : other ≠ addr := fun own => addrFresh (own ▸ member)
    simp [different, same other member]
  · refine ⟨?_, pins_released heldAddr noAddr, inUse⟩
    have linked : Ledger (((((after.unpinned 0).pinned addr frame).written addr
        (setNext (-1) (after.page addr))).unpinned addr).page) store.length root (free ++ [addr]) used orphans :=
      ledger_linked ledger (links _ (fun other different => by simp [different]) (by simp [setNext]))
        (by simp [zero.symm, rootKept]) (by simp [zero.symm, tail]) (by simp [zero.symm, num])
    simpa [length] using linked

theorem ensures_link_free [PoolRules rel] {post : Unit → IndexStore → Prop}
    (ledger : Ledger store.page store.length root free (addr ::ₘ used) orphans) (held : Pins store pins)
    (inUse : ∀ other ∈ pins.map Prod.fst, other ∈ used) (room : pins.length + 1 < cachePage)
    (continues : ∀ after : IndexStore, (∀ other ∈ used, after.page other = store.page other) →
      Accounted after root (free ++ [addr]) used orphans pins → post () after) :
    Ensures rel store (linkFree addr) post := by
  have nodup := ledger_nodup ledger
  have addrUsed := ledger_used ledger (Multiset.mem_cons_self addr used)
  have addrFresh : addr ∉ used := (Multiset.nodup_cons.mp (ledger_used_nodup ledger)).1
  have others : ∀ other ∈ used, other ≠ 0 ∧ other ≠ addr ∧ other ∉ free := by
    intro other member
    obtain ⟨_, _, _, notControl, notFree⟩ := ledger_used ledger (Multiset.mem_cons_of_mem member)
    exact ⟨notControl, fun same => addrFresh (same ▸ member), notFree⟩
  have noControl : (0 : Int) ∉ pins.map Prod.fst := fun member => (others 0 (inUse 0 member)).1 rfl
  have zero : addr ≠ 0 := addrUsed.2.2.2.1
  rw [linkFree]
  refine ensures_bind (ensures_pin (control_in_file ledger) held noControl (by omega) ?_)
  intro ctr heldControl
  refine ensures_bind (ensures_load (by simp) ?_)
  simp only [PageStore.pinned_page, ledger.num]
  rcases List.eq_nil_or_concat' free with rfl | ⟨front, last, rfl⟩
  · rw [if_neg (by simp)]
    refine ensures_bind (ensures_amend (by simp) ?_)
    refine ensures_end_list ledger inUse room rfl heldControl ?_ ?_ ?_ ?_ ?_ continues
    · intro other member
      simp [(others other member).1]
    · simp
    · simp
    · simp
    · intro changed same ended
      have control := same 0 zero.symm
      rw [control]
      exact ⟨by simp [freeShape], trivial, ended⟩
  · have lastFile : 0 ≤ last ∧ last % pageSize = 0 ∧ last < store.length :=
      ledger_in_file ledger (by simp)
    have listed : (front ++ [last]).Nodup ∧ (0 : Int) ∉ front ++ [last] := by
      rw [Multiset.nodup_cons, Multiset.nodup_add, Multiset.nodup_add] at nodup
      exact ⟨nodup.2.1.2.1, fun member => nodup.1 (by simp [member])⟩
    have notLast : (∀ other ∈ front, other ≠ last) ∧ 0 ≠ last ∧ addr ≠ last ∧ last ∉ used := by
      refine ⟨?_, fun same => listed.2 (by simp [same]), fun same => addrUsed.2.2.2.2 (by simp [same]),
        fun member => (others last member).2.2 (by simp)⟩
      rintro other member rfl
      exact (List.nodup_append.mp listed.1).2.2 other member other (by simp) rfl
    have notFront : ∀ other ∈ front, other ≠ 0 ∧ other ≠ addr := fun other member =>
      ⟨fun same => listed.2 (by simp [← same, member]),
        fun same => addrUsed.2.2.2.2 (by simp [← same, member])⟩
    have tail := ledger.tail
    rw [List.getLast?_append_of_ne_nil _ (List.cons_ne_nil _ _)] at tail
    simp only [List.getLast?_singleton, Option.getD_some] at tail
    rw [if_pos (by simp only [List.length_append, List.length_singleton]; omega)]
    refine ensures_bind (ensures_amend (by simp) ?_)
    rw [tail]
    have lastUnpinned : last ∉ ((0, ctr) :: pins).map Prod.fst := by
      simp only [List.map_cons, List.mem_cons, not_or]
      exact ⟨notLast.2.1.symm, fun member => notLast.2.2.2 (inUse last member)⟩
    refine ensures_bind (ensures_pin lastFile heldControl lastUnpinned (by simpa using room) ?_)
    intro frame heldLast
    refine ensures_bind (ensures_amend (by simp) ?_)
    refine ensures_bind (ensures_unpin frame (by simp) ?_)
    refine ensures_bind (ensures_amend (by simp [notLast.2.1]) ?_)
    refine ensures_end_list ledger inUse room rfl (pins_released heldLast lastUnpinned) ?_ ?_ ?_ ?_ ?_ continues
    · intro other member
      have different : other ≠ last := fun same => notLast.2.2.2 (same ▸ member)
      simp [(others other member).1, different]
    · simp [notLast.2.1]
    · simp [notLast.2.1]
    · simp [notLast.2.1]
    · intro changed same ended
      have control := same 0 zero.symm
      have linked := same last notLast.2.2.1.symm
      rw [control]
      have head : freeShape.Segment store.page (freeNodeHead (store.page 0)) (front ++ [last]) (-1) :=
        ledger.links
      simp only [PageStore.written_page, if_true, free_node_head_set_free_node_tail,
        PageStore.unpinned_page, if_neg notLast.2.1, PageStore.pinned_page,
        free_node_head_set_free_node_num]
      apply segment_snoc head
      · intro other member
        rw [same other (notFront other member).2]
        simp [(notFront other member).1, notLast.1 other member]
      · rw [linked]
        simp [notLast.2.1.symm, setNext]
      · exact ended

theorem ensures_release_new_b_node [CutRules rel] {frame : Frame} {post : Unit → IndexStore → Prop}
    (ledger : Ledger store.page store.length root free (addr ::ₘ used) orphans)
    (held : Pins store ((addr, frame) :: pins)) (inUse : ∀ other ∈ pins.map Prod.fst, other ∈ used)
    (room : pins.length + 1 < cachePage)
    (continues : ∀ rest after, (∀ other ∈ used, after.page other = store.page other) →
      Accounted after root rest used orphans pins → post () after) :
    Ensures rel store (releaseNewBNode addr) post := by
  have addrUsed := ledger_used ledger (Multiset.mem_cons_self addr used)
  have absent : addr ∉ pins.map Prod.fst := fun member =>
    (Multiset.nodup_cons.mp (ledger_used_nodup ledger)).1 (inUse addr member)
  have released := pins_released held absent
  rw [releaseNewBNode]
  refine ensures_bind (ensures_unpin frame ((held addr frame).mpr List.mem_cons_self) ?_)
  refine ensures_bind (ensures_file_length ?_)
  rw [PageStore.unpinned_length]
  apply ensures_ite
  · intro last
    apply ensures_cut_last addrUsed.1 (show addr = (store.unpinned addr).length - pageSize from last)
    apply continues free
    · intro other member
      rfl
    · refine ⟨ledger_cut ledger last, ?_, inUse⟩
      have cut := pins_cut released addr
      have rest : pins.filter (fun pin => pin.1 ≠ addr) = pins := by
        rw [List.filter_eq_self]
        intro pin member
        have different : pin.1 ≠ addr := fun same => absent (same ▸ List.mem_map_of_mem member)
        simpa using different
      rw [rest] at cut
      exact cut
  · intro notLast
    exact ensures_link_free ledger released inUse room fun after same known =>
      continues _ after same known

theorem ensures_reparent [PoolRules rel] {parent : Int} {post : Unit → IndexStore → Prop}
    (inFile : 0 ≤ addr ∧ addr % pageSize = 0 ∧ addr < store.length) (held : Pins store pins)
    (absent : addr ∉ pins.map Prod.fst) (room : pins.length < cachePage)
    (continues : ∀ after : IndexStore,
      after.page = Function.update store.page addr (setParent parent (store.page addr)) →
      after.length = store.length → Pins after pins → post () after) :
    Ensures rel store (reparent parent addr) post := by
  rw [reparent]
  refine ensures_bind (ensures_pin inFile held absent room ?_)
  intro frame heldSon
  refine ensures_bind (ensures_amend (by simp) ?_)
  refine ensures_unpin frame (by simp) (continues _ rfl rfl ?_)
  exact pins_released heldSon absent

def reparented (parent : Int) (addrs : List Int) (page : Int → BNode) : Int → BNode := fun addr =>
  if addr ∈ addrs then setParent parent (page addr) else page addr

theorem ensures_reparent_all [PoolRules rel] {parent : Int} {child : Nat → Int} {addrs : List Int} {j : Nat}
    {post : Unit → IndexStore → Prop}
    (children : ∀ index (inside : index < addrs.length), child (j + index) = addrs[index])
    (inFile : ∀ addr ∈ addrs, 0 ≤ addr ∧ addr % pageSize = 0 ∧ addr < store.length)
    (nodup : addrs.Nodup) (held : Pins store pins) (absent : ∀ addr ∈ addrs, addr ∉ pins.map Prod.fst)
    (room : pins.length < cachePage)
    (continues : ∀ after : IndexStore, after.page = reparented parent addrs store.page →
      after.length = store.length → Pins after pins → post () after) :
    Ensures rel store (reparentAll parent child addrs.length j) post := by
  induction addrs generalizing j store with
  | nil =>
      apply ensures_pure
      apply continues
      · funext addr
        simp [reparented]
      · rfl
      · exact held
  | cons addr rest ih =>
      have first : child j = addr := children 0 (Nat.succ_pos _)
      obtain ⟨fresh, restNodup⟩ := List.nodup_cons.mp nodup
      rw [List.length_cons, reparentAll, first]
      apply ensures_bind
      apply ensures_reparent (inFile addr List.mem_cons_self) held (absent addr List.mem_cons_self) room
      intro middle page length heldMiddle
      apply ih
      · intro index inside
        have entry := children (index + 1) (by simpa using inside)
        rw [List.getElem_cons_succ] at entry
        rw [← entry]
        congr 1
        omega
      · intro other member
        rw [length]
        exact inFile other (List.mem_cons_of_mem _ member)
      · exact restNodup
      · exact heldMiddle
      · exact fun other member => absent other (List.mem_cons_of_mem _ member)
      · intro after afterPage afterLength afterHeld
        apply continues after
        · rw [afterPage, page]
          funext other
          simp only [reparented, List.mem_cons, Function.update_apply]
          by_cases own : other = addr
          · simp [own, fresh]
          · simp [own]
        · exact afterLength.trans length
        · exact afterHeld

def setChildren (child : Nat → Int) (page : BNode) : BNode := { page with child := child }

/-- The owner lists the children from the front on, and each child names the owner. -/
theorem ensures_adopt [PoolRules rel] {owner : PagePtr} {ch : Nat → Int} {addrs : List Int} {j : Nat}
    {post : Unit → IndexStore → Prop}
    (children : ∀ index (inside : index < addrs.length), ch (j + index) = addrs[index])
    (inFile : ∀ addr ∈ addrs, 0 ≤ addr ∧ addr % pageSize = 0 ∧ addr < store.length)
    (nodup : addrs.Nodup) (held : Pins store pins) (own : (owner.addr, owner.frame) ∈ pins)
    (absent : ∀ addr ∈ addrs, addr ∉ pins.map Prod.fst) (room : pins.length < cachePage)
    (continues : ∀ after : IndexStore,
      (∀ other, other ≠ owner.addr → after.page other =
        reparented owner.addr addrs store.page other) →
      (∃ child, after.page owner.addr = setChildren child (store.page owner.addr) ∧
        (∀ index < j, child index = (store.page owner.addr).child index) ∧
        ∀ index (inside : index < addrs.length), child (j + index) = addrs[index]) →
      after.length = store.length → Pins after pins → post () after) :
    Ensures rel store (adopt owner ch addrs.length j) post := by
  induction addrs generalizing j store with
  | nil =>
      apply ensures_pure
      apply continues
      · intro other _
        simp [reparented]
      · exact ⟨(store.page owner.addr).child, rfl, fun _ _ => rfl, fun index inside => by cases inside⟩
      · rfl
      · exact held
  | cons addr rest ih =>
      have first : ch j = addr := children 0 (Nat.succ_pos _)
      obtain ⟨fresh, restNodup⟩ := List.nodup_cons.mp nodup
      have notOwner : ∀ other ∈ addr :: rest, owner.addr ≠ other := fun other member same =>
        absent other member (same ▸ List.mem_map_of_mem own)
      rw [List.length_cons, adopt, first]
      refine ensures_bind (ensures_amend ((held _ _).mpr own) ?_)
      apply ensures_bind
      apply ensures_reparent (by exact inFile addr List.mem_cons_self) (by exact held)
        (absent addr List.mem_cons_self) room
      intro middle page length heldMiddle
      have ownPage : middle.page owner.addr =
          setChildren (Function.update (store.page owner.addr).child j addr) (store.page owner.addr) := by
        rw [page, Function.update_of_ne (notOwner addr List.mem_cons_self)]
        simp [setChildren, setChild]
      apply ih
      · intro index inside
        have entry := children (index + 1) (by simpa using inside)
        rw [List.getElem_cons_succ] at entry
        rw [← entry]
        congr 1
        omega
      · intro other member
        rw [length]
        exact inFile other (List.mem_cons_of_mem _ member)
      · exact restNodup
      · exact heldMiddle
      · exact fun other member => absent other (List.mem_cons_of_mem _ member)
      · rintro after afterPage ⟨child, ownAfter, before, behind⟩ afterLength afterHeld
        apply continues after
        · intro other different
          rw [afterPage other different]
          simp only [reparented, List.mem_cons, page, Function.update_apply, PageStore.written_page,
            if_neg different]
          by_cases isAddr : other = addr
          · rw [isAddr] at different
            simp [isAddr, fresh, different]
          · simp [isAddr]
        · refine ⟨child, ?_, ?_, ?_⟩
          · rw [ownAfter, ownPage]
            rfl
          · intro index inside
            rw [before index (by omega), ownPage]
            exact Function.update_of_ne (by omega) _ _
          · intro index inside
            cases index with
            | zero =>
                rw [Nat.add_zero, before j (by omega), ownPage]
                exact Function.update_self _ _ _
            | succ index =>
                have entry := behind index (by simpa using inside)
                rw [List.getElem_cons_succ, ← entry]
                congr 1
                omega
        · exact afterLength.trans length
        · exact afterHeld

end MyJQL.BTreePages
