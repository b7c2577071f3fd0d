import MyJQL.BufferPoolTransparency
import Mathlib.Data.Fintype.Card
import Mathlib.Data.Finset.Card

/-!
# Programs over a pool, specified over an uncached page store

`fetch`, `load`, `amend` and `unpin` are the pool operations as a client uses them. They are stuck
where the C program would go wrong: an address that is no page's, a null pointer from `get_page`, an
access through a pointer whose frame no longer holds the page pinned, a release of a page that is not
cached, the removal of a page that is not the last.

The abstract state of a pool is a `PageStore`: an array of pages, its length, and which pages are
pinned in which frame. The rules below are all that the clients of the pool ever use.
-/

namespace MyJQL.PageStoreLogic

open MyJQL.FileIo
open MyJQL.BufferPoolModel
open MyJQL.BufferPoolInvariant
open MyJQL.BufferPoolTransparency
open MyJQL.StateProgram

set_option autoImplicit false

variable {Page : Type}

/-- A `Page *` together with the address it was fetched from. -/
structure PagePtr where
  frame : Frame
  addr : Int
  deriving DecidableEq

def IsPageAddr (addr : Int) : Prop := 0 ≤ addr ∧ addr % pageSize = 0

instance (addr : Int) : Decidable (IsPageAddr addr) := inferInstanceAs (Decidable (_ ∧ _))

def fetch (addr : Int) : Program (BufferPool Page) PagePtr := fun pool =>
  if IsPageAddr addr then
    match getPage pool addr with
    | (some frame, after) => some (⟨frame, addr⟩, after)
    | (none, _) => none
  else none

def load (pointer : PagePtr) : Program (BufferPool Page) Page := fun pool =>
  if pool.addrs pointer.frame = pointer.addr ∧ pool.ref pointer.frame ≠ 0 then
    some (pool.pages pointer.frame, pool)
  else none

def amend (pointer : PagePtr) (change : Page → Page) : Program (BufferPool Page) Unit := fun pool =>
  if pool.addrs pointer.frame = pointer.addr ∧ pool.ref pointer.frame ≠ 0 then
    some ((), writeFrame pool pointer.frame (change (pool.pages pointer.frame)))
  else none

def unpin (addr : Int) : Program (BufferPool Page) Unit := fun pool =>
  match labelled pool addr with
  | some _ => some ((), release pool addr)
  | none => none

def fileLength : Program (BufferPool Page) Int := fun pool => some (pool.file.length, pool)

def cutLast (addr : Int) : Program (BufferPool Page) Unit := fun pool =>
  if 0 ≤ addr ∧ addr = pool.file.length - pageSize then some ((), cutLastPage pool addr) else none

/-- The pool without its cache. The file on the disk may be longer than the pool takes it to be.
`resident` pages are known to sit in some frame, pinned or not. -/
structure PageStore (Page : Type) where
  page : Int → Page
  length : Int
  size : Int
  pin : Int → Option Frame
  resident : Int → Prop

namespace PageStore

def pinned (store : PageStore Page) (addr : Int) (frame : Frame) : PageStore Page :=
  { store with
    pin := Function.update store.pin addr (some frame)
    resident := fun other => other = addr ∨ (store.pin other).isSome }

def unpinned (store : PageStore Page) (addr : Int) : PageStore Page :=
  { store with pin := Function.update store.pin addr none }

def written (store : PageStore Page) (addr : Int) (page : Page) : PageStore Page :=
  { store with page := Function.update store.page addr page }

def appended (store : PageStore Page) (page : Page) : PageStore Page :=
  { store with
    page := Function.update store.page store.length page
    length := store.length + pageSize
    size := max store.size (store.length + pageSize) }

/-- The store in which a fetch at or below the end of the file leaves its page to the client, who
may find anything in it. -/
def grown (store : PageStore Page) (addr : Int) (page : Page) : PageStore Page :=
  { store with
    page := Function.update store.page addr page
    length := if addr = store.length then store.length + pageSize else store.length
    size := if addr = store.length then max store.size (store.length + pageSize) else store.size }

def cut (store : PageStore Page) (addr : Int) : PageStore Page :=
  { store with
    length := store.length - pageSize
    pin := Function.update store.pin addr none
    resident := fun other => other ≠ addr ∧ store.resident other }

section Projections

variable (store : PageStore Page) (addr other : Int) (frame : Frame) (page : Page)

@[simp] theorem pinned_page : (store.pinned addr frame).page = store.page := rfl
@[simp] theorem pinned_length : (store.pinned addr frame).length = store.length := rfl
@[simp] theorem pinned_size : (store.pinned addr frame).size = store.size := rfl
@[simp] theorem pinned_pin : (store.pinned addr frame).pin other =
    if other = addr then some frame else store.pin other := by
  simp [pinned, Function.update_apply]
@[simp] theorem pinned_resident : (store.pinned addr frame).resident other ↔
    other = addr ∨ (store.pin other).isSome := Iff.rfl

@[simp] theorem unpinned_page : (store.unpinned addr).page = store.page := rfl
@[simp] theorem unpinned_length : (store.unpinned addr).length = store.length := rfl
@[simp] theorem unpinned_size : (store.unpinned addr).size = store.size := rfl
@[simp] theorem unpinned_pin : (store.unpinned addr).pin other =
    if other = addr then none else store.pin other := by
  simp [unpinned, Function.update_apply]
@[simp] theorem unpinned_resident :
    (store.unpinned addr).resident other ↔ store.resident other := Iff.rfl

@[simp] theorem written_page : (store.written addr page).page other =
    if other = addr then page else store.page other := by
  simp [written, Function.update_apply]
@[simp] theorem written_length : (store.written addr page).length = store.length := rfl
@[simp] theorem written_size : (store.written addr page).size = store.size := rfl
@[simp] theorem written_pin : (store.written addr page).pin = store.pin := rfl
@[simp] theorem written_resident : (store.written addr page).resident = store.resident := rfl

@[simp] theorem appended_page : (store.appended page).page other =
    if other = store.length then page else store.page other := by
  simp [appended, Function.update_apply]
@[simp] theorem appended_length : (store.appended page).length = store.length + pageSize := rfl
@[simp] theorem appended_size : (store.appended page).size =
    max store.size (store.length + pageSize) := rfl
@[simp] theorem appended_pin : (store.appended page).pin = store.pin := rfl

@[simp] theorem grown_page : (store.grown addr page).page other =
    if other = addr then page else store.page other := by
  simp [grown, Function.update_apply]
@[simp] theorem grown_length : (store.grown addr page).length =
    if addr = store.length then store.length + pageSize else store.length := rfl
@[simp] theorem grown_size : (store.grown addr page).size = if addr = store.length then
    max store.size (store.length + pageSize) else store.size := rfl
@[simp] theorem grown_pin : (store.grown addr page).pin = store.pin := rfl

@[simp] theorem cut_page : (store.cut addr).page = store.page := rfl
@[simp] theorem cut_length : (store.cut addr).length = store.length - pageSize := rfl
@[simp] theorem cut_size : (store.cut addr).size = store.size := rfl
@[simp] theorem cut_pin : (store.cut addr).pin other =
    if other = addr then none else store.pin other := by
  simp [cut, Function.update_apply]

end Projections

end PageStore

/-- Every pinned page is in the list; a short list means that a frame is free. -/
def PinnedWithin (store : PageStore Page) (pages : List Int) : Prop :=
  ∀ addr frame, store.pin addr = some frame → addr ∈ pages

section PinnedWithin

variable {store : PageStore Page} {pages fewer : List Int} {addr : Int} {frame : Frame}

theorem pinned_within_mono (within : PinnedWithin store pages)
    (more : ∀ page ∈ pages, page ∈ fewer) : PinnedWithin store fewer :=
  fun addr frame pin => more addr (within addr frame pin)

theorem pinned_within_pinned (within : PinnedWithin store pages) :
    PinnedWithin (store.pinned addr frame) (addr :: pages) := by
  intro other holder pin
  rw [PageStore.pinned_pin] at pin
  split_ifs at pin with same
  · rw [same]; exact List.mem_cons_self
  · exact List.mem_cons_of_mem _ (within other holder pin)

theorem pinned_within_written {page : Page} (within : PinnedWithin store pages) :
    PinnedWithin (store.written addr page) pages := within

theorem pinned_within_unpinned (within : PinnedWithin store pages)
    (kept : ∀ page ∈ pages, page ≠ addr → page ∈ fewer) :
    PinnedWithin (store.unpinned addr) fewer := by
  intro other holder pin
  rw [PageStore.unpinned_pin] at pin
  split_ifs at pin with same
  exact kept other (within other holder pin) same

theorem pinned_within_released (within : PinnedWithin store (addr :: pages)) :
    PinnedWithin (store.unpinned addr) pages :=
  pinned_within_unpinned within fun _ member different => (List.mem_cons.mp member).resolve_left different

theorem pinned_within_cut (within : PinnedWithin store pages)
    (kept : ∀ page ∈ pages, page ≠ addr → page ∈ fewer) :
    PinnedWithin (store.cut addr) fewer := by
  intro other holder pin
  rw [PageStore.cut_pin] at pin
  split_ifs at pin with same
  exact kept other (within other holder pin) same

end PinnedWithin

/-- Exactly the pages of the list are pinned, each in its frame. -/
def Pins (store : PageStore Page) (pins : List (Int × Frame)) : Prop :=
  ∀ addr frame, store.pin addr = some frame ↔ (addr, frame) ∈ pins

section Pins

variable {store changed : PageStore Page} {pins : List (Int × Frame)} {addr : Int} {frame : Frame}

theorem pins_within (held : Pins store pins) : PinnedWithin store (pins.map Prod.fst) :=
  fun addr frame pin => List.mem_map.mpr ⟨(addr, frame), (held addr frame).mp pin, rfl⟩

theorem pins_of_within (within : PinnedWithin store []) : Pins store [] := by
  intro addr frame
  constructor
  · intro pin
    cases within addr frame pin
  · intro none
    cases none

theorem pins_pinned (held : Pins store pins) (absent : addr ∉ pins.map Prod.fst) :
    Pins (store.pinned addr frame) ((addr, frame) :: pins) := by
  intro other holder
  rw [PageStore.pinned_pin, List.mem_cons, Prod.mk.injEq]
  split_ifs with own
  · constructor
    · intro same
      exact .inl ⟨own, (Option.some.inj same).symm⟩
    · rintro (⟨_, same⟩ | member)
      · rw [same]
      · exact absurd (List.mem_map_of_mem member) (own ▸ absent)
  · rw [held other holder]
    simp [own]

theorem pins_unpinned (held : Pins store pins) (addr : Int) :
    Pins (store.unpinned addr) (pins.filter fun pin => pin.1 ≠ addr) := by
  intro other holder
  rw [PageStore.unpinned_pin, List.mem_filter, ← held other holder]
  split_ifs with own
  · simp [own]
  · simp [own]

theorem pins_cut (held : Pins store pins) (addr : Int) :
    Pins (store.cut addr) (pins.filter fun pin => pin.1 ≠ addr) := by
  intro other holder
  rw [PageStore.cut_pin, List.mem_filter, ← held other holder]
  split_ifs with own
  · simp [own]
  · simp [own]

theorem pins_perm {others : List (Int × Frame)} (held : Pins store pins) (perm : pins.Perm others) :
    Pins store others := fun addr frame => (held addr frame).trans perm.mem_iff

end Pins

/-- Which pools a page store stands for. -/
structure StoresPool (store : PageStore Page) (pool : BufferPool Page) : Prop where
  invariant : PoolInvariant pool
  length : pool.file.length = store.length
  size : pool.file.fp.size = store.size
  sizeAligned : store.size % pageSize = 0
  page : ∀ addr, InFile pool addr → view pool addr = store.page addr
  pin : ∀ addr frame, store.pin addr = some frame ↔
    pool.addrs frame = addr ∧ pool.ref frame ≠ 0
  resident : ∀ addr, store.resident addr → ∃ frame, pool.addrs frame = addr

/-- All frames are unpinned exactly if no page is pinned. -/
theorem num_valid_pool_iff {pool : BufferPool Page} {store : PageStore Page} (stores : StoresPool store pool) :
    numValidPool pool = cachePage ↔ PinnedWithin store [] := by
  have all : numValidPool pool = cachePage ↔ ∀ frame, pool.ref frame = 0 := by
    rw [numValidPool]
    constructor
    · intro full frame
      have counted : (List.finRange cachePage).countP (fun frame => pool.ref frame = 0) =
          (List.finRange cachePage).length := by rw [full, List.length_finRange]
      simpa using List.countP_eq_length.mp counted frame (List.mem_finRange frame)
    · intro free
      rw [List.countP_eq_length.mpr (by simp [free]), List.length_finRange]
  rw [all]
  constructor
  · intro free addr frame pin
    exact absurd (free frame) ((stores.pin addr frame).mp pin).2
  · intro within frame
    by_contra pinned
    cases within _ frame ((stores.pin _ frame).mpr ⟨rfl, pinned⟩)

/-- Relations that know more about a pool than `StoresPool`, as far as lengths go. What they know
survives a change that leaves the length of the file and its size on the disk alone. -/
class PoolRules (rel : PageStore Page → BufferPool Page → Prop) : Prop where
  stores : ∀ {store pool}, rel store pool → StoresPool store pool
  kept : ∀ {store pool changed after}, rel store pool → StoresPool changed after →
    changed.length = store.length → changed.size = store.size → rel changed after

/-- It also survives the page that is put behind the file. -/
class GrowRules (rel : PageStore Page → BufferPool Page → Prop) : Prop extends PoolRules rel where
  grown : ∀ {store pool changed after}, rel store pool → StoresPool changed after →
    changed.length = store.length + pageSize →
    changed.size = max store.size (store.length + pageSize) → rel changed after

/-- It also survives the cut of the last page. -/
class CutRules (rel : PageStore Page → BufferPool Page → Prop) : Prop extends PoolRules rel where
  cut : ∀ {store pool changed after}, rel store pool → StoresPool changed after →
    changed.length = store.length - pageSize → changed.size = store.size → rel changed after

instance : GrowRules (@StoresPool Page) where
  stores related := related
  kept _ stores _ _ := stores
  grown _ stores _ _ := stores

instance : CutRules (@StoresPool Page) where
  stores related := related
  kept _ stores _ _ := stores
  cut _ stores _ _ := stores

/-- A pool whose length and size meet a condition. -/
def StoresWhere (fact : Int → Int → Prop) (store : PageStore Page) (pool : BufferPool Page) : Prop :=
  StoresPool store pool ∧ fact store.length store.size

/-- A file that was `length` long, and `size` on the disk, and has only grown since. -/
def Grew (length size : Int) : Int → Int → Prop := fun now disk => length ≤ now ∧ disk = max size now

/-- A file that has only become shorter since. -/
def Shrank (length size : Int) : Int → Int → Prop := fun now disk => now ≤ length ∧ disk = size

instance (length size : Int) : GrowRules (@StoresWhere Page (Grew length size)) where
  stores related := related.1
  kept := by
    rintro store pool changed after ⟨_, lower, same⟩ stores sameLength sameSize
    exact ⟨stores, by rw [sameLength]; exact lower, by rw [sameLength, sameSize]; exact same⟩
  grown := by
    rintro store pool changed after ⟨_, lower, same⟩ stores longer larger
    refine ⟨stores, ?_, ?_⟩
    · simp only [pageSize] at longer
      omega
    · simp only [pageSize] at longer larger
      omega

instance (length size : Int) : CutRules (@StoresWhere Page (Shrank length size)) where
  stores related := related.1
  kept := by
    rintro store pool changed after ⟨_, upper, same⟩ stores sameLength sameSize
    exact ⟨stores, by rw [sameLength]; exact upper, by rw [sameSize]; exact same⟩
  cut := by
    rintro store pool changed after ⟨_, upper, same⟩ stores shorter sameSize
    refine ⟨stores, ?_, sameSize.trans same⟩
    simp only [pageSize] at shorter
    omega

section Rules

variable {store : PageStore Page} {addr : Int} {frame : Frame}
  {rel : PageStore Page → BufferPool Page → Prop}

theorem pinned_in_file {pool : BufferPool Page} (stores : StoresPool store pool)
    (pin : store.pin addr = some frame) : InFile pool addr := by
  obtain ⟨label, refNonzero⟩ := (stores.pin addr frame).mp pin
  rcases stores.invariant.addrsInside frame with empty | inside
  · exact absurd (stores.invariant.emptyUnpinned frame empty) refNonzero
  · rw [label] at inside
    exact inside

def PageStore.opened (disk : Disk Page) : PageStore Page where
  page := disk.page
  length := disk.size
  size := disk.size
  pin _ := none
  resident _ := False

theorem opened_stores (disk : Disk Page) (memory : BufferPool Page) (nonneg : 0 ≤ disk.size)
    (aligned : disk.size % pageSize = 0) :
    StoresPool (PageStore.opened disk) (initBufferPool disk memory) := by
  have invariant := init_invariant disk memory nonneg aligned
  simp only [initBufferPool, openFile, aligned, ne_eq, not_true_eq_false, if_false] at invariant ⊢
  refine ⟨invariant, rfl, rfl, aligned, ?_, ?_, fun _ none => none.elim⟩
  · intro addr inFile
    have lower := inFile.1
    rw [view_of_absent fun _ (empty : -1 = addr) => by omega]
    rfl
  · intro addr frame
    simp [PageStore.opened]

theorem opened_pinned_within (disk : Disk Page) (pages : List Int) :
    PinnedWithin (PageStore.opened disk) pages := fun _ _ pin => by cases pin

theorem free_frame {pool : BufferPool Page} (stores : StoresPool store pool) {pages : List Int}
    (within : PinnedWithin store pages) (room : pages.length < cachePage) :
    ∃ frame, pool.ref frame = 0 := by
  by_contra allPinned
  push Not at allPinned
  have member : ∀ frame, pool.addrs frame ∈ pages.toFinset := by
    intro frame
    rw [List.mem_toFinset]
    exact within _ frame ((stores.pin _ frame).mpr ⟨rfl, allPinned frame⟩)
  have injective : Function.Injective pool.addrs := by
    intro first second equal
    refine stores.invariant.addrsDistinct first second equal ?_
    intro empty
    exact allPinned first (stores.invariant.emptyUnpinned first empty)
  have bounded : Fintype.card Frame ≤ pages.toFinset.card := by
    rw [← Finset.card_univ]
    exact Finset.card_le_card_of_injOn pool.addrs (fun frame _ => member frame)
      (fun _ _ _ _ equal => injective equal)
  have := List.toFinset_card_le pages
  rw [Fintype.card_fin] at bounded
  omega

private theorem fetch_pins {pool after : BufferPool Page} (stores : StoresPool store pool)
    (ownLabel : after.addrs frame = addr) (ownPinned : after.ref frame ≠ 0)
    (others : ∀ other, other ≠ frame → after.addrs other = pool.addrs other ∧
      after.ref other = pool.ref other)
    (before : pool.ref frame ≠ 0 → pool.addrs frame = addr)
    (onlyHere : ∀ other, pool.addrs other = addr → other = frame) :
    (∀ other holder, (store.pinned addr frame).pin other = some holder ↔
      after.addrs holder = other ∧ after.ref holder ≠ 0) ∧
    ∀ other, (store.pinned addr frame).resident other → ∃ holder, after.addrs holder = other := by
  constructor
  · intro other holder
    rw [PageStore.pinned_pin]
    by_cases same : holder = frame
    · rw [same]
      constructor
      · intro pin
        split_ifs at pin with own
        · exact ⟨by rw [own]; exact ownLabel, ownPinned⟩
        · obtain ⟨label, refNonzero⟩ := (stores.pin other frame).mp pin
          exact absurd (label.symm.trans (before refNonzero)) own
      · rintro ⟨label, _⟩
        rw [if_pos (label.symm.trans ownLabel)]
    · obtain ⟨sameAddrs, sameRef⟩ := others holder same
      rw [sameAddrs, sameRef, ← stores.pin other holder]
      split_ifs with own
      · constructor
        · intro equal
          exact absurd (Option.some.inj equal).symm same
        · intro pin
          have label := ((stores.pin other holder).mp pin).1
          exact absurd (onlyHere holder (label.trans own)) same
      · exact Iff.rfl
  · rintro other (own | wasPinned)
    · exact ⟨frame, by rw [own]; exact ownLabel⟩
    · obtain ⟨holder, pin⟩ := Option.isSome_iff_exists.mp wasPinned
      obtain ⟨label, refNonzero⟩ := (stores.pin other holder).mp pin
      by_cases same : holder = frame
      · refine ⟨frame, ?_⟩
        rw [same] at label refNonzero
        rw [ownLabel, ← before refNonzero, label]
      · exact ⟨holder, by rw [(others holder same).1]; exact label⟩

/-- The frame that `get_page` hands out, with everything a client may use about it. -/
private theorem fetch_outcome {pool : BufferPool Page} (stores : StoresPool store pool)
    (nonneg : 0 ≤ addr) (aligned : addr % pageSize = 0) (inside : addr ≤ store.length)
    {pages : List Int} (within : PinnedWithin store pages) (room : pages.length < cachePage) :
    ∃ frame after, getPage pool addr = (some frame, after) ∧ PoolInvariant after ∧
      (∀ other, store.pin addr = some other → other = frame) ∧
      after.file.length = (if addr = store.length then store.length + pageSize else store.length) ∧
      after.file.fp.size = (if addr = store.length then
        max store.size (store.length + pageSize) else store.size) ∧
      (∀ other, InFile pool other → view after other = view pool other) ∧
      (∀ other holder, (store.pinned addr frame).pin other = some holder ↔
        after.addrs holder = other ∧ after.ref holder ≠ 0) ∧
      ∀ other, (store.pinned addr frame).resident other →
        ∃ holder, after.addrs holder = other := by
  have invariant := stores.invariant
  have sameLength := stores.length
  obtain ⟨beyond, _⟩ | ⟨frame, label, hit⟩ | ⟨upper, absent, frame, filled, miss, fill⟩ |
    ⟨_, _, allPinned, _⟩ := get_page_cases invariant aligned nonneg
  · omega
  · have inFile := label_in_file invariant nonneg label
    have only : ∀ other, pool.addrs other = addr → other = frame := fun other otherLabel =>
      invariant.addrsDistinct other frame (otherLabel.trans label.symm) (by omega)
    refine ⟨frame, touch addr pool, hit, touch_invariant invariant nonneg, ?_, ?_, ?_, ?_, ?_⟩
    · intro other pin
      exact only other ((stores.pin addr other).mp pin).1
    · have := inFile.2.2
      rw [if_neg (by omega)]
      exact sameLength
    · have := inFile.2.2
      rw [if_neg (by omega)]
      exact stores.size
    · exact fun _ _ => rfl
    · refine fetch_pins stores label (by simp [touch, label]) ?_ (fun _ => label) only
      intro other different
      refine ⟨rfl, ?_⟩
      simp only [touch]
      rw [if_neg (fun equal => different (only other equal))]
  · have filledInvariant := filled_invariant invariant fill aligned nonneg upper absent
    refine ⟨frame, filled, miss, filledInvariant, ?_, ?_, ?_, ?_, ?_⟩
    · intro other pin
      exact absurd ((stores.pin addr other).mp pin).1 (absent other)
    · rw [fill.length, sameLength]
    · rw [fill.size, sameLength, stores.size]
    · intro other inFile
      refine filled_view invariant fill filledInvariant absent inFile.1 ?_
      have := inFile.2.2
      omega
    · refine fetch_pins stores (by rw [fill.addrs, Function.update_self])
        (by rw [fill.ref, Function.update_self]; exact Nat.one_ne_zero) ?_
        (fun pinned => absurd fill.unpinned pinned) (fun other label => absurd label (absent other))
      intro other different
      rw [fill.addrs, fill.ref, Function.update_of_ne different, Function.update_of_ne different]
      exact ⟨rfl, rfl⟩
  · obtain ⟨frame, unpinned⟩ := free_frame stores within room
    exact absurd unpinned (allPinned frame)

theorem ensures_fetch [PoolRules rel] {pages : List Int} {post : PagePtr → PageStore Page → Prop}
    (nonneg : 0 ≤ addr) (aligned : addr % pageSize = 0) (inside : addr < store.length)
    (within : PinnedWithin store pages) (room : pages.length < cachePage)
    (continues : ∀ frame, (∀ other, store.pin addr = some other → other = frame) →
      post ⟨frame, addr⟩ (store.pinned addr frame)) :
    Ensures rel store (fetch addr) post := by
  intro pool related
  have stores := PoolRules.stores related
  obtain ⟨frame, after, ran, invariant, same, length, size, views, pins, residents⟩ :=
    fetch_outcome stores nonneg aligned (le_of_lt inside) within room
  rw [if_neg (by omega)] at length size
  have fetched : fetch addr pool = some (⟨frame, addr⟩, after) := by
    simp only [fetch, if_pos (show IsPageAddr addr from ⟨nonneg, aligned⟩), ran]
  refine ⟨⟨frame, addr⟩, after, store.pinned addr frame, fetched, PoolRules.kept related
    ⟨invariant, length, size, stores.sizeAligned, ?_, pins, residents⟩ rfl rfl, continues frame same⟩
  intro other inFile
  have inBefore : InFile pool other :=
    ⟨inFile.1, inFile.2.1, by rw [stores.length, ← length]; exact inFile.2.2⟩
  rw [views other inBefore]
  exact stores.page other inBefore

theorem ensures_append [GrowRules rel] {pages : List Int} {post : PagePtr → PageStore Page → Prop}
    (atEnd : addr = store.length) (within : PinnedWithin store pages)
    (room : pages.length < cachePage)
    (continues : ∀ frame page, post ⟨frame, addr⟩ ((store.appended page).pinned addr frame)) :
    Ensures rel store (fetch addr) post := by
  intro pool related
  have stores := PoolRules.stores related
  have lengthNonneg := stores.invariant.lengthNonneg
  have lengthAligned := stores.invariant.lengthAligned
  have sameLength := stores.length
  have nonneg : 0 ≤ addr := by omega
  have aligned : addr % pageSize = 0 := by rw [atEnd, ← sameLength]; exact lengthAligned
  obtain ⟨frame, after, ran, invariant, same, length, size, views, pins, residents⟩ :=
    fetch_outcome stores nonneg aligned (le_of_eq atEnd) within room
  rw [if_pos atEnd] at length size
  have fetched : fetch addr pool = some (⟨frame, addr⟩, after) := by
    simp only [fetch, if_pos (show IsPageAddr addr from ⟨nonneg, aligned⟩), ran]
  refine ⟨⟨frame, addr⟩, after, (store.appended (view after addr)).pinned addr frame, fetched,
    GrowRules.grown related ⟨invariant, length, size, ?_, ?_, pins, residents⟩ rfl rfl,
    continues frame (view after addr)⟩
  · have sizeAligned := stores.sizeAligned
    rw [sameLength] at lengthAligned
    simp only [PageStore.pinned_size, PageStore.appended_size, pageSize] at *
    omega
  intro other inFile
  rw [PageStore.pinned_page, PageStore.appended_page]
  split_ifs with own
  · rw [own, ← atEnd]
  · obtain ⟨lower, otherAligned, upper⟩ := inFile
    have inBefore : InFile pool other := by
      refine ⟨lower, otherAligned, ?_⟩
      simp only [pageSize] at *
      omega
    rw [views other inBefore]
    exact stores.page other inBefore

/-- Fetching an address that may be the end of the file. -/
theorem ensures_fetch_grow [GrowRules rel] {pages : List Int} {post : PagePtr → PageStore Page → Prop}
    (nonneg : 0 ≤ addr) (aligned : addr % pageSize = 0) (inside : addr ≤ store.length)
    (within : PinnedWithin store pages) (room : pages.length < cachePage)
    (continues : ∀ frame page, (addr < store.length → page = store.page addr) →
      post ⟨frame, addr⟩ ((store.grown addr page).pinned addr frame)) :
    Ensures rel store (fetch addr) post := by
  by_cases atEnd : addr = store.length
  · refine ensures_append atEnd within room fun frame page => ?_
    have same : store.appended page = store.grown addr page := by
      rw [PageStore.appended, PageStore.grown, if_pos atEnd, if_pos atEnd, atEnd]
    rw [same]
    exact continues frame page (fun before => absurd before (by omega))
  · refine ensures_fetch nonneg aligned (by omega) within room fun frame _ => ?_
    have same : store = store.grown addr (store.page addr) := by
      rw [PageStore.grown, if_neg atEnd, if_neg atEnd, Function.update_eq_self]
    have goal := continues frame (store.page addr) (fun _ => rfl)
    rwa [← same] at goal

theorem ensures_pin [PoolRules rel] {pins : List (Int × Frame)} {post : PagePtr → PageStore Page → Prop}
    (inFile : 0 ≤ addr ∧ addr % pageSize = 0 ∧ addr < store.length) (held : Pins store pins)
    (absent : addr ∉ pins.map Prod.fst) (room : pins.length < cachePage)
    (continues : ∀ frame, Pins (store.pinned addr frame) ((addr, frame) :: pins) →
      post ⟨frame, addr⟩ (store.pinned addr frame)) :
    Ensures rel store (fetch addr) post :=
  ensures_fetch inFile.1 inFile.2.1 inFile.2.2 (pins_within held) (by simpa using room)
    fun frame _ => continues frame (pins_pinned held absent)

theorem ensures_load [PoolRules rel] {post : Page → PageStore Page → Prop} (pin : store.pin addr = some frame)
    (continues : post (store.page addr) store) :
    Ensures rel store (load ⟨frame, addr⟩) post := by
  intro pool related
  have stores := PoolRules.stores related
  have held := (stores.pin _ _).mp pin
  have inFile := pinned_in_file stores pin
  refine ⟨store.page addr, pool, store, ?_, related, continues⟩
  rw [load, if_pos held, ← stores.page _ inFile,
    view_of_label stores.invariant inFile.1 held.1]

theorem ensures_amend [PoolRules rel] {change : Page → Page} {post : Unit → PageStore Page → Prop}
    (pin : store.pin addr = some frame)
    (continues : post () (store.written addr (change (store.page addr)))) :
    Ensures rel store (amend ⟨frame, addr⟩ change) post := by
  intro pool related
  have stores := PoolRules.stores related
  have held := (stores.pin _ _).mp pin
  have inFile := pinned_in_file stores pin
  have content : pool.pages frame = store.page addr := by
    rw [← stores.page _ inFile, view_of_label stores.invariant inFile.1 held.1]
  refine ⟨(), _, store.written addr (change (store.page addr)), by rw [amend, if_pos held],
    PoolRules.kept related ?_ rfl rfl, continues⟩
  refine ⟨write_frame_invariant stores.invariant _ _, stores.length, stores.size,
    stores.sizeAligned, ?_, stores.pin, stores.resident⟩
  intro other otherInFile
  rw [write_frame_view stores.invariant held.1 otherInFile.1, PageStore.written_page, content]
  split_ifs with same
  · rfl
  · exact stores.page other otherInFile

theorem ensures_unpin_resident [PoolRules rel] {post : Unit → PageStore Page → Prop} (resident : store.resident addr)
    (nonneg : 0 ≤ addr) (continues : post () (store.unpinned addr)) :
    Ensures rel store (unpin addr) post := by
  intro pool related
  have stores := PoolRules.stores related
  obtain ⟨frame, label⟩ := stores.resident addr resident
  have found := labelled_some stores.invariant nonneg label
  refine ⟨(), release pool addr, store.unpinned addr, by simp only [unpin, found],
    PoolRules.kept related ?_ rfl rfl, continues⟩
  have released : release pool addr = { pool with ref := Function.update pool.ref frame 0 } := by
    rw [release, found]
  refine ⟨release_invariant stores.invariant addr, ?_, ?_, stores.sizeAligned, ?_, ?_, ?_⟩
  · rw [(release_same_contents pool addr).1]; exact stores.length
  · rw [released]; exact stores.size
  · intro other inFile
    obtain ⟨length, views⟩ := release_same_contents pool addr
    have inBefore : InFile pool other := ⟨inFile.1, inFile.2.1, by rw [← length]; exact inFile.2.2⟩
    rw [views other inBefore]
    exact stores.page other inBefore
  · intro other holder
    rw [PageStore.unpinned_pin, released]
    by_cases same : holder = frame
    · rw [same]
      simp only [Function.update_self, ne_eq, not_true_eq_false, and_false, iff_false]
      intro pin
      split_ifs at pin with own
      exact own (((stores.pin other frame).mp pin).1.symm.trans label)
    · simp only [Function.update_of_ne same]
      rw [← stores.pin other holder]
      split_ifs with own
      · constructor
        · intro impossible; cases impossible
        · intro pin
          have holderLabel := ((stores.pin other holder).mp pin).1
          exact absurd (stores.invariant.addrsDistinct holder frame
            ((holderLabel.trans own).trans label.symm) (by omega)) same
      · exact Iff.rfl
  · intro other otherResident
    rw [release_addrs]
    exact stores.resident other otherResident

theorem ensures_unpin [PoolRules rel] {post : Unit → PageStore Page → Prop} (frame : Frame)
    (pin : store.pin addr = some frame)
    (continues : post () (store.unpinned addr)) : Ensures rel store (unpin addr) post := by
  intro pool related
  have stores := PoolRules.stores related
  have inFile := pinned_in_file stores pin
  have kept : StoresPool { store with resident := fun other => other = addr ∨ store.resident other }
      pool := by
    refine ⟨stores.invariant, stores.length, stores.size, stores.sizeAligned, stores.page,
      stores.pin, ?_⟩
    rintro other (own | resident)
    · exact ⟨frame, by rw [own]; exact ((stores.pin addr frame).mp pin).1⟩
    · exact stores.resident other resident
  have released : Ensures StoresPool
      { store with resident := fun other => other = addr ∨ store.resident other } (unpin addr)
      fun _ final => final =
        PageStore.unpinned { store with resident := fun other => other = addr ∨ store.resident other }
          addr :=
    ensures_unpin_resident (.inl rfl) inFile.1 rfl
  obtain ⟨value, final, abstract, ran, left, rfl⟩ := released pool kept
  refine ⟨value, final, store.unpinned addr, ran, PoolRules.kept related ?_ rfl rfl, continues⟩
  exact ⟨left.invariant, left.length, left.size, left.sizeAligned, left.page, left.pin,
    fun other resident => left.resident other (.inr resident)⟩

theorem ensures_file_length [PoolRules rel] {post : Int → PageStore Page → Prop}
    (continues : post store.length store) : Ensures rel store fileLength post := by
  intro pool related
  refine ⟨store.length, pool, store, ?_, related, continues⟩
  simp only [fileLength, (PoolRules.stores related).length]

theorem ensures_cut_last [CutRules rel] {post : Unit → PageStore Page → Prop} (nonneg : 0 ≤ addr)
    (last : addr = store.length - pageSize) (continues : post () (store.cut addr)) :
    Ensures rel store (cutLast addr) post := by
  intro pool related
  have stores := PoolRules.stores related
  have lastInPool : addr = pool.file.length - pageSize := by rw [stores.length]; exact last
  refine ⟨(), cutLastPage pool addr, store.cut addr, if_pos ⟨nonneg, lastInPool⟩,
    CutRules.cut related ?_ rfl rfl, continues⟩
  have invariant := stores.invariant
  have cutLength : (cutLastPage pool addr).file.length = pool.file.length - pageSize := by
    unfold cutLastPage
    cases labelled pool addr <;> rfl
  have cutLabels : ∀ other holder, other ≠ addr → 0 ≤ other →
      (pool.addrs holder = other ↔ (cutLastPage pool addr).addrs holder = other) ∧
      (pool.addrs holder = other → (cutLastPage pool addr).ref holder = pool.ref holder) := by
    intro other holder different otherNonneg
    unfold cutLastPage
    cases found : labelled pool addr with
    | none => exact ⟨Iff.rfl, fun _ => rfl⟩
    | some frame =>
        have label := labelled_label found
        by_cases same : holder = frame
        · rw [same]
          simp only [Function.update_self]
          exact ⟨⟨fun equal => absurd (equal.symm.trans label) different, fun equal => by omega⟩,
            fun equal => absurd (equal.symm.trans label) different⟩
        · simp only [Function.update_of_ne same]
          exact ⟨trivial, fun _ => trivial⟩
  have cutInvariant := cut_last_page_invariant invariant nonneg lastInPool
  have cutSize : (cutLastPage pool addr).file.fp.size = pool.file.fp.size := by
    unfold cutLastPage
    cases labelled pool addr <;> rfl
  refine ⟨cutInvariant, by rw [cutLength, stores.length]; rfl, cutSize.trans stores.size,
    stores.sizeAligned, ?_, ?_, ?_⟩
  · intro other inFile
    obtain ⟨lower, aligned, upper⟩ := inFile
    rw [cutLength] at upper
    have upperBefore : other < pool.file.length := by simp only [pageSize] at *; omega
    rw [cut_last_page_view invariant nonneg lastInPool lower (by omega)]
    exact stores.page other ⟨lower, aligned, upperBefore⟩
  · intro other holder
    rw [PageStore.cut_pin]
    have noLabel : (cutLastPage pool addr).addrs holder = addr → False := by
      intro label
      have inside := label_in_file cutInvariant nonneg label
      have upper := inside.2.2
      rw [cutLength] at upper
      omega
    split_ifs with own
    · simp only [false_iff, not_and]
      intro label
      exact absurd (label.trans own) noLabel
    · constructor
      · intro pin
        obtain ⟨label, pinned⟩ := (stores.pin other holder).mp pin
        have otherNonneg := (pinned_in_file stores pin).1
        obtain ⟨labels, refs⟩ := cutLabels other holder own otherNonneg
        exact ⟨labels.mp label, by rw [refs label]; exact pinned⟩
      · rintro ⟨label, pinned⟩
        have otherNonneg : 0 ≤ other := by
          rcases cutInvariant.addrsInside holder with empty | inside
          · exact absurd (cutInvariant.emptyUnpinned holder empty) pinned
          · omega
        obtain ⟨labels, refs⟩ := cutLabels other holder own otherNonneg
        have labelBefore := labels.mpr label
        rw [refs labelBefore] at pinned
        exact (stores.pin other holder).mpr ⟨labelBefore, pinned⟩
  · rintro other ⟨different, resident⟩
    obtain ⟨holder, label⟩ := stores.resident other resident
    rcases invariant.addrsInside holder with empty | inside
    · have : other = -1 := by omega
      refine ⟨holder, ?_⟩
      unfold cutLastPage
      cases found : labelled pool addr with
      | none => exact label
      | some frame =>
          have frameLabel := labelled_label found
          have apart : holder ≠ frame := by
            intro same
            rw [same] at empty
            omega
          simp only [Function.update_of_ne apart]
          exact label
    · exact ⟨holder, ((cutLabels other holder different (by omega)).1).mp label⟩

end Rules

end MyJQL.PageStoreLogic
