import MyJQL.BufferPoolTransparency

/-!
# Transfers that fail inside `get_page`

`get_page` looks at no result of a transfer. Which failures show in the pages that the pool presents
depends on the bytes that happened to be in the frame and on the disk. A pool that lived through failed
transfers may hold a page behind the end of its file, and keeps no more than the labels apart.
-/

namespace MyJQL.BufferPoolFailures

open MyJQL.FileIo
open MyJQL.BufferPoolModel
open MyJQL.BufferPoolInvariant

set_option autoImplicit false

variable {Page : Type}

def fillResults (filling : Device Page) (addr : Int) (frame : Frame) (pool : BufferPool Page) : List FileIOResult :=
  if pool.file.length = addr then [(writePage filling (pool.pages frame) pool.file addr).1]
  else [(readPage filling (pool.pages frame) pool.file addr).1]

def missResults (evicting filling : Device Page) (addr : Int) (pool : BufferPool Page) : List FileIOResult :=
  match emptyFrame pool with
  | some frame => fillResults filling addr frame pool
  | none =>
      match victimFrame pool with
      | some frame =>
          (writePage evicting (pool.pages frame) pool.file (pool.addrs frame)).1 ::
            fillResults filling addr frame (writeBack evicting frame pool)
      | none => []

/-- The results of the transfers that `get_page` performs, none of which it looks at. -/
def getPageResults (evicting filling : Device Page) (pool : BufferPool Page) (addr : Int) : List FileIOResult :=
  if pool.file.length < addr then []
  else
    match hitFrame pool addr with
    | some _ => []
    | none => missResults evicting filling addr (touch addr pool)

/-- The page that the pool presents at a page address, if it presents one. -/
def contents (pool : BufferPool Page) (addr : Int) : Option Page :=
  match labelled pool addr with
  | some frame => some (pool.pages frame)
  | none => if addr < pool.file.length then some (pool.file.fp.page addr) else none

/-- A returned frame holds the page of the file, and the pool presents every page as before. Only a page
that the call appended is new. -/
structure Uncorrupted (before after : BufferPool Page) (result : Option Frame) (addr : Int) : Prop where
  returned : ∀ frame, result = some frame → after.addrs frame = addr →
    addr < after.file.length ∧ after.pages frame = after.file.fp.page addr
  kept : ∀ other, 0 ≤ other → other % pageSize = 0 → (other ≠ addr ∨ addr < before.file.length) →
    contents after other = contents before other

/-- What a transfer that brings `wanted` leaves where `held` was. -/
def Brings (device : Device Page) (held wanted : Page) : Prop :=
  match device with
  | .works => True
  | .seekFails => held = wanted
  | .transferFails torn => torn = wanted

/-- The page of a victim reaches the disk, or is there already, at an address of the file. -/
def EvictionKeeps (evicting : Device Page) (pool : BufferPool Page) (frame : Frame) : Prop :=
  Brings evicting (pool.file.fp.page (pool.addrs frame)) (pool.pages frame) ∧
    (pool.addrs frame < pool.file.length ∨ pool.addrs frame = pool.file.length ∧ evicting = .works)

def FillKeeps (filling : Device Page) (pool : BufferPool Page) (frame : Frame) (addr : Int) : Prop :=
  if addr < pool.file.length then Brings filling (pool.pages frame) (pool.file.fp.page addr)
  else filling = .works

def Harmless (evicting filling : Device Page) (pool : BufferPool Page) (addr : Int) : Prop :=
  match emptyFrame pool with
  | some frame => FillKeeps filling pool frame addr
  | none =>
      match victimFrame (touch addr pool) with
      | some frame => EvictionKeeps evicting pool frame ∧ FillKeeps filling pool frame addr
      | none => True

/-- What holds of a pool whatever transfers have failed. -/
structure Labels (pool : BufferPool Page) : Prop where
  lengthAligned : pool.file.length % pageSize = 0
  lengthNonneg : 0 ≤ pool.file.length
  stored : pool.file.length ≤ pool.file.fp.size
  addrs : ∀ frame, pool.addrs frame = -1 ∨ (0 ≤ pool.addrs frame ∧ pool.addrs frame % pageSize = 0)
  addrsDistinct : ∀ frame other, pool.addrs frame = pool.addrs other → pool.addrs frame ≠ -1 → frame = other

/-- Every pool that its callers can produce from an aligned file, over a device that fails at will. -/
inductive PoolReachable : BufferPool Page → Prop
  | opened (disk : Disk Page) (memory : BufferPool Page) (nonneg : 0 ≤ disk.size)
      (aligned : disk.size % pageSize = 0) : PoolReachable (initBufferPool disk memory)
  | fetched {pool : BufferPool Page} (evicting filling : Device Page) (addr : Int) (aligned : addr % pageSize = 0)
      (nonneg : 0 ≤ addr) : PoolReachable pool → PoolReachable (getPageOn evicting filling pool addr).2
  | written {pool : BufferPool Page} (frame : Frame) (page : Page) :
      PoolReachable pool → PoolReachable (writeFrame pool frame page)
  | released {pool : BufferPool Page} (addr : Int) : PoolReachable pool → PoolReachable (release pool addr)
  | cut {pool : BufferPool Page} (addr : Int) (longer : pageSize ≤ pool.file.length) :
      PoolReachable pool → PoolReachable (cutLastPage pool addr)

section Transfers

variable {file : FileInfo Page} {addr : Int} {page : Page} {device : Device Page}

/-- What a transfer to the disk can do, whatever the device does. -/
structure Transferred (file after : FileInfo Page) (addr : Int) : Prop where
  length : after.length = file.length ∨ addr = file.length ∧ after.length = file.length + pageSize
  others : ∀ other, other ≠ addr → after.fp.page other = file.fp.page other
  size : file.fp.size ≤ after.fp.size
  stored : file.length ≤ file.fp.size → after.length ≤ after.fp.size

theorem disk_write_other {disk : Disk Page} {other : Int} (different : other ≠ addr) :
    (disk.write addr page).page other = disk.page other := Function.update_of_ne different _ _

theorem write_page_transferred (device : Device Page) (page : Page) (file : FileInfo Page) (addr : Int) :
    Transferred file (writePage device page file addr).2 addr := by
  have unchanged : Transferred file file addr := ⟨.inl rfl, fun _ _ => rfl, le_refl _, id⟩
  unfold writePage
  by_cases misaligned : addr % pageSize ≠ 0
  · rw [if_pos misaligned]
    exact unchanged
  rw [if_neg misaligned]
  by_cases outside : addr < 0 ∨ addr > file.length
  · rw [if_pos outside]
    exact unchanged
  rw [if_neg outside]
  cases device with
  | seekFails => exact unchanged
  | transferFails torn =>
      refine ⟨.inl rfl, fun _ => disk_write_other, le_max_left _ _, fun stored => ?_⟩
      exact le_trans stored (le_max_left _ _)
  | works =>
      dsimp only
      split_ifs with atEnd
      · refine ⟨.inr ⟨atEnd, rfl⟩, fun _ => disk_write_other, le_max_left _ _, fun _ => ?_⟩
        rw [atEnd]
        exact le_max_right _ _
      · refine ⟨.inl rfl, fun _ => disk_write_other, le_max_left _ _, fun stored => ?_⟩
        exact le_trans stored (le_max_left _ _)

theorem write_page_content (aligned : addr % pageSize = 0) (nonneg : 0 ≤ addr) :
    (addr < (writePage device page file addr).2.length ∧ (writePage device page file addr).2.fp.page addr = page) ↔
      Brings device (file.fp.page addr) page ∧ (addr < file.length ∨ addr = file.length ∧ device = .works) := by
  unfold writePage
  rw [if_neg (not_not.mpr aligned)]
  by_cases beyond : addr > file.length
  · rw [if_pos (.inr beyond)]
    dsimp only
    constructor
    · intro inside
      omega
    · intro inside
      omega
  · rw [if_neg (by omega)]
    cases device with
    | seekFails => simp [Brings, and_comm]
    | transferFails torn => simp [Brings, Disk.write, and_comm]
    | works =>
        dsimp only
        split_ifs with atEnd
        · simp [Brings, Disk.write, atEnd, pageSize]
        · have inside : addr < file.length := by omega
          simp [Brings, Disk.write, inside]

theorem read_page_brings (aligned : addr % pageSize = 0) (nonneg : 0 ≤ addr) (inside : addr < file.length)
    (stored : addr + pageSize ≤ file.fp.size) :
    (readPage device page file addr).2 = file.fp.page addr ↔ Brings device page (file.fp.page addr) := by
  unfold readPage
  rw [if_neg (not_not.mpr aligned), if_neg (by omega)]
  cases device with
  | seekFails => rfl
  | transferFails torn => rfl
  | works => simp [Brings, stored]

theorem transferred_elsewhere {after : FileInfo Page} {other : Int} (transferred : Transferred file after addr)
    (lengthAligned : file.length % pageSize = 0) (aligned : other % pageSize = 0) (different : other ≠ addr) :
    (if other < after.length then some (after.fp.page other) else none) =
      if other < file.length then some (file.fp.page other) else none := by
  rw [transferred.others other different]
  rcases transferred.length with same | ⟨atEnd, longer⟩
  · rw [same]
  · have inside : other < file.length + pageSize ↔ other < file.length := by
      simp only [pageSize] at *
      omega
    rw [longer]
    simp only [inside]

theorem transferred_length {after : FileInfo Page} (transferred : Transferred file after addr)
    (aligned : file.length % pageSize = 0) (nonneg : 0 ≤ file.length) :
    after.length % pageSize = 0 ∧ 0 ≤ after.length := by
  rcases transferred.length with same | ⟨_, longer⟩
  · rw [same]
    exact ⟨aligned, nonneg⟩
  · rw [longer]
    simp only [pageSize] at *
    omega

end Transfers

section Labelling

variable {pool : BufferPool Page} {addr : Int} {frame : Frame}

theorem labelled_of_label (labels : Labels pool) (nonneg : 0 ≤ addr) (label : pool.addrs frame = addr) :
    labelled pool addr = some frame := by
  cases found : labelled pool addr with
  | none => exact absurd label (labelled_none.mp found frame)
  | some other =>
      have same := (labelled_label found).trans label.symm
      rw [labels.addrsDistinct other frame same (by rw [labelled_label found]; omega)]

theorem hit_frame_none : hitFrame pool addr = none ↔ ∀ frame, pool.addrs frame ≠ addr := by
  simp [hitFrame, List.find?_eq_none, List.mem_finRange]

theorem contents_of_label (labels : Labels pool) (nonneg : 0 ≤ addr) (label : pool.addrs frame = addr) :
    contents pool addr = some (pool.pages frame) := by
  rw [contents, labelled_of_label labels nonneg label]

theorem contents_of_absent (absent : ∀ frame, pool.addrs frame ≠ addr) :
    contents pool addr = if addr < pool.file.length then some (pool.file.fp.page addr) else none := by
  rw [contents, labelled_none.mpr absent]

theorem relabelled (labels : Labels pool) {after : BufferPool Page}
    (addrs : after.addrs = Function.update pool.addrs frame addr) (transferred : Transferred pool.file after.file addr)
    (aligned : addr % pageSize = 0) (nonneg : 0 ≤ addr) (absent : ∀ frame, pool.addrs frame ≠ addr) : Labels after where
  lengthAligned := (transferred_length transferred labels.lengthAligned labels.lengthNonneg).1
  lengthNonneg := (transferred_length transferred labels.lengthAligned labels.lengthNonneg).2
  stored := transferred.stored labels.stored
  addrs other := by
    rw [addrs]
    by_cases own : other = frame
    · rw [own, Function.update_self]
      exact .inr ⟨nonneg, aligned⟩
    · rw [Function.update_of_ne own]
      exact labels.addrs other
  addrsDistinct first second same real := by
    rw [addrs] at same real
    by_cases firstOwn : first = frame
    · by_cases secondOwn : second = frame
      · rw [firstOwn, secondOwn]
      · rw [firstOwn, Function.update_self, Function.update_of_ne secondOwn] at same
        exact absurd same.symm (absent second)
    · rw [Function.update_of_ne firstOwn] at same real
      by_cases secondOwn : second = frame
      · rw [secondOwn, Function.update_self] at same
        exact absurd same (absent first)
      · rw [Function.update_of_ne secondOwn] at same
        exact labels.addrsDistinct first second same real

end Labelling

def emptied (frame : Frame) (pool : BufferPool Page) : BufferPool Page :=
  { pool with addrs := Function.update pool.addrs frame (-1) }

section Parts

variable {pool : BufferPool Page} {addr other : Int} {frame holder : Frame} {device : Device Page}

theorem emptied_own : (emptied frame pool).addrs frame = -1 := Function.update_self _ _ _

theorem emptied_label (different : holder ≠ frame) : (emptied frame pool).addrs holder = pool.addrs holder :=
  Function.update_of_ne different _ _

theorem emptied_labels (labels : Labels pool) (frame : Frame) : Labels (emptied frame pool) where
  lengthAligned := labels.lengthAligned
  lengthNonneg := labels.lengthNonneg
  stored := labels.stored
  addrs holder := by
    by_cases own : holder = frame
    · exact .inl (own ▸ emptied_own)
    · rw [emptied_label own]
      exact labels.addrs holder
  addrsDistinct first second same real := by
    have firstOther : first ≠ frame := by
      rintro rfl
      exact real emptied_own
    have secondOther : second ≠ frame := by
      rintro rfl
      exact real (same.trans emptied_own)
    rw [emptied_label firstOther] at same real
    rw [emptied_label secondOther] at same
    exact labels.addrsDistinct first second same real

theorem emptied_absent (nonneg : 0 ≤ other) (absent : ∀ holder, holder ≠ frame → pool.addrs holder ≠ other) :
    ∀ holder, (emptied frame pool).addrs holder ≠ other := by
  intro holder
  by_cases own : holder = frame
  · rw [own, emptied_own]
    omega
  · rw [emptied_label own]
    exact absent holder own

theorem fill_addrs : (fillFrame device addr frame pool).addrs = Function.update pool.addrs frame addr := by
  unfold fillFrame
  dsimp only
  split_ifs <;> rfl

theorem fill_pages (different : holder ≠ frame) :
    (fillFrame device addr frame pool).pages holder = pool.pages holder := by
  unfold fillFrame
  dsimp only
  split_ifs
  · rfl
  · exact Function.update_of_ne different _ _

theorem fill_transferred : Transferred pool.file (fillFrame device addr frame pool).file addr := by
  unfold fillFrame
  dsimp only
  split_ifs
  · exact write_page_transferred device _ _ _
  · exact ⟨.inl rfl, fun _ _ => rfl, le_refl _, id⟩

theorem fill_labels (labels : Labels pool) (aligned : addr % pageSize = 0) (nonneg : 0 ≤ addr)
    (absent : ∀ frame, pool.addrs frame ≠ addr) : Labels (fillFrame device addr frame pool) :=
  relabelled labels fill_addrs fill_transferred aligned nonneg absent

/-- At another page address the filled pool presents what it would present with the frame empty. -/
theorem fill_contents (labels : Labels pool) (aligned : addr % pageSize = 0) (nonneg : 0 ≤ addr)
    (absent : ∀ frame, pool.addrs frame ≠ addr) (otherAligned : other % pageSize = 0) (otherNonneg : 0 ≤ other)
    (different : other ≠ addr) :
    contents (fillFrame device addr frame pool) other = contents (emptied frame pool) other := by
  by_cases held : ∃ holder, holder ≠ frame ∧ pool.addrs holder = other
  · obtain ⟨holder, apart, label⟩ := held
    have filledLabel : (fillFrame device addr frame pool).addrs holder = other := by
      rw [fill_addrs, Function.update_of_ne apart, label]
    rw [contents_of_label (fill_labels labels aligned nonneg absent) otherNonneg filledLabel,
      contents_of_label (emptied_labels labels frame) otherNonneg ((emptied_label apart).trans label), fill_pages apart]
    rfl
  · have nowhere : ∀ holder, holder ≠ frame → pool.addrs holder ≠ other :=
      fun holder apart label => held ⟨holder, apart, label⟩
    have filledAbsent : ∀ holder, (fillFrame device addr frame pool).addrs holder ≠ other := by
      intro holder
      by_cases own : holder = frame
      · rw [own, fill_addrs, Function.update_self]
        exact different.symm
      · rw [fill_addrs, Function.update_of_ne own]
        exact nowhere holder own
    rw [contents_of_absent filledAbsent, contents_of_absent (emptied_absent otherNonneg nowhere)]
    have moved : Transferred pool.file (fillFrame device addr frame pool).file addr := fill_transferred
    exact transferred_elsewhere moved labels.lengthAligned otherAligned different

theorem fill_returned (labels : Labels pool) (aligned : addr % pageSize = 0) (nonneg : 0 ≤ addr)
    (inside : addr ≤ pool.file.length) :
    (addr < (fillFrame device addr frame pool).file.length ∧
      (fillFrame device addr frame pool).file.fp.page addr = (fillFrame device addr frame pool).pages frame) ↔
      FillKeeps device pool frame addr := by
  by_cases atEnd : pool.file.length = addr
  · have file : (fillFrame device addr frame pool).file = (writePage device (pool.pages frame) pool.file addr).2 := by
      rw [fillFrame, if_pos atEnd]
    have pages : (fillFrame device addr frame pool).pages = pool.pages := by
      rw [fillFrame, if_pos atEnd]
    rw [file, pages, write_page_content aligned nonneg, FillKeeps, if_neg (by omega)]
    constructor
    · rintro ⟨_, before | ⟨_, works⟩⟩
      · omega
      · exact works
    · rintro rfl
      exact ⟨trivial, .inr ⟨atEnd.symm, rfl⟩⟩
  · have file : (fillFrame device addr frame pool).file = pool.file := by
      rw [fillFrame, if_neg atEnd]
    have pages : (fillFrame device addr frame pool).pages frame =
        (readPage device (pool.pages frame) pool.file addr).2 := by
      rw [fillFrame, if_neg atEnd]
      exact Function.update_self _ _ _
    have before : addr < pool.file.length := by omega
    have lengthAligned := labels.lengthAligned
    have stored := labels.stored
    have onDisk : addr + pageSize ≤ pool.file.fp.size := by
      simp only [pageSize] at *
      omega
    rw [file, pages, eq_comm, read_page_brings aligned nonneg before onDisk, FillKeeps, if_pos before]
    exact and_iff_right before

theorem back_transferred : Transferred pool.file (writeBack device frame pool).file (pool.addrs frame) :=
  write_page_transferred device _ _ _

theorem back_labels (labels : Labels pool) : Labels (writeBack device frame pool) where
  lengthAligned := (transferred_length back_transferred labels.lengthAligned labels.lengthNonneg).1
  lengthNonneg := (transferred_length back_transferred labels.lengthAligned labels.lengthNonneg).2
  stored := back_transferred.stored labels.stored
  addrs := labels.addrs
  addrsDistinct := labels.addrsDistinct

theorem back_contents (labels : Labels pool) (aligned : other % pageSize = 0) (nonneg : 0 ≤ other)
    (different : other ≠ pool.addrs frame) :
    contents (emptied frame (writeBack device frame pool)) other = contents pool other := by
  by_cases held : ∃ holder, pool.addrs holder = other
  · obtain ⟨holder, label⟩ := held
    have apart : holder ≠ frame := by
      rintro rfl
      exact different label.symm
    have stays : (emptied frame (writeBack device frame pool)).addrs holder = other := (emptied_label apart).trans label
    have after : Labels (emptied frame (writeBack device frame pool)) := emptied_labels (back_labels labels) frame
    rw [contents_of_label labels nonneg label, contents_of_label after nonneg stays]
    rfl
  · have nowhere : ∀ holder, pool.addrs holder ≠ other := fun holder label => held ⟨holder, label⟩
    have emptiedNowhere : ∀ holder, (emptied frame (writeBack device frame pool)).addrs holder ≠ other :=
      emptied_absent nonneg fun holder _ => nowhere holder
    have moved : Transferred pool.file (writeBack device frame pool).file (pool.addrs frame) := back_transferred
    rw [contents_of_absent nowhere, contents_of_absent emptiedNowhere]
    exact transferred_elsewhere moved labels.lengthAligned aligned different

theorem back_victim (labels : Labels pool) (real : pool.addrs frame ≠ -1) :
    contents (emptied frame (writeBack device frame pool)) (pool.addrs frame) = contents pool (pool.addrs frame) ↔
      EvictionKeeps device pool frame := by
  obtain ⟨nonneg, aligned⟩ := (labels.addrs frame).resolve_left real
  have gone : ∀ holder, (emptied frame (writeBack device frame pool)).addrs holder ≠ pool.addrs frame :=
    emptied_absent nonneg fun holder apart same =>
      apart (labels.addrsDistinct frame holder same.symm real).symm
  rw [contents_of_label labels nonneg rfl, contents_of_absent gone, EvictionKeeps,
    ← write_page_content aligned nonneg]
  change (if pool.addrs frame < (writeBack device frame pool).file.length then
    some ((writeBack device frame pool).file.fp.page (pool.addrs frame)) else none) = some (pool.pages frame) ↔ _
  split_ifs with inside
  · rw [Option.some.injEq]
    exact (and_iff_right inside).symm
  · exact iff_of_false nofun fun both => inside both.1

end Parts

section Calls

variable {pool before : BufferPool Page} {addr : Int} {frame : Frame} {evicting filling : Device Page}

/-- The last part of a call, behind whatever the first part did to the other pages. -/
theorem fill_uncorrupted (labels : Labels pool) (aligned : addr % pageSize = 0) (nonneg : 0 ≤ addr)
    (absent : ∀ frame, pool.addrs frame ≠ addr) (inside : addr ≤ pool.file.length)
    (same : addr < before.file.length → addr < pool.file.length ∧ contents before addr = contents pool addr) :
    Uncorrupted before (fillFrame filling addr frame pool) (some frame) addr ↔
      (∀ other, 0 ≤ other → other % pageSize = 0 → other ≠ addr →
        contents (emptied frame pool) other = contents before other) ∧ FillKeeps filling pool frame addr := by
  have label : (fillFrame filling addr frame pool).addrs frame = addr := by rw [fill_addrs, Function.update_self]
  have filledLabels : Labels (fillFrame filling addr frame pool) := fill_labels labels aligned nonneg absent
  constructor
  · rintro ⟨returned, kept⟩
    refine ⟨fun other otherNonneg otherAligned different => ?_, ?_⟩
    · rw [← fill_contents labels aligned nonneg absent otherAligned otherNonneg different]
      exact kept other otherNonneg otherAligned (.inl different)
    · obtain ⟨within, page⟩ := returned frame rfl label
      exact (fill_returned labels aligned nonneg inside).mp ⟨within, page.symm⟩
  · rintro ⟨elsewhere, fills⟩
    obtain ⟨within, page⟩ := (fill_returned labels aligned nonneg inside).mpr fills
    refine ⟨?_, fun other otherNonneg otherAligned old => ?_⟩
    · rintro _ ⟨⟩ _
      exact ⟨within, page.symm⟩
    · by_cases different : other = addr
      · subst different
        obtain ⟨was, seen⟩ := same (old.resolve_left (not_not.mpr rfl))
        have read : (fillFrame filling other frame pool).file = pool.file := by
          rw [fillFrame, if_neg (by omega)]
        rw [seen, contents_of_label filledLabels nonneg label, contents_of_absent absent, if_pos was, ← page, read]
      · rw [fill_contents labels aligned nonneg absent otherAligned otherNonneg different]
        exact elsewhere other otherNonneg otherAligned different

theorem touch_labels (labels : Labels pool) (addr : Int) : Labels (touch addr pool) :=
  ⟨labels.lengthAligned, labels.lengthNonneg, labels.stored, labels.addrs, labels.addrsDistinct⟩

/-- A miss into an empty frame does harm where the frame does not get the page. -/
theorem empty_uncorrupted (labels : Labels pool) (aligned : addr % pageSize = 0) (nonneg : 0 ≤ addr)
    (absent : ∀ frame, pool.addrs frame ≠ addr) (inside : addr ≤ pool.file.length)
    (empty : pool.addrs frame = -1) :
    Uncorrupted pool (fillFrame filling addr frame (touch addr pool)) (some frame) addr ↔
      FillKeeps filling pool frame addr := by
  have unchanged : emptied frame (touch addr pool) = touch addr pool := by
    have addrs : Function.update pool.addrs frame (-1) = pool.addrs := by rw [← empty, Function.update_eq_self]
    simp only [emptied, touch, addrs]
  have same : addr < pool.file.length → addr < (touch addr pool).file.length ∧
    contents pool addr = contents (touch addr pool) addr := fun was => ⟨was, rfl⟩
  rw [fill_uncorrupted (touch_labels labels addr) aligned nonneg absent inside same, unchanged]
  exact and_iff_right fun _ _ _ _ => rfl

/-- A miss into a victim's frame does harm where the victim's page is lost as well. -/
theorem victim_uncorrupted (labels : Labels pool) (aligned : addr % pageSize = 0) (nonneg : 0 ≤ addr)
    (absent : ∀ frame, pool.addrs frame ≠ addr) (inside : addr ≤ pool.file.length) (real : pool.addrs frame ≠ -1) :
    Uncorrupted pool (fillFrame filling addr frame (writeBack evicting frame (touch addr pool))) (some frame) addr ↔
      EvictionKeeps evicting pool frame ∧ FillKeeps filling pool frame addr := by
  have touched := touch_labels labels addr
  have moved : Transferred pool.file (writeBack evicting frame (touch addr pool)).file (pool.addrs frame) :=
    write_page_transferred evicting _ _ _
  obtain ⟨victimNonneg, victimAligned⟩ := (labels.addrs frame).resolve_left real
  have apart : addr ≠ pool.addrs frame := (absent frame).symm
  have lengthAligned := labels.lengthAligned
  have shortened : pool.file.length ≤ (writeBack evicting frame (touch addr pool)).file.length := by
    rcases moved.length with same | ⟨_, longer⟩
    · rw [same]
    · rw [longer]
      simp only [pageSize]
      omega
  have before : addr < (writeBack evicting frame (touch addr pool)).file.length ↔ addr < pool.file.length := by
    rcases moved.length with same | ⟨atEnd, longer⟩
    · rw [same]
    · rw [longer]
      simp only [pageSize] at *
      omega
  have page := moved.others addr apart
  have seen : contents pool addr = contents (writeBack evicting frame (touch addr pool)) addr := by
    have absentBack : ∀ frame', (writeBack evicting frame (touch addr pool)).addrs frame' ≠ addr := absent
    rw [contents_of_absent absent, contents_of_absent absentBack, page]
    simp only [before]
  have keepsFill : FillKeeps filling (writeBack evicting frame (touch addr pool)) frame addr ↔
      FillKeeps filling pool frame addr := by
    rw [FillKeeps, FillKeeps, page]
    simp only [before]
    rfl
  have same : addr < pool.file.length → addr < (writeBack evicting frame (touch addr pool)).file.length ∧
    contents pool addr = contents (writeBack evicting frame (touch addr pool)) addr := fun was => ⟨before.mpr was, seen⟩
  rw [fill_uncorrupted (back_labels touched) aligned nonneg absent (by omega) same, keepsFill]
  refine and_congr_left fun _ => ?_
  have victim : EvictionKeeps evicting pool frame ↔
      contents (emptied frame (writeBack evicting frame (touch addr pool))) (pool.addrs frame) =
        contents pool (pool.addrs frame) := (back_victim touched real).symm
  rw [victim]
  constructor
  · intro elsewhere
    exact elsewhere _ victimNonneg victimAligned apart.symm
  · intro kept other otherNonneg otherAligned _
    by_cases own : other = pool.addrs frame
    · rw [own]
      exact kept
    · exact back_contents touched otherAligned otherNonneg own

theorem results_missed (inside : addr ≤ pool.file.length) {result : FileIOResult}
    (member : result ∈ getPageResults evicting filling pool addr) : hitFrame pool addr = none ∧
      result ∈ missResults evicting filling addr (touch addr pool) := by
  rw [getPageResults, if_neg (by omega)] at member
  cases hit : hitFrame pool addr with
  | some frame =>
      rw [hit] at member
      cases member
  | none =>
      rw [hit] at member
      exact ⟨rfl, member⟩

theorem get_page_missed (inside : addr ≤ pool.file.length) (missed : hitFrame pool addr = none) :
    getPageOn evicting filling pool addr = missPage evicting filling addr (touch addr pool) := by
  rw [getPageOn, if_neg (by omega), missed]

theorem miss_uncorrupted (labels : Labels pool) (aligned : addr % pageSize = 0) (nonneg : 0 ≤ addr)
    (absent : ∀ frame, pool.addrs frame ≠ addr) (inside : addr ≤ pool.file.length) :
    Uncorrupted pool (missPage evicting filling addr (touch addr pool)).2
      (missPage evicting filling addr (touch addr pool)).1 addr ↔ Harmless evicting filling pool addr := by
  have sameEmpty : emptyFrame (touch addr pool) = emptyFrame pool := rfl
  unfold missPage Harmless
  rw [sameEmpty]
  cases empty : emptyFrame pool with
  | some frame => exact empty_uncorrupted labels aligned nonneg absent inside (empty_frame_label empty)
  | none =>
      dsimp only
      cases victimFrame (touch addr pool) with
      | some frame => exact victim_uncorrupted labels aligned nonneg absent inside (empty_frame_none empty frame)
      | none => exact iff_of_true ⟨nofun, fun _ _ _ _ => rfl⟩ trivial

end Calls

theorem get_page_labels {pool : BufferPool Page} (labels : Labels pool) (evicting filling : Device Page) {addr : Int}
    (aligned : addr % pageSize = 0) (nonneg : 0 ≤ addr) : Labels (getPageOn evicting filling pool addr).2 := by
  by_cases beyond : pool.file.length < addr
  · rw [getPageOn, if_pos beyond]
    exact labels
  cases hit : hitFrame pool addr with
  | some frame =>
      rw [getPageOn, if_neg beyond, hit]
      exact touch_labels labels addr
  | none =>
      have absent := hit_frame_none.mp hit
      have touched := touch_labels labels addr
      rw [get_page_missed (by omega) hit]
      unfold missPage
      cases emptyFrame (touch addr pool) with
      | some frame => exact fill_labels touched aligned nonneg absent
      | none =>
          dsimp only
          cases victimFrame (touch addr pool) with
          | some frame => exact fill_labels (back_labels touched) aligned nonneg absent
          | none => exact touched

theorem cut_labels {pool : BufferPool Page} (labels : Labels pool) (addr : Int) (longer : pageSize ≤ pool.file.length) :
    Labels (cutLastPage pool addr) := by
  have shorter : ∀ after : BufferPool Page, Labels after → after.file = pool.file →
      Labels { after with file := { after.file with length := after.file.length - pageSize } } := by
    intro after holds same
    have aligned := holds.lengthAligned
    have stored := holds.stored
    refine ⟨?_, ?_, ?_, holds.addrs, holds.addrsDistinct⟩
    · simp only [pageSize] at *
      omega
    · dsimp only
      rw [same]
      omega
    · simp only [pageSize] at *
      omega
  unfold cutLastPage
  cases labelled pool addr with
  | none => exact shorter pool labels rfl
  | some frame =>
      have cleared := emptied_labels labels frame
      exact shorter _ ⟨cleared.lengthAligned, cleared.lengthNonneg, cleared.stored, cleared.addrs,
        cleared.addrsDistinct⟩ rfl

theorem pool_reachable_labels {pool : BufferPool Page} (run : PoolReachable pool) : Labels pool := by
  induction run with
  | opened disk memory nonneg aligned =>
      have invariant := BufferPoolTransparency.init_invariant disk memory nonneg aligned
      refine ⟨invariant.lengthAligned, invariant.lengthNonneg, invariant.stored, ?_, invariant.addrsDistinct⟩
      intro frame
      exact (invariant.addrsInside frame).imp id fun inside => ⟨inside.1, inside.2.1⟩
  | fetched evicting filling addr aligned nonneg _ ih => exact get_page_labels ih evicting filling aligned nonneg
  | written frame page _ ih => exact ⟨ih.lengthAligned, ih.lengthNonneg, ih.stored, ih.addrs, ih.addrsDistinct⟩
  | @released pool addr _ ih =>
      have addrs := BufferPoolTransparency.release_addrs pool addr
      have file : (release pool addr).file = pool.file := by
        unfold release
        cases labelled pool addr <;> rfl
      exact ⟨file ▸ ih.lengthAligned, file ▸ ih.lengthNonneg, file ▸ ih.stored, addrs ▸ ih.addrs,
        addrs ▸ ih.addrsDistinct⟩
  | cut addr longer _ ih => exact cut_labels ih addr longer

/-- In every pool that keeps its labels apart, and so in every pool that calls reach over a device that
fails at will: a call with a failed transfer corrupts nothing exactly where each failed transfer happens
to leave the bytes that it should have brought. -/
theorem failures_harmless : (∀ pool : BufferPool Page, PoolReachable pool → Labels pool) ∧
    ∀ pool : BufferPool Page, Labels pool → ∀ (evicting filling : Device Page) (addr : Int), addr % pageSize = 0 →
      0 ≤ addr → addr ≤ pool.file.length →
      (∃ result ∈ getPageResults evicting filling pool addr, result ≠ .fileIoSuccess) →
        (Uncorrupted pool (getPageOn evicting filling pool addr).2 (getPageOn evicting filling pool addr).1 addr ↔
          Harmless evicting filling pool addr) := by
  refine ⟨fun pool run => pool_reachable_labels run, ?_⟩
  rintro pool labels evicting filling addr aligned nonneg inside ⟨result, member, _⟩
  obtain ⟨missed, _⟩ := results_missed inside member
  rw [get_page_missed inside missed]
  exact miss_uncorrupted labels aligned nonneg (hit_frame_none.mp missed) inside

def onePage : BufferPool Nat :=
  initBufferPool ⟨128, fun _ => 7⟩ ⟨⟨⟨0, fun _ => 0⟩, 0⟩, fun _ => 5, fun _ => 0, fun _ => 0, fun _ => 0⟩

theorem one_page_reachable : PoolReachable onePage := .opened _ _ (by decide) (by decide)

/-- The read fails after all bytes have arrived. -/
theorem failures_harmless_late_failure :
    Uncorrupted onePage (getPageOn .works (.transferFails 7) onePage 0).2
      (getPageOn .works (.transferFails 7) onePage 0).1 0 :=
  (failures_harmless.2 onePage (failures_harmless.1 onePage one_page_reachable) .works (.transferFails 7) 0
    (by decide) (by decide) (by decide) ⟨.fileIoFailed, by decide, by decide⟩).mpr rfl

/-- The read fails at once, and the call returns a frame with the bytes of whatever page it held before. -/
theorem failed_read_corrupts : ¬∀ pool : BufferPool Nat, PoolReachable pool →
    ∀ (evicting filling : Device Nat) (addr : Int), addr % pageSize = 0 → 0 ≤ addr → addr ≤ pool.file.length →
      (∃ result ∈ getPageResults evicting filling pool addr, result ≠ .fileIoSuccess) →
        Uncorrupted pool (getPageOn evicting filling pool addr).2 (getPageOn evicting filling pool addr).1 addr := by
  intro always
  have whole := always onePage one_page_reachable .works .seekFails 0 (by decide) (by decide) (by decide)
    ⟨.fileIoFailed, by decide, by decide⟩
  have page := (whole.returned 0 (by decide) (by decide)).2
  exact absurd page (by decide)

end MyJQL.BufferPoolFailures
