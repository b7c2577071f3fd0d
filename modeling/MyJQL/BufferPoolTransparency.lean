import MyJQL.BufferPoolInvariant

/-!
# The buffer pool is a transparent write-back cache

Each operation keeps the representation invariant and moves the view in exactly the way an
uncached file would move. The run theorem quantifies over every order of fetches, writes through
pinned frames and releases, from any file the pool can be opened on.
-/

namespace MyJQL.BufferPoolTransparency

open MyJQL.FileIo
open MyJQL.BufferPoolModel
open MyJQL.BufferPoolInvariant

set_option autoImplicit false

variable {Page : Type}

def InFile (pool : BufferPool Page) (addr : Int) : Prop :=
  0 ≤ addr ∧ addr % pageSize = 0 ∧ addr < pool.file.length

def SameContents (before after : BufferPool Page) : Prop :=
  after.file.length = before.file.length ∧
    ∀ addr, InFile before addr → view after addr = view before addr

theorem label_in_file {pool : BufferPool Page} (invariant : PoolInvariant pool) {frame : Frame}
    {addr : Int} (nonneg : 0 ≤ addr) (label : pool.addrs frame = addr) : InFile pool addr := by
  have inside := invariant.addrsInside frame
  rw [label] at inside
  exact inside.resolve_left (by omega)

theorem init_invariant (disk : Disk Page) (memory : BufferPool Page) (nonneg : 0 ≤ disk.size)
    (aligned : disk.size % pageSize = 0) : PoolInvariant (initBufferPool disk memory) := by
  simp only [initBufferPool, openFile, aligned, ne_eq, not_true_eq_false, if_false]
  exact {
    lengthAligned := aligned
    lengthNonneg := nonneg
    stored := le_refl _
    addrsInside := fun _ => .inl rfl
    addrsDistinct := fun _ _ _ impossible => absurd rfl impossible
    emptyUnpinned := fun _ _ => rfl
    cntPositive := fun _ => Nat.one_pos }

theorem touch_invariant {pool : BufferPool Page} (invariant : PoolInvariant pool) {addr : Int}
    (nonneg : 0 ≤ addr) : PoolInvariant (touch addr pool) where
  lengthAligned := invariant.lengthAligned
  lengthNonneg := invariant.lengthNonneg
  stored := invariant.stored
  addrsInside := invariant.addrsInside
  addrsDistinct := invariant.addrsDistinct
  emptyUnpinned frame empty := by
    have label : pool.addrs frame = -1 := empty
    have other : pool.addrs frame ≠ addr := by omega
    simp only [touch, if_neg other]
    exact invariant.emptyUnpinned frame label
  cntPositive frame := by
    simp only [touch]
    split_ifs <;> omega

private theorem filled_label {pool filled : BufferPool Page} {frame : Frame} {addr : Int}
    (fill : Filled pool filled frame addr) {other : Frame} (different : other ≠ frame) :
    filled.addrs other = pool.addrs other := by
  rw [fill.addrs, Function.update_of_ne different]

private theorem filled_own_label {pool filled : BufferPool Page} {frame : Frame} {addr : Int}
    (fill : Filled pool filled frame addr) : filled.addrs frame = addr := by
  rw [fill.addrs, Function.update_self]

theorem filled_invariant {pool filled : BufferPool Page} {frame : Frame} {addr : Int}
    (invariant : PoolInvariant pool) (fill : Filled pool filled frame addr)
    (aligned : addr % pageSize = 0) (nonneg : 0 ≤ addr) (inside : addr ≤ pool.file.length)
    (absent : ∀ frame, pool.addrs frame ≠ addr) : PoolInvariant filled := by
  have length := fill.length
  have lengthAligned := invariant.lengthAligned
  have lengthNonneg := invariant.lengthNonneg
  have longer : pool.file.length ≤ filled.file.length := by
    rw [length]; simp only [pageSize] at *; split_ifs <;> omega
  have before : addr < filled.file.length := by
    rw [length]; simp only [pageSize] at *; split_ifs <;> omega
  refine {
    lengthAligned := ?_
    lengthNonneg := by omega
    stored := fill.stored
    addrsInside := ?_
    addrsDistinct := ?_
    emptyUnpinned := ?_
    cntPositive := fill.cntPositive }
  · rw [length]; simp only [pageSize] at *; split_ifs <;> omega
  · intro other
    by_cases same : other = frame
    · rw [same, filled_own_label fill]
      exact .inr ⟨nonneg, aligned, before⟩
    · rw [filled_label fill same]
      refine (invariant.addrsInside other).imp id fun inFile => ⟨inFile.1, inFile.2.1, ?_⟩
      omega
  · intro first second equal real
    by_cases firstNew : first = frame
    · by_cases secondNew : second = frame
      · rw [firstNew, secondNew]
      · rw [firstNew, filled_own_label fill, filled_label fill secondNew] at equal
        exact absurd equal.symm (absent second)
    · by_cases secondNew : second = frame
      · rw [secondNew, filled_own_label fill, filled_label fill firstNew] at equal
        exact absurd equal (absent first)
      · rw [filled_label fill firstNew, filled_label fill secondNew] at equal
        rw [filled_label fill firstNew] at real
        exact invariant.addrsDistinct first second equal real
  · intro other empty
    by_cases same : other = frame
    · rw [same, filled_own_label fill] at empty
      omega
    · rw [filled_label fill same] at empty
      rw [fill.ref, Function.update_of_ne same]
      exact invariant.emptyUnpinned other empty

/-- Filling a frame moves no page: the victim's page is found on the disk afterwards, and every
other page where it was. -/
theorem filled_view {pool filled : BufferPool Page} {frame : Frame} {addr other : Int}
    (invariant : PoolInvariant pool) (fill : Filled pool filled frame addr)
    (filledInvariant : PoolInvariant filled) (absent : ∀ frame, pool.addrs frame ≠ addr)
    (nonneg : 0 ≤ other) (kept : other ≠ addr ∨ addr < pool.file.length) :
    view filled other = view pool other := by
  by_cases own : other = addr
  · have before : addr < pool.file.length := kept.resolve_left (not_not.mpr own)
    rw [own, view_of_label filledInvariant (own ▸ nonneg) (filled_own_label fill),
      view_of_absent absent, fill.content before]
  · cases found : labelled pool other with
    | none =>
        have unlabelled := labelled_none.mp found
        have stillUnlabelled : ∀ holder, filled.addrs holder ≠ other := by
          intro holder
          by_cases same : holder = frame
          · rw [same, filled_own_label fill]; exact fun equal => own equal.symm
          · rw [filled_label fill same]; exact unlabelled holder
        have notOld : ¬(other = pool.addrs frame ∧ 0 ≤ other) :=
          fun old => unlabelled frame old.1.symm
        rw [view_of_absent stillUnlabelled, view_of_absent unlabelled, fill.disk other own,
          if_neg notOld]
    | some holder =>
        have label := labelled_label found
        rw [view_of_label invariant nonneg label]
        by_cases same : holder = frame
        · have stillUnlabelled : ∀ third, filled.addrs third ≠ other := by
            intro third
            by_cases sameThird : third = frame
            · rw [sameThird, filled_own_label fill]; exact fun equal => own equal.symm
            · rw [filled_label fill sameThird]
              intro equal
              exact sameThird ((invariant.addrsDistinct third holder (equal.trans label.symm)
                (by omega)).trans same)
          rw [view_of_absent stillUnlabelled, fill.disk other own,
            if_pos ⟨by rw [← same]; exact label.symm, nonneg⟩, same]
        · rw [view_of_label filledInvariant nonneg ((filled_label fill same).trans label),
            fill.others holder same]

theorem get_page_invariant {pool : BufferPool Page} (invariant : PoolInvariant pool) {addr : Int}
    (aligned : addr % pageSize = 0) (nonneg : 0 ≤ addr) :
    PoolInvariant (getPage pool addr).2 := by
  obtain ⟨_, same⟩ | ⟨_, _, hit⟩ | ⟨inside, absent, frame, filled, miss, fill⟩ | ⟨_, _, _, full⟩ :=
    get_page_cases invariant aligned nonneg
  · rw [same]; exact invariant
  · rw [hit]; exact touch_invariant invariant nonneg
  · rw [miss]; exact filled_invariant invariant fill aligned nonneg inside absent
  · rw [full]; exact touch_invariant invariant nonneg

theorem write_frame_invariant {pool : BufferPool Page} (invariant : PoolInvariant pool)
    (frame : Frame) (page : Page) : PoolInvariant (writeFrame pool frame page) where
  lengthAligned := invariant.lengthAligned
  lengthNonneg := invariant.lengthNonneg
  stored := invariant.stored
  addrsInside := invariant.addrsInside
  addrsDistinct := invariant.addrsDistinct
  emptyUnpinned := invariant.emptyUnpinned
  cntPositive := invariant.cntPositive

theorem write_frame_view {pool : BufferPool Page} (invariant : PoolInvariant pool) {frame : Frame}
    {page : Page} {addr other : Int} (label : pool.addrs frame = addr) (nonneg : 0 ≤ other) :
    view (writeFrame pool frame page) other = if other = addr then page else view pool other := by
  have written := write_frame_invariant invariant frame page
  split_ifs with same
  · rw [view_of_label written nonneg (show (writeFrame pool frame page).addrs frame = other by
      rw [same]; exact label)]
    simp [writeFrame]
  · cases found : labelled pool other with
    | none =>
        have absent := labelled_none.mp found
        rw [view_of_absent absent, view_of_absent (show ∀ holder,
          (writeFrame pool frame page).addrs holder ≠ other from absent)]
        rfl
    | some holder =>
        have holderLabel := labelled_label found
        have different : holder ≠ frame := by
          intro equal
          rw [equal, label] at holderLabel
          exact same holderLabel.symm
        rw [view_of_label invariant nonneg holderLabel,
          view_of_label written nonneg holderLabel]
        exact Function.update_of_ne different _ _

theorem release_invariant {pool : BufferPool Page} (invariant : PoolInvariant pool) (addr : Int) :
    PoolInvariant (release pool addr) := by
  unfold release
  cases labelled pool addr with
  | none => exact invariant
  | some frame =>
      refine { invariant with emptyUnpinned := ?_ }
      intro other empty
      by_cases same : other = frame
      · rw [same]; exact Function.update_self _ _ _
      · exact (Function.update_of_ne same _ _).trans (invariant.emptyUnpinned other empty)

theorem release_addrs (pool : BufferPool Page) (addr : Int) :
    (release pool addr).addrs = pool.addrs := by
  unfold release
  cases labelled pool addr <;> rfl

theorem release_same_contents (pool : BufferPool Page) (addr : Int) :
    SameContents pool (release pool addr) := by
  unfold release
  cases labelled pool addr <;> exact ⟨rfl, fun _ _ => rfl⟩

theorem cut_last_page_invariant {pool : BufferPool Page} (invariant : PoolInvariant pool)
    {addr : Int} (nonneg : 0 ≤ addr) (last : addr = pool.file.length - pageSize) :
    PoolInvariant (cutLastPage pool addr) := by
  have aligned := invariant.lengthAligned
  have stored := invariant.stored
  have others : ∀ frame, pool.addrs frame ≠ addr → pool.addrs frame = -1 ∨
      (0 ≤ pool.addrs frame ∧ pool.addrs frame % pageSize = 0 ∧
        pool.addrs frame < pool.file.length - pageSize) := by
    intro frame different
    refine (invariant.addrsInside frame).imp id fun inside => ⟨inside.1, inside.2.1, ?_⟩
    simp only [pageSize] at *
    omega
  unfold cutLastPage
  cases found : labelled pool addr with
  | none =>
      have absent := labelled_none.mp found
      exact {
        lengthAligned := by simp only [pageSize] at *; omega
        lengthNonneg := by simp only at *; omega
        stored := by simp only [pageSize] at *; omega
        addrsInside := fun frame => others frame (absent frame)
        addrsDistinct := invariant.addrsDistinct
        emptyUnpinned := invariant.emptyUnpinned
        cntPositive := invariant.cntPositive }
  | some cut =>
      have label := labelled_label found
      have stays : ∀ frame, frame ≠ cut → pool.addrs frame ≠ addr := by
        intro frame different same
        exact different (invariant.addrsDistinct frame cut (same.trans label.symm) (by omega))
      refine {
        lengthAligned := by simp only [pageSize] at *; omega
        lengthNonneg := by simp only at *; omega
        stored := by simp only [pageSize] at *; omega
        addrsInside := ?_
        addrsDistinct := ?_
        emptyUnpinned := ?_
        cntPositive := ?_ }
      · intro frame
        by_cases same : frame = cut
        · rw [same]; exact .inl (Function.update_self _ _ _)
        · simp only [Function.update_of_ne same]
          exact others frame (stays frame same)
      · intro first second equal real
        by_cases firstCut : first = cut
        · rw [firstCut] at real; exact absurd (Function.update_self _ _ _) real
        · by_cases secondCut : second = cut
          · simp only [secondCut, Function.update_self] at equal
            exact absurd equal real
          · simp only [Function.update_of_ne firstCut, Function.update_of_ne secondCut] at equal
            simp only [Function.update_of_ne firstCut] at real
            exact invariant.addrsDistinct first second equal real
      · intro frame empty
        by_cases same : frame = cut
        · rw [same]; exact Function.update_self _ _ _
        · simp only [Function.update_of_ne same] at empty ⊢
          exact invariant.emptyUnpinned frame empty
      · intro frame
        by_cases same : frame = cut
        · rw [same]; simp
        · simp only [Function.update_of_ne same]
          exact invariant.cntPositive frame

theorem cut_last_page_view {pool : BufferPool Page} (invariant : PoolInvariant pool) {addr : Int}
    (nonneg : 0 ≤ addr) (last : addr = pool.file.length - pageSize) {other : Int}
    (otherNonneg : 0 ≤ other) (different : other ≠ addr) :
    view (cutLastPage pool addr) other = view pool other := by
  have cutInvariant := cut_last_page_invariant invariant nonneg last
  revert cutInvariant
  unfold cutLastPage
  cases found : labelled pool addr with
  | none => exact fun _ => rfl
  | some cut =>
      intro cutInvariant
      have label := labelled_label found
      cases holds : labelled pool other with
      | none =>
          have absent := labelled_none.mp holds
          rw [view_of_absent absent, view_of_absent]
          intro frame
          by_cases same : frame = cut
          · rw [same]; simp only [Function.update_self]; omega
          · simp only [Function.update_of_ne same]; exact absent frame
      | some holder =>
          have holderLabel := labelled_label holds
          have apart : holder ≠ cut := by
            intro same
            rw [same, label] at holderLabel
            exact different holderLabel.symm
          have cutLabel : Function.update pool.addrs cut (-1) holder = other :=
            (Function.update_of_ne apart _ _).trans holderLabel
          rw [view_of_label invariant otherNonneg holderLabel,
            view_of_label cutInvariant otherNonneg cutLabel]

private theorem flush_frame_step {pool : BufferPool Page} (invariant : PoolInvariant pool)
    (frame : Frame) : PoolInvariant (flushFrame pool frame) ∧
      (flushFrame pool frame).addrs = pool.addrs ∧ (flushFrame pool frame).pages = pool.pages ∧
      ∀ addr, 0 ≤ addr → (flushFrame pool frame).file.fp.page addr =
        if addr = pool.addrs frame then pool.pages frame else pool.file.fp.page addr := by
  unfold flushFrame
  split_ifs with real
  · obtain ⟨_, aligned, upper⟩ := (invariant.addrsInside frame).resolve_left (by omega)
    rw [write_page_inside aligned real upper]
    refine ⟨{ invariant with stored := ?_ }, rfl, rfl, ?_⟩
    · have := invariant.stored
      simp only [Disk.write]
      omega
    · intro addr _
      simp only [Disk.write, Function.update_apply]
  · refine ⟨invariant, rfl, rfl, ?_⟩
    intro addr nonneg
    rw [if_neg (by omega)]

private theorem flush_frames {frames : List Frame} {pool : BufferPool Page}
    (invariant : PoolInvariant pool) {addr : Int} (nonneg : 0 ≤ addr)
    (clean : ∀ frame, pool.addrs frame = addr → frame ∉ frames →
      pool.file.fp.page addr = pool.pages frame) :
    (frames.foldl flushFrame pool).file.fp.page addr = view pool addr := by
  induction frames generalizing pool with
  | nil =>
      cases found : labelled pool addr with
      | none => exact (view_of_absent (labelled_none.mp found)).symm
      | some frame =>
          have label := labelled_label found
          rw [view_of_label invariant nonneg label]
          exact clean frame label (by simp)
  | cons frame rest ih =>
      obtain ⟨stepInvariant, addrs, pages, disk⟩ := flush_frame_step invariant frame
      rw [List.foldl_cons, ih stepInvariant]
      · cases found : labelled pool addr with
        | none =>
            have absent := labelled_none.mp found
            rw [view_of_absent absent, view_of_absent (by rw [addrs]; exact absent), disk addr nonneg,
              if_neg (fun same => absent frame same.symm)]
        | some holder =>
            have label := labelled_label found
            rw [view_of_label invariant nonneg label,
              view_of_label stepInvariant nonneg (by rw [addrs]; exact label), pages]
      · intro holder label notRest
        rw [addrs] at label
        rw [disk addr nonneg, pages]
        split_ifs with own
        · rw [invariant.addrsDistinct frame holder (own.symm.trans label.symm) (by omega)]
        · refine clean holder label fun member => ?_
          rcases List.mem_cons.mp member with same | inRest
          · exact own (by rw [← same]; exact label.symm)
          · exact notRest inRest

theorem close_disk_page {pool : BufferPool Page} (invariant : PoolInvariant pool) {addr : Int}
    (nonneg : 0 ≤ addr) : (closeBufferPool pool).file.fp.page addr = view pool addr :=
  flush_frames invariant nonneg fun frame _ absent => absurd (List.mem_finRange frame) absent

private theorem flush_frame_size {pool : BufferPool Page} (invariant : PoolInvariant pool) (frame : Frame) :
    (flushFrame pool frame).file.fp.size = pool.file.fp.size := by
  unfold flushFrame
  split_ifs with real
  · obtain ⟨_, aligned, upper⟩ := (invariant.addrsInside frame).resolve_left (by omega)
    have lengthAligned := invariant.lengthAligned
    have stored := invariant.stored
    rw [write_page_inside aligned real upper]
    simp only [Disk.write, pageSize] at *
    omega
  · rfl

theorem close_disk_size {pool : BufferPool Page} (invariant : PoolInvariant pool) :
    (closeBufferPool pool).file.fp.size = pool.file.fp.size := by
  have kept : ∀ (frames : List Frame) (pool : BufferPool Page), PoolInvariant pool →
      (frames.foldl flushFrame pool).file.fp.size = pool.file.fp.size := by
    intro frames
    induction frames with
    | nil =>
        intro pool _
        rfl
    | cons frame rest ih =>
        intro pool invariant
        rw [List.foldl_cons, ih _ (flush_frame_step invariant frame).1, flush_frame_size invariant frame]
  exact kept _ pool invariant

theorem close_disk_behind {pool : BufferPool Page} (invariant : PoolInvariant pool) {addr : Int}
    (behind : pool.file.length ≤ addr) : (closeBufferPool pool).file.fp.page addr = pool.file.fp.page addr := by
  have nonneg := invariant.lengthNonneg
  rw [close_disk_page invariant (by omega)]
  apply view_of_absent
  intro frame label
  have inside := label_in_file invariant (by omega) label
  have := inside.2.2
  omega

/-- Every pool that fetches of page addresses, writes through pinned frames and releases can
produce from a freshly opened file. -/
inductive Reachable (disk : Disk Page) : BufferPool Page → Prop
  | opened (memory : BufferPool Page) : Reachable disk (initBufferPool disk memory)
  | fetched {pool : BufferPool Page} (addr : Int) (aligned : addr % pageSize = 0)
      (nonneg : 0 ≤ addr) : Reachable disk pool → Reachable disk (getPage pool addr).2
  | written {pool : BufferPool Page} (frame : Frame) (page : Page)
      (pinned : pool.ref frame ≠ 0) : Reachable disk pool →
      Reachable disk (writeFrame pool frame page)
  | released {pool : BufferPool Page} (addr : Int) : Reachable disk pool →
      Reachable disk (release pool addr)

theorem reachable_invariant {disk : Disk Page} (nonneg : 0 ≤ disk.size)
    (aligned : disk.size % pageSize = 0) {pool : BufferPool Page} (run : Reachable disk pool) :
    PoolInvariant pool := by
  induction run with
  | opened memory => exact init_invariant disk memory nonneg aligned
  | fetched addr addrAligned addrNonneg _ ih => exact get_page_invariant ih addrAligned addrNonneg
  | written frame page _ _ ih => exact write_frame_invariant ih frame page
  | released addr _ ih => exact release_invariant ih addr

/-- What `get_page` answers and how it moves the contents, in any pool that satisfies the
invariant. -/
structure FetchTransparent (pool : BufferPool Page) (addr : Int) : Prop where
  refused : (∀ frame, pool.ref frame ≠ 0) → (∀ frame, pool.addrs frame ≠ addr) →
    (getPage pool addr).1 = none ∧ SameContents pool (getPage pool addr).2
  fetched : ((∃ frame, pool.ref frame = 0) ∨ ∃ frame, pool.addrs frame = addr) →
    addr < pool.file.length → ∃ frame, (getPage pool addr).1 = some frame ∧
      (getPage pool addr).2.addrs frame = addr ∧ (getPage pool addr).2.ref frame ≠ 0 ∧
      (getPage pool addr).2.pages frame = view pool addr ∧
      SameContents pool (getPage pool addr).2
  appended : (∃ frame, pool.ref frame = 0) → addr = pool.file.length →
    ∃ frame, (getPage pool addr).1 = some frame ∧
      (getPage pool addr).2.addrs frame = addr ∧ (getPage pool addr).2.ref frame ≠ 0 ∧
      (getPage pool addr).2.file.length = pool.file.length + pageSize ∧
      ∀ other, InFile pool other → view (getPage pool addr).2 other = view pool other
  beyond : pool.file.length < addr → getPage pool addr = (none, pool)
  pinnedStay : ∀ frame, pool.ref frame ≠ 0 → (getPage pool addr).2.addrs frame = pool.addrs frame ∧
    (getPage pool addr).2.ref frame ≠ 0 ∧ (getPage pool addr).2.pages frame = pool.pages frame

theorem fetch_transparent {pool : BufferPool Page} (invariant : PoolInvariant pool) {addr : Int}
    (aligned : addr % pageSize = 0) (nonneg : 0 ≤ addr) : FetchTransparent pool addr := by
  obtain ⟨beyond, same⟩ | ⟨frame, label, hit⟩ | ⟨inside, absent, frame, filled, miss, fill⟩ |
    ⟨inside, absent, allPinned, full⟩ := get_page_cases invariant aligned nonneg
  · refine ⟨?_, ?_, ?_, fun _ => same, ?_⟩
    · intro _ _
      rw [same]
      exact ⟨rfl, rfl, fun _ _ => rfl⟩
    · intro _ before; omega
    · intro _ atEnd; omega
    · intro frame pinned
      rw [same]
      exact ⟨rfl, pinned, rfl⟩
  · have inFile := label_in_file invariant nonneg label
    refine ⟨?_, ?_, ?_, ?_, ?_⟩
    · intro _ absent; exact absurd label (absent frame)
    · intro _ _
      rw [hit]
      refine ⟨frame, rfl, label, ?_, (view_of_label invariant nonneg label).symm, rfl, fun _ _ => rfl⟩
      simp [touch, label]
    · intro _ atEnd; have := inFile.2.2; omega
    · intro beyond; have := inFile.2.2; omega
    · intro other pinned
      rw [hit]
      refine ⟨rfl, ?_, rfl⟩
      simp only [touch]
      split_ifs
      · exact Nat.one_ne_zero
      · exact pinned
  · have filledInvariant := filled_invariant invariant fill aligned nonneg inside absent
    have ownLabel : filled.addrs frame = addr := by rw [fill.addrs, Function.update_self]
    have ownPinned : filled.ref frame ≠ 0 := by rw [fill.ref, Function.update_self]; exact Nat.one_ne_zero
    refine ⟨?_, ?_, ?_, ?_, ?_⟩
    · intro allPinned _; exact absurd fill.unpinned (allPinned frame)
    · intro _ before
      rw [miss]
      refine ⟨frame, rfl, ownLabel, ownPinned, ?_, ?_, ?_⟩
      · rw [fill.content before, view_of_absent absent]
      · rw [fill.length, if_neg (by omega)]
      · intro other inFile
        exact filled_view invariant fill filledInvariant absent inFile.1 (.inr before)
    · intro _ atEnd
      rw [miss]
      refine ⟨frame, rfl, ownLabel, ownPinned, ?_, ?_⟩
      · rw [fill.length, if_pos atEnd]
      · intro other inFile
        have before := inFile.2.2
        exact filled_view invariant fill filledInvariant absent inFile.1 (.inl (by omega))
    · intro beyond; omega
    · intro other pinned
      have different : other ≠ frame := by
        intro equal
        exact pinned (by rw [equal]; exact fill.unpinned)
      rw [miss]
      refine ⟨?_, ?_, fill.others other different⟩
      · rw [fill.addrs, Function.update_of_ne different]
      · rw [fill.ref, Function.update_of_ne different]; exact pinned
  · refine ⟨?_, ?_, ?_, ?_, ?_⟩
    · intro _ _
      rw [full]
      exact ⟨rfl, rfl, fun _ _ => rfl⟩
    · rintro (⟨frame, unpinned⟩ | ⟨frame, label⟩) _
      · exact absurd unpinned (allPinned frame)
      · exact absurd label (absent frame)
    · rintro ⟨frame, unpinned⟩ _; exact absurd unpinned (allPinned frame)
    · intro beyond; omega
    · intro frame pinned
      rw [full]
      refine ⟨rfl, ?_, rfl⟩
      simp only [touch, if_neg (absent frame)]
      exact pinned

/-- In every reachable pool: fetches behave like fetches of an uncached file and never reassign a
pinned frame, writes through a pinned frame change that page only, releases change no page, and
closing leaves the final view in the file. -/
theorem buffer_pool_transparent (disk : Disk Page) (sizeNonneg : 0 ≤ disk.size)
    (sizeAligned : disk.size % pageSize = 0) (pool : BufferPool Page)
    (reachable : Reachable disk pool) :
    (∀ addr, 0 ≤ addr → addr % pageSize = 0 → FetchTransparent pool addr) ∧
    (∀ frame page, pool.ref frame ≠ 0 →
      (writeFrame pool frame page).addrs = pool.addrs ∧
      (writeFrame pool frame page).file.length = pool.file.length ∧
      ∀ addr, InFile pool addr → view (writeFrame pool frame page) addr =
        if addr = pool.addrs frame then page else view pool addr) ∧
    (∀ addr, (release pool addr).addrs = pool.addrs ∧ SameContents pool (release pool addr)) ∧
    ∀ addr, InFile pool addr → (closeBufferPool pool).file.fp.page addr = view pool addr := by
  have invariant := reachable_invariant sizeNonneg sizeAligned reachable
  refine ⟨?_, ?_, ?_, ?_⟩
  · intro addr nonneg aligned
    exact fetch_transparent invariant aligned nonneg
  · intro frame page _
    exact ⟨rfl, rfl, fun addr inFile => write_frame_view invariant rfl inFile.1⟩
  · intro addr
    exact ⟨release_addrs pool addr, release_same_contents pool addr⟩
  · intro addr inFile
    exact close_disk_page invariant inFile.1

/-- A pool that created the first page of an empty file. -/
theorem buffer_pool_transparent_first_page :
    FetchTransparent (getPage (initBufferPool ⟨0, fun _ => (7 : Nat)⟩
      ⟨⟨⟨0, fun _ => 7⟩, 0⟩, fun _ => 5, fun _ => 0, fun _ => 0, fun _ => 0⟩) 0).2 128 :=
  (buffer_pool_transparent ⟨0, fun _ => (7 : Nat)⟩ (by decide) (by decide) _
    (.fetched 0 (by decide) (by decide) (.opened _))).1 128 (by decide) (by decide)

end MyJQL.BufferPoolTransparency
