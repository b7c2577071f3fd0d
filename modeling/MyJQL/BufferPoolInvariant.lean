import MyJQL.BufferPoolModel
import Mathlib.Tactic.Ring

/-!
# What one `get_page` can do

The representation invariant of the pool, and one inversion lemma for `get_page`: it refuses,
hits, fills a frame that was unpinned, or finds every frame pinned. Every later fact about the
pool comes from these four cases.
-/

namespace MyJQL.BufferPoolInvariant

open MyJQL.FileIo
open MyJQL.BufferPoolModel

set_option autoImplicit false

variable {Page : Type}

structure PoolInvariant (pool : BufferPool Page) : Prop where
  lengthAligned : pool.file.length % pageSize = 0
  lengthNonneg : 0 ≤ pool.file.length
  stored : pool.file.length ≤ pool.file.fp.size
  addrsInside : ∀ frame, pool.addrs frame = -1 ∨
    (0 ≤ pool.addrs frame ∧ pool.addrs frame % pageSize = 0 ∧
      pool.addrs frame < pool.file.length)
  addrsDistinct : ∀ frame other, pool.addrs frame = pool.addrs other →
    pool.addrs frame ≠ -1 → frame = other
  emptyUnpinned : ∀ frame, pool.addrs frame = -1 → pool.ref frame = 0
  cntPositive : ∀ frame, 0 < pool.cnt frame

theorem labelled_some {pool : BufferPool Page} (invariant : PoolInvariant pool) {addr : Int}
    {frame : Frame} (nonneg : 0 ≤ addr) (holds : pool.addrs frame = addr) :
    labelled pool addr = some frame := by
  cases found : labelled pool addr with
  | none =>
      have absent := List.find?_eq_none.mp found frame (List.mem_finRange frame)
      simp [holds] at absent
  | some other =>
      have label : pool.addrs other = addr := by simpa using List.find?_some found
      have same := invariant.addrsDistinct other frame (label.trans holds.symm) (by omega)
      rw [same]

theorem labelled_label {pool : BufferPool Page} {addr : Int} {frame : Frame}
    (found : labelled pool addr = some frame) : pool.addrs frame = addr := by
  simpa using List.find?_some found

theorem labelled_none {pool : BufferPool Page} {addr : Int} :
    labelled pool addr = none ↔ ∀ frame, pool.addrs frame ≠ addr := by
  simp [labelled, List.find?_eq_none, List.mem_finRange]

theorem empty_frame_label {pool : BufferPool Page} {frame : Frame}
    (found : emptyFrame pool = some frame) : pool.addrs frame = -1 := by
  simpa using List.find?_some found

theorem empty_frame_none {pool : BufferPool Page} (found : emptyFrame pool = none)
    (frame : Frame) : pool.addrs frame ≠ -1 := by
  simpa using List.find?_eq_none.mp found frame (List.mem_finRange frame)

/-- Labels are distinct, so the last match of the hit loop is the only one. -/
theorem hit_frame_eq_labelled {pool : BufferPool Page} (invariant : PoolInvariant pool)
    {addr : Int} (nonneg : 0 ≤ addr) : hitFrame pool addr = labelled pool addr := by
  cases found : hitFrame pool addr with
  | none =>
      symm
      rw [labelled_none]
      intro frame
      have absent := List.find?_eq_none.mp found frame (by simp)
      simpa using absent
  | some frame =>
      have label : pool.addrs frame = addr := by simpa using List.find?_some found
      exact (labelled_some invariant nonneg label).symm

theorem view_of_label {pool : BufferPool Page} (invariant : PoolInvariant pool) {addr : Int}
    {frame : Frame} (nonneg : 0 ≤ addr) (holds : pool.addrs frame = addr) :
    view pool addr = pool.pages frame := by
  rw [view, labelled_some invariant nonneg holds]

theorem view_of_absent {pool : BufferPool Page} {addr : Int}
    (absent : ∀ frame, pool.addrs frame ≠ addr) : view pool addr = pool.file.fp.page addr := by
  rw [view, labelled_none.mpr absent]

/-- What the scan for a victim knows about the frame it keeps. -/
private structure Kept (pool : BufferPool Page) (best : Nat × Option Frame) : Prop where
  chosen : ∀ frame, best.2 = some frame → pool.ref frame = 0 ∧ pool.cnt frame = best.1
  nothing : best.2 = none → best.1 = 0

/-- The largest counter seen so far bounds the counter of every unpinned frame that was visited. -/
private theorem victim_scan (pool : BufferPool Page) (frames : List Frame)
    (best : Nat × Option Frame) (kept : Kept pool best) :
    let scan := frames.foldl
      (fun (best : Nat × Option Frame) frame =>
        if pool.ref frame = 0 ∧ pool.cnt frame > best.1 then (pool.cnt frame, some frame) else best)
      best
    Kept pool scan ∧ best.1 ≤ scan.1 ∧ ∀ frame ∈ frames, pool.ref frame = 0 → pool.cnt frame ≤ scan.1 := by
  induction frames generalizing best with
  | nil => exact ⟨kept, le_refl _, by simp⟩
  | cons frame rest ih =>
      simp only [List.foldl_cons]
      by_cases better : pool.ref frame = 0 ∧ pool.cnt frame > best.1
      · rw [if_pos better]
        obtain ⟨keeps, grown, bounded⟩ := ih (pool.cnt frame, some frame)
          ⟨by intro chosen same; simp only [Option.some.injEq] at same; rw [← same]; exact ⟨better.1, rfl⟩,
            by intro impossible; simp at impossible⟩
        refine ⟨keeps, le_trans (le_of_lt better.2) grown, ?_⟩
        intro other member refZero
        rcases List.mem_cons.mp member with rfl | inRest
        · exact grown
        · exact bounded other inRest refZero
      · rw [if_neg better]
        obtain ⟨keeps, grown, bounded⟩ := ih best kept
        refine ⟨keeps, grown, ?_⟩
        intro other member refZero
        rcases List.mem_cons.mp member with rfl | inRest
        · omega
        · exact bounded other inRest refZero

private theorem victim_kept (pool : BufferPool Page) : ∃ largest, Kept pool (largest, victimFrame pool) ∧
    ∀ frame, pool.ref frame = 0 → pool.cnt frame ≤ largest := by
  obtain ⟨kept, _, bounded⟩ := victim_scan pool (List.finRange cachePage) (0, none)
    ⟨by intro frame impossible; simp at impossible, fun _ => rfl⟩
  exact ⟨_, kept, fun frame => bounded frame (List.mem_finRange frame)⟩

theorem victim_unpinned {pool : BufferPool Page} {frame : Frame}
    (chosen : victimFrame pool = some frame) : pool.ref frame = 0 := by
  obtain ⟨_, kept, _⟩ := victim_kept pool
  exact (kept.chosen frame chosen).1

theorem victim_largest {pool : BufferPool Page} {frame : Frame} (chosen : victimFrame pool = some frame)
    (other : Frame) (unpinned : pool.ref other = 0) : pool.cnt other ≤ pool.cnt frame := by
  obtain ⟨_, kept, bounded⟩ := victim_kept pool
  rw [(kept.chosen frame chosen).2]
  exact bounded other unpinned

/-- Counters start at one and only grow, so the scan misses no unpinned frame. -/
theorem victim_none {pool : BufferPool Page} (positive : ∀ frame, 0 < pool.cnt frame)
    (nothing : victimFrame pool = none) (frame : Frame) : pool.ref frame ≠ 0 := by
  intro refZero
  obtain ⟨largest, kept, bounded⟩ := victim_kept pool
  have zero : largest = 0 := kept.nothing nothing
  have := bounded frame refZero
  have := positive frame
  omega

/-- How a frame looks after `get_page` has filled it with the page at `addr`: the frame was
unpinned, its old page went to the disk, and no other frame changed. -/
structure Filled (pool filled : BufferPool Page) (frame : Frame) (addr : Int) : Prop where
  unpinned : pool.ref frame = 0
  addrs : filled.addrs = Function.update pool.addrs frame addr
  ref : filled.ref = Function.update pool.ref frame 1
  cntPositive : ∀ other, 0 < filled.cnt other
  others : ∀ other, other ≠ frame → filled.pages other = pool.pages other
  length : filled.file.length =
    if addr = pool.file.length then pool.file.length + pageSize else pool.file.length
  stored : filled.file.length ≤ filled.file.fp.size
  size : filled.file.fp.size = if addr = pool.file.length then
    max pool.file.fp.size (pool.file.length + pageSize) else pool.file.fp.size
  content : addr < pool.file.length → filled.pages frame = pool.file.fp.page addr
  disk : ∀ other, other ≠ addr → filled.file.fp.page other =
    if other = pool.addrs frame ∧ 0 ≤ other then pool.pages frame else pool.file.fp.page other

private theorem update_self_at {Value : Type} (array : Frame → Value) (frame : Frame)
    (value : Value) : Function.update array frame value frame = value := by simp

private theorem fill_frame_filled (pool : BufferPool Page) {addr : Int} (frame : Frame)
    (aligned : addr % pageSize = 0) (nonneg : 0 ≤ addr) (inside : addr ≤ pool.file.length)
    (lengthAligned : pool.file.length % pageSize = 0)
    (stored : pool.file.length ≤ pool.file.fp.size)
    (unpinned : pool.ref frame = 0) (positive : ∀ other, 0 < pool.cnt other)
    (clean : 0 ≤ pool.addrs frame →
      pool.file.fp.page (pool.addrs frame) = pool.pages frame) :
    Filled pool (fillFrame .works addr frame pool) frame addr := by
  have cntPositive : ∀ other, 0 < Function.update pool.cnt frame 1 other := by
    intro other
    by_cases same : other = frame
    · rw [same, update_self_at]; exact Nat.one_pos
    · rw [Function.update_of_ne same]; exact positive other
  have cleanDisk : ∀ other, pool.file.fp.page other =
      if other = pool.addrs frame ∧ 0 ≤ other then pool.pages frame else pool.file.fp.page other := by
    intro other
    split_ifs with old
    · rw [old.1, clean (old.1 ▸ old.2)]
    · rfl
  by_cases atEnd : pool.file.length = addr
  · have wrote : writePage .works (pool.pages frame) pool.file addr =
        (.fileIoSuccess,
          ⟨pool.file.fp.write addr (pool.pages frame), pool.file.length + pageSize⟩) := by
      rw [← atEnd]
      exact write_page_append lengthAligned (by omega)
    simp only [fillFrame, if_pos atEnd, wrote]
    refine ⟨unpinned, rfl, rfl, cntPositive, fun _ _ => rfl, ?_, ?_, ?_, ?_, ?_⟩
    · rw [if_pos atEnd.symm]
    · simp only [Disk.write, pageSize]; omega
    · simp only [Disk.write, atEnd, if_true]
    · intro before; omega
    · intro other different
      simp only [Disk.write, Function.update_of_ne different]
      exact cleanDisk other
  · have before : addr < pool.file.length := by omega
    have read := read_page_works (pool.pages frame) aligned nonneg before
      (by simp only [pageSize] at *; omega)
    simp only [fillFrame, if_neg atEnd, read]
    refine ⟨unpinned, rfl, rfl, cntPositive, ?_, ?_, stored, ?_, ?_, ?_⟩
    · intro other different
      exact Function.update_of_ne different _ _
    · rw [if_neg (fun same => atEnd same.symm)]
    · rw [if_neg (fun same => atEnd same.symm)]
    · intro _
      exact update_self_at _ _ _
    · intro other _
      exact cleanDisk other

theorem get_page_cases {pool : BufferPool Page} (invariant : PoolInvariant pool) {addr : Int}
    (aligned : addr % pageSize = 0) (nonneg : 0 ≤ addr) :
    (pool.file.length < addr ∧ getPage pool addr = (none, pool)) ∨
    (∃ frame, pool.addrs frame = addr ∧ getPage pool addr = (some frame, touch addr pool)) ∨
    (addr ≤ pool.file.length ∧ (∀ frame, pool.addrs frame ≠ addr) ∧
      ∃ frame filled, getPage pool addr = (some frame, filled) ∧ Filled pool filled frame addr) ∨
    (addr ≤ pool.file.length ∧ (∀ frame, pool.addrs frame ≠ addr) ∧
      (∀ frame, pool.ref frame ≠ 0) ∧ getPage pool addr = (none, touch addr pool)) := by
  by_cases beyond : pool.file.length < addr
  · exact .inl ⟨beyond, by simp [getPage, getPageOn, beyond]⟩
  refine .inr ?_
  have inside : addr ≤ pool.file.length := by omega
  have hit := hit_frame_eq_labelled invariant nonneg
  cases found : labelled pool addr with
  | some frame =>
      refine .inl ⟨frame, labelled_label found, ?_⟩
      simp only [getPage, getPageOn, if_neg beyond, hit, found]
  | none =>
      refine .inr ?_
      have absent := labelled_none.mp found
      have touchedRef : (touch addr pool).ref = pool.ref := by
        funext frame; simp [touch, absent frame]
      have touchedCnt : ∀ frame, 0 < (touch addr pool).cnt frame := by
        intro frame; simp [touch, absent frame]
      have miss : getPage pool addr = missPage .works .works addr (touch addr pool) := by
        simp only [getPage, getPageOn, if_neg beyond, hit, found]
      cases empty : emptyFrame (touch addr pool) with
      | some frame =>
          have label : pool.addrs frame = -1 := empty_frame_label empty
          have filled := fill_frame_filled (touch addr pool) frame aligned nonneg
            inside invariant.lengthAligned invariant.stored
            (by rw [touchedRef]; exact invariant.emptyUnpinned frame label) touchedCnt
            (by intro impossible; simp only [touch, label] at impossible; omega)
          simp only [missPage, empty] at miss
          exact .inl ⟨inside, absent, frame, _, miss,
            ⟨invariant.emptyUnpinned frame label, filled.addrs, by rw [filled.ref, touchedRef],
              filled.cntPositive, filled.others, filled.length, filled.stored, filled.size,
              filled.content, filled.disk⟩⟩
      | none =>
          cases victim : victimFrame (touch addr pool) with
          | none =>
              simp only [missPage, empty, victim] at miss
              refine .inr ⟨inside, absent, ?_, miss⟩
              intro frame
              have pinned := victim_none touchedCnt victim frame
              rwa [touchedRef] at pinned
          | some frame =>
              simp only [missPage, empty, victim] at miss
              have refZero : pool.ref frame = 0 := by
                have unpinned := victim_unpinned victim
                rwa [touchedRef] at unpinned
              have full : pool.addrs frame ≠ -1 := empty_frame_none empty frame
              obtain ⟨lower, oldAligned, upper⟩ :=
                (invariant.addrsInside frame).resolve_left full
              have back : writePage .works (pool.pages frame) pool.file (pool.addrs frame) =
                  (.fileIoSuccess,
                    { pool.file with fp := pool.file.fp.write (pool.addrs frame) (pool.pages frame) }) :=
                write_page_inside oldAligned lower upper
              have written : writeBack .works frame (touch addr pool) =
                  { touch addr pool with file :=
                    { pool.file with fp := pool.file.fp.write (pool.addrs frame) (pool.pages frame) } } := by
                simp only [writeBack, touch, back]
              have filled := fill_frame_filled
                (writeBack .works frame (touch addr pool)) frame aligned nonneg
                (by rw [written]; exact inside) (by rw [written]; exact invariant.lengthAligned)
                (by rw [written]; have := invariant.stored; simp only [Disk.write]; omega)
                (by rw [written, touchedRef]; exact refZero) (by rw [written]; exact touchedCnt)
                (by rw [written]; intro _; simp [Disk.write, touch])
              refine .inl ⟨inside, absent, frame, _, miss, refZero, ?_, ?_, filled.cntPositive, ?_,
                ?_, filled.stored, ?_, ?_, ?_⟩
              · rw [filled.addrs, written]; rfl
              · rw [filled.ref, written, touchedRef]
              · intro other different
                rw [filled.others other different, written]; rfl
              · rw [filled.length, written]
              · rw [filled.size, written]
                have stored := invariant.stored
                have lengthAligned := invariant.lengthAligned
                have kept : max pool.file.fp.size (pool.addrs frame + pageSize) = pool.file.fp.size := by
                  simp only [pageSize] at *
                  omega
                simp only [Disk.write, kept]
              · intro before
                rw [filled.content (by rw [written]; exact before), written]
                exact Function.update_of_ne (fun same => absent frame same.symm) _ _
              · intro other different
                rw [filled.disk other different, written]
                simp only [touch, Disk.write]
                by_cases old : other = pool.addrs frame
                · subst old
                  simp [lower]
                · simp only [old, false_and, if_false, ne_eq, not_false_eq_true,
                    Function.update_of_ne]

end MyJQL.BufferPoolInvariant
