import MyJQL.PageStoreLogic
import MyJQL.ProgramSimulation

/-!
# Programs that own a file of pages

What such a program does with its pages, apart from where the pages are kept. They may be kept in a
file behind a pool, or in an array without a cache. The two correspond as long as the array holds
what a reader of the pool sees, and then a program over the array follows the same program over the
pool.

Nothing depends on the frame of a pointer, and a page behind the end of the file comes with whatever
it happens to contain. The array is told both in advance.
-/

namespace MyJQL.PagedPrograms

open MyJQL.FileIo
open MyJQL.BufferPoolModel
open MyJQL.BufferPoolInvariant
open MyJQL.BufferPoolTransparency
open MyJQL.StateProgram
open MyJQL.PageStoreLogic
open MyJQL.ProgramSimulation

set_option autoImplicit false

variable {Page : Type}

class Paged (Pages : Type) (Page : outParam Type) where
  fetch : Int → Program Pages PagePtr
  load : PagePtr → Program Pages Page
  amend : PagePtr → (Page → Page) → Program Pages Unit
  unpin : Int → Program Pages Unit
  fileLength : Program Pages Int
  cutLast : Int → Program Pages Unit

instance : Paged (BufferPool Page) Page where
  fetch := fetch
  load := load
  amend := amend
  unpin := unpin
  fileLength := fileLength
  cutLast := cutLast

/-- The frame of the next pointer, and the content of the page if it is new. -/
abbrev Hint (Page : Type) := Frame × Page

structure PageArray (Page : Type) where
  page : Int → Page
  length : Int
  hints : List (Hint Page)

namespace PageArray

def Inside (array : PageArray Page) (addr : Int) : Prop := IsPageAddr addr ∧ addr < array.length

instance (array : PageArray Page) (addr : Int) : Decidable (array.Inside addr) :=
  inferInstanceAs (Decidable (_ ∧ _))

def fetch (addr : Int) : Program (PageArray Page) PagePtr := fun array =>
  match array.hints with
  | [] => none
  | (frame, blank) :: rest =>
      if array.Inside addr then some (⟨frame, addr⟩, { array with hints := rest })
      else if IsPageAddr addr ∧ addr = array.length then
        some (⟨frame, addr⟩,
          { page := Function.update array.page addr blank, length := array.length + pageSize, hints := rest })
      else none

def load (pointer : PagePtr) : Program (PageArray Page) Page := fun array =>
  if array.Inside pointer.addr then some (array.page pointer.addr, array) else none

def amend (pointer : PagePtr) (change : Page → Page) : Program (PageArray Page) Unit := fun array =>
  if array.Inside pointer.addr then
    some ((), { array with
      page := Function.update array.page pointer.addr (change (array.page pointer.addr)) })
  else none

def unpin (_addr : Int) : Program (PageArray Page) Unit := pure ()

def fileLength : Program (PageArray Page) Int := fun array => some (array.length, array)

def cutLast (addr : Int) : Program (PageArray Page) Unit := fun array =>
  if 0 ≤ addr ∧ addr = array.length - pageSize then
    some ((), { array with length := array.length - pageSize })
  else none

instance : Paged (PageArray Page) Page where
  fetch := fetch
  load := load
  amend := amend
  unpin := unpin
  fileLength := fileLength
  cutLast := cutLast

end PageArray

/-- An array that holds what a reader of the pool sees. -/
structure Mirrors (pool : BufferPool Page) (hints : List (Hint Page)) (array : PageArray Page) : Prop where
  hints : array.hints = hints
  length : array.length = pool.file.length
  page : ∀ addr, InFile pool addr → array.page addr = view pool addr

def mirror : Correspondence (BufferPool Page) (PageArray Page) (Hint Page) where
  good := PoolInvariant
  stands := Mirrors

def uncached (pool : BufferPool Page) (hints : List (Hint Page)) : PageArray Page :=
  ⟨view pool, pool.file.length, hints⟩

theorem uncached_mirrors (pool : BufferPool Page) (hints : List (Hint Page)) :
    Mirrors pool hints (uncached pool hints) := ⟨rfl, rfl, fun _ _ => rfl⟩

variable {pool : BufferPool Page} {array : PageArray Page} {hints : List (Hint Page)}

theorem mirrors_inside (mirrors : Mirrors pool hints array) {addr : Int} (inFile : InFile pool addr) :
    array.Inside addr := by
  obtain ⟨nonneg, aligned, inside⟩ := inFile
  exact ⟨⟨nonneg, aligned⟩, by rw [mirrors.length]; exact inside⟩

theorem pointer_in_file {pointer : PagePtr} (invariant : PoolInvariant pool)
    (held : pool.addrs pointer.frame = pointer.addr ∧ pool.ref pointer.frame ≠ 0) : InFile pool pointer.addr := by
  obtain ⟨label, pinned⟩ := held
  rcases invariant.addrsInside pointer.frame with empty | inside
  · exact absurd (invariant.emptyUnpinned _ empty) pinned
  · rw [label] at inside
    exact inside

theorem follows_load (pointer : PagePtr) :
    Follows mirror (@load Page pointer) (PageArray.load pointer) := by
  intro pool page after invariant ran
  simp only [load, Option.ite_none_right_eq_some, Option.some.injEq, Prod.mk.injEq] at ran
  obtain ⟨held, rfl, rfl⟩ := ran
  have inFile := pointer_in_file invariant held
  refine ⟨invariant, [], fun rest array mirrors => ⟨array, ?_, mirrors⟩⟩
  rw [PageArray.load, if_pos (mirrors_inside mirrors inFile), mirrors.page _ inFile,
    view_of_label invariant inFile.1 held.1]

theorem follows_amend (pointer : PagePtr) (change : Page → Page) :
    Follows mirror (amend pointer change) (PageArray.amend pointer change) := by
  intro pool value after invariant ran
  simp only [amend, Option.ite_none_right_eq_some, Option.some.injEq, Prod.mk.injEq] at ran
  obtain ⟨held, _, rfl⟩ := ran
  have inFile := pointer_in_file invariant held
  refine ⟨write_frame_invariant invariant _ _, [], fun rest array mirrors => ?_⟩
  have own : array.page pointer.addr = pool.pages pointer.frame := by
    rw [mirrors.page _ inFile, view_of_label invariant inFile.1 held.1]
  refine ⟨{ array with page := Function.update array.page pointer.addr (change (pool.pages pointer.frame)) },
    by rw [PageArray.amend, if_pos (mirrors_inside mirrors inFile), own], mirrors.hints, mirrors.length, ?_⟩
  intro other otherInFile
  rw [write_frame_view invariant held.1 otherInFile.1]
  simp only [Function.update_apply]
  split_ifs with same
  · rfl
  · exact mirrors.page other otherInFile

theorem follows_unpin (addr : Int) : Follows mirror (@unpin Page addr) (PageArray.unpin addr) := by
  intro pool value after invariant ran
  have released : after = release pool addr := by
    rw [unpin] at ran
    cases found : labelled pool addr with
    | none =>
        rw [found] at ran
        cases ran
    | some frame =>
        rw [found] at ran
        cases ran
        rfl
  obtain ⟨length, views⟩ := release_same_contents pool addr
  subst released
  refine ⟨release_invariant invariant addr, [], fun rest array mirrors => ⟨array, rfl, mirrors.hints, ?_, ?_⟩⟩
  · rw [length]
    exact mirrors.length
  · intro other inFile
    have inBefore : InFile pool other := ⟨inFile.1, inFile.2.1, by rw [← length]; exact inFile.2.2⟩
    rw [views other inBefore]
    exact mirrors.page other inBefore

theorem follows_file_length : Follows mirror (@fileLength Page) PageArray.fileLength := by
  rintro pool _ _ invariant ⟨⟩
  refine ⟨invariant, [], fun rest array mirrors => ⟨array, ?_, mirrors⟩⟩
  rw [PageArray.fileLength, mirrors.length]

theorem follows_cut_last (addr : Int) : Follows mirror (@cutLast Page addr) (PageArray.cutLast addr) := by
  intro pool value after invariant ran
  simp only [cutLast, Option.ite_none_right_eq_some, Option.some.injEq, Prod.mk.injEq] at ran
  obtain ⟨last, _, rfl⟩ := ran
  have length : (cutLastPage pool addr).file.length = pool.file.length - pageSize := by
    unfold cutLastPage
    cases labelled pool addr <;> rfl
  refine ⟨cut_last_page_invariant invariant last.1 last.2, [], fun rest array mirrors => ?_⟩
  refine ⟨{ array with length := pool.file.length - pageSize },
    by rw [PageArray.cutLast, mirrors.length, if_pos last], mirrors.hints, length.symm, ?_⟩
  intro other inFile
  obtain ⟨nonneg, aligned, inside⟩ := inFile
  rw [length] at inside
  rw [cut_last_page_view invariant last.1 last.2 nonneg (by omega)]
  exact mirrors.page other ⟨nonneg, aligned, by simp only [pageSize] at *; omega⟩

theorem follows_fetch (addr : Int) : Follows mirror (@fetch Page addr) (PageArray.fetch addr) := by
  intro pool pointer after invariant ran
  by_cases isPage : IsPageAddr addr
  · rw [fetch, if_pos isPage] at ran
    obtain ⟨nonneg, aligned⟩ := isPage
    have lengthNonneg := invariant.lengthNonneg
    obtain ⟨_, beyond⟩ | ⟨frame, label, hit⟩ | ⟨upper, absent, frame, filled, miss, fill⟩ | ⟨_, _, _, full⟩ :=
      get_page_cases invariant aligned nonneg
    · rw [beyond] at ran
      cases ran
    · rw [hit] at ran
      cases ran
      have inFile := label_in_file invariant nonneg label
      refine ⟨touch_invariant invariant nonneg, [(frame, view pool addr)], fun rest array mirrors => ?_⟩
      refine ⟨{ array with hints := rest }, ?_, rfl, mirrors.length, mirrors.page⟩
      simp [PageArray.fetch, mirrors.hints, mirrors_inside mirrors inFile]
    · rw [miss] at ran
      cases ran
      have filledInvariant := filled_invariant invariant fill aligned nonneg upper absent
      refine ⟨filledInvariant, [(frame, view after addr)], fun rest array mirrors => ?_⟩
      have length := fill.length
      by_cases atEnd : addr = pool.file.length
      · rw [if_pos atEnd] at length
        have outside : ¬array.Inside addr := fun inside => by
          have := inside.2
          rw [mirrors.length] at this
          omega
        refine ⟨⟨Function.update array.page addr (view after addr), array.length + pageSize, rest⟩, ?_, rfl, ?_, ?_⟩
        · have end' : IsPageAddr addr ∧ addr = array.length := ⟨⟨nonneg, aligned⟩, by rw [mirrors.length]; exact atEnd⟩
          simp only [PageArray.fetch, mirrors.hints, List.cons_append, List.nil_append, if_neg outside, if_pos end']
        · rw [length, mirrors.length]
        · intro other inFile
          simp only [Function.update_apply]
          split_ifs with own
          · rw [own]
          · have inBefore : InFile pool other := by
              obtain ⟨otherNonneg, otherAligned, inside⟩ := inFile
              refine ⟨otherNonneg, otherAligned, ?_⟩
              simp only [pageSize] at *
              omega
            rw [mirrors.page other inBefore]
            exact (filled_view invariant fill filledInvariant absent inBefore.1 (.inl own)).symm
      · rw [if_neg atEnd] at length
        have inFile : InFile pool addr := ⟨nonneg, aligned, by omega⟩
        refine ⟨{ array with hints := rest }, ?_, rfl, ?_, ?_⟩
        · simp [PageArray.fetch, mirrors.hints, mirrors_inside mirrors inFile]
        · rw [length]
          exact mirrors.length
        · intro other otherInFile
          have inBefore : InFile pool other :=
            ⟨otherInFile.1, otherInFile.2.1, by rw [← length]; exact otherInFile.2.2⟩
          rw [filled_view invariant fill filledInvariant absent inBefore.1 (.inr inFile.2.2)]
          exact mirrors.page other inBefore
    · rw [full] at ran
      cases ran
  · rw [fetch, if_neg isPage] at ran
    cases ran

end MyJQL.PagedPrograms
