import MyJQL.PagedPrograms

/-!
# Which pages a program fetches

Pages together with the addresses that were fetched so far. A program that owns its pages runs over them
as it runs without the addresses. For a program that only reads, what it fetches can be told from the
pages alone.
-/

namespace MyJQL.FetchTraces

open MyJQL.FileIo
open MyJQL.BufferPoolModel
open MyJQL.BufferPoolInvariant
open MyJQL.BufferPoolTransparency
open MyJQL.StateProgram
open MyJQL.PageStoreLogic
open MyJQL.ProgramSimulation
open MyJQL.PagedPrograms

set_option autoImplicit false

variable {Pages Page Value Side : Type}

/-- The latest fetch comes last. -/
structure Traced (Pages : Type) where
  pages : Pages
  fetched : List Int

def Traced.started (pages : Pages) : Traced Pages := ⟨pages, []⟩

def pagesPart : Part (Traced Pages) Pages where
  read := Traced.pages
  write pages traced := { traced with pages := pages }
  read_write _ _ := rfl
  write_write _ _ _ := rfl

def fetchTraced [Paged Pages Page] (addr : Int) : Program (Traced Pages) PagePtr := do
  modify fun traced => { traced with fetched := traced.fetched ++ [addr] }
  pagesPart.run (Paged.fetch addr)

instance [Paged Pages Page] : Paged (Traced Pages) Page where
  fetch := fetchTraced
  load pointer := pagesPart.run (Paged.load pointer)
  amend pointer change := pagesPart.run (Paged.amend pointer change)
  unpin addr := pagesPart.run (Paged.unpin addr)
  fileLength := pagesPart.run Paged.fileLength
  cutLast addr := pagesPart.run (Paged.cutLast addr)

theorem pages_run {program : Program Pages Value} {traced final : Traced Pages} {value : Value} :
    pagesPart.run program traced = some (value, final) ↔
      program traced.pages = some (value, final.pages) ∧ final.fetched = traced.fetched := by
  obtain ⟨pages, fetched⟩ := final
  simp only [Part.run, pagesPart, Option.map_eq_some_iff, Prod.mk.injEq, Traced.mk.injEq, Prod.exists]
  constructor
  · rintro ⟨_, _, ran, rfl, rfl, rfl⟩
    exact ⟨ran, rfl⟩
  · rintro ⟨ran, rfl⟩
    exact ⟨value, pages, ran, rfl, rfl, rfl⟩

/-- The pages are the same, and nothing has to be told in advance. -/
def erased : Correspondence Pages (Traced Pages) Unit where
  good _ := True
  stands pages _ traced := traced.pages = pages

theorem follows_pages (program : Program Pages Value) : Follows erased program (pagesPart.run program) := by
  intro pages value after _ ran
  refine ⟨trivial, [], fun rest traced same => ⟨⟨after, traced.fetched⟩, ?_, rfl⟩⟩
  have same : traced.pages = pages := same
  exact pages_run.mpr ⟨same.symm ▸ ran, rfl⟩

theorem follows_fetch_traced [Paged Pages Page] (addr : Int) :
    Follows erased (Paged.fetch addr : Program Pages PagePtr) (fetchTraced addr) := by
  intro pages value after _ ran
  refine ⟨trivial, [], fun rest traced same => ⟨⟨after, traced.fetched ++ [addr]⟩, ?_, rfl⟩⟩
  have same : traced.pages = pages := same
  exact pages_run.mpr ⟨same.symm ▸ ran, rfl⟩

/-- The pool shows these pages. -/
structure Shows (page : Int → Page) (length : Int) (pool : BufferPool Page) : Prop where
  invariant : PoolInvariant pool
  length : length = pool.file.length
  page : ∀ addr, InFile pool addr → page addr = view pool addr

variable {page : Int → Page} {length addr : Int} {pool after : BufferPool Page} {fetched : List Int} {value : Value}

theorem shows_mirrors (shows : Shows page length pool) (hints : List (Hint Page)) :
    Mirrors pool hints ⟨page, length, hints⟩ := ⟨rfl, shows.length, shows.page⟩

/-- A program that leaves an array of pages alone leaves the pages alone that a pool shows, and its value is the
one over the array. -/
theorem shows_follows {program : Program (BufferPool Page) Value} {direct : Program (PageArray Page) Value}
    {good : Prop} (follows : Follows mirror program direct) (shows : Shows page length pool)
    (ran : program pool = some (value, after))
    (reads : ∀ hints final, direct ⟨page, length, hints⟩ = some (value, final) →
      final.page = page ∧ final.length = length ∧ good) : Shows page length after ∧ good := by
  obtain ⟨invariant, used, moves⟩ := follows pool value after shows.invariant ran
  obtain ⟨final, ranDirect, mirrors⟩ := moves [] _ (shows_mirrors shows (used ++ []))
  obtain ⟨samePage, sameLength, holds⟩ := reads _ final ranDirect
  exact ⟨⟨invariant, sameLength ▸ mirrors.length, samePage ▸ mirrors.page⟩, holds⟩

/-- What has been fetched so far, while the pool shows these pages. -/
def Reading (page : Int → Page) (length : Int) (fetched : List Int) (state : Traced (BufferPool Page) × Side) : Prop :=
  state.1.fetched = fetched ∧ Shows page length state.1.pages

variable {post : Value → List Int → Prop}

theorem allows_traced {program : Program (Traced (BufferPool Page)) Value}
    (holds : ∀ traced, traced.fetched = fetched → Shows page length traced.pages → ∀ value final,
      program traced = some (value, final) → Shows page length final.pages ∧ post value final.fetched) :
    Allows (@Reading Page Side page length) fetched (firstPart.run program) post := by
  rintro ⟨traced, side⟩ ⟨same, shows⟩ value ⟨final, last⟩ ran
  simp only [Part.run, firstPart, Option.map_eq_some_iff, Prod.mk.injEq, Prod.exists] at ran
  obtain ⟨_, _, ran, rfl, rfl, rfl⟩ := ran
  obtain ⟨showsFinal, satisfied⟩ := holds traced same shows _ _ ran
  exact ⟨_, ⟨rfl, showsFinal⟩, satisfied⟩

theorem allows_fetch {post : PagePtr → List Int → Prop} (isPage : IsPageAddr addr) (inside : addr < length)
    (continues : ∀ frame, post ⟨frame, addr⟩ (fetched ++ [addr])) :
    Allows (@Reading Page Side page length) fetched (firstPart.run (Paged.fetch addr)) post := by
  refine allows_traced fun traced same shows pointer final ran => ?_
  obtain ⟨ran, trace⟩ := pages_run.mp (show pagesPart.run (Paged.fetch addr) _ = some (pointer, final) from ran)
  have reads : ∀ hints array, PageArray.fetch addr ⟨page, length, hints⟩ = some (pointer, array) →
      array.page = page ∧ array.length = length ∧ ∃ frame, pointer = ⟨frame, addr⟩ := by
    intro hints array direct
    cases hints with
    | nil => cases direct
    | cons hint rest =>
        obtain ⟨frame, blank⟩ := hint
        have here : (⟨page, length, (frame, blank) :: rest⟩ : PageArray Page).Inside addr := ⟨isPage, inside⟩
        simp only [PageArray.fetch, if_pos here] at direct
        cases direct
        exact ⟨rfl, rfl, frame, rfl⟩
  obtain ⟨showsFinal, frame, rfl⟩ := shows_follows (follows_fetch addr) shows ran reads
  have trace : final.fetched = fetched ++ [addr] := same ▸ trace
  exact ⟨showsFinal, trace ▸ continues frame⟩

theorem allows_load {post : Page → List Int → Prop} {pointer : PagePtr} (continues : post (page pointer.addr) fetched) :
    Allows (@Reading Page Side page length) fetched (firstPart.run (Paged.load pointer)) post := by
  refine allows_traced fun traced same shows loaded final ran => ?_
  obtain ⟨ran, trace⟩ := pages_run.mp ran
  have reads : ∀ hints array, PageArray.load pointer ⟨page, length, hints⟩ = some (loaded, array) →
      array.page = page ∧ array.length = length ∧ loaded = page pointer.addr := by
    intro hints array direct
    simp only [PageArray.load, Option.ite_none_right_eq_some, Option.some.injEq, Prod.mk.injEq] at direct
    obtain ⟨_, rfl, rfl⟩ := direct
    exact ⟨rfl, rfl, rfl⟩
  obtain ⟨showsFinal, rfl⟩ := shows_follows (follows_load pointer) shows ran reads
  exact ⟨showsFinal, by rw [trace, same]; exact continues⟩

theorem allows_unpin {post : Unit → List Int → Prop} (continues : post () fetched) :
    Allows (@Reading Page Side page length) fetched (firstPart.run (Paged.unpin addr)) post := by
  refine allows_traced fun traced same shows _ final ran => ?_
  obtain ⟨ran, trace⟩ := pages_run.mp ran
  have reads : ∀ hints array, PageArray.unpin addr ⟨page, length, hints⟩ = some ((), array) →
      array.page = page ∧ array.length = length ∧ True := by
    rintro hints array ⟨⟩
    exact ⟨rfl, rfl, trivial⟩
  obtain ⟨showsFinal, _⟩ := shows_follows (follows_unpin addr) shows ran reads
  exact ⟨showsFinal, by rw [trace, same]; exact continues⟩

theorem allows_side {program : Program Side Value} (continues : ∀ side value last, program side = some (value, last) →
    post value fetched) : Allows (@Reading Page Side page length) fetched (secondPart.run program) post := by
  rintro ⟨traced, side⟩ reading value ⟨final, last⟩ ran
  simp only [Part.run, secondPart, Option.map_eq_some_iff, Prod.mk.injEq, Prod.exists] at ran
  obtain ⟨_, _, ran, rfl, rfl, rfl⟩ := ran
  exact ⟨fetched, reading, continues side _ _ ran⟩

end MyJQL.FetchTraces
