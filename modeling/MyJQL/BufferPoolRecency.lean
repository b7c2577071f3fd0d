import MyJQL.BufferPoolTransparency

/-!
# The pool evicts the least recently used page

The counters of the frames are read against the history of `get_page`. The counter of a frame says
how far back in that history the latest fetch of its page lies, and the largest counter among the
unpinned frames belongs to the page that was fetched longest ago.
-/

namespace MyJQL.BufferPoolRecency

open MyJQL.FileIo
open MyJQL.BufferPoolModel
open MyJQL.BufferPoolInvariant
open MyJQL.BufferPoolTransparency

set_option autoImplicit false

variable {Page : Type}

def Evicts (pool : BufferPool Page) (addr page : Int) : Prop :=
  0 ≤ page ∧ (∃ frame, pool.addrs frame = page) ∧ ∀ frame, (getPage pool addr).2.addrs frame ≠ page

private theorem fill_frame_addrs (device : Device Page) (addr : Int) (frame : Frame) (pool : BufferPool Page) :
    (fillFrame device addr frame pool).addrs = Function.update pool.addrs frame addr := by
  simp only [fillFrame]
  split_ifs <;> rfl

private theorem fill_frame_cnt (device : Device Page) (addr : Int) (frame : Frame) (pool : BufferPool Page) :
    (fillFrame device addr frame pool).cnt = Function.update pool.cnt frame 1 := by
  simp only [fillFrame]
  split_ifs <;> rfl

/-- A fetched page that was not there takes one frame or none; the labels and the counters of the others
are those of the hit loop. -/
private theorem miss_page_cases (evicting filling : Device Page) (addr : Int) (pool : BufferPool Page) :
    (∃ frame, (missPage evicting filling addr pool).2.addrs = Function.update pool.addrs frame addr ∧
      (missPage evicting filling addr pool).2.cnt = Function.update pool.cnt frame 1 ∧
      (emptyFrame pool = some frame ∨ emptyFrame pool = none ∧ victimFrame pool = some frame)) ∨
    (missPage evicting filling addr pool).2 = pool := by
  cases empty : emptyFrame pool with
  | some frame =>
      refine .inl ⟨frame, ?_, ?_, .inl rfl⟩
      · simp only [missPage, empty, fill_frame_addrs]
      · simp only [missPage, empty, fill_frame_cnt]
  | none =>
      cases victim : victimFrame pool with
      | some frame =>
          refine .inl ⟨frame, ?_, ?_, .inr ⟨rfl, rfl⟩⟩
          · simp only [missPage, empty, victim, fill_frame_addrs, writeBack]
          · simp only [missPage, empty, victim, fill_frame_cnt, writeBack]
      | none =>
          refine .inr ?_
          simp only [missPage, empty, victim]

/-- After a fetch inside the file every frame either holds the fetched page and starts to count again, or
keeps another page and counts on. -/
theorem get_page_counters (pool : BufferPool Page) {addr : Int} (inside : addr ≤ pool.file.length) (frame : Frame) :
    ((getPage pool addr).2.addrs frame = addr ∧ (getPage pool addr).2.cnt frame = 1) ∨
    ((getPage pool addr).2.addrs frame = pool.addrs frame ∧ pool.addrs frame ≠ addr ∧
      (getPage pool addr).2.cnt frame = pool.cnt frame + 1) := by
  have within : ¬pool.file.length < addr := by omega
  have touched : ((touch addr pool).addrs frame = addr ∧ (touch addr pool).cnt frame = 1) ∨
      ((touch addr pool).addrs frame = pool.addrs frame ∧ pool.addrs frame ≠ addr ∧
        (touch addr pool).cnt frame = pool.cnt frame + 1) := by
    by_cases holds : pool.addrs frame = addr
    · exact .inl ⟨holds, by simp [touch, holds]⟩
    · exact .inr ⟨rfl, holds, by simp [touch, holds]⟩
  cases hit : hitFrame pool addr with
  | some other =>
      simp only [getPage, getPageOn, if_neg within, hit]
      exact touched
  | none =>
      simp only [getPage, getPageOn, if_neg within, hit]
      obtain ⟨taken, addrs, cnt, _⟩ | same := miss_page_cases .works .works addr (touch addr pool)
      · rw [addrs, cnt]
        by_cases own : frame = taken
        · rw [own, Function.update_self, Function.update_self]
          exact .inl ⟨rfl, rfl⟩
        · rw [Function.update_of_ne own, Function.update_of_ne own]
          exact touched
      · rw [same]
        exact touched

theorem evicted_is_victim {pool : BufferPool Page} {addr page : Int} (inside : addr ≤ pool.file.length)
    (evicts : Evicts pool addr page) : (∀ frame, pool.addrs frame ≠ -1) ∧
      ∃ frame, pool.addrs frame = page ∧ pool.ref frame = 0 ∧
        ∀ other, pool.ref other = 0 → pool.cnt other ≤ pool.cnt frame := by
  have within : ¬pool.file.length < addr := by omega
  obtain ⟨nonneg, ⟨holder, holds⟩, gone⟩ := evicts
  cases hit : hitFrame pool addr with
  | some other =>
      simp only [getPage, getPageOn, if_neg within, hit] at gone
      exact absurd holds (gone holder)
  | none =>
      have absent : ∀ frame, pool.addrs frame ≠ addr := by
        intro frame
        have unmatched := List.find?_eq_none.mp hit frame (by simp)
        simpa using unmatched
      simp only [getPage, getPageOn, if_neg within, hit] at gone
      obtain ⟨taken, addrs, _, chosen⟩ | same := miss_page_cases .works .works addr (touch addr pool)
      · have own : holder = taken := by
          by_contra different
          apply gone holder
          rw [addrs, Function.update_of_ne different]
          exact holds
        subst own
        obtain empty | ⟨full, victim⟩ := chosen
        · have label : pool.addrs holder = -1 := empty_frame_label empty
          omega
        · refine ⟨empty_frame_none full, holder, holds, ?_, ?_⟩
          · have unpinned := victim_unpinned victim
            simpa only [touch, if_neg (absent holder)] using unpinned
          · intro other unpinned
            have largest := victim_largest victim other (by simpa only [touch, if_neg (absent other)] using unpinned)
            simp only [touch, if_neg (absent other), if_neg (absent holder)] at largest
            omega
      · rw [same] at gone
        exact absurd holds (gone holder)

/-- Pools together with the addresses that `get_page` was called with, the latest first. Calls that fail
because every frame is pinned are in the history like all others. -/
inductive Fetching (disk : Disk Page) : List Int → BufferPool Page → Prop
  | opened (memory : BufferPool Page) : Fetching disk [] (initBufferPool disk memory)
  | fetched {history : List Int} {pool : BufferPool Page} (addr : Int) (isPage : 0 ≤ addr ∧ addr % pageSize = 0)
      (inside : addr ≤ pool.file.length) : Fetching disk history pool →
      Fetching disk (addr :: history) (getPage pool addr).2
  | written {history : List Int} {pool : BufferPool Page} (frame : Frame) (page : Page)
      (pinned : pool.ref frame ≠ 0) : Fetching disk history pool →
      Fetching disk history (writeFrame pool frame page)
  | released {history : List Int} {pool : BufferPool Page} (addr : Int) : Fetching disk history pool →
      Fetching disk history (release pool addr)

theorem fetching_reachable {disk : Disk Page} {history : List Int} {pool : BufferPool Page}
    (fetching : Fetching disk history pool) : Reachable disk pool := by
  induction fetching with
  | opened memory => exact .opened memory
  | fetched addr isPage _ _ ih => exact .fetched addr isPage.2 isPage.1 ih
  | written frame page pinned _ ih => exact .written frame page pinned ih
  | released addr _ ih => exact .released addr ih

/-- How many calls lie between the latest fetch of the page and now, plus the fetch itself. -/
def age (history : List Int) (page : Int) : Nat :=
  history.idxOf page + 1

/-- Every cached page has been fetched, and its frame counts its age. -/
def Aged (history : List Int) (pool : BufferPool Page) : Prop :=
  ∀ frame, 0 ≤ pool.addrs frame →
    pool.addrs frame ∈ history ∧ pool.cnt frame = age history (pool.addrs frame)

theorem aged_fetch {history : List Int} {pool : BufferPool Page} (aged : Aged history pool) {addr : Int}
    (inside : addr ≤ pool.file.length) : Aged (addr :: history) (getPage pool addr).2 := by
  intro frame cached
  obtain ⟨label, one⟩ | ⟨kept, other, counted⟩ := get_page_counters pool inside frame
  · rw [label, one]
    exact ⟨List.mem_cons_self, by simp [age]⟩
  · rw [kept] at cached ⊢
    obtain ⟨member, older⟩ := aged frame cached
    refine ⟨List.mem_cons_of_mem _ member, ?_⟩
    rw [counted, older, age, age, List.idxOf_cons_ne _ (Ne.symm other)]

theorem fetching_aged {disk : Disk Page} (aligned : disk.size % pageSize = 0) {history : List Int}
    {pool : BufferPool Page} (fetching : Fetching disk history pool) : Aged history pool := by
  induction fetching with
  | opened memory =>
      intro frame cached
      simp [initBufferPool, openFile, aligned] at cached
  | fetched addr _ inside _ ih => exact aged_fetch ih inside
  | written frame page _ _ ih => exact ih
  | @released history pool addr _ ih =>
      intro frame cached
      have counted : (release pool addr).cnt = pool.cnt := by
        simp only [release]
        split <;> rfl
      rw [release_addrs] at cached ⊢
      rw [counted]
      exact ih frame cached

/-- In every run of fetches and releases a page is evicted only when no frame is empty; it is unpinned,
and every other unpinned cached page was fetched again after the latest fetch of the evicted one. -/
theorem least_recently_used (disk : Disk Page) (sizeNonneg : 0 ≤ disk.size)
    (sizeAligned : disk.size % pageSize = 0) (history : List Int) (pool : BufferPool Page)
    (fetching : Fetching disk history pool) (addr : Int) (inside : addr ≤ pool.file.length) (page : Int)
    (evicts : Evicts pool addr page) :
    (∀ frame, pool.addrs frame ≠ -1) ∧ (∀ frame, pool.addrs frame = page → pool.ref frame = 0) ∧
      page ∈ history ∧
      ∀ other, pool.ref other = 0 → pool.addrs other ≠ page →
        history.idxOf (pool.addrs other) < history.idxOf page := by
  have invariant := reachable_invariant sizeNonneg sizeAligned (fetching_reachable fetching)
  have aged := fetching_aged sizeAligned fetching
  obtain ⟨full, frame, holds, unpinned, largest⟩ := evicted_is_victim inside evicts
  have nonneg := evicts.1
  obtain ⟨fetched, counted⟩ := aged frame (by omega)
  rw [holds] at fetched counted
  refine ⟨full, ?_, fetched, ?_⟩
  · intro other label
    have same := invariant.addrsDistinct other frame (label.trans holds.symm) (by omega)
    rw [same]
    exact unpinned
  · intro other otherUnpinned different
    have cached : 0 ≤ pool.addrs other := ((invariant.addrsInside other).resolve_left (full other)).1
    obtain ⟨otherFetched, otherCounted⟩ := aged other cached
    have younger := largest other otherUnpinned
    rw [counted, otherCounted, age, age] at younger
    have apart : history.idxOf (pool.addrs other) ≠ history.idxOf page := by
      intro same
      exact different ((List.idxOf_inj otherFetched).mp same)
    omega

def ninePages : Disk Nat := ⟨9 * pageSize, fun _ => 7⟩

def visit : List Int → BufferPool Nat
  | [] => initBufferPool ninePages ⟨⟨ninePages, 0⟩, fun _ => 5, fun _ => 0, fun _ => 0, fun _ => 0⟩
  | addr :: earlier => release (getPage (visit earlier) addr).2 addr

private theorem visit_fetching {history : List Int} (fetching : Fetching ninePages history (visit history))
    (addr : Int) (isPage : 0 ≤ addr ∧ addr % pageSize = 0) (inside : addr ≤ (visit history).file.length) :
    Fetching ninePages (addr :: history) (visit (addr :: history)) :=
  .released addr (.fetched addr isPage inside fetching)

def eightPages : List Int := [0, 896, 768, 640, 512, 384, 256, 128, 0]

private theorem eight_pages_fetching : Fetching ninePages eightPages (visit eightPages) := by
  apply visit_fetching _ 0 (by decide) (by decide +kernel)
  apply visit_fetching _ 896 (by decide) (by decide +kernel)
  apply visit_fetching _ 768 (by decide) (by decide +kernel)
  apply visit_fetching _ 640 (by decide) (by decide +kernel)
  apply visit_fetching _ 512 (by decide) (by decide +kernel)
  apply visit_fetching _ 384 (by decide) (by decide +kernel)
  apply visit_fetching _ 256 (by decide) (by decide +kernel)
  apply visit_fetching _ 128 (by decide) (by decide +kernel)
  exact visit_fetching (.opened _) 0 (by decide) (by decide +kernel)

/-- Eight pages fill the pool and the first of them is fetched once more: the ninth page takes the place
of the second. -/
theorem least_recently_used_ninth_page : Evicts (visit eightPages) 1024 128 ∧
    (128 : Int) ∈ eightPages ∧ ∀ other, (visit eightPages).ref other = 0 → (visit eightPages).addrs other ≠ 128 →
      eightPages.idxOf ((visit eightPages).addrs other) < eightPages.idxOf 128 := by
  have evicts : Evicts (visit eightPages) 1024 128 := ⟨by decide, by decide +kernel, by decide +kernel⟩
  obtain ⟨_, _, fetched, younger⟩ := least_recently_used ninePages (by decide) (by decide) eightPages _
    eight_pages_fetching 1024 (by decide +kernel) 128 evicts
  exact ⟨evicts, fetched, younger⟩

end MyJQL.BufferPoolRecency
