import MyJQL.BufferPoolRecency
import MyJQL.PoolOwners
import MyJQL.RecencyCaches
import Mathlib.Data.Finset.Image

/-!
# How much the pool loads

The pool is set against any other way to keep eight pages of the file in memory, even one that knows in
advance what its owner is going to do. Whoever keeps the pages has to hold those that are pinned, and a
page that is cut off the file is gone. The pool brings in at most eight times as many pages.
-/

namespace MyJQL.BufferPoolCompetition

open MyJQL.FileIo
open MyJQL.BufferPoolModel
open MyJQL.BufferPoolInvariant
open MyJQL.BufferPoolTransparency
open MyJQL.BufferPoolRecency
open MyJQL.PageStoreLogic
open MyJQL.PoolOwners
open MyJQL.RecencyCaches

set_option autoImplicit false

variable {Page : Type} {pool after : BufferPool Page} {held holding : Finset Int} {own other : Nat}

def cached (pool : BufferPool Page) : Finset Int := (Finset.univ.image pool.addrs).erase (-1)

/-- What else may be in memory while the pool is as it is. -/
structure Rival (pool : BufferPool Page) (held : Finset Int) : Prop where
  room : held.card ≤ cachePage
  pinned : ∀ frame, pool.ref frame ≠ 0 → pool.addrs frame ∈ held
  inFile : ∀ addr ∈ held, addr < pool.file.length

/-- The owner does one thing after the other, and after each of them the rival chooses what to hold. Counted are
the pages that come into the frames, and those that the rival loads. -/
inductive Race (disk : Disk Page) : Nat → Nat → BufferPool Page → Finset Int → Prop
  | opened (memory : BufferPool Page) : Race disk 0 0 (initBufferPool disk memory) ∅
  | stepped {own other : Nat} {pool after : BufferPool Page} {held holding : Finset Int} (step : OwnerStep pool after)
      (rival : Rival after holding) : Race disk own other pool held →
      Race disk (own + (cached after \ cached pool).card) (other + (holding \ held).card) after holding

theorem mem_cached {addr : Int} : addr ∈ cached pool ↔ addr ≠ -1 ∧ ∃ frame, pool.addrs frame = addr := by
  simp [cached]

theorem cached_congr (addrs : after.addrs = pool.addrs) : (cached after \ cached pool).card = 0 := by
  rw [cached, addrs, cached, Finset.sdiff_self, Finset.card_empty]

/-- The frames that hold a page, the latest used first. -/
structure Recent (pool : BufferPool Page) (frames : List Frame) : Prop where
  once : frames.Nodup
  full : ∀ frame, frame ∈ frames ↔ pool.addrs frame ≠ -1
  younger : frames.Pairwise fun first second => pool.cnt first < pool.cnt second

variable {frames rest : List Frame} {addr : Int} {frame : Frame}

theorem recent_same (recent : Recent pool frames) (addrs : after.addrs = pool.addrs)
    (cnt : ∀ first second, pool.cnt first < pool.cnt second → after.cnt first < after.cnt second) :
    Recent after frames :=
  ⟨recent.once, fun frame => by rw [addrs]; exact recent.full frame,
    recent.younger.imp fun {first second} => cnt first second⟩

theorem recent_fetched (invariant : PoolInvariant pool) (recent : Recent pool frames) (isPage : IsPageAddr addr)
    (inside : addr ≤ pool.file.length) (label : (getPage pool addr).2.addrs frame = addr)
    (sublist : rest.Sublist frames) (others : ∀ other, other ∈ rest ↔ other ∈ frames ∧ other ≠ frame) :
    Recent (getPage pool addr).2 (frame :: rest) := by
  have invariantAfter := get_page_invariant invariant isPage.2 isPage.1
  have counters := get_page_counters pool inside
  have counted : ∀ other, other ≠ frame → (getPage pool addr).2.addrs other = pool.addrs other ∧
      (getPage pool addr).2.cnt other = pool.cnt other + 1 := by
    intro other different
    obtain ⟨holds, _⟩ | ⟨kept, _, older⟩ := counters other
    · have real : (getPage pool addr).2.addrs other ≠ -1 := by have := isPage.1; omega
      exact absurd (invariantAfter.addrsDistinct other frame (holds.trans label.symm) real) different
    · exact ⟨kept, older⟩
  have latest : (getPage pool addr).2.cnt frame = 1 := by
    obtain ⟨_, one⟩ | ⟨kept, different, _⟩ := counters frame
    · exact one
    · exact absurd (kept.symm.trans label) different
  refine ⟨?_, fun other => ?_, ?_⟩
  · exact List.nodup_cons.mpr ⟨fun member => ((others frame).mp member).2 rfl, recent.once.sublist sublist⟩
  · rw [List.mem_cons]
    by_cases same : other = frame
    · rw [same, label]
      have := isPage.1
      exact iff_of_true (.inl rfl) (by omega)
    · rw [(counted other same).1, ← recent.full other, others other]
      simp [same]
  · refine List.pairwise_cons.mpr ⟨fun other member => ?_, ?_⟩
    · have positive := invariant.cntPositive other
      rw [latest, (counted other ((others other).mp member).2).2]
      omega
    · refine (recent.younger.sublist sublist).imp_of_mem fun {first second} inFirst inSecond less => ?_
      rw [(counted first ((others first).mp inFirst).2).2, (counted second ((others second).mp inSecond).2).2]
      omega

theorem frames_split (once : frames.Nodup) (member : frame ∈ frames) : ∃ front back,
    frames = front ++ frame :: back ∧ (front ++ back).Sublist frames ∧
      ∀ other, other ∈ front ++ back ↔ other ∈ frames ∧ other ≠ frame := by
  obtain ⟨front, back, rfl⟩ := List.append_of_mem member
  have apart := (List.nodup_cons.mp (List.nodup_middle.mp once)).1
  refine ⟨front, back, rfl, (List.Sublist.refl front).append (List.sublist_cons_self frame back), fun other => ?_⟩
  constructor
  · intro inRest
    refine ⟨List.mem_append.mpr ((List.mem_append.mp inRest).imp id (List.mem_cons_of_mem _)), ?_⟩
    rintro rfl
    exact apart inRest
  · rintro ⟨inFrames, different⟩
    rcases List.mem_append.mp inFrames with first | last
    · exact List.mem_append_left _ first
    · exact List.mem_append_right _ ((List.mem_cons.mp last).resolve_left different)

theorem map_kept {first second : Frame → Int} (addrs : second = Function.update first frame addr)
    (apart : frame ∉ rest) : rest.map second = rest.map first := by
  refine List.map_congr_left fun other member => ?_
  rw [addrs, Function.update_of_ne]
  rintro rfl
  exact apart member

/-- The order of the frames changes as the order of a cache does that forgets what was used longest ago. -/
def Keeps (pool after : BufferPool Page) (holding : Finset Int) (frames : List Frame) : Prop :=
  ∃ frames', Recent after frames' ∧
    Moves cachePage holding (cached after \ cached pool).card (frames.map pool.addrs) (frames'.map after.addrs)

theorem keeps_same (recent : Recent pool frames) (addrs : after.addrs = pool.addrs)
    (cnt : ∀ first second, pool.cnt first < pool.cnt second → after.cnt first < after.cnt second) :
    Keeps pool after holding frames := by
  refine ⟨frames, recent_same recent addrs cnt, ?_⟩
  rw [cached_congr addrs, addrs]
  exact .rests

theorem keeps_hit (invariant : PoolInvariant pool) (recent : Recent pool frames) (isPage : IsPageAddr addr)
    (holds : pool.addrs frame = addr) (hit : getPage pool addr = (some frame, touch addr pool))
    (rival : Rival (getPage pool addr).2 holding) : Keeps pool (getPage pool addr).2 holding frames := by
  have inside := (label_in_file invariant isPage.1 holds).2.2
  have here : frame ∈ frames := (recent.full frame).mpr (by have := isPage.1; omega)
  obtain ⟨front, back, split, sublist, others⟩ := frames_split recent.once here
  have addrs : (getPage pool addr).2.addrs = pool.addrs := by rw [hit]; rfl
  have served : addr ∈ holding := by
    have pinned := rival.pinned frame (by simp [hit, touch, holds])
    rwa [addrs, holds] at pinned
  refine ⟨_, recent_fetched invariant recent isPage (by omega) (addrs ▸ holds) sublist others, ?_⟩
  rw [cached_congr addrs, addrs, split, List.map_append, List.map_cons, List.map_cons, List.map_append, holds]
  exact .hits served

theorem cached_filled {filled : BufferPool Page} (fill : Filled pool filled frame addr) (nonneg : 0 ≤ addr)
    (absent : ∀ frame, pool.addrs frame ≠ addr) : (cached filled \ cached pool).card = 1 := by
  rw [Finset.card_eq_one]
  refine ⟨addr, Finset.ext fun page => ?_⟩
  rw [Finset.mem_sdiff, Finset.mem_singleton, mem_cached, mem_cached, fill.addrs]
  constructor
  · rintro ⟨⟨real, holder, holds⟩, before⟩
    by_cases same : holder = frame
    · rw [same, Function.update_self] at holds
      exact holds.symm
    · rw [Function.update_of_ne same] at holds
      exact absurd ⟨real, holder, holds⟩ before
  · rintro rfl
    exact ⟨⟨by omega, frame, Function.update_self ..⟩, fun ⟨_, holder, holds⟩ => absent holder holds⟩

theorem keeps_filled (invariant : PoolInvariant pool) (recent : Recent pool frames) (isPage : IsPageAddr addr)
    (inside : addr ≤ pool.file.length) (absent : ∀ frame, pool.addrs frame ≠ addr)
    (fill : Filled pool (getPage pool addr).2 frame addr) (rival : Rival (getPage pool addr).2 holding) :
    Keeps pool (getPage pool addr).2 holding frames := by
  have label : (getPage pool addr).2.addrs frame = addr := by rw [fill.addrs, Function.update_self]
  have served : addr ∈ holding := label ▸ rival.pinned frame (by rw [fill.ref, Function.update_self]; decide)
  have unlisted : addr ∉ frames.map pool.addrs := by simpa using fun frame _ => absent frame
  by_cases empty : pool.addrs frame = -1
  · have apart : frame ∉ frames := fun member => (recent.full frame).mp member empty
    have free : frames.length < cachePage := by
      have bound := (List.nodup_cons.mpr ⟨apart, recent.once⟩).length_le_card
      rw [List.length_cons, Fintype.card_fin] at bound
      exact bound
    refine ⟨_, recent_fetched invariant recent isPage inside label (List.Sublist.refl frames) fun other =>
      ⟨fun member => ⟨member, fun same => apart (same ▸ member)⟩, And.left⟩, ?_⟩
    rw [cached_filled fill isPage.1 absent, List.map_cons, label, map_kept fill.addrs apart]
    exact .fills served unlisted (by rw [List.length_map]; exact free)
  · have gone : Evicts pool addr (pool.addrs frame) := by
      have real := ((invariant.addrsInside frame).resolve_left empty).1
      refine ⟨real, ⟨frame, rfl⟩, fun holder => ?_⟩
      by_cases same : holder = frame
      · rw [same, label]
        exact (absent frame).symm
      · rw [fill.addrs, Function.update_of_ne same]
        exact fun equal => same (invariant.addrsDistinct _ _ equal (by omega))
    obtain ⟨full, victim, holds, _, oldest⟩ := evicted_is_victim inside gone
    obtain rfl := invariant.addrsDistinct victim frame holds (by rw [holds]; exact empty)
    obtain ⟨front, back, split, sublist, others⟩ := frames_split recent.once ((recent.full victim).mpr empty)
    have apart : victim ∉ front ++ back := fun member => ((others victim).mp member).2 rfl
    have all : frames.length = cachePage := by
      have every : frames.toFinset = Finset.univ :=
        Finset.eq_univ_of_forall fun frame => List.mem_toFinset.mpr ((recent.full frame).mpr (full frame))
      rw [← List.toFinset_card_of_nodup recent.once, every, Finset.card_univ, Fintype.card_fin]
    have behind : ∀ other ∈ back, pool.addrs other ∈ holding := by
      intro other member
      have different : other ≠ victim := ((others other).mp (List.mem_append_right _ member)).2
      have older : pool.cnt victim < pool.cnt other := by
        have younger := recent.younger
        rw [split] at younger
        exact (List.pairwise_cons.mp (List.pairwise_append.mp younger).2.1).1 other member
      have pinned : pool.ref other ≠ 0 := fun unpinned => Nat.not_lt.mpr (oldest other unpinned) older
      have kept := rival.pinned other (by rw [fill.ref, Function.update_of_ne different]; exact pinned)
      rwa [fill.addrs, Function.update_of_ne different] at kept
    refine ⟨_, recent_fetched invariant recent isPage inside label sublist others, ?_⟩
    rw [cached_filled fill isPage.1 absent, List.map_cons, label, map_kept fill.addrs apart]
    rw [split, List.map_append, List.map_cons] at unlisted ⊢
    rw [List.map_append]
    refine .evicts served unlisted ?_ fun page member => ?_
    · rw [← List.map_cons, ← List.map_append, ← split, List.length_map]
      exact all
    · obtain ⟨other, inBack, rfl⟩ := List.mem_map.mp member
      exact behind other inBack

theorem keeps_fetched (invariant : PoolInvariant pool) (recent : Recent pool frames) (isPage : IsPageAddr addr)
    (rival : Rival (getPage pool addr).2 holding) : Keeps pool (getPage pool addr).2 holding frames := by
  obtain ⟨_, beyond⟩ | ⟨frame, holds, hit⟩ | ⟨inside, absent, frame, filled, miss, fill⟩ | ⟨_, absent, _, full⟩ :=
    get_page_cases invariant isPage.2 isPage.1
  · rw [beyond]
    exact keeps_same recent rfl fun _ _ => id
  · exact keeps_hit invariant recent isPage holds hit rival
  · obtain rfl : (getPage pool addr).2 = filled := by rw [miss]
    exact keeps_filled invariant recent isPage inside absent fill rival
  · rw [full]
    exact keeps_same recent rfl fun first second less => by
      simp only [touch, if_neg (absent _)]
      omega

theorem keeps_cut (recent : Recent pool frames) (nonneg : 0 ≤ addr)
    (last : addr = pool.file.length - pageSize) (rival : Rival (cutLastPage pool addr) holding) :
    Keeps pool (cutLastPage pool addr) holding frames := by
  cases found : labelled pool addr with
  | none =>
      refine keeps_same recent ?_ fun _ _ => ?_ <;> simp only [cutLastPage, found]
      exact id
  | some frame =>
      have holds := labelled_label found
      have gone : addr ∉ holding := fun kept => by
        have inside := rival.inFile addr kept
        simp only [cutLastPage, found] at inside
        omega
      have addrs : (cutLastPage pool addr).addrs = Function.update pool.addrs frame (-1) := by
        simp only [cutLastPage, found]
      have cnt : (cutLastPage pool addr).cnt = Function.update pool.cnt frame 1 := by simp only [cutLastPage, found]
      have here : frame ∈ frames := (recent.full frame).mpr (by omega)
      obtain ⟨front, back, split, sublist, others⟩ := frames_split recent.once here
      have apart : frame ∉ front ++ back := fun member => ((others frame).mp member).2 rfl
      have nothing : (cached (cutLastPage pool addr) \ cached pool).card = 0 := by
        rw [Finset.card_eq_zero, Finset.sdiff_eq_empty_iff_subset]
        intro page member
        obtain ⟨real, holder, holdsPage⟩ := mem_cached.mp member
        rw [addrs] at holdsPage
        by_cases same : holder = frame
        · rw [same, Function.update_self] at holdsPage
          exact absurd holdsPage.symm real
        · rw [Function.update_of_ne same] at holdsPage
          exact mem_cached.mpr ⟨real, holder, holdsPage⟩
      refine ⟨front ++ back, ⟨recent.once.sublist sublist, fun other => ?_, ?_⟩, ?_⟩
      · rw [others other, recent.full other, addrs]
        by_cases same : other = frame
        · rw [same, Function.update_self]
          simp
        · rw [Function.update_of_ne same]
          simp [same]
      · refine (recent.younger.sublist sublist).imp_of_mem fun {first second} inFirst inSecond less => ?_
        rw [cnt, Function.update_of_ne ((others first).mp inFirst).2,
          Function.update_of_ne ((others second).mp inSecond).2]
        exact less
      · rw [nothing, map_kept addrs apart, split, List.map_append, List.map_cons, List.map_append, holds]
        exact .drops gone

theorem keeps_step (invariant : PoolInvariant pool) (recent : Recent pool frames) (step : OwnerStep pool after)
    (rival : Rival after holding) : Keeps pool after holding frames := by
  cases step with
  | fetched addr isPage => exact keeps_fetched invariant recent isPage rival
  | written frame page => exact keeps_same recent rfl fun _ _ => id
  | released addr =>
      refine keeps_same recent (release_addrs pool addr) fun first second less => ?_
      have counted : (release pool addr).cnt = pool.cnt := by
        simp only [release]
        split <;> rfl
      rw [counted]
      exact less
  | cut addr nonneg last => exact keeps_cut recent nonneg last rival

theorem opened_recent (disk : Disk Page) (aligned : disk.size % pageSize = 0) (memory : BufferPool Page) :
    Recent (initBufferPool disk memory) [] := by
  refine ⟨List.nodup_nil, fun frame => ?_, List.Pairwise.nil⟩
  simp [initBufferPool, openFile, aligned]

theorem race_paid {disk : Disk Page} (nonneg : 0 ≤ disk.size) (aligned : disk.size % pageSize = 0)
    (race : Race disk own other pool held) : PoolInvariant pool ∧
      ∃ frames, Recent pool frames ∧ Paid cachePage own other (frames.map pool.addrs) held := by
  induction race with
  | opened memory =>
      exact ⟨init_invariant disk memory nonneg aligned, [], opened_recent disk aligned memory, paid_started⟩
  | stepped step rival _ ih =>
      obtain ⟨invariant, frames, recent, paid⟩ := ih
      obtain ⟨frames', recent', moves⟩ := keeps_step invariant recent step rival
      exact ⟨owner_step_invariant step invariant, frames', recent', paid_step paid rival.room moves⟩

/-- Whatever the owner of the pool does, the pool brings at most eight times as many pages into its frames as
anyone who holds eight pages, among them those in use, and who may know all that is to come. -/
theorem pool_competes (disk : Disk Page) (sizeNonneg : 0 ≤ disk.size) (sizeAligned : disk.size % pageSize = 0)
    (race : Race disk own other pool held) : own ≤ cachePage * other := by
  obtain ⟨_, frames, _, paid⟩ := race_paid sizeNonneg sizeAligned race
  exact paid_competes paid

theorem rival_released (addr : Int) (rival : Rival pool held) : Rival (release pool addr) held := by
  rw [release]
  split
  · next frame _ =>
      refine ⟨rival.room, fun other pinned => rival.pinned other fun free => pinned ?_, rival.inFile⟩
      simp only [Function.update_apply, free, ite_self]
  · exact rival

/-- A page is fetched and released, while the rival keeps the first page beside it. -/
theorem race_visits {earlier : List Int} (addr : Int) (new more : Nat) (isPage : IsPageAddr addr)
    (rival : Rival (getPage (visit earlier) addr).2 {0, addr})
    (ownLoads : (cached (getPage (visit earlier) addr).2 \ cached (visit earlier)).card = new)
    (otherLoads : (({0, addr} : Finset Int) \ held).card = more)
    (race : Race ninePages own other (visit earlier) held) :
    Race ninePages (own + new) (other + more) (visit (addr :: earlier)) {0, addr} := by
  have fetched := Race.stepped (.fetched addr isPage) rival race
  have released := Race.stepped (.released addr) (rival_released addr rival) fetched
  rw [ownLoads, otherLoads, cached_congr (release_addrs _ addr), Finset.sdiff_self, Finset.card_empty] at released
  exact released

/-- Nine pages are fetched one after the other, so that the first one leaves the pool, and then it is fetched
again. The rival has kept it. -/
theorem pool_competes_evicted :
    Race ninePages 10 9 (visit [0, 1024, 896, 768, 640, 512, 384, 256, 128, 0]) {0, 0} ∧ 10 ≤ cachePage * 9 := by
  have race : Race ninePages 10 9 (visit [0, 1024, 896, 768, 640, 512, 384, 256, 128, 0]) {0, 0} := by
    exact race_visits 0 1 0 (by decide) ⟨by decide, by decide +kernel, by decide +kernel⟩
        (by decide +kernel) (by decide) <|
      race_visits 1024 1 1 (by decide) ⟨by decide, by decide +kernel, by decide +kernel⟩
        (by decide +kernel) (by decide) <|
      race_visits 896 1 1 (by decide) ⟨by decide, by decide +kernel, by decide +kernel⟩
        (by decide +kernel) (by decide) <|
      race_visits 768 1 1 (by decide) ⟨by decide, by decide +kernel, by decide +kernel⟩
        (by decide +kernel) (by decide) <|
      race_visits 640 1 1 (by decide) ⟨by decide, by decide +kernel, by decide +kernel⟩
        (by decide +kernel) (by decide) <|
      race_visits 512 1 1 (by decide) ⟨by decide, by decide +kernel, by decide +kernel⟩
        (by decide +kernel) (by decide) <|
      race_visits 384 1 1 (by decide) ⟨by decide, by decide +kernel, by decide +kernel⟩
        (by decide +kernel) (by decide) <|
      race_visits 256 1 1 (by decide) ⟨by decide, by decide +kernel, by decide +kernel⟩
        (by decide +kernel) (by decide) <|
      race_visits 128 1 1 (by decide) ⟨by decide, by decide +kernel, by decide +kernel⟩
        (by decide +kernel) (by decide) <|
      race_visits 0 1 1 (by decide) ⟨by decide, by decide +kernel, by decide +kernel⟩
        (by decide +kernel) (by decide) <|
      .opened _
  exact ⟨race, pool_competes ninePages (by decide) (by decide) race⟩

end MyJQL.BufferPoolCompetition
