import Mathlib.Data.Int.DivMod
import MyJQL.ArrayLoops
import MyJQL.BTreeModel

/-!
# The two binary searches

`lower_bound_rr` and `lower_bound_pr` with the `int` variables of the source and an array that has an
end. Signed overflow and an element outside the array get a search stuck, so a search that returns has
compared elements of the array only.
-/

namespace MyJQL.BinarySearch

open MyJQL.StateProgram
open MyJQL.TableModel
open MyJQL.ArrayLoops

set_option autoImplicit false

variable {Store Other Pointer : Type}

abbrev intMax : Int := 2147483647

def toInt (value : Int) : Program Store Int := do
  check (-intMax - 1 ≤ value ∧ value ≤ intMax)
  pure value

def narrowed (value : Int) : Int := value.bmod 4294967296

/-- `*(first + mid)` -/
def element (rows : List RID) (mid : Int) : Option RID :=
  if 0 ≤ mid then rows[mid.toNat]? else none

def searchTurn (compare : RID → Program Store Int) (rows : List RID) :
    Int × Int × Int → Program Store ((Int × Int × Int) ⊕ Int)
  | (l, r, ans) =>
    if l ≤ r then do
      let sum ← toInt (l + r)
      let mid := sum.tdiv 2
      let row ← ofOption (element rows mid)
      let order ← compare row
      if order > 0 then do
        let next ← toInt (mid + 1)
        pure (.inl (next, r, ans))
      else do
        let next ← toInt (mid - 1)
        pure (.inl (l, next, mid))
    else pure (.inr ans)

/-- The loop that both functions have, where `compare` has the key that is searched for. -/
def searchLoop (compare : RID → Program Store Int) (rows : List RID) (l r ans : Int) : Program Store Int :=
  loop (searchTurn compare rows) (l, r, ans)

theorem search_loop_eq (compare : RID → Program Store Int) (rows : List RID) (l r ans : Int) :
    searchLoop compare rows l r ans = (if l ≤ r then do
      let sum ← toInt (l + r)
      let mid := sum.tdiv 2
      let row ← ofOption (element rows mid)
      let order ← compare row
      if order > 0 then do
        let next ← toInt (mid + 1)
        searchLoop compare rows next r ans
      else do
        let next ← toInt (mid - 1)
        searchLoop compare rows l next mid
    else pure ans) := by
  rw [searchLoop, loop_eq, searchTurn]
  simp only [bind_assoc, bind_ite, pure_bind, afterTurn]
  rfl

def search (compare : RID → Program Store Int) (rows : List RID) : Program Store Int := do
  let r := narrowed (rows.length - 1)
  let ans ← toInt (r + 1)
  searchLoop compare rows 0 r ans

def lowerBoundPr (rows : List RID) (ptr : Pointer) (size : Nat)
    (cmp : Pointer → Nat → RID → Program Store Int) : Program Store Int :=
  search (cmp ptr size) rows

def lowerBoundRr (rows : List RID) (rid : RID) (cmp : RID → RID → Program Store Int) : Program Store Int :=
  search (cmp rid) rows

/-- The longest arrays on which no search can overflow. -/
abbrev longest : Nat := 1073741824

/-- A comparator that returns, and that is positive where `positive` holds. -/
def Signs (good : Store → Prop) (compare : RID → Program Store Int) (rows : List RID) (positive : Nat → Prop) : Prop :=
  ∀ j (inside : j < rows.length), ∀ store, good store → ∃ order after,
    compare rows[j] store = some (order, after) ∧ good after ∧ (0 < order ↔ positive j)

def Finds (good : Store → Prop) (program : Program Store Int) (position : Nat) : Prop :=
  ∀ store, good store → ∃ after, program store = some ((position : Int), after) ∧ good after

theorem to_int_fits {value : Int} (fits : -2147483648 ≤ value ∧ value ≤ 2147483647) :
    (toInt value : Program Store Int) = pure value := by
  rw [toInt, check, if_pos (by exact fits)]
  rfl

theorem to_int_overflows {value : Int} (above : intMax < value) : (toInt value : Program Store Int) = stuck := by
  rw [toInt, check, if_neg (by omega)]
  rfl

section Loop

variable {compare : RID → Program Store Int} {rows : List RID} {l r ans : Int}

theorem search_loop_ends (empty : r < l) : searchLoop compare rows l r ans = pure ans := by
  rw [search_loop_eq, if_neg (by omega)]

theorem search_loop_turn {row : RID} (nonneg : 0 ≤ l) (more : l ≤ r) (inside : r < rows.length)
    (short : rows.length ≤ longest) (middle : rows[((l + r) / 2).toNat]? = some row) :
    searchLoop compare rows l r ans = compare row >>= fun order =>
      if order > 0 then searchLoop compare rows ((l + r) / 2 + 1) r ans
      else searchLoop compare rows l ((l + r) / 2 - 1) ((l + r) / 2) := by
  have bounded : rows.length ≤ 1073741824 := short
  have truncated : (l + r).tdiv 2 = (l + r) / 2 := Int.tdiv_eq_ediv_of_nonneg (by omega)
  have found : element rows ((l + r) / 2) = some row := by
    rw [element, if_pos (by omega)]
    exact middle
  rw [search_loop_eq, if_pos more, to_int_fits (by omega)]
  simp only [pure_bind, truncated, found, ofOption]
  congr 1
  funext order
  rw [to_int_fits (by omega), to_int_fits (by omega), pure_bind, pure_bind]

theorem search_short (short : rows.length ≤ longest) :
    search compare rows = searchLoop compare rows 0 (rows.length - 1) rows.length := by
  have bounded : rows.length ≤ 1073741824 := short
  have kept : narrowed (rows.length - 1) = rows.length - 1 := by
    rw [narrowed, Int.bmod_eq_of_le (by omega) (by omega)]
  rw [search, kept, Int.sub_add_cancel, to_int_fits (by omega), pure_bind]

end Loop

theorem finds_turn {Store : Type} {good : Store → Prop} {compare : RID → Program Store Int} {rows : List RID}
    {l r ans : Int} {positive : Nat → Prop} {position : Nat} (signs : Signs good compare rows positive)
    (nonneg : 0 ≤ l) (more : l ≤ r) (inside : r < rows.length) (short : rows.length ≤ longest)
    (above : positive ((l + r) / 2).toNat → Finds good (searchLoop compare rows ((l + r) / 2 + 1) r ans) position)
    (below : ¬positive ((l + r) / 2).toNat →
      Finds good (searchLoop compare rows l ((l + r) / 2 - 1) ((l + r) / 2)) position) :
    Finds good (searchLoop compare rows l r ans) position := by
  intro store holds
  have place : ((l + r) / 2).toNat < rows.length := by omega
  obtain ⟨sign, between, ran, goodBetween, greater⟩ := signs _ place store holds
  have turn : searchLoop compare rows l r ans store =
      (if sign > 0 then searchLoop compare rows ((l + r) / 2 + 1) r ans
        else searchLoop compare rows l ((l + r) / 2 - 1) ((l + r) / 2)) between := by
    rw [search_loop_turn nonneg more inside short (List.getElem?_eq_getElem place)]
    change (compare _ store).bind _ = _
    rw [ran, Option.bind_some]
  by_cases less : positive ((l + r) / 2).toNat
  · obtain ⟨after, ranRest, goodAfter⟩ := above less between goodBetween
    rw [turn, if_pos (greater.mpr less)]
    exact ⟨after, ranRest, goodAfter⟩
  · obtain ⟨after, ranRest, goodAfter⟩ := below less between goodBetween
    rw [turn, if_neg fun isPositive => less (greater.mp isPositive)]
    exact ⟨after, ranRest, goodAfter⟩

/-- Where a loop ends depends on the signs alone. It is where they change, if they change once. -/
theorem search_loop_position {rows : List RID} (short : rows.length ≤ longest) (positive : Nat → Prop) (size : Nat)
    {l r ans : Int} (measure : r + 1 - l ≤ size) (nonneg : 0 ≤ l) (order : l ≤ r + 1) (inside : r < rows.length)
    (last : ans = r + 1) :
    ∃ position : Nat, l ≤ position ∧ position ≤ r + 1 ∧
      (∀ first : Nat, l ≤ first → first ≤ r + 1 → (∀ j < rows.length, positive j ↔ j < first) → position = first) ∧
      ∀ {Store : Type} {good : Store → Prop} {compare : RID → Program Store Int},
        Signs good compare rows positive → Finds good (searchLoop compare rows l r ans) position := by
  induction size generalizing l r ans with
  | zero =>
      refine ⟨l.toNat, by omega, by omega, fun first lower upper _ => by omega, ?_⟩
      intro Store good compare _ store holds
      refine ⟨store, ?_, holds⟩
      rw [search_loop_ends (by omega), show ((l.toNat : Nat) : Int) = ans by omega]
      rfl
  | succ size ih =>
      by_cases more : l ≤ r
      · have place : ((l + r) / 2).toNat < rows.length := by omega
        have cast : (((l + r) / 2).toNat : Int) = (l + r) / 2 := by omega
        by_cases less : positive ((l + r) / 2).toNat
        · obtain ⟨position, lower, upper, changes, finds⟩ :=
            ih (l := (l + r) / 2 + 1) (by omega) (by omega) (by omega) inside last
          refine ⟨position, by omega, upper, ?_, ?_⟩
          · intro first above below signs
            have before := (signs _ place).mp less
            exact changes first (by omega) below signs
          · intro Store good compare signs
            exact finds_turn signs nonneg more inside short (fun _ => finds signs) fun notLess => absurd less notLess
        · obtain ⟨position, lower, upper, changes, finds⟩ :=
            ih (r := (l + r) / 2 - 1) (by omega) nonneg (by omega) (by omega) (Int.sub_add_cancel _ _).symm
          refine ⟨position, lower, by omega, ?_, ?_⟩
          · intro first above below signs
            have behind : ¬((l + r) / 2).toNat < first := fun before => less ((signs _ place).mpr before)
            exact changes first above (by omega) signs
          · intro Store good compare signs
            exact finds_turn signs nonneg more inside short (fun isLess => absurd isLess less) fun _ => finds signs
      · exact ih (by omega) nonneg order inside last

/-- On an array of at most 2^30 elements both functions return, without a comparison outside the array
and without overflow, the position where the comparator stops to be positive, and the same position for
comparators that are positive on the same elements. -/
theorem lower_bounds_find {Store Other Pointer : Type} (rows : List RID) (short : rows.length ≤ longest) (rid : RID)
    (ptr : Pointer) (size : Nat) (rowRow : RID → RID → Program Store Int)
    (ptrRow : Pointer → Nat → RID → Program Other Int) (good : Store → Prop) (sound : Other → Prop) :
    (∀ first ≤ rows.length, Signs good (rowRow rid) rows (fun j => j < first) →
      Finds good (lowerBoundRr rows rid rowRow) first) ∧
    (∀ first ≤ rows.length, Signs sound (ptrRow ptr size) rows (fun j => j < first) →
      Finds sound (lowerBoundPr rows ptr size ptrRow) first) ∧
    ∀ positive, Signs good (rowRow rid) rows positive → Signs sound (ptrRow ptr size) rows positive →
      ∃ position ≤ rows.length, Finds good (lowerBoundRr rows rid rowRow) position ∧
        Finds sound (lowerBoundPr rows ptr size ptrRow) position := by
  have ends : ∀ positive : Nat → Prop, ∃ position ≤ rows.length,
      (∀ first ≤ rows.length, (∀ j < rows.length, positive j ↔ j < first) → position = first) ∧
      ∀ {Store : Type} {good : Store → Prop} {compare : RID → Program Store Int},
        Signs good compare rows positive → Finds good (search compare rows) position := by
    intro positive
    obtain ⟨position, _, upper, changes, finds⟩ := search_loop_position short positive rows.length
      (l := 0) (r := rows.length - 1) (by omega) (le_refl 0) (by omega) (by omega) (Int.sub_add_cancel _ _).symm
    refine ⟨position, by omega, fun first below => changes first (by omega) (by omega), ?_⟩
    intro Store good compare signs
    rw [search_short short]
    exact finds signs
  refine ⟨?_, ?_, ?_⟩
  · intro first below signs
    obtain ⟨position, _, changes, finds⟩ := ends fun j => j < first
    rw [← changes first below fun _ _ => Iff.rfl]
    exact finds signs
  · intro first below signs
    obtain ⟨position, _, changes, finds⟩ := ends fun j => j < first
    rw [← changes first below fun _ _ => Iff.rfl]
    exact finds signs
  · intro positive signs others
    obtain ⟨position, below, _, finds⟩ := ends positive
    exact ⟨position, below, finds signs, finds others⟩

/-- A row with a smaller and one with a larger address. -/
theorem lower_bounds_find_two_rows :
    Finds (fun _ : Unit => True) (lowerBoundRr [⟨128, 0⟩, ⟨384, 0⟩] ⟨256, 0⟩
      fun first second => pure (first.blockAddr - second.blockAddr)) 1 := by
  refine (lower_bounds_find [⟨128, 0⟩, ⟨384, 0⟩] (by decide) ⟨256, 0⟩ () 0
    (fun first second => pure (first.blockAddr - second.blockAddr)) (fun (_ : Unit) _ _ => pure 0) (fun _ => True)
    fun (_ : Unit) => True).1 1 (by decide) ?_
  intro j inside store _
  match j with
  | 0 => exact ⟨128, store, rfl, trivial, by decide⟩
  | 1 => exact ⟨-128, store, rfl, trivial, by decide⟩

theorem search_loop_overflows {compare : RID → Program Store Int} {rows : List RID} {store : Store}
    (greater : ∀ row, compare row store = some (1, store)) (size : Nat) {l r ans : Int} (measure : r - l ≤ size)
    (nonneg : 0 ≤ l) (more : l ≤ r) (inside : r < rows.length) (long : intMax < r + r) :
    searchLoop compare rows l r ans store = none := by
  have long' : 2147483647 < r + r := long
  rw [search_loop_eq, if_pos more]
  by_cases above : l + r ≤ 2147483647
  · have place : ((l + r) / 2).toNat < rows.length := by omega
    have truncated : (l + r).tdiv 2 = (l + r) / 2 := Int.tdiv_eq_ediv_of_nonneg (by omega)
    have found : element rows ((l + r) / 2) = some rows[((l + r) / 2).toNat] := by
      rw [element, if_pos (by omega), List.getElem?_eq_getElem place]
    rw [to_int_fits (by omega)]
    simp only [pure_bind, truncated, found, ofOption]
    change (compare _ store).bind _ = _
    rw [greater, Option.bind_some]
    dsimp only
    rw [if_pos (by decide), to_int_fits (by omega), pure_bind]
    cases size with
    | zero => omega
    | succ size => exact search_loop_overflows greater size (by omega) (by omega) (by omega) inside long
  · rw [to_int_overflows (by rw [intMax]; omega)]
    rfl

/-- One element more, and the sum of the two ends leaves the range of `int`. -/
theorem longer_search_overflows : ¬∀ (rows : List RID) (rid : RID) (cmp : RID → RID → Program Unit Int),
    ∀ first ≤ rows.length, Signs (fun _ => True) (cmp rid) rows (fun j => j < first) →
      Finds (fun _ => True) (lowerBoundRr rows rid cmp) first := by
  intro always
  have long : (List.replicate (longest + 1) (⟨0, 0⟩ : RID)).length = 1073741825 := List.length_replicate
  obtain ⟨_, ran, _⟩ := always (List.replicate (longest + 1) ⟨0, 0⟩) ⟨0, 0⟩ (fun _ _ => pure 1) _ (le_refl _)
    (fun j inside store _ => ⟨1, store, rfl, trivial, iff_of_true (by decide) inside⟩) () trivial
  have stuck : lowerBoundRr (List.replicate (longest + 1) ⟨0, 0⟩) ⟨0, 0⟩ (fun _ _ => pure (1 : Int)) () =
      (none : Option (Int × Unit)) := by
    have kept : narrowed (1073741825 - 1) = 1073741824 := by decide
    rw [lowerBoundRr, search, long, show ((1073741825 : Nat) : Int) - 1 = 1073741825 - 1 from rfl, kept,
      to_int_fits (by decide), pure_bind]
    exact search_loop_overflows (fun _ => rfl) 1073741824 (by decide) (by decide) (by decide) (by rw [long]; decide)
      (by decide)
  rw [stuck] at ran
  cases ran

theorem search_loop_same {compare : RID → Program Store Int} {row : Nat → RID} {rows : List RID}
    (reads : Reads row rows) (short : rows.length ≤ longest) (size : Nat) {l r ans : Int} (measure : r + 1 - l ≤ size)
    (nonneg : 0 ≤ l) (inside : r < rows.length) :
    BTreeModel.lowerBoundLoop compare row l r ans = searchLoop compare rows l r ans := by
  induction size generalizing l r ans with
  | zero => rw [BTreeModel.lower_bound_loop_eq, if_neg (by omega), search_loop_ends (by omega)]
  | succ size ih =>
      by_cases more : l ≤ r
      · have place : ((l + r) / 2).toNat < rows.length := by omega
        rw [BTreeModel.lower_bound_loop_eq, if_pos more,
          search_loop_turn nonneg more inside short (List.getElem?_eq_getElem place)]
        simp only [reads _ place]
        congr 1
        funext order
        rw [ih (by omega) (by omega) inside, ih (by omega) nonneg (by omega)]
      · rw [BTreeModel.lower_bound_loop_eq, if_neg more, search_loop_ends (by omega)]

/-- On the rows of a node the searches of the tree are these two. -/
theorem lower_bound_same (compare : RID → Program Store Int) {row : Nat → RID} {rows : List RID}
    (reads : Reads row rows) (short : rows.length ≤ longest) :
    BTreeModel.lowerBoundPr compare row rows.length = Int.toNat <$> search compare rows := by
  rw [BTreeModel.lowerBoundPr, search_short short,
    search_loop_same reads short rows.length (by omega) (le_refl 0) (by omega)]
  rfl

end MyJQL.BinarySearch
