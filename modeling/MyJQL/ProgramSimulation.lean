import MyJQL.StateProgram

/-!
# One program follows another

Two systems run the same program over states of their own. The right one is told in advance what the
left one finds out on its way, a list of hints. Whenever a run on the left returns, the run on the
right with the hints of that run returns the same value, and the states still correspond. Nothing
here knows which systems these are.
-/

namespace MyJQL.ProgramSimulation

open MyJQL.StateProgram

set_option autoImplicit false

/-- Which states correspond while some hints are left. `good` is what all left states have in common. -/
structure Correspondence (Left Right Hint : Type) where
  good : Left → Prop
  stands : Left → List Hint → Right → Prop

variable {Left Right Hint Value Result Arg Side : Type}

/-- From one left state. -/
def FollowsFrom (link : Correspondence Left Right Hint) (direct : Program Right Value) (start : Left)
    (value : Value) (after : Left) : Prop :=
  link.good after ∧ ∃ used, ∀ rest right, link.stands start (used ++ rest) right →
    ∃ final, direct right = some (value, final) ∧ link.stands after rest final

def Follows (link : Correspondence Left Right Hint) (program : Program Left Value)
    (direct : Program Right Value) : Prop :=
  ∀ start value after, link.good start → program start = some (value, after) →
    FollowsFrom link direct start value after

variable {link : Correspondence Left Right Hint}

theorem follows_pure (value : Value) : Follows link (pure value) (pure value) := by
  rintro start _ _ good ⟨⟩
  exact ⟨good, [], fun rest right stands => ⟨right, rfl, stands⟩⟩

theorem follows_stuck (direct : Program Right Value) : Follows link stuck direct := by
  intro start value after _ ran
  cases ran

theorem follows_from_bind {direct : Program Right Value} {next : Value → Program Right Result}
    {start middle after : Left} {value : Value} {result : Result}
    (first : FollowsFrom link direct start value middle)
    (second : FollowsFrom link (next value) middle result after) :
    FollowsFrom link (direct >>= next) start result after := by
  obtain ⟨_, used, moves⟩ := first
  obtain ⟨good, more, continues⟩ := second
  refine ⟨good, used ++ more, fun rest right stands => ?_⟩
  rw [List.append_assoc] at stands
  obtain ⟨between, ran, standsBetween⟩ := moves (more ++ rest) right stands
  obtain ⟨final, ranNext, standsFinal⟩ := continues rest between standsBetween
  refine ⟨final, ?_, standsFinal⟩
  change (direct right).bind (fun pair => next pair.1 pair.2) = _
  rw [ran]
  exact ranNext

theorem follows_bind {program : Program Left Value} {direct : Program Right Value}
    {next : Value → Program Left Result} {nextDirect : Value → Program Right Result}
    (first : Follows link program direct) (second : ∀ value, Follows link (next value) (nextDirect value)) :
    Follows link (program >>= next) (direct >>= nextDirect) := by
  intro start result after good ran
  change (program start).bind (fun pair => next pair.1 pair.2) = _ at ran
  obtain ⟨⟨value, middle⟩, ranFirst, ranSecond⟩ := Option.bind_eq_some_iff.mp ran
  have followed := first start value middle good ranFirst
  exact follows_from_bind followed (second value middle result after followed.1 ranSecond)

theorem follows_ite {condition : Prop} [Decidable condition] {yes no : Program Left Value}
    {yesDirect noDirect : Program Right Value} (taken : Follows link yes yesDirect)
    (skipped : Follows link no noDirect) :
    Follows link (if condition then yes else no) (if condition then yesDirect else noDirect) := by
  by_cases holds : condition
  · rw [if_pos holds, if_pos holds]
    exact taken
  · rw [if_neg holds, if_neg holds]
    exact skipped

theorem follows_check (condition : Prop) [Decidable condition] :
    Follows link (check condition) (check condition) :=
  follows_ite (follows_pure ()) (follows_stuck _)

theorem follows_of_option (value : Option Value) : Follows link (ofOption value) (ofOption value) := by
  cases value with
  | none => exact follows_stuck _
  | some value => exact follows_pure value

/-- Loops whose turns follow each other follow each other, however long they run. -/
theorem follows_loop {turn : Arg → Program Left (Arg ⊕ Result)} {turnDirect : Arg → Program Right (Arg ⊕ Result)}
    (turns : ∀ arg, Follows link (turn arg) (turnDirect arg)) (arg : Arg) :
    Follows link (loop turn arg) (loop turnDirect arg) := by
  intro start result after good ran
  refine loop_returns (fun arg start outcome => link.good start →
    FollowsFrom link (loop turnDirect arg) start outcome.1 outcome.2) ?_ ?_ ran good
  · intro arg start result after ranTurn good
    have followed := turns arg start (.inr result) after good ranTurn
    rw [loop_eq]
    exact follows_from_bind followed (follows_pure result after result after followed.1 rfl)
  · intro arg start next middle outcome ranTurn earlier good
    have followed := turns arg start (.inl next) middle good ranTurn
    rw [loop_eq]
    exact follows_from_bind followed (earlier followed.1)

def Correspondence.beside (link : Correspondence Left Right Hint) (Side : Type) :
    Correspondence (Left × Side) (Right × Side) Hint where
  good left := link.good left.1
  stands left hints right := link.stands left.1 hints right.1 ∧ right.2 = left.2

theorem follows_first {program : Program Left Value} {direct : Program Right Value}
    (follows : Follows link program direct) :
    Follows (link.beside Side) (firstPart.run program) (firstPart.run direct) := by
  rintro ⟨start, side⟩ value ⟨after, sideAfter⟩ good ran
  simp only [Part.run, firstPart, Option.map_eq_some_iff, Prod.mk.injEq, Prod.exists] at ran
  obtain ⟨_, _, ran, rfl, rfl, rfl⟩ := ran
  obtain ⟨goodAfter, used, moves⟩ := follows start _ _ good ran
  refine ⟨goodAfter, used, ?_⟩
  rintro rest ⟨right, rightSide⟩ ⟨stands, same⟩
  obtain ⟨final, ranDirect, standsFinal⟩ := moves rest right stands
  exact ⟨(final, rightSide), by simp only [Part.run, firstPart, ranDirect, Option.map_some], standsFinal, same⟩

theorem follows_second (program : Program Side Value) :
    Follows (link.beside Side) (secondPart.run program) (secondPart.run program) := by
  rintro ⟨start, side⟩ value ⟨after, last⟩ good ran
  simp only [Part.run, secondPart, Option.map_eq_some_iff, Prod.mk.injEq, Prod.exists] at ran
  obtain ⟨_, sideAfter, ran, rfl, rfl, rfl⟩ := ran
  refine ⟨good, [], ?_⟩
  rintro rest ⟨right, rightSide⟩ ⟨stands, same⟩
  simp only at same
  exact ⟨(right, sideAfter), by simp only [Part.run, secondPart, same, ran, Option.map_some], stands, rfl⟩

end MyJQL.ProgramSimulation
