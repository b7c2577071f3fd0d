import Mathlib.Logic.Function.Basic
import Mathlib.Tactic.TypeStar

/-!
# Stateful programs that can go wrong

A program is a state transformer that may get stuck. Getting stuck stands for everything a C
program must not do (a null pointer, an index outside an array, a loop that never ends), so a
statement that a program returns a value also says that none of this happens on the way.

Programs are specified over an abstract state: a representation relation says which concrete
states an abstract one stands for, and `Ensures` is total correctness seen from above. Nothing
here knows which program is verified.
-/

namespace MyJQL.StateProgram

set_option autoImplicit false

abbrev Program (State Value : Type) := StateT State Option Value

variable {State Other Value Result Abstract Above : Type}

def stuck : Program State Value := fun _ => none

def check (condition : Prop) [Decidable condition] : Program State Unit :=
  if condition then pure () else stuck

def ofOption (value : Option Value) : Program State Value :=
  match value with
  | some value => pure value
  | none => stuck

theorem bind_ran {program : Program State Value} {next : Value → Program State Result} {start between : State}
    {value : Value} (ran : program start = some (value, between)) : (program >>= next) start = next value between := by
  change (program start).bind (fun pair => next pair.1 pair.2) = _
  rw [ran, Option.bind_some]

theorem bind_failed {program : Program State Value} {next : Value → Program State Result} {start : State}
    (failed : program start = none) : (program >>= next) start = none := by
  change (program start).bind (fun pair => next pair.1 pair.2) = _
  rw [failed, Option.bind_none]

theorem check_passes {condition : Prop} [Decidable condition] (holds : condition) :
    (check condition : Program State Unit) = pure () := by
  rw [check, if_pos holds]

theorem bind_ite {condition : Prop} [Decidable condition] (yes no : Program State Value)
    (next : Value → Program State Result) :
    (if condition then yes else no) >>= next = if condition then yes >>= next else no >>= next := by
  by_cases holds : condition
  · rw [if_pos holds, if_pos holds]
  · rw [if_neg holds, if_neg holds]

section Loops

variable {Arg : Type}

/-- One turn of a loop: on with another argument, or out with a result. -/
structure Turn (State Arg Result : Type) where
  run : Arg → Program State (Arg ⊕ Result)

def Turn.loopFrom (turn : Turn State Arg Result) (arg : Arg) (state : State) : Option (Result × State) :=
  match turn.run arg state with
  | none => none
  | some (.inl next, after) => turn |>.loopFrom next after
  | some (.inr result, after) => some (result, after)
partial_fixpoint

/-- Each turn of a loop goes on with another argument, or ends the loop with a result. -/
def loop (turn : Arg → Program State (Arg ⊕ Result)) (arg : Arg) : Program State Result :=
  Turn.loopFrom ⟨turn⟩ arg

def afterTurn (turn : Arg → Program State (Arg ⊕ Result)) : Arg ⊕ Result → Program State Result
  | .inl next => loop turn next
  | .inr result => pure result

theorem loop_eq (turn : Arg → Program State (Arg ⊕ Result)) (arg : Arg) :
    loop turn arg = turn arg >>= afterTurn turn := by
  funext state
  rw [loop, Turn.loopFrom]
  cases ran : turn arg state with
  | none =>
      simp only [ran]
      rw [bind_failed ran]
  | some pair =>
      obtain ⟨outcome, after⟩ := pair
      simp only [ran]
      rw [bind_ran ran]
      cases outcome <;> rfl

/-- What holds of the outcome of each last turn, and is passed on from each next turn to the one before it,
holds of every outcome of the loop. -/
theorem loop_returns {turn : Arg → Program State (Arg ⊕ Result)} (holds : Arg → State → Result × State → Prop)
    (ends : ∀ arg start result after, turn arg start = some (.inr result, after) → holds arg start (result, after))
    (goes : ∀ arg start next after outcome, turn arg start = some (.inl next, after) → holds next after outcome →
      holds arg start outcome) {arg : Arg} {start : State} {outcome : Result × State}
    (ran : loop turn arg start = some outcome) : holds arg start outcome := by
  refine Turn.loopFrom.partial_correctness ⟨turn⟩ holds ?_ arg start outcome ran
  intro recurse earlier arg start outcome body
  cases ranTurn : turn arg start with
  | none =>
      simp only [ranTurn] at body
      cases body
  | some pair =>
      obtain ⟨decision, middle⟩ := pair
      simp only [ranTurn] at body
      cases decision with
      | inl next => exact goes arg start next middle outcome ranTurn (earlier next middle outcome body)
      | inr result =>
          cases body
          exact ends arg start result middle ranTurn

end Loops

/-- A component of a larger state, with the two laws that make it one. -/
structure Part (Whole Component : Type) where
  read : Whole → Component
  write : Component → Whole → Whole
  read_write : ∀ component whole, read (write component whole) = component
  write_write : ∀ first second whole, write second (write first whole) = write second whole

/-- Runs a program on one component and leaves the rest of the state alone. -/
def Part.run (part : Part State Other) (program : Program Other Value) : Program State Value :=
  fun state => (program (part.read state)).map fun result =>
    (result.1, part.write result.2 state)

theorem Part.run_bind (part : Part State Other) (program : Program Other Value) (next : Value → Program Other Result) :
    part.run (program >>= next) = part.run program >>= fun value => part.run (next value) := by
  funext state
  change ((program (part.read state)).bind fun pair => next pair.1 pair.2).map _ =
    ((program (part.read state)).map fun result => (result.1, part.write result.2 state)).bind fun pair =>
      part.run (next pair.1) pair.2
  cases program (part.read state) with
  | none => rfl
  | some pair => simp only [Option.bind_some, Option.map_some, Part.run, part.read_write, part.write_write]

def firstPart : Part (State × Other) State where
  read := Prod.fst
  write first whole := (first, whole.2)
  read_write _ _ := rfl
  write_write _ _ _ := rfl

def secondPart : Part (State × Other) Other where
  read := Prod.snd
  write second whole := (whole.1, second)
  read_write _ _ := rfl
  write_write _ _ _ := rfl

/-- From every concrete state that stands for `start` the program returns, and what it returns
together with some abstract state of the final concrete state satisfies the postcondition. -/
def Ensures (represents : Abstract → State → Prop) (start : Abstract)
    (program : Program State Value) (post : Value → Abstract → Prop) : Prop :=
  ∀ state, represents start state → ∃ value final abstract,
    program state = some (value, final) ∧ represents abstract final ∧ post value abstract

variable {represents : Abstract → State → Prop} {start : Abstract}

theorem ensures_pure {post : Value → Abstract → Prop} (value : Value) (holds : post value start) :
    Ensures represents start (pure value) post :=
  fun state related => ⟨value, state, start, rfl, related, holds⟩

theorem ensures_bind {program : Program State Value} {next : Value → Program State Result}
    {post : Result → Abstract → Prop}
    (first : Ensures represents start program
      fun value abstract => Ensures represents abstract (next value) post) :
    Ensures represents start (program >>= next) post := by
  intro state related
  obtain ⟨value, middle, abstract, ran, relatedMiddle, continues⟩ := first state related
  obtain ⟨result, final, last, ranNext, relatedFinal, holds⟩ := continues middle relatedMiddle
  refine ⟨result, final, last, ?_, relatedFinal, holds⟩
  change (program state).bind (fun pair => next pair.1 pair.2) = _
  rw [ran]
  exact ranNext

theorem ensures_mono {program : Program State Value} {weak strong : Value → Abstract → Prop}
    (holds : Ensures represents start program strong)
    (implies : ∀ value abstract, strong value abstract → weak value abstract) :
    Ensures represents start program weak := by
  intro state related
  obtain ⟨value, final, abstract, ran, relatedFinal, post⟩ := holds state related
  exact ⟨value, final, abstract, ran, relatedFinal, implies value abstract post⟩

theorem ensures_check {post : Unit → Abstract → Prop} {condition : Prop} [Decidable condition]
    (holds : condition) (continues : post () start) :
    Ensures represents start (check condition) post := by
  rw [check, if_pos holds]
  exact ensures_pure () continues

theorem ensures_of_option {post : Value → Abstract → Prop} {option : Option Value} {value : Value}
    (found : option = some value) (holds : post value start) :
    Ensures represents start (ofOption option) post := by
  rw [found]
  exact ensures_pure value holds

theorem ensures_ite {post : Value → Abstract → Prop} {condition : Prop} [Decidable condition]
    {yes no : Program State Value}
    (taken : condition → Ensures represents start yes post)
    (skipped : ¬condition → Ensures represents start no post) :
    Ensures represents start (if condition then yes else no) post := by
  by_cases holds : condition
  · rw [if_pos holds]; exact taken holds
  · rw [if_neg holds]; exact skipped holds

/-- What the representation relation implies about the abstract state may be used. -/
theorem ensures_known {program : Program State Value} {post : Value → Abstract → Prop} {fact : Prop}
    (implied : ∀ state, represents start state → fact)
    (holds : fact → Ensures represents start program post) : Ensures represents start program post :=
  fun state related => holds (implied state related) state related

/-- Replaces the abstract state by one further above it: `glue` says which lower abstract states
an upper one stands for. -/
theorem ensures_lift {glue : Above → Abstract → Prop} {above : Above}
    {program : Program State Value} {post : Value → Above → Prop}
    (holds : ∀ abstract, glue above abstract → Ensures represents abstract program
      fun value final => ∃ upper, glue upper final ∧ post value upper) :
    Ensures (fun upper state => ∃ abstract, glue upper abstract ∧ represents abstract state)
      above program post := by
  rintro state ⟨abstract, glued, related⟩
  obtain ⟨value, final, last, ran, relatedFinal, upper, gluedFinal, post⟩ :=
    holds abstract glued state related
  exact ⟨value, final, upper, ran, ⟨last, gluedFinal, relatedFinal⟩, post⟩

/-- Partial correctness: what the program returns, if it returns. -/
def Allows (represents : Abstract → State → Prop) (start : Abstract)
    (program : Program State Value) (post : Value → Abstract → Prop) : Prop :=
  ∀ state, represents start state → ∀ value final, program state = some (value, final) →
    ∃ abstract, represents abstract final ∧ post value abstract

theorem allows_of_ensures {program : Program State Value} {post : Value → Abstract → Prop}
    (holds : Ensures represents start program post) : Allows represents start program post := by
  intro state related value final ran
  obtain ⟨other, last, abstract, same, relatedFinal, satisfied⟩ := holds state related
  rw [ran] at same
  cases same
  exact ⟨abstract, relatedFinal, satisfied⟩

theorem allows_pure {post : Value → Abstract → Prop} (value : Value) (holds : post value start) :
    Allows represents start (pure value) post :=
  allows_of_ensures (ensures_pure value holds)

theorem allows_mono {program : Program State Value} {weak strong : Value → Abstract → Prop}
    (holds : Allows represents start program strong)
    (implies : ∀ value abstract, strong value abstract → weak value abstract) :
    Allows represents start program weak := by
  intro state related value final ran
  obtain ⟨abstract, relatedFinal, post⟩ := holds state related value final ran
  exact ⟨abstract, relatedFinal, implies value abstract post⟩

theorem allows_stuck {post : Value → Abstract → Prop} : Allows represents start stuck post := by
  intro state _ value final ran
  cases ran

theorem allows_bind {program : Program State Value} {next : Value → Program State Result}
    {post : Result → Abstract → Prop}
    (first : Ensures represents start program
      fun value abstract => Allows represents abstract (next value) post) :
    Allows represents start (program >>= next) post := by
  intro state related result final ran
  obtain ⟨value, middle, abstract, ranFirst, relatedMiddle, continues⟩ := first state related
  change (program state).bind (fun pair => next pair.1 pair.2) = _ at ran
  rw [ranFirst] at ran
  exact continues middle relatedMiddle result final ran

theorem allows_seq {program : Program State Value} {next : Value → Program State Result}
    {post : Result → Abstract → Prop}
    (first : Allows represents start program fun value abstract => Allows represents abstract (next value) post) :
    Allows represents start (program >>= next) post := by
  intro state related result final ran
  change (program state).bind (fun pair => next pair.1 pair.2) = _ at ran
  obtain ⟨⟨value, middle⟩, ranFirst, ranNext⟩ := Option.bind_eq_some_iff.mp ran
  obtain ⟨abstract, relatedMiddle, continues⟩ := first state related value middle ranFirst
  exact continues middle relatedMiddle result final ranNext

theorem allows_ite {post : Value → Abstract → Prop} {condition : Prop} [Decidable condition]
    {yes no : Program State Value} (taken : condition → Allows represents start yes post)
    (skipped : ¬condition → Allows represents start no post) :
    Allows represents start (if condition then yes else no) post := by
  by_cases holds : condition
  · rw [if_pos holds]; exact taken holds
  · rw [if_neg holds]; exact skipped holds

theorem allows_check {post : Unit → Abstract → Prop} {condition : Prop} [Decidable condition]
    (continues : condition → post () start) : Allows represents start (check condition) post :=
  allows_ite (fun holds => allows_pure () (continues holds)) fun _ => allows_stuck

theorem bind_stuck {program : Program State Value} {next : Value → Program State Result}
    (never : ∀ value, next value = stuck) : program >>= next = stuck := by
  funext state
  change (program state).bind (fun pair => next pair.1 pair.2) = none
  cases program state with
  | none => rfl
  | some pair => exact congrFun (never pair.1) pair.2

section Pairs

variable {Side : Type} {left : Abstract → State → Prop} {right : Side → Other → Prop}

def Both (left : Abstract → State → Prop) (right : Side → Other → Prop) :
    Abstract × Side → State × Other → Prop :=
  fun abstract state => left abstract.1 state.1 ∧ right abstract.2 state.2

theorem ensures_first {side : Side} {program : Program State Value}
    {post : Value → Abstract × Side → Prop}
    (holds : Ensures left start program fun value abstract => post value (abstract, side)) :
    Ensures (Both left right) (start, side) (firstPart.run program) post := by
  rintro ⟨state, other⟩ ⟨related, relatedOther⟩
  obtain ⟨value, final, abstract, ran, relatedFinal, satisfied⟩ := holds state related
  exact ⟨value, (final, other), (abstract, side),
    by simp only [Part.run, firstPart, ran, Option.map_some], ⟨relatedFinal, relatedOther⟩, satisfied⟩

theorem ensures_second {side : Side} {program : Program Other Value}
    {post : Value → Abstract × Side → Prop}
    (holds : Ensures right side program fun value final => post value (start, final)) :
    Ensures (Both left right) (start, side) (secondPart.run program) post := by
  rintro ⟨state, other⟩ ⟨related, relatedOther⟩
  obtain ⟨value, final, abstract, ran, relatedFinal, satisfied⟩ := holds other relatedOther
  exact ⟨value, (state, final), (start, abstract),
    by simp only [Part.run, secondPart, ran, Option.map_some], ⟨related, relatedFinal⟩, satisfied⟩

end Pairs

end MyJQL.StateProgram
