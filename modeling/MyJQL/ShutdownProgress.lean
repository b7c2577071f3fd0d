import MyJQL.ConnectionEnd
import MyJQL.Shutdown

/-!
# The server comes to its end

Once `exit_nicely` is called the process ends, however busy its clients are: each time that a thread is in
the critical section it leaves it again, and `exit_nicely` is let in at last. It is a thread of its own here.
Run by a signal on a thread that is within the critical section, it would wait for itself.
-/

namespace MyJQL.ShutdownProgress

open MyJQL.FairRuns
open MyJQL.StateProgram
open MyJQL.KeyValueStore
open MyJQL.ServerModel
open MyJQL.ServerSystem
open MyJQL.ServerThreads
open MyJQL.ThreadSafety
open MyJQL.ThreadProgress
open MyJQL.DatabaseModel
open MyJQL.DatabaseRefinement
open MyJQL.DatabasePersistence
open MyJQL.Shutdown

set_option autoImplicit false

/-- A step of a thread, a step of `exit_nicely`, or nothing any more. -/
inductive Motion (Client Store : Type) where
  | thread (choice : Choice Client Store)
  | exit
  | ended

/-- No thread is let in behind the close, none reads a length that there is no buffer for, no `send` fails, and a
`recv` waits for a byte or the end of the stream. -/
def Steady {Client Store : Type} (choice : Choice Client Store) (server : Server Client Store) : Prop :=
  Undisturbed choice server ∧ Awaited choice server

instance {Client Store : Type} [DecidableEq Client] (choice : Choice Client Store) (server : Server Client Store) :
    Decidable (Steady choice server) := inferInstanceAs (Decidable (_ ∧ _))

variable {Client Store : Type} [DecidableEq Client] {represents : Bindings → Store → Prop}
  {backend : StoreCall → Program Store StoreAnswer} {close : Store → Store} {start : Bindings} {store : Store}
  {codes : Client → Int} {streams : Client → List Bytes} {process after : Process Client Store}

def Motion.Moves (backend : StoreCall → Program Store StoreAnswer) (close : Store → Store) :
    Motion Client Store → Process Client Store → Process Client Store → Prop
  | .thread choice, process, after => process.exit ≠ .exited ∧ Turn Steady backend choice process.server after.server ∧
      after.exit = process.exit
  | .exit, process, after => exitNicely close process = some after
  | .ended, process, after => process.exit = .exited ∧ after = process

/-- Every thread that can go on again and again does, until the process has ended, and so does `exit_nicely`. -/
structure FairProcess {first : Process Client Store} (run : EndlessRun (Motion.Moves backend close) first) : Prop where
  threads : ∀ client, run.Fair (fun motion => ∃ choice, motion = .thread choice ∧ stepOf choice = some client)
    fun process => process.exit ≠ .exited ∧ Able Steady backend client process.server
  exits : run.Fair (fun motion => motion = .exit) fun process => (exitNicely close process).isSome

def stepsLeft : ExitPhase → Nat
  | .waiting => 5
  | .inside => 4
  | .closed => 3
  | .released => 2
  | .disconnected => 1
  | .exited => 0

omit [DecidableEq Client] in
theorem exit_shortens (exits : exitNicely close process = some after) :
    stepsLeft after.exit < stepsLeft process.exit := by
  obtain ⟨server, exit⟩ := process
  cases exit with
  | waiting =>
      simp only [exitNicely] at exits
      split_ifs at exits
      cases exits
      exact Nat.lt_succ_self _
  | inside | closed | released | disconnected =>
      cases exits
      exact Nat.lt_succ_self _
  | exited => cases exits

omit [DecidableEq Client] in
theorem exit_able (entered : process.exit ≠ .waiting) (alive : process.exit ≠ .exited) :
    (exitNicely close process).isSome := by
  obtain ⟨server, exit⟩ := process
  cases exit with
  | waiting => exact absurd rfl entered
  | inside | closed | released | disconnected => rfl
  | exited => exact absurd rfl alive

theorem moves_phase {motion : Motion Client Store} (moves : motion.Moves backend close process after)
    (other : motion ≠ .exit) : after.exit = process.exit := by
  cases motion with
  | thread choice => exact moves.2.2
  | exit => exact absurd rfl other
  | ended => rw [moves.2]

theorem moves_steps {motion : Motion Client Store} (moves : motion.Moves backend close process after) :
    Relation.ReflTransGen (ProcessStep Steady backend close) process after := by
  cases motion with
  | thread choice =>
      obtain ⟨alive, turn, same⟩ := moves
      obtain ⟨server, exit⟩ := after
      obtain rfl : exit = process.exit := same
      exact .single (.thread alive ⟨choice, turn⟩)
  | exit => exact .single (.exit moves)
  | ended => rw [moves.2]

/-- Once within the critical section, `exit_nicely` does not wait again. -/
theorem moves_entered {motion : Motion Client Store} (moves : motion.Moves backend close process after)
    (entered : process.exit ≠ .waiting) : after.exit ≠ .waiting := by
  by_cases own : motion = .exit
  · subst own
    have shorter := exit_shortens moves
    intro waits
    rw [waits] at shorter
    cases phase : process.exit <;> rw [phase] at shorter <;> exact absurd shorter (by decide)
  · rw [moves_phase moves own]
    exact entered

theorem process_reaches (run : EndlessRun (Motion.Moves backend close) ⟨Server.started store codes streams, .waiting⟩)
    (time : Nat) : Relation.ReflTransGen (ProcessStep KeptOut backend close)
    ⟨Server.started store codes streams, .waiting⟩ (run.state time) := by
  have kept : ∀ (choice : Choice Client Store) (server : Server Client Store), Steady choice server →
      KeptOut choice server := fun _ _ steady => steady.1.2.2
  refine process_mono kept ?_
  induction time with
  | zero => rw [run.starts]
  | succ time ih => exact ih.trans (moves_steps (run.steps time))

section Conditions

variable {choice : Choice Client Store} {server : Server Client Store}

/-- What is left of the conditions as long as the database is open. -/
def Calm (choice : Choice Client Store) (server : Server Client Store) : Prop :=
  InRange choice server ∧ Delivering choice server ∧ Awaited choice server

omit [DecidableEq Client] in
theorem steady_calm (steady : Steady choice server) : Calm choice server :=
  ⟨steady.1.1, steady.1.2.1, steady.2⟩

omit [DecidableEq Client] in
theorem calm_steady (unclosed : .closed ∉ server.trace) (calm : Calm choice server) : Steady choice server := by
  refine ⟨⟨calm.1, calm.2.1, ?_⟩, calm.2.2⟩
  cases choice with
  | enter _ => exact unclosed
  | send _ | close _ | move _ _ | perform _ | finish _ | clash _ _ _ | leave _ => exact calm.1

omit [DecidableEq Client] in
theorem calm_liberal : Liberal True (@Calm Client Store) := by
  intro choice server _ _ range noError awaited
  refine ⟨range, ?_, awaited trivial⟩
  unfold Delivering
  split
  · exact absurd rfl (noError _)
  · trivial

end Conditions

section Waiting

variable {run : EndlessRun (Motion.Moves backend close) ⟨Server.started store codes streams, .waiting⟩}

variable (faithful : Faithful represents backend) (bounded : Bounded start) (related : represents start store)
  (fair : FairProcess run)

include faithful bounded related

theorem waiting_open {time : Nat} (waits : (run.state time).exit = .waiting) :
    Disciplined (run.state time).server ∧ Stored represents start (run.state time).server ∧
      .closed ∉ (run.state time).server.trace := by
  have safe := safe_process faithful bounded related (process_reaches run time)
  rcases safe.stands with opened | closed
  · exact ⟨safe.disciplined, opened.stored, opened.unclosed⟩
  · exact absurd waits closed.phase.1

include fair

/-- The threads on their own make a fair run, and so they leave the critical section free again and again. -/
theorem waiting_opens (waits : ∀ time, (run.state time).exit = .waiting) (later : Nat) :
    ∃ time, later ≤ time ∧ (run.state time).server.owner = none := by
  have threads : ∀ time, ∃ choice, run.label time = .thread choice ∧
      Turn Steady backend choice (run.state time).server (run.state (time + 1)).server := by
    intro time
    have moves := run.steps time
    cases label : run.label time with
    | thread choice =>
        rw [label] at moves
        exact ⟨choice, rfl, moves.2.1⟩
    | exit =>
        rw [label] at moves
        have shorter := exit_shortens moves
        rw [waits, waits] at shorter
        exact absurd shorter (Nat.lt_irrefl _)
    | ended =>
        rw [label] at moves
        have ended := moves.1
        rw [waits] at ended
        cases ended
  choose choice labelled turns using threads
  let servers : EndlessRun (Turn Calm backend) (Server.started store codes streams) :=
    { state := fun time => (run.state time).server
      label := choice
      starts := congrArg Process.server run.starts
      steps := fun time => ⟨steady_calm (turns time).1, (turns time).2⟩ }
  have opened := fun time => waiting_open faithful bounded related (waits time)
  have fairServers : FairToAll servers := by
    intro client able early
    have goesOn : ∀ early, ∃ time, early ≤ time ∧ (run.state time).exit ≠ .exited ∧
        Able Steady backend client (run.state time).server := by
      intro early
      obtain ⟨time, behind, step, own, noError, allowed, goes⟩ := able early
      refine ⟨time, behind, by rw [waits]; decide, step, own, noError, ?_, goes⟩
      exact calm_steady (opened time).2.2 allowed
    obtain ⟨time, behind, other, same, own⟩ := fair.threads client goesOn early
    rw [labelled time] at same
    cases same
    exact ⟨time, behind, own⟩
  exact section_opens servers fairServers faithful calm_liberal
    (fun time => ⟨(opened time).1, (opened time).2.1⟩) (fun time => no_exit (run_reaches servers time)) later

theorem exit_goes_on (alive : ∀ time, (run.state time).exit ≠ .exited) (later : Nat) :
    ∃ time, later ≤ time ∧ (exitNicely close (run.state time)).isSome := by
  by_cases waits : ∀ time, (run.state time).exit = .waiting
  · obtain ⟨time, behind, free⟩ := waiting_opens faithful bounded related fair waits later
    refine ⟨time, behind, ?_⟩
    simp only [exitNicely, waits time, free, Option.isNone_none, if_true, Option.isSome_some]
  · obtain ⟨early, entered⟩ := not_forall.mp waits
    have stays := run_keeps run (fun process => process.exit ≠ .waiting) entered fun time _ entered =>
      moves_entered (run.steps time) entered
    exact ⟨max early later, le_max_right _ _, exit_able (stays _ (le_max_left _ _)) (alive _)⟩

theorem process_ends : ∃ time, (run.state time).exit = .exited := by
  have shortens : ∀ time, 0 ≤ time → ¬(run.state time).exit = .exited → run.label time = .exit →
      stepsLeft (run.state (time + 1)).exit < stepsLeft (run.state time).exit := by
    intro time _ _ own
    have moves := run.steps time
    rw [own] at moves
    exact exit_shortens moves
  have keeps : ∀ time, 0 ≤ time → ¬(run.state time).exit = .exited → ¬run.label time = .exit →
      stepsLeft (run.state (time + 1)).exit = stepsLeft (run.state time).exit :=
    fun time _ _ other => congrArg stepsLeft (moves_phase (run.steps time) other)
  obtain ⟨time, _, ended⟩ := fair_reaches run (fun process => process.exit = .exited) 0 fair.exits
    (fun process => stepsLeft process.exit) Nat.lt_wfRel.wf shortens keeps fun alive later _ =>
      exit_goes_on faithful bounded related fair (fun time => alive time (Nat.zero_le _)) later
  exact ⟨time, ended⟩

end Waiting

section Database

variable {orphans : Multiset Int} {database : Database}

/-- Whatever the clients send and however the threads take turns: `exit_nicely` comes to its end. Then no call to
the database is under way, and the files hold all that was ever done. -/
theorem shutdown_completes (holds : DatabaseHolds orphans start database) (bounded : Bounded start)
    (run : EndlessRun (Motion.Moves databaseCall myjqlClose) ⟨Server.started database codes streams, .waiting⟩)
    (fair : FairProcess run) : ∃ time, (run.state time).exit = .exited ∧ (run.state time).server.running = [] ∧
      ∀ memory, ∃ again left, myjqlInit (filesOf (run.state time).server.store) memory = some ((), again) ∧
        DatabaseHolds left (replay start ((storeLog (run.state time).server.trace).map Prod.fst)) again := by
  obtain ⟨time, ended⟩ := process_ends (database_faithful orphans) bounded holds fair
  have safe := safe_process (database_faithful orphans) bounded holds (process_reaches run time)
  rcases safe.stands with opened | closed
  · have phase := opened.phase
    rw [ended] at phase
    rcases phase with waits | ⟨inside, _⟩
    · cases waits
    · cases inside
  · obtain ⟨_, _, before, _, _, _, same, represented⟩ := closed.kept
    refine ⟨time, ended, vacant_running safe.disciplined closed.vacant, fun memory => ?_⟩
    rw [same]
    obtain ⟨again, stale, ran, holdsAgain⟩ := database_reopened represented memory
    exact ⟨again, _, ran, holdsAgain⟩

end Database

theorem stopping_run {server : Server Client Store} (free : server.owner = none) :
    ∃ (run : EndlessRun (Motion.Moves backend close) ⟨server, .waiting⟩) (last : Server Client Store),
      last.trace = server.trace ++ [.closed] ∧ ∀ time, 5 ≤ time → run.state time = ⟨last, .exited⟩ := by
  have enters : exitNicely close ⟨server, .waiting⟩ = some ⟨{ server with owner := some .exitNicely }, .inside⟩ :=
    if_pos (Option.isNone_iff_eq_none.mpr free)
  have moves : ∀ process after : Process Client Store, exitNicely close process = some after →
      Motion.Moves backend close .exit process after := fun _ _ exits => exits
  let last : Server Client Store :=
    { { server with owner := some .exitNicely, store := close server.store }.tell [.closed] with owner := none }
  have stays : Motion.Moves backend close .ended ⟨last, .exited⟩ ⟨last, .exited⟩ := ⟨rfl, rfl⟩
  refine ⟨.behind (moves _ _ enters) (.behind (moves _ _ rfl) (.behind (moves _ _ rfl) (.behind (moves _ _ rfl)
    (.behind (moves _ ⟨last, .exited⟩ rfl) (.staying stays))))), last, rfl, fun time later => ?_⟩
  obtain ⟨rest, rfl⟩ := Nat.exists_eq_add_of_le' later
  rfl

theorem ended_fair {first last : Process Client Store} {run : EndlessRun (Motion.Moves backend close) first}
    {steps : Nat} (exited : last.exit = .exited) (ends : ∀ time, steps ≤ time → run.state time = last) :
    FairProcess run := by
  refine ⟨fun client able => ?_, fun able => ?_⟩
  · obtain ⟨time, later, alive, _⟩ := able steps
    rw [ends time later] at alive
    exact absurd exited alive
  · obtain ⟨time, later, able⟩ := able steps
    rw [ends time later] at able
    simp only [exitNicely, exited, Option.isSome_none, Bool.false_eq_true] at able

theorem ended_stays {first : Process Client Store} {run : EndlessRun (Motion.Moves backend close) first} {time : Nat}
    (ended : (run.state time).exit = .exited) : ∀ later, time ≤ later → run.state later = run.state time := by
  refine run_keeps run (fun process => process = run.state time) rfl fun later _ same => ?_
  have moves := run.steps later
  rw [same] at moves
  cases label : run.label later with
  | thread choice =>
      rw [label] at moves
      exact absurd ended moves.1
  | exit =>
      rw [label] at moves
      have shorter := exit_shortens moves
      rw [ended] at shorter
      exact absurd shorter (Nat.not_lt_zero _)
  | ended =>
      rw [label] at moves
      exact moves.2

theorem threads_move {server last : Server Client Store}
    (ran : Relation.ReflTransGen (Step Steady backend) server last) :
    Relation.ReflTransGen (fun process after => ∃ motion, Motion.Moves backend close motion process after)
      ⟨server, .waiting⟩ ⟨last, .waiting⟩ := by
  induction ran with
  | refl => exact .refl
  | tail _ step ih =>
      obtain ⟨choice, turn⟩ := step
      exact ih.tail ⟨.thread choice, by simp, turn, rfl⟩

/-- The update of a client is carried out and acknowledged, and then the server is stopped: the files hold it. -/
theorem shutdown_completes_update : ∃ (run : EndlessRun (Motion.Moves databaseCall myjqlClose)
      ⟨updating newDatabase, .waiting⟩) (time : Nat) (again : Database) (left : Multiset Int),
    FairProcess run ∧ (run.state time).exit = .exited ∧ (run.state time).server.running = [] ∧
      .replied () 0 (intBytes 1) ∈ (run.state time).server.trace ∧
      myjqlInit (filesOf (run.state time).server.store) blankDatabase = some ((), again) ∧
      DatabaseHolds left (replay noBindings [.set [107] [1]]) again := by
  obtain ⟨server, ran, here, alone, store, turn, trace⟩ : ∃ server,
      (updating newDatabase).run Steady databaseCall (arrives ++ [.enter (), .perform ()]) = some server ∧
        (server.threads ()).routine = .running (.set [107] [1]) (fun _ => .leave (sendCode 1 (.again 1))) ∧
        server.running = [()] ∧ server.store = newDatabase ∧ (server.threads ()).turn = 0 ∧
        server.trace = [.sent () 0] := ⟨_, rfl, rfl, rfl, rfl, rfl, rfl⟩
  obtain ⟨answer, after, _, set, _⟩ := database_faithful 0 noBindings (.set [107] [1]) newDatabase new_database_opened.2
  have goes : ∀ server : Server Unit Database, Steady (.move () .go) server :=
    fun _ => ⟨⟨trivial, trivial, trivial⟩, trivial⟩
  obtain ⟨acknowledged, onward, free, told⟩ := acknowledges here alone (store ▸ set)
    (fun _ => ⟨⟨trivial, trivial, trivial⟩, trivial⟩) (fun _ => ⟨⟨trivial, trivial, trivial⟩, trivial⟩) goes
  rw [turn, trace] at told
  obtain ⟨stopping, last, closes, stops⟩ := @stopping_run Unit Database _ databaseCall myjqlClose acknowledged free
  obtain ⟨run, steps, same⟩ := run_continues (threads_move ((run_steps ran).trans onward)) stopping
  have ends : ∀ time, steps + 5 ≤ time → run.state time = ⟨last, .exited⟩ := by
    intro time later
    obtain ⟨rest, rfl⟩ := Nat.exists_eq_add_of_le later
    rw [Nat.add_assoc, same, stops _ (by omega)]
  have fair : FairProcess run := ended_fair rfl ends
  obtain ⟨time, exited, quiet, files⟩ := shutdown_completes new_database_opened.2 nothing_bounded run fair
  obtain ⟨again, left, opens, holds⟩ := files blankDatabase
  have final : run.state time = ⟨last, .exited⟩ :=
    (ended_stays exited (time + (steps + 5)) (by omega)).symm.trans (ends _ (by omega))
  have whole : (run.state time).server.trace = [.sent () 0] ++ [.performed () 0 (.set [107] [1]) answer] ++
      [.replied () 0 (intBytes 1)] ++ [.closed] := by
    rw [final, closes, told]
  rw [whole] at holds
  refine ⟨run, time, again, left, fair, exited, quiet, ?_, opens, holds⟩
  rw [whole]
  simp

end MyJQL.ShutdownProgress
