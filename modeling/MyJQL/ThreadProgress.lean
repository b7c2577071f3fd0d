import MyJQL.FairRuns
import MyJQL.ClientService

/-!
# What the threads come to

A thread makes finitely many steps in one turn, and it makes one turn for each request. It never waits
for a thread that waits itself. So in a run that is fair to all threads, a thread whose client has sent
everything has left its loop in the end, or it waits for more with nothing left to receive.
-/

namespace MyJQL.ThreadProgress

open MyJQL.FairRuns
open MyJQL.StateProgram
open MyJQL.KeyValueStore
open MyJQL.ServerModel
open MyJQL.ServerProtocol
open MyJQL.ServerSystem
open MyJQL.ServerThreads
open MyJQL.ThreadSafety
open MyJQL.RequestService
open MyJQL.ClientService

set_option autoImplicit false

/-- What is left to do after a step within a turn. -/
inductive Descends : Routine → Routine → Prop
  | recv {buffer : Bytes} {count : Int} {next : Bytes → Routine} (bytes : Bytes) :
      Descends (next bytes) (.recv buffer count next)
  | recvNull {count : Int} {next : Routine} : Descends next (.recvNull count next)
  | malloc {length : Int} {next : Option Bytes → Routine} (fresh : Option Bytes) :
      Descends (next fresh) (.malloc length next)
  | terminate {buffer : Bytes} {index : Int} {next : Bytes → Routine} (bytes : Bytes) :
      Descends (next bytes) (.terminate buffer index next)
  | enter {next : Routine} : Descends next (.enter next)
  | perform {raw : RawCall} {next : StoreAnswer → Routine} (call : StoreCall) :
      Descends (.running call next) (.perform raw next)
  | running {call : StoreCall} {next : StoreAnswer → Routine} (answer : StoreAnswer) :
      Descends (next answer) (.running call next)
  | leave {next : Routine} : Descends next (.leave next)
  | send {buffer : Bytes} {count : Int} {next : Routine} : Descends next (.send buffer count next)
  | stop {smaller larger : Routine} (stopped : smaller = .exited ∨ smaller = .undefined)
      (going : larger ≠ .exited ∧ larger ≠ .undefined) : Descends smaller larger

theorem descends_exited : Acc Descends .exited := by
  refine ⟨_, fun smaller descends => ?_⟩
  cases descends with
  | stop _ going => exact absurd rfl going.1

theorem descends_undefined : Acc Descends .undefined := by
  refine ⟨_, fun smaller descends => ?_⟩
  cases descends with
  | stop _ going => exact absurd rfl going.2

theorem descends_stopped {routine : Routine} (stopped : routine = .exited ∨ routine = .undefined) :
    Acc Descends routine := by
  rcases stopped with rfl | rfl
  · exact descends_exited
  · exact descends_undefined

theorem descends_running {call : StoreCall} {next : StoreAnswer → Routine}
    (behind : ∀ answer, Acc Descends (next answer)) : Acc Descends (.running call next) := by
  refine ⟨_, fun smaller descends => ?_⟩
  cases descends with
  | running answer => exact behind answer
  | stop stopped _ => exact descends_stopped stopped

/-- The induction is on the routine: a step comes to a part of it, or to the end. -/
theorem descends_well_founded : WellFounded Descends := by
  refine ⟨fun routine => ?_⟩
  induction routine with
  | exited => exact descends_exited
  | undefined => exact descends_undefined
  | running call next ih => exact descends_running ih
  | again code =>
      refine ⟨_, fun smaller descends => ?_⟩
      cases descends with
      | stop stopped _ => exact descends_stopped stopped
  | recv buffer count next ih =>
      refine ⟨_, fun smaller descends => ?_⟩
      cases descends with
      | recv bytes => exact ih bytes
      | stop stopped _ => exact descends_stopped stopped
  | recvNull count next ih =>
      refine ⟨_, fun smaller descends => ?_⟩
      cases descends with
      | recvNull => exact ih
      | stop stopped _ => exact descends_stopped stopped
  | malloc length next ih =>
      refine ⟨_, fun smaller descends => ?_⟩
      cases descends with
      | malloc fresh => exact ih fresh
      | stop stopped _ => exact descends_stopped stopped
  | terminate buffer index next ih =>
      refine ⟨_, fun smaller descends => ?_⟩
      cases descends with
      | terminate bytes => exact ih bytes
      | stop stopped _ => exact descends_stopped stopped
  | enter next ih =>
      refine ⟨_, fun smaller descends => ?_⟩
      cases descends with
      | enter => exact ih
      | stop stopped _ => exact descends_stopped stopped
  | perform call next ih =>
      refine ⟨_, fun smaller descends => ?_⟩
      cases descends with
      | perform call => exact descends_running ih
      | stop stopped _ => exact descends_stopped stopped
  | leave next ih =>
      refine ⟨_, fun smaller descends => ?_⟩
      cases descends with
      | leave => exact ih
      | stop stopped _ => exact descends_stopped stopped
  | send buffer count next ih =>
      refine ⟨_, fun smaller descends => ?_⟩
      cases descends with
      | send => exact ih
      | stop stopped _ => exact descends_stopped stopped

inductive Onward (thread after : Thread) : Prop
  | turn (code : Int) (here : thread.routine = .again code) (turns : after.turn = thread.turn + 1)
  | within (same : after.turn = thread.turn) (descends : Descends after.routine thread.routine)

theorem moved_onward {thread after : Thread} {move : Move} {bytes : Option Bytes}
    (moved : Moved thread move after bytes) : Onward thread after := by
  cases moved with
  | again here => exact .turn _ here rfl
  | receive here _ =>
      refine .within rfl ?_
      rw [here]
      exact .recv _
  | ended here _ =>
      refine .within rfl ?_
      rw [here]
      exact .recvNull
  | fault here _ =>
      refine .within rfl (.stop (.inl rfl) ?_)
      simp [here]
  | fail here =>
      refine .within rfl (.stop (.inl rfl) ⟨?_, ?_⟩)
      all_goals
        intro stopped
        rw [stopped] at here
        cases here
  | allocate here _ | null here _ =>
      refine .within rfl ?_
      rw [here]
      exact .malloc _
  | terminate here _ =>
      refine .within rfl ?_
      rw [here]
      exact .terminate _
  | send here _ =>
      refine .within rfl ?_
      rw [here]
      exact .send
  | overrun here _ | overread here _ =>
      refine .within rfl (.stop (.inr rfl) ?_)
      simp [here]

def stepOf {Client Store : Type} : Choice Client Store → Option Client
  | .send _ => none
  | .close _ => none
  | .move client _ => some client
  | .enter client => some client
  | .perform client => some client
  | .finish client => some client
  | .clash client _ _ => some client
  | .leave client => some client

section Steps

variable {Client Store : Type} [DecidableEq Client] {backend : StoreCall → Program Store StoreAnswer}
  {server after : Server Client Store} {choice : Choice Client Store} {client : Client}

theorem thread_steps (taken : Taken backend server choice after) (own : stepOf choice = some client) :
    Onward (server.threads client) (after.threads client) := by
  cases taken with
  | send _ | close _ => cases own
  | move moved =>
      cases own
      rw [tell_threads, put_thread_self]
      exact moved_onward moved
  | enter here _ =>
      cases own
      refine .within (by rw [resume_eq_put, put_thread_self]) ?_
      rw [resume_eq_put, put_thread_self, here]
      exact .enter
  | perform here _ =>
      cases own
      refine .within (by rw [resume_eq_put, put_thread_self]) ?_
      rw [resume_eq_put, put_thread_self, here]
      exact .perform _
  | beyond here _ =>
      cases own
      refine .within (by rw [resume_eq_put, put_thread_self]) ?_
      rw [resume_eq_put, put_thread_self, here]
      exact .stop (.inr rfl) (by simp)
  | finish here _ _ | clash here _ =>
      cases own
      refine .within ?_ ?_
      · simp [Server.answered]
      · simp only [Server.answered, resume_eq_put, tell_threads, put_thread_self, here]
        exact .running _
  | leave here =>
      cases own
      refine .within (by rw [resume_eq_put, put_thread_self]) ?_
      rw [resume_eq_put, put_thread_self, here]
      exact .leave

theorem thread_waits (taken : Taken backend server choice after) (other : stepOf choice ≠ some client) :
    (after.threads client).turn = (server.threads client).turn ∧
      (after.threads client).routine = (server.threads client).routine := by
  cases taken with
  | @send sender _ _ _ =>
      by_cases own : client = sender
      · subst own
        rw [tell_threads, put_thread_self]
        exact ⟨rfl, rfl⟩
      · rw [tell_threads, put_thread_other own]
        exact ⟨rfl, rfl⟩
  | @close sender _ =>
      by_cases own : client = sender
      · subst own
        rw [put_thread_self]
        exact ⟨rfl, rfl⟩
      · rw [put_thread_other own]
        exact ⟨rfl, rfl⟩
  | move _ | enter _ _ | perform _ _ | beyond _ _ | finish _ _ _ | clash _ _ | leave _ =>
      have own : client ≠ _ := fun same => other (congrArg some same.symm)
      simp [Server.answered, own]

theorem owner_taken (taken : Taken backend server choice after) :
    after.owner = server.owner ∨ server.owner = none ∨ after.owner = none := by
  cases taken with
  | enter _ free => exact .inr (.inl free)
  | leave _ => exact .inr (.inr rfl)
  | send _ | close _ | move _ | perform _ _ | beyond _ _ | finish _ _ _ | clash _ _ => exact .inl rfl

theorem exit_taken (taken : Taken backend server choice after) (outside : server.owner ≠ some .exitNicely) :
    after.owner ≠ some .exitNicely := by
  cases taken with
  | enter _ _ => simp
  | leave _ => simp
  | send _ | close _ | move _ | perform _ _ | beyond _ _ | finish _ _ _ | clash _ _ => exact outside

theorem no_exit {allows : Choice Client Store → Server Client Store → Prop} {store : Store} {codes : Client → Int}
    {streams : Client → List Bytes}
    (run : Relation.ReflTransGen (Step allows backend) (Server.started store codes streams) server) :
    server.owner ≠ some .exitNicely := by
  induction run with
  | refl => simp [Server.started]
  | tail _ step ih =>
      obtain ⟨choice, _, took⟩ := step
      exact exit_taken (take_taken took) ih

theorem sent_taken (taken : Taken backend server choice after) (sent : server.unsent client = []) :
    after.unsent client = [] := by
  cases taken with
  | @send sender _ _ unsent =>
      by_cases own : client = sender
      · subst own
        rw [sent] at unsent
        cases unsent
      · rw [tell_unsent, put_unsent]
        exact (Function.update_of_ne own _ _).trans sent
  | close _ | move _ | enter _ _ | perform _ _ | beyond _ _ | finish _ _ _ | clash _ _ | leave _ => exact sent

end Steps

/-- A thread can make a move that is no error, and a `recv` of all that it was asked for; there is a byte for it
unless it is hungry. -/
def CanMove (hungry : Prop) (thread : Thread) : Prop :=
  ∃ move, (thread.move move).isSome ∧ move ≠ .fail ∧
    ∀ count, move = .receive count → count = thread.asked ∧ (thread.incoming = [] → hungry)

/-- The last request ends in a text without bytes. -/
def EndsEmpty (requests : List Request) : Prop := ∃ request ∈ requests.getLast?, request.LastEmpty

section Moves

variable {hungry lastEmpty : Prop} {thread : Thread} {goal : Routine → Prop} {rest behind : Bytes}

theorem can_go (goes : (thread.move .go).isSome) : CanMove hungry thread := ⟨.go, goes, by simp, by simp⟩

theorem can_terminate {buffer : Bytes} {index : Int} {next : Bytes → Routine}
    (here : thread.routine = .terminate buffer index next) : CanMove hungry thread := by
  by_cases inside : 0 ≤ index ∧ index.toNat < buffer.length
  · apply can_go
    simp only [Thread.move, here, if_pos inside, Option.isSome_some]
  · apply can_go
    simp only [Thread.move, here, if_neg inside, Option.isSome_some]

theorem takes_can_move (takes : Takes lastEmpty goal thread.routine rest)
    (arrived : thread.incoming = rest ++ behind) :
    goal thread.routine ∨ CanMove (lastEmpty ∧ behind = []) thread := by
  generalize here : thread.routine = routine at takes
  cases takes with
  | here reached => exact .inl reached
  | @recv buffer first bytes count next asks room waits onward =>
      have asked : thread.asked = first.length := (asked_of_recv here).trans asks
      have enough : first.length ≤ thread.incoming.length := by
        rw [arrived, List.append_assoc, List.length_append]
        exact Nat.le_add_right _ _
      have delivers : thread.delivers first.length := ⟨asked.ge, enough, fun none => .inl (asked.trans none)⟩
      refine .inr ⟨.receive first.length, ?_, by simp, fun count same => ?_⟩
      · simp only [Thread.move, here, if_pos delivers, Option.isSome_some]
      · cases same
        refine ⟨asked.symm, fun nothing => ?_⟩
        obtain ⟨whole, last⟩ := List.append_eq_nil_iff.mp (arrived.symm.trans nothing)
        exact ⟨waits whole, last⟩
  | @malloc length bytes next allocable onward =>
      refine .inr ⟨.allocate (.replicate (length.toNat + 1) 0), ?_, by simp, by simp⟩
      simp only [Thread.move, here, allocated_allocable allocable, List.length_replicate, if_true, Option.isSome_some]
  | terminate inside onward => exact .inr (can_terminate here)

theorem speaks_can_move {request : Request} (speaks : Speaks request.Rests thread.routine rest) :
    thread.routine = .exited ∨ CanMove hungry thread := by
  generalize here : thread.routine = routine at speaks
  cases speaks with
  | here rests =>
      rcases rests_shape rests with exited | ⟨code, again⟩
      · exact .inl exited
      · refine .inr (can_go ?_)
        simp only [Thread.move, here.trans again, Option.isSome_some]
  | send whole onward =>
      refine .inr (can_go ?_)
      simp only [Thread.move, here, whole, Option.isSome_some]
  | terminate inside onward => exact .inr (can_terminate here)

theorem stream_of_nothing {requests : List Request} (nothing : streamOf requests = []) : requests = [] := by
  cases requests with
  | nil => rfl
  | cons request back =>
      rw [streamOf, List.flatMap_cons] at nothing
      cases request with
      | call made => cases made <;> exact absurd (List.append_eq_nil_iff.mp nothing).1 (int_bytes_some _ _)
      | unknown code =>
          have size := congrArg List.length (List.append_eq_nil_iff.mp nothing).1
          rw [Request.bytes, int_bytes_length] at size
          cases size

/-- With nothing to come from its client a thread has left its loop, waits for more, is at the critical
section, or can move. -/
theorem stage_can_move {failing : Prop} {requests : List Request} {tail said : Bytes} {served : List Served}
    (stage : Stage failing requests tail thread.incoming thread.turn thread.routine served said) :
    thread.routine = .exited ∨ ((∃ code, thread.routine = instanceThread code) ∧ thread.incoming = []) ∨
      Guarded thread.routine ∨ CanMove (EndsEmpty requests) thread := by
  cases stage with
  | awaiting code here all goesOn place nothing told => exact .inr (.inl ⟨⟨code, here⟩, nothing⟩)
  | reading request back rest split place takes part left told =>
      rcases takes_can_move takes left with decided | moves
      · generalize here : thread.routine = routine at decided
        cases decided with
        | refused _ speaks =>
            rw [← here] at speaks
            rcases speaks_can_move speaks with exited | moves
            · exact .inl (here.symm.trans exited)
            · exact .inr (.inr (.inr moves))
        | accepted _ _ => exact .inr (.inr (.inl (.inl ⟨_, rfl⟩)))
      · obtain ⟨move, goes, noError, receives⟩ := moves
        refine .inr (.inr (.inr ⟨move, goes, noError, fun count same => ?_⟩))
        obtain ⟨full, hungry⟩ := receives count same
        refine ⟨full, fun nothing => ⟨request, ?_, (hungry nothing).1⟩⟩
        obtain rfl := stream_of_nothing (List.append_eq_nil_iff.mp (hungry nothing).2).1
        rw [split]
        exact List.getLast?_concat
  | asking request back call raw next split place here asked asks left told =>
      rcases here with here | here
      · exact .inr (.inr (.inl (.inr (.inl ⟨raw, next, here⟩))))
      · exact .inr (.inr (.inl (.inr (.inr (.inl ⟨call, next, here⟩)))))
  | replying front request answer back rest unsaid split last place here speaks left told =>
      rcases here with here | here
      · exact .inr (.inr (.inl (.inr (.inr (.inr ⟨rest, here⟩)))))
      · rw [← here] at speaks
        rcases speaks_can_move speaks with exited | moves
        · exact .inl exited
        · exact .inr (.inr (.inr moves))
  | ended _ here _ _ _ => exact .inl here

end Moves

section Fair

variable {Client Store : Type} [DecidableEq Client] {represents : Bindings → Store → Prop}
  {backend : StoreCall → Program Store StoreAnswer} {start : Bindings} {server first : Server Client Store}
  {allows : Choice Client Store → Server Client Store → Prop} {client : Client}

def Turn (allows : Choice Client Store → Server Client Store → Prop) (backend : StoreCall → Program Store StoreAnswer)
    (choice : Choice Client Store) (server after : Server Client Store) : Prop :=
  allows choice server ∧ server.take backend choice = some after

/-- The thread can go on, and not only by an error of its socket. -/
def Able (allows : Choice Client Store → Server Client Store → Prop) (backend : StoreCall → Program Store StoreAnswer)
    (client : Client) (server : Server Client Store) : Prop :=
  ∃ choice, stepOf choice = some client ∧ choice ≠ .move client .fail ∧ allows choice server ∧
    (server.take backend choice).isSome

def FairToAll (run : EndlessRun (Turn allows backend) first) : Prop :=
  ∀ client, run.Fair (fun choice => stepOf choice = some client) (Able allows backend client)

/-- The conditions of a run rule out no step of a thread that is without fault; where they are patient, a `recv`
may have to wait for a byte or the end of the stream. -/
def Liberal (patient : Prop) (allows : Choice Client Store → Server Client Store → Prop) : Prop :=
  ∀ choice server, stepOf choice ≠ none → FullLength choice server → InRange choice server →
    (∀ client, choice ≠ .move client .fail) → (patient → Awaited choice server) → allows choice server

theorem able_inside {patient : Prop} (faithful : Faithful represents backend) (liberal : Liberal patient allows)
    (disciplined : Disciplined server) (stored : Stored represents start server)
    (owns : server.owner = some (.instanceThread client)) : Able allows backend client server := by
  have standing := disciplined.standing client
  rw [owns, decide_eq_true rfl] at standing
  generalize here : (server.threads client).routine = routine at standing
  generalize inside : true = flag at standing
  cases standing with
  | sound sound =>
      cases sound with
      | @perform call next _ _ =>
          refine ⟨.perform client, rfl, by simp, ?_, ?_⟩
          · exact liberal _ _ (by simp [stepOf]) trivial trivial (by simp) fun _ => trivial
          · cases within : call.storeCall <;> simp [Server.take, here, within]
      | leave _ =>
          refine ⟨.leave client, rfl, by simp, ?_, ?_⟩
          · exact liberal _ _ (by simp [stepOf]) trivial trivial (by simp) fun _ => trivial
          · simp only [Server.take, here, Option.isSome_some]
      | exited | again _ | recv _ _ | malloc _ _ | terminate _ _ | enter _ | send _ _ => cases inside
  | @running call next _ _ =>
      have alone := disciplined_alone disciplined here
      obtain ⟨answer, store, _, ran, _⟩ := faithful _ call _ stored.stored
      refine ⟨.finish client, rfl, by simp, ?_, ?_⟩
      · exact liberal _ _ (by simp [stepOf]) trivial trivial (by simp) fun _ => trivial
      · simp only [Server.take, here, if_pos alone, ran, Option.isSome_some]
  | noBuffer never => exact never.elim

def AtRest (server : Server Client Store) (client : Client) : Prop :=
  (server.threads client).routine = .exited ∨
    ((∃ code, (server.threads client).routine = instanceThread code) ∧ (server.threads client).incoming = [] ∧
      server.unsent client = [])

/-- Outside of the critical section a thread can go on that has not left its loop, nor waits for a request. -/
theorem able_outside {failing patient : Prop} {requests : List Request} {tail said : Bytes} {served : List Served}
    (liberal : Liberal patient allows) (fed : patient → ¬EndsEmpty requests) (disciplined : Disciplined server)
    (stage : Stage failing requests tail (server.threads client).incoming (server.threads client).turn
      (server.threads client).routine served said)
    (allocable : ∀ length next, (server.threads client).routine = .malloc length next → Allocable length)
    (free : server.owner = none) (going : (server.threads client).routine ≠ .exited)
    (busy : ¬((∃ code, (server.threads client).routine = instanceThread code) ∧
      (server.threads client).incoming = [])) : Able allows backend client server := by
  rcases stage_can_move stage with exited | waits | guarded | ⟨move, moves, noError, receives⟩
  · exact absurd exited going
  · exact absurd waits busy
  · have standing := disciplined.standing client
    rw [free, decide_eq_false (by simp)] at standing
    rcases guarded with ⟨next, here⟩ | ⟨call, next, here⟩ | ⟨call, next, here⟩ | ⟨next, here⟩
    · refine ⟨.enter client, rfl, by simp, ?_, ?_⟩
      · exact liberal _ _ (by simp [stepOf]) trivial trivial (by simp) fun _ => trivial
      · simp only [Server.take, here, free, Option.isNone_none, if_true, Option.isSome_some]
    · rw [here] at standing
      have inside := (sound_perform (standing_sound standing (by simp [Pauses]))).1
      cases inside
    · rw [here] at standing
      have inside := (standing_running standing).1
      cases inside
    · rw [here] at standing
      have inside := (sound_leave (standing_sound standing (by simp [Pauses]))).1
      cases inside
  · refine ⟨.move client move, rfl, by simpa using noError, liberal _ _ (by simp [stepOf]) ?_ ?_ ?_ ?_, ?_⟩
    · cases move with
      | receive count => exact (receives count rfl).1
      | fail | allocate _ | go => trivial
    · cases move with
      | allocate fresh => exact allocable
      | receive _ | fail | go => trivial
    · intro other same
      cases same
      exact noError rfl
    · intro patient
      cases move with
      | receive count => exact .inl fun nothing => fed patient ((receives count rfl).2 nothing)
      | fail | allocate _ | go => trivial
    · obtain ⟨⟨after, bytes⟩, moved⟩ := Option.isSome_iff_exists.mp moves
      cases bytes <;> simp only [Server.take, moved, Option.isSome_some]

theorem inside_descends {after : Server Client Store} {choice : Choice Client Store} (disciplined : Disciplined server)
    (owns : server.owner = some (.instanceThread client)) (taken : Taken backend server choice after)
    (own : stepOf choice = some client) :
    Descends (after.threads client).routine (server.threads client).routine := by
  cases thread_steps taken own with
  | within _ descends => exact descends
  | turn code here _ =>
      have standing := disciplined.standing client
      rw [owns, decide_eq_true rfl, here] at standing
      cases standing with
      | sound sound => cases sound

/-- The critical section becomes free again and again: whoever is in it can go on, and leaves it after finitely
many steps. -/
theorem section_opens {patient : Prop} (run : EndlessRun (Turn allows backend) first) (fair : FairToAll run)
    (faithful : Faithful represents backend) (liberal : Liberal patient allows)
    (safe : ∀ time, Disciplined (run.state time) ∧ Stored represents start (run.state time))
    (noExit : ∀ time, (run.state time).owner ≠ some .exitNicely) (early : Nat) :
    ∃ time, early ≤ time ∧ (run.state time).owner = none := by
  by_contra never
  have occupied : ∀ time, early ≤ time → (run.state time).owner ≠ none :=
    fun time later free => never ⟨time, later, free⟩
  obtain ⟨client, owns⟩ : ∃ client, (run.state early).owner = some (.instanceThread client) := by
    cases owner : (run.state early).owner with
    | none => exact absurd owner (occupied early (le_refl _))
    | some owner' =>
        cases owner' with
        | instanceThread client => exact ⟨client, rfl⟩
        | exitNicely => exact absurd owner (noExit early)
  have stays := run_keeps run (fun server => server.owner = some (.instanceThread client)) owns
    fun time later same => by
      rcases owner_taken (take_taken (run.steps time).2) with kept | free | free
      · exact kept.trans same
      · exact absurd free (occupied time later)
      · exact absurd free (occupied (time + 1) (by omega))
  obtain ⟨_, _, impossible⟩ := fair_reaches run (fun _ => False) early (fair client)
    (fun server => (server.threads client).routine) descends_well_founded
    (fun time later _ own => inside_descends (safe time).1 (stays time later) (take_taken (run.steps time).2) own)
    (fun time _ _ other => (thread_waits (take_taken (run.steps time).2) other).2)
    (fun _ later behind =>
      ⟨later, le_refl _, able_inside faithful liberal (safe later).1 (safe later).2 (stays later behind)⟩)
  exact impossible

theorem stage_again {failing : Prop} {requests : List Request} {tail ahead said : Bytes} {turn : Nat} {code : Int}
    {served : List Served} (stage : Stage failing requests tail ahead turn (.again code) served said) :
    turn < requests.length := by
  cases stage with
  | awaiting code here all goesOn place nothing told => cases here
  | reading request back rest split place takes part left told =>
      rw [split, place, List.length_append, List.length_map, List.length_cons]
      omega
  | asking request back call raw next split place here asked asks left told =>
      rcases here with here | here <;> cases here
  | replying front request answer back rest unsaid split last place here speaks left told =>
      rw [split, place, last]
      simp
  | ended _ here _ _ _ => cases here

/-- A thread reaches what it can go on to reach: the measure is the turns and then the steps that are left. -/
theorem thread_reaches {failing patient : Prop} {requests : List Request} {tail : Bytes}
    (run : EndlessRun (Turn allows backend) first) (fair : FairToAll run) (faithful : Faithful represents backend)
    (liberal : Liberal patient allows)
    (safe : ∀ time, Disciplined (run.state time) ∧ Stored represents start (run.state time))
    (noExit : ∀ time, (run.state time).owner ≠ some .exitNicely)
    (serving : ∀ time, ∃ served, Serving failing requests tail (run.state time) client served) (early : Nat)
    (goal : Server Client Store → Prop)
    (goesOn : ∀ time, early ≤ time → (run.state time).owner = none → ¬goal (run.state time) →
      Able allows backend client (run.state time)) : ∃ time, early ≤ time ∧ goal (run.state time) := by
  refine fair_reaches run goal early (fair client)
    (fun server => (requests.length - (server.threads client).turn, (server.threads client).routine))
    (WellFounded.prod_lex Nat.lt_wfRel.wf descends_well_founded) ?_ ?_ ?_
  · intro time _ _ own
    cases thread_steps (take_taken (run.steps time).2) own with
    | turn code here turns =>
        obtain ⟨served, serving⟩ := serving time
        have stage := serving.stage
        rw [here] at stage
        have more := stage_again stage
        have fewer : requests.length - ((run.state (time + 1)).threads client).turn <
            requests.length - ((run.state time).threads client).turn := by
          rw [turns]
          omega
        exact .left _ _ fewer
    | within same descends =>
        rw [same]
        exact .right _ descends
  · intro time _ _ other
    obtain ⟨turn, routine⟩ := thread_waits (take_taken (run.steps time).2) other
    rw [turn, routine]
  · intro going later behind
    obtain ⟨time, beyond, free⟩ := section_opens run fair faithful liberal safe noExit later
    exact ⟨time, beyond, goesOn time (le_trans behind beyond) free (going time (le_trans behind beyond))⟩

theorem comes_to_rest {failing patient : Prop} {requests : List Request} {tail : Bytes}
    (run : EndlessRun (Turn allows backend) first) (fair : FairToAll run) (faithful : Faithful represents backend)
    (liberal : Liberal patient allows) (fed : patient → ¬EndsEmpty requests)
    (safe : ∀ time, Disciplined (run.state time) ∧ Stored represents start (run.state time))
    (noExit : ∀ time, (run.state time).owner ≠ some .exitNicely)
    (serving : ∀ time, ∃ served, Serving failing requests tail (run.state time) client served) (early : Nat)
    (sent : (run.state early).unsent client = []) : ∃ time, early ≤ time ∧ AtRest (run.state time) client := by
  have stays := run_keeps run (fun server => server.unsent client = []) sent
    fun time _ sent => sent_taken (take_taken (run.steps time).2) sent
  refine thread_reaches run fair faithful liberal safe noExit serving early (AtRest · client) ?_
  intro time later free going
  obtain ⟨served, serving⟩ := serving time
  have sent := stays time later
  have stage := serving.stage
  rw [sent, List.flatten_nil, List.append_nil] at stage
  refine able_outside liberal fed (safe time).1 stage (fun length next here => serving_allocable serving here) free
    (fun exited => going (.inl exited)) fun waits => going (.inr ⟨waits.1, waits.2, sent⟩)

end Fair

end MyJQL.ThreadProgress
