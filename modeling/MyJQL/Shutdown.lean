import MyJQL.DatabasePersistence
import MyJQL.ThreadSafety

/-!
# Stopping the server

`exit_nicely` closes the database within the critical section, and gives the section back before the
process ends. A thread that is let in then works on a closed database, and acknowledges updates that no
file will ever hold. When none is let in, nothing that was acknowledged is lost.
-/

namespace MyJQL.Shutdown

open MyJQL.StateProgram
open MyJQL.KeyValueStore
open MyJQL.ServerModel
open MyJQL.ServerProtocol
open MyJQL.ServerSystem
open MyJQL.ServerThreads
open MyJQL.ThreadSafety
open MyJQL.DatabaseModel
open MyJQL.DatabaseRefinement
open MyJQL.DatabasePersistence

set_option autoImplicit false

/-- The status 1 is sent when the store was asked, or on the way out. The flag tells whether the store was
asked in this turn. -/
inductive Honest : Bool → Routine → Prop
  | exited {asked : Bool} : Honest asked .exited
  | undefined {asked : Bool} : Honest asked .undefined
  | again {asked : Bool} (code : Int) : Honest asked (.again code)
  | recv {asked : Bool} {buffer : Bytes} {count : Int} {next : Bytes → Routine}
      (behind : ∀ bytes, Honest asked (next bytes)) : Honest asked (.recv buffer count next)
  | recvNull {asked : Bool} {count : Int} {next : Routine} (behind : Honest asked next) :
      Honest asked (.recvNull count next)
  | malloc {asked : Bool} {length : Int} {next : Option Bytes → Routine}
      (behind : ∀ buffer, Honest asked (next buffer)) : Honest asked (.malloc length next)
  | terminate {asked : Bool} {buffer : Bytes} {index : Int} {next : Bytes → Routine}
      (behind : ∀ bytes, Honest asked (next bytes)) : Honest asked (.terminate buffer index next)
  | enter {asked : Bool} {next : Routine} (behind : Honest asked next) : Honest asked (.enter next)
  | perform {asked : Bool} {call : RawCall} {next : StoreAnswer → Routine}
      (behind : ∀ answer, Honest true (next answer)) : Honest asked (.perform call next)
  | running {asked : Bool} {call : StoreCall} {next : StoreAnswer → Routine}
      (behind : ∀ answer, Honest true (next answer)) : Honest asked (.running call next)
  | leave {asked : Bool} {next : Routine} (behind : Honest asked next) : Honest asked (.leave next)
  | send {asked : Bool} {buffer : Bytes} {count : Int} {next : Routine}
      (honest : asked = true ∨ next = .exited ∨ bufferPrefix buffer count ≠ some (intBytes 1))
      (behind : Honest asked next) : Honest asked (.send buffer count next)

section Routines

variable {asked : Bool} {code : Int}

theorem honest_recv_buffer {next : Bytes → Routine} (behind : ∀ buffer, Honest asked (next buffer)) :
    Honest asked (recvBuffer code next) := by
  refine .malloc fun buffer => ?_
  cases buffer with
  | some _ => exact .recv fun _ => .terminate behind
  | none => exact .recvNull (.terminate behind)

theorem honest_recv_code {next : Int → Routine} (behind : ∀ code, Honest asked (next code)) :
    Honest asked (recvCode code next) := .recv fun _ => behind _

theorem honest_refusal (other : bufferPrefix (intBytes code) intSize ≠ some (intBytes 1)) :
    Honest asked (sendCode code (.again code)) := .send (.inr (.inr other)) (.again code)

theorem honest_status {next : Routine} (behind : Honest true next) : Honest true (sendCode code next) :=
  .send (.inl rfl) behind

theorem honest_reply_get (value : Bytes) (answer : StoreAnswer) : Honest true (replyGet value answer) := by
  rw [replyGet]
  split_ifs
  · exact honest_status (.again 0)
  · exact honest_status (honest_status (.send (.inl rfl) (.terminate fun _ => .again _)))

theorem honest_serve_get (code : Int) : Honest false (serveGet code) := by
  refine honest_recv_code fun code => honest_recv_buffer fun key => ?_
  split_ifs
  · exact honest_refusal (by decide)
  · exact .malloc fun value => .enter (.perform fun answer => .leave (honest_reply_get _ answer))

theorem honest_serve_set (code : Int) : Honest false (serveSet code) := by
  refine honest_recv_code fun keyLen => honest_recv_buffer fun key => ?_
  refine honest_recv_code fun valueLen => honest_recv_buffer fun value => ?_
  split_ifs
  · exact honest_refusal (by decide)
  · exact honest_refusal (by decide)
  · exact .enter (.perform fun _ => .leave (honest_status (.again 1)))

theorem honest_serve_del (code : Int) : Honest false (serveDel code) := by
  refine honest_recv_code fun code => honest_recv_buffer fun key => ?_
  split_ifs
  · exact honest_refusal (by decide)
  · exact .enter (.perform fun _ => .leave (honest_status (.again 1)))

theorem honest_instance_thread (code : Int) : Honest false (instanceThread code) := by
  refine honest_recv_code fun code => ?_
  split_ifs
  · exact honest_serve_get code
  · exact honest_serve_set code
  · exact honest_serve_del code
  · exact .send (.inr (.inl rfl)) .exited
  · exact .again code

end Routines

section Acknowledged

variable {Client Store : Type} [DecidableEq Client] {backend : StoreCall → Program Store StoreAnswer}
  {server after : Server Client Store} {choice : Choice Client Store} {client : Client}

/-- The client has had an operation performed in this turn. -/
def Performed (trace : List (Event Client)) (client : Client) (turn : Nat) : Prop :=
  ∃ call answer, (client, turn, call, answer) ∈ operations trace

/-- Every status 1 that was sent to the client is for an operation, or for an exit request. -/
structure Accounted (server : Server Client Store) (client : Client) (asked : Bool) : Prop where
  honest : Honest asked (server.threads client).routine
  done : asked = true → Performed server.trace client (server.threads client).turn
  acknowledged : ∀ turn, .replied client turn (intBytes 1) ∈ server.trace → Performed server.trace client turn ∨
    (turn = (server.threads client).turn ∧ (server.threads client).routine = .exited)

omit [DecidableEq Client] in
theorem performed_append {trace events : List (Event Client)} {turn : Nat}
    (performed : Performed trace client turn) : Performed (trace ++ events) client turn := by
  obtain ⟨call, answer, member⟩ := performed
  exact ⟨call, answer, by rw [operations_append]; exact List.mem_append_left _ member⟩

omit [DecidableEq Client] in
theorem accounted_quiet {asked : Bool} {events : List (Event Client)} (accounted : Accounted server client asked)
    (routine : (after.threads client).routine = (server.threads client).routine)
    (turn : (after.threads client).turn = (server.threads client).turn) (trace : after.trace = server.trace ++ events)
    (silent : ∀ turn, .replied client turn (intBytes 1) ∉ events) : Accounted after client asked := by
  refine ⟨?_, fun already => ?_, fun place replied => ?_⟩
  · rw [routine]
    exact accounted.honest
  · rw [trace, turn]
    exact performed_append (accounted.done already)
  · rw [trace] at replied ⊢
    have earlier := (List.mem_append.mp replied).resolve_right (silent place)
    rcases accounted.acknowledged place earlier with performed | left
    · exact .inl (performed_append performed)
    · rw [routine, turn]
      exact .inr left

omit [DecidableEq Client] in
theorem accounted_going {asked already : Bool} {events : List (Event Client)}
    (accounted : Accounted server client asked) (going : (server.threads client).routine ≠ .exited)
    (honest : Honest already (after.threads client).routine)
    (done : already = true → Performed after.trace client (after.threads client).turn)
    (trace : after.trace = server.trace ++ events) (silent : ∀ turn, .replied client turn (intBytes 1) ∉ events) :
    Accounted after client already := by
  refine ⟨honest, done, fun place replied => ?_⟩
  rw [trace] at replied ⊢
  have earlier := (List.mem_append.mp replied).resolve_right (silent place)
  rcases accounted.acknowledged place earlier with performed | left
  · exact .inl (performed_append performed)
  · exact absurd left.2 going

omit [DecidableEq Client] in
theorem accounted_within {asked : Bool} {thread : Thread} (accounted : Accounted server client asked)
    (same : after.threads client = thread) (going : (server.threads client).routine ≠ .exited)
    (honest : Honest asked thread.routine) (turn : thread.turn = (server.threads client).turn)
    (trace : after.trace = server.trace) : Accounted after client asked := by
  refine accounted_going accounted going ?_ ?_ (trace.trans (List.append_nil _).symm) fun _ => List.not_mem_nil
  · rw [same]
    exact honest
  · rw [same, turn, trace]
    exact accounted.done

theorem accounted_moved {asked : Bool} {move : Move} {thread : Thread} {bytes : Option Bytes}
    (accounted : Accounted server client asked) (moved : Moved (server.threads client) move thread bytes) :
    ∃ already, Accounted ((server.put client thread).tell (replies client (server.threads client).turn bytes)) client
      already := by
  have honest := accounted.honest
  cases moved with
  | receive here _ =>
      rw [here] at honest
      cases honest with
      | recv behind =>
          exact ⟨asked, accounted_within accounted put_thread_self (by simp [here]) (behind _) rfl (List.append_nil _)⟩
  | ended here _ =>
      rw [here] at honest
      cases honest with
      | recvNull behind =>
          exact ⟨asked, accounted_within accounted put_thread_self (by simp [here]) behind rfl (List.append_nil _)⟩
  | fault here _ =>
      exact ⟨asked, accounted_within accounted put_thread_self (by simp [here]) .exited rfl (List.append_nil _)⟩
  | fail here =>
      refine ⟨asked, accounted_within accounted put_thread_self (fun exited => ?_) .exited rfl (List.append_nil _)⟩
      rw [exited] at here
      cases here
  | allocate here _ | null here _ =>
      rw [here] at honest
      cases honest with
      | malloc behind =>
          exact ⟨asked, accounted_within accounted put_thread_self (by simp [here]) (behind _) rfl (List.append_nil _)⟩
  | terminate here _ =>
      rw [here] at honest
      cases honest with
      | terminate behind =>
          exact ⟨asked, accounted_within accounted put_thread_self (by simp [here]) (behind _) rfl (List.append_nil _)⟩
  | overrun here _ | overread here _ =>
      exact ⟨asked, accounted_within accounted put_thread_self (by simp [here]) .undefined rfl (List.append_nil _)⟩
  | again here =>
      refine ⟨false, accounted_going accounted (by simp [here]) ?_ (by simp) rfl fun _ => List.not_mem_nil⟩
      rw [tell_threads, put_thread_self]
      exact honest_instance_thread _
  | @send buffer bytes count next here whole =>
      rw [here] at honest
      cases honest with
      | send honest behind =>
          refine ⟨asked, ?_, fun already => ?_, fun place replied => ?_⟩
          · rw [tell_threads, put_thread_self]
            exact behind
          · rw [tell_threads, put_thread_self, tell_trace, put_trace]
            exact performed_append (accounted.done already)
          · rw [tell_trace, put_trace] at replied ⊢
            rw [tell_threads, put_thread_self]
            rcases List.mem_append.mp replied with old | new
            · rcases accounted.acknowledged place old with performed | left
              · exact .inl (performed_append performed)
              · rw [here] at left
                cases left.2
            · cases List.mem_singleton.mp new
              rcases honest with already | leaves | other
              · exact .inl (performed_append (accounted.done already))
              · exact .inr ⟨rfl, leaves⟩
              · exact absurd whole other

theorem accounted_other {asked : Bool} {other : Client} {thread : Thread} {events : List (Event Client)}
    (accounted : Accounted server client asked) (different : client ≠ other)
    (threads : after.threads = Function.update server.threads other thread)
    (trace : after.trace = server.trace ++ events) (silent : ∀ turn, .replied client turn (intBytes 1) ∉ events) :
    Accounted after client asked := by
  have same : after.threads client = server.threads client := by
    rw [threads]
    exact Function.update_of_ne different _ _
  exact accounted_quiet accounted (by rw [same]) (by rw [same]) trace silent

theorem accounted_taken {asked : Bool} (accounted : Accounted server client asked)
    (taken : Taken backend server choice after) : ∃ already, Accounted after client already := by
  have honest := accounted.honest
  cases taken with
  | @send other request rest unsent =>
      by_cases own : client = other
      · subst own
        refine ⟨asked, accounted_quiet accounted ?_ ?_ rfl (by simp)⟩
        all_goals rw [tell_threads, put_thread_self]
      · exact ⟨asked, accounted_other accounted own rfl rfl (by simp)⟩
  | @close other unsent =>
      by_cases own : client = other
      · subst own
        refine ⟨asked, accounted_quiet accounted ?_ ?_ (List.append_nil _).symm fun _ => List.not_mem_nil⟩
        all_goals rw [put_thread_self]
      · exact ⟨asked, accounted_other accounted own rfl (List.append_nil _).symm fun _ => List.not_mem_nil⟩
  | @move other move thread bytes moved =>
      by_cases own : client = other
      · subst own
        exact accounted_moved accounted moved
      · refine ⟨asked, accounted_other accounted own rfl rfl fun turn => ?_⟩
        cases bytes <;> simp [replies, own]
  | @enter other next here free =>
      by_cases own : client = other
      · subst own
        rw [here] at honest
        cases honest with
        | enter behind => exact ⟨asked, accounted_within accounted put_thread_self (by simp [here]) behind rfl rfl⟩
      · exact ⟨asked, accounted_other accounted own rfl (List.append_nil _).symm fun _ => List.not_mem_nil⟩
  | @perform other call storeCall next here within =>
      by_cases own : client = other
      · subst own
        rw [here] at honest
        cases honest with
        | perform behind =>
            exact ⟨asked, accounted_within accounted put_thread_self (by simp [here]) (.running behind) rfl rfl⟩
      · exact ⟨asked, accounted_other accounted own rfl (List.append_nil _).symm fun _ => List.not_mem_nil⟩
  | @beyond other call next here outside =>
      by_cases own : client = other
      · subst own
        exact ⟨asked, accounted_within accounted put_thread_self (by simp [here]) .undefined rfl rfl⟩
      · exact ⟨asked, accounted_other accounted own rfl (List.append_nil _).symm fun _ => List.not_mem_nil⟩
  | @finish other call next answer store here _ _ | @clash other call next answer store here _ =>
      by_cases own : client = other
      · subst own
        rw [here] at honest
        cases honest with
        | running behind =>
            refine ⟨true, accounted_going accounted (by simp [here]) ?_ (fun _ => ⟨call, answer, ?_⟩) rfl (by simp)⟩
            · simp only [Server.answered, resume_eq_put, tell_threads, put_thread_self]
              exact behind answer
            · simp [Server.answered, operations, Event.operation]
      · exact ⟨asked, accounted_other accounted own rfl rfl (by simp)⟩
  | @leave other next here =>
      by_cases own : client = other
      · subst own
        rw [here] at honest
        cases honest with
        | leave behind => exact ⟨asked, accounted_within accounted put_thread_self (by simp [here]) behind rfl rfl⟩
      · exact ⟨asked, accounted_other accounted own rfl (List.append_nil _).symm fun _ => List.not_mem_nil⟩

omit [DecidableEq Client] in
theorem accounted_started (store : Store) (codes : Client → Int) (streams : Client → List Bytes) (client : Client) :
    Accounted (Server.started store codes streams) client false :=
  ⟨honest_instance_thread _, by simp, fun _ member => absurd member List.not_mem_nil⟩

end Acknowledged

section Threads

variable {Client Store : Type} [DecidableEq Client] {backend : StoreCall → Program Store StoreAnswer}
  {server after : Server Client Store} {choice : Choice Client Store}

def Vacant (server : Server Client Store) : Prop := ∀ client, server.owner ≠ some (.instanceThread client)

theorem vacant_quiet {client : Client} (disciplined : Disciplined server) (vacant : Vacant server)
    (inside : (∃ call next, (server.threads client).routine = .perform call next) ∨
      (∃ call next, (server.threads client).routine = .running call next) ∨
      ∃ next, (server.threads client).routine = .leave next) : False := by
  have standing := disciplined.standing client
  rw [decide_eq_false (vacant client)] at standing
  rcases inside with ⟨call, next, here⟩ | ⟨call, next, here⟩ | ⟨next, here⟩
  · rw [here] at standing
    cases (sound_perform (standing_sound standing (by simp [Pauses]))).1
  · rw [here] at standing
    cases (standing_running standing).1
  · rw [here] at standing
    cases (sound_leave (standing_sound standing (by simp [Pauses]))).1

theorem vacant_running (disciplined : Disciplined server) (vacant : Vacant server) : server.running = [] := by
  apply List.eq_nil_iff_forall_not_mem.mpr
  intro client runs
  obtain ⟨call, next, here⟩ := (disciplined.running client).mp runs
  exact vacant client (running_owns disciplined here)

theorem vacant_taken (disciplined : Disciplined server) (vacant : Vacant server)
    (taken : Taken backend server choice after) (outside : ∀ client, choice ≠ .enter client) :
    after.store = server.store ∧ after.owner = server.owner ∧
      ∃ events, after.trace = server.trace ++ events ∧ operations events = [] := by
  cases taken with
  | send _ => exact ⟨rfl, rfl, _, rfl, rfl⟩
  | close _ => exact ⟨rfl, rfl, [], (List.append_nil _).symm, rfl⟩
  | move _ => exact ⟨rfl, rfl, _, rfl, replies_quiet _ _ _⟩
  | @enter client _ _ _ => exact absurd rfl (outside client)
  | perform here _ | beyond here _ => exact (vacant_quiet disciplined vacant (.inl ⟨_, _, here⟩)).elim
  | finish here _ _ | clash here _ => exact (vacant_quiet disciplined vacant (.inr (.inl ⟨_, _, here⟩))).elim
  | leave here => exact (vacant_quiet disciplined vacant (.inr (.inr ⟨_, here⟩))).elim

/-- Only `exit_nicely` closes the database. -/
theorem closed_taken (taken : Taken backend server choice after) (closed : .closed ∈ after.trace) :
    .closed ∈ server.trace := by
  cases taken with
  | @move client move thread bytes _ =>
      rw [tell_trace, put_trace] at closed
      cases bytes <;> simpa [replies] using closed
  | send _ | finish _ _ _ | clash _ _ => simpa [Server.answered] using closed
  | close _ | enter _ _ | perform _ _ | beyond _ _ | leave _ => exact closed

theorem disciplined_owner (disciplined : Disciplined server) (threads : after.threads = server.threads)
    (running : after.running = server.running)
    (owners : ∀ client, after.owner = some (.instanceThread client) ↔ server.owner = some (.instanceThread client)) :
    Disciplined after := by
  refine ⟨fun client => ?_, fun client => ?_, running ▸ disciplined.once⟩
  · rw [threads, decide_eq_decide.mpr (owners client)]
    exact disciplined.standing client
  · rw [running, threads]
    exact disciplined.running client

end Threads

/-- No thread is let into the critical section once the database was closed, and none allocates a buffer for a
length that there is none for. -/
def KeptOut {Client Store : Type} : Choice Client Store → Server Client Store → Prop
  | .enter _, server => .closed ∉ server.trace
  | choice, server => InRange choice server

instance {Client Store : Type} [DecidableEq Client] :
    ∀ (choice : Choice Client Store) (server : Server Client Store), Decidable (KeptOut choice server)
  | .enter _, server => inferInstanceAs (Decidable (.closed ∉ server.trace))
  | .send client, server => inferInstanceAs (Decidable (InRange (.send client) server))
  | .close client, server => inferInstanceAs (Decidable (InRange (.close client) server))
  | .move client move, server => inferInstanceAs (Decidable (InRange (.move client move) server))
  | .perform client, server => inferInstanceAs (Decidable (InRange (.perform client) server))
  | .finish client, server => inferInstanceAs (Decidable (InRange (.finish client) server))
  | .clash client answer store, server => inferInstanceAs (Decidable (InRange (.clash client answer store) server))
  | .leave client, server => inferInstanceAs (Decidable (InRange (.leave client) server))

/-- Besides, no `send` fails: the signal could end the process before the database is closed. -/
def Undisturbed {Client Store : Type} (choice : Choice Client Store) (server : Server Client Store) : Prop :=
  InRange choice server ∧ Delivering choice server ∧ KeptOut choice server

instance {Client Store : Type} [DecidableEq Client] (choice : Choice Client Store) (server : Server Client Store) :
    Decidable (Undisturbed choice server) := inferInstanceAs (Decidable (_ ∧ _ ∧ _))

section Process

variable {Client Store : Type} [DecidableEq Client] {represents : Bindings → Store → Prop}
  {backend : StoreCall → Program Store StoreAnswer} {close : Store → Store} {start : Bindings}
  {server after : Server Client Store} {choice : Choice Client Store} {process next : Process Client Store}

omit [DecidableEq Client] in
theorem kept_out_in_range (kept : KeptOut choice server) : InRange choice server := by
  cases choice with
  | enter _ => trivial
  | send _ | close _ | move _ _ | perform _ | finish _ | clash _ _ _ | leave _ => exact kept

/-- Before the database is closed. -/
structure Open (represents : Bindings → Store → Prop) (start : Bindings) (process : Process Client Store) : Prop where
  phase : process.exit = .waiting ∨ (process.exit = .inside ∧ process.server.owner = some .exitNicely)
  stored : Stored represents start process.server
  unclosed : .closed ∉ process.server.trace

/-- What was closed is what all operations have led to, and there were no others. -/
structure Closed (represents : Bindings → Store → Prop) (close : Store → Store) (start : Bindings)
    (process : Process Client Store) : Prop where
  phase : process.exit ≠ .waiting ∧ process.exit ≠ .inside
  vacant : Vacant process.server
  kept : ∃ front back before, process.server.trace = front ++ .closed :: back ∧ operations back = [] ∧
    .closed ∉ front ∧ process.server.store = close before ∧
    represents (replay start ((storeLog process.server.trace).map Prod.fst)) before

structure Safe (represents : Bindings → Store → Prop) (close : Store → Store) (start : Bindings)
    (process : Process Client Store) : Prop where
  disciplined : Disciplined process.server
  accounted : ∀ client, ∃ asked, Accounted process.server client asked
  stands : Open represents start process ∨ Closed represents close start process

theorem safe_thread (faithful : Faithful represents backend) (bounded : Bounded start)
    (safe : Safe represents close start process) (kept : KeptOut choice process.server)
    (taken : Taken backend process.server choice after) : Safe represents close start ⟨after, process.exit⟩ := by
  have accounted : ∀ client, ∃ asked, Accounted after client asked := fun client =>
    (safe.accounted client).elim fun _ accounted => accounted_taken accounted taken
  rcases safe.stands with
    ⟨phase, stored, unclosed⟩ | ⟨phase, vacant, front, back, before, split, quiet, first, same, represented⟩
  · obtain ⟨disciplined, storedAfter⟩ :=
      safe_step faithful bounded safe.disciplined stored (kept_out_in_range kept) taken
    refine ⟨disciplined, accounted, .inl ⟨?_, storedAfter, fun closed => unclosed (closed_taken taken closed)⟩⟩
    rcases phase with waits | ⟨inside, owns⟩
    · exact .inl waits
    · refine .inr ⟨inside, ?_⟩
      have vacant : Vacant process.server := by
        intro client
        rw [owns]
        simp
      have outside : ∀ client, choice ≠ .enter client := by
        rintro client rfl
        cases taken with
        | enter _ free =>
            rw [owns] at free
            cases free
      exact (vacant_taken safe.disciplined vacant taken outside).2.1.trans owns
  · have outside : ∀ client, choice ≠ .enter client := by
      rintro client rfl
      apply kept
      rw [split]
      simp
    have nobody : ∀ client call next answer store, (process.server.threads client).routine = .running call next →
        backend call process.server.store = some (answer, store) → Sensible answer :=
      fun client call next _ _ here _ => (vacant_quiet safe.disciplined vacant (.inr (.inl ⟨call, next, here⟩))).elim
    obtain ⟨store, owner, events, trace, none⟩ := vacant_taken safe.disciplined vacant taken outside
    have disciplined := disciplined_taken safe.disciplined (in_range_sheltered (kept_out_in_range kept)) nobody taken
    refine ⟨disciplined, accounted, .inr ⟨phase, ?_, ?_⟩⟩
    · intro client
      rw [owner]
      exact vacant client
    · refine ⟨front, back ++ events, before, ?_, ?_, first, store.trans same, ?_⟩
      · rw [trace, split, List.append_assoc]
        rfl
      · rw [operations_append, quiet, none]
        rfl
      · rw [trace, store_log_quiet none]
        exact represented

omit [DecidableEq Client] in
theorem accounted_unseen (accounted : ∀ client, ∃ asked, Accounted server client asked)
    (threads : after.threads = server.threads) {events : List (Event Client)}
    (trace : after.trace = server.trace ++ events)
    (silent : ∀ client turn, .replied client turn (intBytes 1) ∉ events) :
    ∀ client, ∃ asked, Accounted after client asked := fun client =>
  (accounted client).elim fun asked accounted =>
    ⟨asked, accounted_quiet accounted (by rw [threads]) (by rw [threads]) trace (silent client)⟩

theorem safe_exit (safe : Safe represents close start process) (exits : exitNicely close process = some next) :
    Safe represents close start next := by
  obtain ⟨server, exit⟩ := process
  obtain ⟨disciplined, accounted, stands⟩ := safe
  have nothing : server.trace = server.trace ++ [] := (List.append_nil _).symm
  have silent : ∀ (client : Client) turn, Event.replied client turn (intBytes 1) ∉ ([] : List (Event Client)) :=
    fun _ _ => List.not_mem_nil
  cases exit with
  | waiting =>
      simp only [exitNicely] at exits
      split_ifs at exits with free
      cases exits
      rcases stands with ⟨_, ⟨stored, answered, accepted⟩, unclosed⟩ | ⟨phase, _, _⟩
      · refine ⟨disciplined_owner disciplined rfl rfl fun client => ?_, accounted_unseen accounted rfl nothing silent,
          .inl ⟨.inr ⟨rfl, rfl⟩, ⟨stored, answered, accepted⟩, unclosed⟩⟩
        rw [Option.isNone_iff_eq_none.mp free]
        simp
      · exact absurd rfl phase.1
  | inside =>
      cases exits
      rcases stands with ⟨waits | ⟨_, owns⟩, stored, unclosed⟩ | ⟨phase, _, _⟩
      · cases waits
      · have owns : server.owner = some .exitNicely := owns
        refine ⟨disciplined_owner disciplined rfl rfl fun _ => Iff.rfl, accounted_unseen accounted rfl rfl (by simp),
          .inr ⟨⟨by simp, by simp⟩, fun client => ?_, server.trace, [], server.store, rfl, rfl, unclosed, rfl, ?_⟩⟩
        · rw [tell_owner]
          simp [owns]
        · have same : storeLog (server.trace ++ [.closed]) = storeLog server.trace := store_log_quiet rfl
          rw [tell_trace, same]
          exact stored.stored
      · exact absurd rfl phase.2
  | closed =>
      cases exits
      rcases stands with ⟨waits | ⟨inside, _⟩, _, _⟩ | ⟨_, vacant, kept⟩
      · cases waits
      · cases inside
      · refine ⟨disciplined_owner disciplined rfl rfl fun client => ?_, accounted_unseen accounted rfl nothing silent,
          .inr ⟨⟨by simp, by simp⟩, fun client => by simp, kept⟩⟩
        simp only [reduceCtorEq, false_iff]
        exact vacant client
  | released | disconnected =>
      cases exits
      rcases stands with ⟨waits | ⟨inside, _⟩, _, _⟩ | ⟨_, vacant, kept⟩
      · cases waits
      · cases inside
      · exact ⟨disciplined, accounted, .inr ⟨⟨by simp, by simp⟩, vacant, kept⟩⟩
  | exited => cases exits

theorem process_mono {allows less : Choice Client Store → Server Client Store → Prop}
    (weaker : ∀ choice server, less choice server → allows choice server)
    (run : Relation.ReflTransGen (ProcessStep less backend close) process next) :
    Relation.ReflTransGen (ProcessStep allows backend close) process next := by
  refine Relation.ReflTransGen.mono (fun _ _ step => ?_) _ _ run
  cases step with
  | thread alive step => exact .thread alive (step.imp fun choice taken => ⟨weaker _ _ taken.1, taken.2⟩)
  | exit exits => exact .exit exits

theorem safe_process (faithful : Faithful represents backend) (bounded : Bounded start) {store : Store}
    (related : represents start store) {codes : Client → Int} {streams : Client → List Bytes}
    (run : Relation.ReflTransGen (ProcessStep KeptOut backend close) ⟨Server.started store codes streams, .waiting⟩
      process) : Safe represents close start process := by
  induction run with
  | refl =>
      refine ⟨started_disciplined store codes streams,
        fun client => ⟨false, accounted_started store codes streams client⟩,
        .inl ⟨.inl rfl, started_stored related codes streams, List.not_mem_nil⟩⟩
  | tail _ step ih =>
      cases step with
      | thread alive step =>
          obtain ⟨choice, kept, took⟩ := step
          exact safe_thread faithful bounded ih kept (take_taken took)
      | exit exits => exact safe_exit ih exits

end Process

section Database

variable {Client : Type} [DecidableEq Client]

end Database

section OneUpdate

variable {Store : Type} {backend : StoreCall → Program Store StoreAnswer} {close : Store → Store}
  {allows : Choice Unit Store → Server Unit Store → Prop} {server after : Server Unit Store}

def updating (store : Store) : Server Unit Store :=
  .started store (fun _ => 0) fun _ => [DriverCall.request (.set [107] [1])]

def arrives : List (Choice Unit Store) :=
  [.send (), .move () (.receive 4), .move () (.receive 4), .move () (.allocate [0, 0]), .move () (.receive 1),
    .move () .go, .move () (.receive 4), .move () (.allocate [0, 0]), .move () (.receive 1), .move () .go]

theorem acknowledges {call : StoreCall} {answer : StoreAnswer} {store : Store}
    (here : (server.threads ()).routine = .running call fun _ => .leave (sendCode 1 (.again 1)))
    (alone : server.running = [()]) (ran : backend call server.store = some (answer, store))
    (finish : ∀ server, allows (.finish ()) server) (leave : ∀ server, allows (.leave ()) server)
    (go : ∀ server, allows (.move () .go) server) :
    ∃ after, Relation.ReflTransGen (Step allows backend) server after ∧ after.owner = none ∧
      after.trace = server.trace ++ [.performed () (server.threads ()).turn call answer] ++
        [.replied () (server.threads ()).turn (intBytes 1)] := by
  have finishes : server.take backend (.finish ()) =
      some (server.answered () call answer store fun _ => .leave (sendCode 1 (.again 1))) := by
    simp only [Server.take, here, if_pos alone, ran]
  exact ⟨_, ((Relation.ReflTransGen.single ⟨.finish (), finish _, finishes⟩).tail ⟨.leave (), leave _, rfl⟩).tail
    ⟨.move () .go, go _, rfl⟩, rfl, rfl⟩

@[irreducible] def newDatabase : Database :=
  match myjqlInit emptyFiles blankDatabase with
  | some (_, database) => database
  | none => blankDatabase

theorem new_database_opened :
    myjqlInit emptyFiles blankDatabase = some ((), newDatabase) ∧ DatabaseHolds 0 noBindings newDatabase := by
  obtain ⟨database, opens, holds⟩ := database_opened empty_files_empty blankDatabase
  have same : newDatabase = database := by rw [newDatabase, opens]
  rw [same]
  exact ⟨opens, holds⟩

end OneUpdate

end MyJQL.Shutdown
