import MyJQL.RequestService

/-!
# The clients of the server

What one thread does with the requests of its client is not disturbed by the other threads: they leave
its buffers and its connection alone, and the store is never asked by two threads at once.
-/

namespace MyJQL.ClientService

open MyJQL.StateProgram
open MyJQL.KeyValueStore
open MyJQL.ServerModel
open MyJQL.ServerProtocol
open MyJQL.ServerSystem
open MyJQL.ServerThreads
open MyJQL.ThreadSafety
open MyJQL.RequestService

set_option autoImplicit false

section Trace

variable {Client : Type} [DecidableEq Client] {client other : Client}

def operationsOf (client : Client) (trace : List (Event Client)) : List (Nat × StoreCall × StoreAnswer) :=
  (operations trace).filterMap fun operation => if operation.1 = client then some operation.2 else none

def saidTo (client : Client) : Event Client → Bytes
  | .replied other _ bytes => if other = client then bytes else []
  | _ => []

def repliedTo (client : Client) (trace : List (Event Client)) : Bytes := trace.flatMap (saidTo client)

@[simp] theorem operations_of_append (front back : List (Event Client)) :
    operationsOf client (front ++ back) = operationsOf client front ++ operationsOf client back := by
  rw [operationsOf, operations_append, List.filterMap_append]
  rfl

@[simp] theorem replied_to_append (front back : List (Event Client)) :
    repliedTo client (front ++ back) = repliedTo client front ++ repliedTo client back := List.flatMap_append

structure Quiet (client : Client) (events : List (Event Client)) : Prop where
  operations : operationsOf client events = []
  replies : ∀ index bytes, Event.replied client index bytes ∉ events

theorem quiet_replied {events : List (Event Client)} (quiet : Quiet client events) : repliedTo client events = [] := by
  apply List.flatMap_eq_nil_iff.mpr
  intro event member
  cases event with
  | replied other index bytes =>
      have different : other ≠ client := by
        rintro rfl
        exact quiet.replies index bytes member
      exact if_neg different
  | sent _ _ | performed _ _ _ _ | closed => rfl

theorem quiet_nothing : Quiet client [] := ⟨rfl, fun _ _ => List.not_mem_nil⟩

theorem quiet_sent (index : Nat) : Quiet client [.sent other index] := ⟨rfl, by simp⟩

theorem quiet_replies (different : other ≠ client) (turn : Nat) (bytes : Option Bytes) :
    Quiet client (replies other turn bytes) := by
  cases bytes with
  | none => exact quiet_nothing
  | some bytes => exact ⟨rfl, by simp [replies, different.symm]⟩

theorem quiet_performed (different : other ≠ client) (index : Nat) (call : StoreCall) (answer : StoreAnswer) :
    Quiet client [.performed other index call answer] :=
  ⟨by simp [operationsOf, operations, Event.operation, different], by simp⟩

end Trace

section Waiting

variable {failing : Prop} {requests : List Request} {tail ahead said : Bytes} {turn : Nat} {served : List Served}

def Receiving (routine : Routine) : Prop :=
  (∃ buffer count next, routine = .recv buffer count next) ∨ ∃ length next, routine = .malloc length next

theorem speaks_not_receiving {request : Request} {routine : Routine} {bytes : Bytes}
    (speaks : Speaks request.Rests routine bytes) : ¬Receiving routine := by
  cases speaks with
  | here rests => rcases rests_shape rests with rfl | ⟨_, rfl⟩ <;> simp [Receiving]
  | send _ _ | terminate _ _ => simp [Receiving]

theorem stage_receiving {routine : Routine}
    (stage : Stage failing requests tail ahead turn routine served said)
    (receives : Receiving routine) :
    (∃ code, routine = instanceThread code ∧ requests = served.map Prod.fst ∧
      requests.getLast? ≠ some (.call .close) ∧ ahead = []) ∨
    ∃ (request : Request) (back : List Request) (rest : Bytes), Takes request.LastEmpty request.Decided routine rest ∧
      requests = served.map Prod.fst ++ request :: back ∧ ahead = rest ++ (streamOf back ++ tail) := by
  cases stage with
  | awaiting code here all goesOn place nothing told => exact .inl ⟨code, here, all, goesOn, nothing⟩
  | reading request back rest split place takes part left told => exact .inr ⟨request, back, rest, takes, split, left⟩
  | asking request back call raw next split place here asked asks left told =>
      rcases here with rfl | rfl <;> simp [Receiving] at receives
  | replying front request answer back rest unsaid split last place here speaks left told =>
      rcases here with rfl | rfl
      · simp [Receiving] at receives
      · exact absurd receives (speaks_not_receiving speaks)
  | ended _ here _ _ _ =>
      rw [here] at receives
      simp [Receiving] at receives

theorem stage_allocable {length : Int} {next : Option Bytes → Routine}
    (stage : Stage failing requests tail ahead turn (.malloc length next) served said) : Allocable length := by
  rcases stage_receiving stage (.inr ⟨length, next, rfl⟩) with ⟨code, here, _⟩ | ⟨request, _, _, takes, _⟩
  · cases here
  · cases takes with
    | malloc allocable _ => exact allocable
    | here decided =>
        cases decided with
        | refused _ speaks => exact absurd (.inr ⟨length, next, rfl⟩) (speaks_not_receiving speaks)

theorem stage_receives {buffer : Bytes} {count : Int} {next : Bytes → Routine}
    (ends : requests.getLast? = some (.call .close))
    (stage : Stage failing requests tail ahead turn (.recv buffer count next) served said) :
    sizeT count ≤ ahead.length := by
  rcases stage_receiving stage (.inl ⟨buffer, count, next, rfl⟩) with
    ⟨_, _, _, goesOn, _⟩ | ⟨request, back, rest, takes, _, left⟩
  · exact absurd ends goesOn
  · cases takes with
    | recv asks room behind =>
        rw [asks, left, List.append_assoc, List.length_append]
        exact Nat.le_add_right _ _
    | here decided =>
        cases decided with
        | refused _ speaks => exact absurd (.inl ⟨buffer, count, next, rfl⟩) (speaks_not_receiving speaks)

end Waiting

section Serving

variable {Client Store : Type} [DecidableEq Client] {backend : StoreCall → Program Store StoreAnswer}
  {server after : Server Client Store} {choice : Choice Client Store} {client : Client} {failing : Prop}
  {requests : List Request} {tail : Bytes} {served : List Served}

/-- A client whose requests are served one after the other, and how far the thread is. -/
structure Serving (failing : Prop) (requests : List Request) (tail : Bytes) (server : Server Client Store)
    (client : Client) (served : List Served) : Prop where
  stage : Stage failing requests tail ((server.threads client).incoming ++ (server.unsent client).flatten)
    (server.threads client).turn (server.threads client).routine served (repliedTo client server.trace)
  performed : operationsOf client server.trace = performedBy served
  replied : ∀ index bytes, .replied client index bytes ∈ server.trace → index < served.length

theorem serving_quiet {events : List (Event Client)} (serving : Serving failing requests tail server client served)
    (routine : (after.threads client).routine = (server.threads client).routine)
    (turn : (after.threads client).turn = (server.threads client).turn)
    (ahead : (after.threads client).incoming ++ (after.unsent client).flatten =
      (server.threads client).incoming ++ (server.unsent client).flatten)
    (trace : after.trace = server.trace ++ events) (quiet : Quiet client events) :
    Serving failing requests tail after client served := by
  refine ⟨?_, ?_, fun index bytes member => ?_⟩
  · rw [routine, turn, ahead, trace, replied_to_append, quiet_replied quiet, List.append_nil]
    exact serving.stage
  · rw [trace, operations_of_append, quiet.operations, List.append_nil]
    exact serving.performed
  · rw [trace] at member
    rcases List.mem_append.mp member with old | new
    · exact serving.replied index bytes old
    · exact absurd new (quiet.replies index bytes)

theorem serving_other {events : List (Event Client)} (serving : Serving failing requests tail server client served)
    (thread : after.threads client = server.threads client) (unsent : after.unsent client = server.unsent client)
    (trace : after.trace = server.trace ++ events) (quiet : Quiet client events) :
    Serving failing requests tail after client served :=
  serving_quiet serving (by rw [thread]) (by rw [thread]) (by rw [thread, unsent]) trace quiet

theorem serving_inside {routine : Routine} (serving : Serving failing requests tail server client served)
    (stage : Stage failing requests tail ((server.threads client).incoming ++ (server.unsent client).flatten)
      (server.threads client).turn routine served (repliedTo client server.trace))
    (thread : after.threads client = { server.threads client with routine := routine })
    (unsent : after.unsent = server.unsent) (trace : after.trace = server.trace) :
    Serving failing requests tail after client served := by
  refine ⟨?_, ?_, ?_⟩
  · rw [thread, unsent, trace]
    exact stage
  · rw [trace]
    exact serving.performed
  · rw [trace]
    exact serving.replied

theorem serving_moved (fits : ∀ request ∈ requests, request.Fits)
    (ends : tail = [] ∨ requests.getLast? = some (.call .close)) {move : Move} {thread : Thread}
    {bytes : Option Bytes} (serving : Serving failing requests tail server client served)
    (moved : Moved (server.threads client) move thread bytes)
    (full : ∀ count, move = .receive count → count = (server.threads client).asked)
    (steady : move = .fail → failing) :
    ∃ further, Serving failing requests tail
      ((server.put client thread).tell (replies client (server.threads client).turn bytes)) client further := by
  obtain ⟨further, stage, performed, place, grows⟩ := stage_moved fits ends serving.stage moved full steady
  have said : repliedTo client (replies client (server.threads client).turn bytes) = bytes.getD [] := by
    cases bytes <;> simp [replies, repliedTo, saidTo]
  refine ⟨further, ?_, ?_, fun index sent member => ?_⟩
  · rw [tell_threads, put_thread_self, tell_unsent, put_unsent, tell_trace, put_trace, replied_to_append, said]
    exact stage
  · rw [tell_trace, put_trace, operations_of_append, operationsOf, operationsOf, replies_quiet, performed,
      ← serving.performed]
    exact List.append_nil _
  · rw [tell_trace, put_trace] at member
    rcases List.mem_append.mp member with old | new
    · exact lt_of_lt_of_le (serving.replied index sent old) grows
    · cases bytes with
      | none => exact absurd new List.not_mem_nil
      | some bytes =>
          cases List.mem_singleton.mp new
          exact place (by simp)

theorem serving_finish {call : StoreCall} {next : StoreAnswer → Routine} {answer : StoreAnswer} {store : Store}
    (serving : Serving failing requests tail server client served)
    (here : (server.threads client).routine = .running call next) (sensible : Sensible answer) :
    ∃ further, Serving failing requests tail (server.answered client call answer store next) client further := by
  have stage := serving.stage
  rw [here] at stage
  obtain ⟨request, asked, place, stage⟩ := stage_answered stage sensible
  have silent : repliedTo client [.performed client (server.threads client).turn call answer] = [] := rfl
  have entry : operationsOf client [.performed client (server.threads client).turn call answer] =
      [((server.threads client).turn, call, answer)] := by
    simp [operationsOf, operations, Event.operation]
  refine ⟨served ++ [(request, answer)], ?_, ?_, fun index sent member => ?_⟩
  · simp only [Server.answered, resume_eq_put, tell_threads, put_thread_self, tell_unsent, put_unsent, tell_trace,
      put_trace, replied_to_append, silent, List.append_nil]
    exact stage
  · simp only [Server.answered, resume_eq_put, tell_trace, put_trace, operations_of_append, entry, serving.performed]
    rw [performed_by_append, asked, place]
    rfl
  · simp only [Server.answered, resume_eq_put, tell_trace, put_trace] at member
    rw [List.length_append]
    rcases List.mem_append.mp member with old | new
    · exact Nat.lt_succ_of_lt (serving.replied index sent old)
    · simp at new

theorem serving_taken (fits : ∀ request ∈ requests, request.Fits)
    (ends : tail = [] ∨ requests.getLast? = some (.call .close))
    (serving : Serving failing requests tail server client served) (disciplined : Disciplined server)
    (sensible : ∀ client call next answer store, (server.threads client).routine = .running call next →
      backend call server.store = some (answer, store) → Sensible answer)
    (full : ∀ count, choice = .move client (.receive count) → count = (server.threads client).asked)
    (steady : choice = .move client .fail → failing) (taken : Taken backend server choice after) :
    ∃ further, Serving failing requests tail after client further := by
  cases taken with
  | @send other request rest unsent =>
      by_cases own : client = other
      · subst own
        refine ⟨served, serving_quiet serving ?_ ?_ ?_ rfl (quiet_sent _)⟩
        · rw [tell_threads, put_thread_self]
        · rw [tell_threads, put_thread_self]
        · rw [tell_threads, put_thread_self, tell_unsent, put_unsent]
          simp [unsent]
      · refine ⟨served, serving_other serving ?_ ?_ rfl (quiet_sent _)⟩
        · rw [tell_threads, put_thread_other own]
        · rw [tell_unsent, put_unsent]
          exact Function.update_of_ne own _ _
  | @close other unsent =>
      by_cases own : client = other
      · subst own
        refine ⟨served, serving_quiet serving ?_ ?_ ?_ (List.append_nil _).symm quiet_nothing⟩
        all_goals
          rw [put_thread_self]
        rfl
      · exact ⟨served, serving_other serving (put_thread_other own) rfl (List.append_nil _).symm quiet_nothing⟩
  | @move other move thread bytes moved =>
      by_cases own : client = other
      · subst own
        refine serving_moved fits ends serving moved (fun count receives => ?_) fun fails => ?_
        · exact full count (by rw [receives])
        · exact steady (by rw [fails])
      · refine ⟨served, serving_other serving ?_ rfl rfl (quiet_replies (Ne.symm own) _ _)⟩
        rw [tell_threads, put_thread_other own]
  | @enter other next here free =>
      by_cases own : client = other
      · subst own
        have stage := serving.stage
        rw [here] at stage
        exact ⟨served, serving_inside serving (stage_enters stage) put_thread_self rfl rfl⟩
      · exact ⟨served, serving_other serving (put_thread_other own) rfl (List.append_nil _).symm quiet_nothing⟩
  | @perform other call storeCall next here within =>
      by_cases own : client = other
      · subst own
        have stage := serving.stage
        rw [here] at stage
        exact ⟨served, serving_inside serving (stage_performs stage within) put_thread_self rfl rfl⟩
      · exact ⟨served, serving_other serving (put_thread_other own) rfl (List.append_nil _).symm quiet_nothing⟩
  | @beyond other call next here outside =>
      have sound := standing_sound (disciplined.standing other) (by simp [Pauses, here])
      rw [here] at sound
      obtain ⟨_, same, _⟩ := checked_accepted (sound_perform sound).2.1
      rw [outside] at same
      cases same
  | @finish other call next answer store here alone ran =>
      by_cases own : client = other
      · subst own
        exact serving_finish serving here (sensible _ _ _ _ _ here ran)
      · exact ⟨served, serving_other serving (put_thread_other own) rfl rfl (quiet_performed (Ne.symm own) _ _ _)⟩
  | clash here others => exact absurd (disciplined_alone disciplined here) others
  | @leave other next here =>
      by_cases own : client = other
      · subst own
        have stage := serving.stage
        rw [here] at stage
        exact ⟨served, serving_inside serving (stage_leaves stage) put_thread_self rfl rfl⟩
      · exact ⟨served, serving_other serving (put_thread_other own) rfl (List.append_nil _).symm quiet_nothing⟩

theorem serving_started (fits : ∀ request ∈ requests, request.Fits)
    (ends : tail = [] ∨ requests.getLast? = some (.call .close)) (store : Store) (codes : Client → Int)
    {streams : Client → List Bytes} (sent : (streams client).flatten = streamOf requests ++ tail) :
    Serving failing requests tail (Server.started store codes streams) client [] := by
  refine ⟨?_, rfl, fun index bytes member => absurd member List.not_mem_nil⟩
  have split : requests = ([] : List Served).map Prod.fst ++ requests := rfl
  refine stage_begins fits ends split sent fun none => ?_
  simp [none]

theorem serving_shorter (serving : Serving failing requests tail server client served) :
    served.map Prod.fst <+: requests := by
  cases serving.stage with
  | awaiting code here all goesOn place nothing told => exact ⟨[], by rw [all, List.append_nil]⟩
  | reading request back rest split place takes part left told => exact ⟨request :: back, split.symm⟩
  | asking request back call raw next split place here asked asks left told => exact ⟨request :: back, split.symm⟩
  | replying front request answer back rest unsaid split last place here speaks left told => exact ⟨back, split.symm⟩
  | ended cause here split taken told => exact split

/-- The replies go out in the order of the requests. -/
theorem serving_told (serving : Serving failing requests tail server client served) :
    repliedTo client server.trace <+: repliesTo served := by
  cases serving.stage with
  | awaiting code here all goesOn place nothing told => rw [told]
  | reading request back rest split place takes part left told => rw [told]
  | asking request back call raw next split place here asked asks left told => rw [told]
  | replying front request answer back rest unsaid split last place here speaks left told => exact ⟨unsaid, told⟩
  | ended cause here split taken told => exact told

theorem serving_allocable {length : Int} {next : Option Bytes → Routine}
    (serving : Serving failing requests tail server client served)
    (here : (server.threads client).routine = .malloc length next) : Allocable length := by
  have stage := serving.stage
  rw [here] at stage
  exact stage_allocable stage

end Serving

section Runs

variable {Client Store : Type} [DecidableEq Client] {represents : Bindings → Store → Prop}
  {backend : StoreCall → Program Store StoreAnswer} {start : Bindings} {server after : Server Client Store}
  {allows : Choice Client Store → Server Client Store → Prop} {failing : Prop} {store : Store} {codes : Client → Int}
  {streams : Client → List Bytes}

theorem served_run (faithful : Faithful represents backend) (bounded : Bounded start) (related : represents start store)
    {requests : Client → List Request} (fits : ∀ client, ∀ request ∈ requests client, request.Fits)
    (sent : ∀ client, (streams client).flatten = streamOf (requests client))
    (full : ∀ choice server, allows choice server → FullLength choice server)
    (steady : ∀ client server, allows (.move client .fail) server → failing)
    (run : Relation.ReflTransGen (Step allows backend) (Server.started store codes streams) server) :
    Disciplined server ∧ Stored represents start server ∧
      ∀ client, ∃ served, Serving failing (requests client) [] server client served := by
  induction run with
  | refl =>
      refine ⟨started_disciplined store codes streams, started_stored related codes streams, fun client => ⟨[], ?_⟩⟩
      exact serving_started (fits client) (.inl rfl) store codes ((sent client).trans (List.append_nil _).symm)
  | @tail server after _ step ih =>
      obtain ⟨choice, allowed, took⟩ := step
      obtain ⟨disciplined, stored, serving⟩ := ih
      have taken := take_taken took
      have range : InRange choice server := by
        unfold InRange
        split
        · intro length next here
          exact serving_allocable (serving _).choose_spec here
        · trivial
      obtain ⟨disciplinedAfter, storedAfter⟩ := safe_step faithful bounded disciplined stored range taken
      refine ⟨disciplinedAfter, storedAfter, fun client => ?_⟩
      obtain ⟨served, serving⟩ := serving client
      refine serving_taken (fits client) (.inl rfl) serving disciplined
        (stored_sensible faithful bounded disciplined stored) ?_ ?_ taken
      · rintro count rfl
        exact full _ _ allowed
      · rintro rfl
        exact steady client server allowed

end Runs

end MyJQL.ClientService
