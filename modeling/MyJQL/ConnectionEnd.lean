import MyJQL.ThreadProgress

/-!
# The end of a connection

A thread leaves its loop at an exit request, and at an error of its socket. The end of the stream is
neither: `recv` returns 0, and the thread goes on with what `code` and its buffers happen to hold. A stream
that ends with an exit request is never read to its end.
-/

namespace MyJQL.ConnectionEnd

open MyJQL.FairRuns
open MyJQL.StateProgram
open MyJQL.KeyValueStore
open MyJQL.ServerModel
open MyJQL.ServerProtocol
open MyJQL.ServerSystem
open MyJQL.ServerThreads
open MyJQL.ThreadSafety
open MyJQL.RequestService
open MyJQL.ClientService
open MyJQL.ThreadProgress

set_option autoImplicit false

/-- A `recv` returns less than it was asked for only at the end of its stream, and no thread allocates a buffer
for a length that there is none for. -/
def Orderly {Client Store : Type} (choice : Choice Client Store) (server : Server Client Store) : Prop :=
  UntilClosed choice server ∧ InRange choice server

instance {Client Store : Type} (choice : Choice Client Store) (server : Server Client Store) :
    Decidable (Orderly choice server) := inferInstanceAs (Decidable (_ ∧ _))

section Runs

variable {Client Store : Type} [DecidableEq Client] {represents : Bindings → Store → Prop}
  {backend : StoreCall → Program Store StoreAnswer} {start : Bindings} {server after : Server Client Store}
  {choice : Choice Client Store} {client : Client} {requests : List Request} {tail : Bytes} {store : Store}
  {codes : Client → Int} {streams : Client → List Bytes}

omit [DecidableEq Client] in
theorem orderly_liberal : Liberal False (@Orderly Client Store) := by
  intro choice server _ full range _ _
  refine ⟨?_, range⟩
  cases choice with
  | move client move =>
      cases move with
      | receive count => exact .inl full
      | fail | allocate _ | go => trivial
  | send _ | close _ | enter _ | perform _ | finish _ | clash _ _ _ | leave _ => trivial

/-- A client closes its side when it has sent everything. -/
def ClosedSent (server : Server Client Store) (client : Client) : Prop :=
  (server.threads client).closed = true → server.unsent client = []

theorem moved_closed {thread after : Thread} {move : Move} {bytes : Option Bytes}
    (moved : Moved thread move after bytes) : after.closed = thread.closed := by
  cases moved <;> rfl

theorem closed_sent_taken (closedSent : ClosedSent server client) (taken : Taken backend server choice after) :
    ClosedSent after client := by
  cases taken with
  | @send sender request rest unsent =>
      by_cases own : client = sender
      · subst own
        intro closed
        rw [tell_threads, put_thread_self] at closed
        rw [closedSent closed] at unsent
        cases unsent
      · intro closed
        rw [tell_threads, put_thread_other own] at closed
        rw [tell_unsent, put_unsent]
        exact (Function.update_of_ne own _ _).trans (closedSent closed)
  | @close sender unsent =>
      by_cases own : client = sender
      · subst own
        exact fun _ => unsent
      · intro closed
        rw [put_thread_other own] at closed
        exact closedSent closed
  | @move other move thread bytes moved =>
      by_cases own : client = other
      · subst own
        intro closed
        rw [tell_threads, put_thread_self, moved_closed moved] at closed
        exact closedSent closed
      · intro closed
        rw [tell_threads, put_thread_other own] at closed
        exact closedSent closed
  | @enter other _ _ _ | @perform other _ _ _ _ _ | @beyond other _ _ _ _ | @finish other _ _ _ _ _ _ _
  | @clash other _ _ _ _ _ _ | @leave other _ _ =>
      by_cases own : client = other
      · subst own
        simpa [ClosedSent, Server.answered] using closedSent
      · simpa [ClosedSent, Server.answered, own] using closedSent

theorem receives_full {failing : Prop} {served : List Served} {count : Nat}
    (ends : requests.getLast? = some (.call .close)) (serving : Serving failing requests tail server client served)
    (disciplined : Disciplined server) (closedSent : ClosedSent server client)
    (allowed : UntilClosed (.move client (.receive count)) server)
    (taken : Taken backend server (.move client (.receive count)) after) : count = (server.threads client).asked := by
  rcases allowed with full | ⟨closed, left⟩
  · exact full
  · cases taken with
    | move moved =>
        cases moved with
        | receive here delivers =>
            have stage := serving.stage
            rw [here, closedSent closed, List.flatten_nil, List.append_nil] at stage
            have enough := stage_receives ends stage
            have asked := asked_of_recv here
            have least := delivers.1
            omega
        | ended here _ => exact absurd here (disciplined_buffered disciplined)

theorem client_served_run (faithful : Faithful represents backend) (bounded : Bounded start)
    (related : represents start store) (fits : ∀ request ∈ requests, request.Fits)
    (ends : requests.getLast? = some (.call .close)) (sent : (streams client).flatten = streamOf requests ++ tail)
    (run : Relation.ReflTransGen (Step Orderly backend) (Server.started store codes streams) server) :
    Disciplined server ∧ Stored represents start server ∧ ClosedSent server client ∧
      ∃ served, Serving True requests tail server client served := by
  induction run with
  | refl =>
      refine ⟨started_disciplined store codes streams, started_stored related codes streams, ?_, [], ?_⟩
      · intro closed
        cases closed
      · exact serving_started fits (.inr ends) store codes sent
  | @tail server after _ step ih =>
      obtain ⟨choice, ⟨untilClosed, range⟩, took⟩ := step
      obtain ⟨disciplined, stored, closedSent, served, serving⟩ := ih
      have taken := take_taken took
      obtain ⟨disciplinedAfter, storedAfter⟩ := safe_step faithful bounded disciplined stored range taken
      refine ⟨disciplinedAfter, storedAfter, closed_sent_taken closedSent taken, ?_⟩
      refine serving_taken fits (.inr ends) serving disciplined (stored_sensible faithful bounded disciplined stored) ?_
        (fun _ => trivial) taken
      rintro count rfl
      exact receives_full ends serving disciplined closedSent untilClosed taken

/-- With an exit request on its way a thread does not wait for more. -/
theorem at_rest_exited {failing : Prop} {served : List Served} (ends : requests.getLast? = some (.call .close))
    (serving : Serving failing requests tail server client served) (rest : AtRest server client) :
    (server.threads client).routine = .exited := by
  rcases rest with exited | ⟨⟨code, waits⟩, arrived, sent⟩
  · exact exited
  · have stage := serving.stage
    rw [waits, arrived, sent] at stage
    have enough := stage_receives ends stage
    exact absurd enough (by decide)

/-- A stream that holds an exit request behind whole requests: only whole requests that were received are
performed, each of them once, and when the client has closed its side the thread leaves its loop. -/
theorem connection_ended (faithful : Faithful represents backend) (bounded : Bounded start)
    (related : represents start store) (codes : Client → Int) (streams : Client → List Bytes) (client : Client)
    (requests : List Request) (tail : Bytes) (fits : ∀ request ∈ requests, request.Fits)
    (ends : requests.getLast? = some (.call .close)) (sent : (streams client).flatten = streamOf requests ++ tail) :
    (∀ server, Relation.ReflTransGen (Step Orderly backend) (Server.started store codes streams) server →
      ∃ served read, (streams client).flatten =
          read ++ ((server.threads client).incoming ++ (server.unsent client).flatten) ∧
        served.map Prod.fst <+: requests ∧ streamOf (served.map Prod.fst) <+: read ∧
        operationsOf client server.trace = performedBy served) ∧
    ∀ run : EndlessRun (Turn Orderly backend) (Server.started store codes streams), FairToAll run →
      ∀ early, ((run.state early).threads client).closed = true →
        ∃ time, early ≤ time ∧ ((run.state time).threads client).routine = .exited := by
  have safe : ∀ server, Relation.ReflTransGen (Step Orderly backend) (Server.started store codes streams) server →
      Disciplined server ∧ Stored represents start server ∧ ClosedSent server client ∧
        ∃ served, Serving True requests tail server client served :=
    fun server run => client_served_run faithful bounded related fits ends sent run
  refine ⟨fun server run => ?_, fun run fair early closed => ?_⟩
  · obtain ⟨_, _, _, served, serving⟩ := safe server run
    obtain ⟨read, taken⟩ := stage_taken (.inr ends) serving.stage
    refine ⟨served, streamOf (served.map Prod.fst) ++ read, ?_, serving_shorter serving, List.prefix_append _ _,
      serving.performed⟩
    rw [sent, taken, List.append_assoc]
  · have reached : ∀ time, Relation.ReflTransGen (Step Orderly backend) (Server.started store codes streams)
        (run.state time) := run_reaches run
    obtain ⟨time, later, rest⟩ := comes_to_rest run fair faithful orderly_liberal False.elim
      (fun time => ⟨(safe _ (reached time)).1, (safe _ (reached time)).2.1⟩)
      (fun time => no_exit (reached time)) (fun time => (safe _ (reached time)).2.2.2) early
      ((safe _ (reached early)).2.2.1 closed)
    obtain ⟨served, serving⟩ := (safe _ (reached time)).2.2.2
    exact ⟨time, later, at_rest_exited ends serving rest⟩

end Runs

def update : Request := .call (.set [107] [1])

def served : List (Choice Unit Bindings) :=
  [.send (), .move () (.receive 4), .move () (.receive 4), .move () (.allocate [9, 9]), .move () (.receive 1),
    .move () .go, .move () (.receive 4), .move () (.allocate [9, 9]), .move () (.receive 1), .move () .go,
    .enter (), .perform (), .finish (), .leave (), .move () .go, .move () .go]

def leaves : List (Choice Unit Bindings) := [.send (), .close (), .move () (.receive 4), .move () .go]

def goesOn : List (Choice Unit Bindings) :=
  [.close (), .move () (.receive 0), .move () (.receive 0), .move () (.allocate [9, 9]), .move () (.receive 0),
    .move () .go, .move () (.receive 0), .move () (.allocate [9, 9]), .move () (.receive 0), .move () .go,
    .enter (), .perform (), .finish ()]

def updating (requests : List Request) : Server Unit Bindings :=
  .started noBindings (fun _ => 0) fun _ => requests.map Request.bytes

theorem connection_ended_update : ∃ (server : Server Unit Bindings) (performed : List Served),
    (updating [update, .call .close]).run Orderly mapStore (served ++ leaves) = some server ∧
      (server.threads ()).closed = true ∧ (server.threads ()).routine = .exited ∧
      performed.map Prod.fst <+: [update, .call .close] ∧ operationsOf () server.trace = performedBy performed := by
  obtain ⟨server, ran, closed, exited⟩ : ∃ server,
      (updating [update, .call .close]).run Orderly mapStore (served ++ leaves) = some server ∧
        (server.threads ()).closed = true ∧ (server.threads ()).routine = .exited := ⟨_, rfl, rfl, rfl⟩
  have ended := connection_ended map_store_faithful nothing_bounded rfl (fun _ => 0)
    (fun _ : Unit => [update, .call .close].map Request.bytes) () [update, .call .close] []
    (by simp [update, Request.Fits, DriverCall.Fits]) rfl rfl
  obtain ⟨performed, _, _, first, _, same⟩ := ended.1 server (run_steps ran)
  exact ⟨server, performed, ran, closed, exited, first, same⟩

/-- The status of the first update, which is still in `code`, is taken for an opcode. -/
theorem update_repeated : ¬∀ server : Server Unit Bindings,
    Relation.ReflTransGen (Step UntilClosed mapStore) (updating [update]) server →
      ∃ served, served.map Prod.fst <+: [update] ∧ operationsOf () server.trace = performedBy served := by
  obtain ⟨server, ran, performed⟩ : ∃ server,
      (updating [update]).run UntilClosed mapStore (served ++ goesOn) = some server ∧
        operationsOf () server.trace = [(0, .set [107] [1], none), (1, .set [9] [9], none)] := ⟨_, rfl, rfl⟩
  intro holds
  obtain ⟨served, first, same⟩ := holds server (run_steps ran)
  have few : (performedBy served).length ≤ served.length := by
    rw [performedBy, ← List.length_zipIdx (l := served) (i := 0)]
    exact List.length_filterMap_le _ _
  have short := first.length_le
  rw [← same, performed] at few
  rw [List.length_map] at short
  exact absurd (few.trans short) (by decide)

end MyJQL.ConnectionEnd
