import MyJQL.ConnectionEnd
import MyJQL.Linearization
import MyJQL.RequestDecoding

/-!
# Every request is answered

In a run in which no socket fails, every `recv` returns what it was asked for, and no thread that can go on is
passed over for ever, the requests of a client that has sent them all come to be served, whatever the other
clients do: the replies are sent to their last byte, and behind an exit request the thread returns. A `recv`
of no bytes waits for a byte or the end of the stream like any other, so that the thread of another client
may be stuck at one for ever.
-/

namespace MyJQL.ServiceLiveness

open MyJQL.FairRuns
open MyJQL.StateProgram
open MyJQL.KeyValueStore
open MyJQL.ServerModel
open MyJQL.ServerProtocol
open MyJQL.ServerSystem
open MyJQL.ServerThreads
open MyJQL.ThreadSafety
open MyJQL.RequestService
open MyJQL.ClientService
open MyJQL.ThreadProgress
open MyJQL.ConnectionEnd
open MyJQL.RequestDecoding
open MyJQL.Linearization

set_option autoImplicit false

section Conditions

variable {Client Store : Type} [DecidableEq Client] {requests : List Request}

/-- No socket fails, every `recv` returns what it was asked for, and it waits for a byte or the end of the stream. -/
def Patient (choice : Choice Client Store) (server : Server Client Store) : Prop :=
  Unbroken choice server ∧ Awaited choice server

instance (choice : Choice Client Store) (server : Server Client Store) : Decidable (Patient choice server) :=
  inferInstanceAs (Decidable (_ ∧ _))

omit [DecidableEq Client] in
theorem patient_liberal : Liberal True (@Patient Client Store) := fun choice server own full range noError awaited =>
  ⟨unbroken_liberal choice server own full range noError False.elim, awaited trivial⟩

/-- The exit request is the last one, and the only one. -/
def ClosesLast (requests : List Request) : Prop :=
  requests.getLast? = some (.call .close) ∧ .call .close ∉ requests.dropLast

instance (requests : List Request) : Decidable (ClosesLast requests) := inferInstanceAs (Decidable (_ ∧ _))

theorem closes_last_fed (closes : ClosesLast requests) : ¬EndsEmpty requests := by
  rintro ⟨request, last, empty⟩
  rw [closes.1] at last
  cases last
  exact empty

end Conditions

section Runs

variable {Client Store : Type} [DecidableEq Client] {represents : Bindings → Store → Prop}
  {backend : StoreCall → Program Store StoreAnswer} {start : Bindings} {store : Store} {codes : Client → Int}
  {streams : Client → List Bytes} {requests : Client → List Request}
  {allows : Choice Client Store → Server Client Store → Prop}

/-- What is reached when a client has sent everything and nothing is left to do for it. -/
structure Done (requests : List Request) (server : Server Client Store) (client : Client) (served : List Served) :
    Prop where
  all : served.map Prod.fst = requests
  replied : repliedTo client server.trace = repliesTo served
  performed : operationsOf client server.trace = performedBy served

theorem client_done (faithful : Faithful represents backend) (bounded : Bounded start)
    (related : represents start store) (fits : ∀ client, ∀ request ∈ requests client, request.Fits)
    (sent : ∀ client, (streams client).flatten = streamOf (requests client))
    (liberal : Liberal True allows) (patient : ∀ choice server, allows choice server → Patient choice server)
    (run : EndlessRun (Turn allows backend) (Server.started store codes streams)) (fair : FairToAll run)
    (client : Client) (exitLast : .call .close ∉ (requests client).dropLast) (fed : ¬EndsEmpty (requests client))
    (early : Nat) (all : (run.state early).unsent client = []) :
    ∃ time, early ≤ time ∧ Stored represents start (run.state time) ∧ AtRest (run.state time) client ∧ ∃ served,
      Serving False (requests client) [] (run.state time) client served ∧
        Done (requests client) (run.state time) client served := by
  have served := fun time => served_run faithful bounded related fits sent
    (fun choice server allowed => unbroken_full choice server (patient choice server allowed).1)
    (fun client server allowed => unbroken_steady client server (patient _ server allowed).1) (run_reaches run time)
  obtain ⟨time, later, rest⟩ := comes_to_rest run fair faithful liberal (fun _ => fed)
    (fun time => ⟨(served time).1, (served time).2.1⟩) (fun time => no_exit (run_reaches run time))
    (fun time => (served time).2.2 client) early all
  obtain ⟨answers, serving⟩ := (served time).2.2 client
  obtain ⟨same, told⟩ := at_rest_served exitLast serving rest
  exact ⟨time, later, (served time).2.1, rest, answers, serving, same, told, serving.performed⟩

/-- Whatever the others do: the requests of a client that has sent them all come to be served in full, and its
thread returns. What was performed for it is part of one order in which one map answers. -/
theorem requests_answered (faithful : Faithful represents backend) (bounded : Bounded start)
    (related : represents start store) (codes : Client → Int)
    (fits : ∀ client, ∀ request ∈ requests client, request.Fits)
    (sent : ∀ client, (streams client).flatten = streamOf (requests client))
    (run : EndlessRun (Turn Patient backend) (Server.started store codes streams)) (fair : FairToAll run)
    (client : Client) (closes : ClosesLast (requests client)) (early : Nat)
    (all : (run.state early).unsent client = []) :
    ∃ time, early ≤ time ∧ ((run.state time).threads client).routine = .exited ∧
      ∃ served, Done (requests client) (run.state time) client served ∧
        Answered start (storeLog (run.state time).trace) ∧
        ∀ index request answer storeCall, served[index]? = some (request, answer) →
          request.storeCall = some storeCall →
          (client, index, storeCall, answer) ∈ operations (run.state time).trace := by
  obtain ⟨time, later, stored, rest, served, serving, done⟩ :=
    client_done faithful bounded related fits sent patient_liberal (fun _ _ patient => patient) run fair client
      closes.2 (closes_last_fed closes) early all
  refine ⟨time, later, at_rest_exited closes.1 serving rest, served, done, stored.answered,
    fun index request answer storeCall found asked => ?_⟩
  apply operations_of_member.mp
  rw [done.performed]
  exact performed_by_member.mpr ⟨request, found, asked⟩

end Runs

theorem endless_run {Client Store : Type} [DecidableEq Client]
    {allows : Choice Client Store → Server Client Store → Prop} {backend : StoreCall → Program Store StoreAnswer}
    {idle : Choice Client Store} {server after : Server Client Store}
    (reaches : Relation.ReflTransGen (Step allows backend) server after)
    (stays : Turn allows backend idle after after) :
    ∃ (run : EndlessRun (Turn allows backend) server) (steps : Nat), ∀ time, steps ≤ time → run.state time = after := by
  obtain ⟨run, steps, same⟩ := run_continues reaches (.staying stays)
  refine ⟨run, steps, fun time later => ?_⟩
  obtain ⟨rest, rfl⟩ := Nat.exists_eq_add_of_le later
  exact same rest

theorem closed_again {Store : Type} {backend : StoreCall → Program Store StoreAnswer} {server : Server Unit Store}
    (sent : server.unsent () = []) (closed : (server.threads ()).closed = true) :
    server.take backend (.close ()) = some server := by
  have same : ({ server.threads () with closed := true } : Thread) = server.threads () := by rw [← closed]
  rw [Server.take, sent]
  dsimp only
  rw [Server.put, same, Function.update_eq_self]

theorem exited_unable {Store : Type} {backend : StoreCall → Program Store StoreAnswer} {server : Server Unit Store}
    {allows : Choice Unit Store → Server Unit Store → Prop} {client : Unit}
    (exited : (server.threads client).routine = .exited) : ¬Able allows backend client server := by
  rintro ⟨choice, own, _, _, goes⟩
  obtain ⟨after, took⟩ := Option.isSome_iff_exists.mp goes
  cases take_taken took with
  | send _ | close _ => cases own
  | move moved =>
      cases moved <;> simp_all
  | enter here _ | perform here _ | beyond here _ | finish here _ _ | clash here _ | leave here =>
      rw [exited] at here
      cases here

/-- A fair run in which an update is carried out and the thread leaves its loop. -/
theorem update_run : ∃ (server : Server Unit Bindings)
    (run : EndlessRun (Turn Patient mapStore) (updating [update, .call .close])) (steps : Nat), FairToAll run ∧
      (updating [update, .call .close]).run Patient mapStore (served ++ leaves) = some server ∧
      server.unsent () = [] ∧ ∀ time, steps ≤ time → run.state time = server := by
  obtain ⟨server, ran, sent, exited, closed⟩ : ∃ server,
      (updating [update, .call .close]).run Patient mapStore (served ++ leaves) = some server ∧
        server.unsent () = [] ∧ (server.threads ()).routine = .exited ∧ (server.threads ()).closed = true :=
    ⟨_, rfl, rfl, rfl, rfl⟩
  have stays : Turn Patient mapStore (.close ()) server server := ⟨⟨trivial, trivial⟩, closed_again sent closed⟩
  obtain ⟨run, steps, ends⟩ := endless_run (run_steps ran) stays
  refine ⟨server, run, steps, fun client able => ?_, ran, sent, ends⟩
  obtain ⟨time, later, able⟩ := able steps
  rw [ends time later] at able
  exact absurd able (exited_unable exited)

/-- An update is acknowledged, and then the thread leaves its loop. -/
theorem requests_answered_update : ∃ (server : Server Unit Bindings) (performed : List Served),
    (updating [update, .call .close]).run Patient mapStore (served ++ leaves) = some server ∧
      (server.threads ()).routine = .exited ∧ Done [update, .call .close] server () performed := by
  obtain ⟨server, run, steps, fair, ran, sent, ends⟩ := update_run
  have fits : ∀ client : Unit, ∀ request ∈ [update, .call .close], request.Fits := by
    simp [update, Request.Fits, DriverCall.Fits]
  obtain ⟨time, later, exited, performed, done, _⟩ := requests_answered map_store_faithful nothing_bounded rfl
    (fun _ => 0) fits (fun _ => rfl) run fair () (by decide) steps (by rw [ends _ (le_refl _)]; exact sent)
  rw [ends time later] at exited done
  exact ⟨server, performed, ran, exited, done⟩

end MyJQL.ServiceLiveness
