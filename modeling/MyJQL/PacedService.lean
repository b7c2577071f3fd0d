import MyJQL.ServiceLiveness

/-!
# Clients that wait for their replies

A client sends its next request, or closes its side, when what it was replied so far makes it ready to. Where
the replies to all that it has sent do, it comes to send all of its requests in a fair run: what was sent is
served like the requests of a client that has nothing more to send.
-/

namespace MyJQL.PacedService

open MyJQL.FairRuns
open MyJQL.StateProgram
open MyJQL.KeyValueStore
open MyJQL.ServerModel
open MyJQL.ServerProtocol
open MyJQL.ServerSystem
open MyJQL.ServerThreads
open MyJQL.ThreadSafety
open MyJQL.RequestService
open MyJQL.ClientService
open MyJQL.ThreadProgress
open MyJQL.ConnectionEnd
open MyJQL.RequestDecoding
open MyJQL.Linearization
open MyJQL.ServiceLiveness

set_option autoImplicit false

section Cut

variable {requests front back : List Request} {incoming rest said : Bytes} {turn count : Nat} {routine : Routine}
  {served : List Served}

theorem sent_split (split : requests = front ++ back) (inside : front.length ≤ count) :
    requests.take count = front ++ back.take (count - front.length) ∧
      requests.drop count = back.drop (count - front.length) := by
  rw [split, List.take_append, List.drop_append, List.take_of_length_le inside, List.drop_of_length_le inside]
  exact ⟨rfl, rfl⟩

theorem sent_behind {request : Request} (split : requests = front ++ request :: back) (sent : front.length < count) :
    ∃ few, requests.take count = front ++ request :: back.take few ∧ requests.drop count = back.drop few := by
  obtain ⟨first, behind⟩ := @sent_split requests (front ++ [request]) back count
    (by rw [split, List.append_assoc]; rfl) (by rw [List.length_append]; exact sent)
  refine ⟨_, first.trans ?_, behind⟩
  rw [List.append_assoc]
  rfl

theorem sent_bytes (ahead : incoming ++ streamOf (back.drop count) = rest ++ streamOf back) :
    incoming = rest ++ streamOf (back.take count) := by
  have whole : streamOf back = streamOf (back.take count) ++ streamOf (back.drop count) := by
    rw [← stream_of_append, List.take_append_drop]
  rw [whole, ← List.append_assoc] at ahead
  exact List.append_cancel_right ahead

theorem sent_first {request : Request} (split : requests = front ++ request :: back)
    (ahead : incoming ++ streamOf (requests.drop count) = rest ++ streamOf back) (more : count ≤ front.length) :
    incoming ++ (streamOf (front.drop count) ++ request.bytes) = rest := by
  have left : requests.drop count = front.drop count ++ request :: back := by
    rw [split, List.drop_append_of_le_length more]
  have bytes : streamOf (request :: back) = request.bytes ++ streamOf back := rfl
  rw [left, stream_of_append, bytes, ← List.append_assoc, ← List.append_assoc] at ahead
  rw [← List.append_assoc]
  exact List.append_cancel_right ahead

/-- What was sent is served as if nothing more was to come, unless all of it is served. -/
theorem stage_cut
    (stage : Stage False requests [] (incoming ++ streamOf (requests.drop count)) turn routine served said) :
    Stage False (requests.take count) [] incoming turn routine served said ∨
      (served.map Prod.fst = requests.take count ∧ incoming = [] ∧ said = repliesTo served) := by
  cases stage with
  | awaiting code here all goesOn place nothing told =>
      obtain ⟨arrived, none⟩ := List.append_eq_nil_iff.mp nothing
      have whole := List.take_append_drop count requests
      rw [stream_of_nothing none, List.append_nil] at whole
      rw [whole]
      exact .inl (.awaiting code here all goesOn place arrived told)
  | reading request back rest split place takes part left told =>
      rw [List.append_nil] at left
      rcases Nat.lt_or_ge (served.map Prod.fst).length count with sent | unsent
      · obtain ⟨few, first, behind⟩ := sent_behind split sent
        rw [behind] at left
        refine .inl (.reading request (back.take few) rest first place takes part ?_ told)
        rw [sent_bytes left, List.append_nil]
      · have ahead := sent_first split left unsent
        have lengths := congrArg List.length ahead
        have most := part.length_le
        rw [List.length_append, List.length_append] at lengths
        have arrived : incoming = [] := List.length_eq_zero_iff.mp (by omega)
        have none : (served.map Prod.fst).drop count = [] :=
          stream_of_nothing (List.length_eq_zero_iff.mp (by omega))
        have same : count = (served.map Prod.fst).length := le_antisymm unsent (List.drop_eq_nil_iff.mp none)
        refine .inr ⟨?_, arrived, told⟩
        rw [split, same, List.take_left]
  | asking request back call raw next split place here asked asks left told =>
      rw [List.append_nil] at left
      rcases Nat.lt_or_ge (served.map Prod.fst).length count with sent | unsent
      · obtain ⟨few, first, behind⟩ := sent_behind split sent
        rw [behind] at left
        refine .inl (.asking request (back.take few) call raw next first place here asked asks ?_ told)
        rw [@sent_bytes back incoming [] few left, List.append_nil]
        rfl
      · have ahead := @sent_first requests _ back incoming [] count request split left unsent
        have lengths := congrArg List.length ahead
        have some := request_bytes_pos request
        rw [List.length_append, List.length_append, List.length_nil] at lengths
        omega
  | replying front request answer back rest unsaid split last place here speaks left told =>
      rw [List.append_nil] at left
      rcases Nat.lt_or_ge count (served.map Prod.fst).length with unsent | sent
      · have parts : requests = front.map Prod.fst ++ request :: back := by
          rw [split, last, List.map_append, List.append_assoc]
          rfl
        have few : count ≤ (front.map Prod.fst).length := by
          rw [last, List.map_append, List.length_append] at unsent
          exact Nat.le_of_lt_succ unsent
        have ahead := @sent_first requests _ back incoming [] count request parts left few
        have lengths := congrArg List.length ahead
        have some := request_bytes_pos request
        rw [List.length_append, List.length_append, List.length_nil] at lengths
        omega
      · obtain ⟨first, behind⟩ := sent_split split sent
        rw [behind] at left
        refine .inl (.replying front request answer (back.take _) rest unsaid first last place here speaks ?_ told)
        rw [@sent_bytes back incoming [] _ left, List.append_nil]
        rfl
  | ended cause _ _ _ _ => exact absurd cause not_false

end Cut

section Pace

variable {Client Store : Type} [DecidableEq Client] {represents : Bindings → Store → Prop}
  {backend : StoreCall → Program Store StoreAnswer} {start : Bindings} {store : Store} {codes : Client → Int}
  {requests : Client → List Request} {server : Server Client Store} {client : Client}
  {ready : Client → Nat → Bytes → Prop}

/-- A client that is ready, by how many requests it has sent and what it was replied, sends its next request or
closes its side. -/
def Paced (ready : Client → Nat → Bytes → Prop) (choice : Choice Client Store) (server : Server Client Store) : Prop :=
  Patient choice server ∧
    match choice with
    | .send client | .close client =>
        ready client (server.threads client).requests (repliedTo client server.trace)
    | .move _ _ | .enter _ | .perform _ | .finish _ | .clash _ _ _ | .leave _ => True

instance [∀ client sent replied, Decidable (ready client sent replied)] (choice : Choice Client Store)
    (server : Server Client Store) : Decidable (Paced ready choice server) :=
  match choice with
  | .send client | .close client =>
      inferInstanceAs (Decidable (_ ∧ ready client (server.threads client).requests (repliedTo client server.trace)))
  | .move _ _ | .enter _ | .perform _ | .finish _ | .clash _ _ _ | .leave _ => inferInstanceAs (Decidable (_ ∧ True))

theorem paced_liberal : Liberal True (@Paced Client Store _ ready) := by
  intro choice server own full range noError awaited
  refine ⟨patient_liberal choice server own full range noError awaited, ?_⟩
  cases choice with
  | send _ | close _ => exact absurd rfl own
  | move _ _ | enter _ | perform _ | finish _ | clash _ _ _ | leave _ => trivial

/-- No thread is passed over for ever, nor a client that is ready to send. -/
def FairToClients (run : EndlessRun (Turn (Paced ready) backend)
    (Server.started store codes fun client => (requests client).map Request.bytes)) : Prop :=
  FairToAll run ∧ ∀ client, run.Fair (· = .send client) fun server =>
    Paced ready (.send client) server ∧ (server.take backend (.send client)).isSome

/-- All that a client has sent is served, and replied to. -/
structure CaughtUp (requests : List Request) (server : Server Client Store) (client : Client) (served : List Served) :
    Prop where
  serving : Serving False requests [] server client served
  all : served.map Prod.fst = requests.take (server.threads client).requests
  replied : repliedTo client server.trace = repliesTo served

theorem unsent_waits {after : Server Client Store} {choice : Choice Client Store}
    (taken : Taken backend server choice after) (other : choice ≠ .send client) :
    after.unsent client = server.unsent client := by
  cases taken with
  | @send sender _ _ _ =>
      rw [tell_unsent, put_unsent]
      exact Function.update_of_ne (fun same => other (congrArg _ same.symm)) _ _
  | close _ | move _ | enter _ _ | perform _ _ | beyond _ _ | finish _ _ _ | clash _ _ | leave _ => rfl

theorem unsent_sends {after : Server Client Store} (taken : Taken backend server (.send client) after) :
    (after.unsent client).length < (server.unsent client).length := by
  cases taken with
  | send unsent =>
      rw [tell_unsent, put_unsent]
      simp only [Function.update_self, unsent, List.length_cons]
      exact Nat.lt_succ_self _

theorem unsent_stream {left : List Request} {bytes : List Bytes} (same : bytes = left.map Request.bytes) :
    bytes.flatten = streamOf left := by
  rw [same]
  exact List.flatMap_def.symm

theorem rests_caught_up {served : List Served}
    (unsent : server.unsent client = ((requests client).map Request.bytes).drop (server.threads client).requests)
    (exitLast : .call .close ∉ (requests client).dropLast)
    (serving : Serving False (requests client) [] server client served)
    (rests : (server.threads client).routine = .exited ∨
      (∃ code, (server.threads client).routine = instanceThread code) ∧ (server.threads client).incoming = []) :
    CaughtUp (requests client) server client served := by
  have stage := serving.stage
  rw [unsent_stream (unsent.trans (List.map_drop).symm)] at stage
  rcases stage_cut stage with cut | ⟨all, _, told⟩
  · have exit : .call .close ∉ ((requests client).take (server.threads client).requests).dropLast := by
      refine fun member => exitLast ?_
      rw [List.dropLast_eq_take] at member ⊢
      rw [List.take_take] at member
      refine (List.take_prefix_take_left ?_).subset member
      rw [List.length_take]
      omega
    rcases rests with exited | ⟨⟨code, waits⟩, arrived⟩
    · rw [exited] at cut
      obtain ⟨all, told⟩ := exited_served exit cut
      exact ⟨serving, all, told⟩
    · rw [waits, arrived] at cut
      obtain ⟨all, told⟩ := waiting_served cut
      exact ⟨serving, all, told⟩
  · exact ⟨serving, all, told⟩

end Pace

section Runs

variable {Client Store : Type} [DecidableEq Client] {represents : Bindings → Store → Prop}
  {backend : StoreCall → Program Store StoreAnswer} {start : Bindings} {store : Store} {codes : Client → Int}
  {requests : Client → List Request} {ready : Client → Nat → Bytes → Prop}
  {run : EndlessRun (Turn (Paced ready) backend)
    (Server.started store codes fun client => (requests client).map Request.bytes)}

variable (faithful : Faithful represents backend) (bounded : Bounded start) (related : represents start store)
  (fits : ∀ client, ∀ request ∈ requests client, request.Fits)

include faithful bounded related fits

theorem paced_served (time : Nat) : Disciplined (run.state time) ∧ Stored represents start (run.state time) ∧
    ∀ client, ∃ served, Serving False (requests client) [] (run.state time) client served :=
  served_run faithful bounded related fits (fun _ => unsent_stream rfl)
    (fun choice server allowed => unbroken_full choice server allowed.1.1)
    (fun client server allowed => unbroken_steady client server allowed.1.1) (run_reaches run time)

omit faithful bounded related fits in
theorem paced_unsent (time : Nat) (client : Client) : (run.state time).unsent client =
    ((requests client).map Request.bytes).drop ((run.state time).threads client).requests := by
  have sending : Sending (fun client => (requests client).map Request.bytes) (run.state time) := by
    induction time with
    | zero =>
        rw [run.starts]
        exact sending_started store codes _
    | succ time ih => exact sending_taken ih (take_taken (run.steps time).2)
  exact sending.unsent client

theorem catches_up (fair : FairToClients run) (client : Client) (exitLast : .call .close ∉ (requests client).dropLast)
    (full : ∀ request ∈ requests client, ¬request.LastEmpty) (early : Nat) :
    ∃ time, early ≤ time ∧ ∃ served, CaughtUp (requests client) (run.state time) client served := by
  have served := fun time => @paced_served _ _ _ _ _ _ _ codes _ ready run faithful bounded related fits time
  refine thread_reaches run fair.1 faithful paced_liberal (fun time => ⟨(served time).1, (served time).2.1⟩)
    (fun time => no_exit (run_reaches run time)) (fun time => (served time).2.2 client) early
    (fun server => ∃ served, CaughtUp (requests client) server client served) fun time _ free behind => ?_
  obtain ⟨answers, serving⟩ := (served time).2.2 client
  have unsent := @paced_unsent _ _ _ _ store codes requests ready run time client
  have rests := rests_caught_up unsent exitLast serving
  have stage := serving.stage
  rw [unsent_stream (unsent.trans List.map_drop.symm)] at stage
  rcases stage_cut stage with cut | ⟨all, _, told⟩
  · have fed : ¬EndsEmpty ((requests client).take ((run.state time).threads client).requests) := by
      rintro ⟨request, last, empty⟩
      exact full request (List.mem_of_mem_take (List.mem_of_getLast? last)) empty
    exact able_outside paced_liberal (fun _ => fed) (served time).1 cut
      (fun length next here => serving_allocable serving here) free
      (fun exited => behind ⟨answers, rests (.inl exited)⟩) fun waits => behind ⟨answers, rests (.inr waits)⟩
  · exact absurd ⟨answers, serving, all, told⟩ behind

theorem sends_all (fair : FairToClients run) (client : Client) (exitLast : .call .close ∉ (requests client).dropLast)
    (full : ∀ request ∈ requests client, ¬request.LastEmpty)
    (readies : ∀ time served, CaughtUp (requests client) (run.state time) client served →
      Stored represents start (run.state time) →
      ready client ((run.state time).threads client).requests (repliedTo client (run.state time).trace)) (early : Nat) :
    ∃ time, early ≤ time ∧ (run.state time).unsent client = [] := by
  refine fair_reaches run (fun server => server.unsent client = []) early (fair.2 client)
    (fun server => (server.unsent client).length) Nat.lt_wfRel.wf ?_ ?_ fun waits later behind => ?_
  · intro time _ some own
    have taken := take_taken (run.steps time).2
    rw [own] at taken
    exact unsent_sends taken
  · intro time _ _ other
    rw [unsent_waits (take_taken (run.steps time).2) other]
  · obtain ⟨time, beyond, served, caught⟩ := catches_up faithful bounded related fits fair client exitLast full later
    refine ⟨time, beyond, ⟨⟨⟨trivial, trivial⟩, readies time served caught ?_⟩, ?_⟩⟩
    · exact (paced_served faithful bounded related fits time).2.1
    · cases unsent : (run.state time).unsent client with
      | nil => exact absurd unsent (waits time (le_trans behind beyond))
      | cons request rest => simp only [Server.take, unsent, Option.isSome_some]

end Runs

end MyJQL.PacedService
