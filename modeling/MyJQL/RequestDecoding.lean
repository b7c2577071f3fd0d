import MyJQL.ThreadProgress

/-!
# Requests in pieces

A thread takes it that every `recv` returns all the bytes it was asked for. As long as that is so, and no
socket fails, the operations for a connection are its requests, however the stream arrives. One `recv` that
returns less is enough for an operation that nobody asked for.
-/

namespace MyJQL.RequestDecoding

open MyJQL.FairRuns
open MyJQL.StateProgram
open MyJQL.KeyValueStore
open MyJQL.ServerModel
open MyJQL.ServerProtocol
open MyJQL.ServerSystem
open MyJQL.ServerThreads
open MyJQL.ThreadSafety
open MyJQL.RequestService
open MyJQL.ClientService
open MyJQL.ThreadProgress

set_option autoImplicit false

/-- Every `recv` returns as many bytes as it was asked for, and no socket fails. -/
def Unbroken {Client Store : Type} : Choice Client Store → Server Client Store → Prop
  | .move client (.receive count), server => count = (server.threads client).asked
  | .move _ .fail, _ => False
  | _, _ => True

instance {Client Store : Type} :
    ∀ (choice : Choice Client Store) (server : Server Client Store), Decidable (Unbroken choice server)
  | .move client (.receive count), server => inferInstanceAs (Decidable (count = (server.threads client).asked))
  | .move _ .fail, _ => inferInstanceAs (Decidable False)
  | .move _ (.allocate _), _ | .move _ .go, _ | .send _, _ | .close _, _ | .enter _, _ | .perform _, _
  | .finish _, _ | .clash _ _ _, _ | .leave _, _ => inferInstanceAs (Decidable True)

section Runs

variable {Client Store : Type} [DecidableEq Client] {represents : Bindings → Store → Prop}
  {backend : StoreCall → Program Store StoreAnswer} {start : Bindings} {server : Server Client Store}
  {client : Client}

omit [DecidableEq Client] in
theorem unbroken_full (choice : Choice Client Store) (server : Server Client Store)
    (unbroken : Unbroken choice server) : FullLength choice server := by
  cases choice with
  | move client move =>
      cases move with
      | receive count => exact unbroken
      | fail | allocate _ | go => trivial
  | send _ | close _ | enter _ | perform _ | finish _ | clash _ _ _ | leave _ => trivial

omit [DecidableEq Client] in
theorem unbroken_liberal : Liberal False (@Unbroken Client Store) := by
  intro choice server _ full _ noFault _
  cases choice with
  | move client move =>
      cases move with
      | receive count => exact full
      | fail => exact absurd rfl (noFault client)
      | allocate _ | go => trivial
  | send _ | close _ | enter _ | perform _ | finish _ | clash _ _ _ | leave _ => trivial

theorem speaks_exited {request : Request} {bytes : Bytes} (speaks : Speaks request.Rests .exited bytes) :
    bytes = [] ∧ request = .call .close := by
  cases speaks with
  | here rests =>
      rw [Request.Rests] at rests
      split_ifs at rests with closes
      · exact ⟨rfl, closes⟩
      · obtain ⟨code, same⟩ := rests
        cases same

theorem last_closes {requests : List Request} {front back : List Request} (exitLast : .call .close ∉ requests.dropLast)
    (split : requests = front ++ .call .close :: back) : back = [] := by
  cases back with
  | nil => rfl
  | cons request back =>
      rw [split, List.dropLast_append_of_ne_nil (by simp)] at exitLast
      simp at exitLast

/-- A thread that has left its loop without an error has served all requests up to the exit request, and has
replied to them. -/
theorem exited_served {requests : List Request} {tail ahead said : Bytes} {turn : Nat} {served : List Served}
    (exitLast : .call .close ∉ requests.dropLast) (stage : Stage False requests tail ahead turn .exited served said) :
    served.map Prod.fst = requests ∧ said = repliesTo served := by
  cases stage with
  | awaiting code here all goesOn place nothing told => cases here
  | reading request back rest split place takes part left told =>
      cases takes with
      | here decided =>
          generalize same : request.reply none = reply at decided
          cases decided with
          | refused unasked speaks =>
              obtain ⟨silent, rfl⟩ := speaks_exited speaks
              cases silent
  | asking request back call raw next split place here asked asks left told =>
      rcases here with here | here <;> cases here
  | replying front request answer back rest unsaid split last place here speaks left told =>
      rcases here with here | here
      · cases here
      · rw [← here] at speaks
        obtain ⟨rfl, rfl⟩ := speaks_exited speaks
        rw [last, List.map_append, List.append_assoc] at split
        obtain rfl := last_closes exitLast split
        rw [split, last, List.map_append]
        exact ⟨rfl, by rw [← last, ← told, List.append_nil]⟩
  | ended cause _ _ _ _ => exact absurd cause not_false

/-- A thread that waits while nothing comes has served all requests, and has replied to them. -/
theorem waiting_served {requests : List Request} {said : Bytes} {turn : Nat} {code : Int} {served : List Served}
    (stage : Stage False requests [] [] turn (instanceThread code) served said) :
    served.map Prod.fst = requests ∧ said = repliesTo served := by
  generalize here : instanceThread code = routine at stage
  have receives : Receiving routine := .inl ⟨_, _, _, here.symm⟩
  cases stage with
  | awaiting _ _ all _ _ _ told => exact ⟨all.symm, told⟩
  | reading request back rest split place takes part left told =>
      rw [(List.append_eq_nil_iff.mp left.symm).1] at takes
      generalize none : ([] : Bytes) = bytes at takes
      cases takes with
      | here decided =>
          cases decided with
          | refused _ speaks => exact absurd receives (speaks_not_receiving speaks)
          | accepted _ _ => cases here
      | recv asks room _ behind =>
          cases here
          rw [(List.append_eq_nil_iff.mp none.symm).1] at asks
          exact absurd asks (by decide)
      | malloc _ _ => cases here
      | terminate _ _ => cases here
  | asking request back call raw next split place inside asked asks left told =>
      rcases inside with rfl | rfl <;> cases here
  | replying front request answer back rest unsaid split last place inside speaks left told =>
      rcases inside with rfl | rfl
      · cases here
      · exact absurd receives (speaks_not_receiving speaks)
  | ended cause _ _ _ _ => exact absurd cause not_false

theorem at_rest_served {requests : List Request} {served : List Served} (exitLast : .call .close ∉ requests.dropLast)
    (serving : Serving False requests [] server client served) (rest : AtRest server client) :
    served.map Prod.fst = requests ∧ repliedTo client server.trace = repliesTo served := by
  have stage := serving.stage
  rcases rest with exited | ⟨⟨code, waits⟩, arrived, sent⟩
  · rw [exited] at stage
    exact exited_served exitLast stage
  · rw [waits, arrived, sent] at stage
    exact waiting_served stage

omit [DecidableEq Client] in
theorem unbroken_steady (client : Client) (server : Server Client Store)
    (allowed : Unbroken (.move client .fail) server) : False := allowed

/-- However the bytes of the requests arrive: the operations for a connection are those of its first requests,
each with its key and value, and in the end those of all its requests. -/
theorem requests_decoded (faithful : Faithful represents backend) (bounded : Bounded start) {store : Store}
    (related : represents start store) (codes : Client → Int) (requests : Client → List Request)
    (fits : ∀ client, ∀ request ∈ requests client, request.Fits)
    (exitLast : ∀ client, .call .close ∉ (requests client).dropLast) (streams : Client → List Bytes)
    (sent : ∀ client, (streams client).flatten = streamOf (requests client)) :
    (∀ server, Relation.ReflTransGen (Step Unbroken backend) (Server.started store codes streams) server →
      ∀ client, ∃ served, served.map Prod.fst <+: requests client ∧
        operationsOf client server.trace = performedBy served ∧
        (AtRest server client → served.map Prod.fst = requests client)) ∧
    ∀ run : EndlessRun (Turn Unbroken backend) (Server.started store codes streams), FairToAll run →
      ∀ client early, (run.state early).unsent client = [] → ∃ time, early ≤ time ∧
        ∃ served, served.map Prod.fst = requests client ∧
          operationsOf client (run.state time).trace = performedBy served := by
  have safe : ∀ server, Relation.ReflTransGen (Step Unbroken backend) (Server.started store codes streams) server →
      Disciplined server ∧ Stored represents start server ∧
        ∀ client, ∃ served, Serving False (requests client) [] server client served :=
    fun server run => served_run faithful bounded related fits sent unbroken_full unbroken_steady run
  refine ⟨fun server run client => ?_, fun run fair client early all => ?_⟩
  · obtain ⟨_, _, serving⟩ := safe server run
    obtain ⟨served, serving⟩ := serving client
    exact ⟨served, serving_shorter serving, serving.performed,
      fun rest => (at_rest_served (exitLast client) serving rest).1⟩
  · have reached : ∀ time, Relation.ReflTransGen (Step Unbroken backend) (Server.started store codes streams)
        (run.state time) := run_reaches run
    obtain ⟨time, later, rest⟩ := comes_to_rest run fair faithful unbroken_liberal False.elim
      (fun time => ⟨(safe _ (reached time)).1, (safe _ (reached time)).2.1⟩)
      (fun time => no_exit (reached time)) (fun time => (safe _ (reached time)).2.2 client) early all
    obtain ⟨served, serving⟩ := (safe _ (reached time)).2.2 client
    exact ⟨time, later, served, (at_rest_served (exitLast client) serving rest).1, serving.performed⟩

end Runs

def deletion : List Request := [.call (.del [97, 98])]

def lengthReceived : List (Choice Unit Bindings) :=
  [.send (), .move () (.receive 4), .move () (.receive 4), .move () (.allocate [7, 7, 7])]

def carriedOut : List (Choice Unit Bindings) :=
  [.move () .go, .enter (), .perform (), .finish (), .leave (), .move () .go, .move () .go]

def deleting : Server Unit Bindings := .started noBindings (fun _ => 0) fun _ => deletion.map Request.bytes

theorem requests_decoded_deletion : ∃ (server : Server Unit Bindings) (served : List Served),
    deleting.run Unbroken mapStore (lengthReceived ++ .move () (.receive 2) :: carriedOut) = some server ∧
      served.map Prod.fst = deletion ∧ operationsOf () server.trace = performedBy served := by
  obtain ⟨server, ran, rest⟩ : ∃ server,
      deleting.run Unbroken mapStore (lengthReceived ++ .move () (.receive 2) :: carriedOut) = some server ∧
        AtRest server () := ⟨_, rfl, .inr ⟨⟨1, rfl⟩, rfl, rfl⟩⟩
  have decoded := requests_decoded map_store_faithful nothing_bounded rfl (fun _ => 0) (fun _ : Unit => deletion)
    (by simp [deletion, Request.Fits, DriverCall.Fits]) (by simp [deletion]) (fun _ => deletion.map Request.bytes)
    fun _ => rfl
  obtain ⟨served, _, performed, all⟩ := decoded.1 server (run_steps ran) ()
  exact ⟨server, served, ran, all rest, performed⟩

/-- The `recv` for the key returns one byte of two. -/
theorem another_key_deleted : ¬∀ server : Server Unit Bindings,
    Relation.ReflTransGen (Step AnyLength mapStore) deleting server →
      ∃ served, served.map Prod.fst <+: deletion ∧ operationsOf () server.trace = performedBy served := by
  obtain ⟨server, ran, performed⟩ : ∃ server,
      deleting.run AnyLength mapStore (lengthReceived ++ .move () (.receive 1) :: carriedOut) = some server ∧
        operationsOf () server.trace = [(0, .del [97, 7], none)] := ⟨_, rfl, rfl⟩
  intro decoded
  obtain ⟨served, first, same⟩ := decoded server (run_steps ran)
  rw [performed] at same
  cases served with
  | nil => cases same
  | cons entry rest =>
      obtain ⟨request, answer⟩ := entry
      obtain ⟨rfl, _⟩ := List.cons_prefix_cons.mp first
      simp [performedBy, Request.storeCall, DriverCall.storeCall, maxStrLen] at same

end MyJQL.RequestDecoding
