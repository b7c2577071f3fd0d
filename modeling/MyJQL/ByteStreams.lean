import Mathlib.Logic.Relation
import Mathlib.Data.List.Basic
import Mathlib.Tactic.TypeStar

/-!
# Two parties over reliable byte streams

Two sequential parties are joined by one first-in first-out byte stream in each direction. A receive
of some count waits until that many bytes are there and takes exactly those; a send never waits. A
call to something outside is an action of its own, and whoever owns the outside decides when it
happens. Nothing here knows what the parties are.

A request is under way when what one party still sends is what the other still reads. Both facts are
relations on single parties, so they are shown by following one program at a time; that they survive
every interleaving is shown here once.
-/

namespace MyJQL.ByteStreams

set_option autoImplicit false

inductive Action (Call Answer State : Type*) where
  | halt
  | pass (next : State)
  | send (bytes : List UInt8) (next : State)
  | receive (count : Nat) (next : List UInt8 → State)
  | perform (call : Call) (next : Answer → State)

section OneParty

variable {Call Answer State : Type*} {action : State → Action Call Answer State}

/-- The party reads exactly these bytes, sends nothing, and is then in the last state. -/
inductive Consumes (action : State → Action Call Answer State) : State → List UInt8 → State → Prop
  | here (state : State) : Consumes action state [] state
  | pass {state next last : State} {bytes : List UInt8} (acts : action state = .pass next)
      (behind : Consumes action next bytes last) : Consumes action state bytes last
  | sendNothing {state next last : State} {bytes : List UInt8} (acts : action state = .send [] next)
      (behind : Consumes action next bytes last) : Consumes action state bytes last
  | receive {state last : State} {next : List UInt8 → State} (first : List UInt8) {bytes : List UInt8}
      (acts : action state = .receive first.length next)
      (behind : Consumes action (next first) bytes last) : Consumes action state (first ++ bytes) last

/-- The party sends exactly these bytes, reads nothing, and is then in the last state. -/
inductive Produces (action : State → Action Call Answer State) : State → List UInt8 → State → Prop
  | here (state : State) : Produces action state [] state
  | pass {state next last : State} {bytes : List UInt8} (acts : action state = .pass next)
      (behind : Produces action next bytes last) : Produces action state bytes last
  | send {state next last : State} {first bytes : List UInt8} (acts : action state = .send first next)
      (behind : Produces action next bytes last) : Produces action state (first ++ bytes) last

theorem produces_nothing_consumes {state middle last : State} {bytes : List UInt8}
    (silent : Produces action state [] middle) (reads : Consumes action middle bytes last) :
    Consumes action state bytes last := by
  generalize none : ([] : List UInt8) = sent at silent
  induction silent with
  | here _ => exact reads
  | pass acts _ ih => exact .pass acts (ih reads none)
  | @send _ _ _ first sent acts _ ih =>
      obtain ⟨rfl, rfl⟩ := List.append_eq_nil_iff.mp none.symm
      exact .sendNothing acts (ih reads rfl)

theorem produces_inv {state last : State} {bytes : List UInt8} (sends : Produces action state bytes last) :
    (state = last ∧ bytes = []) ∨ (∃ next, action state = .pass next ∧ Produces action next bytes last) ∨
      ∃ first rest next, action state = .send first next ∧ bytes = first ++ rest ∧
        Produces action next rest last := by
  cases sends with
  | here _ => exact .inl ⟨rfl, rfl⟩
  | pass acts behind => exact .inr (.inl ⟨_, acts, behind⟩)
  | send acts behind => exact .inr (.inr ⟨_, _, _, acts, rfl, behind⟩)

theorem consumes_inv {state last : State} {bytes : List UInt8} (reads : Consumes action state bytes last) :
    (state = last ∧ bytes = []) ∨ (∃ next, action state = .pass next ∧ Consumes action next bytes last) ∨
      (∃ next, action state = .send [] next ∧ Consumes action next bytes last) ∨
      ∃ first rest next, action state = .receive first.length next ∧ bytes = first ++ rest ∧
        Consumes action (next first) rest last := by
  cases reads with
  | here _ => exact .inl ⟨rfl, rfl⟩
  | pass acts behind => exact .inr (.inl ⟨_, acts, behind⟩)
  | sendNothing acts behind => exact .inr (.inr (.inl ⟨_, acts, behind⟩))
  | receive first acts behind => exact .inr (.inr (.inr ⟨_, _, _, acts, rfl, behind⟩))

end OneParty

section OneDirection

variable {Call Answer Sender Reader : Type*} {sending : Sender → Action Call Answer Sender}
  {reading : Reader → Action Call Answer Reader} {sender sent : Sender} {reader read : Reader}
  {queue : List UInt8}

/-- What the sender still sends, behind what is on its way, is what the reader still reads. -/
def Crossing (sending : Sender → Action Call Answer Sender) (reading : Reader → Action Call Answer Reader)
    (sender : Sender) (queue : List UInt8) (reader : Reader) (sent : Sender) (read : Reader) : Prop :=
  ∃ rest, Produces sending sender rest sent ∧ Consumes reading reader (queue ++ rest) read

def Crossed (sending : Sender → Action Call Answer Sender) (sender : Sender) (queue : List UInt8)
    (sent : Sender) : Prop := queue = [] ∧ Produces sending sender [] sent

theorem crossing_sender_pass {next : Sender} (crossing : Crossing sending reading sender queue reader sent read)
    (acts : sending sender = .pass next) (stops : ∀ other, sending sent ≠ .pass other) :
    Crossing sending reading next queue reader sent read := by
  obtain ⟨rest, sends, reads⟩ := crossing
  rcases produces_inv sends with ⟨rfl, _⟩ | ⟨other, same, behind⟩ | ⟨_, _, _, same, _⟩
  · exact absurd acts (stops next)
  · rw [acts] at same
    cases same
    exact ⟨rest, behind, reads⟩
  · rw [acts] at same
    cases same

theorem crossing_sender_send {next : Sender} {bytes : List UInt8}
    (crossing : Crossing sending reading sender queue reader sent read)
    (acts : sending sender = .send bytes next) (stops : ∀ bytes other, sending sent ≠ .send bytes other) :
    Crossing sending reading next (queue ++ bytes) reader sent read := by
  obtain ⟨rest, sends, reads⟩ := crossing
  rcases produces_inv sends with ⟨rfl, _⟩ | ⟨other, same, _⟩ | ⟨first, behindRest, other, same, rfl, behind⟩
  · exact absurd acts (stops bytes next)
  · rw [acts] at same
    cases same
  · rw [acts] at same
    cases same
    exact ⟨behindRest, behind, by rwa [List.append_assoc]⟩

theorem crossing_sender_done (crossing : Crossing sending reading sender queue reader sent read)
    (notPass : ∀ next, sending sender ≠ .pass next) (notSend : ∀ bytes next, sending sender ≠ .send bytes next) :
    sender = sent ∧ Consumes reading reader queue read := by
  obtain ⟨rest, sends, reads⟩ := crossing
  rcases produces_inv sends with ⟨rfl, rfl⟩ | ⟨other, same, _⟩ | ⟨_, _, other, same, _⟩
  · exact ⟨rfl, by rwa [List.append_nil] at reads⟩
  · exact absurd same (notPass other)
  · exact absurd same (notSend _ other)

theorem crossing_crossed (crossing : Crossing sending reading sender queue reader sent read)
    (notPass : ∀ next, reading reader ≠ .pass next) (notSend : ∀ next, reading reader ≠ .send [] next)
    (notReceive : ∀ count next, reading reader ≠ .receive count next) :
    reader = read ∧ Crossed sending sender queue sent := by
  obtain ⟨rest, sends, reads⟩ := crossing
  rcases consumes_inv reads with ⟨same, none⟩ | ⟨other, same, _⟩ | ⟨other, same, _⟩ | ⟨_, _, other, same, _⟩
  · obtain ⟨rfl, rfl⟩ := List.append_eq_nil_iff.mp none
    exact ⟨same, rfl, sends⟩
  · exact absurd same (notPass other)
  · exact absurd same (notSend other)
  · exact absurd same (notReceive _ other)

theorem crossing_reader_pass {next : Reader} (crossing : Crossing sending reading sender queue reader sent read)
    (acts : reading reader = .pass next) :
    (reader = read ∧ Crossed sending sender queue sent) ∨
      Crossing sending reading sender queue next sent read := by
  obtain ⟨rest, sends, reads⟩ := crossing
  rcases consumes_inv reads with ⟨same, none⟩ | ⟨other, same, behind⟩ | ⟨other, same, _⟩ | ⟨_, _, other, same, _⟩
  · obtain ⟨rfl, rfl⟩ := List.append_eq_nil_iff.mp none
    exact .inl ⟨same, rfl, sends⟩
  all_goals
    rw [acts] at same
    cases same
  exact .inr ⟨rest, sends, behind⟩

theorem crossing_reader_send {next : Reader} {bytes : List UInt8}
    (crossing : Crossing sending reading sender queue reader sent read)
    (acts : reading reader = .send bytes next) :
    (reader = read ∧ Crossed sending sender queue sent) ∨
      (bytes = [] ∧ Crossing sending reading sender queue next sent read) := by
  obtain ⟨rest, sends, reads⟩ := crossing
  rcases consumes_inv reads with ⟨same, none⟩ | ⟨other, same, _⟩ | ⟨other, same, behind⟩ | ⟨_, _, other, same, _⟩
  · obtain ⟨rfl, rfl⟩ := List.append_eq_nil_iff.mp none
    exact .inl ⟨same, rfl, sends⟩
  all_goals
    rw [acts] at same
    cases same
  exact .inr ⟨rfl, rest, sends, behind⟩

theorem crossing_reader_receive {first tail : List UInt8} {next : List UInt8 → Reader}
    (crossing : Crossing sending reading sender queue reader sent read)
    (acts : reading reader = .receive first.length next) (arrived : queue = first ++ tail)
    (stops : ∀ count other, reading read ≠ .receive count other) :
    Crossing sending reading sender tail (next first) sent read := by
  obtain ⟨rest, sends, reads⟩ := crossing
  rcases consumes_inv reads with ⟨rfl, _⟩ | ⟨other, same, _⟩ | ⟨other, same, _⟩ |
    ⟨taken, left, other, same, split, behind⟩
  · exact absurd acts (stops _ next)
  · rw [acts] at same
    cases same
  · rw [acts] at same
    cases same
  · rw [acts] at same
    obtain ⟨sameLength, sameNext⟩ := Action.receive.inj same
    subst sameNext
    rw [arrived, List.append_assoc] at split
    obtain ⟨rfl, rfl⟩ := List.append_inj split sameLength
    exact ⟨rest, sends, behind⟩

end OneDirection

structure Link (Client Server : Type*) where
  client : Client
  server : Server
  up : List UInt8
  down : List UInt8

section TwoParties

variable {Call Answer Client Server : Type*} {clientAction : Client → Action Call Answer Client}
  {serverAction : Server → Action Call Answer Server}

/-- The steps that need nothing outside the two parties. -/
inductive LinkStep (clientAction : Client → Action Call Answer Client)
    (serverAction : Server → Action Call Answer Server) : Link Client Server → Link Client Server → Prop
  | clientPass {link : Link Client Server} {next : Client} (acts : clientAction link.client = .pass next) :
      LinkStep clientAction serverAction link { link with client := next }
  | clientSend {link : Link Client Server} {bytes : List UInt8} {next : Client}
      (acts : clientAction link.client = .send bytes next) :
      LinkStep clientAction serverAction link { link with client := next, up := link.up ++ bytes }
  | clientReceive {link : Link Client Server} {first rest : List UInt8} {next : List UInt8 → Client}
      (acts : clientAction link.client = .receive first.length next) (arrived : link.down = first ++ rest) :
      LinkStep clientAction serverAction link { link with client := next first, down := rest }
  | serverPass {link : Link Client Server} {next : Server} (acts : serverAction link.server = .pass next) :
      LinkStep clientAction serverAction link { link with server := next }
  | serverSend {link : Link Client Server} {bytes : List UInt8} {next : Server}
      (acts : serverAction link.server = .send bytes next) :
      LinkStep clientAction serverAction link { link with server := next, down := link.down ++ bytes }
  | serverReceive {link : Link Client Server} {first rest : List UInt8} {next : List UInt8 → Server}
      (acts : serverAction link.server = .receive first.length next) (arrived : link.up = first ++ rest) :
      LinkStep clientAction serverAction link { link with server := next first, up := rest }

/-- A request crosses to the server: the client will then wait, the server decide. -/
def Asking (clientAction : Client → Action Call Answer Client)
    (serverAction : Server → Action Call Answer Server) (link : Link Client Server) (waiting : Client)
    (deciding : Server) : Prop :=
  link.down = [] ∧ Crossing clientAction serverAction link.client link.up link.server waiting deciding

/-- An answer crosses to the client, which then returns; the server will then be idle. -/
def Answering (clientAction : Client → Action Call Answer Client)
    (serverAction : Server → Action Call Answer Server) (link : Link Client Server) (returned : Client)
    (idle : Server) : Prop :=
  link.up = [] ∧ Crossing serverAction clientAction link.server link.down link.client idle returned

variable {link after : Link Client Server} {waiting returned : Client} {deciding idle : Server}

theorem answering_begins {client : Client} {server : Server} {up sent reply : List UInt8}
    (crossed : Crossed clientAction client up waiting) (sends : Produces serverAction server reply idle)
    (reads : Consumes clientAction waiting (sent ++ reply) returned) :
    Answering clientAction serverAction ⟨client, server, up, sent⟩ returned idle :=
  ⟨crossed.1, reply, sends, produces_nothing_consumes crossed.2 reads⟩

/-- Whatever step comes next, a request keeps crossing until the server, having read it, sends. -/
theorem asking_step (asking : Asking clientAction serverAction link waiting deciding)
    (waits : ∃ count next, clientAction waiting = .receive (count + 1) next)
    (decides : ∀ next count more, serverAction deciding ≠ .pass next ∧ serverAction deciding ≠ .receive count more)
    (step : LinkStep clientAction serverAction link after) :
    Asking clientAction serverAction after waiting deciding ∨
      (Crossed clientAction link.client link.up waiting ∧ ∃ bytes next,
        serverAction deciding = .send bytes next ∧ after = ⟨link.client, next, link.up, bytes⟩) := by
  obtain ⟨empty, crossing⟩ := asking
  obtain ⟨count, more, waits⟩ := waits
  cases step with
  | clientPass acts =>
      exact .inl ⟨empty, crossing_sender_pass crossing acts (by rw [waits]; simp)⟩
  | clientSend acts =>
      exact .inl ⟨empty, crossing_sender_send crossing acts (by rw [waits]; simp)⟩
  | clientReceive acts arrived =>
      obtain ⟨same, _⟩ := crossing_sender_done crossing (by rw [acts]; simp) (by rw [acts]; simp)
      rw [empty] at arrived
      rw [(List.append_eq_nil_iff.mp arrived.symm).1, same, waits] at acts
      cases acts
  | serverPass acts =>
      rcases crossing_reader_pass crossing acts with ⟨same, _⟩ | still
      · exact absurd (same ▸ acts) (decides _ 0 (fun _ => deciding)).1
      · exact .inl ⟨empty, still⟩
  | serverSend acts =>
      rcases crossing_reader_send crossing acts with ⟨same, crossed⟩ | ⟨rfl, still⟩
      · exact .inr ⟨crossed, _, _, same ▸ acts, by rw [empty, List.nil_append]⟩
      · exact .inl ⟨by simp [empty], still⟩
  | serverReceive acts arrived =>
      refine .inl ⟨empty, crossing_reader_receive crossing acts arrived ?_⟩
      intro count other
      exact (decides deciding count other).2

/-- While a request crosses, a call can only be performed once the server has decided. -/
theorem asking_performs {call : Call} {next : Answer → Server}
    (asking : Asking clientAction serverAction link waiting deciding)
    (acts : serverAction link.server = .perform call next) :
    link.server = deciding ∧ Crossed clientAction link.client link.up waiting :=
  crossing_crossed asking.2 (by rw [acts]; simp) (by rw [acts]; simp) (by rw [acts]; simp)

/-- Whatever step comes next, an answer keeps crossing until the client, having read it, goes on. -/
theorem answering_step (answering : Answering clientAction serverAction link returned idle)
    (rests : ∀ next bytes more, serverAction idle ≠ .pass next ∧ serverAction idle ≠ .send bytes next ∧
      serverAction idle ≠ .receive 0 more)
    (returns : ∀ count more bytes next, clientAction returned ≠ .receive count more ∧
      clientAction returned ≠ .send bytes next)
    (step : LinkStep clientAction serverAction link after) :
    Answering clientAction serverAction after returned idle ∨
      (Crossed serverAction link.server link.down idle ∧ ∃ next, clientAction returned = .pass next ∧
        after = ⟨next, link.server, [], []⟩) := by
  obtain ⟨empty, crossing⟩ := answering
  cases step with
  | clientPass acts =>
      rcases crossing_reader_pass crossing acts with ⟨same, crossed⟩ | still
      · exact .inr ⟨crossed, _, same ▸ acts, by rw [empty, crossed.1]⟩
      · exact .inl ⟨empty, still⟩
  | clientSend acts =>
      rcases crossing_reader_send crossing acts with ⟨same, _⟩ | ⟨rfl, still⟩
      · exact absurd (same ▸ acts) (returns 0 (fun _ => returned) _ _).2
      · exact .inl ⟨by simp [empty], still⟩
  | clientReceive acts arrived =>
      refine .inl ⟨empty, crossing_reader_receive crossing acts arrived ?_⟩
      exact fun count more => (returns count more [] returned).1
  | serverPass acts =>
      refine .inl ⟨empty, crossing_sender_pass crossing acts ?_⟩
      exact fun other => (rests other [] fun _ => other).1
  | serverSend acts =>
      refine .inl ⟨empty, crossing_sender_send crossing acts ?_⟩
      exact fun bytes other => (rests other bytes fun _ => other).2.1
  | serverReceive acts arrived =>
      obtain ⟨same, _⟩ := crossing_sender_done crossing (by rw [acts]; simp) (by rw [acts]; simp)
      rw [empty] at arrived
      rw [(List.append_eq_nil_iff.mp arrived.symm).1, same] at acts
      exact absurd acts (rests idle [] _).2.2

theorem answering_performs_nothing {call : Call} {next : Answer → Server}
    (answering : Answering clientAction serverAction link returned idle)
    (rests : ∀ call next, serverAction idle ≠ .perform call next) :
    serverAction link.server ≠ .perform call next := by
  intro acts
  obtain ⟨same, _⟩ := crossing_sender_done answering.2 (by rw [acts]; simp) (by rw [acts]; simp)
  exact rests call next (same ▸ acts)

variable {client : Client} {server : Server} {up down rest : List UInt8}

theorem client_sends (sends : Produces clientAction client rest waiting) :
    Relation.ReflTransGen (LinkStep clientAction serverAction) ⟨client, server, up, down⟩
      ⟨waiting, server, up ++ rest, down⟩ := by
  induction sends generalizing up with
  | here _ => rw [List.append_nil]
  | pass acts _ ih => exact .head (.clientPass acts) ih
  | send acts _ ih =>
      rw [← List.append_assoc]
      exact .head (.clientSend acts) ih

theorem client_reads (reads : Consumes clientAction client down returned) :
    Relation.ReflTransGen (LinkStep clientAction serverAction) ⟨client, server, up, down⟩
      ⟨returned, server, up, []⟩ := by
  induction reads generalizing up with
  | here _ => exact .refl
  | pass acts _ ih => exact .head (.clientPass acts) ih
  | sendNothing acts _ ih =>
      refine .head (.clientSend acts) ?_
      simpa using ih
  | receive first acts _ ih => exact .head (.clientReceive acts rfl) ih

theorem server_sends (sends : Produces serverAction server rest idle) :
    Relation.ReflTransGen (LinkStep clientAction serverAction) ⟨client, server, up, down⟩
      ⟨client, idle, up, down ++ rest⟩ := by
  induction sends generalizing down with
  | here _ => rw [List.append_nil]
  | pass acts _ ih => exact .head (.serverPass acts) ih
  | send acts _ ih =>
      rw [← List.append_assoc]
      exact .head (.serverSend acts) ih

theorem server_reads (reads : Consumes serverAction server up deciding) :
    Relation.ReflTransGen (LinkStep clientAction serverAction) ⟨client, server, up, down⟩
      ⟨client, deciding, [], down⟩ := by
  induction reads generalizing down with
  | here _ => exact .refl
  | pass acts _ ih => exact .head (.serverPass acts) ih
  | sendNothing acts _ ih =>
      refine .head (.serverSend acts) ?_
      simpa using ih
  | receive first acts _ ih => exact .head (.serverReceive acts rfl) ih

theorem asking_completes (asking : Asking clientAction serverAction link waiting deciding) :
    Relation.ReflTransGen (LinkStep clientAction serverAction) link ⟨waiting, deciding, [], []⟩ := by
  obtain ⟨empty, rest, sends, reads⟩ := asking
  refine (client_sends sends).trans ?_
  rw [empty]
  exact server_reads reads

theorem answering_completes (answering : Answering clientAction serverAction link returned idle) :
    Relation.ReflTransGen (LinkStep clientAction serverAction) link ⟨returned, idle, [], []⟩ := by
  obtain ⟨empty, rest, sends, reads⟩ := answering
  refine (server_sends sends).trans ?_
  rw [empty]
  exact client_reads reads

end TwoParties

end MyJQL.ByteStreams
