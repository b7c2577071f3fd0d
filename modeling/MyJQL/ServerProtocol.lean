import MyJQL.ServerModel
import Mathlib.Data.List.Basic

/-!
# Driver and server stay in step

One call of the driver is a request that the server reads to its last byte, at most one call to the
store, and an answer that the driver reads to its last byte. From that the invariant of a connection
follows for every order in which the parties take their steps, and for any number of connections
that share a store.
-/

namespace MyJQL.ServerProtocol

open MyJQL.ByteStreams
open MyJQL.StateProgram
open MyJQL.KeyValueStore
open MyJQL.ServerModel

set_option autoImplicit false

theorem int_of_bytes_int_bytes {value : Int} (lower : -2 ^ 31 ≤ value) (upper : value < 2 ^ 31) :
    intOfBytes (intBytes value) = value := by
  have digits : intBytes value = [UInt8.ofNat (value % 256).toNat, UInt8.ofNat (value / 256 % 256).toNat,
      UInt8.ofNat (value / 65536 % 256).toNat, UInt8.ofNat (value / 16777216 % 256).toNat] := by
    simp [intBytes, List.range_succ_eq_map]
  rw [digits]
  simp only [intOfBytes, List.foldr_cons, List.foldr_nil, UInt8.toNat_ofNat']
  split_ifs <;> omega

@[simp] theorem int_bytes_length (value : Int) : (intBytes value).length = intSize := by
  simp [intBytes]

theorem as_int_small {size : Nat} (small : size < 2 ^ 31) : asInt size = size :=
  int_of_bytes_int_bytes (by omega) (by omega)

section Scripts

variable {string buffer bytes : Bytes} {next : Script Outcome} {turn last : Turn} {value : Int}
  {remaining : List DriverCall} {outcomes : List Outcome} {returned waiting : DriverState}

theorem server_reads_int {more : Int → Turn} (lower : -2 ^ 31 ≤ value) (upper : value < 2 ^ 31)
    (behind : Consumes serverAction (more value) bytes last) :
    Consumes serverAction (receiveInt more) (intBytes value ++ bytes) last := by
  refine .receive (intBytes value) (show serverAction (receiveInt more) =
    .receive (intBytes value).length fun bytes => more (intOfBytes bytes) from rfl) ?_
  rwa [int_of_bytes_int_bytes lower upper]

theorem driver_reads_int {more : Int → Script Outcome} (lower : -2 ^ 31 ≤ value) (upper : value < 2 ^ 31)
    (behind : Consumes driverAction ⟨some (more value), remaining, outcomes⟩ bytes returned) :
    Consumes driverAction ⟨some (receiveInt more), remaining, outcomes⟩ (intBytes value ++ bytes)
      returned := by
  refine .receive (intBytes value) (show driverAction ⟨some (receiveInt more), remaining, outcomes⟩ =
    .receive (intBytes value).length fun bytes =>
      ⟨some (more (intOfBytes bytes)), remaining, outcomes⟩ from rfl) ?_
  rwa [int_of_bytes_int_bytes lower upper]

theorem receive_buffer_eq {Result : Type} {size : Nat} (more : Bytes → Script Result) :
    receiveBuffer size more = .receive size more := by
  rw [receiveBuffer, if_pos (by omega), Int.toNat_natCast]

theorem server_reads_buffer {more : Bytes → Turn}
    (behind : Consumes serverAction (more buffer) bytes last) :
    Consumes serverAction (receiveBuffer buffer.length more) (buffer ++ bytes) last := by
  rw [receive_buffer_eq]
  exact .receive buffer rfl behind

theorem driver_reads_buffer {more : Bytes → Script Outcome}
    (behind : Consumes driverAction ⟨some (more buffer), remaining, outcomes⟩ bytes returned) :
    Consumes driverAction ⟨some (receiveBuffer buffer.length more), remaining, outcomes⟩ (buffer ++ bytes)
      returned := by
  rw [receive_buffer_eq]
  exact .receive buffer rfl behind

theorem send_buffer_eq {Result : Type} {next : Script Result} :
    sendBuffer buffer buffer.length next = .send buffer next := by
  rw [sendBuffer, if_pos (by omega), Int.toNat_natCast, List.take_length]

theorem driver_sends_string (small : string.length < 2 ^ 31)
    (behind : Produces driverAction ⟨some next, remaining, outcomes⟩ bytes waiting) :
    Produces driverAction ⟨some (sendString string next), remaining, outcomes⟩
      (intBytes string.length ++ (string ++ bytes)) waiting := by
  rw [sendString, as_int_small small, send_buffer_eq]
  exact .send rfl (.send rfl behind)

theorem driver_finishes {outcome : Outcome} :
    Consumes driverAction ⟨some (.finish outcome), remaining, outcomes⟩ []
      ⟨none, remaining, outcomes ++ [outcome]⟩ := .pass rfl (.here _)

theorem server_goes_on : Produces serverAction (.finish true) [] instanceTurn := .pass rfl (.here _)

theorem driver_reads_code {more : Int → Script Outcome} {outcome : Outcome} (lower : -2 ^ 31 ≤ value)
    (upper : value < 2 ^ 31) (ends : more value = .finish outcome) :
    Consumes driverAction ⟨some (receiveInt more), remaining, outcomes⟩ (intBytes value)
      ⟨none, remaining, outcomes ++ [outcome]⟩ := by
  rw [← List.append_nil (intBytes value)]
  apply driver_reads_int lower upper
  rw [ends]
  exact driver_finishes

end Scripts

namespace DriverCall

def Fits : DriverCall → Prop
  | .get key => key.length ≤ 2 ^ 31 - 2
  | .set key value => key.length ≤ 2 ^ 31 - 2 ∧ value.length ≤ 2 ^ 31 - 2
  | .del key => key.length ≤ 2 ^ 31 - 2
  | .close => True

def request : DriverCall → Bytes
  | .get key => intBytes 0 ++ (intBytes key.length ++ (key ++ []))
  | .set key value =>
      intBytes 1 ++ (intBytes key.length ++ (key ++ (intBytes value.length ++ (value ++ []))))
  | .del key => intBytes 2 ++ (intBytes key.length ++ (key ++ []))
  | .close => intBytes 3 ++ []

def reading : DriverCall → Int → Script Outcome
  | .get _ => readGet
  | .set _ _ => readSet
  | .del _ => readDel
  | .close => readClose

def awaiting (call : DriverCall) : Script Outcome := receiveInt (reading call)

def deciding : DriverCall → Turn
  | .get key => decideGet key.length key
  | .set key value => decideSet key.length key value.length value
  | .del key => decideDel key.length key
  | .close => sendInt 1 (.finish false)

def idle : DriverCall → Turn
  | .close => .finish false
  | _ => instanceTurn

def storeCall : DriverCall → Option StoreCall
  | .get key => if key.length > maxStrLen then none else some (.get key maxStrLen)
  | .set key value =>
      if key.length > maxStrLen then none
      else if value.length > maxStrLen then none
      else some (.set key value)
  | .del key => if key.length > maxStrLen then none else some (.del key)
  | .close => none

/-- What a lookup is to the caller: a value as a C string. -/
def lookedUp : StoreAnswer → Outcome
  | none => .missing
  | some (_, value) => .found (cString value)

/-- What the caller gets: the result, or the exception that belongs to the length. -/
def outcome : DriverCall → StoreAnswer → Outcome
  | .get key, answer =>
      if key.length > maxStrLen then .keyTooLong
      else lookedUp answer
  | .set key value, _ =>
      if key.length > maxStrLen then .keyTooLong
      else if value.length > maxStrLen then .valueTooLong
      else .done
  | .del key, _ => if key.length > maxStrLen then .keyTooLong else .done
  | .close, _ => .done

end DriverCall

section OneCall

variable {call : DriverCall} {remaining : List DriverCall} {outcomes : List Outcome}

theorem driver_asks (fits : DriverCall.Fits call) :
    Produces driverAction ⟨some call.script, remaining, outcomes⟩ (DriverCall.request call)
      ⟨some (DriverCall.awaiting call), remaining, outcomes⟩ := by
  cases call with
  | get key =>
      have small : key.length ≤ 2 ^ 31 - 2 := fits
      exact .send rfl (driver_sends_string (by omega) (.here _))
  | set key value =>
      obtain ⟨keySmall, valueSmall⟩ : key.length ≤ 2 ^ 31 - 2 ∧ value.length ≤ 2 ^ 31 - 2 := fits
      exact .send rfl (driver_sends_string (by omega) (driver_sends_string (by omega) (.here _)))
  | del key =>
      have small : key.length ≤ 2 ^ 31 - 2 := fits
      exact .send rfl (driver_sends_string (by omega) (.here _))
  | close => exact .send rfl (.here _)

theorem server_reads_request (fits : DriverCall.Fits call) :
    Consumes serverAction instanceTurn (DriverCall.request call) (DriverCall.deciding call) := by
  cases call with
  | get key =>
      have small : key.length ≤ 2 ^ 31 - 2 := fits
      apply server_reads_int (by omega) (by omega)
      simp only [if_true]
      exact server_reads_int (by omega) (by omega) (server_reads_buffer (.here _))
  | set key value =>
      obtain ⟨keySmall, valueSmall⟩ : key.length ≤ 2 ^ 31 - 2 ∧ value.length ≤ 2 ^ 31 - 2 := fits
      apply server_reads_int (by omega) (by omega)
      rw [if_neg (by omega), if_pos rfl]
      exact server_reads_int (by omega) (by omega) (server_reads_buffer
        (server_reads_int (by omega) (by omega) (server_reads_buffer (.here _))))
  | del key =>
      have small : key.length ≤ 2 ^ 31 - 2 := fits
      apply server_reads_int (by omega) (by omega)
      rw [if_neg (by omega), if_neg (by omega), if_pos rfl]
      exact server_reads_int (by omega) (by omega) (server_reads_buffer (.here _))
  | close =>
      apply server_reads_int (by omega) (by omega)
      rw [if_neg (by omega), if_neg (by omega), if_neg (by omega), if_pos rfl]
      exact .here _

theorem refusal_crosses (code : Int) {turn : Turn} {outcome : Outcome} (lower : -2 ^ 31 ≤ code)
    (upper : code < 2 ^ 31) (sends : turn = sendInt code (.finish true))
    (ends : DriverCall.reading call code = .finish outcome) :
    ∃ bytes next, serverAction turn = .send bytes next ∧ Produces serverAction next [] instanceTurn ∧
      Consumes driverAction ⟨some (DriverCall.awaiting call), remaining, outcomes⟩ bytes
        ⟨none, remaining, outcomes ++ [outcome]⟩ := by
  subst sends
  exact ⟨intBytes code, .finish true, rfl, server_goes_on, driver_reads_code lower upper ends⟩

theorem server_refuses (refused : DriverCall.storeCall call = none) :
    ∃ bytes next, serverAction (DriverCall.deciding call) = .send bytes next ∧
      Produces serverAction next [] (DriverCall.idle call) ∧
      Consumes driverAction ⟨some (DriverCall.awaiting call), remaining, outcomes⟩ bytes
        ⟨none, remaining, outcomes ++ [DriverCall.outcome call none]⟩ := by
  cases call with
  | get key =>
      have long : key.length > maxStrLen := by
        by_contra short
        simp [DriverCall.storeCall, short] at refused
      rw [DriverCall.outcome, if_pos long]
      apply refusal_crosses 2 (by decide) (by decide)
      · rw [DriverCall.deciding, decideGet, if_pos (Int.ofNat_lt.mpr long)]
      · rfl
  | set key value =>
      by_cases long : key.length > maxStrLen
      · rw [DriverCall.outcome, if_pos long]
        apply refusal_crosses 2 (by decide) (by decide)
        · rw [DriverCall.deciding, decideSet, if_pos (Int.ofNat_lt.mpr long)]
        · rfl
      · have valueLong : value.length > maxStrLen := by
          by_contra short
          simp [DriverCall.storeCall, long, short] at refused
        rw [DriverCall.outcome, if_neg long, if_pos valueLong]
        apply refusal_crosses 3 (by decide) (by decide)
        · rw [DriverCall.deciding, decideSet, if_neg (fun more => long (Int.ofNat_lt.mp more)),
            if_pos (Int.ofNat_lt.mpr valueLong)]
        · rfl
  | del key =>
      have long : key.length > maxStrLen := by
        by_contra short
        simp [DriverCall.storeCall, short] at refused
      rw [DriverCall.outcome, if_pos long]
      apply refusal_crosses 2 (by decide) (by decide)
      · rw [DriverCall.deciding, decideDel, if_pos (Int.ofNat_lt.mpr long)]
      · rfl
  | close => exact ⟨intBytes 1, .finish false, rfl, .here _, driver_reads_code (by decide) (by decide) rfl⟩

/-- An answer of the store whose value fits the buffer of the server. -/
def Sensible (answer : StoreAnswer) : Prop :=
  ∀ size value, answer = some (size, value) → value.length = size ∧ size ≤ maxStrLen

theorem acknowledgement_crosses (ends : DriverCall.reading call 1 = .finish .done) :
    ∃ reply, Produces serverAction (sendInt 1 (.finish true)) reply instanceTurn ∧
      Consumes driverAction ⟨some (DriverCall.awaiting call), remaining, outcomes⟩ reply
        ⟨none, remaining, outcomes ++ [.done]⟩ := by
  refine ⟨intBytes 1 ++ [], .send rfl server_goes_on, driver_reads_int (by decide) (by decide) ?_⟩
  rw [ends]
  exact driver_finishes

theorem value_crosses {answer : StoreAnswer} (sensible : Sensible answer) :
    ∃ reply, Produces serverAction (answerGet answer) reply instanceTurn ∧
      Consumes driverAction ⟨some (receiveInt readGet), remaining, outcomes⟩ reply
        ⟨none, remaining, outcomes ++ [DriverCall.lookedUp answer]⟩ := by
  cases answer with
  | none =>
      refine ⟨intBytes 0 ++ [], .send rfl server_goes_on, driver_reads_int (by decide) (by decide) ?_⟩
      exact driver_finishes
  | some answer =>
      obtain ⟨size, value⟩ := answer
      obtain ⟨rfl, small⟩ := sensible size value rfl
      have small : value.length ≤ 1024 := small
      refine ⟨intBytes 1 ++ (intBytes value.length ++ (value ++ [])), ?_, ?_⟩
      · rw [answerGet, send_buffer_eq]
        exact .send rfl (.send rfl (.send rfl server_goes_on))
      · apply driver_reads_int (by decide) (by decide)
        rw [readGet, if_neg (by decide), if_pos rfl]
        apply driver_reads_int (by omega) (by omega)
        exact driver_reads_buffer driver_finishes

theorem server_performs {storeCall : StoreCall} (accepted : DriverCall.storeCall call = some storeCall) :
    ∃ next, serverAction (DriverCall.deciding call) = .perform storeCall next ∧
      ∀ answer, Sensible answer → ∃ reply, Produces serverAction (next answer) reply (DriverCall.idle call) ∧
        Consumes driverAction ⟨some (DriverCall.awaiting call), remaining, outcomes⟩ reply
          ⟨none, remaining, outcomes ++ [DriverCall.outcome call answer]⟩ := by
  cases call with
  | get key =>
      have short : ¬key.length > maxStrLen := by
        intro long
        simp [DriverCall.storeCall, long] at accepted
      rw [DriverCall.storeCall, if_neg short, Option.some.injEq] at accepted
      subst accepted
      refine ⟨answerGet, ?_, ?_⟩
      · rw [DriverCall.deciding, decideGet, if_neg (fun more => short (Int.ofNat_lt.mp more))]
        rfl
      · intro answer sensible
        simp only [DriverCall.outcome, if_neg short]
        exact value_crosses sensible
  | set key value =>
      have short : ¬key.length > maxStrLen := by
        intro long
        simp [DriverCall.storeCall, long] at accepted
      have valueShort : ¬value.length > maxStrLen := by
        intro long
        simp [DriverCall.storeCall, long] at accepted
      rw [DriverCall.storeCall, if_neg short, if_neg valueShort, Option.some.injEq] at accepted
      subst accepted
      refine ⟨fun _ => sendInt 1 (.finish true), ?_, ?_⟩
      · rw [DriverCall.deciding, decideSet, if_neg (fun more => short (Int.ofNat_lt.mp more)),
          if_neg (fun more => valueShort (Int.ofNat_lt.mp more))]
        rfl
      · intro answer _
        simp only [DriverCall.outcome, if_neg short, if_neg valueShort]
        exact acknowledgement_crosses rfl
  | del key =>
      have short : ¬key.length > maxStrLen := by
        intro long
        simp [DriverCall.storeCall, long] at accepted
      rw [DriverCall.storeCall, if_neg short, Option.some.injEq] at accepted
      subst accepted
      refine ⟨fun _ => sendInt 1 (.finish true), ?_, ?_⟩
      · rw [DriverCall.deciding, decideDel, if_neg (fun more => short (Int.ofNat_lt.mp more))]
        rfl
      · intro answer _
        simp only [DriverCall.outcome, if_neg short]
        exact acknowledgement_crosses rfl
  | close => cases accepted

end OneCall

/-- A call that has returned, with the store operation it led to. -/
structure Exchange where
  call : DriverCall
  performed : Option (StoreCall × StoreAnswer)
  outcome : Outcome

/-- The operation is the one that the call stands for, and the caller got what belongs to its answer. -/
structure Exchange.Proper (exchange : Exchange) : Prop where
  asked : exchange.performed.map Prod.fst = DriverCall.storeCall exchange.call
  returned : exchange.outcome = DriverCall.outcome exchange.call (exchange.performed.bind Prod.snd)

/-- Where the server rests between two calls: the destructor has ended its thread. -/
def restingTurn (remaining : List DriverCall) : Turn :=
  if remaining = [] then .finish false else instanceTurn

/-- A connection lets an answer cross, or has let it cross, or it lets a request cross. -/
inductive Stage (calls : List DriverCall) (performed : List (StoreCall × StoreAnswer))
    (link : Connection) : Prop
  | answering (history : List Exchange) (remaining : List DriverCall)
      (split : calls = history.map Exchange.call ++ remaining)
      (proper : ∀ exchange ∈ history, exchange.Proper)
      (logged : performed = history.filterMap Exchange.performed)
      (crossing : Answering driverAction serverAction link
        ⟨none, remaining, history.map Exchange.outcome⟩ (restingTurn remaining))
  | asking (history : List Exchange) (call : DriverCall) (remaining : List DriverCall)
      (split : calls = history.map Exchange.call ++ call :: remaining)
      (proper : ∀ exchange ∈ history, exchange.Proper)
      (logged : performed = history.filterMap Exchange.performed)
      (within : link.client.remaining = remaining)
      (crossing : Asking driverAction serverAction link
        ⟨some (DriverCall.awaiting call), remaining, history.map Exchange.outcome⟩
        (DriverCall.deciding call))

/-- What clients are made of: calls that fit, and the destructor behind them. -/
structure Session (calls : List DriverCall) : Prop where
  fits : ∀ call ∈ calls, DriverCall.Fits call
  closes : ∀ front call remaining, calls = front ++ call :: remaining → (remaining = [] ↔ call = .close)

section OneConnection

variable {calls remaining : List DriverCall} {performed : List (StoreCall × StoreAnswer)}
  {link after : Connection} {call : DriverCall} {outcomes : List Outcome} {history : List Exchange}

theorem resting_turn_rests (next : Turn) (bytes : Bytes) (more : Bytes → Turn) :
    serverAction (restingTurn remaining) ≠ .pass next ∧
      serverAction (restingTurn remaining) ≠ .send bytes next ∧
      serverAction (restingTurn remaining) ≠ .receive 0 more := by
  rw [restingTurn]
  split_ifs <;> simp [serverAction, instanceTurn, receiveInt]

theorem returned_driver_returns (count : Nat) (more : Bytes → DriverState) (bytes : Bytes)
    (next : DriverState) :
    driverAction ⟨none, remaining, outcomes⟩ ≠ .receive count more ∧
      driverAction ⟨none, remaining, outcomes⟩ ≠ .send bytes next := by
  cases remaining <;> simp [driverAction]

theorem deciding_turn_decides (next : Turn) (count : Nat) (more : Bytes → Turn) :
    serverAction (DriverCall.deciding call) ≠ .pass next ∧
      serverAction (DriverCall.deciding call) ≠ .receive count more := by
  cases asked : DriverCall.storeCall call with
  | none =>
      obtain ⟨_, _, acts, _⟩ := @server_refuses call [] [] asked
      simp [acts]
  | some storeCall =>
      obtain ⟨_, acts, _⟩ := @server_performs call [] [] storeCall asked
      simp [acts]

theorem idle_eq_resting (session : Session calls)
    (split : calls = history.map Exchange.call ++ call :: remaining) :
    DriverCall.idle call = restingTurn remaining := by
  have closes := session.closes _ _ _ split
  cases call with
  | close => rw [restingTurn, if_pos (closes.mpr rfl)]; rfl
  | get key => rw [restingTurn, if_neg (fun none => by simpa using closes.mp none)]; rfl
  | set key value => rw [restingTurn, if_neg (fun none => by simpa using closes.mp none)]; rfl
  | del key => rw [restingTurn, if_neg (fun none => by simpa using closes.mp none)]; rfl

/-- A call joins the history when its answer begins to cross. -/
theorem stage_answers (answered : Option (StoreCall × StoreAnswer))
    (split : calls = history.map Exchange.call ++ call :: remaining)
    (proper : ∀ exchange ∈ history, exchange.Proper)
    (logged : performed = history.filterMap Exchange.performed)
    (asked : answered.map Prod.fst = DriverCall.storeCall call)
    (crossing : Answering driverAction serverAction after ⟨none, remaining, history.map Exchange.outcome ++
      [DriverCall.outcome call (answered.bind Prod.snd)]⟩ (restingTurn remaining)) :
    Stage calls (performed ++ answered.toList) after := by
  let exchange : Exchange := ⟨call, answered, DriverCall.outcome call (answered.bind Prod.snd)⟩
  refine .answering (history ++ [exchange]) remaining (by simp [split, exchange]) ?_ ?_ (by simpa [exchange])
  · intro other member
    rcases List.mem_append.mp member with old | new
    · exact proper other old
    · rw [List.mem_singleton.mp new]
      exact ⟨asked, rfl⟩
  · rw [logged, List.filterMap_append]
    cases answered <;> simp [exchange]

theorem driver_step_remaining (step : LinkStep driverAction serverAction link after) :
    after.client.remaining = link.client.remaining ∨
      ∃ call, link.client.remaining = call :: after.client.remaining := by
  cases step with
  | clientPass acts =>
      obtain ⟨⟨running, waiting, returned⟩, server, up, down⟩ := link
      cases running with
      | none =>
          cases waiting with
          | nil => cases acts
          | cons call waiting =>
              cases acts
              exact .inr ⟨call, rfl⟩
      | some script =>
          cases script <;> cases acts
          exact .inl rfl
  | clientSend acts =>
      obtain ⟨⟨running, waiting, returned⟩, server, up, down⟩ := link
      cases running with
      | none => cases waiting <;> cases acts
      | some script =>
          cases script <;> cases acts
          exact .inl rfl
  | clientReceive acts arrived =>
      obtain ⟨⟨running, waiting, returned⟩, server, up, down⟩ := link
      cases running with
      | none => cases waiting <;> cases acts
      | some script =>
          cases script <;> cases acts
          exact .inl rfl
  | serverPass acts => exact .inl rfl
  | serverSend acts => exact .inl rfl
  | serverReceive acts arrived => exact .inl rfl

theorem driver_pass_remaining {state next : DriverState} (acts : driverAction state = .pass next) :
    next.remaining.length ≤ state.remaining.length := by
  have step : LinkStep driverAction serverAction ⟨state, instanceTurn, [], []⟩ ⟨next, instanceTurn, [], []⟩ :=
    .clientPass acts
  rcases driver_step_remaining step with same | ⟨call, taken⟩
  · exact Nat.le_of_eq (congrArg List.length same)
  · have taken : state.remaining = call :: next.remaining := taken
    rw [taken]
    simp

theorem driver_send_remaining {state next : DriverState} {bytes : Bytes}
    (acts : driverAction state = .send bytes next) :
    next.remaining.length ≤ state.remaining.length := by
  have step : LinkStep driverAction serverAction ⟨state, instanceTurn, [], []⟩
      ⟨next, instanceTurn, [] ++ bytes, []⟩ := .clientSend acts
  rcases driver_step_remaining step with same | ⟨call, taken⟩
  · exact Nat.le_of_eq (congrArg List.length same)
  · have taken : state.remaining = call :: next.remaining := taken
    rw [taken]
    simp

theorem driver_produces_remaining {state last : DriverState} {bytes : Bytes}
    (sends : Produces driverAction state bytes last) :
    last.remaining.length ≤ state.remaining.length := by
  induction sends with
  | here _ => exact Nat.le_refl _
  | pass acts _ ih => exact Nat.le_trans ih (driver_pass_remaining acts)
  | send acts _ ih => exact Nat.le_trans ih (driver_send_remaining acts)

theorem stage_step (session : Session calls) (stage : Stage calls performed link)
    (step : LinkStep driverAction serverAction link after) : Stage calls performed after := by
  cases stage with
  | answering history remaining split proper logged crossing =>
      rcases answering_step crossing resting_turn_rests returned_driver_returns step with
        still | ⟨crossed, next, acts, rfl⟩
      · exact .answering history remaining split proper logged still
      · cases remaining with
        | nil => cases acts
        | cons call remaining =>
            cases acts
            have fits := session.fits call (by simp [split])
            have resting : restingTurn (call :: remaining) = instanceTurn := if_neg (by simp)
            rw [resting] at crossed
            refine .asking history call remaining split proper logged rfl ⟨rfl, _, driver_asks fits, ?_⟩
            exact produces_nothing_consumes crossed.2 (server_reads_request fits)
  | asking history call remaining split proper logged within crossing =>
      rcases asking_step crossing ⟨3, _, rfl⟩ deciding_turn_decides step with
        still | ⟨crossed, bytes, next, acts, rfl⟩
      · refine .asking history call remaining split proper logged ?_ still
        obtain ⟨_, rest, sends, _⟩ := still
        have least : remaining.length ≤ after.client.remaining.length := driver_produces_remaining sends
        rcases driver_step_remaining step with same | ⟨taken, fewer⟩
        · rw [same, within]
        · rw [within] at fewer
          rw [fewer, List.length_cons] at least
          omega
      · cases asked : DriverCall.storeCall call with
        | none =>
            obtain ⟨sent, turn, sends, goesOn, reads⟩ := server_refuses asked
            rw [sends] at acts
            cases acts
            rw [idle_eq_resting session split] at goesOn
            have answers := stage_answers none split proper logged asked.symm
              (answering_begins crossed goesOn (by simpa using reads))
            simpa using answers
        | some storeCall =>
            obtain ⟨_, performs, _⟩ := @server_performs call [] [] storeCall asked
            rw [performs] at acts
            cases acts

/-- So do calls to the store, and they are the calls that the driver made. -/
theorem stage_perform {storeCall : StoreCall} {next : StoreAnswer → Turn} {answer : StoreAnswer}
    (session : Session calls) (stage : Stage calls performed link)
    (acts : serverAction link.server = .perform storeCall next) :
    (∃ call, DriverCall.storeCall call = some storeCall) ∧ (Sensible answer →
      Stage calls (performed ++ [(storeCall, answer)]) { link with server := next answer }) := by
  cases stage with
  | answering history remaining split proper logged crossing =>
      refine absurd acts (answering_performs_nothing crossing fun other more => ?_)
      rw [restingTurn]
      split_ifs <;> simp [serverAction, instanceTurn, receiveInt]
  | asking history call remaining split proper logged within crossing =>
      obtain ⟨here, crossed⟩ := asking_performs crossing acts
      rw [here] at acts
      cases asked : DriverCall.storeCall call with
      | none =>
          obtain ⟨_, _, sends, _⟩ := @server_refuses call [] [] asked
          rw [sends] at acts
          cases acts
      | some other =>
          obtain ⟨more, performs, replies⟩ := server_performs asked
          rw [performs] at acts
          cases acts
          refine ⟨⟨call, asked⟩, fun sensible => ?_⟩
          obtain ⟨reply, sends, reads⟩ := replies answer sensible
          rw [idle_eq_resting session split] at sends
          have empty : link.down = [] := crossing.1
          rw [empty]
          exact stage_answers (some (storeCall, answer)) split proper logged asked.symm
            (answering_begins crossed sends reads)

end OneConnection

end MyJQL.ServerProtocol
