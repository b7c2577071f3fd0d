import MyJQL.RequestService

/-!
# The driver on a connection that breaks

A transcription of `client::get`, `client::set`, `client::del` and the destructor in `myjqlclient.cpp` down
to the single system call. Any call may fail, and a `recv` may return fewer bytes than it asks for, or wait
for ever on a connection on which nothing more comes. What it does not write stays as it was, and a stream
that has ended is no error. So `code` may hold the last size that was sent where the driver takes it for the
reply. The signal `SIGPIPE` of a `send` that fails is not modelled: here the driver reports the error.
-/

namespace MyJQL.DriverCalls

open MyJQL.KeyValueStore
open MyJQL.ServerModel
open MyJQL.ServerProtocol
open MyJQL.ServerThreads
open MyJQL.ThreadSafety
open MyJQL.RequestService

set_option autoImplicit false

abbrev socketError : Int := -1

/-- How a call of the client ends: as it ends on a connection that holds, or with a `system_error` of this
name. -/
inductive Report where
  | outcome (outcome : Outcome)
  | failed (msg : String)
  deriving DecidableEq

namespace Report

def what : Report → Option String
  | outcome .missing | outcome (.found _) | outcome .done => none
  | outcome .keyTooLong => some "key is too long"
  | outcome .valueTooLong => some "value is too long"
  | outcome (.systemError _) => some "unknown return code"
  | failed msg => some msg

def Returns (report : Report) : Prop := report.what = none

instance (report : Report) : Decidable report.Returns := inferInstanceAs (Decidable (_ = _))

end Report

/-- What is left to do of a call. System calls return a count, or `SOCKET_ERROR`; `recvNull` is a `recv` to
`NULL`; `undefined` is where the C++ program has no meaning any more. -/
inductive Conversation where
  | finish (report : Report)
  | undefined
  | send (buffer : Bytes) (count : Int) (next : Int → Conversation)
  | recv (buffer : Bytes) (count : Int) (next : Bytes → Int → Conversation)
  | recvNull (next : Int → Conversation)
  | malloc (length : Int) (next : Option Bytes → Conversation)
  | shutdown (next : Int → Conversation)

def sendFrom (buffer : Bytes) (count : Int) (next : Conversation) : Conversation :=
  .send buffer count fun iResult => if iResult = socketError then .finish (.failed "send") else next

def sendCode (code : Int) (next : Conversation) : Conversation := sendFrom (intBytes code) intSize next

def recvInto (buffer : Bytes) (count : Int) (next : Bytes → Int → Conversation) : Conversation :=
  .recv buffer count fun buffer iResult =>
    if iResult = socketError then .finish (.failed "recv") else next buffer iResult

def recvCode (code : Int) (next : Int → Conversation) : Conversation :=
  recvInto (intBytes code) intSize fun bytes _ => next (intOfBytes bytes)

/-- The size of a `std::string_view`, and its bytes. -/
def sendText (text : Bytes) (next : Conversation) : Conversation :=
  sendCode (asInt text.length) (sendFrom text (asInt text.length) next)

/-- `buf[code] = 0; std::string res = buf;` -/
def takeValue (buf : Bytes) (code : Int) : Conversation :=
  if 0 ≤ code ∧ code.toNat < buf.length then .finish (.outcome (.found (cString (buf.set code.toNat 0))))
  else .undefined

/-- `malloc(code + 1)`, and `recv` of `code` bytes. -/
def recvValue (code : Int) : Conversation :=
  .malloc code fun
    | some buf => recvInto buf code fun buf iResult =>
        if iResult ≠ code then .finish (.failed "incomplete response") else takeValue buf code
    | none => .recvNull fun iResult =>
        if iResult = socketError then .finish (.failed "recv")
        else if iResult ≠ code then .finish (.failed "incomplete response") else takeValue [] code

def replyToGet (code : Int) : Conversation :=
  if code = 0 then .finish (.outcome .missing)
  else if code = 1 then recvCode code recvValue
  else if code = 2 then .finish (.outcome .keyTooLong)
  else .finish (.outcome (.systemError code))

def replyToSet (code : Int) : Conversation :=
  if code = 1 then .finish (.outcome .done)
  else if code = 2 then .finish (.outcome .keyTooLong)
  else if code = 3 then .finish (.outcome .valueTooLong)
  else .finish (.outcome (.systemError code))

def replyToDel (code : Int) : Conversation :=
  if code = 1 then .finish (.outcome .done)
  else if code = 2 then .finish (.outcome .keyTooLong)
  else .finish (.outcome (.systemError code))

/-- The destructor ends at the first error, and says nothing of it. -/
def closeConnection : Conversation :=
  .send (intBytes 3) intSize fun iResult =>
    if iResult = socketError then .finish (.outcome .done)
    else .recv (intBytes 3) intSize fun _ iResult =>
      if iResult = socketError then .finish (.outcome .done)
      else .shutdown fun _ => .finish (.outcome .done)

/-- What `code` holds when the reply is to be received. -/
def lastSize : DriverCall → Nat
  | .get key => key.length
  | .set _ value => value.length
  | .del key => key.length
  | .close => 3

def afterReply : DriverCall → Int → Conversation
  | .get _ => replyToGet
  | .set _ _ => replyToSet
  | .del _ => replyToDel
  | .close => fun _ => .finish (.outcome .done)

def conversation : DriverCall → Conversation
  | .get key => sendCode 0 (sendText key (recvCode (asInt key.length) replyToGet))
  | .set key value => sendCode 1 (sendText key (sendText value (recvCode (asInt value.length) replyToSet)))
  | .del key => sendCode 2 (sendText key (recvCode (asInt key.length) replyToDel))
  | .close => closeConnection

/-- Which of the system calls fail, for how many bytes a `recv` waits (for all that it asks for where this says
nothing), what is in a new buffer, and whether the stream ends behind the bytes that come. -/
structure Network where
  fails : Nat → Bool
  pieces : Nat → Option Nat
  fresh : Nat → Bytes
  ends : Bool

/-- How many bytes a `recv` returns, unless it waits for ever: it waits for one byte at least, also where it
asks for none. -/
def Network.delivered (network : Network) (turn asked : Nat) (stream : Bytes) : Option Nat :=
  let count := (network.pieces turn).elim asked fun piece => min asked (max 1 piece)
  if network.ends = true ∨ max 1 count ≤ stream.length then some (min count stream.length) else none

/-- The report of a conversation, what it sends, and what it leaves of the stream. The system calls are
counted. -/
def Conversation.run (network : Network) : Conversation → Nat → Bytes → Option (Report × Bytes × Bytes)
  | .finish report, _, stream => some (report, [], stream)
  | .undefined, _, _ => none
  | .send buffer count next, turn, stream =>
      if network.fails turn then (next socketError).run network (turn + 1) stream
      else do
        let bytes ← bufferPrefix buffer count
        let (report, sent, rest) ← (next bytes.length).run network (turn + 1) stream
        some (report, bytes ++ sent, rest)
  | .recv buffer count next, turn, stream =>
      if network.fails turn then (next buffer socketError).run network (turn + 1) stream
      else do
        let count ← network.delivered turn (sizeT count) stream
        if count ≤ buffer.length then
          (next (stream.take count ++ buffer.drop count) count).run network (turn + 1) (stream.drop count)
        else none
  | .recvNull next, turn, stream =>
      -- bytes that are there cannot be written, the end of the stream is no error
      if network.fails turn ∨ stream ≠ [] then (next socketError).run network (turn + 1) stream
      else if network.ends then (next 0).run network (turn + 1) stream
      else none
  | .malloc length next, turn, stream =>
      (next ((allocated length).map ((network.fresh turn).takeD · 0))).run network (turn + 1) stream
  | .shutdown next, turn, stream =>
      (next (if network.fails turn then socketError else 0)).run network (turn + 1) stream

/-- No system call fails. -/
def Network.Calm (network : Network) : Prop := ∀ turn, network.fails turn = false

/-- A `recv` returns as many bytes as it asks for, if they come. -/
def Network.Whole (network : Network) : Prop := ∀ turn, network.pieces turn = none

/-- A `recv` of so many bytes does not wait for ever. -/
def Network.Gives (network : Network) (asked : Nat) (stream : Bytes) : Prop :=
  network.ends = true ∨ max 1 asked ≤ stream.length

/-- The connection ends behind the bytes that come. -/
structure Network.Settled (network : Network) : Prop where
  whole : network.Whole
  ends : network.ends = true

theorem settled_gives {network : Network} (settled : network.Settled) (asked : Nat) (stream : Bytes) :
    network.Gives asked stream := .inl settled.ends

theorem delivered_whole {network : Network} {turn asked : Nat} {stream : Bytes} (whole : network.Whole)
    (gives : network.Gives asked stream) : network.delivered turn asked stream = some (stream.take asked).length := by
  rw [Network.delivered, whole turn, List.length_take]
  exact if_pos gives

/-- The conversation ends with this report and leaves this of the stream, unless a system call fails. -/
def Reports (network : Network) (conversation : Conversation) (turn : Nat) (stream : Bytes) (report : Report)
    (rest : Bytes) : Prop :=
  (∃ sent, conversation.run network turn stream = some (report, sent, rest)) ∨
    ∃ msg sent left, conversation.run network turn stream = some (.failed msg, sent, left) ∧ ¬network.Calm

section Rules

variable {network : Network} {next : Conversation} {turn : Nat} {stream rest buffer bytes : Bytes} {report : Report}
  {code count : Int}

theorem not_calm (fails : network.fails turn = true) : ¬network.Calm := by
  intro calm
  rw [calm turn] at fails
  cases fails

theorem reports_finish : Reports network (.finish report) turn stream report stream := .inl ⟨[], rfl⟩

theorem counted (bytes : Bytes) : (bytes.length : Int) ≠ socketError := by
  rw [socketError]
  omega

theorem send_runs (goes : network.fails turn = false) (whole : bufferPrefix buffer count = some bytes) :
    (sendFrom buffer count next).run network turn stream = (do
      let (report, sent, rest) ← next.run network (turn + 1) stream
      some (report, bytes ++ sent, rest)) := by
  rw [sendFrom, Conversation.run, goes, if_neg Bool.false_ne_true, whole, Option.bind_eq_bind, Option.bind_some,
    if_neg (counted bytes)]

theorem recv_runs {next : Bytes → Int → Conversation} (goes : network.fails turn = false) (whole : network.Whole)
    (gives : network.Gives (sizeT count) stream) (room : (stream.take (sizeT count)).length ≤ buffer.length) :
    (recvInto buffer count next).run network turn stream =
      (next (stream.take (sizeT count) ++ buffer.drop (stream.take (sizeT count)).length)
        (stream.take (sizeT count)).length).run network (turn + 1) (stream.drop (sizeT count)) := by
  have first : stream.take (stream.take (sizeT count)).length = stream.take (sizeT count) := by
    rw [List.length_take, ← List.take_eq_take_min]
  have left : stream.drop (stream.take (sizeT count)).length = stream.drop (sizeT count) := by
    rw [List.length_take, ← List.drop_eq_drop_min]
  rw [recvInto, Conversation.run, goes, if_neg Bool.false_ne_true, delivered_whole whole gives, Option.bind_eq_bind,
    Option.bind_some, if_pos room, if_neg (counted _), first, left]

theorem reports_send (whole : bufferPrefix buffer count = some bytes)
    (behind : Reports network next (turn + 1) stream report rest) :
    Reports network (sendFrom buffer count next) turn stream report rest := by
  cases fails : network.fails turn
  · have ran : (sendFrom buffer count next).run network turn stream = _ := send_runs fails whole
    rcases behind with ⟨sent, same⟩ | ⟨msg, sent, left, same, faulty⟩
    · exact .inl ⟨bytes ++ sent, by rw [ran, same]; rfl⟩
    · exact .inr ⟨msg, bytes ++ sent, left, by rw [ran, same]; rfl, faulty⟩
  · refine .inr ⟨"send", [], stream, ?_, not_calm fails⟩
    rw [sendFrom, Conversation.run, if_pos fails, if_pos rfl, Conversation.run]

theorem reports_recv {next : Bytes → Int → Conversation} {taken : Bytes} (whole : network.Whole)
    (gives : network.Gives (sizeT count) stream) (arrives : stream.take (sizeT count) = taken)
    (room : taken.length ≤ buffer.length)
    (behind : Reports network (next (taken ++ buffer.drop taken.length) taken.length) (turn + 1)
      (stream.drop (sizeT count)) report rest) :
    Reports network (recvInto buffer count next) turn stream report rest := by
  subst arrives
  cases fails : network.fails turn
  · rw [Reports, recv_runs fails whole gives room]
    exact behind
  · refine .inr ⟨"recv", [], stream, ?_, not_calm fails⟩
    rw [recvInto, Conversation.run, if_pos fails, if_pos rfl, Conversation.run]

theorem reports_malloc {length : Int} {size : Nat} {next : Option Bytes → Conversation}
    (found : allocated length = some size)
    (behind : ∀ fresh : Bytes, fresh.length = size →
      Reports network (next (some fresh)) (turn + 1) stream report rest) :
    Reports network (.malloc length next) turn stream report rest := by
  have ran : (Conversation.malloc length next).run network turn stream =
      (next (some ((network.fresh turn).takeD size 0))).run network (turn + 1) stream := by
    rw [Conversation.run, found, Option.map_some]
  rw [Reports, ran]
  exact behind _ (List.takeD_length _ _ _)

/-- What is in `code` after a `recv` from this stream. -/
def overwritten (code : Int) (stream : Bytes) : Int :=
  intOfBytes (stream.take intSize ++ (intBytes code).drop (stream.take intSize).length)

theorem reports_recv_code {next : Int → Conversation} (whole : network.Whole) (gives : network.Gives intSize stream)
    (behind : Reports network (next (overwritten code stream)) (turn + 1) (stream.drop intSize) report rest) :
    Reports network (recvCode code next) turn stream report rest := by
  refine reports_recv whole gives rfl ?_ behind
  rw [int_bytes_length]
  exact List.length_take_le _ _

theorem text_whole {text : Bytes} (small : text.length < 2 ^ 31) :
    bufferPrefix text (asInt text.length) = some text := by
  rw [as_int_small small, bufferPrefix, if_pos ⟨by omega, by omega⟩, Int.toNat_natCast, List.take_length]

theorem code_whole (code : Int) : bufferPrefix (intBytes code) intSize = some (intBytes code) := by
  rw [bufferPrefix, if_pos (by rw [int_bytes_length]; decide),
    List.take_of_length_le (by rw [int_bytes_length]; decide)]

theorem reports_send_code (behind : Reports network next (turn + 1) stream report rest) :
    Reports network (sendCode code next) turn stream report rest :=
  reports_send (code_whole code) behind

theorem reports_send_text {text : Bytes} (small : text.length < 2 ^ 31)
    (behind : Reports network next (turn + 2) stream report rest) :
    Reports network (sendText text next) turn stream report rest :=
  reports_send_code (reports_send (text_whole small) behind)

theorem reports_value {size : Nat} (small : size < 2 ^ 31 - 1) (whole : network.Whole)
    (gives : network.Gives size stream) :
    Reports network (recvValue size) turn stream
      (if size ≤ stream.length then .outcome (.found (cString (stream.take size)))
        else .failed "incomplete response") (stream.drop size) := by
  have found : allocated size = some (size + 1) := by
    rw [allocated, if_pos (by omega)]
    rfl
  refine reports_malloc found fun fresh room => ?_
  have asked : sizeT (size : Int) = size := by rw [size_t_small (by omega) (by omega), Int.toNat_natCast]
  refine reports_recv whole (by rwa [asked]) rfl (by rw [asked, List.length_take]; omega) ?_
  rw [asked]
  by_cases all : size ≤ stream.length
  · have count : (stream.take size).length = size := by rw [List.length_take]; omega
    have inside : 0 ≤ (size : Int) ∧ (size : Int).toNat < (stream.take size ++ fresh.drop size).length := by
      rw [List.length_append, List.length_drop, count]
      omega
    obtain ⟨last, left⟩ : ∃ last, fresh.drop size = [last] := by
      apply List.length_eq_one_iff.mp
      rw [List.length_drop]
      omega
    have ends : cString (stream.take size ++ [0]) = cString (stream.take size) := by
      rw [cString, List.takeWhile_append]
      split_ifs with every
      · have same := (List.takeWhile_prefix _).eq_of_length every
        rw [cString, same]
        exact List.append_nil _
      · rfl
    rw [count, if_neg (by simp), if_pos all, takeValue, if_pos inside, Int.toNat_natCast, left,
      List.set_append_right _ _ (by omega), count, Nat.sub_self, List.set_cons_zero, ends]
    exact reports_finish
  · have count : (stream.take size).length ≠ size := by rw [List.length_take]; omega
    rw [if_pos (by exact_mod_cast count), if_neg all]
    exact reports_finish

theorem waits_send (calm : network.Calm) (whole : bufferPrefix buffer count = some bytes)
    (behind : next.run network (turn + 1) stream = none) :
    (sendFrom buffer count next).run network turn stream = none := by
  rw [send_runs (calm turn) whole, behind]
  rfl

theorem waits_recv_code {next : Int → Conversation} (calm : network.Calm) (whole : network.Whole)
    (gives : network.Gives intSize stream)
    (behind : (next (overwritten code stream)).run network (turn + 1) (stream.drop intSize) = none) :
    (recvCode code next).run network turn stream = none := by
  have asked : network.Gives (sizeT (intSize : Int)) stream := gives
  have room : (stream.take (sizeT intSize)).length ≤ (intBytes code).length := by
    rw [int_bytes_length]
    exact List.length_take_le _ _
  rw [recvCode, recv_runs (calm turn) whole asked room]
  exact behind

theorem waits_value (calm : network.Calm) (whole : network.Whole) (opened : network.ends = false) :
    (recvValue 0).run network turn [] = none := by
  have nothing : network.delivered (turn + 1) (sizeT 0) [] = none := by
    rw [Network.delivered, opened, whole (turn + 1)]
    rfl
  have found : allocated 0 = some 1 := rfl
  rw [recvValue, Conversation.run, found, Option.map_some]
  dsimp only
  rw [recvInto, Conversation.run, calm (turn + 1), if_neg Bool.false_ne_true, nothing]
  rfl

end Rules

section Codes

variable {code value : Int} {stream rest : Bytes}

theorem overwritten_whole (lower : -2 ^ 31 ≤ value) (upper : value < 2 ^ 31) :
    overwritten code (intBytes value ++ rest) = value := by
  have first : (intBytes value ++ rest).take intSize = intBytes value := List.take_left' (int_bytes_length value)
  rw [overwritten, first, List.drop_of_length_le (by rw [int_bytes_length, int_bytes_length]), List.append_nil,
    int_of_bytes_int_bytes lower upper]

theorem int_of_digits {first second third fourth : Nat} (small : first < 256) (small' : second < 256)
    (small'' : third < 256) (least : fourth < 128) :
    intOfBytes [UInt8.ofNat first, UInt8.ofNat second, UInt8.ofNat third, UInt8.ofNat fourth] =
      first + 256 * (second + 256 * (third + 256 * fourth)) := by
  simp only [intOfBytes, List.foldr_cons, List.foldr_nil, UInt8.toNat_ofNat', Nat.reducePow, Nat.mod_eq_of_lt small,
    Nat.mod_eq_of_lt small', Nat.mod_eq_of_lt small'', Nat.mod_eq_of_lt (lt_trans least (by decide : 128 < 256))]
  rw [if_pos (by omega)]
  omega

theorem int_digits (least : 0 ≤ value) (most : value < 2 ^ 31) : ∃ first second third fourth : Nat,
    first < 256 ∧ second < 256 ∧ third < 256 ∧ fourth < 128 ∧
      value = first + 256 * (second + 256 * (third + 256 * fourth)) ∧
      intBytes value = [UInt8.ofNat first, UInt8.ofNat second, UInt8.ofNat third, UInt8.ofNat fourth] := by
  refine ⟨(value % 256).toNat, (value / 256 % 256).toNat, (value / 65536 % 256).toNat,
    (value / 16777216 % 256).toNat, by omega, by omega, by omega, by omega, by omega, ?_⟩
  simp [intBytes, List.range_succ_eq_map]

theorem overwritten_part (part : stream <+: intBytes value) (least : 0 ≤ value) (most : value < 2 ^ 31)
    (least' : 0 ≤ code) (most' : code < 2 ^ 31) :
    overwritten code stream =
      value % 256 ^ stream.length + code / 256 ^ stream.length * 256 ^ stream.length := by
  obtain ⟨length, short, rfl⟩ : ∃ length ≤ 4, stream = (intBytes value).take length :=
    ⟨stream.length, part.length_le.trans_eq (int_bytes_length value), List.prefix_iff_eq_take.mp part⟩
  have size : ((intBytes value).take length).length = length := by
    rw [List.length_take, int_bytes_length]
    exact Nat.min_eq_left short
  rw [overwritten, List.take_of_length_le (by rw [size]; exact short), size]
  obtain ⟨a, b, c, d, smallA, smallB, smallC, smallD, rfl, bytes⟩ := int_digits least most
  obtain ⟨a', b', c', d', smallA', smallB', smallC', smallD', rfl, bytes'⟩ := int_digits least' most'
  rw [bytes, bytes']
  obtain rfl | rfl | rfl | rfl | rfl : length = 0 ∨ length = 1 ∨ length = 2 ∨ length = 3 ∨ length = 4 := by omega
  all_goals
    simp only [List.take_zero, List.take_succ_cons, List.drop_zero, List.drop_succ_cons, List.nil_append,
      List.cons_append, Int.reducePow]
    rw [int_of_digits (by assumption) (by assumption) (by assumption) (by assumption)]
    omega

theorem overwritten_nothing (least : 0 ≤ code) (most : code < 2 ^ 31) : overwritten code [] = code := by
  have empty : [] <+: intBytes 0 := List.nil_prefix
  rw [overwritten_part empty (by decide) (by decide) least most]
  simp

/-- One byte decides what a small code is not. -/
theorem overwritten_low (part : stream <+: intBytes value) (some : stream ≠ []) (least : 0 ≤ value)
    (most : value < 2 ^ 31) (least' : 0 ≤ code) (most' : code < 2 ^ 31) :
    overwritten code stream % 256 = value % 256 := by
  have short : stream.length ≤ 4 := part.length_le.trans_eq (int_bytes_length value)
  have long : 0 < stream.length := List.length_pos_iff.mpr some
  rw [overwritten_part part least most least' most']
  obtain same | same | same | same : stream.length = 1 ∨ stream.length = 2 ∨ stream.length = 3 ∨ stream.length = 4 :=
    by omega
  all_goals
    rw [same]
    omega

end Codes

section Calls

variable {network : Network} {turn : Nat} {stream rest : Bytes} {report : Report} {call : DriverCall} {code : Int}

/-- What the code of the reply means to the calls that expect no more than it. -/
def setOutcome (code : Int) : Outcome :=
  if code = 1 then .done else if code = 2 then .keyTooLong else if code = 3 then .valueTooLong else .systemError code

def delOutcome (code : Int) : Outcome :=
  if code = 1 then .done else if code = 2 then .keyTooLong else .systemError code

theorem reply_to_set_eq (code : Int) : replyToSet code = .finish (.outcome (setOutcome code)) := by
  rw [replyToSet, setOutcome]
  split_ifs <;> rfl

theorem reply_to_del_eq (code : Int) : replyToDel code = .finish (.outcome (delOutcome code)) := by
  rw [replyToDel, delOutcome]
  split_ifs <;> rfl

theorem reports_request (whole : network.Whole) (gives : network.Gives intSize stream) (fits : DriverCall.Fits call)
    (goesOn : call ≠ .close)
    (behind : ∀ turn, Reports network (afterReply call (overwritten (lastSize call) stream)) turn
      (stream.drop intSize) report rest) :
    Reports network (conversation call) turn stream report rest := by
  cases call with
  | get key =>
      have fits : key.length ≤ 2 ^ 31 - 2 := fits
      refine reports_send_code (reports_send_text (by omega) (reports_recv_code whole gives ?_))
      rw [as_int_small (by omega)]
      exact behind _
  | set key value =>
      obtain ⟨keyFits, valueFits⟩ : key.length ≤ 2 ^ 31 - 2 ∧ value.length ≤ 2 ^ 31 - 2 := fits
      refine reports_send_code (reports_send_text (by omega) (reports_send_text (by omega) ?_))
      refine reports_recv_code whole gives ?_
      rw [as_int_small (by omega)]
      exact behind _
  | del key =>
      have fits : key.length ≤ 2 ^ 31 - 2 := fits
      refine reports_send_code (reports_send_text (by omega) (reports_recv_code whole gives ?_))
      rw [as_int_small (by omega)]
      exact behind _
  | close => exact absurd rfl goesOn

theorem set_reports {key value : Bytes} (whole : network.Whole) (fits : DriverCall.Fits (.set key value))
    (stream : Bytes) (gives : network.Gives intSize stream) :
    Reports network (conversation (.set key value)) turn stream
      (.outcome (setOutcome (overwritten value.length stream))) (stream.drop intSize) := by
  refine reports_request whole gives fits (by simp) fun turn => ?_
  rw [afterReply, reply_to_set_eq]
  exact reports_finish

theorem del_reports {key : Bytes} (whole : network.Whole) (fits : DriverCall.Fits (.del key)) (stream : Bytes)
    (gives : network.Gives intSize stream) :
    Reports network (conversation (.del key)) turn stream
      (.outcome (delOutcome (overwritten key.length stream))) (stream.drop intSize) := by
  refine reports_request whole gives fits (by simp) fun turn => ?_
  rw [afterReply, reply_to_del_eq]
  exact reports_finish

/-- What `get` makes of a code and of what is behind it. -/
def getReport (code : Int) (stream : Bytes) : Report :=
  if code = 0 then .outcome .missing
  else if code = 1 then
    if (overwritten 1 stream).toNat ≤ (stream.drop intSize).length then
      .outcome (.found (cString ((stream.drop intSize).take (overwritten 1 stream).toNat)))
    else .failed "incomplete response"
  else if code = 2 then .outcome .keyTooLong
  else .outcome (.systemError code)

theorem reply_to_get_reports (whole : network.Whole) (least : 0 ≤ overwritten 1 stream)
    (most : overwritten 1 stream < 2 ^ 31 - 1)
    (gives : code = 1 → network.Gives intSize stream ∧
      network.Gives (overwritten 1 stream).toNat (stream.drop intSize)) :
    Reports network (replyToGet code) turn stream (getReport code stream)
      (if code = 1 then (stream.drop intSize).drop (overwritten 1 stream).toNat else stream) := by
  obtain ⟨size, same⟩ := Int.eq_ofNat_of_zero_le least
  by_cases value : code = 1
  · obtain ⟨first, second⟩ := gives value
    rw [replyToGet, getReport, value, if_neg (by decide), if_pos rfl, if_neg (by decide), if_pos rfl, if_pos rfl]
    apply reports_recv_code whole first
    rw [same, Int.toNat_natCast] at second ⊢
    exact reports_value (by omega) whole second
  · rw [replyToGet, getReport, if_neg value, if_neg value, if_neg value]
    split_ifs <;> exact reports_finish

theorem get_reports {key : Bytes} (whole : network.Whole) (fits : DriverCall.Fits (.get key))
    (first : network.Gives intSize stream) (least : 0 ≤ overwritten 1 (stream.drop intSize))
    (most : overwritten 1 (stream.drop intSize) < 2 ^ 31 - 1)
    (gives : overwritten key.length stream = 1 → network.Gives intSize (stream.drop intSize) ∧
      network.Gives (overwritten 1 (stream.drop intSize)).toNat ((stream.drop intSize).drop intSize)) :
    Reports network (conversation (.get key)) turn stream
      (getReport (overwritten key.length stream) (stream.drop intSize))
      (if overwritten key.length stream = 1 then
        ((stream.drop intSize).drop intSize).drop (overwritten 1 (stream.drop intSize)).toNat
      else stream.drop intSize) :=
  reports_request whole first fits (by simp) fun _ => reply_to_get_reports whole least most gives

def setStatus (key value : Bytes) : Int :=
  if key.length > maxStrLen then 2 else if value.length > maxStrLen then 3 else 1

def delStatus (key : Bytes) : Int := if key.length > maxStrLen then 2 else 1

theorem set_status_reply (key value : Bytes) (answer : StoreAnswer) :
    callReply (.set key value) answer = intBytes (setStatus key value) ∧
      DriverCall.outcome (.set key value) answer = setOutcome (setStatus key value) ∧
      0 ≤ setStatus key value ∧ setStatus key value < 256 := by
  rw [callReply, DriverCall.outcome, setStatus]
  split_ifs <;> exact ⟨rfl, rfl, by decide, by decide⟩

theorem del_status_reply (key : Bytes) (answer : StoreAnswer) :
    callReply (.del key) answer = intBytes (delStatus key) ∧
      DriverCall.outcome (.del key) answer = delOutcome (delStatus key) ∧ 0 ≤ delStatus key ∧ delStatus key < 256 := by
  rw [callReply, DriverCall.outcome, delStatus]
  split_ifs <;> exact ⟨rfl, rfl, by decide, by decide⟩

theorem set_outcome_returns (code : Int) : (Report.outcome (setOutcome code)).Returns ↔ code = 1 := by
  rw [setOutcome, Report.Returns]
  split_ifs <;> simp [Report.what, *]

theorem del_outcome_returns (code : Int) : (Report.outcome (delOutcome code)).Returns ↔ code = 1 := by
  rw [delOutcome, Report.Returns]
  split_ifs <;> simp [Report.what, *]

/-- A reply that has begun is not taken for the acknowledgement of something else. -/
theorem status_kept {status size : Int} (part : stream <+: intBytes status) (some : stream ≠ [])
    (least : 0 ≤ status) (small : status < 256) (least' : 0 ≤ size) (most : size < 2 ^ 31)
    (acknowledges : overwritten size stream = 1) : status = 1 := by
  have low := overwritten_low part some least (by omega) least' most
  omega

/-- The report is not what the server replied, although the call returns: nothing of the reply has arrived and the
last size was 1, or 0 for a `get`; or nothing but the lowest byte of a length that is a multiple of 256. -/
def Misleading (answer : StoreAnswer) (stream : Bytes) : DriverCall → Prop
  | .get key => (stream = [] ∧ key = [] ∧ answer ≠ none) ∨
      (stream.length = 5 ∧ key.length ≤ maxStrLen ∧
        ∃ value, answer = some (value.length, value) ∧ value.length % 256 = 0 ∧ cString value ≠ [])
  | .set key value => stream = [] ∧ value.length = 1 ∧ maxStrLen < key.length
  | .del _ => False
  | .close => False

def misled (stream : Bytes) : DriverCall → Report
  | .get _ => if stream = [] then .outcome .missing else .outcome (.found [])
  | _ => .outcome .done

/-- The report of a call that returns is wrong exactly there. -/
structure Judged (call : DriverCall) (answer : StoreAnswer) (stream : Bytes) (report : Report) : Prop where
  right : report.Returns → report = .outcome (DriverCall.outcome call answer) ∨ Misleading answer stream call
  wrong : Misleading answer stream call →
    report = misled stream call ∧ report ≠ .outcome (DriverCall.outcome call answer)

theorem prefix_of_parts {front back : Bytes} (part : stream <+: front ++ back) (more : stream ≠ front ++ back) :
    (stream <+: front ∧ stream.length < front.length) ∨
      ∃ behind, stream = front ++ behind ∧ behind <+: back ∧ behind ≠ back := by
  rcases Nat.lt_or_ge stream.length front.length with fewer | all
  · exact .inl ⟨List.prefix_of_prefix_length_le part (List.prefix_append _ _) fewer.le, fewer⟩
  · obtain ⟨behind, rfl⟩ := List.prefix_of_prefix_length_le (List.prefix_append front back) part all
    refine .inr ⟨behind, rfl, (List.prefix_append_right_inj front).mp part, ?_⟩
    rintro rfl
    exact more rfl

theorem set_cut {key value : Bytes} {answer : StoreAnswer} (settled : network.Settled)
    (fits : DriverCall.Fits (.set key value))
    (cut : stream <+: callReply (.set key value) answer) :
    ∃ report, Reports network (conversation (.set key value)) turn stream report [] ∧
      Judged (.set key value) answer stream report := by
  obtain ⟨reply, outcome, least, small⟩ := set_status_reply key value answer
  have valueFits : value.length ≤ 2 ^ 31 - 2 := fits.2
  have room : 1 ≤ maxStrLen := by decide
  rw [reply] at cut
  have size : stream.length ≤ 4 := cut.length_le.trans_eq (int_bytes_length _)
  refine ⟨_, (List.drop_of_length_le size) ▸
    set_reports settled.whole fits stream (settled_gives settled _ _), ?_⟩
  refine ⟨fun returns => ?_, ?_⟩
  · have one := (set_outcome_returns _).mp returns
    rw [outcome, one, Misleading]
    by_cases nothing : stream = []
    · rw [nothing, overwritten_nothing (by omega) (by omega)] at one
      rw [setStatus]
      split_ifs with long valueLong
      · exact .inr ⟨nothing, by omega, long⟩
      · omega
      · exact .inl rfl
    · rw [status_kept cut nothing least small (by omega) (by omega) one]
      exact .inl rfl
  · rintro ⟨rfl, one, long⟩
    rw [outcome, overwritten_nothing (by omega) (by omega), setStatus, one, if_pos long]
    exact ⟨rfl, by decide⟩

theorem del_cut {key : Bytes} {answer : StoreAnswer} (settled : network.Settled) (fits : DriverCall.Fits (.del key))
    (cut : stream <+: callReply (.del key) answer) :
    ∃ report, Reports network (conversation (.del key)) turn stream report [] ∧
      Judged (.del key) answer stream report := by
  obtain ⟨reply, outcome, least, small⟩ := del_status_reply key answer
  have keyFits : key.length ≤ 2 ^ 31 - 2 := fits
  have room : 1 ≤ maxStrLen := by decide
  rw [reply] at cut
  have size : stream.length ≤ 4 := cut.length_le.trans_eq (int_bytes_length _)
  refine ⟨_, (List.drop_of_length_le size) ▸
    del_reports settled.whole fits stream (settled_gives settled _ _), ?_⟩
  refine ⟨fun returns => .inl ?_, False.elim⟩
  have one := (del_outcome_returns _).mp returns
  rw [outcome, one]
  by_cases nothing : stream = []
  · rw [nothing, overwritten_nothing (by omega) (by omega)] at one
    rw [delStatus, if_neg (by omega)]
  · rw [status_kept cut nothing least small (by omega) (by omega) one]

/-- A `get` that has not received a whole code returns only what looks like a missing key. -/
theorem get_short {key : Bytes} (settled : network.Settled) (fits : DriverCall.Fits (.get key))
    (size : stream.length < intSize) :
    Reports network (conversation (.get key)) turn stream (getReport (overwritten key.length stream) []) [] ∧
      ((getReport (overwritten key.length stream) []).Returns ↔ overwritten key.length stream = 0) ∧
      (overwritten key.length stream = 0 → getReport (overwritten key.length stream) [] = .outcome .missing) := by
  have nothing : stream.drop intSize = [] := List.drop_of_length_le size.le
  have stays : overwritten 1 [] = 1 := overwritten_nothing (by decide) (by decide)
  refine ⟨?_, ?_, fun zero => ?_⟩
  · have reports := @get_reports network turn stream key settled.whole fits (settled_gives settled _ _)
      (by rw [nothing, stays]; decide) (by rw [nothing, stays]; decide)
      fun _ => ⟨settled_gives settled _ _, settled_gives settled _ _⟩
    rw [nothing] at reports
    simpa using reports
  · rw [getReport, stays, Report.Returns]
    split_ifs <;> simp [Report.what, *]
    simp at *
  · rw [zero]
    rfl

/-- The lowest byte of a length may look like the length of an empty value. -/
theorem length_cut {size : Nat} (small : size ≤ 1024) (part : stream <+: intBytes size)
    (fewer : stream.length < intSize) :
    0 ≤ overwritten 1 stream ∧ overwritten 1 stream < 2 ^ 31 - 1 ∧
      (overwritten 1 stream = 0 ↔ (stream.length = 1 ∧ size % 256 = 0) ∨ (stream ≠ [] ∧ size = 0)) := by
  have some : stream ≠ [] ↔ stream.length ≠ 0 := by simp
  rw [overwritten_part part (by omega) (by omega) (by decide) (by decide), some]
  have fewer : stream.length < 4 := fewer
  obtain same | same | same | same : stream.length = 0 ∨ stream.length = 1 ∨ stream.length = 2 ∨ stream.length = 3 :=
    by omega
  all_goals
    rw [same]
    omega

theorem get_value_cut {key value behind : Bytes} (settled : network.Settled) (fits : DriverCall.Fits (.get key))
    (small : key.length ≤ maxStrLen) (least : value.length ≤ maxStrLen)
    (cut : behind <+: intBytes value.length ++ value) (short : behind ≠ intBytes value.length ++ value) :
    ∃ report, Reports network (conversation (.get key)) turn (intBytes 1 ++ behind) report [] ∧
      Judged (.get key) (some (value.length, value)) (intBytes 1 ++ behind) report := by
  have room : value.length ≤ 1024 := least
  have code : overwritten key.length (intBytes 1 ++ behind) = 1 := overwritten_whole (by decide) (by decide)
  have there : (intBytes 1 ++ behind).drop intSize = behind := List.drop_left' (int_bytes_length 1)
  have reports := fun least most => @get_reports network turn (intBytes 1 ++ behind) key settled.whole fits
    (settled_gives settled _ _) least most fun _ => ⟨settled_gives settled _ _, settled_gives settled _ _⟩
  rw [there, code, if_pos rfl] at reports
  have begun : intBytes 1 ++ behind ≠ [] := fun none => absurd (List.append_eq_nil_iff.mp none).1 (by decide)
  have misleading : Misleading (some (value.length, value)) (intBytes 1 ++ behind) (.get key) ↔
      behind.length = 1 ∧ value.length % 256 = 0 ∧ cString value ≠ [] := by
    have five : (intBytes 1 ++ behind).length = 5 ↔ behind.length = 1 := by
      rw [List.length_append, int_bytes_length, intSize]
      omega
    rw [Misleading, five]
    simp [begun, small]
  have truth : DriverCall.outcome (.get key) (some (value.length, value)) = .found (cString value) := by
    rw [DriverCall.outcome, if_neg (Nat.not_lt.mpr small)]
    rfl
  rcases prefix_of_parts cut short with ⟨part, fewer⟩ | ⟨text, rfl, part, other⟩
  · rw [int_bytes_length] at fewer
    obtain ⟨nonneg, most, zero⟩ := length_cut room part fewer
    have nothing : behind.drop intSize = [] := List.drop_of_length_le fewer.le
    rw [nothing, List.drop_nil] at reports
    refine ⟨_, reports nonneg most, ?_⟩
    rw [getReport, if_neg (by decide), if_pos rfl, nothing, List.take_nil, List.length_nil]
    by_cases empty : overwritten 1 behind = 0
    · rw [if_pos (by omega)]
      refine ⟨fun _ => ?_, fun wrong => ⟨?_, ?_⟩⟩
      · rw [truth, misleading]
        rcases zero.mp empty with ⟨one, multiple⟩ | ⟨_, none⟩
        · by_cases same : cString value = []
          · exact .inl (by rw [same]; rfl)
          · exact .inr ⟨one, multiple, same⟩
        · rw [List.length_eq_zero_iff.mp none]
          exact .inl rfl
      · rw [misled, if_neg begun]
        rfl
      · rw [truth]
        exact fun same => (misleading.mp wrong).2.2 (Outcome.found.inj (Report.outcome.inj same)).symm
    · rw [if_neg (by omega)]
      refine ⟨fun returns => absurd returns (by simp [Report.Returns, Report.what]), fun wrong => ?_⟩
      obtain ⟨one, multiple, _⟩ := misleading.mp wrong
      exact absurd (zero.mpr (.inl ⟨one, multiple⟩)) empty
  · have size : overwritten 1 (intBytes value.length ++ text) = value.length := overwritten_whole (by omega) (by omega)
    have left : (intBytes value.length ++ text).drop intSize = text := List.drop_left' (int_bytes_length _)
    have fewer : text.length < value.length := lt_of_le_of_ne part.length_le fun same =>
      other (part.eq_of_length same)
    rw [size, left, Int.toNat_natCast, List.drop_of_length_le fewer.le] at reports
    refine ⟨_, reports (by omega) (by omega), ?_⟩
    rw [getReport, if_neg (by decide), if_pos rfl, size, left, Int.toNat_natCast, if_neg (by omega)]
    refine ⟨fun returns => absurd returns (by simp [Report.Returns, Report.what]), fun wrong => ?_⟩
    have one := (misleading.mp wrong).1
    rw [List.length_append, int_bytes_length, intSize] at one
    omega

theorem get_code_cut {key : Bytes} {status : Int} (settled : network.Settled) (fits : DriverCall.Fits (.get key))
    (part : stream <+: intBytes status) (fewer : stream.length < intSize) (least : 0 ≤ status) (small : status < 256) :
    ∃ report, Reports network (conversation (.get key)) turn stream report [] ∧
      (report.Returns → report = .outcome .missing ∧ (stream = [] ∧ key = [] ∨ status = 0)) ∧
      (stream = [] → key = [] → report = .outcome .missing) := by
  have keyFits : key.length ≤ 2 ^ 31 - 2 := fits
  obtain ⟨reports, returns, missing⟩ := @get_short network turn stream key settled fits fewer
  refine ⟨_, reports, fun returned => ?_, fun nothing empty => ?_⟩
  · have zero := returns.mp returned
    refine ⟨missing zero, ?_⟩
    by_cases nothing : stream = []
    · rw [nothing, overwritten_nothing (by omega) (by omega)] at zero
      exact .inl ⟨nothing, List.length_eq_zero_iff.mp (by omega)⟩
    · have low := @overwritten_low key.length status stream part nothing least (by omega) (by omega) (by omega)
      omega
  · apply missing
    rw [nothing, overwritten_nothing (by omega) (by omega), empty]
    rfl

theorem get_cut {key : Bytes} {answer : StoreAnswer} (settled : network.Settled)
    (fits : DriverCall.Fits (.get key)) (sensible : Sensible answer)
    (cut : stream <+: callReply (.get key) answer) (short : stream ≠ callReply (.get key) answer) :
    ∃ report, Reports network (conversation (.get key)) turn stream report [] ∧
      Judged (.get key) answer stream report := by
  have fewer : ∀ status : Int, stream <+: intBytes status → stream ≠ intBytes status → stream.length < intSize := by
    intro status part other
    refine lt_of_le_of_ne (part.length_le.trans_eq (int_bytes_length _)) fun same => other ?_
    exact part.eq_of_length (same.trans (int_bytes_length _).symm)
  by_cases long : key.length > maxStrLen
  · have reply : callReply (.get key) answer = intBytes 2 := by cases answer <;> exact if_pos long
    rw [reply] at cut short
    obtain ⟨report, reports, returned, _⟩ :=
      @get_code_cut network turn stream key 2 settled fits cut (fewer 2 cut short) (by decide) (by decide)
    refine ⟨report, reports, ?_⟩
    have some : key ≠ [] := by
      rintro rfl
      exact absurd long (by decide)
    have never : ¬report.Returns := fun returns => by
      rcases (returned returns).2 with ⟨_, none⟩ | zero
      · exact some none
      · exact absurd zero (by decide)
    refine ⟨fun returns => absurd returns never, ?_⟩
    rintro (⟨_, none, _⟩ | ⟨_, small, _⟩)
    · exact absurd none some
    · exact absurd small (Nat.not_le.mpr long)
  · cases answer with
    | none =>
        rw [callReply, if_neg long] at cut short
        obtain ⟨report, reports, returned, _⟩ :=
          @get_code_cut network turn stream key 0 settled fits cut (fewer 0 cut short) (by decide) (by decide)
        refine ⟨report, reports, ?_⟩
        have truth : DriverCall.outcome (.get key) none = .missing := by
          rw [DriverCall.outcome, if_neg long]
          rfl
        refine ⟨fun returns => .inl (truth ▸ (returned returns).1), ?_⟩
        rintro (⟨_, _, some⟩ | ⟨_, _, _, some, _⟩)
        · exact absurd rfl some
        · cases some
    | some found =>
        obtain ⟨size, value⟩ := found
        obtain ⟨rfl, least⟩ := sensible size value rfl
        rw [callReply, if_neg long] at cut short
        rcases prefix_of_parts cut short with ⟨part, fewer⟩ | ⟨behind, rfl, part, other⟩
        · rw [int_bytes_length] at fewer
          obtain ⟨report, reports, returned, missing⟩ :=
            @get_code_cut network turn stream key 1 settled fits part fewer (by decide) (by decide)
          refine ⟨report, reports, ?_⟩
          have fewer : stream.length < 4 := fewer
          refine ⟨fun returns => ?_, ?_⟩
          · rcases (returned returns).2 with ⟨nothing, empty⟩ | zero
            · exact .inr (.inl ⟨nothing, empty, by simp⟩)
            · exact absurd zero (by decide)
          · rintro (⟨nothing, empty, _⟩ | ⟨five, _⟩)
            · rw [missing nothing empty, misled, if_pos nothing, DriverCall.outcome, if_neg long, DriverCall.lookedUp]
              exact ⟨rfl, by simp⟩
            · omega
        · exact get_value_cut settled fits (Nat.not_lt.mp long) least part other

theorem reply_cut {answer : StoreAnswer} (settled : network.Settled) (fits : DriverCall.Fits call)
    (goesOn : call ≠ .close)
    (sensible : Sensible answer) (cut : stream <+: callReply call answer) (short : stream ≠ callReply call answer) :
    ∃ report, Reports network (conversation call) turn stream report [] ∧ Judged call answer stream report := by
  cases call with
  | get key => exact get_cut settled fits sensible cut short
  | set key value => exact set_cut settled fits cut
  | del key => exact del_cut settled fits cut
  | close => exact absurd rfl goesOn

def EmptyValue : DriverCall → StoreAnswer → Prop
  | .get key, some (size, _) => key.length ≤ maxStrLen ∧ size = 0
  | _, _ => False

theorem gives_code {asked : Nat} {value : Int} {behind : Bytes} (four : asked = intSize) :
    network.Gives asked (intBytes value ++ behind) := by
  refine .inr ?_
  rw [List.length_append, int_bytes_length, four, intSize]
  omega

theorem get_whole {key : Bytes} {answer : StoreAnswer} (whole : network.Whole) (fits : DriverCall.Fits (.get key))
    (sensible : Sensible answer) (rest : Bytes)
    (gives : network.ends = true ∨ rest ≠ [] ∨ ¬EmptyValue (.get key) answer) :
    Reports network (conversation (.get key)) turn (callReply (.get key) answer ++ rest)
      (.outcome (DriverCall.outcome (.get key) answer)) rest := by
  have status : ∀ status : Int, 0 ≤ status → status < 256 → status ≠ 1 →
      Reports network (conversation (.get key)) turn (intBytes status ++ rest)
        (getReport status ((intBytes status ++ rest).drop intSize)) rest := by
    intro status least small other
    have behind : (intBytes status ++ rest).drop intSize = rest := List.drop_left' (int_bytes_length _)
    refine reports_request whole (gives_code rfl) fits (by simp) fun turn => ?_
    rw [overwritten_whole (by omega) (by omega), behind, afterReply, replyToGet, getReport]
    simp only [if_neg other]
    split_ifs <;> exact reports_finish
  by_cases long : key.length > maxStrLen
  · have reply : callReply (.get key) answer = intBytes 2 := by cases answer <;> exact if_pos long
    rw [reply, DriverCall.outcome, if_pos long]
    exact status 2 (by decide) (by decide) (by decide)
  · rw [DriverCall.outcome, if_neg long]
    cases answer with
    | none =>
        rw [callReply, if_neg long]
        exact status 0 (by decide) (by decide) (by decide)
    | some found =>
        obtain ⟨size, value⟩ := found
        obtain ⟨rfl, least⟩ := sensible size value rfl
        have room : value.length ≤ 1024 := least
        have behind : (intBytes 1 ++ (intBytes value.length ++ (value ++ rest))).drop intSize =
          intBytes value.length ++ (value ++ rest) := List.drop_left' (int_bytes_length _)
        have text : (intBytes value.length ++ (value ++ rest)).drop intSize = value ++ rest :=
          List.drop_left' (int_bytes_length _)
        have size : overwritten 1 (intBytes value.length ++ (value ++ rest)) = value.length :=
          overwritten_whole (by omega) (by omega)
        have comes : network.Gives value.length (value ++ rest) := by
          refine gives.imp id fun some => ?_
          have one : 1 ≤ value.length + rest.length := by
            rcases some with some | some
            · have := List.length_pos_iff.mpr some
              omega
            · have : value.length ≠ 0 := fun none => some ⟨Nat.not_lt.mp long, none⟩
              omega
          rw [List.length_append]
          omega
        have reports := @get_reports network turn (intBytes 1 ++ (intBytes value.length ++ (value ++ rest))) key whole
          fits (gives_code rfl)
        rw [behind, size, text, overwritten_whole (by decide) (by decide), if_pos rfl, getReport, if_neg (by decide),
          if_pos rfl, size, text, Int.toNat_natCast, List.take_left, List.drop_left, List.length_append,
          if_pos (by omega)] at reports
        rw [callReply, if_neg long, DriverCall.lookedUp, List.append_assoc, List.append_assoc]
        exact reports (by omega) (by omega) fun _ => ⟨gives_code rfl, comes⟩

theorem reply_whole {answer : StoreAnswer} (whole : network.Whole) (fits : DriverCall.Fits call)
    (goesOn : call ≠ .close) (sensible : Sensible answer) (rest : Bytes)
    (gives : network.ends = true ∨ rest ≠ [] ∨ ¬EmptyValue call answer) :
    Reports network (conversation call) turn (callReply call answer ++ rest)
      (.outcome (DriverCall.outcome call answer)) rest := by
  cases call with
  | get key => exact get_whole whole fits sensible rest gives
  | set key value =>
      obtain ⟨reply, outcome, least, small⟩ := set_status_reply key value answer
      have reports := @set_reports network turn key value whole fits (intBytes (setStatus key value) ++ rest)
        (gives_code rfl)
      rw [overwritten_whole (by omega) (by omega), List.drop_left' (int_bytes_length _)] at reports
      rw [reply, outcome]
      exact reports
  | del key =>
      obtain ⟨reply, outcome, least, small⟩ := del_status_reply key answer
      have reports := @del_reports network turn key whole fits (intBytes (delStatus key) ++ rest) (gives_code rfl)
      rw [overwritten_whole (by omega) (by omega), List.drop_left' (int_bytes_length _)] at reports
      rw [reply, outcome]
      exact reports
  | close => exact absurd rfl goesOn

theorem close_returns {network : Network} (whole : network.Whole) (turn : Nat) {stream : Bytes}
    (gives : network.Gives intSize stream) : ∃ sent rest,
      (conversation .close).run network turn stream = some (.outcome .done, sent, rest) ∧
      (network.Calm → rest = stream.drop intSize) := by
  rw [conversation, closeConnection, Conversation.run]
  cases first : network.fails turn
  · rw [if_neg Bool.false_ne_true, code_whole, Option.bind_eq_bind, Option.bind_some, if_neg (counted _),
      Conversation.run]
    cases second : network.fails (turn + 1)
    · have asked : sizeT intSize = intSize := rfl
      have room : (stream.take intSize).length ≤ (intBytes 3).length := by
        rw [int_bytes_length]
        exact List.length_take_le _ _
      have left : stream.drop (stream.take intSize).length = stream.drop intSize := by
        rw [List.length_take, ← List.drop_eq_drop_min]
      refine ⟨intBytes 3 ++ [], stream.drop intSize, ?_, fun _ => rfl⟩
      rw [if_neg Bool.false_ne_true, asked, delivered_whole whole gives]
      simp only [Option.bind_eq_bind, Option.bind_some]
      rw [if_pos room, if_neg (counted _), Conversation.run, Conversation.run, left]
      rfl
    · exact ⟨intBytes 3 ++ [], stream, by rw [if_pos rfl, if_pos rfl, Conversation.run]; rfl,
        fun calm => absurd calm (not_calm second)⟩
  · exact ⟨[], stream, by rw [if_pos rfl, if_pos rfl, Conversation.run], fun calm => absurd calm (not_calm first)⟩

theorem delivered_extended {asked taken : Nat} (opened : network.ends = false)
    (delivered : network.delivered turn asked stream = some taken) (more : Bytes) :
    taken ≤ stream.length ∧ network.delivered turn asked (stream ++ more) = some taken := by
  simp only [Network.delivered, opened, Bool.false_eq_true, false_or, Option.ite_none_right_eq_some,
    Option.some.injEq, List.length_append] at delivered ⊢
  omega

theorem run_extended {next : Conversation} {sent : Bytes} (opened : network.ends = false)
    (ran : next.run network turn stream = some (report, sent, rest)) (more : Bytes) :
    next.run network turn (stream ++ more) = some (report, sent, rest ++ more) := by
  induction next generalizing turn stream sent with
  | finish report =>
      cases ran
      rfl
  | undefined => cases ran
  | send buffer count next ih =>
      rw [Conversation.run] at ran ⊢
      split_ifs at ran ⊢ with fails
      · exact ih _ ran
      · obtain ⟨bytes, front, ran⟩ := Option.bind_eq_some_iff.mp ran
        obtain ⟨⟨report', sent', rest'⟩, later, same⟩ := Option.bind_eq_some_iff.mp ran
        cases same
        rw [front, Option.bind_eq_bind, Option.bind_some, ih _ later]
        rfl
  | recv buffer count next ih =>
      rw [Conversation.run] at ran ⊢
      cases fails : network.fails turn
      · rw [fails, if_neg Bool.false_ne_true] at ran
        rw [if_neg Bool.false_ne_true]
        obtain ⟨taken, delivered, ran⟩ := Option.bind_eq_some_iff.mp ran
        obtain ⟨inside, again⟩ := delivered_extended opened delivered more
        split_ifs at ran with room
        rw [again, Option.bind_eq_bind, Option.bind_some, if_pos room,
          List.take_append_of_le_length (by omega), List.drop_append_of_le_length (by omega)]
        exact ih _ _ ran
      · rw [fails, if_pos rfl] at ran
        rw [if_pos rfl]
        exact ih _ _ ran
  | recvNull next ih =>
      rw [Conversation.run, opened, if_neg Bool.false_ne_true] at ran ⊢
      split_ifs at ran with stops
      rw [if_pos (stops.imp id fun some none => some (List.append_eq_nil_iff.mp none).1)]
      exact ih _ ran
  | malloc length next ih =>
      rw [Conversation.run] at ran ⊢
      exact ih _ ran
  | shutdown next ih =>
      rw [Conversation.run] at ran ⊢
      exact ih _ ran

theorem whole_not_misleading (answer : StoreAnswer) : ¬Misleading answer (callReply call answer) call := by
  cases call with
  | get key =>
      rw [Misleading]
      rintro (⟨nothing, rfl, _⟩ | ⟨five, small, value, rfl, _⟩)
      · rcases answer with _ | ⟨size, value⟩ <;> exact absurd nothing (by simp [callReply, intBytes])
      · rw [callReply, if_neg (Nat.not_lt.mpr small)] at five
        simp only [List.length_append, int_bytes_length, intSize] at five
        omega
  | set key value =>
      rintro ⟨nothing, _⟩
      obtain ⟨reply, _⟩ := set_status_reply key value answer
      have size := int_bytes_length (setStatus key value)
      rw [← reply, nothing] at size
      cases size
  | del key => exact id
  | close => exact id

theorem empty_waits {answer : StoreAnswer} (calm : network.Calm) (whole : network.Whole)
    (opened : network.ends = false) (fits : DriverCall.Fits call) (sensible : Sensible answer)
    (empty : EmptyValue call answer) : (conversation call).run network turn (callReply call answer) = none := by
  cases call with
  | get key =>
      rcases answer with _ | ⟨size, value⟩
      · exact empty.elim
      · obtain ⟨small, rfl⟩ : key.length ≤ maxStrLen ∧ size = 0 := empty
        have fits : key.length ≤ 2 ^ 31 - 2 := fits
        obtain rfl : value = [] := List.length_eq_zero_iff.mp (sensible 0 value rfl).1
        have reply : callReply (.get key) (some (0, [])) = intBytes 1 ++ (intBytes 0 ++ []) :=
          if_neg (Nat.not_lt.mpr small)
        have left : (intBytes 1 ++ (intBytes 0 ++ [])).drop intSize = intBytes 0 ++ [] :=
          List.drop_left' (int_bytes_length 1)
        have none : (intBytes 0 ++ []).drop intSize = [] := List.drop_left' (int_bytes_length 0)
        rw [reply]
        refine waits_send calm (code_whole 0) (waits_send calm (code_whole _)
          (waits_send calm (text_whole (by omega)) (waits_recv_code calm whole (gives_code rfl) ?_)))
        rw [overwritten_whole (by decide) (by decide), left, replyToGet, if_neg (by decide), if_pos rfl]
        refine waits_recv_code calm whole (gives_code rfl) ?_
        rw [overwritten_whole (by decide) (by decide), none]
        exact waits_value calm whole opened
  | set key value => exact empty.elim
  | del key => exact empty.elim
  | close => exact empty.elim

theorem whole_reply_ran {answer : StoreAnswer} (calm : network.Calm) (whole : network.Whole)
    (fits : DriverCall.Fits call) (sensible : Sensible answer) (rest : Bytes)
    (gives : network.ends = true ∨ rest ≠ [] ∨ ¬EmptyValue call answer) :
    ∃ sent, (conversation call).run network turn (callReply call answer ++ rest) =
      some (.outcome (DriverCall.outcome call answer), sent, rest) := by
  by_cases goesOn : call = .close
  · subst goesOn
    obtain ⟨sent, left, ran, same⟩ := @close_returns network whole turn (callReply .close answer ++ rest)
      (gives_code rfl)
    rw [same calm, callReply, List.drop_left' (int_bytes_length 1)] at ran
    exact ⟨sent, ran⟩
  · rcases @reply_whole network turn call answer whole fits goesOn sensible rest gives with
      ran | ⟨_, _, _, _, faulty⟩
    · exact ran
    · exact absurd calm faulty

/-- However much of a reply arrives before the connection ends, and whichever system call fails: a call that
returns reports what the server replied, except where the report is misleading; and there it is. On a connection
that stays open the call waits for the whole reply, for one more byte where the value has none. -/
theorem driver_report_judged {answer : StoreAnswer} (fits : DriverCall.Fits call) (sensible : Sensible answer)
    (cut : stream <+: callReply call answer) (network : Network) (whole : network.Whole) :
    (network.ends = true →
      ∃ report sent rest, (conversation call).run network 0 stream = some (report, sent, rest) ∧
        (report.Returns → report = .outcome (DriverCall.outcome call answer) ∨ Misleading answer stream call) ∧
        (network.Calm → Misleading answer stream call →
          report = misled stream call ∧ report ≠ .outcome (DriverCall.outcome call answer))) ∧
    (network.ends = false → network.Calm →
      ((∃ ended, (conversation call).run network 0 stream = some ended) ↔
        stream = callReply call answer ∧ ¬EmptyValue call answer) ∧
      ∀ report sent rest, (conversation call).run network 0 stream = some (report, sent, rest) →
        report = .outcome (DriverCall.outcome call answer)) := by
  refine ⟨fun ends => ?_, fun opened calm => ?_⟩
  · have settled : network.Settled := ⟨whole, ends⟩
    by_cases goesOn : call = .close
    · subst goesOn
      obtain ⟨sent, rest, ran, _⟩ := @close_returns network whole 0 stream (settled_gives settled _ _)
      exact ⟨_, sent, rest, ran, fun _ => .inl rfl, fun _ never => never.elim⟩
    · obtain ⟨report, left, reports, judged⟩ : ∃ report left,
          Reports network (conversation call) 0 stream report left ∧ Judged call answer stream report := by
        by_cases short : stream = callReply call answer
        · subst short
          refine ⟨_, _, List.append_nil (callReply call answer) ▸
            reply_whole whole fits goesOn sensible [] (.inl ends), ?_⟩
          exact ⟨fun _ => .inl rfl, fun wrong => absurd wrong (whole_not_misleading answer)⟩
        · obtain ⟨report, reports, judged⟩ :=
            @reply_cut network 0 stream call answer settled fits goesOn sensible cut short
          exact ⟨report, [], reports, judged⟩
      rcases reports with ⟨sent, ran⟩ | ⟨msg, sent, rest, ran, faulty⟩
      · exact ⟨report, sent, left, ran, judged.right, fun _ => judged.wrong⟩
      · refine ⟨_, sent, rest, ran, fun returns => ?_, fun calm => absurd calm faulty⟩
        simp [Report.Returns, Report.what] at returns
  · have ended : ∀ report sent rest, (conversation call).run network 0 stream = some (report, sent, rest) →
        ¬EmptyValue call answer ∧ stream = callReply call answer ∧
          report = .outcome (DriverCall.outcome call answer) := by
      intro report sent rest ran
      obtain ⟨more, all⟩ := cut
      -- what is missing would be left at the end
      have extended := run_extended opened ran more
      rw [all] at extended
      have filled : ¬EmptyValue call answer := fun empty => by
        rw [empty_waits calm whole opened fits sensible empty] at extended
        cases extended
      obtain ⟨_, truth⟩ := @whole_reply_ran network 0 call answer calm whole fits sensible [] (.inr (.inr filled))
      rw [List.append_nil, extended] at truth
      obtain ⟨same, _, nothing⟩ : report = _ ∧ sent = _ ∧ rest ++ more = [] := by simpa using truth
      rw [(List.append_eq_nil_iff.mp nothing).2, List.append_nil] at all
      exact ⟨filled, all, same⟩
    refine ⟨⟨fun ⟨⟨report, sent, rest⟩, ran⟩ => ?_, fun ⟨all, filled⟩ => ?_⟩, fun report sent rest ran => ?_⟩
    · obtain ⟨filled, all, _⟩ := ended report sent rest ran
      exact ⟨all, filled⟩
    · obtain ⟨sent, ran⟩ := @whole_reply_ran network 0 call answer calm whole fits sensible [] (.inr (.inr filled))
      rw [List.append_nil, ← all] at ran
      exact ⟨_, ran⟩
    · exact (ended report sent rest ran).2.2

/-- A value of 256 bytes comes back empty when the connection ends in its length, and an empty one does not come
back while the connection is open. -/
theorem driver_report_judged_lost : (∃ value report sent rest, value.length = 256 ∧
    (conversation (.get [107])).run ⟨fun _ => false, fun _ => none, fun _ => [], true⟩ 0 [1, 0, 0, 0, 0] =
      some (report, sent, rest) ∧
      report = .outcome (.found []) ∧ report ≠ .outcome (.found value)) ∧
    ∀ ended, (conversation (.get [107])).run ⟨fun _ => false, fun _ => none, fun _ => [], false⟩ 0
      (callReply (.get [107]) (some (0, []))) ≠ some ended := by
  constructor
  · obtain ⟨value, size, whole⟩ : ∃ value : Bytes, value.length = 256 ∧ cString value = value :=
      ⟨.replicate 256 65, List.length_replicate, by rw [cString, List.takeWhile_replicate, if_pos (by decide)]⟩
    have sensible : Sensible (some (value.length, value)) := by
      rintro _ _ same
      cases same
      exact ⟨rfl, by rw [size]; decide⟩
    have cut : [1, 0, 0, 0, 0] <+: callReply (.get [107]) (some (value.length, value)) := by
      rw [callReply, if_neg (by decide), size]
      exact ⟨[1, 0, 0] ++ value, rfl⟩
    have misleading : Misleading (some (value.length, value)) [1, 0, 0, 0, 0] (.get [107]) := by
      refine .inr ⟨rfl, by decide, value, rfl, by rw [size], ?_⟩
      rintro empty
      rw [← whole, empty] at size
      cases size
    obtain ⟨report, sent, rest, ran, _, wrong⟩ := (driver_report_judged (by simp [DriverCall.Fits]) sensible cut
      ⟨fun _ => false, fun _ => none, fun _ => [], true⟩ fun _ => rfl).1 rfl
    obtain ⟨returns, differs⟩ := wrong (fun _ => rfl) misleading
    refine ⟨value, report, sent, rest, size, ran, returns, ?_⟩
    rwa [DriverCall.outcome, if_neg (by decide), DriverCall.lookedUp, whole] at differs
  · intro ended ran
    have sensible : Sensible (some (0, [])) := by
      rintro _ _ same
      cases same
      exact ⟨rfl, by decide⟩
    have fits : DriverCall.Fits (.get [107]) := by simp [DriverCall.Fits]
    have judged := (driver_report_judged fits sensible (List.prefix_refl _)
      ⟨fun _ => false, fun _ => none, fun _ => [], false⟩ fun _ => rfl).2 rfl fun _ => rfl
    exact (judged.1.mp ⟨ended, ran⟩).2 ⟨by decide, rfl⟩

end Calls

end MyJQL.DriverCalls
