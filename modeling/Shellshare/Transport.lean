import Shellshare.Encryptor
import Shellshare.Keyframer
import Shellshare.ReplayBuffer
import Shellshare.TransitionRuns

/-! The broadcasting connection to one room, cut at each call it makes on the
socket: between two of them the server and the network may do anything. Times are
in milliseconds. -/
namespace Shellshare

def initialBackoff : ℕ := 250
def maxBackoff : ℕ := 5 * 1000
def shutdownDrain : ℕ := 1000
def shutdownPoll : ℕ := 20
def pingInterval : ℕ := 30 * 1000

/-- The operation that a `flush` returns to. -/
inductive Caller where
  | send
  | tick
  | shutdown

/-- The call on the socket that the client is about to make. -/
inductive Stage where
  /-- `connect`: the first handshake -/
  | opening
  /-- `connect`: the reset -/
  | resetting
  /-- between two operations -/
  | idle
  /-- `drain_acks` at the start of a flush -/
  | draining (caller : Caller)
  /-- `flush`: a handshake, the backoff being over -/
  | connecting (caller : Caller)
  /-- `flush`: the size message -/
  | sizing (caller : Caller)
  /-- `flush`: the chunk at the front of `pending` -/
  | writing (caller : Caller)
  /-- `tick`: the keepalive ping -/
  | pinging
  /-- `shutdown`: `drain_acks` while it waits for the last acks -/
  | lingering (deadline : ℕ)
  /-- `shutdown`: closing the socket -/
  | closing

structure Transport (V : Type) extends ReplayBuffer where
  size : TermSize
  sentSize : Option TermSize
  theme : Option String
  cipher : Option Encryptor
  keyframer : Keyframer V
  backoff : ℕ
  nextAttempt : Option ℕ
  lastPing : ℕ
  now : ℕ
  stage : Stage

/-- How a handshake ends. -/
inductive Handshake where
  | accepted
  | unauthorized
  | failed

/-- What a non-blocking read of `drain_acks` finds. `quiet` is nothing more to
read, `dead` a close, a read error or a socket that cannot be made blocking again. -/
inductive Incoming where
  | text (body : Option Json)
  | other
  | quiet
  | dead

/-- An operation, or how the pending call on the socket turns out. -/
inductive ClientAction where
  | elapse (d : ℕ)
  | send (data : Bytes) (size : TermSize) (nonce keyframeNonce : Nonce)
  | tick (size : TermSize)
  | shutdown
  | handshake (outcome : Handshake)
  | write (sent : Bool)
  | read (incoming : Incoming)
  | close

/-- `as_u64` on the integers a server writes. -/
def Json.asU64 : Json → Option ℕ
  | .number q => if q.den = 1 ∧ 0 ≤ q.num ∧ q.num.toNat < 2 ^ 64 then some q.num.toNat else none
  | _ => none

/-- The count in an ack message, `{"ack": n}`. -/
def ackOf (body : Option Json) : Option ℕ := body.bind fun v => (v.get "ack").bind Json.asU64

namespace Transport

variable {V : Type} [Vt V]

/-- The transport as `connect` builds it, before its handshake. -/
def new (size : TermSize) (theme : Option String) (cipher : Option Encryptor) : Transport V :=
  { ReplayBuffer.empty with
    size, theme, cipher
    sentSize := none
    keyframer := Keyframer.new size
    backoff := initialBackoff
    nextAttempt := none
    lastPing := 0
    now := 0
    stage := .opening }

def enter (t : Transport V) (stage : Stage) : Transport V := { t with stage := stage }

def armBackoff (t : Transport V) : Transport V :=
  { t with
    nextAttempt := some (t.now + t.backoff)
    backoff := min (t.backoff * 2) maxBackoff }

def disconnect (t : Transport V) : Transport V :=
  { t.armBackoff with toReplayBuffer := t.toReplayBuffer.disconnect }

/-- Send one frame; on failure drop the connection and arm the backoff. -/
def write (t : Transport V) (sent : Bool) : Bool × Transport V :=
  match t.socket with
  | none => (false, t)
  | some _ => if sent then (true, t) else (false, t.disconnect)

/-- The end of `handshake`. -/
def finishHandshake (t : Transport V) : Handshake → Transport V
  | .accepted =>
    { t with
      toReplayBuffer := t.toReplayBuffer.accept
      backoff := initialBackoff
      nextAttempt := none
      sentSize := none
      lastPing := t.now }
  | _ => t.armBackoff

/-- `shutdown` from the test of its drain loop, which sleeps before each read. -/
def linger (t : Transport V) (deadline : ℕ) : Transport V :=
  if t.socket.isSome ∧ t.unacked ≠ [] ∧ t.now < deadline then
    { t with now := t.now + shutdownPoll, stage := .lingering deadline }
  else t.enter .closing

/-- `flush` returns: what is left of the operation that called it. -/
def resume (t : Transport V) : Caller → Transport V
  | .send => t.enter .idle
  | .tick =>
    if t.socket.isSome ∧ pingInterval ≤ t.now - t.lastPing then
      { t with lastPing := t.now, stage := .pinging }
    else t.enter .idle
  | .shutdown => t.linger (t.now + shutdownDrain)

/-- `flush` from the test of its delivery loop. -/
def deliver (t : Transport V) (caller : Caller) : Transport V :=
  if t.pending = [] then t.resume caller else t.enter (.writing caller)

/-- `flush` from the size onward. -/
def announce (t : Transport V) (caller : Caller) : Transport V :=
  if t.sentSize ≠ some t.size then t.enter (.sizing caller) else t.deliver caller

/-- `flush` after `drain_acks`. -/
def reconnect (t : Transport V) (caller : Caller) : Transport V :=
  if t.socket.isSome then t.announce caller
  -- still backing off
  else if t.nextAttempt.any (t.now < ·) then t.resume caller
  else t.enter (.connecting caller)

def flush (t : Transport V) (caller : Caller) : Transport V :=
  if t.socket.isSome then t.enter (.draining caller) else t.reconnect caller

/-- One turn of the loop of `drain_acks`, and whether it goes on. -/
def drainTurn (t : Transport V) : Incoming → Transport V × Bool
  | .text body => match ackOf body with
    | some acked => ({ t with toReplayBuffer := t.toReplayBuffer.applyAck acked }, true)
    | none => (t, true)
  | .other => (t, true)
  | .quiet => (t, false)
  | .dead => (t.disconnect, false)

/-- `none` is a panic of `seal`. -/
def bufferPlaintext (t : Transport V) (nonce : Nonce) (data : Bytes) : Option (Transport V) :=
  (sealed t.cipher nonce data).map fun record =>
    { t with toReplayBuffer := t.toReplayBuffer.bufferSealed record }

/-- `send` up to its flush. The keyframe is buffered after the data. -/
def enqueue (t : Transport V) (data : Bytes) (size : TermSize) (nonce keyframeNonce : Nonce) :
    Option (Transport V) :=
  let t := { t with keyframer := t.keyframer.feed data size }
  (if data = [] then some t else t.bufferPlaintext nonce data).bind fun t =>
    let keyframe := t.keyframer.maybeKeyframe
    let t := { t with keyframer := keyframe.2 }
    keyframe.1.elim (some t) (t.bufferPlaintext keyframeNonce)

/-- The write of the front chunk in `flush`. -/
def writeFront (t : Transport V) (caller : Caller) (sent : Bool) : Option (Transport V) :=
  match t.pending with
  | [] => none
  | chunk :: rest =>
    let written := { t with toReplayBuffer := t.toReplayBuffer.hand chunk }.write sent
    some <|
      if written.1 then
        { written.2 with toReplayBuffer := written.2.toReplayBuffer.advance chunk rest }.deliver
          caller
      -- it stays pending for the reconnect
      else written.2.resume caller

def step (t : Transport V) : ClientAction → Option (Transport V)
  | .elapse d => some { t with now := t.now + d }
  | .send data size nonce keyframeNonce => match t.stage with
    | .idle => (t.enqueue data size nonce keyframeNonce).map fun t =>
      { t with size := size }.flush .send
    | _ => none
  | .tick size => match t.stage with
    | .idle => some ({ t with size := size }.flush .tick)
    | _ => none
  | .shutdown => match t.stage with
    | .idle => some (t.flush .shutdown)
    | _ => none
  | .handshake outcome => match t.stage, outcome with
    -- only the first connection clears the room, a reconnect would wipe what it replays
    | .opening, .accepted => some ((t.finishHandshake .accepted).enter .resetting)
    | .connecting caller, .accepted => some ((t.finishHandshake .accepted).announce caller)
    | .connecting caller, outcome => some ((t.finishHandshake outcome).resume caller)
    | _, _ => none
  | .write sent => match t.stage with
    | .resetting => some ((t.write sent).2.enter .idle)
    | .sizing caller =>
      let written := t.write sent
      some <|
        if written.1 then { written.2 with sentSize := some t.size }.deliver caller
        else written.2.resume caller
    | .writing caller => t.writeFront caller sent
    | .pinging => some ((t.write sent).2.enter .idle)
    | _ => none
  | .read incoming => match t.stage with
    | .draining caller =>
      let turn := t.drainTurn incoming
      some (if turn.2 then turn.1 else turn.1.reconnect caller)
    | .lingering deadline =>
      let turn := t.drainTurn incoming
      some (if turn.2 then turn.1 else turn.1.linger deadline)
    | _ => none
  | .close => match t.stage with
    | .closing => some { t with toReplayBuffer := t.toReplayBuffer.close, stage := .idle }
    | _ => none

end Transport

end Shellshare
