import Mathlib.Data.List.Infix
import Shellshare.AgentStrip
import Shellshare.TransitionRuns

/-! The agent's reader with `--follow`: messages of the socket, the grace timers, and
what it prints. -/
namespace Shellshare
open PatternRemoval TransitionRuns

/-- A call of `setTimeout` that is still armed. Times are in milliseconds. -/
structure Timer where
  handle : ℕ
  due : ℕ

/-- How a follow ends: by `stop` out of a message handler, or by a grace timer. -/
inductive Ending where
  | stopped (message : Option String)
  | graceOver
deriving DecidableEq

/-- `held` is what the `StringDecoder` keeps, `handles` the handles given out so far. -/
structure Follower where
  buf : Bytes
  held : Bytes
  checked : Bool
  sawOutput : Bool
  live : Bool
  ending : Option ℕ
  timers : List Timer
  handles : ℕ
  now : ℕ
  ended : Option Ending
  stdout : List Text

/-- What a text message is taken for. -/
inductive Control where
  | encryptedWithoutKey
  | usersCount
  | broadcasting (live : Bool)
  | other
deriving DecidableEq

inductive FollowAction where
  | text (data : String)
  | binary (data : Bytes)
  | elapse (ms : ℕ)
  | fire (handle : ℕ)

def gracePeriod : ℕ := 5000

def missingKey : String :=
  "this room is encrypted but the URL has no #key - lost its #fragment?"

def nothingBroadcasting : String :=
  "nothing is broadcasting in this room - wrong link, or it expired"

def includes (data part : String) : Bool := part.toList <:+: data.toList

namespace Follower

def start : Follower := ⟨[], [], false, false, false, none, [], 0, 0, none, []⟩

/-- `clearTimeout(ending)` -/
def clearTimeout (s : Follower) : Follower :=
  { s with timers := s.timers.filter fun t => s.ending ≠ some t.handle }

def stop (s : Follower) (message : Option String) : Follower :=
  { s.clearTimeout with ended := some (.stopped message) }

/-- `ending = setTimeout(() => stop(null), 5000)` -/
def armGrace (s : Follower) : Follower :=
  -- a timer whose handle was kept till now stays armed
  { s with
    timers := s.timers ++ [⟨s.handles, s.now + gracePeriod⟩]
    ending := some s.handles
    handles := s.handles + 1 }

section Key
variable {Key : Type} (aes : Aes256Gcm Key) (key : Option Key)

/-- The checks of the handler, in their order. -/
def control (data : String) : Control :=
  if includes data "\"encrypted\":true" && key.isNone then .encryptedWithoutKey
  else if includes data "\"usersCount\"" then .usersCount
  else if includes data "\"broadcasting\":true" then .broadcasting true
  else if includes data "\"broadcasting\":false" then .broadcasting false
  else .other

def onText (s : Follower) (data : String) : Follower :=
  match control key data with
  | .encryptedWithoutKey => s.stop (some missingKey)
  | .usersCount => { s with live := true }
  | .broadcasting true => { s.clearTimeout with ending := none }
  | .broadcasting false =>
    if s.live then s.armGrace
    -- in the snapshot it means a finished broadcast, or none
    else if s.sawOutput then s.stop none
    else s.stop (some nothingBroadcasting)
  | .other => s

/-- What a binary message brings: the bytes decoded of it, or the message to die with.
`none` is an exception. -/
def receive (s : Follower) (data : Bytes) : Option (Except String Decoded) :=
  let buf := s.buf ++ data
  match if s.checked then none else mismatch key buf with
  | some wrong => some (.error wrong)
  | none => (decode aes key buf).map fun decoded =>
    if decoded.consumed = -1 then .error wrongKey else .ok decoded

def onBinary (s : Follower) (data : Bytes) : Follower :=
  match s.receive aes key data with
  | none => s
  | some (.error message) =>
    { s with buf := s.buf ++ data, checked := true }.stop (some message)
  | some (.ok decoded) =>
    let written := StringDecoder.write s.held decoded.text
    let s := { s with
      buf := (s.buf ++ data).drop decoded.consumed.toNat
      held := written.2
      checked := true }
    let text := strip written.1
    -- an empty text is no output, so it does not count as a history either
    if text = [] then s else { s with stdout := s.stdout ++ [text], sawOutput := true }

/-- Nothing is handled after the end: the socket is closed, and the process exits. -/
def step (s : Follower) (a : FollowAction) : Option Follower :=
  if s.ended.isSome then none
  else match a with
    | .text data => some (s.onText key data)
    | .binary data => some (s.onBinary aes key data)
    | .elapse ms => some { s with now := s.now + ms }
    | .fire handle =>
      -- a timer fires when it is due, or later
      if s.timers.any fun t => t.handle = handle && t.due ≤ s.now then
        some { s.clearTimeout with ended := some .graceOver }
      else none

/-- The text of a binary message, before it is stripped. -/
def batch (s : Follower) (data : Bytes) : Option Text :=
  match s.receive aes key data with
  | some (.ok decoded) => some (StringDecoder.write s.held decoded.text).1
  | _ => none

/-- Everything that was printed is inert. -/
def PrintsInert (s : Follower) : Prop := ∀ text ∈ s.stdout, Inert text

variable {aes key} {s s' : Follower} {a : FollowAction}

@[simp] theorem stdout_stop (s : Follower) (message : Option String) :
    (s.stop message).stdout = s.stdout := rfl

theorem stdout_onText (s : Follower) (data : String) : (s.onText key data).stdout = s.stdout := by
  unfold onText
  split
  · rfl
  · rfl
  · rfl
  · split_ifs <;> rfl
  · rfl

end Key

end Follower

end Shellshare
