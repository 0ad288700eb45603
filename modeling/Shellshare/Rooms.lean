import Mathlib.Logic.Function.Basic
import Shellshare.MessageHistory

/-! Room lifecycle: claiming, history, activity tracking and eviction. Every
operation reads and writes the one entry of the room it names, under that
entry's lock, so each is one step on the store. Times are in milliseconds. -/
namespace Shellshare

def maxHistoryMessages : ℕ := 200
def maxHistoryBytes : ℕ := 8 * 1024 * 1024
def broadcasterGrace : ℕ := 300 * 1000

/-- A canonical room identifier. -/
structure RoomId where
  name : String
deriving DecidableEq

/-- The room is claimed by another password. -/
inductive Unauthorized where
  | unauthorized
deriving DecidableEq

/-- What an authorized `append` did to the room. -/
inductive Appended where
  | claimed
  | verified
deriving DecidableEq

structure Room where
  password : String
  messages : MessageHistory
  size : Option Json
  liveSince : Option ℕ
  lastActivity : ℕ
  broadcasters : ℕ

structure RoomSnapshot where
  size : Option Json
  history : Option Bytes
  broadcasting : Bool

def Room.new (password : String) (now : ℕ) : Room :=
  ⟨password, MessageHistory.new maxHistoryMessages maxHistoryBytes, none, none, now, 0⟩

/-- What an authorized append writes into the entry. -/
def Room.store (entry : Room) (now : ℕ) (size : Option Json) (message : Option Bytes) : Room :=
  { entry with
    lastActivity := now
    size := size.or entry.size
    messages := message.elim entry.messages entry.messages.push }

/-- How long a room may go without activity before a sweep removes it. -/
def Room.deadline (entry : Room) (ttl : ℕ) : ℕ :=
  if 0 < entry.broadcasters then max ttl broadcasterGrace else ttl

/-- `now.duration_since(last_activity) <= deadline`, which saturates at zero. -/
def Room.keep (entry : Room) (now ttl : ℕ) : Bool :=
  now - entry.lastActivity ≤ entry.deadline ttl

/-- All live rooms. -/
abbrev Rooms := RoomId → Option Room

namespace Rooms

def append (rooms : Rooms) (now : ℕ) (room : RoomId) (secret : String) (size : Option Json)
    (message : Option Bytes) : Except Unauthorized Appended × Rooms :=
  let appended := if (rooms room).isSome then Appended.verified else Appended.claimed
  -- a missing room is claimed by whoever appends to it first
  let entry := (rooms room).getD (Room.new secret now)
  if entry.password ≠ secret then (.error .unauthorized, rooms)
  else (.ok appended, Function.update rooms room (some (entry.store now size message)))

def snapshot (rooms : Rooms) (now : ℕ) (room : RoomId) : Option RoomSnapshot :=
  (rooms room).map fun entry =>
    { size := entry.size
      history := entry.messages.accumulated
      broadcasting := 0 < entry.broadcasters && now - entry.lastActivity ≤ broadcasterGrace }

def reset (rooms : Rooms) (now : ℕ) (room : RoomId) (secret : String) :
    Except Unauthorized Unit × Rooms :=
  match rooms room with
  -- a room that does not exist is already clear
  | none => (.ok (), rooms)
  | some entry =>
    if entry.password ≠ secret then (.error .unauthorized, rooms)
    -- only the sole broadcaster may clear it, for the frame is not ordered across connections
    else if 1 < entry.broadcasters then (.ok (), rooms)
    -- the size stays: it tells a late joiner whether the stream is encrypted
    else (.ok (), Function.update rooms room (some { entry with
      messages := MessageHistory.new maxHistoryMessages maxHistoryBytes
      lastActivity := now }))

/-- Returns the new connection count, `0` when the connection was not counted. -/
def broadcasterConnected (rooms : Rooms) (now : ℕ) (room : RoomId) (secret : String) :
    ℕ × Rooms :=
  match rooms room with
  -- it vanished between the handshake and the upgrade, or is another owner's by now
  | none => (0, rooms)
  | some entry =>
    if entry.password ≠ secret then (0, rooms)
    else (entry.broadcasters + 1, Function.update rooms room (some { entry with
      liveSince := if entry.broadcasters = 0 then some now else entry.liveSince
      broadcasters := entry.broadcasters + 1 }))

/-- Returns the remaining count and, when this detach ended the live segment,
how long that segment ran. -/
def broadcasterDisconnected (rooms : Rooms) (now : ℕ) (room : RoomId) (secret : String) :
    (ℕ × Option ℕ) × Rooms :=
  match rooms room with
  | none => ((0, none), rooms)
  | some entry =>
    -- a stale loop must not touch the new owner's count
    if entry.password ≠ secret then ((entry.broadcasters, none), rooms)
    else
      -- saturating in the source too
      let broadcasters := entry.broadcasters - 1
      let duration := if broadcasters = 0 then entry.liveSince.map (now - ·) else none
      ((broadcasters, duration), Function.update rooms room (some { entry with
        liveSince := if broadcasters = 0 then none else entry.liveSince
        broadcasters := broadcasters }))

def delete (rooms : Rooms) (now : ℕ) (room : RoomId) (secret : String) :
    Except Unauthorized (Option ℕ) × Rooms :=
  match rooms room with
  | none => (.ok none, rooms)
  | some entry =>
    if entry.password ≠ secret then (.error .unauthorized, rooms)
    else (.ok (entry.liveSince.map (now - ·)), Function.update rooms room none)

/-- One room's turn in the sweep's `retain`. -/
def evictRoom (rooms : Rooms) (now ttl : ℕ) (room : RoomId) : Rooms :=
  Function.update rooms room ((rooms room).filter (·.keep now ttl))

/-- A whole sweep. The count it returns is only logged, and is left out. -/
def evictStale (rooms : Rooms) (now ttl : ℕ) : Rooms :=
  fun room => (rooms room).filter (·.keep now ttl)

variable {rooms : Rooms} {now : ℕ} {room other : RoomId} {secret : String}
  {size : Option Json} {message : Option Bytes}

/-- The entry `append` works on: the room's own, or a fresh one it claims. -/
def entryFor (rooms : Rooms) (now : ℕ) (room : RoomId) (secret : String) : Room :=
  (rooms room).getD (Room.new secret now)

theorem append_of_some {entry : Room} (he : rooms room = some entry)
    (hp : entry.password = secret) :
    rooms.append now room secret size message =
      (.ok .verified, Function.update rooms room (some (entry.store now size message))) := by
  simp [append, he, hp]

theorem append_of_none (he : rooms room = none) :
    rooms.append now room secret size message =
      (.ok .claimed, Function.update rooms room
        (some ((Room.new secret now).store now size message))) := by
  simp [append, he, Room.new]

theorem append_of_ne {entry : Room} (he : rooms room = some entry)
    (hp : entry.password ≠ secret) :
    rooms.append now room secret size message = (.error .unauthorized, rooms) := by
  simp [append, he, hp]

/-- Everything an append can do: refuse and change nothing, or store into the
entry of a room that is the caller's, claiming it first when it is missing. -/
theorem append_cases (rooms : Rooms) (now : ℕ) (room : RoomId) (secret : String)
    (size : Option Json) (message : Option Bytes) :
    (∃ entry, rooms room = some entry ∧ entry.password ≠ secret ∧
      rooms.append now room secret size message = (.error .unauthorized, rooms)) ∨
    (∃ appended, (rooms.entryFor now room secret).password = secret ∧
      rooms.append now room secret size message =
        (.ok appended, Function.update rooms room
          (some ((rooms.entryFor now room secret).store now size message)))) := by
  cases he : rooms room with
  | none =>
    refine Or.inr ⟨.claimed, by simp [entryFor, he, Room.new], ?_⟩
    rw [append_of_none he]
    simp [entryFor, he]
  | some entry =>
    by_cases hp : entry.password = secret
    · refine Or.inr ⟨.verified, by simpa [entryFor, he] using hp, ?_⟩
      rw [append_of_some he hp]
      simp [entryFor, he]
    · exact Or.inl ⟨entry, rfl, hp, append_of_ne he hp⟩

/-- Everything a reset can do: refuse, find nothing that it may clear, or clear the
history of the caller's own room. -/
theorem reset_cases (rooms : Rooms) (now : ℕ) (room : RoomId) (secret : String) :
    (∃ entry, rooms room = some entry ∧ entry.password ≠ secret ∧
      rooms.reset now room secret = (.error .unauthorized, rooms)) ∨
    ((∀ entry, rooms room = some entry → entry.password = secret ∧ 1 < entry.broadcasters) ∧
      rooms.reset now room secret = (.ok (), rooms)) ∨
    ∃ entry, rooms room = some entry ∧ entry.password = secret ∧ entry.broadcasters ≤ 1 ∧
      rooms.reset now room secret = (.ok (), Function.update rooms room (some { entry with
        messages := MessageHistory.new maxHistoryMessages maxHistoryBytes
        lastActivity := now })) := by
  cases he : rooms room with
  | none => exact Or.inr (Or.inl ⟨nofun, by simp [reset, he]⟩)
  | some entry =>
    by_cases hp : entry.password = secret
    · by_cases hn : 1 < entry.broadcasters
      · refine Or.inr (Or.inl ⟨?_, by simp [reset, he, hp, hn]⟩)
        rintro held ⟨⟩
        exact ⟨hp, hn⟩
      · exact Or.inr (Or.inr ⟨entry, rfl, hp, not_lt.mp hn, by simp [reset, he, hp, hn]⟩)
    · exact Or.inl ⟨entry, rfl, hp, by simp [reset, he, hp]⟩

end Rooms

end Shellshare
