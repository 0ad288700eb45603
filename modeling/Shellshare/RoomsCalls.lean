import Shellshare.Rooms

/-! Runs of the room store: any sequence of its operations, each at its time,
with what it returned. -/
namespace Shellshare

inductive RoomsOp where
  | append (room : RoomId) (secret : String) (size : Option Json) (message : Option Bytes)
  | snapshot (room : RoomId)
  | reset (room : RoomId) (secret : String)
  | broadcasterConnected (room : RoomId) (secret : String)
  | broadcasterDisconnected (room : RoomId) (secret : String)
  | delete (room : RoomId) (secret : String)
  | evictStale (ttl : ℕ)

inductive RoomsResult where
  | appended (result : Except Unauthorized Appended)
  | snapshot (snapshot : Option RoomSnapshot)
  | reset (result : Except Unauthorized Unit)
  | connected (count : ℕ)
  | disconnected (remaining : ℕ) (duration : Option ℕ)
  | deleted (result : Except Unauthorized (Option ℕ))
  | swept

/-- An operation and the time it is performed at. -/
structure RoomsCall where
  now : ℕ
  op : RoomsOp

/-- A call and what it returned. -/
structure RoomsEvent where
  call : RoomsCall
  result : RoomsResult

namespace RoomsOp

/-- The room an operation names; a sweep names none and visits all. -/
def room : RoomsOp → Option RoomId
  | append room _ _ _ => some room
  | snapshot room => some room
  | reset room _ => some room
  | broadcasterConnected room _ => some room
  | broadcasterDisconnected room _ => some room
  | delete room _ => some room
  | evictStale _ => none

def secret : RoomsOp → Option String
  | append _ secret _ _ => some secret
  | snapshot _ => none
  | reset _ secret => some secret
  | broadcasterConnected _ secret => some secret
  | broadcasterDisconnected _ secret => some secret
  | delete _ secret => some secret
  | evictStale _ => none

def concerns (r : RoomId) (op : RoomsOp) : Bool := op.room.all (· = r)

/-- A read, or an operation whose secret is not the password. -/
def stranger (password : String) : RoomsOp → Bool
  | snapshot _ => true
  | op => op.secret.any (· ≠ password)

/-- What an operation with another secret is told: `Unauthorized`, that its
connection was not counted, or that its detach left the room's count alone and
ended no segment. -/
def refusal (entry : Room) : RoomsOp → RoomsResult
  | append .. => .appended (.error .unauthorized)
  | snapshot _ => .snapshot none
  | reset .. => .reset (.error .unauthorized)
  | broadcasterConnected .. => .connected 0
  | broadcasterDisconnected .. => .disconnected entry.broadcasters none
  | delete .. => .deleted (.error .unauthorized)
  | evictStale _ => .swept

/-- What an operation on a room that is not there is told; an append claims it. -/
def missing : RoomsOp → RoomsResult
  | append .. => .appended (.ok .claimed)
  | snapshot _ => .snapshot none
  | reset .. => .reset (.ok ())
  | broadcasterConnected .. => .connected 0
  | broadcasterDisconnected .. => .disconnected 0 none
  | delete .. => .deleted (.ok none)
  | evictStale _ => .swept

end RoomsOp

/-- What an operation that concerns a room can do to its entry, and return. -/
inductive RoomStep (now : ℕ) : Option Room → RoomsOp → RoomsResult → Option Room → Prop where
  | claim (r : RoomId) (secret : String) (size : Option Json) (message : Option Bytes) :
    RoomStep now none (.append r secret size message) (.appended (.ok .claimed))
      (some ((Room.new secret now).store now size message))
  | missing (op : RoomsOp) (hop : ∀ r secret size message, op ≠ .append r secret size message) :
    RoomStep now none op op.missing none
  | refuse (entry : Room) (op : RoomsOp) (secret : String) (hsecret : op.secret = some secret)
    (hp : entry.password ≠ secret) :
    RoomStep now (some entry) op (op.refusal entry) (some entry)
  | store (entry : Room) (r : RoomId) (size : Option Json) (message : Option Bytes) :
    RoomStep now (some entry) (.append r entry.password size message)
      (.appended (.ok .verified)) (some (entry.store now size message))
  | read (entry : Room) (r : RoomId) (result : Option RoomSnapshot) :
    RoomStep now (some entry) (.snapshot r) (.snapshot result) (some entry)
  | clear (entry : Room) (r : RoomId) (hsole : entry.broadcasters ≤ 1) :
    RoomStep now (some entry) (.reset r entry.password) (.reset (.ok ()))
      (some { entry with
        messages := MessageHistory.new maxHistoryMessages maxHistoryBytes
        lastActivity := now })
  | skip (entry : Room) (r : RoomId) (hmany : 1 < entry.broadcasters) :
    RoomStep now (some entry) (.reset r entry.password) (.reset (.ok ())) (some entry)
  | connect (entry : Room) (r : RoomId) :
    RoomStep now (some entry) (.broadcasterConnected r entry.password)
      (.connected (entry.broadcasters + 1))
      (some { entry with
        liveSince := if entry.broadcasters = 0 then some now else entry.liveSince
        broadcasters := entry.broadcasters + 1 })
  | disconnect (entry : Room) (r : RoomId) :
    RoomStep now (some entry) (.broadcasterDisconnected r entry.password)
      (.disconnected (entry.broadcasters - 1)
        (if entry.broadcasters - 1 = 0 then entry.liveSince.map (now - ·) else none))
      (some { entry with
        liveSince := if entry.broadcasters - 1 = 0 then none else entry.liveSince
        broadcasters := entry.broadcasters - 1 })
  | delete (entry : Room) (r : RoomId) :
    RoomStep now (some entry) (.delete r entry.password)
      (.deleted (.ok (entry.liveSince.map (now - ·)))) none
  | evict (entry : Room) (ttl : ℕ) (hstale : entry.keep now ttl = false) :
    RoomStep now (some entry) (.evictStale ttl) .swept none
  | keep (entry : Room) (ttl : ℕ) (hfresh : entry.keep now ttl = true) :
    RoomStep now (some entry) (.evictStale ttl) .swept (some entry)

namespace Rooms

def perform (rooms : Rooms) (now : ℕ) : RoomsOp → RoomsResult × Rooms
  | .append room secret size message =>
    let r := rooms.append now room secret size message
    (.appended r.1, r.2)
  | .snapshot room => (.snapshot (rooms.snapshot now room), rooms)
  | .reset room secret =>
    let r := rooms.reset now room secret
    (.reset r.1, r.2)
  | .broadcasterConnected room secret =>
    let r := rooms.broadcasterConnected now room secret
    (.connected r.1, r.2)
  | .broadcasterDisconnected room secret =>
    let r := rooms.broadcasterDisconnected now room secret
    (.disconnected r.1.1 r.1.2, r.2)
  | .delete room secret =>
    let r := rooms.delete now room secret
    (.deleted r.1, r.2)
  | .evictStale ttl => (.swept, rooms.evictStale now ttl)

def performCall (rooms : Rooms) (call : RoomsCall) : RoomsResult × Rooms :=
  rooms.perform call.now call.op

/-- Perform the calls in order. -/
def performAll (rooms : Rooms) : List RoomsCall → List RoomsEvent × Rooms
  | [] => ([], rooms)
  | call :: calls =>
    let r := rooms.performCall call
    let rest := performAll r.2 calls
    (⟨call, r.1⟩ :: rest.1, rest.2)

variable {rooms rooms' : Rooms} {now : ℕ} {op : RoomsOp} {room : RoomId}

theorem performAll_concat (rooms : Rooms) (calls : List RoomsCall) (call : RoomsCall) :
    rooms.performAll (calls ++ [call]) =
      let r := (rooms.performAll calls).2.performCall call
      ((rooms.performAll calls).1 ++ [⟨call, r.1⟩], r.2) := by
  induction calls generalizing rooms with
  | nil => rfl
  | cons first calls ih => simp only [List.cons_append, performAll, ih]

theorem performAll_calls (rooms : Rooms) (calls : List RoomsCall) :
    (rooms.performAll calls).1.map RoomsEvent.call = calls := by
  induction calls generalizing rooms with
  | nil => rfl
  | cons first calls ih => simp only [performAll, List.map_cons, ih]

/-- The store that has one entry for every name. -/
def const (entry : Option Room) : Rooms := fun _ => entry

@[simp] theorem const_apply (entry : Option Room) (r : RoomId) : const entry r = entry := rfl

/-- An operation that names a room is decided by that room's entry, and writes it only. -/
theorem perform_eq_update (rooms : Rooms) (now : ℕ) (hroom : op.room = some room) :
    rooms.perform now op =
      (((const (rooms room)).perform now op).1,
        Function.update rooms room (((const (rooms room)).perform now op).2 room)) := by
  cases op with
  | append r secret size message =>
    obtain rfl := Option.some.inj hroom
    cases he : rooms r with
    | none =>
      have hconst : const none r = none := rfl
      simp only [perform, append_of_none he, append_of_none hconst, Function.update_self]
    | some entry =>
      have hconst : const (some entry) r = some entry := rfl
      by_cases hp : entry.password = secret
      · simp only [perform, append_of_some he hp, append_of_some hconst hp, Function.update_self]
      · have hsame : Function.update rooms r (some entry) = rooms := by
          rw [← he, Function.update_eq_self]
        simp only [perform, append_of_ne he hp, append_of_ne hconst hp, const_apply, hsame]
  | snapshot r =>
    obtain rfl := Option.some.inj hroom
    simp [perform, snapshot]
  | reset r secret =>
    obtain rfl := Option.some.inj hroom
    simp only [perform, reset, const_apply]
    cases he : rooms r with
    | none => simp [← he]
    | some entry =>
      by_cases hp : entry.password = secret
      · by_cases hn : 1 < entry.broadcasters <;> simp [hp, hn, ← he]
      · simp [hp, ← he]
  | broadcasterConnected r secret =>
    obtain rfl := Option.some.inj hroom
    simp only [perform, broadcasterConnected, const_apply]
    cases he : rooms r with
    | none => simp [← he]
    | some entry => by_cases hp : entry.password = secret <;> simp [hp, ← he]
  | broadcasterDisconnected r secret =>
    obtain rfl := Option.some.inj hroom
    simp only [perform, broadcasterDisconnected, const_apply]
    cases he : rooms r with
    | none => simp [← he]
    | some entry => by_cases hp : entry.password = secret <;> simp [hp, ← he]
  | delete r secret =>
    obtain rfl := Option.some.inj hroom
    simp only [perform, delete, const_apply]
    cases he : rooms r with
    | none => simp [← he]
    | some entry => by_cases hp : entry.password = secret <;> simp [hp, ← he]
  | evictStale ttl => cases hroom

/-- An operation leaves every room alone that it does not concern. -/
theorem perform_of_not_concerns (hother : op.concerns room = false) :
    (rooms.perform now op).2 room = rooms room := by
  rw [RoomsOp.concerns] at hother
  cases hr : op.room with
  | none =>
    rw [hr] at hother
    cases hother
  | some r =>
    have hne : room ≠ r := by
      rintro rfl
      rw [hr] at hother
      simp at hother
    rw [perform_eq_update rooms now hr]
    exact Function.update_of_ne hne _ _

/-- Of the store, what an operation does to a room depends on that room's entry only. -/
theorem perform_congr (hsame : rooms room = rooms' room) (hop : op.concerns room = true) :
    (rooms.perform now op).1 = (rooms'.perform now op).1 ∧
      (rooms.perform now op).2 room = (rooms'.perform now op).2 room := by
  cases hr : op.room with
  | none =>
    have hsweep : ∃ ttl, op = .evictStale ttl := by
      cases op with
      | evictStale ttl => exact ⟨ttl, rfl⟩
      | _ => cases hr
    obtain ⟨ttl, rfl⟩ := hsweep
    exact ⟨rfl, congrArg (Option.filter _) hsame⟩
  | some r =>
    have heq : r = room := by simpa [RoomsOp.concerns, hr] using hop
    subst heq
    rw [perform_eq_update rooms now hr, perform_eq_update rooms' now hr, hsame]
    simp

/-- Any operation is one of these steps of each room it concerns. -/
theorem perform_cases (rooms : Rooms) (now : ℕ) (hop : op.concerns room = true) :
    RoomStep now (rooms room) op (rooms.perform now op).1 ((rooms.perform now op).2 room) := by
  cases he : rooms room with
  | none =>
    have hmissing : (∀ r secret size message, op ≠ .append r secret size message) →
        RoomStep now none op op.missing none := RoomStep.missing op
    cases op with
    | append r secret size message =>
      obtain rfl := of_decide_eq_true hop
      simpa [perform, append_of_none he] using RoomStep.claim r secret size message
    | snapshot r =>
      obtain rfl := of_decide_eq_true hop
      simpa [perform, snapshot, he, RoomsOp.missing] using hmissing
    | reset r secret =>
      obtain rfl := of_decide_eq_true hop
      simpa [perform, reset, he, RoomsOp.missing] using hmissing
    | broadcasterConnected r secret =>
      obtain rfl := of_decide_eq_true hop
      simpa [perform, broadcasterConnected, he, RoomsOp.missing] using hmissing
    | broadcasterDisconnected r secret =>
      obtain rfl := of_decide_eq_true hop
      simpa [perform, broadcasterDisconnected, he, RoomsOp.missing] using hmissing
    | delete r secret =>
      obtain rfl := of_decide_eq_true hop
      simpa [perform, delete, he, RoomsOp.missing] using hmissing
    | evictStale ttl => simpa [perform, evictStale, he, RoomsOp.missing] using hmissing
  | some entry =>
    have hrefuse : ∀ secret, op.secret = some secret → entry.password ≠ secret →
        RoomStep now (some entry) op (op.refusal entry) (some entry) := RoomStep.refuse entry op
    cases op with
    | append r secret size message =>
      obtain rfl := of_decide_eq_true hop
      by_cases hp : entry.password = secret
      · subst hp
        simpa [perform, append_of_some he rfl] using RoomStep.store entry r size message
      · simpa [perform, append_of_ne he hp, he, RoomsOp.refusal] using hrefuse secret rfl hp
    | snapshot r =>
      obtain rfl := of_decide_eq_true hop
      simpa [perform, he] using RoomStep.read entry r _
    | reset r secret =>
      obtain rfl := of_decide_eq_true hop
      by_cases hp : entry.password = secret
      · subst hp
        by_cases hn : 1 < entry.broadcasters
        · simpa [perform, reset, he, hn] using RoomStep.skip entry r hn
        · simpa [perform, reset, he, hn] using RoomStep.clear entry r (not_lt.mp hn)
      · simpa [perform, reset, he, hp, RoomsOp.refusal] using hrefuse secret rfl hp
    | broadcasterConnected r secret =>
      obtain rfl := of_decide_eq_true hop
      by_cases hp : entry.password = secret
      · subst hp
        simpa [perform, broadcasterConnected, he] using RoomStep.connect entry r
      · simpa [perform, broadcasterConnected, he, hp, RoomsOp.refusal] using hrefuse secret rfl hp
    | broadcasterDisconnected r secret =>
      obtain rfl := of_decide_eq_true hop
      by_cases hp : entry.password = secret
      · subst hp
        simpa [perform, broadcasterDisconnected, he] using RoomStep.disconnect entry r
      · simpa [perform, broadcasterDisconnected, he, hp, RoomsOp.refusal]
          using hrefuse secret rfl hp
    | delete r secret =>
      obtain rfl := of_decide_eq_true hop
      by_cases hp : entry.password = secret
      · subst hp
        simpa [perform, delete, he] using RoomStep.delete entry r
      · simpa [perform, delete, he, hp, RoomsOp.refusal] using hrefuse secret rfl hp
    | evictStale ttl =>
      cases hk : entry.keep now ttl with
      | true => simpa [perform, evictStale, he, hk, Option.filter] using RoomStep.keep entry ttl hk
      | false =>
        simpa [perform, evictStale, he, hk, Option.filter] using RoomStep.evict entry ttl hk

end Rooms

end Shellshare
