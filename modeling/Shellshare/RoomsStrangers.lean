import Shellshare.Unwinding
import Shellshare.RoomsCalls

/-! What readers and strangers can do to a claimed room: nothing that the room,
or anyone who holds its password, could notice. -/
namespace Shellshare
open Unwinding

section Step
variable {now : ℕ} {op : RoomsOp} {result : RoomsResult} {entry entry' : Room}
  {after : Option Room}

/-- Nothing but a removal takes the password off a room. -/
theorem RoomStep.password_eq (h : RoomStep now (some entry) op result (some entry')) :
    entry'.password = entry.password := by
  cases h <;> rfl

/-- An operation of a stranger leaves the entry as it was, and is refused. -/
theorem RoomStep.of_stranger (h : RoomStep now (some entry) op result after)
    (hstranger : op.stranger entry.password = true) :
    after = some entry ∧ (op.secret.isSome → result = op.refusal entry) := by
  cases h with
  | refuse => exact ⟨rfl, fun _ => rfl⟩
  | read => exact ⟨rfl, nofun⟩
  | keep => exact ⟨rfl, nofun⟩
  -- the others carry the room's own password
  | _ => simp [RoomsOp.stranger, RoomsOp.secret] at hstranger

end Step

namespace Rooms

/-- A room's life: each operation that concerns it, with what it returned and the
entry before and after, up to the one that removes the room. -/
def observe (room : RoomId) (rooms : Rooms) (calls : List RoomsCall) :
    List (Observed RoomsCall RoomsResult Room) :=
  Unwinding.observe performCall (fun rooms => rooms room) (fun call => call.op.concerns room)
    rooms calls

variable {rooms : Rooms} {call : RoomsCall} {room : RoomId} {entry entry' : Room}

theorem perform_password (he : rooms room = some entry)
    (he' : (rooms.performCall call).2 room = some entry') :
    entry'.password = entry.password := by
  by_cases hop : call.op.concerns room = true
  · have hstep := perform_cases rooms call.now hop
    have hafter : (rooms.perform call.now call.op).2 room = some entry' := he'
    rw [he, hafter] at hstep
    exact hstep.password_eq
  · have hsame : (rooms.performCall call).2 room = rooms room :=
      perform_of_not_concerns (eq_false_of_ne_true hop)
    rw [hsame, he] at he'
    rw [Option.some.inj he']

theorem perform_of_stranger (he : rooms room = some entry)
    (hstranger : call.op.stranger entry.password = true) :
    (rooms.performCall call).2 room = some entry := by
  by_cases hop : call.op.concerns room = true
  · have hstep := perform_cases rooms call.now hop
    rw [he] at hstep
    exact (hstep.of_stranger hstranger).1
  · exact (perform_of_not_concerns (eq_false_of_ne_true hop)).trans he

/-- Deleting from a run every read and every operation with another secret leaves
the life of a room as it was: its entry, what the other operations on it return
and which of them removes it. Those deleted changed nothing and were refused. -/
theorem strangers_invisible (rooms : Rooms) (room : RoomId) (entry : Room)
    (he : rooms room = some entry) (calls : List RoomsCall) :
    observe room rooms (calls.filter fun call => !call.op.stranger entry.password) =
        (observe room rooms calls).filter (fun o => !o.action.op.stranger entry.password) ∧
      ∀ o ∈ observe room rooms calls, o.action.op.stranger entry.password = true →
        o.after = o.before ∧ (o.action.op.secret.isSome →
          ∃ held, o.before = some held ∧ o.result = o.action.op.refusal held) := by
  have hkeep : ∀ (rooms : Rooms) call held held', rooms room = some held →
      held.password = entry.password → (rooms.performCall call).2 room = some held' →
        held'.password = entry.password :=
    fun rooms call held held' hh hp hh' => (perform_password hh hh').trans hp
  have hframe : ∀ (rooms : Rooms) (call : RoomsCall), call.op.concerns room = false →
      (rooms.performCall call).2 room = rooms room :=
    fun rooms call hop => perform_of_not_concerns hop
  constructor
  · apply observe_filter (I := fun held => held.password = entry.password) hkeep hframe
    · intro rooms call held hh hp hstranger
      rw [← hp] at hstranger
      exact perform_of_stranger hh hstranger
    · intro rooms rooms' call hop hsame
      exact perform_congr hsame hop
    · exact he
    · rfl
    · rfl
  · intro o ho hstranger
    obtain ⟨rooms', held, hheld, hp, hop, hbefore, hresult, hafter⟩ :=
      observe_sound hkeep hframe he rfl ho
    have hstep := perform_cases rooms' o.action.now hop
    rw [hheld] at hstep
    rw [← hp] at hstranger
    obtain ⟨hsame, hrefused⟩ := hstep.of_stranger hstranger
    refine ⟨?_, fun hsecret => ⟨held, hbefore, ?_⟩⟩
    · rw [hbefore, hafter]
      exact hsame
    · rw [hresult]
      exact hrefused hsecret

/-- A stranger's append, reset and detach, a read, then the owner's delete. -/
theorem strangers_invisible_five :
    let room : RoomId := ⟨"demo"⟩
    let rooms := const (some (Room.new "mine" 0))
    let calls : List RoomsCall := [⟨1, .append room "theirs" none (some [7])⟩,
      ⟨2, .reset room "theirs"⟩, ⟨3, .snapshot room⟩, ⟨4, .broadcasterDisconnected room "theirs"⟩,
      ⟨5, .delete room "mine"⟩]
    observe room rooms (calls.filter fun call => !call.op.stranger "mine") =
      (observe room rooms calls).filter (fun o => !o.action.op.stranger "mine") :=
  (strangers_invisible (const (some (Room.new "mine" 0))) ⟨"demo"⟩ (Room.new "mine" 0) rfl _).1

end Rooms

end Shellshare
