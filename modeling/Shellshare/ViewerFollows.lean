import Shellshare.ViewerTask

/-! How a viewer follows the fan-out task of its room: what was sent to the room
since the viewer joined, and what is still pending there, is a tail of the
items the task handled. -/
namespace Shellshare
open FrameCoalescing

theorem uncoalesced_prefix {room : RoomId} {xs ys : List FanoutItem} (h : xs <+: ys) :
    uncoalesced room xs <+: uncoalesced room ys := by
  obtain ⟨zs, rfl⟩ := h
  rw [uncoalesced_append]
  exact List.prefix_append _ _

theorem sentTo_cons (room : RoomId) (e : Emission) (emits : List Emission) :
    sentTo room (e :: emits) = sentTo room [e] ++ sentTo room emits :=
  sentTo_append room [e] emits

theorem sentTo_singleton (room : RoomId) (e : Emission) :
    sentTo room [e] = if e.1 = room then [e.2] else [] := by
  by_cases h : e.1 = room <;> simp [sentTo, h]

/-- What a fan-out task keeps to: it handles the `items` of its queue in order,
and a room is sent what it handled, merged. -/
structure Worker.Kept (room : RoomId) (items : List FanoutItem) (w : Worker) : Prop where
  queued : items = w.handled ++ (w.batch ++ w.queue)
  pending : PendingKept room (uncoalesced room w.handled) (sentTo room (w.emitted ++ w.emits))
    w.pending
  ingest : ∀ e ∈ w.emits, isIngest e.2 = true

/-- The messages before the viewer joined, `earlier`, came from items stored by
the time of its snapshot; the `later` ones were sent to it or are pending. -/
def Follows (w : Worker) (v : Viewer) : Prop :=
  ∃ earlier later, uncoalesced v.room w.handled = earlier ++ later ∧
    PendingKept v.room later (v.past.offered.filter isIngest ++ sentTo v.room w.emits) w.pending ∧
    (v.phase ≠ .registered → earlier <+: uncoalesced v.room v.past.appendedAt)

namespace Worker

variable {room : RoomId} {items : List FanoutItem} {w : Worker}

theorem kept_init (room : RoomId) : Kept room [] init :=
  ⟨rfl, pendingKept_of_coalesces .nil rfl, fun _ he => (by cases he)⟩

theorem Kept.enqueue (h : Kept room items w) (item : FanoutItem) :
    Kept room (items ++ [item]) (w.enqueue item) := by
  refine ⟨?_, h.pending, h.ingest⟩
  rw [h.queued]
  simp [Worker.enqueue]

theorem Kept.drain (h : Kept room items w) (hidle : w.idle = true) (more : ℕ) :
    Kept room items (w.drain more) := by
  refine ⟨?_, h.pending, h.ingest⟩
  have hbatch : w.batch = [] := by
    simp only [idle, Bool.and_eq_true, List.isEmpty_iff] at hidle
    exact hidle.1.1
  rw [h.queued, hbatch]
  simp [Worker.drain]

theorem Kept.handle (h : Kept room items w) (hemits : w.emits = []) {item : FanoutItem}
    {rest : List FanoutItem} (hbatch : w.batch = item :: rest) :
    Kept room items (w.handle item rest) := by
  refine ⟨?_, ?_, fun e he => isIngest_fanoutItem he⟩
  · rw [h.queued, hbatch]
    simp [Worker.handle]
  · have hpending := h.pending
    rw [hemits, List.append_nil] at hpending
    have hitem := pendingKept_item hpending item
    rw [← uncoalesced_append, ← sentTo_append] at hitem
    exact hitem

theorem Kept.emit (h : Kept room items w) {e : Emission} {rest : List Emission}
    (hemits : w.emits = e :: rest) : Kept room items (w.emit e rest) := by
  refine ⟨h.queued, ?_, fun e' he => h.ingest e' (hemits ▸ List.mem_cons_of_mem e he)⟩
  have hpending := h.pending
  rw [hemits] at hpending
  simpa [Worker.emit, List.append_assoc] using hpending

theorem Kept.flushRoom (h : Kept room items w) (hemits : w.emits = []) {r : RoomId} {p : Pending}
    (hp : w.pending.lookup r = some p) : Kept room items (w.flushRoom r p) := by
  refine ⟨h.queued, ?_, fun e he => isIngest_flush he⟩
  have hpending := h.pending
  rw [hemits, List.append_nil] at hpending
  have hflush := pendingKept_flush hpending hp
  rw [← sentTo_append] at hflush
  exact hflush

/-- A task without an item of the room sends it nothing. -/
theorem Kept.sentTo_eq_nil (h : Kept room items w) (hnone : uncoalesced room items = []) :
    sentTo room w.emits = [] := by
  have hhandled : uncoalesced room w.handled = [] := by
    rw [h.queued, uncoalesced_append] at hnone
    exact (List.append_eq_nil_iff.mp hnone).1
  have hbuf := h.pending.buffered
  rw [hhandled] at hbuf
  have hsent := hbuf.eq_nil
  rw [sentTo_append] at hsent
  exact (List.append_eq_nil_iff.mp hsent).2

end Worker

theorem Follows.of_same {w w' : Worker} {v : Viewer} (h : Follows w v)
    (hhandled : w'.handled = w.handled) (hemits : w'.emits = w.emits)
    (hpending : w'.pending = w.pending) : Follows w' v := by
  obtain ⟨earlier, later, hsplit, hkept, hbefore⟩ := h
  exact ⟨earlier, later, by rw [hhandled, hsplit], by rwa [hemits, hpending], hbefore⟩

theorem Follows.handle {w : Worker} {v : Viewer} (h : Follows w v) (hemits : w.emits = [])
    (item : FanoutItem) (rest : List FanoutItem) : Follows (w.handle item rest) v := by
  obtain ⟨earlier, later, hsplit, hkept, hbefore⟩ := h
  refine ⟨earlier, later ++ uncoalesced v.room [item], ?_, ?_, hbefore⟩
  · rw [← List.append_assoc, ← hsplit, ← uncoalesced_append]
    rfl
  · rw [hemits, sentTo_nil, List.append_nil] at hkept
    exact pendingKept_item hkept item

theorem Follows.flushRoom {w : Worker} {v : Viewer} (h : Follows w v) (hemits : w.emits = [])
    {r : RoomId} {p : Pending} (hp : w.pending.lookup r = some p) :
    Follows (w.flushRoom r p) v := by
  obtain ⟨earlier, later, hsplit, hkept, hbefore⟩ := h
  refine ⟨earlier, later, hsplit, ?_, hbefore⟩
  rw [hemits, sentTo_nil, List.append_nil] at hkept
  exact pendingKept_flush hkept hp

/-- An emit moves a message from what is still to be sent to what was sent. -/
theorem Follows.emit {w : Worker} {v : Viewer} (h : Follows w v) {e : Emission}
    {rest : List Emission} (hemits : w.emits = e :: rest) (hingest : isIngest e.2 = true) :
    Follows (w.emit e rest) (if v.room = e.1 then v.send e.2 else v) := by
  obtain ⟨earlier, later, hsplit, hkept, hbefore⟩ := h
  rw [hemits, sentTo_cons, sentTo_singleton] at hkept
  split_ifs with hroom
  · refine ⟨earlier, later, by rw [Viewer.send_room]; exact hsplit, ?_, ?_⟩
    · rw [if_pos hroom.symm, ← List.append_assoc] at hkept
      simpa [Worker.emit, hingest] using hkept
    · simpa using hbefore
  · rw [if_neg (Ne.symm hroom), List.nil_append] at hkept
    exact ⟨earlier, later, hsplit, hkept, hbefore⟩

theorem Follows.send_control {w : Worker} {v : Viewer} (h : Follows w v) {msg : ViewerMsg}
    (hmsg : isIngest msg = false) : Follows w (v.send msg) := by
  obtain ⟨earlier, later, hsplit, hkept, hbefore⟩ := h
  refine ⟨earlier, later, by rw [Viewer.send_room]; exact hsplit, ?_, by simpa using hbefore⟩
  simpa [hmsg] using hkept

/-- A viewer that joins now is sent all that is still to be sent. -/
theorem Worker.Kept.follows_join {room : RoomId} {items : List FanoutItem} {w : Worker}
    (h : w.Kept room items) : Follows w (Viewer.join room) := by
  have hbuf := h.pending.buffered
  rw [sentTo_append] at hbuf
  -- what was emitted by now is cut off, and with it the items it came from
  obtain ⟨earlier, later, hsplit, -, hlater⟩ := hbuf.split
  exact ⟨earlier, later, hsplit, ⟨hlater, h.pending.counted⟩, fun hne => absurd rfl hne⟩

theorem Follows.moves {w : Worker} {v v' : Viewer} {snapshot : Option RoomSnapshot}
    {appended : List FanoutItem} (h : Follows w v) (hkept : v.Kept)
    (hmove : Viewer.Moves snapshot appended v v')
    (hhandled : uncoalesced v.room w.handled <+: uncoalesced v.room appended) : Follows w v' := by
  obtain ⟨earlier, later, hsplit, hpending, hbefore⟩ := h
  obtain ⟨hroom, hoffered⟩ := hmove.room_eq
  refine ⟨earlier, later, by rwa [hroom], by rwa [hroom, hoffered], ?_⟩
  rw [hroom]
  rcases hmove.past_eq hkept with ⟨-, -, happ⟩ | ⟨-, happ, hphase⟩
  · -- the snapshot: what the task had handled by the join has been stored by now
    intro _
    rw [happ]
    exact (hsplit ▸ List.prefix_append earlier later).trans hhandled
  · intro hne
    rw [happ]
    exact hbefore (hphase hne)

end Shellshare
