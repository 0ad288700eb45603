import Mathlib.Data.List.AList
import Shellshare.FrameCoalescing
import Shellshare.ServerLoop

/-! The fan-out task: it drains its queue in batches and merges each room's
payloads into few frames, with every size control as a barrier. -/
namespace Shellshare
open FrameCoalescing

def fanoutMaxBatch : ℕ := 64 * 1024

/-- One message to one viewer: terminal bytes, or a JSON control event. -/
abbrev ViewerMsg := Frame UInt8 Json

/-- One `Viewers::send`: a message for every viewer of a room. -/
abbrev Emission := RoomId × ViewerMsg

def sizeControl (size : Json) : Json := .object [("size", size)]

/-- Payloads accumulated for one room, flushed as one emit. -/
structure Pending where
  chunks : List Bytes
  len : ℕ

/-- The `HashMap` of a batch. Its iteration order is not specified. -/
abbrev PendingRooms := AList fun _ : RoomId => Pending

def Pending.payload (p : Pending) : Bytes :=
  if p.chunks.length = 1 then p.chunks.headD [] else p.chunks.flatten

def flush (room : RoomId) (p : Pending) : List Emission :=
  if p.chunks = [] then [] else [(room, .bytes p.payload)]

def fanoutSize (pending : PendingRooms) (room : RoomId) :
    Option Json → List Emission × PendingRooms
  | none => ([], pending)
  | some size =>
    -- a barrier within its room: what was queued before it goes first
    ((pending.lookup room).elim [] (flush room) ++ [(room, .control (sizeControl size))],
      pending.erase room)

def fanoutPayload (pending : PendingRooms) (room : RoomId) :
    Option Bytes → List Emission × PendingRooms
  | none => ([], pending)
  | some payload => match pending.lookup room with
    | some p =>
      -- a payload that would overflow the frame starts the next one
      let (full, p) := if fanoutMaxBatch < p.len + payload.length then (flush room p, ⟨[], 0⟩)
        else ([], p)
      (full, pending.insert room ⟨p.chunks ++ [payload], p.len + payload.length⟩)
    | none => ([], pending.insert room ⟨[payload], payload.length⟩)

/-- One turn of the loop over a batch. -/
def fanoutItem (pending : PendingRooms) (item : FanoutItem) : List Emission × PendingRooms :=
  let (barrier, pending) := fanoutSize pending item.room item.size
  let (full, pending) := fanoutPayload pending item.room item.payload
  (barrier ++ full, pending)

def fanoutItems (pending : PendingRooms) : List FanoutItem → List Emission × PendingRooms
  | [] => ([], pending)
  | item :: items =>
    let (emits, pending) := fanoutItem pending item
    let (more, pending) := fanoutItems pending items
    (emits ++ more, pending)

/-- A batch, with what is left pending flushed in the map's `order`. -/
def fanoutBatch (order : PendingRooms → List (Σ _ : RoomId, Pending)) (batch : List FanoutItem) :
    List Emission :=
  let (emits, pending) := fanoutItems ∅ batch
  emits ++ (order pending).flatMap fun e => flush e.1 e.2

/-- Each batch has a map of its own, with an order of its own. -/
def fanoutLoop (order : ℕ → PendingRooms → List (Σ _ : RoomId, Pending)) :
    List (List FanoutItem) → List Emission
  | [] => []
  | batch :: batches => fanoutBatch (order 0) batch ++ fanoutLoop (fun i => order (i + 1)) batches

/-- What a room's viewers are sent. -/
def sentTo (room : RoomId) (emits : List Emission) : List ViewerMsg :=
  emits.filterMap fun e => if e.1 = room then some e.2 else none

/-- An item sent without merging: its size control, then its payload. -/
def FanoutItem.messages (item : FanoutItem) : List ViewerMsg :=
  (item.size.map fun size => .control (sizeControl size)).toList ++
    (item.payload.map Frame.bytes).toList

/-- The items of a room sent one by one. -/
def uncoalesced (room : RoomId) (items : List FanoutItem) : List ViewerMsg :=
  (items.filter fun item => item.room = room).flatMap FanoutItem.messages

/-- What a batch keeps to for a room: its pending payloads are the ones of `I`
not yet in `O`, and they are counted and at most a frame. -/
structure PendingKept (room : RoomId) (I O : List ViewerMsg) (pending : PendingRooms) : Prop where
  buffered : Buffered (Fits fanoutMaxBatch) I O ((pending.lookup room).elim [] Pending.chunks)
  counted : ∀ p, pending.lookup room = some p → p.chunks ≠ [] ∧ p.len = p.chunks.flatten.length

@[simp] theorem sentTo_nil (room : RoomId) : sentTo room [] = [] := rfl

@[simp] theorem sentTo_append (room : RoomId) (xs ys : List Emission) :
    sentTo room (xs ++ ys) = sentTo room xs ++ sentTo room ys := List.filterMap_append

theorem uncoalesced_append (room : RoomId) (xs ys : List FanoutItem) :
    uncoalesced room (xs ++ ys) = uncoalesced room xs ++ uncoalesced room ys := by
  simp [uncoalesced]

/-- A single chunk is sent as it is, several are copied into one buffer. -/
theorem Pending.payload_eq (p : Pending) : p.payload = p.chunks.flatten := by
  unfold payload
  split_ifs with h
  · obtain ⟨c, hc⟩ := List.length_eq_one_iff.mp h
    simp [hc]
  · rfl

theorem sentTo_flush_self (room : RoomId) {p : Pending} (hne : p.chunks ≠ []) :
    sentTo room (flush room p) = [.bytes p.chunks.flatten] := by
  simp [flush, hne, sentTo, p.payload_eq]

theorem sentTo_flush_ne {room r : RoomId} (hr : r ≠ room) (p : Pending) :
    sentTo room (flush r p) = [] := by
  unfold flush
  split_ifs <;> simp [sentTo, hr]

/-- A flush leaves nothing pending behind. -/
theorem PendingKept.flushed {room : RoomId} {I O : List ViewerMsg} {pending : PendingRooms}
    (h : PendingKept room I O pending) :
    Coalesces (Fits fanoutMaxBatch) I
      (O ++ sentTo room ((pending.lookup room).elim [] (flush room))) := by
  cases hp : pending.lookup room with
  | none =>
    have hbuf := h.buffered
    rw [hp] at hbuf
    simpa using buffered_nil_iff.mp hbuf
  | some p =>
    have hbuf := h.buffered
    have hne := (h.counted p hp).1
    rw [hp] at hbuf
    rw [Option.elim_some, sentTo_flush_self room hne]
    exact hbuf.flush hne

theorem pendingKept_of_coalesces {room : RoomId} {I O : List ViewerMsg} {pending : PendingRooms}
    (h : Coalesces (Fits fanoutMaxBatch) I O) (hp : pending.lookup room = none) :
    PendingKept room I O pending := by
  refine ⟨?_, fun p hsome => by rw [hp] at hsome; cases hsome⟩
  rw [hp]
  exact buffered_nil_iff.mpr h

theorem PendingKept.of_lookup_eq {room : RoomId} {I O : List ViewerMsg}
    {pending pending' : PendingRooms} (h : PendingKept room I O pending)
    (hp : pending'.lookup room = pending.lookup room) : PendingKept room I O pending' :=
  ⟨by rw [hp]; exact h.buffered, fun p => by rw [hp]; exact h.counted p⟩

theorem pendingKept_size {room r : RoomId} {I O : List ViewerMsg} {pending : PendingRooms}
    (h : PendingKept room I O pending) (size : Option Json) :
    PendingKept room
      (I ++ if r = room then (size.map fun s => .control (sizeControl s)).toList else [])
      (O ++ sentTo room (fanoutSize pending r size).1) (fanoutSize pending r size).2 := by
  cases size with
  | none => simpa [fanoutSize] using h
  | some size =>
    by_cases hr : r = room
    · subst hr
      -- the barrier: what was pending goes first, then the control
      apply pendingKept_of_coalesces _ (AList.lookup_erase r pending)
      have hflush := h.flushed.write_control (sizeControl size)
      simpa [fanoutSize, sentTo] using hflush
    · have hsent : sentTo room (fanoutSize pending r (some size)).1 = [] := by
        cases hp : pending.lookup r with
        | none => simp [fanoutSize, hp, sentTo, hr]
        | some p =>
          have hnone := sentTo_flush_ne hr p
          rw [fanoutSize, hp, sentTo_append, Option.elim_some, hnone]
          simp [sentTo, hr]
      rw [hsent, if_neg hr, List.append_nil, List.append_nil]
      exact h.of_lookup_eq (AList.lookup_erase_ne (Ne.symm hr))

theorem pendingKept_push {room : RoomId} {I O : List ViewerMsg} {pending : PendingRooms}
    {chunks : List Bytes} {len : ℕ} {payload : Bytes}
    (h : Buffered (Fits fanoutMaxBatch) I O chunks) (hlen : len = chunks.flatten.length)
    (hfits : Fits fanoutMaxBatch (chunks ++ [payload])) :
    PendingKept room (I ++ [.bytes payload]) O
      (pending.insert room ⟨chunks ++ [payload], len + payload.length⟩) := by
  constructor
  · rw [AList.lookup_insert, Option.elim_some]
    exact h.push hfits
  · intro p hp
    rw [AList.lookup_insert] at hp
    obtain rfl := Option.some.inj hp
    exact ⟨by simp, by simp [hlen]⟩

theorem pendingKept_payload {room r : RoomId} {I O : List ViewerMsg} {pending : PendingRooms}
    (h : PendingKept room I O pending) (payload : Option Bytes) :
    PendingKept room (I ++ if r = room then (payload.map Frame.bytes).toList else [])
      (O ++ sentTo room (fanoutPayload pending r payload).1)
      (fanoutPayload pending r payload).2 := by
  cases payload with
  | none => simpa [fanoutPayload] using h
  | some payload =>
    by_cases hr : r = room
    · subst hr
      rw [if_pos rfl, Option.map_some, Option.toList_some]
      have hfirst : ∀ {O' : List ViewerMsg}, Coalesces (Fits fanoutMaxBatch) I O' →
          PendingKept r (I ++ [.bytes payload]) O'
            (pending.insert r ⟨[] ++ [payload], 0 + payload.length⟩) :=
        fun h => pendingKept_push (buffered_nil_iff.mpr h) rfl (fits_singleton _ _)
      cases hp : pending.lookup r with
      | none =>
        have hflush := h.flushed
        rw [hp] at hflush
        simpa [fanoutPayload, hp] using hfirst hflush
      | some p =>
        obtain ⟨hne, hlen⟩ := h.counted p hp
        have hflush := h.flushed
        have hbuf := h.buffered
        rw [hp] at hflush hbuf
        by_cases hover : fanoutMaxBatch < p.len + payload.length
        · simpa [fanoutPayload, hp, hover] using hfirst hflush
        · have hfits : Fits fanoutMaxBatch (p.chunks ++ [payload]) := by
            apply Or.inl
            rw [List.flatten_append, List.length_append, ← hlen, List.flatten_singleton]
            omega
          simpa [fanoutPayload, hp, hover] using pendingKept_push hbuf hlen hfits
    · -- another room's payload moves neither what this room is sent nor its entry
      have hsent : sentTo room (fanoutPayload pending r (some payload)).1 = [] := by
        cases hp : pending.lookup r with
        | none => simp [fanoutPayload, hp]
        | some p =>
          have hnone := sentTo_flush_ne hr p
          simp only [fanoutPayload, hp]
          split_ifs
          · exact hnone
          · rfl
      rw [hsent, if_neg hr, List.append_nil, List.append_nil]
      apply h.of_lookup_eq
      simp only [fanoutPayload]
      split <;> exact AList.lookup_insert_ne (Ne.symm hr)

/-- The step lemma of the loop over a batch. -/
theorem pendingKept_item {room : RoomId} {I O : List ViewerMsg} {pending : PendingRooms}
    (h : PendingKept room I O pending) (item : FanoutItem) :
    PendingKept room (I ++ uncoalesced room [item])
      (O ++ sentTo room (fanoutItem pending item).1) (fanoutItem pending item).2 := by
  have hsize := pendingKept_size (r := item.room) h item.size
  have hpay := pendingKept_payload (r := item.room) hsize item.payload
  have hmsgs : uncoalesced room [item] =
      (if item.room = room then
        (item.size.map fun s => Frame.control (sizeControl s)).toList else []) ++
      if item.room = room then (item.payload.map Frame.bytes).toList else [] := by
    by_cases hr : item.room = room <;> simp [uncoalesced, FanoutItem.messages, hr]
  simpa [fanoutItem, hmsgs, List.append_assoc] using hpay

theorem pendingKept_items {room : RoomId} {I O : List ViewerMsg} {pending : PendingRooms}
    (h : PendingKept room I O pending) (items : List FanoutItem) :
    PendingKept room (I ++ uncoalesced room items)
      (O ++ sentTo room (fanoutItems pending items).1) (fanoutItems pending items).2 := by
  induction items generalizing I O pending with
  | nil => simpa [fanoutItems, uncoalesced] using h
  | cons item items ih =>
    have hrest := ih (pendingKept_item h item)
    have hcons : uncoalesced room (item :: items) =
        uncoalesced room [item] ++ uncoalesced room items :=
      uncoalesced_append room [item] items
    simpa [fanoutItems, hcons, List.append_assoc] using hrest

theorem pendingKept_flush {room r : RoomId} {I O : List ViewerMsg} {pending : PendingRooms}
    {p : Pending} (h : PendingKept room I O pending) (hp : pending.lookup r = some p) :
    PendingKept room I (O ++ sentTo room (flush r p)) (pending.erase r) := by
  by_cases hr : r = room
  · subst hr
    apply pendingKept_of_coalesces _ (AList.lookup_erase r pending)
    have hflush := h.flushed
    rwa [hp] at hflush
  · rw [sentTo_flush_ne hr, List.append_nil]
    exact h.of_lookup_eq (AList.lookup_erase_ne (Ne.symm hr))

/-- The messages that carry a room's items: bytes and sizes. -/
def isIngest : ViewerMsg → Bool
  | .bytes _ => true
  | .control json => (json.get "size").isSome

section Messages
variable {P : ViewerMsg → Prop}

theorem forall_flush (hbytes : ∀ payload, P (.bytes payload)) {room : RoomId} {p : Pending}
    {e : Emission} (he : e ∈ flush room p) : P e.2 := by
  unfold flush at he
  split_ifs at he
  · cases he
  · obtain rfl := List.mem_singleton.mp he
    exact hbytes p.payload

theorem forall_fanoutSize (hbytes : ∀ payload, P (.bytes payload))
    (hsize : ∀ size, P (.control (sizeControl size))) {pending : PendingRooms} {room : RoomId}
    {size : Option Json} {e : Emission} (he : e ∈ (fanoutSize pending room size).1) : P e.2 := by
  cases size with
  | none => cases he
  | some size =>
    rcases List.mem_append.mp he with he | he
    · cases hp : pending.lookup room with
      | none => simp [hp] at he
      | some p =>
        rw [hp] at he
        exact forall_flush hbytes he
    · obtain rfl := List.mem_singleton.mp he
      exact hsize size

theorem forall_fanoutPayload (hbytes : ∀ payload, P (.bytes payload)) {pending : PendingRooms}
    {room : RoomId} {payload : Option Bytes} {e : Emission}
    (he : e ∈ (fanoutPayload pending room payload).1) : P e.2 := by
  cases payload with
  | none => cases he
  | some payload =>
    cases hp : pending.lookup room with
    | none => simp [fanoutPayload, hp] at he
    | some p =>
      simp only [fanoutPayload, hp] at he
      split_ifs at he
      · exact forall_flush hbytes he
      · cases he

/-- The fan-out sends bytes and sizes only. -/
theorem forall_fanoutItem (hbytes : ∀ payload, P (.bytes payload))
    (hsize : ∀ size, P (.control (sizeControl size))) {pending : PendingRooms}
    {item : FanoutItem} {e : Emission} (he : e ∈ (fanoutItem pending item).1) : P e.2 :=
  (List.mem_append.mp he).elim (forall_fanoutSize hbytes hsize) (forall_fanoutPayload hbytes)

end Messages

theorem isIngest_flush {room : RoomId} {p : Pending} {e : Emission} (he : e ∈ flush room p) :
    isIngest e.2 = true :=
  forall_flush (P := fun msg => isIngest msg = true) (fun _ => rfl) he

theorem isIngest_fanoutItem {pending : PendingRooms} {item : FanoutItem} {e : Emission}
    (he : e ∈ (fanoutItem pending item).1) : isIngest e.2 = true :=
  forall_fanoutItem (P := fun msg => isIngest msg = true) (fun _ => rfl) (fun _ => rfl) he

/-- Flushing the map in any order sends a room the one payload it has pending. -/
theorem sentTo_flush_order {room : RoomId} {pending : PendingRooms}
    {entries : List (Σ _ : RoomId, Pending)} (horder : entries.Perm pending.entries) :
    sentTo room (entries.flatMap fun e => flush e.1 e.2) =
      sentTo room ((pending.lookup room).elim [] (flush room)) := by
  -- the room's own entries, of which a map without duplicate keys has at most one
  have hall : sentTo room (entries.flatMap fun e => flush e.1 e.2) =
      (entries.lookupAll room).flatMap fun p => sentTo room (flush room p) := by
    clear horder
    induction entries with
    | nil => rfl
    | cons e entries ih =>
      obtain ⟨r, p⟩ := e
      rw [List.flatMap_cons, sentTo_append, ih]
      by_cases hr : r = room
      · subst hr
        simp [List.lookupAll_cons_eq]
      · rw [sentTo_flush_ne hr, List.lookupAll_cons_ne _ _ (Ne.symm hr), List.nil_append]
  have hnodup := pending.nodupKeys
  have hone : entries.lookupAll room = (pending.lookup room).toList := by
    rw [List.perm_lookupAll room ((List.perm_nodupKeys horder).mpr hnodup) horder,
      List.lookupAll_eq_dlookup room hnodup]
    rfl
  rw [hall, hone]
  cases pending.lookup room <;> simp

/-- However the queue is cut into batches, a room's viewers are sent its items,
merged. -/
theorem fanoutLoop_coalesces {order : ℕ → PendingRooms → List (Σ _ : RoomId, Pending)}
    (horder : ∀ i pending, (order i pending).Perm pending.entries)
    (batches : List (List FanoutItem)) (room : RoomId) :
    Coalesces (Fits fanoutMaxBatch) (uncoalesced room batches.flatten)
      (sentTo room (fanoutLoop order batches)) := by
  induction batches generalizing order with
  | nil => exact .nil
  | cons batch batches ih =>
    -- a batch starts with an empty map and flushes all of it
    have hempty : PendingKept room [] [] ∅ := pendingKept_of_coalesces .nil rfl
    have hbatch := (pendingKept_items hempty batch).flushed
    rw [← sentTo_flush_order (horder 0 _)] at hbatch
    rw [List.flatten_cons, uncoalesced_append, fanoutLoop, sentTo_append]
    apply Coalesces.append _ (ih fun i => horder (i + 1))
    simpa [fanoutBatch] using hbatch

end Shellshare
