import Shellshare.DeliverySteps

/-! A viewer that joins a room while its broadcaster is sending: what it has
received is the start of a stream in which nothing is missing. -/
namespace Shellshare
open FrameCoalescing TransitionRuns

/-- The sizes a message tells a viewer. -/
def sizesTold : ViewerMsg → List Json
  | .bytes _ => []
  | .control json => (json.get "size").toList

def lastSizeTold (msgs : List ViewerMsg) : Option Json := (msgs.flatMap sizesTold).getLast?

def payloadOf : ViewerMsg → Option Bytes
  | .bytes payload => some payload
  | .control _ => none

/-- All that was stored in the viewer's room was published and handled, and all
that was sent to the viewer, which is still registered, is on its socket. -/
structure Drained (roomShard : RoomId → ℕ) (d : Delivery) (v : Viewer) : Prop where
  published : ∀ stored ∈ d.server.held, stored.item.room ≠ v.room
  queue : (d.workers (roomShard v.room)).queue = []
  batch : (d.workers (roomShard v.room)).batch = []
  emits : (d.workers (roomShard v.room)).emits = []
  pending : (d.workers (roomShard v.room)).pending = ∅
  isRegistered : v.isRegistered = true
  live : v.phase = .live
  received : v.queue = [] ∧ v.outbox = []

/-- A reading of messages that sees bytes and sizes only. -/
structure SeesItems {β : Type*} (g : ViewerMsg → List β) : Prop where
  additive : Additive g
  quiet : ∀ msg, isIngest msg = false → g msg = []

theorem seesItems_content : SeesItems (Frame.content : ViewerMsg → List UInt8) := by
  refine ⟨additive_content, fun msg hmsg => ?_⟩
  cases msg with
  | bytes payload => cases hmsg
  | control json => rfl

theorem seesItems_sizesTold : SeesItems sizesTold := by
  refine ⟨fun group => ?_, fun msg hmsg => ?_⟩
  · simp [sizesTold]
  · cases msg with
    | bytes payload => cases hmsg
    | control json =>
      simp only [isIngest, Option.isSome_eq_false_iff, Option.isNone_iff_eq_none] at hmsg
      rw [sizesTold, hmsg]
      rfl

section Reading
variable {β : Type*} {g : ViewerMsg → List β}

theorem SeesItems.flatMap_filter (hg : SeesItems g) (msgs : List ViewerMsg) :
    (msgs.filter isIngest).flatMap g = msgs.flatMap g := by
  induction msgs with
  | nil => rfl
  | cons msg msgs ih =>
    cases hmsg : isIngest msg with
    | true => simp [hmsg, ih]
    | false => simp [hmsg, ih, hg.quiet msg hmsg]

/-- What a viewer's socket, its task and its queue hold is the catch-up and then
all that was sent to its room. -/
theorem Viewer.Kept.flatMap_eq {v : Viewer} (h : v.Kept) (hg : SeesItems g) :
    (v.received ++ (v.outbox ++ v.merging.chunks.map Frame.bytes ++
      v.past.offered.drop v.past.consumed.length)).flatMap g =
      v.past.catchUp.flatMap g ++ v.past.offered.flatMap g := by
  obtain ⟨frames, hrel, hmerge⟩ := h.relayed
  obtain ⟨more, hmore⟩ := h.queue
  have hdrop : v.past.offered = v.past.consumed ++ v.past.offered.drop v.past.consumed.length := by
    rw [← hmore, List.append_assoc, List.drop_left]
  have hcons := hmerge.buffered.flatMap_eq hg.additive
  have hout : v.received.flatMap g ++ v.outbox.flatMap g =
      v.past.catchUp.flatMap g ++ frames.flatMap g := by
    rw [← List.flatMap_append, hrel, List.flatMap_append]
  calc _ = (v.received.flatMap g ++ v.outbox.flatMap g) ++
        ((v.merging.chunks.flatMap fun p => g (.bytes p)) ++
          (v.past.offered.drop v.past.consumed.length).flatMap g) := by
        simp only [List.flatMap_append, List.flatMap_map, List.append_assoc]
    _ = v.past.catchUp.flatMap g ++ ((v.past.consumed ++
          v.past.offered.drop v.past.consumed.length).flatMap g) := by
        rw [hout, List.flatMap_append, hcons]
        simp only [List.append_assoc]
    _ = _ := by rw [← hdrop]

/-- With what its room's task still has to send, that is all the task handled
since the viewer joined. -/
theorem PendingKept.flatMap_eq {room : RoomId} {later O emits : List ViewerMsg}
    {pending : PendingRooms} (h : PendingKept room later (O.filter isIngest ++ emits) pending)
    (hg : SeesItems g) : (O ++ (emits ++ ((pending.lookup room).elim [] Pending.chunks).map
      Frame.bytes)).flatMap g = later.flatMap g := by
  have hbuf := h.buffered.flatMap_eq hg.additive
  rw [hbuf]
  simp only [List.flatMap_append, List.flatMap_map, hg.flatMap_filter, List.append_assoc]

end Reading

theorem content_eq_flatten (msgs : List ViewerMsg) :
    msgs.flatMap Frame.content = (msgs.filterMap payloadOf).flatten := by
  induction msgs with
  | nil => rfl
  | cons msg msgs ih => cases msg <;> simp [List.filterMap_cons, Frame.content, payloadOf, ih]

theorem payloads_uncoalesced (room : RoomId) (items : List FanoutItem) :
    (uncoalesced room items).filterMap payloadOf =
      Server.payloads (items.filter fun item => item.room = room) := by
  rw [uncoalesced]
  generalize items.filter (fun item => item.room = room) = items
  induction items with
  | nil => rfl
  | cons item items ih =>
    have hitem : item.messages.filterMap payloadOf = item.payload.toList := by
      cases hs : item.size <;> cases hp : item.payload <;>
        simp [FanoutItem.messages, List.filterMap_cons, hs, hp, payloadOf]
    rw [List.flatMap_cons, List.filterMap_append, ih, hitem]
    cases hp : item.payload <;> simp [Server.payloads, hp]

theorem sizes_uncoalesced (room : RoomId) (items : List FanoutItem) :
    (uncoalesced room items).flatMap sizesTold =
      (items.filter fun item => item.room = room).filterMap FanoutItem.size := by
  rw [uncoalesced]
  generalize items.filter (fun item => item.room = room) = items
  induction items with
  | nil => rfl
  | cons item items ih =>
    have hitem : item.messages.flatMap sizesTold = item.size.toList := by
      cases hs : item.size <;> cases hp : item.payload <;>
        simp [FanoutItem.messages, hs, hp, sizesTold, sizeControl, Json.get]
    rw [List.flatMap_cons, List.flatMap_append, ih, hitem]
    cases hs : item.size <;> simp [hs]

theorem appendedTo_filter (s : Server) (room : RoomId) :
    (s.appendedTo room).filter (fun item => item.room = room) = s.appendedTo room := by
  simp [Server.appendedTo, List.filter_filter]

/-- The last size is told again by whoever told it before the cut, or is told
after it. -/
theorem getLast?_of_prefix {α : Type*} {before after mid all : List α}
    (hall : before ++ after = all) (hmid : before <+: mid) (hpre : mid <+: all) :
    (mid.getLast?.toList ++ after).getLast? = all.getLast? := by
  by_cases hafter : after = []
  -- nothing told after the cut, so the middle is all there is
  · subst hafter
    rw [List.append_nil] at hall ⊢
    subst hall
    have heq : before = mid := hmid.eq_of_length (le_antisymm hmid.length_le hpre.length_le)
    rw [heq]
    cases mid.getLast? <;> rfl
  · rw [← hall, List.getLast?_append_of_ne_nil _ hafter, List.getLast?_append_of_ne_nil _ hafter]

namespace Delivery

variable {roomShard : RoomId → ℕ} {room : RoomId} {d : Delivery} {v : Viewer}

theorem catchUpFrames_read (snapshot : Option RoomSnapshot) :
    (catchUpFrames snapshot).flatMap Frame.content =
        (snapshot.bind RoomSnapshot.history).getD [] ∧
      (catchUpFrames snapshot).flatMap sizesTold =
        (snapshot.bind RoomSnapshot.size).toList := by
  unfold catchUpFrames
  generalize snapshot.bind RoomSnapshot.size = size
  generalize snapshot.bind RoomSnapshot.history = history
  cases size <;> cases history <;>
    simp [Frame.content, sizesTold, sizeControl, ViewerControl.json, Json.get]

/-- The catch-up tells a viewer the size and the history of its snapshot. -/
theorem catchUp_read (h : v.Kept) (hp : v.phase ≠ .registered) :
    v.past.catchUp.flatMap Frame.content =
        (v.past.snapshot.bind RoomSnapshot.history).getD [] ∧
      v.past.catchUp.flatMap sizesTold =
        (v.past.snapshot.bind RoomSnapshot.size).toList := by
  obtain ⟨counts, hcounts, hcatch⟩ := h.caught hp
  have hquiet : ∀ f ∈ counts, isIngest f = false := by
    intro f hf
    obtain ⟨n, rfl⟩ := hcounts f hf
    rfl
  have hcontent : counts.flatMap Frame.content = [] :=
    List.flatMap_eq_nil_iff.mpr fun f hf => seesItems_content.quiet f (hquiet f hf)
  have hsizes : counts.flatMap sizesTold = [] :=
    List.flatMap_eq_nil_iff.mpr fun f hf => seesItems_sizesTold.quiet f (hquiet f hf)
  rw [hcatch, List.flatMap_append, List.flatMap_append, hcontent, hsizes, List.append_nil,
    List.append_nil]
  exact catchUpFrames_read v.past.snapshot

/-- What a viewer received is the start of the catch-up and of a tail of what
was stored in its room, and what is `rest` of it is on its way. -/
theorem received_append (h : RoomKept roomShard v.room d) (hv : v ∈ d.viewers)
    (hp : v.phase ≠ .registered) : ∃ rest earlier later,
      earlier ++ later = uncoalesced v.room (d.server.appendedTo v.room) ∧
      earlier <+: uncoalesced v.room v.past.appendedAt ∧
      (∀ {β : Type} {g : ViewerMsg → List β}, SeesItems g →
        (v.received ++ rest).flatMap g = v.past.catchUp.flatMap g ++ later.flatMap g) ∧
      (Drained roomShard d v → rest = []) := by
  have hkept := h.viewers v hv
  obtain ⟨earlier, later, hsplit, hpending, hbefore⟩ := h.follows v hv rfl
  obtain ⟨late, hlate⟩ := h.server.order
  have hqueued := uncoalesced_queued h
  rw [uncoalesced_append, hsplit, List.append_assoc] at hqueued
  let w := d.workers (roomShard v.room)
  let queued := uncoalesced v.room (w.batch ++ w.queue)
  let held := uncoalesced v.room (late.map Stored.item)
  -- on its way: the outbox, the frame being merged, the queue, the room's pending emits and
  -- payloads, the items not handled yet, and those stored but not published
  refine ⟨v.outbox ++ v.merging.chunks.map Frame.bytes ++
    v.past.offered.drop v.past.consumed.length ++ (sentTo v.room w.emits ++
      ((w.pending.lookup v.room).elim [] Pending.chunks).map Frame.bytes) ++ queued ++ held,
    earlier, later ++ queued ++ held, ?_, hbefore hp, ?_, ?_⟩
  · rw [Server.appendedTo_eq, ← hlate, List.map_append, uncoalesced_append, ← hqueued]
    simp only [List.append_assoc, queued, held, w]
  · intro β g hg
    have htask := hkept.flatMap_eq hg
    have hroom := hpending.flatMap_eq hg
    rw [List.flatMap_append] at htask hroom
    simp only [List.flatMap_append, List.append_assoc] at htask hroom ⊢
    rw [← hroom]
    have hassoc := congrArg (fun l => l ++ ((sentTo v.room w.emits).flatMap g ++
      (((w.pending.lookup v.room).elim [] Pending.chunks).map Frame.bytes).flatMap g ++
        (queued.flatMap g ++ held.flatMap g))) htask
    simpa only [List.append_assoc] using hassoc
  · intro hd
    have hconsumed : v.past.consumed = v.past.offered := by
      have hwhole := hkept.whole hd.isRegistered
      rwa [hd.received.1, List.append_nil] at hwhole
    have hlate : late = [] := by
      have hperm := Server.held_perm_of_kept h.server.accounted hlate
      have hnone : (d.server.held.filter fun x => x.item.room = v.room) = [] :=
        List.filter_eq_nil_iff.mpr fun x hx => by simpa using hd.published x hx
      rw [hnone] at hperm
      exact List.nil_perm.mp hperm
    simp [hconsumed, hlate, hd.received.2, hkept.live hd.live, Merging.new, queued, held, w,
      hd.queue, hd.batch, hd.emits, hd.pending, uncoalesced]

/-- In every state, what a viewer received after its snapshot is the start of
the room's history and then of the chunks stored from some point on that is not
after the snapshot, with the room's size; where all is drained, it is all of it. -/
theorem join_misses_nothing (roomShard : RoomId → ℕ) (ttl : ℕ) (as : List DeliveryAction)
    (d : Delivery) (v : Viewer)
    (hquiet : StepsSatisfy (step roomShard) (Undisturbed v.room) (init ttl) as)
    (hrun : run (step roomShard) (init ttl) as = some d) (hv : v ∈ d.viewers)
    (hp : v.phase ≠ .registered) :
    v.past.appendedAt <+: d.server.appendedTo v.room ∧
    ∃ rest i, i ≤ (Server.payloads v.past.appendedAt).length ∧
      (v.received ++ rest).flatMap Frame.content =
        (v.past.snapshot.bind RoomSnapshot.history).getD [] ++
          ((Server.payloads (d.server.appendedTo v.room)).drop i).flatten ∧
      lastSizeTold (v.received ++ rest) = (d.server.rooms v.room).bind Room.size ∧
      (Drained roomShard d v → rest = []) := by
  have h : RoomKept roomShard v.room d := run_preserves_of_steps
    (fun _ _ _ h hquiet hstep => roomKept_step h hquiet hstep)
    (roomKept_init roomShard v.room ttl) hquiet hrun
  have hkept := h.viewers v hv
  obtain ⟨happ, hsnap⟩ := h.snapshots v hv rfl hp
  obtain ⟨rest, earlier, later, hall, hbefore, hread, hdrained⟩ := received_append h hv hp
  obtain ⟨hhistory, hsize⟩ := catchUp_read hkept hp
  have hmine : v.past.appendedAt.filter (fun item => item.room = v.room) = v.past.appendedAt := by
    have hfilter := appendedTo_filter d.server v.room
    obtain ⟨more, hmore⟩ := happ
    rw [← hmore, List.filter_append] at hfilter
    exact List.append_inj_left hfilter (le_antisymm (List.length_filter_le _ _) (by
      have hlen := congrArg List.length hfilter
      have hle := List.length_filter_le (fun item : FanoutItem => item.room = v.room) more
      simp only [List.length_append] at hlen
      omega))
  refine ⟨happ, rest, (earlier.filterMap payloadOf).length, ?_, ?_, ?_, hdrained⟩
  -- the chunks sent before the viewer joined had been stored by its snapshot
  · obtain ⟨more, hmore⟩ := hbefore.filterMap payloadOf
    have hlen := congrArg List.length hmore
    rw [payloads_uncoalesced, hmine, List.length_append] at hlen
    omega
  · have hpayloads := congrArg (List.filterMap payloadOf) hall
    rw [List.filterMap_append, payloads_uncoalesced, appendedTo_filter] at hpayloads
    rw [hread seesItems_content, hhistory, content_eq_flatten later, ← hpayloads,
      List.drop_left]
  · have hsizes := congrArg (List.flatMap sizesTold) hall
    rw [List.flatMap_append, sizes_uncoalesced, appendedTo_filter] at hsizes
    have hmid : earlier.flatMap sizesTold <+: v.past.appendedAt.filterMap FanoutItem.size := by
      obtain ⟨more, hmore⟩ := hbefore
      have hsplit := congrArg (List.flatMap sizesTold) hmore
      rw [List.flatMap_append, sizes_uncoalesced, hmine] at hsplit
      exact ⟨_, hsplit⟩
    have hroom : (d.server.rooms v.room).bind Room.size =
        lastSize (d.server.appendedTo v.room) := by
      rw [← h.size]
      cases he : d.server.rooms v.room <;> simp [Rooms.content, he]
    rw [lastSizeTold, hread seesItems_sizesTold, hsize, hsnap, hroom]
    exact getLast?_of_prefix hsizes hmid (happ.filterMap _)

/-- A viewer that takes its snapshot between a size and a chunk, and is then
sent both of them. -/
def joining : List DeliveryAction :=
  [.server (.handshake ⟨"demo"⟩ "pw"), .server (.attach 0), .server (.publish 0),
    .server (.receive 0 (Server.sizeFrame 80)), .server (.publish 0), .server (.ack 0 true),
    .join ⟨"demo"⟩, .viewer 0 .snapshot, .server (.receive 0 (.binary [7])), .server (.publish 0),
    .worker 0 (.drain 1), .worker 0 .handle, .worker 0 .emit, .worker 0 .handle,
    .worker 0 (.flush ⟨"demo"⟩), .worker 0 .emit, .viewer 0 .transmit, .viewer 0 .transmit,
    .viewer 0 .count, .viewer 0 .transmit, .viewer 0 .notify, .viewer 0 .wake, .viewer 0 .transmit,
    .viewer 0 .drain, .viewer 0 .settle, .viewer 0 .transmit]

theorem join_misses_nothing_joining :
    ∃ d v i, run (step fun _ => 0) (init 1000) joining = some d ∧ d.viewers = [v] ∧
      v.received.flatMap Frame.content = [7] ∧ i ≤ 0 ∧
      v.received.flatMap Frame.content = (v.past.snapshot.bind RoomSnapshot.history).getD [] ++
        ((Server.payloads (d.server.appendedTo v.room)).drop i).flatten ∧
      lastSizeTold v.received = (d.server.rooms v.room).bind Room.size := by
  obtain ⟨d, v, hrun, hviewers, hroom, hphase, hcount, hcontent, hdrained⟩ : ∃ d v,
      run (step fun _ => 0) (init 1000) joining = some d ∧ d.viewers = [v] ∧
      v.room = ⟨"demo"⟩ ∧ v.phase ≠ .registered ∧ (Server.payloads v.past.appendedAt).length = 0 ∧
      v.received.flatMap Frame.content = [7] ∧ Drained (fun _ => 0) d v :=
    ⟨_, _, rfl, rfl, rfl, nofun, rfl, rfl,
      ⟨fun stored hs => (by cases hs), rfl, rfl, rfl, rfl, rfl, rfl, rfl, rfl⟩⟩
  have hquiet : StepsSatisfy (step fun _ => 0) (Undisturbed v.room) (init 1000) joining := by
    rw [hroom]
    decide
  obtain ⟨-, rest, i, hi, hbytes, hsize, hrest⟩ := join_misses_nothing (fun _ => 0) 1000 joining d v
    hquiet hrun (by rw [hviewers]; exact List.mem_singleton_self v) hphase
  rw [hrest hdrained, List.append_nil] at hbytes hsize
  exact ⟨d, v, i, hrun, hviewers, hcontent, hcount ▸ hi, hbytes, hsize⟩

end Delivery

end Shellshare
