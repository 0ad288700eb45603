import Shellshare.Broadcast
import Shellshare.TransitionReach

/-! Delivery never gets stuck: from every state, the tasks can bring all that is stored
in a room to a viewer of it that is connected and registered. -/
namespace Shellshare
open FrameCoalescing TransitionRuns

section Viewer
variable {v : Viewer}

/-- How far a viewer's task is from waiting for messages. -/
def ViewerPhase.distance : ViewerPhase → ℕ
  | .registered => 7
  | .catchingUp => 3
  | .counted => 1
  | .relaying => 2
  | _ => 0

/-- What a viewer's task has left to do, in steps of its own. -/
def Viewer.backlog (v : Viewer) : ℕ :=
  v.outbox.length + 5 * v.queue.length + v.phase.distance

theorem length_catchUpFrames (snapshot : Option RoomSnapshot) :
    (catchUpFrames snapshot).length ≤ 3 := by
  simp only [catchUpFrames, List.length_append, List.length_singleton]
  have hone : ∀ {α : Type} (x : Option α), x.toList.length ≤ 1 := by
    intro α x
    cases x <;> simp
  have hsize := hone ((snapshot.bind RoomSnapshot.size).map
    fun size => (.control (sizeControl size) : ViewerMsg))
  have hhistory := hone ((snapshot.bind RoomSnapshot.history).map (Frame.bytes : Bytes → ViewerMsg))
  omega

theorem Merging.length_flush (m : Merging) : m.flush.1.length ≤ 1 := by
  unfold Merging.flush
  split_ifs <;> simp

theorem Merging.length_relayItem (m : Merging) (msg : ViewerMsg) :
    (m.relayItem msg).1.length ≤ 2 := by
  cases msg with
  | bytes payload =>
    simp only [Merging.relayItem]
    split_ifs <;> simp
  | control json =>
    have hflush := m.length_flush
    simp only [Merging.relayItem, List.length_append, List.length_singleton]
    omega

theorem Viewer.live_of_backlog (hrunning : v.phase.over = false) (h : v.backlog = 0) :
    v.phase = .live ∧ v.queue = [] ∧ v.outbox = [] := by
  have houtbox : v.outbox.length = 0 := by unfold backlog at h; omega
  have hqueue : v.queue.length = 0 := by unfold backlog at h; omega
  have hphase : v.phase.distance = 0 := by unfold backlog at h; omega
  refine ⟨?_, List.length_eq_zero_iff.mp hqueue, List.length_eq_zero_iff.mp houtbox⟩
  cases hp : v.phase <;> simp_all [ViewerPhase.distance, ViewerPhase.over]

end Viewer

section Worker

/-- What a fan-out task has left to do, in steps of its own. -/
def Worker.work (w : Worker) : ℕ :=
  w.emits.length + 2 * w.pending.entries.length + 6 * w.batch.length + 7 * w.queue.length

theorem length_flush (room : RoomId) (p : Pending) : (flush room p).length ≤ 1 := by
  unfold flush
  split_ifs <;> simp

theorem length_erase (pending : PendingRooms) (room : RoomId) :
    (pending.erase room).entries.length ≤ pending.entries.length :=
  (List.kerase_sublist room pending.entries).length_le

theorem length_insert (pending : PendingRooms) (room : RoomId) (p : Pending) :
    (pending.insert room p).entries.length ≤ pending.entries.length + 1 := by
  rw [AList.entries_insert, List.length_cons]
  exact Nat.succ_le_succ (length_erase pending room)

/-- One item makes three messages at most, and starts the frame of one room at most. -/
theorem length_fanoutItem (pending : PendingRooms) (item : FanoutItem) :
    (fanoutItem pending item).1.length ≤ 3 ∧
      (fanoutItem pending item).2.entries.length ≤ pending.entries.length + 1 := by
  have hsize : (fanoutSize pending item.room item.size).1.length ≤ 2 ∧
      (fanoutSize pending item.room item.size).2.entries.length ≤ pending.entries.length := by
    cases item.size with
    | none => exact ⟨Nat.zero_le 2, le_refl _⟩
    | some size =>
      refine ⟨?_, length_erase pending item.room⟩
      simp only [fanoutSize, List.length_append, List.length_singleton]
      cases pending.lookup item.room with
      | none => exact Nat.le_succ 1
      | some p => exact Nat.succ_le_succ (length_flush item.room p)
  have hpayload : ∀ rooms : PendingRooms,
      (fanoutPayload rooms item.room item.payload).1.length ≤ 1 ∧
      (fanoutPayload rooms item.room item.payload).2.entries.length ≤ rooms.entries.length + 1 := by
    intro rooms
    cases item.payload with
    | none => exact ⟨Nat.zero_le 1, Nat.le_succ _⟩
    | some payload =>
      simp only [fanoutPayload]
      cases rooms.lookup item.room with
      | none => exact ⟨Nat.zero_le 1, length_insert rooms item.room _⟩
      | some p =>
        dsimp only
        refine ⟨?_, length_insert rooms item.room _⟩
        split_ifs
        · exact length_flush item.room p
        · exact Nat.zero_le 1
  have hrest := hpayload (fanoutSize pending item.room item.size).2
  simp only [fanoutItem, List.length_append]
  omega

theorem Worker.rests_of_work {w : Worker} (h : w.work = 0) :
    w.queue = [] ∧ w.batch = [] ∧ w.emits = [] ∧ w.pending = ∅ := by
  have hlengths : w.queue.length = 0 ∧ w.batch.length = 0 ∧ w.emits.length = 0 ∧
      w.pending.entries.length = 0 := by
    unfold work at h
    omega
  obtain ⟨hqueue, hbatch, hemits, hpending⟩ := hlengths
  exact ⟨List.length_eq_zero_iff.mp hqueue, List.length_eq_zero_iff.mp hbatch,
    List.length_eq_zero_iff.mp hemits, AList.ext (List.length_eq_zero_iff.mp hpending)⟩

end Worker

namespace Delivery

variable {room : RoomId} {k : ℕ} {d d' : Delivery} {v : Viewer}

/-- The steps that carry what is stored to the `k`-th viewer. -/
def Carries (k : ℕ) : DeliveryAction → Prop
  | .server (.publish _) | .worker _ _ => True
  | .viewer j a => j = k ∧ a ∈ [.snapshot, .transmit, .count, .notify, .wake, .drain, .settle]
  | _ => False

/-- The viewer is in the registry, and its task runs. -/
structure Connected (k : ℕ) (room : RoomId) (d : Delivery) (v : Viewer) : Prop where
  here : d.viewers[k]? = some v
  room : v.room = room
  isRegistered : v.isRegistered = true
  running : v.phase.over = false

/-- And it has sent all that was sent to it. -/
structure CaughtUp (k : ℕ) (room : RoomId) (d : Delivery) (v : Viewer) : Prop
    extends Connected k room d v where
  done : v.backlog = 0

/-- A step of the viewer's own that leaves the rest of the system alone. -/
theorem Connected.of_step (roomShard : RoomId → ℕ) (h : Connected k room d v) {a : ViewerAction}
    {v' : Viewer}
    (ha : a ∈ [ViewerAction.snapshot, .transmit, .count, .notify, .wake, .drain, .settle])
    (hstep : d.stepViewer k v a = some d') (hviewers : d'.viewers = d.viewers.set k v')
    (hroom : v'.room = v.room) (hregistered : v'.isRegistered = v.isRegistered)
    (hrunning : v'.phase.over = false) :
    LeadsTo (step roomShard) (Carries k) d d' ∧ Connected k room d' v' := by
  have hlt := (List.getElem?_eq_some_iff.mp h.here).1
  constructor
  · apply LeadsTo.single (a := .viewer k a) ⟨rfl, ha⟩
    rw [step, h.here]
    exact hstep
  · refine ⟨?_, hroom.trans h.room, hregistered.trans h.isRegistered, hrunning⟩
    rw [hviewers, List.getElem?_set_self hlt]

/-- As long as the viewer's task has something to do, it can do some of it. -/
theorem Connected.progress (roomShard : RoomId → ℕ) (h : Connected k room d v)
    (hbacklog : v.backlog ≠ 0) :
    ∃ d' v', LeadsTo (step roomShard) (Carries k) d d' ∧ Connected k room d' v' ∧
      v'.backlog < v.backlog ∧ d'.server = d.server ∧ d'.workers = d.workers := by
  cases houtbox : v.outbox with
  | cons frame rest =>
    have hstep : d.stepViewer k v .transmit = some (d.setViewer k
        { v with outbox := rest, received := v.received ++ [frame] }) := by
      simp [stepViewer, houtbox, h.running]
    obtain ⟨hleads, hconnected⟩ := h.of_step roomShard (by decide) hstep rfl rfl rfl h.running
    refine ⟨_, _, hleads, hconnected, ?_, rfl, rfl⟩
    simp only [Viewer.backlog, houtbox, List.length_cons]
    omega
  | nil =>
    cases hphase : v.phase with
    | registered =>
      have hstep : d.stepViewer k v .snapshot = some (d.setViewer k (v.takeSnapshot
          (d.server.rooms.snapshot d.server.now v.room) (d.server.appendedTo v.room))) := by
        simp [stepViewer, hphase]
      obtain ⟨hleads, hconnected⟩ := h.of_step roomShard (by decide) hstep rfl rfl rfl rfl
      refine ⟨_, _, hleads, hconnected, ?_, rfl, rfl⟩
      have hframes := length_catchUpFrames (d.server.rooms.snapshot d.server.now v.room)
      simp only [Viewer.backlog, Viewer.takeSnapshot, Viewer.load, houtbox, hphase,
        ViewerPhase.distance, List.nil_append, List.length_nil]
      omega
    | catchingUp =>
      have hstep : d.stepViewer k v .count = some (d.setViewer k
          (v.load [.control (usersCountControl (d.count v.room))] .counted)) := by
        simp [stepViewer, hphase, houtbox]
      obtain ⟨hleads, hconnected⟩ := h.of_step roomShard (by decide) hstep rfl rfl rfl rfl
      refine ⟨_, _, hleads, hconnected, ?_, rfl, rfl⟩
      simp only [Viewer.backlog, Viewer.load, houtbox, hphase, ViewerPhase.distance,
        List.nil_append, List.length_nil, List.length_singleton]
      omega
    | counted =>
      have hstep : d.stepViewer k v .notify = some
          ((d.setViewer k { v with phase := .live }).notifyCount v.room) := by
        simp [stepViewer, hphase, houtbox]
      obtain ⟨hleads, hconnected⟩ := h.of_step roomShard (by decide) hstep rfl rfl rfl rfl
      refine ⟨_, _, hleads, hconnected, ?_, rfl, rfl⟩
      simp only [Viewer.backlog, hphase, ViewerPhase.distance]
      omega
    | live =>
      cases hqueue : v.queue with
      | nil => simp [Viewer.backlog, houtbox, hqueue, hphase, ViewerPhase.distance] at hbacklog
      | cons msg rest =>
        have hstep : d.stepViewer k v .wake = some (d.setViewer k (v.relay msg rest)) := by
          simp [stepViewer, hphase, houtbox, hqueue]
        obtain ⟨hleads, hconnected⟩ := h.of_step roomShard (by decide) hstep rfl rfl rfl rfl
        refine ⟨_, _, hleads, hconnected, ?_, rfl, rfl⟩
        have hframes := v.merging.length_relayItem msg
        simp only [Viewer.backlog, Viewer.relay, houtbox, hqueue, hphase, ViewerPhase.distance,
          List.length_cons, List.length_nil]
        omega
    | relaying =>
      cases hqueue : v.queue with
      | nil =>
        have hstep : d.stepViewer k v .settle = some (d.setViewer k v.settle) := by
          simp [stepViewer, hphase, houtbox]
        obtain ⟨hleads, hconnected⟩ := h.of_step roomShard (by decide) hstep rfl rfl rfl rfl
        refine ⟨_, _, hleads, hconnected, ?_, rfl, rfl⟩
        have hframes := v.merging.length_flush
        simp only [Viewer.backlog, Viewer.settle, houtbox, hqueue, hphase, ViewerPhase.distance,
          List.length_nil]
        omega
      | cons msg rest =>
        have hstep : d.stepViewer k v .drain = some (d.setViewer k (v.relay msg rest)) := by
          simp [stepViewer, hphase, houtbox, hqueue]
        obtain ⟨hleads, hconnected⟩ := h.of_step roomShard (by decide) hstep rfl rfl rfl rfl
        refine ⟨_, _, hleads, hconnected, ?_, rfl, rfl⟩
        have hframes := v.merging.length_relayItem msg
        simp only [Viewer.backlog, Viewer.relay, houtbox, hqueue, hphase, ViewerPhase.distance,
          List.length_cons, List.length_nil]
        omega
    | closing => exact absurd h.running (by rw [hphase]; decide)
    | left => exact absurd h.running (by rw [hphase]; decide)
    | gone => exact absurd h.running (by rw [hphase]; decide)

/-- The viewer's task can send all that is in its queue. -/
theorem Connected.caughtUp (roomShard : RoomId → ℕ) (h : Connected k room d v) :
    ∃ d' v', LeadsTo (step roomShard) (Carries k) d d' ∧ CaughtUp k room d' v' ∧
      d'.server = d.server ∧ d'.workers = d.workers := by
  let P : Viewer → Delivery → Prop := fun u e =>
    Connected k room e u ∧ e.server = d.server ∧ e.workers = d.workers
  have hdescend : ∀ u e, P u e → u.backlog ≠ 0 →
      ∃ u' e', LeadsTo (step roomShard) (Carries k) e e' ∧ P u' e' ∧ u'.backlog < u.backlog := by
    rintro u e ⟨hu, hserver, hworkers⟩ hbacklog
    obtain ⟨e', u', hleads, hu', hless, hserver', hworkers'⟩ := hu.progress roomShard hbacklog
    exact ⟨u', e', hleads, ⟨hu', hserver'.trans hserver, hworkers'.trans hworkers⟩, hless⟩
  obtain ⟨v', d', hleads, ⟨hv', hserver, hworkers⟩, hzero⟩ := LeadsTo.descend hdescend ⟨h, rfl, rfl⟩
  exact ⟨d', v', hleads, ⟨hv', hzero⟩, hserver, hworkers⟩

/-- The items of the room that loops have still to publish. -/
def unpublished (room : RoomId) (conns : List Conn) : ℕ :=
  conns.countP fun c => c.phase.held.any fun stored => stored.item.room = room

/-- The server after loop `i` has published the item it held. -/
def publishItem (s : Server) (i : ℕ) (c : Conn) (stored : Stored) : Server :=
  { s with published := s.published ++ [Output.ingest stored] }.setConn i (c.to .acking)

/-- A loop that holds an item can publish it, which queues it on its room's shard. -/
theorem step_publish (roomShard : RoomId → ℕ) {i : ℕ} {c : Conn} {stored : Stored}
    (hc : d.server.conns[i]? = some c) (hp : c.phase = .publishing stored) :
    d.step roomShard (.server (.publish i)) =
      some ({ d with server := publishItem d.server i c stored }.dispatch roomShard
        (.ingest stored)) := by
  have hpub : c.publication = some (.ingest stored, .acking) := by simp [Conn.publication, hp]
  simp [step, Server.step, Server.outputs, publishItem, hc, hpub]

theorem exists_unpublished {conns : List Conn} (h : unpublished room conns ≠ 0) :
    ∃ (i : ℕ) (c : Conn) (stored : Stored), conns[i]? = some c ∧
      c.phase = .publishing stored ∧ stored.item.room = room := by
  obtain ⟨c, hmem, hheld⟩ := List.countP_pos_iff.mp (Nat.pos_of_ne_zero h)
  obtain ⟨i, hi⟩ := List.getElem?_of_mem hmem
  cases hphase : c.phase with
  | publishing stored =>
    refine ⟨i, c, stored, hi, hphase, ?_⟩
    simpa [hphase, Phase.held] using hheld
  | _ => simp [hphase, Phase.held] at hheld

theorem unpublished_publishItem {s : Server} {i : ℕ} {c : Conn} {stored : Stored}
    (hc : s.conns[i]? = some c) (hp : c.phase = .publishing stored)
    (hroom : stored.item.room = room) :
    unpublished room (publishItem s i c stored).conns < unpublished room s.conns := by
  obtain ⟨hlt, hget⟩ := List.getElem?_eq_some_iff.mp hc
  have hmem : c ∈ s.conns := List.mem_of_getElem? hc
  have hheld : (c.phase.held.any fun stored => stored.item.room = room) = true := by
    simp [hp, Phase.held, hroom]
  have hnone : ((c.to .acking).phase.held.any fun stored => stored.item.room = room) = false := rfl
  have hpos : 0 < unpublished room s.conns := List.countP_pos_iff.mpr ⟨c, hmem, hheld⟩
  change List.countP _ (s.conns.set i (c.to .acking)) < _
  rw [List.countP_set hlt, hget, if_pos hheld, hnone]
  exact Nat.sub_lt hpos Nat.one_pos

/-- What the loops have stored in the room they can publish. -/
theorem CaughtUp.publish (roomShard : RoomId → ℕ) (h : CaughtUp k room d v) :
    ∃ d', LeadsTo (step roomShard) (Carries k) d d' ∧ CaughtUp k room d' v ∧
      (∀ stored ∈ d'.server.held, stored.item.room ≠ room) ∧
      d'.server.appended = d.server.appended := by
  let P : Unit → Delivery → Prop := fun _ e =>
    e.viewers = d.viewers ∧ e.server.appended = d.server.appended
  have hdescend : ∀ u e, P u e → unpublished room e.server.conns ≠ 0 →
      ∃ u' e', LeadsTo (step roomShard) (Carries k) e e' ∧ P u' e' ∧
        unpublished room e'.server.conns < unpublished room e.server.conns := by
    rintro u e ⟨hviewers, happended⟩ hleft
    obtain ⟨i, c, stored, hc, hp, hroom⟩ := exists_unpublished hleft
    refine ⟨u, _, LeadsTo.single (a := .server (.publish i)) trivial (step_publish roomShard hc hp),
      ⟨hviewers, happended⟩, unpublished_publishItem hc hp hroom⟩
  obtain ⟨_, d', hleads, ⟨hviewers, happended⟩, hzero⟩ :=
    LeadsTo.descend hdescend (i := ()) ⟨rfl, rfl⟩
  refine ⟨d', hleads, ⟨⟨?_, h.room, h.isRegistered, h.running⟩, h.done⟩, ?_, happended⟩
  · rw [hviewers]
    exact h.here
  · intro stored hmem hroom
    obtain ⟨c, hc, hheld⟩ := List.mem_filterMap.mp hmem
    apply List.countP_eq_zero.mp hzero c hc
    rw [hheld]
    exact decide_eq_true hroom

/-- A fan-out task with no message to send has something else to do, unless it is done. -/
theorem stepWorker_quiet {n : ℕ} (hemits : (d.workers n).emits = [])
    (hwork : (d.workers n).work ≠ 0) :
    ∃ a w, d.stepWorker n a = some (d.setWorker n w) ∧ w.work < (d.workers n).work := by
  cases hbatch : (d.workers n).batch with
  | cons item rest =>
    refine ⟨.handle, (d.workers n).handle item rest, by simp [stepWorker, hemits, hbatch], ?_⟩
    have hitem := length_fanoutItem (d.workers n).pending item
    simp only [Worker.work, Worker.handle, hemits, hbatch, List.length_cons, List.length_nil]
    omega
  | nil =>
    cases hentries : (d.workers n).pending.entries with
    | cons entry rest =>
      have hlookup : (d.workers n).pending.lookup entry.1 = some entry.2 := by
        rw [AList.lookup, hentries]
        exact List.dlookup_cons_eq rest entry.1 entry.2
      have herase : ((d.workers n).pending.erase entry.1).entries = rest := by
        change List.kerase entry.1 (d.workers n).pending.entries = rest
        rw [hentries]
        exact List.kerase_cons_eq rfl
      refine ⟨.flush entry.1, (d.workers n).flushRoom entry.1 entry.2,
        by simp [stepWorker, hemits, hbatch, hlookup], ?_⟩
      have hflush := length_flush entry.1 entry.2
      simp only [Worker.work, Worker.flushRoom, herase, hemits, hbatch, hentries, List.length_cons,
        List.length_nil]
      omega
    | nil =>
      have hqueue : (d.workers n).queue.length ≠ 0 := by
        simpa [Worker.work, hemits, hbatch, hentries] using hwork
      have hidle : (d.workers n).idle = true := by simp [Worker.idle, hemits, hbatch, hentries]
      have hless : (d.workers n).queue.length - 1 < (d.workers n).queue.length := by omega
      refine ⟨.drain ((d.workers n).queue.length - 1),
        (d.workers n).drain ((d.workers n).queue.length - 1), if_pos ⟨hidle, hless⟩, ?_⟩
      simp only [Worker.work, Worker.drain, hemits, hbatch, hentries, List.length_take,
        List.length_drop, List.length_nil]
      omega

/-- A caught-up viewer has room in its queue for a message. -/
theorem CaughtUp.send (h : CaughtUp k room d v) (r : RoomId) (msg : ViewerMsg) :
    ∃ u, Connected k room (d.send r msg) u := by
  obtain ⟨-, hqueue, -⟩ := Viewer.live_of_backlog h.running h.done
  have hspace : v.queue.length < viewerQueue := by rw [hqueue]; decide
  refine ⟨if v.room = r then v.send msg else v, ?_, ?_, ?_, ?_⟩
  · change (d.viewers.map _)[k]? = _
    rw [List.getElem?_map, h.here]
    rfl
  all_goals split_ifs
  · exact (Viewer.send_room v msg).trans h.room
  · exact h.room
  · simp [Viewer.send, h.isRegistered, hspace]
  · exact h.isRegistered
  · simp [Viewer.send, h.isRegistered, hspace, h.running]
  · exact h.running

theorem CaughtUp.emit (roomShard : RoomId → ℕ) (h : CaughtUp k room d v) {n : ℕ} {e : Emission}
    {rest : List Emission} (hemits : (d.workers n).emits = e :: rest) :
    ∃ d' v', LeadsTo (step roomShard) (Carries k) d d' ∧ CaughtUp k room d' v' ∧
      (d'.workers n).work < (d.workers n).work ∧ d'.server = d.server := by
  let quiet := d.setWorker n ((d.workers n).emit e rest)
  have hstep : d.step roomShard (.worker n .emit) = some (quiet.send e.1 e.2) := by
    simp [step, stepWorker, hemits, quiet]
  have hquiet : CaughtUp k room quiet v := ⟨⟨h.here, h.room, h.isRegistered, h.running⟩, h.done⟩
  obtain ⟨u, hsent⟩ := hquiet.send e.1 e.2
  obtain ⟨d', v', hleads, hcaught, hserver, hworkers⟩ := hsent.caughtUp roomShard
  refine ⟨d', v', (LeadsTo.single (a := .worker n .emit) trivial hstep).trans hleads, hcaught, ?_,
    hserver⟩
  have hworker : quiet.workers n = (d.workers n).emit e rest := by simp [quiet, setWorker]
  rw [hworkers]
  change (quiet.workers n).work < _
  rw [hworker]
  simp only [Worker.work, Worker.emit, hemits, List.length_cons]
  omega

/-- A fan-out task can send all it was handed. -/
theorem CaughtUp.fanOut (roomShard : RoomId → ℕ) (n : ℕ) (h : CaughtUp k room d v) :
    ∃ d' v', LeadsTo (step roomShard) (Carries k) d d' ∧ CaughtUp k room d' v' ∧
      (d'.workers n).work = 0 ∧ d'.server = d.server := by
  let P : Viewer → Delivery → Prop := fun u e => CaughtUp k room e u ∧ e.server = d.server
  have hdescend : ∀ u e, P u e → (e.workers n).work ≠ 0 →
      ∃ u' e', LeadsTo (step roomShard) (Carries k) e e' ∧ P u' e' ∧
        (e'.workers n).work < (e.workers n).work := by
    rintro u e ⟨hu, hserver⟩ hwork
    cases hemits : (e.workers n).emits with
    | nil =>
      obtain ⟨a, w, hstep, hless⟩ := stepWorker_quiet hemits hwork
      refine ⟨u, _, LeadsTo.single (a := .worker n a) trivial hstep, ⟨?_, hserver⟩, ?_⟩
      · exact ⟨⟨hu.here, hu.room, hu.isRegistered, hu.running⟩, hu.done⟩
      · simpa [setWorker] using hless
    | cons m rest =>
      obtain ⟨e', u', hleads, hu', hless, hserver'⟩ := hu.emit roomShard hemits
      exact ⟨u', e', hleads, ⟨hu', hserver'.trans hserver⟩, hless⟩
  obtain ⟨v', d', hleads, ⟨hv', hserver⟩, hzero⟩ := LeadsTo.descend hdescend ⟨h, rfl⟩
  exact ⟨d', v', hleads, hv', hzero, hserver⟩

/-- From every state all that is stored in the room can be brought to the viewer. -/
theorem Connected.drained (roomShard : RoomId → ℕ) (h : Connected k room d v) :
    ∃ d' v', LeadsTo (step roomShard) (Carries k) d d' ∧ Connected k room d' v' ∧
      Drained roomShard d' v' ∧ d'.server.appended = d.server.appended := by
  obtain ⟨d₁, v₁, hcatch, h₁, hserver₁, -⟩ := h.caughtUp roomShard
  obtain ⟨d₂, hpublish, h₂, hheld, happended⟩ := h₁.publish roomShard
  obtain ⟨d₃, v₃, hfan, h₃, hwork, hserver₃⟩ := h₂.fanOut roomShard (roomShard room)
  refine ⟨d₃, v₃, (hcatch.trans hpublish).trans hfan, h₃.toConnected, ?_, ?_⟩
  · obtain ⟨hlive, hqueue, houtbox⟩ := Viewer.live_of_backlog h₃.running h₃.done
    obtain ⟨hitems, hbatch, hemits, hpending⟩ := Worker.rests_of_work hwork
    rw [← h₃.room] at hheld hitems hbatch hemits hpending
    refine ⟨?_, hitems, hbatch, hemits, hpending, h₃.isRegistered, hlive, hqueue, houtbox⟩
    rw [hserver₃]
    exact hheld
  · rw [hserver₃, happended, hserver₁]

end Delivery

end Shellshare
