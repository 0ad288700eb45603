import Shellshare.ViewerFollows

/-! What every step of viewer delivery keeps for a room with one ingest
connection and its viewers. -/
namespace Shellshare
open FrameCoalescing TransitionRuns

/-- What holds of a room with one ingest connection that is not removed: its
fan-out task works off its queue in the order of stores, and each viewer follows. -/
structure RoomKept (roomShard : RoomId → ℕ) (room : RoomId) (d : Delivery) : Prop where
  server : Server.InOrder room d.server
  size : (d.server.rooms.content room).bind Content.size = lastSize (d.server.appendedTo room)
  workers : ∀ n, (d.workers n).Kept room
    ((d.server.queued.map Stored.item).filter fun item => roomShard item.room = n)
  viewers : ∀ v ∈ d.viewers, v.Kept
  follows : ∀ v ∈ d.viewers, v.room = room → Follows (d.workers (roomShard room)) v
  snapshots : ∀ v ∈ d.viewers, v.room = room → v.phase ≠ .registered →
    v.past.appendedAt <+: d.server.appendedTo room ∧
      v.past.snapshot.bind RoomSnapshot.size = lastSize v.past.appendedAt

/-- The room has at most one ingest connection, and the step does not remove it. -/
def undisturbed (room : RoomId) (d : Delivery) : DeliveryAction → Bool
  | .server a =>
    d.server.conns.countP (fun c => c.room = room) ≤ 1 && d.server.removes a != some room
  | _ => true

abbrev Undisturbed (room : RoomId) (d : Delivery) (a : DeliveryAction) : Prop :=
  undisturbed room d a = true

namespace Delivery

variable {roomShard : RoomId → ℕ} {room : RoomId} {d d' : Delivery}

/-- The enabled steps of a viewer's task, one constructor per action. -/
inductive ViewerStep (d : Delivery) (k : ℕ) (v : Viewer) : ViewerAction → Delivery → Prop where
  | snapshot (hp : v.phase = .registered) :
    ViewerStep d k v .snapshot (d.setViewer k
      (v.takeSnapshot (d.server.rooms.snapshot d.server.now v.room) (d.server.appendedTo v.room)))
  | transmit (frame : ViewerMsg) (rest : List ViewerMsg) (ho : v.outbox = frame :: rest)
    (hover : ¬ v.phase.over = true) :
    ViewerStep d k v .transmit
      (d.setViewer k { v with outbox := rest, received := v.received ++ [frame] })
  | fail (ho : v.outbox ≠ []) (hover : ¬ v.phase.over = true) :
    ViewerStep d k v (.fail false) (d.setViewer k { v with phase := .closing })
  | failLate (frame : ViewerMsg) (rest : List ViewerMsg) (ho : v.outbox = frame :: rest)
    (hover : ¬ v.phase.over = true) :
    ViewerStep d k v (.fail true) (d.setViewer k
      { v with phase := .closing, outbox := rest, received := v.received ++ [frame] })
  | count (hp : v.phase = .catchingUp) (ho : v.outbox = []) :
    ViewerStep d k v .count
      (d.setViewer k (v.load [.control (usersCountControl (d.count v.room))] .counted))
  | notify (hp : v.phase = .counted) (ho : v.outbox = []) :
    ViewerStep d k v .notify ((d.setViewer k { v with phase := .live }).notifyCount v.room)
  | wake (msg : ViewerMsg) (rest : List ViewerMsg) (hp : v.phase = .live) (ho : v.outbox = [])
    (hq : v.queue = msg :: rest) :
    ViewerStep d k v .wake (d.setViewer k (v.relay msg rest))
  | drain (msg : ViewerMsg) (rest : List ViewerMsg) (hp : v.phase = .relaying)
    (ho : v.outbox = []) (hq : v.queue = msg :: rest) :
    ViewerStep d k v .drain (d.setViewer k (v.relay msg rest))
  | settle (hp : v.phase = .relaying) (ho : v.outbox = []) :
    ViewerStep d k v .settle (d.setViewer k v.settle)
  | hangUp (hp : v.phase = .live) (ho : v.outbox = []) :
    ViewerStep d k v .hangUp (d.setViewer k { v with phase := .closing })
  | leave (hp : v.phase = .closing) :
    ViewerStep d k v .leave (d.setViewer k { v with phase := .left, isRegistered := false })
  | notifyLeft (hp : v.phase = .left) :
    ViewerStep d k v .notifyLeft ((d.setViewer k { v with phase := .gone }).notifyCount v.room)

theorem stepViewer_cases {k : ℕ} {v : Viewer} {a : ViewerAction}
    (h : d.stepViewer k v a = some d') : ViewerStep d k v a d' := by
  cases a with
  | snapshot =>
    simp only [stepViewer] at h
    split_ifs at h with hp
    obtain rfl := Option.some.inj h
    exact .snapshot hp
  | transmit =>
    simp only [stepViewer] at h
    split at h
    · rename_i frame rest ho
      split_ifs at h with hover
      obtain rfl := Option.some.inj h
      exact .transmit frame rest ho hover
    · cases h
  | fail delivered =>
    simp only [stepViewer] at h
    split at h
    · rename_i frame rest ho
      split_ifs at h with hover hdelivered
      · subst hdelivered
        obtain rfl := Option.some.inj h
        exact .failLate frame rest ho hover
      · obtain rfl := Option.some.inj h
        obtain rfl : delivered = false := by simpa using hdelivered
        exact .fail (by rw [ho]; nofun) hover
    · cases h
  | count =>
    simp only [stepViewer] at h
    split_ifs at h with hp
    obtain rfl := Option.some.inj h
    exact .count hp.1 hp.2
  | notify =>
    simp only [stepViewer] at h
    split_ifs at h with hp
    obtain rfl := Option.some.inj h
    exact .notify hp.1 hp.2
  | wake =>
    simp only [stepViewer] at h
    split at h
    · rename_i msg rest hp ho hq
      obtain rfl := Option.some.inj h
      exact .wake msg rest hp ho hq
    · cases h
  | drain =>
    simp only [stepViewer] at h
    split at h
    · rename_i msg rest hp ho hq
      obtain rfl := Option.some.inj h
      exact .drain msg rest hp ho hq
    · cases h
  | settle =>
    simp only [stepViewer] at h
    split_ifs at h with hp
    obtain rfl := Option.some.inj h
    exact .settle hp.1 hp.2
  | hangUp =>
    simp only [stepViewer] at h
    split_ifs at h with hp
    obtain rfl := Option.some.inj h
    exact .hangUp hp.1 hp.2
  | leave =>
    simp only [stepViewer] at h
    split_ifs at h with hp
    obtain rfl := Option.some.inj h
    exact .leave hp
  | notifyLeft =>
    simp only [stepViewer] at h
    split_ifs at h with hp
    obtain rfl := Option.some.inj h
    exact .notifyLeft hp

theorem stepViewer_moves {k : ℕ} {v : Viewer} {a : ViewerAction}
    (h : d.stepViewer k v a = some d') : ∃ v',
      Viewer.Moves (d.server.rooms.snapshot d.server.now v.room) (d.server.appendedTo v.room) v v' ∧
      d'.viewers = d.viewers.set k v' ∧ d'.server = d.server ∧ d'.workers = d.workers := by
  cases stepViewer_cases h with
  | snapshot hp => exact ⟨_, .snapshot hp, rfl, rfl, rfl⟩
  | transmit frame rest ho hover => exact ⟨_, .transmit frame rest ho, rfl, rfl, rfl⟩
  | fail ho hover => exact ⟨_, .fail ho, rfl, rfl, rfl⟩
  | failLate frame rest ho hover => exact ⟨_, .failLate frame rest ho, rfl, rfl, rfl⟩
  | count hp ho => exact ⟨_, .count _ hp, rfl, rfl, rfl⟩
  | notify hp ho => exact ⟨_, .notify hp ho, rfl, rfl, rfl⟩
  | wake msg rest hp ho hq => exact ⟨_, .relay msg rest (Or.inl hp) ho hq, rfl, rfl, rfl⟩
  | drain msg rest hp ho hq => exact ⟨_, .relay msg rest (Or.inr hp) ho hq, rfl, rfl, rfl⟩
  | settle hp ho => exact ⟨_, .settle hp ho, rfl, rfl, rfl⟩
  | hangUp hp ho => exact ⟨_, .hangUp hp, rfl, rfl, rfl⟩
  | leave hp => exact ⟨_, .leave hp, rfl, rfl, rfl⟩
  | notifyLeft hp => exact ⟨_, .notifyLeft hp, rfl, rfl, rfl⟩

inductive WorkerStep (d : Delivery) (n : ℕ) : WorkerAction → Delivery → Prop where
  | drain (more : ℕ) (hidle : (d.workers n).idle = true)
    (hmore : more < (d.workers n).queue.length) :
    WorkerStep d n (.drain more) (d.setWorker n ((d.workers n).drain more))
  | handle (item : FanoutItem) (rest : List FanoutItem) (hemits : (d.workers n).emits = [])
    (hbatch : (d.workers n).batch = item :: rest) :
    WorkerStep d n .handle (d.setWorker n ((d.workers n).handle item rest))
  | emit (e : Emission) (rest : List Emission) (hemits : (d.workers n).emits = e :: rest) :
    WorkerStep d n .emit ((d.setWorker n ((d.workers n).emit e rest)).send e.1 e.2)
  | flush (room : RoomId) (p : Pending) (hemits : (d.workers n).emits = [])
    (hbatch : (d.workers n).batch = []) (hp : (d.workers n).pending.lookup room = some p) :
    WorkerStep d n (.flush room) (d.setWorker n ((d.workers n).flushRoom room p))

theorem stepWorker_cases {n : ℕ} {a : WorkerAction} (h : d.stepWorker n a = some d') :
    WorkerStep d n a d' := by
  cases a with
  | drain more =>
    simp only [stepWorker] at h
    split_ifs at h with hdrain
    obtain rfl := Option.some.inj h
    exact .drain more hdrain.1 hdrain.2
  | handle =>
    simp only [stepWorker] at h
    split at h
    · rename_i item rest hemits hbatch
      obtain rfl := Option.some.inj h
      exact .handle item rest hemits hbatch
    · cases h
  | emit =>
    simp only [stepWorker] at h
    split at h
    · rename_i e rest hemits
      obtain rfl := Option.some.inj h
      exact .emit e rest hemits
    · cases h
  | flush room =>
    simp only [stepWorker] at h
    split at h
    · rename_i p hemits hbatch hp
      obtain rfl := Option.some.inj h
      exact .flush room p hemits hbatch hp
    · cases h

inductive CountStep (d : Delivery) : CountAction → Delivery → Prop where
  | drain (more : ℕ) (hrooms : d.counts.rooms = []) (hreading : d.counts.reading = none)
    (hmore : more < d.counts.queue.length) :
    CountStep d (.drain more) { d with counts :=
      ⟨d.counts.queue.drop (more + 1), (d.counts.queue.take (more + 1)).dedup, none⟩ }
  | read (room : RoomId) (hroom : room ∈ d.counts.rooms) (hreading : d.counts.reading = none) :
    CountStep d (.read room) { d with counts :=
      { d.counts with rooms := d.counts.rooms.erase room, reading := some (room, d.count room) } }
  | announce (room : RoomId) (n : ℕ) (hreading : d.counts.reading = some (room, n)) :
    CountStep d .announce (({ d with counts := { d.counts with reading := none } } : Delivery).send
      room (.control (usersCountControl n)))

theorem stepCounts_cases {a : CountAction} (h : d.stepCounts a = some d') : CountStep d a d' := by
  cases a with
  | drain more =>
    simp only [stepCounts] at h
    split_ifs at h with hidle
    obtain rfl := Option.some.inj h
    exact .drain more hidle.1 hidle.2.1 hidle.2.2
  | read room =>
    simp only [stepCounts] at h
    split_ifs at h with hread
    obtain rfl := Option.some.inj h
    exact .read room hread.1 hread.2
  | announce =>
    obtain ⟨⟨room, n⟩, hreading, rfl⟩ := Option.map_eq_some_iff.mp h
    exact .announce room n hreading

theorem mem_send {r : RoomId} {msg : ViewerMsg} {v' : Viewer}
    (hv : v' ∈ (d.send r msg).viewers) :
    ∃ v ∈ d.viewers, v' = if v.room = r then v.send msg else v := by
  obtain ⟨v, hmem, hv⟩ := List.mem_map.mp hv
  exact ⟨v, hmem, hv.symm⟩

/-- A message leaves the snapshots of its viewers as they are. -/
theorem snapshots_of_mem_send (h : RoomKept roomShard room d) {r : RoomId}
    {msg : ViewerMsg} {v' : Viewer} (hv : v' ∈ (d.send r msg).viewers) (hroom : v'.room = room)
    (hphase : v'.phase ≠ .registered) :
    v'.past.appendedAt <+: d.server.appendedTo room ∧
      v'.past.snapshot.bind RoomSnapshot.size = lastSize v'.past.appendedAt := by
  obtain ⟨v, hmem, rfl⟩ := mem_send hv
  split_ifs at hroom hphase ⊢
  · rw [Viewer.send_room] at hroom
    rw [Viewer.send_phase] at hphase
    rw [Viewer.send_past]
    exact h.snapshots v hmem hroom hphase
  · exact h.snapshots v hmem hroom hphase

/-- A control that carries no item of a room leaves all as it is. -/
theorem roomKept_send (h : RoomKept roomShard room d) (r : RoomId) {msg : ViewerMsg}
    (hmsg : isIngest msg = false) : RoomKept roomShard room (d.send r msg) := by
  refine ⟨h.server, h.size, h.workers, fun v' hv => ?_, fun v' hv hroom => ?_,
    fun v' hv hroom hphase => snapshots_of_mem_send h hv hroom hphase⟩ <;>
      obtain ⟨v, hmem, rfl⟩ := mem_send hv
  · split_ifs
    · exact (h.viewers v hmem).send msg
    · exact h.viewers v hmem
  · split_ifs at hroom ⊢
    · exact (h.follows v hmem (by simpa using hroom)).send_control hmsg
    · exact h.follows v hmem hroom

theorem roomKept_setWorker (h : RoomKept roomShard room d) {n : ℕ} {w : Worker}
    (hw : w.Kept room
      ((d.server.queued.map Stored.item).filter fun item => roomShard item.room = n))
    (hfollows : ∀ v, Follows (d.workers n) v → Follows w v) :
    RoomKept roomShard room (d.setWorker n w) := by
  refine ⟨h.server, h.size, fun m => ?_, h.viewers, fun v hv hroom => ?_, h.snapshots⟩
  · by_cases hm : m = n
    · subst hm
      simpa [setWorker] using hw
    · simpa [setWorker, hm] using h.workers m
  · have hfollow := h.follows v hv hroom
    by_cases hm : roomShard room = n
    · subst hm
      simpa [setWorker] using hfollows v hfollow
    · simpa [setWorker, hm] using hfollow

/-- Only the task of the room's shard sends it bytes and sizes. -/
theorem shard_of_emit (h : RoomKept roomShard room d) {n : ℕ} {e : Emission}
    {rest : List Emission} (hemits : (d.workers n).emits = e :: rest) (he : e.1 = room) :
    n = roomShard room := by
  by_contra hne
  -- no other shard's queue has an item of the room
  have hnone : uncoalesced room
      ((d.server.queued.map Stored.item).filter fun item => roomShard item.room = n) = [] := by
    have hfilter : ((d.server.queued.map Stored.item).filter
        fun item => roomShard item.room = n).filter (fun item => item.room = room) = [] := by
      apply List.filter_eq_nil_iff.mpr
      intro item hitem
      have hshard := (List.mem_filter.mp hitem).2
      simp only [decide_eq_true_eq] at hshard ⊢
      rintro rfl
      exact hne hshard.symm
    rw [uncoalesced, hfilter]
    rfl
  have hsent := (h.workers n).sentTo_eq_nil hnone
  rw [hemits, sentTo_cons, sentTo_singleton, if_pos he] at hsent
  cases hsent

theorem roomKept_emit (h : RoomKept roomShard room d) {n : ℕ} {e : Emission}
    {rest : List Emission} (hemits : (d.workers n).emits = e :: rest) :
    RoomKept roomShard room ((d.setWorker n ((d.workers n).emit e rest)).send e.1 e.2) := by
  have hingest : isIngest e.2 = true := (h.workers n).ingest e (by rw [hemits]; simp)
  refine ⟨h.server, h.size, fun m => ?_, fun v' hv => ?_, fun v' hv hroom => ?_,
    fun v' hv hroom hphase => snapshots_of_mem_send h hv hroom hphase⟩
  · by_cases hm : m = n
    · subst hm
      simpa [send, setWorker] using (h.workers m).emit hemits
    · simpa [send, setWorker, hm] using h.workers m
  · obtain ⟨v, hmem, rfl⟩ := mem_send hv
    split_ifs
    · exact (h.viewers v hmem).send e.2
    · exact h.viewers v hmem
  · obtain ⟨v, hmem, rfl⟩ := mem_send hv
    have hvroom : v.room = room := by
      split_ifs at hroom
      · rwa [Viewer.send_room] at hroom
      · exact hroom
    have hfollow := h.follows v hmem hvroom
    by_cases hm : roomShard room = n
    · have hemit := hfollow.emit (by rw [hm]; exact hemits) hingest
      simpa [send, setWorker, hm] using hemit
    · -- another shard's task has nothing for this viewer
      have hne : v.room ≠ e.1 := fun heq =>
        hm (shard_of_emit h hemits (heq ▸ hvroom)).symm
      simpa [send, setWorker, hm, hne] using hfollow

theorem roomKept_worker (h : RoomKept roomShard room d) {n : ℕ} {a : WorkerAction}
    (hstep : d.stepWorker n a = some d') : RoomKept roomShard room d' := by
  cases stepWorker_cases hstep with
  | drain more hidle hmore =>
    exact roomKept_setWorker h ((h.workers n).drain hidle more) fun v hv => hv.of_same rfl rfl rfl
  | handle item rest hemits hbatch =>
    exact roomKept_setWorker h ((h.workers n).handle hemits hbatch)
      fun v hv => hv.handle hemits item rest
  | emit e rest hemits => exact roomKept_emit h hemits
  | flush r p hemits hbatch hp =>
    exact roomKept_setWorker h ((h.workers n).flushRoom hemits hp) fun v hv => hv.flushRoom hemits hp

/-- The room's queue is all on its own shard. -/
theorem uncoalesced_queued (h : RoomKept roomShard room d) :
    uncoalesced room ((d.workers (roomShard room)).handled ++
      ((d.workers (roomShard room)).batch ++ (d.workers (roomShard room)).queue)) =
      uncoalesced room ((d.server.queuedTo room).map Stored.item) := by
  rw [← (h.workers (roomShard room)).queued]
  simp only [uncoalesced, Server.queuedTo, List.filter_map, List.filter_filter]
  congr 2
  apply List.filter_congr
  intro stored _
  by_cases hr : stored.item.room = room <;> simp [hr]

/-- What the room's task handled was stored in the room first. -/
theorem handled_prefix (h : RoomKept roomShard room d) :
    uncoalesced room (d.workers (roomShard room)).handled <+:
      uncoalesced room (d.server.appendedTo room) := by
  have hqueued := uncoalesced_queued h
  rw [uncoalesced_append] at hqueued
  rw [Server.appendedTo_eq]
  calc uncoalesced room (d.workers (roomShard room)).handled
      <+: uncoalesced room ((d.server.queuedTo room).map Stored.item) := by
        rw [← hqueued]
        exact List.prefix_append _ _
    _ <+: uncoalesced room ((d.server.storedIn room).map Stored.item) :=
        uncoalesced_prefix (h.server.order.map _)

theorem roomKept_viewer (h : RoomKept roomShard room d) {k : ℕ} {v v' : Viewer}
    (hv : d.viewers[k]? = some v)
    (hmove : Viewer.Moves (d.server.rooms.snapshot d.server.now v.room)
      (d.server.appendedTo v.room) v v')
    (hviewers : d'.viewers = d.viewers.set k v') (hserver : d'.server = d.server)
    (hworkers : d'.workers = d.workers) : RoomKept roomShard room d' := by
  have hmem := List.mem_of_getElem? hv
  have hkept := h.viewers v hmem
  have hroom := hmove.room_eq.1
  refine ⟨by rw [hserver]; exact h.server, by rw [hserver]; exact h.size, ?_, ?_, ?_, ?_⟩
  · rw [hserver, hworkers]
    exact h.workers
  · intro u hu
    rw [hviewers] at hu
    rcases List.mem_or_eq_of_mem_set hu with hu | rfl
    · exact h.viewers u hu
    · exact hkept.moves hmove
  · intro u hu huroom
    rw [hviewers] at hu
    rw [hworkers]
    rcases List.mem_or_eq_of_mem_set hu with hu | rfl
    · exact h.follows u hu huroom
    · have hvroom : v.room = room := hroom ▸ huroom
      apply (h.follows v hmem hvroom).moves hkept hmove
      rw [hvroom]
      exact handled_prefix h
  · intro u hu huroom hphase
    rw [hviewers] at hu
    rw [hserver]
    rcases List.mem_or_eq_of_mem_set hu with hu | rfl
    · exact h.snapshots u hu huroom hphase
    · have hvroom : v.room = room := hroom ▸ huroom
      -- this step takes the snapshot, or one was taken before
      rcases hmove.past_eq hkept with ⟨-, hsnap, happ⟩ | ⟨hsnap, happ, hbefore⟩
      · rw [hsnap, happ, hvroom, Server.snapshot_size]
        exact ⟨List.prefix_refl _, h.size⟩
      · rw [hsnap, happ]
        exact h.snapshots v hmem hvroom (hbefore hphase)

theorem roomKept_server (h : RoomKept roomShard room d) {a : Action} {s : Server}
    (hone : d.server.conns.countP (fun c => c.room = room) ≤ 1)
    (hkeep : d.server.removes a ≠ some room) (hstep : d.server.step a = some s) :
    RoomKept roomShard room
      ((d.server.outputs a).foldl (dispatch roomShard) { d with server := s }) := by
  have hserver := Server.inOrder_step h.server hone hstep
  have hsize := Server.content_size_step h.size hkeep hstep
  have hgrow : d.server.appendedTo room <+: s.appendedTo room := by
    obtain ⟨items, -, happ, -⟩ := Server.content_step hstep room
    rw [happ]
    exact List.prefix_append _ _
  have hsnap : ∀ v ∈ d.viewers, v.room = room → v.phase ≠ .registered →
      v.past.appendedAt <+: s.appendedTo room ∧
        v.past.snapshot.bind RoomSnapshot.size = lastSize v.past.appendedAt := by
    intro v hv hroom hphase
    obtain ⟨happ, hsz⟩ := h.snapshots v hv hroom hphase
    exact ⟨happ.trans hgrow, hsz⟩
  have hpub : s.queued = d.server.queued ++ (d.server.outputs a).filterMap Output.stored := by
    rw [Server.queued, Server.published_outputs hstep, List.filterMap_append]
    rfl
  -- unless an item is queued, the workers are where they were
  have hquiet : s.queued = d.server.queued → RoomKept roomShard room { d with server := s } := by
    intro hq
    refine ⟨hserver, hsize, fun n => ?_, h.viewers, h.follows, hsnap⟩
    change (d.workers n).Kept room ((s.queued.map Stored.item).filter _)
    rw [hq]
    exact h.workers n
  -- a step publishes nothing, a control that is sent at once, or an item for a queue
  rcases Server.outputs_cases d.server a with hout | ⟨out, hout⟩ <;> rw [hout] at hpub ⊢
  · exact hquiet (by simpa using hpub)
  · cases out with
    | control r c =>
      have hq : s.queued = d.server.queued := by
        rw [hpub]
        exact List.append_nil _
      apply roomKept_send (hquiet hq) r
      cases c <;> rfl
    | ingest stored =>
      have hq : s.queued = d.server.queued ++ [stored] := hpub
      -- only the shard of the item's room gets it, at the end of its queue
      let workers := Function.update d.workers (roomShard stored.item.room)
        ((d.workers (roomShard stored.item.room)).enqueue stored.item)
      refine ⟨hserver, hsize, fun n => ?_, h.viewers, fun v hv hroom => ?_, hsnap⟩
      · change (workers n).Kept room ((s.queued.map Stored.item).filter _)
        rw [hq, List.map_append, List.filter_append]
        by_cases hn : n = roomShard stored.item.room
        · subst hn
          simpa [workers] using (h.workers _).enqueue stored.item
        · simpa [workers, hn, Ne.symm hn] using h.workers n
      · have hfollow := h.follows v hv hroom
        change Follows (workers (roomShard room)) v
        by_cases hn : roomShard room = roomShard stored.item.room
        · have hworker : workers (roomShard room) =
              (d.workers (roomShard room)).enqueue stored.item := by simp [workers, hn]
          rw [hworker]
          exact hfollow.of_same rfl rfl rfl
        · simpa [workers, hn] using hfollow

theorem roomKept_counts (h : RoomKept roomShard room d) {a : CountAction}
    (hstep : d.stepCounts a = some d') : RoomKept roomShard room d' := by
  cases stepCounts_cases hstep with
  | drain more hrooms hreading hmore =>
    exact ⟨h.server, h.size, h.workers, h.viewers, h.follows, h.snapshots⟩
  | read r hroom hreading =>
    exact ⟨h.server, h.size, h.workers, h.viewers, h.follows, h.snapshots⟩
  | announce r n hreading =>
    have hquiet : RoomKept roomShard room { d with counts := { d.counts with reading := none } } :=
      ⟨h.server, h.size, h.workers, h.viewers, h.follows, h.snapshots⟩
    exact roomKept_send hquiet r rfl

/-- The step lemma of viewer delivery. -/
theorem roomKept_step (h : RoomKept roomShard room d) {a : DeliveryAction}
    (hquiet : Undisturbed room d a) (hstep : d.step roomShard a = some d') :
    RoomKept roomShard room d' := by
  cases a with
  | server a =>
    obtain ⟨s, hs, rfl⟩ := Option.map_eq_some_iff.mp hstep
    obtain ⟨hone, hkeep⟩ : d.server.conns.countP (fun c => c.room = room) ≤ 1 ∧
        d.server.removes a ≠ some room := by
      simpa [Undisturbed, undisturbed] using hquiet
    exact roomKept_server h hone hkeep hs
  | worker n a => exact roomKept_worker h hstep
  | join r =>
    obtain rfl := Option.some.inj hstep
    refine ⟨h.server, h.size, h.workers, fun v hv => ?_, fun v hv hroom => ?_,
      fun v hv hroom hphase => ?_⟩ <;> rcases List.mem_append.mp hv with hv | hv
    · exact h.viewers v hv
    · obtain rfl := List.mem_singleton.mp hv
      exact Viewer.kept_join r
    · exact h.follows v hv hroom
    · obtain rfl := List.mem_singleton.mp hv
      obtain rfl : r = room := hroom
      exact (h.workers (roomShard r)).follows_join
    · exact h.snapshots v hv hroom hphase
    · obtain rfl := List.mem_singleton.mp hv
      exact absurd rfl hphase
  | viewer k a =>
    obtain ⟨v, hv, hstep⟩ := Option.bind_eq_some_iff.mp hstep
    obtain ⟨v', hmove, hviewers, hserver, hworkers⟩ := stepViewer_moves hstep
    exact roomKept_viewer h hv hmove hviewers hserver hworkers
  | counts a => exact roomKept_counts h hstep

theorem roomKept_init (roomShard : RoomId → ℕ) (room : RoomId) (ttl : ℕ) :
    RoomKept roomShard room (init ttl) :=
  ⟨Server.inOrder_init ttl room, rfl, fun _ => Worker.kept_init room,
    fun _ hv => (by cases hv), fun _ hv => (by cases hv), fun _ hv => (by cases hv)⟩

end Delivery

end Shellshare
