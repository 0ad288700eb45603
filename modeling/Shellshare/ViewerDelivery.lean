import Shellshare.ServerPublishOrder
import Shellshare.ViewerRelay

/-! Viewer delivery as a whole: the server's publications, one fan-out task per
shard, the task that announces viewer counts, and one task per viewer. Each
task is cut at the points where another may run: an emit to a room's viewers,
a read of the store or of the registry, a frame on a viewer's socket. -/
namespace Shellshare
open FrameCoalescing

/-- Outgoing queue depth per viewer, in messages. -/
def viewerQueue : ℕ := 2048

def usersCountControl (count : ℕ) : Json := .object [("usersCount", .number count)]

def ViewerControl.json : ViewerControl → Json
  | .reset => .object [("reset", .bool true)]
  | .broadcasting live => .object [("broadcasting", .bool live)]

/-- What a joining viewer is sent of a snapshot, before its own count. -/
def catchUpFrames (snapshot : Option RoomSnapshot) : List ViewerMsg :=
  ((snapshot.bind RoomSnapshot.size).map fun size => .control (sizeControl size)).toList ++
  ((snapshot.bind RoomSnapshot.history).map Frame.bytes).toList ++
  [.control (ViewerControl.broadcasting (snapshot.any RoomSnapshot.broadcasting)).json]

inductive ViewerPhase where
  /-- in the registry, the snapshot not yet taken -/
  | registered
  /-- sending the snapshot -/
  | catchingUp
  /-- sending the count it read -/
  | counted
  /-- waiting for its queue, with the frames of the last wake-up still to send -/
  | live
  /-- in `relay`, with the queue not yet found empty -/
  | relaying
  /-- out of its loop, not yet out of the registry -/
  | closing
  | left
  | gone
deriving DecidableEq

/-- After its loop, when it sends nothing any more. -/
def ViewerPhase.over : ViewerPhase → Bool
  | .closing | .left | .gone => true
  | _ => false

/-- What happened to a viewer. No step reads it: the snapshot and what had been
stored in the room when it was taken, the catch-up frames, every message sent
to the room since the viewer joined, and those its task took from its queue. -/
structure ViewerPast where
  snapshot : Option RoomSnapshot
  appendedAt : List FanoutItem
  catchUp : List ViewerMsg
  offered : List ViewerMsg
  consumed : List ViewerMsg

/-- One viewer connection: its place in the registry, its queue, and its task.
`outbox` holds the frames of the current wake-up, `received` those sent. -/
structure Viewer where
  room : RoomId
  isRegistered : Bool
  phase : ViewerPhase
  queue : List ViewerMsg
  merging : Merging
  outbox : List ViewerMsg
  received : List ViewerMsg
  past : ViewerPast

inductive ViewerAction where
  | snapshot
  | transmit
  | fail (delivered : Bool)
  | count
  | notify
  | wake
  | drain
  | settle
  | hangUp
  | leave
  | notifyLeft
deriving DecidableEq

/-- One fan-out task with its queue. `emits` are the sends of the current item
still to be made; `handled` and `emitted` are history. -/
structure Worker where
  queue : List FanoutItem
  batch : List FanoutItem
  pending : PendingRooms
  emits : List Emission
  handled : List FanoutItem
  emitted : List Emission

inductive WorkerAction where
  | drain (more : ℕ)
  | handle
  | emit
  | flush (room : RoomId)

/-- `usercount_loop` with its queue: the rooms drained and not yet announced,
and the count it read and has not yet sent. -/
structure UserCounts where
  queue : List RoomId
  rooms : List RoomId
  reading : Option (RoomId × ℕ)

inductive CountAction where
  | drain (more : ℕ)
  | read (room : RoomId)
  | announce

structure Delivery where
  server : Server
  workers : ℕ → Worker
  viewers : List Viewer
  counts : UserCounts

inductive DeliveryAction where
  | server (a : Action)
  | worker (n : ℕ) (a : WorkerAction)
  | join (room : RoomId)
  | viewer (k : ℕ) (a : ViewerAction)
  | counts (a : CountAction)

/-- The publication an action of the server makes, if it is one. -/
def Server.outputs (s : Server) : Action → List Output
  | .publish i => ((s.conns[i]?.bind Conn.publication).map Prod.fst).toList
  | _ => []

theorem Server.outputs_cases (s : Server) (a : Action) :
    s.outputs a = [] ∨ ∃ out, s.outputs a = [out] := by
  cases a with
  | publish i =>
    cases h : (s.conns[i]?.bind Conn.publication).map Prod.fst with
    | none => exact Or.inl (by rw [outputs, h]; rfl)
    | some out => exact Or.inr ⟨out, by rw [outputs, h]; rfl⟩
  | _ => exact Or.inl rfl

theorem Server.published_outputs {s s' : Server} {a : Action} (hstep : s.step a = some s') :
    s'.published = s.published ++ s.outputs a := by
  have hquiet : ∀ {b : Action}, s.outputs b = [] → ∀ {u : Server},
      u.published = s.published → u.published = s.published ++ s.outputs b := by
    intro b hout u hu
    rw [hout, hu, List.append_nil]
  cases step_cases hstep with
  | elapse d => exact hquiet rfl rfl
  | handshake room secret =>
    apply hquiet rfl
    unfold handshake
    split <;> rfl
  | attach i c hc hp => exact hquiet rfl rfl
  | receive i msg c hc hp =>
    obtain ⟨c', -, -, -, -, hpub, -⟩ := receive_spec s i c msg
    exact hquiet rfl hpub
  | hangUp i c hc hp => exact hquiet rfl rfl
  | publish i c out phase hc hp =>
    have hout : s.outputs (.publish i) = [out] := by simp [outputs, hc, hp]
    rw [hout]
    rfl
  | ack i sent c hc hp => exact hquiet rfl rfl
  | detach i c hc hp => exact hquiet rfl rfl
  | deleteRoom room secret => exact hquiet rfl rfl
  | evict room => exact hquiet rfl rfl

/-- `try_send` on one viewer's queue: a viewer whose queue is full is dropped
from the registry for good. -/
def Viewer.send (v : Viewer) (msg : ViewerMsg) : Viewer :=
  let v := { v with past := { v.past with offered := v.past.offered ++ [msg] } }
  if v.isRegistered then
    if v.queue.length < viewerQueue then { v with queue := v.queue ++ [msg] }
    else { v with isRegistered := false }
  else v

/-- `Viewers::join`, with a fresh queue. -/
def Viewer.join (room : RoomId) : Viewer :=
  ⟨room, true, .registered, [], .new, [], [], ⟨none, [], [], [], []⟩⟩

def Viewer.load (v : Viewer) (frames : List ViewerMsg) (phase : ViewerPhase) : Viewer :=
  { v with
    phase := phase
    outbox := v.outbox ++ frames
    past := { v.past with catchUp := v.past.catchUp ++ frames } }

def Viewer.takeSnapshot (v : Viewer) (snapshot : Option RoomSnapshot)
    (appended : List FanoutItem) : Viewer :=
  { v with past := { v.past with snapshot := snapshot, appendedAt := appended } }.load
    (catchUpFrames snapshot) .catchingUp

/-- One message of the viewer's queue through the loop of `relay`. -/
def Viewer.relay (v : Viewer) (msg : ViewerMsg) (rest : List ViewerMsg) : Viewer :=
  let (frames, merging) := v.merging.relayItem msg
  { v with
    phase := .relaying
    queue := rest
    merging := merging
    outbox := frames
    past := { v.past with consumed := v.past.consumed ++ [msg] } }

def Viewer.settle (v : Viewer) : Viewer :=
  { v with phase := .live, merging := v.merging.flush.2, outbox := v.merging.flush.1 }

namespace Worker

def init : Worker := ⟨[], [], ∅, [], [], []⟩

def enqueue (w : Worker) (item : FanoutItem) : Worker := { w with queue := w.queue ++ [item] }

/-- `recv` and the `try_recv` loop: the first item and `more` that were queued. -/
def drain (w : Worker) (more : ℕ) : Worker :=
  { w with batch := w.queue.take (more + 1), queue := w.queue.drop (more + 1) }

def handle (w : Worker) (item : FanoutItem) (rest : List FanoutItem) : Worker :=
  let (emits, pending) := fanoutItem w.pending item
  { w with batch := rest, pending := pending, emits := emits, handled := w.handled ++ [item] }

def emit (w : Worker) (e : Emission) (rest : List Emission) : Worker :=
  { w with emits := rest, emitted := w.emitted ++ [e] }

/-- The end of a batch, one room of the map at a time. -/
def flushRoom (w : Worker) (room : RoomId) (p : Pending) : Worker :=
  { w with pending := w.pending.erase room, emits := flush room p }

def idle (w : Worker) : Bool := w.batch.isEmpty && w.emits.isEmpty && w.pending.entries.isEmpty

end Worker

namespace Delivery

def init (inactiveTtl : ℕ) : Delivery :=
  ⟨.init inactiveTtl, fun _ => .init, [], ⟨[], [], none⟩⟩

/-- `Viewers::send`: every viewer of the room, under the room's lock. -/
def send (d : Delivery) (room : RoomId) (msg : ViewerMsg) : Delivery :=
  { d with viewers := d.viewers.map fun v => if v.room = room then v.send msg else v }

/-- `Viewers::count`. -/
def count (d : Delivery) (room : RoomId) : ℕ :=
  d.viewers.countP fun v => v.isRegistered && v.room = room

def setWorker (d : Delivery) (n : ℕ) (w : Worker) : Delivery :=
  { d with workers := Function.update d.workers n w }

def setViewer (d : Delivery) (k : ℕ) (v : Viewer) : Delivery :=
  { d with viewers := d.viewers.set k v }

/-- `publish_ingest` queues on the room's shard, `publish_control` sends at once. -/
def dispatch (roomShard : RoomId → ℕ) (d : Delivery) : Output → Delivery
  | .ingest stored =>
    let n := roomShard stored.item.room
    d.setWorker n ((d.workers n).enqueue stored.item)
  | .control room control => d.send room (.control control.json)

def stepWorker (d : Delivery) (n : ℕ) : WorkerAction → Option Delivery
  | .drain more =>
    let w := d.workers n
    -- the task receives again only after the batch before is flushed
    if w.idle ∧ more < w.queue.length then some (d.setWorker n (w.drain more)) else none
  | .handle => match (d.workers n).emits, (d.workers n).batch with
    | [], item :: rest => some (d.setWorker n ((d.workers n).handle item rest))
    | _, _ => none
  | .emit => match (d.workers n).emits with
    | e :: rest => some ((d.setWorker n ((d.workers n).emit e rest)).send e.1 e.2)
    | [] => none
  | .flush room =>
    match (d.workers n).emits, (d.workers n).batch, (d.workers n).pending.lookup room with
    | [], [], some p => some (d.setWorker n ((d.workers n).flushRoom room p))
    | _, _, _ => none

def notifyCount (d : Delivery) (room : RoomId) : Delivery :=
  { d with counts := { d.counts with queue := d.counts.queue ++ [room] } }

def stepViewer (d : Delivery) (k : ℕ) (v : Viewer) : ViewerAction → Option Delivery
  | .snapshot =>
    if v.phase = .registered then
      some (d.setViewer k (v.takeSnapshot (d.server.rooms.snapshot d.server.now v.room)
        (d.server.appendedTo v.room)))
    else none
  | .transmit => match v.outbox with
    | frame :: rest =>
      if v.phase.over then none
      else some (d.setViewer k { v with outbox := rest, received := v.received ++ [frame] })
    | [] => none
  | .fail delivered => match v.outbox with
    | frame :: rest =>
      if v.phase.over then none
      -- a send that times out may still have reached the viewer
      else if delivered then
        some (d.setViewer k
          { v with phase := .closing, outbox := rest, received := v.received ++ [frame] })
      else some (d.setViewer k { v with phase := .closing })
    | [] => none
  -- the count is read after the snapshot is sent, and may be newer
  | .count =>
    if v.phase = .catchingUp ∧ v.outbox = [] then
      some (d.setViewer k (v.load [.control (usersCountControl (d.count v.room))] .counted))
    else none
  | .notify =>
    if v.phase = .counted ∧ v.outbox = [] then
      some ((d.setViewer k { v with phase := .live }).notifyCount v.room)
    else none
  | .wake => match v.phase, v.outbox, v.queue with
    | .live, [], msg :: rest => some (d.setViewer k (v.relay msg rest))
    | _, _, _ => none
  | .drain => match v.phase, v.outbox, v.queue with
    | .relaying, [], msg :: rest => some (d.setViewer k (v.relay msg rest))
    | _, _, _ => none
  -- the queue is found empty, or a send has come just too late to be seen
  | .settle =>
    if v.phase = .relaying ∧ v.outbox = [] then some (d.setViewer k v.settle) else none
  | .hangUp =>
    -- the peer is gone or silent, or the registry dropped the queue's sender
    if v.phase = .live ∧ v.outbox = [] then some (d.setViewer k { v with phase := .closing })
    else none
  | .leave =>
    if v.phase = .closing then
      some (d.setViewer k { v with phase := .left, isRegistered := false })
    else none
  | .notifyLeft =>
    if v.phase = .left then some ((d.setViewer k { v with phase := .gone }).notifyCount v.room)
    else none

def stepCounts (d : Delivery) : CountAction → Option Delivery
  | .drain more =>
    if d.counts.rooms = [] ∧ d.counts.reading = none ∧ more < d.counts.queue.length then
      some { d with counts :=
        ⟨d.counts.queue.drop (more + 1), (d.counts.queue.take (more + 1)).dedup, none⟩ }
    else none
  | .read room =>
    if room ∈ d.counts.rooms ∧ d.counts.reading = none then
      some { d with counts :=
        { d.counts with rooms := d.counts.rooms.erase room, reading := some (room, d.count room) } }
    else none
  | .announce => d.counts.reading.map fun (room, count) =>
    { d with counts := { d.counts with reading := none } }.send room
      (.control (usersCountControl count))

/-- One step of one task. `room_shard` hashes a room to its shard. -/
def step (roomShard : RoomId → ℕ) (d : Delivery) : DeliveryAction → Option Delivery
  | .server a => (d.server.step a).map fun s =>
    (d.server.outputs a).foldl (dispatch roomShard) { d with server := s }
  | .worker n a => d.stepWorker n a
  | .join room => some { d with viewers := d.viewers ++ [Viewer.join room] }
  | .viewer k a => d.viewers[k]?.bind fun v => d.stepViewer k v a
  | .counts a => d.stepCounts a

end Delivery

end Shellshare
