import Shellshare.ViewerJoin

/-! The registry of viewers and its room keys: an entry outlives the last viewer
of its room until a `leave` sweeps it. -/
namespace Shellshare
open TransitionRuns

/-- Viewer delivery with the rooms that have an entry in the registry. In
`sweeping` are the viewers whose `leave` found the entry empty and has still to
call `remove_if`. No step reads `announced`: the viewers that have told the
count loop of their catch-up. -/
structure Registry where
  delivery : Delivery
  rooms : List RoomId
  sweeping : List ℕ
  announced : List ℕ

inductive RegistryAction where
  | delivery (a : DeliveryAction)
  | removeIf (k : ℕ)

namespace Registry

def init (inactiveTtl : ℕ) : Registry := ⟨.init inactiveTtl, [], [], []⟩

/-- `entry.is_empty()`, under the lock that removed the viewer. -/
def emptied (g : Registry) (d : Delivery) (k : ℕ) : Bool :=
  d.viewers[k]?.any fun v => v.room ∈ g.rooms && d.count v.room = 0

def record (g : Registry) (d : Delivery) : DeliveryAction → Registry
  | .join room => { g with delivery := d, rooms := g.rooms.insert room }
  | .viewer k .notify => { g with delivery := d, announced := g.announced ++ [k] }
  | .viewer k .leave =>
    { g with
      delivery := d
      sweeping := if g.emptied d k then g.sweeping ++ [k] else g.sweeping }
  | _ => { g with delivery := d }

/-- A task tells the count loop that it left only when its `leave` has returned. -/
def ready (g : Registry) : DeliveryAction → Bool
  | .viewer k .notifyLeft => k ∉ g.sweeping
  | _ => true

/-- The second lock of `leave`: a viewer that joined in between keeps the entry. -/
def removeIf (g : Registry) (k : ℕ) (room : RoomId) : Registry :=
  { g with
    rooms := if g.delivery.count room = 0 then g.rooms.filter (· ≠ room) else g.rooms
    sweeping := g.sweeping.erase k }

def step (roomShard : RoomId → ℕ) (g : Registry) : RegistryAction → Option Registry
  | .delivery a =>
    if g.ready a then (g.delivery.step roomShard a).map fun d => g.record d a else none
  | .removeIf k =>
    if k ∈ g.sweeping then g.delivery.viewers[k]?.map fun v => g.removeIf k v.room else none

end Registry

/-- The viewer counts a message tells. -/
def countsTold : ViewerMsg → List Json
  | .bytes _ => []
  | .control json => (json.get "usersCount").toList

def lastCountTold (msgs : List ViewerMsg) : Option Json := (msgs.flatMap countsTold).getLast?

/-- All that a viewer has been sent, in the order of delivery: the frames on its
socket, those of the current wake-up, and its queue. -/
def Viewer.sent (v : Viewer) : List ViewerMsg := v.received ++ v.outbox ++ v.queue

@[simp] theorem countsTold_bytes (payload : Bytes) : countsTold (.bytes payload) = [] := rfl

@[simp] theorem countsTold_sizeControl (size : Json) :
    countsTold (.control (sizeControl size)) = [] := rfl

@[simp] theorem countsTold_viewerControl (c : ViewerControl) :
    countsTold (.control c.json) = [] := by
  cases c <;> rfl

@[simp] theorem countsTold_usersCount (n : ℕ) :
    countsTold (.control (usersCountControl n)) = [.number n] := rfl

theorem countsTold_catchUpFrames (snapshot : Option RoomSnapshot) :
    (catchUpFrames snapshot).flatMap countsTold = [] := by
  rw [catchUpFrames]
  cases snapshot.bind RoomSnapshot.size <;> cases snapshot.bind RoomSnapshot.history <;> simp

theorem Merging.countsTold_flush (m : Merging) : m.flush.1.flatMap countsTold = [] := by
  rw [Merging.flush]
  split_ifs <;> simp

/-- Merging drops no count and makes none. -/
theorem Merging.countsTold_relayItem (m : Merging) (msg : ViewerMsg) :
    (m.relayItem msg).1.flatMap countsTold = countsTold msg := by
  cases msg with
  | bytes payload =>
    rw [Merging.relayItem]
    split_ifs <;> simp
  | control json =>
    have hflush := m.countsTold_flush
    simp [Merging.relayItem, hflush]

namespace Viewer
variable {v : Viewer}

/-- A step in which the viewer stays in its room and is told no count. -/
structure Unmoved (v v' : Viewer) : Prop where
  room : v'.room = v.room
  isRegistered : v'.isRegistered = v.isRegistered
  told : v'.sent.flatMap countsTold = v.sent.flatMap countsTold
  before : v.phase ≠ .left ∧ v.phase ≠ .gone
  after : v'.phase ≠ .left ∧ v'.phase ≠ .gone
  early : v.phase.early = false → v'.phase.early = false

/-- The steps of a viewer's task, by what they mean to the counts of its room. -/
inductive TaskStep (v : Viewer) (counts : UserCounts) :
    ViewerAction → Viewer → UserCounts → Prop where
  | quiet {a : ViewerAction} {v' : Viewer} (hnotify : a ≠ .notify) (hleave : a ≠ .leave)
    (h : v.Unmoved v') : TaskStep v counts a v' counts
  | count (n : ℕ) (hp : v.phase = .catchingUp) :
    TaskStep v counts .count (v.load [.control (usersCountControl n)] .counted) counts
  | notify (hp : v.phase = .counted) :
    TaskStep v counts .notify { v with phase := .live }
      { counts with queue := counts.queue ++ [v.room] }
  | leave (hp : v.phase = .closing) :
    TaskStep v counts .leave { v with phase := .left, isRegistered := false } counts
  | notifyLeft (hp : v.phase = .left) :
    TaskStep v counts .notifyLeft { v with phase := .gone }
      { counts with queue := counts.queue ++ [v.room] }

section TaskStep
variable {v' : Viewer} {counts counts' : UserCounts} {a : ViewerAction}

theorem TaskStep.room_eq (h : v.TaskStep counts a v' counts') : v'.room = v.room := by
  cases h with
  | quiet _ _ h => exact h.room
  | _ => rfl

theorem TaskStep.isRegistered_of (h : v.TaskStep counts a v' counts')
    (hreg : v'.isRegistered = true) : v.isRegistered = true := by
  cases h with
  | quiet _ _ h => exact h.isRegistered ▸ hreg
  | leave => cases hreg
  | _ => exact hreg

theorem TaskStep.stays (h : v.TaskStep counts a v' counts') (ha : a ≠ .leave)
    (hv : v.phase ≠ .left ∧ v.phase ≠ .gone) : v'.phase ≠ .left ∧ v'.phase ≠ .gone := by
  cases h with
  | quiet _ _ h => exact h.after
  | leave => exact absurd rfl ha
  | notifyLeft hp => exact absurd hp hv.1
  | _ => exact ⟨nofun, nofun⟩

/-- A task leaves the registry once, and only before it is `left`. -/
theorem TaskStep.registered (h : v.TaskStep counts a v' counts')
    (hv : v.isRegistered = true → v.phase ≠ .left ∧ v.phase ≠ .gone)
    (hreg : v'.isRegistered = true) : v'.phase ≠ .left ∧ v'.phase ≠ .gone := by
  have hphase := hv (h.isRegistered_of hreg)
  -- the task that leaves is not registered any more
  apply h.stays _ hphase
  rintro rfl
  cases h with
  | quiet _ hleave _ => exact hleave rfl
  | leave => cases hreg

theorem TaskStep.of_left (h : v.TaskStep counts a v' counts') (hp : v.phase = .left) :
    a = .notifyLeft := by
  cases h with
  | quiet _ _ h => exact absurd hp h.before.1
  | notifyLeft => rfl
  | count n hv | notify hv | leave hv =>
    rw [hp] at hv
    cases hv

/-- After its catch-up a task is never in it again. -/
theorem TaskStep.early_eq (h : v.TaskStep counts a v' counts')
    (hv : v.phase.early = false ∨ a = .notify) : v'.phase.early = false := by
  cases h with
  | quiet hnotify _ h => exact h.early (hv.resolve_right hnotify)
  | count n hp =>
    rcases hv with hv | hv
    · rw [hp] at hv
      cases hv
    · cases hv
  | _ => rfl

theorem TaskStep.counts_eq (h : v.TaskStep counts a v' counts') :
    counts.queue <+: counts'.queue ∧ counts'.rooms = counts.rooms ∧
      counts'.reading = counts.reading := by
  cases h with
  | notify | notifyLeft => exact ⟨List.prefix_append _ _, rfl, rfl⟩
  | _ => exact ⟨List.prefix_refl _, rfl, rfl⟩

end TaskStep

theorem phase_of_not_over (hover : ¬ v.phase.over = true) : v.phase ≠ .left ∧ v.phase ≠ .gone := by
  constructor <;> intro hp <;> rw [hp] at hover <;> exact hover rfl

theorem unmoved_transmit {frame : ViewerMsg} {rest : List ViewerMsg}
    (hover : ¬ v.phase.over = true) (ho : v.outbox = frame :: rest) :
    v.Unmoved { v with outbox := rest, received := v.received ++ [frame] } := by
  have hphase := phase_of_not_over hover
  refine ⟨rfl, rfl, ?_, hphase, hphase, id⟩
  simp [sent, ho]

theorem Unmoved.closing {v' : Viewer} (h : v.Unmoved v') :
    v.Unmoved { v' with phase := .closing } :=
  ⟨h.room, h.isRegistered, h.told, h.before, ⟨nofun, nofun⟩, fun _ => rfl⟩

theorem unmoved_closing (hover : ¬ v.phase.over = true) : v.Unmoved { v with phase := .closing } :=
  ⟨rfl, rfl, rfl, phase_of_not_over hover, ⟨nofun, nofun⟩, fun _ => rfl⟩

/-- A message of the queue goes to the outbox with its count, if it tells one. -/
theorem unmoved_relay {msg : ViewerMsg} {rest : List ViewerMsg}
    (hp : v.phase = .live ∨ v.phase = .relaying) (ho : v.outbox = []) (hq : v.queue = msg :: rest) :
    v.Unmoved (v.relay msg rest) := by
  have hphase : v.phase ≠ .left ∧ v.phase ≠ .gone := by
    rcases hp with hp | hp <;> rw [hp] <;> exact ⟨nofun, nofun⟩
  have htold := v.merging.countsTold_relayItem msg
  refine ⟨rfl, rfl, ?_, hphase, ⟨nofun, nofun⟩, fun _ => rfl⟩
  simp [sent, Viewer.relay, ho, hq, htold]

theorem unmoved_settle (hp : v.phase = .relaying) (ho : v.outbox = []) : v.Unmoved v.settle := by
  have hphase : v.phase ≠ .left ∧ v.phase ≠ .gone := by
    rw [hp]
    exact ⟨nofun, nofun⟩
  have hflush := v.merging.countsTold_flush
  refine ⟨rfl, rfl, ?_, hphase, ⟨nofun, nofun⟩, fun _ => rfl⟩
  simp [sent, settle, ho, hflush]

/-- The snapshot has no count, which is read only later. -/
theorem unmoved_snapshot (hp : v.phase = .registered) (snapshot : Option RoomSnapshot)
    (appended : List FanoutItem) : v.Unmoved (v.takeSnapshot snapshot appended) := by
  have hphase : v.phase ≠ .left ∧ v.phase ≠ .gone := by
    rw [hp]
    exact ⟨nofun, nofun⟩
  have hcatch := countsTold_catchUpFrames snapshot
  refine ⟨rfl, rfl, ?_, hphase, ⟨nofun, nofun⟩, ?_⟩
  · simp [sent, takeSnapshot, load, hcatch]
  · rw [hp]
    nofun

/-- `v'` is the viewer after a send in its room or in another one: dropped, or
told what the message tells. -/
structure Offered (told : List Json) (v v' : Viewer) : Prop where
  room : v'.room = v.room
  phase : v'.phase = v.phase
  isRegistered : v'.isRegistered = true → v.isRegistered = true
  told : v'.isRegistered = true →
    v'.sent.flatMap countsTold = v.sent.flatMap countsTold ++ told

theorem offered_self (v : Viewer) : v.Offered [] v :=
  ⟨rfl, rfl, id, fun _ => (List.append_nil _).symm⟩

theorem offered_send (v : Viewer) (msg : ViewerMsg) : v.Offered (countsTold msg) (v.send msg) := by
  refine ⟨v.send_room msg, v.send_phase msg, ?_, ?_⟩
  · intro hreg
    unfold send at hreg
    dsimp only at hreg
    split_ifs at hreg with hwas
    · exact hwas
    · exact absurd hreg hwas
  · intro hreg
    unfold send at hreg ⊢
    dsimp only at hreg ⊢
    split_ifs at hreg ⊢ with hwas
    · simp [sent]
    · exact absurd hreg hwas

end Viewer

namespace Delivery

variable {roomShard : RoomId → ℕ} {d d' : Delivery}

/-- Everything else is where it was. -/
theorem taskStep_of_stepViewer {k : ℕ} {v : Viewer} {a : ViewerAction}
    (h : d.stepViewer k v a = some d') : ∃ v' counts, v.TaskStep d.counts a v' counts ∧
      d' = { d with viewers := d.viewers.set k v', counts := counts } := by
  cases stepViewer_cases h with
  | snapshot hp => exact ⟨_, _, .quiet nofun nofun (Viewer.unmoved_snapshot hp _ _), rfl⟩
  | transmit frame rest ho hover =>
    exact ⟨_, _, .quiet nofun nofun (Viewer.unmoved_transmit hover ho), rfl⟩
  | fail ho hover => exact ⟨_, _, .quiet nofun nofun (Viewer.unmoved_closing hover), rfl⟩
  | failLate frame rest ho hover =>
    exact ⟨_, _, .quiet nofun nofun (Viewer.unmoved_transmit hover ho).closing, rfl⟩
  | count hp ho => exact ⟨_, _, .count _ hp, rfl⟩
  | notify hp ho => exact ⟨_, _, .notify hp, rfl⟩
  | wake msg rest hp ho hq =>
    exact ⟨_, _, .quiet nofun nofun (Viewer.unmoved_relay (Or.inl hp) ho hq), rfl⟩
  | drain msg rest hp ho hq =>
    exact ⟨_, _, .quiet nofun nofun (Viewer.unmoved_relay (Or.inr hp) ho hq), rfl⟩
  | settle hp ho => exact ⟨_, _, .quiet nofun nofun (Viewer.unmoved_settle hp ho), rfl⟩
  | hangUp hp ho =>
    have hover : ¬ v.phase.over = true := by
      rw [hp]
      nofun
    exact ⟨_, _, .quiet nofun nofun (Viewer.unmoved_closing hover), rfl⟩
  | leave hp => exact ⟨_, _, .leave hp, rfl⟩
  | notifyLeft hp => exact ⟨_, _, .notifyLeft hp, rfl⟩

/-- A step of the server or of a fan-out task: what it sends has no count. -/
structure QuietStep (d d' : Delivery) : Prop where
  viewers : ∃ f : Viewer → Viewer, d'.viewers = d.viewers.map f ∧
    ∀ v : Viewer, v.Offered [] (f v)
  counts : d'.counts = d.counts
  emits : (∀ n, ∀ e ∈ (d.workers n).emits, countsTold e.2 = []) →
    ∀ n, ∀ e ∈ (d'.workers n).emits, countsTold e.2 = []

theorem offered_of_room {told : List Json} (room : RoomId) {msg : ViewerMsg}
    (hmsg : countsTold msg = told) (v : Viewer) :
    v.Offered (if v.room = room then told else []) (if v.room = room then v.send msg else v) := by
  split_ifs
  · rw [← hmsg]
    exact v.offered_send msg
  · exact v.offered_self

theorem QuietStep.send (h : QuietStep d d') (hsame : d'.viewers = d.viewers) (room : RoomId)
    {msg : ViewerMsg} (hmsg : countsTold msg = []) : QuietStep d (d'.send room msg) := by
  refine ⟨⟨fun v => if v.room = room then v.send msg else v, ?_, ?_⟩, h.counts, h.emits⟩
  · rw [← hsame]
    rfl
  · intro v
    have hoffered := offered_of_room room hmsg v
    rwa [ite_self] at hoffered

theorem quietStep_setWorker {n : ℕ} {w : Worker}
    (hemits : (∀ e ∈ (d.workers n).emits, countsTold e.2 = []) →
      ∀ e ∈ w.emits, countsTold e.2 = []) : QuietStep d (d.setWorker n w) := by
  refine ⟨⟨id, (List.map_id _).symm, Viewer.offered_self⟩, rfl, ?_⟩
  intro hall m
  by_cases hm : m = n
  · subst hm
    simpa [setWorker] using hemits (hall m)
  · simpa [setWorker, hm] using hall m

theorem quietStep_server {a : Action} (hstep : d.step roomShard (.server a) = some d') :
    QuietStep d d' := by
  obtain ⟨s, -, rfl⟩ := Option.map_eq_some_iff.mp hstep
  have hself : QuietStep d { d with server := s } :=
    ⟨⟨id, (List.map_id _).symm, Viewer.offered_self⟩, rfl, id⟩
  rcases Server.outputs_cases d.server a with hout | ⟨out, hout⟩ <;> rw [hout]
  · exact hself
  · cases out with
    | control room c => exact hself.send rfl room (countsTold_viewerControl c)
    | ingest stored =>
      -- the item is queued, and no task sends it yet
      have hqueue := quietStep_setWorker (d := d) (n := roomShard stored.item.room)
        (w := (d.workers (roomShard stored.item.room)).enqueue stored.item) id
      exact ⟨hqueue.viewers, rfl, hqueue.emits⟩

theorem quietStep_worker {n : ℕ} {a : WorkerAction} (hstep : d.stepWorker n a = some d')
    (hemits : ∀ n, ∀ e ∈ (d.workers n).emits, countsTold e.2 = []) : QuietStep d d' := by
  cases stepWorker_cases hstep with
  | drain more hidle hmore => exact quietStep_setWorker id
  | handle item rest hrest hbatch =>
    apply quietStep_setWorker
    intro _ e he
    exact forall_fanoutItem (P := fun msg => countsTold msg = []) countsTold_bytes
      countsTold_sizeControl he
  | emit e rest hrest =>
    have he : countsTold e.2 = [] := by
      apply hemits n e
      rw [hrest]
      exact List.mem_cons_self
    have hset : QuietStep d (d.setWorker n ((d.workers n).emit e rest)) := by
      apply quietStep_setWorker
      intro hall e' he'
      apply hall
      rw [hrest]
      exact List.mem_cons_of_mem e he'
    exact hset.send rfl e.1 he
  | flush room p hrest hbatch hp =>
    apply quietStep_setWorker
    intro _ e he
    exact forall_flush (P := fun msg => countsTold msg = []) countsTold_bytes he

end Delivery

end Shellshare
