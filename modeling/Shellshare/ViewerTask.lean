import Shellshare.ViewerDelivery

/-! One viewer's queue and task: what it was sent is what it took from its
queue, and the queue never has a gap. -/
namespace Shellshare
open FrameCoalescing

namespace Viewer

/-- The steps of a viewer's task, given what a snapshot taken now would be. -/
inductive Moves (snapshot : Option RoomSnapshot) (appended : List FanoutItem) (v : Viewer) :
    Viewer → Prop where
  | snapshot (hp : v.phase = .registered) :
    Moves snapshot appended v (v.takeSnapshot snapshot appended)
  | transmit (frame : ViewerMsg) (rest : List ViewerMsg) (ho : v.outbox = frame :: rest) :
    Moves snapshot appended v { v with outbox := rest, received := v.received ++ [frame] }
  | fail (ho : v.outbox ≠ []) : Moves snapshot appended v { v with phase := .closing }
  | failLate (frame : ViewerMsg) (rest : List ViewerMsg) (ho : v.outbox = frame :: rest) :
    Moves snapshot appended v
      { v with phase := .closing, outbox := rest, received := v.received ++ [frame] }
  | count (n : ℕ) (hp : v.phase = .catchingUp) :
    Moves snapshot appended v (v.load [.control (usersCountControl n)] .counted)
  | notify (hp : v.phase = .counted) (ho : v.outbox = []) :
    Moves snapshot appended v { v with phase := .live }
  | relay (msg : ViewerMsg) (rest : List ViewerMsg) (hp : v.phase = .live ∨ v.phase = .relaying)
    (ho : v.outbox = []) (hq : v.queue = msg :: rest) :
    Moves snapshot appended v (v.relay msg rest)
  | settle (hp : v.phase = .relaying) (ho : v.outbox = []) : Moves snapshot appended v v.settle
  | hangUp (hp : v.phase = .live) : Moves snapshot appended v { v with phase := .closing }
  | leave (hp : v.phase = .closing) :
    Moves snapshot appended v { v with phase := .left, isRegistered := false }
  | notifyLeft (hp : v.phase = .left) : Moves snapshot appended v { v with phase := .gone }

end Viewer

/-- Before its first wake-up. -/
def ViewerPhase.early : ViewerPhase → Bool
  | .registered | .catchingUp | .counted => true
  | _ => false

namespace Viewer

/-- The queue has no gap, and the socket carries the catch-up frames and then
what the task took from the queue, merged. -/
structure Kept (v : Viewer) : Prop where
  queue : v.past.consumed ++ v.queue <+: v.past.offered
  whole : v.isRegistered = true → v.past.consumed ++ v.queue = v.past.offered
  relayed : ∃ frames, v.received ++ v.outbox = v.past.catchUp ++ frames ∧
    Merging.Kept v.past.consumed frames v.merging
  early : v.phase.early = true →
    v.received ++ v.outbox = v.past.catchUp ∧ v.past.consumed = [] ∧ v.merging = .new
  live : v.phase = .live → v.merging = .new
  caught : v.phase ≠ .registered →
    ∃ counts, (∀ f ∈ counts, ∃ n, f = .control (usersCountControl n)) ∧
      v.past.catchUp = catchUpFrames v.past.snapshot ++ counts
  fresh : v.phase = .registered → v.past.catchUp = []

theorem kept_join (room : RoomId) : (Viewer.join room).Kept :=
  ⟨List.prefix_refl _, fun _ => rfl, ⟨[], rfl, Merging.kept_new .nil⟩, fun _ => ⟨rfl, rfl, rfl⟩,
    nofun, fun h => absurd rfl h, fun _ => rfl⟩

@[simp] theorem send_room (v : Viewer) (msg : ViewerMsg) : (v.send msg).room = v.room := by
  unfold send
  dsimp only
  split_ifs <;> rfl

@[simp] theorem send_phase (v : Viewer) (msg : ViewerMsg) : (v.send msg).phase = v.phase := by
  unfold send
  dsimp only
  split_ifs <;> rfl

@[simp] theorem send_past (v : Viewer) (msg : ViewerMsg) :
    (v.send msg).past = { v.past with offered := v.past.offered ++ [msg] } := by
  unfold send
  dsimp only
  split_ifs <;> rfl

/-- A send reaches the end of the queue, or it is the first of those that the
viewer misses for good. -/
theorem Kept.send {v : Viewer} (h : v.Kept) (msg : ViewerMsg) : (v.send msg).Kept := by
  unfold Viewer.send
  dsimp only
  -- queued, dropped for a full queue, or sent to a room it is no longer in
  split_ifs with hreg hroom
  · have hall := h.whole hreg
    refine ⟨?_, fun _ => ?_, h.relayed, h.early, h.live, h.caught, h.fresh⟩
    · rw [← List.append_assoc, hall]
    · rw [← List.append_assoc, hall]
  · exact ⟨h.queue.trans (List.prefix_append _ _), nofun, h.relayed, h.early, h.live, h.caught,
      h.fresh⟩
  · refine ⟨h.queue.trans (List.prefix_append _ _), ?_, h.relayed, h.early, h.live, h.caught,
      h.fresh⟩
    exact fun hreg' => absurd hreg' hreg

theorem Moves.room_eq {snapshot : Option RoomSnapshot} {appended : List FanoutItem}
    {v v' : Viewer} (h : Moves snapshot appended v v') :
    v'.room = v.room ∧ v'.past.offered = v.past.offered := by
  cases h <;> exact ⟨rfl, rfl⟩

theorem Kept.not_registered {v : Viewer} (h : v.Kept) (ho : v.outbox ≠ []) :
    v.phase ≠ .registered := by
  intro hp
  have hout := (h.early (by rw [hp]; rfl)).1
  rw [h.fresh hp] at hout
  exact ho (List.append_eq_nil_iff.mp hout).2

/-- Only the snapshot step moves what is known of the snapshot. -/
theorem Moves.past_eq {snapshot : Option RoomSnapshot} {appended : List FanoutItem}
    {v v' : Viewer} (hkept : v.Kept) (h : Moves snapshot appended v v') :
    (v.phase = .registered ∧ v'.past.snapshot = snapshot ∧ v'.past.appendedAt = appended) ∨
    (v'.past.snapshot = v.past.snapshot ∧ v'.past.appendedAt = v.past.appendedAt ∧
      (v'.phase ≠ .registered → v.phase ≠ .registered)) := by
  have hsame : ∀ {p : ViewerPhase}, v.phase = p → p ≠ .registered → v.phase ≠ .registered :=
    fun hp hne => by rwa [hp]
  cases h with
  | snapshot hp => exact Or.inl ⟨hp, rfl, rfl⟩
  | transmit frame rest ho => exact Or.inr ⟨rfl, rfl, id⟩
  | fail ho => exact Or.inr ⟨rfl, rfl, fun _ => hkept.not_registered ho⟩
  | failLate frame rest ho =>
    exact Or.inr ⟨rfl, rfl, fun _ => hkept.not_registered (by rw [ho]; nofun)⟩
  | count n hp => exact Or.inr ⟨rfl, rfl, fun _ => hsame hp nofun⟩
  | notify hp ho => exact Or.inr ⟨rfl, rfl, fun _ => hsame hp nofun⟩
  | relay msg rest hp ho hq =>
    exact Or.inr ⟨rfl, rfl, fun _ => hp.elim (fun hp => hsame hp nofun) fun hp => hsame hp nofun⟩
  | settle hp ho => exact Or.inr ⟨rfl, rfl, fun _ => hsame hp nofun⟩
  | hangUp hp => exact Or.inr ⟨rfl, rfl, fun _ => hsame hp nofun⟩
  | leave hp => exact Or.inr ⟨rfl, rfl, fun _ => hsame hp nofun⟩
  | notifyLeft hp => exact Or.inr ⟨rfl, rfl, fun _ => hsame hp nofun⟩

/-- A task that stops sending keeps what it sent. -/
theorem Kept.stop {v : Viewer} (h : v.Kept) (hp : v.phase ≠ .registered) {phase : ViewerPhase}
    (hphase : phase.over = true) {isRegistered : Bool}
    (hreg : isRegistered = true → v.isRegistered = true) :
    Kept { v with phase := phase, isRegistered := isRegistered } := by
  refine ⟨h.queue, fun hr => h.whole (hreg hr), h.relayed, ?_, ?_, fun _ => h.caught hp, ?_⟩
  · intro hearly
    cases phase <;> simp [ViewerPhase.early, ViewerPhase.over] at hearly hphase
  · rintro rfl
    cases hphase
  · rintro rfl
    cases hphase

theorem Kept.transmit {v : Viewer} (h : v.Kept) {frame : ViewerMsg} {rest : List ViewerMsg}
    (ho : v.outbox = frame :: rest) :
    Kept { v with outbox := rest, received := v.received ++ [frame] } := by
  have hout : (v.received ++ [frame]) ++ rest = v.received ++ v.outbox := by simp [ho]
  refine ⟨h.queue, h.whole, ?_, ?_, h.live, h.caught, h.fresh⟩
  · rw [hout]
    exact h.relayed
  · rw [hout]
    exact h.early

/-- Before the first wake-up, what is loaded to send is catch-up. -/
theorem Kept.load {v : Viewer} (h : v.Kept) (hearly : v.phase.early = true)
    (frames : List ViewerMsg) {phase : ViewerPhase} (hphase : phase ≠ .registered)
    (hcaught : ∃ counts, (∀ f ∈ counts, ∃ n, f = .control (usersCountControl n)) ∧
      v.past.catchUp ++ frames = catchUpFrames v.past.snapshot ++ counts) :
    (v.load frames phase).Kept := by
  obtain ⟨hout, hcons, hnew⟩ := h.early hearly
  have hout' : v.received ++ (v.outbox ++ frames) = v.past.catchUp ++ frames := by
    rw [← List.append_assoc, hout]
  have hnil : Merging.Kept v.past.consumed [] v.merging := by
    rw [hcons, hnew]
    exact Merging.kept_new .nil
  refine ⟨h.queue, h.whole, ⟨[], ?_, hnil⟩, fun _ => ⟨hout', hcons, hnew⟩, fun _ => hnew,
    fun _ => hcaught, fun hreg => absurd hreg hphase⟩
  rw [List.append_nil]
  exact hout'

/-- The step lemma of a viewer's task. -/
theorem Kept.moves {snapshot : Option RoomSnapshot} {appended : List FanoutItem}
    {v v' : Viewer} (h : v.Kept) (hmove : Moves snapshot appended v v') : v'.Kept := by
  cases hmove with
  | snapshot hp =>
    -- nothing has been sent yet, so the catch-up is what this snapshot says
    have hseen :
        Kept { v with past := { v.past with snapshot := snapshot, appendedAt := appended } } :=
      ⟨h.queue, h.whole, h.relayed, h.early, h.live, fun hne => absurd hp hne, h.fresh⟩
    refine hseen.load (by rw [hp]; rfl) (catchUpFrames snapshot) nofun ⟨[], by simp, ?_⟩
    change v.past.catchUp ++ catchUpFrames snapshot = catchUpFrames snapshot ++ []
    rw [h.fresh hp, List.append_nil, List.nil_append]
  | transmit frame rest ho => exact h.transmit ho
  | fail ho => exact h.stop (h.not_registered ho) rfl id
  | failLate frame rest ho =>
    have hne := h.not_registered (by rw [ho]; nofun)
    exact (h.transmit ho).stop hne rfl id
  | count n hp =>
    obtain ⟨counts, hcounts, hcatch⟩ := h.caught (by rw [hp]; nofun)
    refine h.load (by rw [hp]; rfl) [.control (usersCountControl n)] nofun
      ⟨counts ++ [.control (usersCountControl n)], fun f hf => ?_, ?_⟩
    · rcases List.mem_append.mp hf with hf | hf
      · exact hcounts f hf
      · exact ⟨n, List.mem_singleton.mp hf⟩
    · rw [hcatch, List.append_assoc]
  | notify hp ho =>
    obtain ⟨hout, hcons, hnew⟩ := h.early (by rw [hp]; rfl)
    exact ⟨h.queue, h.whole, h.relayed, nofun, fun _ => hnew,
      fun _ => h.caught (by rw [hp]; nofun), nofun⟩
  | relay msg rest hp ho hq =>
    -- the message moves from the queue to what the task consumed
    have hne : v.phase ≠ .registered := by rcases hp with hp | hp <;> rw [hp] <;> nofun
    have hqueue : v.past.consumed ++ [msg] ++ rest = v.past.consumed ++ v.queue := by simp [hq]
    obtain ⟨frames, hrel, hmerge⟩ := h.relayed
    refine ⟨?_, ?_, ⟨frames ++ (v.merging.relayItem msg).1, ?_, hmerge.item msg⟩, nofun, nofun,
      fun _ => h.caught hne, nofun⟩
    · exact hqueue ▸ h.queue
    · exact fun hreg => hqueue ▸ h.whole hreg
    · rw [ho, List.append_nil] at hrel
      change v.received ++ (v.merging.relayItem msg).1 = _
      rw [hrel, List.append_assoc]
      rfl
  | settle hp ho =>
    obtain ⟨frames, hrel, hmerge⟩ := h.relayed
    obtain ⟨hflush, hnew⟩ := hmerge.flush
    refine ⟨h.queue, h.whole, ⟨frames ++ v.merging.flush.1, ?_, ?_⟩, nofun, fun _ => hnew,
      fun _ => h.caught (by rw [hp]; nofun), nofun⟩
    · rw [ho, List.append_nil] at hrel
      change v.received ++ v.merging.flush.1 = _
      rw [hrel, List.append_assoc]
      rfl
    · change Merging.Kept v.past.consumed _ v.merging.flush.2
      rw [hnew]
      exact Merging.kept_new hflush
  | hangUp hp => exact h.stop (by rw [hp]; nofun) rfl id
  | leave hp => exact h.stop (by rw [hp]; nofun) rfl nofun
  | notifyLeft hp => exact h.stop (by rw [hp]; nofun) rfl id

end Viewer

end Shellshare
