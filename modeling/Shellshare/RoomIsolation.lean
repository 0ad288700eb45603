import Shellshare.ViewerFeed

/-! Which bytes can reach a viewer: only those stored in its own room, in whole
payloads, whichever tasks and connections run beside. -/
namespace Shellshare
open FrameCoalescing TransitionRuns

/-- The bytes are payloads that were stored in the room, put together whole. -/
def WholePayloads (s : Server) (room : RoomId) (bytes : Bytes) : Prop :=
  ∃ group : List Bytes, bytes = group.flatten ∧ ∀ g ∈ group, g ∈ Server.payloads (s.appendedTo room)

theorem WholePayloads.mono {s s' : Server} {room : RoomId} {bytes : Bytes}
    (h : WholePayloads s room bytes) (hgrow : s.appendedTo room <+: s'.appendedTo room) :
    WholePayloads s' room bytes := by
  obtain ⟨group, hbytes, hgroup⟩ := h
  exact ⟨group, hbytes, fun g hg => (hgrow.filterMap _).subset (hgroup g hg)⟩

theorem WholePayloads.flatten {s : Server} {room : RoomId} {parts : List Bytes}
    (h : ∀ part ∈ parts, WholePayloads s room part) : WholePayloads s room parts.flatten := by
  induction parts with
  | nil => exact ⟨[], rfl, nofun⟩
  | cons part parts ih =>
    obtain ⟨group, hpart, hgroup⟩ := h part List.mem_cons_self
    obtain ⟨others, hparts, hothers⟩ := ih fun p hp => h p (List.mem_cons_of_mem part hp)
    refine ⟨group ++ others, ?_, ?_⟩
    · rw [List.flatten_cons, List.flatten_append, hpart, hparts]
    · intro g hg
      rcases List.mem_append.mp hg with hg | hg
      · exact hgroup g hg
      · exact hothers g hg

namespace Server

/-- The history that a snapshot serves is of whole payloads. -/
theorem HistoriesKept.snapshot {s : Server} (h : s.HistoriesKept) {room : RoomId} {now : ℕ}
    {history : Bytes} (hs : (s.rooms.snapshot now room).bind RoomSnapshot.history = some history) :
    WholePayloads s room history := by
  obtain ⟨snapshot, hsnap, hhistory⟩ := Option.bind_eq_some_iff.mp hs
  obtain ⟨entry, hentry, rfl⟩ := Option.map_eq_some_iff.mp hsnap
  obtain ⟨messages, hsuffix, hholds⟩ := h.window room ⟨entry.messages, entry.size⟩
    (by rw [Rooms.content, hentry]; rfl)
  have haccumulated : entry.messages.accumulated = some history := hhistory
  rw [MessageHistory.accumulated] at haccumulated
  split_ifs at haccumulated
  refine ⟨entry.messages.chunks, (Option.some.inj haccumulated).symm, fun g hg => ?_⟩
  -- what is kept is a suffix of the messages, without the empty ones
  have hmem := hholds.window.suffix.subset hg
  exact hsuffix.subset (List.mem_filter.mp hmem).1

end Server

namespace Delivery

variable {roomShard : RoomId → ℕ} {d d' : Delivery}

/-- What holds of viewer delivery in every state: every viewer follows its room from
some point on, and was greeted with a history of its room. -/
structure Isolated (roomShard : RoomId → ℕ) (d : Delivery) : Prop where
  histories : d.server.HistoriesKept
  fanout : ∀ room, FanoutKept roomShard room d
  feeds : ∀ k v, d.viewers[k]? = some v → ∃ queued, Feeds roomShard v.room queued k d
  greeted : ∀ v ∈ d.viewers, ∀ history, v.past.snapshot.bind RoomSnapshot.history = some history →
    WholePayloads d.server v.room history

theorem isolated_init (roomShard : RoomId → ℕ) (ttl : ℕ) : Isolated roomShard (init ttl) :=
  ⟨Server.historiesKept_init ttl, fun room => fanoutKept_init roomShard room ttl,
    fun k v hv => by simp [init] at hv, fun v hv => (by cases hv)⟩

/-- A viewer keeps its room over a step, and its snapshot unless it takes it now. -/
def Carried (d d' : Delivery) (v v' : Viewer) : Prop :=
  v'.room = v.room ∧
    ((v'.past.snapshot = v.past.snapshot ∧ (v'.phase ≠ .registered → v.phase ≠ .registered)) ∨
    (v'.past.snapshot = d.server.rooms.snapshot d.server.now v.room ∧ v.phase = .registered ∧
      d'.server = d.server))

/-- What a step does to the viewers: one may move, one may join, all may be sent to. -/
theorem viewers_step (hkept : ∀ v ∈ d.viewers, v.Kept) {a : DeliveryAction}
    (hstep : d.step roomShard a = some d') {k : ℕ} {v' : Viewer}
    (hv' : d'.viewers[k]? = some v') :
    (∃ v, d.viewers[k]? = some v ∧ Carried d d' v v') ∨
    (∃ room, a = .join room ∧ k = d.viewers.length ∧ v' = Viewer.join room) := by
  have hsend : ∀ {e : Delivery} {r : RoomId} {msg : ViewerMsg}, e.viewers = d.viewers →
      (e.send r msg).viewers[k]? = some v' → ∃ v, d.viewers[k]? = some v ∧ Carried d d' v v' := by
    intro e r msg he hmem
    rw [send, List.getElem?_map, he] at hmem
    obtain ⟨v, hv, rfl⟩ := Option.map_eq_some_iff.mp hmem
    refine ⟨v, hv, ?_, Or.inl ⟨?_, ?_⟩⟩
    · split_ifs <;> simp
    · split_ifs <;> simp
    · split_ifs <;> simp
  have hkeep : ∀ {e : Delivery}, e.viewers = d.viewers → e.viewers[k]? = some v' →
      ∃ v, d.viewers[k]? = some v ∧ Carried d d' v v' :=
    fun he hmem => ⟨v', he ▸ hmem, rfl, Or.inl ⟨rfl, id⟩⟩
  cases a with
  | server a =>
    obtain ⟨s, hs, rfl⟩ := Option.map_eq_some_iff.mp hstep
    rcases d.server.outputs_cases a with hout | ⟨out, hout⟩ <;> rw [hout] at hv'
    · exact Or.inl (hkeep rfl hv')
    · cases out with
      | control r c => exact Or.inl (hsend rfl hv')
      | ingest stored => exact Or.inl (hkeep rfl hv')
  | worker n a =>
    cases stepWorker_cases hstep with
    | drain more hidle hmore => exact Or.inl (hkeep rfl hv')
    | handle item rest hemits hbatch => exact Or.inl (hkeep rfl hv')
    | emit e rest hemits => exact Or.inl (hsend rfl hv')
    | flush r p hemits hbatch hp => exact Or.inl (hkeep rfl hv')
  | join room =>
    obtain rfl := Option.some.inj hstep
    rw [List.getElem?_append] at hv'
    split_ifs at hv' with hlt
    · exact Or.inl ⟨v', hv', rfl, Or.inl ⟨rfl, id⟩⟩
    · rw [List.getElem?_singleton] at hv'
      split_ifs at hv' with hlast
      exact Or.inr ⟨room, rfl, by omega, (Option.some.inj hv').symm⟩
  | viewer j a =>
    obtain ⟨v, hv, hstep⟩ := Option.bind_eq_some_iff.mp hstep
    obtain ⟨u, hmove, hviewers, hserver, -⟩ := stepViewer_moves hstep
    rw [hviewers] at hv'
    by_cases hjk : j = k
    · subst hjk
      obtain rfl : u = v' := by
        have hlt := (List.getElem?_eq_some_iff.mp hv).1
        simpa [hlt] using hv'
      refine Or.inl ⟨v, hv, hmove.room_eq.1, ?_⟩
      rcases hmove.past_eq (hkept v (List.mem_of_getElem? hv)) with ⟨hp, hsnap, -⟩ |
        ⟨hsnap, -, hphase⟩
      · exact Or.inr ⟨hsnap, hp, hserver⟩
      · exact Or.inl ⟨hsnap, hphase⟩
    · rw [List.getElem?_set_ne hjk] at hv'
      exact Or.inl ⟨v', hv', rfl, Or.inl ⟨rfl, id⟩⟩
  | counts a =>
    cases stepCounts_cases hstep with
    | drain more hrooms hreading hmore => exact Or.inl (hkeep rfl hv')
    | read r hroom hreading => exact Or.inl (hkeep rfl hv')
    | announce r n hreading => exact Or.inl (hsend rfl hv')

theorem appendedTo_grows {a : DeliveryAction} (hstep : d.step roomShard a = some d')
    (room : RoomId) : d.server.appendedTo room <+: d'.server.appendedTo room := by
  by_cases ha : ∃ act, a = .server act
  · obtain ⟨act, rfl⟩ := ha
    obtain ⟨items, -, happ, -⟩ := Server.content_step (server_of_step hstep) room
    rw [happ]
    exact List.prefix_append _ _
  · rw [server_of_other (fun act heq => ha ⟨act, heq⟩) hstep]

/-- The step lemma of isolation. -/
theorem isolated_step (h : Isolated roomShard d) {a : DeliveryAction}
    (hstep : d.step roomShard a = some d') : Isolated roomShard d' := by
  have hviewers : ∀ v ∈ d.viewers, v.Kept := fun v hv => (h.fanout v.room).viewers v hv
  refine ⟨?_, fun room => fanoutKept_step (h.fanout room) hstep, fun k v' hv' => ?_,
    fun v' hv' history hhistory => ?_⟩
  · by_cases ha : ∃ act, a = .server act
    · obtain ⟨act, rfl⟩ := ha
      exact Server.historiesKept_step h.histories (server_of_step hstep)
    · rw [server_of_other (fun act heq => ha ⟨act, heq⟩) hstep]
      exact h.histories
  · rcases viewers_step hviewers hstep hv' with ⟨v, hv, hroom, -⟩ | ⟨room, rfl, rfl, rfl⟩
    · obtain ⟨queued, hfeeds⟩ := h.feeds k v hv
      exact ⟨queued, hroom ▸ feeds_step (h.fanout v.room) hfeeds hstep⟩
    · obtain rfl := Option.some.inj hstep
      exact ⟨_, feeds_join (h.fanout room)⟩
  · obtain ⟨k, hk⟩ := List.mem_iff_getElem?.mp hv'
    rcases viewers_step hviewers hstep hk with ⟨v, hv, hroom, hsnap⟩ | ⟨room, -, -, rfl⟩
    · have hgrow := appendedTo_grows hstep v.room
      rw [hroom]
      rcases hsnap with ⟨hsnap, -⟩ | ⟨hsnap, -, hserver⟩
      · rw [hsnap] at hhistory
        exact (h.greeted v (List.mem_of_getElem? hv) history hhistory).mono hgrow
      · -- the snapshot is taken in this step, of what the room retains now
        rw [hsnap] at hhistory
        exact (h.histories.snapshot hhistory).mono hgrow
    · cases hhistory

/-- Every payload of a viewer's queue was put together from whole payloads of its room. -/
theorem Isolated.offered (h : Isolated roomShard d) {v : Viewer} (hv : v ∈ d.viewers)
    {payload : Bytes} (hmem : Frame.bytes payload ∈ v.past.offered) :
    WholePayloads d.server v.room payload := by
  obtain ⟨k, hk⟩ := List.mem_iff_getElem?.mp hv
  obtain ⟨queued, u, hu, -, earlier, later, hsplit, hpending, -⟩ := h.feeds k v hk
  obtain rfl : v = u := Option.some.inj (hk.symm.trans hu)
  obtain ⟨J, hJ, hcoalesces, -⟩ := hpending.buffered
  have hsent : Frame.bytes payload ∈ v.past.offered.filter isIngest ++
      sentTo v.room (d.workers (roomShard v.room)).emits :=
    List.mem_append_left _ (List.mem_filter.mpr ⟨hmem, rfl⟩)
  obtain ⟨group, -, -, hflat, hwhole⟩ := hcoalesces.whole hsent
  refine ⟨group, hflat, fun g hg => ?_⟩
  -- the group stands among what the room's task handled, which has been stored
  have hlater : Frame.bytes g ∈ later := by
    rw [hJ]
    exact List.mem_append_left _ (hwhole.subset (List.mem_map_of_mem hg))
  have hhandled : Frame.bytes g ∈ uncoalesced v.room (d.server.queued.map Stored.item) := by
    rw [← uncoalesced_queued_shard ((h.fanout v.room).workers (roomShard v.room)),
      uncoalesced_append]
    apply List.mem_append_left
    exact (show uncoalesced v.room _ = _ from hsplit) ▸ List.mem_append_right earlier hlater
  have hpay : g ∈ (uncoalesced v.room (d.server.queued.map Stored.item)).filterMap payloadOf :=
    List.mem_filterMap.mpr ⟨_, hhandled, rfl⟩
  rw [payloads_uncoalesced] at hpay
  obtain ⟨item, hitem, hpayload⟩ := List.mem_filterMap.mp hpay
  obtain ⟨hitem, hroom⟩ := List.mem_filter.mp hitem
  obtain ⟨stored, hstored, rfl⟩ := List.mem_map.mp hitem
  have happ := (h.fanout v.room).accounted.once.subset (List.mem_append_left _ hstored)
  exact List.mem_filterMap.mpr ⟨stored.item,
    List.mem_filter.mpr ⟨List.mem_map_of_mem happ, hroom⟩, hpayload⟩

theorem history_of_mem {snapshot : Option RoomSnapshot} {payload : Bytes}
    (hmem : Frame.bytes payload ∈ catchUpFrames snapshot) :
    snapshot.bind RoomSnapshot.history = some payload := by
  unfold catchUpFrames at hmem
  generalize snapshot.bind RoomSnapshot.size = size at hmem
  generalize snapshot.bind RoomSnapshot.history = history at hmem ⊢
  cases size <;> cases history <;> simp_all

/-- Each byte frame on the viewer's socket is made of whole payloads of the room. -/
theorem Isolated.received (h : Isolated roomShard d) {v : Viewer} (hv : v ∈ d.viewers)
    {payload : Bytes} (hmem : Frame.bytes payload ∈ v.received) :
    WholePayloads d.server v.room payload := by
  have hkept := (h.fanout v.room).viewers v hv
  obtain ⟨frames, hrelayed, hmerging⟩ := hkept.relayed
  have hout : Frame.bytes payload ∈ v.past.catchUp ++ frames :=
    hrelayed ▸ List.mem_append_left _ hmem
  rcases List.mem_append.mp hout with hcatch | hframe
  · by_cases hp : v.phase = .registered
    · rw [hkept.fresh hp] at hcatch
      cases hcatch
    · -- of what greets a viewer only the history is bytes
      obtain ⟨counts, hcounts, hsplit⟩ := hkept.caught hp
      rw [hsplit] at hcatch
      have hhistory : v.past.snapshot.bind RoomSnapshot.history = some payload := by
        rcases List.mem_append.mp hcatch with hcatch | hcount
        · exact history_of_mem hcatch
        · obtain ⟨n, hn⟩ := hcounts _ hcount
          cases hn
      exact h.greeted v hv payload hhistory
  · obtain ⟨J, hJ, hcoalesces, -⟩ := hmerging.buffered
    obtain ⟨group, -, -, rfl, hwhole⟩ := hcoalesces.whole hframe
    apply WholePayloads.flatten
    intro part hpart
    apply h.offered hv
    have hconsumed : Frame.bytes part ∈ v.past.consumed := by
      rw [hJ]
      exact List.mem_append_left _ (hwhole.subset (List.mem_map_of_mem hpart))
    exact (List.prefix_append _ _ |>.trans hkept.queue).subset hconsumed

/-- No viewer has been sent a byte that was not stored in its own room, nor part of a
payload without the rest. -/
def OwnRoomOnly (d : Delivery) : Prop :=
  ∀ v ∈ d.viewers, ∀ payload, Frame.bytes payload ∈ v.received →
    WholePayloads d.server v.room payload

/-- Rooms share shards, tasks and batches, and yet no viewer ever sees another room. -/
theorem viewers_isolated (roomShard : RoomId → ℕ) (ttl : ℕ) (as : List DeliveryAction) :
    StatesSatisfy (step roomShard) OwnRoomOnly (init ttl) as :=
  states_of_invariant (I := Isolated roomShard) (fun _ _ _ h _ hstep => isolated_step h hstep)
    (fun _ h _ hv _ hmem => h.received hv hmem) (isolated_init roomShard ttl)
    (stepsSatisfy_of_forall (fun _ _ => trivial) _ as)

end Delivery

end Shellshare
