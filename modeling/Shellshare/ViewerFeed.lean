import Shellshare.ViewerJoin

/-! What a viewer is sent of its room, with nothing assumed of the room: whichever
connections broadcast in it, and whether it is reset, deleted or evicted meanwhile. -/
namespace Shellshare
open FrameCoalescing TransitionRuns

/-- The viewer as if its snapshot had been taken when just the `items` were stored. -/
def Viewer.seen (v : Viewer) (items : List FanoutItem) : Viewer :=
  { v with phase := .live, past := { v.past with appendedAt := items } }

@[simp] theorem Viewer.seen_room (v : Viewer) (items : List FanoutItem) :
    (v.seen items).room = v.room := rfl

theorem Viewer.seen_send (v : Viewer) (items : List FanoutItem) (msg : ViewerMsg) :
    (v.send msg).seen items = (v.seen items).send msg := by
  unfold Viewer.send seen
  dsimp only
  split_ifs <;> rfl

/-- A follower reads of the viewer only its room and what it was sent. -/
theorem Follows.of_offered {w : Worker} {v v' : Viewer} {items : List FanoutItem}
    (h : Follows w (v.seen items)) (hroom : v'.room = v.room)
    (hoffered : v'.past.offered = v.past.offered) : Follows w (v'.seen items) := by
  obtain ⟨earlier, later, hsplit, hkept, hbefore⟩ := h
  refine ⟨earlier, later, ?_, ?_, fun _ => ?_⟩
  · exact (congrArg (uncoalesced · w.handled) hroom).trans hsplit
  · change PendingKept v'.room later (v'.past.offered.filter isIngest ++ sentTo v'.room w.emits) _
    rw [hroom, hoffered]
    exact hkept
  · change earlier <+: uncoalesced v'.room items
    rw [hroom]
    exact hbefore nofun

/-- Every fan-out task works off its own queue in order, and no viewer's queue has
a gap. -/
structure FanoutKept (roomShard : RoomId → ℕ) (room : RoomId) (d : Delivery) : Prop where
  accounted : d.server.Accounted
  workers : ∀ n, (d.workers n).Kept room
    ((d.server.queued.map Stored.item).filter fun item => roomShard item.room = n)
  viewers : ∀ v ∈ d.viewers, v.Kept

namespace Delivery

variable {roomShard : RoomId → ℕ} {room : RoomId} {d d' : Delivery}

theorem dispatch_server (d : Delivery) (out : Output) :
    (d.dispatch roomShard out).server = d.server := by
  cases out <;> rfl

theorem server_of_step {a : Action}
    (hstep : d.step roomShard (.server a) = some d') : d.server.step a = some d'.server := by
  obtain ⟨s, hs, rfl⟩ := Option.map_eq_some_iff.mp hstep
  rw [hs]
  rcases d.server.outputs_cases a with hout | ⟨out, hout⟩ <;> rw [hout]
  · rfl
  · rw [List.foldl_cons, List.foldl_nil, dispatch_server]

/-- Only its own steps move the server. -/
theorem server_of_other {a : DeliveryAction}
    (ha : ∀ act, a ≠ .server act) (hstep : d.step roomShard a = some d') :
    d'.server = d.server := by
  cases a with
  | server act => exact absurd rfl (ha act)
  | worker n a =>
    cases stepWorker_cases hstep <;> rfl
  | join r => rw [← Option.some.inj hstep]
  | viewer k a =>
    obtain ⟨v, -, hstep⟩ := Option.bind_eq_some_iff.mp hstep
    obtain ⟨-, -, -, hserver, -⟩ := stepViewer_moves hstep
    exact hserver
  | counts a =>
    cases stepCounts_cases hstep <;> rfl

theorem fanoutKept_init (roomShard : RoomId → ℕ) (room : RoomId) (ttl : ℕ) :
    FanoutKept roomShard room (init ttl) :=
  ⟨Server.accounted_init ttl, fun _ => Worker.kept_init room, fun _ hv => (by cases hv)⟩

theorem fanoutKept_send (h : FanoutKept roomShard room d) (r : RoomId) (msg : ViewerMsg) :
    FanoutKept roomShard room (d.send r msg) := by
  refine ⟨h.accounted, h.workers, fun v' hv => ?_⟩
  obtain ⟨v, hmem, rfl⟩ := mem_send hv
  split_ifs
  · exact (h.viewers v hmem).send msg
  · exact h.viewers v hmem

theorem fanoutKept_setWorker (h : FanoutKept roomShard room d) {n : ℕ} {w : Worker}
    (hw : w.Kept room
      ((d.server.queued.map Stored.item).filter fun item => roomShard item.room = n)) :
    FanoutKept roomShard room (d.setWorker n w) := by
  refine ⟨h.accounted, fun m => ?_, h.viewers⟩
  by_cases hm : m = n
  · subst hm
    simpa [setWorker] using hw
  · simpa [setWorker, hm] using h.workers m

/-- A task's queue after a publication: only the shard of the item's room gets it. -/
theorem kept_enqueue {n : ℕ} {w : Worker} {queued : List Stored} (stored : Stored)
    (h : w.Kept room ((queued.map Stored.item).filter fun item => roomShard item.room = n)) :
    (if n = roomShard stored.item.room then w.enqueue stored.item else w).Kept room
      (((queued ++ [stored]).map Stored.item).filter fun item => roomShard item.room = n) := by
  rw [List.map_append, List.filter_append]
  split_ifs with hn
  · subst hn
    simpa using h.enqueue stored.item
  · simpa [Ne.symm hn] using h

theorem fanoutKept_server (h : FanoutKept roomShard room d) {a : Action} {s : Server}
    (hstep : d.server.step a = some s) :
    FanoutKept roomShard room
      ((d.server.outputs a).foldl (dispatch roomShard) { d with server := s }) := by
  have hacc := Server.accounted_step h.accounted hstep
  have hpub : s.queued = d.server.queued ++ (d.server.outputs a).filterMap Output.stored := by
    rw [Server.queued, Server.published_outputs hstep, List.filterMap_append]
    rfl
  -- unless an item is queued, the workers are where they were
  have hquiet : s.queued = d.server.queued →
      FanoutKept roomShard room { d with server := s } := by
    intro hq
    refine ⟨hacc, fun n => ?_, h.viewers⟩
    change (d.workers n).Kept room ((s.queued.map Stored.item).filter _)
    rw [hq]
    exact h.workers n
  rcases Server.outputs_cases d.server a with hout | ⟨out, hout⟩ <;> rw [hout] at hpub ⊢
  · exact hquiet (by simpa using hpub)
  · cases out with
    | control r c => exact fanoutKept_send (hquiet (hpub.trans (List.append_nil _))) r _
    | ingest stored =>
      refine ⟨hacc, fun n => ?_, h.viewers⟩
      have hq : s.queued = d.server.queued ++ [stored] := hpub
      change (Function.update d.workers (roomShard stored.item.room)
        ((d.workers (roomShard stored.item.room)).enqueue stored.item) n).Kept room
          ((s.queued.map Stored.item).filter _)
      rw [hq, Function.update_apply]
      have hkept := kept_enqueue stored (h.workers n)
      split_ifs at hkept ⊢ with hn
      · subst hn
        exact hkept
      · exact hkept

theorem fanoutKept_worker (h : FanoutKept roomShard room d) {n : ℕ} {a : WorkerAction}
    (hstep : d.stepWorker n a = some d') : FanoutKept roomShard room d' := by
  cases stepWorker_cases hstep with
  | drain more hidle hmore => exact fanoutKept_setWorker h ((h.workers n).drain hidle more)
  | handle item rest hemits hbatch =>
    exact fanoutKept_setWorker h ((h.workers n).handle hemits hbatch)
  | emit e rest hemits =>
    exact fanoutKept_send (fanoutKept_setWorker h ((h.workers n).emit hemits)) e.1 e.2
  | flush r p hemits hbatch hp =>
    exact fanoutKept_setWorker h ((h.workers n).flushRoom hemits hp)

theorem fanoutKept_viewer (h : FanoutKept roomShard room d) {k : ℕ} {v : Viewer}
    {a : ViewerAction} (hv : d.viewers[k]? = some v) (hstep : d.stepViewer k v a = some d') :
    FanoutKept roomShard room d' := by
  obtain ⟨v', hmove, hviewers, hserver, hworkers⟩ := stepViewer_moves hstep
  refine ⟨by rw [hserver]; exact h.accounted, by rw [hserver, hworkers]; exact h.workers, ?_⟩
  intro u hu
  rw [hviewers] at hu
  rcases List.mem_or_eq_of_mem_set hu with hu | rfl
  · exact h.viewers u hu
  · exact (h.viewers v (List.mem_of_getElem? hv)).moves hmove

theorem fanoutKept_counts (h : FanoutKept roomShard room d) {a : CountAction}
    (hstep : d.stepCounts a = some d') : FanoutKept roomShard room d' := by
  cases stepCounts_cases hstep with
  | drain more hrooms hreading hmore => exact ⟨h.accounted, h.workers, h.viewers⟩
  | read r hroom hreading => exact ⟨h.accounted, h.workers, h.viewers⟩
  | announce r n hreading =>
    have hquiet : FanoutKept roomShard room
        { d with counts := { d.counts with reading := none } } :=
      ⟨h.accounted, h.workers, h.viewers⟩
    exact fanoutKept_send hquiet r _

theorem fanoutKept_step (h : FanoutKept roomShard room d) {a : DeliveryAction}
    (hstep : d.step roomShard a = some d') : FanoutKept roomShard room d' := by
  cases a with
  | server a =>
    obtain ⟨s, hs, rfl⟩ := Option.map_eq_some_iff.mp hstep
    exact fanoutKept_server h hs
  | worker n a => exact fanoutKept_worker h hstep
  | join r =>
    obtain rfl := Option.some.inj hstep
    refine ⟨h.accounted, h.workers, fun v hv => ?_⟩
    rcases List.mem_append.mp hv with hv | hv
    · exact h.viewers v hv
    · obtain rfl := List.mem_singleton.mp hv
      exact Viewer.kept_join r
  | viewer k a =>
    obtain ⟨v, hv, hstep⟩ := Option.bind_eq_some_iff.mp hstep
    exact fanoutKept_viewer h hv hstep
  | counts a => exact fanoutKept_counts h hstep

/-- The items of a room are all on the room's own shard. -/
theorem uncoalesced_queued_shard {w : Worker} {items : List FanoutItem}
    (h : w.Kept room (items.filter fun item => roomShard item.room = roomShard room)) :
    uncoalesced room (w.handled ++ (w.batch ++ w.queue)) = uncoalesced room items := by
  rw [← h.queued]
  simp only [uncoalesced, List.filter_filter]
  congr 1
  apply List.filter_congr
  intro item _
  by_cases hr : item.room = room <;> simp [hr]

/-- The `k`-th viewer is in the room and follows the room's fan-out task: it is sent all
the task handles but items among those `queued` when it joined. -/
def Feeds (roomShard : RoomId → ℕ) (room : RoomId) (queued : List FanoutItem) (k : ℕ)
    (d : Delivery) : Prop :=
  ∃ v, d.viewers[k]? = some v ∧ v.room = room ∧
    Follows (d.workers (roomShard room)) (v.seen queued)

section Feeds
variable {queued : List FanoutItem} {k : ℕ}

/-- A message leaves a viewer a follower when the task that is behind it has moved
along with it. -/
theorem feeds_send {w : Worker} {v : Viewer} (hv : d.viewers[k]? = some v) (hroom : v.room = room)
    {r : RoomId} {msg : ViewerMsg}
    (hfollows : Follows w (if v.room = r then (v.seen queued).send msg else v.seen queued)) :
    ∃ v', (d.send r msg).viewers[k]? = some v' ∧ v'.room = room ∧ Follows w (v'.seen queued) := by
  refine ⟨if v.room = r then v.send msg else v, ?_, ?_, ?_⟩
  · rw [send, List.getElem?_map, hv]
    rfl
  · split_ifs
    · rw [Viewer.send_room, hroom]
    · exact hroom
  · split_ifs at hfollows ⊢
    · rw [Viewer.seen_send]
      exact hfollows
    · exact hfollows

theorem feeds_control (h : Feeds roomShard room queued k d) (r : RoomId) {msg : ViewerMsg}
    (hmsg : isIngest msg = false) : Feeds roomShard room queued k (d.send r msg) := by
  obtain ⟨v, hv, hroom, hfollows⟩ := h
  apply feeds_send hv hroom
  split_ifs
  · exact hfollows.send_control hmsg
  · exact hfollows

theorem feeds_setWorker (h : Feeds roomShard room queued k d) {n : ℕ} {w : Worker}
    (hw : ∀ v, Follows (d.workers n) v → Follows w v) :
    Feeds roomShard room queued k (d.setWorker n w) := by
  obtain ⟨v, hv, hroom, hfollows⟩ := h
  refine ⟨v, hv, hroom, ?_⟩
  by_cases hn : roomShard room = n
  · subst hn
    simpa [setWorker] using hw _ hfollows
  · simpa [setWorker, hn] using hfollows

/-- Only the task of the room's shard sends it bytes and sizes. -/
theorem own_shard_of_emit (h : FanoutKept roomShard room d) {n : ℕ} {e : Emission}
    {rest : List Emission} (hemits : (d.workers n).emits = e :: rest) (he : e.1 = room) :
    n = roomShard room := by
  by_contra hne
  have hnone : uncoalesced room
      ((d.server.queued.map Stored.item).filter fun item => roomShard item.room = n) = [] := by
    rw [uncoalesced, List.flatMap_eq_nil_iff]
    intro item hitem
    obtain ⟨hitem, hroom⟩ := List.mem_filter.mp hitem
    have hshard := of_decide_eq_true (List.mem_filter.mp hitem).2
    exact absurd (hshard.symm.trans (by rw [of_decide_eq_true hroom])) hne
  have hsent := (h.workers n).sentTo_eq_nil hnone
  rw [hemits, sentTo_cons, sentTo_singleton, if_pos he] at hsent
  cases hsent

theorem feeds_worker (hkept : FanoutKept roomShard room d) (h : Feeds roomShard room queued k d)
    {n : ℕ} {a : WorkerAction} (hstep : d.stepWorker n a = some d') :
    Feeds roomShard room queued k d' := by
  cases stepWorker_cases hstep with
  | drain more hidle hmore => exact feeds_setWorker h fun v hv => hv.of_same rfl rfl rfl
  | handle item rest hemits hbatch => exact feeds_setWorker h fun v hv => hv.handle hemits item rest
  | emit e rest hemits =>
    obtain ⟨v, hv, hroom, hfollows⟩ := h
    have hingest : isIngest e.2 = true := (hkept.workers n).ingest e (by rw [hemits]; simp)
    apply feeds_send (d := d.setWorker n ((d.workers n).emit e rest)) hv hroom
    by_cases hn : roomShard room = n
    · subst hn
      have hemit : Follows ((d.workers (roomShard room)).emit e rest)
          (if v.room = e.1 then (v.seen queued).send e.2 else v.seen queued) :=
        hfollows.emit hemits hingest
      simpa [send, setWorker] using hemit
    · -- another shard's task has nothing for this viewer
      have hne : v.room ≠ e.1 := fun heq => hn (own_shard_of_emit hkept hemits (heq ▸ hroom)).symm
      simpa [send, setWorker, hn, hne] using hfollows
  | flush r p hemits hbatch hp => exact feeds_setWorker h fun v hv => hv.flushRoom hemits hp

theorem feeds_server (h : Feeds roomShard room queued k d) {a : Action} {s : Server} :
    Feeds roomShard room queued k
      ((d.server.outputs a).foldl (dispatch roomShard) { d with server := s }) := by
  have hserver : Feeds roomShard room queued k { d with server := s } := h
  rcases Server.outputs_cases d.server a with hout | ⟨out, hout⟩ <;> rw [hout]
  · exact hserver
  · cases out with
    | control r c =>
      apply feeds_control hserver r
      cases c <;> rfl
    | ingest stored => exact feeds_setWorker hserver fun v hv => hv.of_same rfl rfl rfl

theorem feeds_viewer (h : Feeds roomShard room queued k d) {j : ℕ} {v : Viewer} {a : ViewerAction}
    (hv : d.viewers[j]? = some v) (hstep : d.stepViewer j v a = some d') :
    Feeds roomShard room queued k d' := by
  obtain ⟨u, hu, hroom, hfollows⟩ := h
  obtain ⟨v', hmove, hviewers, -, hworkers⟩ := stepViewer_moves hstep
  rw [Feeds, hviewers, hworkers]
  by_cases hjk : j = k
  · subst hjk
    obtain rfl : v = u := Option.some.inj (hv.symm.trans hu)
    have hlt := (List.getElem?_eq_some_iff.mp hv).1
    obtain ⟨hsame, hoffered⟩ := hmove.room_eq
    exact ⟨v', by simp [hlt], hsame.trans hroom, hfollows.of_offered hsame hoffered⟩
  · exact ⟨u, by rw [List.getElem?_set_ne hjk]; exact hu, hroom, hfollows⟩

/-- The step lemma of one viewer's feed. -/
theorem feeds_step (hkept : FanoutKept roomShard room d) (h : Feeds roomShard room queued k d)
    {a : DeliveryAction} (hstep : d.step roomShard a = some d') :
    Feeds roomShard room queued k d' := by
  cases a with
  | server a =>
    obtain ⟨s, hs, rfl⟩ := Option.map_eq_some_iff.mp hstep
    exact feeds_server h
  | worker n a => exact feeds_worker hkept h hstep
  | join r =>
    obtain rfl := Option.some.inj hstep
    obtain ⟨v, hv, hroom, hfollows⟩ := h
    have hlt := (List.getElem?_eq_some_iff.mp hv).1
    exact ⟨v, by rw [List.getElem?_append_left hlt]; exact hv, hroom, hfollows⟩
  | viewer j a =>
    obtain ⟨v, hv, hstep⟩ := Option.bind_eq_some_iff.mp hstep
    exact feeds_viewer h hv hstep
  | counts a =>
    cases stepCounts_cases hstep with
    | drain more hrooms hreading hmore => exact h
    | read r hroom hreading => exact h
    | announce r n hreading =>
      have hquiet : Feeds roomShard room queued k
          { d with counts := { d.counts with reading := none } } := h
      exact feeds_control hquiet r rfl

/-- A viewer that joins follows the room from what is queued now. -/
theorem feeds_join (hkept : FanoutKept roomShard room d) :
    Feeds roomShard room (d.server.queued.map Stored.item) d.viewers.length
      { d with viewers := d.viewers ++ [Viewer.join room] } := by
  refine ⟨Viewer.join room, by simp, rfl, ?_⟩
  have hworker := hkept.workers (roomShard room)
  obtain ⟨earlier, later, hsplit, hpending, -⟩ := hworker.follows_join
  refine ⟨earlier, later, hsplit, hpending, fun _ => ?_⟩
  have hhandled : uncoalesced room (d.workers (roomShard room)).handled <+:
      uncoalesced room (d.server.queued.map Stored.item) := by
    rw [← uncoalesced_queued_shard hworker, uncoalesced_append]
    exact List.prefix_append _ _
  exact (hsplit ▸ List.prefix_append earlier later).trans hhandled

/-- Where a viewer's feed starts and what it carries: of all that is queued for its
room, a part from its front that was queued by the join is not sent to the viewer, and
the `later` rest is what follows its catch-up, sent or on its way. -/
theorem received_of_feeds {v : Viewer} (hkept : FanoutKept roomShard v.room d)
    (hv : v ∈ d.viewers) (hfollows : Follows (d.workers (roomShard v.room)) (v.seen queued)) :
    ∃ rest earlier later,
      earlier ++ later = uncoalesced v.room (d.server.queued.map Stored.item) ∧
      earlier <+: uncoalesced v.room queued ∧
      (∀ {β : Type} {g : ViewerMsg → List β}, SeesItems g →
        (v.received ++ rest).flatMap g = v.past.catchUp.flatMap g ++ later.flatMap g) ∧
      (Drained roomShard d v → rest = []) := by
  have hviewer := hkept.viewers v hv
  obtain ⟨earlier, later, hsplit, hpending, hbefore⟩ := hfollows
  have hqueued := uncoalesced_queued_shard (hkept.workers (roomShard v.room))
  have hsplit : uncoalesced v.room (d.workers (roomShard v.room)).handled = earlier ++ later :=
    hsplit
  have hpending : PendingKept v.room later (v.past.offered.filter isIngest ++
      sentTo v.room (d.workers (roomShard v.room)).emits)
      (d.workers (roomShard v.room)).pending := hpending
  rw [uncoalesced_append, hsplit, List.append_assoc] at hqueued
  let w := d.workers (roomShard v.room)
  let ahead := uncoalesced v.room (w.batch ++ w.queue)
  refine ⟨v.outbox ++ v.merging.chunks.map Frame.bytes ++
    v.past.offered.drop v.past.consumed.length ++ (sentTo v.room w.emits ++
      ((w.pending.lookup v.room).elim [] Pending.chunks).map Frame.bytes) ++ ahead,
    earlier, later ++ ahead, hqueued, hbefore nofun, ?_, ?_⟩
  · intro β g hg
    have htask := hviewer.flatMap_eq hg
    have hroom := hpending.flatMap_eq hg
    rw [List.flatMap_append] at htask hroom
    simp only [List.flatMap_append, List.append_assoc] at htask hroom ⊢
    rw [← hroom]
    have hassoc := congrArg (fun l => l ++ ((sentTo v.room w.emits).flatMap g ++
      ((((w.pending.lookup v.room).elim [] Pending.chunks).map Frame.bytes).flatMap g ++
        ahead.flatMap g))) htask
    simpa only [List.append_assoc] using hassoc
  · intro hd
    have hconsumed : v.past.consumed = v.past.offered := by
      have hwhole := hviewer.whole hd.isRegistered
      rwa [hd.received.1, List.append_nil] at hwhole
    simp [hconsumed, hd.received.2, hviewer.live hd.live, Merging.new, ahead, w, hd.queue,
      hd.batch, hd.emits, hd.pending, uncoalesced]

end Feeds

end Delivery

end Shellshare
