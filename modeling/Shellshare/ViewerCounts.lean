import Mathlib.Data.List.Dedup
import Shellshare.ViewerRegistry

/-! The viewer counts of a room: a count that a viewer was told last and that is
wrong by now has a notification on its way. -/
namespace Shellshare
open TransitionRuns

/-- The viewer's task has still to tell the count loop of a change: it joined and
is not through its catch-up, it was dropped, or it left. -/
def Viewer.Owes (announced : List ℕ) (k : ℕ) (v : Viewer) : Prop :=
  v.phase ≠ .gone ∧ (v.isRegistered = true → k ∉ announced)

/-- The count that is read and not yet sent is right, and without one the counts
told are. -/
structure Delivery.UpToDate (room : RoomId) (d : Delivery) : Prop where
  reading : ∀ n, d.counts.reading = some (room, n) → n = d.count room
  told : (∀ n, d.counts.reading ≠ some (room, n)) → ∀ v ∈ d.viewers, v.room = room →
    v.isRegistered = true → lastCountTold v.sent = some (.number (d.count room))

namespace Registry

/-- Nothing of the room is on its way to the count loop or in it, and no task of
the room is between its change of the membership and its notification, or was
dropped and still runs. -/
structure Quiet (room : RoomId) (g : Registry) : Prop where
  queue : room ∉ g.delivery.counts.queue
  rooms : room ∉ g.delivery.counts.rooms
  reading : ∀ n, g.delivery.counts.reading ≠ some (room, n)
  joined : ∀ k v, g.delivery.viewers[k]? = some v → v.room = room →
    k ∈ g.announced ∨ v.phase = .gone
  left : ∀ v ∈ g.delivery.viewers, v.room = room → v.phase ≠ .left
  dropped : ∀ v ∈ g.delivery.viewers, v.room = room → v.isRegistered = false → v.phase = .gone

/-- A notification for the room is on its way. -/
def Notified (room : RoomId) (g : Registry) : Prop :=
  room ∈ g.delivery.counts.queue ∨ room ∈ g.delivery.counts.rooms ∨
    ∃ (k : ℕ) (v : Viewer), g.delivery.viewers[k]? = some v ∧ v.room = room ∧ v.Owes g.announced k

structure CountsKept (room : RoomId) (g : Registry) : Prop where
  emits : ∀ n, ∀ e ∈ (g.delivery.workers n).emits, countsTold e.2 = []
  registered : ∀ v ∈ g.delivery.viewers, v.isRegistered = true →
    v.phase ≠ .left ∧ v.phase ≠ .gone
  announced : ∀ k ∈ g.announced, ∃ v, g.delivery.viewers[k]? = some v ∧ v.phase.early = false
  told : g.Notified room ∨ g.delivery.UpToDate room

variable {roomShard : RoomId → ℕ} {room : RoomId} {g g' : Registry} {d d' : Delivery}

theorem Quiet.not_notified (h : g.Quiet room) : ¬ g.Notified room := by
  rintro (hqueue | hrooms | ⟨k, v, hv, hroom, hgone, howes⟩)
  · exact h.queue hqueue
  · exact h.rooms hrooms
  · have hmem := List.mem_of_getElem? hv
    rcases h.joined k v hv hroom with hk | hphase
    · cases hreg : v.isRegistered with
      | true => exact howes hreg hk
      | false => exact hgone (h.dropped v hmem hroom hreg)
    · exact hgone hphase

/-- The count depends on the viewers of the room that are registered. -/
theorem count_map {f : Viewer → Viewer} (hviewers : d'.viewers = d.viewers.map f)
    (hroom : ∀ v, (f v).room = v.room)
    (hreg : ∀ v ∈ d.viewers, v.room = room → (f v).isRegistered = v.isRegistered) :
    d'.count room = d.count room := by
  rw [Delivery.count, Delivery.count, hviewers, List.countP_map]
  apply List.countP_congr
  intro v hv
  by_cases hr : v.room = room
  · simp [hroom, hr, hreg v hv hr]
  · simp [hroom, hr]

section Sends
variable {f : Viewer → Viewer} {t : RoomId → List Json}

theorem getElem?_map_viewers (hviewers : d'.viewers = d.viewers.map f) {k : ℕ} {v : Viewer}
    (hv : d.viewers[k]? = some v) : d'.viewers[k]? = some (f v) := by
  rw [hviewers, List.getElem?_map, hv, Option.map_some]

theorem Notified.sends (h : g.Notified room) (hviewers : d'.viewers = g.delivery.viewers.map f)
    (hf : ∀ v : Viewer, v.Offered (t v.room) (f v)) (hqueue : d'.counts.queue = g.delivery.counts.queue)
    (hrooms : d'.counts.rooms = g.delivery.counts.rooms) :
    Notified room { g with delivery := d' } := by
  rcases h with h | h | ⟨k, v, hv, hroom, hgone, howes⟩
  · exact Or.inl (hqueue ▸ h)
  · exact Or.inr (Or.inl (hrooms ▸ h))
  · -- a viewer that is dropped owes as one that is not
    refine Or.inr (Or.inr ⟨k, f v, getElem?_map_viewers hviewers hv, ?_, ?_, ?_⟩)
    · rw [(hf v).room, hroom]
    · rw [(hf v).phase]
      exact hgone
    · intro hreg
      exact howes ((hf v).isRegistered hreg)

/-- Where nothing is pending after a send, it dropped no viewer of the room. -/
theorem isRegistered_of_not_notified (h : g.CountsKept room)
    (hviewers : d'.viewers = g.delivery.viewers.map f)
    (hf : ∀ v : Viewer, v.Offered (t v.room) (f v))
    (hnotified : ¬ Notified room { g with delivery := d' }) :
    ∀ v ∈ g.delivery.viewers, v.room = room → (f v).isRegistered = v.isRegistered := by
  intro v hmem hroom
  obtain ⟨k, hk⟩ := List.mem_iff_getElem?.mp hmem
  cases hreg : v.isRegistered with
  | false =>
    cases hreg' : (f v).isRegistered with
    | false => rfl
    | true =>
      have hwas := (hf v).isRegistered hreg'
      rw [hreg] at hwas
      cases hwas
  | true =>
    by_contra hdropped
    apply hnotified
    refine Or.inr (Or.inr ⟨k, f v, getElem?_map_viewers hviewers hk, ?_, ?_, ?_⟩)
    · rw [(hf v).room, hroom]
    · rw [(hf v).phase]
      exact (h.registered v hmem hreg).2
    · intro hreg'
      exact absurd hreg' hdropped

/-- The step lemma for sends: what is left to show is that the counts told are
right where the room has no viewer dropped. -/
theorem CountsKept.sends (h : g.CountsKept room)
    (hviewers : d'.viewers = g.delivery.viewers.map f)
    (hf : ∀ v : Viewer, v.Offered (t v.room) (f v))
    (hqueue : d'.counts.queue = g.delivery.counts.queue)
    (hrooms : d'.counts.rooms = g.delivery.counts.rooms)
    (hemits : ∀ n, ∀ e ∈ (d'.workers n).emits, countsTold e.2 = [])
    (htold : g.delivery.UpToDate room → d'.count room = g.delivery.count room →
      d'.UpToDate room) : CountsKept room { g with delivery := d' } := by
  refine ⟨hemits, ?_, ?_, ?_⟩
  · intro v' hv' hreg
    change v' ∈ d'.viewers at hv'
    rw [hviewers] at hv'
    obtain ⟨v, hv, rfl⟩ := List.mem_map.mp hv'
    rw [(hf v).phase]
    exact h.registered v hv ((hf v).isRegistered hreg)
  · intro k hk
    obtain ⟨v, hv, hearly⟩ := h.announced k hk
    refine ⟨f v, getElem?_map_viewers hviewers hv, ?_⟩
    rw [(hf v).phase]
    exact hearly
  · by_cases hnotified : Notified room { g with delivery := d' }
    · exact Or.inl hnotified
    · have hreg := isRegistered_of_not_notified h hviewers hf hnotified
      have hcount := count_map hviewers (fun v => (hf v).room) hreg
      rcases h.told with hwas | hwas
      · exact absurd (hwas.sends hviewers hf hqueue hrooms) hnotified
      · exact Or.inr (htold hwas hcount)

end Sends

theorem CountsKept.quiet (h : g.CountsKept room) (hquiet : g.delivery.QuietStep d') :
    CountsKept room { g with delivery := d' } := by
  obtain ⟨f, hviewers, hf⟩ := hquiet.viewers
  have hcounts := hquiet.counts
  apply h.sends (t := fun _ => []) hviewers hf (by rw [hcounts]) (by rw [hcounts])
    (hquiet.emits h.emits)
  intro hwas hcount
  constructor
  · rw [hcounts, hcount]
    exact hwas.reading
  · rw [hcounts, hcount, hviewers]
    intro hreading v' hv' hroom hreg
    obtain ⟨v, hv, rfl⟩ := List.mem_map.mp hv'
    have htold := (hf v).told hreg
    rw [List.append_nil] at htold
    rw [(hf v).room] at hroom
    rw [lastCountTold, htold]
    exact hwas.told hreading v hv hroom ((hf v).isRegistered hreg)

/-- The count that was read is sent: it is still right, or a notification is on
its way. -/
theorem CountsKept.announce (h : g.CountsKept room) {r : RoomId} {n : ℕ}
    (hread : g.delivery.counts.reading = some (r, n)) :
    CountsKept room { g with
      delivery := ({ g.delivery with
        counts := { g.delivery.counts with reading := none } } : Delivery).send r
          (.control (usersCountControl n)) } := by
  have hf := Delivery.offered_of_room r (countsTold_usersCount n)
  refine h.sends (t := fun room => if room = r then [.number n] else []) rfl hf rfl rfl
    h.emits ?_
  intro hwas hcount
  refine ⟨fun m hm => (by cases hm), fun _ v' hv' hroom hreg => ?_⟩
  obtain ⟨v, hv, rfl⟩ := List.mem_map.mp hv'
  have htold := (hf v).told hreg
  rw [(hf v).room] at hroom
  rw [lastCountTold, htold, hcount]
  by_cases hr : room = r
  · -- no viewer was dropped by this send, so the count it carries is the one after it
    have hn : n = g.delivery.count room := by
      apply hwas.reading
      rw [hread, hr]
    rw [if_pos (hroom.trans hr), List.getLast?_append]
    simp [hn]
  · rw [if_neg (fun heq => hr (hroom.symm.trans heq)), List.append_nil]
    apply hwas.told _ v hv hroom ((hf v).isRegistered hreg)
    intro m hm
    rw [hread] at hm
    cases hm
    exact hr rfl

theorem CountsKept.counts (h : g.CountsKept room) {a : CountAction}
    (hstep : g.delivery.stepCounts a = some d') : CountsKept room { g with delivery := d' } := by
  cases Delivery.stepCounts_cases hstep with
  | drain more hrooms hreading hmore =>
    refine ⟨h.emits, h.registered, h.announced, ?_⟩
    rcases h.told with (hqueue | hmem | howes) | hwas
    · -- the room is drained, or it is still in the queue
      have hsplit := List.take_append_drop (more + 1) g.delivery.counts.queue
      rw [← hsplit] at hqueue
      rcases List.mem_append.mp hqueue with hqueue | hqueue
      · exact Or.inl (Or.inr (Or.inl (List.mem_dedup.mpr hqueue)))
      · exact Or.inl (Or.inl hqueue)
    · rw [hrooms] at hmem
      cases hmem
    · exact Or.inl (Or.inr (Or.inr howes))
    · have hread : ∀ n, g.delivery.counts.reading ≠ some (room, n) := by
        intro n hn
        rw [hreading] at hn
        cases hn
      exact Or.inr ⟨fun n hn => (by cases hn), fun _ => hwas.told hread⟩
  | read r hmem hreading =>
    refine ⟨h.emits, h.registered, h.announced, ?_⟩
    by_cases hr : r = room
    · -- the count is the one of this moment
      subst hr
      refine Or.inr ⟨?_, fun hne => absurd rfl (hne _)⟩
      intro n hn
      cases hn
      rfl
    · rcases h.told with (hqueue | hrooms | howes) | hwas
      · exact Or.inl (Or.inl hqueue)
      · exact Or.inl (Or.inr (Or.inl ((List.mem_erase_of_ne (Ne.symm hr)).mpr hrooms)))
      · exact Or.inl (Or.inr (Or.inr howes))
      · have hnone : ∀ n, g.delivery.counts.reading ≠ some (room, n) := by
          intro n hn
          rw [hreading] at hn
          cases hn
        refine Or.inr ⟨?_, fun _ => hwas.told hnone⟩
        intro n hn
        cases hn
        exact absurd rfl hr
  | announce r n hreading => exact h.announce hreading

theorem getElem?_join {r : RoomId} {k : ℕ} {v : Viewer} (hv : d.viewers[k]? = some v) :
    (d.viewers ++ [Viewer.join r])[k]? = some v := by
  rw [List.getElem?_append_left (List.getElem?_eq_some_iff.mp hv).1, hv]

/-- A viewer that joins owes its notification from the start. -/
theorem CountsKept.join (h : g.CountsKept room) (r : RoomId) :
    CountsKept room { g with
      delivery := { g.delivery with viewers := g.delivery.viewers ++ [Viewer.join r] }
      rooms := g.rooms.insert r } := by
  refine ⟨h.emits, ?_, ?_, ?_⟩
  · intro v hv hreg
    rcases List.mem_append.mp hv with hv | hv
    · exact h.registered v hv hreg
    · rw [List.mem_singleton.mp hv]
      exact ⟨nofun, nofun⟩
  · intro k hk
    obtain ⟨v, hv, hearly⟩ := h.announced k hk
    exact ⟨v, getElem?_join hv, hearly⟩
  · by_cases hr : r = room
    · -- its number is a new one, so it cannot have been announced
      subst hr
      have hlast : (g.delivery.viewers ++ [Viewer.join r])[g.delivery.viewers.length]? =
          some (Viewer.join r) := List.getElem?_concat_length
      refine Or.inl (Or.inr (Or.inr ⟨g.delivery.viewers.length, _, hlast, rfl, nofun, ?_⟩))
      intro _ hk
      obtain ⟨v, hv, -⟩ := h.announced _ hk
      have hlt := (List.getElem?_eq_some_iff.mp hv).1
      omega
    · have hcount : Delivery.count { g.delivery with
          viewers := g.delivery.viewers ++ [Viewer.join r] } room = g.delivery.count room := by
        simp [Delivery.count, Viewer.join, hr]
      rcases h.told with (hqueue | hrooms | ⟨k, v, hv, howes⟩) | hwas
      · exact Or.inl (Or.inl hqueue)
      · exact Or.inl (Or.inr (Or.inl hrooms))
      · exact Or.inl (Or.inr (Or.inr ⟨k, v, getElem?_join hv, howes⟩))
      · refine Or.inr ⟨?_, ?_⟩ <;> rw [hcount]
        · exact hwas.reading
        · intro hreading v hv hroom hreg
          rcases List.mem_append.mp hv with hv | hv
          · exact hwas.told hreading v hv hroom hreg
          · rw [List.mem_singleton.mp hv] at hroom
            exact absurd hroom hr

section Tasks
variable {k : ℕ} {v v' : Viewer} {a : ViewerAction} {counts' : UserCounts}

/-- The registry after a step of the viewer's task. -/
def afterTask (g : Registry) (k : ℕ) (v : Viewer) (a : ViewerAction) (counts : UserCounts) :
    Registry :=
  { g with
    delivery := { g.delivery with viewers := g.delivery.viewers.set k v, counts := counts }
    announced := if a = .notify then g.announced ++ [k] else g.announced }

theorem getElem?_set_viewer (hv : g.delivery.viewers[k]? = some v) (w : Viewer) :
    (g.delivery.viewers.set k w)[k]? = some w :=
  List.getElem?_set_self (List.getElem?_eq_some_iff.mp hv).1

/-- Where a viewer is after the task `k` moved from `v` to `w`. -/
theorem viewer_cases (hv : g.delivery.viewers[k]? = some v) (w : Viewer) {j : ℕ} {u : Viewer}
    (hu : g.delivery.viewers[j]? = some u) :
    (j = k ∧ u = v) ∨ (j ≠ k ∧ (g.delivery.viewers.set k w)[j]? = some u) := by
  by_cases hj : j = k
  · subst hj
    exact Or.inl ⟨rfl, Option.some.inj (hu.symm.trans hv)⟩
  · right
    rw [List.getElem?_set_ne (Ne.symm hj)]
    exact ⟨hj, hu⟩

theorem mem_afterTask_announced {j : ℕ} : j ∈ (g.afterTask k v a counts').announced ↔
    j ∈ g.announced ∨ a = .notify ∧ j = k := by
  rw [afterTask]
  split_ifs with ha <;> simp [ha]

theorem Notified.of_ne (h : g.Notified room) (hv : g.delivery.viewers[k]? = some v)
    (hstep : v.TaskStep g.delivery.counts a v' counts')
    (howes : v.room = room → v.Owes g.announced k →
      v'.Owes (g.afterTask k v' a counts').announced k) :
    (g.afterTask k v' a counts').Notified room := by
  obtain ⟨hqueue, hrooms, -⟩ := hstep.counts_eq
  rcases h with h | h | ⟨j, u, hu, hroom, hgone, hold⟩
  · exact Or.inl (hqueue.subset h)
  · exact Or.inr (Or.inl (hrooms ▸ h))
  · rcases viewer_cases hv v' hu with ⟨rfl, rfl⟩ | ⟨hj, hset⟩
    · have hself := getElem?_set_viewer hv v'
      exact Or.inr (Or.inr ⟨j, v', hself, hstep.room_eq.trans hroom, howes hroom ⟨hgone, hold⟩⟩)
    · refine Or.inr (Or.inr ⟨j, u, hset, hroom, hgone, fun hreg hann => ?_⟩)
      rcases mem_afterTask_announced.mp hann with hann | ⟨-, hk⟩
      · exact hold hreg hann
      · exact hj hk

/-- A task that changes nothing in the room leaves the counts right. -/
theorem upToDate_afterTask (h : g.delivery.UpToDate room) (hv : g.delivery.viewers[k]? = some v)
    (hstep : v.TaskStep g.delivery.counts a v' counts')
    (hsame : v.room = room → v'.isRegistered = v.isRegistered ∧
      v'.sent.flatMap countsTold = v.sent.flatMap countsTold) :
    (g.afterTask k v' a counts').delivery.UpToDate room := by
  have hmem := List.mem_of_getElem? hv
  have hroom := hstep.room_eq
  have hreading := hstep.counts_eq.2.2
  have hcount : (g.afterTask k v' a counts').delivery.count room = g.delivery.count room := by
    apply Server.countP_set_same hv
    by_cases hr : v.room = room
    · rw [hroom, (hsame hr).1]
    · simp [hroom, hr]
  constructor
  · intro n hn
    rw [hcount]
    apply h.reading
    rw [← hreading]
    exact hn
  · intro hnone u hu huroom hreg
    rw [hcount]
    have hnone' : ∀ n, g.delivery.counts.reading ≠ some (room, n) := by
      rw [← hreading]
      exact hnone
    rcases List.mem_or_eq_of_mem_set hu with hu | rfl
    · exact h.told hnone' u hu huroom hreg
    · have hr : v.room = room := hroom.symm.trans huroom
      obtain ⟨hsamereg, htold⟩ := hsame hr
      rw [lastCountTold, htold]
      exact h.told hnone' v hmem hr (hsamereg ▸ hreg)

theorem told_afterTask (h : g.CountsKept room) (hv : g.delivery.viewers[k]? = some v)
    (hstep : v.TaskStep g.delivery.counts a v' counts') :
    (g.afterTask k v' a counts').Notified room ∨
      (g.afterTask k v' a counts').delivery.UpToDate room := by
  by_cases hroom : v.room = room
  · have hset : (g.afterTask k v' a counts').delivery.viewers[k]? = some v' :=
      getElem?_set_viewer hv v'
    cases hstep with
    | quiet hnotify hleave hunmoved =>
      rcases h.told with hwas | hwas
      · apply Or.inl
        apply hwas.of_ne hv (.quiet hnotify hleave hunmoved)
        intro _ howes
        refine ⟨hunmoved.after.2, fun hreg hann => ?_⟩
        rw [hunmoved.isRegistered] at hreg
        rcases mem_afterTask_announced.mp hann with hann | ⟨ha, -⟩
        · exact howes.2 hreg hann
        · exact hnotify ha
      · apply Or.inr
        apply upToDate_afterTask hwas hv (.quiet hnotify hleave hunmoved)
        exact fun _ => ⟨hunmoved.isRegistered, hunmoved.told⟩
    | count n hp =>
      -- the count read is told before the notification
      refine Or.inl (Or.inr (Or.inr ⟨k, _, hset, hroom, nofun, fun _ hann => ?_⟩))
      obtain ⟨u, hu, hearly⟩ := h.announced k hann
      rw [hv] at hu
      cases hu
      rw [hp] at hearly
      cases hearly
    | notify hp =>
      apply Or.inl
      apply Or.inl
      exact List.mem_append_right _ (List.mem_singleton.mpr hroom.symm)
    -- the membership has changed, and the task owes the notification
    | leave hp => exact Or.inl (Or.inr (Or.inr ⟨k, _, hset, hroom, nofun, nofun⟩))
    | notifyLeft hp =>
      apply Or.inl
      apply Or.inl
      exact List.mem_append_right _ (List.mem_singleton.mpr hroom.symm)
  · rcases h.told with hwas | hwas
    · exact Or.inl (hwas.of_ne hv hstep fun hr => absurd hr hroom)
    · exact Or.inr (upToDate_afterTask hwas hv hstep fun hr => absurd hr hroom)

theorem CountsKept.task (h : g.CountsKept room) (hv : g.delivery.viewers[k]? = some v)
    (hstep : v.TaskStep g.delivery.counts a v' counts') :
    (g.afterTask k v' a counts').CountsKept room := by
  have hmem := List.mem_of_getElem? hv
  refine ⟨h.emits, ?_, ?_, told_afterTask h hv hstep⟩
  · intro u hu hreg
    rcases List.mem_or_eq_of_mem_set hu with hu | rfl
    · exact h.registered u hu hreg
    · exact hstep.registered (h.registered v hmem) hreg
  · intro j hj
    have hself := getElem?_set_viewer hv v'
    rcases mem_afterTask_announced.mp hj with hann | ⟨ha, rfl⟩
    · obtain ⟨u, hu, hearly⟩ := h.announced j hann
      rcases viewer_cases hv v' hu with ⟨rfl, rfl⟩ | ⟨-, hset⟩
      · exact ⟨v', hself, hstep.early_eq (Or.inl hearly)⟩
      · exact ⟨u, hset, hearly⟩
    · exact ⟨v', hself, hstep.early_eq (Or.inr ha)⟩

end Tasks

/-- The invariant is about what the entries' keys do not move. -/
theorem CountsKept.of_eq (h : g.CountsKept room) (hdelivery : g'.delivery = g.delivery)
    (hannounced : g'.announced = g.announced) : g'.CountsKept room := by
  obtain ⟨d, rooms, sweeping, announced⟩ := g'
  obtain rfl : d = g.delivery := hdelivery
  obtain rfl : announced = g.announced := hannounced
  exact ⟨h.emits, h.registered, h.announced, h.told⟩

/-- The step lemma of the viewer counts. -/
theorem countsKept_step (h : g.CountsKept room) {a : RegistryAction}
    (hstep : g.step roomShard a = some g') : g'.CountsKept room := by
  cases a with
  | removeIf k =>
    simp only [step] at hstep
    split_ifs at hstep
    obtain ⟨v, -, rfl⟩ := Option.map_eq_some_iff.mp hstep
    exact h.of_eq rfl rfl
  | delivery a =>
    simp only [step] at hstep
    split_ifs at hstep
    obtain ⟨d', hd, rfl⟩ := Option.map_eq_some_iff.mp hstep
    cases a with
    | server a => exact h.quiet (Delivery.quietStep_server hd)
    | worker n a => exact h.quiet (Delivery.quietStep_worker hd h.emits)
    | join r =>
      obtain rfl := Option.some.inj hd
      exact h.join r
    | counts a => exact h.counts hd
    | viewer k a =>
      obtain ⟨v, hv, hd⟩ := Option.bind_eq_some_iff.mp hd
      obtain ⟨v', counts, htask, rfl⟩ := Delivery.taskStep_of_stepViewer hd
      apply (h.task hv htask).of_eq
      · cases a <;> rfl
      · cases a <;> rfl

theorem countsKept_init (room : RoomId) (ttl : ℕ) : (init ttl).CountsKept room := by
  refine ⟨fun _ e he => (by cases he), fun v hv => (by cases hv), fun k hk => (by cases hk),
    Or.inr ⟨fun n hn => (by cases hn), fun _ v hv => (by cases hv)⟩⟩

end Registry

end Shellshare
