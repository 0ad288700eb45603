import Shellshare.ViewerCounts

/-! Where no task has anything left to do for a room: its viewers were told their
number, and the registry has an entry for it only if it has a viewer. -/
namespace Shellshare
open TransitionRuns

namespace Registry

/-- The entry of a room is there for its viewers, and stays only for a task that
has still to leave or to sweep it. -/
structure KeysKept (room : RoomId) (g : Registry) : Prop where
  sweeping : ∀ k ∈ g.sweeping, ∃ v, g.delivery.viewers[k]? = some v ∧ v.phase = .left
  present : ∀ v ∈ g.delivery.viewers, v.room = room → v.isRegistered = true → room ∈ g.rooms
  needed : room ∈ g.rooms → ∃ (k : ℕ) (v : Viewer), g.delivery.viewers[k]? = some v ∧ v.room = room ∧
    ((v.phase ≠ .left ∧ v.phase ≠ .gone) ∨ k ∈ g.sweeping)

variable {roomShard : RoomId → ℕ} {room : RoomId} {g g' : Registry} {d' : Delivery}

theorem exists_of_count_ne_zero {d : Delivery} (h : d.count room ≠ 0) :
    ∃ v ∈ d.viewers, v.room = room ∧ v.isRegistered = true := by
  have hpos : 0 < d.count room := Nat.pos_of_ne_zero h
  obtain ⟨v, hv, hmine⟩ := List.countP_pos_iff.mp hpos
  simp only [Bool.and_eq_true, decide_eq_true_eq] at hmine
  exact ⟨v, hv, hmine.2, hmine.1⟩

theorem count_ne_zero {d : Delivery} {v : Viewer} (hv : v ∈ d.viewers) (hroom : v.room = room)
    (hreg : v.isRegistered = true) : d.count room ≠ 0 := by
  have hpos : 0 < d.count room := by
    apply List.countP_pos_iff.mpr
    exact ⟨v, hv, by simp [hroom, hreg]⟩
  omega

/-- A room that has a viewer has a task that has still to leave. -/
theorem staying_of_count_ne_zero (hkept : g.CountsKept room) (h : g.delivery.count room ≠ 0) :
    ∃ (k : ℕ) (v : Viewer), g.delivery.viewers[k]? = some v ∧ v.room = room ∧
      v.phase ≠ .left ∧ v.phase ≠ .gone := by
  obtain ⟨v, hv, hroom, hreg⟩ := exists_of_count_ne_zero h
  obtain ⟨k, hk⟩ := List.mem_iff_getElem?.mp hv
  exact ⟨k, v, hk, hroom, hkept.registered v hv hreg⟩

theorem KeysKept.of_eq (h : g.KeysKept room) (hviewers : g'.delivery.viewers = g.delivery.viewers)
    (hrooms : g'.rooms = g.rooms) (hsweeping : g'.sweeping = g.sweeping) : g'.KeysKept room := by
  constructor
  · rw [hviewers, hsweeping]
    exact h.sweeping
  · rw [hviewers, hrooms]
    exact h.present
  · rw [hviewers, hrooms, hsweeping]
    exact h.needed

theorem KeysKept.sends {f : Viewer → Viewer} {t : RoomId → List Json} (h : g.KeysKept room)
    (hviewers : d'.viewers = g.delivery.viewers.map f)
    (hf : ∀ v : Viewer, v.Offered (t v.room) (f v)) : KeysKept room { g with delivery := d' } := by
  constructor
  · intro k hk
    obtain ⟨v, hv, hphase⟩ := h.sweeping k hk
    exact ⟨f v, getElem?_map_viewers hviewers hv, (hf v).phase.trans hphase⟩
  · intro v' hv' hroom hreg
    change v' ∈ d'.viewers at hv'
    rw [hviewers] at hv'
    obtain ⟨v, hv, rfl⟩ := List.mem_map.mp hv'
    exact h.present v hv ((hf v).room.symm.trans hroom) ((hf v).isRegistered hreg)
  · intro hmem
    obtain ⟨k, v, hv, hroom, hwhy⟩ := h.needed hmem
    refine ⟨k, f v, getElem?_map_viewers hviewers hv, (hf v).room.trans hroom, ?_⟩
    rw [(hf v).phase]
    exact hwhy

theorem KeysKept.join (h : g.KeysKept room) (r : RoomId) :
    KeysKept room { g with
      delivery := { g.delivery with viewers := g.delivery.viewers ++ [Viewer.join r] }
      rooms := g.rooms.insert r } := by
  constructor
  · intro k hk
    obtain ⟨v, hv, hphase⟩ := h.sweeping k hk
    exact ⟨v, getElem?_join hv, hphase⟩
  · intro v hv hroom hreg
    rcases List.mem_append.mp hv with hv | hv
    · exact List.mem_insert_of_mem (h.present v hv hroom hreg)
    · rw [List.mem_singleton.mp hv] at hroom
      exact List.mem_insert_iff.mpr (Or.inl hroom.symm)
  · intro hmem
    rcases List.mem_insert_iff.mp hmem with hr | hmem
    · have hlast : (g.delivery.viewers ++ [Viewer.join r])[g.delivery.viewers.length]? =
          some (Viewer.join r) := List.getElem?_concat_length
      exact ⟨_, _, hlast, hr.symm, Or.inl ⟨nofun, nofun⟩⟩
    · obtain ⟨k, v, hv, hwhy⟩ := h.needed hmem
      exact ⟨k, v, getElem?_join hv, hwhy⟩

/-- The entry goes only where it is empty. -/
theorem KeysKept.removeIf (h : g.KeysKept room) (hkept : g.CountsKept room) {k : ℕ} {v : Viewer}
    (hv : g.delivery.viewers[k]? = some v) : (g.removeIf k v.room).KeysKept room := by
  constructor
  · intro j hj
    exact h.sweeping j (List.mem_of_mem_erase hj)
  · intro u hu hroom hreg
    have hmem := h.present u hu hroom hreg
    have hcount := count_ne_zero hu hroom hreg
    rw [Registry.removeIf]
    dsimp only
    split_ifs with hzero
    · apply List.mem_filter.mpr
      refine ⟨hmem, ?_⟩
      apply decide_eq_true
      intro heq
      rw [heq] at hcount
      exact hcount hzero
    · exact hmem
  · intro hmem
    rw [Registry.removeIf] at hmem
    dsimp only at hmem
    have hcase : room ∈ g.rooms ∧ (v.room = room → g.delivery.count room ≠ 0) := by
      split_ifs at hmem with hzero
      · obtain ⟨hmem, hne⟩ := List.mem_filter.mp hmem
        have hne' : room ≠ v.room := of_decide_eq_true hne
        exact ⟨hmem, fun heq => absurd heq.symm hne'⟩
      · exact ⟨hmem, fun heq => heq ▸ hzero⟩
    obtain ⟨j, u, hu, hroom, hwhy⟩ := h.needed hcase.1
    rcases hwhy with hphase | hsweep
    · exact ⟨j, u, hu, hroom, Or.inl hphase⟩
    · by_cases hj : j = k
      · -- the entry stays for a viewer that joined in between
        subst hj
        rw [hv] at hu
        cases hu
        obtain ⟨i, w, hw, hwroom, hphase⟩ := staying_of_count_ne_zero hkept (hcase.2 hroom)
        exact ⟨i, w, hw, hwroom, Or.inl hphase⟩
      · exact ⟨j, u, hu, hroom, Or.inr ((List.mem_erase_of_ne hj).mpr hsweep)⟩

section Tasks
variable {k : ℕ} {v v' : Viewer} {a : ViewerAction} {counts' : UserCounts}

theorem KeysKept.task (h : g.KeysKept room) (hv : g.delivery.viewers[k]? = some v)
    (hstep : v.TaskStep g.delivery.counts a v' counts') (hleave : a ≠ .leave)
    (hready : a = .notifyLeft → k ∉ g.sweeping) : (g.afterTask k v' a counts').KeysKept room := by
  have hmem := List.mem_of_getElem? hv
  -- who is sweeping waits for its lock, so this is another task
  have hother : ∀ j ∈ g.sweeping, j ≠ k := by
    rintro j hj rfl
    obtain ⟨u, hu, hphase⟩ := h.sweeping j hj
    rw [hv] at hu
    cases hu
    exact hready (hstep.of_left hphase) hj
  constructor
  · intro j hj
    obtain ⟨u, hu, hphase⟩ := h.sweeping j hj
    rcases viewer_cases hv v' hu with ⟨hk, -⟩ | ⟨-, hset⟩
    · exact absurd hk (hother j hj)
    · exact ⟨u, hset, hphase⟩
  · intro u hu hroom hreg
    rcases List.mem_or_eq_of_mem_set hu with hu | rfl
    · exact h.present u hu hroom hreg
    · exact h.present v hmem (hstep.room_eq.symm.trans hroom) (hstep.isRegistered_of hreg)
  · intro hrooms
    obtain ⟨j, u, hu, hroom, hwhy⟩ := h.needed hrooms
    rcases viewer_cases hv v' hu with ⟨rfl, rfl⟩ | ⟨-, hset⟩
    · refine ⟨j, v', getElem?_set_viewer hv v', hstep.room_eq.trans hroom, ?_⟩
      rcases hwhy with hphase | hsweep
      · exact Or.inl (hstep.stays hleave hphase)
      · exact absurd rfl (hother j hsweep)
    · exact ⟨j, u, hset, hroom, hwhy⟩

/-- The viewer that leaves an empty entry behind is the one that sweeps it. -/
theorem KeysKept.leave (h : g.KeysKept room) (hv : g.delivery.viewers[k]? = some v)
    (hp : v.phase = .closing) {d' : Delivery}
    (hd : d'.viewers = g.delivery.viewers.set k { v with phase := .left, isRegistered := false })
    (hkept : (g.record d' (.viewer k .leave)).CountsKept room) :
    (g.record d' (.viewer k .leave)).KeysKept room := by
  have hself := getElem?_set_viewer hv { v with phase := .left, isRegistered := false }
  rw [← hd] at hself
  have hsweeping : ∀ j, j ∈ (g.record d' (.viewer k .leave)).sweeping ↔
      j ∈ g.sweeping ∨ j = k ∧ v.room ∈ g.rooms ∧ d'.count v.room = 0 := by
    intro j
    have hemptied : g.emptied d' k = true ↔ v.room ∈ g.rooms ∧ d'.count v.room = 0 := by
      simp [emptied, hself]
    rw [record]
    dsimp only
    split_ifs with hcase
    · rw [List.mem_append, List.mem_singleton, and_iff_left (hemptied.mp hcase)]
    · rw [← hemptied]
      simp [hcase]
  constructor
  · intro j hj
    rcases (hsweeping j).mp hj with hj | ⟨rfl, -⟩
    · obtain ⟨u, hu, hphase⟩ := h.sweeping j hj
      rcases viewer_cases hv _ hu with ⟨-, rfl⟩ | ⟨-, hset⟩
      · rw [hp] at hphase
        cases hphase
      · rw [← hd] at hset
        exact ⟨u, hset, hphase⟩
    · exact ⟨_, hself, rfl⟩
  · intro u hu hroom hreg
    change u ∈ d'.viewers at hu
    rw [hd] at hu
    rcases List.mem_or_eq_of_mem_set hu with hu | rfl
    · exact h.present u hu hroom hreg
    · cases hreg
  · intro hrooms
    change room ∈ g.rooms at hrooms
    obtain ⟨j, u, hu, hroom, hwhy⟩ := h.needed hrooms
    rcases viewer_cases hv _ hu with ⟨rfl, rfl⟩ | ⟨-, hset⟩
    · -- the last one to leave has still to sweep, else somebody is there
      by_cases hcount : d'.count room = 0
      · refine ⟨j, _, hself, hroom, Or.inr ?_⟩
        apply (hsweeping j).mpr
        refine Or.inr ⟨rfl, ?_⟩
        rw [hroom]
        exact ⟨hrooms, hcount⟩
      · obtain ⟨i, w, hw, hwroom, hphase⟩ := staying_of_count_ne_zero hkept hcount
        exact ⟨i, w, hw, hwroom, Or.inl hphase⟩
    · rw [← hd] at hset
      refine ⟨j, u, hset, hroom, ?_⟩
      exact hwhy.imp_right fun hsweep => (hsweeping j).mpr (Or.inl hsweep)

end Tasks

theorem keysKept_init (room : RoomId) (ttl : ℕ) : (init ttl).KeysKept room :=
  ⟨fun _ hk => (by cases hk), fun _ hv => (by cases hv), fun hr => (by cases hr)⟩

theorem KeysKept.counts (h : g.KeysKept room) {a : CountAction}
    (hstep : g.delivery.stepCounts a = some d') : KeysKept room { g with delivery := d' } := by
  cases Delivery.stepCounts_cases hstep with
  | drain => exact h.of_eq rfl rfl rfl
  | read => exact h.of_eq rfl rfl rfl
  | announce r n hreading =>
    have hf := Delivery.offered_of_room r (countsTold_usersCount n)
    exact h.sends (t := fun room => if room = r then [.number n] else []) rfl hf

/-- The step lemma of the registry's keys. -/
theorem keysKept_step (h : g.KeysKept room) (hkept : g.CountsKept room) {a : RegistryAction}
    (hstep : g.step roomShard a = some g') : g'.KeysKept room := by
  have hkept' := countsKept_step hkept hstep
  cases a with
  | removeIf k =>
    simp only [step] at hstep
    split_ifs at hstep
    obtain ⟨v, hv, rfl⟩ := Option.map_eq_some_iff.mp hstep
    exact h.removeIf hkept hv
  | delivery a =>
    simp only [step] at hstep
    split_ifs at hstep with hready
    obtain ⟨d', hd, rfl⟩ := Option.map_eq_some_iff.mp hstep
    cases a with
    | server a =>
      obtain ⟨f, hviewers, hf⟩ := (Delivery.quietStep_server hd).viewers
      exact h.sends (t := fun _ => []) hviewers hf
    | worker n a =>
      obtain ⟨f, hviewers, hf⟩ := (Delivery.quietStep_worker hd hkept.emits).viewers
      exact h.sends (t := fun _ => []) hviewers hf
    | join r =>
      obtain rfl := Option.some.inj hd
      exact h.join r
    | counts a => exact h.counts hd
    | viewer k a =>
      obtain ⟨v, hv, hd⟩ := Option.bind_eq_some_iff.mp hd
      obtain ⟨v', counts, htask, rfl⟩ := Delivery.taskStep_of_stepViewer hd
      by_cases hleave : a = .leave
      · subst hleave
        cases htask with
        | quiet _ hne _ => exact absurd rfl hne
        | leave hp => exact h.leave hv hp rfl hkept'
      · have hnotify : a = .notifyLeft → k ∉ g.sweeping := by
          rintro rfl
          simpa [ready] using hready
        apply (h.task hv htask hleave hnotify).of_eq
        · cases a <;> rfl
        · cases a <;> rfl
        · cases a <;> first | rfl | exact absurd rfl hleave

/-- In every state where nothing is left to do for a room, its viewers were last
told their number, and the registry has an entry for it if and only if it has one. -/
theorem viewer_counts_converge (roomShard : RoomId → ℕ) (ttl : ℕ) (as : List RegistryAction)
    (g : Registry) (room : RoomId) (hrun : run (step roomShard) (init ttl) as = some g)
    (hquiet : g.Quiet room) :
    (∀ v ∈ g.delivery.viewers, v.room = room → v.isRegistered = true →
      lastCountTold v.sent = some (.number (g.delivery.count room))) ∧
    (room ∈ g.rooms ↔ 0 < g.delivery.count room) := by
  have hkept : g.CountsKept room ∧ g.KeysKept room :=
    run_preserves (I := fun g => g.CountsKept room ∧ g.KeysKept room)
      (fun _ _ _ h hstep => ⟨countsKept_step h.1 hstep, keysKept_step h.2 h.1 hstep⟩)
      ⟨countsKept_init room ttl, keysKept_init room ttl⟩ hrun
  obtain ⟨hcounts, hkeys⟩ := hkept
  -- no notification is on its way, so what was told is right
  have htold := hcounts.told.resolve_left hquiet.not_notified
  refine ⟨htold.told hquiet.reading, ?_, ?_⟩
  · -- the task that the entry is kept for can only be that of a viewer
    intro hmem
    obtain ⟨k, v, hv, hroom, hwhy⟩ := hkeys.needed hmem
    have hviewer := List.mem_of_getElem? hv
    have hgone : v.phase ≠ .gone := by
      rcases hwhy with hphase | hsweep
      · exact hphase.2
      · obtain ⟨u, hu, hleft⟩ := hkeys.sweeping k hsweep
        rw [hv] at hu
        cases hu
        exact absurd hleft (hquiet.left v hviewer hroom)
    apply Nat.pos_of_ne_zero
    apply count_ne_zero hviewer hroom
    cases hreg : v.isRegistered with
    | true => rfl
    | false => exact absurd (hquiet.dropped v hviewer hroom hreg) hgone
  · intro hpos
    obtain ⟨v, hv, hroom, hreg⟩ := exists_of_count_ne_zero (Nat.ne_of_gt hpos)
    exact hkeys.present v hv hroom hreg

/-- Two viewers of a room are announced in one pass, and then one of them leaves. -/
def parting : List DeliveryAction :=
  [.join ⟨"demo"⟩, .join ⟨"demo"⟩, .viewer 0 .snapshot, .viewer 0 .transmit, .viewer 0 .count,
    .viewer 0 .transmit, .viewer 0 .notify, .viewer 1 .snapshot, .viewer 1 .transmit,
    .viewer 1 .count, .viewer 1 .transmit, .viewer 1 .notify, .counts (.drain 1),
    .counts (.read ⟨"demo"⟩), .counts .announce, .viewer 1 .hangUp, .viewer 1 .leave,
    .viewer 1 .notifyLeft, .counts (.drain 0), .counts (.read ⟨"demo"⟩), .counts .announce]

theorem viewer_counts_converge_parting :
    ∃ g v w, run (step fun _ => 0) (init 1000) (parting.map .delivery) = some g ∧ g.delivery.viewers = [v, w] ∧
      v.queue = [.control (usersCountControl 2), .control (usersCountControl 1)] ∧
      w.phase = .gone ∧ lastCountTold v.sent = some (.number ((1 : ℕ) : ℚ)) ∧
      ⟨"demo"⟩ ∈ g.rooms := by
  obtain ⟨g, v, w, hrun, hviewers, hqueue, hv, hw, hcounts, hann, hcount⟩ : ∃ g v w,
      run (step fun _ => 0) (init 1000) (parting.map .delivery) = some g ∧ g.delivery.viewers = [v, w] ∧
      v.queue = [.control (usersCountControl 2), .control (usersCountControl 1)] ∧
      (v.room = ⟨"demo"⟩ ∧ v.isRegistered = true ∧ v.phase = .live) ∧ w.phase = .gone ∧
      g.delivery.counts = ⟨[], [], none⟩ ∧ g.announced = [0, 1] ∧
      g.delivery.count ⟨"demo"⟩ = 1 :=
    ⟨_, _, _, rfl, rfl, rfl, ⟨rfl, rfl, rfl⟩, rfl, rfl, rfl, rfl⟩
  obtain ⟨hroom, hreg, hlive⟩ := hv
  have hquiet : g.Quiet ⟨"demo"⟩ := by
    constructor
    · simp [hcounts]
    · simp [hcounts]
    · simp [hcounts]
    · intro k u hu _
      rw [hviewers] at hu
      have hk := (List.getElem?_eq_some_iff.mp hu).1
      rw [hann]
      apply Or.inl
      simp only [List.length_cons, List.length_nil] at hk
      simp only [List.mem_cons, List.not_mem_nil, or_false]
      omega
    · intro u hu _
      rw [hviewers] at hu
      simp only [List.mem_cons, List.not_mem_nil, or_false] at hu
      rcases hu with rfl | rfl <;> simp [hlive, hw]
    · intro u hu _ hdropped
      rw [hviewers] at hu
      simp only [List.mem_cons, List.not_mem_nil, or_false] at hu
      rcases hu with rfl | rfl
      · rw [hreg] at hdropped
        cases hdropped
      · exact hw
  have hconverge := viewer_counts_converge (fun _ => 0) 1000 _ g ⟨"demo"⟩ hrun hquiet
  rw [hcount] at hconverge
  refine ⟨g, v, w, hrun, hviewers, hqueue, hw, ?_, hconverge.2.mpr Nat.one_pos⟩
  exact hconverge.1 v (by rw [hviewers]; exact List.mem_cons_self) hroom hreg

end Registry

end Shellshare
