import Shellshare.ServerAttachCount

/-! What becomes of a room after its removal, and of the loops that were serving it. -/
namespace Shellshare

/-- History of a run: the rooms removed and not claimed by a handshake since, and
the connections that were open on a room when it was removed. -/
structure Vacancies where
  vacated : List RoomId
  orphans : List ℕ

namespace Server
open TransitionRuns

/-- The connections to a room. -/
def connsTo (s : Server) (room : RoomId) : List ℕ :=
  (List.range s.conns.length).filter fun i => s.conns[i]?.any fun c => c.room = room

def noteVacancies (s : Server) (a : Action) (_ : Server) (v : Vacancies) : Vacancies :=
  let removed := (s.removes a).toList
  let vacated := match a with
    | .handshake room _ => v.vacated.filter (· ≠ room)
    | _ => v.vacated
  ⟨vacated ++ removed, v.orphans ++ removed.flatMap s.connsTo⟩

/-- The room of the connection is held by another password. -/
def reclaimed (s : Server) (c : Conn) : Bool :=
  (s.rooms.claim c.room).any fun claim => claim.1 ≠ c.secret

/-- No room exists under a vacated name. -/
def Vacant (p : Server × Vacancies) : Prop := ∀ room ∈ p.2.vacated, p.1.rooms room = none

/-- A frame of an orphaned loop ends the loop and stores nothing. -/
def EndsOrphan (p : Server × Vacancies) (a : Action) : Prop :=
  ∀ i msg s', a = .receive i msg → i ∈ p.2.orphans → p.1.step a = some s' →
    s'.conns[i]?.map Conn.phase = some .leaving ∧ s'.appended = p.1.appended

/-- A frame of an orphaned loop that does not ask to end it finds the room held by
another password. -/
def OrphanReclaimed (p : Server × Vacancies) (a : Action) : Prop :=
  ∀ i msg c, a = .receive i msg → i ∈ p.2.orphans → p.1.conns[i]? = some c →
    request msg = .delete ∨ request msg = .stop ∨ p.1.reclaimed c = true

theorem reclaimed_iff {s : Server} {c : Conn} : s.reclaimed c = true ↔
    ∃ entry, s.rooms c.room = some entry ∧ entry.password ≠ c.secret := by
  cases he : s.rooms c.room <;> simp [reclaimed, Rooms.claim, he]

theorem reclaimed_eq_false {s : Server} {c : Conn}
    (h : ∀ entry, s.rooms c.room = some entry → entry.password = c.secret) :
    s.reclaimed c = false := by
  rw [← Bool.not_eq_true, reclaimed_iff]
  rintro ⟨entry, he, hne⟩
  exact hne (h entry he)

/-- Only a room with another password, or the frame itself, ends the loop. -/
theorem receive_ends_iff {s : Server} {i : ℕ} {c : Conn} (hc : s.conns[i]? = some c)
    (msg : WsMessage) :
    ((s.receive i c msg).conns[i]?.map Conn.phase = some .leaving ∧
        (s.receive i c msg).appended = s.appended) ↔
      request msg = .delete ∨ request msg = .stop ∨ s.reclaimed c = true := by
  have hphase (d : Conn) : (s.conns.set i d)[i]?.map Conn.phase = some d.phase := by
    obtain ⟨hlt, -⟩ := List.getElem?_eq_some_iff.mp hc
    simp [hlt]
  have hrefused {entry : Room} (he : s.rooms c.room = some entry)
      (hne : entry.password ≠ c.secret) : s.reclaimed c = true :=
    reclaimed_iff.mpr ⟨entry, he, hne⟩
  have howned (hp : (s.rooms.entryFor s.now c.room c.secret).password = c.secret) :
      s.reclaimed c = false := by
    apply reclaimed_eq_false
    intro entry he
    simpa [Rooms.entryFor, he] using hp
  -- a loop that goes on was neither asked to end nor refused
  have hstays {d : Conn} {P Q : Prop} (hd : d.phase ≠ .leaving) (hQ : ¬ Q) :
      ((s.conns.set i d)[i]?.map Conn.phase = some .leaving ∧ P) ↔ Q := by
    apply iff_of_false
    · intro h
      exact hd (Option.some.inj ((hphase d).symm.trans h.1))
    · exact hQ
  unfold receive
  cases hreq : request msg with
  | keepalive =>
    simp only [keepalive]
    rcases s.rooms.append_cases s.now c.room c.secret none none with
      ⟨entry, he, hne, ha⟩ | ⟨_, hp, ha⟩
    · rw [ha]
      exact iff_of_true ⟨hphase _, rfl⟩ (Or.inr (Or.inr (hrefused he hne)))
    · rw [ha]
      exact hstays (by rintro ⟨⟩) (by simp [howned hp])
  | store size message =>
    simp only [store]
    rcases s.rooms.append_cases s.now c.room c.secret size message with
      ⟨entry, he, hne, ha⟩ | ⟨_, hp, ha⟩
    · rw [ha]
      exact iff_of_true ⟨hphase _, rfl⟩ (Or.inr (Or.inr (hrefused he hne)))
    · rw [ha]
      exact hstays (by rintro ⟨⟩) (by simp [howned hp])
  | delete => exact iff_of_true ⟨hphase _, rfl⟩ (Or.inl rfl)
  | reset =>
    simp only [resetRoom]
    rcases s.rooms.reset_cases s.now c.room c.secret with
      ⟨entry, he, hne, hr⟩ | ⟨hkept, hr⟩ | ⟨entry, he, hp, -, hr⟩
    · rw [hr]
      exact iff_of_true ⟨hphase _, rfl⟩ (Or.inr (Or.inr (hrefused he hne)))
    · have hown : s.reclaimed c = false := by
        apply reclaimed_eq_false
        intro entry he
        exact (hkept entry he).1
      rw [hr]
      exact hstays (by rintro ⟨⟩) (by simp [hown])
    · have hown : s.reclaimed c = false := by
        apply reclaimed_eq_false
        intro held hheld
        rw [he] at hheld
        obtain rfl := Option.some.inj hheld
        exact hp
      rw [hr]
      exact hstays (by rintro ⟨⟩) (by simp [hown])
  | stop => exact iff_of_true ⟨hphase _, rfl⟩ (Or.inr (Or.inl rfl))

theorem mem_connsTo {s : Server} {i : ℕ} {c : Conn} (hc : s.conns[i]? = some c) :
    i ∈ s.connsTo c.room := by
  obtain ⟨hlt, -⟩ := List.getElem?_eq_some_iff.mp hc
  rw [connsTo, List.mem_filter, List.mem_range]
  exact ⟨hlt, by simp [hc]⟩

/-- The connections to a vacated name are orphans, all of them. -/
def AllOrphaned (p : Server × Vacancies) : Prop :=
  ∀ i c, p.1.conns[i]? = some c → c.room ∈ p.2.vacated → i ∈ p.2.orphans

/-- A name that is vacated after a step was vacated before, or the step removed its room. -/
theorem vacated_cases {s s' : Server} {a : Action} {v : Vacancies} {room : RoomId}
    (h : room ∈ (noteVacancies s a s' v).vacated) :
    (room ∈ v.vacated ∧ ∀ secret, a ≠ .handshake room secret) ∨ s.removes a = some room := by
  rcases List.mem_append.mp h with hold | hnew
  · left
    cases a with
    | handshake r secret =>
      obtain ⟨hmem, hne⟩ := List.mem_filter.mp hold
      refine ⟨hmem, ?_⟩
      rintro _ ⟨⟩
      simp at hne
    | _ => exact ⟨hold, nofun⟩
  · exact Or.inr (by simpa using hnew)

theorem allOrphaned_step {p p' : Server × Vacancies} {a : Action} (h : AllOrphaned p)
    (hstep : withHistory step noteVacancies p a = some p') : AllOrphaned p' := by
  obtain ⟨hserver, hnote⟩ := withHistory_eq_some.mp hstep
  intro i c' hc' hvacated
  rw [hnote] at hvacated ⊢
  apply List.mem_append.mpr
  rcases conns_of_step hserver hc' with ⟨c, hc, hroom, -⟩ | ⟨-, -, rfl⟩
  · rw [hroom] at hvacated
    rcases vacated_cases hvacated with ⟨hold, -⟩ | hremoved
    · exact Or.inl (h i c hc hold)
    · right
      simpa [hremoved] using mem_connsTo hc
  · -- the handshake takes its room off the list
    rcases vacated_cases hvacated with ⟨-, hne⟩ | hremoved
    · exact absurd rfl (hne c'.secret)
    · cases hremoved

theorem vacant_step {p p' : Server × Vacancies} {a : Action} (horphaned : AllOrphaned p)
    (hvacant : Vacant p) (hreclaimed : OrphanReclaimed p a)
    (hstep : withHistory step noteVacancies p a = some p') : Vacant p' := by
  obtain ⟨hserver, hnote⟩ := withHistory_eq_some.mp hstep
  intro room hroom
  rw [hnote] at hroom
  rcases vacated_cases hroom with ⟨hold, hne⟩ | hremoved
  · have hnone := hvacant room hold
    -- the name stays free unless this step appends to it, and it does not
    apply (rooms_eq_none_iff_of_step hserver).mpr
    refine Or.inl ⟨hnone, ?_⟩
    intro secret happ
    cases a with
    | handshake r p =>
      obtain ⟨rfl, rfl⟩ : r = room ∧ p = secret := by simpa [appender] using happ
      exact hne p rfl
    | receive i msg =>
      obtain ⟨c, hc, happ⟩ := Option.bind_eq_some_iff.mp happ
      -- the frame of an orphan, and nobody else has the room
      have hcroom : c.room = room := by
        cases hreq : request msg <;> simp_all
      subst hcroom
      rcases hreclaimed i msg c rfl (horphaned i c hc hold) hc with hreq | hreq | hother
      · simp [hreq] at happ
      · simp [hreq] at happ
      · obtain ⟨entry, he, -⟩ := reclaimed_iff.mp hother
        rw [hnone] at he
        cases he
    | _ => cases happ
  · exact (rooms_eq_none_iff_of_step hserver).mpr (Or.inr hremoved)

/-- The step lemma: an orphan's frame ends its loop exactly on that condition. -/
theorem endsOrphan_iff {p p' : Server × Vacancies} {a : Action}
    (hstep : withHistory step noteVacancies p a = some p') :
    EndsOrphan p a ↔ OrphanReclaimed p a := by
  obtain ⟨s, v⟩ := p
  obtain ⟨s', v'⟩ := p'
  obtain ⟨hserver, -⟩ := withHistory_eq_some.mp hstep
  dsimp only at hserver
  constructor
  · rintro hends i msg c rfl horphan hc
    cases step_cases hserver with
    | receive i msg c' hc' hp =>
      obtain rfl : c = c' := Option.some.inj (hc.symm.trans hc')
      exact (receive_ends_iff hc msg).mp (hends i msg _ rfl horphan hserver)
  · rintro hreclaimed i msg s' rfl horphan hs'
    cases step_cases hs' with
    | receive i msg c hc hp =>
      exact (receive_ends_iff hc msg).mpr (hreclaimed i msg c rfl horphan hc)

/-- Vacated names stay free and the next frame of an orphaned loop ends it, in the
whole of a run, if and only if every frame of an orphaned loop that does not itself
end it finds the room in other hands. -/
theorem removed_rooms_stay_removed_iff (ttl : ℕ) (as : List Action) :
    (StatesSatisfy (withHistory step noteVacancies) Vacant (init ttl, ⟨[], []⟩) as ∧
        StepsSatisfy (withHistory step noteVacancies) EndsOrphan (init ttl, ⟨[], []⟩) as) ↔
      StepsSatisfy (withHistory step noteVacancies) OrphanReclaimed (init ttl, ⟨[], []⟩) as := by
  have hends : StepsSatisfy (withHistory step noteVacancies) EndsOrphan (init ttl, ⟨[], []⟩) as ↔
      StepsSatisfy (withHistory step noteVacancies) OrphanReclaimed (init ttl, ⟨[], []⟩) as :=
    stepsSatisfy_congr fun p a p' hstep => endsOrphan_iff hstep
  rw [hends]
  constructor
  · exact fun h => h.2
  · intro h
    refine ⟨?_, h⟩
    apply states_of_invariant (I := fun p => AllOrphaned p ∧ Vacant p) _ (fun p hp => hp.2) _ h
    · rintro p a p' ⟨horphaned, hvacant⟩ hreclaimed hstep
      exact ⟨allOrphaned_step horphaned hstep, vacant_step horphaned hvacant hreclaimed hstep⟩
    · exact ⟨nofun, nofun⟩

/-- A room deleted under its broadcaster: the next frame is stored, claims the name
again, and the loop goes on. -/
theorem removed_room_comes_back :
    ∃ p, run (withHistory step noteVacancies) (init 1000, ⟨[], []⟩)
        [.handshake ⟨"demo"⟩ "pw", .attach 0, .publish 0, .deleteRoom ⟨"demo"⟩ "pw",
          .receive 0 (.binary [7]), .publish 0, .ack 0 true] = some p ∧
      p.2.vacated = [⟨"demo"⟩] ∧ p.2.orphans = [0] ∧
      (p.1.rooms ⟨"demo"⟩).map (fun entry => entry.messages.chunks) = some [[7]] ∧
      p.1.conns[0]?.map Conn.phase = some .receiving :=
  ⟨_, rfl, rfl, rfl, rfl, rfl⟩

end Server

end Shellshare
