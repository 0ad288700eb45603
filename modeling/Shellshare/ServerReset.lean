import Shellshare.ServerSteps

/-! When a reset frame makes open viewers clear their screens, and what a late
joiner is replayed then. -/
namespace Shellshare

/-- The history a late joiner is replayed. -/
def Rooms.replayed (rooms : Rooms) (room : RoomId) : Option Bytes :=
  (rooms room).bind fun entry => entry.messages.accumulated

namespace Server
open TransitionRuns

/-- What loop `i` is about to hand to viewer delivery. -/
def pending (s : Server) (i : ℕ) : Option Output :=
  (s.conns[i]?.bind Conn.publication).map Prod.fst

/-- A reset frame that makes the viewers clear leaves nothing to replay. -/
def ResetClears (s : Server) (a : Action) : Prop :=
  ∀ i msg c s', a = .receive i msg → s.conns[i]? = some c → request msg = .reset →
    s.step a = some s' → s'.pending i = some (.control c.room .reset) →
      s'.rooms.replayed c.room = none

/-- A reset frame with the password of a room that counts a second broadcaster finds
nothing to replay. -/
def ResetsSoleOrBlank (s : Server) (a : Action) : Prop :=
  ∀ i msg c entry, a = .receive i msg → s.conns[i]? = some c → request msg = .reset →
    s.rooms c.room = some entry → entry.password = c.secret → 1 < entry.broadcasters →
      entry.messages.accumulated = none

/-- The Reset goes out after every reset that is not refused, whatever it cleared. -/
theorem pending_receive_reset {s : Server} {i : ℕ} {c : Conn} {msg : WsMessage}
    (hc : s.conns[i]? = some c) (hreq : request msg = .reset) :
    (s.receive i c msg).pending i = match (s.rooms.reset s.now c.room c.secret).1 with
      | .ok _ => some (.control c.room .reset)
      | .error _ => none := by
  obtain ⟨hlt, -⟩ := List.getElem?_eq_some_iff.mp hc
  unfold receive
  rw [hreq]
  simp only [resetRoom]
  rcases s.rooms.reset s.now c.room c.secret with ⟨_ | _, rooms⟩ <;>
    simp [pending, setConn, hlt, Conn.to, Conn.publication]

theorem replayed_update (rooms : Rooms) (room : RoomId) (entry : Room) :
    Rooms.replayed (Function.update rooms room (some entry)) room = entry.messages.accumulated := by
  simp [Rooms.replayed]

/-- The step lemma: of the resets that are not refused, only one that is skipped
for a second broadcaster leaves anything to replay. -/
theorem resetClears_iff {s s' : Server} {a : Action} (hstep : s.step a = some s') :
    ResetClears s a ↔ ResetsSoleOrBlank s a := by
  have hquiet : ∀ {a}, (∀ i msg, a ≠ .receive i msg) → (ResetClears s a ↔ ResetsSoleOrBlank s a) :=
    fun ha => iff_of_true (fun i msg _ _ h => absurd h (ha i msg))
      fun i msg _ _ h => absurd h (ha i msg)
  cases step_cases hstep with
  | receive i msg c hc hp =>
    by_cases hreq : request msg = .reset
    · have hrooms : (s.receive i c msg).rooms = (s.rooms.reset s.now c.room c.secret).2 := by
        rw [receive_rooms, hreq]
      have hpending := pending_receive_reset hc hreq
      have hclears : ResetClears s (.receive i msg) ↔
          ((s.receive i c msg).pending i = some (.control c.room .reset) →
            (s.receive i c msg).rooms.replayed c.room = none) := by
        constructor
        · exact fun h => h i msg c _ rfl hc hreq hstep
        · rintro h _ _ d t ⟨⟩ hd - ht
          obtain rfl := Option.some.inj (hc.symm.trans hd)
          obtain rfl := Option.some.inj (hstep.symm.trans ht)
          exact h
      have hblank : ResetsSoleOrBlank s (.receive i msg) ↔
          ∀ entry, s.rooms c.room = some entry → entry.password = c.secret →
            1 < entry.broadcasters → entry.messages.accumulated = none := by
        constructor
        · exact fun h entry => h i msg c entry rfl hc hreq
        · rintro h _ _ d entry ⟨⟩ hd -
          obtain rfl := Option.some.inj (hc.symm.trans hd)
          exact h entry
      rw [hclears, hblank, hpending, hrooms]
      -- refused, without a room or skipped for a second broadcaster, or cleared
      rcases s.rooms.reset_cases s.now c.room c.secret with
        ⟨entry, he, hne, hr⟩ | ⟨hkept, hr⟩ | ⟨entry, he, hown, hsole, hr⟩
      · rw [hr]
        refine iff_of_true nofun ?_
        rintro held hheld hown -
        obtain rfl := Option.some.inj (he.symm.trans hheld)
        exact absurd hown hne
      · rw [hr]
        cases he : s.rooms c.room with
        | none => simp [Rooms.replayed, he]
        | some entry =>
          obtain ⟨hown, hmany⟩ := hkept entry he
          simp [Rooms.replayed, he, hown, hmany]
      · rw [hr]
        refine iff_of_true (fun _ => replayed_update _ _ _) ?_
        rintro held hheld - hmany
        obtain rfl := Option.some.inj (he.symm.trans hheld)
        omega
    · refine iff_of_true ?_ ?_
      · rintro _ _ _ _ ⟨⟩ - hreset
        exact absurd hreset hreq
      · rintro _ _ _ _ ⟨⟩ - hreset
        exact absurd hreset hreq
  | _ => exact hquiet nofun

/-- In a run every reset that makes the viewers clear leaves nothing to replay if and
only if every reset that a second broadcaster keeps from clearing has nothing to clear. -/
theorem viewers_clear_with_history_iff (ttl : ℕ) (as : List Action) :
    StepsSatisfy step ResetClears (init ttl) as ↔
      StepsSatisfy step ResetsSoleOrBlank (init ttl) as :=
  stepsSatisfy_congr fun _ _ _ hstep => resetClears_iff hstep

/-- Two loops attached and a stored chunk: the viewers of the room are told to clear,
a late joiner is replayed the chunk. -/
theorem viewers_clear_history_stays :
    ∃ s, run step (init 1000)
        [.handshake ⟨"demo"⟩ "pw", .attach 0, .publish 0,
          .handshake ⟨"demo"⟩ "pw", .attach 1, .publish 1,
          .receive 0 (.binary [7]), .publish 0, .ack 0 true,
          .receive 1 (.text 14 (some (.object [("reset", .bool true)])))] = some s ∧
      s.pending 1 = some (.control ⟨"demo"⟩ .reset) ∧
      s.rooms.replayed ⟨"demo"⟩ = some [7] :=
  ⟨_, rfl, rfl, rfl⟩

end Server

end Shellshare
