import Shellshare.ServerSteps

/-! When the online status that viewers were last told is the room's own. A loop
updates the count and publishes its status in two steps. -/
namespace Shellshare

/-- The status a loop has still to publish. -/
def Phase.pendingStatus : Phase → Option Bool
  | .announcing => some true
  | .signingOff => some false
  | _ => none

/-- The status an output announces to a room's viewers. -/
def Output.status (room : RoomId) : Output → Option Bool
  | .control r (.broadcasting b) => if r = room then some b else none
  | _ => none

namespace Rooms

/-- The room exists and counts a broadcaster. -/
def live (rooms : Rooms) (room : RoomId) : Bool := (rooms.claim room).any fun c => 0 < c.2

variable {rooms rooms' : Rooms} {now : ℕ} {room r : RoomId} {secret : String}
  {size : Option Json} {message : Option Bytes}

theorem live_congr (h : rooms'.claim r = rooms.claim r) : rooms'.live r = rooms.live r := by
  simp only [live, h]

/-- Claiming a missing room counts nobody yet. -/
@[simp] theorem live_append :
    (rooms.append now room secret size message).2.live r = rooms.live r := by
  simp only [live, claim_append]
  split_ifs with h
  · obtain ⟨rfl, hnone⟩ := h
    simp [claim_eq_none.mpr hnone]
  · rfl

@[simp] theorem live_reset : (rooms.reset now room secret).2.live r = rooms.live r :=
  live_congr claim_reset

end Rooms

namespace Server
open TransitionRuns

/-- The status last published for the room, offline when none ever was. -/
def lastStatus (s : Server) (room : RoomId) : Bool :=
  ((s.published.filterMap (Output.status room)).getLast?).getD false

/-- No loop but `i` has a status of the room outstanding. -/
def OthersQuiet (s : Server) (i : ℕ) (room : RoomId) : Prop :=
  ∀ (j : ℕ) (c : Conn), j ≠ i → s.conns[j]? = some c → c.room = room →
    c.phase.pendingStatus = none

/-- No loop has a status of the room outstanding. -/
def Quiet (s : Server) (room : RoomId) : Prop :=
  ∀ (j : ℕ) (c : Conn), s.conns[j]? = some c → c.room = room → c.phase.pendingStatus = none

/-- Where no status is outstanding, viewers were told the right one. -/
def StatusSettled (s : Server) : Prop :=
  ∀ room, s.Quiet room → s.lastStatus room = s.rooms.live room

/-- The last outstanding status of a room is not published stale, and no live
room is removed while none is outstanding. -/
structure StatusKept (s : Server) (a : Action) : Prop where
  fresh : ∀ i c b, a = .publish i → s.conns[i]? = some c → c.phase.pendingStatus = some b →
    s.OthersQuiet i c.room → b = s.rooms.live c.room
  noRemoval : ∀ room, s.removes a = some room → s.rooms.live room = true → ¬ s.Quiet room

theorem statusKept_of_quiet_action {s : Server} {a : Action} (hp : ∀ i, a ≠ .publish i)
    (hr : s.removes a = none) : StatusKept s a :=
  ⟨fun i _ _ ha => absurd ha (hp i), fun room h => by rw [hr] at h; cases h⟩

theorem quiet_iff {s : Server} {i : ℕ} {c : Conn} (hc : s.conns[i]? = some c) (room : RoomId) :
    s.Quiet room ↔ (c.room = room → c.phase.pendingStatus = none) ∧ s.OthersQuiet i room := by
  constructor
  · exact fun h => ⟨h i c hc, fun j c' _ hj => h j c' hj⟩
  · rintro ⟨hi, hothers⟩ j c' hj
    by_cases hji : j = i
    · subst hji
      obtain rfl : c = c' := by simpa [hc] using hj
      exact hi
    · exact hothers j c' hji hj

theorem quiet_set_iff {s s' : Server} {i : ℕ} {c c' : Conn} (hc : s.conns[i]? = some c)
    (hs' : s'.conns = s.conns.set i c') (room : RoomId) :
    s'.Quiet room ↔ (c'.room = room → c'.phase.pendingStatus = none) ∧ s.OthersQuiet i room := by
  have hlt : i < s.conns.length := (List.getElem?_eq_some_iff.mp hc).1
  have hi : s'.conns[i]? = some c' := by rw [hs', List.getElem?_set_self hlt]
  rw [quiet_iff hi]
  refine and_congr_right fun _ => ?_
  constructor
  · intro h j d hji hj
    exact h j d hji (by rwa [hs', List.getElem?_set_ne (Ne.symm hji)])
  · intro h j d hji hj
    rw [hs', List.getElem?_set_ne (Ne.symm hji)] at hj
    exact h j d hji hj

/-- A loop that publishes nothing on either side of the step leaves the room as
quiet as it was. -/
theorem quiet_set_same {s s' : Server} {i : ℕ} {c c' : Conn} (hc : s.conns[i]? = some c)
    (hs' : s'.conns = s.conns.set i c') (hroom : c'.room = c.room)
    (hpending : c'.phase.pendingStatus = c.phase.pendingStatus) (room : RoomId) :
    s'.Quiet room ↔ s.Quiet room := by
  rw [quiet_set_iff hc hs', quiet_iff hc, hroom, hpending]

/-- Steps that leave what viewers were told and the status of each quiet room. -/
theorem statusSettled_of_frame {s s' : Server} (h : StatusSettled s)
    (hframe : ∀ room, s'.Quiet room →
      s.Quiet room ∧ s'.lastStatus room = s.lastStatus room ∧
        s'.rooms.live room = s.rooms.live room) : StatusSettled s' := by
  intro room hq
  obtain ⟨hq, hlast, hlive⟩ := hframe room hq
  rw [hlast, hlive, h room hq]

theorem live_removed {s : Server} {rooms : Rooms} {room : RoomId} {cond : Prop} [Decidable cond]
    (hrooms : ∀ r, rooms.claim r = if r = room ∧ cond then none else s.rooms.claim r)
    (r : RoomId) : rooms.live r = if r = room ∧ cond then false else s.rooms.live r := by
  simp only [Rooms.live, hrooms]
  split_ifs <;> rfl

/-- A step that at most removes a room keeps the status exactly when the room
was not live, or its status still has to be published. -/
theorem settled_removal_iff {s s' : Server} {room : RoomId} {cond : Prop} [Decidable cond]
    (h : StatusSettled s)
    (hrooms : ∀ r, s'.rooms.claim r = if r = room ∧ cond then none else s.rooms.claim r)
    (hquiet : ∀ r, s'.Quiet r ↔ s.Quiet r) (hlast : ∀ r, s'.lastStatus r = s.lastStatus r) :
    StatusSettled s' ↔ (cond → s.rooms.live room = true → ¬ s.Quiet room) := by
  have hlive := live_removed hrooms
  constructor
  · -- viewers of the removed room were last told that it is live
    intro h' hcond hl hq
    have hnow := h' room ((hquiet room).mpr hq)
    rw [hlast, h room hq, hl, hlive, if_pos ⟨rfl, hcond⟩] at hnow
    cases hnow
  · intro hkept r hq
    have hq := (hquiet r).mp hq
    rw [hlast, h r hq, hlive]
    split_ifs with hcase
    · obtain ⟨rfl, hcond⟩ := hcase
      simpa using fun hl => hkept hcond hl hq
    · rfl

theorem lastStatus_publish (s : Server) (out : Output) (i : ℕ) (c : Conn) (room : RoomId) :
    ({ s with published := s.published ++ [out] }.setConn i c).lastStatus room =
      (out.status room).getD (s.lastStatus room) := by
  simp only [lastStatus, setConn, List.filterMap_append]
  cases h : out.status room <;> simp [h]

/-- A loop that owed no status moves: only rooms that stay quiet are to keep their liveness. -/
theorem statusSettled_of_conns_set {s s' : Server} {i : ℕ} {c c' : Conn} (h : StatusSettled s)
    (hc : s.conns[i]? = some c) (hset : s'.conns = s.conns.set i c')
    (hpending : c.phase.pendingStatus = none)
    (hlast : ∀ room, s'.lastStatus room = s.lastStatus room)
    (hlive : ∀ room, (c'.room = room → c'.phase.pendingStatus = none) →
      s'.rooms.live room = s.rooms.live room) : StatusSettled s' := by
  apply statusSettled_of_frame h
  intro room hq
  rw [quiet_set_iff hc hset] at hq
  obtain ⟨hmine, hothers⟩ := hq
  have hbefore : s.Quiet room := (quiet_iff hc room).mpr ⟨fun _ => hpending, hothers⟩
  exact ⟨hbefore, hlast room, hlive room hmine⟩

theorem settled_attach {s : Server} {i : ℕ} {c : Conn} (h : StatusSettled s)
    (hc : s.conns[i]? = some c) (hp : c.phase = .upgraded) : StatusSettled (s.attach i c) := by
  refine statusSettled_of_conns_set h hc rfl (by rw [hp]; rfl) (fun _ => rfl) ?_
  intro room hmine
  by_cases hclaim : ∃ n, s.rooms.claim c.room = some (c.secret, n)
  · obtain ⟨n, hn⟩ := hclaim
    obtain ⟨hcount, hrooms⟩ := Rooms.broadcasterConnected_of_claim hn s.now
    -- a counted loop owes its room a status, so a quiet room is another one
    have hne : room ≠ c.room := by
      intro hroom
      have := hmine hroom.symm
      simp [Conn.to, hcount, Phase.pendingStatus] at this
    exact Rooms.live_congr (by simp only [attach, setConn, hrooms, if_neg hne])
  · simp only [not_exists] at hclaim
    have hrooms : (s.attach i c).rooms = s.rooms :=
      congrArg Prod.snd (Rooms.broadcasterConnected_of_not_claim hclaim s.now)
    rw [hrooms]

theorem settled_detach {s : Server} {i : ℕ} {c : Conn} (h : StatusSettled s)
    (hc : s.conns[i]? = some c) (hp : c.phase = .leaving) : StatusSettled (s.detach i c) := by
  refine statusSettled_of_conns_set h hc rfl (by rw [hp]; rfl) (fun _ => rfl) ?_
  intro room hmine
  by_cases hclaim : ∃ n, s.rooms.claim c.room = some (c.secret, n)
  · obtain ⟨n, hn⟩ := hclaim
    obtain ⟨hcount, hrooms⟩ := Rooms.broadcasterDisconnected_of_claim hn s.now
    have hlive : (s.detach i c).rooms.live room = if room = c.room then decide (0 < n - 1)
        else s.rooms.live room := by
      simp only [Rooms.live, detach, setConn, hrooms]
      split_ifs <;> rfl
    rw [hlive]
    split_ifs with hroom
    · -- others remain attached, for the last one out would sign off
      have hpos : n - 1 ≠ 0 := by
        intro h0
        have := hmine hroom.symm
        simp [Conn.to, hcount, h0, Phase.pendingStatus] at this
      subst hroom
      simp only [Rooms.live, hn, Option.any_some, decide_eq_decide]
      omega
    · rfl
  · simp only [not_exists] at hclaim
    have hrooms : (s.detach i c).rooms = s.rooms :=
      (Rooms.broadcasterDisconnected_of_not_claim hclaim s.now).2
    rw [hrooms]

theorem settled_publish_iff {s : Server} {i : ℕ} {c : Conn} {out : Output} {phase : Phase}
    (h : StatusSettled s) (hc : s.conns[i]? = some c) (hp : c.publication = some (out, phase)) :
    StatusSettled ({ s with published := s.published ++ [out] }.setConn i (c.to phase)) ↔
      (∀ b, c.phase.pendingStatus = some b → s.OthersQuiet i c.room →
        b = s.rooms.live c.room) := by
  have hphase : phase.pendingStatus = none := by
    rcases publication_cases hp with ⟨_, _, rfl⟩ | ⟨_, _, _, rfl⟩ | ⟨_, _, rfl⟩ | ⟨_, _, rfl⟩ <;>
      rfl
  have hstatus : ∀ room, out.status room =
      if c.room = room then c.phase.pendingStatus else none := by
    intro room
    rcases publication_cases hp with ⟨h, rfl, -⟩ | ⟨_, h, rfl, -⟩ | ⟨h, rfl, -⟩ | ⟨h, rfl, -⟩ <;>
      simp [h, Output.status, Phase.pendingStatus]
  -- the loop owes nothing afterwards, so the others decide
  have hquiet : ∀ room, ({ s with published := s.published ++ [out] }.setConn i
      (c.to phase)).Quiet room ↔ s.OthersQuiet i room := by
    intro room
    rw [quiet_set_iff hc rfl]
    exact and_iff_right fun _ => hphase
  constructor
  · -- the publication leaves the room quiet, and what it says is the last word
    intro h' b hb hothers
    have hnow := h' c.room ((hquiet c.room).mpr hothers)
    rw [lastStatus_publish, hstatus, if_pos rfl, hb] at hnow
    exact hnow
  · intro hfresh room hq
    have hothers := (hquiet room).mp hq
    rw [lastStatus_publish, hstatus]
    split_ifs with hroom
    · subst hroom
      cases hb : c.phase.pendingStatus with
      | some b => exact hfresh b hb hothers
      | none => exact h c.room ((quiet_iff hc _).mpr ⟨fun _ => hb, hothers⟩)
    · exact h room ((quiet_iff hc _).mpr ⟨fun hr => absurd hr hroom, hothers⟩)

theorem settled_receive_iff {s : Server} {i : ℕ} {c : Conn} (msg : WsMessage)
    (h : StatusSettled s) (hc : s.conns[i]? = some c) (hp : c.phase = .receiving) :
    StatusSettled (s.receive i c msg) ↔
      ∀ room, s.removes (.receive i msg) = some room → s.rooms.live room = true →
        ¬ s.Quiet room := by
  obtain ⟨c', hconns, hroom, -, -, hpub, hcases⟩ := receive_spec s i c msg
  have hquiet : ∀ r, (s.receive i c msg).Quiet r ↔ s.Quiet r := by
    refine quiet_set_same hc hconns hroom ?_
    rw [hp]
    rcases hcases with ⟨_, h | h | h, _⟩ | ⟨_, _, _, _, _, _, h⟩ <;> rw [h] <;> rfl
  have hlast : ∀ r, (s.receive i c msg).lastStatus r = s.lastStatus r := fun r => by
    simp only [lastStatus, hpub]
  -- all but a delete frame leave the attach counts alone
  have hother : s.removes (.receive i msg) = none →
      (∀ r, (s.receive i c msg).rooms.live r = s.rooms.live r) →
      (StatusSettled (s.receive i c msg) ↔ ∀ room, s.removes (.receive i msg) = some room →
        s.rooms.live room = true → ¬ s.Quiet room) := by
    intro hnone hlive
    refine iff_of_true (statusSettled_of_frame h fun room hq =>
      ⟨(hquiet room).mp hq, hlast room, hlive room⟩) ?_
    intro room hr
    rw [hnone] at hr
    cases hr
  have hrooms := receive_rooms s i c msg
  cases hreq : request msg with
  | keepalive =>
    rw [hreq] at hrooms
    exact hother (by simp [removes, hc, hreq]) fun r => by rw [hrooms, Rooms.live_append]
  | store size message =>
    rw [hreq] at hrooms
    exact hother (by simp [removes, hc, hreq]) fun r => by rw [hrooms, Rooms.live_append]
  | delete =>
    rw [hreq] at hrooms
    rw [settled_removal_iff h (fun r => by rw [hrooms, Rooms.claim_delete]) hquiet hlast]
    simp [removes, hc, hreq]
  | reset =>
    rw [hreq] at hrooms
    exact hother (by simp [removes, hc, hreq]) fun r => by rw [hrooms, Rooms.live_reset]
  | stop =>
    rw [hreq] at hrooms
    exact hother (by simp [removes, hc, hreq]) fun r => by rw [hrooms]

/-- The step lemma: a step keeps the published status settled if and only if it
neither leaves a stale status as the last one nor removes a live room unannounced. -/
theorem statusSettled_step_iff {s s' : Server} {a : Action} (h : StatusSettled s)
    (hstep : s.step a = some s') : StatusSettled s' ↔ StatusKept s a := by
  -- only a publication or a removal can unsettle a status
  have hframe : ∀ {s' : Server}, (∀ i, a ≠ .publish i) → s.removes a = none →
      (∀ room, s'.Quiet room → s.Quiet room ∧ s'.lastStatus room = s.lastStatus room ∧
        s'.rooms.live room = s.rooms.live room) → (StatusSettled s' ↔ StatusKept s a) :=
    fun hp hr hf => iff_of_true (statusSettled_of_frame h hf) (statusKept_of_quiet_action hp hr)
  have hmove : ∀ {i : ℕ} {c : Conn} {phase : Phase}, s.conns[i]? = some c →
      phase.pendingStatus = c.phase.pendingStatus → ∀ room, (s.setConn i (c.to phase)).Quiet room →
        s.Quiet room ∧ (s.setConn i (c.to phase)).lastStatus room = s.lastStatus room ∧
          (s.setConn i (c.to phase)).rooms.live room = s.rooms.live room := by
    intro i c phase hc hpending room hq
    have hset : (s.setConn i (c.to phase)).conns = s.conns.set i (c.to phase) := rfl
    exact ⟨(quiet_set_same hc hset rfl hpending room).mp hq, rfl, rfl⟩
  cases step_cases hstep with
  | elapse d => exact hframe (by rintro i ⟨⟩) rfl fun room hq => ⟨hq, rfl, rfl⟩
  | handshake room secret =>
    refine hframe (by rintro i ⟨⟩) rfl fun r hq => ⟨?_, ?_, ?_⟩
    · intro j c hj
      refine hq j c ?_
      rcases handshake_conns s room secret with hconns | hconns
      · rwa [hconns]
      · rw [hconns]
        exact List.getElem?_append_left (List.getElem?_eq_some_iff.mp hj).1 ▸ hj
    · simp only [lastStatus, handshake]
      split <;> rfl
    · rw [handshake_rooms, Rooms.live_append]
  | attach i c hc hp =>
    exact iff_of_true (settled_attach h hc hp) (statusKept_of_quiet_action (by rintro i ⟨⟩) rfl)
  | receive i msg c hc hp =>
    rw [settled_receive_iff msg h hc hp]
    exact ⟨fun hr => ⟨by rintro i c b ⟨⟩, hr⟩, fun hk => hk.noRemoval⟩
  | hangUp i c hc hp => exact hframe (by rintro i ⟨⟩) rfl (hmove hc (by rw [hp]; rfl))
  | publish i c out phase hc hp =>
    rw [settled_publish_iff h hc hp]
    constructor
    · refine fun hf => ⟨?_, by rintro room ⟨⟩⟩
      rintro _ c' b ⟨⟩ hc' hb hothers
      obtain rfl : c = c' := by simpa [hc] using hc'
      exact hf b hb hothers
    · exact fun hk b hb hothers => hk.fresh i c b rfl hc hb hothers
  | ack i sent c hc hp =>
    exact hframe (by rintro i ⟨⟩) rfl (hmove hc (by rw [hp]; cases sent <;> rfl))
  | detach i c hc hp =>
    exact iff_of_true (settled_detach h hc hp) (statusKept_of_quiet_action (by rintro i ⟨⟩) rfl)
  | deleteRoom room secret =>
    refine Iff.trans (settled_removal_iff h (fun _ => Rooms.claim_delete)
      (fun _ => Iff.rfl) fun _ => rfl) ?_
    constructor
    · exact fun hr => ⟨by rintro i c b ⟨⟩, by simpa [removes] using hr⟩
    · exact fun hk => by simpa [removes] using hk.noRemoval
  | evict room =>
    refine Iff.trans (settled_removal_iff h (fun _ => Rooms.claim_evictRoom)
      (fun _ => Iff.rfl) fun _ => rfl) ?_
    constructor
    · exact fun hr => ⟨by rintro i c b ⟨⟩, by simpa [removes] using hr⟩
    · exact fun hk => by simpa [removes] using hk.noRemoval

/-- The published status is settled in every state of a run if and only if no
step of the run publishes a stale status last or removes a live room unannounced. -/
theorem online_status_settled_iff (ttl : ℕ) (as : List Action) :
    StatesSatisfy step StatusSettled (init ttl) as ↔
      StepsSatisfy step StatusKept (init ttl) as := by
  have hinit : StatusSettled (init ttl) := fun room _ => rfl
  exact states_iff_steps (I := fun _ => True) (fun _ _ _ _ _ _ => trivial)
    (fun s a s' _ _ hP hstep => statusSettled_step_iff hP hstep) trivial hinit
    (stepsSatisfy_of_forall (C := fun _ _ => True) (fun _ _ => trivial) _ as)

/-- One loop detaches as the last, a second attaches and announces itself, and
then the first publishes that nobody is there. -/
theorem online_status_not_settled :
    ∃ s, run step (init 1000)
        [.handshake ⟨"demo"⟩ "pw", .attach 0, .publish 0, .handshake ⟨"demo"⟩ "pw", .hangUp 0,
          .detach 0, .attach 1, .publish 1, .publish 0] = some s ∧
      (∀ c ∈ s.conns, c.phase.pendingStatus = none) ∧
      s.lastStatus ⟨"demo"⟩ = false ∧ s.rooms.live ⟨"demo"⟩ = true :=
  ⟨_, rfl, by decide, rfl, rfl⟩

end Server

end Shellshare
