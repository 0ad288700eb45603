import Shellshare.ServerSteps

/-! Attach-count accuracy: when a room's `broadcasters` field counts the loops
that are attached to it. -/
namespace Shellshare
namespace Server
open TransitionRuns

/-- Every room counts the attached loops that hold its password. -/
def AttachCountsExact (s : Server) : Prop :=
  ∀ room entry, s.rooms room = some entry →
    entry.broadcasters = s.conns.countP (Conn.attachedTo room entry.password)

/-- No append finds its room missing, and so claims it afresh with a count of
zero, while a loop with that room and secret is still attached. -/
def ClaimsOnlyUnattended (s : Server) (a : Action) : Prop :=
  ∀ room secret, s.appender a = some (room, secret) → s.rooms room = none →
    s.conns.countP (Conn.attachedTo room secret) = 0

theorem attachCountsExact_iff {s : Server} :
    AttachCountsExact s ↔ ∀ room p n, s.rooms.claim room = some (p, n) →
      n = s.conns.countP (Conn.attachedTo room p) := by
  constructor
  · intro h room p n hc
    obtain ⟨entry, he, rfl, rfl⟩ := Rooms.claim_eq_some.mp hc
    exact h room entry he
  · intro h room entry he
    exact h room entry.password entry.broadcasters (by simp [Rooms.claim, he])

/-- A loop that keeps its room, its secret and its place on either side of the
attach leaves every count as it was. -/
theorem countP_attachedTo_set {s : Server} {i : ℕ} {c c' : Conn} (hc : s.conns[i]? = some c)
    (hroom : c'.room = c.room) (hsecret : c'.secret = c.secret)
    (hphase : c'.phase.attached = c.phase.attached) (room : RoomId) (p : String) :
    (s.conns.set i c').countP (Conn.attachedTo room p) =
      s.conns.countP (Conn.attachedTo room p) := by
  apply countP_set_same hc
  simp only [Conn.attachedTo, hroom, hsecret, hphase]

/-- The step lemma for steps that neither attach nor detach: the counts survive
exactly when a freshly claimed room has nobody attached. -/
theorem exact_append_iff {s : Server} {rooms : Rooms} {conns : List Conn} {room : RoomId}
    {secret : String} (h : AttachCountsExact s)
    (hrooms : ∀ r, rooms.claim r =
      if r = room ∧ s.rooms room = none then some (secret, 0) else s.rooms.claim r)
    (hconns : ∀ r p, conns.countP (Conn.attachedTo r p) =
      s.conns.countP (Conn.attachedTo r p)) :
    (∀ r p n, rooms.claim r = some (p, n) → n = conns.countP (Conn.attachedTo r p)) ↔
      (s.rooms room = none → s.conns.countP (Conn.attachedTo room secret) = 0) := by
  rw [attachCountsExact_iff] at h
  constructor
  · intro h' hnone
    have hclaim : rooms.claim room = some (secret, 0) := by
      rw [hrooms, if_pos ⟨rfl, hnone⟩]
    rw [← hconns]
    exact (h' room secret 0 hclaim).symm
  · intro hzero r p n hclaim
    rw [hrooms] at hclaim
    rw [hconns]
    split_ifs at hclaim with hcase
    · obtain ⟨rfl, hnone⟩ := hcase
      simp only [Option.some.injEq, Prod.mk.injEq] at hclaim
      obtain ⟨rfl, rfl⟩ := hclaim
      exact (hzero hnone).symm
    · exact h r p n hclaim

theorem exact_of_claim_le {s : Server} {rooms : Rooms} {conns : List Conn}
    (h : AttachCountsExact s)
    (hrooms : ∀ r, rooms.claim r = none ∨ rooms.claim r = s.rooms.claim r)
    (hconns : ∀ r p, conns.countP (Conn.attachedTo r p) =
      s.conns.countP (Conn.attachedTo r p)) :
    ∀ r p n, rooms.claim r = some (p, n) → n = conns.countP (Conn.attachedTo r p) := by
  rw [attachCountsExact_iff] at h
  intro r p n hclaim
  rcases hrooms r with hnone | hsame
  · rw [hnone] at hclaim
    cases hclaim
  · rw [hconns]
    exact h r p n (hsame ▸ hclaim)

/-- An attach counts towards its own room and secret, and nowhere else. -/
theorem countP_attachedTo_enter {s : Server} {i : ℕ} {c c' : Conn} (hc : s.conns[i]? = some c)
    (hroom : c'.room = c.room) (hsecret : c'.secret = c.secret)
    (hbefore : c.phase.attached = false) (hafter : c'.phase.attached = true)
    (room : RoomId) (p : String) :
    (s.conns.set i c').countP (Conn.attachedTo room p) =
      s.conns.countP (Conn.attachedTo room p) +
        if c.room = room ∧ c.secret = p then 1 else 0 := by
  split_ifs with hmine
  · apply countP_set_enter hc <;> simp [Conn.attachedTo, hroom, hsecret, hbefore, hafter, hmine]
  · rw [countP_set_same hc, Nat.add_zero]
    simp only [not_and] at hmine
    simp only [Conn.attachedTo, hroom, hsecret, hbefore, hafter, Bool.and_true, Bool.and_false]
    simpa using hmine

theorem countP_attachedTo_exit {s : Server} {i : ℕ} {c c' : Conn} (hc : s.conns[i]? = some c)
    (hroom : c'.room = c.room) (hsecret : c'.secret = c.secret)
    (hbefore : c.phase.attached = true) (hafter : c'.phase.attached = false)
    (room : RoomId) (p : String) :
    (s.conns.set i c').countP (Conn.attachedTo room p) +
        (if c.room = room ∧ c.secret = p then 1 else 0) =
      s.conns.countP (Conn.attachedTo room p) := by
  split_ifs with hmine
  · apply countP_set_exit hc <;> simp [Conn.attachedTo, hroom, hsecret, hbefore, hafter, hmine]
  · rw [countP_set_same hc, Nat.add_zero]
    simp only [not_and] at hmine
    simp only [Conn.attachedTo, hroom, hsecret, hbefore, hafter, Bool.and_true, Bool.and_false]
    simpa using hmine

theorem exact_attach {s : Server} {i : ℕ} {c : Conn} (h : AttachCountsExact s)
    (hc : s.conns[i]? = some c) (hp : c.phase = .upgraded) : AttachCountsExact (s.attach i c) := by
  rw [attachCountsExact_iff] at h ⊢
  have hbefore : c.phase.attached = false := by rw [hp]; rfl
  have hafter : ∀ n, (if 0 < n then Phase.announcing else Phase.receiving).attached = true :=
    fun n => by split <;> rfl
  have hcount : ∀ r p, (s.attach i c).conns.countP (Conn.attachedTo r p) =
      s.conns.countP (Conn.attachedTo r p) + if c.room = r ∧ c.secret = p then 1 else 0 :=
    countP_attachedTo_enter hc rfl rfl hbefore (hafter _)
  intro r p n hclaim
  rw [hcount]
  -- the loop is counted if the room is still there and its own
  by_cases hmine : ∃ m, s.rooms.claim c.room = some (c.secret, m)
  · obtain ⟨m, hm⟩ := hmine
    have hrooms : (s.attach i c).rooms.claim r =
        if r = c.room then some (c.secret, m + 1) else s.rooms.claim r :=
      (Rooms.broadcasterConnected_of_claim hm s.now).2 r
    rw [hrooms] at hclaim
    split_ifs at hclaim with hr
    · simp only [Option.some.injEq, Prod.mk.injEq] at hclaim
      obtain ⟨rfl, rfl⟩ := hclaim
      rw [if_pos ⟨hr.symm, rfl⟩, hr, ← h c.room c.secret m hm]
    · rw [if_neg (fun hh => hr hh.1.symm), Nat.add_zero]
      exact h r p n hclaim
  · simp only [not_exists] at hmine
    have hrooms : (s.attach i c).rooms = s.rooms :=
      congrArg Prod.snd (Rooms.broadcasterConnected_of_not_claim hmine s.now)
    rw [hrooms] at hclaim
    rw [if_neg, Nat.add_zero]
    · exact h r p n hclaim
    · rintro ⟨rfl, rfl⟩
      exact hmine n hclaim

theorem exact_detach {s : Server} {i : ℕ} {c : Conn} (h : AttachCountsExact s)
    (hc : s.conns[i]? = some c) (hp : c.phase = .leaving) : AttachCountsExact (s.detach i c) := by
  rw [attachCountsExact_iff] at h ⊢
  have hbefore : c.phase.attached = true := by rw [hp]; rfl
  have hafter : ∀ n, (if n = 0 then Phase.signingOff else Phase.ended).attached = false :=
    fun n => by split <;> rfl
  have hcount : ∀ r p, (s.detach i c).conns.countP (Conn.attachedTo r p) +
      (if c.room = r ∧ c.secret = p then 1 else 0) = s.conns.countP (Conn.attachedTo r p) :=
    countP_attachedTo_exit hc rfl rfl hbefore (hafter _)
  intro r p n hclaim
  have hcount := hcount r p
  by_cases hmine : ∃ m, s.rooms.claim c.room = some (c.secret, m)
  · obtain ⟨m, hm⟩ := hmine
    have hrooms : (s.detach i c).rooms.claim r =
        if r = c.room then some (c.secret, m - 1) else s.rooms.claim r :=
      (Rooms.broadcasterDisconnected_of_claim hm s.now).2 r
    rw [hrooms] at hclaim
    split_ifs at hclaim with hr
    · -- the loop's own attach is among those counted, so the subtraction is exact
      simp only [Option.some.injEq, Prod.mk.injEq] at hclaim
      obtain ⟨rfl, rfl⟩ := hclaim
      have hm' := h c.room c.secret m hm
      rw [if_pos ⟨hr.symm, rfl⟩, hr] at hcount
      rw [hr]
      omega
    · rw [if_neg (fun hh => hr hh.1.symm), Nat.add_zero] at hcount
      rw [hcount]
      exact h r p n hclaim
  · simp only [not_exists] at hmine
    have hrooms : (s.detach i c).rooms = s.rooms :=
      (Rooms.broadcasterDisconnected_of_not_claim hmine s.now).2
    rw [hrooms] at hclaim
    rw [if_neg, Nat.add_zero] at hcount
    · rw [hcount]
      exact h r p n hclaim
    · rintro ⟨rfl, rfl⟩
      exact hmine n hclaim

theorem countP_attachedTo_receive {s : Server} {i : ℕ} {c : Conn} (hc : s.conns[i]? = some c)
    (hp : c.phase = .receiving) (msg : WsMessage) (room : RoomId) (p : String) :
    (s.receive i c msg).conns.countP (Conn.attachedTo room p) =
      s.conns.countP (Conn.attachedTo room p) := by
  obtain ⟨c', hconns, hroom, hsecret, _, _, hcases⟩ := receive_spec s i c msg
  rw [hconns]
  apply countP_attachedTo_set hc hroom hsecret
  rw [hp]
  rcases hcases with ⟨_, h | h | h, _⟩ | ⟨_, _, _, _, _, _, h⟩ <;> rw [h] <;> rfl

theorem claimsOnlyUnattended_of_none {s : Server} {a : Action} (h : s.appender a = none) :
    ClaimsOnlyUnattended s a := fun room secret ha => by
  rw [h] at ha
  cases ha

theorem claimsOnlyUnattended_iff {s : Server} {a : Action} {room : RoomId} {secret : String}
    (h : s.appender a = some (room, secret)) : ClaimsOnlyUnattended s a ↔
      (s.rooms room = none → s.conns.countP (Conn.attachedTo room secret) = 0) := by
  simp only [ClaimsOnlyUnattended, h, Option.some.injEq, Prod.mk.injEq]
  constructor
  · exact fun h' => h' room secret ⟨rfl, rfl⟩
  · rintro h' _ _ ⟨rfl, rfl⟩
    exact h'

/-- A received frame moves no loop in or out, so only an append can spoil a count. -/
theorem exact_receive_iff {s : Server} {i : ℕ} {c : Conn} (h : AttachCountsExact s)
    (hc : s.conns[i]? = some c) (hp : c.phase = .receiving) (msg : WsMessage) :
    AttachCountsExact (s.receive i c msg) ↔ ClaimsOnlyUnattended s (.receive i msg) := by
  have hconns := countP_attachedTo_receive hc hp msg
  have happend : ∀ size message,
      (s.receive i c msg).rooms = (s.rooms.append s.now c.room c.secret size message).2 →
      s.appender (.receive i msg) = some (c.room, c.secret) →
      (AttachCountsExact (s.receive i c msg) ↔ ClaimsOnlyUnattended s (.receive i msg)) := by
    intro size message hrooms ha
    have hclaims : ∀ r, (s.receive i c msg).rooms.claim r =
        if r = c.room ∧ s.rooms c.room = none then some (c.secret, 0)
        else s.rooms.claim r := fun r => by rw [hrooms, Rooms.claim_append]
    rw [attachCountsExact_iff, exact_append_iff h hclaims hconns, claimsOnlyUnattended_iff ha]
  have hother : s.appender (.receive i msg) = none →
      (∀ r, (s.receive i c msg).rooms.claim r = none ∨
        (s.receive i c msg).rooms.claim r = s.rooms.claim r) →
      (AttachCountsExact (s.receive i c msg) ↔ ClaimsOnlyUnattended s (.receive i msg)) :=
    fun ha hrooms => iff_of_true
      (attachCountsExact_iff.mpr (exact_of_claim_le h hrooms hconns))
      (claimsOnlyUnattended_of_none ha)
  -- keepalives and stores append, a delete or a reset claims nothing
  have hrooms := receive_rooms s i c msg
  cases hreq : request msg with
  | keepalive =>
    rw [hreq] at hrooms
    exact happend none none hrooms (by simp [appender, hc, hreq])
  | store size message =>
    rw [hreq] at hrooms
    exact happend size message hrooms (by simp [appender, hc, hreq])
  | delete =>
    rw [hreq] at hrooms
    refine hother (by simp [appender, hc, hreq]) fun r => ?_
    rw [hrooms, Rooms.claim_delete]
    split_ifs
    · exact Or.inl rfl
    · exact Or.inr rfl
  | reset =>
    rw [hreq] at hrooms
    refine hother (by simp [appender, hc, hreq]) fun r => Or.inr ?_
    rw [hrooms, Rooms.claim_reset]
  | stop =>
    rw [hreq] at hrooms
    refine hother (by simp [appender, hc, hreq]) fun r => Or.inr ?_
    rw [hrooms]

/-- The step lemma: a step keeps every count exact if and only if it does not
claim a room afresh under an attached loop. -/
theorem exact_step_iff {s s' : Server} {a : Action} (h : AttachCountsExact s)
    (hstep : s.step a = some s') : AttachCountsExact s' ↔ ClaimsOnlyUnattended s a := by
  -- a step that keeps or removes every claim, and every attached loop
  have hquiet : ∀ {s' : Server}, s.appender a = none →
      (∀ r, s'.rooms.claim r = none ∨ s'.rooms.claim r = s.rooms.claim r) →
      (∀ r p, s'.conns.countP (Conn.attachedTo r p) = s.conns.countP (Conn.attachedTo r p)) →
      (AttachCountsExact s' ↔ ClaimsOnlyUnattended s a) := fun ha hrooms hconns =>
    iff_of_true (attachCountsExact_iff.mpr (exact_of_claim_le h hrooms hconns))
      (claimsOnlyUnattended_of_none ha)
  cases step_cases hstep with
  | elapse d => exact hquiet rfl (fun _ => Or.inr rfl) fun _ _ => rfl
  | handshake room secret =>
    have hconns : ∀ r p, (s.handshake room secret).conns.countP (Conn.attachedTo r p) =
        s.conns.countP (Conn.attachedTo r p) := fun r p => by
      rcases handshake_conns s room secret with hsame | hnew
      · rw [hsame]
      · simp [hnew, Conn.attachedTo, Phase.attached]
    have hrooms : ∀ r, (s.handshake room secret).rooms.claim r =
        if r = room ∧ s.rooms room = none then some (secret, 0) else s.rooms.claim r :=
      fun r => by rw [handshake_rooms, Rooms.claim_append]
    have ha : s.appender (.handshake room secret) = some (room, secret) := rfl
    rw [attachCountsExact_iff, exact_append_iff h hrooms hconns, claimsOnlyUnattended_iff ha]
  | attach i c hc hp =>
    exact iff_of_true (exact_attach h hc hp) (claimsOnlyUnattended_of_none rfl)
  | receive i msg c hc hp => exact exact_receive_iff h hc hp msg
  | hangUp i c hc hp =>
    refine hquiet rfl (fun _ => Or.inr rfl) ?_
    exact countP_attachedTo_set hc rfl rfl (by rw [hp]; rfl)
  | publish i c out phase hc hp =>
    refine hquiet rfl (fun _ => Or.inr rfl) (countP_attachedTo_set hc rfl rfl ?_)
    rcases publication_cases hp with ⟨h, _, rfl⟩ | ⟨_, h, _, rfl⟩ | ⟨h, _, rfl⟩ | ⟨h, _, rfl⟩ <;>
      rw [h] <;> rfl
  | ack i sent c hc hp =>
    refine hquiet rfl (fun _ => Or.inr rfl) ?_
    exact countP_attachedTo_set hc rfl rfl (by rw [hp]; cases sent <;> rfl)
  | detach i c hc hp =>
    exact iff_of_true (exact_detach h hc hp) (claimsOnlyUnattended_of_none rfl)
  | deleteRoom room secret =>
    refine hquiet rfl (fun r => ?_) fun _ _ => rfl
    rw [Rooms.claim_delete]
    split_ifs
    · exact Or.inl rfl
    · exact Or.inr rfl
  | evict room =>
    refine hquiet rfl (fun r => ?_) fun _ _ => rfl
    rw [Rooms.claim_evictRoom]
    split_ifs
    · exact Or.inl rfl
    · exact Or.inr rfl

/-- The counts are exact in every state of a run if and only if no step of the
run claims a missing room under a loop still attached with the same secret. -/
theorem attach_counts_exact_iff (ttl : ℕ) (as : List Action) :
    StatesSatisfy step AttachCountsExact (init ttl) as ↔
      StepsSatisfy step ClaimsOnlyUnattended (init ttl) as := by
  have hinit : AttachCountsExact (init ttl) := fun room entry he => by cases he
  have hfree : StepsSatisfy step (fun _ _ => True) (init ttl) as :=
    stepsSatisfy_of_forall (fun _ _ => trivial) _ as
  exact states_iff_steps (I := fun _ => True) (fun _ _ _ _ _ _ => trivial)
    (fun s a s' _ _ hP hstep => exact_step_iff hP hstep) trivial hinit hfree

/-- A room deleted under its broadcaster and claimed again by a second
connection with the same password: the first loop's detach consumes the second
connection's attach. -/
theorem attach_counts_not_exact :
    ∃ s room entry, run step (init 1000)
        [.handshake ⟨"demo"⟩ "pw", .attach 0, .publish 0, .deleteRoom ⟨"demo"⟩ "pw",
          .handshake ⟨"demo"⟩ "pw", .attach 1, .publish 1, .hangUp 0, .detach 0] = some s ∧
      s.rooms room = some entry ∧ entry.broadcasters = 0 ∧
      s.conns.countP (Conn.attachedTo room entry.password) = 1 :=
  ⟨_, ⟨"demo"⟩, _, rfl, rfl, rfl, rfl⟩

end Server

end Shellshare
