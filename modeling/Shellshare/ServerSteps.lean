import Shellshare.ServerLoop

/-! What one step of the server can do: the enabled steps as an inductive
relation, and one lemma per operation for each part of the state it touches. -/
namespace Shellshare

/-- Between `broadcaster_connected` and `broadcaster_disconnected`. -/
def Phase.attached : Phase → Bool
  | .upgraded | .signingOff | .ended => false
  | _ => true

def Conn.attachedTo (room : RoomId) (secret : String) (c : Conn) : Bool :=
  c.room = room && c.secret = secret && c.phase.attached

namespace Rooms

/-- The part of an entry that attaching depends on: whose it is and how many
connections it counts. -/
def claim (rooms : Rooms) (room : RoomId) : Option (String × ℕ) :=
  (rooms room).map fun entry => (entry.password, entry.broadcasters)

variable {rooms : Rooms} {now : ℕ} {room r : RoomId} {secret : String}
  {size : Option Json} {message : Option Bytes}

theorem claim_eq_none : rooms.claim r = none ↔ rooms r = none := by
  simp [claim]

theorem claim_eq_some {p : String} {n : ℕ} :
    rooms.claim r = some (p, n) ↔
      ∃ entry, rooms r = some entry ∧ entry.password = p ∧ entry.broadcasters = n := by
  simp [claim]

theorem claim_update (entry : Option Room) :
    claim (Function.update rooms room entry) r =
      if r = room then entry.map (fun e => (e.password, e.broadcasters)) else rooms.claim r := by
  by_cases h : r = room
  · subst h
    simp [claim]
  · simp [claim, h]

@[simp] theorem claim_append :
    (rooms.append now room secret size message).2.claim r =
      if r = room ∧ rooms room = none then some (secret, 0) else rooms.claim r := by
  cases he : rooms room with
  | none =>
    rw [append_of_none he]
    simp [claim_update, Room.new, Room.store]
  | some entry =>
    by_cases hp : entry.password = secret
    · rw [append_of_some he hp]
      by_cases hr : r = room
      · subst hr
        simp [claim, he, Room.store]
      · simp [claim_update, hr]
    · rw [append_of_ne he hp]
      simp

@[simp] theorem claim_reset : (rooms.reset now room secret).2.claim r = rooms.claim r := by
  unfold reset
  cases he : rooms room with
  | none => rfl
  | some entry =>
    dsimp only
    split_ifs
    · rfl
    · rfl
    · by_cases hr : r = room
      · subst hr
        simp [claim, he]
      · simp [claim_update, hr]

theorem claim_delete :
    (rooms.delete now room secret).2.claim r =
      if r = room ∧ (rooms.claim room).map Prod.fst = some secret then none
      else rooms.claim r := by
  unfold delete
  cases he : rooms room with
  | none =>
    simp [claim, he]
  | some entry =>
    by_cases hp : entry.password = secret
    · by_cases hr : r = room
      · subst hr
        simp [claim, he, hp]
      · simp [claim_update, hr, hp]
    · simp [claim, he, hp]

theorem claim_evictRoom {ttl : ℕ} :
    (rooms.evictRoom now ttl room).claim r =
      if r = room ∧ (rooms room).all (·.keep now ttl) = false then none else rooms.claim r := by
  unfold evictRoom
  by_cases hr : r = room
  · subst hr
    cases he : rooms r with
    | none => simp [claim, he]
    | some entry => cases hk : entry.keep now ttl <;> simp [claim, he, hk]
  · simp [claim_update, hr]

theorem broadcasterConnected_of_claim {n : ℕ} (hc : rooms.claim room = some (secret, n))
    (now : ℕ) : (rooms.broadcasterConnected now room secret).1 = n + 1 ∧
      ∀ r, (rooms.broadcasterConnected now room secret).2.claim r =
        if r = room then some (secret, n + 1) else rooms.claim r := by
  obtain ⟨entry, he, hp, hn⟩ := claim_eq_some.mp hc
  simp [broadcasterConnected, he, hp, hn, claim_update]

theorem broadcasterConnected_of_not_claim (hc : ∀ n, rooms.claim room ≠ some (secret, n))
    (now : ℕ) : rooms.broadcasterConnected now room secret = (0, rooms) := by
  unfold broadcasterConnected
  cases he : rooms room with
  | none => rfl
  | some entry =>
    have hp : entry.password ≠ secret := fun hp => hc entry.broadcasters (by simp [claim, he, hp])
    simp [hp]

theorem broadcasterDisconnected_of_claim {n : ℕ} (hc : rooms.claim room = some (secret, n))
    (now : ℕ) : (rooms.broadcasterDisconnected now room secret).1.1 = n - 1 ∧
      ∀ r, (rooms.broadcasterDisconnected now room secret).2.claim r =
        if r = room then some (secret, n - 1) else rooms.claim r := by
  obtain ⟨entry, he, hp, hn⟩ := claim_eq_some.mp hc
  simp [broadcasterDisconnected, he, hp, hn, claim_update]

theorem broadcasterDisconnected_of_not_claim (hc : ∀ n, rooms.claim room ≠ some (secret, n))
    (now : ℕ) : (rooms.broadcasterDisconnected now room secret).1.1 =
        ((rooms.claim room).map Prod.snd).getD 0 ∧
      (rooms.broadcasterDisconnected now room secret).2 = rooms := by
  unfold broadcasterDisconnected
  cases he : rooms room with
  | none => simp [claim, he]
  | some entry =>
    have hp : entry.password ≠ secret := fun hp => hc entry.broadcasters (by simp [claim, he, hp])
    simp [claim, he, hp]

/-- Counting a connection creates and removes no room. -/
theorem claim_broadcasterConnected_eq_none :
    (rooms.broadcasterConnected now room secret).2.claim r = none ↔ rooms.claim r = none := by
  by_cases hclaim : ∃ n, rooms.claim room = some (secret, n)
  · obtain ⟨n, hn⟩ := hclaim
    rw [(broadcasterConnected_of_claim hn now).2 r]
    split_ifs with hr
    · rw [hr, hn]
      exact iff_of_false nofun nofun
    · rfl
  · simp only [not_exists] at hclaim
    rw [broadcasterConnected_of_not_claim hclaim now]

theorem claim_broadcasterDisconnected_eq_none :
    (rooms.broadcasterDisconnected now room secret).2.claim r = none ↔ rooms.claim r = none := by
  by_cases hclaim : ∃ n, rooms.claim room = some (secret, n)
  · obtain ⟨n, hn⟩ := hclaim
    rw [(broadcasterDisconnected_of_claim hn now).2 r]
    split_ifs with hr
    · rw [hr, hn]
      exact iff_of_false nofun nofun
    · rfl
  · simp only [not_exists] at hclaim
    rw [(broadcasterDisconnected_of_not_claim hclaim now).2]

end Rooms

namespace Server

/-- The enabled steps, one constructor per action. -/
inductive Step (s : Server) : Action → Server → Prop where
  | elapse (d : ℕ) : Step s (.elapse d) { s with now := s.now + d }
  | handshake (room : RoomId) (secret : String) :
    Step s (.handshake room secret) (s.handshake room secret)
  | attach (i : ℕ) (c : Conn) (hc : s.conns[i]? = some c) (hp : c.phase = .upgraded) :
    Step s (.attach i) (s.attach i c)
  | receive (i : ℕ) (msg : WsMessage) (c : Conn) (hc : s.conns[i]? = some c)
    (hp : c.phase = .receiving) : Step s (.receive i msg) (s.receive i c msg)
  | hangUp (i : ℕ) (c : Conn) (hc : s.conns[i]? = some c) (hp : c.phase = .receiving) :
    Step s (.hangUp i) (s.setConn i (c.to .leaving))
  | publish (i : ℕ) (c : Conn) (out : Output) (phase : Phase) (hc : s.conns[i]? = some c)
    (hp : c.publication = some (out, phase)) :
    Step s (.publish i) ({ s with published := s.published ++ [out] }.setConn i (c.to phase))
  | ack (i : ℕ) (sent : Bool) (c : Conn) (hc : s.conns[i]? = some c) (hp : c.phase = .acking) :
    Step s (.ack i sent) (s.setConn i (c.to (if sent then .receiving else .leaving)))
  | detach (i : ℕ) (c : Conn) (hc : s.conns[i]? = some c) (hp : c.phase = .leaving) :
    Step s (.detach i) (s.detach i c)
  | deleteRoom (room : RoomId) (secret : String) :
    Step s (.deleteRoom room secret) { s with rooms := (s.rooms.delete s.now room secret).2 }
  | evict (room : RoomId) :
    Step s (.evict room) { s with rooms := s.rooms.evictRoom s.now s.inactiveTtl room }

theorem step_cases {s s' : Server} {a : Action} (h : s.step a = some s') : Step s a s' := by
  cases a with
  | elapse d =>
    obtain rfl := Option.some.inj h
    exact .elapse d
  | handshake room secret =>
    obtain rfl := Option.some.inj h
    exact .handshake room secret
  | attach i =>
    obtain ⟨c, hc, h⟩ := Option.bind_eq_some_iff.mp h
    split at h
    · obtain rfl := Option.some.inj h
      exact .attach i c hc ‹_›
    · cases h
  | receive i msg =>
    obtain ⟨c, hc, h⟩ := Option.bind_eq_some_iff.mp h
    split at h
    · obtain rfl := Option.some.inj h
      exact .receive i msg c hc ‹_›
    · cases h
  | hangUp i =>
    obtain ⟨c, hc, h⟩ := Option.bind_eq_some_iff.mp h
    split at h
    · obtain rfl := Option.some.inj h
      exact .hangUp i c hc ‹_›
    · cases h
  | publish i =>
    obtain ⟨c, hc, h⟩ := Option.bind_eq_some_iff.mp h
    obtain ⟨⟨out, phase⟩, hp, h⟩ := Option.map_eq_some_iff.mp h
    obtain rfl := h
    exact .publish i c out phase hc hp
  | ack i sent =>
    obtain ⟨c, hc, h⟩ := Option.bind_eq_some_iff.mp h
    split at h
    · obtain rfl := Option.some.inj h
      exact .ack i sent c hc ‹_›
    · cases h
  | detach i =>
    obtain ⟨c, hc, h⟩ := Option.bind_eq_some_iff.mp h
    split at h
    · obtain rfl := Option.some.inj h
      exact .detach i c hc ‹_›
    · cases h
  | deleteRoom room secret =>
    obtain rfl := Option.some.inj h
    exact .deleteRoom room secret
  | evict room =>
    obtain rfl := Option.some.inj h
    exact .evict room

theorem publication_cases {c : Conn} {out : Output} {phase : Phase}
    (h : c.publication = some (out, phase)) :
    (c.phase = .announcing ∧ out = .control c.room (.broadcasting true) ∧ phase = .receiving) ∨
    (∃ stored, c.phase = .publishing stored ∧ out = .ingest stored ∧ phase = .acking) ∨
    (c.phase = .resetting ∧ out = .control c.room .reset ∧ phase = .receiving) ∨
    (c.phase = .signingOff ∧ out = .control c.room (.broadcasting false) ∧ phase = .ended) := by
  unfold Conn.publication at h
  cases hp : c.phase <;> rw [hp] at h <;> simp_all

/-- The store as a received frame leaves it. -/
theorem receive_rooms (s : Server) (i : ℕ) (c : Conn) (msg : WsMessage) :
    (s.receive i c msg).rooms = match request msg with
      | .keepalive => (s.rooms.append s.now c.room c.secret none none).2
      | .store size message => (s.rooms.append s.now c.room c.secret size message).2
      | .delete => (s.rooms.delete s.now c.room c.secret).2
      | .reset => (s.rooms.reset s.now c.room c.secret).2
      | .stop => s.rooms := by
  unfold receive
  cases request msg with
  | keepalive =>
    simp only [keepalive]
    rcases s.rooms.append s.now c.room c.secret none none with ⟨_ | _, rooms⟩ <;> rfl
  | store size message =>
    simp only [store]
    rcases s.rooms.append s.now c.room c.secret size message with ⟨_ | _, rooms⟩ <;> rfl
  | delete => rfl
  | reset =>
    simp only [resetRoom]
    rcases s.rooms.reset s.now c.room c.secret with ⟨_ | _, rooms⟩ <;> rfl
  | stop => rfl

/-- A received frame keeps its loop attached and publishes nothing yet. It moves
no other loop, and it stores an item exactly when the append was authorized. -/
theorem receive_spec (s : Server) (i : ℕ) (c : Conn) (msg : WsMessage) :
    ∃ c', (s.receive i c msg).conns = s.conns.set i c' ∧ c'.room = c.room ∧
      c'.secret = c.secret ∧ c'.frames = c.frames ++ [msg] ∧
      (s.receive i c msg).published = s.published ∧
      ((s.receive i c msg).appended = s.appended ∧
          (c'.phase = .receiving ∨ c'.phase = .leaving ∨ c'.phase = .resetting) ∧
          (∀ size message, request msg = .store size message →
            (s.receive i c msg).rooms = s.rooms ∧
              ∃ entry, s.rooms c.room = some entry ∧ entry.password ≠ c.secret) ∨
        ∃ size message, request msg = .store size message ∧
          (s.rooms.entryFor s.now c.room c.secret).password = c.secret ∧
          (s.receive i c msg).appended =
            s.appended ++ [⟨i, s.appended.length, ⟨c.room, size, message⟩⟩] ∧
          (s.receive i c msg).rooms = Function.update s.rooms c.room
            (some ((s.rooms.entryFor s.now c.room c.secret).store s.now size message)) ∧
          c'.phase = .publishing ⟨i, s.appended.length, ⟨c.room, size, message⟩⟩) := by
  unfold receive
  cases hr : request msg with
  | keepalive =>
    simp only [keepalive]
    rcases s.rooms.append s.now c.room c.secret none none with ⟨_ | _, rooms⟩
    · exact ⟨_, rfl, rfl, rfl, rfl, rfl, Or.inl ⟨rfl, Or.inr (Or.inl rfl), nofun⟩⟩
    · exact ⟨_, rfl, rfl, rfl, rfl, rfl, Or.inl ⟨rfl, Or.inl rfl, nofun⟩⟩
  | store size message =>
    simp only [store]
    rcases s.rooms.append_cases s.now c.room c.secret size message with
      ⟨entry, he, hne, ha⟩ | ⟨_, hp, ha⟩
    · rw [ha]
      exact ⟨_, rfl, rfl, rfl, rfl, rfl,
        Or.inl ⟨rfl, Or.inr (Or.inl rfl), fun _ _ _ => ⟨rfl, entry, he, hne⟩⟩⟩
    · rw [ha]
      exact ⟨_, rfl, rfl, rfl, rfl, rfl, Or.inr ⟨size, message, rfl, hp, rfl, rfl, rfl⟩⟩
  | delete => exact ⟨_, rfl, rfl, rfl, rfl, rfl, Or.inl ⟨rfl, Or.inr (Or.inl rfl), nofun⟩⟩
  | reset =>
    simp only [resetRoom]
    rcases s.rooms.reset s.now c.room c.secret with ⟨_ | _, rooms⟩
    · exact ⟨_, rfl, rfl, rfl, rfl, rfl, Or.inl ⟨rfl, Or.inr (Or.inl rfl), nofun⟩⟩
    · exact ⟨_, rfl, rfl, rfl, rfl, rfl, Or.inl ⟨rfl, Or.inr (Or.inr rfl), nofun⟩⟩
  | stop => exact ⟨_, rfl, rfl, rfl, rfl, rfl, Or.inl ⟨rfl, Or.inr (Or.inl rfl), nofun⟩⟩

@[simp] theorem handshake_rooms (s : Server) (room : RoomId) (secret : String) :
    (s.handshake room secret).rooms = (s.rooms.append s.now room secret none none).2 := by
  unfold handshake
  rcases s.rooms.append s.now room secret none none with ⟨_ | _, rooms⟩ <;> rfl

/-- A handshake opens a connection or, refused with 401, none. -/
theorem handshake_conns (s : Server) (room : RoomId) (secret : String) :
    (s.handshake room secret).conns = s.conns ∨
      (s.handshake room secret).conns = s.conns ++ [⟨room, secret, .upgraded, 0, []⟩] := by
  unfold handshake
  rcases s.rooms.append s.now room secret none none with ⟨_ | _, rooms⟩
  · exact Or.inl rfl
  · exact Or.inr rfl

/-- A connection keeps its room and its secret, and only a handshake opens one. -/
theorem conns_of_step {s s' : Server} {a : Action} (hstep : s.step a = some s') {i : ℕ}
    {c' : Conn} (hc' : s'.conns[i]? = some c') :
    (∃ c, s.conns[i]? = some c ∧ c'.room = c.room ∧ c'.secret = c.secret) ∨
      (i = s.conns.length ∧ c'.phase = .upgraded ∧ a = .handshake c'.room c'.secret) := by
  have hset : ∀ {conns : List Conn} {j : ℕ} {c d : Conn}, conns[i]? = some c' →
      conns = s.conns.set j d → s.conns[j]? = some c → d.room = c.room → d.secret = c.secret →
        ∃ c, s.conns[i]? = some c ∧ c'.room = c.room ∧ c'.secret = c.secret := by
    intro conns j c d h hconns hc hroom hsecret
    rw [hconns, List.getElem?_set] at h
    split_ifs at h with hij hlt
    · obtain rfl := hij
      obtain rfl := Option.some.inj h
      exact ⟨c, hc, hroom, hsecret⟩
    · exact ⟨c', h, rfl, rfl⟩
  cases step_cases hstep with
  | elapse d => exact Or.inl ⟨c', hc', rfl, rfl⟩
  | handshake room secret =>
    rcases handshake_conns s room secret with hsame | hnew
    · rw [hsame] at hc'
      exact Or.inl ⟨c', hc', rfl, rfl⟩
    · rw [hnew, List.getElem?_append] at hc'
      split_ifs at hc' with hlt
      · exact Or.inl ⟨c', hc', rfl, rfl⟩
      · obtain ⟨hi, rfl⟩ := List.getElem?_eq_some_iff.mp hc'
        have hi' : i - s.conns.length < 1 := hi
        have hlen : i = s.conns.length := by omega
        exact Or.inr ⟨hlen, by simp [hlen], by simp [hlen]⟩
  | attach j c hc hp => exact Or.inl (hset hc' rfl hc rfl rfl)
  | receive j msg c hc hp =>
    obtain ⟨d, hconns, hroom, hsecret, -⟩ := receive_spec s j c msg
    exact Or.inl (hset hc' hconns hc hroom hsecret)
  | hangUp j c hc hp => exact Or.inl (hset hc' rfl hc rfl rfl)
  | publish j c out phase hc hp => exact Or.inl (hset hc' rfl hc rfl rfl)
  | ack j sent c hc hp => exact Or.inl (hset hc' rfl hc rfl rfl)
  | detach j c hc hp => exact Or.inl (hset hc' rfl hc rfl rfl)
  | deleteRoom room secret => exact Or.inl ⟨c', hc', rfl, rfl⟩
  | evict room => exact Or.inl ⟨c', hc', rfl, rfl⟩

/-- The room an action removes: its password matches, or a sweep finds it stale. -/
def removes (s : Server) : Action → Option RoomId
  | .deleteRoom room secret =>
    if (s.rooms.claim room).map Prod.fst = some secret then some room else none
  | .receive i msg => s.conns[i]?.bind fun c => match request msg with
    | .delete =>
      if (s.rooms.claim c.room).map Prod.fst = some c.secret then some c.room else none
    | _ => none
  | .evict room =>
    if (s.rooms room).all (·.keep s.now s.inactiveTtl) = false then some room else none
  | _ => none

/-- The room and secret an action appends with. -/
def appender (s : Server) : Action → Option (RoomId × String)
  | .handshake room secret => some (room, secret)
  | .receive i msg => s.conns[i]?.bind fun c => match request msg with
    | .keepalive | .store _ _ => some (c.room, c.secret)
    | _ => none
  | _ => none

/-- A room is missing after a step if it was and no append claimed it, or if the step
removed it. -/
theorem rooms_eq_none_iff_of_step {s s' : Server} {a : Action} (hstep : s.step a = some s')
    {r : RoomId} : s'.rooms r = none ↔
      (s.rooms r = none ∧ ∀ secret, s.appender a ≠ some (r, secret)) ∨ s.removes a = some r := by
  rw [← Rooms.claim_eq_none, ← Rooms.claim_eq_none]
  have hquiet : ∀ {rooms : Rooms}, (rooms.claim r = none ↔ s.rooms.claim r = none) →
      s.appender a = none → s.removes a = none → (rooms.claim r = none ↔
        (s.rooms.claim r = none ∧ ∀ secret, s.appender a ≠ some (r, secret)) ∨
          s.removes a = some r) := by
    intro rooms hrooms happ hrem
    simp [hrooms, happ, hrem]
  -- an append leaves every room that was there
  have happend : ∀ {room secret size message}, s.appender a = some (room, secret) →
      s.removes a = none → ((s.rooms.append s.now room secret size message).2.claim r = none ↔
        (s.rooms.claim r = none ∧ ∀ secret, s.appender a ≠ some (r, secret)) ∨
          s.removes a = some r) := by
    intro room secret size message happ hrem
    rw [Rooms.claim_append, happ, hrem]
    by_cases hr : r = room
    · subst hr
      have hclaim : s.rooms.claim r = none ↔ s.rooms r = none := Rooms.claim_eq_none
      by_cases h : s.rooms r = none <;> simp [hclaim, h]
    · simp [hr, Ne.symm hr]
  -- a removal takes out its own room, and only if its condition holds
  have hremove : ∀ {room : RoomId} {cond : Prop} [Decidable cond], s.appender a = none →
      s.removes a = (if cond then some room else none) →
        ((if r = room ∧ cond then none else s.rooms.claim r) = none ↔
          (s.rooms.claim r = none ∧ ∀ secret, s.appender a ≠ some (r, secret)) ∨
            s.removes a = some r) := by
    intro room cond _ happ hrem
    rw [happ, hrem]
    by_cases hr : r = room
    · subst hr
      by_cases hcond : cond <;> simp [hcond]
    · simp [hr, Ne.symm hr]
  cases step_cases hstep with
  | elapse d => exact hquiet Iff.rfl rfl rfl
  | handshake room secret =>
    rw [handshake_rooms]
    exact happend rfl rfl
  | attach i c hc hp => exact hquiet Rooms.claim_broadcasterConnected_eq_none rfl rfl
  | receive i msg c hc hp =>
    rw [receive_rooms]
    cases hreq : request msg with
    | keepalive | store => exact happend (by simp [appender, hc, hreq]) (by simp [removes, hc, hreq])
    | delete =>
      rw [Rooms.claim_delete]
      exact hremove (by simp [appender, hc, hreq]) (by simp [removes, hc, hreq])
    | reset =>
      exact hquiet (by rw [Rooms.claim_reset]) (by simp [appender, hc, hreq])
        (by simp [removes, hc, hreq])
    | stop => exact hquiet Iff.rfl (by simp [appender, hc, hreq]) (by simp [removes, hc, hreq])
  | hangUp i c hc hp => exact hquiet Iff.rfl rfl rfl
  | publish i c out phase hc hp => exact hquiet Iff.rfl rfl rfl
  | ack i sent c hc hp => exact hquiet Iff.rfl rfl rfl
  | detach i c hc hp => exact hquiet Rooms.claim_broadcasterDisconnected_eq_none rfl rfl
  | deleteRoom room secret =>
    rw [Rooms.claim_delete]
    exact hremove rfl rfl
  | evict room =>
    rw [Rooms.claim_evictRoom]
    exact hremove rfl rfl

section Counting
variable {α : Type*} {p : α → Bool} {l : List α} {i : ℕ} {a b : α}

theorem countP_set_same (hi : l[i]? = some a) (hab : p b = p a) :
    (l.set i b).countP p = l.countP p := by
  obtain ⟨hlt, rfl⟩ := List.getElem?_eq_some_iff.mp hi
  have hpos : p l[i] = true → 0 < l.countP p := fun h =>
    List.countP_pos_iff.mpr ⟨l[i], List.getElem_mem hlt, h⟩
  rw [List.countP_set hlt, hab]
  split_ifs with h
  · have := hpos h
    omega
  · rfl

theorem countP_set_enter (hi : l[i]? = some a) (ha : p a = false) (hb : p b = true) :
    (l.set i b).countP p = l.countP p + 1 := by
  obtain ⟨hlt, rfl⟩ := List.getElem?_eq_some_iff.mp hi
  simp [List.countP_set hlt, ha, hb]

theorem countP_set_exit (hi : l[i]? = some a) (ha : p a = true) (hb : p b = false) :
    (l.set i b).countP p + 1 = l.countP p := by
  obtain ⟨hlt, rfl⟩ := List.getElem?_eq_some_iff.mp hi
  have hpos : 0 < l.countP p := List.countP_pos_iff.mpr ⟨l[i], List.getElem_mem hlt, ha⟩
  simp [List.countP_set hlt, ha, hb]
  omega

end Counting

end Server

end Shellshare
