import Shellshare.ServerSteps

/-! What each ingest loop has stored, against the frames it received and the
bytes its acks count. -/
namespace Shellshare

def WsMessage.payload : WsMessage → Option Bytes
  | .binary bytes => some bytes
  | _ => none

/-- The binary frames among the frames, in order. -/
def payloadsOf (frames : List WsMessage) : List Bytes := frames.filterMap WsMessage.payload

@[simp] theorem payloadsOf_append (xs ys : List WsMessage) :
    payloadsOf (xs ++ ys) = payloadsOf xs ++ payloadsOf ys := by
  simp only [payloadsOf, List.filterMap_append]

/-- Not yet out of the receive loop. -/
def Phase.looping : Phase → Bool
  | .leaving | .signingOff | .ended => false
  | _ => true

namespace Server

/-- What connection `i` has stored in the room by appends that returned `Ok`. -/
def storedBy (s : Server) (room : RoomId) (i : ℕ) : List Bytes :=
  (s.appended.filter fun stored => stored.conn = i ∧ stored.item.room = room).filterMap
    fun stored => stored.item.payload

/-- A loop stores the binary frames it receives, in order, up to the one it fails
on, and its count is of exactly what it stored. -/
structure IngestExact (s : Server) (i : ℕ) (c : Conn) : Prop where
  stored : s.storedBy c.room i <+: payloadsOf c.frames
  counted : c.receivedBytes = totalLength (s.storedBy c.room i)
  all : c.phase.looping = true → s.storedBy c.room i = payloadsOf c.frames

structure Ingests (s : Server) : Prop where
  known : ∀ stored ∈ s.appended, stored.conn < s.conns.length
  exact_of : ∀ i c, s.conns[i]? = some c → IngestExact s i c

theorem storedBy_append (s : Server) (stored : Stored) (room : RoomId) (i : ℕ) :
    ({ s with appended := s.appended ++ [stored] } : Server).storedBy room i =
      s.storedBy room i ++
        if stored.conn = i ∧ stored.item.room = room then stored.item.payload.toList else [] := by
  unfold storedBy
  rw [List.filter_append, List.filterMap_append]
  by_cases h : stored.conn = i ∧ stored.item.room = room
  · rw [if_pos h, List.filter_cons_of_pos (by simpa using h)]
    cases hp : stored.item.payload <;> simp [hp]
  · rw [if_neg h, List.filter_cons_of_neg (by simpa using h)]
    rfl

theorem storedBy_eq_nil {s : Server} {i : ℕ} (h : ∀ stored ∈ s.appended, stored.conn ≠ i)
    (room : RoomId) : s.storedBy room i = [] := by
  have hfilter :
      (s.appended.filter fun stored => stored.conn = i ∧ stored.item.room = room) = [] := by
    rw [List.filter_eq_nil_iff]
    intro stored hmem
    simp [h stored hmem]
  rw [storedBy, hfilter]
  rfl

/-- A frame is stored under the payload it carries. -/
theorem message_of_request {msg : WsMessage} {size : Option Json} {message : Option Bytes}
    (h : request msg = .store size message) : message = msg.payload := by
  cases msg with
  | binary bytes =>
    simp only [request] at h
    split at h
    · cases h
    · cases h
      rfl
  | text len body =>
    simp only [request] at h
    repeat' split at h
    all_goals cases h
    rfl
  | ping => cases h
  | pong => cases h
  | close => cases h

/-- A binary frame is stored or ends the loop. -/
theorem payload_eq_none {msg : WsMessage} (hstop : request msg ≠ .stop)
    (hstore : ∀ size message, request msg ≠ .store size message) : msg.payload = none := by
  cases msg with
  | binary bytes =>
    simp only [request] at hstop hstore
    split at hstop
    · exact absurd rfl hstop
    · rename_i hfits
      rw [if_neg hfits] at hstore
      exact absurd rfl (hstore _ _)
  | _ => rfl

/-- One turn of the receive loop: it stores the frame's payload and counts it, or
stores nothing, and then it goes on only after a frame without payload. -/
theorem receive_counts (s : Server) (i : ℕ) (c : Conn) (msg : WsMessage) :
    ∃ c', (s.receive i c msg).conns = s.conns.set i c' ∧ c'.room = c.room ∧
      c'.frames = c.frames ++ [msg] ∧
      (((s.receive i c msg).appended = s.appended ∧ c'.receivedBytes = c.receivedBytes ∧
          (c'.phase.looping = true → msg.payload = none)) ∨
        ∃ stored : Stored, stored.conn = i ∧ stored.item.room = c.room ∧
          stored.item.payload = msg.payload ∧
          (s.receive i c msg).appended = s.appended ++ [stored] ∧
          c'.receivedBytes = c.receivedBytes + (msg.payload.getD []).length) := by
  unfold receive
  cases hr : request msg with
  | keepalive =>
    have hpayload : msg.payload = none :=
      payload_eq_none (by simp [hr]) (by simp [hr])
    simp only [keepalive]
    rcases s.rooms.append s.now c.room c.secret none none with ⟨_ | _, rooms⟩
    · exact ⟨_, rfl, rfl, rfl, Or.inl ⟨rfl, rfl, fun _ => hpayload⟩⟩
    · exact ⟨_, rfl, rfl, rfl, Or.inl ⟨rfl, rfl, fun _ => hpayload⟩⟩
  | store size message =>
    obtain rfl := message_of_request hr
    simp only [store]
    rcases s.rooms.append s.now c.room c.secret size msg.payload with ⟨_ | _, rooms⟩
    · exact ⟨_, rfl, rfl, rfl, Or.inl ⟨rfl, rfl, by rintro ⟨⟩⟩⟩
    · exact ⟨_, rfl, rfl, rfl, Or.inr ⟨_, rfl, rfl, rfl, rfl, rfl⟩⟩
  | delete => exact ⟨_, rfl, rfl, rfl, Or.inl ⟨rfl, rfl, by rintro ⟨⟩⟩⟩
  | reset =>
    have hpayload : msg.payload = none :=
      payload_eq_none (by simp [hr]) (by simp [hr])
    simp only [resetRoom]
    rcases s.rooms.reset s.now c.room c.secret with ⟨_ | _, rooms⟩
    · exact ⟨_, rfl, rfl, rfl, Or.inl ⟨rfl, rfl, by rintro ⟨⟩⟩⟩
    · exact ⟨_, rfl, rfl, rfl, Or.inl ⟨rfl, rfl, fun _ => hpayload⟩⟩
  | stop => exact ⟨_, rfl, rfl, rfl, Or.inl ⟨rfl, rfl, by rintro ⟨⟩⟩⟩

theorem ingests_init (ttl : ℕ) : Ingests (init ttl) :=
  ⟨fun _ h => absurd h List.not_mem_nil, fun i c h => by simp [init] at h⟩

theorem storedBy_of_appended {s s' : Server} (happ : s'.appended = s.appended) (room : RoomId)
    (i : ℕ) : s'.storedBy room i = s.storedBy room i := by
  rw [storedBy, storedBy, happ]

/-- The accounts of a loop are about what was stored, and nothing else. -/
theorem IngestExact.of_stored {s s' : Server} {i : ℕ} {c : Conn} (h : IngestExact s i c)
    (hstored : s'.storedBy c.room i = s.storedBy c.room i) : IngestExact s' i c := by
  obtain ⟨hpre, hcount, hall⟩ := h
  exact ⟨by rwa [hstored], by rwa [hstored], by rwa [hstored]⟩

/-- A step that stores nothing and, at most, moves one loop along. -/
theorem Ingests.move {s s' : Server} (h : Ingests s) {i : ℕ} {c c' : Conn}
    (hc : s.conns[i]? = some c) (happ : s'.appended = s.appended)
    (hconns : s'.conns = s.conns.set i c') (hroom : c'.room = c.room)
    (hframes : c'.frames = c.frames) (hbytes : c'.receivedBytes = c.receivedBytes)
    (hphase : c'.phase.looping = true → c.phase.looping = true) : Ingests s' := by
  have hstored := storedBy_of_appended happ
  refine ⟨?_, fun j d hd => ?_⟩
  · rw [happ, hconns, List.length_set]
    exact h.known
  · rw [hconns, List.getElem?_set] at hd
    split at hd
    · rename_i hij
      subst hij
      split at hd
      · obtain rfl := Option.some.inj hd
        obtain ⟨hpre, hcount, hall⟩ := h.exact_of i c hc
        refine ⟨?_, ?_, ?_⟩
        · rwa [hstored, hroom, hframes]
        · rwa [hstored, hroom, hbytes]
        · rw [hstored, hroom, hframes]
          exact fun hloop => hall (hphase hloop)
      · cases hd
    · exact (h.exact_of j d hd).of_stored (hstored _ _)

/-- A handshake opens a loop that has stored nothing. -/
theorem Ingests.handshake {s : Server} (h : Ingests s) (room : RoomId) (secret : String) :
    Ingests (s.handshake room secret) := by
  have happ : (s.handshake room secret).appended = s.appended := by
    unfold Server.handshake
    split <;> rfl
  have hstored := storedBy_of_appended happ
  rcases handshake_conns s room secret with hconns | hconns
  · refine ⟨by rw [happ, hconns]; exact h.known, fun j d hd => ?_⟩
    rw [hconns] at hd
    exact (h.exact_of j d hd).of_stored (hstored _ _)
  · refine ⟨fun stored hmem => ?_, fun j d hd => ?_⟩
    · rw [happ] at hmem
      rw [hconns, List.length_append]
      exact Nat.lt_add_right _ (h.known stored hmem)
    · rw [hconns, List.getElem?_append] at hd
      split at hd
      · exact (h.exact_of j d hd).of_stored (hstored _ _)
      · -- nothing is stored under a number that no connection had
        rename_i hge
        rw [List.getElem?_singleton] at hd
        split at hd
        · obtain rfl := Option.some.inj hd
          have hnil : s.storedBy room j = [] :=
            storedBy_eq_nil (fun stored hmem => Nat.ne_of_lt
              ((h.known stored hmem).trans_le (Nat.le_of_not_lt hge))) room
          have hfresh : IngestExact s j ⟨room, secret, .upgraded, 0, []⟩ :=
            ⟨hnil ▸ List.nil_prefix, by rw [hnil]; rfl, fun _ => hnil⟩
          exact hfresh.of_stored (hstored _ _)
        · cases hd

/-- A received frame moves the account of its own loop, by its payload if it is stored. -/
theorem Ingests.receive {s : Server} (h : Ingests s) {i : ℕ} {c : Conn}
    (hc : s.conns[i]? = some c) (hp : c.phase = .receiving) (msg : WsMessage) :
    Ingests (s.receive i c msg) := by
  obtain ⟨c', hconns, hroom, hframes, hcases⟩ := receive_counts s i c msg
  have hlt : i < s.conns.length := (List.getElem?_eq_some_iff.mp hc).1
  obtain ⟨hpre, hcount, hall⟩ := h.exact_of i c hc
  have hall := hall (by rw [hp]; rfl)
  rcases hcases with ⟨happ, hbytes, hloop⟩ | ⟨stored, hconn, hsroom, hpayload, happ, hbytes⟩
  · -- nothing is stored: the frames may grow by one whose payload ends the loop
    have hstored := storedBy_of_appended happ
    refine ⟨by rw [happ, hconns, List.length_set]; exact h.known, fun j d hd => ?_⟩
    rw [hconns, List.getElem?_set] at hd
    split at hd
    · rename_i hij
      subst hij
      obtain rfl := Option.some.inj hd
      refine ⟨?_, by rw [hstored, hroom, hbytes]; exact hcount, fun hl => ?_⟩
      · rw [hstored, hroom, hframes, payloadsOf_append]
        exact hpre.trans (List.prefix_append _ _)
      · rw [hstored, hroom, hframes, payloadsOf_append, hall]
        simp [payloadsOf, hloop hl]
    · exact (h.exact_of j d hd).of_stored (hstored _ _)
  · have hstored : ∀ room j, (s.receive i c msg).storedBy room j = s.storedBy room j ++
        if stored.conn = j ∧ stored.item.room = room then stored.item.payload.toList else [] := by
      intro room j
      rw [← storedBy_append, storedBy, storedBy, happ]
    refine ⟨fun x hx => ?_, fun j d hd => ?_⟩
    · rw [hconns, List.length_set]
      rw [happ] at hx
      rcases List.mem_append.mp hx with hx | hx
      · exact h.known x hx
      · obtain rfl := List.mem_singleton.mp hx
        rwa [hconn]
    · rw [hconns, List.getElem?_set] at hd
      split at hd
      · rename_i hij
        subst hij
        obtain rfl := Option.some.inj hd
        have hnew : (s.receive i c msg).storedBy c'.room i = payloadsOf c'.frames := by
          rw [hstored, hroom, if_pos ⟨hconn, hsroom⟩, hall, hframes, payloadsOf_append, hpayload]
          cases hm : msg.payload <;> simp [payloadsOf, hm]
        refine ⟨hnew ▸ List.prefix_rfl, ?_, fun _ => hnew⟩
        rw [hstored, hroom, if_pos ⟨hconn, hsroom⟩, hbytes, hcount, totalLength_append, hpayload]
        cases msg.payload <;> simp
      · rename_i hij
        refine (h.exact_of j d hd).of_stored ?_
        rw [hstored, if_neg (fun hcond => hij (hconn ▸ hcond.1)), List.append_nil]

/-- The step lemma: every step of the server keeps the accounts of every loop. -/
theorem ingests_step {s s' : Server} {a : Action} (h : Ingests s) (hstep : s.step a = some s') :
    Ingests s' := by
  cases step_cases hstep with
  | elapse d => exact ⟨h.known, fun i c hc => (h.exact_of i c hc).of_stored rfl⟩
  | handshake room secret => exact h.handshake room secret
  | attach i c hc hp =>
    exact h.move hc rfl rfl rfl rfl rfl fun _ => by rw [hp]; rfl
  | receive i msg c hc hp => exact h.receive hc hp msg
  | hangUp i c hc hp => exact h.move hc rfl rfl rfl rfl rfl nofun
  | publish i c out phase hc hp =>
    refine h.move hc rfl rfl rfl rfl rfl fun hloop => ?_
    -- every publication but the last one, of a loop that has detached, is inside the loop
    rcases publication_cases hp with ⟨hph, -, -⟩ | ⟨_, hph, -, -⟩ | ⟨hph, -, -⟩ | ⟨hph, -, rfl⟩
    · rw [hph]; rfl
    · rw [hph]; rfl
    · rw [hph]; rfl
    · cases hloop
  | ack i sent c hc hp => exact h.move hc rfl rfl rfl rfl rfl fun _ => by rw [hp]; rfl
  | detach i c hc hp =>
    refine h.move hc rfl rfl rfl rfl rfl fun hloop => ?_
    revert hloop
    dsimp only [Conn.to]
    split <;> exact nofun
  | deleteRoom room secret => exact ⟨h.known, fun i c hc => (h.exact_of i c hc).of_stored rfl⟩
  | evict room => exact ⟨h.known, fun i c hc => (h.exact_of i c hc).of_stored rfl⟩

end Server

end Shellshare
