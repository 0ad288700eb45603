import Shellshare.ServerAttachCount
import Shellshare.ServerIngest

/-! A broadcast that goes on keeps its room. The timeouts of a loop's waits, the
refresh on every frame and the attach count together keep the sweep away from it,
whatever the TTL. -/
namespace Shellshare
open TransitionRuns

/-- How long a loop waits for a frame, or for its ack to be sent. -/
def ingestIdleTimeout : ℕ := 90 * 1000

/-- How long before a loop entered its phase its room may have last been refreshed. -/
def Phase.lag : Phase → ℕ
  | .announcing | .acking => ingestIdleTimeout
  | .receiving => 2 * ingestIdleTimeout
  | _ => 0

/-- How long a loop may be in a phase. Its attach follows on its handshake, within the TTL. -/
def Phase.wait (inactiveTtl : ℕ) : Phase → ℕ
  | .upgraded => min inactiveTtl ingestIdleTimeout
  | _ => ingestIdleTimeout

theorem Phase.wait_le (inactiveTtl : ℕ) (phase : Phase) :
    phase.wait inactiveTtl ≤ ingestIdleTimeout := by
  cases phase <;> simp [Phase.wait]

theorem Phase.lag_le (phase : Phase) : phase.lag ≤ 2 * ingestIdleTimeout := by
  cases phase <;> simp [Phase.lag, ingestIdleTimeout]

theorem Room.le_deadline (entry : Room) (ttl : ℕ) : ttl ≤ entry.deadline ttl := by
  rw [Room.deadline]
  split_ifs
  · exact le_max_left ttl broadcasterGrace
  · exact le_rfl

namespace Rooms
variable {rooms : Rooms} {now : ℕ} {room r : RoomId} {secret : String} {entry : Room}
  {size : Option Json} {message : Option Bytes}

/-- The room stays its owner's, and no older than it was. -/
def KeptAt (rooms : Rooms) (now : ℕ) (r : RoomId) (entry : Room) : Prop :=
  ∃ entry', rooms r = some entry' ∧ entry'.password = entry.password ∧
    (entry'.lastActivity = entry.lastActivity ∨ entry'.lastActivity = now)

theorem keptAt_self (he : rooms r = some entry) : rooms.KeptAt now r entry :=
  ⟨entry, he, rfl, Or.inl rfl⟩

/-- Rewriting one entry without its password keeps every room. -/
theorem keptAt_update {held held' : Room} (he : rooms r = some entry)
    (hheld : rooms room = some held) (hp : held'.password = held.password)
    (ht : held'.lastActivity = held.lastActivity ∨ held'.lastActivity = now) :
    KeptAt (Function.update rooms room (some held')) now r entry := by
  by_cases hr : r = room
  · subst hr
    obtain rfl := Option.some.inj (he.symm.trans hheld)
    exact ⟨held', Function.update_self .., hp, ht⟩
  · apply keptAt_self
    rw [Function.update_of_ne hr, he]

theorem keptAt_append (he : rooms r = some entry) :
    (rooms.append now room secret size message).2.KeptAt now r entry := by
  cases hheld : rooms room with
  | none =>
    rw [append_of_none hheld]
    have hr : r ≠ room := by
      rintro rfl
      rw [hheld] at he
      cases he
    exact keptAt_self ((Function.update_of_ne hr ..).trans he)
  | some held =>
    by_cases hp : held.password = secret
    · rw [append_of_some hheld hp]
      exact keptAt_update he hheld rfl (Or.inr rfl)
    · rw [append_of_ne hheld hp]
      exact keptAt_self he

theorem keptAt_reset (he : rooms r = some entry) :
    (rooms.reset now room secret).2.KeptAt now r entry := by
  rcases rooms.reset_cases now room secret with
    ⟨held, hheld, hne, hr⟩ | ⟨hkept, hr⟩ | ⟨held, hheld, hp, hsole, hr⟩
  · rw [hr]
    exact keptAt_self he
  · rw [hr]
    exact keptAt_self he
  · rw [hr]
    exact keptAt_update he hheld rfl (Or.inr rfl)

theorem keptAt_connected (he : rooms r = some entry) :
    (rooms.broadcasterConnected now room secret).2.KeptAt now r entry := by
  unfold broadcasterConnected
  cases hheld : rooms room with
  | none => exact keptAt_self he
  | some held =>
    dsimp only
    by_cases hp : held.password ≠ secret
    · rw [if_pos hp]
      exact keptAt_self he
    · rw [if_neg hp]
      exact keptAt_update he hheld rfl (Or.inl rfl)

theorem keptAt_disconnected (he : rooms r = some entry) :
    (rooms.broadcasterDisconnected now room secret).2.KeptAt now r entry := by
  unfold broadcasterDisconnected
  cases hheld : rooms room with
  | none => exact keptAt_self he
  | some held =>
    dsimp only
    by_cases hp : held.password ≠ secret
    · rw [if_pos hp]
      exact keptAt_self he
    · rw [if_neg hp]
      exact keptAt_update he hheld rfl (Or.inl rfl)

theorem keptAt_delete (he : rooms r = some entry)
    (hthere : (rooms.delete now room secret).2 r ≠ none) :
    (rooms.delete now room secret).2.KeptAt now r entry := by
  have hsame : (rooms.delete now room secret).2 r = rooms r := by
    unfold delete at hthere ⊢
    cases hheld : rooms room with
    | none => rfl
    | some held =>
      rw [hheld] at hthere
      dsimp only at hthere ⊢
      split_ifs at hthere ⊢ with hp
      · rfl
      · apply Function.update_of_ne
        rintro rfl
        exact hthere (Function.update_self ..)
  apply keptAt_self
  rw [hsame, he]

theorem keptAt_evictRoom {ttl : ℕ} (he : rooms r = some entry)
    (hthere : rooms.evictRoom now ttl room r ≠ none) :
    (rooms.evictRoom now ttl room).KeptAt now r entry := by
  have hsame : rooms.evictRoom now ttl room r = rooms r := by
    unfold evictRoom at hthere ⊢
    by_cases hr : r = room
    · subst hr
      rw [Function.update_self, he] at hthere ⊢
      cases hk : entry.keep now ttl with
      | true => simp [hk]
      | false => simp [hk] at hthere
    · exact Function.update_of_ne hr _ _
  apply keptAt_self
  rw [hsame, he]

end Rooms

namespace Server

/-- The frame lemma for one room: a step removes it, or leaves it its owner's. -/
theorem keptAt_of_step {s s' : Server} {a : Action} (hstep : s.step a = some s') {r : RoomId}
    {entry : Room} (he : s.rooms r = some entry) (hkeep : s.removes a ≠ some r) :
    s'.rooms.KeptAt s.now r entry := by
  have hthere : s'.rooms r ≠ none := by
    rw [ne_eq, rooms_eq_none_iff_of_step hstep, he]
    rintro (⟨h, -⟩ | h)
    · cases h
    · exact hkeep h
  cases step_cases hstep with
  | elapse d => exact Rooms.keptAt_self he
  | handshake room secret =>
    rw [handshake_rooms]
    exact Rooms.keptAt_append he
  | attach i c hc hp => exact Rooms.keptAt_connected he
  | receive i msg c hc hp =>
    have hrooms := receive_rooms s i c msg
    rw [hrooms] at hthere ⊢
    cases hreq : request msg with
    | keepalive => exact Rooms.keptAt_append he
    | store size message => exact Rooms.keptAt_append he
    | delete =>
      rw [hreq] at hthere
      exact Rooms.keptAt_delete he hthere
    | reset => exact Rooms.keptAt_reset he
    | stop => exact Rooms.keptAt_self he
  | hangUp i c hc hp => exact Rooms.keptAt_self he
  | publish i c out phase hc hp => exact Rooms.keptAt_self he
  | ack i sent c hc hp => exact Rooms.keptAt_self he
  | detach i c hc hp => exact Rooms.keptAt_disconnected he
  | deleteRoom room secret => exact Rooms.keptAt_delete he hthere
  | evict room => exact Rooms.keptAt_evictRoom he hthere

theorem receive_clock (s : Server) (i : ℕ) (c : Conn) (msg : WsMessage) :
    (s.receive i c msg).now = s.now ∧ (s.receive i c msg).inactiveTtl = s.inactiveTtl := by
  unfold receive
  cases request msg with
  | keepalive =>
    simp only [keepalive]
    rcases s.rooms.append s.now c.room c.secret none none with ⟨_ | _, rooms⟩ <;> exact ⟨rfl, rfl⟩
  | store size message =>
    simp only [store]
    rcases s.rooms.append s.now c.room c.secret size message with ⟨_ | _, rooms⟩ <;>
      exact ⟨rfl, rfl⟩
  | delete => exact ⟨rfl, rfl⟩
  | reset =>
    simp only [resetRoom]
    rcases s.rooms.reset s.now c.room c.secret with ⟨_ | _, rooms⟩ <;> exact ⟨rfl, rfl⟩
  | stop => exact ⟨rfl, rfl⟩

theorem inactiveTtl_of_step {s s' : Server} {a : Action} (hstep : s.step a = some s') :
    s'.inactiveTtl = s.inactiveTtl := by
  cases step_cases hstep with
  | handshake room secret =>
    simp only [handshake]
    rcases s.rooms.append s.now room secret none none with ⟨_ | _, rooms⟩ <;> rfl
  | receive i msg c hc hp => exact (receive_clock s i c msg).2
  | _ => rfl

/-- The loop a step is taken by; a handshake opens the next one. -/
def mover (s : Server) : Action → Option ℕ
  | .handshake _ _ => some s.conns.length
  | .attach i | .receive i _ | .hangUp i | .publish i | .ack i _ | .detach i => some i
  | .elapse _ | .deleteRoom _ _ | .evict _ => none

/-- History: when each loop entered the phase it is in. -/
def noteWaits (s : Server) (a : Action) (s' : Server) (since : ℕ → ℕ) : ℕ → ℕ :=
  match s.mover a with
  | some i => Function.update since i s'.now
  | none => since

/-- The step of a clocked run keeps to the timeouts, no loop outlasting its wait, and
takes no room from a loop but by that loop's own delete, or in a sweep. A reset comes from
a sole broadcaster, for another one's refreshes nothing. -/
structure Orderly (p : Server × (ℕ → ℕ)) (a : Action) : Prop where
  timely : ∀ d i c, a = .elapse d → p.1.conns[i]? = some c → c.phase.looping = true →
    p.1.now + d ≤ p.2 i + c.phase.wait p.1.inactiveTtl
  spares : ∀ i c, p.1.conns[i]? = some c → c.phase.looping = true →
    p.1.removes a = some c.room → (∃ msg, a = .receive i msg) ∨ ∃ room, a = .evict room
  sole : ∀ i msg c, a = .receive i msg → p.1.conns[i]? = some c → request msg = .reset →
    p.1.conns.countP (Conn.attachedTo c.room c.secret) ≤ 1
  unattended : ClaimsOnlyUnattended p.1 a

/-- The loop's room is there, is its own, counts every loop attached to it, and is
shown as live once the loop has attached. -/
def HoldsRoom (s : Server) (c : Conn) : Prop :=
  ∃ entry, s.rooms c.room = some entry ∧ entry.password = c.secret ∧
    entry.broadcasters = s.conns.countP (Conn.attachedTo c.room c.secret) ∧
    (c.phase.attached = true →
      ∃ snapshot, s.rooms.snapshot s.now c.room = some snapshot ∧ snapshot.broadcasting = true)

def LoopsHoldRooms (s : Server) : Prop :=
  ∀ (i : ℕ) (c : Conn), s.conns[i]? = some c → c.phase.looping = true → s.HoldsRoom c

/-- What keeps the sweep away: the room was refreshed no more than the phase's lag before
the loop entered the phase, and the loop has not outlasted the wait. -/
def Tended (p : Server × (ℕ → ℕ)) (i : ℕ) (c : Conn) : Prop :=
  ∃ entry, p.1.rooms c.room = some entry ∧ entry.password = c.secret ∧
    p.2 i ≤ entry.lastActivity + c.phase.lag ∧ p.2 i ≤ p.1.now ∧
    p.1.now ≤ p.2 i + c.phase.wait p.1.inactiveTtl

/-- The invariant of orderly runs. -/
structure Attended (p : Server × (ℕ → ℕ)) : Prop where
  exact : AttachCountsExact p.1
  tended : ∀ i c, p.1.conns[i]? = some c → c.phase.looping = true → Tended p i c

theorem Attended.counted {p : Server × (ℕ → ℕ)} (h : Attended p) {i : ℕ} {c : Conn}
    (hc : p.1.conns[i]? = some c) (hatt : c.phase.attached = true) {entry : Room}
    (he : p.1.rooms c.room = some entry) (hp : entry.password = c.secret) :
    0 < entry.broadcasters := by
  rw [h.exact c.room entry he, hp]
  apply List.countP_pos_iff.mpr
  exact ⟨c, List.mem_of_getElem? hc, by simp [Conn.attachedTo, hatt]⟩

/-- Three waits on end are shorter than the grace. -/
theorem Tended.age_le {p : Server × (ℕ → ℕ)} {i : ℕ} {c : Conn} (h : Tended p i c)
    {entry : Room} (he : p.1.rooms c.room = some entry) :
    p.1.now - entry.lastActivity ≤ broadcasterGrace := by
  obtain ⟨held, hheld, -, hlag, -, hwait⟩ := h
  obtain rfl := Option.some.inj (he.symm.trans hheld)
  have hphase := c.phase.lag_le
  have hlimit := c.phase.wait_le p.1.inactiveTtl
  have hgrace : 3 * ingestIdleTimeout ≤ broadcasterGrace := by decide
  omega

/-- A refresh in the step that ends a wait starts the next one at age zero. -/
theorem tended_of_refreshed {p : Server × (ℕ → ℕ)} {i : ℕ} {c : Conn} {entry : Room}
    (he : p.1.rooms c.room = some entry) (hp : entry.password = c.secret)
    (hfresh : entry.lastActivity = p.1.now) (hsince : p.2 i = p.1.now) : Tended p i c := by
  refine ⟨entry, he, hp, ?_, ?_, ?_⟩ <;> omega

/-- A loop that does not move goes on waiting. -/
theorem Tended.wait {p p' : Server × (ℕ → ℕ)} {i : ℕ} {c : Conn} (h : Tended p i c)
    (hkept : ∀ entry, p.1.rooms c.room = some entry →
      p'.1.rooms.KeptAt p.1.now c.room entry)
    (hsince : p'.2 i = p.2 i) (hnow : p.1.now ≤ p'.1.now)
    (hwait : p'.1.now ≤ p.2 i + c.phase.wait p'.1.inactiveTtl) : Tended p' i c := by
  obtain ⟨entry, he, hp, hlag, hpast, -⟩ := h
  obtain ⟨entry', he', hp', htime⟩ := hkept entry he
  refine ⟨entry', he', hp'.trans hp, ?_, ?_, ?_⟩
  · rcases htime with h | h <;> omega
  · omega
  · omega

/-- A loop that moves on without a refresh starts a new wait with the old one behind it. -/
theorem Tended.move {p p' : Server × (ℕ → ℕ)} {i : ℕ} {c c' : Conn} (h : Tended p i c)
    (hroom : c'.room = c.room) (hsecret : c'.secret = c.secret)
    (hkept : ∀ entry, p.1.rooms c.room = some entry →
      p'.1.rooms.KeptAt p.1.now c.room entry)
    (hsince : p'.2 i = p'.1.now) (hnow : p'.1.now = p.1.now)
    (hlag : c.phase.lag + ingestIdleTimeout ≤ c'.phase.lag) : Tended p' i c' := by
  obtain ⟨entry, he, hp, hold, -, hwait⟩ := h
  have hlimit := c.phase.wait_le p.1.inactiveTtl
  obtain ⟨entry', he', hp', htime⟩ := hkept entry he
  refine ⟨entry', hroom ▸ he', (hp'.trans hp).trans hsecret.symm, ?_, ?_, ?_⟩
  · rcases htime with h | h <;> omega
  · omega
  · omega

/-- The sweep finds no room stale that a loop is in, whatever the TTL. -/
theorem Attended.not_swept {p : Server × (ℕ → ℕ)} (h : Attended p) {i : ℕ} {c : Conn}
    (hc : p.1.conns[i]? = some c) (hl : c.phase.looping = true) (room : RoomId) :
    p.1.removes (.evict room) ≠ some c.room := by
  intro hrem
  have htended := h.tended i c hc hl
  obtain ⟨entry, he, hp, hlag, -, hwait⟩ := id htended
  have hkeep : entry.keep p.1.now p.1.inactiveTtl = true := by
    apply decide_eq_true
    by_cases hatt : c.phase.attached = true
    · have hcount := h.counted hc hatt he hp
      calc p.1.now - entry.lastActivity ≤ broadcasterGrace := htended.age_le he
        _ ≤ max p.1.inactiveTtl broadcasterGrace := le_max_right ..
        _ = entry.deadline p.1.inactiveTtl := (if_pos hcount).symm
    · -- the handshake has refreshed the room, and the loop is to attach within the TTL
      have hup : c.phase = .upgraded := by
        cases hphase : c.phase <;> simp_all [Phase.looping, Phase.attached]
      rw [hup] at hlag hwait
      have hfresh : p.1.now - entry.lastActivity ≤ p.1.inactiveTtl := by
        simp only [Phase.lag, Phase.wait] at hlag hwait
        omega
      exact hfresh.trans (entry.le_deadline p.1.inactiveTtl)
  simp only [removes, Option.ite_none_right_eq_some, Option.some.injEq] at hrem
  obtain ⟨hstale, rfl⟩ := hrem
  rw [he, Option.all_some, hkeep] at hstale
  cases hstale

theorem Attended.spared {p : Server × (ℕ → ℕ)} {a : Action} (h : Attended p)
    (ho : Orderly p a) {i : ℕ} {c : Conn} (hc : p.1.conns[i]? = some c)
    (hl : c.phase.looping = true) (hmine : ∀ msg, a ≠ .receive i msg) :
    p.1.removes a ≠ some c.room := by
  intro hrem
  rcases ho.spares i c hc hl hrem with ⟨msg, ha⟩ | ⟨room, rfl⟩
  · exact hmine msg ha
  · exact h.not_swept hc hl room hrem

/-- A frame that leaves its loop waiting for the next has refreshed the loop's room. -/
theorem Attended.tended_receive {p : Server × (ℕ → ℕ)} (h : Attended p) {i : ℕ} {c c' : Conn}
    {msg : WsMessage} {since : ℕ → ℕ} (hc : p.1.conns[i]? = some c) (hp : c.phase = .receiving)
    (hsole : request msg = .reset →
      p.1.conns.countP (Conn.attachedTo c.room c.secret) ≤ 1)
    (hsince : since i = p.1.now) (hc' : (p.1.receive i c msg).conns[i]? = some c')
    (hl : c'.phase.looping = true) : Tended (p.1.receive i c msg, since) i c' := by
  obtain ⟨entry, he, hpw, -⟩ := h.tended i c hc (by rw [hp]; rfl)
  obtain ⟨hlt, -⟩ := List.getElem?_eq_some_iff.mp hc
  unfold receive at hc' ⊢
  cases hreq : request msg with
  | keepalive =>
    simp only [hreq, keepalive, Rooms.append_of_some he hpw, setConn,
      List.getElem?_set_self hlt, Option.some.injEq] at hc' ⊢
    subst hc'
    exact tended_of_refreshed (Function.update_self ..) hpw rfl hsince
  | store size message =>
    simp only [hreq, store, Rooms.append_of_some he hpw, setConn,
      List.getElem?_set_self hlt, Option.some.injEq] at hc' ⊢
    subst hc'
    exact tended_of_refreshed (Function.update_self ..) hpw rfl hsince
  | reset =>
    have hone : entry.broadcasters ≤ 1 := by
      rw [h.exact c.room entry he, hpw]
      exact hsole hreq
    rcases p.1.rooms.reset_cases p.1.now c.room c.secret with
      ⟨held, hheld, hne, -⟩ | ⟨hmany, -⟩ | ⟨held, hheld, -, -, hr⟩
    · obtain rfl := Option.some.inj (he.symm.trans hheld)
      exact absurd hpw hne
    · exact absurd (hmany entry he).2 (by omega)
    · obtain rfl := Option.some.inj (he.symm.trans hheld)
      simp only [hreq, resetRoom, hr, setConn, List.getElem?_set_self hlt,
        Option.some.injEq] at hc' ⊢
      subst hc'
      exact tended_of_refreshed (Function.update_self ..) hpw rfl hsince
  | delete =>
    simp only [hreq, setConn, List.getElem?_set_self hlt, Option.some.injEq] at hc'
    subst hc'
    cases hl
  | stop =>
    simp only [hreq, setConn, List.getElem?_set_self hlt, Option.some.injEq] at hc'
    subst hc'
    cases hl

/-- The step lemma for the loops: each is still waiting, or has begun a new wait. -/
theorem Attended.tended_step {p p' : Server × (ℕ → ℕ)} {a : Action} (h : Attended p)
    (ho : Orderly p a) (hstep : withHistory step noteWaits p a = some p') {i : ℕ} {c' : Conn}
    (hc' : p'.1.conns[i]? = some c') (hl : c'.phase.looping = true) : Tended p' i c' := by
  obtain ⟨s, since⟩ := p
  obtain ⟨s', since'⟩ := p'
  obtain ⟨hserver, hnote⟩ := withHistory_eq_some.mp hstep
  dsimp only at hserver hnote hc'
  subst hnote
  have hkept : ∀ c, s.conns[i]? = some c → c.phase.looping = true →
      (∀ msg, a ≠ .receive i msg) → ∀ entry, s.rooms c.room = some entry →
        s'.rooms.KeptAt s.now c.room entry := fun c hc hloop hmine entry he =>
    keptAt_of_step hserver he (h.spared ho hc hloop hmine)
  -- a loop that the step does not move
  have hother : s.conns[i]? = some c' → s.mover a ≠ some i → s'.now = s.now →
      (∀ msg, a ≠ .receive i msg) → Tended (s', noteWaits s a s' since) i c' := by
    intro hc hmover hnow hmine
    have htended := h.tended i c' hc hl
    obtain ⟨entry, -, -, -, -, hwait⟩ := id htended
    have hsince : noteWaits s a s' since i = since i := by
      unfold noteWaits
      cases hm : s.mover a with
      | none => rfl
      | some j =>
        apply Function.update_of_ne
        rintro rfl
        exact hmover hm
    apply htended.wait (hkept c' hc hl hmine) hsince hnow.ge
    rw [hnow, inactiveTtl_of_step hserver]
    exact hwait
  -- a loop that the step moves from one wait to the next
  have hmoved : ∀ c, s.conns[i]? = some c → c'.room = c.room → c'.secret = c.secret →
      s.mover a = some i → s'.now = s.now → (∀ msg, a ≠ .receive i msg) →
      c.phase.lag + ingestIdleTimeout ≤ c'.phase.lag → c.phase.looping = true →
        Tended (s', noteWaits s a s' since) i c' := by
    intro c hc hroom hsecret hmover hnow hmine hlag hloop
    apply (h.tended i c hc hloop).move hroom hsecret (hkept c hc hloop hmine) _ hnow hlag
    simp only [noteWaits, hmover, Function.update_self]
  -- a step that rewrites the loop it moves, and no other
  have hset : ∀ {j : ℕ} {d : Conn}, s'.conns = s.conns.set j d → s.mover a = some j →
      s'.now = s.now → (∀ k msg, a = .receive k msg → k = j) →
      (i = j → c' = d → Tended (s', noteWaits s a s' since) i c') →
        Tended (s', noteWaits s a s' since) i c' := by
    intro j d hconns hmover hnow hreceive hown
    rw [hconns, List.getElem?_set] at hc'
    split_ifs at hc' with hji hlt
    · exact hown hji.symm (Option.some.inj hc').symm
    · apply hother hc' _ hnow
      · exact fun msg ha => hji (hreceive i msg ha).symm
      · rw [hmover]
        exact fun heq => hji (Option.some.inj heq)
  cases step_cases hserver with
  | elapse d =>
    have htended := h.tended i c' hc' hl
    exact htended.wait (hkept c' hc' hl nofun) rfl (Nat.le_add_right ..)
      (ho.timely d i c' rfl hc' hl)
  | handshake room secret =>
    have hold : ∀ {conn : Conn}, s.conns[i]? = some conn →
        s.mover (.handshake room secret) ≠ some i := by
      intro conn hconn hmover
      obtain ⟨hlt, -⟩ := List.getElem?_eq_some_iff.mp hconn
      have hi : s.conns.length = i := Option.some.inj hmover
      omega
    rcases s.rooms.append_cases s.now room secret none none with
      ⟨entry, -, -, ha⟩ | ⟨appended, hp, ha⟩
    · -- refused with 401: no loop, and no change
      simp only [handshake, ha] at hc' hother ⊢
      exact hother hc' (hold hc') trivial nofun
    · simp only [handshake, ha] at hc' hother ⊢
      rw [List.getElem?_append] at hc'
      split_ifs at hc' with hlt
      · exact hother hc' (hold hc') trivial nofun
      · obtain ⟨hi, rfl⟩ := List.getElem?_eq_some_iff.mp hc'
        have hzero : i - s.conns.length < 1 := hi
        have hlen : i = s.conns.length := by omega
        subst hlen
        simp only [Nat.sub_self, List.getElem_cons_zero] at hl ⊢
        apply tended_of_refreshed (Function.update_self ..) hp rfl
        simp [noteWaits, mover]
  | attach j c hc hp =>
    apply hset rfl rfl rfl nofun
    rintro rfl rfl
    apply hmoved c hc rfl rfl rfl rfl nofun
    · rw [hp]
      simp only [Conn.to]
      split_ifs <;> decide
    · rw [hp]
      rfl
  | receive j msg c hc hp =>
    obtain ⟨d, hconns, -⟩ := receive_spec s j c msg
    have hnow := (receive_clock s j c msg).1
    apply hset hconns rfl hnow (by rintro _ _ ⟨⟩; rfl)
    rintro rfl rfl
    exact h.tended_receive hc hp (ho.sole i msg c rfl hc) (by simp [noteWaits, mover, hnow]) hc' hl
  | hangUp j c hc hp =>
    apply hset rfl rfl rfl nofun
    rintro rfl rfl
    cases hl
  | publish j c out phase hc hp =>
    apply hset rfl rfl rfl nofun
    rintro rfl rfl
    rcases publication_cases hp with
      ⟨hphase, -, rfl⟩ | ⟨_, hphase, -, rfl⟩ | ⟨hphase, -, rfl⟩ | ⟨_, -, rfl⟩
    · apply hmoved c hc rfl rfl rfl rfl nofun
      · simp [hphase, Conn.to, Phase.lag, ingestIdleTimeout]
      · rw [hphase]
        rfl
    · apply hmoved c hc rfl rfl rfl rfl nofun
      · simp [hphase, Conn.to, Phase.lag]
      · rw [hphase]
        rfl
    · apply hmoved c hc rfl rfl rfl rfl nofun
      · simp [hphase, Conn.to, Phase.lag, ingestIdleTimeout]
      · rw [hphase]
        rfl
    · cases hl
  | ack j sent c hc hp =>
    apply hset rfl rfl rfl nofun
    rintro rfl rfl
    cases sent with
    | true =>
      apply hmoved c hc rfl rfl rfl rfl nofun
      · simp [hp, Conn.to, Phase.lag, ingestIdleTimeout]
      · rw [hp]
        rfl
    | false => cases hl
  | detach j c hc hp =>
    apply hset rfl rfl rfl nofun
    rintro rfl rfl
    simp only [Conn.to] at hl
    split_ifs at hl <;> cases hl
  | deleteRoom room secret => exact hother hc' nofun rfl nofun
  | evict room => exact hother hc' nofun rfl nofun

theorem Attended.step {p p' : Server × (ℕ → ℕ)} {a : Action} (h : Attended p)
    (ho : Orderly p a) (hstep : withHistory Server.step noteWaits p a = some p') :
    Attended p' := by
  have hserver := (withHistory_eq_some.mp hstep).1
  constructor
  · exact (exact_step_iff h.exact hserver).mpr ho.unattended
  · intro i c hc hl
    exact h.tended_step ho hstep hc hl

theorem Attended.holdsRoom {p : Server × (ℕ → ℕ)} (h : Attended p) {i : ℕ} {c : Conn}
    (hc : p.1.conns[i]? = some c) (hl : c.phase.looping = true) : p.1.HoldsRoom c := by
  have htended := h.tended i c hc hl
  obtain ⟨entry, he, hp, -⟩ := id htended
  refine ⟨entry, he, hp, ?_, fun hatt => ?_⟩
  · rw [h.exact c.room entry he, hp]
  · refine ⟨_, by rw [Rooms.snapshot, he, Option.map_some], ?_⟩
    simp only [Bool.and_eq_true, decide_eq_true_eq]
    exact ⟨h.counted hc hatt he hp, htended.age_le he⟩

theorem attended_init (ttl : ℕ) (since : ℕ → ℕ) : Attended (init ttl, since) := by
  constructor
  · intro room entry he
    cases he
  · intro i c hc
    simp [init] at hc

/-- In an orderly run every loop that has not left holds its room, in every state:
nobody takes it over, no sweep removes it and viewers are shown it as live. -/
theorem live_broadcasts_keep_rooms (ttl : ℕ) (as : List Action)
    (horderly : StepsSatisfy (withHistory step noteWaits) Orderly (init ttl, fun _ => 0) as) :
    StatesSatisfy (withHistory step noteWaits) (fun p => p.1.LoopsHoldRooms)
      (init ttl, fun _ => 0) as := by
  refine states_of_invariant (I := Attended) ?_ ?_ (attended_init ttl _) horderly
  · exact fun p a p' h ho hstep => h.step ho hstep
  · exact fun p h i c hc hl => h.holdsRoom hc hl

/-- A step that neither deletes nor appends, nor lets time pass, nor reads a frame. -/
theorem orderly_of_quiet {p : Server × (ℕ → ℕ)} {a : Action} (hrem : p.1.removes a = none)
    (happ : p.1.appender a = none) (htime : ∀ d, a ≠ .elapse d)
    (hframe : ∀ i msg, a ≠ .receive i msg) : Orderly p a := by
  constructor
  · exact fun d i c ha => absurd ha (htime d)
  · intro i c hc hl h
    rw [hrem] at h
    cases h
  · exact fun i msg c ha => absurd ha (hframe i msg)
  · exact claimsOnlyUnattended_of_none happ

/-- A sweep with a TTL of one second, a minute after the last frame: the room is there
for the ping that follows. -/
theorem quiet_broadcast_keeps_room :
    StatesSatisfy (withHistory step noteWaits) (fun p => p.1.LoopsHoldRooms)
      (init 1000, fun _ => 0)
      [.handshake ⟨"demo"⟩ "pw", .evict ⟨"demo"⟩, .attach 0, .publish 0, .elapse 60000,
        .evict ⟨"demo"⟩, .receive 0 .ping] := by
  apply live_broadcasts_keep_rooms
  rintro _ ⟨⟩
  refine ⟨⟨nofun, nofun, nofun, fun _ _ _ _ => rfl⟩, ?_⟩
  rintro _ ⟨⟩
  refine ⟨orderly_of_quiet (by decide) rfl nofun nofun, ?_⟩
  rintro _ ⟨⟩
  refine ⟨orderly_of_quiet rfl rfl nofun nofun, ?_⟩
  rintro _ ⟨⟩
  refine ⟨orderly_of_quiet rfl rfl nofun nofun, ?_⟩
  rintro _ ⟨⟩
  refine ⟨⟨?_, nofun, nofun, nofun⟩, ?_⟩
  · rintro d i c ⟨⟩ hc -
    have hi : i = 0 := by
      obtain ⟨hlt, -⟩ := List.getElem?_eq_some_iff.mp hc
      exact Nat.lt_one_iff.mp hlt
    subst hi
    obtain rfl := Option.some.inj hc
    decide
  rintro _ ⟨⟩
  refine ⟨orderly_of_quiet (by decide) rfl nofun nofun, ?_⟩
  rintro _ ⟨⟩
  refine ⟨⟨nofun, nofun, ?_, ?_⟩, trivial⟩
  · rintro i msg c ⟨⟩ - hreq
    cases hreq
  · apply (claimsOnlyUnattended_iff rfl).mpr
    intro hnone
    revert hnone
    decide

end Server

end Shellshare
