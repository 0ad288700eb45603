import Shellshare.Broadcast
import Shellshare.TransitionReach

/-! A client with output left can always start over: it drops the connection it has, waits
for its backoff, dials again and writes all it holds on the new connection. -/
namespace Shellshare
open CumulativeAcks ReplayBuffer TransitionRuns

/-- In `shutdown`, which gives up what it cannot deliver in time. -/
def Stage.ending : Stage → Bool
  | .draining .shutdown | .connecting .shutdown | .sizing .shutdown | .writing .shutdown
  | .lingering _ | .closing => true
  | _ => false

/-- A frame that a loop does not end at. -/
def WsMessage.Ingestible (frame : WsMessage) : Prop :=
  request frame = .keepalive ∨ ∃ size message, request frame = .store size message

namespace Server

/-- The room is free, or claimed with the secret. -/
def Accepts (s : Server) (room : RoomId) (secret : String) : Prop :=
  ∀ p count, s.rooms.claim room = some (p, count) → p = secret

variable {s s' : Server} {room : RoomId} {secret : String}

theorem Accepts.append (h : s.Accepts room secret) (size : Option Json) (message : Option Bytes) :
    ∃ appended, (s.rooms.append s.now room secret size message).1 = .ok appended := by
  rcases s.rooms.append_cases s.now room secret size message with
    ⟨entry, hentry, hother, -⟩ | ⟨appended, -, happend⟩
  · have hclaim : s.rooms.claim room = some (entry.password, entry.broadcasters) := by
      rw [Rooms.claim, hentry]
      rfl
    exact absurd (h _ _ hclaim) hother
  · exact ⟨appended, by rw [happend]⟩

theorem Accepts.of_append (h : s.Accepts room secret) {size : Option Json} {message : Option Bytes}
    (hrooms : s'.rooms = (s.rooms.append s.now room secret size message).2) :
    s'.Accepts room secret := by
  intro p count hclaim
  rw [hrooms, Rooms.claim_append] at hclaim
  split_ifs at hclaim
  · cases hclaim
    rfl
  · exact h p count hclaim

theorem Accepts.attach (h : s.Accepts room secret) (i : ℕ) {c : Conn} (hroom : c.room = room)
    (hsecret : c.secret = secret) : (s.attach i c).Accepts room secret := by
  intro p count hclaim
  change (s.rooms.broadcasterConnected s.now c.room c.secret).2.claim room = some (p, count) at hclaim
  rw [hroom, hsecret] at hclaim
  by_cases hown : ∃ held, s.rooms.claim room = some (secret, held)
  · obtain ⟨held, hheld⟩ := hown
    rw [(Rooms.broadcasterConnected_of_claim hheld s.now).2, if_pos rfl] at hclaim
    cases hclaim
    rfl
  · simp only [not_exists] at hown
    rw [Rooms.broadcasterConnected_of_not_claim hown] at hclaim
    exact h p count hclaim

end Server

namespace Transport

variable {V : Type}

/-- The pending write of a chunk has a chunk to write. -/
def Poised (t : Transport V) : Prop := ∀ caller, t.stage = .writing caller → t.pending ≠ []

theorem poised_of_ne {t : Transport V} (h : ∀ caller, t.stage ≠ .writing caller) : Poised t :=
  fun caller hstage => absurd hstage (h caller)

theorem poised_linger (t : Transport V) (deadline : ℕ) : Poised (t.linger deadline) := by
  apply poised_of_ne
  intro caller
  unfold linger
  split_ifs <;> nofun

theorem poised_resume (t : Transport V) (caller : Caller) : Poised (t.resume caller) := by
  cases caller with
  | send => exact poised_of_ne fun _ => nofun
  | tick =>
    apply poised_of_ne
    intro caller
    unfold resume
    split_ifs <;> nofun
  | shutdown => exact poised_linger t _

theorem poised_deliver (t : Transport V) (caller : Caller) : Poised (t.deliver caller) := by
  unfold deliver
  split_ifs with hpending
  · exact poised_resume t caller
  · exact fun _ _ => hpending

theorem poised_announce (t : Transport V) (caller : Caller) : Poised (t.announce caller) := by
  unfold announce
  split_ifs
  · exact poised_of_ne fun _ => nofun
  · exact poised_deliver t caller

theorem poised_reconnect (t : Transport V) (caller : Caller) : Poised (t.reconnect caller) := by
  unfold reconnect
  split_ifs
  · exact poised_announce t caller
  · exact poised_resume t caller
  · exact poised_of_ne fun _ => nofun

theorem poised_flush (t : Transport V) (caller : Caller) : Poised (t.flush caller) := by
  unfold flush
  split_ifs
  · exact poised_of_ne fun _ => nofun
  · exact poised_reconnect t caller

theorem drainTurn_stage (t : Transport V) (incoming : Incoming) :
    (t.drainTurn incoming).1.stage = t.stage := by
  unfold drainTurn
  split
  · split <;> rfl
  · rfl
  · rfl
  · rfl

variable [Vt V]

theorem poised_step {t t' : Transport V} {a : ClientAction} (h : Poised t)
    (hstep : t.step a = some t') : Poised t' := by
  cases a with
  | elapse d =>
    obtain rfl := Option.some.inj hstep
    exact h
  | send data size nonce keyframeNonce =>
    simp only [step] at hstep
    split at hstep
    · obtain ⟨u, -, rfl⟩ := Option.map_eq_some_iff.mp hstep
      exact poised_flush _ .send
    · cases hstep
  | tick size =>
    simp only [step] at hstep
    split at hstep
    · obtain rfl := Option.some.inj hstep
      exact poised_flush _ .tick
    · cases hstep
  | shutdown =>
    simp only [step] at hstep
    split at hstep
    · obtain rfl := Option.some.inj hstep
      exact poised_flush _ .shutdown
    · cases hstep
  | handshake outcome =>
    simp only [step] at hstep
    split at hstep
    · obtain rfl := Option.some.inj hstep
      exact poised_of_ne fun _ h => by cases h
    · obtain rfl := Option.some.inj hstep
      exact poised_announce _ _
    · obtain rfl := Option.some.inj hstep
      exact poised_resume _ _
    · cases hstep
  | write sent =>
    simp only [step] at hstep
    split at hstep
    · obtain rfl := Option.some.inj hstep
      exact poised_of_ne fun _ h => by cases h
    · obtain rfl := Option.some.inj hstep
      split
      · exact poised_deliver _ _
      · exact poised_resume _ _
    · unfold writeFront at hstep
      split at hstep
      · cases hstep
      · obtain rfl := Option.some.inj hstep
        dsimp only
        split
        · exact poised_deliver _ _
        · exact poised_resume _ _
    · obtain rfl := Option.some.inj hstep
      exact poised_of_ne fun _ h => by cases h
    · cases hstep
  | read incoming =>
    simp only [step] at hstep
    split at hstep
    · rename_i caller hstage
      obtain rfl := Option.some.inj hstep
      split
      · apply poised_of_ne
        intro other
        rw [drainTurn_stage, hstage]
        intro h
        cases h
      · exact poised_reconnect _ _
    · rename_i deadline hstage
      obtain rfl := Option.some.inj hstep
      split
      · apply poised_of_ne
        intro other
        rw [drainTurn_stage, hstage]
        intro h
        cases h
      · exact poised_linger _ _
    · cases hstep
  | close =>
    simp only [step] at hstep
    split at hstep
    · obtain rfl := Option.some.inj hstep
      exact poised_of_ne fun _ h => by cases h
    · cases hstep

omit [Vt V] in
/-- Without a connection a caller other than `shutdown` returns at once. -/
theorem resume_offline {t : Transport V} (hs : t.socket = none) {caller : Caller}
    (hcaller : caller ≠ .shutdown) : t.resume caller = t.enter .idle := by
  cases caller with
  | send => rfl
  | tick => simp [resume, hs]
  | shutdown => exact absurd rfl hcaller

/-- What the client has to show for its output so far, and whether it has ended. -/
def stock (t : Transport V) : List Chunk × List Chunk × List Chunk × Bool :=
  (t.held, t.queued, t.discarded, t.closed)

/-- Idle and without a connection. -/
structure Offline (t : Transport V) : Prop where
  idle : t.stage = .idle
  socket : t.socket = none

omit [Vt V] in
theorem write_false {t : Transport V} {j : ℕ} (hj : t.socket = some j) :
    t.write false = (false, t.disconnect) := by
  simp [write, hj]

omit [Vt V] in
theorem stock_disconnect (t : Transport V) : t.disconnect.stock = t.stock := by
  simp [disconnect, armBackoff, ReplayBuffer.disconnect, stock, held]

omit [Vt V] in
theorem stock_hand (t : Transport V) (chunk : Chunk) :
    stock { t with toReplayBuffer := t.toReplayBuffer.hand chunk } = t.stock := by
  simp only [stock, hand]
  split <;> rfl

omit [Vt V] in
theorem writeFront_false {t : Transport V} {j : ℕ} (hj : t.socket = some j) {caller : Caller}
    (hcaller : caller ≠ .shutdown) {chunk : Chunk} {rest : List Chunk}
    (hpending : t.pending = chunk :: rest) : t.writeFront caller false =
      some ({ t with toReplayBuffer := t.toReplayBuffer.hand chunk }.disconnect.enter .idle) := by
  let u : Transport V := { t with toReplayBuffer := t.toReplayBuffer.hand chunk }
  have hu : u.write false = (false, u.disconnect) := write_false (j := j) (by simp [u, hand, hj])
  have hresume : u.disconnect.resume caller = u.disconnect.enter .idle := resume_offline rfl hcaller
  simp only [writeFront, hpending]
  change some (if (u.write false).1 then _ else (u.write false).2.resume caller) = _
  rw [hu]
  exact congrArg some hresume

/-- A write that fails drops the connection and loses nothing. -/
theorem step_write_fails {t : Transport V} (hplaced : Placed t) (hpoised : Poised t)
    (hstage : t.stage = .resetting ∨ t.stage = .pinging ∨
      ∃ caller, caller ≠ .shutdown ∧ (t.stage = .sizing caller ∨ t.stage = .writing caller)) :
    ∃ t', t.step (.write false) = some t' ∧ t'.Offline ∧ t'.stock = t.stock := by
  have hsocket : ∃ j, t.socket = some j := by
    apply Option.isSome_iff_exists.mp
    apply hplaced
    rcases hstage with h | h | ⟨caller, -, h | h⟩ <;> rw [h] <;> rfl
  obtain ⟨j, hj⟩ := hsocket
  have hdrop : (t.disconnect.enter .idle).Offline ∧ (t.disconnect.enter .idle).stock = t.stock :=
    ⟨⟨rfl, rfl⟩, stock_disconnect t⟩
  rcases hstage with h | h | ⟨caller, hcaller, h | h⟩
  · exact ⟨_, by simp only [step, h, write_false hj], hdrop⟩
  · exact ⟨_, by simp only [step, h, write_false hj], hdrop⟩
  · refine ⟨_, ?_, hdrop⟩
    simp [step, h, write_false hj, resume_offline (t := t.disconnect) rfl hcaller]
  · cases hpending : t.pending with
    | nil => exact absurd hpending (hpoised caller h)
    | cons chunk rest =>
      let u : Transport V := { t with toReplayBuffer := t.toReplayBuffer.hand chunk }
      refine ⟨u.disconnect.enter .idle, ?_, ⟨rfl, rfl⟩,
        (stock_disconnect u).trans (stock_hand t chunk)⟩
      simp only [step, h]
      exact writeFront_false hj hcaller hpending

theorem step_tick {t : Transport V} (hstage : t.stage = .idle) (size : TermSize) :
    t.step (.tick size) = some ({ t with size := size }.flush .tick) := by
  simp only [step]
  split
  · rfl
  · rename_i hother
    exact absurd hstage hother

theorem step_tick_online {t : Transport V} (hstage : t.stage = .idle) {j : ℕ}
    (hj : t.socket = some j) : t.step (.tick t.size) = some (t.enter (.draining .tick)) := by
  have honline : t.socket.isSome = true := by rw [hj]; rfl
  rw [step_tick hstage]
  exact congrArg some (if_pos honline)

/-- Once the backoff is over, a tick dials. -/
theorem step_tick_offline {t : Transport V} (hoffline : t.Offline)
    (hdue : t.nextAttempt.any (t.now < ·) = false) :
    t.step (.tick t.size) = some (t.enter (.connecting .tick)) := by
  have hsocket : ¬ t.socket.isSome = true := by rw [hoffline.socket]; nofun
  rw [step_tick hoffline.idle]
  change some (t.flush .tick) = _
  rw [flush, if_neg hsocket, reconnect, if_neg hsocket, if_neg (by simp [hdue])]

/-- The client as an accepted handshake leaves it, about to send its size. -/
def opened (t : Transport V) : Transport V := (t.finishHandshake .accepted).enter (.sizing .tick)

theorem step_accepted {t : Transport V} (hstage : t.stage = .connecting .tick) :
    t.step (.handshake .accepted) = some t.opened := by
  have hannounce : (t.finishHandshake .accepted).announce .tick = t.opened :=
    if_pos (show (none : Option TermSize) ≠ some t.size from nofun)
  simp only [step, hstage]
  exact congrArg some hannounce

/-- A connection found dead while draining is dropped, and dialled again if the backoff
lets it. -/
theorem step_read_dead {t : Transport V} {caller : Caller} (hcaller : caller ≠ .shutdown)
    (hstage : t.stage = .draining caller) :
    ∃ t', t.step (.read .dead) = some t' ∧ t'.socket = none ∧ t'.stock = t.stock ∧
      (t'.stage = .idle ∨ t'.stage = .connecting caller) := by
  have hstep : t.step (.read .dead) = some (t.disconnect.reconnect caller) := by
    simp [step, hstage, drainTurn]
  unfold reconnect at hstep
  have hoffline : ¬ t.disconnect.socket.isSome = true := fun h => by cases h
  rw [if_neg hoffline] at hstep
  split_ifs at hstep
  · rw [resume_offline rfl hcaller] at hstep
    exact ⟨_, hstep, rfl, stock_disconnect t, Or.inl rfl⟩
  · exact ⟨_, hstep, rfl, stock_disconnect t, Or.inr rfl⟩

/-- A handshake that fails leaves the client offline, with its backoff armed. -/
theorem step_handshake_fails {t : Transport V} (hplaced : Placed t) {caller : Caller}
    (hcaller : caller ≠ .shutdown) (hstage : t.stage = .connecting caller) :
    ∃ t', t.step (.handshake .failed) = some t' ∧ t'.Offline ∧ t'.stock = t.stock := by
  have hsocket : t.socket = none := by
    apply socket_eq_none
    apply hplaced
    rw [hstage]
    rfl
  have hstep : t.step (.handshake .failed) = some (t.armBackoff.resume caller) := by
    simp [step, hstage, finishHandshake]
  rw [resume_offline (t := t.armBackoff) hsocket hcaller] at hstep
  exact ⟨_, hstep, ⟨rfl, hsocket⟩, rfl⟩

/-- In the delivery loop of the flush of a tick, or past it. -/
def Delivering (t : Transport V) : Prop :=
  t.stage = .sizing .tick ∨ t.stage = .writing .tick ∧ t.pending ≠ [] ∨
    (t.stage = .pinging ∨ t.stage = .idle) ∧ t.pending = []

/-- How many frames the client has still to write, or more. -/
def leftToWrite (t : Transport V) : ℕ :=
  match t.stage with
  | .sizing _ => t.pending.length + 2
  | .writing _ => t.pending.length + 1
  | .pinging => 1
  | _ => 0

omit [Vt V] in
theorem delivering_deliver (t : Transport V) :
    (t.deliver .tick).Delivering ∧ (t.deliver .tick).leftToWrite ≤ t.pending.length + 1 ∧
      (t.deliver .tick).toReplayBuffer = t.toReplayBuffer := by
  unfold deliver
  split_ifs with hpending
  · unfold resume
    dsimp only
    split_ifs
    · exact ⟨Or.inr (Or.inr ⟨Or.inl rfl, hpending⟩), Nat.le_add_left 1 _, rfl⟩
    · exact ⟨Or.inr (Or.inr ⟨Or.inr rfl, hpending⟩), Nat.zero_le _, rfl⟩
  · exact ⟨Or.inr (Or.inl ⟨rfl, hpending⟩), le_refl _, rfl⟩

omit [Vt V] in
theorem write_true {t : Transport V} {j : ℕ} (hj : t.socket = some j) :
    t.write true = (true, t) := by
  simp [write, hj]

omit [Vt V] in
theorem writeFront_true {t : Transport V} {j : ℕ} (hj : t.socket = some j) {caller : Caller}
    {chunk : Chunk} {rest : List Chunk} (hpending : t.pending = chunk :: rest) :
    t.writeFront caller true = some (deliver { t with
      toReplayBuffer := (t.toReplayBuffer.hand chunk).advance chunk rest } caller) := by
  let u : Transport V := { t with toReplayBuffer := t.toReplayBuffer.hand chunk }
  have hu : u.write true = (true, u) := write_true (j := j) (by simp [u, hand, hj])
  simp only [writeFront, hpending]
  change some (if (u.write true).1 then deliver { (u.write true).2 with
    toReplayBuffer := (u.write true).2.toReplayBuffer.advance chunk rest } caller else _) = _
  rw [hu]
  rfl

/-- Each write that succeeds brings the client nearer to the end of its flush. -/
theorem step_write_succeeds {t : Transport V} {j : ℕ} (hj : t.socket = some j)
    (h : t.Delivering) (hleft : t.leftToWrite ≠ 0) :
    ∃ t', t.step (.write true) = some t' ∧ t'.Delivering ∧ t'.leftToWrite < t.leftToWrite ∧
      t'.socket = some j ∧ t'.stock = t.stock ∧ t'.connAcked = t.connAcked ∧
      t'.droppedUnacked = t.droppedUnacked := by
  rcases h with hstage | ⟨hstage, hne⟩ | ⟨hstage | hstage, hpending⟩
  · let u : Transport V := { t with sentSize := some t.size }
    obtain ⟨hdeliver, hless, hbuffer⟩ := delivering_deliver u
    refine ⟨u.deliver .tick, by simp [step, hstage, write_true hj, u], hdeliver, ?_, ?_, ?_, ?_, ?_⟩
    · simp only [leftToWrite, hstage]
      exact Nat.lt_succ_of_le hless
    · rw [hbuffer]
      exact hj
    · simp only [stock, hbuffer, u]
    · rw [hbuffer]
    · rw [hbuffer]
  · obtain ⟨chunk, rest, hpending⟩ := List.exists_cons_of_ne_nil hne
    let u : Transport V :=
      { t with toReplayBuffer := (t.toReplayBuffer.hand chunk).advance chunk rest }
    have hstep : t.step (.write true) = some (u.deliver .tick) := by
      simp only [step, hstage]
      exact writeFront_true hj hpending
    obtain ⟨hdeliver, hless, hbuffer⟩ := delivering_deliver u
    refine ⟨u.deliver .tick, hstep, hdeliver, ?_, ?_, ?_, ?_, ?_⟩
    · simp only [leftToWrite, hstage, hpending, List.length_cons]
      exact Nat.lt_succ_of_le hless
    · rw [hbuffer]
      simp [u, hand, advance, hj]
    · simp only [stock, hbuffer, u]
      simp [hand, advance, held, hj, hpending]
    · rw [hbuffer]
      simp [u, hand, advance, hj]
    · rw [hbuffer]
      simp [u, hand, advance, hj]
  · refine ⟨t.enter .idle, by simp only [step, hstage, write_true hj],
      Or.inr (Or.inr ⟨Or.inr rfl, hpending⟩), ?_, hj, rfl, rfl, rfl⟩
    simp only [leftToWrite, hstage, enter]
    exact Nat.one_pos
  · exact absurd (by simp only [leftToWrite, hstage]) hleft

end Transport

namespace Net
open Transport

variable {V : Type} [Vt V] {room : RoomId} {secret : String} {n n' : Net V}

/-- The steps of a broadcast that has no more output and goes on all the same. -/
def Continues : NetAction → Prop
  | .client (.elapse _) | .client (.tick _) | .client (.handshake .failed)
  | .client (.read .dead) | .dial | .write _ _ | .readAck | .deliver _
  | .server (.attach _) | .server (.publish _) | .server (.ack _ _) => True
  | _ => False

theorem poised_of_step {a : NetAction} (h : n.client.Poised)
    (hstep : n.step room secret a = some n') : n'.client.Poised := by
  rcases client_of_step hstep with hsame | ⟨a', hclient⟩
  · rw [hsame]
    exact h
  · exact poised_step h hclient

/-- A schedule of the client's alone, which leaves it offline and with all it had. -/
def GoesOffline (room : RoomId) (secret : String) (n : Net V) : Prop :=
  ∃ n', LeadsTo (step room secret) Continues n n' ∧ n'.client.Offline ∧
    n'.client.stock = n.client.stock ∧ n'.server = n.server

theorem GoesOffline.of_offline (h : n.client.Offline) : GoesOffline room secret n :=
  ⟨n, LeadsTo.refl _ _ _, h, rfl, rfl⟩

theorem GoesOffline.of_step {a : NetAction} (hstep : n.step room secret a = some n')
    (ha : Continues a) (hstock : n'.client.stock = n.client.stock)
    (hserver : n'.server = n.server) (h : GoesOffline room secret n') :
    GoesOffline room secret n := by
  obtain ⟨m, hleads, hoffline, hstock', hserver'⟩ := h
  exact ⟨m, (LeadsTo.single ha hstep).trans hleads, hoffline, hstock'.trans hstock,
    hserver'.trans hserver⟩

theorem goesOffline_connecting (hplaced : Placed n.client) (hopen : n.client.closed = false)
    {caller : Caller} (hcaller : caller ≠ .shutdown) (hstage : n.client.stage = .connecting caller) :
    GoesOffline room secret n := by
  obtain ⟨t, ht, hoffline, hstock⟩ := step_handshake_fails hplaced hcaller hstage
  have hstep : n.step room secret (.client (.handshake .failed)) = some { n with client := t } := by
    simp [step, hopen, ht]
  exact .of_step hstep trivial hstock rfl (.of_offline hoffline)

theorem goesOffline_draining (hopen : n.client.closed = false) {caller : Caller}
    (hcaller : caller ≠ .shutdown) (hstage : n.client.stage = .draining caller) :
    GoesOffline room secret n := by
  obtain ⟨t, ht, hsocket, hstock, hstage'⟩ := step_read_dead hcaller hstage
  have hstep : n.step room secret (.client (.read .dead)) = some { n with client := t } := by
    simp [step, hopen, ht]
  apply GoesOffline.of_step hstep trivial hstock rfl
  rcases hstage' with hidle | hconnecting
  · exact .of_offline ⟨hidle, hsocket⟩
  · have hplaced : Placed t := by
      intro connected h
      rw [hconnecting] at h
      rw [hsocket, ← Option.some.inj h]
      rfl
    have hopen' : t.closed = false := (congrArg (·.2.2.2) hstock).trans hopen
    exact goesOffline_connecting hplaced hopen' hcaller hconnecting

theorem goesOffline_writing (hplaced : Placed n.client) (hpoised : n.client.Poised)
    (hopen : n.client.closed = false)
    (hstage : n.client.stage = .resetting ∨ n.client.stage = .pinging ∨
      ∃ caller, caller ≠ .shutdown ∧
        (n.client.stage = .sizing caller ∨ n.client.stage = .writing caller)) :
    GoesOffline room secret n := by
  obtain ⟨t, ht, hoffline, hstock⟩ := step_write_fails hplaced hpoised hstage
  have hstep : n.step room secret (.write false 0) =
      some { n with client := t, links := n.send 0 } := by
    simp [step, hopen, ht]
  exact .of_step hstep trivial hstock rfl (.of_offline hoffline)

/-- A client not in `shutdown`, whatever call it is in, can drop the connection it has. -/
theorem goesOffline (hplaced : Placed n.client) (hpoised : n.client.Poised)
    (hopen : n.client.closed = false) (hending : n.client.stage.ending = false)
    (hnew : n.client.stage ≠ .opening) : GoesOffline room secret n := by
  have hcaller : ∀ {f : Caller → Stage} {caller : Caller}, n.client.stage = f caller →
      (f .shutdown).ending = true → caller ≠ .shutdown := by
    rintro f caller hstage hf rfl
    rw [hstage, hf] at hending
    cases hending
  cases hstage : n.client.stage with
  | opening => exact absurd hstage hnew
  | resetting => exact goesOffline_writing hplaced hpoised hopen (Or.inl hstage)
  | idle =>
    cases hsocket : n.client.socket with
    | none => exact .of_offline ⟨hstage, hsocket⟩
    | some j =>
      have hstep : n.step room secret (.client (.tick n.client.size)) =
          some { n with client := n.client.enter (.draining .tick) } := by
        simp [step, hopen, step_tick_online hstage hsocket]
      have hcaller : Caller.tick ≠ .shutdown := fun h => by cases h
      exact .of_step hstep trivial rfl rfl (goesOffline_draining hopen hcaller rfl)
  | draining caller => exact goesOffline_draining hopen (hcaller hstage rfl) hstage
  | connecting caller => exact goesOffline_connecting hplaced hopen (hcaller hstage rfl) hstage
  | sizing caller =>
    exact goesOffline_writing hplaced hpoised hopen
      (Or.inr (Or.inr ⟨caller, hcaller hstage rfl, Or.inl hstage⟩))
  | writing caller =>
    exact goesOffline_writing hplaced hpoised hopen
      (Or.inr (Or.inr ⟨caller, hcaller hstage rfl, Or.inr hstage⟩))
  | pinging => exact goesOffline_writing hplaced hpoised hopen (Or.inr (Or.inl hstage))
  | lingering deadline => rw [hstage] at hending; cases hending
  | closing => rw [hstage] at hending; cases hending

/-- The client writes what it holds on a new connection, whose loop has not started. -/
structure Writing (room : RoomId) (secret : String) (n : Net V) : Prop where
  kept : Kept room n
  opened : n.client.closed = false
  accepts : n.server.Accepts room secret
  counters : n.client.connAcked = 0 ∧ n.client.droppedUnacked = 0
  stage : n.client.Delivering
  link : ∃ j l, n.client.socket = some j ∧ n.links[j]? = some l ∧ l.cut = false ∧
    l.toClient = [] ∧ (∀ frame ∈ l.toServer, frame.Ingestible) ∧
    n.server.conns[l.conn]? = some ⟨room, secret, .upgraded, 0, []⟩

theorem dials (hkept : Kept room n) (hopen : n.client.closed = false)
    (haccepts : n.server.Accepts room secret) (hstage : n.client.stage = .connecting .tick) :
    ∃ n', n.step room secret .dial = some n' ∧ Writing room secret n' ∧
      n'.client.stock = n.client.stock := by
  obtain ⟨appended, happended⟩ := haccepts.append none none
  let l : Link := ⟨n.server.conns.length, [], [], false⟩
  let n' : Net V := ⟨n.client.opened, n.server.handshake room secret, n.links ++ [l]⟩
  have hstep : n.step room secret .dial = some n' := by
    simp [step, hopen, happended, step_accepted hstage, n', l]
  refine ⟨n', hstep, ⟨kept_step hkept hstep, hopen, ?_, ⟨rfl, rfl⟩, Or.inl rfl, ?_⟩, rfl⟩
  · exact haccepts.of_append (Server.handshake_rooms n.server room secret)
  · have hnone : ∀ f ∈ l.toServer, f.Ingestible := fun f hf => by cases hf
    refine ⟨n.client.connections, l, rfl, ?_, rfl, rfl, hnone, ?_⟩
    · rw [← hkept.numbered]
      exact List.getElem?_concat_length
    · change (n.server.handshake room secret).conns[n.server.conns.length]? = _
      rw [Server.handshake_conns_of_ok happended]
      exact List.getElem?_concat_length

/-- An offline client waits for its backoff and dials. -/
theorem redials (hkept : Kept room n) (hoffline : n.client.Offline)
    (hopen : n.client.closed = false) (haccepts : n.server.Accepts room secret) :
    ∃ n', LeadsTo (step room secret) Continues n n' ∧ Writing room secret n' ∧
      n'.client.stock = n.client.stock := by
  let t : Transport V :=
    { n.client with now := n.client.now + n.client.nextAttempt.getD 0 }
  have hdue : t.nextAttempt.any (t.now < ·) = false := by
    cases hnext : n.client.nextAttempt with
    | none => simp [t, hnext]
    | some next => simp [t, hnext]
  have helapse : n.step room secret (.client (.elapse (n.client.nextAttempt.getD 0))) =
      some { n with client := t } := by
    simp [step, hopen, Transport.step, t]
  have htick : step room secret { n with client := t } (.client (.tick t.size)) =
      some { n with client := t.enter (.connecting .tick) } := by
    have hclosed : t.closed = false := hopen
    have hdial := step_tick_offline (t := t) ⟨hoffline.idle, hoffline.socket⟩ hdue
    simp [step, hclosed, hdial]
  have hkept' : Kept room { n with client := t.enter (.connecting .tick) } :=
    kept_step (kept_step hkept helapse) htick
  obtain ⟨n', hdial, hwriting, hstock⟩ := dials hkept' hopen haccepts rfl
  refine ⟨n', ?_, hwriting, hstock⟩
  have hfirst : LeadsTo (step room secret) Continues n { n with client := t } :=
    .single (a := .client (.elapse _)) trivial helapse
  have hsecond : LeadsTo (step room secret) Continues { n with client := t }
      { n with client := t.enter (.connecting .tick) } :=
    .single (a := .client (.tick _)) trivial htick
  exact (hfirst.trans hsecond).trans (.single (a := .dial) trivial hdial)

omit [Vt V] in
/-- The frames of a flush are none that ends a loop: no chunk is over the message cap,
since the buffer holds no more than that. -/
theorem ingestible_outgoing {t : Transport V} (hcounted : Counted t.toReplayBuffer)
    (h : t.Delivering) {frame : WsMessage} (hframe : t.outgoing 64 = some frame) :
    frame.Ingestible := by
  rcases h with hstage | ⟨hstage, -⟩ | ⟨hstage | hstage, -⟩
  · simp only [outgoing, hstage, Option.some.injEq] at hframe
    subst hframe
    have hdelete : t.sizeMessage.isTrue "delete" = false := rfl
    have hreset : t.sizeMessage.isTrue "reset" = false := rfl
    cases hsize : (t.sizeMessage.get "size").filter sizeHasDimensions with
    | none =>
      exact Or.inl (by simp [request, maxIngestFrame, maxControlFrame, hdelete, hreset, hsize])
    | some size =>
      exact Or.inr ⟨some size, none,
        by simp [request, maxIngestFrame, maxControlFrame, hdelete, hreset, hsize]⟩
  · simp only [outgoing, hstage] at hframe
    obtain ⟨chunk, hchunk, rfl⟩ := Option.map_eq_some_iff.mp hframe
    have hmem : chunk ∈ t.held := List.mem_append_right _ (List.mem_of_mem_head? hchunk)
    have hlen : chunk.bytes.length ≤ maxIngestFrame := by
      calc chunk.len ≤ total Chunk.len t.held := weight_le_total hmem
        _ = t.bufferedBytes := hcounted.exact_bytes.symm
        _ ≤ maxBufferedBytes := hcounted.capped
    exact Or.inr ⟨none, some chunk.bytes, if_neg (Nat.not_lt.mpr hlen)⟩
  · simp only [outgoing, hstage, Option.some.injEq] at hframe
    subst hframe
    exact Or.inl rfl
  · simp [outgoing, hstage] at hframe

/-- The next write succeeds, and its frame is in flight. -/
theorem Writing.write (h : Writing room secret n) (hleft : n.client.leftToWrite ≠ 0) :
    ∃ n', n.step room secret (.write true 64) = some n' ∧ Writing room secret n' ∧
      n'.client.leftToWrite < n.client.leftToWrite ∧ n'.client.stock = n.client.stock := by
  obtain ⟨j, l, hj, hl, hcut, hacks, hframes, hconn⟩ := h.link
  obtain ⟨t, ht, hdelivering, hless, hsocket, hstock, hacked, hdropped⟩ :=
    step_write_succeeds hj h.stage hleft
  let n' : Net V := { n with client := t, links := n.send 64 }
  have hstep : n.step room secret (.write true 64) = some n' := by
    simp [step, h.opened, ht, n']
  have hopened : t.closed = false := (congrArg (·.2.2.2) hstock).trans h.opened
  refine ⟨n', hstep, ⟨kept_step h.kept hstep, hopened, h.accepts,
    ⟨hacked.trans h.counters.1, hdropped.trans h.counters.2⟩, hdelivering, ?_⟩, hless, hstock⟩
  cases hframe : n.client.outgoing 64 with
  | none =>
    have hsend : n.send 64 = n.links := by simp [send, hframe]
    refine ⟨j, l, hsocket, ?_, hcut, hacks, hframes, hconn⟩
    change (n.send 64)[j]? = _
    rw [hsend]
    exact hl
  | some frame =>
    have hsend : n.send 64 = n.links.modify j (·.send frame) := by simp [send, hj, hframe]
    refine ⟨j, l.send frame, hsocket, ?_, ?_, ?_, ?_, ?_⟩
    · change (n.send 64)[j]? = _
      rw [hsend, List.getElem?_modify_eq, hl]
      rfl
    all_goals simp only [Link.send, hcut, Bool.false_eq_true, if_false]
    · exact hacks
    · intro sent hmem
      rcases List.mem_append.mp hmem with hmem | hmem
      · exact hframes sent hmem
      · rw [List.mem_singleton.mp hmem]
        exact ingestible_outgoing h.kept.accounted.counted h.stage hframe
    · exact hconn

/-- The client can write all it holds. -/
theorem Writing.written (h : Writing room secret n) :
    ∃ n', LeadsTo (step room secret) Continues n n' ∧ Writing room secret n' ∧
      n'.client.leftToWrite = 0 ∧ n'.client.stock = n.client.stock := by
  let P : Unit → Net V → Prop := fun _ m =>
    Writing room secret m ∧ m.client.stock = n.client.stock
  have hdescend : ∀ u m, P u m → m.client.leftToWrite ≠ 0 →
      ∃ u' m', LeadsTo (step room secret) Continues m m' ∧ P u' m' ∧
        m'.client.leftToWrite < m.client.leftToWrite := by
    rintro u m ⟨hm, hstock⟩ hleft
    obtain ⟨m', hstep, hm', hless, hstock'⟩ := hm.write hleft
    exact ⟨u, m', .single (a := .write true 64) trivial hstep, ⟨hm', hstock'.trans hstock⟩, hless⟩
  obtain ⟨_, n', hleads, ⟨hn', hstock⟩, hzero⟩ := LeadsTo.descend hdescend (i := ()) ⟨h, rfl⟩
  exact ⟨n', hleads, hn', hzero, hstock⟩

theorem writesAgain (hkept : Kept room n) (hpoised : n.client.Poised)
    (hopen : n.client.closed = false) (haccepts : n.server.Accepts room secret)
    (hending : n.client.stage.ending = false) (hnew : n.client.stage ≠ .opening) :
    ∃ n', LeadsTo (step room secret) Continues n n' ∧ Writing room secret n' ∧
      n'.client.leftToWrite = 0 ∧ n'.client.stock = n.client.stock := by
  obtain ⟨m, hdrop, hoffline, hstock, hserver⟩ : GoesOffline room secret n :=
    goesOffline hkept.accounted.placed hpoised hopen hending hnew
  have hm : Kept room m := hdrop.preserves (fun _ _ _ h hstep => kept_step h hstep) hkept
  have hopen' : m.client.closed = false := (congrArg (·.2.2.2) hstock).trans hopen
  obtain ⟨w, hdial, hwriting, hstock'⟩ := redials hm hoffline hopen' (hserver ▸ haccepts)
  obtain ⟨n', hwrite, hwritten, hzero, hstock''⟩ := hwriting.written
  exact ⟨n', (hdrop.trans hdial).trans hwrite, hwritten, hzero,
    (hstock''.trans hstock').trans hstock⟩

/-- A client not in `shutdown` can write all it holds on a new connection, where nothing
else was written and no loop has started. -/
theorem startsOver (hkept : Kept room n) (hpoised : n.client.Poised)
    (hopen : n.client.closed = false) (haccepts : n.server.Accepts room secret)
    (hending : n.client.stage.ending = false) :
    ∃ n', LeadsTo (step room secret) Continues n n' ∧ Writing room secret n' ∧
      n'.client.leftToWrite = 0 ∧ n'.client.stock = n.client.stock := by
  by_cases hnew : n.client.stage = .opening
  · -- the first connection is lost again before its reset is written
    obtain ⟨appended, happended⟩ := haccepts.append none none
    let m : Net V := ⟨(n.client.finishHandshake .accepted).enter .resetting,
      n.server.handshake room secret, n.links ++ [⟨n.server.conns.length, [], [], false⟩]⟩
    have hstep : n.step room secret .dial = some m := by
      simp [step, hopen, happended, Transport.step, hnew, m]
    have haccepts' : m.server.Accepts room secret :=
      haccepts.of_append (Server.handshake_rooms n.server room secret)
    obtain ⟨n', hleads, hwritten, hzero, hstock⟩ := writesAgain (n := m)
      (kept_step hkept hstep) (poised_of_step hpoised hstep) hopen haccepts' rfl (fun h => by cases h)
    exact ⟨n', (LeadsTo.single (a := .dial) trivial hstep).trans hleads, hwritten, hzero, hstock⟩
  · exact writesAgain hkept hpoised hopen haccepts hending hnew

end Net

end Shellshare
