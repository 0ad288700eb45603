import Shellshare.Transport

/-! What one step of the client does to its replay buffer and its keyframer: a
relation with one constructor per effect, and the invariant that ties the pending
call to the socket. -/
namespace Shellshare

/-- Whether a pending call has a socket, where the call decides it. -/
def Stage.connected : Stage → Option Bool
  | .opening | .connecting _ => some false
  | .resetting | .draining _ | .sizing _ | .writing _ | .pinging | .lingering _ => some true
  | .idle | .closing => none

/-- What one `send` queues, the output and then the keyframe, and the keyframer it
leaves. -/
structure Sending (V : Type) where
  data : Option Bytes
  keyframe : Option Bytes
  keyframer : Keyframer V

def Sending.records {V : Type} (s : Sending V) : List Bytes := s.data.toList ++ s.keyframe.toList

/-- `none` is a panic of `seal`. -/
def sending {V : Type} [Vt V] (cipher : Option Encryptor) (k : Keyframer V) (data : Bytes)
    (size : TermSize) (nonce keyframeNonce : Nonce) : Option (Sending V) :=
  let k := k.feed data size
  (if data = [] then some none else (sealed cipher nonce data).map some).bind fun record =>
    (k.maybeKeyframe.1.elim (some none) fun keyframe =>
      (sealed cipher keyframeNonce keyframe).map some).map fun keyframe =>
        ⟨record, keyframe, k.maybeKeyframe.2⟩

section Sending
variable {V : Type} [Vt V] {cipher : Option Encryptor} {k : Keyframer V} {data : Bytes}
  {size : TermSize} {nonce keyframeNonce : Nonce} {s : Sending V}

theorem sending_eq_some (h : sending cipher k data size nonce keyframeNonce = some s) :
    (data = [] ∧ s.data = none ∨
        data ≠ [] ∧ ∃ record, sealed cipher nonce data = some record ∧ s.data = some record) ∧
      ((k.feed data size).maybeKeyframe.1 = none ∧ s.keyframe = none ∨
        ∃ keyframe record, (k.feed data size).maybeKeyframe.1 = some keyframe ∧
          sealed cipher keyframeNonce keyframe = some record ∧ s.keyframe = some record) ∧
      s.keyframer = (k.feed data size).maybeKeyframe.2 := by
  obtain ⟨record, hrecord, h⟩ := Option.bind_eq_some_iff.mp h
  obtain ⟨keyframe, hkeyframe, rfl⟩ := Option.map_eq_some_iff.mp h
  refine ⟨?_, ?_, rfl⟩
  · split at hrecord
    · rename_i hdata
      exact Or.inl ⟨hdata, (Option.some.inj hrecord).symm⟩
    · rename_i hdata
      obtain ⟨r, hr, rfl⟩ := Option.map_eq_some_iff.mp hrecord
      exact Or.inr ⟨hdata, r, hr, rfl⟩
  · cases hk : (k.feed data size).maybeKeyframe.1 with
    | none =>
      rw [hk] at hkeyframe
      exact Or.inl ⟨rfl, (Option.some.inj hkeyframe).symm⟩
    | some frame =>
      rw [hk] at hkeyframe
      obtain ⟨r, hr, rfl⟩ := Option.map_eq_some_iff.mp hkeyframe
      exact Or.inr ⟨frame, r, rfl, hr, rfl⟩

theorem ne_nil_of_sending (h : sending cipher k data size nonce keyframeNonce = some s) :
    ∀ record ∈ s.records, record ≠ [] := by
  obtain ⟨hdata, hkeyframe, -⟩ := sending_eq_some h
  intro record hmem
  rcases List.mem_append.mp hmem with hmem | hmem
  · rcases hdata with ⟨-, hs⟩ | ⟨hne, r, hr, hs⟩
    · rw [hs] at hmem
      cases hmem
    · rw [hs] at hmem
      obtain rfl := List.mem_singleton.mp hmem
      exact sealed_ne_nil hr hne
  · rcases hkeyframe with ⟨-, hs⟩ | ⟨keyframe, r, hk, hr, hs⟩
    · rw [hs] at hmem
      cases hmem
    · rw [hs] at hmem
      obtain rfl := List.mem_singleton.mp hmem
      exact sealed_ne_nil hr (Keyframer.keyframe_ne_nil hk)

end Sending

namespace Transport

variable {V : Type}

def Placed (t : Transport V) : Prop :=
  ∀ connected, t.stage.connected = some connected → t.socket.isSome = connected

/-- A piece of control flow: it ends at a call its socket allows, and it leaves
the buffer and the keyframer as they were. -/
structure Follows (t t' : Transport V) : Prop where
  buffer : t'.toReplayBuffer = t.toReplayBuffer
  keyframer : t'.keyframer = t.keyframer
  cipher : t'.cipher = t.cipher
  placed : Placed t'

/-- The chunk that the pending call writes. -/
def front (t : Transport V) : Option Chunk :=
  match t.stage with
  | .writing _ => t.pending.head?
  | _ => none

/-- What a step may do to the buffer and the keyframer, with the action that does it. -/
inductive Moves [Vt V] (t : Transport V) : ClientAction → ReplayBuffer → Keyframer V → Prop where
  | elapse (d : ℕ) : Moves t (.elapse d) t.toReplayBuffer t.keyframer
  | tick (size : TermSize) : Moves t (.tick size) t.toReplayBuffer t.keyframer
  | shutdown : Moves t .shutdown t.toReplayBuffer t.keyframer
  | send (data : Bytes) (size : TermSize) (nonce keyframeNonce : Nonce) (s : Sending V)
    (h : sending t.cipher t.keyframer data size nonce keyframeNonce = some s) :
    Moves t (.send data size nonce keyframeNonce)
      (s.records.foldl ReplayBuffer.bufferSealed t.toReplayBuffer) s.keyframer
  | accept (hs : t.socket = none) : Moves t (.handshake .accepted) t.accept t.keyframer
  | refuse (outcome : Handshake) (ho : outcome ≠ .accepted) :
    Moves t (.handshake outcome) t.toReplayBuffer t.keyframer
  | control (sent : Bool) (hf : t.front = none) (hs : t.socket ≠ none) :
    Moves t (.write sent) (if sent then t.toReplayBuffer else t.toReplayBuffer.disconnect)
      t.keyframer
  | sent (chunk : Chunk) (rest : List Chunk) (hf : t.front = some chunk)
    (hp : t.pending = chunk :: rest) (hs : t.socket ≠ none) :
    Moves t (.write true) ((t.hand chunk).advance chunk rest) t.keyframer
  | lost (chunk : Chunk) (rest : List Chunk) (hf : t.front = some chunk)
    (hp : t.pending = chunk :: rest) (hs : t.socket ≠ none) :
    Moves t (.write false) (t.hand chunk).disconnect t.keyframer
  | ack (body : Option Json) (acked : ℕ) (h : ackOf body = some acked) (hs : t.socket ≠ none) :
    Moves t (.read (.text body)) (t.applyAck acked) t.keyframer
  | skip (incoming : Incoming) (h : ∀ body acked, incoming = .text body → ackOf body ≠ some acked)
    (hs : t.socket ≠ none) : Moves t (.read incoming) t.toReplayBuffer t.keyframer
  | dead (hs : t.socket ≠ none) : Moves t (.read .dead) t.toReplayBuffer.disconnect t.keyframer
  | close : Moves t .close t.toReplayBuffer.close t.keyframer

/-- A step as `Moves` has it, which keeps the key and ends where the socket allows. -/
structure Stepped [Vt V] (t : Transport V) (a : ClientAction) (t' : Transport V) : Prop where
  moves : Moves t a t'.toReplayBuffer t'.keyframer
  cipher : t'.cipher = t.cipher
  placed : Placed t'

theorem follows_enter {t : Transport V} {stage : Stage}
    (h : ∀ connected, stage.connected = some connected → t.socket.isSome = connected) :
    Follows t (t.enter stage) := ⟨rfl, rfl, rfl, h⟩

theorem follows_linger (t : Transport V) (deadline : ℕ) : Follows t (t.linger deadline) := by
  unfold linger
  split
  · rename_i h
    exact ⟨rfl, rfl, rfl, fun _ hc => Option.some.inj hc ▸ h.1⟩
  · exact follows_enter nofun

theorem follows_resume (t : Transport V) (caller : Caller) : Follows t (t.resume caller) := by
  cases caller with
  | send => exact follows_enter nofun
  | tick =>
    simp only [resume]
    split
    · rename_i h
      exact ⟨rfl, rfl, rfl, fun _ hc => Option.some.inj hc ▸ h.1⟩
    · exact follows_enter nofun
  | shutdown => exact follows_linger t _

theorem follows_deliver {t : Transport V} (hs : t.socket.isSome = true) (caller : Caller) :
    Follows t (t.deliver caller) := by
  unfold deliver
  split
  · exact follows_resume t caller
  · exact follows_enter fun _ hc => Option.some.inj hc ▸ hs

theorem follows_announce {t : Transport V} (hs : t.socket.isSome = true) (caller : Caller) :
    Follows t (t.announce caller) := by
  unfold announce
  split
  · exact follows_enter fun _ hc => Option.some.inj hc ▸ hs
  · exact follows_deliver hs caller

theorem follows_reconnect (t : Transport V) (caller : Caller) :
    Follows t (t.reconnect caller) := by
  unfold reconnect
  split
  · rename_i hs
    exact follows_announce hs caller
  · rename_i hs
    split
    · exact follows_resume t caller
    · exact follows_enter fun _ hc => Option.some.inj hc ▸ Bool.eq_false_iff.mpr hs

theorem follows_flush (t : Transport V) (caller : Caller) : Follows t (t.flush caller) := by
  unfold flush
  split
  · rename_i hs
    exact follows_enter fun _ hc => Option.some.inj hc ▸ hs
  · exact follows_reconnect t caller

theorem write_of_socket {t : Transport V} (hs : t.socket.isSome = true) (sent : Bool) :
    t.write sent = if sent then (true, t) else (false, t.disconnect) := by
  obtain ⟨j, hj⟩ := Option.isSome_iff_exists.mp hs
  simp only [write, hj]

theorem socket_ne_none {t : Transport V} (h : t.socket.isSome = true) : t.socket ≠ none :=
  Option.isSome_iff_ne_none.mp h

theorem socket_eq_none {t : Transport V} (h : t.socket.isSome = false) : t.socket = none :=
  Option.isNone_iff_eq_none.mp (Option.isSome_eq_false_iff.mp h)

theorem finishHandshake_of_ne {t : Transport V} {outcome : Handshake} (ho : outcome ≠ .accepted) :
    t.finishHandshake outcome = t.armBackoff := by
  cases outcome with
  | accepted => exact absurd rfl ho
  | unauthorized => rfl
  | failed => rfl

variable [Vt V]

/-- `send` up to its flush queues the records, in order, and moves nothing else. -/
theorem enqueue_eq (t : Transport V) (data : Bytes) (size : TermSize)
    (nonce keyframeNonce : Nonce) :
    t.enqueue data size nonce keyframeNonce =
      (sending t.cipher t.keyframer data size nonce keyframeNonce).map fun s =>
        { t with
          toReplayBuffer := s.records.foldl ReplayBuffer.bufferSealed t.toReplayBuffer
          keyframer := s.keyframer } := by
  simp only [enqueue, sending]
  -- a sealing that panics is `none` on both sides
  have hkeyframe : ∀ u : Transport V, u.cipher = t.cipher →
      ((t.keyframer.feed data size).maybeKeyframe.1.elim (some u)
        (u.bufferPlaintext keyframeNonce)) =
      ((t.keyframer.feed data size).maybeKeyframe.1.elim (some none) fun keyframe =>
        (sealed t.cipher keyframeNonce keyframe).map some).map fun record =>
          { u with
            toReplayBuffer := record.toList.foldl ReplayBuffer.bufferSealed u.toReplayBuffer } := by
    intro u hcipher
    cases (t.keyframer.feed data size).maybeKeyframe.1 with
    | none => rfl
    | some keyframe =>
      simp only [Option.elim, bufferPlaintext, hcipher]
      cases sealed t.cipher keyframeNonce keyframe <;> rfl
  let k := ((t.keyframer.feed data size).maybeKeyframe).2
  split
  · refine (hkeyframe { t with keyframer := k } rfl).trans ?_
    simp only [Option.bind_some, Option.map_map]
    rfl
  · simp only [bufferPlaintext]
    cases sealed t.cipher nonce data with
    | none => rfl
    | some record =>
      refine (hkeyframe { t with
        toReplayBuffer := t.toReplayBuffer.bufferSealed record
        keyframer := k } rfl).trans ?_
      simp only [Option.map_some, Option.bind_some, Option.map_map]
      rfl

theorem Follows.stepped {t u u' : Transport V} {a : ClientAction} (h : Follows u u')
    (hmoves : Moves t a u.toReplayBuffer u.keyframer) (hcipher : u.cipher = t.cipher) :
    Stepped t a u' := by
  refine ⟨?_, h.cipher.trans hcipher, h.placed⟩
  rw [h.buffer, h.keyframer]
  exact hmoves

/-- The buffer after one turn of `drain_acks`, and whether the socket is still there. -/
theorem moves_drainTurn {t : Transport V} (hs : t.socket ≠ none) (incoming : Incoming) :
    Moves t (.read incoming) (t.drainTurn incoming).1.toReplayBuffer
        (t.drainTurn incoming).1.keyframer ∧
      (t.drainTurn incoming).1.cipher = t.cipher ∧
      ((t.drainTurn incoming).2 = true → (t.drainTurn incoming).1.socket = t.socket ∧
        (t.drainTurn incoming).1.stage = t.stage) := by
  cases incoming with
  | text body =>
    simp only [drainTurn]
    cases hack : ackOf body with
    | none =>
      refine ⟨.skip _ ?_ hs, rfl, fun _ => ⟨rfl, rfl⟩⟩
      rintro _ acked ⟨⟩
      rw [hack]
      exact nofun
    | some acked => exact ⟨.ack body acked hack hs, rfl, fun _ => ⟨rfl, rfl⟩⟩
  | other => exact ⟨.skip _ nofun hs, rfl, fun _ => ⟨rfl, rfl⟩⟩
  | quiet => exact ⟨.skip _ nofun hs, rfl, nofun⟩
  | dead => exact ⟨.dead hs, rfl, nofun⟩

/-- A loop that reads until nothing is left, and goes on to `next` then. -/
theorem stepped_read {t : Transport V} (hplaced : Placed t) (hc : t.stage.connected = some true)
    (incoming : Incoming) {next : Transport V → Transport V} (hnext : ∀ u, Follows u (next u)) :
    let turn := t.drainTurn incoming
    Stepped t (.read incoming) (if turn.2 then turn.1 else next turn.1) := by
  intro turn
  obtain ⟨hmoves, hcipher, hkept⟩ := moves_drainTurn (socket_ne_none (hplaced true hc)) incoming
  split
  · rename_i hmore
    obtain ⟨hsocket, hstage⟩ := hkept hmore
    refine ⟨hmoves, hcipher, fun connected h => ?_⟩
    rw [hsocket]
    exact hplaced connected (hstage ▸ h)
  · exact (hnext turn.1).stepped hmoves hcipher

/-- A control frame, and where the client goes on after it. -/
theorem stepped_control {t : Transport V} (hs : t.socket.isSome = true) (hf : t.front = none)
    (sent : Bool) {next : Transport V} (hnext : Follows (t.write sent).2 next) :
    Stepped t (.write sent) next := by
  have hmoves := Moves.control sent hf (socket_ne_none hs)
  rw [write_of_socket hs] at hnext
  cases sent with
  | true => exact hnext.stepped hmoves rfl
  | false => exact hnext.stepped hmoves rfl

theorem stepped_writeFront {t t' : Transport V} (hs : t.socket.isSome = true) {caller : Caller}
    (hstage : t.stage = .writing caller) {sent : Bool} (h : t.writeFront caller sent = some t') :
    Stepped t (.write sent) t' := by
  unfold writeFront at h
  cases hpending : t.pending with
  | nil =>
    rw [hpending] at h
    cases h
  | cons chunk rest =>
    have hfront : t.front = some chunk := by
      rw [front, hstage, hpending]
      rfl
    have hhand : (t.hand chunk).socket.isSome = true := by
      rw [ReplayBuffer.hand_eq]
      exact hs
    rw [hpending] at h
    obtain rfl := Option.some.inj h
    rw [write_of_socket (t := { t with toReplayBuffer := t.toReplayBuffer.hand chunk }) hhand]
    cases sent with
    | true =>
      exact (follows_deliver (t := { t with
          toReplayBuffer := (t.toReplayBuffer.hand chunk).advance chunk rest }) hhand caller).stepped
        (.sent chunk rest hfront hpending (socket_ne_none hs)) rfl
    | false =>
      exact (follows_resume
          (disconnect { t with toReplayBuffer := t.toReplayBuffer.hand chunk }) caller).stepped
        (.lost chunk rest hfront hpending (socket_ne_none hs)) rfl

theorem step_refused {t t' : Transport V} {outcome : Handshake} (ho : outcome ≠ .accepted)
    (h : t.step (.handshake outcome) = some t') :
    ∃ caller, t' = (t.finishHandshake outcome).resume caller := by
  cases hstage : t.stage with
  | connecting caller =>
    cases outcome with
    | accepted => exact absurd rfl ho
    | unauthorized =>
      simp only [step, hstage] at h
      exact ⟨caller, (Option.some.inj h).symm⟩
    | failed =>
      simp only [step, hstage] at h
      exact ⟨caller, (Option.some.inj h).symm⟩
  | opening => cases outcome <;> simp_all [step]
  | _ => simp [step, hstage] at h

/-- The step lemma: what a step does to the buffer and the keyframer, and that the
next call has the socket it needs. -/
theorem step_moves {t t' : Transport V} {a : ClientAction} (hplaced : Placed t)
    (h : t.step a = some t') : Stepped t a t' := by
  cases a with
  | elapse d =>
    obtain rfl := Option.some.inj h
    exact ⟨.elapse d, rfl, hplaced⟩
  -- an operation starts from `idle` and runs up to its first call on the socket
  | send data size nonce keyframeNonce =>
    simp only [step] at h
    split at h
    · rw [enqueue_eq, Option.map_map] at h
      obtain ⟨sent, hsent, rfl⟩ := Option.map_eq_some_iff.mp h
      exact (follows_flush _ .send).stepped (.send data size nonce keyframeNonce sent hsent) rfl
    · cases h
  | tick size =>
    simp only [step] at h
    split at h
    · obtain rfl := Option.some.inj h
      exact (follows_flush _ .tick).stepped (.tick size) rfl
    · cases h
  | shutdown =>
    simp only [step] at h
    split at h
    · obtain rfl := Option.some.inj h
      exact (follows_flush t .shutdown).stepped .shutdown rfl
    · cases h
  | handshake outcome =>
    by_cases ho : outcome = .accepted
    · subst ho
      simp only [step] at h
      split at h
      · rename_i hstage _
        obtain rfl := Option.some.inj h
        have hnone : t.socket = none := socket_eq_none (hplaced false (by rw [hstage]; rfl))
        have hfollows : Follows (t.finishHandshake .accepted)
            ((t.finishHandshake .accepted).enter .resetting) :=
          follows_enter fun _ hc => Option.some.inj hc ▸ rfl
        exact hfollows.stepped (.accept hnone) rfl
      · rename_i hstage _
        obtain rfl := Option.some.inj h
        have hnone : t.socket = none := socket_eq_none (hplaced false (by rw [hstage]; rfl))
        exact (follows_announce (t := t.finishHandshake .accepted) rfl _).stepped
          (.accept hnone) rfl
      · rename_i hne
        exact absurd rfl hne
      · cases h
    · obtain ⟨caller, rfl⟩ := step_refused ho h
      rw [finishHandshake_of_ne ho]
      exact (follows_resume t.armBackoff caller).stepped (.refuse outcome ho) rfl
  | write sent =>
    -- the reset, the size, a chunk and the ping, in the order of the definition
    simp only [step] at h
    split at h
    · rename_i hstage
      obtain rfl := Option.some.inj h
      exact stepped_control (hplaced true (by rw [hstage]; rfl)) (by rw [front, hstage]) sent
        (follows_enter nofun)
    · rename_i caller hstage
      obtain rfl := Option.some.inj h
      have hs := hplaced true (by rw [hstage]; rfl)
      refine stepped_control hs (by rw [front, hstage]) sent ?_
      rw [write_of_socket hs]
      cases sent with
      | true =>
        have hf := follows_deliver (t := { t with sentSize := some t.size }) hs caller
        exact ⟨hf.buffer, hf.keyframer, hf.cipher, hf.placed⟩
      | false => exact follows_resume t.disconnect caller
    · rename_i caller hstage
      exact stepped_writeFront (hplaced true (by rw [hstage]; rfl)) hstage h
    · rename_i hstage
      obtain rfl := Option.some.inj h
      exact stepped_control (hplaced true (by rw [hstage]; rfl)) (by rw [front, hstage]) sent
        (follows_enter nofun)
    · cases h
  | read incoming =>
    simp only [step] at h
    split at h
    · rename_i caller hstage
      obtain rfl := Option.some.inj h
      exact stepped_read hplaced (by rw [hstage]; rfl) incoming (follows_reconnect · caller)
    · rename_i deadline hstage
      obtain rfl := Option.some.inj h
      exact stepped_read hplaced (by rw [hstage]; rfl) incoming (follows_linger · deadline)
    · cases h
  | close =>
    simp only [step] at h
    split at h
    · obtain rfl := Option.some.inj h
      exact ⟨.close, rfl, nofun⟩
    · cases h

theorem placed_new (size : TermSize) (theme : Option String) (cipher : Option Encryptor) :
    Placed (new size theme cipher : Transport V) :=
  fun _ hc => Option.some.inj hc ▸ rfl

end Transport

end Shellshare
