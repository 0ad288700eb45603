import Shellshare.ServerLoop
import Shellshare.TransportSteps

/-! The accounting of the replay buffer over whole runs of the client, whatever
the network does, as long as the server acknowledges whole frames. -/
namespace Shellshare
open CumulativeAcks

namespace ReplayBuffer

/-- What is held, against the queue and the counter. -/
structure HeldExactly (b : ReplayBuffer) : Prop where
  suffix : b.unacked ++ b.pending <:+ b.queued
  distinct : b.queued.Nodup
  exact_bytes : b.bufferedBytes = total Chunk.len (b.unacked ++ b.pending)
  buffer_no_underflow : ∀ sealed, b.bufferSealedChecked sealed = some (b.bufferSealed sealed)
  ack_no_underflow : ∀ acked, b.applyAckChecked acked = some (b.applyAck acked)
  capped : b.bufferedBytes ≤ maxBufferedBytes
  fits_frame : ∀ c ∈ b.unacked ++ b.pending, c.bytes.length ≤ maxIngestFrame

/-- What is unacknowledged, against the connection. -/
structure ConnectionExact (b : ReplayBuffer) : Prop where
  written_eq : b.socket ≠ none →
    b.connAcked + b.droppedUnacked + total Chunk.len b.unacked = total Chunk.len b.written
  never_partial : b.socket ≠ none → ∀ acked, b.WholeFrames acked → b.partialAck acked = false
  none_without_socket : b.socket = none → b.unacked = []
  acked_all : b.socket ≠ none → b.connAcked = total Chunk.len b.written →
    b.unacked = [] ∧ b.droppedUnacked = 0
  last_ack : b.socket ≠ none →
    (b.applyAck (total Chunk.len b.written)).unacked = [] ∧
      (b.applyAck (total Chunk.len b.written)).droppedUnacked = 0

theorem Counted.heldExactly {b : ReplayBuffer} (h : Counted b) : HeldExactly b where
  suffix := h.suffix
  distinct := List.Nodup.of_map Chunk.seq (h.numbered ▸ List.nodup_range)
  exact_bytes := h.exact_bytes
  buffer_no_underflow := bufferSealedChecked_eq_some h
  ack_no_underflow := applyAckChecked_eq_some h
  capped := h.capped
  fits_frame := fun c hc => calc
    c.bytes.length ≤ total Chunk.len b.held := weight_le_total (w := Chunk.len) hc
    _ = b.bufferedBytes := h.exact_bytes.symm
    _ ≤ maxBufferedBytes := h.capped
    _ = maxIngestFrame := rfl

theorem Settled.connectionExact {b : ReplayBuffer} (hs : Settled b) (hc : Counted b)
    (hopen : b.closed = false) : ConnectionExact b := by
  have hpos := positive_written hc hs
  refine ⟨fun hsocket => (hs.tracks hopen hsocket).total_eq, ?_, hs.dead hopen, ?_, ?_⟩
  · rintro hsocket acked ⟨k, -, rfl⟩
    exact (applyAck_spec hc hs hopen hsocket k).2.1
  · exact fun hsocket => (hs.tracks hopen hsocket).complete hpos
  · intro hsocket
    have htotal := (hs.tracks hopen hsocket).total_eq
    have hle : b.connAcked ≤ total Chunk.len b.written := by omega
    have htracks := (applyAck_spec hc hs hopen hsocket b.written.length).1
    rw [List.take_length] at htracks
    exact htracks.complete hpos (Nat.max_eq_right hle)

end ReplayBuffer

namespace Transport
open TransitionRuns ReplayBuffer

variable {V : Type}

/-- An ack the client reads counts whole frames of the current connection. -/
def acksWholeFrames (t : Transport V) : ClientAction → Bool
  | .read (.text body) => (ackOf body).all fun acked => t.toReplayBuffer.WholeFrames acked
  | _ => true

abbrev AcksWholeFrames (t : Transport V) (a : ClientAction) : Prop := acksWholeFrames t a = true

/-- The invariant of a run. -/
structure Accounted (t : Transport V) : Prop where
  counted : Counted t.toReplayBuffer
  settled : Settled t.toReplayBuffer
  placed : Placed t

/-- Buffering writes nothing. -/
theorem bufferSealed_foldl (b : ReplayBuffer) (records : List Bytes) :
    (records.foldl bufferSealed b).socket = b.socket ∧
      (records.foldl bufferSealed b).connections = b.connections ∧
      (records.foldl bufferSealed b).wrote = b.wrote := by
  induction records generalizing b with
  | nil => exact ⟨rfl, rfl, rfl⟩
  | cons record records ih => exact ih (b.bufferSealed record)

theorem settled_bufferSealed_foldl {b : ReplayBuffer} (hs : Settled b) (records : List Bytes) :
    Settled (records.foldl bufferSealed b) := by
  induction records generalizing b with
  | nil => exact hs
  | cons record records ih => exact ih (settled_bufferSealed hs record)

theorem counted_hand {b : ReplayBuffer} (h : Counted b) (chunk : Chunk) :
    Counted (b.hand chunk) := by
  rw [hand_eq]
  exact ⟨h.numbered, h.positive, h.suffix, h.exact_bytes, h.capped⟩

theorem hand_pending (b : ReplayBuffer) (chunk : Chunk) : (b.hand chunk).pending = b.pending := by
  rw [hand_eq]

variable [Vt V]

theorem accounted_new (size : TermSize) (theme : Option String) (cipher : Option Encryptor) :
    Accounted (new size theme cipher : Transport V) :=
  ⟨counted_empty, settled_empty, placed_new size theme cipher⟩

/-- What is written is the front of `pending`, so it has been queued. -/
theorem mem_queued_of_front {b : ReplayBuffer} (hc : Counted b) {chunk : Chunk}
    {rest : List Chunk} (hp : b.pending = chunk :: rest) : chunk ∈ b.queued := by
  apply hc.suffix.subset
  apply List.mem_append_right
  rw [hp]
  exact List.mem_cons_self

theorem counted_bufferSealed_foldl {b : ReplayBuffer} (hc : Counted b) {records : List Bytes}
    (hne : ∀ record ∈ records, record ≠ []) : Counted (records.foldl bufferSealed b) := by
  induction records generalizing b with
  | nil => exact hc
  | cons record records ih =>
    exact ih (counted_bufferSealed hc (hne record List.mem_cons_self))
      fun r hr => hne r (List.mem_cons_of_mem _ hr)

/-- The buffer stays counted whatever the server acknowledges. -/
theorem Moves.counted {t : Transport V} {a : ClientAction} {b : ReplayBuffer} {k : Keyframer V}
    (h : Moves t a b k) (hc : Counted t.toReplayBuffer) : Counted b := by
  cases h with
  | send data size nonce keyframeNonce s hsent =>
    exact counted_bufferSealed_foldl hc (ne_nil_of_sending hsent)
  | accept hnone => exact ⟨hc.numbered, hc.positive, hc.suffix, hc.exact_bytes, hc.capped⟩
  | control sent hf hsocket =>
    cases sent with
    | true => exact hc
    | false => exact counted_disconnect hc
  | sent chunk rest hf hpending hsocket =>
    exact counted_advance (counted_hand hc chunk) ((hand_pending _ _).trans hpending)
  | lost chunk rest hf hpending hsocket => exact counted_disconnect (counted_hand hc chunk)
  | ack body acked hacked hsocket => exact counted_applyAck hc acked
  | dead hsocket => exact counted_disconnect hc
  | close => exact ⟨hc.numbered, hc.positive, hc.suffix, hc.exact_bytes, hc.capped⟩
  | _ => exact hc

/-- The step lemma: every operation, and every outcome of a call, keeps the accounts. -/
theorem accounted_step {t t' : Transport V} {a : ClientAction} (h : Accounted t)
    (hack : AcksWholeFrames t a) (hstep : t.step a = some t') : Accounted t' := by
  obtain ⟨hc, hs, hp⟩ := h
  obtain ⟨hmoves, -, hplaced⟩ := step_moves hp hstep
  refine ⟨hmoves.counted hc, ?_, hplaced⟩
  generalize t'.toReplayBuffer = b' at hmoves ⊢
  generalize t'.keyframer = k' at hmoves
  cases hmoves with
  | send data size nonce keyframeNonce s hsent =>
    exact settled_bufferSealed_foldl hs s.records
  | accept hnone => exact settled_accept hs hnone
  | control sent hf hsocket =>
    cases sent with
    | true => exact hs
    | false => exact settled_disconnect hs
  | sent chunk rest hf hpending hsocket =>
    exact settled_sent hs hsocket (mem_queued_of_front hc hpending) rest
  | lost chunk rest hf hpending hsocket => exact settled_lost hs (mem_queued_of_front hc hpending)
  | ack body acked hacked hsocket =>
    have hwhole : t.toReplayBuffer.WholeFrames acked := by
      simpa [AcksWholeFrames, acksWholeFrames, hacked] using hack
    exact settled_applyAck hc hs hsocket hwhole
  | dead hsocket => exact settled_disconnect hs
  | close => exact settled_close hs
  | _ => exact hs

/-- The buffer is exact in every state of a run; its agreement with the
connection lasts until `shutdown` has returned, which leaves what nobody will
retransmit where it is. -/
theorem replay_buffer_accounted (size : TermSize) (theme : Option String)
    (cipher : Option Encryptor) (as : List ClientAction)
    (hacks : StepsSatisfy step AcksWholeFrames (new size theme cipher : Transport V) as) :
    StatesSatisfy step
      (fun t : Transport V => HeldExactly t.toReplayBuffer ∧
        (t.closed = false → ConnectionExact t.toReplayBuffer))
      (new size theme cipher) as :=
  states_of_invariant (fun _ _ _ h hack hstep => accounted_step h hack hstep)
    (fun _ h => ⟨h.counted.heldExactly, fun hopen => h.settled.connectionExact h.counted hopen⟩)
    (accounted_new size theme cipher) hacks

/-- A terminal that shows nothing, for runs in which no keyframe is due. -/
inductive Blank where
  | blank

instance : Vt Blank := ⟨fun _ _ => .blank, fun _ _ => .blank, fun _ _ _ => .blank, fun _ => []⟩

def zeroNonce : Nonce := ⟨List.replicate nonceLen 0, length_zeros⟩

def size80x24 : TermSize := ⟨80, 24⟩

/-- Connect, send one byte, and write it out. -/
def oneByte : List ClientAction :=
  [.handshake .accepted, .write true, .send [104] size80x24 zeroNonce zeroNonce, .read .quiet,
    .write true, .write true]

/-- The first byte is acked, a second one is still unacknowledged at the end. -/
theorem replay_buffer_accounted_two_bytes :
    StatesSatisfy step
      (fun t : Transport Blank => HeldExactly t.toReplayBuffer ∧
        (t.closed = false → ConnectionExact t.toReplayBuffer))
      (new size80x24 none none)
      (oneByte ++ [.send [105] size80x24 zeroNonce zeroNonce,
        .read (.text (some (.object [("ack", .number 1)]))), .read .quiet, .write true]) :=
  replay_buffer_accounted size80x24 none none _ (by decide)

/-- With the byte still unacknowledged when `shutdown` gives up waiting, the
closed transport has no socket and a chunk in `unacked`. -/
theorem replay_buffer_not_settled :
    ¬ ∀ as : List ClientAction,
      StepsSatisfy step AcksWholeFrames (new size80x24 none none : Transport Blank) as →
        StatesSatisfy step
          (fun t : Transport Blank => HeldExactly t.toReplayBuffer ∧
            ConnectionExact t.toReplayBuffer)
          (new size80x24 none none) as := by
  intro h
  have hall := h (oneByte ++ [.shutdown, .read .quiet, .elapse shutdownDrain, .read .quiet, .close])
    (by decide)
  have hlast := (hall.final (t := _) rfl).2.none_without_socket rfl
  exact absurd hlast (by decide)

end Transport

end Shellshare
