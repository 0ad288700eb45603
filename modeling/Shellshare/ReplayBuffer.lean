import Mathlib.Logic.Function.Basic
import Shellshare.CumulativeAcks
import Shellshare.Protocol

/-! The replay buffer of the broadcasting client: the part of `Transport` that
holds output until the server acknowledges it, and what each operation does to it. -/
namespace Shellshare
open CumulativeAcks

/-- Cap on data held for (re)delivery. -/
def maxBufferedBytes : ℕ := 1024 * 1024

/-- A sealed chunk. Which one it is among all that were ever queued is history:
no step of the client reads it. -/
structure Chunk where
  seq : ℕ
  bytes : Bytes
deriving DecidableEq

def Chunk.len (c : Chunk) : ℕ := c.bytes.length

/-- The fields of `Transport` that delivery depends on. The socket is the number
of the connection it belongs to. The last five are history: all chunks queued
and all dropped by the cap, the connections opened, the chunks handed to each of
them, and whether `shutdown` has closed the socket for good. -/
structure ReplayBuffer where
  socket : Option ℕ
  pending : List Chunk
  unacked : List Chunk
  bufferedBytes : ℕ
  connAcked : ℕ
  droppedUnacked : ℕ
  queued : List Chunk
  discarded : List Chunk
  connections : ℕ
  wrote : ℕ → List Chunk
  closed : Bool

namespace ReplayBuffer

def empty : ReplayBuffer := ⟨none, [], [], 0, 0, 0, [], [], 0, fun _ => [], false⟩

/-- Everything still held for delivery, oldest first. -/
def held (b : ReplayBuffer) : List Chunk := b.unacked ++ b.pending

/-- The chunks handed to the current connection. -/
def written (b : ReplayBuffer) : List Chunk := b.socket.elim [] b.wrote

/-- The loop of `buffer_plaintext`. It empties `unacked` before it touches
`pending`, so it is two loops, one after the other. -/
def evict (b : ReplayBuffer) : ReplayBuffer :=
  let fromUnacked := popWhileOver Chunk.len maxBufferedBytes b.bufferedBytes b.unacked
  let bytes := b.bufferedBytes - total Chunk.len fromUnacked.1
  let fromPending := popWhileOver Chunk.len maxBufferedBytes bytes b.pending
  { b with
    unacked := fromUnacked.2
    pending := fromPending.2
    bufferedBytes := bytes - total Chunk.len fromPending.1
    droppedUnacked := b.droppedUnacked + total Chunk.len fromUnacked.1
    discarded := b.discarded ++ fromUnacked.1 ++ fromPending.1 }

/-- `buffer_plaintext` once the chunk is sealed. -/
def bufferSealed (b : ReplayBuffer) (sealed : Bytes) : ReplayBuffer :=
  let chunk : Chunk := ⟨b.queued.length, sealed⟩
  evict { b with
    bufferedBytes := b.bufferedBytes + chunk.len
    pending := b.pending ++ [chunk]
    queued := b.queued ++ [chunk] }

def applyAck (b : ReplayBuffer) (acked : ℕ) : ReplayBuffer :=
  let newly := acked - b.connAcked
  -- acks of chunks that the cap discarded come first
  let discarded := min newly b.droppedUnacked
  let released := popCovered Chunk.len (newly - discarded) b.unacked
  { b with
    connAcked := max b.connAcked acked
    droppedUnacked := b.droppedUnacked - discarded
    unacked := released.2
    bufferedBytes := b.bufferedBytes - total Chunk.len released.1 }

/-- The branch of `apply_ack` that keeps a chunk the ack covers only in part. -/
def partialAck (b : ReplayBuffer) (acked : ℕ) : Bool :=
  let newly := acked - b.connAcked
  stopsInside Chunk.len (newly - min newly b.droppedUnacked) b.unacked

/-- The loop moves `unacked` from its back to the front of `pending`. -/
def disconnect (b : ReplayBuffer) : ReplayBuffer :=
  { b with socket := none, pending := b.unacked ++ b.pending, unacked := [] }

/-- The per-connection reset of `handshake`, and the new socket. -/
def accept (b : ReplayBuffer) : ReplayBuffer :=
  { b with
    socket := some b.connections
    connAcked := 0
    droppedUnacked := 0
    connections := b.connections + 1
    wrote := Function.update b.wrote b.connections [] }

/-- A chunk is handed to the socket, whether or not the send then succeeds: the
frame of a failed send may still arrive. -/
def hand (b : ReplayBuffer) (chunk : Chunk) : ReplayBuffer :=
  match b.socket with
  | none => b
  | some j => { b with wrote := Function.update b.wrote j (b.wrote j ++ [chunk]) }

/-- The front of `pending` was written. -/
def advance (b : ReplayBuffer) (chunk : Chunk) (rest : List Chunk) : ReplayBuffer :=
  { b with pending := rest, unacked := b.unacked ++ [chunk] }

/-- The end of `shutdown`, which does not requeue what is unacknowledged. -/
def close (b : ReplayBuffer) : ReplayBuffer := { b with socket := none, closed := true }

/-- `evict` with every subtraction from the counter checked; `none` is an underflow. -/
def evictChecked (b : ReplayBuffer) : Option ReplayBuffer :=
  let fromUnacked := (popWhileOver Chunk.len maxBufferedBytes b.bufferedBytes b.unacked).1
  (subtractEach Chunk.len b.bufferedBytes fromUnacked).bind fun bytes =>
    (subtractEach Chunk.len bytes (popWhileOver Chunk.len maxBufferedBytes bytes b.pending).1).map
      fun bytes => { b.evict with bufferedBytes := bytes }

/-- `bufferSealed` with every subtraction from the counter checked. -/
def bufferSealedChecked (b : ReplayBuffer) (sealed : Bytes) : Option ReplayBuffer :=
  let chunk : Chunk := ⟨b.queued.length, sealed⟩
  evictChecked { b with
    bufferedBytes := b.bufferedBytes + chunk.len
    pending := b.pending ++ [chunk]
    queued := b.queued ++ [chunk] }

/-- `applyAck` with every subtraction from the counter checked. -/
def applyAckChecked (b : ReplayBuffer) (acked : ℕ) : Option ReplayBuffer :=
  let newly := acked - b.connAcked
  let released := popCovered Chunk.len (newly - min newly b.droppedUnacked) b.unacked
  (subtractEach Chunk.len b.bufferedBytes released.1).map fun bytes =>
    { b.applyAck acked with bufferedBytes := bytes }

/-- What holds of the buffer whatever the socket does: it is the newest part of
what was queued, it is counted exactly, and it is within the cap. -/
structure Counted (b : ReplayBuffer) : Prop where
  numbered : b.queued.map Chunk.seq = List.range b.queued.length
  positive : ∀ c ∈ b.queued, 0 < c.len
  suffix : b.held <:+ b.queued
  exact_bytes : b.bufferedBytes = total Chunk.len b.held
  capped : b.bufferedBytes ≤ maxBufferedBytes

/-- What holds of the connection until `shutdown` has returned: the counters and
`unacked` agree with what was written on it, and without a socket nothing is
unacknowledged. -/
structure Settled (b : ReplayBuffer) : Prop where
  handed : ∀ j, b.wrote j ⊆ b.queued
  live : b.closed = false → ∀ j, b.socket = some j →
    Tracks Chunk.len (b.wrote j) b.unacked b.connAcked b.droppedUnacked
  dead : b.closed = false → b.socket = none → b.unacked = []

theorem Counted.positive_wrote {b : ReplayBuffer} (hc : Counted b) (hs : Settled b) (j : ℕ) :
    ∀ c ∈ b.wrote j, 0 < c.len :=
  fun c hmem => hc.positive c (hs.handed j hmem)

theorem counted_empty : Counted empty :=
  ⟨rfl, fun _ h => absurd h List.not_mem_nil, List.suffix_rfl, rfl, Nat.zero_le _⟩

theorem settled_empty : Settled empty :=
  ⟨fun _ => List.Subset.refl _, nofun, fun _ _ => rfl⟩

/-- What the eviction loop does: it drops the oldest chunks, first of `unacked`. -/
theorem evict_spec (b : ReplayBuffer) : ∃ front rest,
    b.unacked = front ++ b.evict.unacked ∧ b.pending = rest ++ b.evict.pending ∧
      b.evict.discarded = b.discarded ++ front ++ rest ∧
      b.evict.droppedUnacked = b.droppedUnacked + total Chunk.len front ∧
      b.evict.bufferedBytes = b.bufferedBytes - total Chunk.len front - total Chunk.len rest ∧
      (b.evict.bufferedBytes ≤ maxBufferedBytes ∨ b.evict.pending = []) ∧
      (rest = [] ∨ b.evict.unacked = []) := by
  refine ⟨_, _, (popWhileOver_append _ _ _).symm, (popWhileOver_append _ _ _).symm, rfl, rfl, rfl,
    popWhileOver_le_or_nil _ _ _, ?_⟩
  rcases popWhileOver_le_or_nil (w := Chunk.len) maxBufferedBytes b.bufferedBytes b.unacked
    with h | h
  · exact Or.inl (congrArg Prod.fst (popWhileOver_of_le h b.pending))
  · exact Or.inr h

/-- The loop leaves a suffix of the buffer, exactly counted and within the cap. -/
theorem counted_evict {b : ReplayBuffer}
    (hnum : b.queued.map Chunk.seq = List.range b.queued.length)
    (hpos : ∀ c ∈ b.queued, 0 < c.len) (hsuf : b.held <:+ b.queued)
    (hbytes : b.bufferedBytes = total Chunk.len b.held) : Counted b.evict := by
  obtain ⟨front, rest, hu, hp, -, -, hcount, hcap, hlast⟩ := evict_spec b
  have hheld : b.held = front ++ rest ++ b.evict.held := by
    simp only [held]
    -- `pending` is touched only once `unacked` is empty
    rcases hlast with rfl | h
    · rw [hu, hp]
      simp
    · rw [hu, hp, h]
      simp
  have hexact : b.evict.bufferedBytes = total Chunk.len b.evict.held := by
    rw [hcount, hbytes, hheld, total_append, total_append]
    omega
  have hcapped : b.evict.bufferedBytes ≤ maxBufferedBytes := by
    rcases hcap with h | h
    · exact h
    · -- nothing is pending any more, so `unacked` is what is held
      rcases popWhileOver_le_or_nil (w := Chunk.len) maxBufferedBytes b.bufferedBytes b.unacked
        with hle | hnil
      · have hsub : b.evict.bufferedBytes ≤ b.bufferedBytes -
            total Chunk.len (popWhileOver Chunk.len maxBufferedBytes b.bufferedBytes b.unacked).1 :=
          Nat.sub_le _ _
        exact hsub.trans hle
      · have hnone : b.evict.held = [] := by
          have hunacked : b.evict.unacked = [] := hnil
          rw [held, hunacked, h]
          rfl
        rw [hexact, hnone]
        exact Nat.zero_le _
  have hsuffix : b.evict.held <:+ b.queued :=
    (hheld ▸ List.suffix_append (front ++ rest) b.evict.held).trans hsuf
  exact ⟨hnum, hpos, hsuffix, hexact, hcapped⟩

theorem counted_bufferSealed {b : ReplayBuffer} (h : Counted b) {sealed : Bytes}
    (hne : sealed ≠ []) : Counted (b.bufferSealed sealed) := by
  apply counted_evict
  · simp [h.numbered, List.range_succ]
  · intro c hc
    rcases List.mem_append.mp hc with hc | hc
    · exact h.positive c hc
    · obtain rfl := List.mem_singleton.mp hc
      exact List.length_pos_of_ne_nil hne
  · obtain ⟨older, hq⟩ := h.suffix
    refine ⟨older, ?_⟩
    rw [← hq]
    simp [held]
  · simp only [held, h.exact_bytes, total_append, total_cons, total_nil]
    omega

theorem counted_applyAck {b : ReplayBuffer} (h : Counted b) (acked : ℕ) :
    Counted (b.applyAck acked) := by
  have hsplit := popCovered_append (w := Chunk.len)
    (acked - b.connAcked - min (acked - b.connAcked) b.droppedUnacked) b.unacked
  have hheld : b.held = (popCovered Chunk.len
      (acked - b.connAcked - min (acked - b.connAcked) b.droppedUnacked) b.unacked).1 ++
        (b.applyAck acked).held := by
    simp only [held, applyAck, ← List.append_assoc, hsplit]
  have hexact : (b.applyAck acked).bufferedBytes = total Chunk.len (b.applyAck acked).held := by
    have hbytes := h.exact_bytes
    rw [hheld, total_append] at hbytes
    simp only [applyAck] at hbytes ⊢
    omega
  refine ⟨h.numbered, h.positive, ?_, hexact, ?_⟩
  · exact (hheld ▸ List.suffix_append _ (b.applyAck acked).held).trans h.suffix
  · exact (Nat.sub_le _ _).trans h.capped

theorem counted_disconnect {b : ReplayBuffer} (h : Counted b) : Counted b.disconnect :=
  ⟨h.numbered, h.positive, h.suffix, h.exact_bytes, h.capped⟩

theorem counted_advance {b : ReplayBuffer} (h : Counted b) {chunk : Chunk} {rest : List Chunk}
    (hp : b.pending = chunk :: rest) : Counted (b.advance chunk rest) := by
  have hheld : (b.advance chunk rest).held = b.held := by
    simp [held, advance, hp]
  exact ⟨h.numbered, h.positive, hheld ▸ h.suffix, hheld ▸ h.exact_bytes, h.capped⟩

theorem settled_bufferSealed {b : ReplayBuffer} (h : Settled b) (sealed : Bytes) :
    Settled (b.bufferSealed sealed) := by
  obtain ⟨front, rest, hu, -, -, hdropped, -, -, -⟩ := evict_spec
    { b with
      bufferedBytes := b.bufferedBytes + Chunk.len ⟨b.queued.length, sealed⟩
      pending := b.pending ++ [⟨b.queued.length, sealed⟩]
      queued := b.queued ++ [⟨b.queued.length, sealed⟩] }
  refine ⟨fun j _ hc => List.mem_append_left _ (h.handed j hc), ?_, ?_⟩
  -- a chunk dropped from `unacked` owes its ack to the second counter
  · intro hopen j hj
    have htracks := h.live hopen j hj
    rw [show b.unacked = front ++ (b.bufferSealed sealed).unacked from hu] at htracks
    rw [show (b.bufferSealed sealed).droppedUnacked = b.droppedUnacked + total Chunk.len front
      from hdropped]
    exact htracks.drop
  · intro hopen hsocket
    have hnil := h.dead hopen hsocket
    rw [show b.unacked = front ++ (b.bufferSealed sealed).unacked from hu] at hnil
    exact (List.append_eq_nil_iff.mp hnil).2

/-- An acknowledgment as the server sends it: of whole frames of this connection. -/
def WholeFrames (b : ReplayBuffer) (acked : ℕ) : Prop :=
  ∃ k, k ≤ b.written.length ∧ acked = total Chunk.len (b.written.take k)

instance (b : ReplayBuffer) (acked : ℕ) : Decidable (b.WholeFrames acked) :=
  inferInstanceAs (Decidable (∃ _, _))

theorem Settled.tracks {b : ReplayBuffer} (h : Settled b) (hopen : b.closed = false)
    (hsocket : b.socket ≠ none) :
    Tracks Chunk.len b.written b.unacked b.connAcked b.droppedUnacked := by
  obtain ⟨j, hj⟩ := Option.ne_none_iff_exists'.mp hsocket
  have htracks := h.live hopen j hj
  rwa [show b.wrote j = b.written by rw [written, hj]; rfl] at htracks

theorem positive_written {b : ReplayBuffer} (hc : Counted b) (hs : Settled b) :
    ∀ c ∈ b.written, 0 < c.len := by
  unfold written
  cases b.socket with
  | none => exact fun _ h => absurd h List.not_mem_nil
  | some j => exact hc.positive_wrote hs j

/-- The step lemma of an acknowledgment: the counters stay in agreement, the ack
covers no chunk in part, and what it releases is within what it acknowledges. -/
theorem applyAck_spec {b : ReplayBuffer} (hc : Counted b) (hs : Settled b)
    (hopen : b.closed = false) (hsocket : b.socket ≠ none) (k : ℕ) :
    let acked := total Chunk.len (b.written.take k)
    Tracks Chunk.len b.written (b.applyAck acked).unacked (b.applyAck acked).connAcked
        (b.applyAck acked).droppedUnacked ∧
      b.partialAck acked = false ∧
      ∀ c ∈ b.held, c ∈ (b.applyAck acked).held ∨ c ∈ b.written.take k := by
  intro acked
  obtain ⟨htracks, hpartial, hreleased⟩ :=
    (hs.tracks hopen hsocket).ack (positive_written hc hs) k
  refine ⟨htracks, hpartial, fun c hmem => ?_⟩
  have hsplit := popCovered_append (w := Chunk.len)
    (acked - b.connAcked - min (acked - b.connAcked) b.droppedUnacked) b.unacked
  rcases List.mem_append.mp hmem with hu | hp
  · rw [← hsplit] at hu
    rcases List.mem_append.mp hu with hgone | hkept
    · exact Or.inr (hreleased hgone)
    · exact Or.inl (List.mem_append_left _ hkept)
  · exact Or.inl (List.mem_append_right _ hp)

theorem settled_applyAck {b : ReplayBuffer} (hc : Counted b) (hs : Settled b)
    (hsocket : b.socket ≠ none) {acked : ℕ} (hack : b.WholeFrames acked) :
    Settled (b.applyAck acked) := by
  obtain ⟨k, -, rfl⟩ := hack
  refine ⟨hs.handed, fun hopen j hj => ?_, fun _ hnone => absurd hnone hsocket⟩
  obtain ⟨htracks, -, -⟩ := applyAck_spec hc hs hopen hsocket k
  have hwritten : b.written = b.wrote j := by
    rw [written, show b.socket = some j from hj]
    rfl
  exact hwritten ▸ htracks

theorem settled_disconnect {b : ReplayBuffer} (h : Settled b) : Settled b.disconnect :=
  ⟨h.handed, fun _ _ hj => absurd hj (Option.some_ne_none _).symm, fun _ _ => rfl⟩

theorem settled_accept {b : ReplayBuffer} (h : Settled b) (hsocket : b.socket = none) :
    Settled b.accept := by
  refine ⟨fun j => ?_, fun hopen j hj => ?_, fun _ hnone => absurd hnone (Option.some_ne_none _)⟩
  · by_cases hj : j = b.connections
    · subst hj
      simp [accept]
    · rw [show b.accept.wrote j = b.wrote j from Function.update_of_ne hj _ _]
      exact h.handed j
  · obtain rfl : b.connections = j := Option.some.inj hj
    have hunacked : b.unacked = [] := h.dead hopen hsocket
    rw [show b.accept.wrote b.connections = [] from Function.update_self _ _ _,
      show b.accept.unacked = [] from hunacked]
    exact tracks_nil

theorem wrote_hand {b : ReplayBuffer} {j : ℕ} (hj : b.socket = some j) (chunk : Chunk) (i : ℕ) :
    (b.hand chunk).wrote i = if i = j then b.wrote j ++ [chunk] else b.wrote i := by
  simp only [hand, hj, Function.update_apply]

theorem handed_hand {b : ReplayBuffer} (hw : ∀ j, b.wrote j ⊆ b.queued) {chunk : Chunk}
    (hmem : chunk ∈ b.queued) (i : ℕ) : (b.hand chunk).wrote i ⊆ b.queued := by
  cases hj : b.socket with
  | none =>
    simp only [hand, hj]
    exact hw i
  | some j =>
    rw [wrote_hand hj]
    split
    · intro c hc
      rcases List.mem_append.mp hc with hc | hc
      · exact hw j hc
      · exact List.mem_singleton.mp hc ▸ hmem
    · exact hw i

theorem hand_eq (b : ReplayBuffer) (chunk : Chunk) :
    b.hand chunk = { b with wrote := (b.hand chunk).wrote } := by
  unfold hand
  split <;> rfl

/-- A chunk that was sent: it is written, and it waits for its ack. -/
theorem settled_sent {b : ReplayBuffer} (hs : Settled b) (hsocket : b.socket ≠ none)
    {chunk : Chunk} (hmem : chunk ∈ b.queued) (rest : List Chunk) :
    Settled ((b.hand chunk).advance chunk rest) := by
  rw [hand_eq]
  refine ⟨handed_hand hs.handed hmem, fun hopen j hj => ?_, fun _ hnone => absurd hnone hsocket⟩
  have hj : b.socket = some j := hj
  have hwrote : (b.hand chunk).wrote j = b.wrote j ++ [chunk] := by
    rw [wrote_hand hj, if_pos rfl]
  have htracks := (hs.live hopen j hj).write chunk
  rw [← hwrote] at htracks
  exact htracks

/-- A chunk whose send failed: the connection is gone. -/
theorem settled_lost {b : ReplayBuffer} (hs : Settled b) {chunk : Chunk}
    (hmem : chunk ∈ b.queued) : Settled (b.hand chunk).disconnect := by
  rw [hand_eq]
  exact ⟨handed_hand hs.handed hmem, fun _ _ hj => absurd hj (Option.some_ne_none _).symm,
    fun _ _ => rfl⟩

theorem settled_close {b : ReplayBuffer} (h : Settled b) : Settled b.close :=
  ⟨h.handed, fun hopen => absurd hopen Bool.true_eq_false.mp, fun hopen =>
    absurd hopen Bool.true_eq_false.mp⟩

/-- No subtraction of the eviction loop underflows. -/
theorem evictChecked_eq_some {b : ReplayBuffer}
    (hbytes : b.bufferedBytes = total Chunk.len b.held) :
    b.evictChecked = some b.evict := by
  have hu := congrArg (total Chunk.len)
    (popWhileOver_append (w := Chunk.len) maxBufferedBytes b.bufferedBytes b.unacked)
  rw [total_append] at hu
  have hp := fun bytes => congrArg (total Chunk.len)
    (popWhileOver_append (w := Chunk.len) maxBufferedBytes bytes b.pending)
  simp only [total_append] at hp
  rw [held, total_append] at hbytes
  unfold evictChecked
  dsimp only
  rw [subtractEach_eq_some (by omega), Option.bind_some,
    subtractEach_eq_some (by have := hp (b.bufferedBytes - total Chunk.len
      (popWhileOver Chunk.len maxBufferedBytes b.bufferedBytes b.unacked).1); omega)]
  rfl

theorem bufferSealedChecked_eq_some {b : ReplayBuffer} (h : Counted b) (sealed : Bytes) :
    b.bufferSealedChecked sealed = some (b.bufferSealed sealed) := by
  apply evictChecked_eq_some
  simp only [held, h.exact_bytes, total_append, total_cons, total_nil]
  omega

theorem applyAckChecked_eq_some {b : ReplayBuffer} (h : Counted b) (acked : ℕ) :
    b.applyAckChecked acked = some (b.applyAck acked) := by
  have hsplit := congrArg (total Chunk.len) (popCovered_append (w := Chunk.len)
    (acked - b.connAcked - min (acked - b.connAcked) b.droppedUnacked) b.unacked)
  have hbytes := h.exact_bytes
  rw [total_append] at hsplit
  rw [held, total_append] at hbytes
  unfold applyAckChecked
  dsimp only
  rw [subtractEach_eq_some (by omega)]
  rfl

end ReplayBuffer

end Shellshare
