import Shellshare.KeyframerBoundary
import Shellshare.ReplayOrder

/-! A keyframe and the output that it accompanies share one replay cap: when a live
connection loses that output. -/
namespace Shellshare
open CumulativeAcks

/-- How long the record of a plaintext is. -/
def recordLength (cipher : Option Encryptor) (plain : Bytes) : ℕ :=
  plain.length + if cipher.isSome then 32 else 0

theorem length_eq_recordLength {cipher : Option Encryptor} {nonce : Nonce} {plain record : Bytes}
    (h : sealed cipher nonce plain = some record) : record.length = recordLength cipher plain := by
  cases cipher with
  | none =>
    obtain rfl := Option.some.inj h
    rfl
  | some e => exact Encryptor.length_sealRecord h

/-- If the frame produces a keyframe, the records of both fit the replay cap together. -/
def KeyframeFits {V : Type} [Vt V] (cipher : Option Encryptor) (k : Keyframer V) (data : Bytes)
    (size : TermSize) : Prop :=
  let k := k.feed data size
  k.due → onAlternateScreen (Vt.dump k.vt) = true →
    recordLength cipher data + recordLength cipher (sevenBit (Vt.dump k.vt)) ≤ maxBufferedBytes

namespace ReplayBuffer

variable {b : ReplayBuffer}

/-- What is left on the counter when the loop of `buffer_plaintext` turns to `pending`:
more than the cap only if `unacked` is empty by then. -/
theorem evict_pending (hbytes : b.bufferedBytes = total Chunk.len b.held) :
    ∃ bytes, b.evict.pending = (popWhileOver Chunk.len maxBufferedBytes bytes b.pending).2 ∧
      total Chunk.len b.pending ≤ bytes ∧
      (maxBufferedBytes < bytes → bytes = total Chunk.len b.pending) := by
  have hsplit := congrArg (total Chunk.len)
    (popWhileOver_append (w := Chunk.len) maxBufferedBytes b.bufferedBytes b.unacked)
  rw [total_append] at hsplit
  rw [held, total_append] at hbytes
  refine ⟨_, rfl, by omega, fun hover => ?_⟩
  rcases popWhileOver_le_or_nil (w := Chunk.len) maxBufferedBytes b.bufferedBytes b.unacked
    with hle | hnil
  · exact absurd hover (Nat.not_lt.mpr hle)
  · rw [hnil, total_nil] at hsplit
    omega

theorem evict_pending_of_le (hbytes : b.bufferedBytes = total Chunk.len b.held)
    (hle : total Chunk.len b.pending ≤ maxBufferedBytes) : b.evict.pending = b.pending := by
  obtain ⟨bytes, hevict, -, hover⟩ := evict_pending hbytes
  have hcap : bytes ≤ maxBufferedBytes := by
    by_contra h
    have heq := hover (Nat.lt_of_not_le h)
    omega
  rw [hevict, popWhileOver_of_le hcap]

/-- Over the cap the oldest pending chunk goes. -/
theorem evict_pending_of_lt {chunk : Chunk} {rest : List Chunk}
    (hbytes : b.bufferedBytes = total Chunk.len b.held) (hp : b.pending = chunk :: rest)
    (hlt : maxBufferedBytes < total Chunk.len b.pending) : b.evict.pending ⊆ rest := by
  obtain ⟨bytes, hevict, hle, -⟩ := evict_pending hbytes
  rw [hevict, hp, popWhileOver, if_pos (hlt.trans_le hle)]
  have hsplit := popWhileOver_append (w := Chunk.len) maxBufferedBytes (bytes - chunk.len) rest
  intro c hc
  rw [← hsplit]
  exact List.mem_append_right _ hc

/-- The chunk that a buffering queues. -/
def next (b : ReplayBuffer) (sealed : Bytes) : Chunk := ⟨b.queued.length, sealed⟩

theorem next_not_mem (hc : Counted b) (sealed : Bytes) : b.next sealed ∉ b.queued := by
  intro hmem
  exact absurd (hc.seq_lt hmem) (Nat.lt_irrefl _)

/-- A chunk within the cap is kept, and so is what waits before it if both are. -/
theorem pending_bufferSealed (hc : Counted b) {sealed : Bytes}
    (hle : total Chunk.len b.pending + sealed.length ≤ maxBufferedBytes) :
    (b.bufferSealed sealed).pending = b.pending ++ [b.next sealed] := by
  apply evict_pending_of_le
  · simp only [held, hc.exact_bytes, total_append, total_cons, total_nil]
    omega
  · simpa [Chunk.len] using hle

theorem pending_bufferSealed_of_lt (hc : Counted b) {sealed : Bytes} {chunk : Chunk}
    (hp : b.pending = [chunk]) (hlt : maxBufferedBytes < chunk.len + sealed.length) :
    (b.bufferSealed sealed).pending ⊆ [b.next sealed] := by
  apply evict_pending_of_lt
  · simp only [held, hc.exact_bytes, total_append, total_cons, total_nil]
    omega
  · simp only [hp, List.singleton_append]
    rfl
  · simpa [hp, Chunk.len] using hlt

/-- With nothing pending before, the first of two chunks waits to be written exactly when
both fit the cap. -/
theorem mem_pending_iff (hc : Counted b) (hp : b.pending = []) {first second : Bytes}
    (hne : first ≠ []) (hle : first.length ≤ maxBufferedBytes) :
    b.next first ∈ ((b.bufferSealed first).bufferSealed second).pending ↔
      first.length + second.length ≤ maxBufferedBytes := by
  have hone : (b.bufferSealed first).pending = [b.next first] := by
    rw [pending_bufferSealed hc (by simpa [hp] using hle), hp, List.nil_append]
  have hc' := counted_bufferSealed hc hne
  constructor
  · intro hmem
    by_contra hover
    have hlt : maxBufferedBytes < (b.next first).len + second.length := by
      simp only [next, Chunk.len]
      omega
    have hlast := pending_bufferSealed_of_lt hc' hone hlt hmem
    have hseq := congrArg Chunk.seq (List.mem_singleton.mp hlast)
    have hqueued : (b.bufferSealed first).queued = b.queued ++ [b.next first] := rfl
    simp [next, hqueued] at hseq
  · intro hfits
    rw [pending_bufferSealed hc' (by simpa [hone, next, Chunk.len] using hfits), hone]
    exact List.mem_append_left _ List.mem_cons_self

end ReplayBuffer

/-- A call on the socket that succeeds, or time that passes. -/
def ClientAction.succeeds : ClientAction → Bool
  | .elapse _ => true
  | .write sent => sent
  | .read .dead => false
  | .read _ => true
  | _ => false

namespace Transport
open TransitionRuns ReplayBuffer

variable {V : Type} {j : ℕ}

/-- What holds of the buffer in every reachable state, whatever the server acknowledges. -/
structure Handed (t : Transport V) : Prop where
  counted : Counted t.toReplayBuffer
  placed : Placed t
  handed : ∀ j, t.wrote j ⊆ t.queued

/-- Where the flush of a `send` stands while its connection lives. -/
structure Flushing (j : ℕ) (t : Transport V) : Prop where
  socket : t.socket = some j
  stage : t.stage = .draining .send ∨ t.stage = .sizing .send ∨
    (t.stage = .writing .send ∧ t.pending ≠ []) ∨ (t.stage = .idle ∧ t.pending = [])

theorem flushing_deliver {t : Transport V} (hs : t.socket = some j) :
    Flushing j (t.deliver .send) := by
  unfold deliver
  split_ifs with hp
  · exact ⟨hs, Or.inr (Or.inr (Or.inr ⟨rfl, hp⟩))⟩
  · exact ⟨hs, Or.inr (Or.inr (Or.inl ⟨rfl, hp⟩))⟩

theorem flushing_announce {t : Transport V} (hs : t.socket = some j) :
    Flushing j (t.announce .send) := by
  unfold announce
  split_ifs
  · exact ⟨hs, Or.inr (Or.inl rfl)⟩
  · exact flushing_deliver hs

theorem reconnect_of_socket {t : Transport V} (hs : t.socket = some j) (caller : Caller) :
    t.reconnect caller = t.announce caller := by
  rw [reconnect, hs, Option.isSome_some, if_pos rfl]

/-- The write of a chunk that succeeds. -/
theorem writeFront_of_sent {t : Transport V} (hs : t.socket = some j) {chunk : Chunk}
    {rest : List Chunk} (hp : t.pending = chunk :: rest) (caller : Caller) :
    t.writeFront caller true = some
      ({ t with toReplayBuffer := (t.toReplayBuffer.hand chunk).advance chunk rest }.deliver
        caller) := by
  have hhand : (t.hand chunk).socket.isSome = true := by
    rw [hand_eq, hs]
    rfl
  rw [writeFront, hp]
  dsimp only
  rw [write_of_socket (t := { t with toReplayBuffer := t.toReplayBuffer.hand chunk }) hhand]
  rfl

theorem handed_bufferSealed_foldl {b : ReplayBuffer} (h : ∀ j, b.wrote j ⊆ b.queued)
    (records : List Bytes) :
    ∀ j, (records.foldl bufferSealed b).wrote j ⊆ (records.foldl bufferSealed b).queued := by
  induction records generalizing b with
  | nil => exact h
  | cons record records ih => exact ih fun j c hc => List.mem_append_left _ (h j hc)

variable [Vt V]

theorem Moves.handed {t : Transport V} {a : ClientAction} {b : ReplayBuffer} {k : Keyframer V}
    (h : Moves t a b k) (hc : Counted t.toReplayBuffer) (hw : ∀ j, t.wrote j ⊆ t.queued) :
    ∀ j, b.wrote j ⊆ b.queued := by
  cases h with
  | send data size nonce keyframeNonce s hsent => exact handed_bufferSealed_foldl hw s.records
  | accept hnone =>
    intro j
    by_cases hj : j = t.connections
    · subst hj
      simp [ReplayBuffer.accept]
    · have hsame : t.accept.wrote j = t.wrote j := Function.update_of_ne hj _ _
      rw [hsame]
      exact hw j
  | control sent hf hsocket => cases sent <;> exact hw
  | sent chunk rest hf hpending hsocket =>
    have hhanded := handed_hand hw (mem_queued_of_front hc hpending)
    rw [hand_eq] at hhanded ⊢
    exact hhanded
  | lost chunk rest hf hpending hsocket =>
    have hhanded := handed_hand hw (mem_queued_of_front hc hpending)
    rw [hand_eq] at hhanded ⊢
    exact hhanded
  | _ => exact hw

theorem handed_step {t t' : Transport V} {a : ClientAction} (h : Handed t)
    (hstep : t.step a = some t') : Handed t' := by
  obtain ⟨hmoves, -, hplaced⟩ := step_moves h.placed hstep
  exact ⟨hmoves.counted h.counted, hplaced, hmoves.handed h.counted h.handed⟩

theorem handed_of_run {size : TermSize} {theme : Option String} {cipher : Option Encryptor}
    {as : List ClientAction} {t : Transport V}
    (hrun : run step (new size theme cipher) as = some t) : Handed t :=
  run_preserves (fun _ _ _ h hstep => handed_step h hstep)
    ⟨counted_empty, placed_new size theme cipher, fun _ => List.Subset.refl _⟩ hrun

/-- A call that succeeds writes what was pending and drops nothing. -/
theorem Moves.delivers {t : Transport V} {a : ClientAction} {b : ReplayBuffer} {k : Keyframer V}
    (h : Moves t a b k) (ha : a.succeeds = true) (hs : t.socket = some j) (c : Chunk) :
    c ∈ b.pending ∨ c ∈ b.wrote j ↔ c ∈ t.pending ∨ c ∈ t.wrote j := by
  cases h with
  | sent chunk rest hf hpending hsocket =>
    have hwrote : ((t.hand chunk).advance chunk rest).wrote j = t.wrote j ++ [chunk] := by
      have hhand := wrote_hand hs chunk j
      rw [if_pos rfl] at hhand
      exact hhand
    have hrest : ((t.hand chunk).advance chunk rest).pending = rest := rfl
    rw [hwrote, hrest, hpending, List.mem_cons, List.mem_append, List.mem_singleton]
    tauto
  | control sent hf hsocket =>
    cases ha
    rfl
  | _ => first | rfl | cases ha

/-- The step lemma of the flush. -/
theorem flushing_step {t t' : Transport V} {a : ClientAction} (h : Flushing j t)
    (ha : a.succeeds = true) (hstep : t.step a = some t') : Flushing j t' := by
  obtain ⟨hs, hstage⟩ := h
  cases a with
  | elapse d =>
    obtain rfl := Option.some.inj hstep
    exact ⟨hs, hstage⟩
  | read incoming =>
    rcases hstage with hstage | hstage | ⟨hstage, -⟩ | ⟨hstage, -⟩
    · simp only [step, hstage] at hstep
      obtain rfl := Option.some.inj hstep
      cases incoming with
      | text body =>
        have hmore : (t.drainTurn (.text body)).2 = true := by
          cases hack : ackOf body <;> simp [drainTurn, hack]
        obtain ⟨-, -, hkept⟩ := moves_drainTurn (t := t) (by simp [hs]) (.text body)
        rw [if_pos hmore]
        exact ⟨(hkept hmore).1.trans hs, Or.inl ((hkept hmore).2.trans hstage)⟩
      | other => exact ⟨hs, Or.inl hstage⟩
      | quiet =>
        have hnext : Flushing j (t.reconnect .send) := by
          rw [reconnect_of_socket hs]
          exact flushing_announce hs
        exact hnext
      | dead => cases ha
    all_goals simp [step, hstage] at hstep
  | write sent =>
    have hsent : sent = true := ha
    subst hsent
    rcases hstage with hstage | hstage | ⟨hstage, hpending⟩ | ⟨hstage, -⟩
    · simp [step, hstage] at hstep
    · simp only [step, hstage, write_of_socket (Option.isSome_iff_exists.mpr ⟨j, hs⟩)] at hstep
      obtain rfl := Option.some.inj hstep
      exact flushing_deliver (t := { t with sentSize := some t.size }) hs
    · obtain ⟨chunk, rest, hp⟩ := List.exists_cons_of_ne_nil hpending
      simp only [step, hstage, writeFront_of_sent hs hp] at hstep
      obtain rfl := Option.some.inj hstep
      apply flushing_deliver
      exact (congrArg ReplayBuffer.socket (hand_eq t.toReplayBuffer chunk)).trans hs
    · simp [step, hstage] at hstep
  | _ => cases ha

/-- A flush on a live connection ends. -/
theorem deliver_completes {t : Transport V} (hs : t.socket = some j) :
    ∃ acts t', (∀ a ∈ acts, a.succeeds = true) ∧ run step (t.deliver .send) acts = some t' ∧
      t'.stage = .idle := by
  -- one write for each chunk that is pending
  generalize hp : t.pending = pending
  induction pending generalizing t with
  | nil =>
    refine ⟨[], t.deliver .send, nofun, rfl, ?_⟩
    rw [deliver, if_pos hp]
    rfl
  | cons chunk rest ih =>
    have hsocket : ((t.hand chunk).advance chunk rest).socket = some j :=
      (congrArg ReplayBuffer.socket (hand_eq t.toReplayBuffer chunk)).trans hs
    obtain ⟨acts, t', hall, hrun, hidle⟩ := ih
      (t := { t with toReplayBuffer := (t.toReplayBuffer.hand chunk).advance chunk rest })
      hsocket rfl
    refine ⟨.write true :: acts, t', List.forall_mem_cons.mpr ⟨rfl, hall⟩, ?_, hidle⟩
    have hne : t.pending ≠ [] := by
      rw [hp]
      exact List.cons_ne_nil chunk rest
    refine run_cons_eq_some.mpr ⟨_, ?_, hrun⟩
    rw [deliver, if_neg hne]
    exact writeFront_of_sent (t := t.enter (.writing .send)) hs hp .send

theorem flush_completes {t : Transport V} (hs : t.socket = some j)
    (hstage : t.stage = .draining .send) :
    ∃ acts t', (∀ a ∈ acts, a.succeeds = true) ∧ run step t acts = some t' ∧ t'.stage = .idle := by
  have hquiet : step t (.read .quiet) = some (t.announce .send) := by
    simp only [step, hstage, drainTurn, reconnect_of_socket hs]
    rfl
  by_cases hsize : t.sentSize ≠ some t.size
  · obtain ⟨acts, t', hall, hrun, hidle⟩ :=
      deliver_completes (t := { t with sentSize := some t.size, stage := .sizing .send }) hs
    refine ⟨.read .quiet :: .write true :: acts, t', ?_, ?_, hidle⟩
    · exact List.forall_mem_cons.mpr ⟨rfl, List.forall_mem_cons.mpr ⟨rfl, hall⟩⟩
    · refine run_cons_eq_some.mpr ⟨_, hquiet, run_cons_eq_some.mpr ⟨_, ?_, hrun⟩⟩
      rw [announce, if_pos hsize]
      simp only [step, enter, write_of_socket (t := { t with stage := .sizing .send })
        (Option.isSome_iff_exists.mpr ⟨j, hs⟩)]
      rfl
  · obtain ⟨acts, t', hall, hrun, hidle⟩ := deliver_completes hs
    refine ⟨.read .quiet :: acts, t', List.forall_mem_cons.mpr ⟨rfl, hall⟩, ?_, hidle⟩
    refine run_cons_eq_some.mpr ⟨_, hquiet, ?_⟩
    rw [announce, if_neg hsize]
    exact hrun

/-- The run lemma: at the end of the flush all that was pending is written. -/
theorem flush_writes {t t' : Transport V} {acts : List ClientAction} (hp : Placed t)
    (h : Flushing j t) (hall : ∀ a ∈ acts, a.succeeds = true) (hrun : run step t acts = some t')
    (hidle : t'.stage = .idle) (c : Chunk) :
    c ∈ t'.wrote j ↔ c ∈ t.pending ∨ c ∈ t.wrote j := by
  induction acts generalizing t with
  | nil =>
    obtain rfl := Option.some.inj hrun
    have hpending : t.pending = [] := by
      have hstage := h.stage
      rw [hidle] at hstage
      simpa using hstage
    simp [hpending]
  | cons a acts ih =>
    obtain ⟨ha, hacts⟩ := List.forall_mem_cons.mp hall
    obtain ⟨u, hu, hrest⟩ := run_cons_eq_some.mp hrun
    obtain ⟨hmoves, -, hplaced⟩ := step_moves hp hu
    rw [ih hplaced (flushing_step h ha hu) hacts hrest]
    exact hmoves.delivers ha h.socket c

/-- What a `send` leaves when nothing was pending on its connection. -/
structure Enqueued (j : ℕ) (t : Transport V) (s : Sending V) (t' : Transport V) : Prop where
  buffer : t'.toReplayBuffer = s.records.foldl bufferSealed t.toReplayBuffer
  socket : t'.socket = some j
  stage : t'.stage = .draining .send

theorem enqueued_of_send {t t' : Transport V} (hs : t.socket = some j) (hidle : t.stage = .idle)
    {data : Bytes} {size : TermSize} {nonce keyframeNonce : Nonce}
    (hsend : step t (.send data size nonce keyframeNonce) = some t') :
    ∃ s, sending t.cipher t.keyframer data size nonce keyframeNonce = some s ∧
      Enqueued j t s t' := by
  simp only [step, hidle] at hsend
  rw [enqueue_eq, Option.map_map] at hsend
  obtain ⟨s, hsending, rfl⟩ := Option.map_eq_some_iff.mp hsend
  have hsocket : (s.records.foldl bufferSealed t.toReplayBuffer).socket = some j :=
    (bufferSealed_foldl t.toReplayBuffer s.records).1.trans hs
  refine ⟨s, hsending, ?_⟩
  simp only [Function.comp_apply, flush, hsocket, Option.isSome_some]
  exact ⟨rfl, hsocket, rfl⟩

/-- Whether the chunk of the output still waits when the flush begins. -/
theorem output_pending_iff {t : Transport V} (hh : Handed t) (hp : t.pending = []) {data : Bytes}
    {size : TermSize} {nonce keyframeNonce : Nonce} {s : Sending V} (hdata : data ≠ [])
    (hmax : data.length ≤ maxFrame)
    (hs : sending t.cipher t.keyframer data size nonce keyframeNonce = some s) :
    ∃ record, sealed t.cipher nonce data = some record ∧
      (t.next record ∈ (s.records.foldl bufferSealed t.toReplayBuffer).pending ↔
        KeyframeFits t.cipher t.keyframer data size) := by
  obtain ⟨houtput, hkeyframe, -⟩ := sending_eq_some hs
  obtain ⟨-, record, hsealed, hrecord⟩ := houtput.resolve_left fun h => hdata h.1
  have hne : record ≠ [] := sealed_ne_nil hsealed hdata
  have hle : record.length ≤ maxBufferedBytes := by
    have hlen := (length_sealed hsealed).2
    have hframe : maxFrame = 69631 := rfl
    have hcap : maxBufferedBytes = 1048576 := rfl
    omega
  refine ⟨record, hsealed, ?_⟩
  rw [Sending.records, hrecord, Option.toList_some, List.singleton_append, List.foldl_cons]
  rcases hkeyframe with ⟨hnone, hk⟩ | ⟨keyframe, second, hsome, hsecond, hk⟩
  · -- no keyframe: the output is alone
    have hnot := (Keyframer.maybeKeyframe_cases (t.keyframer.feed data size)).resolve_right (by
      rintro ⟨keyframe, h, _⟩
      simp [hnone] at h)
    rw [hk, Option.toList_none, List.foldl_nil,
      pending_bufferSealed hh.counted (by simpa [hp] using hle), hp, List.nil_append]
    exact iff_of_true List.mem_cons_self fun hdue halt => absurd ⟨hdue, halt⟩ hnot.2
  · obtain ⟨_, h, -, -, hdue, halt⟩ :=
      (Keyframer.maybeKeyframe_cases (t.keyframer.feed data size)).resolve_left
        fun h => by simp [hsome] at h
    have hdump : keyframe = sevenBit (Vt.dump (t.keyframer.feed data size).vt) := by
      rw [Keyframer.maybeKeyframe_of_due hdue halt] at hsome
      exact (Option.some.inj hsome).symm
    rw [hk, Option.toList_some, List.foldl_cons, List.foldl_nil,
      mem_pending_iff hh.counted hp hne hle, length_eq_recordLength hsealed,
      length_eq_recordLength hsecond, hdump]
    exact ⟨fun hfits _ _ => hfits, fun h => h hdue halt⟩

/-- On a connection that lives, the flush of a `send` writes the record of its output
exactly when it fits the replay cap together with that of the keyframe. -/
theorem written_iff {t t' : Transport V} (hh : Handed t) (hs : t.socket = some j)
    (hidle : t.stage = .idle) (hp : t.pending = []) {data : Bytes} {size : TermSize}
    {nonce keyframeNonce : Nonce} (hdata : 1 ≤ data.length) (hmax : data.length ≤ maxFrame)
    (hsend : step t (.send data size nonce keyframeNonce) = some t') :
    ∃ record, sealed t.cipher nonce data = some record ∧
      (∃ acts u, (∀ a ∈ acts, a.succeeds = true) ∧ run step t' acts = some u ∧ u.stage = .idle) ∧
      ∀ acts u, (∀ a ∈ acts, a.succeeds = true) → run step t' acts = some u → u.stage = .idle →
        (t.next record ∈ u.wrote j ↔ KeyframeFits t.cipher t.keyframer data size) := by
  obtain ⟨s, hsending, henqueued⟩ := enqueued_of_send hs hidle hsend
  have hne : data ≠ [] := List.ne_nil_of_length_pos hdata
  obtain ⟨record, hsealed, hpending⟩ := output_pending_iff hh hp hne hmax hsending
  refine ⟨record, hsealed, flush_completes henqueued.socket henqueued.stage, ?_⟩
  intro acts u hall hrun hend
  have hflushing : Flushing j t' := ⟨henqueued.socket, Or.inl henqueued.stage⟩
  have hplaced := (step_moves hh.placed hsend).placed
  have hwrote : t'.wrote j = t.wrote j := by
    rw [henqueued.buffer, (bufferSealed_foldl t.toReplayBuffer s.records).2.2]
  have hnew : t.next record ∉ t.wrote j := fun hmem =>
    next_not_mem hh.counted record (hh.handed j hmem)
  rw [flush_writes hplaced hflushing hall hrun hend, hwrote, or_iff_left hnew, henqueued.buffer]
  exact hpending

/-- In every reachable state with nothing pending on a live connection, a `send` writes
the record of its output exactly when the keyframe leaves room for it. -/
theorem output_written_iff (size₀ : TermSize) (theme : Option String) (cipher : Option Encryptor)
    (as : List ClientAction) (t t' : Transport V) (j : ℕ) (data : Bytes) (size : TermSize)
    (nonce keyframeNonce : Nonce) (hrun : run step (new size₀ theme cipher) as = some t)
    (hidle : t.stage = .idle) (hsocket : t.socket = some j) (hpending : t.pending = [])
    (hdata : 1 ≤ data.length) (hmax : data.length ≤ maxFrame)
    (hsend : step t (.send data size nonce keyframeNonce) = some t') :
    ∃ record, sealed t.cipher nonce data = some record ∧
      (∃ acts u, (∀ a ∈ acts, a.succeeds = true) ∧ run step t' acts = some u ∧ u.stage = .idle) ∧
      ∀ acts u, (∀ a ∈ acts, a.succeeds = true) → run step t' acts = some u → u.stage = .idle →
        (t.next record ∈ u.wrote j ↔ KeyframeFits t.cipher t.keyframer data size) :=
  written_iff (handed_of_run hrun) hsocket hidle hpending hdata hmax hsend

def connected : List ClientAction := [.handshake .accepted, .write true]

theorem output_written_resized : ∃ t t' : Transport FullScreen,
    run step (new size80x24 none none) connected = some t ∧
      step t (.send [104] ⟨100, 30⟩ zeroNonce zeroNonce) = some t' ∧
      ∃ record, sealed t.cipher zeroNonce [104] = some record ∧
        (∃ acts u, (∀ a ∈ acts, a.succeeds = true) ∧ run step t' acts = some u ∧
          u.stage = .idle) ∧
        ∀ acts u, (∀ a ∈ acts, a.succeeds = true) → run step t' acts = some u →
          u.stage = .idle →
          (t.next record ∈ u.wrote 0 ↔ KeyframeFits t.cipher t.keyframer [104] ⟨100, 30⟩) :=
  ⟨_, _, rfl, rfl, output_written_iff (V := FullScreen) size80x24 none none connected _ _ 0 [104]
    ⟨100, 30⟩ zeroNonce zeroNonce rfl rfl rfl rfl (by decide) (by decide) rfl⟩

/-- A screen of 1100 columns and 1000 rows, no cell of which is like its neighbours: there
are no runs for the redraw to shorten, and it alone fills the replay cap. -/
inductive LargeScreen where
  | largeScreen

def LargeScreen.redraw : List Char :=
  enterAlternate ++ (List.replicate (550 * 1000) ['x', 'y']).flatten

instance : Vt LargeScreen :=
  ⟨fun _ _ => .largeScreen, fun _ _ => .largeScreen, fun _ _ _ => .largeScreen,
    fun _ => LargeScreen.redraw⟩

theorem sending_plain (k : Keyframer V) (data : Bytes) (size : TermSize)
    (nonce keyframeNonce : Nonce) : ∃ s, sending none k data size nonce keyframeNonce = some s := by
  simp only [sending, sealed]
  cases (k.feed data size).maybeKeyframe.1 <;> split_ifs <;> exact ⟨_, rfl⟩

theorem length_le_sevenBit (dump : List Char) : dump.length ≤ (sevenBit dump).length := by
  induction dump with
  | nil => exact Nat.zero_le _
  | cons c dump ih =>
    have hcons : sevenBit (c :: dump) = sevenBit [c] ++ sevenBit dump := by
      simp [sevenBit]
    have hpos : 0 < (sevenBit [c]).length := by
      by_cases h : c = csi <;> simp [sevenBit, h, Char.utf8Size_pos]
    rw [hcons, List.length_append, List.length_cons]
    omega

theorem largeScreen_onAlternate : onAlternateScreen LargeScreen.redraw = true := by
  have henter : enterAlternate <:+: LargeScreen.redraw := (List.prefix_append _ _).isInfix
  have hleave : ¬ leaveAlternate <:+: LargeScreen.redraw := by
    intro h
    have hmem : 'l' ∈ LargeScreen.redraw := h.subset (by decide)
    rcases List.mem_append.mp hmem with hmem | hmem
    · exact absurd hmem (by decide)
    · obtain ⟨cells, hcells, hmem⟩ := List.mem_flatten.mp hmem
      rw [List.eq_of_mem_replicate hcells] at hmem
      exact absurd hmem (by decide)
  simp only [onAlternateScreen, decide_eq_true_eq]
  exact ⟨henter, hleave⟩

theorem output_not_written : ∃ t t' u : Transport LargeScreen, ∃ acts,
    run step (new size80x24 none none) connected = some t ∧
      t.stage = .idle ∧ t.socket = some 0 ∧ t.pending = [] ∧
      step t (.send [104] ⟨1100, 1000⟩ zeroNonce zeroNonce) = some t' ∧
      (∀ a ∈ acts, a.succeeds = true) ∧ run step t' acts = some u ∧ u.stage = .idle ∧
      (⟨0, [104]⟩ : Chunk) ∉ u.wrote 0 := by
  obtain ⟨t, hrun, hidle, hsocket, hpending, hcipher, hqueued, hdue⟩ :
      ∃ t : Transport LargeScreen, run step (new size80x24 none none) connected = some t ∧
        t.stage = .idle ∧ t.socket = some 0 ∧ t.pending = [] ∧ t.cipher = none ∧
        t.queued = [] ∧ (t.keyframer.feed [104] ⟨1100, 1000⟩).due :=
    ⟨_, rfl, rfl, rfl, rfl, rfl, rfl, by decide⟩
  obtain ⟨s, hs⟩ := sending_plain t.keyframer [104] ⟨1100, 1000⟩ zeroNonce zeroNonce
  obtain ⟨t', hsend⟩ : ∃ t', step t (.send [104] ⟨1100, 1000⟩ zeroNonce zeroNonce) = some t' := by
    simp only [step, hidle, enqueue_eq, hcipher, hs]
    exact ⟨_, rfl⟩
  obtain ⟨record, hsealed, ⟨acts, u, hall, hflush, hend⟩, hwritten⟩ :=
    written_iff (handed_of_run hrun) hsocket hidle hpending (by decide) (by decide) hsend
  refine ⟨t, t', u, acts, hrun, hidle, hsocket, hpending, hsend, hall, hflush, hend, ?_⟩
  have hchunk : t.next record = ⟨0, [104]⟩ := by
    rw [hcipher] at hsealed
    rw [ReplayBuffer.next, hqueued, ← Option.some.inj hsealed]
    rfl
  rw [← hchunk, hwritten acts u hall hflush hend]
  intro hfits
  -- the keyframe alone is as long as the cap
  have hle := hfits hdue largeScreen_onAlternate
  have hlong : maxBufferedBytes ≤ (sevenBit LargeScreen.redraw).length := by
    refine le_trans ?_ (length_le_sevenBit LargeScreen.redraw)
    rw [LargeScreen.redraw, List.length_append, List.length_flatten, List.map_replicate,
      List.sum_replicate_nat]
    exact Nat.le_add_left_of_le (by decide)
  have hdump : Vt.dump (t.keyframer.feed [104] ⟨1100, 1000⟩).vt = LargeScreen.redraw := rfl
  rw [hdump] at hle
  simp only [recordLength, List.length_singleton] at hle
  omega

end Transport

end Shellshare
