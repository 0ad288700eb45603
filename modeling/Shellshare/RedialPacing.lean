import Shellshare.CappedDoubling
import Shellshare.TransportAccounting

/-! How often the client redials: the failures of an outage are kept apart by the
backoff, however its operations are called and whatever the network does. -/
namespace Shellshare
open CappedDoubling TransitionRuns

/-- The wait after the `k + 1`-th failure in a row. -/
def redialWait (k : ℕ) : ℕ := delay initialBackoff maxBackoff k

theorem redialWait_succ (k : ℕ) : min (redialWait k * 2) maxBackoff = redialWait (k + 1) :=
  delay_succ (Nat.zero_le _)

namespace Transport
variable {V : Type}

/-- History: the times at which the connection was lost or a handshake failed, since a
handshake was last accepted. The last one comes first. -/
def noteFailures (t : Transport V) (a : ClientAction) (_ : Transport V) (failures : List ℕ) :
    List ℕ :=
  match a with
  | .handshake .accepted => []
  | .handshake _ => t.now :: failures
  | .write false => t.now :: failures
  | .read .dead => t.now :: failures
  | _ => failures

/-- The backoff is over, where the client is about to dial. -/
def Due (t : Transport V) : Prop :=
  ∀ caller, t.stage = .connecting caller → ∀ time, t.nextAttempt = some time → time ≤ t.now

/-- The backoff fits the failures, which had their waits between them. -/
structure Armed (t : Transport V) (failures : List ℕ) : Prop where
  spaced : Spaced redialWait failures
  backoff : t.backoff = redialWait failures.length
  never : failures = [] → t.nextAttempt = none
  next : ∀ last ∈ failures.head?,
    t.socket = none ∧ t.nextAttempt = some (last + redialWait (failures.length - 1))

/-- A piece of control flow, which may sleep: it leaves the backoff alone, and dials
only once that is over. -/
structure Drifts (t t' : Transport V) : Prop where
  socket : t'.socket = t.socket
  backoff : t'.backoff = t.backoff
  nextAttempt : t'.nextAttempt = t.nextAttempt
  due : Due t'

variable {t t' : Transport V} {failures : List ℕ}

theorem Armed.congr (h : Armed t failures) (hsocket : t'.socket = t.socket)
    (hbackoff : t'.backoff = t.backoff) (hnext : t'.nextAttempt = t.nextAttempt) :
    Armed t' failures where
  spaced := h.spaced
  backoff := hbackoff.trans h.backoff
  never hnil := hnext.trans (h.never hnil)
  next last hlast := by
    rw [hsocket, hnext]
    exact h.next last hlast

theorem drifts_enter {stage : Stage} (h : ∀ caller, stage ≠ .connecting caller) :
    Drifts t (t.enter stage) :=
  ⟨rfl, rfl, rfl, fun caller hstage => absurd hstage (h caller)⟩

theorem drifts_linger (t : Transport V) (deadline : ℕ) : Drifts t (t.linger deadline) := by
  unfold linger
  split
  · exact ⟨rfl, rfl, rfl, nofun⟩
  · exact drifts_enter nofun

theorem drifts_resume (t : Transport V) (caller : Caller) : Drifts t (t.resume caller) := by
  cases caller with
  | send => exact drifts_enter fun _ h => by cases h
  | tick =>
    simp only [resume]
    split
    · exact ⟨rfl, rfl, rfl, fun _ h => by cases h⟩
    · exact drifts_enter fun _ h => by cases h
  | shutdown => exact drifts_linger t _

theorem drifts_deliver (t : Transport V) (caller : Caller) : Drifts t (t.deliver caller) := by
  unfold deliver
  split
  · exact drifts_resume t caller
  · exact drifts_enter nofun

theorem drifts_announce (t : Transport V) (caller : Caller) : Drifts t (t.announce caller) := by
  unfold announce
  split
  · exact drifts_enter nofun
  · exact drifts_deliver t caller

theorem drifts_reconnect (t : Transport V) (caller : Caller) :
    Drifts t (t.reconnect caller) := by
  unfold reconnect
  split
  · exact drifts_announce t caller
  · split
    · exact drifts_resume t caller
    · rename_i hover
      refine ⟨rfl, rfl, rfl, fun _ _ time htime => ?_⟩
      have hnext : t.nextAttempt = some time := htime
      rw [hnext] at hover
      simpa [enter] using hover

theorem drifts_flush (t : Transport V) (caller : Caller) : Drifts t (t.flush caller) := by
  unfold flush
  split
  · exact drifts_enter nofun
  · exact drifts_reconnect t caller

/-- A failure arms the backoff for one failure more. -/
theorem Armed.fail (h : Armed t failures)
    (hover : ∀ time, t.nextAttempt = some time → time ≤ t.now)
    (hsocket : t'.socket = none) (hbackoff : t'.backoff = t.armBackoff.backoff)
    (hnext : t'.nextAttempt = t.armBackoff.nextAttempt) : Armed t' (t.now :: failures) where
  spaced := h.spaced.cons fun last hlast => hover _ (h.next last hlast).2
  backoff := by
    rw [hbackoff, List.length_cons, ← redialWait_succ, ← h.backoff]
    rfl
  never := nofun
  next last hlast := by
    obtain rfl : t.now = last := Option.some.inj hlast
    refine ⟨hsocket, ?_⟩
    rw [hnext, List.length_cons, Nat.add_sub_cancel, ← h.backoff]
    rfl

/-- With a socket no failure is on record. -/
theorem Armed.over (h : Armed t failures) (hs : t.socket.isSome = true) :
    ∀ time, t.nextAttempt = some time → time ≤ t.now := by
  intro time htime
  cases failures with
  | nil =>
    rw [h.never rfl] at htime
    cases htime
  | cons last failures =>
    rw [(h.next last rfl).1] at hs
    cases hs

/-- The invariant: with its history, and the next dial not before the backoff is over. -/
structure Paced (t : Transport V) (failures : List ℕ) : Prop where
  armed : Armed t failures
  due : Due t

theorem Drifts.paced (hdrifts : Drifts t t') (h : Armed t failures) : Paced t' failures :=
  ⟨h.congr hdrifts.socket hdrifts.backoff hdrifts.nextAttempt, hdrifts.due⟩

theorem socket_bufferSealed_foldl (records : List Bytes) (b : ReplayBuffer) :
    (records.foldl ReplayBuffer.bufferSealed b).socket = b.socket := by
  induction records generalizing b with
  | nil => rfl
  | cons record records ih => exact ih (b.bufferSealed record)

theorem armed_accepted (t : Transport V) : Armed (t.finishHandshake .accepted) [] where
  spaced := trivial
  backoff := by
    show initialBackoff = delay initialBackoff maxBackoff 0
    exact (delay_zero (by decide)).symm
  never _ := rfl
  next := nofun

theorem armed_new (size : TermSize) (theme : Option String) (cipher : Option Encryptor)
    [Vt V] : Armed (new size theme cipher : Transport V) [] :=
  ⟨trivial, (armed_accepted (new size theme cipher : Transport V)).backoff, fun _ => rfl, nofun⟩

/-- A connection that is lost. -/
theorem Armed.lost (h : Armed t failures) (hs : t.socket.isSome = true) :
    Armed t.disconnect (t.now :: failures) :=
  h.fail (h.over hs) rfl rfl rfl

/-- One turn of `drain_acks`: only a dead connection counts as a failure. -/
theorem Armed.drainTurn (h : Armed t failures) (hs : t.socket.isSome = true)
    (incoming : Incoming) (u : Transport V) :
    Armed (t.drainTurn incoming).1 (noteFailures t (.read incoming) u failures) := by
  cases incoming with
  | text body =>
    simp only [Transport.drainTurn, noteFailures]
    cases ackOf body with
    | none => exact h
    | some acked => exact h.congr rfl rfl rfl
  | other => exact h
  | quiet => exact h
  | dead => exact h.lost hs

/-- A frame that is written, or not: the rest of the operation follows. -/
theorem Armed.write (h : Armed t failures) (hs : t.socket.isSome = true) (sent : Bool)
    (u : Transport V) :
    Armed (t.write sent).2 (noteFailures t (.write sent) u failures) := by
  rw [write_of_socket hs]
  cases sent with
  | true => exact h
  | false => exact h.lost hs

theorem noteFailures_refused {outcome : Handshake} (ho : outcome ≠ .accepted) :
    noteFailures t (.handshake outcome) t' failures = t.now :: failures := by
  cases outcome with
  | accepted => exact absurd rfl ho
  | unauthorized => rfl
  | failed => rfl

variable [Vt V]

theorem stage_of_refused {outcome : Handshake} (ho : outcome ≠ .accepted)
    (hstep : t.step (.handshake outcome) = some t') : ∃ caller, t.stage = .connecting caller := by
  cases hstage : t.stage with
  | connecting caller => exact ⟨caller, rfl⟩
  | opening => cases outcome <;> simp_all [step]
  | _ => simp [step, hstage] at hstep

theorem paced_step {a : ClientAction} (h : Paced t failures) (hplaced : Placed t)
    (hstep : t.step a = some t') : Paced t' (noteFailures t a t' failures) := by
  have hsome : t.stage.connected = some true → t.socket.isSome = true := hplaced true
  cases a with
  | elapse d =>
    obtain rfl := Option.some.inj hstep
    refine ⟨h.armed.congr rfl rfl rfl, fun caller hstage time htime => ?_⟩
    exact (h.due caller hstage time htime).trans (Nat.le_add_right _ d)
  | send data size nonce keyframeNonce =>
    simp only [step] at hstep
    split at hstep
    · rw [enqueue_eq, Option.map_map] at hstep
      obtain ⟨sent, -, rfl⟩ := Option.map_eq_some_iff.mp hstep
      apply (drifts_flush _ .send).paced
      exact h.armed.congr (socket_bufferSealed_foldl sent.records t.toReplayBuffer) rfl rfl
    · cases hstep
  | tick size =>
    simp only [step] at hstep
    split at hstep
    · obtain rfl := Option.some.inj hstep
      exact (drifts_flush _ .tick).paced (h.armed.congr rfl rfl rfl)
    · cases hstep
  | shutdown =>
    simp only [step] at hstep
    split at hstep
    · obtain rfl := Option.some.inj hstep
      exact (drifts_flush t .shutdown).paced h.armed
    · cases hstep
  | handshake outcome =>
    by_cases ho : outcome = .accepted
    · subst ho
      simp only [step] at hstep
      split at hstep
      · obtain rfl := Option.some.inj hstep
        refine (drifts_enter ?_).paced (armed_accepted t)
        exact fun _ h => by cases h
      · obtain rfl := Option.some.inj hstep
        exact (drifts_announce _ _).paced (armed_accepted t)
      · rename_i hne
        exact absurd rfl hne
      · cases hstep
    · obtain ⟨caller, hstage⟩ := stage_of_refused ho hstep
      obtain ⟨caller', rfl⟩ := step_refused ho hstep
      have hnone : t.socket = none := socket_eq_none (hplaced false (by rw [hstage]; rfl))
      have hfailed : Armed t.armBackoff (t.now :: failures) :=
        h.armed.fail (h.due caller hstage) hnone rfl rfl
      rw [finishHandshake_of_ne ho, noteFailures_refused ho]
      exact (drifts_resume _ caller').paced hfailed
  | write sent =>
    simp only [step] at hstep
    split at hstep
    · rename_i hstage
      obtain rfl := Option.some.inj hstep
      refine (drifts_enter ?_).paced (h.armed.write (hsome (by rw [hstage]; rfl)) sent t)
      exact fun _ h => by cases h
    · rename_i caller hstage
      obtain rfl := Option.some.inj hstep
      have hwritten := h.armed.write (hsome (by rw [hstage]; rfl)) sent t
      split
      · exact (drifts_deliver _ caller).paced (hwritten.congr rfl rfl rfl)
      · exact (drifts_resume _ caller).paced hwritten
    · rename_i caller hstage
      have hs := hsome (by rw [hstage]; rfl)
      unfold writeFront at hstep
      split at hstep
      · cases hstep
      · rename_i chunk rest hpending
        obtain rfl := Option.some.inj hstep
        have hhand : (t.hand chunk).socket = t.socket := by rw [ReplayBuffer.hand_eq]
        have hhanded : Armed { t with toReplayBuffer := t.hand chunk } failures :=
          h.armed.congr hhand rfl rfl
        have hwritten := hhanded.write (hhand ▸ hs) sent t
        split
        · exact (drifts_deliver _ caller).paced (hwritten.congr rfl rfl rfl)
        · exact (drifts_resume _ caller).paced hwritten
    · rename_i hstage
      obtain rfl := Option.some.inj hstep
      refine (drifts_enter ?_).paced (h.armed.write (hsome (by rw [hstage]; rfl)) sent t)
      exact fun _ h => by cases h
    · cases hstep
  | read incoming =>
    have hread : ∀ next : Transport V → Transport V, (∀ u, Drifts u (next u)) →
        t.stage.connected = some true →
          t' = (if (t.drainTurn incoming).2 then (t.drainTurn incoming).1
            else next (t.drainTurn incoming).1) →
          Paced t' (noteFailures t (.read incoming) t' failures) := by
      intro next hnext hstage ht'
      have hs := hsome hstage
      have harmed := h.armed.drainTurn hs incoming t'
      obtain ⟨-, -, hkept⟩ := moves_drainTurn (socket_ne_none hs) incoming
      rw [ht'] at harmed ⊢
      split
      · rename_i hmore
        rw [if_pos hmore] at harmed
        refine ⟨harmed, fun caller hcaller => ?_⟩
        rw [(hkept hmore).2] at hcaller
        rw [hcaller] at hstage
        cases hstage
      · rename_i hover
        rw [if_neg hover] at harmed
        exact (hnext _).paced harmed
    simp only [step] at hstep
    split at hstep
    · rename_i caller hstage
      obtain rfl := Option.some.inj hstep
      exact hread (·.reconnect caller) (drifts_reconnect · caller) (by rw [hstage]; rfl) rfl
    · rename_i deadline hstage
      obtain rfl := Option.some.inj hstep
      exact hread (·.linger deadline) (drifts_linger · deadline) (by rw [hstage]; rfl) rfl
    · cases hstep
  | close =>
    simp only [step] at hstep
    split at hstep
    · obtain rfl := Option.some.inj hstep
      refine ⟨⟨h.armed.spaced, h.armed.backoff, h.armed.never, ?_⟩, fun _ h => by cases h⟩
      exact fun last hlast => ⟨rfl, (h.armed.next last hlast).2⟩
    · cases hstep

theorem paced_of_run {size : TermSize} {theme : Option String} {cipher : Option Encryptor}
    {as : List ClientAction} {p : Transport V × List ℕ}
    (hrun : run (withHistory step noteFailures) (new size theme cipher, []) as = some p) :
    Paced p.1 p.2 := by
  have hnew : Paced (new size theme cipher : Transport V) [] :=
    ⟨armed_new size theme cipher, nofun⟩
  have hstep : ∀ (p : Transport V × List ℕ) a p', Placed p.1 ∧ Paced p.1 p.2 →
      withHistory step noteFailures p a = some p' → Placed p'.1 ∧ Paced p'.1 p'.2 := by
    rintro ⟨t, failures⟩ a ⟨t', failures'⟩ ⟨hplaced, hpaced⟩ h
    obtain ⟨htransport, hnote⟩ := withHistory_eq_some.mp h
    dsimp only at htransport hnote
    subst hnote
    exact ⟨(step_moves hplaced htransport).placed, paced_step hpaced hplaced htransport⟩
  exact (run_preserves hstep ⟨placed_new size theme cipher, hnew⟩ hrun).2

/-- The client dials again no earlier than all the waits since the outage began: 250 ms,
twice as long after each failure, up to 5 s. Once the last of them is over, the next
tick dials. -/
theorem redials_back_off {size : TermSize} {theme : Option String} {cipher : Option Encryptor}
    {as : List ClientAction} {t : Transport V} {failures : List ℕ}
    (hrun : run (withHistory step noteFailures) (new size theme cipher, []) as =
      some (t, failures)) :
    (∀ caller first, t.stage = .connecting caller → failures.getLast? = some first →
      first + ∑ k ∈ Finset.range failures.length, redialWait k ≤ t.now) ∧
    (t.stage = .idle → t.socket = none →
      (∀ last, failures.head? = some last →
        last + redialWait (failures.length - 1) ≤ t.now) →
      ∀ size, ∃ t', t.step (.tick size) = some t' ∧ t'.stage = .connecting .tick) := by
  obtain ⟨harmed, hdue⟩ := paced_of_run hrun
  constructor
  · intro caller first hstage hfirst
    cases failures with
    | nil => cases hfirst
    | cons last failures =>
      calc first + ∑ k ∈ Finset.range (failures.length + 1), redialWait k
          = first + ∑ k ∈ Finset.range failures.length, redialWait k
              + redialWait failures.length := by rw [Finset.sum_range_succ, Nat.add_assoc]
        _ ≤ last + redialWait failures.length :=
          Nat.add_le_add_right (harmed.spaced.sum_le hfirst) _
        _ ≤ t.now := hdue caller hstage _ (harmed.next last rfl).2
  · intro hidle hnone hover size
    have hready : t.nextAttempt.any (t.now < ·) = false := by
      cases failures with
      | nil => rw [harmed.never rfl, Option.any_none]
      | cons last failures =>
        rw [(harmed.next last rfl).2, Option.any_some]
        exact decide_eq_false (Nat.not_lt.mpr (hover last rfl))
    refine ⟨enter { t with size := size } (.connecting .tick), ?_, rfl⟩
    simp [step, hidle, flush, reconnect, hnone, hready]

/-- The connection is lost a second after it came up, and the first two redials fail. -/
def twoFailedRedials : List ClientAction :=
  [.handshake .accepted, .write true, .elapse 1000, .tick size80x24, .read .quiet, .write false,
    .elapse 250, .tick size80x24, .handshake .failed, .elapse 499, .tick size80x24, .elapse 1,
    .tick size80x24, .handshake .failed, .elapse 1000, .tick size80x24]

theorem redials_back_off_twice :
    ∃ t : Transport Blank,
      run (withHistory (step (V := Blank)) noteFailures) (new size80x24 none none, [])
        twoFailedRedials = some (t, [1750, 1250, 1000]) ∧
      t.stage = .connecting .tick ∧ t.now = 2750 ∧
      1000 + ∑ k ∈ Finset.range 3, redialWait k ≤ t.now := by
  obtain ⟨t, hrun, hstage, hnow⟩ : ∃ t : Transport Blank,
      run (withHistory (step (V := Blank)) noteFailures) (new size80x24 none none, [])
        twoFailedRedials = some (t, [1750, 1250, 1000]) ∧
      t.stage = .connecting .tick ∧ t.now = 2750 := ⟨_, rfl, rfl, rfl⟩
  exact ⟨t, hrun, hstage, hnow, (redials_back_off hrun).1 .tick 1000 hstage rfl⟩

end Transport

end Shellshare
