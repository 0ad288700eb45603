import Shellshare.CappedDoubling
import Shellshare.Dial
import Shellshare.Transport
import Shellshare.TransitionReach

/-! One connection attempt of the client, from its request to the upgraded socket. The
upgrade is polled on a non-blocking stream, so that one deadline covers all of it. Instants
and durations are in nanoseconds. -/
namespace Shellshare
open CappedDoubling TransitionRuns

def handshakeTimeout : ℕ := 10 * 10 ^ 9

def handshakePoll : ℕ := 5 * 10 ^ 6

/-- How long the first wait for a stalled peer is. -/
def firstIdle : ℕ := 200 * 10 ^ 3

/-- What a call of the upgrade returns; it does not block. -/
inductive UpgradeAttempt where
  | ok
  /-- the server's answer was not an upgrade -/
  | http (status : ℕ) (text : String)
  | failure (text : String)
  /-- nothing to read or write yet -/
  | interrupted

inductive HandshakePhase (Addr : Type) where
  | dialing (d : Dialing Addr)
  /-- about to make the stream non-blocking -/
  | connected
  /-- about to call the upgrade, or to call it again -/
  | attempting
  /-- about to make the socket blocking again -/
  | restoring
  | returned (result : Except TransportError Unit)

/-- A run of `handshake`. What it reads is above `dialed`; from there on it is the record of
the run: the time spent in dial attempts and asleep, the time that passed besides, and when
an interrupted call was slept on, the last time first. -/
structure ClientHandshake (Addr : Type) where
  target : DialTarget
  phase : HandshakePhase Addr
  now : ℕ
  deadline : ℕ
  idle : ℕ
  dialed : ℕ
  slept : ℕ
  elapsed : ℕ
  polls : List ℕ

inductive HandshakeAction where
  | elapse (ns : ℕ)
  | dial (a : DialAction)
  | setNonblocking (result : Except String Unit)
  | attempt (outcome : UpgradeAttempt)
  | setBlocking (result : Except Unit Unit)

/-- Time that passes between two calls. -/
def HandshakeAction.idles : HandshakeAction → Bool
  | .elapse _ | .dial (.elapse _) => true
  | _ => false

/-- The turns and the attempts that a dial has left. -/
def Dialing.callsLeft {Addr : Type} (d : Dialing Addr) : ℕ :=
  match d.phase with
  | .top => 2 * d.addrs.length + 1
  | .connecting _ _ => 2 * d.addrs.length + 2
  | _ => 0

/-- The calls that a phase has left, but for those that are interrupted. -/
def HandshakePhase.callsLeft {Addr : Type} : HandshakePhase Addr → ℕ
  | .dialing d => d.callsLeft + 3
  | .connected => 3
  | .attempting => 2
  | .restoring => 1
  | .returned _ => 0

def noHandshakeResponse : TransportError :=
  .connect ("no handshake response after " ++ toString (handshakeTimeout / 10 ^ 9) ++ "s")

namespace ClientHandshake
variable {Addr : Type}

def start (target : DialTarget) (d : Dialing Addr) : ClientHandshake Addr :=
  { target := target
    phase := .dialing d
    now := d.now
    deadline := 0
    idle := 0
    dialed := 0
    slept := 0
    elapsed := 0
    polls := [] }

/-- `handshake` up to the loop of its dial. The URL and the password come parsed: the one as
a request, the other as a header value. -/
def handshake (intoClientRequest : Except String Uri) (headerValue : Except String Unit)
    (toSocketAddrs : DialTarget → Except String (List Addr)) (now : ℕ) :
    Except TransportError (ClientHandshake Addr) :=
  match intoClientRequest, headerValue with
  | .error e, _ => .error (.connect e)
  | .ok _, .error e => .error (.connect ("invalid password: " ++ e))
  | .ok uri, .ok () => match Dialing.dial toSocketAddrs uri now with
    | .error e => .error e
    | .ok (target, d) => .ok (start target d)

def enter (s : ClientHandshake Addr) (phase : HandshakePhase Addr) : ClientHandshake Addr :=
  { s with phase := phase }

def fail (s : ClientHandshake Addr) (e : TransportError) : ClientHandshake Addr :=
  s.enter (.returned (.error e))

/-- The dial goes on, until it returns. -/
def dialing (s : ClientHandshake Addr) (d : Dialing Addr) : ClientHandshake Addr :=
  { s with
    phase := match d.result s.target with
      | none => .dialing d
      | some (.error e) => .returned (.error e)
      | some (.ok _) => .connected
    now := d.now
    dialed := d.took.sum
    elapsed := d.idle }

/-- One turn of the loop around the upgrade, with what the call in it returned. -/
def attempt (s : ClientHandshake Addr) : UpgradeAttempt → ClientHandshake Addr
  | .ok => s.enter .restoring
  | .http status text => s.fail (if status = 401 then .unauthorized else .connect text)
  | .failure text => s.fail (.connect text)
  | .interrupted =>
    -- the deadline is looked at before the sleep, which may outlast it
    if s.deadline ≤ s.now then s.fail noHandshakeResponse
    else
      { s with
        now := s.now + s.idle
        slept := s.slept + s.idle
        idle := min (s.idle * 2) handshakePoll
        polls := s.now :: s.polls }

def step (s : ClientHandshake Addr) : HandshakeAction → Option (ClientHandshake Addr)
  | .elapse ns => match s.phase with
    | .dialing _ => none
    | _ => some { s with now := s.now + ns, elapsed := s.elapsed + ns }
  | .dial a => match s.phase with
    | .dialing d => (Dialing.step d a).map s.dialing
    | _ => none
  | .setNonblocking result => match s.phase, result with
    | .connected, .ok () =>
      some { s with
        phase := .attempting
        deadline := s.now + handshakeTimeout
        idle := firstIdle }
    | .connected, .error e => some (s.fail (.connect e))
    | _, _ => none
  | .attempt outcome => match s.phase with
    | .attempting => some (s.attempt outcome)
    | _ => none
  | .setBlocking result => match s.phase, result with
    | .restoring, .ok () => some (s.enter (.returned (.ok ())))
    | .restoring, .error () => some (s.fail (.connect "cannot restore socket"))
    | _, _ => none

variable {s s' : ClientHandshake Addr} {begin : ℕ}

/-- What a step does. -/
inductive Stepped (s : ClientHandshake Addr) : HandshakeAction → ClientHandshake Addr → Prop where
  | elapse (ns : ℕ) (hphase : ∀ d, s.phase ≠ .dialing d) :
      Stepped s (.elapse ns) { s with now := s.now + ns, elapsed := s.elapsed + ns }
  | dial {d d' : Dialing Addr} (a : DialAction) (hphase : s.phase = .dialing d)
      (hdial : Dialing.step d a = some d') : Stepped s (.dial a) (s.dialing d')
  | nonblocking (hphase : s.phase = .connected) :
      Stepped s (.setNonblocking (.ok ()))
        { s with
          phase := .attempting
          deadline := s.now + handshakeTimeout
          idle := firstIdle }
  | blocking (e : String) (hphase : s.phase = .connected) :
      Stepped s (.setNonblocking (.error e)) (s.fail (.connect e))
  | upgraded (hphase : s.phase = .attempting) : Stepped s (.attempt .ok) (s.enter .restoring)
  | refused (status : ℕ) (text : String) (hphase : s.phase = .attempting) :
      Stepped s (.attempt (.http status text))
        (s.fail (if status = 401 then .unauthorized else .connect text))
  | failed (text : String) (hphase : s.phase = .attempting) :
      Stepped s (.attempt (.failure text)) (s.fail (.connect text))
  | late (hphase : s.phase = .attempting) (hlate : s.deadline ≤ s.now) :
      Stepped s (.attempt .interrupted) (s.fail noHandshakeResponse)
  | interrupted (hphase : s.phase = .attempting) (hearly : s.now < s.deadline) :
      Stepped s (.attempt .interrupted)
        { s with
          now := s.now + s.idle
          slept := s.slept + s.idle
          idle := min (s.idle * 2) handshakePoll
          polls := s.now :: s.polls }
  | restored (hphase : s.phase = .restoring) :
      Stepped s (.setBlocking (.ok ())) (s.enter (.returned (.ok ())))
  | stuck (hphase : s.phase = .restoring) :
      Stepped s (.setBlocking (.error ())) (s.fail (.connect "cannot restore socket"))

theorem stepped_of_step {a : HandshakeAction} (hstep : step s a = some s') : Stepped s a s' := by
  cases a with
  | elapse ns =>
    simp only [step] at hstep
    split at hstep
    · cases hstep
    · rename_i hphase
      obtain rfl := Option.some.inj hstep
      exact .elapse ns hphase
  | dial a =>
    simp only [step] at hstep
    split at hstep
    · rename_i d hphase
      obtain ⟨d', hdial, rfl⟩ := Option.map_eq_some_iff.mp hstep
      exact .dial a hphase hdial
    · cases hstep
  | setNonblocking result =>
    simp only [step] at hstep
    split at hstep
    · rename_i hphase
      obtain rfl := Option.some.inj hstep
      exact .nonblocking hphase
    · rename_i e hphase
      obtain rfl := Option.some.inj hstep
      exact .blocking e hphase
    · cases hstep
  | attempt outcome =>
    simp only [step] at hstep
    split at hstep
    · rename_i hphase
      obtain rfl := Option.some.inj hstep
      cases outcome with
      | ok => exact .upgraded hphase
      | http status text => exact .refused status text hphase
      | failure text => exact .failed text hphase
      | interrupted =>
        by_cases hlate : s.deadline ≤ s.now
        · rw [attempt, if_pos hlate]
          exact .late hphase hlate
        · rw [attempt, if_neg hlate]
          exact .interrupted hphase (Nat.lt_of_not_le hlate)
    · cases hstep
  | setBlocking result =>
    simp only [step] at hstep
    split at hstep
    · rename_i hphase
      obtain rfl := Option.some.inj hstep
      exact .restored hphase
    · rename_i hphase
      obtain rfl := Option.some.inj hstep
      exact .stuck hphase
    · cases hstep

/-- What is left to say of a handshake once the stream is non-blocking: each sleep began
before the deadline, and was as long as its place among them has it. -/
structure Polling (s : ClientHandshake Addr) : Prop where
  idle : s.idle = delay firstIdle handshakePoll s.polls.length
  slept : s.deadline + s.slept ≤ s.now + handshakeTimeout
  rested : ∀ last ∈ s.polls.head?,
    last + delay firstIdle handshakePoll (s.polls.length - 1) ≤ s.now

/-- The invariant of `handshake`. -/
structure Bounded (begin : ℕ) (s : ClientHandshake Addr) : Prop where
  clock : s.now = begin + s.elapsed + s.dialed + s.slept
  dialing : ∀ d, s.phase = .dialing d → d.result s.target = none ∧
    Dialing.SharesBudget begin d ∧ s.now = d.now ∧ s.dialed = d.took.sum ∧
    s.elapsed = d.idle ∧ s.slept = 0 ∧ s.polls = []
  connected : s.phase = .connected → s.slept = 0 ∧ s.polls = []
  polling : s.phase = .attempting → Polling s
  dialed : s.dialed ≤ dialTimeout
  slept : s.slept ≤ handshakeTimeout + handshakePoll
  spaced : Spaced (delay firstIdle handshakePoll) s.polls
  began : ∀ first ∈ s.polls.getLast?, s.deadline ≤ first + handshakeTimeout
  ended : ∀ last ∈ s.polls.head?, last < s.deadline

theorem bounded_start (target : DialTarget) (addrs : List Addr) :
    Bounded begin (start target (Dialing.start addrs begin)) where
  clock := rfl
  dialing := by
    rintro d ⟨⟩
    exact ⟨rfl, Dialing.sharesBudget_start addrs begin, rfl, rfl, rfl, rfl, rfl⟩
  connected := nofun
  polling := nofun
  dialed := Nat.zero_le _
  slept := Nat.zero_le _
  spaced := trivial
  began := nofun
  ended := nofun

/-- A phase that neither dials nor polls leaves only the record to look at. -/
theorem Bounded.enter (h : Bounded begin s) {phase : HandshakePhase Addr}
    (hd : ∀ d, phase ≠ .dialing d) (hc : phase ≠ .connected) (ha : phase ≠ .attempting) :
    Bounded begin (s.enter phase) where
  clock := h.clock
  dialing d hphase := absurd hphase (hd d)
  connected hphase := absurd hphase hc
  polling hphase := absurd hphase ha
  dialed := h.dialed
  slept := h.slept
  spaced := h.spaced
  began := h.began
  ended := h.ended

theorem Bounded.fail (h : Bounded begin s) (e : TransportError) : Bounded begin (s.fail e) :=
  h.enter nofun nofun nofun

/-- A step of the dial: it spends of the dial's own budget. -/
theorem Bounded.dialed_step (h : Bounded begin s) {d d' : Dialing Addr}
    (hphase : s.phase = .dialing d) {a : DialAction} (hstep : Dialing.step d a = some d') :
    Bounded begin (s.dialing d') := by
  obtain ⟨-, hshares, -, -, -, hslept, hpolls⟩ := h.dialing d hphase
  have hshares' := Dialing.sharesBudget_step hshares hstep
  constructor
  · show d'.now = begin + d'.idle + d'.took.sum + s.slept
    rw [hshares'.clock, hslept, Nat.add_zero]
  · intro d'' hd''
    obtain ⟨rfl, hnone⟩ : d' = d'' ∧ d'.result s.target = none := by
      simp only [ClientHandshake.dialing] at hd''
      split at hd'' <;> simp_all
    exact ⟨hnone, hshares', rfl, rfl, rfl, hslept, hpolls⟩
  · exact fun _ => ⟨hslept, hpolls⟩
  · intro hattempting
    simp only [ClientHandshake.dialing] at hattempting
    split at hattempting <;> cases hattempting
  · exact (Nat.le_add_right _ _).trans hshares'.committed_le
  · exact h.slept
  · exact h.spaced
  · intro first hfirst
    have hnone : (s.dialing d').polls = [] := hpolls
    rw [hnone] at hfirst
    cases hfirst
  · intro last hlast
    have hnone : (s.dialing d').polls = [] := hpolls
    rw [hnone] at hlast
    cases hlast

/-- Time that passes between two calls. -/
theorem Bounded.elapse (h : Bounded begin s) (hphase : ∀ d, s.phase ≠ .dialing d) (ns : ℕ) :
    Bounded begin { s with now := s.now + ns, elapsed := s.elapsed + ns } where
  clock := by
    show s.now + ns = begin + (s.elapsed + ns) + s.dialed + s.slept
    rw [h.clock]
    omega
  dialing d hd := absurd hd (hphase d)
  connected := h.connected
  polling hattempting := by
    obtain ⟨hidle, hslept, hrested⟩ := h.polling hattempting
    refine ⟨hidle, ?_, fun last hlast => (hrested last hlast).trans (Nat.le_add_right _ ns)⟩
    show s.deadline + s.slept ≤ s.now + ns + handshakeTimeout
    omega
  dialed := h.dialed
  slept := h.slept
  spaced := h.spaced
  began := h.began
  ended := h.ended

/-- The polling starts with its deadline ahead and nothing slept. -/
theorem Bounded.nonblocking (h : Bounded begin s) (hphase : s.phase = .connected) :
    Bounded begin ({ s with
      phase := .attempting
      deadline := s.now + handshakeTimeout
      idle := firstIdle } : ClientHandshake Addr) := by
  obtain ⟨hslept, hpolls⟩ := h.connected hphase
  constructor
  · exact h.clock
  · nofun
  · nofun
  · intro _
    constructor
    · show firstIdle = delay firstIdle handshakePoll s.polls.length
      rw [hpolls]
      exact (delay_zero (by decide)).symm
    · show s.now + handshakeTimeout + s.slept ≤ s.now + handshakeTimeout
      omega
    · intro last hlast
      rw [hpolls] at hlast
      cases hlast
  · exact h.dialed
  · exact h.slept
  · exact h.spaced
  · intro first hfirst
    rw [hpolls] at hfirst
    cases hfirst
  · intro last hlast
    rw [hpolls] at hlast
    cases hlast

/-- A call is interrupted before the deadline: the sleep after it may outlast the deadline,
but by no more than its own length. -/
theorem Bounded.interrupted (h : Bounded begin s) (hphase : s.phase = .attempting)
    (hearly : s.now < s.deadline) :
    Bounded begin { s with
      now := s.now + s.idle
      slept := s.slept + s.idle
      idle := min (s.idle * 2) handshakePoll
      polls := s.now :: s.polls } := by
  obtain ⟨hidle, hslept, hrested⟩ := h.polling hphase
  have hpoll : s.idle ≤ handshakePoll := hidle ▸ delay_le_cap
  constructor
  · show s.now + s.idle = begin + s.elapsed + s.dialed + (s.slept + s.idle)
    rw [h.clock]
    omega
  · intro d hd
    exact absurd (hphase.symm.trans hd) nofun
  · intro hconnected
    exact absurd (hphase.symm.trans hconnected) nofun
  · intro _
    constructor
    · show min (s.idle * 2) handshakePoll = delay firstIdle handshakePoll (s.polls.length + 1)
      rw [hidle]
      exact delay_succ (Nat.zero_le _)
    · show s.deadline + (s.slept + s.idle) ≤ s.now + s.idle + handshakeTimeout
      omega
    · intro last hlast
      obtain rfl : s.now = last := Option.some.inj hlast
      show s.now + delay firstIdle handshakePoll s.polls.length ≤ s.now + s.idle
      rw [hidle]
  · exact h.dialed
  · show s.slept + s.idle ≤ handshakeTimeout + handshakePoll
    omega
  · exact h.spaced.cons hrested
  · intro first hfirst
    cases hpolls : s.polls with
    | nil =>
      simp only [hpolls, List.getLast?_singleton, Option.mem_def, Option.some.injEq] at hfirst
      show s.deadline ≤ first + handshakeTimeout
      omega
    | cons last polls =>
      apply h.began
      simpa [hpolls] using hfirst
  · intro last hlast
    obtain rfl : s.now = last := Option.some.inj hlast
    exact hearly

theorem bounded_step {a : HandshakeAction} (h : Bounded begin s) (hstep : step s a = some s') :
    Bounded begin s' := by
  cases stepped_of_step hstep with
  | elapse ns hphase => exact h.elapse hphase ns
  | dial a hphase hdial => exact h.dialed_step hphase hdial
  | nonblocking hphase => exact h.nonblocking hphase
  | interrupted hphase hearly => exact h.interrupted hphase hearly
  | upgraded => exact h.enter nofun nofun nofun
  | restored => exact h.enter nofun nofun nofun
  | blocking | refused | failed | late | stuck => exact h.fail _

/-- The waits soon reach their cap, so the calls between two deadlines are few. -/
theorem Bounded.length_polls_le (h : Bounded begin s) : s.polls.length ≤ 2005 := by
  cases hpolls : s.polls with
  | nil => exact Nat.zero_le _
  | cons last polls =>
    obtain ⟨first, hfirst⟩ : ∃ first, s.polls.getLast? = some first := by
      rw [hpolls]
      exact ⟨_, List.getLast?_eq_getLast_of_ne_nil (List.cons_ne_nil last polls)⟩
    have hbegan := h.began first hfirst
    have hended := h.ended last (by rw [hpolls]; rfl)
    have hspaced := h.spaced
    rw [hpolls] at hspaced hfirst
    -- all sleeps but the last one ended before the deadline
    have hsum := hspaced.sum_le hfirst
    have hcapped : ∀ j, 5 ≤ j → handshakePoll ≤ delay firstIdle handshakePoll j :=
      fun j hj => (delay_eq_cap (Nat.zero_le _) (by decide) hj).ge
    have hmany := nsmul_le_sum (n := polls.length) (fun j => Nat.zero_le _) hcapped
    rw [Nat.nsmul_eq_mul] at hmany
    have htotal : (polls.length - 5) * handshakePoll < handshakeTimeout := by omega
    have hcount : polls.length - 5 < 2000 := by
      apply Nat.lt_of_mul_lt_mul_right (a := handshakePoll)
      calc (polls.length - 5) * handshakePoll < handshakeTimeout := htotal
        _ = 2000 * handshakePoll := by decide
    rw [List.length_cons]
    omega

theorem callsLeft_turn {d : Dialing Addr} (htop : d.phase = .top) :
    d.turn.callsLeft + 1 ≤ d.callsLeft := by
  have hleft : d.callsLeft = 2 * d.addrs.length + 1 := by rw [Dialing.callsLeft, htop]
  rw [hleft]
  unfold Dialing.turn
  cases haddrs : d.addrs with
  | nil => exact le_rfl
  | cons addr addrs =>
    dsimp only
    rw [List.length_cons]
    split
    · split_ifs
      · exact Nat.le_add_left _ _
      · show 2 * addrs.length + 2 + 1 ≤ 2 * (addrs.length + 1) + 1
        omega
    · exact Nat.le_add_left _ _

theorem callsLeft_returned {d : Dialing Addr} {addr : Addr} {timeout : ℕ}
    (hconnecting : d.phase = .connecting addr timeout) (took : ℕ) (result : Except String Unit) :
    (d.returned addr took result).callsLeft + 1 ≤ d.callsLeft := by
  have hleft : d.callsLeft = 2 * d.addrs.length + 2 := by rw [Dialing.callsLeft, hconnecting]
  rw [hleft]
  cases result with
  | ok _ => exact Nat.le_add_left _ _
  | error e => exact le_rfl

/-- A step of a dial, which may be time that passes. -/
theorem callsLeft_dial {d d' : Dialing Addr} {a : DialAction} (hdial : Dialing.step d a = some d') :
    (!(HandshakeAction.dial a).idles).toNat + d'.callsLeft ≤ d.callsLeft := by
  cases a with
  | elapse ns =>
    obtain rfl := Option.some.inj hdial
    exact (Nat.zero_add _).le
  | turn =>
    simp only [Dialing.step] at hdial
    split at hdial
    · rename_i htop
      obtain rfl := Option.some.inj hdial
      exact (Nat.add_comm _ _).le.trans (callsLeft_turn htop)
    · cases hdial
  | returned took result =>
    simp only [Dialing.step] at hdial
    split at hdial
    · rename_i addr timeout hconnecting
      split_ifs at hdial
      obtain rfl := Option.some.inj hdial
      exact (Nat.add_comm _ _).le.trans (callsLeft_returned hconnecting took result)
    · cases hdial

/-- What every call of a handshake takes something from. -/
def callsLeft (s : ClientHandshake Addr) : ℕ := 2005 - s.polls.length + s.phase.callsLeft

theorem callsLeft_of_phase (hpolls : s'.polls = s.polls)
    (h : s'.phase.callsLeft + 1 ≤ s.phase.callsLeft) : 1 + s'.callsLeft ≤ s.callsLeft := by
  rw [callsLeft, callsLeft, hpolls]
  omega

/-- A dial that is over leaves fewer calls than one that goes on. -/
theorem callsLeft_dialing (s : ClientHandshake Addr) (d : Dialing Addr) :
    (s.dialing d).phase.callsLeft ≤ d.callsLeft + 3 := by
  simp only [dialing]
  cases d.result s.target with
  | none => exact le_rfl
  | some result =>
    cases result with
    | ok _ => exact Nat.le_add_left _ _
    | error e => exact Nat.zero_le _

theorem callsLeft_dialed {d d' : Dialing Addr} {calls : ℕ} (hphase : s.phase = .dialing d)
    (h : calls + d'.callsLeft ≤ d.callsLeft) : calls + (s.dialing d').callsLeft ≤ s.callsLeft := by
  have hleft := callsLeft_dialing s d'
  show calls + (2005 - s.polls.length + (s.dialing d').phase.callsLeft) ≤ _
  rw [callsLeft, hphase, HandshakePhase.callsLeft]
  omega

/-- A call leaves fewer calls to come. -/
theorem callsLeft_step {a : HandshakeAction} (h : Bounded begin s) (hstep : step s a = some s') :
    (!a.idles).toNat + s'.callsLeft ≤ s.callsLeft := by
  have hpolls := (bounded_step h hstep).length_polls_le
  cases stepped_of_step hstep with
  | elapse ns => exact (Nat.zero_add _).le
  | dial a hphase hdial => exact callsLeft_dialed hphase (callsLeft_dial hdial)
  | interrupted hphase =>
    -- one more of the calls that can be interrupted
    simp only [List.length_cons] at hpolls
    simp only [callsLeft, List.length_cons, HandshakeAction.idles, Bool.not_false, Bool.toNat_true]
    omega
  | nonblocking hphase => exact callsLeft_of_phase rfl (by rw [hphase]; exact le_rfl)
  | blocking e hphase => exact callsLeft_of_phase rfl (by rw [hphase]; exact Nat.le_add_left 1 2)
  | upgraded hphase => exact callsLeft_of_phase rfl (by rw [hphase]; exact le_rfl)
  | refused _ _ hphase | failed _ hphase | late hphase =>
    exact callsLeft_of_phase rfl (by rw [hphase]; exact Nat.le_add_left 1 1)
  | restored hphase => exact callsLeft_of_phase rfl (by rw [hphase]; exact le_rfl)
  | stuck hphase => exact callsLeft_of_phase rfl (by rw [hphase]; exact le_rfl)

/-- Until it returns, a handshake has a call to make, or one that it waits for. -/
theorem Bounded.exists_call (h : Bounded begin s) :
    (∃ result, s.phase = .returned result) ∨ ∃ a s', a.idles = false ∧ step s a = some s' := by
  cases hphase : s.phase with
  | dialing d =>
    obtain ⟨hresult, hshares, -⟩ := h.dialing d hphase
    cases hd : d.phase with
    | top =>
      exact Or.inr ⟨.dial .turn, s.dialing d.turn, rfl, by simp [step, hphase, Dialing.step, hd]⟩
    | connecting addr timeout =>
      exact Or.inr ⟨.dial (.returned 0 (.ok ())), s.dialing (d.returned addr 0 (.ok ())), rfl,
        by simp [step, hphase, Dialing.step, hd]⟩
    | connected addr => simp [Dialing.result, hd] at hresult
    | exhausted => simp [Dialing.result, hd] at hresult
    | panicked => exact absurd hd hshares.sound
  | connected => exact Or.inr ⟨.setNonblocking (.ok ()), _, rfl, by simp only [step, hphase]; rfl⟩
  | attempting => exact Or.inr ⟨.attempt .ok, s.attempt .ok, rfl, by rw [step, hphase]⟩
  | restoring => exact Or.inr ⟨.setBlocking (.ok ()), _, rfl, by simp only [step, hphase]; rfl⟩
  | returned result => exact Or.inl ⟨result, rfl⟩

theorem result_connect {target : DialTarget} {d : Dialing Addr} {e : TransportError}
    (h : d.result target = some (.error e)) : ∃ msg, e = .connect msg := by
  unfold Dialing.result at h
  split at h
  · cases h
  · obtain rfl := Except.error.inj (Option.some.inj h)
    exact ⟨_, rfl⟩
  · cases h

/-- Only a 401 makes a handshake return that the room is another password's. -/
theorem unauthorized_of_step {a : HandshakeAction} (hstep : step s a = some s')
    (hreturned : s'.phase = .returned (.error .unauthorized)) :
    s.phase = .returned (.error .unauthorized) ∨ ∃ text, a = .attempt (.http 401 text) := by
  cases stepped_of_step hstep with
  | elapse | interrupted => exact Or.inl hreturned
  | dial a hphase hdial =>
    simp only [dialing] at hreturned
    split at hreturned
    · cases hreturned
    · rename_i e hresult
      obtain ⟨msg, rfl⟩ := result_connect hresult
      cases hreturned
    · cases hreturned
  | refused status text =>
    by_cases hstatus : status = 401
    · subst hstatus
      exact Or.inr ⟨text, rfl⟩
    · simp [fail, enter, hstatus] at hreturned
  | nonblocking | blocking | upgraded | failed | late | restored | stuck => cases hreturned

theorem unauthorized_of_run {as : List HandshakeAction} (hrun : run step s as = some s')
    (hreturned : s'.phase = .returned (.error .unauthorized)) :
    s.phase = .returned (.error .unauthorized) ∨ ∃ text, .attempt (.http 401 text) ∈ as := by
  induction as generalizing s with
  | nil =>
    obtain rfl : s = s' := Option.some.inj hrun
    exact Or.inl hreturned
  | cons a as ih =>
    obtain ⟨u, hstep, hrun⟩ := run_cons_eq_some.mp hrun
    rcases ih hrun with hu | ⟨text, hmem⟩
    · rcases unauthorized_of_step hstep hu with hs | ⟨text, rfl⟩
      · exact Or.inl hs
      · exact Or.inr ⟨text, List.mem_cons_self⟩
    · exact Or.inr ⟨text, List.mem_cons_of_mem a hmem⟩

variable {intoClientRequest : Except String Uri} {headerValue : Except String Unit}
  {toSocketAddrs : DialTarget → Except String (List Addr)}

theorem handshake_eq_ok (h : handshake intoClientRequest headerValue toSocketAddrs begin = .ok s) :
    ∃ target addrs, toSocketAddrs target = .ok addrs ∧
      s = start target (Dialing.start addrs begin) := by
  unfold handshake at h
  split at h
  · cases h
  · cases h
  · split at h
    · cases h
    · rename_i target d hdial
      obtain ⟨addrs, haddrs, rfl⟩ := Dialing.dial_eq_ok hdial
      exact ⟨target, addrs, haddrs, (Except.ok.inj h).symm⟩

/-- What goes wrong before the dial is never taken for a claim by another password. -/
theorem handshake_eq_error {e : TransportError}
    (h : handshake intoClientRequest headerValue toSocketAddrs begin = .error e) :
    ∃ msg, e = .connect msg := by
  unfold handshake at h
  split at h
  · exact ⟨_, (Except.error.inj h).symm⟩
  · exact ⟨_, (Except.error.inj h).symm⟩
  · split at h
    · rename_i e' hdial
      obtain rfl := Except.error.inj h
      exact Dialing.dial_error hdial
    · cases h

/-- Once the host is resolved, a handshake comes to its end, whatever its peers do: it makes
a bounded number of calls, waits in them for no longer than the two timeouts and a last poll,
and until it has returned there is always one to make or to wait for. It is refused as
unauthorized by a 401 only. -/
theorem handshake_is_bounded (intoClientRequest : Except String Uri)
    (headerValue : Except String Unit) (toSocketAddrs : DialTarget → Except String (List Addr))
    (begin : ℕ) :
    (∀ e, handshake intoClientRequest headerValue toSocketAddrs begin = .error e →
      ∃ msg, e = .connect msg) ∧
    ∀ s, handshake intoClientRequest headerValue toSocketAddrs begin = .ok s →
      ∃ addrs, toSocketAddrs s.target = .ok addrs ∧ ∀ as s', run step s as = some s' →
        as.countP (!HandshakeAction.idles ·) ≤ 2 * addrs.length + 2009 ∧
        s'.now ≤ begin + s'.elapsed + (dialTimeout + handshakeTimeout + handshakePoll) ∧
        s'.polls.length ≤ 2005 ∧
        ((∃ result, s'.phase = .returned result) ∨
          ∃ a s'', a.idles = false ∧ step s' a = some s'') ∧
        (s'.phase = .returned (.error .unauthorized) →
          ∃ text, .attempt (.http 401 text) ∈ as) := by
  refine ⟨fun e he => handshake_eq_error he, fun s hs => ?_⟩
  obtain ⟨target, addrs, haddrs, rfl⟩ := handshake_eq_ok hs
  refine ⟨addrs, haddrs, fun as s' hrun => ?_⟩
  have hbounded : Bounded begin s' :=
    run_preserves (fun _ _ _ h hstep => bounded_step h hstep) (bounded_start target addrs) hrun
  have hstart : callsLeft (start target (Dialing.start addrs begin)) =
      2005 + (2 * addrs.length + 1 + 3) := rfl
  have hcalls : as.countP (!HandshakeAction.idles ·) + s'.callsLeft ≤
      callsLeft (start target (Dialing.start addrs begin)) :=
    countP_add_le_of_measure
      (fun t a t' h (hstep : step t a = some t') => ⟨bounded_step h hstep, callsLeft_step h hstep⟩)
      (bounded_start target addrs) hrun
  rw [hstart] at hcalls
  refine ⟨by omega, ?_, hbounded.length_polls_le,
    hbounded.exists_call, fun hreturned => ?_⟩
  · have hclock := hbounded.clock
    have hdialed := hbounded.dialed
    have hslept := hbounded.slept
    omega
  · rcases unauthorized_of_run hrun hreturned with hstarted | h401
    · cases hstarted
    · exact h401

/-- A peer that accepts the connection and then says nothing. -/
def silentPeer : List HandshakeAction :=
  [.dial .turn, .dial (.returned 40000000 (.ok ())), .setNonblocking (.ok ()),
    .attempt .interrupted, .attempt .interrupted, .elapse handshakeTimeout,
    .attempt .interrupted]

theorem handshake_is_bounded_silentPeer :
    ∃ s s' : ClientHandshake ℕ,
      handshake (.ok ⟨"ws://demo", .ok .plain, some "demo", none⟩) (.ok ())
        (fun _ => .ok [1]) 0 = .ok s ∧
      run step s silentPeer = some s' ∧
      s'.phase = .returned (.error (.connect "no handshake response after 10s")) ∧
      silentPeer.countP (!HandshakeAction.idles ·) ≤ 2 * 1 + 2009 ∧
      s'.now ≤ 0 + s'.elapsed + (dialTimeout + handshakeTimeout + handshakePoll) := by
  obtain ⟨s, s', hstart, hrun, hphase⟩ : ∃ s s' : ClientHandshake ℕ,
      handshake (.ok ⟨"ws://demo", .ok .plain, some "demo", none⟩) (.ok ())
        (fun _ => .ok [1]) 0 = .ok s ∧
      run step s silentPeer = some s' ∧
      s'.phase = .returned (.error (.connect "no handshake response after 10s")) :=
    ⟨_, _, rfl, rfl, rfl⟩
  obtain ⟨addrs, haddrs, hall⟩ := (handshake_is_bounded _ _ _ _).2 s hstart
  obtain rfl := Except.ok.inj haddrs
  obtain ⟨hcalls, hnow, -⟩ := hall silentPeer s' hrun
  exact ⟨s, s', hstart, hrun, hphase, hcalls, hnow⟩

end ClientHandshake

end Shellshare
