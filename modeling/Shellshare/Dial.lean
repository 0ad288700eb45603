import Mathlib.Algebra.Order.Ring.Nat
import Mathlib.Data.List.Infix
import Shellshare.SharedBudget
import Shellshare.TransitionRuns

/-! The broadcasting client's `dial`: the addresses of the server's host are tried in turn,
within one budget. Instants and durations are in nanoseconds. -/
namespace Shellshare
open SharedBudget TransitionRuns

def dialTimeout : ℕ := 10 * 10 ^ 9

def minDialAttempt : ℕ := 3 * 10 ^ 9

inductive TransportError where
  | unauthorized
  | connect (msg : String)
deriving DecidableEq

inductive Mode where
  | plain
  | tls

/-- What `dial` asks of a URL; `text` is how it is displayed. -/
structure Uri where
  text : String
  uriMode : Except String Mode
  host : Option String
  port : Option ℕ

structure DialTarget where
  host : String
  port : ℕ

/-- A literal IPv6 host, without its brackets. -/
def bareHost (host : String) : String :=
  match host.toList with
  | '[' :: rest => if rest.getLast? = some ']' then String.ofList rest.dropLast else host
  | _ => host

def Mode.defaultPort : Mode → ℕ
  | .plain => 80
  | .tls => 443

def dialTarget (uri : Uri) : Except TransportError DialTarget :=
  match uri.uriMode, uri.host with
  | .error e, _ => .error (.connect e)
  | .ok _, none => .error (.connect ("no host in " ++ uri.text))
  | .ok mode, some host => .ok ⟨bareHost host, uri.port.getD mode.defaultPort⟩

/-- A call of `connect_timeout`, and when its timeout was computed. -/
structure Attempt (Addr : Type) where
  addr : Addr
  since : ℕ
  timeout : ℕ
deriving DecidableEq

inductive DialPhase (Addr : Type) where
  | top
  | connecting (addr : Addr) (timeout : ℕ)
  | connected (addr : Addr)
  | exhausted
  | panicked
deriving DecidableEq

/-- What the attempt under way may still take. -/
def DialPhase.pending {Addr : Type} : DialPhase Addr → ℕ
  | .connecting _ timeout => timeout
  | _ => 0

/-- The loop of `dial`. What it reads is above `attempts`; from there on it is the record of
the run: the attempts made, how long each took, and the time that passed outside of them. -/
structure Dialing (Addr : Type) where
  deadline : ℕ
  addrs : List Addr
  left : ℕ
  lastError : Option String
  phase : DialPhase Addr
  now : ℕ
  attempts : List (Attempt Addr)
  took : List ℕ
  idle : ℕ
deriving DecidableEq

inductive DialAction where
  | elapse (ns : ℕ)
  | turn
  | returned (took : ℕ) (result : Except String Unit)

/-- `remaining / left`, which panics on a zero. -/
def checkedDiv (remaining left : ℕ) : Option ℕ :=
  if left = 0 then none else some (remaining / left)

/-- `left -= 1`, which panics on a zero. -/
def checkedPred (left : ℕ) : Option ℕ := if left = 0 then none else some (left - 1)

/-- `u32::try_from(left).unwrap_or(u32::MAX)` -/
def clampU32 (left : ℕ) : ℕ := if left < 2 ^ 32 then left else 2 ^ 32 - 1

namespace Dialing
variable {Addr : Type}

def start (addrs : List Addr) (now : ℕ) : Dialing Addr :=
  { deadline := now + dialTimeout
    addrs := addrs
    left := addrs.length
    lastError := none
    phase := .top
    now := now
    attempts := []
    took := []
    idle := 0 }

/-- One turn of the loop, up to the call of `connect_timeout`. -/
def turn (s : Dialing Addr) : Dialing Addr :=
  match s.addrs with
  | [] => { s with phase := .exhausted }
  | addr :: addrs =>
    let remaining := s.deadline - s.now
    match checkedDiv remaining (clampU32 s.left), checkedPred s.left with
    | some quotient, some left =>
      let slice := grant quotient minDialAttempt remaining
      -- out of budget (and `connect_timeout` rejects zero)
      if slice = 0 then { s with addrs := addrs, left := left, phase := .exhausted }
      else
        { s with
          addrs := addrs
          left := left
          phase := .connecting addr slice
          attempts := s.attempts ++ [⟨addr, s.now, slice⟩] }
    | _, _ => { s with phase := .panicked }

def returned (s : Dialing Addr) (addr : Addr) (took : ℕ) : Except String Unit → Dialing Addr
  | .ok () =>
    { s with phase := .connected addr, now := s.now + took, took := s.took ++ [took] }
  | .error e =>
    { s with
      phase := .top
      lastError := some e
      now := s.now + took
      took := s.took ++ [took] }

/-- An attempt takes at most its timeout. Time passes outside of the attempts too. -/
def step (s : Dialing Addr) : DialAction → Option (Dialing Addr)
  | .elapse ns => some { s with now := s.now + ns, idle := s.idle + ns }
  | .turn =>
    match s.phase with
    | .top => some s.turn
    | _ => none
  | .returned took result =>
    match s.phase with
    | .connecting addr timeout =>
      if took ≤ timeout then some (s.returned addr took result) else none
    | _ => none

def couldNotConnect (target : DialTarget) (lastError : Option String) : TransportError :=
  let text := "could not connect to " ++ target.host ++ ":" ++ toString target.port
  .connect (lastError.elim text fun e => text ++ ": " ++ e)

/-- What `dial` returns, once its loop is over. -/
def result (target : DialTarget) (s : Dialing Addr) : Option (Except TransportError Addr) :=
  match s.phase with
  | .connected addr => some (.ok addr)
  | .exhausted => some (.error (couldNotConnect target s.lastError))
  | _ => none

/-- `dial` up to its loop; `toSocketAddrs` is the resolver, and `now` the time it is done. -/
def dial (toSocketAddrs : DialTarget → Except String (List Addr)) (uri : Uri) (now : ℕ) :
    Except TransportError (DialTarget × Dialing Addr) :=
  match dialTarget uri with
  | .error e => .error e
  | .ok target =>
    match toSocketAddrs target with
    | .error e => .error (.connect ("cannot resolve " ++ target.host ++ ": " ++ e))
    | .ok addrs => .ok (target, start addrs now)

variable {s s' : Dialing Addr} {begin : ℕ}

/-- What the attempt at the next address is given. -/
def slice (s : Dialing Addr) : ℕ :=
  grant ((s.deadline - s.now) / clampU32 s.left) minDialAttempt (s.deadline - s.now)

/-- What a step does, where `left` counts the addresses that are left. -/
inductive Stepped (s : Dialing Addr) : Dialing Addr → Prop where
  | elapsed (ns : ℕ) : Stepped s { s with now := s.now + ns, idle := s.idle + ns }
  | allTried (htop : s.phase = .top) (haddrs : s.addrs = []) :
      Stepped s { s with phase := .exhausted }
  | outOfTime {addr : Addr} {addrs : List Addr} (htop : s.phase = .top)
      (haddrs : s.addrs = addr :: addrs) (hslice : s.slice = 0) :
      Stepped s { s with addrs := addrs, left := addrs.length, phase := .exhausted }
  | attempted {addr : Addr} {addrs : List Addr} (htop : s.phase = .top)
      (haddrs : s.addrs = addr :: addrs) (hslice : s.slice ≠ 0) :
      Stepped s
        { s with
          addrs := addrs
          left := addrs.length
          phase := .connecting addr s.slice
          attempts := s.attempts ++ [⟨addr, s.now, s.slice⟩] }
  | returned {addr : Addr} {timeout took : ℕ} (result : Except String Unit)
      (hconnecting : s.phase = .connecting addr timeout) (htook : took ≤ timeout) :
      Stepped s (s.returned addr took result)

theorem clampU32_ne_zero {left : ℕ} (h : left ≠ 0) : clampU32 left ≠ 0 := by
  unfold clampU32
  split_ifs <;> omega

/-- Neither the division nor the subtraction of a turn panics. -/
theorem stepped_turn (hleft : s.left = s.addrs.length) (htop : s.phase = .top) :
    Stepped s s.turn := by
  cases haddrs : s.addrs with
  | nil =>
    have hturn : s.turn = { s with phase := .exhausted } := by
      rw [turn, haddrs]
    rw [hturn]
    exact .allTried htop haddrs
  | cons addr addrs =>
    -- an address is at hand, so `left` is no zero, nor is the divisor it is clamped to
    have hcount : s.left = addrs.length + 1 := by
      rw [hleft, haddrs, List.length_cons]
    have hdiv : checkedDiv (s.deadline - s.now) (clampU32 s.left) =
        some ((s.deadline - s.now) / clampU32 s.left) :=
      if_neg (clampU32_ne_zero (by omega))
    have hpred : checkedPred s.left = some addrs.length := by
      rw [hcount]
      rfl
    unfold turn
    simp only [haddrs, hdiv, hpred]
    split_ifs with hslice
    · exact .outOfTime htop haddrs hslice
    · exact .attempted htop haddrs hslice

theorem stepped_of_step {a : DialAction} (hleft : s.left = s.addrs.length)
    (h : step s a = some s') : Stepped s s' := by
  cases a with
  | elapse ns =>
    obtain rfl := Option.some.inj h
    exact .elapsed ns
  | turn =>
    cases hphase : s.phase with
    | top =>
      rw [step, hphase] at h
      obtain rfl := Option.some.inj h
      exact stepped_turn hleft hphase
    | _ =>
      rw [step, hphase] at h
      cases h
  | returned took result =>
    cases hphase : s.phase with
    | connecting addr timeout =>
      rw [step, hphase] at h
      dsimp only at h
      split_ifs at h with htook
      obtain rfl := Option.some.inj h
      exact .returned result hphase htook
    | _ =>
      rw [step, hphase] at h
      cases h

theorem min_le_slice : min minDialAttempt (s.deadline - s.now) ≤ s.slice := min_floor_le_grant

/-- The divisor is smaller than the number of addresses from `2 ^ 32` of them on. A quotient
of the budget by it is no more than the floor, then. -/
theorem mul_quotient_le {remaining left : ℕ} (hremaining : remaining ≤ dialTimeout)
    (hfloor : minDialAttempt < remaining / clampU32 left) :
    left * (remaining / clampU32 left) ≤ remaining := by
  unfold clampU32 at hfloor ⊢
  split_ifs at hfloor ⊢ with hfits
  · exact Nat.mul_div_le remaining left
  · exfalso
    apply Nat.not_le.mpr hfloor
    calc remaining / (2 ^ 32 - 1) ≤ dialTimeout / (2 ^ 32 - 1) := Nat.div_le_div_right hremaining
      _ ≤ minDialAttempt := by decide

/-- The time spent in attempts, and what the one under way may take. -/
def committed (s : Dialing Addr) : ℕ := s.took.sum + s.phase.pending

/-- The invariant of the loop. A third of the budget is kept for each of the first three
addresses; the time outside of the attempts comes off the last share. -/
structure SharesBudget (begin : ℕ) (s : Dialing Addr) : Prop where
  left : s.left = s.addrs.length
  sound : s.phase ≠ .panicked
  deadline : s.deadline = begin + dialTimeout
  clock : s.now = begin + s.idle + s.took.sum
  reserved : Reserved dialTimeout (dialTimeout / 3) s.left (3 - s.attempts.length) s.committed
  attempts : ∀ a ∈ s.attempts,
    0 < a.timeout ∧ min minDialAttempt (s.deadline - a.since) ≤ a.timeout
  early : ∀ a ∈ s.attempts.take 3, min minDialAttempt (dialTimeout / 3 - s.idle) ≤ a.timeout

theorem sharesBudget_start (addrs : List Addr) (now : ℕ) :
    SharesBudget now (start addrs now) := by
  have hreserved : Reserved dialTimeout (dialTimeout / 3) addrs.length 3 0 :=
    Reserved.of_nsmul_le (by decide) _
  exact ⟨rfl, nofun, rfl, rfl, hreserved, nofun, nofun⟩

theorem SharesBudget.committed_le (h : SharesBudget begin s) : s.committed ≤ dialTimeout :=
  le_add_self.trans h.reserved

theorem SharesBudget.remaining_le (h : SharesBudget begin s) (htop : s.phase = .top) :
    s.deadline - s.now + s.committed ≤ dialTimeout := by
  have hcommitted := h.committed_le
  have hclock := h.clock
  have hdeadline := h.deadline
  simp only [committed, htop, DialPhase.pending] at hcommitted ⊢
  -- past the deadline nothing remains, and what is committed is within the budget anyway
  omega

/-- The attempt at one of the first three addresses has its third of the budget, less the
time outside of the attempts. -/
theorem SharesBudget.third_le (h : SharesBudget begin s) (htop : s.phase = .top)
    {addr : Addr} {addrs : List Addr} (haddrs : s.addrs = addr :: addrs)
    (hearly : s.attempts.length < 3) :
    dialTimeout / 3 - s.idle ≤ s.deadline - s.now := by
  have hreserved := h.reserved
  have hcount : 3 - s.attempts.length = 2 - s.attempts.length + 1 := by omega
  rw [h.left, haddrs, List.length_cons, hcount] at hreserved
  have hshare := hreserved.share_le
  have hclock := h.clock
  have hdeadline := h.deadline
  simp only [committed, htop, DialPhase.pending] at hshare
  omega

theorem SharesBudget.attempted (h : SharesBudget begin s) (htop : s.phase = .top)
    {addr : Addr} {addrs : List Addr} (haddrs : s.addrs = addr :: addrs) (hslice : s.slice ≠ 0) :
    SharesBudget begin
      { s with
        addrs := addrs
        left := addrs.length
        phase := .connecting addr s.slice
        attempts := s.attempts ++ [⟨addr, s.now, s.slice⟩] } where
  left := rfl
  sound := nofun
  deadline := h.deadline
  clock := h.clock
  reserved := by
    have hreserved := h.reserved
    have hremaining := h.remaining_le htop
    have hleft : s.left = addrs.length + 1 := by rw [h.left, haddrs, List.length_cons]
    -- where the quotient counts it is an equal share, whatever the divisor
    have hquotient : minDialAttempt < (s.deadline - s.now) / clampU32 s.left →
        (addrs.length + 1) • ((s.deadline - s.now) / clampU32 s.left) ≤ s.deadline - s.now := by
      rw [Nat.nsmul_eq_mul, ← hleft]
      exact mul_quotient_le (Nat.le_of_add_right_le hremaining)
    rw [hleft] at hreserved
    have hgranted : Reserved dialTimeout (dialTimeout / 3) addrs.length
        (3 - s.attempts.length - 1) (s.committed + s.slice) :=
      hreserved.after_grant (by decide) hquotient hremaining
    simpa only [committed, htop, DialPhase.pending, add_zero, List.length_append,
      List.length_singleton, Nat.sub_sub] using hgranted
  attempts := by
    intro a ha
    rcases List.mem_append.mp ha with ha | ha
    · exact h.attempts a ha
    · obtain rfl := List.mem_singleton.mp ha
      exact ⟨Nat.pos_of_ne_zero hslice, min_le_slice (s := s)⟩
  early := by
    intro a ha
    rw [List.take_append] at ha
    rcases List.mem_append.mp ha with ha | ha
    · exact h.early a ha
    · -- the new attempt is one of the first three only where fewer were made
      have hearly : s.attempts.length < 3 := by
        by_contra hlate
        rw [Nat.sub_eq_zero_of_le (by omega)] at ha
        exact List.not_mem_nil ha
      obtain rfl := List.mem_singleton.mp (List.mem_of_mem_take ha)
      exact (min_le_min_left _ (h.third_le htop haddrs hearly)).trans min_le_slice

theorem SharesBudget.elapsed (h : SharesBudget begin s) (ns : ℕ) :
    SharesBudget begin { s with now := s.now + ns, idle := s.idle + ns } where
  left := h.left
  sound := h.sound
  deadline := h.deadline
  clock := by
    have hclock := h.clock
    show s.now + ns = begin + (s.idle + ns) + s.took.sum
    omega
  reserved := h.reserved
  attempts := h.attempts
  early := by
    intro a ha
    have hless : dialTimeout / 3 - (s.idle + ns) ≤ dialTimeout / 3 - s.idle := by omega
    exact (min_le_min_left _ hless).trans (h.early a ha)

/-- A loop that ends takes no more time, whatever addresses it leaves. -/
theorem SharesBudget.ended (h : SharesBudget begin s) (htop : s.phase = .top)
    {addrs : List Addr} (hreserved : Reserved dialTimeout (dialTimeout / 3) addrs.length
      (3 - s.attempts.length) s.committed) :
    SharesBudget begin { s with addrs := addrs, left := addrs.length, phase := .exhausted } where
  left := rfl
  sound := nofun
  deadline := h.deadline
  clock := h.clock
  reserved := by
    simpa only [committed, htop, DialPhase.pending] using hreserved
  attempts := h.attempts
  early := h.early

theorem SharesBudget.returned (h : SharesBudget begin s) {addr : Addr} {timeout took : ℕ}
    (result : Except String Unit) (hconnecting : s.phase = .connecting addr timeout)
    (htook : took ≤ timeout) : SharesBudget begin (s.returned addr took result) := by
  have hclock : s.now + took = begin + s.idle + (s.took ++ [took]).sum := by
    rw [List.sum_append, List.sum_singleton, h.clock]
    omega
  have hreserved : Reserved dialTimeout (dialTimeout / 3) s.left (3 - s.attempts.length)
      ((s.took ++ [took]).sum + 0) := by
    -- an attempt that ends early returns the rest of its slice
    apply h.reserved.mono
    simp only [committed, hconnecting, DialPhase.pending, List.sum_append, List.sum_singleton]
    omega
  cases result with
  | ok _ => exact ⟨h.left, nofun, h.deadline, hclock, hreserved, h.attempts, h.early⟩
  | error e => exact ⟨h.left, nofun, h.deadline, hclock, hreserved, h.attempts, h.early⟩

theorem sharesBudget_step {a : DialAction} (h : SharesBudget begin s)
    (hstep : step s a = some s') : SharesBudget begin s' := by
  cases stepped_of_step h.left hstep with
  | elapsed ns => exact h.elapsed ns
  | allTried htop haddrs =>
    have hended := h.ended htop (h.left ▸ h.reserved)
    rwa [← h.left] at hended
  | outOfTime htop haddrs _ =>
    apply h.ended htop
    apply Reserved.of_succ
    have hreserved := h.reserved
    rwa [h.left, haddrs, List.length_cons] at hreserved
  | attempted htop haddrs hslice => exact h.attempted htop haddrs hslice
  | returned result hconnecting htook => exact h.returned result hconnecting htook

/-- The attempts share the budget of the dial. No attempt has a zero timeout, or less than
the floor where that much time is left; each of the first three has the floor, unless a third
of a second passed outside of the attempts. -/
theorem dial_shares_budget (addrs : List Addr) (now : ℕ) (as : List DialAction)
    (s : Dialing Addr) (hrun : run step (start addrs now) as = some s) :
    s.phase ≠ .panicked ∧
      (∀ a ∈ s.attempts, 0 < a.timeout) ∧
      s.took.sum ≤ dialTimeout ∧
      (∀ a ∈ s.attempts, min minDialAttempt (now + dialTimeout - a.since) ≤ a.timeout) ∧
      (s.idle ≤ dialTimeout / 3 - minDialAttempt →
        ∀ a ∈ s.attempts.take 3, minDialAttempt ≤ a.timeout) := by
  have h : SharesBudget now s :=
    run_preserves (fun _ _ _ h hstep => sharesBudget_step h hstep)
      (sharesBudget_start addrs now) hrun
  refine ⟨h.sound, ?_, ?_, ?_, ?_⟩
  · exact fun a ha => (h.attempts a ha).1
  · exact (Nat.le_add_right _ _).trans h.committed_le
  · intro a ha
    rw [← h.deadline]
    exact (h.attempts a ha).2
  · intro hidle a ha
    have hthird : minDialAttempt ≤ dialTimeout / 3 - s.idle := by
      have hspare : minDialAttempt ≤ dialTimeout / 3 := by decide
      omega
    exact (le_min le_rfl hthird).trans (h.early a ha)

/-- Four addresses: the first is silent for all of its time, the second refuses at once. -/
def silentFirst : List DialAction :=
  [.turn, .returned minDialAttempt (.error "connection timed out"), .elapse 1000,
    .turn, .returned 20000000 (.error "Connection refused (os error 111)"),
    .turn, .returned 40000000 (.ok ())]

theorem dial_shares_budget_silentFirst :
    ∃ s, run step (start [1, 2, 3, 4] 0) silentFirst = some s ∧
      s.phase = .connected 3 ∧
      s.attempts.map Attempt.timeout = [minDialAttempt, minDialAttempt, 3489999500] ∧
      (∀ a ∈ s.attempts, 0 < a.timeout) ∧
      s.took.sum ≤ dialTimeout ∧
      (∀ a ∈ s.attempts, min minDialAttempt (0 + dialTimeout - a.since) ≤ a.timeout) ∧
      ∀ a ∈ s.attempts.take 3, minDialAttempt ≤ a.timeout := by
  have hrun : run step (start [1, 2, 3, 4] 0) silentFirst = some
      { deadline := dialTimeout
        addrs := [4]
        left := 1
        lastError := some "Connection refused (os error 111)"
        phase := .connected 3
        now := 3060001000
        attempts := [⟨1, 0, minDialAttempt⟩, ⟨2, 3000001000, minDialAttempt⟩,
          ⟨3, 3020001000, 3489999500⟩]
        took := [minDialAttempt, 20000000, 40000000]
        idle := 1000 } := by
    decide +kernel
  obtain ⟨_, hpos, htotal, hfloor, hearly⟩ := dial_shares_budget _ _ _ _ hrun
  exact ⟨_, hrun, rfl, rfl, hpos, htotal, hfloor, hearly (by decide)⟩

/-- What goes wrong before the loop is never taken for a claim by another password. -/
theorem dial_error {toSocketAddrs : DialTarget → Except String (List Addr)} {uri : Uri} {now : ℕ}
    {e : TransportError} (h : dial toSocketAddrs uri now = .error e) :
    ∃ msg, e = .connect msg := by
  unfold dial dialTarget at h
  split at h
  · rename_i htarget
    obtain rfl := Except.error.inj h
    split at htarget
    · exact ⟨_, (Except.error.inj htarget).symm⟩
    · exact ⟨_, (Except.error.inj htarget).symm⟩
    · cases htarget
  · split at h
    · exact ⟨_, (Except.error.inj h).symm⟩
    · cases h

theorem dial_eq_ok {toSocketAddrs : DialTarget → Except String (List Addr)} {uri : Uri} {now : ℕ}
    {target : DialTarget} (h : dial toSocketAddrs uri now = .ok (target, s)) :
    ∃ addrs, toSocketAddrs target = .ok addrs ∧ s = start addrs now := by
  unfold dial at h
  split at h
  · cases h
  · split at h
    · cases h
    · rename_i addrs haddrs
      obtain ⟨rfl, rfl⟩ := Prod.mk.inj (Except.ok.inj h)
      exact ⟨addrs, haddrs, rfl⟩

end Dialing
end Shellshare
