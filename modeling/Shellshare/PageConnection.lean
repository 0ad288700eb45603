import Shellshare.CappedDoubling
import Shellshare.EncryptedBroadcast

/-! The sockets of a viewer page with a key: `connect`, the events of what it makes, and
the timer that calls it again. -/
namespace Shellshare
open CappedDoubling TransitionRuns

inductive SocketPhase where
  | connecting
  | opened
  | closed
  deriving DecidableEq

/-- The events of the socket are yet to end. -/
def SocketPhase.live (phase : SocketPhase) : Bool := phase ≠ .closed

def reconnectMinMs : ℕ := 500

def reconnectMaxMs : ℕ := 10000

/-- `sockets` are all that were made, oldest first, and `timers` the times at which a
`setTimeout(connect, ..)` is due. -/
structure PageConnection where
  page : ViewerPage
  sockets : List SocketPhase
  timers : List ℕ
  reconnectDelayMs : ℕ
  onlineUsers : ℚ
  /-- `true` for `online` -/
  broadcastStatus : Bool
  now : ℕ

inductive ConnectionAction where
  | elapse (d : ℕ)
  /-- A timer fires. -/
  | dial (k : ℕ)
  | opened (i : ℕ)
  /-- `none` where `JSON.parse` throws. -/
  | text (i : ℕ) (control : Option Json)
  | binary (i : ℕ) (bytes : Bytes)
  /-- `wait` is what the jitter makes of the delay. -/
  | closed (i wait : ℕ)
  /-- Something that the page started goes on. -/
  | page (a : ViewerPage.Action)

namespace PageConnection

def connect (c : PageConnection) : PageConnection :=
  { c with sockets := c.sockets ++ [.connecting] }

def init : PageConnection := connect ⟨ViewerPage.init, [], [], reconnectMinMs, 0, false, 0⟩

/-- The end of the snapshot, which says how many watch. -/
def usersCount (control : Json) : Option ℚ :=
  match control.get "usersCount" with
  | some (.number n) => some n
  | _ => none

/-- The page has its key, so the size bears on the terminal's dimensions only. -/
def onControl (c : PageConnection) (control : Json) : PageConnection :=
  let c := (usersCount control).elim c fun n =>
    { c with reconnectDelayMs := reconnectMinMs, onlineUsers := n }
  let c := ((control.get "broadcasting").bind Json.asBool).elim c fun live =>
    { c with broadcastStatus := live }
  if control.isTrue "reset" then { c with page := c.page.clearScreen } else c

def onClose (c : PageConnection) (wait : ℕ) : PageConnection :=
  { c with
    broadcastStatus := false
    timers := c.timers ++ [c.now + wait]
    reconnectDelayMs := min (c.reconnectDelayMs * 2) reconnectMaxMs }

/-- `delay * (0.5 + Math.random())`, in whole milliseconds as `setTimeout` takes it. -/
def Jittered (delay wait : ℕ) : Prop := delay ≤ 2 * wait ∧ 2 * wait < 3 * delay

instance (delay wait : ℕ) : Decidable (Jittered delay wait) :=
  inferInstanceAs (Decidable (_ ∧ _))

section Step
variable {Key : Type} (aes : Aes256Gcm Key) (key : Key)

def step (c : PageConnection) : ConnectionAction → Option PageConnection
  | .elapse d => some { c with now := c.now + d }
  | .dial k => c.timers[k]?.bind fun due =>
    if due ≤ c.now then some (connect { c with timers := c.timers.eraseIdx k }) else none
  | .opened i =>
    if c.sockets[i]? = some .connecting then
      (c.page.step aes key .opened).map fun page =>
        { c with page := page, sockets := c.sockets.set i .opened }
    else none
  | .text i control =>
    if c.sockets[i]? = some .opened then some (control.elim c c.onControl) else none
  | .binary i bytes =>
    if c.sockets[i]? = some .opened then some { c with page := c.page.onMessage bytes } else none
  | .closed i wait =>
    if (c.sockets[i]?).any SocketPhase.live ∧ Jittered c.reconnectDelayMs wait then
      some (onClose { c with sockets := c.sockets.set i .closed } wait)
    else none
  | .page a =>
    if a.outstanding then (c.page.step aes key a).map fun page => { c with page := page } else none

end Step

/-- What came on a socket and bears on the output. -/
inductive Heard where
  | bytes (bytes : Bytes)
  | reset
  deriving DecidableEq

/-- The messages after the last reset. -/
def afterReset (heard : List Heard) : List Bytes :=
  heard.foldl (fun out h => match h with
    | .bytes bytes => out ++ [bytes]
    | .reset => []) []

/-- History of a run. `closures` are the times at which a socket closed since a users
count was last received, the last one first, and `latest` is the socket opened last. -/
structure Log where
  closures : List ℕ
  latest : Option ℕ
  heard : List (ℕ × Heard)

def Log.empty : Log := ⟨[], none, []⟩

def heardOn (i : ℕ) (heard : List (ℕ × Heard)) : List Heard :=
  (heard.filter (·.1 = i)).map Prod.snd

/-- What the latest socket delivered, from its last reset on. -/
def Log.arrived (log : Log) : List Bytes :=
  log.latest.elim [] fun i => afterReset (heardOn i log.heard)

def note (c : PageConnection) (a : ConnectionAction) (_ : PageConnection) (log : Log) : Log :=
  match a with
  | .opened i => { log with latest := some i }
  | .text i (some control) =>
    { log with
      closures := if (usersCount control).isSome then [] else log.closures
      heard := if control.isTrue "reset" then log.heard ++ [(i, .reset)] else log.heard }
  | .binary i bytes => { log with heard := log.heard ++ [(i, .bytes bytes)] }
  | .closed _ _ => { log with closures := c.now :: log.closures }
  | .elapse _ | .dial _ | .text _ none | .page _ => log

/-- The least wait after the `k + 1`-th closure in a row. -/
def reconnectWait (k : ℕ) : ℕ := delay 250 5000 k

theorem reconnectDelay_eq (k : ℕ) : delay reconnectMinMs reconnectMaxMs k = 2 * reconnectWait k := by
  have hstart : reconnectMinMs * 2 ^ k = 2 * (250 * 2 ^ k) := by
    rw [reconnectMinMs]
    omega
  rw [delay, hstart, reconnectWait, delay, reconnectMaxMs]
  omega

theorem reconnectDelay_succ (k : ℕ) :
    min (2 * reconnectWait k * 2) reconnectMaxMs = 2 * reconnectWait (k + 1) := by
  rw [← reconnectDelay_eq, ← reconnectDelay_eq]
  exact delay_succ (Nat.zero_le _)

/-- There is one socket that is not closed, or one timer. Each closure has its own wait behind
it: the next one comes later, no timer is due before, and with no timer left it is over. -/
structure Steady (c : PageConnection) (log : Log) : Prop where
  single : c.sockets.countP SocketPhase.live + c.timers.length = 1
  spaced : Spaced reconnectWait log.closures
  delay : c.reconnectDelayMs = 2 * reconnectWait log.closures.length
  waited : c.timers = [] →
    ∀ last ∈ log.closures.head?, last + reconnectWait (log.closures.length - 1) ≤ c.now
  due : ∀ time ∈ c.timers, c.broadcastStatus = false ∧ time < c.now + 15000 ∧
    ∀ last ∈ log.closures.head?, last + reconnectWait (log.closures.length - 1) ≤ time

section Steps
variable {c c' : PageConnection} {log : Log}

theorem onControl_spec (c : PageConnection) (control : Json) :
    (c.onControl control).sockets = c.sockets ∧ (c.onControl control).timers = c.timers ∧
      (c.onControl control).now = c.now ∧
      (c.onControl control).reconnectDelayMs =
        (if (usersCount control).isSome then reconnectMinMs else c.reconnectDelayMs) ∧
      (c.onControl control).page =
        (if control.isTrue "reset" then c.page.clearScreen else c.page) := by
  unfold onControl
  cases usersCount control <;> cases (control.get "broadcasting").bind Json.asBool <;>
    cases control.isTrue "reset" <;> simp

/-- With a live socket there is no timer, and no other socket is live. -/
theorem Steady.alone (h : Steady c log) {i : ℕ} {phase : SocketPhase}
    (hi : c.sockets[i]? = some phase) (hlive : phase.live = true) :
    c.timers = [] ∧ c.sockets.countP SocketPhase.live = 1 := by
  have hmem : phase ∈ c.sockets := List.mem_of_getElem? hi
  have hpos : 0 < c.sockets.countP SocketPhase.live := List.countP_pos_iff.mpr ⟨phase, hmem, hlive⟩
  have hsingle := h.single
  exact ⟨List.eq_nil_of_length_eq_zero (by omega), by omega⟩

theorem countP_live_set {sockets : List SocketPhase} {i : ℕ} {phase : SocketPhase}
    (hi : sockets[i]? = some phase) (next : SocketPhase) :
    (sockets.set i next).countP SocketPhase.live + phase.live.toNat =
      sockets.countP SocketPhase.live + next.live.toNat := by
  obtain ⟨hlt, rfl⟩ := List.getElem?_eq_some_iff.mp hi
  have hpos : sockets[i].live = true → 0 < sockets.countP SocketPhase.live := fun hlive =>
    List.countP_pos_iff.mpr ⟨_, List.getElem_mem hlt, hlive⟩
  rw [List.countP_set hlt]
  cases hphase : sockets[i].live with
  | false => cases next <;> simp [SocketPhase.live]
  | true =>
    have hone := hpos hphase
    cases next <;> simp [SocketPhase.live] <;> omega

theorem steady_init : Steady init Log.empty where
  single := rfl
  spaced := trivial
  delay := by decide
  waited _ last hlast := by cases hlast
  due time htime := by cases htime

theorem Steady.connect {k due : ℕ} (h : Steady c log) (hk : c.timers[k]? = some due)
    (hdue : due ≤ c.now) : Steady (connect { c with timers := c.timers.eraseIdx k }) log := by
  have hmem := List.mem_of_getElem? hk
  have hsingle := h.single
  have hpos : 0 < c.timers.length := List.length_pos_of_mem hmem
  have hlt := (List.getElem?_eq_some_iff.mp hk).1
  have hnone : c.timers.eraseIdx k = [] := by
    apply List.eq_nil_of_length_eq_zero
    rw [List.length_eraseIdx_of_lt hlt]
    omega
  refine ⟨?_, h.spaced, h.delay, fun _ last hlast => ?_, fun time htime => ?_⟩
  · show (c.sockets ++ [SocketPhase.connecting]).countP SocketPhase.live +
      (c.timers.eraseIdx k).length = 1
    have hnew : [SocketPhase.connecting].countP SocketPhase.live = 1 := rfl
    rw [hnone, List.countP_append, hnew, List.length_nil]
    omega
  · exact ((h.due due hmem).2.2 last hlast).trans hdue
  · have htime' : time ∈ c.timers.eraseIdx k := htime
    rw [hnone] at htime'
    cases htime'

theorem Steady.closed {i wait : ℕ} {phase : SocketPhase} (h : Steady c log)
    (hi : c.sockets[i]? = some phase) (hlive : phase.live = true)
    (hwait : Jittered c.reconnectDelayMs wait) :
    Steady (onClose { c with sockets := c.sockets.set i .closed } wait)
      { log with closures := c.now :: log.closures } := by
  obtain ⟨hnone, hone⟩ := h.alone hi hlive
  have hcount := countP_live_set hi .closed
  rw [hlive, hone] at hcount
  obtain ⟨hleast, hmost⟩ := hwait
  rw [h.delay] at hleast hmost
  have hcap : reconnectWait log.closures.length ≤ 5000 := delay_le_cap
  refine ⟨?_, h.spaced.cons (h.waited hnone), ?_, fun htimers => ?_, fun time htime => ?_⟩
  · show (c.sockets.set i .closed).countP SocketPhase.live + (c.timers ++ [c.now + wait]).length = 1
    have hdead : SocketPhase.closed.live.toNat = 0 := rfl
    rw [hnone, List.nil_append, List.length_singleton]
    simp only [Bool.toNat_true] at hcount
    omega
  · show min (c.reconnectDelayMs * 2) reconnectMaxMs = 2 * reconnectWait (log.closures.length + 1)
    rw [h.delay]
    exact reconnectDelay_succ _
  · have hne : c.timers ++ [c.now + wait] = [] := htimers
    simp at hne
  · have htime' : time ∈ c.timers ++ [c.now + wait] := htime
    rw [hnone, List.nil_append, List.mem_singleton] at htime'
    subst htime'
    refine ⟨rfl, ?_, fun last hlast => ?_⟩
    · show c.now + wait < c.now + 15000
      omega
    · obtain rfl : c.now = last := Option.some.inj hlast
      show c.now + reconnectWait (log.closures.length + 1 - 1) ≤ c.now + wait
      rw [Nat.add_sub_cancel]
      omega

theorem Steady.control (h : Steady c log) {i : ℕ} (hi : c.sockets[i]? = some .opened)
    (control : Json) : Steady (c.onControl control)
      { log with closures := if (usersCount control).isSome then [] else log.closures } := by
  obtain ⟨hsockets, htimers, hnow, hdelay, -⟩ := onControl_spec c control
  obtain ⟨hnone, -⟩ := h.alone hi rfl
  have hempty : ∀ time, time ∉ (c.onControl control).timers := by
    rw [htimers, hnone]
    exact fun _ => List.not_mem_nil
  refine ⟨?_, ?_, ?_, fun _ => ?_, fun time htime => absurd htime (hempty time)⟩
  · rw [hsockets, htimers]
    exact h.single
  · dsimp only
    split_ifs
    · trivial
    · exact h.spaced
  · rw [hdelay]
    dsimp only
    split_ifs
    · decide
    · exact h.delay
  · rw [hnow]
    dsimp only
    split_ifs
    · exact fun last hlast => by cases hlast
    · exact h.waited hnone

theorem Steady.opened (h : Steady c log) {i : ℕ} (hi : c.sockets[i]? = some .connecting)
    (page : ViewerPage) (latest : Option ℕ) :
    Steady { c with page := page, sockets := c.sockets.set i .opened }
      { log with latest := latest } := by
  have hcount := countP_live_set hi .opened
  refine ⟨?_, h.spaced, h.delay, h.waited, h.due⟩
  have hsame : (c.sockets.set i .opened).countP SocketPhase.live =
      c.sockets.countP SocketPhase.live := Nat.add_right_cancel hcount
  show (c.sockets.set i .opened).countP SocketPhase.live + c.timers.length = 1
  rw [hsame]
  exact h.single

/-- The log of what was heard plays no part. -/
theorem Steady.heard (h : Steady c log) (heard : List (ℕ × Heard)) :
    Steady c { log with heard := heard } :=
  ⟨h.single, h.spaced, h.delay, h.waited, h.due⟩

theorem Steady.page (h : Steady c log) (page : ViewerPage) : Steady { c with page := page } log :=
  ⟨h.single, h.spaced, h.delay, h.waited, h.due⟩

theorem Steady.elapse (h : Steady c log) (d : ℕ) : Steady { c with now := c.now + d } log where
  single := h.single
  spaced := h.spaced
  delay := h.delay
  waited hnone last hlast := Nat.le_add_right_of_le (h.waited hnone last hlast)
  due time htime := by
    obtain ⟨hstatus, hsoon, hwaits⟩ := h.due time htime
    refine ⟨hstatus, ?_, hwaits⟩
    show time < c.now + d + 15000
    omega

variable {Key : Type} {aes : Aes256Gcm Key} {key : Key}

theorem steady_step (h : Steady c log) {a : ConnectionAction} (hstep : step aes key c a = some c') :
    Steady c' (note c a c' log) := by
  cases a with
  | elapse d =>
    obtain rfl := Option.some.inj hstep
    exact h.elapse d
  | dial k =>
    obtain ⟨due, hk, hfires⟩ := Option.bind_eq_some_iff.mp hstep
    split_ifs at hfires with hdue
    obtain rfl := Option.some.inj hfires
    exact h.connect hk hdue
  | opened i =>
    simp only [step] at hstep
    split_ifs at hstep with hi
    obtain ⟨page, -, rfl⟩ := Option.map_eq_some_iff.mp hstep
    exact h.opened hi page (some i)
  | text i control =>
    simp only [step] at hstep
    split_ifs at hstep with hi
    obtain rfl := Option.some.inj hstep
    cases control with
    | none => exact h
    | some control => exact (h.control hi control).heard _
  | binary i bytes =>
    simp only [step] at hstep
    split_ifs at hstep with hi
    obtain rfl := Option.some.inj hstep
    exact (h.page _).heard _
  | closed i wait =>
    simp only [step] at hstep
    split_ifs at hstep with hlive
    obtain rfl := Option.some.inj hstep
    obtain ⟨phase, hi, hphase⟩ := Option.any_eq_true _ _ |>.mp hlive.1
    exact h.closed hi hphase hlive.2
  | page a =>
    simp only [step] at hstep
    split_ifs at hstep
    obtain ⟨page, -, rfl⟩ := Option.map_eq_some_iff.mp hstep
    exact h.page page

/-- The page shows what its latest socket delivered. -/
structure Current (aes : Aes256Gcm Key) (key : Key) (c : PageConnection) (log : Log) : Prop where
  latest : ∀ i, c.sockets[i]? = some .opened → log.latest = some i
  heard : ∀ e ∈ log.heard, ∃ phase, c.sockets[e.1]? = some phase ∧ phase ≠ .connecting
  joined : c.page.joinedBefore = log.latest.isSome
  ordered : c.page.Ordered aes key log.arrived

theorem current_init : Current aes key init Log.empty where
  latest i hi := by
    have hlt := (List.getElem?_eq_some_iff.mp hi).1
    have hi' : ([SocketPhase.connecting])[i]? = some .opened := hi
    cases i with
    | zero => cases hi'
    | succ i => cases hi'
  heard e he := by cases he
  joined := rfl
  ordered := ViewerPage.ordered_init

theorem joinedBefore_finish (p : ViewerPage) (handed : Option (ViewerPage.Job × Settlement)) :
    (p.finish handed).joinedBefore = p.joinedBefore := by
  cases handed with
  | none => rfl
  | some result =>
    obtain ⟨job, settlement⟩ := result
    cases settlement with
    | resolved chunks decryptable =>
      simp only [ViewerPage.finish, ViewerPage.onResult, ViewerPage.foldl_writeBytes]
      split_ifs <;> rfl
    | rejected =>
      simp only [ViewerPage.finish, ViewerPage.onResult]
      split_ifs <;> rfl

theorem joinedBefore_of_outstanding {p p' : ViewerPage} {a : ViewerPage.Action}
    (ha : a.outstanding = true) (hstep : p.step aes key a = some p') :
    p'.joinedBefore = p.joinedBefore := by
  cases a with
  | opened => cases ha
  | message bytes => cases ha
  | reset => cases ha
  | createTerminal =>
    simp only [ViewerPage.step] at hstep
    split_ifs at hstep
    obtain rfl := Option.some.inj hstep
    rfl
  | importKey =>
    simp only [ViewerPage.step] at hstep
    split_ifs at hstep
    obtain rfl := Option.some.inj hstep
    rfl
  | turn =>
    obtain ⟨⟨chain, handed⟩, -, rfl⟩ := Option.map_eq_some_iff.mp hstep
    exact joinedBefore_finish _ handed
  | droppedTurn i =>
    obtain ⟨old, -, hturn⟩ := Option.bind_eq_some_iff.mp hstep
    obtain ⟨⟨chain, handed⟩, -, rfl⟩ := Option.map_eq_some_iff.mp hturn
    exact joinedBefore_finish _ handed

/-- The page after a step of its own. -/
theorem ordered_of_outstanding {p p' : ViewerPage} {arrived : List Bytes} {a : ViewerPage.Action}
    (h : p.Ordered aes key arrived) (ha : a.outstanding = true)
    (hstep : p.step aes key a = some p') : p'.Ordered aes key arrived := by
  have hnote : ViewerPage.noteArrived p a p' arrived = arrived := by
    cases a with
    | opened => cases ha
    | message bytes => cases ha
    | reset => cases ha
    | createTerminal => rfl
    | importKey => rfl
    | turn => rfl
    | droppedTurn i => rfl
  have hpage : withHistory (ViewerPage.step aes key) ViewerPage.noteArrived (p, arrived) a =
      some (p', ViewerPage.noteArrived p a p' arrived) := withHistory_eq_some.mpr ⟨hstep, rfl⟩
  rw [hnote] at hpage
  have hbefore : (p, arrived).1.Ordered aes key (p, arrived).2 := h
  exact ViewerPage.ordered_step hbefore hpage

theorem heardOn_append_self (heard : List (ℕ × Heard)) (i : ℕ) (h : Heard) :
    heardOn i (heard ++ [(i, h)]) = heardOn i heard ++ [h] := by
  simp [heardOn]

theorem arrived_of_latest {i : ℕ} (hlatest : log.latest = some i) :
    log.arrived = afterReset (heardOn i log.heard) := by
  rw [Log.arrived, hlatest, Option.elim_some]

theorem arrived_append {i : ℕ} (hlatest : log.latest = some i) (closures : List ℕ) (h : Heard) :
    Log.arrived ⟨closures, log.latest, log.heard ++ [(i, h)]⟩ =
      afterReset (heardOn i log.heard ++ [h]) := by
  rw [Log.arrived, hlatest, Option.elim_some, heardOn_append_self]

theorem afterReset_append_bytes (heard : List Heard) (bytes : Bytes) :
    afterReset (heard ++ [.bytes bytes]) = afterReset heard ++ [bytes] := by
  simp [afterReset]

theorem afterReset_append_reset (heard : List Heard) : afterReset (heard ++ [.reset]) = [] := by
  simp [afterReset]

/-- Nothing was heard on a socket that never opened. -/
theorem Current.heardOn_eq_nil (h : Current aes key c log) {i : ℕ}
    (hi : c.sockets[i]? = some .connecting) : heardOn i log.heard = [] := by
  have hnone : log.heard.filter (·.1 = i) = [] := by
    rw [List.filter_eq_nil_iff]
    intro e he heq
    obtain ⟨phase, hphase, hne⟩ := h.heard e he
    rw [of_decide_eq_true heq, hi] at hphase
    exact hne (Option.some.inj hphase).symm
  rw [heardOn, hnone, List.map_nil]

/-- Two sockets are never live together. -/
theorem Steady.eq_of_live (h : Steady c log) {i j : ℕ} {phase phase' : SocketPhase}
    (hi : c.sockets[i]? = some phase) (hj : c.sockets[j]? = some phase')
    (hlive : phase.live = true) (hlive' : phase'.live = true) : i = j := by
  by_contra hne
  obtain ⟨-, hone⟩ := h.alone hi hlive
  have hcount := countP_live_set hi .closed
  have hdead : SocketPhase.closed.live.toNat = 0 := rfl
  rw [hlive, hone, hdead, Bool.toNat_true] at hcount
  have hstill : (c.sockets.set i .closed)[j]? = some phase' := by
    rw [List.getElem?_set_ne hne]
    exact hj
  have hpos : 0 < (c.sockets.set i .closed).countP SocketPhase.live :=
    List.countP_pos_iff.mpr ⟨phase', List.mem_of_getElem? hstill, hlive'⟩
  omega

theorem Current.dial (h : Current aes key c log) (k : ℕ) :
    Current aes key (connect { c with timers := c.timers.eraseIdx k }) log where
  latest i hi := by
    have hi' : (c.sockets ++ [SocketPhase.connecting])[i]? = some .opened := hi
    rw [List.getElem?_append] at hi'
    split_ifs at hi' with hlt
    · exact h.latest i hi'
    · rw [List.getElem?_singleton] at hi'
      split_ifs at hi'
      cases hi'
  heard e he := by
    obtain ⟨phase, hphase, hne⟩ := h.heard e he
    have hlt := (List.getElem?_eq_some_iff.mp hphase).1
    refine ⟨phase, ?_, hne⟩
    show (c.sockets ++ [SocketPhase.connecting])[e.1]? = some phase
    rw [List.getElem?_append_left hlt]
    exact hphase
  joined := h.joined
  ordered := h.ordered

/-- The phase of one socket changes, and not back to where nothing was heard yet. -/
theorem Current.heard_set (h : Current aes key c log) (i : ℕ) {next : SocketPhase}
    (hnext : next ≠ .connecting) :
    ∀ e ∈ log.heard, ∃ phase, (c.sockets.set i next)[e.1]? = some phase ∧ phase ≠ .connecting := by
  intro e he
  obtain ⟨phase, hphase, hne⟩ := h.heard e he
  by_cases hie : i = e.1
  · have hlt := (List.getElem?_eq_some_iff.mp hphase).1
    subst hie
    exact ⟨next, List.getElem?_set_self hlt, hnext⟩
  · rw [List.getElem?_set_ne hie]
    exact ⟨phase, hphase, hne⟩

theorem Current.opened (h : Current aes key c log) (hsteady : Steady c log) {i : ℕ}
    (hi : c.sockets[i]? = some .connecting) {page : ViewerPage}
    (hpage : c.page.step aes key .opened = some page) :
    Current aes key { c with page := page, sockets := c.sockets.set i .opened }
      { log with latest := some i } := by
  -- a first connection has nothing to clear, and a later one finds the page cleared
  have hnone : ViewerPage.noteArrived c.page .opened page log.arrived = [] := by
    rw [ViewerPage.noteArrived, h.joined]
    cases hlatest : log.latest with
    | none => simp [Log.arrived, hlatest]
    | some last => rfl
  have hstep : withHistory (ViewerPage.step aes key) ViewerPage.noteArrived (c.page, log.arrived)
      .opened = some (page, []) := withHistory_eq_some.mpr ⟨hpage, hnone.symm⟩
  have hordered : (c.page, log.arrived).1.Ordered aes key (c.page, log.arrived).2 := h.ordered
  refine ⟨fun j hj => ?_, h.heard_set i (by decide), ?_, ?_⟩
  · have hj' : (c.sockets.set i .opened)[j]? = some .opened := hj
    by_cases hij : i = j
    · rw [hij]
    · rw [List.getElem?_set_ne hij] at hj'
      exact absurd (hsteady.eq_of_live hi hj' rfl rfl) hij
  · have hjoined : page.joinedBefore = true := by
      obtain rfl := Option.some.inj hpage
      split_ifs with hbefore
      · exact hbefore
      · rfl
    exact hjoined
  · have harrived : Log.arrived { log with latest := some i } = [] :=
      congrArg afterReset (h.heardOn_eq_nil hi)
    rw [harrived]
    exact ViewerPage.ordered_step hordered hstep

theorem Current.binary (h : Current aes key c log) {i : ℕ} (hi : c.sockets[i]? = some .opened)
    (bytes : Bytes) : Current aes key { c with page := c.page.onMessage bytes }
      { log with heard := log.heard ++ [(i, .bytes bytes)] } := by
  have hlatest := h.latest i hi
  refine ⟨h.latest, fun e he => ?_, ?_, ?_⟩
  · rcases List.mem_append.mp he with he | he
    · exact h.heard e he
    · obtain rfl := List.mem_singleton.mp he
      exact ⟨.opened, hi, by decide⟩
  · have hjoined : (c.page.onMessage bytes).joinedBefore = c.page.joinedBefore := by
      rw [ViewerPage.onMessage]
      split_ifs <;> rfl
    exact hjoined.trans h.joined
  · have harrived : Log.arrived { log with heard := log.heard ++ [(i, .bytes bytes)] } =
        log.arrived ++ [bytes] := by
      rw [arrived_append hlatest, arrived_of_latest hlatest, afterReset_append_bytes]
    rw [harrived]
    exact h.ordered.onMessage bytes

theorem Current.control (h : Current aes key c log) {i : ℕ} (hi : c.sockets[i]? = some .opened)
    (control : Json) (closures : List ℕ) : Current aes key (c.onControl control)
      { log with
        closures := closures
        heard := if control.isTrue "reset" then log.heard ++ [(i, .reset)] else log.heard } := by
  obtain ⟨hsockets, -, -, -, hpage⟩ := onControl_spec c control
  have hlatest := h.latest i hi
  refine ⟨?_, ?_, ?_, ?_⟩
  · rw [hsockets]
    exact h.latest
  · rw [hsockets]
    intro e he
    dsimp only at he
    split_ifs at he
    · rcases List.mem_append.mp he with he | he
      · exact h.heard e he
      · obtain rfl := List.mem_singleton.mp he
        exact ⟨.opened, hi, by decide⟩
    · exact h.heard e he
  · rw [hpage]
    split_ifs
    · exact h.joined
    · exact h.joined
  · rw [hpage]
    by_cases hreset : control.isTrue "reset" = true
    · have harrived : Log.arrived { log with
          closures := closures, heard := log.heard ++ [(i, .reset)] } = [] := by
        rw [arrived_append hlatest]
        exact afterReset_append_reset _
      rw [if_pos hreset, if_pos hreset, harrived]
      exact h.ordered.clearScreen
    · rw [if_neg hreset, if_neg hreset]
      exact h.ordered

theorem current_step (h : Current aes key c log) (hsteady : Steady c log) {a : ConnectionAction}
    (hstep : step aes key c a = some c') : Current aes key c' (note c a c' log) := by
  cases a with
  | elapse d =>
    obtain rfl := Option.some.inj hstep
    exact ⟨h.latest, h.heard, h.joined, h.ordered⟩
  | dial k =>
    obtain ⟨due, -, hfires⟩ := Option.bind_eq_some_iff.mp hstep
    split_ifs at hfires
    obtain rfl := Option.some.inj hfires
    exact h.dial k
  | opened i =>
    simp only [step] at hstep
    split_ifs at hstep with hi
    obtain ⟨page, hpage, rfl⟩ := Option.map_eq_some_iff.mp hstep
    exact h.opened hsteady hi hpage
  | text i control =>
    simp only [step] at hstep
    split_ifs at hstep with hi
    obtain rfl := Option.some.inj hstep
    cases control with
    | none => exact h
    | some control => exact h.control hi control _
  | binary i bytes =>
    simp only [step] at hstep
    split_ifs at hstep with hi
    obtain rfl := Option.some.inj hstep
    exact h.binary hi bytes
  | closed i wait =>
    simp only [step] at hstep
    split_ifs at hstep with hlive
    obtain rfl := Option.some.inj hstep
    obtain ⟨phase, hi, -⟩ := Option.any_eq_true _ _ |>.mp hlive.1
    refine ⟨fun j hj => ?_, h.heard_set i (by decide), h.joined, h.ordered⟩
    have hj' : (c.sockets.set i .closed)[j]? = some .opened := hj
    by_cases hij : i = j
    · subst hij
      rw [List.getElem?_set_self (List.getElem?_eq_some_iff.mp hi).1] at hj'
      cases hj'
    · rw [List.getElem?_set_ne hij] at hj'
      exact h.latest j hj'
  | page a =>
    simp only [step] at hstep
    split_ifs at hstep with ha
    obtain ⟨page, hpage, rfl⟩ := Option.map_eq_some_iff.mp hstep
    exact ⟨h.latest, h.heard, (joinedBefore_of_outstanding ha hpage).trans h.joined,
      ordered_of_outstanding h.ordered ha hpage⟩

theorem kept_of_run {as : List ConnectionAction}
    (hrun : run (withHistory (step aes key) note) (init, Log.empty) as = some (c, log)) :
    Steady c log ∧ Current aes key c log := by
  have hstep : ∀ (p : PageConnection × Log) a p', Steady p.1 p.2 ∧ Current aes key p.1 p.2 →
      withHistory (step aes key) note p a = some p' →
      Steady p'.1 p'.2 ∧ Current aes key p'.1 p'.2 := by
    rintro p a p' ⟨hsteady, hcurrent⟩ hp
    obtain ⟨hs, hnote⟩ := withHistory_eq_some.mp hp
    rw [hnote]
    exact ⟨steady_step hsteady hs, current_step hcurrent hsteady hs⟩
  exact run_preserves hstep ⟨steady_init, current_init⟩ hrun

/-- A page that is not connected dials when its timer is due. -/
def Redials (aes : Aes256Gcm Key) (key : Key) (c : PageConnection) : Prop :=
  (∀ phase ∈ c.sockets, phase = .closed) ∧ c.broadcastStatus = false ∧
    ∃ time, c.timers = [time] ∧ time < c.now + 15000 ∧
      (time ≤ c.now → (c.step aes key (.dial 0)).isSome = true)

/-- A page has one connection or is about to make one: never two, and never none for
longer than 15 s. Each closure of a socket that did not get as far as a users count is
followed by a wait of its own before the next socket, of at least 250 ms and doubled each time
up to 5 s. What the page shows is what its latest socket delivered since it was last reset,
and nothing of those before. -/
theorem page_reconnects (aes : Aes256Gcm Key) (key : Key) (as : List ConnectionAction)
    (c : PageConnection) (log : Log)
    (hrun : run (withHistory (step aes key) note) (init, Log.empty) as = some (c, log)) :
    ((∃! i : ℕ, (c.sockets[i]?).any SocketPhase.live = true) ∧ c.timers = [] ∨
      Redials aes key c) ∧
    Steady c log ∧
    (c.timers = [] → ∀ first, log.closures.getLast? = some first →
      first + ∑ k ∈ Finset.range log.closures.length, reconnectWait k ≤ c.now) ∧
    c.page.shown <+: log.arrived.flatMap (ViewerPage.records aes key) ∧
    (c.page.Idle → ViewerPage.sinceClear c.page.written =
      log.arrived.flatMap (ViewerPage.records aes key)) := by
  obtain ⟨hsteady, hcurrent⟩ := kept_of_run hrun
  refine ⟨?_, hsteady, fun hnone first hfirst => ?_, ⟨_, hcurrent.ordered.accounted⟩,
    hcurrent.ordered.shown_of_idle⟩
  · have hsingle := hsteady.single
    cases htimers : c.timers with
    | nil =>
      rw [htimers, List.length_nil] at hsingle
      have hpos : 0 < c.sockets.countP SocketPhase.live := by omega
      obtain ⟨phase, hmem, hlive⟩ := List.countP_pos_iff.mp hpos
      obtain ⟨i, hi⟩ := List.mem_iff_getElem?.mp hmem
      refine Or.inl ⟨⟨i, by simp [hi, hlive], fun j hj => ?_⟩, rfl⟩
      obtain ⟨phase', hj, hlive'⟩ := Option.any_eq_true _ _ |>.mp hj
      exact hsteady.eq_of_live hj hi hlive' hlive
    | cons time timers =>
      rw [htimers, List.length_cons] at hsingle
      have hzero : c.sockets.countP SocketPhase.live = 0 := by omega
      obtain rfl : timers = [] := List.eq_nil_of_length_eq_zero (by omega)
      obtain ⟨hstatus, hsoon, -⟩ := hsteady.due time (by rw [htimers]; exact List.mem_cons_self)
      refine Or.inr ⟨fun phase hmem => ?_, hstatus, time, htimers, hsoon, fun hdue => ?_⟩
      · have hdead := List.countP_eq_zero.mp hzero phase hmem
        simpa [SocketPhase.live] using hdead
      · simp [step, htimers, hdue]
  · cases hclosures : log.closures with
    | nil =>
      rw [hclosures] at hfirst
      cases hfirst
    | cons last closures =>
      have hspaced := hsteady.spaced
      have hwaited := hsteady.waited hnone
      rw [hclosures] at hspaced hwaited hfirst
      calc first + ∑ k ∈ Finset.range (closures.length + 1), reconnectWait k
          = first + ∑ k ∈ Finset.range closures.length, reconnectWait k +
              reconnectWait closures.length := by rw [Finset.sum_range_succ, Nat.add_assoc]
        _ ≤ last + reconnectWait closures.length :=
          Nat.add_le_add_right (hspaced.sum_le hfirst) _
        _ ≤ c.now := hwaited last rfl

/-- The first connection is lost with output on it, the second is never opened, and the
third delivers the history. -/
def thirdAttempt : List ConnectionAction :=
  [.opened 0, .binary 0 (SealedRecord.stream mixed), .page .turn, .closed 0 250, .elapse 250,
    .dial 0, .closed 1 500, .elapse 500, .dial 0, .opened 2,
    .binary 2 (SealedRecord.stream (mixed.take 1)), .page .createTerminal, .page .importKey] ++
  List.replicate 4 (.page .turn) ++ List.replicate 5 (.page (.droppedTurn 0))

theorem page_reconnects_thirdAttempt : ∃ c log,
    run (withHistory (step tagged 1) note) (init, Log.empty) thirdAttempt = some (c, log) ∧
    log.closures = [250, 0] ∧ 250 + reconnectWait 1 ≤ c.now ∧
    0 + ∑ k ∈ Finset.range 2, reconnectWait k ≤ c.now ∧
    ViewerPage.sinceClear c.page.written = log.arrived.flatMap (ViewerPage.records tagged 1) := by
  obtain ⟨c, log, hrun, hclosures, htimers, hidle⟩ : ∃ c log,
      run (withHistory (step tagged 1) note) (init, Log.empty) thirdAttempt = some (c, log) ∧
      log.closures = [250, 0] ∧ c.timers = [] ∧ c.page.Idle :=
    ⟨_, _, rfl, rfl, rfl, rfl, rfl, rfl, by decide⟩
  obtain ⟨-, hsteady, hspaced, -, hshown⟩ := page_reconnects tagged 1 thirdAttempt c log hrun
  have hlast := hsteady.waited htimers 250 (by rw [hclosures]; rfl)
  have hwaits := hspaced htimers 0 (by rw [hclosures]; rfl)
  rw [hclosures] at hlast hwaits
  exact ⟨c, log, hrun, hclosures, hlast, hwaits, hshown hidle⟩

end Steps

end PageConnection

end Shellshare
