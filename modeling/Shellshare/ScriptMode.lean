import Shellshare.ReplayWindow

/-! Script mode at the end of a session: the PTY reader, the sender thread, the polling
main thread and the drain watchdog, which share one `running` flag and a channel. Each
step is one access of a thread to what is shared, in any order. -/
namespace Shellshare
open TransitionRuns

/-- Where the PTY reader stands. `eof` is also the error of a closed PTY, `stopped` a
reader that gave up before. -/
inductive PtyReader where
  | top
  | reading
  | displaying (data : Bytes)
  | putting (data : Bytes)
  | eof
  | stopped
deriving DecidableEq

/-- Where the sender thread stands. `calling` is inside of `send` or `tick`, `abandoned`
after an authorization error. -/
inductive SenderThread where
  | top
  | waiting
  | batching (batch : List Bytes)
  | calling
  | shuttingDown
  | finished
  | abandoned
deriving DecidableEq

inductive MainThread where
  | polling
  | joiningReader
  | joiningSender
  | over
deriving DecidableEq

/-- `put` records what the channel took, `handed` the chunks of each call of `send`. -/
structure ScriptMode where
  running : Bool
  reader : PtyReader
  put : List Bytes
  queue : List Bytes
  sender : SenderThread
  handed : List (List Bytes)
  main : MainThread
  childExited : Bool
  watchdog : Option ℕ
  now : ℕ

inductive ReaderAction where
  | check
  | read (data : Bytes)
  | readBlocked
  | readEnd
  | display (ok : Bool)
  | put

inductive SenderAction where
  | check
  | receive
  | receiveTimeout
  | receiveDisconnected
  | collect
  | send
  | returned (authorized : Bool)
  | shutdownReturned

inductive MainAction where
  | poll
  | joined
  | watchdogFires
  | childExits
  | interrupt
  | elapse (ms : ℕ)

inductive ScriptAction where
  | reader (a : ReaderAction)
  | sender (a : SenderAction)
  | main (a : MainAction)

/-- How long the reader may drain before the watchdog stops it. -/
def drainGrace : ℕ := 2000

namespace ScriptMode

def start : ScriptMode := ⟨true, .top, [], [], .top, [], .polling, false, none, 0⟩

/-- The reader has dropped its end of the channel. -/
def disconnected (s : ScriptMode) : Bool := s.reader = .eof || s.reader = .stopped

/-- The sender thread has dropped its end of the channel. -/
def hungUp (s : ScriptMode) : Bool := s.sender = .finished || s.sender = .abandoned

/-- `Transport::shutdown` was called. -/
def shutdownCalled (s : ScriptMode) : Bool := s.sender = .shuttingDown || s.sender = .finished

def readerStep (s : ScriptMode) : ReaderAction → Option ScriptMode
  | .check =>
    -- a flag that is down stops the reader before the end of the output
    if s.reader = .top then some { s with reader := if s.running then .reading else .stopped }
    else none
  | .read data =>
    if s.reader = .reading ∧ data ≠ [] ∧ data.length ≤ readSize then
      some { s with reader := .displaying data }
    else none
  | .readBlocked => if s.reader = .reading then some { s with reader := .top } else none
  | .readEnd => if s.reader = .reading then some { s with reader := .eof } else none
  | .display ok =>
    match s.reader with
    | .displaying data => some { s with reader := if ok then .putting data else .stopped }
    | _ => none
  | .put =>
    match s.reader with
    | .putting data =>
      -- a closed channel drops the data
      if s.hungUp then some { s with reader := .top }
      else some { s with reader := .top, put := s.put ++ [data], queue := s.queue ++ [data] }
    | _ => none

def senderStep (s : ScriptMode) : SenderAction → Option ScriptMode
  | .check =>
    -- the flag alone decides, whatever is on the channel
    if s.sender = .top then
      some { s with sender := if s.running then .waiting else .shuttingDown }
    else none
  | .receive =>
    match s.sender, s.queue with
    | .waiting, chunk :: queue => some { s with queue := queue, sender := .batching [chunk] }
    | _, _ => none
  | .receiveTimeout =>
    if s.sender = .waiting ∧ s.queue = [] ∧ s.disconnected = false then
      some { s with sender := .calling }
    else none
  | .receiveDisconnected =>
    if s.sender = .waiting ∧ s.queue = [] ∧ s.disconnected = true then
      some { s with sender := .shuttingDown }
    else none
  | .collect =>
    -- `try_recv`, until the batch is full
    match s.sender, s.queue with
    | .batching batch, chunk :: queue =>
      if totalLength batch < maxBatch then
        some { s with queue := queue, sender := .batching (batch ++ [chunk]) }
      else none
    | _, _ => none
  | .send =>
    match s.sender with
    | .batching batch =>
      if maxBatch ≤ totalLength batch ∨ s.queue = [] then
        some { s with handed := s.handed ++ [batch], sender := .calling }
      else none
    | _ => none
  | .returned authorized =>
    if s.sender = .calling then
      if authorized then some { s with sender := .top }
      -- the buffered output is not the room's, so no shutdown
      else some { s with sender := .abandoned, running := false }
    else none
  | .shutdownReturned =>
    if s.sender = .shuttingDown then some { s with sender := .finished } else none

def mainStep (s : ScriptMode) : MainAction → Option ScriptMode
  | .poll =>
    if s.main = .polling then
      -- the slave is dropped, so the reader can come to the end
      if s.running = false ∨ s.childExited then
        some { s with main := .joiningReader, watchdog := some (s.now + drainGrace) }
      else some s
    else none
  | .joined =>
    if s.main = .joiningReader ∧ s.disconnected then some { s with main := .joiningSender }
    -- the helper threads stop with the flag
    else if s.main = .joiningSender ∧ s.hungUp then
      some { s with main := .over, running := false }
    else none
  | .watchdogFires =>
    -- meant for the reader, but the sender looks at the same flag
    if s.watchdog.any (· ≤ s.now) then some { s with running := false, watchdog := none }
    else none
  | .childExits => some { s with childExited := true }
  -- a termination signal, or Ctrl+C twice
  | .interrupt => some { s with running := false }
  | .elapse ms => some { s with now := s.now + ms }

def step (s : ScriptMode) : ScriptAction → Option ScriptMode
  | .reader a => s.readerStep a
  | .sender a => s.senderStep a
  | .main a => s.mainStep a

/-- What the sender has taken from the channel and not yet handed over. -/
def inBatch (s : ScriptMode) : List Bytes :=
  match s.sender with
  | .batching batch => batch
  | _ => []

/-- A turn of the sender that finds `running` false finds the channel empty. -/
def FindsEmpty (s : ScriptMode) : ScriptAction → Prop
  | .sender .check => s.running = false → s.queue = []
  | _ => True

instance decidableFindsEmpty : ∀ s a, Decidable (FindsEmpty s a)
  | s, .sender .check => inferInstanceAs (Decidable (s.running = false → s.queue = []))
  | _, .reader _ | _, .main _ | _, .sender .receive | _, .sender .receiveTimeout
  | _, .sender .receiveDisconnected | _, .sender .collect | _, .sender .send
  | _, .sender (.returned _) | _, .sender .shutdownReturned => inferInstanceAs (Decidable True)

variable {s s' : ScriptMode}

/-- What a step of the reader can do: put a chunk on the channel, or move on. -/
theorem readerStep_cases {a : ReaderAction} (h : s.readerStep a = some s') :
    s.disconnected = false ∧
      ((∃ data, s.reader = .putting data ∧ s.hungUp = false ∧
        s' = { s with reader := .top, put := s.put ++ [data], queue := s.queue ++ [data] }) ∨
      ∃ reader, s' = { s with reader := reader } ∧
        (s.reader = .top → reader = if s.running then .reading else .stopped) ∧
        (reader = .eof → s.reader = .reading)) := by
  cases a with
  | check =>
    simp only [readerStep] at h
    split_ifs at h with htop hrunning
    · obtain rfl := Option.some.inj h
      exact ⟨by simp [disconnected, htop], Or.inr ⟨_, rfl, by simp [hrunning], nofun⟩⟩
    · obtain rfl := Option.some.inj h
      exact ⟨by simp [disconnected, htop], Or.inr ⟨_, rfl, by simp [hrunning], nofun⟩⟩
  | read data =>
    simp only [readerStep] at h
    split_ifs at h with hread
    obtain rfl := Option.some.inj h
    exact ⟨by simp [disconnected, hread.1], Or.inr ⟨_, rfl, by simp [hread.1], nofun⟩⟩
  | readBlocked =>
    simp only [readerStep] at h
    split_ifs at h with hread
    obtain rfl := Option.some.inj h
    exact ⟨by simp [disconnected, hread], Or.inr ⟨_, rfl, by simp [hread], nofun⟩⟩
  | readEnd =>
    simp only [readerStep] at h
    split_ifs at h with hread
    obtain rfl := Option.some.inj h
    exact ⟨by simp [disconnected, hread], Or.inr ⟨_, rfl, by simp [hread], fun _ => hread⟩⟩
  | display ok =>
    simp only [readerStep] at h
    split at h
    · rename_i data hdata
      obtain rfl := Option.some.inj h
      refine ⟨by simp [disconnected, hdata], Or.inr ⟨_, rfl, by simp [hdata], ?_⟩⟩
      cases ok <;> nofun
    · cases h
  | put =>
    simp only [readerStep] at h
    split at h
    · rename_i data hdata
      refine ⟨by simp [disconnected, hdata], ?_⟩
      split_ifs at h with hhung
      · obtain rfl := Option.some.inj h
        exact Or.inr ⟨_, rfl, by simp [hdata], nofun⟩
      · obtain rfl := Option.some.inj h
        exact Or.inl ⟨data, hdata, by simpa using hhung, rfl⟩
    · cases h

/-- What a step of the sender leaves alone: it takes from the channel in order, and a
shutdown is entered with `running` false or with nothing left to come. -/
structure SenderMoves (a : SenderAction) (s s' : ScriptMode) : Prop where
  put : s'.put = s.put
  reader : s'.reader = s.reader
  stays : s.running = false → s'.running = false
  taken : s'.handed.flatten ++ (s'.inBatch ++ s'.queue) =
    s.handed.flatten ++ (s.inBatch ++ s.queue)
  closed : s.shutdownCalled = true → s'.queue = s.queue ∧ s'.shutdownCalled = true
  closing : s.shutdownCalled = false → s'.shutdownCalled = true → s'.queue = s.queue ∧
    s'.running = s.running ∧
    (a = .check ∧ s.running = false ∨ s.queue = [] ∧ s.disconnected = true)

theorem senderStep_moves {a : SenderAction} (h : s.senderStep a = some s') :
    SenderMoves a s s' := by
  cases a with
  | check =>
    simp only [senderStep] at h
    split_ifs at h with htop hrunning
    · obtain rfl := Option.some.inj h
      refine ⟨rfl, rfl, fun h => h, ?_, ?_, ?_⟩ <;> simp [inBatch, shutdownCalled, htop]
    · obtain rfl := Option.some.inj h
      refine ⟨rfl, rfl, fun h => h, ?_, ?_, ?_⟩ <;> simp [inBatch, shutdownCalled, htop, hrunning]
  | receive =>
    simp only [senderStep] at h
    split at h
    · rename_i chunk queue hwait hqueue
      obtain rfl := Option.some.inj h
      refine ⟨rfl, rfl, fun h => h, ?_, ?_, ?_⟩ <;> simp [inBatch, shutdownCalled, hwait, hqueue]
    · cases h
  | receiveTimeout =>
    simp only [senderStep] at h
    split_ifs at h with hwait
    obtain rfl := Option.some.inj h
    refine ⟨rfl, rfl, fun h => h, ?_, ?_, ?_⟩ <;> simp [inBatch, shutdownCalled, hwait.1]
  | receiveDisconnected =>
    simp only [senderStep] at h
    split_ifs at h with hwait
    obtain rfl := Option.some.inj h
    refine ⟨rfl, rfl, fun h => h, ?_, ?_, ?_⟩ <;> simp [inBatch, shutdownCalled, hwait]
  | collect =>
    simp only [senderStep] at h
    split at h
    · rename_i batch chunk queue hbatch hqueue
      split_ifs at h
      obtain rfl := Option.some.inj h
      refine ⟨rfl, rfl, fun h => h, ?_, ?_, ?_⟩ <;> simp [inBatch, shutdownCalled, hbatch, hqueue]
    · cases h
  | send =>
    simp only [senderStep] at h
    split at h
    · rename_i batch hbatch
      split_ifs at h
      obtain rfl := Option.some.inj h
      refine ⟨rfl, rfl, fun h => h, ?_, ?_, ?_⟩ <;> simp [inBatch, shutdownCalled, hbatch]
    · cases h
  | returned authorized =>
    simp only [senderStep] at h
    split_ifs at h with hcalling
    · obtain rfl := Option.some.inj h
      refine ⟨rfl, rfl, fun h => h, ?_, ?_, ?_⟩ <;> simp [inBatch, shutdownCalled, hcalling]
    · obtain rfl := Option.some.inj h
      refine ⟨rfl, rfl, fun _ => rfl, ?_, ?_, ?_⟩ <;> simp [inBatch, shutdownCalled, hcalling]
  | shutdownReturned =>
    simp only [senderStep] at h
    split_ifs at h with hshut
    obtain rfl := Option.some.inj h
    refine ⟨rfl, rfl, fun h => h, ?_, ?_, ?_⟩ <;> simp [inBatch, shutdownCalled, hshut]

/-- What a step of the main thread, the watchdog or the world leaves alone. -/
structure MainMoves (s s' : ScriptMode) : Prop where
  put : s'.put = s.put
  reader : s'.reader = s.reader
  queue : s'.queue = s.queue
  sender : s'.sender = s.sender
  handed : s'.handed = s.handed
  stays : s.running = false → s'.running = false

theorem mainStep_moves {a : MainAction} (h : s.mainStep a = some s') : MainMoves s s' := by
  cases a with
  | poll =>
    simp only [mainStep] at h
    split_ifs at h
    · obtain rfl := Option.some.inj h
      exact ⟨rfl, rfl, rfl, rfl, rfl, fun h => h⟩
    · obtain rfl := Option.some.inj h
      exact ⟨rfl, rfl, rfl, rfl, rfl, fun h => h⟩
  | joined =>
    simp only [mainStep] at h
    split_ifs at h
    · obtain rfl := Option.some.inj h
      exact ⟨rfl, rfl, rfl, rfl, rfl, fun h => h⟩
    · obtain rfl := Option.some.inj h
      exact ⟨rfl, rfl, rfl, rfl, rfl, fun _ => rfl⟩
  | watchdogFires =>
    simp only [mainStep] at h
    split_ifs at h
    obtain rfl := Option.some.inj h
    exact ⟨rfl, rfl, rfl, rfl, rfl, fun _ => rfl⟩
  | childExits =>
    obtain rfl := Option.some.inj h
    exact ⟨rfl, rfl, rfl, rfl, rfl, fun h => h⟩
  | interrupt =>
    obtain rfl := Option.some.inj h
    exact ⟨rfl, rfl, rfl, rfl, rfl, fun _ => rfl⟩
  | elapse ms =>
    obtain rfl := Option.some.inj h
    exact ⟨rfl, rfl, rfl, rfl, rfl, fun h => h⟩

/-- The chunks that were put on the channel are handed over, in the batch, or still on the
channel, in this order. -/
def Accounted (s : ScriptMode) : Prop := s.handed.flatten ++ (s.inBatch ++ s.queue) = s.put

theorem accounted_step {a : ScriptAction} (h : s.Accounted) (hstep : step s a = some s') :
    s'.Accounted := by
  cases a with
  | reader a =>
    obtain ⟨-, ⟨data, -, -, rfl⟩ | ⟨reader, rfl, -⟩⟩ := readerStep_cases hstep
    · calc s.handed.flatten ++ (s.inBatch ++ (s.queue ++ [data]))
          = s.handed.flatten ++ (s.inBatch ++ s.queue) ++ [data] := by simp
        _ = s.put ++ [data] := by rw [h]
    · exact h
  | sender a =>
    have hmoves := senderStep_moves hstep
    rw [Accounted, hmoves.taken, hmoves.put]
    exact h
  | main a =>
    have hmoves := mainStep_moves hstep
    rw [Accounted, inBatch, hmoves.handed, hmoves.sender, hmoves.queue, hmoves.put]
    exact h

theorem accounted_run {as : List ScriptAction} (hrun : run step start as = some s) :
    s.Accounted := by
  apply run_preserves _ _ hrun
  · exact fun s a s' h hstep => accounted_step h hstep
  · rfl

/-- The sender has left chunks behind for good. -/
def LeftBehind (s : ScriptMode) : Prop := s.shutdownCalled = true ∧ s.queue ≠ []

theorem leftBehind_step {a : ScriptAction} (h : s.LeftBehind) (hstep : step s a = some s') :
    s'.LeftBehind := by
  cases a with
  | reader a =>
    obtain ⟨-, ⟨data, -, -, rfl⟩ | ⟨reader, rfl, -⟩⟩ := readerStep_cases hstep
    · exact ⟨h.1, by simp⟩
    · exact h
  | sender a =>
    have hclosed := (senderStep_moves hstep).closed h.1
    rw [LeftBehind, hclosed.1]
    exact ⟨hclosed.2, h.2⟩
  | main a =>
    have hmoves := mainStep_moves hstep
    rw [LeftBehind, shutdownCalled, hmoves.sender, hmoves.queue]
    exact h

/-- After a shutdown of an empty channel: either nothing came since, or the reader was late
and will not come to the end of the output. -/
def Settled (s : ScriptMode) : Prop := s.shutdownCalled = true →
  (s.queue = [] ∧ (s.running = false ∨ s.disconnected = true)) ∨
    s.running = false ∧ (s.reader = .top ∨ s.reader = .stopped)

theorem settled_step {a : ScriptAction} (h : s.Settled) (hempty : s.FindsEmpty a)
    (hstep : step s a = some s') : s'.Settled := by
  cases a with
  | reader a =>
    obtain ⟨hopen, hmove⟩ := readerStep_cases hstep
    -- a reader that still steps has not dropped the channel, so the flag ended the sender
    have hrunning : s.shutdownCalled = true → s.running = false := by
      intro hshut
      rcases h hshut with ⟨-, hfalse | hdone⟩ | ⟨hfalse, -⟩
      · exact hfalse
      · rw [hopen] at hdone
        cases hdone
      · exact hfalse
    rcases hmove with ⟨data, -, -, rfl⟩ | ⟨reader, rfl, htop, heof⟩
    · intro hshut
      exact Or.inr ⟨hrunning hshut, Or.inl rfl⟩
    · intro hshut
      have hfalse := hrunning hshut
      rcases h hshut with ⟨hqueue, -⟩ | ⟨-, hlate⟩
      · exact Or.inl ⟨hqueue, Or.inl hfalse⟩
      · -- a late reader finds the flag down at its next turn
        right
        rcases hlate with htop' | hstopped
        · have hreader := htop htop'
          rw [hfalse] at hreader
          exact ⟨hfalse, Or.inr hreader⟩
        · rw [disconnected, hstopped] at hopen
          cases hopen
  | sender a =>
    have hmoves := senderStep_moves hstep
    intro hshut
    cases hbefore : s.shutdownCalled with
    | true =>
      rw [(hmoves.closed hbefore).1, disconnected, hmoves.reader]
      rcases h hbefore with ⟨hqueue, hwhy⟩ | ⟨hfalse, hlate⟩
      · exact Or.inl ⟨hqueue, hwhy.imp_left hmoves.stays⟩
      · exact Or.inr ⟨hmoves.stays hfalse, hlate⟩
    | false =>
      obtain ⟨hqueue, hsame, ⟨rfl, hfalse⟩ | ⟨hnone, hdone⟩⟩ := hmoves.closing hbefore hshut
      · rw [hqueue, hsame]
        exact Or.inl ⟨hempty hfalse, Or.inl hfalse⟩
      · rw [hqueue, disconnected, hmoves.reader]
        exact Or.inl ⟨hnone, Or.inr hdone⟩
  | main a =>
    have hmoves := mainStep_moves hstep
    rw [Settled, shutdownCalled, hmoves.sender, hmoves.queue, disconnected, hmoves.reader]
    intro hshut
    rcases h hshut with ⟨hqueue, hwhy⟩ | ⟨hfalse, hlate⟩
    · exact Or.inl ⟨hqueue, hwhy.imp_left hmoves.stays⟩
    · exact Or.inr ⟨hmoves.stays hfalse, hlate⟩

theorem leftBehind_of_check {a : ScriptAction} (h : ¬s.FindsEmpty a)
    (hstep : step s a = some s') : s'.LeftBehind := by
  match a with
  | .sender .check =>
    simp only [FindsEmpty, Classical.not_imp] at h
    simp only [step, senderStep] at hstep
    split_ifs at hstep with htop hrunning
    · rw [h.1] at hrunning
      cases hrunning
    · obtain rfl := Option.some.inj hstep
      exact ⟨rfl, h.2⟩
  | .reader _ | .main _ | .sender .receive | .sender .receiveTimeout
  | .sender .receiveDisconnected | .sender .collect | .sender .send | .sender (.returned _)
  | .sender .shutdownReturned => exact absurd trivial h

/-- Chunks that a turn of the sender leaves behind stay on the channel. -/
theorem findsEmpty_of_queue_nil {t : ScriptMode} {as : List ScriptAction}
    (hrun : run step s as = some t) (hqueue : t.queue = []) :
    StepsSatisfy step FindsEmpty s as := by
  induction as generalizing s with
  | nil => trivial
  | cons a as ih =>
    intro s' hs'
    obtain ⟨s'', hs'', hrest⟩ := run_cons_eq_some.mp hrun
    obtain rfl : s'' = s' := Option.some.inj (hs''.symm.trans hs')
    refine ⟨?_, ih hrest⟩
    by_contra hfound
    -- what is left behind now is left behind at the end of the run
    have hleft := leftBehind_of_check hfound hs''
    have hend := run_preserves (fun _ _ _ h hstep => leftBehind_step h hstep) hleft hrest
    exact hend.2 hqueue

/-- Once the reader has come to the end of the output and a shutdown was called, all
chunks were handed over, each once and in order, exactly if no turn of the sender found
`running` false with chunks on the channel. -/
theorem output_handed_iff {as : List ScriptAction} {s : ScriptMode}
    (hrun : run step start as = some s) (heof : s.reader = .eof)
    (hshut : s.shutdownCalled = true) :
    s.handed.flatten = s.put ↔ StepsSatisfy step FindsEmpty start as := by
  have hbatch : s.inBatch = [] := by
    rw [shutdownCalled] at hshut
    cases hsender : s.sender <;> simp_all [inBatch]
  have haccounted := accounted_run hrun
  rw [Accounted, hbatch, List.nil_append] at haccounted
  constructor
  · intro hall
    apply findsEmpty_of_queue_nil hrun
    rw [← hall] at haccounted
    simpa using haccounted
  · intro hempty
    have hsettled : s.Settled := by
      apply run_preserves_of_steps _ _ hempty hrun
      · exact fun s a s' h hempty hstep => settled_step h hempty hstep
      · nofun
    have hqueue : s.queue = [] := by
      rcases hsettled hshut with ⟨hqueue, -⟩ | ⟨-, hlate⟩
      · exact hqueue
      · simp [heof] at hlate
    rw [hqueue, List.append_nil] at haccounted
    exact haccounted

/-- The reader takes a chunk from the PTY and puts it on the channel. -/
def relays (data : Bytes) : List ScriptAction :=
  [.reader .check, .reader (.read data), .reader (.display true), .reader .put]

/-- Neither a signal nor an authorization error. -/
def ScriptAction.undisturbed : ScriptAction → Bool
  | .main .interrupt | .sender (.returned false) => false
  | _ => true

/-- A command whose last output is sent in time. -/
def promptUplink : List ScriptAction :=
  relays [104] ++ [.main .childExits, .main .poll, .reader .check, .reader .readEnd,
    .sender .check, .sender .receive, .sender .send, .sender (.returned true), .sender .check,
    .sender .receiveDisconnected]

theorem output_handed_prompt : ∃ s, run step start promptUplink = some s ∧
    s.put = [[104]] ∧ s.handed.flatten = s.put := by
  have hrun : run step start promptUplink = some ⟨true, .eof, [[104]], [], .shuttingDown,
      [[[104]]], .joiningReader, true, some 2000, 0⟩ := rfl
  exact ⟨_, hrun, rfl, (output_handed_iff hrun rfl rfl).mpr (by decide)⟩

/-- A command that exits while a send of its first output is still going on, two seconds
before the send returns. -/
def slowUplink : List ScriptAction :=
  relays [104] ++ [.sender .check, .sender .receive, .sender .send] ++ relays [105] ++
    [.main .childExits, .main .poll, .reader .check, .reader .readEnd, .main (.elapse 2000),
      .main .watchdogFires, .sender (.returned true), .sender .check]

/-- The watchdog that bounds the reader's drain ends the sender's, and the tail of the
output is lost. -/
theorem output_truncated : (slowUplink.all ScriptAction.undisturbed) = true ∧
    (run step start slowUplink).map (fun s =>
      (s.reader, s.shutdownCalled, s.handed.flatten, s.put)) =
        some (.eof, true, [[104]], [[104], [105]]) := by
  constructor <;> decide

end ScriptMode
end Shellshare
