import Shellshare.ScriptMode
import Shellshare.TransitionReach

/-! How a session in script mode comes to its end once its command has exited or it was
told to stop: how much is left to be done, by which thread, and what it can wait for. -/
namespace Shellshare
open TransitionRuns

/-- A step of the reader, of the sender or of the main thread; the others are the world's
and the watchdog's. -/
def ScriptAction.ofThread : ScriptAction → Bool
  | .reader _ | .sender _ | .main .poll | .main .joined => true
  | .main _ => false

/-- A read of the PTY returns. -/
def ScriptAction.ofRead : ScriptAction → Bool
  | .reader (.read _) | .reader .readBlocked | .reader .readEnd => true
  | _ => false

/-- The steps that the reader can still take once the flag is down. -/
def PtyReader.left : PtyReader → ℕ
  | .reading => 4
  | .displaying _ => 3
  | .putting _ => 2
  | .top => 1
  | .eof | .stopped => 0

def SenderThread.left : SenderThread → ℕ
  | .waiting => 5
  | .batching _ => 4
  | .calling => 3
  | .top => 2
  | .shuttingDown => 1
  | .finished | .abandoned => 0

def MainThread.left : MainThread → ℕ
  | .polling => 3
  | .joiningReader => 2
  | .joiningSender => 1
  | .over => 0

namespace ScriptMode

/-- What is left to be done once the flag is down. A chunk that the reader puts on the
channel is taken from there by the sender, so the reader's steps count twice. -/
def left (s : ScriptMode) : ℕ := 2 * s.reader.left + s.queue.length + s.sender.left + s.main.left

variable {s s' : ScriptMode}

theorem left_le (s : ScriptMode) : s.left ≤ 16 + s.queue.length := by
  have hreader : s.reader.left ≤ 4 := by
    cases s.reader <;> simp [PtyReader.left]
  have hsender : s.sender.left ≤ 5 := by
    cases s.sender <;> simp [SenderThread.left]
  have hmain : s.main.left ≤ 3 := by
    cases s.main <;> simp [MainThread.left]
  rw [left]
  omega

theorem reader_left (hdown : s.running = false) {a : ReaderAction}
    (hstep : s.readerStep a = some s') : s'.running = false ∧ 1 + s'.left ≤ s.left := by
  cases a with
  | check =>
    simp only [readerStep] at hstep
    split_ifs at hstep with htop hrunning
    · rw [hdown] at hrunning
      cases hrunning
    · obtain rfl := Option.some.inj hstep
      exact ⟨hdown, by simp only [left, htop, PtyReader.left]; omega⟩
  | read data =>
    simp only [readerStep] at hstep
    split_ifs at hstep with hread
    obtain rfl := Option.some.inj hstep
    exact ⟨hdown, by simp only [left, hread.1, PtyReader.left]; omega⟩
  | readBlocked =>
    simp only [readerStep] at hstep
    split_ifs at hstep with hread
    obtain rfl := Option.some.inj hstep
    exact ⟨hdown, by simp only [left, hread, PtyReader.left]; omega⟩
  | readEnd =>
    simp only [readerStep] at hstep
    split_ifs at hstep with hread
    obtain rfl := Option.some.inj hstep
    exact ⟨hdown, by simp only [left, hread, PtyReader.left]; omega⟩
  | display ok =>
    simp only [readerStep] at hstep
    split at hstep
    · rename_i data hdata
      obtain rfl := Option.some.inj hstep
      refine ⟨hdown, ?_⟩
      cases ok with
      | false =>
        simp only [left, hdata, PtyReader.left, Bool.false_eq_true, if_false]
        omega
      | true =>
        simp only [left, hdata, PtyReader.left, if_true]
        omega
    · cases hstep
  | put =>
    simp only [readerStep] at hstep
    split at hstep
    · rename_i data hdata
      split_ifs at hstep
      · obtain rfl := Option.some.inj hstep
        exact ⟨hdown, by simp only [left, hdata, PtyReader.left]; omega⟩
      · -- the chunk is one more on the channel
        obtain rfl := Option.some.inj hstep
        refine ⟨hdown, ?_⟩
        simp only [left, hdata, PtyReader.left, List.length_append, List.length_singleton]
        omega
    · cases hstep

/-- A sender that steps has not dropped the channel. It leaves the main thread alone, and
once the flag is down it has less to do. -/
structure SenderAdvances (s s' : ScriptMode) : Prop where
  main : s'.main = s.main
  watchdog : s'.watchdog = s.watchdog
  now : s'.now = s.now
  holds : s.hungUp = false
  work : s.running = false →
    1 + (s'.queue.length + s'.sender.left) ≤ s.queue.length + s.sender.left

theorem senderStep_advances {a : SenderAction} (hstep : s.senderStep a = some s') :
    SenderAdvances s s' := by
  cases a with
  | check =>
    simp only [senderStep] at hstep
    split_ifs at hstep with htop hrunning
    · obtain rfl := Option.some.inj hstep
      refine ⟨rfl, rfl, rfl, by simp [hungUp, htop], fun hdown => ?_⟩
      rw [hdown] at hrunning
      cases hrunning
    · obtain rfl := Option.some.inj hstep
      refine ⟨rfl, rfl, rfl, by simp [hungUp, htop], fun _ => ?_⟩
      simp only [htop, SenderThread.left]
      omega
  | receive =>
    simp only [senderStep] at hstep
    split at hstep
    · rename_i chunk queue hwait hqueue
      obtain rfl := Option.some.inj hstep
      refine ⟨rfl, rfl, rfl, by simp [hungUp, hwait], fun _ => ?_⟩
      simp only [hwait, hqueue, SenderThread.left, List.length_cons]
      omega
    · cases hstep
  | receiveTimeout =>
    simp only [senderStep] at hstep
    split_ifs at hstep with hwait
    obtain rfl := Option.some.inj hstep
    refine ⟨rfl, rfl, rfl, by simp [hungUp, hwait.1], fun _ => ?_⟩
    simp only [hwait.1, SenderThread.left]
    omega
  | receiveDisconnected =>
    simp only [senderStep] at hstep
    split_ifs at hstep with hwait
    obtain rfl := Option.some.inj hstep
    refine ⟨rfl, rfl, rfl, by simp [hungUp, hwait.1], fun _ => ?_⟩
    simp only [hwait.1, SenderThread.left]
    omega
  | collect =>
    simp only [senderStep] at hstep
    split at hstep
    · rename_i batch chunk queue hbatch hqueue
      split_ifs at hstep
      obtain rfl := Option.some.inj hstep
      refine ⟨rfl, rfl, rfl, by simp [hungUp, hbatch], fun _ => ?_⟩
      simp only [hbatch, hqueue, SenderThread.left, List.length_cons]
      omega
    · cases hstep
  | send =>
    simp only [senderStep] at hstep
    split at hstep
    · rename_i batch hbatch
      split_ifs at hstep
      obtain rfl := Option.some.inj hstep
      refine ⟨rfl, rfl, rfl, by simp [hungUp, hbatch], fun _ => ?_⟩
      simp only [hbatch, SenderThread.left]
      omega
    · cases hstep
  | returned authorized =>
    simp only [senderStep] at hstep
    split_ifs at hstep with hcalling
    all_goals
      obtain rfl := Option.some.inj hstep
      refine ⟨rfl, rfl, rfl, by simp [hungUp, hcalling], fun _ => ?_⟩
      simp only [hcalling, SenderThread.left]
      omega
  | shutdownReturned =>
    simp only [senderStep] at hstep
    split_ifs at hstep with hshut
    obtain rfl := Option.some.inj hstep
    refine ⟨rfl, rfl, rfl, by simp [hungUp, hshut], fun _ => ?_⟩
    simp only [hshut, SenderThread.left]
    omega

theorem sender_left (hdown : s.running = false) {a : SenderAction}
    (hstep : s.senderStep a = some s') : s'.running = false ∧ 1 + s'.left ≤ s.left := by
  have hmoves := senderStep_moves hstep
  have hadvances := senderStep_advances hstep
  have hwork := hadvances.work hdown
  refine ⟨hmoves.stays hdown, ?_⟩
  rw [left, left, hmoves.reader, hadvances.main]
  omega

theorem main_left (hdown : s.running = false) {a : MainAction} (hstep : s.mainStep a = some s') :
    s'.running = false ∧ (ScriptAction.main a).ofThread.toNat + s'.left ≤ s.left := by
  cases a with
  | poll =>
    simp only [mainStep, hdown, true_or, if_true] at hstep
    split_ifs at hstep with hpolling
    obtain rfl := Option.some.inj hstep
    refine ⟨rfl, ?_⟩
    simp only [left, hpolling, MainThread.left, ScriptAction.ofThread, Bool.toNat_true]
    omega
  | joined =>
    simp only [mainStep] at hstep
    split_ifs at hstep with hreader hsender
    · obtain rfl := Option.some.inj hstep
      refine ⟨hdown, ?_⟩
      simp only [left, hreader.1, MainThread.left, ScriptAction.ofThread, Bool.toNat_true]
      omega
    · obtain rfl := Option.some.inj hstep
      refine ⟨rfl, ?_⟩
      simp only [left, hsender.1, MainThread.left, ScriptAction.ofThread, Bool.toNat_true]
      omega
  | watchdogFires =>
    simp only [mainStep] at hstep
    split_ifs at hstep
    obtain rfl := Option.some.inj hstep
    exact ⟨rfl, by simp [ScriptAction.ofThread, left]⟩
  | childExits =>
    obtain rfl := Option.some.inj hstep
    exact ⟨hdown, by simp [ScriptAction.ofThread, left]⟩
  | interrupt =>
    obtain rfl := Option.some.inj hstep
    exact ⟨rfl, by simp [ScriptAction.ofThread, left]⟩
  | elapse ms =>
    obtain rfl := Option.some.inj hstep
    exact ⟨hdown, by simp [ScriptAction.ofThread, left]⟩

theorem step_left (hdown : s.running = false) {a : ScriptAction} (hstep : s.step a = some s') :
    s'.running = false ∧ a.ofThread.toNat + s'.left ≤ s.left := by
  cases a with
  | reader a => exact reader_left hdown hstep
  | sender a => exact sender_left hdown hstep
  | main a => exact main_left hdown hstep

/-- A thread can take a step that does not wait for the PTY. -/
def CanMove (s : ScriptMode) : Prop :=
  ∃ a : ScriptAction, a.ofThread = true ∧ a.ofRead = false ∧ (s.step a).isSome = true

/-- A reader that has not dropped the channel is in a read, or can move. -/
theorem reader_moves (hopen : s.disconnected = false) : s.reader = .reading ∨ s.CanMove := by
  cases hreader : s.reader with
  | top => exact Or.inr ⟨.reader .check, rfl, rfl, by simp [step, readerStep, hreader]⟩
  | reading => exact Or.inl rfl
  | displaying data =>
    exact Or.inr ⟨.reader (.display true), rfl, rfl, by simp [step, readerStep, hreader]⟩
  | putting data =>
    refine Or.inr ⟨.reader .put, rfl, rfl, ?_⟩
    simp only [step, readerStep, hreader]
    split_ifs <;> rfl
  | eof => simp [disconnected, hreader] at hopen
  | stopped => simp [disconnected, hreader] at hopen

/-- A sender that has not dropped the channel can move, whatever is on it. -/
theorem sender_moves (hopen : s.hungUp = false) : s.CanMove := by
  cases hsender : s.sender with
  | top => exact ⟨.sender .check, rfl, rfl, by simp [step, senderStep, hsender]⟩
  | waiting =>
    cases hqueue : s.queue with
    | cons chunk queue =>
      exact ⟨.sender .receive, rfl, rfl, by simp [step, senderStep, hsender, hqueue]⟩
    | nil =>
      cases hgone : s.disconnected with
      | true =>
        exact ⟨.sender .receiveDisconnected, rfl, rfl,
          by simp [step, senderStep, hsender, hqueue, hgone]⟩
      | false =>
        exact ⟨.sender .receiveTimeout, rfl, rfl,
          by simp [step, senderStep, hsender, hqueue, hgone]⟩
  | batching batch =>
    by_cases hfull : maxBatch ≤ totalLength batch
    · exact ⟨.sender .send, rfl, rfl, by simp [step, senderStep, hsender, hfull]⟩
    · cases hqueue : s.queue with
      | nil => exact ⟨.sender .send, rfl, rfl, by simp [step, senderStep, hsender, hqueue]⟩
      | cons chunk queue =>
        have hroom : totalLength batch < maxBatch := by omega
        exact ⟨.sender .collect, rfl, rfl, by simp [step, senderStep, hsender, hqueue, hroom]⟩
  | calling => exact ⟨.sender (.returned true), rfl, rfl, by simp [step, senderStep, hsender]⟩
  | shuttingDown =>
    exact ⟨.sender .shutdownReturned, rfl, rfl, by simp [step, senderStep, hsender]⟩
  | finished => simp [hungUp, hsender] at hopen
  | abandoned => simp [hungUp, hsender] at hopen

/-- Until a session is over something can move, or the reader is in a read. -/
theorem canMove_of_not_over (hover : s.main ≠ .over) : s.reader = .reading ∨ s.CanMove := by
  cases hmain : s.main with
  | polling =>
    refine Or.inr ⟨.main .poll, rfl, rfl, ?_⟩
    simp only [step, mainStep, hmain, if_true]
    split_ifs <;> rfl
  | joiningReader =>
    cases hgone : s.disconnected with
    | true => exact Or.inr ⟨.main .joined, rfl, rfl, by simp [step, mainStep, hmain, hgone]⟩
    | false => exact reader_moves hgone
  | joiningSender =>
    cases hgone : s.hungUp with
    | true => exact Or.inr ⟨.main .joined, rfl, rfl, by simp [step, mainStep, hmain, hgone]⟩
    | false => exact Or.inr (sender_moves hgone)
  | _ => exact absurd hmain hover

/-- What the other threads never touch. -/
structure KeepsMain (s s' : ScriptMode) : Prop where
  main : s'.main = s.main
  watchdog : s'.watchdog = s.watchdog
  now : s'.now = s.now
  stays : s.running = false → s'.running = false
  gone : s.disconnected = true → s'.disconnected = true
  quit : s.hungUp = true → s'.hungUp = true

theorem readerStep_keepsMain {a : ReaderAction} (hstep : s.readerStep a = some s') :
    KeepsMain s s' := by
  obtain ⟨hopen, ⟨data, -, -, rfl⟩ | ⟨reader, rfl, -⟩⟩ := readerStep_cases hstep
  · exact ⟨rfl, rfl, rfl, fun h => h, fun h => by simp [hopen] at h, fun h => h⟩
  · exact ⟨rfl, rfl, rfl, fun h => h, fun h => by simp [hopen] at h, fun h => h⟩

theorem senderStep_keepsMain {a : SenderAction} (hstep : s.senderStep a = some s') :
    KeepsMain s s' := by
  have hmoves := senderStep_moves hstep
  have hadvances := senderStep_advances hstep
  refine ⟨hadvances.main, hadvances.watchdog, hadvances.now, hmoves.stays, ?_, ?_⟩
  · intro hgone
    rw [disconnected, hmoves.reader]
    exact hgone
  · intro hquit
    rw [hadvances.holds] at hquit
    cases hquit

/-- How far the main thread is with its two joins, and what the watchdog is for: as long
as the main thread waits with the flag up, the flag has two seconds left at most. -/
structure Closing (s : ScriptMode) : Prop where
  watched : s.main ≠ .polling → s.running = true →
    ∃ time, s.watchdog = some time ∧ time ≤ s.now + drainGrace
  readerJoined : s.main = .joiningSender → s.disconnected = true
  bothJoined : s.main = .over →
    s.disconnected = true ∧ s.hungUp = true ∧ s.running = false

theorem Closing.of_keepsMain (h : s.Closing) (hkeeps : KeepsMain s s') : s'.Closing where
  watched hmain hup := by
    have hup' : s.running = true := by
      by_contra hdown
      rw [hkeeps.stays (by simpa using hdown)] at hup
      cases hup
    rw [hkeeps.watchdog, hkeeps.now]
    exact h.watched (hkeeps.main ▸ hmain) hup'
  readerJoined hmain := hkeeps.gone (h.readerJoined (hkeeps.main ▸ hmain))
  bothJoined hmain := by
    obtain ⟨hgone, hquit, hdown⟩ := h.bothJoined (hkeeps.main ▸ hmain)
    exact ⟨hkeeps.gone hgone, hkeeps.quit hquit, hkeeps.stays hdown⟩

theorem closing_mainStep (h : s.Closing) {a : MainAction} (hstep : s.mainStep a = some s') :
    s'.Closing := by
  cases a with
  | poll =>
    simp only [mainStep] at hstep
    split_ifs at hstep
    · -- the watchdog starts as the joins do
      obtain rfl := Option.some.inj hstep
      exact ⟨fun _ _ => ⟨_, rfl, le_rfl⟩, fun hmain => (by cases hmain),
        fun hmain => (by cases hmain)⟩
    · obtain rfl := Option.some.inj hstep
      exact h
  | joined =>
    simp only [mainStep] at hstep
    split_ifs at hstep with hreader hsender
    · obtain rfl := Option.some.inj hstep
      refine ⟨fun _ hup => h.watched ?_ hup, fun _ => hreader.2, fun hmain => (by cases hmain)⟩
      rw [hreader.1]
      exact MainThread.noConfusion
    · obtain rfl := Option.some.inj hstep
      exact ⟨fun _ hup => (by cases hup), fun hmain => (by cases hmain),
        fun _ => ⟨h.readerJoined hsender.1, hsender.2, rfl⟩⟩
  | watchdogFires =>
    simp only [mainStep] at hstep
    split_ifs at hstep
    obtain rfl := Option.some.inj hstep
    exact ⟨fun _ hup => (by cases hup), h.readerJoined,
      fun hmain => ⟨(h.bothJoined hmain).1, (h.bothJoined hmain).2.1, rfl⟩⟩
  | childExits =>
    obtain rfl := Option.some.inj hstep
    exact ⟨h.watched, h.readerJoined, h.bothJoined⟩
  | interrupt =>
    obtain rfl := Option.some.inj hstep
    exact ⟨fun _ hup => (by cases hup), h.readerJoined,
      fun hmain => ⟨(h.bothJoined hmain).1, (h.bothJoined hmain).2.1, rfl⟩⟩
  | elapse ms =>
    obtain rfl := Option.some.inj hstep
    refine ⟨fun hmain hup => ?_, h.readerJoined, h.bothJoined⟩
    obtain ⟨time, hwatchdog, hsoon⟩ := h.watched hmain hup
    refine ⟨time, hwatchdog, ?_⟩
    show time ≤ s.now + ms + drainGrace
    omega

theorem closing_step (h : s.Closing) {a : ScriptAction} (hstep : s.step a = some s') :
    s'.Closing := by
  cases a with
  | reader a => exact h.of_keepsMain (readerStep_keepsMain hstep)
  | sender a => exact h.of_keepsMain (senderStep_keepsMain hstep)
  | main a => exact closing_mainStep h hstep

theorem closing_run {as : List ScriptAction} (hrun : run step start as = some s) : s.Closing := by
  apply run_preserves _ _ hrun
  · exact fun s a s' h hstep => closing_step h hstep
  · exact ⟨fun hmain => absurd rfl hmain, fun hmain => (by cases hmain),
      fun hmain => (by cases hmain)⟩

/-- A main thread that waits has at most two seconds of output still read. After that,
or after a signal, the threads take a bounded number of steps altogether, whatever their
order, and each schedule can go on to the end of the session unless the reader is in a
read of the PTY that does not return. The end leaves none of them running. -/
theorem session_ends {as bs : List ScriptAction} (hrun : run step start as = some s)
    (hmore : run step s bs = some s') :
    (s.main ≠ .polling → s.running = true →
      ∃ time, s.watchdog = some time ∧ time ≤ s.now + drainGrace) ∧
    (s.running = false → s'.running = false ∧
      bs.countP ScriptAction.ofThread + s'.left ≤ s.left ∧ s.left ≤ 16 + s.queue.length ∧
      (s'.main = .over ∨ s'.reader = .reading ∨ s'.CanMove)) ∧
    (s'.main = .over → s'.disconnected = true ∧ s'.hungUp = true ∧ s'.running = false) := by
  have hall : run step start (as ++ bs) = some s' := by
    rw [run_append, hrun]
    exact hmore
  refine ⟨(closing_run hrun).watched, fun hdown => ⟨?_, ?_, left_le s, ?_⟩,
    (closing_run hall).bothJoined⟩
  · exact run_preserves (I := fun s => s.running = false)
      (fun t a t' h hstep => (step_left h hstep).1) hdown hmore
  · exact countP_add_le_of_measure (fun t a t' h hstep => step_left h hstep) hdown hmore
  · by_cases hover : s'.main = .over
    · exact Or.inl hover
    · exact Or.inr (canMove_of_not_over hover)

/-- A session told to stop while its reader shows the first output. -/
theorem session_ends_interrupted : ∃ s s',
    run step start [.reader .check, .reader (.read [104]), .main .interrupt] = some s ∧
    run step s [.reader (.display true), .reader .put, .reader .check, .sender .check,
      .sender .shutdownReturned, .main .poll, .main .joined, .main .joined] = some s' ∧
    s.left = 11 ∧ 8 + s'.left ≤ s.left ∧ s'.main = .over ∧ s'.hungUp = true := by
  have hrun : run step start [.reader .check, .reader (.read [104]), .main .interrupt] =
      some ⟨false, .displaying [104], [], [], .top, [], .polling, false, none, 0⟩ := rfl
  have hmore : run step
      (⟨false, .displaying [104], [], [], .top, [], .polling, false, none, 0⟩ : ScriptMode)
      [.reader (.display true), .reader .put, .reader .check, .sender .check,
        .sender .shutdownReturned, .main .poll, .main .joined, .main .joined] =
      some ⟨false, .stopped, [[104]], [[104]], .finished, [], .over, false,
        some (0 + drainGrace), 0⟩ := rfl
  refine ⟨_, _, hrun, hmore, rfl, ?_, rfl, ?_⟩
  · exact ((session_ends hrun hmore).2.1 rfl).2.1
  · exact ((session_ends hrun hmore).2.2 rfl).2.1

end ScriptMode

end Shellshare
