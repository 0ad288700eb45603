import Shellshare.ReplayWindow

/-! Stream mode: standard input is read on a thread of its own, teed as it is, and
broadcast with its line ends translated. A first Ctrl+C lets it drain. Each step is one
access of a thread to what is shared, in any order. -/
namespace Shellshare
open TransitionRuns

/-- `ended` is at the end of the input, after a read error, or with the channel closed. -/
inductive StdinReader where
  | reading
  | echoing (chunk : Bytes)
  | sending (chunk : Bytes)
  | ended
deriving DecidableEq

/-- `calling` is inside of `send` or `tick`, `abandoned` after an authorization error. -/
inductive StreamSender where
  | top
  | waiting
  | calling
  | shuttingDown
  | finished
  | abandoned
deriving DecidableEq

/-- `input` records what the reads have returned, `teed` and `handed` the arguments of the
calls of `write_all` and `send`. -/
structure StreamMode where
  running : Bool
  forced : Bool
  reader : StdinReader
  input : Bytes
  teed : List Bytes
  queue : List Bytes
  sender : StreamSender
  prevWasCr : Bool
  handed : List Bytes

inductive StreamAction where
  | read (chunk : Bytes)
  | readInterrupted
  | readEnd
  | echo
  | put
  | check
  | receive
  | receiveTimeout
  | receiveDisconnected
  | returned (authorized : Bool)
  | shutdownReturned
  | signal (sigint : Bool)

def channelBound : ℕ := 64

namespace StreamMode

def carriageReturn : UInt8 := 13
def lineFeed : UInt8 := 10

/-- A turn of the loop of `lf_to_crlf`, on `prev_was_cr` and `out`. -/
def pushByte (state : Bool × Bytes) (byte : UInt8) : Bool × Bytes :=
  (byte = carriageReturn,
    state.2 ++ (if byte = lineFeed ∧ state.1 = false then [carriageReturn] else []) ++ [byte])

/-- `prev_was_cr` and `out` after the call. -/
def lfToCrlf (input : Bytes) (prevWasCr : Bool) : Bool × Bytes :=
  input.foldl pushByte (prevWasCr, [])

/-- The input with a carriage return before each line feed that does not follow one. -/
def withReturns (input : Bytes) : Bytes :=
  (List.range input.length).flatMap fun i =>
    (if input[i]? = some lineFeed ∧ (i = 0 ∨ input[i - 1]? ≠ some carriageReturn) then
      [carriageReturn] else []) ++ input[i]?.toList

def start : StreamMode := ⟨true, false, .reading, [], [], [], .top, false, []⟩

/-- The receiver of the channel is dropped. -/
def hungUp (s : StreamMode) : Bool := s.sender = .finished || s.sender = .abandoned

/-- `Transport::shutdown` was called. -/
def shutdownCalled (s : StreamMode) : Bool := s.sender = .shuttingDown || s.sender = .finished

def step (echoStdout : Bool) (s : StreamMode) : StreamAction → Option StreamMode
  | .read chunk =>
    if s.reader = .reading ∧ chunk ≠ [] ∧ chunk.length ≤ readSize then
      some { s with reader := .echoing chunk, input := s.input ++ chunk }
    else none
  | .readInterrupted => if s.reader = .reading then some s else none
  | .readEnd => if s.reader = .reading then some { s with reader := .ended } else none
  | .echo =>
    match s.reader with
    | .echoing chunk =>
      some { s with
        reader := .sending chunk
        teed := if echoStdout then s.teed ++ [chunk] else s.teed }
    | _ => none
  | .put =>
    match s.reader with
    | .sending chunk =>
      -- only a forced exit or an authorization error drops the receiver
      if s.hungUp then some { s with reader := .ended }
      -- a full channel blocks the reader
      else if s.queue.length < channelBound then
        some { s with reader := .reading, queue := s.queue ++ [chunk] }
      else none
    | _ => none
  | .check =>
    -- a first Ctrl+C does not end the loop
    if s.sender = .top then
      some { s with sender := if s.forced then .shuttingDown else .waiting }
    else none
  | .receive =>
    match s.sender, s.queue with
    | .waiting, chunk :: queue =>
      let broadcast := lfToCrlf chunk s.prevWasCr
      some { s with
        queue := queue
        prevWasCr := broadcast.1
        handed := s.handed ++ [broadcast.2]
        sender := .calling }
    | _, _ => none
  | .receiveTimeout =>
    if s.sender = .waiting ∧ s.queue = [] ∧ s.reader ≠ .ended then
      some { s with sender := .calling }
    else none
  | .receiveDisconnected =>
    if s.sender = .waiting ∧ s.queue = [] ∧ s.reader = .ended then
      some { s with sender := .shuttingDown }
    else none
  | .returned authorized =>
    -- an authorization error skips the shutdown
    if s.sender = .calling then
      some { s with sender := if authorized then .top else .abandoned }
    else none
  | .shutdownReturned =>
    if s.sender = .shuttingDown then some { s with sender := .finished } else none
  | .signal sigint =>
    -- a second Ctrl+C and every other signal force the exit
    let alreadyStopping := !s.running
    some { s with running := false, forced := s.forced || alreadyStopping || !sigint }

section Translation
variable {input : Bytes} {b : UInt8}

/-- The last byte is translated by the byte before it. -/
theorem withReturns_concat (input : Bytes) (b : UInt8) :
    withReturns (input ++ [b]) = withReturns input ++
      (if b = lineFeed ∧ input.getLast? ≠ some carriageReturn then [carriageReturn] else []) ++
        [b] := by
  have hfront : ∀ i ∈ List.range input.length, (input ++ [b])[i]? = input[i]? ∧
      (input ++ [b])[i - 1]? = input[i - 1]? := by
    intro i hi
    have hlt := List.mem_range.mp hi
    exact ⟨List.getElem?_append_left hlt, List.getElem?_append_left (by omega)⟩
  have hlast : (input.length = 0 ∨ (input ++ [b])[input.length - 1]? ≠ some carriageReturn) ↔
      input.getLast? ≠ some carriageReturn := by
    cases input with
    | nil => simp
    | cons a input =>
      rw [List.getLast?_eq_getElem?, List.getElem?_append_left (by simp)]
      simp
  have hb : (input ++ [b])[input.length]? = some b := List.getElem?_concat_length
  rw [withReturns, List.length_append, List.length_singleton, List.range_succ,
    List.flatMap_append, List.flatMap_singleton, withReturns, List.append_assoc]
  congr 1
  · apply List.flatMap_congr
    intro i hi
    rw [(hfront i hi).1, (hfront i hi).2]
  · simp only [hb, hlast, Option.some.injEq, Option.toList_some]

theorem foldl_pushByte_out (input : Bytes) (prev : Bool) (out : Bytes) :
    input.foldl pushByte (prev, out) =
      ((lfToCrlf input prev).1, out ++ (lfToCrlf input prev).2) := by
  induction input using List.reverseRecOn with
  | nil => simp [lfToCrlf]
  | append_singleton input b ih =>
    rw [lfToCrlf, List.foldl_append, List.foldl_append, ih]
    simp [lfToCrlf, pushByte]

/-- A call on the whole input inserts the carriage returns. -/
theorem lfToCrlf_eq (input : Bytes) :
    lfToCrlf input false = (decide (input.getLast? = some carriageReturn), withReturns input) := by
  induction input using List.reverseRecOn with
  | nil => rfl
  | append_singleton input b ih =>
    rw [lfToCrlf] at ih ⊢
    rw [List.foldl_append, ih, withReturns_concat]
    simp [pushByte]

/-- A call on what follows goes on where the last one stopped. -/
theorem lfToCrlf_append (done chunk : Bytes) :
    lfToCrlf (done ++ chunk) false =
      ((lfToCrlf chunk (lfToCrlf done false).1).1,
        (lfToCrlf done false).2 ++ (lfToCrlf chunk (lfToCrlf done false).1).2) := by
  rw [lfToCrlf, List.foldl_append]
  exact foldl_pushByte_out chunk _ _

/-- What `stream_stdin` makes of chunks that arrive one after another. -/
def translateChunks : Bool → List Bytes → List Bytes
  | _, [] => []
  | prevWasCr, chunk :: chunks =>
    let broadcast := lfToCrlf chunk prevWasCr
    broadcast.2 :: translateChunks broadcast.1 chunks

theorem translateChunks_flatten (prevWasCr : Bool) (chunks : List Bytes) :
    (translateChunks prevWasCr chunks).flatten = (lfToCrlf chunks.flatten prevWasCr).2 := by
  induction chunks generalizing prevWasCr with
  | nil => rfl
  | cons chunk chunks ih =>
    rw [translateChunks, List.flatten_cons, ih, List.flatten_cons]
    conv_rhs => rw [lfToCrlf, List.foldl_append]
    rw [show chunk.foldl pushByte (prevWasCr, []) = lfToCrlf chunk prevWasCr from rfl,
      foldl_pushByte_out]

theorem getLast?_withReturns (input : Bytes) : (withReturns input).getLast? = input.getLast? := by
  cases input using List.reverseRecOn with
  | nil => rfl
  | append_singleton input b => rw [withReturns_concat]; simp

/-- A translated input has nothing left to translate. -/
theorem withReturns_withReturns (input : Bytes) :
    withReturns (withReturns input) = withReturns input := by
  induction input using List.reverseRecOn with
  | nil => rfl
  | append_singleton input b ih =>
    rw [withReturns_concat]
    split_ifs with hinsert
    · -- the carriage return that was inserted keeps the line feed from another
      have hcr : carriageReturn ≠ lineFeed := by decide
      rw [withReturns_concat, withReturns_concat, ih]
      simp [hcr]
    · rw [withReturns_concat, List.append_nil, ih, getLast?_withReturns, if_neg hinsert,
        List.append_nil]

end Translation

section Runs
variable {echoStdout : Bool} {s s' : StreamMode} {a : StreamAction}

/-- What the reader has read and not yet put on the channel. -/
def inHand (s : StreamMode) : Bytes :=
  match s.reader with
  | .echoing chunk | .sending chunk => chunk
  | .reading | .ended => []

/-- What the reader has read and not yet echoed. -/
def toEcho (s : StreamMode) : Bytes :=
  match s.reader with
  | .echoing chunk => chunk
  | _ => []

/-- The invariant of a session that nothing cuts short: what was handed over translates the
first part of the input, the rest is on its way, and a shutdown leaves nothing to come. -/
structure Accounted (echoStdout : Bool) (s : StreamMode) : Prop where
  translated : ∃ done, s.input = done ++ (s.queue.flatten ++ s.inHand) ∧
    lfToCrlf done false = (s.prevWasCr, s.handed.flatten)
  teed : s.teed.flatten ++ (if echoStdout then s.toEcho else []) =
    if echoStdout then s.input else []
  closed : s.shutdownCalled = true → s.reader = .ended ∧ s.queue = []

theorem accounted_start : Accounted echoStdout start := by
  refine ⟨⟨[], rfl, rfl⟩, ?_, nofun⟩
  cases echoStdout <;> rfl

theorem Accounted.read (h : Accounted echoStdout s) (hreading : s.reader = .reading)
    (chunk : Bytes) :
    Accounted echoStdout { s with reader := .echoing chunk, input := s.input ++ chunk } := by
  obtain ⟨done, hinput, hdone⟩ := h.translated
  refine ⟨⟨done, ?_, hdone⟩, ?_, ?_⟩
  · calc s.input ++ chunk = done ++ (s.queue.flatten ++ []) ++ chunk := by
          rw [hinput, inHand, hreading]
      _ = done ++ (s.queue.flatten ++ chunk) := by simp
  · have hteed := h.teed
    rw [toEcho, hreading] at hteed
    cases echoStdout with
    | true => simpa [toEcho] using hteed
    | false => simpa using hteed
  · intro hshut
    have hended := (h.closed hshut).1
    rw [hreading] at hended
    cases hended

theorem Accounted.readEnd (h : Accounted echoStdout s) (hreading : s.reader = .reading) :
    Accounted echoStdout { s with reader := .ended } := by
  have hhand : s.inHand = [] := by rw [inHand, hreading]
  have hecho : s.toEcho = [] := by rw [toEcho, hreading]
  have htranslated := h.translated
  have hteed := h.teed
  rw [hhand] at htranslated
  rw [hecho] at hteed
  exact ⟨htranslated, hteed, fun hshut => ⟨rfl, (h.closed hshut).2⟩⟩

theorem Accounted.echo {chunk : Bytes} (h : Accounted echoStdout s)
    (hechoing : s.reader = .echoing chunk) :
    Accounted echoStdout { s with
      reader := .sending chunk
      teed := if echoStdout then s.teed ++ [chunk] else s.teed } := by
  have htranslated := h.translated
  have hteed := h.teed
  rw [inHand, hechoing] at htranslated
  rw [toEcho, hechoing] at hteed
  refine ⟨htranslated, ?_, ?_⟩
  · cases echoStdout with
    | true => simpa [toEcho] using hteed
    | false => simpa using hteed
  · intro hshut
    have hended := (h.closed hshut).1
    rw [hechoing] at hended
    cases hended

theorem Accounted.put {chunk : Bytes} (h : Accounted echoStdout s)
    (hsending : s.reader = .sending chunk) :
    Accounted echoStdout { s with reader := .reading, queue := s.queue ++ [chunk] } := by
  obtain ⟨done, hinput, hdone⟩ := h.translated
  have hteed := h.teed
  rw [toEcho, hsending] at hteed
  refine ⟨⟨done, ?_, hdone⟩, hteed, ?_⟩
  · calc s.input = done ++ (s.queue.flatten ++ chunk) := by rw [hinput, inHand, hsending]
      _ = done ++ ((s.queue ++ [chunk]).flatten ++ []) := by simp
  · intro hshut
    have hended := (h.closed hshut).1
    rw [hsending] at hended
    cases hended

theorem Accounted.receive {chunk : Bytes} {queue : List Bytes} (h : Accounted echoStdout s)
    (hqueue : s.queue = chunk :: queue) :
    Accounted echoStdout { s with
      queue := queue
      prevWasCr := (lfToCrlf chunk s.prevWasCr).1
      handed := s.handed ++ [(lfToCrlf chunk s.prevWasCr).2]
      sender := .calling } := by
  obtain ⟨done, hinput, hdone⟩ := h.translated
  -- the chunk leaves the queue for what is translated
  refine ⟨⟨done ++ chunk, ?_, ?_⟩, h.teed, nofun⟩
  · calc s.input = done ++ ((chunk :: queue).flatten ++ s.inHand) := by rw [hinput, hqueue]
      _ = done ++ chunk ++ (queue.flatten ++ s.inHand) := by simp
  · rw [lfToCrlf_append, hdone]
    simp

/-- Steps of the sender that hand nothing over. -/
theorem Accounted.sender (h : Accounted echoStdout s) (sender : StreamSender)
    (hclosed : sender = .shuttingDown ∨ sender = .finished → s.reader = .ended ∧ s.queue = []) :
    Accounted echoStdout { s with sender := sender } :=
  ⟨h.translated, h.teed, fun hshut => hclosed (by simpa [shutdownCalled] using hshut)⟩

theorem accounted_step (hstep : step echoStdout s a = some s')
    (h : s.forced = false → s.sender ≠ .abandoned → Accounted echoStdout s)
    (hforced : s'.forced = false) (hsender : s'.sender ≠ .abandoned) :
    Accounted echoStdout s' := by
  cases a with
  | read chunk =>
    simp only [step] at hstep
    split_ifs at hstep with hread
    obtain rfl := Option.some.inj hstep
    exact (h hforced hsender).read hread.1 chunk
  | readInterrupted =>
    simp only [step] at hstep
    split_ifs at hstep
    obtain rfl := Option.some.inj hstep
    exact h hforced hsender
  | readEnd =>
    simp only [step] at hstep
    split_ifs at hstep with hread
    obtain rfl := Option.some.inj hstep
    exact (h hforced hsender).readEnd hread
  | echo =>
    simp only [step] at hstep
    split at hstep
    · rename_i chunk hechoing
      obtain rfl := Option.some.inj hstep
      exact (h hforced hsender).echo hechoing
    · cases hstep
  | put =>
    simp only [step] at hstep
    split at hstep
    · rename_i chunk hsending
      split_ifs at hstep with hhung
      · -- the receiver is only dropped behind a shutdown, when the reader has ended
        obtain rfl := Option.some.inj hstep
        have hfinished : s.sender = .finished := by
          simpa [hungUp, show s.sender ≠ .abandoned from hsender] using hhung
        have hended := ((h hforced hsender).closed (by simp [shutdownCalled, hfinished])).1
        rw [hsending] at hended
        cases hended
      · obtain rfl := Option.some.inj hstep
        exact (h hforced hsender).put hsending
    · cases hstep
  | check =>
    simp only [step] at hstep
    split_ifs at hstep with htop hleave
    · obtain rfl := Option.some.inj hstep
      rw [show s.forced = false from hforced] at hleave
      cases hleave
    · obtain rfl := Option.some.inj hstep
      exact (h hforced (by simp [htop])).sender .waiting (by nofun)
  | receive =>
    simp only [step] at hstep
    split at hstep
    · rename_i chunk queue hwaiting hqueue
      obtain rfl := Option.some.inj hstep
      exact (h hforced (by simp [hwaiting])).receive hqueue
    · cases hstep
  | receiveTimeout =>
    simp only [step] at hstep
    split_ifs at hstep with hwaiting
    obtain rfl := Option.some.inj hstep
    exact (h hforced (by simp [hwaiting.1])).sender .calling (by nofun)
  | receiveDisconnected =>
    simp only [step] at hstep
    split_ifs at hstep with hwaiting
    obtain rfl := Option.some.inj hstep
    exact (h hforced (by simp [hwaiting.1])).sender .shuttingDown fun _ =>
      ⟨hwaiting.2.2, hwaiting.2.1⟩
  | returned authorized =>
    simp only [step] at hstep
    split at hstep
    · rename_i hcalling
      obtain rfl := Option.some.inj hstep
      cases authorized with
      | true => exact (h hforced (by simp [hcalling])).sender .top (by nofun)
      | false => exact absurd rfl hsender
    · cases hstep
  | shutdownReturned =>
    simp only [step] at hstep
    split_ifs at hstep with hshut
    obtain rfl := Option.some.inj hstep
    have h := h hforced (by simp [hshut])
    exact h.sender .finished fun _ => h.closed (by simp [shutdownCalled, hshut])
  | signal sigint =>
    obtain rfl := Option.some.inj hstep
    have hbefore : s.forced = false := by
      simp only [Bool.or_eq_false_iff] at hforced
      exact hforced.1.1
    have h := h hbefore hsender
    exact ⟨h.translated, h.teed, h.closed⟩

/-- In every order of the steps of the threads, without a forced exit and without an
authorization error: what was handed over by the time of the shutdown is the whole input
with its line ends translated, and the tee is the input. The translation depends neither on
the chunks nor on having been done before. -/
theorem broadcast_is_translated_input :
    (∀ echoStdout as s, run (step echoStdout) start as = some s → s.forced = false →
      s.shutdownCalled = true → s.reader = .ended ∧
        s.handed.flatten = withReturns s.input ∧
        s.teed.flatten = if echoStdout then s.input else []) ∧
    (∀ chunks, (translateChunks false chunks).flatten = withReturns chunks.flatten) ∧
    ∀ input, (lfToCrlf (lfToCrlf input false).2 false).2 = (lfToCrlf input false).2 := by
  refine ⟨?_, ?_, ?_⟩
  · intro echoStdout as s hrun hforced hshut
    have hsender : s.sender ≠ .abandoned := by
      intro habandoned
      simp [shutdownCalled, habandoned] at hshut
    have hinv : s.forced = false → s.sender ≠ .abandoned → Accounted echoStdout s := by
      refine run_preserves (I := fun s => s.forced = false → s.sender ≠ .abandoned →
        Accounted echoStdout s) ?_ (fun _ _ => accounted_start) hrun
      exact fun s a s' h hstep => accounted_step hstep h
    have haccounted := hinv hforced hsender
    obtain ⟨hended, hqueue⟩ := haccounted.closed hshut
    obtain ⟨done, hinput, hdone⟩ := haccounted.translated
    have hteed := haccounted.teed
    -- nothing is queued or in the reader's hand when the channel is found closed
    have hall : s.input = done := by
      rw [hinput, hqueue, inHand, hended]
      simp
    rw [lfToCrlf_eq, Prod.mk.injEq] at hdone
    rw [toEcho, hended, ite_self, List.append_nil] at hteed
    exact ⟨hended, by rw [hall, hdone.2], hteed⟩
  · intro chunks
    rw [translateChunks_flatten, lfToCrlf_eq]
  · intro input
    rw [lfToCrlf_eq, lfToCrlf_eq]
    exact withReturns_withReturns input

/-- A session of two lines, the second of them behind a Ctrl+C and with its line end split
across two reads. -/
def interruptedSession : List StreamAction :=
  [.read [97, 10], .echo, .put, .signal true, .read [98, 13], .echo, .put, .check, .receive,
    .returned true, .read [10], .echo, .put, .readEnd, .check, .receive, .returned true,
    .check, .receive, .returned true, .check, .receiveDisconnected]

theorem broadcast_is_translated_input_interrupted :
    ∃ s, run (step true) start interruptedSession = some s ∧
      s.handed.flatten = withReturns s.input ∧ s.input = [97, 10, 98, 13, 10] := by
  have hrun : run (step true) start interruptedSession = some ⟨false, false, .ended,
      [97, 10, 98, 13, 10], [[97, 10], [98, 13], [10]], [], .shuttingDown, false,
      [[97, 13, 10], [98, 13], [10]]⟩ := by rfl
  have hall := broadcast_is_translated_input.1 true interruptedSession _ hrun rfl rfl
  exact ⟨_, hrun, hall.2.1, rfl⟩

end Runs

end StreamMode
end Shellshare
