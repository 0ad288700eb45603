import Shellshare.EncryptedRecords
import Shellshare.TransitionRuns

/-! A viewer page with a valid key: messages are decrypted one after another on a
promise chain, and a clear abandons the chain. Each promise that settles is a step
of its own, so chains from before a clear run on beside the new one. -/
namespace Shellshare

namespace ViewerPage

/-- A call of `term.write`: output, or the RIS of a clear. -/
inductive Write where
  | output (bytes : Bytes)
  | ris

/-- A message on a chain, with the epoch captured when it was enqueued. -/
structure Job where
  epoch : ℕ
  bytes : Bytes

/-- Where the promise of the job at the head of a chain stands. -/
inductive Work where
  /-- waiting for the key -/
  | importing
  /-- waiting for `crypto.subtle.decrypt`, with what `step` has gathered and where it goes on -/
  | decrypting (iv ciphertext : Bytes) (next : ℕ) (chunks : List Bytes) (decryptable : Bool)
  | settled (result : Settlement)

structure Chain where
  current : Option (Job × Work)
  waiting : List Job

end ViewerPage

open ViewerPage

/-- `dropped` are the chains that a clear replaced, oldest first. -/
structure ViewerPage where
  term : Bool
  written : List Write
  pendingWrites : List Bytes
  decryptEpoch : ℕ
  decryptChain : Chain
  dropped : List Chain
  keyImported : Bool
  joinedBefore : Bool
  cryptoNotice : Option String

namespace ViewerPage
open TransitionRuns

inductive Action where
  | opened
  | message (bytes : Bytes)
  | reset
  | createTerminal
  | importKey
  | turn
  | droppedTurn (i : ℕ)

def init : ViewerPage := ⟨false, [], [], 0, ⟨none, []⟩, [], false, false, none⟩

def wrongKeyNotice : String :=
  "Wrong decryption key. Ask the broadcaster for the current share link."

def writeBytes (p : ViewerPage) (bytes : Bytes) : ViewerPage :=
  if p.term then { p with written := p.written ++ [.output bytes] }
  else { p with pendingWrites := p.pendingWrites ++ [bytes] }

def enqueueEncrypted (p : ViewerPage) (bytes : Bytes) : ViewerPage :=
  { p with decryptChain :=
      { p.decryptChain with waiting := p.decryptChain.waiting ++ [⟨p.decryptEpoch, bytes⟩] } }

def onMessage (p : ViewerPage) (bytes : Bytes) : ViewerPage :=
  if bytes.isEmpty then p else p.enqueueEncrypted bytes

def clearScreen (p : ViewerPage) : ViewerPage :=
  { p with
    decryptEpoch := p.decryptEpoch + 1
    decryptChain := ⟨none, []⟩
    dropped := p.dropped ++ [p.decryptChain]
    pendingWrites := []
    written := if p.term then p.written ++ [.ris] else p.written }

/-- What the page does with the result of a message. -/
def onResult (p : ViewerPage) (job : Job) : Settlement → ViewerPage
  | .resolved chunks _ =>
    if job.epoch ≠ p.decryptEpoch then p
    else
      let p := chunks.foldl writeBytes p
      if 0 < chunks.length then { p with cryptoNotice := none }
      else if 0 < job.bytes.length then { p with cryptoNotice := some wrongKeyNotice }
      else p
  | .rejected =>
    if job.epoch = p.decryptEpoch then { p with cryptoNotice := some wrongKeyNotice } else p

/-- `step` at an offset, up to where it waits for a decryption. -/
def Work.advance (bytes : Bytes) (offset : ℕ) (chunks : List Bytes) (decryptable : Bool) : Work :=
  match scan bytes offset with
  | some .finished => .settled (.resolved chunks decryptable)
  | some (.record iv ciphertext next) => .decrypting iv ciphertext next chunks decryptable
  -- the rejection, or the exception of a read past the end
  | some .malformed | none => .settled .rejected

section Step
variable {Key : Type} (aes : Aes256Gcm Key) (key : Key)

/-- The next turn of a chain, and the result its job hands to the page when it is done. -/
def Chain.turn (keyImported : Bool) (chain : Chain) :
    Option (Chain × Option (Job × Settlement)) :=
  match chain.current with
  | none => match chain.waiting with
    | [] => none
    | job :: waiting => some (⟨some (job, .importing), waiting⟩, none)
  | some (job, .importing) =>
    if keyImported then
      some ({ chain with current := some (job, .advance job.bytes 0 [] false) }, none)
    else none
  | some (job, .decrypting iv ciphertext next chunks decryptable) =>
    let work := match aes.decrypt key iv ciphertext with
      | some plain => Work.advance job.bytes next (chunks ++ [plain]) true
      | none => Work.advance job.bytes next chunks decryptable
    some ({ chain with current := some (job, work) }, none)
  | some (job, .settled result) => some ({ chain with current := none }, some (job, result))

def finish (p : ViewerPage) : Option (Job × Settlement) → ViewerPage
  | none => p
  | some (job, result) => p.onResult job result

def step (p : ViewerPage) : Action → Option ViewerPage
  -- the first connection has nothing to clear
  | .opened => some (if p.joinedBefore then p.clearScreen else { p with joinedBefore := true })
  | .message bytes => some (p.onMessage bytes)
  | .reset => some p.clearScreen
  | .createTerminal =>
    if p.term then none
    else some { p with
      term := true
      written := p.written ++ p.pendingWrites.map .output
      pendingWrites := [] }
  | .importKey => if p.keyImported then none else some { p with keyImported := true }
  | .turn => (p.decryptChain.turn aes key p.keyImported).map fun r =>
    { p with decryptChain := r.1 }.finish r.2
  | .droppedTurn i => p.dropped[i]?.bind fun chain =>
    (chain.turn aes key p.keyImported).map fun r =>
      { p with dropped := p.dropped.set i r.1 }.finish r.2

end Step

/-- History of a run: the messages that arrived since the last clear. -/
def noteArrived (p : ViewerPage) (a : Action) (_ : ViewerPage) (arrived : List Bytes) :
    List Bytes :=
  match a with
  | .message bytes => arrived ++ [bytes]
  | .reset => []
  | .opened => if p.joinedBefore then [] else arrived
  | _ => arrived

/-- The output that reached the terminal after the last clear. -/
def sinceClear (written : List Write) : List Bytes :=
  written.foldl (fun out w => match w with
    | .output bytes => out ++ [bytes]
    | .ris => []) []

def Chain.jobs (chain : Chain) : List Job := (chain.current.map Prod.fst).toList ++ chain.waiting

/-- The completion of something that was started. -/
def Action.outstanding : Action → Bool
  | .createTerminal | .importKey | .turn | .droppedTurn _ => true
  | .opened | .message _ | .reset => false

/-- Nothing is left to be done by what was started. -/
def Idle (p : ViewerPage) : Prop :=
  p.term = true ∧ p.keyImported = true ∧ p.decryptChain.jobs = [] ∧
    ∀ chain ∈ p.dropped, chain.jobs = []

@[simp] theorem sinceClear_append_output (written : List Write) (chunks : List Bytes) :
    sinceClear (written ++ chunks.map .output) = sinceClear written ++ chunks := by
  induction chunks generalizing written with
  | nil => simp
  | cons chunk chunks ih =>
    have hone : sinceClear (written ++ [.output chunk]) = sinceClear written ++ [chunk] := by
      simp [sinceClear]
    rw [List.map_cons, List.append_cons, ih, hone, List.append_assoc, List.singleton_append]

@[simp] theorem sinceClear_append_ris (written : List Write) :
    sinceClear (written ++ [.ris]) = [] := by
  simp [sinceClear]

/-- The output since the last clear, with what waits for the terminal. -/
def shown (p : ViewerPage) : List Bytes := sinceClear p.written ++ p.pendingWrites

theorem foldl_writeBytes (p : ViewerPage) (chunks : List Bytes) :
    chunks.foldl writeBytes p =
      if p.term then { p with written := p.written ++ chunks.map .output }
      else { p with pendingWrites := p.pendingWrites ++ chunks } := by
  induction chunks generalizing p with
  | nil =>
    cases p
    simp
  | cons chunk chunks ih =>
    rw [List.foldl_cons, ih, writeBytes]
    cases hterm : p.term <;> simp

/-- The result of a message from before a clear is dropped. -/
theorem onResult_of_ne {p : ViewerPage} {job : Job} (hne : job.epoch ≠ p.decryptEpoch)
    (result : Settlement) : p.onResult job result = p := by
  cases result with
  | resolved chunks decryptable => exact if_pos hne
  | rejected => exact if_neg hne

section Decryption
variable {Key : Type} (aes : Aes256Gcm Key) (key : Key)

/-- The records of a message that decrypt; none of a message with broken framing. -/
def records (message : Bytes) : List Bytes := (decrypted aes key message).getD []

/-- What the promise of a job will settle to. -/
def Work.outcome (bytes : Bytes) : Work → Option Settlement
  | .importing => decryptRecords aes key bytes
  | .decrypting iv ciphertext next chunks decryptable =>
    match aes.decrypt key iv ciphertext with
    | some plain => decryptFrom aes key bytes next (chunks ++ [plain]) true
    | none => decryptFrom aes key bytes next chunks decryptable
  | .settled result => some result

theorem Work.outcome_advance (bytes : Bytes) (offset : ℕ) (chunks : List Bytes)
    (decryptable : Bool) :
    (Work.advance bytes offset chunks decryptable).outcome aes key bytes =
      decryptFrom aes key bytes offset chunks decryptable := by
  rw [decryptFrom, Work.advance]
  cases hscan : scan bytes offset with
  | none =>
    rw [scan_eq] at hscan
    cases hscan
  | some found => cases found <;> rfl

/-- The job at the head is on the way to what its message decrypts to. -/
def Chain.Sound (chain : Chain) : Prop :=
  ∀ job work, chain.current = some (job, work) →
    work.outcome aes key job.bytes = decryptRecords aes key job.bytes

variable {aes key} {chain chain' : Chain} {imported : Bool} {handed : Option (Job × Settlement)}

/-- A turn keeps the jobs of a chain, or hands over the result of the first. -/
theorem Chain.turn_jobs (h : chain.turn aes key imported = some (chain', handed)) :
    (handed = none ∧ chain'.jobs = chain.jobs) ∨
      ∃ job result, handed = some (job, result) ∧ chain.jobs = job :: chain'.jobs := by
  obtain ⟨current, waiting⟩ := chain
  unfold turn at h
  cases current with
  | none =>
    cases waiting with
    | nil => cases h
    | cons job waiting =>
      cases h
      exact Or.inl ⟨rfl, rfl⟩
  | some running =>
    obtain ⟨job, work⟩ := running
    cases work with
    | importing =>
      cases imported with
      | false => cases h
      | true =>
        cases h
        exact Or.inl ⟨rfl, rfl⟩
    | decrypting iv ciphertext next chunks decryptable =>
      cases h
      exact Or.inl ⟨rfl, rfl⟩
    | settled result =>
      cases h
      exact Or.inr ⟨job, result, rfl, rfl⟩

/-- A turn stays on the way to what the message decrypts to, and hands over that. -/
theorem Chain.turn_sound (h : chain.turn aes key imported = some (chain', handed))
    (hsound : chain.Sound aes key) :
    chain'.Sound aes key ∧ ∀ job result, handed = some (job, result) →
      decryptRecords aes key job.bytes = some result := by
  obtain ⟨current, waiting⟩ := chain
  unfold turn at h
  cases current with
  | none =>
    cases waiting with
    | nil => cases h
    | cons job waiting =>
      cases h
      refine ⟨?_, nofun⟩
      rintro _ _ ⟨⟩
      rfl
  | some running =>
    obtain ⟨job, work⟩ := running
    have hwork := hsound job work rfl
    cases work with
    | importing =>
      cases imported with
      | false => cases h
      | true =>
        cases h
        refine ⟨?_, nofun⟩
        rintro _ _ ⟨⟩
        exact Work.outcome_advance aes key _ _ _ _
    | decrypting iv ciphertext next chunks decryptable =>
      cases h
      refine ⟨?_, nofun⟩
      rintro _ _ ⟨⟩
      rw [← hwork, Work.outcome]
      cases aes.decrypt key iv ciphertext <;> exact Work.outcome_advance aes key _ _ _ _
    | settled result =>
      cases h
      refine ⟨nofun, ?_⟩
      rintro _ _ ⟨⟩
      exact hwork.symm

/-- The result of a message of the current epoch shows the records it decrypted to. -/
theorem shown_onResult {p : ViewerPage} {job : Job} {result : Settlement}
    (hepoch : job.epoch = p.decryptEpoch) (hpending : p.term = true → p.pendingWrites = [])
    (hresult : decryptRecords aes key job.bytes = some result) :
    (p.onResult job result).shown = p.shown ++ records aes key job.bytes := by
  cases result with
  | resolved chunks decryptable =>
    have hrecords : records aes key job.bytes = chunks := by simp [records, decrypted, hresult]
    have hshown : (chunks.foldl writeBytes p).shown = p.shown ++ chunks := by
      rw [foldl_writeBytes]
      cases hterm : p.term with
      | true => simp [shown, hpending hterm]
      | false => simp [shown]
    rw [hrecords, ← hshown, onResult, if_neg (not_not.mpr hepoch)]
    dsimp only
    split_ifs <;> rfl
  | rejected =>
    have hrecords : records aes key job.bytes = [] := by simp [records, decrypted, hresult]
    rw [hrecords, List.append_nil, onResult, if_pos hepoch]
    rfl

end Decryption

/-- Everything but the output and the notice is as it was. -/
structure SameBut (p q : ViewerPage) : Prop where
  term : q.term = p.term
  decryptEpoch : q.decryptEpoch = p.decryptEpoch
  decryptChain : q.decryptChain = p.decryptChain
  dropped : q.dropped = p.dropped
  fresh : p.term = false → q.written = p.written
  flushed : p.term = true → q.pendingWrites = p.pendingWrites

theorem same_writes (p : ViewerPage) (chunks : List Bytes) :
    SameBut p (chunks.foldl writeBytes p) := by
  rw [foldl_writeBytes]
  cases hterm : p.term with
  | true => exact ⟨by simp [hterm], rfl, rfl, rfl, by simp [hterm], fun _ => rfl⟩
  | false => exact ⟨by simp [hterm], rfl, rfl, rfl, fun _ => rfl, by simp [hterm]⟩

theorem onResult_same (p : ViewerPage) (job : Job) (result : Settlement) :
    SameBut p (p.onResult job result) := by
  cases result with
  | resolved chunks decryptable =>
    have hwrites := same_writes p chunks
    have hnotice : ∀ notice, SameBut p { chunks.foldl writeBytes p with cryptoNotice := notice } :=
      fun _ => ⟨hwrites.term, hwrites.decryptEpoch, hwrites.decryptChain, hwrites.dropped,
        hwrites.fresh, hwrites.flushed⟩
    rw [onResult]
    dsimp only
    split_ifs
    · exact ⟨rfl, rfl, rfl, rfl, fun _ => rfl, fun _ => rfl⟩
    · exact hnotice none
    · exact hnotice (some wrongKeyNotice)
    · exact hwrites
  | rejected =>
    rw [onResult]
    split_ifs <;> exact ⟨rfl, rfl, rfl, rfl, fun _ => rfl, fun _ => rfl⟩

section Runs
variable {Key : Type} {aes : Aes256Gcm Key} {key : Key} {p p' : ViewerPage} {arrived : List Bytes}

/-- The invariant of a page: what was shown since the last clear and what the chain has
yet to decrypt make up the messages that arrived since, and no chain from before a
clear has a message of the current epoch. -/
structure Ordered (aes : Aes256Gcm Key) (key : Key) (p : ViewerPage) (arrived : List Bytes) :
    Prop where
  fresh : p.term = false → p.written = []
  flushed : p.term = true → p.pendingWrites = []
  stale : ∀ chain ∈ p.dropped, ∀ job ∈ chain.jobs, job.epoch < p.decryptEpoch
  current : ∀ job ∈ p.decryptChain.jobs, job.epoch = p.decryptEpoch
  sound : p.decryptChain.Sound aes key
  accounted : p.shown ++ p.decryptChain.jobs.flatMap (fun job => records aes key job.bytes) =
    arrived.flatMap (records aes key)

theorem ordered_init : Ordered aes key init [] :=
  ⟨fun _ => rfl, nofun, nofun, nofun, nofun, rfl⟩

theorem Ordered.clearScreen (h : Ordered aes key p arrived) :
    Ordered aes key p.clearScreen [] := by
  refine ⟨?_, fun _ => rfl, ?_, nofun, nofun, ?_⟩
  · intro hterm
    have hold : p.term = false := hterm
    simp [ViewerPage.clearScreen, hold, h.fresh hold]
  · -- the chain that is dropped is of the epoch that ends
    intro chain hchain job hjob
    have hlt : job.epoch < p.decryptEpoch + 1 := by
      rcases List.mem_append.mp hchain with hold | hlast
      · exact Nat.lt_succ_of_lt (h.stale chain hold job hjob)
      · rw [List.mem_singleton.mp hlast] at hjob
        rw [h.current job hjob]
        exact Nat.lt_succ_self _
    exact hlt
  · cases hterm : p.term with
    | true => simp [ViewerPage.clearScreen, shown, hterm, Chain.jobs]
    | false => simp [ViewerPage.clearScreen, shown, hterm, h.fresh hterm, Chain.jobs, sinceClear]

theorem Ordered.onMessage (h : Ordered aes key p arrived) (bytes : Bytes) :
    Ordered aes key (p.onMessage bytes) (arrived ++ [bytes]) := by
  rw [ViewerPage.onMessage]
  cases bytes with
  | nil =>
    have hnil : records aes key [] = [] := by
      rw [records, decrypted_eq, LengthPrefix.Header.parse_nil]
      rfl
    exact ⟨h.fresh, h.flushed, h.stale, h.current, h.sound, by simpa [hnil] using h.accounted⟩
  | cons b bytes =>
    have hjobs : (p.enqueueEncrypted (b :: bytes)).decryptChain.jobs =
        p.decryptChain.jobs ++ [⟨p.decryptEpoch, b :: bytes⟩] := (List.append_assoc _ _ _).symm
    refine ⟨h.fresh, h.flushed, h.stale, ?_, h.sound, ?_⟩
    · intro job hjob
      rcases List.mem_append.mp (hjobs ▸ hjob) with hold | hnew
      · exact h.current job hold
      · rw [List.mem_singleton.mp hnew]
        rfl
    · calc (p.enqueueEncrypted (b :: bytes)).shown ++
            (p.enqueueEncrypted (b :: bytes)).decryptChain.jobs.flatMap
              (fun job => records aes key job.bytes)
          = (p.shown ++ p.decryptChain.jobs.flatMap (fun job => records aes key job.bytes)) ++
              records aes key (b :: bytes) := by
            rw [hjobs, List.flatMap_append, List.append_assoc, List.flatMap_singleton]
            rfl
        _ = (arrived ++ [b :: bytes]).flatMap (records aes key) := by
            rw [h.accounted, List.flatMap_append, List.flatMap_singleton]

/-- A result of the current chain shows the records of its message, which is the
oldest that was not shown. -/
theorem Ordered.turn {chain : Chain} {handed : Option (Job × Settlement)}
    (h : Ordered aes key p arrived)
    (hturn : p.decryptChain.turn aes key p.keyImported = some (chain, handed)) :
    Ordered aes key ({ p with decryptChain := chain }.finish handed) arrived := by
  obtain ⟨hsound, hresult⟩ := Chain.turn_sound hturn h.sound
  rcases Chain.turn_jobs hturn with ⟨rfl, hjobs⟩ | ⟨job, result, rfl, hjobs⟩
  · -- the jobs are the same ones
    refine ⟨h.fresh, h.flushed, h.stale, ?_, hsound, ?_⟩
    · intro job hjob
      exact h.current job (hjobs ▸ hjob)
    · have haccounted := h.accounted
      rw [← hjobs] at haccounted
      exact haccounted
  · -- the first job is done: its records move from what is to come to what is shown
    let q : ViewerPage := { p with decryptChain := chain }
    have hepoch : job.epoch = q.decryptEpoch := h.current job (hjobs ▸ List.mem_cons_self)
    have hsame : SameBut q (q.onResult job result) := onResult_same q job result
    refine ⟨?_, ?_, ?_, ?_, ?_, ?_⟩
    · intro hterm
      rw [finish, hsame.term] at hterm
      rw [finish, hsame.fresh hterm]
      exact h.fresh hterm
    · intro hterm
      rw [finish, hsame.term] at hterm
      rw [finish, hsame.flushed hterm]
      exact h.flushed hterm
    · rw [finish, hsame.dropped, hsame.decryptEpoch]
      exact h.stale
    · rw [finish, hsame.decryptChain, hsame.decryptEpoch]
      intro job' hjob'
      exact h.current job' (hjobs ▸ List.mem_cons_of_mem job hjob')
    · rw [finish, hsame.decryptChain]
      exact hsound
    · have hshown : (q.onResult job result).shown = p.shown ++ records aes key job.bytes :=
        shown_onResult hepoch h.flushed (hresult job result rfl)
      rw [finish, hsame.decryptChain, hshown, ← h.accounted, hjobs, List.flatMap_cons,
        List.append_assoc]

/-- A chain from before a clear shows nothing more. -/
theorem Ordered.droppedTurn {i : ℕ} {old chain : Chain} {handed : Option (Job × Settlement)}
    (h : Ordered aes key p arrived) (hold : p.dropped[i]? = some old)
    (hturn : old.turn aes key p.keyImported = some (chain, handed)) :
    Ordered aes key ({ p with dropped := p.dropped.set i chain }.finish handed) arrived := by
  have hmem : old ∈ p.dropped := List.mem_of_getElem? hold
  have hjobs : ∀ job ∈ chain.jobs, job ∈ old.jobs := by
    rcases Chain.turn_jobs hturn with ⟨-, hjobs⟩ | ⟨_, _, -, hjobs⟩
    · rw [hjobs]
      exact fun _ hjob => hjob
    · rw [hjobs]
      exact fun _ hjob => List.mem_cons_of_mem _ hjob
  have hdrop : { p with dropped := p.dropped.set i chain }.finish handed =
      { p with dropped := p.dropped.set i chain } := by
    rcases Chain.turn_jobs hturn with ⟨rfl, -⟩ | ⟨job, result, rfl, hjobs⟩
    · rfl
    · -- its epoch is over, so the page takes no notice
      have hlt := h.stale old hmem job (hjobs ▸ List.mem_cons_self)
      have hne : job.epoch ≠
          ({ p with dropped := p.dropped.set i chain } : ViewerPage).decryptEpoch :=
        Nat.ne_of_lt hlt
      exact onResult_of_ne hne result
  rw [hdrop]
  refine ⟨h.fresh, h.flushed, ?_, h.current, h.sound, h.accounted⟩
  intro other hother job hjob
  rcases List.mem_or_eq_of_mem_set hother with hmem' | rfl
  · exact h.stale other hmem' job hjob
  · exact h.stale old hmem job (hjobs job hjob)

theorem ordered_step {q q' : ViewerPage × List Bytes} {a : Action}
    (h : Ordered aes key q.1 q.2)
    (hstep : withHistory (step aes key) noteArrived q a = some q') : Ordered aes key q'.1 q'.2 := by
  obtain ⟨p, arrived⟩ := q
  obtain ⟨p', arrived'⟩ := q'
  obtain ⟨hpage, hnote⟩ := withHistory_eq_some.mp hstep
  dsimp only at h hpage hnote ⊢
  subst hnote
  cases a with
  | opened =>
    cases hpage
    cases hjoined : p.joinedBefore with
    | true =>
      simp only [noteArrived, hjoined, if_true]
      exact h.clearScreen
    | false =>
      simp only [noteArrived, hjoined]
      exact ⟨h.fresh, h.flushed, h.stale, h.current, h.sound, h.accounted⟩
  | message bytes =>
    cases hpage
    exact h.onMessage bytes
  | reset =>
    cases hpage
    exact h.clearScreen
  | createTerminal =>
    rw [step] at hpage
    split_ifs at hpage with hterm
    cases hpage
    -- what waited for the terminal is written behind an empty screen
    have hshown : sinceClear (p.written ++ p.pendingWrites.map .output) ++ [] = p.shown := by
      rw [sinceClear_append_output, List.append_nil, shown]
    refine ⟨nofun, fun _ => rfl, h.stale, h.current, h.sound, ?_⟩
    have haccounted := h.accounted
    rw [← hshown] at haccounted
    exact haccounted
  | importKey =>
    rw [step] at hpage
    split_ifs at hpage
    cases hpage
    exact ⟨h.fresh, h.flushed, h.stale, h.current, h.sound, h.accounted⟩
  | turn =>
    obtain ⟨⟨chain, handed⟩, hturn, rfl⟩ := Option.map_eq_some_iff.mp hpage
    exact h.turn hturn
  | droppedTurn i =>
    obtain ⟨old, hold, hpage⟩ := Option.bind_eq_some_iff.mp hpage
    obtain ⟨⟨chain, handed⟩, hturn, rfl⟩ := Option.map_eq_some_iff.mp hpage
    exact h.droppedTurn hold hturn

theorem ordered_of_run {as : List Action}
    (hrun : run (withHistory (step aes key) noteArrived) (init, []) as = some (p, arrived)) :
    Ordered aes key p arrived :=
  run_preserves (I := fun q => Ordered aes key q.1 q.2) (fun _ _ _ h hstep => ordered_step h hstep)
    ordered_init hrun

/-- A chain with a job left takes its turn, once the key is there. -/
theorem Chain.turn_isSome {chain : Chain} (hjobs : chain.jobs ≠ []) :
    (chain.turn aes key true).isSome = true := by
  obtain ⟨current, waiting⟩ := chain
  unfold turn
  cases current with
  | none =>
    cases waiting with
    | nil => exact absurd rfl hjobs
    | cons job waiting => rfl
  | some running =>
    obtain ⟨job, work⟩ := running
    cases work <;> rfl

/-- What is left to be done never waits for anything but itself. -/
theorem outstanding_of_not_idle (hbusy : ¬ p.Idle) :
    ∃ a : Action, a.outstanding = true ∧ (step aes key p a).isSome = true := by
  cases hterm : p.term with
  | false => exact ⟨.createTerminal, rfl, by simp [step, hterm]⟩
  | true =>
    cases himported : p.keyImported with
    | false => exact ⟨.importKey, rfl, by simp [step, himported]⟩
    | true =>
      by_cases hjobs : p.decryptChain.jobs = []
      · have hold : ∃ chain ∈ p.dropped, chain.jobs ≠ [] := by
          by_contra hnone
          simp only [not_exists, not_and, not_not] at hnone
          exact hbusy ⟨hterm, himported, hjobs, hnone⟩
        obtain ⟨chain, hchain, hne⟩ := hold
        obtain ⟨i, hi⟩ := List.mem_iff_getElem?.mp hchain
        have hturn : (chain.turn aes key true).isSome = true := Chain.turn_isSome hne
        exact ⟨.droppedTurn i, rfl, by simp [step, hi, himported, hturn]⟩
      · have hturn : (p.decryptChain.turn aes key true).isSome = true := Chain.turn_isSome hjobs
        exact ⟨.turn, rfl, by simp [step, himported, hturn]⟩

/-- In every state the output since the last clear is the first of the records that
decrypt in the messages that arrived since, in order, and it is all of them when
nothing is left to be done. Until then something can be. -/
theorem decrypted_output_ordered (aes : Aes256Gcm Key) (key : Key) (as : List Action)
    (p : ViewerPage) (arrived : List Bytes)
    (hrun : run (withHistory (step aes key) noteArrived) (init, []) as = some (p, arrived)) :
    (sinceClear p.written ++ p.pendingWrites <+: arrived.flatMap (records aes key)) ∧
      (p.Idle → sinceClear p.written = arrived.flatMap (records aes key)) ∧
      (¬ p.Idle → ∃ a : Action, a.outstanding = true ∧ (step aes key p a).isSome = true) := by
  have h := ordered_of_run hrun
  refine ⟨⟨_, h.accounted⟩, ?_, outstanding_of_not_idle⟩
  rintro ⟨hterm, -, hjobs, -⟩
  have haccounted := h.accounted
  rw [hjobs, List.flatMap_nil, List.append_nil, shown, h.flushed hterm,
    List.append_nil] at haccounted
  exact haccounted

/-- A clear while a message is decrypted, then two messages and the terminal. -/
def crossing : List Action :=
  [.opened, .message (SealedRecord.stream (mixed.drop 1)), .turn, .importKey, .turn, .reset,
    .message (SealedRecord.stream mixed), .message [7], .turn, .droppedTurn 0, .turn,
    .droppedTurn 0, .turn, .turn, .droppedTurn 0, .turn, .turn, .createTerminal, .turn, .turn,
    .turn]

theorem decrypted_output_ordered_crossing :
    ∃ p arrived, run (withHistory (step tagged 1) noteArrived) (init, []) crossing =
      some (p, arrived) ∧ sinceClear p.written = arrived.flatMap (records tagged 1) :=
  ⟨_, _, rfl, (decrypted_output_ordered tagged 1 crossing _ _ rfl).2.1
    ⟨rfl, rfl, rfl, by decide⟩⟩

end Runs

end ViewerPage

end Shellshare
