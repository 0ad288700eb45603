import Shellshare.AgentFollow

/-! The agent's reader with `--follow` against how a stream of records is cut into
messages: a record may arrive in any number of pieces, and so may a character. -/
namespace Shellshare
open LengthPrefix TransitionRuns

section Decode
variable {Key : Type} {aes : Aes256Gcm Key} {key : Key} {buf rest : Bytes} {o : ℕ}

/-- Too little of a record to be read. -/
def Partial (tail : Bytes) (records : List (SealedRecord aes)) : Prop :=
  tail = [] ∨ ∃ s others, records = s :: others ∧ tail <+: s.bytes ∧ tail.length < s.bytes.length

theorem SealedRecord.length_bytes (s : SealedRecord aes) : s.bytes.length = 4 + s.body.length := by
  rw [s.eq_frame.1]
  exact Header.length_frame s.body

/-- The loop waits at a record that has not arrived in full. -/
theorem decodeFrom_cutShort {records : List (SealedRecord aes)}
    (hcut : Partial (buf.drop o) records) (out : List Bytes) :
    decodeFrom aes key buf o out = some ⟨out.flatten, o⟩ := by
  rcases hcut with hnil | ⟨s, others, -, hpre, hshort⟩
  · have hend : buf.length ≤ o := List.drop_eq_nil_iff.mp hnil
    rw [decodeFrom, if_pos (by omega)]
  · have hlen := s.length_bytes
    have hdrop : (buf.drop o).length = buf.length - o := List.length_drop
    by_cases hhead : buf.length < o + 4
    · rw [decodeFrom, if_pos hhead]
    · -- the length is there, the body is not
      have htake : (buf.drop o).take 4 = beBytes s.body.length := by
        have hpre4 : (buf.drop o).take 4 = s.bytes.take 4 := by
          obtain ⟨more, hmore⟩ := hpre
          rw [← hmore, List.take_append_of_le_length (by omega)]
        rw [hpre4, s.eq_frame.1]
        exact List.take_left' rfl
      have hread : getUint32 buf o = some s.body.length := by
        rw [getUint32, if_pos (by omega), htake, beValue_beBytes s.eq_frame.2.1.2]
      rw [decodeFrom, if_neg hhead, hread]
      dsimp only
      rw [if_pos (by omega)]

/-- What is at an offset of the start of a stream: whole records, and part of one. -/
theorem exists_whole {bytes : Bytes} {records : List (SealedRecord aes)}
    (hpre : bytes <+: SealedRecord.stream records) : ∃ done others tail,
      records = done ++ others ∧ bytes = SealedRecord.stream done ++ tail ∧
        Partial tail others := by
  induction records generalizing bytes with
  | nil =>
    refine ⟨[], [], bytes, rfl, rfl, Or.inl ?_⟩
    exact List.prefix_nil.mp hpre
  | cons s records ih =>
    rw [SealedRecord.stream, List.flatMap_cons] at hpre
    by_cases hshort : bytes.length < s.bytes.length
    · have hhead : bytes <+: s.bytes :=
        List.prefix_of_prefix_length_le hpre (List.prefix_append _ _) hshort.le
      exact ⟨[], s :: records, bytes, rfl, rfl, Or.inr ⟨s, records, rfl, hhead, hshort⟩⟩
    · have hhead : s.bytes <+: bytes :=
        List.prefix_of_prefix_length_le (List.prefix_append _ _) hpre (not_lt.mp hshort)
      obtain ⟨after, rfl⟩ := hhead
      obtain ⟨done, others, tail, rfl, rfl, hcut⟩ :=
        ih ((List.prefix_append_right_inj _).mp hpre)
      refine ⟨s :: done, others, tail, rfl, ?_, hcut⟩
      rw [← List.append_assoc]
      rfl

/-- The loop opens all the records that are there in full, and waits for the rest. -/
theorem decodeFrom_stream {done others : List (SealedRecord aes)} {tail : Bytes}
    (hkeys : ∀ s ∈ done, s.key = key) (hle : o ≤ buf.length)
    (hdrop : buf.drop o = SealedRecord.stream done ++ tail) (hcut : Partial tail others)
    (out : List Bytes) :
    decodeFrom aes key buf o out = some ⟨(out ++ done.map SealedRecord.plaintext).flatten,
      (o + (SealedRecord.stream done).length : ℕ)⟩ := by
  induction done generalizing o out with
  | nil =>
    rw [show SealedRecord.stream ([] : List (SealedRecord aes)) = [] from rfl,
      List.nil_append] at hdrop
    rw [decodeFrom_cutShort (hdrop ▸ hcut)]
    simp [SealedRecord.stream]
  | cons s done ih =>
    obtain ⟨hbytes, hfits, -⟩ := s.eq_frame
    have hsplit : SealedRecord.stream (s :: done) = s.bytes ++ SealedRecord.stream done :=
      List.flatMap_cons
    rw [hsplit, hbytes, List.append_assoc] at hdrop
    have hlen := s.length_bytes
    have hlong := congrArg List.length hdrop
    rw [List.length_drop, List.length_append, ← hbytes, hlen] at hlong
    have hnext : buf.drop (o + 4 + s.body.length) = SealedRecord.stream done ++ tail := by
      rw [Nat.add_assoc, ← List.drop_drop, hdrop]
      exact List.drop_left' (by rw [← hbytes, hlen])
    rw [decodeFrom_frame hfits hdrop, ← hkeys s List.mem_cons_self, s.openRecord_own]
    dsimp only
    rw [hkeys s List.mem_cons_self,
      ih (fun t ht => hkeys t (List.mem_cons_of_mem s ht)) (by omega) hnext]
    simp only [hsplit, List.length_append, hlen, List.map_cons, List.append_assoc,
      List.singleton_append]
    congr 2
    push_cast
    omega

end Decode

namespace Follower

variable {Key : Type} (aes : Aes256Gcm Key) (key : Option Key)

/-- History of a run: all bytes that arrived, and the texts that were decoded, each before
it was stripped. -/
def noteHeard (s : Follower) (a : FollowAction) (_ : Follower) (heard : Bytes × List Text) :
    Bytes × List Text :=
  match a with
  | .binary data => (heard.1 ++ data, heard.2 ++ (s.batch aes key data).toList)
  | _ => heard

def dataOf : FollowAction → Option Bytes
  | .binary data => some data
  | _ => none

theorem filterMap_dataOf (frames : List Bytes) :
    (frames.map FollowAction.binary).filterMap dataOf = frames := by
  rw [List.filterMap_map]
  exact List.filterMap_some

/-- The first message is empty or starts with a whole record: what it starts with is
checked before anything is decoded. -/
def OpensFramed (s : Follower) : FollowAction → Prop
  | .binary data => s.checked = false → data = [] ∨ isFramed data = true
  | _ => True

/-- The ways the broadcast itself ends the follow. -/
def endedByBroadcast : Option Ending → Bool
  | none | some (.stopped none) | some .graceOver => true
  | some (.stopped (some message)) => message = nothingBroadcasting

variable {aes key} {k : Key} {records : List (SealedRecord aes)}
  {s s' : Follower} {heard : Bytes × List Text}

/-- What holds while a stream of the link's records arrives: those that are there in full
have been decoded and printed, the rest waits in `buf` and in the `StringDecoder`. -/
structure Reads (records : List (SealedRecord aes)) (s : Follower) (heard : Bytes × List Text) :
    Prop where
  unchecked : s.checked = false → s.buf = []
  read : ∃ done others, records = done ++ others ∧
    heard.1 = SealedRecord.stream done ++ s.buf ∧ Partial s.buf others ∧
    StringDecoder.write [] (done.flatMap SealedRecord.plaintext) = (heard.2.flatten, s.held)
  printed : s.stdout = (heard.2.map strip).filter (· ≠ [])
  ended : endedByBroadcast s.ended = true

/-- The bytes that arrived in a run are those of its binary messages. -/
theorem heard_of_run {as : List FollowAction} {p q : Follower × (Bytes × List Text)}
    (hrun : run (withHistory (step aes key) (noteHeard aes key)) p as = some q) :
    q.2.1 = p.2.1 ++ (as.filterMap dataOf).flatten := by
  induction as generalizing p with
  | nil =>
    obtain rfl : p = q := by simpa using hrun
    exact (List.append_nil _).symm
  | cons a as ih =>
    obtain ⟨p', hstep, hrest⟩ := run_cons_eq_some.mp hrun
    rw [ih hrest, (withHistory_eq_some.mp hstep).2]
    cases a with
    | binary data => exact List.append_assoc _ _ _
    | text data => rfl
    | elapse ms => rfl
    | fire handle => rfl

/-- What arrived before a step is the start of what has arrived after it. -/
theorem heard_grows {p p' : Follower × (Bytes × List Text)} {a : FollowAction}
    (hstep : withHistory (step aes key) (noteHeard aes key) p a = some p') :
    p.2.1 <+: p'.2.1 := by
  rw [(withHistory_eq_some.mp hstep).2]
  cases a with
  | binary data => exact List.prefix_append _ _
  | text data => exact List.prefix_rfl
  | elapse ms => exact List.prefix_rfl
  | fire handle => exact List.prefix_rfl

theorem reads_start (records : List (SealedRecord aes)) : Reads records start ([], []) := by
  refine ⟨fun _ => rfl, ⟨[], records, rfl, rfl, Or.inl rfl, ?_⟩, rfl, rfl⟩
  exact StringDecoder.write_nil

/-- Two splits of a stream into whole records and a part of one continue each other. -/
theorem done_append {done others more rest : List (SealedRecord aes)} {tail' : Bytes}
    (hall : done ++ others = more ++ rest) (hle : (SealedRecord.stream done).length ≤
      (SealedRecord.stream more ++ tail').length) (hcut' : Partial tail' rest) :
    ∃ new, more = done ++ new := by
  rcases List.append_eq_append_iff.mp hall with ⟨new, rfl, -⟩ | ⟨extra, rfl, rfl⟩
  · exact ⟨new, rfl⟩
  · -- a record that was whole before cannot be part of one now
    cases extra with
    | nil => exact ⟨[], by simp⟩
    | cons s extra =>
      exfalso
      rw [SealedRecord.stream, List.flatMap_append, List.length_append, List.flatMap_cons,
        List.length_append, List.length_append] at hle
      have hpos := s.length_bytes
      rcases hcut' with rfl | ⟨t, ts, heq, -, hshort⟩
      · simp only [SealedRecord.stream, List.length_nil] at hle
        omega
      · obtain rfl : s = t := (List.cons.inj heq).1
        simp only [SealedRecord.stream] at hle
        omega

/-- A step that brings no bytes changes nothing of what has been read. -/
theorem Reads.frame (h : Reads records s heard) (hbuf : s'.buf = s.buf) (hheld : s'.held = s.held)
    (hchecked : s'.checked = s.checked) (hstdout : s'.stdout = s.stdout)
    (hended : endedByBroadcast s'.ended = true) : Reads records s' heard := by
  refine ⟨?_, ?_, ?_, hended⟩
  · rw [hchecked, hbuf]
    exact h.unchecked
  · rw [hbuf, hheld]
    exact h.read
  · rw [hstdout]
    exact h.printed

theorem Reads.onText (h : Reads records s heard) (data : String) :
    Reads records (s.onText (some k) data) heard := by
  unfold Follower.onText
  split
  · -- the room is encrypted, and the link has its key
    rename_i hcontrol
    unfold control at hcontrol
    split_ifs at hcontrol with hmissing
    simp at hmissing
  · exact h.frame rfl rfl rfl rfl h.ended
  · exact h.frame rfl rfl rfl rfl h.ended
  · split_ifs
    · exact h.frame rfl rfl rfl rfl h.ended
    · exact h.frame rfl rfl rfl rfl rfl
    · exact h.frame rfl rfl rfl rfl rfl
  · exact h

/-- A message of the stream passes the check, and brings the records it completes. -/
theorem Reads.receive_eq (h : Reads records s heard) (hkeys : ∀ r ∈ records, r.key = k)
    {data : Bytes} (hopens : s.OpensFramed (.binary data))
    (harrived : heard.1 ++ data <+: SealedRecord.stream records) :
    ∃ done new others tail, records = done ++ new ++ others ∧
      heard.1 ++ data = SealedRecord.stream (done ++ new) ++ tail ∧
      s.buf ++ data = SealedRecord.stream new ++ tail ∧ Partial tail others ∧
      StringDecoder.write [] (done.flatMap SealedRecord.plaintext) = (heard.2.flatten, s.held) ∧
      s.receive aes (some k) data = some (.ok ⟨new.flatMap SealedRecord.plaintext,
        ((SealedRecord.stream new).length : ℕ)⟩) := by
  obtain ⟨done, others, hall, hheard, hcut, hwritten⟩ := h.read
  obtain ⟨more, rest, tail, hmore, hsplit, htail⟩ := exists_whole harrived
  -- the records that were whole before are the first of those that are whole now
  obtain ⟨new, rfl⟩ := done_append (hall.symm.trans hmore) (by
    rw [← hsplit, hheard]
    simp only [List.length_append]
    omega) htail
  have hbuf : s.buf ++ data = SealedRecord.stream new ++ tail := by
    rw [hheard, List.append_assoc, SealedRecord.stream, SealedRecord.stream,
      List.flatMap_append, List.append_assoc] at hsplit
    exact List.append_cancel_left hsplit
  refine ⟨done, new, rest, tail, hmore, hsplit, hbuf, htail, hwritten, ?_⟩
  have hcheck : (if s.checked then none else mismatch (some k) (s.buf ++ data)) = none := by
    cases hchecked : s.checked with
    | true => rfl
    | false =>
      rw [if_neg Bool.false_ne_true, h.unchecked hchecked, List.nil_append]
      rcases hopens hchecked with rfl | hframed
      · rfl
      · simp [mismatch, hframed]
  have hnewkeys : ∀ r ∈ new, r.key = k := by
    intro r hr
    apply hkeys
    rw [hmore]
    exact List.mem_append_left _ (List.mem_append_right _ hr)
  have hdecode : decode aes (some k) (s.buf ++ data) =
      some ⟨(new.map SealedRecord.plaintext).flatten, ((SealedRecord.stream new).length : ℕ)⟩ := by
    have hloop := decodeFrom_stream hnewkeys (Nat.zero_le _) (List.drop_zero.trans hbuf) htail []
    rw [Nat.zero_add] at hloop
    exact hloop
  have hnonneg : ((SealedRecord.stream new).length : ℤ) ≠ -1 := by omega
  rw [receive, hcheck, hdecode, ← List.flatMap_def]
  simp only [Option.map_some, if_neg hnonneg]

theorem Reads.onBinary (h : Reads records s heard) (hkeys : ∀ r ∈ records, r.key = k)
    {data : Bytes} (hopens : s.OpensFramed (.binary data))
    (harrived : heard.1 ++ data <+: SealedRecord.stream records) :
    Reads records (s.onBinary aes (some k) data)
      (heard.1 ++ data, heard.2 ++ (s.batch aes (some k) data).toList) := by
  obtain ⟨done, new, others, tail, hall, hsplit, hbuf, hcut, hwritten, hreceive⟩ :=
    h.receive_eq hkeys hopens harrived
  have hrest : (s.buf ++ data).drop (SealedRecord.stream new).length = tail := by
    rw [hbuf]
    exact List.drop_left
  -- the decoder goes on where the records before left it
  have htext : StringDecoder.write [] ((done ++ new).flatMap SealedRecord.plaintext) =
      (heard.2.flatten ++ (StringDecoder.write s.held (new.flatMap SealedRecord.plaintext)).1,
        (StringDecoder.write s.held (new.flatMap SealedRecord.plaintext)).2) := by
    rw [List.flatMap_append, StringDecoder.write_append, hwritten]
  rw [batch, Follower.onBinary, hreceive]
  dsimp only
  rw [Int.toNat_natCast, hrest]
  split_ifs with hempty
  · refine ⟨(fun h => by cases h), ⟨done ++ new, others, hall, hsplit, hcut, ?_⟩, ?_, h.ended⟩
    · simpa using htext
    · simp [h.printed, hempty]
  · refine ⟨(fun h => by cases h), ⟨done ++ new, others, hall, hsplit, hcut, ?_⟩, ?_, h.ended⟩
    · simpa using htext
    · simp [h.printed, hempty]

/-- A message that is decoded does not end the follow. -/
theorem onBinary_of_ok {data : Bytes} {decoded : Decoded}
    (h : s.receive aes (some k) data = some (.ok decoded)) :
    (s.onBinary aes (some k) data).ended = s.ended ∧
      (s.onBinary aes (some k) data).checked = true := by
  rw [onBinary, h]
  dsimp only
  split_ifs <;> exact ⟨rfl, rfl⟩

theorem reads_step (hkeys : ∀ r ∈ records, r.key = k) {p p' : Follower × (Bytes × List Text)}
    {a : FollowAction} (h : Reads records p.1 p.2) (hopens : p.1.OpensFramed a)
    (hstep : withHistory (step aes (some k)) (noteHeard aes (some k)) p a = some p')
    (harrived : p'.2.1 <+: SealedRecord.stream records) : Reads records p'.1 p'.2 := by
  obtain ⟨hstep, hnote⟩ := withHistory_eq_some.mp hstep
  rw [hnote] at harrived ⊢
  unfold step at hstep
  split_ifs at hstep
  cases a with
  | text data =>
    rw [← Option.some.inj hstep]
    exact h.onText data
  | binary data =>
    rw [← Option.some.inj hstep]
    exact h.onBinary hkeys hopens harrived
  | elapse ms =>
    rw [← Option.some.inj hstep]
    exact h.frame rfl rfl rfl rfl h.ended
  | fire handle =>
    dsimp only at hstep
    split_ifs at hstep
    rw [← Option.some.inj hstep]
    exact h.frame rfl rfl rfl rfl rfl

/-- All of a stream has arrived: nothing is left over, and all of it was decoded. -/
theorem Reads.all_read (h : Reads records s heard)
    (hall : heard.1 = SealedRecord.stream records) : s.buf = [] ∧
      StringDecoder.write [] (records.flatMap SealedRecord.plaintext) =
        (heard.2.flatten, s.held) := by
  obtain ⟨done, others, rfl, hheard, hcut, hwritten⟩ := h.read
  have hrest : s.buf = SealedRecord.stream others := by
    rw [hall, SealedRecord.stream, List.flatMap_append] at hheard
    exact (List.append_cancel_left hheard).symm
  -- part of a record is shorter than the record
  have hnone : others = [] := by
    rcases hcut with hnil | ⟨r, rs, rfl, -, hshort⟩
    · rw [hnil] at hrest
      cases others with
      | nil => rfl
      | cons r rs =>
        have hlen := congrArg List.length hrest
        have hpos := r.length_bytes
        simp only [SealedRecord.stream, List.flatMap_cons, List.length_append,
          List.length_nil] at hlen
        omega
    · rw [hrest] at hshort
      simp only [SealedRecord.stream, List.flatMap_cons, List.length_append] at hshort
      omega
  subst hnone
  rw [List.append_nil]
  exact ⟨hrest, hwritten⟩

/-- The read without `--follow` of records of the link's key. -/
theorem readHistory_own (hkeys : ∀ r ∈ records, r.key = k) :
    readHistory aes (some k) (SealedRecord.stream records) =
      some (.ok (records.flatMap SealedRecord.plaintext)) := by
  have hloop := decodeFrom_stream hkeys (Nat.zero_le _)
    (List.drop_zero.trans (List.append_nil _).symm) (Or.inl rfl : Partial [] []) []
  have hnonneg : ((0 + (SealedRecord.stream records).length : ℕ) : ℤ) ≠ -1 := by omega
  rw [readHistory, mismatch_stream]
  dsimp only [decode]
  rw [hloop, List.nil_append, ← List.flatMap_def]
  simp only [Option.map_some, if_neg hnonneg]

/-- Records of one key are determined, but for how they are cut, by their bytes. -/
theorem plaintexts_of_stream {own : List (SealedRecord aes)} (hkeys : ∀ r ∈ records, r.key = k)
    (hown : ∀ r ∈ own, r.key = k) (hsame : SealedRecord.stream records = SealedRecord.stream own) :
    records.flatMap SealedRecord.plaintext = own.flatMap SealedRecord.plaintext := by
  have hread := readHistory_own hkeys
  rw [hsame, readHistory_own hown] at hread
  exact (Except.ok.inj (Option.some.inj hread)).symm

theorem reads_of_run (hkeys : ∀ r ∈ records, r.key = k) {as : List FollowAction}
    (hrun : run (withHistory (step aes (some k)) (noteHeard aes (some k))) (start, ([], [])) as =
      some (s, heard))
    (harrived : heard.1 <+: SealedRecord.stream records)
    (hopens : StepsSatisfy (withHistory (step aes (some k)) (noteHeard aes (some k)))
      (fun p a => p.1.OpensFramed a) (start, ([], [])) as) : Reads records s heard := by
  apply run_preserves_of_steps (I := fun p : Follower × (Bytes × List Text) =>
    p.2.1 <+: SealedRecord.stream records → Reads records p.1 p.2) _ _ hopens hrun harrived
  · intro p a p' hI ha hstep harrived'
    exact reads_step hkeys (hI ((heard_grows hstep).trans harrived')) ha hstep harrived'
  · exact fun _ => reads_start records

/-- Messages of a stream alone never end the follow. -/
theorem exists_run (hkeys : ∀ r ∈ records, r.key = k) {frames : List Bytes}
    {p : Follower × (Bytes × List Text)} (h : Reads records p.1 p.2) (hlive : p.1.ended = none)
    (hopens : StepsSatisfy (withHistory (step aes (some k)) (noteHeard aes (some k)))
      (fun p a => p.1.OpensFramed a) p (frames.map .binary))
    (harrived : p.2.1 ++ frames.flatten <+: SealedRecord.stream records) :
    ∃ q, run (withHistory (step aes (some k)) (noteHeard aes (some k))) p
      (frames.map .binary) = some q := by
  induction frames generalizing p with
  | nil => exact ⟨p, rfl⟩
  | cons data frames ih =>
    rw [List.flatten_cons, ← List.append_assoc] at harrived
    have hdata := (List.prefix_append _ _).trans harrived
    have hstep : withHistory (step aes (some k)) (noteHeard aes (some k)) p (.binary data) =
        some (p.1.onBinary aes (some k) data,
          noteHeard aes (some k) p.1 (.binary data) (p.1.onBinary aes (some k) data) p.2) := by
      simp [withHistory, step, hlive]
    obtain ⟨hfirst, hrest⟩ := hopens _ hstep
    obtain ⟨_, _, _, _, -, -, -, -, -, hreceive⟩ := h.receive_eq hkeys hfirst hdata
    obtain ⟨q, hq⟩ := ih (h.onBinary hkeys hfirst hdata)
      ((onBinary_of_ok hreceive).1.trans hlive) hrest harrived
    exact ⟨q, run_cons_eq_some.mpr ⟨_, hstep, hq⟩⟩

/-- A follow with the key of the link reads a stream of records the same however the stream
is cut into messages, characters and records included: it never takes the cut for a wrong
key, and once all has arrived it has decoded what the read without `--follow` would. -/
theorem follow_reads_stream (aes : Aes256Gcm Key) {k : Key} {records : List (SealedRecord aes)}
    (hkeys : ∀ r ∈ records, r.key = k) {as : List FollowAction} {s : Follower}
    {heard : Bytes × List Text}
    (hrun : run (withHistory (step aes (some k)) (noteHeard aes (some k))) (start, ([], [])) as =
      some (s, heard))
    (harrived : heard.1 <+: SealedRecord.stream records)
    (hopens : StepsSatisfy (withHistory (step aes (some k)) (noteHeard aes (some k)))
      (fun p a => p.1.OpensFramed a) (start, ([], [])) as) :
    Reads records s heard ∧ (heard.1 = SealedRecord.stream records → s.buf = [] ∧ ∃ plain,
      readHistory aes (some k) heard.1 = some (.ok plain) ∧
        StringDecoder.write [] plain = (heard.2.flatten, s.held)) := by
  have hreads := reads_of_run hkeys hrun harrived hopens
  refine ⟨hreads, fun hall => ?_⟩
  obtain ⟨hbuf, hwritten⟩ := hreads.all_read hall
  exact ⟨hbuf, _, by rw [hall, readHistory_own hkeys], hwritten⟩

/-- An `é` and an `!` in two records, the character cut between them. -/
def accented : List (SealedRecord tagged) :=
  [⟨1, blankNonce, [0xC3], _, rfl⟩, ⟨1, blankNonce, [0xA9, 33], _, rfl⟩]

theorem follow_reads_accented : ∃ s heard,
    run (withHistory (step tagged (some 1)) (noteHeard tagged (some 1))) (start, ([], []))
      [.binary ((SealedRecord.stream accented).take 40),
        .binary ((SealedRecord.stream accented).drop 40)] = some (s, heard) ∧
      s.buf = [] ∧ heard.2.flatten = codeUnits "é!" := by
  have hkeys : ∀ r ∈ accented, r.key = 1 := by decide
  have hopens : start.OpensFramed (.binary ((SealedRecord.stream accented).take 40)) :=
    fun _ => Or.inr (by decide)
  -- the first message is decoded, so the follow goes on
  obtain ⟨_, _, _, _, -, -, -, -, -, hreceive⟩ :=
    (reads_start accented).receive_eq hkeys hopens (List.take_prefix 40 _)
  obtain ⟨hlive, hchecked⟩ := onBinary_of_ok hreceive
  have hrun : ∃ s texts,
      run (withHistory (step tagged (some 1)) (noteHeard tagged (some 1))) (start, ([], []))
        [.binary ((SealedRecord.stream accented).take 40),
          .binary ((SealedRecord.stream accented).drop 40)] =
            some (s, SealedRecord.stream accented, texts) := by
    have hcut : [] ++ (SealedRecord.stream accented).take 40 ++
        (SealedRecord.stream accented).drop 40 = SealedRecord.stream accented :=
      List.take_append_drop 40 (SealedRecord.stream accented)
    have hstart : start.ended = none := rfl
    simp only [run, withHistory, step, hlive, hstart, noteHeard, hcut, Option.isSome_none,
      Bool.false_eq_true, if_false, Option.map_some, Option.bind_some]
    exact ⟨_, _, rfl⟩
  obtain ⟨s, texts, hrun⟩ := hrun
  obtain ⟨-, hcomplete⟩ := follow_reads_stream tagged hkeys hrun List.prefix_rfl (by
    intro p hp
    refine ⟨hopens, fun q _ => ⟨?_, trivial⟩⟩
    intro hfirst
    obtain ⟨hp, -⟩ := withHistory_eq_some.mp hp
    have hp : some (start.onBinary tagged (some 1) ((SealedRecord.stream accented).take 40)) =
      some p.1 := hp
    rw [← Option.some.inj hp, hchecked] at hfirst
    cases hfirst)
  obtain ⟨hbuf, plain, hread, hwritten⟩ := hcomplete rfl
  refine ⟨s, _, hrun, hbuf, ?_⟩
  have hrefused : SealedRecord.ForeignRefused 1 accented := by
    unfold SealedRecord.ForeignRefused
    decide
  have hplain : plain = ['é', '!'].flatMap String.utf8EncodeChar := by
    rw [readHistory_stream hrefused, if_pos hkeys] at hread
    have hread := Except.ok.inj (Option.some.inj hread)
    rw [← hread]
    decide
  rw [hplain, StringDecoder.write_encode] at hwritten
  have htext : ['é', '!'].flatMap utf16 = texts.flatten := congrArg Prod.fst hwritten
  rw [← htext]
  decide

end Follower

end Shellshare
