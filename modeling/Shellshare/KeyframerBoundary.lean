import Shellshare.KeyframerCarry
import Shellshare.ReplayWindow

/-! Keyframes in the plaintext of a broadcast: one that is due inside a character
splits it. -/
namespace Shellshare
open Utf8Validation

/-- The plaintext of the chunks that a sequence of calls buffers, in order. -/
def plaintexts {V : Type} [Vt V] : Keyframer V → List Call → List Bytes
  | _, [] => []
  | k, c :: calls =>
    let k := k.feed c.data c.size
    (if c.data = [] then [] else [c.data]) ++ k.maybeKeyframe.1.toList ++
      plaintexts k.maybeKeyframe.2 calls

/-- Whenever the check is due on the alternate screen, the frame that was just fed left
nothing to carry. -/
def NoCarryWhenDue {V : Type} [Vt V] : Keyframer V → List Call → Prop
  | _, [] => True
  | k, c :: calls =>
    let k := k.feed c.data c.size
    (k.due → onAlternateScreen (Vt.dump k.vt) = true → k.carry = []) ∧
      NoCarryWhenDue k.maybeKeyframe.2 calls

/-- A terminal size as the emulator has it. -/
def gridOf (size : TermSize) : ℕ × ℕ := (max size.cols.toNat 1, max size.rows.toNat 1)

/-- The size of the last call, and the frames with data since it changed. -/
structure Pace where
  grid : ℕ × ℕ
  frames : ℕ

namespace Pace

def next (p : Pace) (c : Call) : Pace :=
  if gridOf c.size ≠ p.grid then ⟨gridOf c.size, 0⟩
  else if c.data = [] then p
  else ⟨p.grid, p.frames + 1⟩

/-- The size changes, or this is one more 60th frame since it did. -/
def Due (p : Pace) (c : Call) : Prop :=
  gridOf c.size ≠ p.grid ∨ c.data ≠ [] ∧ framesPerKeyframe ∣ p.frames + 1

end Pace

def pace (size : TermSize) (calls : List Call) : Pace := calls.foldl Pace.next ⟨gridOf size, 0⟩

/-- All bytes of some calls. -/
def bytesOf (calls : List Call) : Bytes := (calls.map Call.data).flatten

/-- The emulator that all the calls were fed to. -/
def screen {V : Type} [Vt V] (size : TermSize) (calls : List Call) : V :=
  (calls.foldl (fun k c => k.feed c.data c.size) (Keyframer.new size)).vt

/-- At every call where the check is due, with the alternate screen up, all bytes so far are
whole characters. -/
def WholeWhenDue (V : Type) [Vt V] (size : TermSize) (calls : List Call) : Prop :=
  ∀ before c after, calls = before ++ c :: after → (pace size before).Due c →
    onAlternateScreen (Vt.dump (screen size (before ++ [c]) : V)) = true →
      fromUtf8 (bytesOf (before ++ [c])) = none

/-- A chunk that seals a plaintext. -/
def Seals (cipher : Option Encryptor) (plain : Bytes) (record : Bytes) : Prop :=
  ∃ nonce, sealed cipher nonce plain = some record

variable {V : Type} [Vt V]

/-- What is broadcast seals the plaintexts, one record each. -/
theorem seals_broadcast {cipher : Option Encryptor} {i : ℕ} {k : Keyframer V} {calls : List Call}
    {sents : List Sent} (h : broadcast cipher i k calls = some sents) :
    List.Forall₂ (Seals cipher) (plaintexts k calls) (sents.map Sent.bytes) := by
  induction calls generalizing i k sents with
  | nil =>
    cases h
    exact .nil
  | cons c calls ih =>
    obtain ⟨s, rest, hs, hrest, rfl⟩ := broadcast_cons_eq_some h
    obtain ⟨hdata, hkeyframe, hnext⟩ := sending_eq_some hs
    have hlater := ih hrest
    rw [hnext] at hlater
    rw [plaintexts, List.map_append, Sending.sent_bytes, Sending.records]
    apply List.rel_append _ hlater
    apply List.rel_append
    · rcases hdata with ⟨hnil, hnone⟩ | ⟨hne, record, hsealed, hsome⟩
      · rw [if_pos hnil, hnone]
        exact .nil
      · rw [if_neg hne, hsome]
        exact .cons ⟨c.nonce, hsealed⟩ .nil
    · rcases hkeyframe with ⟨hnone, hs⟩ | ⟨keyframe, record, hsome, hsealed, hs⟩
      · rw [hnone, hs]
        exact .nil
      · rw [hsome, hs]
        exact .cons ⟨c.keyframeNonce, hsealed⟩ .nil

namespace Keyframer

variable {k : Keyframer V}

/-- The carry after a frame, also after an empty one. -/
theorem feed_carry {stream : Bytes} (hk : k.carry = unfinished stream) (data : Bytes)
    (size : TermSize) : (k.feed data size).carry = unfinished (stream ++ data) := by
  have hresize : (k.applyResize size).carry = k.carry := by
    unfold applyResize
    dsimp only
    split_ifs <;> rfl
  rw [feed]
  dsimp only
  split_ifs with hdata
  · rw [hresize, hk, hdata, List.append_nil]
  · calc ((k.applyResize size).feedBytes data).carry
      _ = unfinished ((k.applyResize size).carry ++ data) := (feedBytes_carry _ data).2
      _ = unfinished (unfinished stream ++ data) := by rw [hresize, hk]
      _ = unfinished (stream ++ data) := (unfinished_append stream data).symm

theorem maybeKeyframe_carry (k : Keyframer V) : k.maybeKeyframe.2.carry = k.carry := by
  unfold maybeKeyframe
  split_ifs <;> rfl

/-- A keyframe is valid text, and it is emitted exactly when it is due on the alternate
screen. -/
theorem maybeKeyframe_cases (k : Keyframer V) :
    (k.maybeKeyframe.1 = none ∧ ¬ (k.due ∧ onAlternateScreen (Vt.dump k.vt) = true)) ∨
      ∃ keyframe, k.maybeKeyframe.1 = some keyframe ∧ keyframe ≠ [] ∧ fromUtf8 keyframe = none ∧
        k.due ∧ onAlternateScreen (Vt.dump k.vt) = true := by
  by_cases hdue : k.due
  · by_cases halt : onAlternateScreen (Vt.dump k.vt) = true
    · have hsome := congrArg Prod.fst (maybeKeyframe_of_due hdue halt)
      refine Or.inr ⟨_, hsome, keyframe_ne_nil hsome, ?_, hdue, halt⟩
      exact (fromUtf8_eq_none_iff_chars _).mpr ⟨_, rfl⟩
    · left
      refine ⟨?_, fun h => halt h.2⟩
      simp only [maybeKeyframe, if_neg (Nat.not_lt.mpr hdue), if_neg halt]
  · exact Or.inl ⟨congrArg Prod.fst (maybeKeyframe_of_not_due hdue), fun h => hdue h.1⟩

end Keyframer

/-- What the plaintext so far has in common with the data so far. -/
structure SameEnd (data plain : Bytes) : Prop where
  noInvalid : NoInvalid plain
  unfinished_eq : unfinished plain = unfinished data

theorem SameEnd.append {data plain more : Bytes} (h : SameEnd data plain)
    (hmore : NoInvalid (data ++ more)) : SameEnd (data ++ more) (plain ++ more) := by
  refine ⟨?_, ?_⟩
  · rw [noInvalid_append, h.unfinished_eq]
    exact ⟨h.noInvalid, ((noInvalid_append data more).mp hmore).2⟩
  · rw [unfinished_append, h.unfinished_eq, ← unfinished_append]

/-- Valid text between two characters leaves the end as it is. -/
theorem SameEnd.insert {data plain keyframe : Bytes} (h : SameEnd data plain)
    (hend : unfinished data = []) (hkeyframe : fromUtf8 keyframe = none) :
    SameEnd data (plain ++ keyframe) := by
  obtain ⟨hno, hkend⟩ := (fromUtf8_eq_none_iff keyframe).mp hkeyframe
  refine ⟨?_, ?_⟩
  · rw [noInvalid_append, h.unfinished_eq, hend]
    exact ⟨h.noInvalid, hno⟩
  · rw [unfinished_append, h.unfinished_eq, hend]
    exact hkend

/-- The run lemma: the rest of the plaintext is valid exactly when no keyframe of the
remaining calls comes inside a character. -/
theorem valid_plaintexts_iff {k : Keyframer V} {calls : List Call} {data plain : Bytes}
    (hend : SameEnd data plain) (hcarry : k.carry = unfinished data)
    (hvalid : fromUtf8 (data ++ (calls.map Call.data).flatten) = none) :
    fromUtf8 (plain ++ (plaintexts k calls).flatten) = none ↔ NoCarryWhenDue k calls := by
  induction calls generalizing k data plain with
  | nil =>
    have hdata : fromUtf8 data = none := by simpa using hvalid
    refine iff_of_true ?_ trivial
    rw [plaintexts, List.flatten_nil, List.append_nil, fromUtf8_eq_none_iff, hend.unfinished_eq]
    exact ⟨hend.noInvalid, ((fromUtf8_eq_none_iff data).mp hdata).2⟩
  | cons c calls ih =>
    rw [List.map_cons, List.flatten_cons, ← List.append_assoc] at hvalid
    have hno : NoInvalid (data ++ c.data) :=
      ((noInvalid_append _ _).mp ((fromUtf8_eq_none_iff _).mp hvalid).1).1
    have hend' := hend.append hno
    have hcarry' := Keyframer.feed_carry hcarry c.data c.size
    have hnext := (Keyframer.maybeKeyframe_carry (k.feed c.data c.size)).trans hcarry'
    have hchunk : ((if c.data = [] then [] else [c.data]) : List Bytes).flatten = c.data := by
      split_ifs with h
      · exact h.symm
      · simp
    rw [plaintexts, NoCarryWhenDue]
    rw [List.flatten_append, List.flatten_append, hchunk]
    rcases Keyframer.maybeKeyframe_cases (k.feed c.data c.size) with
      ⟨hnone, hnot⟩ | ⟨keyframe, hsome, hne, htext, hdue, halt⟩
    · rw [hnone, Option.toList_none, List.flatten_nil, List.append_nil, ← List.append_assoc,
        ih hend' hnext hvalid]
      exact (and_iff_right fun hdue halt => absurd ⟨hdue, halt⟩ hnot).symm
    · -- a keyframe is valid text by itself, so what matters is where it is put
      rw [hsome, Option.toList_some, List.flatten_singleton]
      have hassoc : plain ++ (c.data ++ keyframe ++
          (plaintexts (k.feed c.data c.size).maybeKeyframe.2 calls).flatten) =
          (plain ++ c.data ++ keyframe) ++
            (plaintexts (k.feed c.data c.size).maybeKeyframe.2 calls).flatten := by
        simp
      rw [hassoc]
      by_cases hboundary : unfinished (data ++ c.data) = []
      · rw [ih (hend'.insert hboundary htext) hnext hvalid]
        exact (and_iff_right fun _ _ => hcarry'.trans hboundary).symm
      · -- the keyframe breaks the character that the frame ended inside of
        apply iff_of_false
        · intro h
          have hbroken := ((noInvalid_append _ _).mp ((fromUtf8_eq_none_iff _).mp h).1).1
          have hinside : unfinished (plain ++ c.data) ≠ [] := by
            rw [hend'.unfinished_eq]
            exact hboundary
          exact not_noInvalid_of_interrupted hinside htext hne hbroken
        · rintro ⟨hnocarry, -⟩
          exact hboundary (hcarry'.symm.trans (hnocarry hdue halt))

/-- What a keyframer between two calls has of the calls so far. -/
structure Tracks (size : TermSize) (done : List Call) (k : Keyframer V) : Prop where
  grid : (k.cols, k.rows) = (pace size done).grid
  frames : k.framesSince = (pace size done).frames % framesPerKeyframe
  carry : k.carry = unfinished (bytesOf done)
  fed : ∃ n, done.foldl (fun k c => k.feed c.data c.size) (Keyframer.new size) =
    { k with framesSince := n }

section Cadence
variable {size : TermSize} {done : List Call} {k : Keyframer V}

theorem tracks_new (size : TermSize) : Tracks size [] (Keyframer.new size : Keyframer V) := by
  refine ⟨rfl, rfl, ?_, 0, rfl⟩
  simp [Keyframer.new, bytesOf, unfinished, pieces_nil]

theorem pace_concat (size : TermSize) (done : List Call) (c : Call) :
    pace size (done ++ [c]) = (pace size done).next c := by
  rw [pace, List.foldl_append]
  rfl

theorem bytesOf_concat (done : List Call) (c : Call) :
    bytesOf (done ++ [c]) = bytesOf done ++ c.data := by
  rw [bytesOf, List.map_append, List.flatten_append]
  exact congrArg (bytesOf done ++ ·) (List.append_nil c.data)

/-- The count decides neither what is fed nor what is carried. -/
theorem feed_framesSince_irrel (k : Keyframer V) (n : ℕ) (data : Bytes) (size : TermSize) :
    ∃ m, ({ k with framesSince := n } : Keyframer V).feed data size =
      { k.feed data size with framesSince := m } := by
  unfold Keyframer.feed Keyframer.applyResize
  dsimp only
  split_ifs <;> exact ⟨_, rfl⟩

theorem Tracks.vt_feed (h : Tracks size done k) (c : Call) :
    (k.feed c.data c.size).vt = screen size (done ++ [c]) := by
  obtain ⟨n, hn⟩ := h.fed
  obtain ⟨m, hm⟩ := feed_framesSince_irrel k n c.data c.size
  rw [screen, List.foldl_append, hn, List.foldl_cons, List.foldl_nil, hm]

/-- The count of a fed keyframer, by what the inputs say of the call. -/
theorem Tracks.framesSince_feed (h : Tracks size done k) (c : Call) :
    ((k.feed c.data c.size).due ↔ (pace size done).Due c) ∧
      (¬(pace size done).Due c →
        (k.feed c.data c.size).framesSince = ((pace size done).next c).frames % framesPerKeyframe) := by
  have hgrid : (max c.size.cols.toNat 1 ≠ k.cols ∨ max c.size.rows.toNat 1 ≠ k.rows) ↔
      gridOf c.size ≠ (pace size done).grid := by
    rw [← h.grid, gridOf, ne_eq, ne_eq, ne_eq, Prod.mk.injEq, not_and_or]
  have hframes := h.frames
  unfold framesPerKeyframe at hframes
  simp only [Keyframer.due, Keyframer.feed, Keyframer.applyResize, Pace.Due, Pace.next, hgrid,
    framesPerKeyframe]
  by_cases hchanged : gridOf c.size ≠ (pace size done).grid
  · simp only [if_pos hchanged]
    refine ⟨iff_of_true ?_ (Or.inl hchanged), fun hnot => absurd (Or.inl hchanged) hnot⟩
    split_ifs <;> simp
  · simp only [if_neg hchanged]
    by_cases hdata : c.data = []
    · simp only [if_pos hdata]
      refine ⟨iff_of_false (by omega) ?_, fun _ => hframes⟩
      rintro (hc | ⟨hne, -⟩)
      · exact hchanged hc
      · exact hne hdata
    · simp only [if_neg hdata]
      simp only [hchanged, hdata, ne_eq, not_false_eq_true, true_and, false_or]
      omega

theorem Pace.next_grid (p : Pace) (c : Call) : (p.next c).grid = gridOf c.size := by
  unfold Pace.next
  split_ifs with hchanged hdata
  · rfl
  · exact (not_ne_iff.mp hchanged).symm
  · exact (not_ne_iff.mp hchanged).symm

theorem Pace.next_frames_of_due {p : Pace} {c : Call} (h : p.Due c) :
    (p.next c).frames % framesPerKeyframe = 0 := by
  unfold Pace.next
  rcases h with hchanged | ⟨hdata, hsixty⟩
  · rw [if_pos hchanged]
    exact Nat.zero_mod _
  · split_ifs
    · exact Nat.zero_mod _
    · exact Nat.mod_eq_zero_of_dvd hsixty

theorem feed_grid (k : Keyframer V) (data : Bytes) (size : TermSize) :
    ((k.feed data size).cols, (k.feed data size).rows) = gridOf size := by
  have hresize : ((k.applyResize size).cols, (k.applyResize size).rows) = gridOf size := by
    unfold Keyframer.applyResize gridOf
    dsimp only
    split_ifs with hchanged
    · rfl
    · rw [not_or, not_ne_iff, not_ne_iff] at hchanged
      rw [hchanged.1, hchanged.2]
  unfold Keyframer.feed
  dsimp only
  split_ifs <;> exact hresize

theorem maybeKeyframe_snd (k : Keyframer V) :
    ∃ n, k.maybeKeyframe.2 = { k with framesSince := n } := by
  unfold Keyframer.maybeKeyframe
  split_ifs <;> exact ⟨_, rfl⟩

theorem Tracks.next (h : Tracks size done k) (c : Call) :
    Tracks size (done ++ [c]) (k.feed c.data c.size).maybeKeyframe.2 := by
  obtain ⟨n, hsnd⟩ := maybeKeyframe_snd (k.feed c.data c.size)
  refine ⟨?_, ?_, ?_, ?_⟩
  · rw [pace_concat, Pace.next_grid, hsnd]
    exact feed_grid k c.data c.size
  · obtain ⟨hdue, hframes⟩ := h.framesSince_feed c
    rw [pace_concat, (Keyframer.maybeKeyframe_framesSince _).1]
    split_ifs with hd
    · exact (Pace.next_frames_of_due (hdue.mp hd)).symm
    · exact hframes fun hdue' => hd (hdue.mpr hdue')
  · rw [Keyframer.maybeKeyframe_carry, bytesOf_concat]
    exact Keyframer.feed_carry h.carry c.data c.size
  · obtain ⟨m, hm⟩ := h.fed
    obtain ⟨m', hm'⟩ := feed_framesSince_irrel k m c.data c.size
    refine ⟨m', ?_⟩
    rw [List.foldl_append, hm, List.foldl_cons, List.foldl_nil, hm', hsnd]

/-- The same of the keyframer and of the inputs: the check is due at the same calls, and what
is carried then is what the bytes so far end inside of. -/
theorem noCarryWhenDue_iff {calls : List Call} (h : Tracks size done k)
    (hvalid : fromUtf8 (bytesOf (done ++ calls)) = none) :
    NoCarryWhenDue k calls ↔ ∀ before c after, calls = before ++ c :: after →
      (pace size (done ++ before)).Due c →
      onAlternateScreen (Vt.dump (screen size (done ++ before ++ [c]) : V)) = true →
        fromUtf8 (bytesOf (done ++ before ++ [c])) = none := by
  induction calls generalizing done k with
  | nil =>
    refine iff_of_true trivial ?_
    intro before c after hsplit
    cases before <;> cases hsplit
  | cons c calls ih =>
    have hno : NoInvalid (bytesOf (done ++ [c])) := by
      have hall : bytesOf (done ++ c :: calls) = bytesOf (done ++ [c]) ++ bytesOf calls := by
        simp [bytesOf]
      rw [hall, fromUtf8_eq_none_iff, noInvalid_append] at hvalid
      exact hvalid.1.1
    -- a start of valid text is valid if nothing of it is carried
    have hcarry : (k.feed c.data c.size).carry = [] ↔ fromUtf8 (bytesOf (done ++ [c])) = none := by
      rw [Keyframer.feed_carry h.carry, ← bytesOf_concat, fromUtf8_eq_none_iff]
      exact (and_iff_right hno).symm
    rw [NoCarryWhenDue, ih (h.next c) (by simpa using hvalid), h.vt_feed, hcarry,
      (h.framesSince_feed c).1]
    constructor
    · rintro ⟨hfirst, hrest⟩ before d after hsplit
      cases before with
      | nil =>
        obtain ⟨rfl, rfl⟩ := List.cons.inj hsplit
        simpa using hfirst
      | cons b before =>
        obtain ⟨rfl, rfl⟩ := List.cons.inj hsplit
        simpa using hrest before d after rfl
    · intro hall
      refine ⟨by simpa using hall [] c calls rfl, ?_⟩
      intro before d after hsplit
      simpa using hall (c :: before) d after (by rw [hsplit]; rfl)

end Cadence

namespace Transport
open TransitionRuns

/-- The plaintext of a broadcast of valid text is valid exactly when the bytes so far are whole
characters wherever the check is due with the alternate screen up: at every change of size, and
at every 60th frame with data since the last one. -/
theorem keyframes_between_characters_iff (size : TermSize) (theme : Option String)
    (cipher : Option Encryptor) (as : List ClientAction) (t : Transport V)
    (hrun : run step (new size theme cipher) as = some t)
    (hvalid : fromUtf8 ((as.filterMap ClientAction.call).map Call.data).flatten = none) :
    List.Forall₂ (Seals cipher)
        (plaintexts (Keyframer.new size : Keyframer V) (as.filterMap ClientAction.call))
        (t.queued.map Chunk.bytes) ∧
      (fromUtf8 (plaintexts (Keyframer.new size : Keyframer V)
          (as.filterMap ClientAction.call)).flatten = none ↔
        WholeWhenDue V size (as.filterMap ClientAction.call)) := by
  obtain ⟨sents, hsents, hqueued⟩ := broadcast_of_run (placed_new size theme cipher) hrun 0
  have hempty : SameEnd [] [] := ⟨by simp [NoInvalid, pieces_nil], rfl⟩
  have hnew : (Keyframer.new size : Keyframer V).carry = unfinished [] := by
    simp [Keyframer.new, unfinished, pieces_nil]
  refine ⟨?_, ?_⟩
  · rw [hqueued]
    exact seals_broadcast hsents
  · have hwhole := noCarryWhenDue_iff (V := V) (tracks_new size) hvalid
    simp only [List.nil_append] at hwhole
    exact (valid_plaintexts_iff hempty hnew hvalid).trans hwhole

theorem keyframes_between_characters_resized : ∃ t : Transport FullScreen,
    run step (new size80x24 none none) resized = some t ∧
      List.Forall₂ (Seals none)
        (plaintexts (Keyframer.new size80x24 : Keyframer FullScreen)
          (resized.filterMap ClientAction.call)) (t.queued.map Chunk.bytes) ∧
      (fromUtf8 (plaintexts (Keyframer.new size80x24 : Keyframer FullScreen)
          (resized.filterMap ClientAction.call)).flatten = none ↔
        WholeWhenDue FullScreen size80x24 (resized.filterMap ClientAction.call)) :=
  ⟨_, rfl, keyframes_between_characters_iff (V := FullScreen) size80x24 none none resized _ rfl
    ((fromUtf8_eq_none_iff_chars _).mpr ⟨['h', 'i'], by decide⟩)⟩

/-- The two bytes of one character in two frames, with a resize at the first. -/
def splitCharacter : List ClientAction :=
  [.handshake .accepted, .write true, .send [0xC3] ⟨100, 30⟩ zeroNonce zeroNonce, .read .quiet,
    .write true, .write true, .write true, .send [0xA9] ⟨100, 30⟩ zeroNonce zeroNonce,
    .read .quiet, .write true]

theorem keyframe_splits_character : ∃ t : Transport FullScreen,
    run step (new size80x24 none none) splitCharacter = some t ∧
      fromUtf8 ((splitCharacter.filterMap ClientAction.call).map Call.data).flatten = none ∧
      t.queued.map Chunk.bytes = [[0xC3], sevenBit enterAlternate, [0xA9]] ∧
      fromUtf8 (t.queued.map Chunk.bytes).flatten ≠ none := by
  refine ⟨_, rfl, ?_, rfl, ?_⟩
  · exact (fromUtf8_eq_none_iff_chars _).mpr ⟨['é'], by decide⟩
  · have hstart : fromUtf8 ((0xC3 : UInt8) :: (sevenBit enterAlternate ++ [0xA9])) =
        some ⟨0, some 1⟩ := by
      rw [fromUtf8]
      decide
    exact fun h => Option.some_ne_none _ (hstart.symm.trans h)

end Transport

end Shellshare
