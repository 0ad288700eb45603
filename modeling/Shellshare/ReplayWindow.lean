import Mathlib.Algebra.Order.BigOperators.Group.List
import Shellshare.Rooms
import Shellshare.TransportAccounting

/-! The stream one broadcast sends, and the part of it that a room still holds: the
bounds of the history leave room for everything since the last full redraw. -/
namespace Shellshare
open TransitionRuns

/-- The sender stops coalescing at this many bytes. -/
def maxBatch : ℕ := 64 * 1024

/-- What one read of the terminal may return. -/
def readSize : ℕ := 4096

/-- The longest batch: one byte short of the bound, and then one more read. -/
def maxFrame : ℕ := maxBatch - 1 + readSize

example : maxFrame = 69631 := rfl

/-- The arguments of one `send`, with the nonces it draws. -/
structure Call where
  data : Bytes
  size : TermSize
  nonce : Nonce
  keyframeNonce : Nonce

def ClientAction.call : ClientAction → Option Call
  | .send data size nonce keyframeNonce => some ⟨data, size, nonce, keyframeNonce⟩
  | _ => none

/-- A sealed chunk of the broadcast, with the call that queued it. -/
structure Sent where
  call : ℕ
  keyframe : Bool
  bytes : Bytes

def Sending.sent {V : Type} (s : Sending V) (call : ℕ) : List Sent :=
  (s.data.map fun bytes => ⟨call, false, bytes⟩).toList ++
    (s.keyframe.map fun bytes => ⟨call, true, bytes⟩).toList

theorem Sending.sent_bytes {V : Type} (s : Sending V) (call : ℕ) :
    (s.sent call).map Sent.bytes = s.records := by
  obtain ⟨data, keyframe, k⟩ := s
  cases data <;> cases keyframe <;> rfl

/-- Everything a sequence of calls queues, the first of them numbered `i`. -/
def broadcast {V : Type} [Vt V] (cipher : Option Encryptor) :
    ℕ → Keyframer V → List Call → Option (List Sent)
  | _, _, [] => some []
  | i, k, c :: calls =>
    (sending cipher k c.data c.size c.nonce c.keyframeNonce).bind fun s =>
      (broadcast cipher (i + 1) s.keyframer calls).map (s.sent i ++ ·)

/-- From call `j` on, every due check finds the alternate screen. -/
def AlternateFrom {V : Type} [Vt V] (j : ℕ) : ℕ → Keyframer V → List Call → Prop
  | _, _, [] => True
  | i, k, c :: calls =>
    let k := k.feed c.data c.size
    (j ≤ i → k.due → onAlternateScreen (Vt.dump k.vt) = true) ∧
      AlternateFrom j (i + 1) k.maybeKeyframe.2 calls

/-- The output of call `j`, or a keyframe produced at or after it. -/
def Redraws (j : ℕ) (s : Sent) : Prop :=
  s.call = j ∧ s.keyframe = false ∨ s.keyframe = true ∧ j ≤ s.call

/-- A redraw has been sent, and at most `count` frames of output from it on. -/
def RedrawWithin (j count : ℕ) (sents : List Sent) : Prop :=
  ∃ before redraw newer, sents = before ++ redraw :: newer ∧ Redraws j redraw ∧
    (∀ s ∈ newer, s.keyframe = false) ∧
    newer.length + (if redraw.keyframe then 0 else 1) ≤ count

/-- The history holds a redraw whole, with all that was sent after it. -/
def HoldsRedraw (j : ℕ) (sents : List Sent) (h : MessageHistory) : Prop :=
  ∃ before redraw newer, sents = before ++ redraw :: newer ∧ Redraws j redraw ∧
    (redraw :: newer).map Sent.bytes <:+ h.chunks

namespace ReplayBuffer

theorem queued_bufferSealed_foldl (b : ReplayBuffer) (records : List Bytes) :
    (records.foldl bufferSealed b).queued.map Chunk.bytes =
      b.queued.map Chunk.bytes ++ records := by
  induction records generalizing b with
  | nil => simp
  | cons record records ih =>
    have hone : (b.bufferSealed record).queued = b.queued ++ [⟨b.queued.length, record⟩] := rfl
    rw [List.foldl_cons, ih, hone]
    simp

end ReplayBuffer

namespace Transport

variable {V : Type} [Vt V]

/-- Only `send` queues anything or moves the keyframer. -/
theorem Moves.queued {t : Transport V} {a : ClientAction} {b : ReplayBuffer} {k : Keyframer V}
    (h : Moves t a b k) :
    (a.call = none ∧ b.queued = t.queued ∧ k = t.keyframer) ∨
      ∃ c s, a.call = some c ∧
        sending t.cipher t.keyframer c.data c.size c.nonce c.keyframeNonce = some s ∧
        b.queued.map Chunk.bytes = t.queued.map Chunk.bytes ++ s.records ∧ k = s.keyframer := by
  cases h with
  | send data size nonce keyframeNonce s hsent =>
    exact Or.inr ⟨⟨data, size, nonce, keyframeNonce⟩, s, rfl, hsent,
      ReplayBuffer.queued_bufferSealed_foldl _ _, rfl⟩
  | control sent hf hs => cases sent <;> exact Or.inl ⟨rfl, rfl, rfl⟩
  | sent chunk rest hf hp hs =>
    rw [ReplayBuffer.hand_eq]
    exact Or.inl ⟨rfl, rfl, rfl⟩
  | lost chunk rest hf hp hs =>
    rw [ReplayBuffer.hand_eq]
    exact Or.inl ⟨rfl, rfl, rfl⟩
  | _ => exact Or.inl ⟨rfl, rfl, rfl⟩

/-- The chunks a run queues are those its calls broadcast. -/
theorem broadcast_of_run {t t' : Transport V} {as : List ClientAction} (hp : Placed t)
    (hrun : run step t as = some t') (i : ℕ) :
    ∃ sents, broadcast t.cipher i t.keyframer (as.filterMap ClientAction.call) = some sents ∧
      t'.queued.map Chunk.bytes = t.queued.map Chunk.bytes ++ sents.map Sent.bytes := by
  induction as generalizing t i with
  | nil =>
    obtain rfl := Option.some.inj hrun
    exact ⟨[], rfl, by simp⟩
  | cons a as ih =>
    obtain ⟨u, hu, hrest⟩ := run_cons_eq_some.mp hrun
    obtain ⟨hmoves, hcipher, hplaced⟩ := step_moves hp hu
    rcases hmoves.queued with ⟨hcall, hqueued, hk⟩ | ⟨c, s, hcall, hsent, hqueued, hk⟩
    · obtain ⟨sents, hsents, hq⟩ := ih hplaced hrest i
      refine ⟨sents, ?_, hqueued ▸ hq⟩
      rw [List.filterMap_cons_none hcall, ← hcipher, ← hk]
      exact hsents
    · obtain ⟨sents, hsents, hq⟩ := ih hplaced hrest (i + 1)
      refine ⟨s.sent i ++ sents, ?_, ?_⟩
      · rw [hcipher, hk] at hsents
        simp only [List.filterMap_cons_some hcall, broadcast, hsent, hsents, Option.bind_some,
          Option.map_some]
      · rw [hq, hqueued, List.map_append, Sending.sent_bytes, List.append_assoc]

end Transport

section RedrawWithin
variable {j m n : ℕ} {sents older : List Sent} {s : Sent}

theorem RedrawWithin.mono (h : RedrawWithin j m sents) (hmn : m ≤ n) : RedrawWithin j n sents := by
  obtain ⟨before, redraw, newer, heq, hr, hnewer, hcount⟩ := h
  exact ⟨before, redraw, newer, heq, hr, hnewer, hcount.trans hmn⟩

theorem RedrawWithin.prepend (h : RedrawWithin j n sents) (older : List Sent) :
    RedrawWithin j n (older ++ sents) := by
  obtain ⟨before, redraw, newer, rfl, hr, hnewer, hcount⟩ := h
  exact ⟨older ++ before, redraw, newer, (List.append_assoc _ _ _).symm, hr, hnewer, hcount⟩

/-- One more frame of output. -/
theorem RedrawWithin.output (h : RedrawWithin j n sents) (hs : s.keyframe = false) :
    RedrawWithin j (n + 1) (sents ++ [s]) := by
  obtain ⟨before, redraw, newer, rfl, hr, hnewer, hcount⟩ := h
  refine ⟨before, redraw, newer ++ [s], by simp, hr, fun x hx => ?_, ?_⟩
  · rcases List.mem_append.mp hx with hx | hx
    · exact hnewer x hx
    · exact List.mem_singleton.mp hx ▸ hs
  · rw [List.length_append, List.length_singleton]
    omega

theorem redrawWithin_first (hcall : s.call = j) (hs : s.keyframe = false) :
    RedrawWithin j 1 (older ++ [s]) := by
  refine ⟨older, s, [], rfl, Or.inl ⟨hcall, hs⟩, nofun, ?_⟩
  rw [hs]
  exact Nat.le_refl 1

theorem redrawWithin_keyframe (hcall : j ≤ s.call) (hs : s.keyframe = true) :
    RedrawWithin j 0 (older ++ [s]) := by
  refine ⟨older, s, [], rfl, Or.inr ⟨hs, hcall⟩, nofun, ?_⟩
  rw [hs]
  exact Nat.le_refl 0

end RedrawWithin

section Cadence
variable {V : Type} {cipher : Option Encryptor} {k : Keyframer V} {c : Call} {s : Sending V}
  {i j : ℕ}

/-- What a room may have received of a call and those after it. -/
theorem Sending.prefix_sent {record : Bytes} (hdata : s.data = some record) {p rest : List Sent}
    (hp : p <+: s.sent i ++ rest) :
    p = [] ∨ p = [⟨i, false, record⟩] ∨ ∃ q, p = s.sent i ++ q ∧ q <+: rest := by
  cases hkeyframe : s.keyframe with
  | none =>
    have hsent : s.sent i = [⟨i, false, record⟩] := by rw [sent, hdata, hkeyframe]; rfl
    rw [hsent] at hp ⊢
    rcases List.prefix_cons_iff.mp hp with rfl | ⟨q, rfl, hq⟩
    · exact Or.inl rfl
    · exact Or.inr (Or.inr ⟨q, rfl, hq⟩)
  | some frame =>
    have hsent : s.sent i = [⟨i, false, record⟩, ⟨i, true, frame⟩] := by
      rw [sent, hdata, hkeyframe]
      rfl
    rw [hsent] at hp ⊢
    simp only [List.cons_append, List.nil_append] at hp
    rcases List.prefix_cons_iff.mp hp with rfl | ⟨q, rfl, hq⟩
    · exact Or.inl rfl
    · rcases List.prefix_cons_iff.mp hq with rfl | ⟨q', rfl, hq'⟩
      · exact Or.inr (Or.inl rfl)
      · exact Or.inr (Or.inr ⟨q', rfl, hq'⟩)

/-- The step lemma: the frames since the last redraw are at most those the cadence
counts. -/
theorem redrawWithin_sent {record : Bytes} {older : List Sent} (hrecord : s.data = some record)
    (hji : j ≤ i) (hcount : s.keyframe = none ∧ s.keyframer.framesSince = k.framesSince + 1 ∨
      s.keyframer.framesSince = 0 ∧ ∃ frame, s.keyframe = some frame)
    (houtput : RedrawWithin j (k.framesSince + 1) (older ++ [⟨i, false, record⟩])) :
    RedrawWithin j s.keyframer.framesSince (older ++ s.sent i) := by
  rcases hcount with ⟨hnone, hcount⟩ | ⟨hcount, frame, hframe⟩
  · rw [Sending.sent, hrecord, hnone, hcount]
    exact houtput
  · rw [Sending.sent, hrecord, hframe, hcount, ← List.append_assoc]
    exact redrawWithin_keyframe hji rfl

variable [Vt V]

/-- What a call does to the cadence: it counts its frame, or it starts over, with a
keyframe if the screen allows one. -/
theorem sending_cadence
    (h : sending cipher k c.data c.size c.nonce c.keyframeNonce = some s) (hdata : c.data ≠ [])
    (hk : k.framesSince < framesPerKeyframe) :
    (∃ record, sealed cipher c.nonce c.data = some record ∧ s.data = some record) ∧
      s.keyframer.framesSince < framesPerKeyframe ∧
      (s.keyframe = none ∧ s.keyframer.framesSince = k.framesSince + 1 ∨
        (k.feed c.data c.size).due ∧ s.keyframer.framesSince = 0 ∧
          (onAlternateScreen (Vt.dump (k.feed c.data c.size).vt) = true →
            ∃ record, s.keyframe = some record)) := by
  obtain ⟨hrecord, hkeyframe, hnext⟩ := sending_eq_some h
  obtain ⟨hcount, hlt⟩ := (k.feed c.data c.size).maybeKeyframe_framesSince
  refine ⟨?_, hnext ▸ hlt, ?_⟩
  · rcases hrecord with ⟨hnil, -⟩ | ⟨-, hrecord⟩
    · exact absurd hnil hdata
    · exact hrecord
  · -- a due check starts the cadence over, whatever the screen shows
    by_cases hdue : (k.feed c.data c.size).due
    · right
      rw [if_pos hdue, ← hnext] at hcount
      refine ⟨hdue, hcount, fun halt => ?_⟩
      rcases hkeyframe with ⟨hnone, -⟩ | ⟨frame, record, -, -, hs⟩
      · rw [Keyframer.maybeKeyframe_of_due hdue halt] at hnone
        cases hnone
      · exact ⟨record, hs⟩
    · left
      rw [if_neg hdue, ← hnext] at hcount
      rw [Keyframer.maybeKeyframe_of_not_due hdue] at hkeyframe
      refine ⟨?_, ?_⟩
      · rcases hkeyframe with ⟨-, hs⟩ | ⟨frame, record, hsome, -⟩
        · exact hs
        · cases hsome
      · rw [hcount]
        exact (k.feed_framesSince hdata c.size hk).resolve_right hdue

variable {calls : List Call} {sents : List Sent}

theorem broadcast_cons_eq_some (h : broadcast cipher i k (c :: calls) = some sents) :
    ∃ s rest, sending cipher k c.data c.size c.nonce c.keyframeNonce = some s ∧
      broadcast cipher (i + 1) s.keyframer calls = some rest ∧ sents = s.sent i ++ rest := by
  obtain ⟨s, hs, h⟩ := Option.bind_eq_some_iff.mp h
  obtain ⟨rest, hrest, rfl⟩ := Option.map_eq_some_iff.mp h
  exact ⟨s, rest, hs, hrest, rfl⟩

/-- Every chunk a broadcast sends counts in a history, and what is not a keyframe is
at most a frame and the overhead of its record. -/
theorem broadcast_bytes (h : broadcast cipher i k calls = some sents)
    (hdata : ∀ c ∈ calls, 1 ≤ c.data.length ∧ c.data.length ≤ maxFrame) :
    ∀ s ∈ sents, s.bytes ≠ [] ∧ (s.keyframe = false → s.bytes.length ≤ maxFrame + 32) := by
  induction calls generalizing i k sents with
  | nil =>
    obtain rfl := Option.some.inj h
    exact nofun
  | cons c calls ih =>
    obtain ⟨s, rest, hs, hrest, rfl⟩ := broadcast_cons_eq_some h
    have hne : ∀ x ∈ s.sent i, x.bytes ≠ [] := by
      intro x hx
      apply ne_nil_of_sending hs
      rw [← s.sent_bytes i]
      exact List.mem_map_of_mem hx
    intro x hx
    rcases List.mem_append.mp hx with hx | hx
    · refine ⟨hne x hx, fun houtput => ?_⟩
      obtain ⟨hrecord, -, -⟩ := sending_eq_some hs
      have hmax := (hdata c List.mem_cons_self).2
      rcases List.mem_append.mp hx with hx | hx
      · rcases hrecord with ⟨-, hnone⟩ | ⟨-, record, hsealed, hsome⟩
        · rw [hnone] at hx
          cases hx
        · rw [hsome] at hx
          obtain rfl := List.mem_singleton.mp hx
          have hlen : record.length ≤ c.data.length + 32 := (length_sealed hsealed).2
          exact hlen.trans (Nat.add_le_add_right hmax 32)
      · obtain ⟨frame, -, rfl⟩ := Option.map_eq_some_iff.mp (Option.mem_toList.mp hx)
        cases houtput
    · exact ih hrest (fun c hc => hdata c (List.mem_cons_of_mem _ hc)) x hx

/-- The run lemma after call `j`: whatever part of it has arrived, a full cadence at
most has passed since a redraw. -/
theorem redrawWithin_of_prefix (hji : j ≤ i) (h : broadcast cipher i k calls = some sents)
    (hdata : ∀ c ∈ calls, c.data ≠ []) (halt : AlternateFrom j i k calls)
    (hk : k.framesSince < framesPerKeyframe) {older p : List Sent} (hp : p <+: sents)
    (hold : RedrawWithin j k.framesSince older) :
    RedrawWithin j framesPerKeyframe (older ++ p) := by
  -- by induction on the calls: after each, the frames since a redraw are those the keyframer counts
  induction calls generalizing i k sents older p with
  | nil =>
    obtain rfl := Option.some.inj h
    obtain rfl := List.prefix_nil.mp hp
    rw [List.append_nil]
    exact hold.mono hk.le
  | cons c calls ih =>
    obtain ⟨s, rest, hs, hrest, rfl⟩ := broadcast_cons_eq_some h
    obtain ⟨halt, halts⟩ := halt
    obtain ⟨⟨record, -, hrecord⟩, hlt, hcount⟩ :=
      sending_cadence hs (hdata c List.mem_cons_self) hk
    have houtput : RedrawWithin j (k.framesSince + 1) (older ++ [⟨i, false, record⟩]) :=
      hold.output rfl
    rcases Sending.prefix_sent hrecord hp with rfl | rfl | ⟨q, rfl, hq⟩
    · rw [List.append_nil]
      exact hold.mono hk.le
    · -- between the output and its keyframe one frame more may count, which the bound allows
      exact houtput.mono hk
    · rw [← List.append_assoc]
      have hnext : s.keyframer = (k.feed c.data c.size).maybeKeyframe.2 := (sending_eq_some hs).2.2
      refine ih (hji.trans (Nat.le_succ i)) hrest (fun c hc => hdata c (List.mem_cons_of_mem _ hc))
        (hnext ▸ halts) hlt hq (redrawWithin_sent hrecord hji ?_ houtput)
      exact hcount.imp_right fun ⟨hdue, hzero, hframe⟩ => ⟨hzero, hframe (halt hji hdue)⟩

/-- The run lemma from the start: once the output of call `j` has arrived. -/
theorem redrawWithin_of_arrived (hij : i ≤ j) (h : broadcast cipher i k calls = some sents)
    (hdata : ∀ c ∈ calls, c.data ≠ []) (halt : AlternateFrom j i k calls)
    (hk : k.framesSince < framesPerKeyframe) {p : List Sent} (hp : p <+: sents)
    (harrived : ∃ x ∈ p, x.call = j ∧ x.keyframe = false) :
    RedrawWithin j framesPerKeyframe p := by
  induction calls generalizing i k sents p with
  | nil =>
    obtain rfl := Option.some.inj h
    obtain rfl := List.prefix_nil.mp hp
    obtain ⟨x, hx, -⟩ := harrived
    cases hx
  | cons c calls ih =>
    obtain ⟨s, rest, hs, hrest, rfl⟩ := broadcast_cons_eq_some h
    obtain ⟨halt, halts⟩ := halt
    obtain ⟨⟨record, -, hrecord⟩, hlt, hcount⟩ :=
      sending_cadence hs (hdata c List.mem_cons_self) hk
    have hdatas : ∀ c ∈ calls, c.data ≠ [] := fun c hc => hdata c (List.mem_cons_of_mem _ hc)
    have hnext : s.keyframer = (k.feed c.data c.size).maybeKeyframe.2 := (sending_eq_some hs).2.2
    have halts : AlternateFrom j (i + 1) s.keyframer calls := hnext ▸ halts
    rcases Nat.lt_or_eq_of_le hij with hlt' | rfl
    · -- an earlier call: its chunks are not the one that has arrived
      have hcall : ∀ x ∈ s.sent i, x.call = i := by
        intro x hx
        rcases List.mem_append.mp hx with hx | hx
        all_goals
          obtain ⟨bytes, -, rfl⟩ := Option.map_eq_some_iff.mp (Option.mem_toList.mp hx)
          rfl
      obtain ⟨x, hx, hxj, hxk⟩ := harrived
      have hother : x ∉ s.sent i := by
        intro hmem
        have hxi : x.call = i := hcall x hmem
        omega
      rcases Sending.prefix_sent hrecord hp with rfl | rfl | ⟨q, rfl, hq⟩
      · cases hx
      · obtain rfl := List.mem_singleton.mp hx
        exact absurd hxj hlt'.ne
      · have hxq : x ∈ q := (List.mem_append.mp hx).resolve_left hother
        exact (ih hlt' hrest hdatas halts hlt hq ⟨x, hxq, hxj, hxk⟩).prepend _
    · -- call `j` itself: its output is the first redraw
      have houtput : ∀ older, RedrawWithin i 1 (older ++ [(⟨i, false, record⟩ : Sent)]) :=
        fun older => redrawWithin_first rfl rfl
      rcases Sending.prefix_sent hrecord hp with rfl | rfl | ⟨q, rfl, hq⟩
      · obtain ⟨x, hx, -⟩ := harrived
        cases hx
      · exact (houtput []).mono (by decide)
      · have hcount' := hcount.imp_right fun (⟨hdue, hzero, hframe⟩ : _ ∧ _ ∧ _) =>
          And.intro hzero (hframe (halt le_rfl hdue))
        have hfirst : RedrawWithin i s.keyframer.framesSince ([] ++ s.sent i) :=
          redrawWithin_sent hrecord le_rfl hcount' ((houtput []).mono (Nat.le_add_left 1 _))
        exact redrawWithin_of_prefix (Nat.le_succ i) hrest hdatas halts hlt hq hfirst

end Cadence

theorem totalLength_le_mul {chunks : List Bytes} {m : ℕ} (h : ∀ c ∈ chunks, c.length ≤ m) :
    totalLength chunks ≤ chunks.length * m := by
  have hlengths : ∀ l ∈ chunks.map List.length, l ≤ m := by simpa using h
  calc totalLength chunks
    _ ≤ (chunks.map List.length).length • m := List.sum_le_card_nsmul _ m hlengths
    _ = chunks.length * m := by rw [List.length_map, Nat.nsmul_eq_mul]

/-- A full cadence of frames and a keyframe fit both bounds of the history. -/
theorem allowed_of_cadence {redraw : Sent} {newer : List Sent}
    (hredraw : redraw.bytes.length ≤ if redraw.keyframe then maxBufferedBytes else maxFrame + 32)
    (hnewer : ∀ s ∈ newer, s.bytes.length ≤ maxFrame + 32)
    (hcount : newer.length + (if redraw.keyframe then 0 else 1) ≤ framesPerKeyframe) :
    MessageHistory.Allowed maxHistoryMessages maxHistoryBytes
      ((redraw :: newer).map Sent.bytes) := by
  have hnewerBytes : totalLength (newer.map Sent.bytes) ≤ newer.length * (maxFrame + 32) := by
    have heach : ∀ bytes ∈ newer.map Sent.bytes, bytes.length ≤ maxFrame + 32 := by
      intro bytes hbytes
      obtain ⟨s, hs, rfl⟩ := List.mem_map.mp hbytes
      exact hnewer s hs
    have hle := totalLength_le_mul heach
    rwa [List.length_map] at hle
  have hframe : maxFrame + 32 = 69663 := rfl
  rw [hframe] at hredraw hnewerBytes
  have hcadence : newer.length ≤ 60 := (Nat.le_add_right _ _).trans hcount
  have hbig : redraw.bytes.length ≤ 1024 * 1024 := by
    refine hredraw.trans ?_
    split
    · exact le_rfl
    · omega
  simp only [MessageHistory.Allowed, List.map_cons, totalLength_cons, List.length_cons,
    List.length_map, maxHistoryMessages, maxHistoryBytes]
  -- 60 frames are under 4 MiB, and the keyframe is under 1 MiB
  exact ⟨by omega, Or.inl (by omega)⟩

theorem holdsRedraw_of_redrawWithin {j : ℕ} {sents : List Sent} {earlier : List Bytes}
    {h : MessageHistory}
    (hh : MessageHistory.Holds maxHistoryMessages maxHistoryBytes
      (earlier ++ sents.map Sent.bytes) h)
    (hbytes : ∀ s ∈ sents, s.bytes ≠ [] ∧ (s.keyframe = false → s.bytes.length ≤ maxFrame + 32))
    (hkeyframes : ∀ s ∈ sents, s.keyframe = true → j ≤ s.call →
      s.bytes.length ≤ maxBufferedBytes)
    (hw : RedrawWithin j framesPerKeyframe sents) : HoldsRedraw j sents h := by
  obtain ⟨before, redraw, newer, rfl, hr, hnewer, hcount⟩ := hw
  have hmem : redraw ∈ before ++ redraw :: newer := List.mem_append_right _ List.mem_cons_self
  have hsuffix : (redraw :: newer).map Sent.bytes <:+
      MessageHistory.nonempty (earlier ++ (before ++ redraw :: newer).map Sent.bytes) := by
    have hall : MessageHistory.nonempty ((before ++ redraw :: newer).map Sent.bytes) =
        (before ++ redraw :: newer).map Sent.bytes := by
      apply List.filter_eq_self.mpr
      intro bytes hb
      obtain ⟨s, hs, rfl⟩ := List.mem_map.mp hb
      simpa using (hbytes s hs).1
    rw [MessageHistory.nonempty, List.filter_append, ← MessageHistory.nonempty,
      ← MessageHistory.nonempty, hall, List.map_append, ← List.append_assoc]
    exact List.suffix_append _ _
  refine ⟨before, redraw, newer, rfl, hr, hh.window.longest _ hsuffix ?_⟩
  apply allowed_of_cadence _ _ hcount
  · rcases hr with ⟨-, houtput⟩ | ⟨hkeyframe, hcall⟩
    · rw [houtput]
      exact (hbytes redraw hmem).2 houtput
    · rw [hkeyframe]
      exact hkeyframes redraw hmem hkeyframe hcall
  · intro s hs
    have hsmem : s ∈ before ++ redraw :: newer :=
      List.mem_append_right _ (List.mem_cons_of_mem _ hs)
    exact (hbytes s hsmem).2 (hnewer s hs)

namespace Transport

/-- From the moment that the output of call `j` is stored, the history holds it or a
later keyframe whole, whatever the room had stored before. -/
theorem window_holds_redraw {V : Type} [Vt V] (size : TermSize) (theme : Option String)
    (cipher : Option Encryptor) (as : List ClientAction) (t : Transport V) (sents : List Sent)
    (earlier : List Bytes) (j n : ℕ) (hrun : run step (new size theme cipher) as = some t)
    (hsents : broadcast cipher 0 (Keyframer.new size : Keyframer V)
      (as.filterMap ClientAction.call) = some sents)
    (hdata : ∀ c ∈ as.filterMap ClientAction.call,
      1 ≤ c.data.length ∧ c.data.length ≤ maxFrame)
    (halt : AlternateFrom j 0 (Keyframer.new size : Keyframer V)
      (as.filterMap ClientAction.call))
    (hkeyframes : ∀ s ∈ sents, s.keyframe = true → j ≤ s.call →
      s.bytes.length ≤ maxBufferedBytes)
    (hstored : ∃ s ∈ sents.take n, s.call = j ∧ s.keyframe = false) :
    t.queued.map Chunk.bytes = sents.map Sent.bytes ∧
      HoldsRedraw j (sents.take n)
        ((earlier ++ (t.queued.take n).map Chunk.bytes).foldl MessageHistory.push
          (MessageHistory.new maxHistoryMessages maxHistoryBytes)) := by
  obtain ⟨sents', hsents', hqueued⟩ := broadcast_of_run (placed_new size theme cipher) hrun 0
  obtain rfl : sents' = sents := Option.some.inj (hsents'.symm.trans hsents)
  have hqueued : t.queued.map Chunk.bytes = sents'.map Sent.bytes := hqueued
  refine ⟨hqueued, ?_⟩
  have htake : (t.queued.take n).map Chunk.bytes = (sents'.take n).map Sent.bytes := by
    rw [List.map_take, hqueued, List.map_take]
  have htaken : sents'.take n ⊆ sents' := List.take_subset n sents'
  rw [htake]
  apply holdsRedraw_of_redrawWithin (MessageHistory.holds_foldl _ _ _)
  · exact fun s hs => broadcast_bytes hsents hdata s (htaken hs)
  · exact fun s hs => hkeyframes s (htaken hs)
  · have hne : ∀ c ∈ as.filterMap ClientAction.call, c.data ≠ [] :=
      fun c hc => List.ne_nil_of_length_pos (hdata c hc).1
    exact redrawWithin_of_arrived (Nat.zero_le j) hsents hne halt (Nat.zero_lt_succ 59)
      (List.take_prefix n sents') hstored

/-- A terminal that a full-screen program has taken over. -/
inductive FullScreen where
  | fullScreen

instance : Vt FullScreen :=
  ⟨fun _ _ => .fullScreen, fun _ _ => .fullScreen, fun _ _ _ => .fullScreen,
    fun _ => enterAlternate⟩

/-- Two frames, with a resize between them that forces a keyframe. -/
def resized : List ClientAction :=
  [.handshake .accepted, .write true, .send [104] size80x24 zeroNonce zeroNonce, .read .quiet,
    .write true, .write true, .send [105] ⟨100, 30⟩ zeroNonce zeroNonce, .read .quiet, .write true,
    .write true, .write true]

def resizedChunks : List Sent :=
  [⟨0, false, [104]⟩, ⟨1, false, [105]⟩, ⟨1, true, sevenBit enterAlternate⟩]

theorem window_holds_redraw_resized :
    ∃ t : Transport FullScreen, run step (new size80x24 none none) resized = some t ∧
      t.queued.map Chunk.bytes = resizedChunks.map Sent.bytes ∧
      HoldsRedraw 1 (resizedChunks.take 3)
        (([[1]] ++ (t.queued.take 3).map Chunk.bytes).foldl MessageHistory.push
          (MessageHistory.new maxHistoryMessages maxHistoryBytes)) :=
  ⟨_, rfl, window_holds_redraw (V := FullScreen) size80x24 none none resized _ resizedChunks [[1]]
    1 3 rfl rfl (by decide) ⟨fun _ _ => by decide, fun _ _ => by decide, trivial⟩ (by decide)
    (by decide)⟩

end Transport

end Shellshare
