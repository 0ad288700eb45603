import Mathlib.Data.List.Infix
import Shellshare.Protocol
import Shellshare.Utf8Validation

/-! The keyframer: a headless terminal over the broadcast stream that, on a
cadence, hands out a redraw of the whole screen for late joiners. -/
namespace Shellshare
open Utf8Validation

def framesPerKeyframe : ℕ := 60
def maxCarry : ℕ := 8

/-- The terminal emulator `avt::Vt`. `feedStr` takes the bytes of a `str`, which
the caller has validated. -/
class Vt (V : Type) where
  new : ℕ → ℕ → V
  feedStr : V → Bytes → V
  resize : V → ℕ → ℕ → V
  dump : V → List Char

structure Keyframer (V : Type) where
  vt : V
  cols : ℕ
  rows : ℕ
  carry : Bytes
  framesSince : ℕ

/-- The 8-bit CSI, U+009B. -/
def csi : Char := '\u009b'

def enterAlternate : List Char := csi :: "?1047h".toList
def leaveAlternate : List Char := csi :: "?1047l".toList

/-- The gate of `maybe_keyframe`: a switch to the alternate buffer that the dump
does not take back. -/
def onAlternateScreen (dump : List Char) : Bool :=
  enterAlternate <:+: dump ∧ ¬ leaveAlternate <:+: dump

/-- `dump.replace('\u{9b}', "\x1b[").into_bytes()` -/
def sevenBit (dump : List Char) : Bytes :=
  (dump.flatMap fun c => if c = csi then ['\x1b', '['] else [c]).flatMap String.utf8EncodeChar

namespace Keyframer

variable {V : Type} [Vt V]

def new (size : TermSize) : Keyframer V :=
  let cols := max size.cols.toNat 1
  let rows := max size.rows.toNat 1
  ⟨Vt.new cols rows, cols, rows, [], 0⟩

/-- The loop of `feed_bytes`: the emulator, and the bytes left to carry. -/
def decode (vt : V) (buf : Bytes) : V × Bytes :=
  match _h : fromUtf8 buf with
  | none => (if buf = [] then vt else Vt.feedStr vt buf, [])
  | some e =>
    let vt := if 0 < e.validUpTo then Vt.feedStr vt (buf.take e.validUpTo) else vt
    match _hlen : e.errorLen with
    -- incomplete trailing sequence
    | none => (vt, buf.drop e.validUpTo)
    -- invalid bytes are skipped
    | some n => decode vt (buf.drop (e.validUpTo + n))
termination_by buf.length
decreasing_by
  have hn : 0 < n := errorLen_pos _h _hlen
  have hbuf : buf ≠ [] := by
    rintro rfl
    simp [fromUtf8] at _h
  have hlt : 0 < buf.length := List.length_pos_of_ne_nil hbuf
  rw [List.length_drop]
  omega

def feedBytes (k : Keyframer V) (data : Bytes) : Keyframer V :=
  let decoded := decode k.vt (k.carry ++ data)
  { k with
    vt := decoded.1
    carry := if maxCarry < decoded.2.length then [] else decoded.2 }

def applyResize (k : Keyframer V) (size : TermSize) : Keyframer V :=
  let cols := max size.cols.toNat 1
  let rows := max size.rows.toNat 1
  if cols ≠ k.cols ∨ rows ≠ k.rows then
    { k with vt := Vt.resize k.vt cols rows, cols, rows, framesSince := framesPerKeyframe }
  else k

/-- `frames_since` is a `u32` and saturates. -/
def feed (k : Keyframer V) (data : Bytes) (size : TermSize) : Keyframer V :=
  let k := k.applyResize size
  if data = [] then k
  else { k.feedBytes data with framesSince := min (k.framesSince + 1) (2 ^ 32 - 1) }

/-- The keyframe to broadcast now, if any. A due check restarts the cadence also
when the gate refuses the keyframe. -/
def maybeKeyframe (k : Keyframer V) : Option Bytes × Keyframer V :=
  if k.framesSince < framesPerKeyframe then (none, k)
  else
    let dump := Vt.dump k.vt
    (if onAlternateScreen dump then some (sevenBit dump) else none, { k with framesSince := 0 })

/-- The next `maybe_keyframe` is a due check. -/
def due (k : Keyframer V) : Prop := framesPerKeyframe ≤ k.framesSince

instance (k : Keyframer V) : Decidable k.due := inferInstanceAs (Decidable (_ ≤ _))

theorem maybeKeyframe_of_not_due {k : Keyframer V} (h : ¬ k.due) : k.maybeKeyframe = (none, k) :=
  if_pos (Nat.lt_of_not_le h)

theorem maybeKeyframe_of_due {k : Keyframer V} (h : k.due)
    (halt : onAlternateScreen (Vt.dump k.vt) = true) :
    k.maybeKeyframe = (some (sevenBit (Vt.dump k.vt)), { k with framesSince := 0 }) := by
  simp only [maybeKeyframe, if_neg (Nat.not_lt.mpr h), if_pos halt]

/-- Whether or not it was due, fewer than a cadence of frames count afterwards. -/
theorem maybeKeyframe_framesSince (k : Keyframer V) :
    (k.maybeKeyframe.2.framesSince = if k.due then 0 else k.framesSince) ∧
      k.maybeKeyframe.2.framesSince < framesPerKeyframe := by
  by_cases h : k.due
  · have hzero : k.maybeKeyframe.2.framesSince = 0 := by
      simp only [maybeKeyframe, if_neg (Nat.not_lt.mpr h)]
    rw [if_pos h, hzero]
    exact ⟨rfl, by decide⟩
  · rw [maybeKeyframe_of_not_due h, if_neg h]
    exact ⟨rfl, Nat.lt_of_not_le h⟩

/-- A frame with data counts once, after a resize that makes the check due. -/
theorem feed_framesSince (k : Keyframer V) {data : Bytes} (hdata : data ≠ []) (size : TermSize)
    (hk : k.framesSince < framesPerKeyframe) :
    (k.feed data size).framesSince = k.framesSince + 1 ∨ (k.feed data size).due := by
  simp only [feed, if_neg hdata, due]
  unfold applyResize framesPerKeyframe at *
  dsimp only
  split
  · right
    dsimp only
    omega
  · left
    omega

/-- A keyframe is never empty: it holds at least the switch to the alternate screen. -/
theorem keyframe_ne_nil {k : Keyframer V} {keyframe : Bytes}
    (h : k.maybeKeyframe.1 = some keyframe) : keyframe ≠ [] := by
  unfold maybeKeyframe at h
  split at h
  · cases h
  · dsimp only at h
    split at h
    · rename_i halt
      obtain rfl := Option.some.inj h
      have hmem : csi ∈ Vt.dump k.vt := by
        have henter : enterAlternate <:+: Vt.dump k.vt := by
          simp only [onAlternateScreen, decide_eq_true_eq] at halt
          exact halt.1
        exact henter.subset List.mem_cons_self
      have hesc : '\x1b' ∈ (Vt.dump k.vt).flatMap fun c => if c = csi then ['\x1b', '['] else [c] :=
        List.mem_flatMap.mpr ⟨csi, hmem, by simp⟩
      intro hnil
      have hbytes := List.flatMap_eq_nil_iff.mp hnil '\x1b' hesc
      exact absurd hbytes (by decide)
    · cases h

end Keyframer

end Shellshare
