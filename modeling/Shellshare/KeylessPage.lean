import Mathlib.Data.Rat.Floor
import Shellshare.ViewerPage

/-! A viewer page whose URL has no key: the size messages decide whether it takes what
arrives for output or for ciphertext. -/
namespace Shellshare

/-- Whether JavaScript takes the value for true. -/
def Json.truthy : Json → Bool
  | null => false
  | bool b => b
  | number n => n ≠ 0
  | string s => s ≠ ""
  | array _ | object _ => true

/-- `currentSize`, which the terminal is created with and resized to. -/
structure CurrentSize where
  cols : ℕ
  rows : ℕ
  theme : Option Json

structure KeylessPage extends ViewerPage where
  encryptedWithoutKey : Bool
  currentSize : CurrentSize

namespace KeylessPage
open TransitionRuns

/-- `text` is a text message, `none` where `JSON.parse` throws. -/
inductive Action where
  | opened
  | text (control : Option Json)
  | message (bytes : Bytes)
  | createTerminal

def init : KeylessPage := ⟨ViewerPage.init, false, ⟨80, 30, none⟩⟩

def missingKeyNotice : String :=
  "Missing decryption key. Ask the broadcaster for the full share link."

def maxDimension : ℕ := 1000

def clearScreen (p : KeylessPage) : KeylessPage :=
  { p with toViewerPage := p.toViewerPage.clearScreen }

def onMessage (p : KeylessPage) (bytes : Bytes) : KeylessPage :=
  if bytes.isEmpty then p
  -- ciphertext, as far as the page has been told
  else if p.encryptedWithoutKey then p
  else { p with toViewerPage := p.writeBytes bytes }

/-- `size.encrypted` as a condition. -/
def encryptedFlag (size : Json) : Bool := (size.get "encrypted").any Json.truthy

/-- `control.size` where it is a condition that holds. -/
def sizeOf (control : Json) : Option Json := (control.get "size").filter Json.truthy

section Step
-- `Math.floor`, `none` for NaN; an infinity is a number beyond both bounds
variable (floor : Option Json → Option ℤ)

def clampDimension (value : Option Json) : ℕ :=
  match floor value with
  | some n => if 1 ≤ n then min n.toNat maxDimension else 0
  | none => 0

def onSize (p : KeylessPage) (size : Json) : KeylessPage :=
  -- before the dimensions are looked at
  let p := if encryptedFlag size && !p.encryptedWithoutKey then
      { p with encryptedWithoutKey := true, cryptoNotice := some missingKeyNotice }
    else p
  let cols := clampDimension floor (size.get "cols")
  let rows := clampDimension floor (size.get "rows")
  if cols = 0 ∨ rows = 0 then p
  else { p with currentSize := ⟨cols, rows, size.get "theme"⟩ }

/-- The part of a control message that can bear on the output. -/
def onControl (p : KeylessPage) (control : Json) : KeylessPage :=
  let p := (sizeOf control).elim p (p.onSize floor)
  -- a new broadcast in the room, which leaves the flag as it is
  if control.isTrue "reset" then p.clearScreen else p

def step (p : KeylessPage) : Action → Option KeylessPage
  | .opened => some (if p.joinedBefore then p.clearScreen else { p with joinedBefore := true })
  | .text none => some p
  | .text (some control) => some (p.onControl floor control)
  | .message bytes => some (p.onMessage bytes)
  | .createTerminal =>
    if p.term then none
    else some { p with
      term := true
      written := p.written ++ p.pendingWrites.map .output
      pendingWrites := [] }

end Step

/-- History of a run: the sizes that arrived. -/
def noteSize (_ : KeylessPage) (a : Action) (_ : KeylessPage) (sizes : List Json) : List Json :=
  match a with
  | .text (some control) => sizes ++ (sizeOf control).toList
  | _ => sizes

/-- The last size, if there was one, did not carry a true flag. -/
def plaintextAnnounced (sizes : List Json) : Bool :=
  sizes.getLast?.all fun size => !sizeIsEncrypted size

/-- A message is shown exactly when the last size takes the broadcast for plaintext. -/
def FollowsLastSize (s : KeylessPage × List Json) : Action → Prop
  | .message bytes => bytes ≠ [] →
    ((s.1.onMessage bytes).shown = s.1.shown ++ [bytes] ↔ plaintextAnnounced s.2 = true)
  | _ => True

instance decidableFollowsLastSize : ∀ s a, Decidable (FollowsLastSize s a)
  | s, .message bytes => inferInstanceAs (Decidable (bytes ≠ [] →
      ((s.1.onMessage bytes).shown = s.1.shown ++ [bytes] ↔ plaintextAnnounced s.2 = true)))
  | _, .opened | _, .text _ | _, .createTerminal => inferInstanceAs (Decidable True)

/-- A message that arrives while the last size takes the broadcast for plaintext finds no
size before that carried a flag. -/
def NeverFlagged (s : KeylessPage × List Json) : Action → Prop
  | .message bytes => bytes ≠ [] → plaintextAnnounced s.2 = true →
    ∀ size ∈ s.2, encryptedFlag size = false
  | _ => True

variable {floor : Option Json → Option ℤ} {p : KeylessPage} {size : Json}

theorem encryptedFlag_of_isEncrypted (h : sizeIsEncrypted size = true) :
    encryptedFlag size = true := by
  rw [sizeIsEncrypted, Json.isTrue, beq_iff_eq] at h
  rw [encryptedFlag]
  cases hget : size.get "encrypted" with
  | none => simp [hget] at h
  | some flag =>
    cases flag <;> simp_all [Json.asBool, Json.truthy]

/-- A size can only set the flag of the page. -/
theorem onSize_spec (floor : Option Json → Option ℤ) (p : KeylessPage) (size : Json) :
    (p.onSize floor size).term = p.term ∧
      (p.onSize floor size).pendingWrites = p.pendingWrites ∧
      (p.onSize floor size).encryptedWithoutKey =
        (p.encryptedWithoutKey || encryptedFlag size) := by
  unfold onSize
  dsimp only
  cases hflag : encryptedFlag size <;> cases hset : p.encryptedWithoutKey <;>
    split_ifs <;> simp_all

/-- The invariant of a page: it remembers whether any size carried a flag, and no output
waits for a terminal that is there. -/
structure Remembers (s : KeylessPage × List Json) : Prop where
  flushed : s.1.term = true → s.1.pendingWrites = []
  flag : s.1.encryptedWithoutKey = s.2.any encryptedFlag

theorem remembers_init : Remembers (init, []) := ⟨nofun, rfl⟩

theorem Remembers.clearScreen {sizes : List Json} (h : Remembers (p, sizes)) :
    Remembers (p.clearScreen, sizes) := ⟨fun _ => rfl, h.flag⟩

theorem Remembers.onControl {sizes : List Json} (h : Remembers (p, sizes)) (control : Json) :
    Remembers (p.onControl floor control, sizes ++ (sizeOf control).toList) := by
  have hsized : Remembers ((sizeOf control).elim p (p.onSize floor),
      sizes ++ (sizeOf control).toList) := by
    cases hsize : sizeOf control with
    | none => simpa using h
    | some size =>
      have hspec := onSize_spec floor p size
      refine ⟨?_, ?_⟩
      · intro hterm
        rw [Option.elim_some, hspec.1] at hterm
        rw [Option.elim_some, hspec.2.1]
        exact h.flushed hterm
      · rw [Option.elim_some, hspec.2.2, h.flag]
        simp
  unfold KeylessPage.onControl
  dsimp only
  split_ifs
  · exact hsized.clearScreen
  · exact hsized

theorem Remembers.onMessage {sizes : List Json} (h : Remembers (p, sizes)) (bytes : Bytes) :
    Remembers (p.onMessage bytes, sizes) := by
  unfold KeylessPage.onMessage
  split_ifs
  · exact h
  · exact h
  · refine ⟨?_, h.flag⟩
    intro hterm
    unfold ViewerPage.writeBytes at hterm ⊢
    split_ifs with hold
    · exact h.flushed hold
    · simp_all

theorem remembers_step {s s' : KeylessPage × List Json} {a : Action} (h : Remembers s)
    (hstep : withHistory (step floor) noteSize s a = some s') : Remembers s' := by
  obtain ⟨p, sizes⟩ := s
  obtain ⟨p', sizes'⟩ := s'
  obtain ⟨hp', hsizes⟩ := withHistory_eq_some.mp hstep
  dsimp only at hp' hsizes
  cases a with
  | opened =>
    obtain rfl := Option.some.inj hp'
    rw [hsizes]
    split_ifs
    · exact h.clearScreen
    · exact ⟨h.flushed, h.flag⟩
  | text control =>
    cases control with
    | none =>
      obtain rfl := Option.some.inj hp'
      rw [hsizes]
      exact h
    | some control =>
      obtain rfl := Option.some.inj hp'
      rw [hsizes]
      exact h.onControl control
  | message bytes =>
    obtain rfl := Option.some.inj hp'
    rw [hsizes]
    exact h.onMessage bytes
  | createTerminal =>
    rw [step] at hp'
    split_ifs at hp'
    obtain rfl := Option.some.inj hp'
    rw [hsizes]
    exact ⟨fun _ => rfl, h.flag⟩

/-- A message is shown unless the flag of the page is set. -/
theorem shown_onMessage (hflushed : p.term = true → p.pendingWrites = []) {bytes : Bytes}
    (hne : bytes ≠ []) :
    (p.onMessage bytes).shown = p.shown ++ [bytes] ↔ p.encryptedWithoutKey = false := by
  have hempty : bytes.isEmpty = false := by simpa using hne
  cases hflag : p.encryptedWithoutKey with
  | true => simp [KeylessPage.onMessage, hempty, hflag]
  | false =>
    have hmessage : p.onMessage bytes = { p with toViewerPage := p.writeBytes bytes } := by
      simp [KeylessPage.onMessage, hempty, hflag]
    apply iff_of_true _ rfl
    rw [hmessage]
    cases hterm : p.term with
    | true =>
      have hsince := ViewerPage.sinceClear_append_output p.written [bytes]
      rw [List.map_singleton] at hsince
      simp [ViewerPage.shown, ViewerPage.writeBytes, hterm, hflushed hterm, hsince]
    | false => simp [ViewerPage.shown, ViewerPage.writeBytes, hterm]

/-- The last size with a true flag has set the flag of the page. -/
theorem flagged_of_not_announced {sizes : List Json} (h : plaintextAnnounced sizes = false) :
    sizes.any encryptedFlag = true := by
  rw [plaintextAnnounced] at h
  cases hlast : sizes.getLast? with
  | none => simp [hlast] at h
  | some size =>
    rw [hlast, Option.all_some, Bool.not_eq_false'] at h
    apply List.any_eq_true.mpr
    exact ⟨size, List.mem_of_getLast? hlast, encryptedFlag_of_isEncrypted h⟩

theorem followsLastSize_iff {s : KeylessPage × List Json} (h : Remembers s) (a : Action) :
    FollowsLastSize s a ↔ NeverFlagged s a := by
  cases a with
  | message bytes =>
    apply imp_congr_right
    intro hne
    rw [shown_onMessage h.flushed hne, h.flag]
    have hany : (s.2.any encryptedFlag = false) ↔ ∀ size ∈ s.2, encryptedFlag size = false := by
      simp
    rw [hany.symm]
    cases hannounced : plaintextAnnounced s.2 with
    | true => simp
    | false =>
      -- ciphertext is never shown, so nothing is asked here
      have hflagged := flagged_of_not_announced hannounced
      simp [hflagged]
  | opened => exact Iff.rfl
  | text control => exact Iff.rfl
  | createTerminal => exact Iff.rfl

/-- A page without a key follows the last size exactly as long as no size carried a flag
that a later one took back: the flag of the page stays. -/
theorem follows_last_size_iff (floor : Option Json → Option ℤ) (as : List Action) :
    StepsSatisfy (withHistory (step floor) noteSize) FollowsLastSize (init, []) as ↔
      StepsSatisfy (withHistory (step floor) noteSize) NeverFlagged (init, []) as := by
  apply stepsSatisfy_congr_of
  · exact fun s a s' h hstep => remembers_step h hstep
  · exact fun s a s' h _ => followsLastSize_iff h a
  · exact remembers_init

def wholeNumber : Option Json → Option ℤ
  | some (.number n) => some ⌊n⌋
  | _ => none

def sizeControl80x24 (fields : List (String × Json)) : Json :=
  .object [("size", .object ([("cols", .number 80), ("rows", .number 24)] ++ fields))]

/-- An encrypted broadcast, a reconnect, and a plaintext broadcast of the same room. -/
def rebroadcast : List Action :=
  [.createTerminal, .opened, .text (some (sizeControl80x24 [("encrypted", .bool true)])),
    .opened, .text (some (sizeControl80x24 [])), .message [104, 105]]

/-- The plaintext broadcast is not shown. -/
theorem plaintext_not_shown :
    ¬StepsSatisfy (withHistory (step wholeNumber) noteSize) FollowsLastSize (init, [])
      rebroadcast := by
  decide +kernel

end KeylessPage
end Shellshare
