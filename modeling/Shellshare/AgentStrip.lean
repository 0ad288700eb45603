import Shellshare.AgentReader
import Shellshare.PatternRemoval
import Shellshare.StringDecoder

/-! What the agent's reader prints of a batch: its bytes are decoded, and the escape
sequences it knows the shape of are stripped. -/
namespace Shellshare
open PatternRemoval

def esc : UInt16 := 27
def bel : UInt16 := 7
def backslash : UInt16 := 92
def cr : UInt16 := 13
def lf : UInt16 := 10

/-- The end of the first `\x07` or `\x1b\\`. -/
def terminator : Pattern UInt16
  | [] => none
  | c :: rest =>
    if c = bel then some 1
    -- the first terminator ends it, as the lazy repetition does
    else if c = esc ∧ rest.head? = some backslash then some 2
    else (terminator rest).map (· + 1)

/-- `/\x1b[\]P^_X][\s\S]*?(?:\x07|\x1b\\)/` -/
def controlString : Pattern UInt16
  | e :: o :: rest =>
    if e = esc ∧ o ∈ codeUnits "]P^_X" then (terminator rest).map (· + 2) else none
  | _ => none

def isParameter (c : UInt16) : Bool := (48 ≤ c && c ≤ 57) || c ∈ codeUnits ";?"

def isLetter (c : UInt16) : Bool := (65 ≤ c && c ≤ 90) || (97 ≤ c && c ≤ 122)

/-- `/\x1b\[[0-9;?]*[A-Za-z]/` -/
def csiSequence : Pattern UInt16
  | e :: b :: rest =>
    let parameters := rest.takeWhile isParameter
    if e = esc ∧ b ∈ codeUnits "[" ∧ (rest[parameters.length]?.any isLetter) = true then
      some (parameters.length + 3)
    else none
  | _ => none

/-- `/\x1b[()][\s\S]|\x1b[=>]/` -/
def designation : Pattern UInt16
  | e :: p :: rest =>
    -- whatever stands behind the parenthesis goes with it
    if e = esc ∧ p ∈ codeUnits "()" ∧ rest ≠ [] then some 3
    else if e = esc ∧ p ∈ codeUnits "=>" then some 2
    else none
  | _ => none

/-- `.replace(/\r\n/g, '\n')` -/
def joinLineEnds : Text → Text
  | c :: d :: rest =>
    if c = cr ∧ d = lf then lf :: joinLineEnds rest else c :: joinLineEnds (d :: rest)
  | s => s

def strip (s : Text) : Text :=
  joinLineEnds (removeAll (single esc)
    (removeAll designation (removeAll csiSequence (removeAll controlString s))))

/-- The characters from U+0080 to U+009F. -/
def isC1 (c : UInt16) : Bool := 0x80 ≤ c && c ≤ 0x9F

/-- Nothing in the text can introduce a control sequence. -/
def Inert (s : Text) : Prop := ∀ c ∈ s, c ≠ esc ∧ isC1 c = false

instance (s : Text) : Decidable (Inert s) := List.decidableBAll _ s

variable {s : Text} {c : UInt16}

/-- Joining line ends drops carriage returns only. -/
theorem mem_joinLineEnds (hc : c ≠ cr) : c ∈ joinLineEnds s ↔ c ∈ s := by
  fun_induction joinLineEnds s with
  | case1 c' d rest h ih =>
    rw [List.mem_cons, List.mem_cons, List.mem_cons, ih, h.1, h.2]
    simp [hc]
  | case2 c' d rest h ih => rw [List.mem_cons, List.mem_cons (a := c) (b := c'), ih]
  | case3 s h => exact Iff.rfl

/-- What is printed of a text without C1 characters is inert: an `ESC` never gets through. -/
theorem inert_strip (h : ∀ c ∈ s, isC1 c = false) : Inert (strip s) := by
  intro c hc
  by_cases hcr : c = cr
  · rw [hcr]
    decide
  · rw [strip, mem_joinLineEnds hcr, removeAll_single, List.mem_filter] at hc
    obtain ⟨hc, hesc⟩ := hc
    refine ⟨of_decide_eq_true hesc, h c ?_⟩
    exact mem_of_mem_removeAll (mem_of_mem_removeAll (mem_of_mem_removeAll hc))

/-- One character by itself is no sequence. -/
theorem strip_singleton (hc : c ≠ esc) : strip [c] = [c] := by
  rw [strip, removeAll_single]
  simp [removeAll, removeFrom, controlString, csiSequence, designation, joinLineEnds, hc]

/-- What the reader prints of a history without `--follow`. -/
def printedHistory {Key : Type} (aes : Aes256Gcm Key) (key : Option Key) (raw : Bytes) : Text :=
  match readHistory aes key raw with
  | some (.ok plain) => strip (StringDecoder.write [] plain).1
  | _ => []

end Shellshare
