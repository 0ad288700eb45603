import Mathlib.Data.List.Basic
import Mathlib.Data.UInt

/-! UTF-8 validation as `std::str::from_utf8` reports it: how far the bytes are
valid, and whether what follows is malformed or only incomplete. -/
namespace Utf8Validation

/-- The length a first byte announces, `0` for a byte no character starts with. -/
def width (a : UInt8) : ℕ :=
  if a < 0x80 then 1
  else if 0xC2 ≤ a ∧ a ≤ 0xDF then 2
  else if 0xE0 ≤ a ∧ a ≤ 0xEF then 3
  else if 0xF0 ≤ a ∧ a ≤ 0xF4 then 4
  else 0

def isContinuation (b : UInt8) : Bool := 0x80 ≤ b ∧ b ≤ 0xBF

/-- Which second bytes a first byte allows: overlong forms, surrogates and
values past U+10FFFF are refused here. -/
def secondAllowed (a b : UInt8) : Bool :=
  isContinuation b && (a != 0xE0 || 0xA0 ≤ b) && (a != 0xED || b ≤ 0x9F) &&
    (a != 0xF0 || 0x90 ≤ b) && (a != 0xF4 || b ≤ 0x8F)

inductive Scan where
  | char (len : ℕ)
  | invalid (len : ℕ)
  | incomplete
deriving DecidableEq

/-- The continuation bytes still owed, after `seen` bytes of the character. -/
def scanRest : ℕ → ℕ → List UInt8 → Scan
  | 0, seen, _ => .char seen
  | _ + 1, _, [] => .incomplete
  | owed + 1, seen, c :: rest =>
    if isContinuation c then scanRest owed (seen + 1) rest else .invalid seen

/-- The character that starts with byte `a`. -/
def scanChar (a : UInt8) (rest : List UInt8) : Scan :=
  match width a with
  | 0 => .invalid 1
  | 1 => .char 1
  | owed + 2 => match rest with
    | [] => .incomplete
    | b :: rest => if secondAllowed a b then scanRest owed 2 rest else .invalid 1

/-- `Utf8Error`: `errorLen` is `none` when the input ends inside a character. -/
structure Utf8Error where
  validUpTo : ℕ
  errorLen : Option ℕ
deriving DecidableEq

/-- `none` is `Ok`: all of the bytes are valid. -/
def fromUtf8 : List UInt8 → Option Utf8Error
  | [] => none
  | a :: rest =>
    match scanChar a rest with
    | .char len =>
      (fromUtf8 (rest.drop (len - 1))).map fun e => { e with validUpTo := len + e.validUpTo }
    | .invalid len => some ⟨0, some len⟩
    | .incomplete => some ⟨0, none⟩
termination_by bytes => bytes.length
decreasing_by
  rw [List.length_drop, List.length_cons]
  omega

theorem scanRest_invalid_pos {owed seen len : ℕ} {rest : List UInt8} (hseen : 0 < seen)
    (h : scanRest owed seen rest = .invalid len) : 0 < len := by
  induction rest generalizing owed seen with
  | nil =>
    cases owed with
    | zero => cases h
    | succ owed => cases h
  | cons c rest ih =>
    cases owed with
    | zero => cases h
    | succ owed =>
      rw [scanRest] at h
      split at h
      · exact ih (Nat.succ_pos seen) h
      · cases h
        exact hseen

/-- A malformed sequence is at least one byte long, so skipping it makes progress. -/
theorem errorLen_pos {bytes : List UInt8} {e : Utf8Error} {len : ℕ}
    (h : fromUtf8 bytes = some e) (hlen : e.errorLen = some len) : 0 < len := by
  induction bytes using fromUtf8.induct generalizing e with
  | case1 => simp [fromUtf8] at h
  | case2 a rest n hscan ih =>
    rw [fromUtf8, hscan] at h
    obtain ⟨e', he', rfl⟩ := Option.map_eq_some_iff.mp h
    exact ih he' hlen
  | case3 a rest n hscan =>
    rw [fromUtf8, hscan] at h
    obtain rfl := Option.some.inj h
    obtain rfl := Option.some.inj hlen
    unfold scanChar at hscan
    split at hscan
    · cases hscan
      exact Nat.one_pos
    · cases hscan
    · split at hscan
      · cases hscan
      · split at hscan
        · exact scanRest_invalid_pos (by omega) hscan
        · cases hscan
          exact Nat.one_pos
  | case4 a rest hscan =>
    rw [fromUtf8, hscan] at h
    obtain rfl := Option.some.inj h
    cases hlen

end Utf8Validation
