import Mathlib.Data.List.Basic

/-! Removing the matches of a pattern from a text, from left to right: the search goes
on behind each match, in what was there before. -/
namespace PatternRemoval

variable {α : Type*}

/-- The length of the match at the front of a text. -/
abbrev Pattern (α : Type*) := List α → Option ℕ

/-- Inside a match, so many of its elements are still to be skipped. -/
def removeFrom (m : Pattern α) : ℕ → List α → List α
  | _, [] => []
  | skip + 1, _ :: rest => removeFrom m skip rest
  | 0, c :: rest =>
    match m (c :: rest) with
    -- this element is the first of the match
    | some n => removeFrom m (n - 1) rest
    | none => c :: removeFrom m 0 rest

def removeAll (m : Pattern α) (s : List α) : List α := removeFrom m 0 s

variable {m : Pattern α} {s : List α} {c : α}

theorem removeFrom_sublist (skip : ℕ) : (removeFrom m skip s).Sublist s := by
  induction s generalizing skip with
  | nil => simp [removeFrom]
  | cons c rest ih =>
    cases skip with
    | succ skip => exact (ih skip).cons c
    | zero =>
      cases hm : m (c :: rest) with
      | some n => simpa [removeFrom, hm] using (ih (n - 1)).cons c
      | none => simpa [removeFrom, hm] using ih 0

theorem mem_of_mem_removeAll (h : c ∈ removeAll m s) : c ∈ s := (removeFrom_sublist 0).subset h

/-- A pattern that matches one element by itself, wherever it stands. -/
def single [DecidableEq α] (a : α) : Pattern α
  | [] => none
  | c :: _ => if c = a then some 1 else none

theorem removeAll_single [DecidableEq α] (a : α) (s : List α) :
    removeAll (single a) s = s.filter (· ≠ a) := by
  rw [removeAll]
  induction s with
  | nil => rfl
  | cons c rest ih =>
    rw [removeFrom, single]
    split_ifs with hc
    · simpa [hc] using ih
    · simpa [hc] using ih

end PatternRemoval
