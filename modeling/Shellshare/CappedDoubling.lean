import Mathlib.Algebra.BigOperators.Group.Finset.Basic
import Mathlib.Algebra.Order.BigOperators.Group.Finset
import Mathlib.Algebra.Order.Ring.Defs
import Mathlib.Order.Interval.Finset.Nat

/-! Waits that double up to a cap, and what events that keep such waits between them
add up to. -/
namespace CappedDoubling
open Finset

section Delay
variable {α : Type*} [Semiring α] [LinearOrder α]

/-- The wait after `k` doublings. -/
def delay (start cap : α) (k : ℕ) : α := min (start * 2 ^ k) cap

variable {start cap : α} {k n : ℕ}

theorem delay_le_cap : delay start cap k ≤ cap := min_le_right _ _

theorem delay_zero (h : start ≤ cap) : delay start cap 0 = start := by
  rw [delay, pow_zero, mul_one, min_eq_left h]

variable [IsStrictOrderedRing α]

/-- Doubling what is capped and capping again is one doubling more. -/
theorem delay_succ (hcap : 0 ≤ cap) :
    min (delay start cap k * 2) cap = delay start cap (k + 1) := by
  have hdouble : cap ≤ cap * 2 := by
    rw [mul_two]
    exact le_add_of_nonneg_left hcap
  rcases le_total (start * 2 ^ k) cap with h | h
  · rw [delay, min_eq_left h, delay, pow_succ, mul_assoc]
  · have hnext : cap ≤ start * 2 ^ (k + 1) := by
      calc cap ≤ cap * 2 := hdouble
        _ ≤ start * 2 ^ k * 2 := mul_le_mul_of_nonneg_right h zero_le_two
        _ = start * 2 ^ (k + 1) := by rw [pow_succ, mul_assoc]
    rw [delay, min_eq_right h, min_eq_right hdouble, delay, min_eq_right hnext]

theorem delay_mono (hstart : 0 ≤ start) : Monotone (delay start cap) := by
  intro k n hkn
  apply min_le_min_right
  exact mul_le_mul_of_nonneg_left (pow_le_pow_right₀ one_le_two hkn) hstart

/-- Once a wait has reached the cap, all later ones have. -/
theorem delay_eq_cap (hstart : 0 ≤ start) (hk : delay start cap k = cap) (hkn : k ≤ n) :
    delay start cap n = cap :=
  le_antisymm delay_le_cap (hk.symm.trans_le (delay_mono hstart hkn))

end Delay

section Spaced
variable {α : Type*} [AddCommMonoid α] [LinearOrder α]

/-- The times of some events, the last one first: after the first `k + 1` of them there
was the `k`-th wait, at least. -/
def Spaced (wait : ℕ → α) : List α → Prop
  | t' :: t :: ts => t + wait ts.length ≤ t' ∧ Spaced wait (t :: ts)
  | _ => True

variable {wait : ℕ → α} {t first : α} {ts : List α}

theorem Spaced.cons (h : Spaced wait ts)
    (ht : ∀ last ∈ ts.head?, last + wait (ts.length - 1) ≤ t) : Spaced wait (t :: ts) := by
  cases ts with
  | nil => trivial
  | cons last ts => exact ⟨ht last rfl, h⟩

variable [IsOrderedAddMonoid α]

/-- From the first event to a last one there are all the waits. -/
theorem Spaced.sum_le (h : Spaced wait (t :: ts)) (hfirst : (t :: ts).getLast? = some first) :
    first + ∑ k ∈ range ts.length, wait k ≤ t := by
  induction ts generalizing t with
  | nil =>
    obtain rfl : t = first := Option.some.inj hfirst
    simp
  | cons last ts ih =>
    obtain ⟨hlast, hrest⟩ := h
    calc first + ∑ k ∈ range (ts.length + 1), wait k
        = first + ∑ k ∈ range ts.length, wait k + wait ts.length := by
          rw [sum_range_succ, add_assoc]
      _ ≤ last + wait ts.length := add_le_add_left (ih hrest (by simpa using hfirst)) _
      _ ≤ t := hlast

/-- Waits that are all at least `least` from the `k`-th on bound the number of events. -/
theorem nsmul_le_sum {least : α} {k n : ℕ} (hpos : ∀ j, 0 ≤ wait j)
    (hleast : ∀ j, k ≤ j → least ≤ wait j) :
    (n - k) • least ≤ ∑ j ∈ range n, wait j := by
  rcases le_total n k with h | h
  · rw [Nat.sub_eq_zero_of_le h, zero_nsmul]
    exact sum_nonneg fun j _ => hpos j
  · calc (n - k) • least = ∑ _j ∈ Ico k n, least := by rw [sum_const, Nat.card_Ico]
      _ ≤ ∑ j ∈ Ico k n, wait j := sum_le_sum fun j hj => hleast j (mem_Ico.mp hj).1
      _ ≤ ∑ j ∈ range n, wait j := by
        apply sum_le_sum_of_subset_of_nonneg
        · intro j hj
          exact mem_range.mpr (mem_Ico.mp hj).2
        · exact fun j _ _ => hpos j

end Spaced

end CappedDoubling
