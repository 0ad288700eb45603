import Mathlib.Algebra.Order.Monoid.Canonical.Defs
import Mathlib.Algebra.Order.Monoid.Unbundled.Pow

/-! A budget that parties draw on in turn. Each is granted an equal share of what is left,
raised to a floor and cut to what is left; it may use less. -/
namespace SharedBudget

variable {α : Type*} [LinearOrder α]

/-- What a party is granted, where `quotient` is its equal share of `remaining`. -/
def grant (quotient floor remaining : α) : α := min (max quotient floor) remaining

variable {quotient floor remaining share total committed : α} {left count : ℕ}

theorem grant_le_remaining : grant quotient floor remaining ≤ remaining := min_le_right _ _

theorem grant_le_max : grant quotient floor remaining ≤ max quotient floor := min_le_left _ _

theorem min_floor_le_grant : min floor remaining ≤ grant quotient floor remaining :=
  min_le_min_right remaining (le_max_right quotient floor)

variable [AddCommMonoid α]

/-- The next `count` parties, or all of them where fewer are `left`, can still have `share`
each. -/
def Reserved (total share : α) (left count : ℕ) (committed : α) : Prop :=
  min left count • share + committed ≤ total

variable [IsOrderedAddMonoid α]

/-- A party that returns some of its grant takes nothing from the others. -/
theorem Reserved.mono (h : Reserved total share left count committed) {used : α}
    (hused : used ≤ committed) : Reserved total share left count used :=
  (add_le_add_right hused _).trans h

variable [CanonicallyOrderedAdd α]

theorem Reserved.of_nsmul_le (h : count • share ≤ total) (left : ℕ) :
    Reserved total share left count 0 := by
  rw [Reserved, add_zero]
  exact (nsmul_le_nsmul_left zero_le (min_le_right left count)).trans h

/-- A party that draws nothing takes nothing from the others. -/
theorem Reserved.of_succ (h : Reserved total share (left + 1) count committed) :
    Reserved total share left count committed := by
  have hless : min left count • share ≤ min (left + 1) count • share :=
    nsmul_le_nsmul_left zero_le (min_le_min_right count (Nat.le_succ left))
  exact (add_le_add_left hless committed).trans h

theorem Reserved.share_le (h : Reserved total share (left + 1) (count + 1) committed) :
    share + committed ≤ total := by
  have hone : share ≤ min (left + 1) (count + 1) • share := by
    rw [Nat.add_min_add_right, succ_nsmul]
    exact le_add_self
  exact (add_le_add_left hone committed).trans h

/-- A grant leaves the later parties theirs, where a quotient above the floor is an equal
share: either every party can have the quotient, which is more than they are promised, or the
grant is no more than this one is. -/
theorem Reserved.after_grant (h : Reserved total share (left + 1) count committed)
    (hfloor : floor ≤ share) (hquotient : floor < quotient → (left + 1) • quotient ≤ remaining)
    (hremaining : remaining + committed ≤ total) :
    Reserved total share left (count - 1) (committed + grant quotient floor remaining) := by
  unfold Reserved at h ⊢
  by_cases hcase : quotient ≤ share
  · have hgrant : grant quotient floor remaining ≤ share :=
      grant_le_max.trans (max_le hcase hfloor)
    cases count with
    | zero =>
      rw [Nat.zero_sub, Nat.min_zero, zero_nsmul, zero_add, add_comm]
      exact (add_le_add_left grant_le_remaining committed).trans hremaining
    | succ count =>
      calc min left count • share + (committed + grant quotient floor remaining)
          ≤ min left count • share + (committed + share) := by gcongr
        _ = min (left + 1) (count + 1) • share + committed := by
            rw [Nat.add_min_add_right, succ_nsmul, add_comm committed share, add_assoc]
        _ ≤ total := h
  · have hlt : share < quotient := not_le.mp hcase
    have hgrant : grant quotient floor remaining ≤ quotient :=
      grant_le_max.trans (max_le le_rfl (hfloor.trans hlt.le))
    have hothers : min left (count - 1) • share ≤ left • quotient :=
      (nsmul_le_nsmul_right hlt.le _).trans (nsmul_le_nsmul_left zero_le (min_le_left _ _))
    calc min left (count - 1) • share + (committed + grant quotient floor remaining)
        ≤ left • quotient + (committed + quotient) := by gcongr
      _ = (left + 1) • quotient + committed := by
          rw [succ_nsmul, add_comm committed quotient, add_assoc]
      _ ≤ remaining + committed := by
          gcongr
          exact hquotient (hfloor.trans_lt hlt)
      _ ≤ total := hremaining

end SharedBudget
