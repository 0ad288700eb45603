import Mathlib.Data.Set.Lattice
import Mathlib.Order.CompletePartialOrder
import Mathlib.Order.Interval.Set.Disjoint
import Mathlib.Algebra.Order.Sub.Unbundled.Basic
import Mathlib.Algebra.Order.Monoid.Canonical.Defs
import Mathlib.Algebra.BigOperators.Group.List.Basic

/-! Intervals of an ordered monoid that follow one another: they are disjoint,
and together no longer than the span they lie in. -/
namespace DisjointIntervals

structure Span (α : Type*) [LE α] where
  start : α
  stop : α
  start_le_stop : start ≤ stop

variable {α : Type*}

def Span.length [LE α] [Sub α] (a : Span α) : α := a.stop - a.start

/-- Each interval ends before the later ones begin. -/
def Successive [LE α] (l : List (Span α)) : Prop := l.Pairwise fun a b => a.stop ≤ b.start

theorem Successive.pairwise_disjoint [Preorder α] {l : List (Span α)} (h : Successive l) :
    l.Pairwise fun a b => Disjoint (Set.Ico a.start a.stop) (Set.Ico b.start b.stop) := by
  apply List.Pairwise.imp _ h
  intro a b hab
  rw [Set.disjoint_left]
  intro x hxa hxb
  exact lt_irrefl x (hxa.2.trans_le (hab.trans hxb.1))

variable [AddCommMonoid α] [LinearOrder α] [IsOrderedAddMonoid α] [CanonicallyOrderedAdd α]
  [Sub α] [OrderedSub α]

theorem Successive.sum_length_le {l : List (Span α)} (h : Successive l) {lo hi : α}
    (hlo : ∀ a ∈ l, lo ≤ a.start) (hhi : ∀ a ∈ l, a.stop ≤ hi) :
    (l.map Span.length).sum ≤ hi - lo := by
  induction l generalizing lo with
  | nil => exact zero_le
  | cons a l ih =>
    obtain ⟨hnext, hrest⟩ := List.pairwise_cons.mp h
    have htail : (l.map Span.length).sum ≤ hi - a.stop :=
      ih hrest hnext fun b hb => hhi b (List.mem_cons_of_mem a hb)
    have hlo' : lo ≤ a.start := hlo a List.mem_cons_self
    have hhi' : a.stop ≤ hi := hhi a List.mem_cons_self
    calc ((a :: l).map Span.length).sum
        = (a.stop - a.start) + (l.map Span.length).sum := by
          rw [List.map_cons, List.sum_cons, Span.length]
      _ ≤ (a.stop - a.start) + (hi - a.stop) := by gcongr
      _ = (hi - a.stop) + (a.stop - a.start) := add_comm _ _
      _ = hi - a.start := tsub_add_tsub_cancel hhi' a.start_le_stop
      _ ≤ hi - lo := tsub_le_tsub_left hlo' hi

end DisjointIntervals
