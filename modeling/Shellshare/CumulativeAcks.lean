import Mathlib.Algebra.Order.Ring.Nat
import Mathlib.Data.List.Basic
import Mathlib.Algebra.Order.BigOperators.Group.List

/-! A sender's window under cumulative acknowledgments. Items of some weight are
written in order on one connection, and each acknowledgment names the total
weight of a written prefix. Items may be given up from the front of the window
while their acknowledgment is outstanding, so the sender keeps two counters: the
weight acknowledged, and the weight given up that is still to be acknowledged. -/
namespace CumulativeAcks

variable {α : Type*} (w : α → ℕ)

/-- The weight of a whole list. -/
def total (items : List α) : ℕ := (items.map w).sum

/-- Pop items from the front while the counter is over the cap: what is popped,
and what stays. -/
def popWhileOver (cap : ℕ) : ℕ → List α → List α × List α
  | _, [] => ([], [])
  | counter, item :: items =>
    if cap < counter then
      (item :: (popWhileOver cap (counter - w item) items).1,
        (popWhileOver cap (counter - w item) items).2)
    else ([], item :: items)

/-- Pop the items that fit whole into an amount: what is popped, and what stays. -/
def popCovered : ℕ → List α → List α × List α
  | _, [] => ([], [])
  | amount, item :: items =>
    if amount = 0 then ([], item :: items)
    else if amount < w item then ([], item :: items)
    else (item :: (popCovered (amount - w item) items).1,
      (popCovered (amount - w item) items).2)

/-- `popCovered` stops inside an item: the amount left ends within the front one. -/
def stopsInside : ℕ → List α → Bool
  | _, [] => false
  | amount, item :: items =>
    if amount = 0 then false
    else if amount < w item then true
    else stopsInside (amount - w item) items

/-- Subtract the items' weights one after the other; `none` is an underflow. -/
def subtractEach : ℕ → List α → Option ℕ
  | counter, [] => some counter
  | counter, item :: items =>
    if w item ≤ counter then subtractEach (counter - w item) items else none

variable {w}

@[simp] theorem total_nil : total w [] = 0 := rfl

@[simp] theorem total_cons (item : α) (items : List α) :
    total w (item :: items) = w item + total w items := by
  simp only [total, List.map_cons, List.sum_cons]

@[simp] theorem total_append (xs ys : List α) :
    total w (xs ++ ys) = total w xs + total w ys := by
  simp only [total, List.map_append, List.sum_append]

theorem weight_le_total {item : α} {items : List α} (h : item ∈ items) :
    w item ≤ total w items :=
  List.single_le_sum (fun _ _ => Nat.zero_le _) _ (List.mem_map_of_mem h)

theorem total_pos {items : List α} (hpos : ∀ item ∈ items, 0 < w item)
    (hne : items ≠ []) : 0 < total w items := by
  obtain ⟨item, hitem⟩ := List.exists_mem_of_ne_nil items hne
  exact (hpos item hitem).trans_le (weight_le_total hitem)

theorem total_take_add_drop (k : ℕ) (items : List α) :
    total w (items.take k) + total w (items.drop k) = total w items := by
  rw [← total_append, List.take_append_drop]

theorem total_take_mono (items : List α) {j k : ℕ} (h : j ≤ k) :
    total w (items.take j) ≤ total w (items.take k) := by
  have hsplit := total_take_add_drop (w := w) j (items.take k)
  rw [List.take_take, Nat.min_eq_left h] at hsplit
  omega

theorem subtractEach_eq_some {counter : ℕ} {items : List α} (h : total w items ≤ counter) :
    subtractEach w counter items = some (counter - total w items) := by
  induction items generalizing counter with
  | nil => rfl
  | cons item items ih =>
    rw [total_cons] at h
    have hitem : w item ≤ counter := by omega
    have hrest : total w items ≤ counter - w item := by omega
    rw [subtractEach, if_pos hitem, ih hrest, total_cons, Nat.sub_sub]

theorem popWhileOver_append (cap counter : ℕ) (items : List α) :
    (popWhileOver w cap counter items).1 ++ (popWhileOver w cap counter items).2 =
      items := by
  induction items generalizing counter with
  | nil => rfl
  | cons item items ih =>
    unfold popWhileOver
    split
    · exact congrArg (item :: ·) (ih _)
    · rfl

/-- The loop ends within the cap or with nothing left to pop. -/
theorem popWhileOver_le_or_nil (cap counter : ℕ) (items : List α) :
    counter - total w (popWhileOver w cap counter items).1 ≤ cap ∨
      (popWhileOver w cap counter items).2 = [] := by
  induction items generalizing counter with
  | nil => exact Or.inr rfl
  | cons item items ih =>
    unfold popWhileOver
    split
    · rcases ih (counter - w item) with h | h
      · refine Or.inl ?_
        rw [total_cons]
        omega
      · exact Or.inr h
    · refine Or.inl ?_
      rw [total_nil]
      omega

theorem popWhileOver_of_le {cap counter : ℕ} (h : counter ≤ cap) (items : List α) :
    popWhileOver w cap counter items = ([], items) := by
  cases items with
  | nil => rfl
  | cons item items => rw [popWhileOver, if_neg (Nat.not_lt.mpr h)]

theorem popCovered_append (amount : ℕ) (items : List α) :
    (popCovered w amount items).1 ++ (popCovered w amount items).2 = items := by
  induction items generalizing amount with
  | nil => rfl
  | cons item items ih =>
    unfold popCovered
    split_ifs
    · rfl
    · rfl
    · exact congrArg (item :: ·) (ih _)

/-- An amount that ends between two items releases exactly those before it. -/
theorem popCovered_total_take {items : List α} (hpos : ∀ item ∈ items, 0 < w item) (k : ℕ) :
    popCovered w (total w (items.take k)) items = (items.take k, items.drop k) := by
  induction items generalizing k with
  | nil => simp [popCovered]
  | cons item items ih =>
    cases k with
    | zero => simp [popCovered]
    | succ k =>
      -- a positive weight keeps the loop going until the amount is used up
      have hitem : 0 < w item := hpos item List.mem_cons_self
      have hne : ¬ w item + total w (items.take k) = 0 := by omega
      have hlt : ¬ w item + total w (items.take k) < w item := by omega
      rw [List.take_succ_cons, List.drop_succ_cons, total_cons, popCovered, if_neg hne, if_neg hlt,
        Nat.add_sub_cancel_left, ih (fun x hx => hpos x (List.mem_cons_of_mem _ hx)) k]

theorem stopsInside_total_take (items : List α) (k : ℕ) :
    stopsInside w (total w (items.take k)) items = false := by
  induction items generalizing k with
  | nil => rfl
  | cons item items ih =>
    cases k with
    | zero => simp [stopsInside]
    | succ k =>
      have hlt : ¬ w item + total w (items.take k) < w item := by omega
      rw [List.take_succ_cons, total_cons, stopsInside, if_neg hlt, Nat.add_sub_cancel_left, ih k,
        ite_self]

/-- The two counters and the window against what was written: the first `a` items
are acknowledged, the next ones up to `d` given up, and the rest is the window. -/
def Tracks (w : α → ℕ) (written window : List α) (acked dropped : ℕ) : Prop :=
  ∃ a d, a ≤ d ∧ d ≤ written.length ∧ acked = total w (written.take a) ∧
    acked + dropped = total w (written.take d) ∧ window = written.drop d

variable {written window : List α} {acked dropped : ℕ}

theorem tracks_nil : Tracks w [] [] 0 0 := ⟨0, 0, le_rfl, le_rfl, rfl, rfl, rfl⟩

theorem Tracks.total_eq (h : Tracks w written window acked dropped) :
    acked + dropped + total w window = total w written := by
  obtain ⟨a, d, -, -, -, hd, rfl⟩ := h
  rw [hd, total_take_add_drop]

theorem Tracks.suffix (h : Tracks w written window acked dropped) : window <:+ written := by
  obtain ⟨a, d, -, -, -, -, rfl⟩ := h
  exact List.drop_suffix d written

theorem Tracks.write (h : Tracks w written window acked dropped) (item : α) :
    Tracks w (written ++ [item]) (window ++ [item]) acked dropped := by
  obtain ⟨a, d, had, hd, ha, hsum, rfl⟩ := h
  refine ⟨a, d, had, ?_, ?_, ?_, ?_⟩
  · rw [List.length_append]
    omega
  · rwa [List.take_append_of_le_length (had.trans hd)]
  · rwa [List.take_append_of_le_length hd]
  · rw [List.drop_append_of_le_length hd]

/-- Giving up the front of the window moves its weight to the second counter. -/
theorem Tracks.drop {front rest : List α}
    (h : Tracks w written (front ++ rest) acked dropped) :
    Tracks w written rest acked (dropped + total w front) := by
  obtain ⟨a, d, had, hd, ha, hsum, hwin⟩ := h
  have hlen : front.length ≤ written.length - d := by
    have hle := congrArg List.length hwin
    rw [List.length_append, List.length_drop] at hle
    omega
  have hfront : (written.drop d).take front.length = front := by
    rw [← hwin, List.take_left]
  refine ⟨a, d + front.length, by omega, by omega, ha, ?_, ?_⟩
  · rw [List.take_add, total_append, hfront, ← hsum]
    omega
  · rw [← List.drop_drop, ← hwin, List.drop_left]

/-- A cumulative acknowledgment: first it settles what was given up, then it
releases the front of the window, and it never ends inside an item. -/
theorem Tracks.ack (hpos : ∀ item ∈ written, 0 < w item)
    (h : Tracks w written window acked dropped) (k : ℕ) :
    let newly := total w (written.take k) - acked
    let settled := min newly dropped
    Tracks w written (popCovered w (newly - settled) window).2
        (max acked (total w (written.take k))) (dropped - settled) ∧
      stopsInside w (newly - settled) window = false ∧
      (popCovered w (newly - settled) window).1 ⊆ written.take k := by
  obtain ⟨a, d, had, hd, ha, hsum, rfl⟩ := h
  intro newly settled
  have hpos' : ∀ item ∈ written.drop d, 0 < w item :=
    fun item hitem => hpos item (List.drop_subset d written hitem)
  rcases Nat.le_total k d with hk | hk
  · -- the acknowledgment ends among items that have left the window
    have hle := total_take_mono (w := w) written hk
    have hzero : newly - settled = total w ((written.drop d).take 0) := by
      simp only [newly, settled, List.take_zero, total_nil]
      omega
    rw [hzero, popCovered_total_take hpos' 0, stopsInside_total_take]
    refine ⟨?_, rfl, by simp⟩
    -- it is new only if it is past the ones acknowledged before
    rcases Nat.le_total k a with hka | hak
    · have hka := total_take_mono (w := w) written hka
      refine ⟨a, d, had, hd, by omega, ?_, rfl⟩
      simp only [newly, settled]
      omega
    · have hak := total_take_mono (w := w) written hak
      refine ⟨k, d, hk, hd, by omega, ?_, rfl⟩
      simp only [newly, settled]
      omega
  · -- it covers everything given up and the first `k - d` items of the window
    have hsplit : total w (written.take k) =
        total w (written.take d) + total w ((written.drop d).take (k - d)) := by
      rw [← total_append, ← List.take_add, Nat.add_sub_cancel' hk]
    have hrest : newly - settled = total w ((written.drop d).take (k - d)) := by
      simp only [newly, settled]
      omega
    rw [hrest, popCovered_total_take hpos' (k - d), stopsInside_total_take]
    refine ⟨⟨min k written.length, min k written.length, le_rfl, min_le_right _ _, ?_, ?_, ?_⟩,
      rfl, ?_⟩
    · rw [← List.take_eq_take_min]
      omega
    · rw [← List.take_eq_take_min]
      simp only [newly, settled]
      omega
    · rw [List.drop_drop, Nat.add_sub_cancel' hk]
      rcases Nat.le_total k written.length with hkl | hkl
      · rw [Nat.min_eq_left hkl]
      · rw [Nat.min_eq_right hkl, List.drop_eq_nil_of_le hkl, List.drop_length]
    · intro item hitem
      have htake : written.take k = written.take d ++ (written.drop d).take (k - d) := by
        rw [← List.take_add, Nat.add_sub_cancel' hk]
      rw [htake]
      exact List.mem_append_right _ hitem

/-- With everything written acknowledged, nothing is left in the window and
nothing is outstanding. -/
theorem Tracks.complete (hpos : ∀ item ∈ written, 0 < w item)
    (h : Tracks w written window acked dropped) (hall : acked = total w written) :
    window = [] ∧ dropped = 0 := by
  have htotal := h.total_eq
  have hsuffix := h.suffix
  refine ⟨?_, by omega⟩
  by_contra hne
  have hwin : 0 < total w window :=
    total_pos (fun item hitem => hpos item (hsuffix.subset hitem)) hne
  omega

end CumulativeAcks
