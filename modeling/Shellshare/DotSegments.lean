import Mathlib.Algebra.Order.Ring.Nat
import Mathlib.Data.List.Basic

/-! Dot segments of a path, resolved from left to right: one stands for the place it is at,
or for the one above. -/
namespace DotSegments

inductive Kind where
  | plain
  | here
  | up
deriving DecidableEq

variable {α : Type*} {kind : α → Kind} {blank d : α} {path segs rest : List α}

def push (kind : α → Kind) (path : List α) (s : α) : List α :=
  match kind s with
  | .plain => path ++ [s]
  | .here => path
  | .up => path.dropLast

/-- The path that the segments lead to; a dot segment at the end leaves a blank one. -/
def resolve (kind : α → Kind) (blank : α) : List α → List α → List α
  | path, [] => path
  | path, [s] => if kind s = .plain then path ++ [s] else push kind path s ++ [blank]
  | path, s :: next :: rest => resolve kind blank (push kind path s) (next :: rest)

theorem push_plain {s : α} (h : kind s = .plain) : push kind path s = path ++ [s] := by
  rw [push, h]

/-- A dot segment only takes off the end of the path. -/
theorem exists_push_eq_take (path : List α) (hd : kind d ≠ .plain) :
    ∃ i, push kind path d = path.take i := by
  unfold push
  split
  · rename_i hplain
    exact absurd hplain hd
  · exact ⟨path.length, List.take_length.symm⟩
  · exact ⟨path.length - 1, List.dropLast_eq_take⟩

theorem resolve_cons (hrest : rest ≠ []) (path : List α) (d : α) :
    resolve kind blank path (d :: rest) = resolve kind blank (push kind path d) rest := by
  cases rest with
  | nil => exact absurd rfl hrest
  | cons s rest => rfl

/-- Plain segments lead where they say. -/
theorem resolve_plain (h : ∀ s ∈ segs, kind s = .plain) :
    resolve kind blank path segs = path ++ segs := by
  induction segs generalizing path with
  | nil => exact (List.append_nil path).symm
  | cons s rest ih =>
    obtain ⟨hs, hrest⟩ := List.forall_mem_cons.mp h
    cases rest with
    | nil => rw [resolve, if_pos hs]
    | cons t rest =>
      rw [resolve_cons (List.cons_ne_nil t rest), push_plain hs, ih hrest, List.append_assoc,
        List.singleton_append]

theorem resolve_append (h : ∀ s ∈ segs, kind s = .plain) (hrest : rest ≠ []) :
    resolve kind blank path (segs ++ rest) = resolve kind blank (path ++ segs) rest := by
  induction segs generalizing path with
  | nil => rw [List.nil_append, List.append_nil]
  | cons s segs ih =>
    obtain ⟨hs, hsegs⟩ := List.forall_mem_cons.mp h
    have hne : segs ++ rest ≠ [] := List.append_ne_nil_of_right_ne_nil segs hrest
    rw [List.cons_append, resolve_cons hne, push_plain hs, ih hsegs, List.append_assoc,
      List.singleton_append]

/-- What a path is resolved to has no dot segments. -/
theorem resolve_kind (hblank : kind blank = .plain) (hpath : ∀ s ∈ path, kind s = .plain) :
    ∀ s ∈ resolve kind blank path segs, kind s = .plain := by
  have hpush : ∀ (path : List α) (s : α), (∀ t ∈ path, kind t = .plain) →
      ∀ t ∈ push kind path s, kind t = .plain := by
    intro path s hpath
    unfold push
    split
    · rename_i hs
      exact List.forall_mem_append.mpr ⟨hpath, List.forall_mem_singleton.mpr hs⟩
    · exact hpath
    · exact fun t ht => hpath t ((List.dropLast_sublist path).subset ht)
  induction segs generalizing path with
  | nil => exact hpath
  | cons s rest ih =>
    cases rest with
    | nil =>
      rw [resolve]
      split_ifs with hs
      · exact List.forall_mem_append.mpr ⟨hpath, List.forall_mem_singleton.mpr hs⟩
      · exact List.forall_mem_append.mpr ⟨hpush path s hpath, List.forall_mem_singleton.mpr hblank⟩
    | cons t rest => exact ih (hpush path s hpath)

/-- The path that was there is kept up to some place, and segments are put behind it; they
weigh no more than those that were resolved, if a blank one weighs no more than a dot. -/
structure Leads (blank : α) (kind : α → Kind) (path segs out : List α) (i : ℕ) (tail : List α) :
    Prop where
  eq : out = path.take i ++ tail
  ne_nil : tail ≠ []
  mem : ∀ s ∈ tail, s ∈ segs ∨ s = blank
  weight : ∀ m : α → ℕ, (∀ s, kind s ≠ .plain → m blank ≤ m s) →
    (tail.map m).sum ≤ (segs.map m).sum

theorem resolve_leads (kind : α → Kind) (blank : α) (path : List α) (hsegs : segs ≠ []) :
    ∃ i tail, Leads blank kind path segs (resolve kind blank path segs) i tail := by
  induction segs generalizing path with
  | nil => exact absurd rfl hsegs
  | cons s rest ih =>
    by_cases hs : kind s = .plain
    · by_cases hrest : rest = []
      · subst hrest
        refine ⟨path.length, [s], ?_, List.cons_ne_nil _ _, fun t ht => Or.inl ht, fun m _ => le_rfl⟩
        rw [resolve, if_pos hs, List.take_length]
      · obtain ⟨i, tail, h⟩ := ih (path ++ [s]) hrest
        rw [resolve_cons hrest, push_plain hs]
        have hmem : ∀ t ∈ tail, t ∈ s :: rest ∨ t = blank := fun t ht =>
          (h.mem t ht).imp_left (List.mem_cons_of_mem s)
        have hweight : ∀ m : α → ℕ, (∀ s, kind s ≠ .plain → m blank ≤ m s) →
            (tail.map m).sum ≤ (rest.map m).sum := h.weight
        by_cases hi : i ≤ path.length
        · -- a dot segment behind it took it off again
          refine ⟨i, tail, ?_, h.ne_nil, hmem, fun m hm => ?_⟩
          · rw [h.eq, List.take_append_of_le_length hi]
          · rw [List.map_cons, List.sum_cons]
            exact (hweight m hm).trans (Nat.le_add_left _ _)
        · -- the segment itself is kept
          have hlen : (path ++ [s]).length ≤ i := by
            rw [List.length_append, List.length_singleton]
            omega
          refine ⟨path.length, s :: tail, ?_, List.cons_ne_nil _ _, ?_, fun m hm => ?_⟩
          · rw [h.eq, List.take_of_length_le hlen, List.take_length, List.append_assoc,
              List.singleton_append]
          · exact List.forall_mem_cons.mpr ⟨Or.inl List.mem_cons_self, hmem⟩
          · rw [List.map_cons, List.map_cons, List.sum_cons, List.sum_cons]
            exact Nat.add_le_add_left (hweight m hm) _
    · -- of what was there, the shorter of the two starts is left
      obtain ⟨j, hj⟩ := exists_push_eq_take path hs
      by_cases hrest : rest = []
      · subst hrest
        refine ⟨j, [blank], ?_, List.cons_ne_nil _ _, ?_, fun m hm => ?_⟩
        · rw [resolve, if_neg hs, hj]
        · exact List.forall_mem_singleton.mpr (Or.inr rfl)
        · simpa using hm s hs
      · obtain ⟨i, tail, h⟩ := ih (push kind path s) hrest
        refine ⟨min i j, tail, ?_, h.ne_nil, fun t ht =>
          (h.mem t ht).imp_left (List.mem_cons_of_mem s), fun m hm => ?_⟩
        · rw [resolve_cons hrest, h.eq, hj, List.take_take]
        · rw [List.map_cons, List.sum_cons]
          exact (h.weight m hm).trans (Nat.le_add_left _ _)

theorem resolve_ne_nil (hsegs : segs ≠ []) : resolve kind blank path segs ≠ [] := by
  obtain ⟨i, tail, h⟩ := resolve_leads kind blank path hsegs
  rw [h.eq]
  exact List.append_ne_nil_of_right_ne_nil _ h.ne_nil

theorem mem_resolve {s : α} (hsegs : segs ≠ []) (hs : s ∈ resolve kind blank [] segs) :
    s ∈ segs ∨ s = blank := by
  obtain ⟨i, tail, h⟩ := resolve_leads kind blank [] hsegs
  rw [h.eq, List.take_nil, List.nil_append] at hs
  exact h.mem s hs

theorem exists_first_dot (h : ¬∀ s ∈ segs, kind s = .plain) :
    ∃ front d rest, segs = front ++ d :: rest ∧ (∀ s ∈ front, kind s = .plain) ∧
      kind d ≠ .plain := by
  induction segs with
  | nil => exact absurd (List.forall_mem_nil _) h
  | cons s segs ih =>
    by_cases hs : kind s = .plain
    · obtain ⟨front, d, rest, rfl, hfront, hd⟩ := ih fun hsegs =>
        h (List.forall_mem_cons.mpr ⟨hs, hsegs⟩)
      exact ⟨s :: front, d, rest, rfl, List.forall_mem_cons.mpr ⟨hs, hfront⟩, hd⟩
    · exact ⟨[], s, segs, rfl, List.forall_mem_nil _, hs⟩

/-- A dot segment makes what is put behind lighter, if a blank one is lighter than it. -/
theorem resolve_cons_dot (blank : α) (path rest : List α) (hd : kind d ≠ .plain) :
    ∃ i tail, resolve kind blank path (d :: rest) = path.take i ++ tail ∧ tail ≠ [] ∧
      (∀ s ∈ tail, s ∈ rest ∨ s = blank) ∧
      ∀ m : α → ℕ, (∀ s, kind s ≠ .plain → m blank < m s) →
        (tail.map m).sum < ((d :: rest).map m).sum := by
  obtain ⟨j, hj⟩ := exists_push_eq_take path hd
  by_cases hrest : rest = []
  · subst hrest
    refine ⟨j, [blank], by rw [resolve, if_neg hd, hj], List.cons_ne_nil _ _,
      List.forall_mem_singleton.mpr (Or.inr rfl), fun m hm => ?_⟩
    simpa using hm d hd
  · obtain ⟨i, tail, h⟩ := resolve_leads kind blank (push kind path d) hrest
    refine ⟨min i j, tail, ?_, h.ne_nil, h.mem, fun m hm => ?_⟩
    · rw [resolve_cons hrest, h.eq, hj, List.take_take]
    · rw [List.map_cons, List.sum_cons]
      have hle := h.weight m fun s hs => (hm s hs).le
      have hpos := (Nat.zero_le _).trans_lt (hm d hd)
      omega

end DotSegments
