import Mathlib.Data.List.Infix

/-! The longest suffix of a list that satisfies a predicate, and how it moves
when the list grows at its end. -/
namespace LongestSuffix

variable {α : Type*}

/-- `s` is a suffix of `l` that satisfies `P`, and no longer suffix does. -/
structure IsLongestSuffix (P : List α → Prop) (l s : List α) : Prop where
  suffix : s <:+ l
  holds : P s
  longest : ∀ t, t <:+ l → P t → t <:+ s

/-- Suffixes of a longer list are the list itself or suffixes of its tail, so
an element that no good suffix starts with can be dropped. -/
theorem isLongestSuffix_cons_of_not {P : List α → Prop} {a : α} {l s : List α}
    (ha : ¬ P (a :: l)) (h : IsLongestSuffix P l s) : IsLongestSuffix P (a :: l) s := by
  refine ⟨h.suffix.trans (List.suffix_cons a l), h.holds, fun t ht hPt => ?_⟩
  rcases List.suffix_cons_iff.mp ht with rfl | ht
  · exact absurd hPt ha
  · exact h.longest t ht hPt

theorem isLongestSuffix_self {P : List α → Prop} {l : List α} (h : P l) :
    IsLongestSuffix P l l :=
  ⟨List.suffix_refl l, h, fun _ ht _ => ht⟩

theorem append_singleton_suffix_iff {l s : List α} {a b : α} :
    s ++ [b] <:+ l ++ [a] ↔ s <:+ l ∧ b = a := by
  have hlen : [b].length = [a].length := rfl
  rw [List.suffix_append_inj_of_length_eq hlen, List.singleton_inj]

/-- When `P` is kept by dropping the last element, the longest suffix after an
append is found inside the longest suffix before it. -/
theorem isLongestSuffix_append_singleton {P : List α → Prop} {l s t : List α} {a : α}
    (hinit : ∀ u, P (u ++ [a]) → P u) (hs : IsLongestSuffix P l s)
    (ht : IsLongestSuffix P (s ++ [a]) t) : IsLongestSuffix P (l ++ [a]) t := by
  have hsa : s ++ [a] <:+ l ++ [a] := append_singleton_suffix_iff.mpr ⟨hs.suffix, rfl⟩
  refine ⟨ht.suffix.trans hsa, ht.holds, fun u hu hPu => ?_⟩
  rcases List.eq_nil_or_concat' u with rfl | ⟨v, b, rfl⟩
  · exact List.nil_suffix
  · obtain ⟨hv, rfl⟩ := append_singleton_suffix_iff.mp hu
    have hvs := hs.longest v hv (hinit v hPu)
    exact ht.longest _ (append_singleton_suffix_iff.mpr ⟨hvs, rfl⟩) hPu

end LongestSuffix
