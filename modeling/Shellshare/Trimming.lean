import Mathlib.Data.List.DropRight

/-! Trimming a text at both ends, and splitting it at the first occurrence of a
separator. -/
namespace Trimming

variable {α : Type*} {p : α → Bool} {a b s t x : List α} {c : α}

def trim (p : α → Bool) (s : List α) : List α := (s.dropWhile p).rdropWhile p

/-- Nothing is to be trimmed at either end. -/
structure Trimmed (p : α → Bool) (x : List α) : Prop where
  head : ∀ c ∈ x.head?, p c = false
  last : ∀ c ∈ x.getLast?, p c = false

/-- The text before and behind the first separator. -/
def splitOnce [DecidableEq α] (sep : α) : List α → Option (List α × List α)
  | [] => none
  | c :: rest =>
    if c = sep then some ([], rest)
    else (splitOnce sep rest).map fun parts => (c :: parts.1, parts.2)

theorem splitOnce_append_cons [DecidableEq α] (hc : c ∉ s) :
    splitOnce c (s ++ c :: t) = some (s, t) := by
  induction s with
  | nil => simp [splitOnce]
  | cons d s ih =>
    rw [List.mem_cons, not_or] at hc
    rw [List.cons_append, splitOnce, if_neg (Ne.symm hc.1), ih hc.2, Option.map_some]

theorem splitOnce_eq_some_iff [DecidableEq α] :
    splitOnce c x = some (s, t) ↔ x = s ++ c :: t ∧ c ∉ s := by
  constructor
  · intro h
    induction x generalizing s with
    | nil => cases h
    | cons d x ih =>
      rw [splitOnce] at h
      split_ifs at h with hd
      · cases h
        exact ⟨by rw [hd]; rfl, List.not_mem_nil⟩
      · obtain ⟨⟨front, rest⟩, hparts, heq⟩ := Option.map_eq_some_iff.mp h
        cases heq
        obtain ⟨hx, hc⟩ := ih hparts
        refine ⟨by rw [hx]; rfl, ?_⟩
        rw [List.mem_cons, not_or]
        exact ⟨Ne.symm hd, hc⟩
  · rintro ⟨rfl, hc⟩
    exact splitOnce_append_cons hc

theorem forall_mem_intercalate {P : α → Prop} {sep : List α} {texts : List (List α)}
    (hsep : ∀ c ∈ sep, P c) (htexts : ∀ text ∈ texts, ∀ c ∈ text, P c) :
    ∀ c ∈ sep.intercalate texts, P c := by
  induction texts with
  | nil => nofun
  | cons text texts ih =>
    rw [List.forall_mem_cons] at htexts
    by_cases hrest : texts = []
    · rw [hrest, List.intercalate_singleton]
      exact htexts.1
    · rw [List.intercalate_cons_of_ne_nil hrest]
      simp only [List.forall_mem_append]
      exact ⟨⟨htexts.1, hsep⟩, ih htexts.2⟩

/-- Joined texts are split one by one. -/
theorem splitOn_intercalate_flatMap [DecidableEq α] {texts : List (List α)} (hne : texts ≠ []) :
    ([c].intercalate texts).splitOn c = texts.flatMap (·.splitOn c) := by
  induction texts with
  | nil => exact absurd rfl hne
  | cons text texts ih =>
    by_cases hrest : texts = []
    · rw [hrest, List.intercalate_singleton, List.flatMap_singleton]
    · rw [List.intercalate_cons_of_ne_nil hrest, List.append_assoc, List.singleton_append,
        List.splitOn_append_cons_self, ih hrest, List.flatMap_cons]

theorem rdropWhile_append_of_pos (hb : ∀ c ∈ b, p c = true) :
    (s ++ b).rdropWhile p = s.rdropWhile p := by
  rw [List.rdropWhile, List.reverse_append, List.dropWhile_append_of_pos, List.rdropWhile]
  intro c hc
  exact hb c (List.mem_reverse.mp hc)

theorem rdropWhile_append_cons (hc : p c = false) :
    (s ++ c :: t).rdropWhile p = s ++ c :: t.rdropWhile p := by
  induction t using List.reverseRecOn with
  | nil => rw [List.rdropWhile_concat_neg _ _ _ (by simp [hc]), List.rdropWhile_nil]
  | append_singleton t d ih =>
    have hassoc : s ++ c :: (t ++ [d]) = s ++ c :: t ++ [d] := by simp
    rw [hassoc, List.rdropWhile_concat, List.rdropWhile_concat]
    split_ifs
    · exact ih
    · exact hassoc.symm

theorem dropWhile_append_cons (hc : p c = false) :
    (s ++ c :: t).dropWhile p = s.dropWhile p ++ c :: t := by
  induction s with
  | nil => simp [hc]
  | cons d s ih =>
    rw [List.cons_append, List.dropWhile_cons, List.dropWhile_cons]
    split_ifs
    · exact ih
    · rfl

/-- A separator that stays divides the trimming. -/
theorem trim_append_cons (hc : p c = false) :
    trim p (s ++ c :: t) = s.dropWhile p ++ c :: t.rdropWhile p := by
  rw [trim, dropWhile_append_cons hc, rdropWhile_append_cons hc]

theorem Trimmed.dropWhile_append (hx : Trimmed p x) (hne : x ≠ []) :
    (x ++ b).dropWhile p = x ++ b := by
  cases x with
  | nil => exact absurd rfl hne
  | cons c x =>
    have hc : p c = false := hx.head c rfl
    rw [List.cons_append, List.dropWhile_cons, if_neg (by simp [hc])]

theorem Trimmed.rdropWhile_append (hx : Trimmed p x) (hne : x ≠ []) :
    (a ++ x).rdropWhile p = a ++ x := by
  cases x using List.reverseRecOn with
  | nil => exact absurd rfl hne
  | append_singleton x c =>
    have hc : p c = false := hx.last c (by simp)
    rw [← List.append_assoc, List.rdropWhile_concat, if_neg (by simp [hc])]

/-- Trimming leaves what is padded. -/
theorem trim_pad (ha : ∀ c ∈ a, p c = true) (hb : ∀ c ∈ b, p c = true) (hx : Trimmed p x) :
    trim p (a ++ (x ++ b)) = x := by
  rw [trim, List.dropWhile_append_of_pos ha]
  by_cases hne : x = []
  · rw [hne, List.nil_append, List.dropWhile_eq_nil_iff.mpr (by simpa using hb)]
    rfl
  · have hright := hx.rdropWhile_append (a := []) hne
    rw [hx.dropWhile_append hne, rdropWhile_append_of_pos hb]
    exact hright

theorem trim_dropWhile (s : List α) : trim p (s.dropWhile p) = trim p s := by
  rw [trim, trim, List.dropWhile_idempotent]

theorem trim_rdropWhile_pad (ha : ∀ c ∈ a, p c = true) (hb : ∀ c ∈ b, p c = true)
    (hx : Trimmed p x) : trim p ((a ++ (x ++ b)).rdropWhile p) = x := by
  rw [← List.append_assoc, rdropWhile_append_of_pos hb]
  by_cases hne : x = []
  · rw [hne, List.append_nil, List.rdropWhile_eq_nil_iff.mpr ha]
    rfl
  · have hpad := trim_pad (b := []) ha nofun hx
    rw [List.append_nil] at hpad
    rw [hx.rdropWhile_append hne, hpad]

end Trimming
