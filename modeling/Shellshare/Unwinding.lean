import Mathlib.Data.List.Basic

/-! Unwinding: when deleting the hidden actions of a run cannot be noticed by an
observer that sees one part of the state for as long as it is there. -/
namespace Unwinding

variable {σ α ρ ν : Type*}

/-- An action, its result, and the observed part of the state around it. -/
structure Observed (α ρ ν : Type*) where
  action : α
  before : Option ν
  result : ρ
  after : Option ν

/-- What is observed of a run: the actions that are `seen`, each with its result,
up to the one that removes the observed part. -/
def observe (step : σ → α → ρ × σ) (view : σ → Option ν) (seen : α → Bool) :
    σ → List α → List (Observed α ρ ν)
  | _, [] => []
  | s, a :: as =>
    let r := step s a
    if seen a then
      ⟨a, view s, r.1, view r.2⟩ ::
        if (view r.2).isSome then observe step view seen r.2 as else []
    else observe step view seen r.2 as

variable {step : σ → α → ρ × σ} {view : σ → Option ν} {seen hidden : α → Bool} {I : ν → Prop}

/-- Every observation is one step, from a state where the observed part is there
and satisfies what the steps keep. -/
theorem observe_sound
    (hkeep : ∀ s a v v', view s = some v → I v → view (step s a).2 = some v' → I v')
    (hframe : ∀ s a, seen a = false → view (step s a).2 = view s)
    {s : σ} {v : ν} (hv : view s = some v) (hI : I v) {as : List α} {o : Observed α ρ ν}
    (ho : o ∈ observe step view seen s as) :
    ∃ t w, view t = some w ∧ I w ∧ seen o.action = true ∧ o.before = some w ∧
      o.result = (step t o.action).1 ∧ o.after = view (step t o.action).2 := by
  induction as generalizing s v with
  | nil => cases ho
  | cons a as ih =>
    rw [observe] at ho
    cases hseen : seen a with
    | false =>
      rw [hseen] at ho
      exact ih ((hframe s a hseen).trans hv) hI ho
    | true =>
      rw [hseen] at ho
      rcases List.mem_cons.mp ho with rfl | hrest
      · exact ⟨s, v, hv, hI, hseen, hv, rfl, rfl⟩
      · cases hafter : view (step s a).2 with
        | none =>
          rw [hafter] at hrest
          cases hrest
        | some w =>
          rw [hafter] at hrest
          exact ih hafter (hkeep s a v w hv hI hafter) hrest

/-- Hidden actions that leave the observed part alone can be deleted from a run:
what is observed is then what was observed of the others. -/
theorem observe_filter
    (hkeep : ∀ s a v v', view s = some v → I v → view (step s a).2 = some v' → I v')
    (hframe : ∀ s a, seen a = false → view (step s a).2 = view s)
    (hhidden : ∀ s a v, view s = some v → I v → hidden a = true → view (step s a).2 = some v)
    (hsame : ∀ s t a, seen a = true → view s = view t →
      (step s a).1 = (step t a).1 ∧ view (step s a).2 = view (step t a).2)
    {s t : σ} {v : ν} (hv : view s = some v) (hI : I v) (ht : view t = view s) (as : List α) :
    observe step view seen t (as.filter fun a => !hidden a) =
      (observe step view seen s as).filter fun o => !hidden o.action := by
  induction as generalizing s t v with
  | nil => rfl
  | cons a as ih =>
    cases hhid : hidden a with
    | true =>
      -- deleted on the left; on the right it leaves the observed part alone
      have hleft : (a :: as).filter (fun b => !hidden b) = as.filter fun b => !hidden b :=
        List.filter_cons_of_neg (by simp [hhid])
      have hs' : view (step s a).2 = some v := hhidden s a v hv hI hhid
      have hrest := ih hs' hI (ht.trans (hv.trans hs'.symm))
      rw [hleft, hrest, observe]
      cases hseen : seen a with
      | false => rfl
      | true => simp [hs', hhid]
    | false =>
      have hleft : (a :: as).filter (fun b => !hidden b) = a :: as.filter fun b => !hidden b :=
        List.filter_cons_of_pos (by simp [hhid])
      rw [hleft, observe, observe]
      cases hseen : seen a with
      | false =>
        have hs' : view (step s a).2 = some v := (hframe s a hseen).trans hv
        have ht' : view (step t a).2 = view (step s a).2 := by
          rw [hframe s a hseen, hframe t a hseen, ht]
        exact ih hs' hI ht'
      | true =>
        obtain ⟨hresult, hview⟩ := hsame t s a hseen ht
        simp only [if_true, ht, hresult, hview]
        cases hafter : view (step s a).2 with
        | none => simp [hhid]
        | some w =>
          have hrest := ih hafter (hkeep s a v w hv hI hafter) hview
          simp [hhid, hrest]

end Unwinding
