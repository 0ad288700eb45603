import Shellshare.TransitionRuns

/-! What some schedule of actions of one kind leads to, and the rule that finds one:
as long as a measure is not zero, some actions bring it down. -/
namespace TransitionRuns

variable {σ τ α β : Type*} {step : σ → α → Option σ} {C : α → Prop} {s t u : σ}

theorem run_append {as bs : List α} :
    run step s (as ++ bs) = (run step s as).bind fun t => run step t bs := by
  induction as generalizing s with
  | nil => rfl
  | cons a as ih =>
    rw [List.cons_append, run, run, Option.bind_assoc]
    exact congrArg ((step s a).bind ·) (funext fun s' => ih)

/-- Some actions of the kind `C` lead from `s` to `t`. -/
def LeadsTo (step : σ → α → Option σ) (C : α → Prop) (s t : σ) : Prop :=
  ∃ as, (∀ a ∈ as, C a) ∧ run step s as = some t

theorem LeadsTo.refl (step : σ → α → Option σ) (C : α → Prop) (s : σ) : LeadsTo step C s s :=
  ⟨[], nofun, rfl⟩

theorem LeadsTo.single {a : α} (ha : C a) (hstep : step s a = some t) : LeadsTo step C s t := by
  refine ⟨[a], List.forall_mem_singleton.mpr ha, ?_⟩
  rw [run, hstep]
  rfl

theorem LeadsTo.trans (h : LeadsTo step C s t) (h' : LeadsTo step C t u) : LeadsTo step C s u := by
  obtain ⟨as, has, hrun⟩ := h
  obtain ⟨bs, hbs, hrun'⟩ := h'
  refine ⟨as ++ bs, ?_, ?_⟩
  · intro a ha
    rcases List.mem_append.mp ha with ha | ha
    · exact has a ha
    · exact hbs a ha
  · rw [run_append, hrun]
    exact hrun'

theorem LeadsTo.mono {D : α → Prop} (hCD : ∀ a, C a → D a) (h : LeadsTo step C s t) :
    LeadsTo step D s t := by
  obtain ⟨as, has, hrun⟩ := h
  exact ⟨as, fun a ha => hCD a (has a ha), hrun⟩

/-- A system that answers each step with a schedule of its own can answer a schedule. -/
theorem LeadsTo.simulates {step' : τ → β → Option τ} {D : β → Prop} {R : σ → τ → Prop}
    (h : ∀ s a t x, C a → step s a = some t → R s x → ∃ y, LeadsTo step' D x y ∧ R t y)
    (hst : LeadsTo step C s t) {x : τ} (hx : R s x) : ∃ y, LeadsTo step' D x y ∧ R t y := by
  obtain ⟨as, has, hrun⟩ := hst
  induction as generalizing s x with
  | nil =>
    obtain rfl := Option.some.inj hrun
    exact ⟨x, refl step' D x, hx⟩
  | cons a as ih =>
    obtain ⟨s', hstep, hrun⟩ := run_cons_eq_some.mp hrun
    obtain ⟨y, hxy, hy⟩ := h s a s' x (has a List.mem_cons_self) hstep hx
    obtain ⟨z, hyz, hz⟩ := ih hy (fun b hb => has b (List.mem_cons_of_mem a hb)) hrun
    exact ⟨z, hxy.trans hyz, hz⟩

/-- What every step keeps, a schedule keeps. -/
theorem LeadsTo.preserves {I : σ → Prop} (hI : ∀ s a t, I s → step s a = some t → I t) (hs : I s)
    (hst : LeadsTo step C s t) : I t := by
  obtain ⟨as, -, hrun⟩ := hst
  exact run_preserves hI hs hrun

/-- The descent of a measure of the state and of some data that goes with it: it reaches
zero if it can always be brought down. -/
theorem LeadsTo.descend {ι : Type*} {P : ι → σ → Prop} {μ : ι → σ → ℕ}
    (h : ∀ i s, P i s → μ i s ≠ 0 → ∃ j t, LeadsTo step C s t ∧ P j t ∧ μ j t < μ i s)
    {i : ι} (hs : P i s) : ∃ j t, LeadsTo step C s t ∧ P j t ∧ μ j t = 0 := by
  induction hμ : μ i s using Nat.strongRecOn generalizing i s with
  | _ n ih =>
    by_cases hzero : μ i s = 0
    · exact ⟨i, s, refl step C s, hs, hzero⟩
    · obtain ⟨j, t, hst, ht, hless⟩ := h i s hs hzero
      obtain ⟨k, u, htu, hu, huzero⟩ := ih (μ j t) (hμ ▸ hless) ht rfl
      exact ⟨k, u, hst.trans htu, hu, huzero⟩

/-- Steps of a kind that each take something from a measure, which no step adds to, are
no more in a run than the measure has lost. -/
theorem countP_add_le_of_measure {I : σ → Prop} {μ : σ → ℕ} {p : α → Bool}
    (h : ∀ s a t, I s → step s a = some t → I t ∧ (p a).toNat + μ t ≤ μ s) (hs : I s)
    {as : List α} (hrun : run step s as = some t) : as.countP p + μ t ≤ μ s := by
  induction as generalizing s with
  | nil =>
    obtain rfl := Option.some.inj hrun
    simp
  | cons a as ih =>
    obtain ⟨s', hstep, hrest⟩ := run_cons_eq_some.mp hrun
    obtain ⟨hs', hless⟩ := h s a s' hs hstep
    calc (a :: as).countP p + μ t = (p a).toNat + (as.countP p + μ t) := by
          rw [List.countP_cons]
          cases p a
          · simp
          · simp only [if_true, Bool.toNat_true]
            omega
      _ ≤ (p a).toNat + μ s' := Nat.add_le_add_left (ih hs' hrest) _
      _ ≤ μ s := hless

end TransitionRuns
