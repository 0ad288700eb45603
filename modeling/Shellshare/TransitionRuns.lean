import Mathlib.Data.List.Basic

/-! Runs of a partial step function: the states a run passes through, the steps
it takes, and the induction rules that carry an invariant along it. -/
namespace TransitionRuns

variable {σ α : Type*} {step : σ → α → Option σ}

/-- Perform the actions in order; `none` when one of them is not enabled. -/
def run (step : σ → α → Option σ) : σ → List α → Option σ
  | s, [] => some s
  | s, a :: as => (step s a).bind fun s' => run step s' as

/-- `P` holds of every state the run passes through, both ends included. -/
def StatesSatisfy (step : σ → α → Option σ) (P : σ → Prop) : σ → List α → Prop
  | s, [] => P s
  | s, a :: as => P s ∧ ∀ s', step s a = some s' → StatesSatisfy step P s' as

/-- `C` holds of every step the run takes, judged in the state before the step. -/
def StepsSatisfy (step : σ → α → Option σ) (C : σ → α → Prop) : σ → List α → Prop
  | _, [] => True
  | s, a :: as => ∀ s', step s a = some s' → C s a ∧ StepsSatisfy step C s' as

/-- Along a fixed run a decidable condition can be evaluated. -/
instance decidableStepsSatisfy {C : σ → α → Prop} [∀ s a, Decidable (C s a)] :
    ∀ s as, Decidable (StepsSatisfy step C s as)
  | _, [] => isTrue trivial
  | s, a :: as =>
    match h : step s a with
    | none => isTrue fun s' hs' => by rw [h] at hs'; cases hs'
    | some t =>
      have := decidableStepsSatisfy (C := C) t as
      decidable_of_iff (C s a ∧ StepsSatisfy step C t as) <| by
        constructor
        · rintro hC s' hs'
          rw [h] at hs'
          exact Option.some.inj hs' ▸ hC
        · exact fun hC => hC t h

@[simp] theorem run_nil (s : σ) : run step s [] = some s := rfl

theorem run_cons_eq_some {s t : σ} {a : α} {as : List α} :
    run step s (a :: as) = some t ↔ ∃ s', step s a = some s' ∧ run step s' as = some t := by
  simp only [run, Option.bind_eq_some_iff]

theorem StatesSatisfy.head {P : σ → Prop} {s : σ} {as : List α}
    (h : StatesSatisfy step P s as) : P s := by
  cases as with
  | nil => exact h
  | cons a as => exact h.1

/-- What holds along a run holds where the run ends. -/
theorem StatesSatisfy.final {P : σ → Prop} {s t : σ} {as : List α}
    (h : StatesSatisfy step P s as) (hrun : run step s as = some t) : P t := by
  induction as generalizing s with
  | nil =>
    obtain rfl : s = t := by simpa using hrun
    exact h
  | cons a as ih =>
    obtain ⟨s', hs', ht⟩ := run_cons_eq_some.mp hrun
    exact ih (h.2 s' hs') ht

theorem stepsSatisfy_of_forall {C : σ → α → Prop} (hC : ∀ s a, C s a) (s : σ) (as : List α) :
    StepsSatisfy step C s as := by
  induction as generalizing s with
  | nil => trivial
  | cons a as ih => exact fun s' _ => ⟨hC s a, ih s'⟩

/-- Conditions that agree on the steps taken from states of an invariant agree along a run. -/
theorem stepsSatisfy_congr_of {I : σ → Prop} {C D : σ → α → Prop}
    (hI : ∀ s a s', I s → step s a = some s' → I s')
    (hCD : ∀ s a s', I s → step s a = some s' → (C s a ↔ D s a)) {s : σ} {as : List α}
    (hs : I s) : StepsSatisfy step C s as ↔ StepsSatisfy step D s as := by
  induction as generalizing s with
  | nil => rfl
  | cons a as ih =>
    apply forall_congr'
    intro s'
    apply imp_congr_right
    intro hs'
    rw [hCD s a s' hs hs', ih (hI s a s' hs hs')]

/-- Conditions that agree on the steps a run can take agree along the run. -/
theorem stepsSatisfy_congr {C D : σ → α → Prop}
    (hCD : ∀ s a s', step s a = some s' → (C s a ↔ D s a)) {s : σ} {as : List α} :
    StepsSatisfy step C s as ↔ StepsSatisfy step D s as := by
  apply stepsSatisfy_congr_of
  · exact fun _ _ _ (_ : True) _ => trivial
  · exact fun s a s' _ hs' => hCD s a s' hs'
  · trivial

/-- Induction on a run whose steps all meet a condition. -/
theorem run_preserves_of_steps {I : σ → Prop} {C : σ → α → Prop}
    (hstep : ∀ s a s', I s → C s a → step s a = some s' → I s')
    {s t : σ} {as : List α} (hs : I s) (hC : StepsSatisfy step C s as)
    (hrun : run step s as = some t) : I t := by
  induction as generalizing s with
  | nil =>
    obtain rfl : s = t := by simpa using hrun
    exact hs
  | cons a as ih =>
    obtain ⟨s', hs', ht⟩ := run_cons_eq_some.mp hrun
    obtain ⟨ha, has⟩ := hC s' hs'
    exact ih (hstep s a s' hs ha hs') has ht

/-- What every step preserves, every run preserves. -/
theorem run_preserves {I : σ → Prop} (hstep : ∀ s a s', I s → step s a = some s' → I s')
    {s t : σ} {as : List α} (hs : I s) (hrun : run step s as = some t) : I t :=
  run_preserves_of_steps (fun s a s' hs (_ : True) hss' => hstep s a s' hs hss') hs
    (stepsSatisfy_of_forall (fun _ _ => trivial) s as) hrun

/-- An invariant that implies `P` gives `P` at every state of a run whose
steps meet the condition. -/
theorem states_of_invariant {I P : σ → Prop} {C : σ → α → Prop}
    (hstep : ∀ s a s', I s → C s a → step s a = some s' → I s') (hP : ∀ s, I s → P s)
    {s : σ} {as : List α} (hs : I s) (hC : StepsSatisfy step C s as) :
    StatesSatisfy step P s as := by
  induction as generalizing s with
  | nil => exact hP s hs
  | cons a as ih =>
    refine ⟨hP s hs, fun s' hs' => ?_⟩
    obtain ⟨ha, has⟩ := hC s' hs'
    exact ih (hstep s a s' hs ha hs') has

/-- A condition that decides, at each step of a discipline `D`, whether `P`
survives the step decides whether `P` holds along the whole run. -/
theorem states_iff_steps {I P : σ → Prop} {C D : σ → α → Prop}
    (hI : ∀ s a s', I s → D s a → step s a = some s' → I s')
    (hPC : ∀ s a s', I s → D s a → P s → step s a = some s' → (P s' ↔ C s a))
    {s : σ} {as : List α} (hs : I s) (hP : P s) (hD : StepsSatisfy step D s as) :
    StatesSatisfy step P s as ↔ StepsSatisfy step C s as := by
  induction as generalizing s with
  | nil => exact iff_of_true hP trivial
  | cons a as ih =>
    constructor
    · rintro ⟨_, hrest⟩ s' hs'
      obtain ⟨ha, has⟩ := hD s' hs'
      have hP' := (hrest s' hs').head
      exact ⟨(hPC s a s' hs ha hP hs').mp hP',
        (ih (hI s a s' hs ha hs') hP' has).mp (hrest s' hs')⟩
    · intro hC
      refine ⟨hP, fun s' hs' => ?_⟩
      obtain ⟨ha, has⟩ := hD s' hs'
      obtain ⟨hCa, hCas⟩ := hC s' hs'
      exact (ih (hI s a s' hs ha hs') ((hPC s a s' hs ha hP hs').mpr hCa) has).mpr hCas

section History
variable {γ : Type*} {note : σ → α → σ → γ → γ}

/-- The step function with a history beside the state, which no step reads. -/
def withHistory (step : σ → α → Option σ) (note : σ → α → σ → γ → γ) :
    σ × γ → α → Option (σ × γ) :=
  fun p a => (step p.1 a).map fun s' => (s', note p.1 a s' p.2)

theorem withHistory_eq_some {p p' : σ × γ} {a : α} :
    withHistory step note p a = some p' ↔
      step p.1 a = some p'.1 ∧ p'.2 = note p.1 a p'.1 p.2 := by
  rw [withHistory, Option.map_eq_some_iff]
  constructor
  · rintro ⟨s', hs', rfl⟩
    exact ⟨hs', rfl⟩
  · rintro ⟨hs', hnote⟩
    exact ⟨p'.1, hs', Prod.ext rfl hnote.symm⟩

/-- A history can be kept of every run. -/
theorem exists_history {s t : σ} {as : List α} (hrun : run step s as = some t)
    (note : σ → α → σ → γ → γ) (h : γ) :
    ∃ h', run (withHistory step note) (s, h) as = some (t, h') := by
  induction as generalizing s h with
  | nil =>
    obtain rfl : s = t := by simpa using hrun
    exact ⟨h, rfl⟩
  | cons a as ih =>
    obtain ⟨s', hs', ht⟩ := run_cons_eq_some.mp hrun
    obtain ⟨h', hrest⟩ := ih ht (note s a s' h)
    exact ⟨h', run_cons_eq_some.mpr ⟨(s', note s a s' h), withHistory_eq_some.mpr ⟨hs', rfl⟩, hrest⟩⟩

end History

end TransitionRuns
