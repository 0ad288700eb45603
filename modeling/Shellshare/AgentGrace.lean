import Shellshare.AgentFollow

/-! The grace period of a follow: a broadcaster that leaves has five seconds to come back.
The follower keeps the handle of one timer only. -/
namespace Shellshare
namespace Follower
open TransitionRuns

section Key
variable {Key : Type} (aes : Aes256Gcm Key) (key : Option Key)

/-- History of a run: the broadcasting messages, with their times. -/
def noteBroadcasting (s : Follower) (a : FollowAction) (_ : Follower) (heard : List (ℕ × Bool)) :
    List (ℕ × Bool) :=
  match a with
  | .text data =>
    match control key data with
    | .broadcasting live => heard ++ [(s.now, live)]
    | _ => heard
  | _ => heard

/-- A follow that a grace timer ended was told last that nobody is broadcasting, and was
not told otherwise for the grace period. -/
def GraceHonoured (s : Follower × List (ℕ × Bool)) : Prop :=
  s.1.ended = some .graceOver →
    (s.2.getLast?.map Prod.snd) = some false ∧
      ∀ m ∈ s.2, m.2 = true → m.1 + gracePeriod ≤ s.1.now

/-- A broadcaster that comes back finds no timer armed but the one whose handle is kept. -/
def NoneForgotten (s : Follower × List (ℕ × Bool)) : FollowAction → Prop
  | .text data => control key data = .broadcasting true →
    ∀ t ∈ s.1.timers, s.1.ending = some t.handle
  | _ => True

/-- The invariant of a follow: a timer that is armed has been armed since the broadcaster
left, at least the grace period before it is due. -/
structure Armed (s : Follower × List (ℕ × Bool)) : Prop where
  heard : ∀ m ∈ s.2, m.1 ≤ s.1.now
  last : s.1.timers ≠ [] → s.2.getLast?.map Prod.snd = some false
  due : ∀ t ∈ s.1.timers, ∀ m ∈ s.2, m.2 = true → m.1 + gracePeriod ≤ t.due
  honoured : GraceHonoured s

variable {aes key} {s s' : Follower} {heard : List (ℕ × Bool)}

theorem armed_start : Armed (start, []) := ⟨nofun, nofun, nofun, nofun⟩

/-- A step that arms no timer and ends the follow, if it does, out of a handler. -/
structure Quiet (s s' : Follower) : Prop where
  now : s'.now = s.now
  timers : s'.timers ⊆ s.timers
  ended : s'.ended = s.ended ∨ ∃ message, s'.ended = some (.stopped message)

theorem Quiet.refl (s : Follower) : Quiet s s := ⟨rfl, List.Subset.refl _, Or.inl rfl⟩

theorem timers_clearTimeout (s : Follower) : s.clearTimeout.timers ⊆ s.timers :=
  List.filter_subset_self _

theorem quiet_stop (s : Follower) (message : Option String) : Quiet s (s.stop message) :=
  ⟨rfl, timers_clearTimeout s, Or.inr ⟨message, rfl⟩⟩

theorem quiet_onBinary (s : Follower) (data : Bytes) : Quiet s (s.onBinary aes key data) := by
  unfold onBinary
  split
  · exact Quiet.refl s
  · exact ⟨rfl, timers_clearTimeout s, Or.inr ⟨_, rfl⟩⟩
  · dsimp only
    split_ifs <;> exact ⟨rfl, List.Subset.refl _, Or.inl rfl⟩

/-- A quiet step that brings no broadcasting message keeps the invariant. -/
theorem Armed.quiet (h : Armed (s, heard)) (hlive : s.ended = none) (hquiet : Quiet s s') :
    Armed (s', heard) := by
  refine ⟨?_, ?_, ?_, ?_⟩
  · intro m hm
    rw [hquiet.now]
    exact h.heard m hm
  · intro hne
    apply h.last
    intro hnil
    have hsub := hquiet.timers
    rw [hnil] at hsub
    exact hne (List.subset_nil.mp hsub)
  · intro t ht
    exact h.due t (hquiet.timers ht)
  · intro hgrace
    rcases hquiet.ended with hsame | ⟨message, hstopped⟩
    · rw [hsame, hlive] at hgrace
      cases hgrace
    · rw [hstopped] at hgrace
      cases hgrace

/-- A broadcaster that leaves makes every armed timer honest. -/
theorem Armed.left (h : Armed (s, heard)) (hlive : s.ended = none) :
    Armed (s, heard ++ [(s.now, false)]) := by
  refine ⟨?_, ?_, ?_, ?_⟩
  · intro m hm
    rcases List.mem_append.mp hm with hm | hm
    · exact h.heard m hm
    · rw [List.mem_singleton.mp hm]
  · intro _
    simp
  · intro t ht m hm htrue
    rcases List.mem_append.mp hm with hm | hm
    · exact h.due t ht m hm htrue
    · rw [List.mem_singleton.mp hm] at htrue
      cases htrue
  · intro hgrace
    rw [hlive] at hgrace
    cases hgrace

/-- The grace period that starts is over after the last time the broadcaster came back. -/
theorem Armed.armGrace (h : Armed (s, heard)) (hlive : s.ended = none)
    (hlast : heard.getLast?.map Prod.snd = some false) : Armed (s.armGrace, heard) := by
  refine ⟨h.heard, fun _ => hlast, ?_, ?_⟩
  · intro t ht m hm htrue
    rcases List.mem_append.mp ht with ht | ht
    · exact h.due t ht m hm htrue
    · -- the new timer is due a grace period after everything that was heard
      have hnow := h.heard m hm
      rw [List.mem_singleton.mp ht]
      exact Nat.add_le_add_right hnow gracePeriod
  · intro hgrace
    have hnone : s.armGrace.ended = none := hlive
    rw [hnone] at hgrace
    cases hgrace

/-- A broadcaster that comes back takes back the only timer. -/
theorem Armed.cameBack (h : Armed (s, heard)) (hlive : s.ended = none)
    (hkept : ∀ t ∈ s.timers, s.ending = some t.handle) :
    Armed ({ s.clearTimeout with ending := none }, heard ++ [(s.now, true)]) := by
  -- so no timer is left that could fire while the broadcaster is back
  have hnone : s.clearTimeout.timers = [] := by
    apply List.filter_eq_nil_iff.mpr
    intro t ht
    simp [hkept t ht]
  refine ⟨?_, ?_, ?_, ?_⟩
  · intro m hm
    rcases List.mem_append.mp hm with hm | hm
    · exact h.heard m hm
    · rw [List.mem_singleton.mp hm]
      exact Nat.le_refl s.now
  · intro hne
    exact absurd hnone hne
  · intro t ht
    have hin : t ∈ s.clearTimeout.timers := ht
    rw [hnone] at hin
    cases hin
  · intro hgrace
    have hsame : s.ended = some .graceOver := hgrace
    rw [hlive] at hsame
    cases hsame

theorem armed_text (h : Armed (s, heard)) (hlive : s.ended = none) (data : String)
    (hkept : NoneForgotten key (s, heard) (.text data)) :
    Armed (s.onText key data, noteBroadcasting key s (.text data) s' heard) := by
  unfold onText noteBroadcasting
  dsimp only
  cases hcontrol : control key data with
  | encryptedWithoutKey => exact h.quiet hlive (quiet_stop s _)
  | usersCount => exact h.quiet hlive ⟨rfl, List.Subset.refl _, Or.inl rfl⟩
  | other => exact h
  | broadcasting live =>
    cases live with
    | true => exact h.cameBack hlive (hkept hcontrol)
    | false =>
      have hleft := h.left hlive
      dsimp only
      split_ifs
      · exact hleft.armGrace hlive (by simp)
      · exact hleft.quiet hlive (quiet_stop s _)
      · exact hleft.quiet hlive (quiet_stop s _)

theorem armed_step {s s' : Follower × List (ℕ × Bool)} {a : FollowAction} (h : Armed s)
    (hkept : NoneForgotten key s a)
    (hstep : withHistory (step aes key) (noteBroadcasting key) s a = some s') : Armed s' := by
  obtain ⟨s, heard⟩ := s
  obtain ⟨s', heard'⟩ := s'
  obtain ⟨hs', hheard⟩ := withHistory_eq_some.mp hstep
  dsimp only at hs' hheard
  unfold step at hs'
  have hlive : s.ended = none := by
    split_ifs at hs' with hended
    simpa using hended
  rw [if_neg (by simp [hlive])] at hs'
  rw [hheard]
  cases a with
  | text data =>
    obtain rfl := Option.some.inj hs'
    exact armed_text h hlive data hkept
  | binary data =>
    obtain rfl := Option.some.inj hs'
    exact h.quiet hlive (quiet_onBinary s data)
  | elapse ms =>
    obtain rfl := Option.some.inj hs'
    refine ⟨?_, h.last, h.due, ?_⟩
    · intro m hm
      exact (h.heard m hm).trans (Nat.le_add_right s.now ms)
    · intro hgrace
      have hsame : s.ended = some .graceOver := hgrace
      rw [hlive] at hsame
      cases hsame
  | fire handle =>
    dsimp only at hs'
    split_ifs at hs' with hdue
    obtain rfl := Option.some.inj hs'
    obtain ⟨t, ht, hfires⟩ := List.any_eq_true.mp hdue
    have hle : t.due ≤ s.now := by
      simp only [Bool.and_eq_true, decide_eq_true_eq] at hfires
      exact hfires.2
    have hlast := h.last (List.ne_nil_of_mem ht)
    refine ⟨h.heard, fun _ => hlast, ?_, ?_⟩
    · intro t' ht'
      exact h.due t' (timers_clearTimeout s ht')
    · intro _
      refine ⟨hlast, fun m hm htrue => ?_⟩
      calc m.1 + gracePeriod ≤ t.due := h.due t ht m hm htrue
        _ ≤ s.now := hle

/-- A message that the broadcaster is back, found while a forgotten timer is armed, is
followed by the end that the timer makes of the live follow. -/
theorem forgotten_fires {p : Follower × List (ℕ × Bool)} {data : String} {t : Timer}
    (hlive : p.1.ended = none) (hback : control key data = .broadcasting true)
    (ht : t ∈ p.1.timers) (hforgotten : p.1.ending ≠ some t.handle) :
    ∃ p', run (withHistory (step aes key) (noteBroadcasting key)) p
        [.text data, .elapse (t.due - p.1.now), .fire t.handle] = some p' ∧
      ¬GraceHonoured p' := by
  obtain ⟨s, heard⟩ := p
  dsimp only at hlive ht hforgotten
  -- the message, then time until the timer is due, then the timer
  let back : Follower := { s.clearTimeout with ending := none }
  let later : Follower := { back with now := s.now + (t.due - s.now) }
  let told := heard ++ [(s.now, true)]
  have htext : withHistory (step aes key) (noteBroadcasting key) (s, heard) (.text data) =
      some (back, told) := by
    rw [withHistory_eq_some]
    simp [step, onText, noteBroadcasting, hlive, hback, back, told]
  have helapse : withHistory (step aes key) (noteBroadcasting key) (back, told)
      (.elapse (t.due - s.now)) = some (later, told) := by
    rw [withHistory_eq_some]
    have hopen : back.ended = none := hlive
    have hnow : back.now = s.now := rfl
    simp [step, noteBroadcasting, hopen, hnow, later]
  have hfire : withHistory (step aes key) (noteBroadcasting key) (later, told) (.fire t.handle) =
      some ({ later.clearTimeout with ended := some .graceOver }, told) := by
    rw [withHistory_eq_some]
    have hopen : later.ended = none := hlive
    -- `clearTimeout` was not given its handle
    have harmed : t ∈ later.timers := by
      apply List.mem_filter.mpr
      exact ⟨ht, by simpa using hforgotten⟩
    have hdue : t.due ≤ later.now := by
      show t.due ≤ s.now + (t.due - s.now)
      omega
    have hany : (later.timers.any fun u => u.handle = t.handle && u.due ≤ later.now) = true := by
      apply List.any_eq_true.mpr
      exact ⟨t, harmed, by simp [hdue]⟩
    simp [step, noteBroadcasting, hopen, hany]
  refine ⟨({ later.clearTimeout with ended := some .graceOver }, told), ?_, ?_⟩
  · rw [run_cons_eq_some]
    refine ⟨_, htext, ?_⟩
    rw [run_cons_eq_some]
    refine ⟨_, helapse, ?_⟩
    rw [run_cons_eq_some]
    exact ⟨_, hfire, rfl⟩
  · intro hhonoured
    have hlast := (hhonoured rfl).1
    simp [told] at hlast

/-- In every run in which a broadcaster that comes back finds no forgotten timer the grace
period is honoured. Wherever it finds one, the run can go on to where it is not. -/
theorem grace_honoured_iff (aes : Aes256Gcm Key) (key : Option Key) (as : List FollowAction) :
    (StepsSatisfy (withHistory (step aes key) (noteBroadcasting key)) (NoneForgotten key)
        (start, []) as →
      StatesSatisfy (withHistory (step aes key) (noteBroadcasting key)) GraceHonoured
        (start, []) as) ∧
      ∀ p, run (withHistory (step aes key) (noteBroadcasting key)) (start, []) as = some p →
        p.1.ended = none → ∀ a, ¬NoneForgotten key p a →
          ∃ more p', run (withHistory (step aes key) (noteBroadcasting key)) p (a :: more) =
            some p' ∧ ¬GraceHonoured p' := by
  constructor
  · intro hC
    apply states_of_invariant (I := Armed) _ (fun s h => h.honoured) armed_start hC
    exact fun s a s' h hkept hstep => armed_step h hkept hstep
  · intro p _ hlive a hbreaks
    cases a with
    | text data =>
      simp only [NoneForgotten, Classical.not_imp, not_forall] at hbreaks
      obtain ⟨hback, t, ht, hforgotten⟩ := hbreaks
      obtain ⟨p', hrun, hdis⟩ := forgotten_fires hlive hback ht hforgotten
      exact ⟨_, p', hrun, hdis⟩
    | binary data => exact absurd trivial hbreaks
    | elapse ms => exact absurd trivial hbreaks
    | fire handle => exact absurd trivial hbreaks

end Key

def noKey : Option UInt8 := none

def usersCountText : String := "\x7b\"usersCount\":1\x7d"
def broadcastingText (live : Bool) : String :=
  "\x7b\"broadcasting\":" ++ (if live then "true" else "false") ++ "\x7d"

/-- A broadcaster leaves, comes back, and leaves for good. -/
def leaveBackLeave : List FollowAction :=
  [.text usersCountText, .text (broadcastingText false), .elapse 4999,
    .text (broadcastingText true), .text (broadcastingText false), .elapse 5000, .fire 1]

instance decidableNoneForgotten {Key : Type} (key : Option Key) (s : Follower × List (ℕ × Bool)) :
    ∀ a, Decidable (NoneForgotten key s a)
  | .text data => inferInstanceAs (Decidable (control key data = .broadcasting true →
      ∀ t ∈ s.1.timers, s.1.ending = some t.handle))
  | .binary _ | .elapse _ | .fire _ => inferInstanceAs (Decidable True)

/-- The timer that is armed last ends the follow. -/
theorem grace_honoured_leave_back_leave :
    (run (withHistory (step tagged noKey) (noteBroadcasting noKey)) (start, [])
        leaveBackLeave).map (fun p => p.1.ended) = some (some .graceOver) ∧
      StatesSatisfy (withHistory (step tagged noKey) (noteBroadcasting noKey)) GraceHonoured
        (start, []) leaveBackLeave :=
  ⟨by decide +kernel, (grace_honoured_iff tagged noKey leaveBackLeave).1 (by decide +kernel)⟩

/-- Two broadcasters leave one after the other, and one comes back. -/
def leaveLeaveBack : List FollowAction :=
  [.text usersCountText, .text (broadcastingText false), .elapse 1000,
    .text (broadcastingText false), .elapse 1000, .text (broadcastingText true), .elapse 3000,
    .fire 0]

/-- The timer of the first ends the follow while the broadcaster is back. -/
theorem forgotten_timer_ends_follow :
    ∃ p, run (withHistory (step tagged noKey) (noteBroadcasting noKey)) (start, []) leaveLeaveBack =
      some p ∧ ¬GraceHonoured p := by
  have hrun : (run (withHistory (step tagged noKey) (noteBroadcasting noKey)) (start, [])
      leaveLeaveBack).any (fun p => p.1.ended = some .graceOver &&
        p.2.getLast?.map Prod.snd = some true) = true := by decide +kernel
  obtain ⟨p, hp, hend⟩ := (Option.any_eq_true _ _).mp hrun
  rw [Bool.and_eq_true, decide_eq_true_eq, decide_eq_true_eq] at hend
  refine ⟨p, hp, fun hhonoured => ?_⟩
  have hlast := (hhonoured hend.1).1
  rw [hend.2] at hlast
  cases hlast

end Follower
end Shellshare
