import Mathlib.Data.List.Basic
import Mathlib.Data.Option.Basic
import Mathlib.Logic.Function.Basic
import Shellshare.TransitionRuns

/-! The private cache of an HTTP client, in front of origins that answer conditional
requests. Whatever origin answers which request, what the cache hands out is what some
origin had, at a time no further back than that origin allowed. -/
namespace HttpCache
open TransitionRuns

variable {O U V B : Type*}

/-- An origin's answer to a request that names the validator of what is held, if anything is. -/
inductive Reply (V B : Type*) where
  | ok (body : B) (tag : V) (lifetime : ℕ)
  | notModified (tag : V) (lifetime : ℕ)
  | failed

structure Entry (V B : Type*) where
  body : B
  tag : V
  storedAt : ℕ
  lifetime : ℕ

structure Cache (U V B : Type*) where
  entries : U → Option (Entry V B)
  now : ℕ

/-- A cache that holds nothing yet. -/
def Cache.empty : Cache U V B := ⟨fun _ => none, 0⟩

/-- The stored response that may be used without a request. -/
def Cache.fresh (c : Cache U V B) (u : U) : Option (Entry V B) :=
  (c.entries u).filter fun e => c.now < e.storedAt + e.lifetime

inductive Action (O U : Type*) where
  | elapse (d : ℕ)
  /-- The cache may drop what it holds at any time. -/
  | evict (u : U)
  | load (u : U) (o : O)
  /-- The user reloads: the origin is asked in any case. -/
  | reload (u : U) (o : O)

section Load
variable [DecidableEq U] (reply : O → U → Option V → Reply V B)

def Cache.store (c : Cache U V B) (u : U) (e : Option (Entry V B)) : Cache U V B :=
  { c with entries := Function.update c.entries u e }

/-- Ask the origin, with the validator of what is stored. -/
def Cache.ask (c : Cache U V B) (o : O) (u : U) : Cache U V B × Option B :=
  match reply o u ((c.entries u).map Entry.tag) with
  | .ok body tag lifetime => (c.store u (some ⟨body, tag, c.now, lifetime⟩), some body)
  | .notModified tag lifetime =>
    -- the headers are renewed, the body stays
    let renewed := (c.entries u).map fun e =>
      { e with tag := tag, storedAt := c.now, lifetime := lifetime }
    (c.store u renewed, renewed.map Entry.body)
  | .failed => (c.store u none, none)

def Cache.load (c : Cache U V B) (o : O) (u : U) : Cache U V B × Option B :=
  match c.fresh u with
  | some e => (c, some e.body)
  | none => c.ask reply o u

def step (c : Cache U V B) : Action O U → Option (Cache U V B)
  | .elapse d => some { c with now := c.now + d }
  | .evict u => some (c.store u none)
  | .load u o => some (c.load reply o u).1
  | .reload u o => some (c.ask reply o u).1

/-- Who was asked for what, and when. -/
def noteAsked (c : Cache U V B) (a : Action O U) (_ : Cache U V B) (asked : List (ℕ × U × O)) :
    List (ℕ × U × O) :=
  match a with
  | .load u o => if (c.fresh u).isSome then asked else (c.now, u, o) :: asked
  | .reload u o => (c.now, u, o) :: asked
  | .elapse _ | .evict _ => asked

end Load

/-- What the answers say is so: `has` is what an origin holds, `grants` for how long it
lets it be used, and `Names` the validators of a body. -/
structure Honest (reply : O → U → Option V → Reply V B) (has : O → U → Option B)
    (grants : O → U → ℕ) (Names : U → V → B → Prop) : Prop where
  ok : ∀ {o u asked body tag lifetime}, reply o u asked = .ok body tag lifetime →
    has o u = some body ∧ Names u tag body ∧ lifetime = grants o u
  notModified : ∀ {o u asked body tag lifetime}, reply o u (some asked) = .notModified tag lifetime →
    Names u asked body → has o u = some body ∧ Names u tag body ∧ lifetime = grants o u

section Vouched
variable {reply : O → U → Option V → Reply V B} {has : O → U → Option B} {grants : O → U → ℕ}
  {Names : U → V → B → Prop} {c c' : Cache U V B} {asked : List (ℕ × U × O)} {o : O} {u : U} {x : B}

/-- Some origin that was asked stands behind the entry. -/
def Backed (has : O → U → Option B) (grants : O → U → ℕ) (asked : List (ℕ × U × O)) (u : U)
    (e : Entry V B) : Prop :=
  ∃ o, (e.storedAt, u, o) ∈ asked ∧ has o u = some e.body ∧ e.lifetime = grants o u

/-- Everything that is stored is backed, under a validator that names it. -/
def Vouched (has : O → U → Option B) (grants : O → U → ℕ) (Names : U → V → B → Prop)
    (c : Cache U V B) (asked : List (ℕ × U × O)) : Prop :=
  ∀ u e, c.entries u = some e →
    Names u e.tag e.body ∧ e.storedAt ≤ c.now ∧ Backed has grants asked u e

theorem Cache.fresh_eq_some {e : Entry V B} :
    c.fresh u = some e ↔ c.entries u = some e ∧ c.now < e.storedAt + e.lifetime := by
  simp [fresh, Option.filter_eq_some_iff]

theorem vouched_empty : Vouched has grants Names (Cache.empty : Cache U V B) asked := by
  intro u e he
  cases he

theorem Backed.mono {e : Entry V B} (h : Backed has grants asked u e) (q : ℕ × U × O) :
    Backed has grants (q :: asked) u e := by
  obtain ⟨o, hmem, hrest⟩ := h
  exact ⟨o, List.mem_cons_of_mem q hmem, hrest⟩

theorem Vouched.mono (h : Vouched has grants Names c asked) (q : ℕ × U × O) :
    Vouched has grants Names c (q :: asked) :=
  fun u e he => ⟨(h u e he).1, (h u e he).2.1, (h u e he).2.2.mono q⟩

variable [DecidableEq U]

theorem Vouched.store (h : Vouched has grants Names c asked) (u : U) (stored : Option (Entry V B))
    (hstored : ∀ e, stored = some e →
      Names u e.tag e.body ∧ e.storedAt ≤ c.now ∧ Backed has grants asked u e) :
    Vouched has grants Names (c.store u stored) asked := by
  intro u' e he
  by_cases hu : u' = u
  · subst hu
    apply hstored e
    simpa [Cache.store] using he
  · apply h u' e
    simpa [Cache.store, hu] using he

/-- An answer leaves a vouched entry behind, and hands out what the origin has. -/
theorem Vouched.ask (hreply : Honest reply has grants Names) (h : Vouched has grants Names c asked)
    (o : O) (u : U) :
    Vouched has grants Names (c.ask reply o u).1 ((c.now, u, o) :: asked) ∧
      ∀ x, (c.ask reply o u).2 = some x → has o u = some x := by
  have hgrown := h.mono (c.now, u, o)
  unfold Cache.ask
  split
  · rename_i body tag lifetime hok
    obtain ⟨hhas, hnames, hlifetime⟩ := hreply.ok hok
    refine ⟨hgrown.store u _ ?_, fun x hx => ?_⟩
    · rintro e ⟨⟩
      exact ⟨hnames, Nat.le_refl _, o, List.mem_cons_self, hhas, hlifetime⟩
    · rw [← Option.some.inj hx]
      exact hhas
  · rename_i tag lifetime hnot
    cases hstored : c.entries u with
    | none => exact ⟨hgrown.store u _ (by rintro e ⟨⟩), by rintro x ⟨⟩⟩
    | some e =>
      rw [hstored] at hnot
      obtain ⟨hhas, hnames, hlifetime⟩ := hreply.notModified hnot (h u e hstored).1
      refine ⟨hgrown.store u _ ?_, fun x hx => ?_⟩
      · rintro e' ⟨⟩
        exact ⟨hnames, Nat.le_refl _, o, List.mem_cons_self, hhas, hlifetime⟩
      · rw [← Option.some.inj hx]
        exact hhas
  · exact ⟨hgrown.store u _ (by rintro e ⟨⟩), by rintro x ⟨⟩⟩

theorem vouched_step (hreply : Honest reply has grants Names) (h : Vouched has grants Names c asked)
    {a : Action O U} (hstep : step reply c a = some c') :
    Vouched has grants Names c' (noteAsked c a c' asked) := by
  cases a with
  | elapse d =>
    obtain rfl := Option.some.inj hstep
    intro u e he
    obtain ⟨hnames, hbefore, hbacked⟩ := h u e he
    exact ⟨hnames, Nat.le_add_right_of_le hbefore, hbacked⟩
  | evict u =>
    obtain rfl := Option.some.inj hstep
    exact h.store u none (by rintro e ⟨⟩)
  | load u o =>
    obtain rfl := Option.some.inj hstep
    cases hfresh : c.fresh u with
    | some e => simpa [noteAsked, Cache.load, hfresh] using h
    | none => simpa [noteAsked, Cache.load, hfresh] using (h.ask hreply o u).1
  | reload u o =>
    obtain rfl := Option.some.inj hstep
    exact (h.ask hreply o u).1

theorem vouched_of_run (hreply : Honest reply has grants Names) {as : List (Action O U)}
    (hrun : run (withHistory (step reply) noteAsked) (Cache.empty, []) as = some (c, asked)) :
    Vouched has grants Names c asked := by
  have hstep : ∀ (p : Cache U V B × List (ℕ × U × O)) a p', Vouched has grants Names p.1 p.2 →
      withHistory (step reply) noteAsked p a = some p' → Vouched has grants Names p'.1 p'.2 := by
    intro p a p' hp hp'
    obtain ⟨hs, hnote⟩ := withHistory_eq_some.mp hp'
    rw [hnote]
    exact vouched_step hreply hp hs
  exact run_preserves hstep vouched_empty hrun

/-- What a load hands out is what the asked origin has, or, unasked, what an origin had
that was asked not longer ago than it allowed. -/
theorem load_vouched (hreply : Honest reply has grants Names) (h : Vouched has grants Names c asked)
    (hload : (c.load reply o u).2 = some x) :
    c.fresh u = none ∧ has o u = some x ∨
      ∃ t o', (t, u, o') ∈ asked ∧ has o' u = some x ∧ t ≤ c.now ∧ c.now < t + grants o' u := by
  cases hfresh : c.fresh u with
  | none =>
    rw [Cache.load, hfresh] at hload
    exact Or.inl ⟨rfl, (h.ask hreply o u).2 x hload⟩
  | some e =>
    rw [Cache.load, hfresh] at hload
    obtain ⟨hstored, hlive⟩ := Cache.fresh_eq_some.mp hfresh
    obtain ⟨-, hbefore, o', hmem, hhas, hlifetime⟩ := h u e hstored
    obtain rfl := Option.some.inj hload
    exact Or.inr ⟨e.storedAt, o', hmem, hhas, hbefore, hlifetime ▸ hlive⟩

end Vouched

end HttpCache
