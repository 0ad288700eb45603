import Mathlib.Data.List.Infix

/-! Merging adjacent byte frames of a stream that also carries control frames:
what a merged stream keeps of the original one, and how a buffering writer
produces it. -/
namespace FrameCoalescing

variable {α κ : Type*}

inductive Frame (α κ : Type*) where
  | bytes (payload : List α)
  | control (c : κ)
deriving DecidableEq

namespace Frame

/-- The bytes a frame carries. -/
def content : Frame α κ → List α
  | bytes payload => payload
  | control _ => []

end Frame

def glue (payload : List α) : List (Frame α κ) → List (Frame α κ)
  | .bytes next :: frames => .bytes (payload ++ next) :: frames
  | frames => .bytes payload :: frames

/-- The stream with every run of adjacent byte frames joined into one frame. -/
def joined : List (Frame α κ) → List (Frame α κ)
  | [] => []
  | .control c :: frames => .control c :: joined frames
  | .bytes payload :: frames => glue payload (joined frames)

/-- `Coalesces Q I O`: the controls of `I` stand in `O` one to one, and every
byte frame of `O` concatenates a nonempty run of byte frames of `I` that `Q` allows. -/
inductive Coalesces (Q : List (List α) → Prop) : List (Frame α κ) → List (Frame α κ) → Prop where
  | nil : Coalesces Q [] []
  | control (c : κ) {I O : List (Frame α κ)} (h : Coalesces Q I O) :
    Coalesces Q (.control c :: I) (.control c :: O)
  | bytes {group : List (List α)} (hne : group ≠ []) (hQ : Q group) {I O : List (Frame α κ)}
    (h : Coalesces Q I O) : Coalesces Q (group.map Frame.bytes ++ I) (.bytes group.flatten :: O)

/-- Every merge. -/
abbrev AnyGroup (_ : List (List α)) : Prop := True

/-- At most `cap` bytes, or a single payload whatever its length. -/
def Fits (cap : ℕ) (group : List (List α)) : Prop :=
  group.flatten.length ≤ cap ∨ group.length = 1

variable {Q R : List (List α) → Prop} {I I₁ I₂ M O O₁ O₂ : List (Frame α κ)}

theorem glue_glue (p q : List α) (frames : List (Frame α κ)) :
    glue p (glue q frames) = glue (p ++ q) frames := by
  rcases frames with _ | ⟨f, frames⟩
  · rfl
  · cases f <;> simp [glue]

theorem joined_map_bytes_append (group : List (List α)) (hne : group ≠ [])
    (I : List (Frame α κ)) :
    joined (group.map Frame.bytes ++ I) = joined (.bytes group.flatten :: I) := by
  induction group with
  | nil => exact absurd rfl hne
  | cons payload group ih =>
    by_cases hrest : group = []
    · subst hrest
      simp
    · have hjoin := ih hrest
      simp only [joined] at hjoin
      simp only [List.map_cons, List.cons_append, joined, hjoin, glue_glue, List.flatten_cons]

/-- Merging is invisible to a reader that joins adjacent byte frames. -/
theorem Coalesces.joined_eq (h : Coalesces Q I O) : joined O = joined I := by
  induction h with
  | nil => rfl
  | control c _ ih => simp only [joined, ih]
  | bytes hne _ _ ih =>
    rw [joined_map_bytes_append _ hne]
    simp only [joined, ih]

theorem Coalesces.append (h₁ : Coalesces Q I₁ O₁) (h₂ : Coalesces Q I₂ O₂) :
    Coalesces Q (I₁ ++ I₂) (O₁ ++ O₂) := by
  induction h₁ with
  | nil => exact h₂
  | control c _ ih => exact .control c ih
  | bytes hne hQ _ ih =>
    rw [List.append_assoc]
    exact .bytes hne hQ ih

/-- A cut of the merged stream is a cut of the original one. -/
theorem Coalesces.split {O : List (Frame α κ)} (h : Coalesces Q I O) (hO : O = O₁ ++ O₂) :
    ∃ I₁ I₂, I = I₁ ++ I₂ ∧ Coalesces Q I₁ O₁ ∧ Coalesces Q I₂ O₂ := by
  induction h generalizing O₁ with
  | nil =>
    obtain ⟨rfl, rfl⟩ := List.append_eq_nil_iff.mp hO.symm
    exact ⟨[], [], rfl, .nil, .nil⟩
  | control c h ih =>
    rcases List.cons_eq_append_iff.mp hO with ⟨rfl, rfl⟩ | ⟨rest, rfl, hrest⟩
    · exact ⟨[], _, rfl, .nil, .control c h⟩
    · obtain ⟨I₁, I₂, rfl, h₁, h₂⟩ := ih hrest
      exact ⟨_, I₂, rfl, .control c h₁, h₂⟩
  | bytes hne hQ h ih =>
    rcases List.cons_eq_append_iff.mp hO with ⟨rfl, rfl⟩ | ⟨rest, rfl, hrest⟩
    · exact ⟨[], _, rfl, .nil, .bytes hne hQ h⟩
    · obtain ⟨I₁, I₂, rfl, h₁, h₂⟩ := ih hrest
      exact ⟨_, I₂, (List.append_assoc _ _ _).symm, .bytes hne hQ h₁, h₂⟩

/-- A merged run of bytes comes from a run of bytes. -/
theorem Coalesces.of_map_bytes {O : List (Frame α κ)} (h : Coalesces Q I O)
    {group : List (List α)} (hO : O = group.map Frame.bytes) :
    ∃ payloads : List (List α), I = payloads.map Frame.bytes ∧
      payloads.flatten = group.flatten ∧ (group ≠ [] → payloads ≠ []) := by
  induction h generalizing group with
  | nil =>
    obtain rfl := List.map_eq_nil_iff.mp hO.symm
    exact ⟨[], rfl, rfl, id⟩
  | control c h ih =>
    cases group with
    | nil => cases hO
    | cons _ _ => simp at hO
  | @bytes part hne hQ I O h ih =>
    cases group with
    | nil => cases hO
    | cons payload group =>
      simp only [List.map_cons, List.cons.injEq, Frame.bytes.injEq] at hO
      obtain ⟨hpart, hrest⟩ := hO
      -- the first frame was merged from `part`, the others as the induction says
      obtain ⟨payloads, rfl, hflat, -⟩ := ih hrest
      refine ⟨part ++ payloads, by simp, by simp [hpart, hflat], fun _ => ?_⟩
      simp [hne]

theorem Coalesces.control_inv {c : κ} {O : List (Frame α κ)} (h : Coalesces Q I O)
    (hO : O = .control c :: O₁) : ∃ I₁, I = .control c :: I₁ ∧ Coalesces Q I₁ O₁ := by
  cases h with
  | nil => cases hO
  | control d h =>
    obtain ⟨hd, rfl⟩ := List.cons.inj hO
    cases hd
    exact ⟨_, rfl, h⟩
  | bytes => cases hO

/-- Two stages of merging are one, with the caps of neither. -/
theorem Coalesces.trans (h₁ : Coalesces Q I M) (h₂ : Coalesces R M O) :
    Coalesces AnyGroup I O := by
  induction h₂ generalizing I with
  | nil =>
    cases h₁
    exact .nil
  | control c _ ih =>
    obtain ⟨I₁, rfl, h⟩ := h₁.control_inv rfl
    exact .control c (ih h)
  | bytes hne _ _ ih =>
    -- the run that the second stage merged was merged from runs by the first one
    obtain ⟨J₁, J₂, rfl, hgroup, hrest⟩ := h₁.split rfl
    obtain ⟨payloads, rfl, hflat, hpay⟩ := hgroup.of_map_bytes rfl
    rw [← hflat]
    exact .bytes (hpay hne) trivial (ih hrest)

/-- A merged frame concatenates whole payloads that stood together. -/
theorem Coalesces.whole (h : Coalesces Q I O) {payload : List α} (hmem : Frame.bytes payload ∈ O) :
    ∃ group, group ≠ [] ∧ Q group ∧ payload = group.flatten ∧ group.map Frame.bytes <:+: I := by
  obtain ⟨O₁, O₂, rfl⟩ := List.append_of_mem hmem
  obtain ⟨I₁, I₂, rfl, -, h₂⟩ := h.split rfl
  rcases h₂ with _ | _ | ⟨hne, hQ, h₂⟩
  exact ⟨_, hne, hQ, rfl, ⟨I₁, _, List.append_assoc _ _ _⟩⟩

/-- A reading of frames that cannot tell a run of payloads from one payload. -/
def Additive {β : Type*} (g : Frame α κ → List β) : Prop :=
  ∀ group : List (List α), g (.bytes group.flatten) = group.flatMap fun p => g (.bytes p)

theorem additive_content : Additive (Frame.content : Frame α κ → List α) := by
  intro group
  simp [Frame.content]

/-- Such a reading is the same of the merged stream. -/
theorem Coalesces.flatMap_eq {β : Type*} {g : Frame α κ → List β} (h : Coalesces Q I O)
    (hg : Additive g) : O.flatMap g = I.flatMap g := by
  induction h with
  | nil => rfl
  | control c _ ih => simp only [List.flatMap_cons, ih]
  | bytes hne _ _ ih =>
    rw [List.flatMap_cons, List.flatMap_append, List.flatMap_map, ih, hg]

/-- What a buffering writer keeps to: all of `I` is written to `O`, merged, but
for the payloads it still buffers. -/
def Buffered (Q : List (List α) → Prop) (I O : List (Frame α κ)) (chunks : List (List α)) :
    Prop :=
  ∃ J, I = J ++ chunks.map Frame.bytes ∧ Coalesces Q J O ∧ (chunks ≠ [] → Q chunks)

theorem buffered_nil_iff : Buffered Q I O [] ↔ Coalesces Q I O := by
  constructor
  · rintro ⟨J, rfl, h, -⟩
    simpa using h
  · exact fun h => ⟨I, by simp, h, nofun⟩

theorem Buffered.push {chunks : List (List α)} {payload : List α} (h : Buffered Q I O chunks)
    (hQ : Q (chunks ++ [payload])) :
    Buffered Q (I ++ [.bytes payload]) O (chunks ++ [payload]) := by
  obtain ⟨J, rfl, hJ, -⟩ := h
  exact ⟨J, by simp, hJ, fun _ => hQ⟩

theorem Buffered.flush {chunks : List (List α)} (h : Buffered Q I O chunks)
    (hne : chunks ≠ []) : Coalesces Q I (O ++ [.bytes chunks.flatten]) := by
  obtain ⟨J, rfl, hJ, hQ⟩ := h
  refine hJ.append ?_
  have hnil : Coalesces Q ([] : List (Frame α κ)) [] := .nil
  have hlast := Coalesces.bytes hne (hQ hne) hnil
  rwa [List.append_nil] at hlast

/-- What was written before a cut merges all that came before it. -/
theorem Buffered.split {chunks : List (List α)} (h : Buffered Q I (O₁ ++ O₂) chunks) :
    ∃ I₁ I₂, I = I₁ ++ I₂ ∧ Coalesces Q I₁ O₁ ∧ Buffered Q I₂ O₂ chunks := by
  obtain ⟨J, rfl, hJ, hQ⟩ := h
  obtain ⟨J₁, J₂, rfl, h₁, h₂⟩ := hJ.split rfl
  exact ⟨J₁, _, List.append_assoc _ _ _, h₁, J₂, rfl, h₂, hQ⟩

theorem Buffered.eq_nil {chunks : List (List α)} (h : Buffered Q ([] : List (Frame α κ)) O chunks) :
    O = [] := by
  obtain ⟨J, hJ, hO, -⟩ := h
  obtain ⟨rfl, -⟩ := List.append_eq_nil_iff.mp hJ.symm
  generalize hI : ([] : List (Frame α κ)) = I at hO
  cases hO with
  | nil => rfl
  | control c => cases hI
  | bytes hne =>
    -- a merged frame has at least one payload, but nothing came in
    have hgroup := (List.append_eq_nil_iff.mp hI.symm).1
    exact absurd (List.map_eq_nil_iff.mp hgroup) hne

theorem Buffered.flatMap_eq {β : Type*} {g : Frame α κ → List β} {chunks : List (List α)}
    (h : Buffered Q I O chunks) (hg : Additive g) :
    I.flatMap g = O.flatMap g ++ chunks.flatMap fun p => g (.bytes p) := by
  obtain ⟨J, rfl, hJ, -⟩ := h
  rw [List.flatMap_append, List.flatMap_map, hJ.flatMap_eq hg]

theorem Coalesces.write_control (h : Coalesces Q I O) (c : κ) :
    Coalesces Q (I ++ [.control c]) (O ++ [.control c]) :=
  h.append (.control c .nil)

theorem fits_singleton (cap : ℕ) (payload : List α) : Fits cap [payload] := Or.inr rfl

end FrameCoalescing
