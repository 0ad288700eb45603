import Shellshare.ServerContent

/-! When a room's history is never held without its encrypted marker. -/
namespace Shellshare
namespace Server
open TransitionRuns

/-- Ciphertext is never held without its marker: a room with history has a
stored size that says `encrypted`. -/
def MarkerHeld (s : Server) : Prop :=
  ∀ room entry, s.rooms room = some entry → entry.messages.chunks ≠ [] →
    ∃ size, entry.size = some size ∧ sizeIsEncrypted size = true

/-- A frame that stores a size with the marker. -/
def marksEncrypted (msg : WsMessage) : Bool :=
  match request msg with
  | .store (some size) _ => sizeIsEncrypted size
  | _ => false

/-- What an encrypting client sends: every size it stores carries the marker,
and such a size precedes the first binary frame of each connection. -/
def encryptingClient (s : Server) : Action → Bool
  | .receive i msg => s.conns[i]?.all fun c => match request msg with
    | .store (some size) _ => sizeIsEncrypted size
    | .store none (some _) => c.frames.any marksEncrypted
    | _ => true
  | _ => true

/-- A binary frame with content is refused, or it finds its room present and
with a size. -/
def storesIntoSizedRoom (s : Server) : Action → Bool
  | .receive i msg => s.conns[i]?.all fun c => match request msg with
    | .store none (some message) => message.isEmpty ||
      (s.rooms c.room).any fun entry => entry.password != c.secret || entry.size.isSome
    | _ => true
  | _ => true

abbrev EncryptingClient (s : Server) (a : Action) : Prop := encryptingClient s a = true
abbrev StoresIntoSizedRoom (s : Server) (a : Action) : Prop := storesIntoSizedRoom s a = true

/-- Every stored size carries the marker, and every history is well kept. -/
structure SizesMarked (s : Server) : Prop where
  marked : ∀ room c size, s.rooms.content room = some c → c.size = some size →
    sizeIsEncrypted size = true
  kept : HistoriesKept s

theorem markerHeld_iff {s : Server} : MarkerHeld s ↔ ∀ room c, s.rooms.content room = some c →
    c.messages.chunks ≠ [] → ∃ size, c.size = some size ∧ sizeIsEncrypted size = true := by
  constructor
  · intro h room c hc
    obtain ⟨entry, he, hm, hs⟩ := Rooms.content_eq_some.mp hc
    rw [← hm, ← hs]
    exact h room entry he
  · intro h room entry he
    exact h room ⟨entry.messages, entry.size⟩ (by simp [Rooms.content, he])

/-- The only size a step stores in a room is that of the frame it received. -/
theorem StoredBy.size_marked {s : Server} {a : Action} {r : RoomId} {item : FanoutItem}
    (h : StoredBy s a r item) (hclient : EncryptingClient s a) {size : Json}
    (hsize : item.size = some size) : sizeIsEncrypted size = true := by
  obtain ⟨i, msg, c, rfl, hc, -, hreq, -⟩ := h
  simpa [EncryptingClient, encryptingClient, hc, hreq, hsize] using hclient

theorem sizesMarked_step {s s' : Server} {a : Action} (h : SizesMarked s)
    (hclient : EncryptingClient s a) (hstep : s.step a = some s') : SizesMarked s' := by
  refine ⟨fun room c size hc hsize => ?_, historiesKept_step h.kept hstep⟩
  obtain ⟨items, hcontent, -, hitems⟩ := content_step hstep room
  have hmarked := h.marked room
  rw [hc] at hcontent
  generalize s.rooms.content room = before at hcontent hmarked
  cases hcontent with
  | same => exact hmarked c size rfl hsize
  | claimed => cases hsize
  | cleared c₀ => exact hmarked c₀ size rfl hsize
  | stored _ item =>
    cases hs : item.size with
    | some size' =>
      have heq : size' = size := by simpa [Content.store, hs] using hsize
      exact heq ▸ (hitems item (List.mem_singleton_self item)).size_marked hclient hs
    | none =>
      cases before with
      | none => simp [Content.store, hs, Content.empty] at hsize
      | some c₁ => exact hmarked c₁ size rfl (by simpa [Content.store, hs] using hsize)

/-- A stored message with content leaves a history that is not empty. -/
theorem store_chunks_ne_nil {s : Server} (h : HistoriesKept s) (r : RoomId) {item : FanoutItem}
    {m : Bytes} (hm : item.payload = some m) (hne : m ≠ []) :
    (((s.rooms.content r).getD .empty).store item).messages.chunks ≠ [] := by
  obtain ⟨messages, hholds⟩ : ∃ messages, MessageHistory.Holds maxHistoryMessages
      maxHistoryBytes messages ((s.rooms.content r).getD .empty).messages := by
    cases hc : s.rooms.content r with
    | none => exact ⟨[], MessageHistory.holds_new _ _⟩
    | some c =>
      obtain ⟨messages, -, hholds⟩ := h.window r c hc
      exact ⟨messages, hholds⟩
  intro hnil
  simp only [Content.store, hm, Option.elim_some] at hnil
  exact hne (((hholds.push m).chunks_eq_nil_iff (by decide)).mp hnil m (by simp))

theorem store_chunks_eq {c : Content} {item : FanoutItem}
    (hm : ∀ m, item.payload = some m → m = []) : (c.store item).messages = c.messages := by
  cases hp : item.payload with
  | none => simp [Content.store, hp]
  | some m => simp [Content.store, hp, hm m hp, MessageHistory.push]

/-- The step lemma: with encrypting clients, a step keeps the marker if and only
if the binary frame it stores, if any, reaches a room that has a size. -/
theorem markerHeld_step_iff {s s' : Server} {a : Action} (hs : SizesMarked s)
    (hclient : EncryptingClient s a) (hP : MarkerHeld s) (hstep : s.step a = some s') :
    MarkerHeld s' ↔ StoresIntoSizedRoom s a := by
  rw [markerHeld_iff] at hP ⊢
  constructor
  · intro hP'
    cases step_cases hstep with
    | receive i msg c hc hp =>
      have hstore : ∀ message, request msg = .store none (some message) → message ≠ [] →
          ∃ entry, s.rooms c.room = some entry ∧
            (entry.password ≠ c.secret ∨ entry.size.isSome = true) := by
        intro message hreq hne
        obtain ⟨-, -, -, -, -, -, ⟨-, -, hfail⟩ | ⟨size, message', hreq', -, -, hrooms, -⟩⟩ :=
          receive_spec s i c msg
        · obtain ⟨-, entry, he, hpw⟩ := hfail none (some message) hreq
          exact ⟨entry, he, Or.inl hpw⟩
        · obtain ⟨rfl, rfl⟩ : none = size ∧ some message = message' := by
            simpa [hreq] using hreq'
          have hcontent : (s.receive i c msg).rooms.content c.room = some
              (((s.rooms.content c.room).getD .empty).store ⟨c.room, none, some message⟩) := by
            rw [hrooms, Rooms.content_append_stored, if_pos rfl]
          obtain ⟨size, hsize, -⟩ := hP' c.room _ hcontent
            (store_chunks_ne_nil hs.kept c.room rfl hne)
          -- the frame brought no size, so the room had one before
          simp only [Content.store, Option.none_or] at hsize
          cases hbefore : s.rooms.content c.room with
          | none => simp [hbefore, Content.empty] at hsize
          | some c₀ =>
            obtain ⟨entry, he, -, hsz⟩ := Rooms.content_eq_some.mp hbefore
            refine ⟨entry, he, Or.inr ?_⟩
            rw [hsz, show c₀.size = some size by simpa [hbefore] using hsize]
            rfl
      simp only [StoresIntoSizedRoom, storesIntoSizedRoom, hc, Option.all_some]
      split
      · rename_i message hreq
        by_cases hne : message = []
        · simp [hne]
        · obtain ⟨entry, he, hok⟩ := hstore message hreq hne
          simpa [he, hne] using hok
      · rfl
    | handshake | elapse | attach | hangUp | publish | ack | detach | deleteRoom | evict => rfl
  · intro hC room c hc hchunks
    -- only a store leaves a history that was not there before
    obtain ⟨items, hcontent, -, hitems⟩ := content_step hstep room
    have hmarked := hs.marked room
    have hP := hP room
    rw [hc] at hcontent
    generalize hbefore : s.rooms.content room = before at hcontent hmarked hP
    cases hcontent with
    | same => exact hP c rfl hchunks
    | claimed => exact absurd rfl hchunks
    | cleared c₀ => exact absurd rfl hchunks
    | stored _ item =>
      have hby := hitems item (List.mem_singleton_self item)
      cases hsize : item.size with
      | some size => exact ⟨size, by simp [Content.store, hsize], hby.size_marked hclient hsize⟩
      | none =>
        have hsame : ((before.getD .empty).store item).size = (before.getD .empty).size := by
          simp [Content.store, hsize]
        rw [hsame]
        by_cases hquiet : ∀ m, item.payload = some m → m = []
        · -- an empty frame leaves the history as it was
          rw [store_chunks_eq hquiet] at hchunks
          cases before with
          | none => exact absurd rfl hchunks
          | some c₁ => exact hP c₁ rfl hchunks
        · simp only [not_forall] at hquiet
          obtain ⟨m, hm, hne⟩ := hquiet
          obtain ⟨i, msg, c, rfl, hci, rfl, hreq, hpw⟩ := hby
          have hauth : ∀ entry, s.rooms c.room = some entry → entry.password = c.secret :=
            fun entry he => by simpa [Rooms.entryFor, he] using hpw
          rw [hsize, hm] at hreq
          have hfound : (s.rooms c.room).any
              (fun entry => entry.password != c.secret || entry.size.isSome) = true := by
            simpa [StoresIntoSizedRoom, storesIntoSizedRoom, hci, hreq, hne] using hC
          obtain ⟨entry, he, hok⟩ := (Option.any_eq_true _ _).mp hfound
          obtain ⟨size, hsz⟩ : ∃ size, entry.size = some size := by
            simpa [hauth entry he, Option.isSome_iff_exists] using hok
          have hcontent : before = some ⟨entry.messages, entry.size⟩ := by
            rw [← hbefore]
            simp [Rooms.content, he]
          rw [hcontent] at hmarked ⊢
          exact ⟨size, hsz, hmarked _ size rfl hsz⟩

/-- With encrypting clients, ciphertext is marked in every state of a run if and
only if every binary frame the run stores finds a size in its room. -/
theorem marker_held_iff (ttl : ℕ) (as : List Action)
    (hclient : StepsSatisfy step EncryptingClient (init ttl) as) :
    StatesSatisfy step MarkerHeld (init ttl) as ↔
      StepsSatisfy step StoresIntoSizedRoom (init ttl) as := by
  have hs : SizesMarked (init ttl) := ⟨fun _ _ _ hc => (by cases hc), historiesKept_init ttl⟩
  have hP : MarkerHeld (init ttl) := fun _ _ he => (by cases he)
  exact states_iff_steps (fun _ _ _ h hc hstep => sizesMarked_step h hc hstep)
    (fun _ _ _ h hc hP hstep => markerHeld_step_iff h hc hP hstep) hs hP hclient

/-- An 80 by 24 size message as an encrypting client sends it. -/
def encryptedSize : WsMessage :=
  .text 47 (some (.object [("size", .object [("cols", .number 80), ("encrypted", .bool true),
    ("rows", .number 24)])]))

/-- A room deleted over HTTP under an encrypting client, whose next binary frame
claims it afresh, without a size. -/
def deletedUnderClient : List Action :=
  [.handshake ⟨"demo"⟩ "pw", .attach 0, .publish 0,
    .receive 0 (.text 14 (some (.object [("reset", .bool true)]))), .publish 0,
    .receive 0 encryptedSize, .publish 0, .ack 0 true,
    .receive 0 (.binary [7]), .publish 0, .ack 0 true,
    .deleteRoom ⟨"demo"⟩ "pw", .receive 0 (.binary [8])]

theorem marker_not_held :
    StepsSatisfy step EncryptingClient (init 1000) deletedUnderClient ∧
    ∃ s entry, run step (init 1000) deletedUnderClient = some s ∧
      s.rooms ⟨"demo"⟩ = some entry ∧ entry.messages.chunks = [[8]] ∧ entry.size.isNone = true :=
  ⟨by decide, _, _, rfl, rfl, rfl, rfl⟩

/-- The marker is held where no room vanishes under its client. -/
theorem marker_held_iff_plain :
    StatesSatisfy step MarkerHeld (init 1000) (deletedUnderClient.take 11) ↔
      StepsSatisfy step StoresIntoSizedRoom (init 1000) (deletedUnderClient.take 11) :=
  marker_held_iff 1000 (deletedUnderClient.take 11) (by decide)

end Server

end Shellshare
