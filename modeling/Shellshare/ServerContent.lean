import Shellshare.ServerSteps

/-! What a room shows a late joiner, its history and its size, and how every step
of the server moves it. -/
namespace Shellshare

/-- The part of an entry that a snapshot serves. -/
structure Content where
  messages : MessageHistory
  size : Option Json

namespace Content

def empty : Content := ⟨MessageHistory.new maxHistoryMessages maxHistoryBytes, none⟩

def store (c : Content) (item : FanoutItem) : Content :=
  ⟨item.payload.elim c.messages c.messages.push, item.size.or c.size⟩

/-- The ways one step may move a room's content, with the items it stores. -/
inductive Step : Option Content → List FanoutItem → Option Content → Prop where
  | same (c : Option Content) : Step c [] c
  | claimed : Step none [] (some empty)
  | removed (c : Content) : Step (some c) [] none
  | cleared (c : Content) : Step (some c) [] (some { c with messages := empty.messages })
  | stored (c : Option Content) (item : FanoutItem) :
    Step c [item] (some ((c.getD empty).store item))

end Content

namespace Rooms

def content (rooms : Rooms) (room : RoomId) : Option Content :=
  (rooms room).map fun entry => ⟨entry.messages, entry.size⟩

variable {rooms : Rooms} {now : ℕ} {room r : RoomId} {secret : String}

theorem content_eq_some {c : Content} : rooms.content r = some c ↔
    ∃ entry, rooms r = some entry ∧ entry.messages = c.messages ∧ entry.size = c.size := by
  cases c
  simp [content]

theorem content_update (entry : Option Room) :
    content (Function.update rooms room entry) r =
      if r = room then entry.map (fun e => ⟨e.messages, e.size⟩) else rooms.content r := by
  by_cases h : r = room
  · subst h
    simp [content]
  · simp [content, h]

theorem content_entryFor : (⟨(rooms.entryFor now room secret).messages,
    (rooms.entryFor now room secret).size⟩ : Content) = (rooms.content room).getD .empty := by
  cases he : rooms room <;> simp [entryFor, content, he, Room.new, Content.empty]

/-- Storing `size` and `message` is storing the item they make up. -/
theorem content_append_stored (size : Option Json) (message : Option Bytes) :
    content (Function.update rooms room
        (some ((rooms.entryFor now room secret).store now size message))) r =
      if r = room then some (((rooms.content room).getD .empty).store ⟨room, size, message⟩)
      else rooms.content r := by
  have hentry : (⟨(rooms.entryFor now room secret).messages,
      (rooms.entryFor now room secret).size⟩ : Content) = (rooms.content room).getD .empty :=
    content_entryFor
  rw [content_update, ← hentry]
  rfl

/-- An append with neither size nor message only claims a missing room. -/
theorem content_append_nothing :
    Content.Step (rooms.content r) [] ((rooms.append now room secret none none).2.content r) := by
  rcases rooms.append_cases now room secret none none with ⟨_, _, _, ha⟩ | ⟨_, _, ha⟩
  · rw [ha]
    exact .same _
  · rw [ha]
    dsimp only
    rw [content_append_stored]
    split_ifs with hr
    · subst hr
      cases hc : rooms.content r with
      | none => exact .claimed
      | some c => exact .same _
    · exact .same _

theorem content_reset :
    Content.Step (rooms.content r) [] ((rooms.reset now room secret).2.content r) := by
  unfold reset
  cases he : rooms room with
  | none => exact .same _
  | some entry =>
    dsimp only
    split_ifs
    · exact .same _
    · exact .same _
    · dsimp only
      rw [content_update]
      split_ifs with hr
      · subst hr
        have hc : rooms.content r = some ⟨entry.messages, entry.size⟩ := by simp [content, he]
        rw [hc]
        exact .cleared _
      · exact .same _

theorem content_step_of_eq_or_none {after : Option Content}
    (h : after = none ∨ after = rooms.content r) : Content.Step (rooms.content r) [] after := by
  rcases h with rfl | rfl
  · cases rooms.content r with
    | none => exact .same _
    | some c => exact .removed c
  · exact .same _

theorem content_delete :
    (rooms.delete now room secret).2.content r = none ∨
      (rooms.delete now room secret).2.content r = rooms.content r := by
  unfold delete
  cases he : rooms room with
  | none => exact Or.inr rfl
  | some entry =>
    dsimp only
    split_ifs
    · exact Or.inr rfl
    · dsimp only
      rw [content_update]
      split_ifs
      · exact Or.inl rfl
      · exact Or.inr rfl

theorem content_evictRoom {ttl : ℕ} :
    (rooms.evictRoom now ttl room).content r = none ∨
      (rooms.evictRoom now ttl room).content r = rooms.content r := by
  unfold evictRoom
  rw [content_update]
  split_ifs with hr
  · subst hr
    cases he : rooms r with
    | none => exact Or.inl rfl
    | some entry => cases hk : entry.keep now ttl <;> simp [content, he, hk]
  · exact Or.inr rfl

/-- An update of a room that keeps what its snapshot serves. -/
theorem content_update_of_same {entry entry' : Room} (he : rooms room = some entry)
    (hmessages : entry'.messages = entry.messages) (hsize : entry'.size = entry.size) :
    content (Function.update rooms room (some entry')) r = rooms.content r := by
  rw [content_update]
  split_ifs with hr
  · subst hr
    rw [content, he, Option.map_some, Option.map_some, hmessages, hsize]
  · rfl

theorem content_broadcasterConnected :
    (rooms.broadcasterConnected now room secret).2.content r = rooms.content r := by
  unfold broadcasterConnected
  cases he : rooms room with
  | none => rfl
  | some entry =>
    dsimp only
    split_ifs
    · rfl
    all_goals exact content_update_of_same he rfl rfl

theorem content_broadcasterDisconnected :
    (rooms.broadcasterDisconnected now room secret).2.content r = rooms.content r := by
  unfold broadcasterDisconnected
  cases he : rooms room with
  | none => rfl
  | some entry =>
    dsimp only
    split_ifs
    · rfl
    all_goals exact content_update_of_same he rfl rfl

end Rooms

namespace Server
open TransitionRuns LongestSuffix

/-- The items stored in a room so far, in the order they were appended. -/
def appendedTo (s : Server) (room : RoomId) : List FanoutItem :=
  (s.appended.map Stored.item).filter (fun item => item.room = room)

/-- Frames over the message cap never reach the store. -/
theorem payload_le_of_request {msg : WsMessage} {size : Option Json} {m : Bytes}
    (h : request msg = .store size (some m)) : m.length ≤ maxIngestFrame := by
  cases msg with
  | binary bytes =>
    simp only [request] at h
    split_ifs at h with hcap
    obtain ⟨-, rfl⟩ := by simpa using h
    omega
  | text len body =>
    simp only [request] at h
    split_ifs at h
    cases body with
    | none => cases h
    | some body =>
      dsimp only at h
      split_ifs at h
      split at h <;> cases h
  | ping => cases h
  | pong => cases h
  | close => cases h

theorem appendedTo_append (s : Server) (stored : Stored) (r : RoomId) :
    ({ s with appended := s.appended ++ [stored] } : Server).appendedTo r =
      s.appendedTo r ++ if stored.item.room = r then [stored.item] else [] := by
  by_cases hr : stored.item.room = r <;> simp [appendedTo, hr]

/-- The action received, on an authorized connection to room `r`, the frame that
asked for `item` to be stored. -/
def StoredBy (s : Server) (a : Action) (r : RoomId) (item : FanoutItem) : Prop :=
  ∃ i msg c, a = .receive i msg ∧ s.conns[i]? = some c ∧ c.room = r ∧
    request msg = .store item.size item.payload ∧
    (s.rooms.entryFor s.now r c.secret).password = c.secret

/-- The step lemma: what one step of the server does to what a room shows. -/
theorem content_step {s s' : Server} {a : Action} (hstep : s.step a = some s') (r : RoomId) :
    ∃ items, Content.Step (s.rooms.content r) items (s'.rooms.content r) ∧
      s'.appendedTo r = s.appendedTo r ++ items ∧ ∀ item ∈ items, StoredBy s a r item := by
  have hquiet : ∀ s' : Server, Content.Step (s.rooms.content r) [] (s'.rooms.content r) →
      s'.appended = s.appended → ∃ items,
        Content.Step (s.rooms.content r) items (s'.rooms.content r) ∧
        s'.appendedTo r = s.appendedTo r ++ items ∧ ∀ item ∈ items, StoredBy s a r item := by
    intro s' hc ha
    exact ⟨[], hc, by simp [appendedTo, ha], by simp⟩
  cases step_cases hstep with
  | elapse d => exact hquiet _ (.same _) rfl
  | handshake room secret =>
    -- it may claim the room, which is then empty
    refine hquiet _ ?_ ?_
    · rw [handshake_rooms]
      exact Rooms.content_append_nothing
    · unfold handshake
      split <;> rfl
  | attach i c hc hp =>
    refine hquiet _ ?_ rfl
    rw [show (s.attach i c).rooms.content r = s.rooms.content r from
      Rooms.content_broadcasterConnected]
    exact .same _
  | receive i msg c hc hp =>
    obtain ⟨c', hconns, -, -, -, -, hquiet' | hstored⟩ := receive_spec s i c msg
    · -- nothing is stored, but the room may be claimed, cleared or removed
      obtain ⟨happ, -, hfail⟩ := hquiet'
      refine hquiet _ ?_ happ
      have hrooms := receive_rooms s i c msg
      cases hreq : request msg with
      | keepalive =>
        rw [hreq] at hrooms
        rw [hrooms]
        exact Rooms.content_append_nothing
      | store size message =>
        rw [(hfail size message hreq).1]
        exact .same _
      | delete =>
        rw [hreq] at hrooms
        rw [hrooms]
        exact Rooms.content_step_of_eq_or_none Rooms.content_delete
      | reset =>
        rw [hreq] at hrooms
        rw [hrooms]
        exact Rooms.content_reset
      | stop =>
        rw [hreq] at hrooms
        rw [hrooms]
        exact .same _
    · -- an item is stored, in the room of its loop and in no other
      obtain ⟨size, message, hreq, hpw, happ, hrooms, -⟩ := hstored
      have hconts : (s.receive i c msg).rooms.content r = if r = c.room then
          some (((s.rooms.content c.room).getD .empty).store ⟨c.room, size, message⟩)
          else s.rooms.content r := by
        rw [hrooms, Rooms.content_append_stored]
      have happs : (s.receive i c msg).appendedTo r = s.appendedTo r ++
          if c.room = r then [⟨c.room, size, message⟩] else [] := by
        rw [appendedTo, happ]
        exact appendedTo_append s _ r
      by_cases hr : c.room = r
      · subst hr
        rw [if_pos rfl] at hconts happs
        refine ⟨_, ?_, happs, ?_⟩
        · rw [hconts]
          exact .stored _ _
        · intro item hitem
          obtain rfl := List.mem_singleton.mp hitem
          exact ⟨i, msg, c, rfl, hc, rfl, hreq, hpw⟩
      · rw [if_neg (fun h => hr h.symm)] at hconts
        rw [if_neg hr] at happs
        refine ⟨[], ?_, happs, by simp⟩
        rw [hconts]
        exact .same _
  | hangUp i c hc hp => exact hquiet _ (.same _) rfl
  | publish i c out phase hc hp => exact hquiet _ (.same _) rfl
  | ack i sent c hc hp => exact hquiet _ (.same _) rfl
  | detach i c hc hp =>
    refine hquiet _ ?_ rfl
    rw [show (s.detach i c).rooms.content r = s.rooms.content r from
      Rooms.content_broadcasterDisconnected]
    exact .same _
  | deleteRoom room secret =>
    exact hquiet _ (Rooms.content_step_of_eq_or_none Rooms.content_delete) rfl
  | evict room =>
    exact hquiet _ (Rooms.content_step_of_eq_or_none Rooms.content_evictRoom) rfl

/-- The payloads among the stored items, empty ones included. -/
def payloads (items : List FanoutItem) : List Bytes := items.filterMap FanoutItem.payload

@[simp] theorem payloads_append (xs ys : List FanoutItem) :
    payloads (xs ++ ys) = payloads xs ++ payloads ys := List.filterMap_append

/-- Every history is the bounded window of a tail of what was stored in the
room, and no stored message is over the frame cap. -/
structure HistoriesKept (s : Server) : Prop where
  window : ∀ r c, s.rooms.content r = some c → ∃ messages,
    messages <:+ payloads (s.appendedTo r) ∧
      MessageHistory.Holds maxHistoryMessages maxHistoryBytes messages c.messages
  capped : ∀ r, ∀ m ∈ payloads (s.appendedTo r), m.length ≤ maxIngestFrame

theorem historiesKept_init (ttl : ℕ) : HistoriesKept (init ttl) :=
  ⟨fun r c hc => (by cases hc), fun r m hm => (by cases hm)⟩

theorem historiesKept_step {s s' : Server} {a : Action} (h : HistoriesKept s)
    (hstep : s.step a = some s') : HistoriesKept s' := by
  have hempty : MessageHistory.Holds maxHistoryMessages maxHistoryBytes []
      Content.empty.messages := MessageHistory.holds_new _ _
  refine ⟨fun r c hc => ?_, fun r m hm => ?_⟩
  -- the room that is claimed or cleared starts over with the empty tail of what was stored
  · obtain ⟨items, hcontent, happ, -⟩ := content_step hstep r
    rw [happ, payloads_append]
    rw [hc] at hcontent
    have hwindow := h.window r
    generalize s.rooms.content r = before at hcontent hwindow
    cases hcontent with
    | same =>
      rw [show payloads [] = [] from rfl, List.append_nil]
      exact hwindow c rfl
    | claimed => exact ⟨[], List.nil_suffix, hempty⟩
    | cleared c₀ => exact ⟨[], List.nil_suffix, hempty⟩
    | stored c₀ item =>
      obtain ⟨messages, hsuf, hholds⟩ : ∃ messages, messages <:+ payloads (s.appendedTo r) ∧
          MessageHistory.Holds maxHistoryMessages maxHistoryBytes messages
            (before.getD .empty).messages := by
        cases before with
        | none => exact ⟨[], List.nil_suffix, hempty⟩
        | some c₁ => exact hwindow c₁ rfl
      cases hm : item.payload with
      | none =>
        refine ⟨messages, ?_, ?_⟩
        · simpa [payloads, hm] using hsuf
        · simpa [Content.store, hm] using hholds
      | some m =>
        refine ⟨messages ++ [m], ?_, ?_⟩
        · simpa [payloads, hm, append_singleton_suffix_iff] using hsuf
        · simpa [Content.store, hm] using hholds.push m
  · obtain ⟨items, -, happ, hitems⟩ := content_step hstep r
    rw [happ, payloads_append, List.mem_append] at hm
    rcases hm with hm | hm
    · exact h.capped r m hm
    · obtain ⟨item, hitem, hpay⟩ := List.mem_filterMap.mp hm
      obtain ⟨_, _, _, -, -, -, hreq, -⟩ := hitems item hitem
      exact payload_le_of_request (hpay ▸ hreq)

theorem historiesKept_of_run {ttl : ℕ} {as : List Action} {s : Server}
    (hrun : run step (init ttl) as = some s) : HistoriesKept s :=
  run_preserves (fun _ _ _ h hstep => historiesKept_step h hstep) (historiesKept_init ttl) hrun

/-- A bounded history holds exactly the longest suffix its bounds allow, its
counter never drifts or underflows, and on the server it stays in its budget. -/
theorem bounded_history_exact :
    (∀ maxMessages maxBytes : ℕ, 1 ≤ maxMessages → ∀ messages : List Bytes, ∃ h,
      messages.foldlM MessageHistory.pushChecked (.new maxMessages maxBytes) = some h ∧
      h = messages.foldl MessageHistory.push (.new maxMessages maxBytes) ∧
      IsLongestSuffix
        (fun chunks => chunks.length ≤ maxMessages ∧
          (totalLength chunks ≤ maxBytes ∨ chunks.length = 1))
        (messages.filter (fun m => !m.isEmpty)) h.chunks ∧
      h.bytes = totalLength h.chunks ∧
      (∀ all, h.accumulated = some all → all = h.chunks.flatten) ∧
      (h.accumulated = none ↔ ∀ m ∈ messages, m = [])) ∧
    ∀ (ttl : ℕ) (as : List Action) (s : Server), run step (init ttl) as = some s →
      ∀ room entry, s.rooms room = some entry →
        entry.messages.bytes = totalLength entry.messages.chunks ∧
        entry.messages.bytes ≤ maxHistoryBytes := by
  constructor
  · intro maxMessages maxBytes hmm messages
    have hh := MessageHistory.holds_foldl maxMessages maxBytes messages
    refine ⟨_, MessageHistory.foldlM_pushChecked maxMessages maxBytes messages, rfl, hh.window,
      hh.bytes_eq, ?_, hh.accumulated_eq_none_iff hmm⟩
    intro all hall
    rw [← MessageHistory.accumulated_getD, hall, Option.getD_some]
  · intro ttl as s hrun room entry he
    have hkept := historiesKept_of_run hrun
    have hc : s.rooms.content room = some ⟨entry.messages, entry.size⟩ := by
      simp [Rooms.content, he]
    obtain ⟨messages, hsuf, hholds⟩ := hkept.window room _ hc
    refine ⟨hholds.bytes_eq, hholds.bytes_le fun m hm => ?_⟩
    calc m.length ≤ maxIngestFrame := hkept.capped room m (hsuf.subset hm)
      _ ≤ maxHistoryBytes := by decide

/-- A window of two messages, and a room that stored one frame. -/
theorem bounded_history_exact_two :
    (∃ h, [[1], [], [2, 3], [4]].foldlM MessageHistory.pushChecked (.new 2 10) = some h ∧
      h.bytes = totalLength h.chunks) ∧
    ∃ s entry, run step (init 1000) [.handshake ⟨"demo"⟩ "pw", .attach 0, .publish 0,
        .receive 0 (.binary [7, 8])] = some s ∧
      s.rooms ⟨"demo"⟩ = some entry ∧ entry.messages.chunks = [[7, 8]] ∧
      entry.messages.bytes ≤ maxHistoryBytes := by
  constructor
  · obtain ⟨h, hpush, -, -, hbytes, -⟩ :=
      bounded_history_exact.1 2 10 (by decide) [[1], [], [2, 3], [4]]
    exact ⟨h, hpush, hbytes⟩
  · obtain ⟨s, entry, hrun, he, hchunks⟩ : ∃ s entry, run step (init 1000)
        [.handshake ⟨"demo"⟩ "pw", .attach 0, .publish 0, .receive 0 (.binary [7, 8])] = some s ∧
        s.rooms ⟨"demo"⟩ = some entry ∧ entry.messages.chunks = [[7, 8]] :=
      ⟨_, _, rfl, rfl, rfl⟩
    exact ⟨s, entry, hrun, he, hchunks,
      (bounded_history_exact.2 1000 _ s hrun ⟨"demo"⟩ entry he).2⟩

end Server

end Shellshare
