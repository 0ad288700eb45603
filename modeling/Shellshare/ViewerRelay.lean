import Shellshare.ViewerFanout

/-! The viewer's own task: it drains the viewer's queue and merges adjacent
binary payloads once more, into the frames that go out on the socket. -/
namespace Shellshare
open FrameCoalescing

/-- Bound on a merged frame; beyond it the backlog flushes in parts. -/
def maxMerged : ℕ := 1024 * 1024

/-- The locals of `relay`: the chunks of the frame being merged, and their length. -/
structure Merging where
  chunks : List Bytes
  pendingLen : ℕ

namespace Merging

def new : Merging := ⟨[], 0⟩

/-- `take_merged`, without a copy when a single chunk stands alone. -/
def takeMerged (m : Merging) : Bytes × Merging :=
  (if m.chunks.length = 1 then m.chunks.headD [] else m.chunks.flatten, ⟨[], 0⟩)

/-- The frame before a control, or the last one: nothing when nothing is merged. -/
def flush (m : Merging) : List ViewerMsg × Merging :=
  if m.chunks = [] then ([], m) else ([.bytes m.takeMerged.1], m.takeMerged.2)

/-- One turn of the loop: the frames sent, and what is merged so far. -/
def relayItem (m : Merging) : ViewerMsg → List ViewerMsg × Merging
  | .bytes payload =>
    let (full, m) := if maxMerged < m.pendingLen + payload.length ∧ m.chunks ≠ []
      then ([.bytes m.takeMerged.1], m.takeMerged.2) else ([], m)
    (full, ⟨m.chunks ++ [payload], m.pendingLen + payload.length⟩)
  -- a control keeps its own frame, after the bytes before it
  | .control json => (m.flush.1 ++ [.control json], m.flush.2)

def relayItems (m : Merging) : List ViewerMsg → List ViewerMsg
  | [] => m.flush.1
  | msg :: msgs =>
    let (frames, m) := m.relayItem msg
    frames ++ m.relayItems msgs

/-- What the loop keeps to: the merged chunks are the ones of `I` not yet in
`O`, and they are counted and at most a frame. -/
structure Kept (I O : List ViewerMsg) (m : Merging) : Prop where
  buffered : Buffered (Fits maxMerged) I O m.chunks
  counted : m.pendingLen = m.chunks.flatten.length

end Merging

/-- One wake-up of a viewer's task, on everything it drains from its queue. -/
def relay (msgs : List ViewerMsg) : List ViewerMsg := Merging.new.relayItems msgs

namespace Merging

theorem takeMerged_eq (m : Merging) : m.takeMerged = (m.chunks.flatten, new) := by
  unfold takeMerged
  split_ifs with h
  · obtain ⟨c, hc⟩ := List.length_eq_one_iff.mp h
    simp [hc, new]
  · rfl

theorem kept_new {I O : List ViewerMsg} (h : Coalesces (Fits maxMerged) I O) : Kept I O new :=
  ⟨buffered_nil_iff.mpr h, rfl⟩

/-- A flush sends all there is. -/
theorem Kept.flush {I O : List ViewerMsg} {m : Merging} (h : Kept I O m) :
    Coalesces (Fits maxMerged) I (O ++ m.flush.1) ∧ m.flush.2 = new := by
  obtain ⟨hbuf, hlen⟩ := h
  unfold Merging.flush
  split_ifs with hc
  · refine ⟨?_, ?_⟩
    · rw [hc] at hbuf
      simpa using buffered_nil_iff.mp hbuf
    · rw [hc] at hlen
      cases m
      simp_all [new]
  · rw [takeMerged_eq]
    exact ⟨hbuf.flush hc, rfl⟩

/-- The step lemma of the relay's loop. -/
theorem Kept.item {I O : List ViewerMsg} {m : Merging} (h : Kept I O m) (msg : ViewerMsg) :
    Kept (I ++ [msg]) (O ++ (m.relayItem msg).1) (m.relayItem msg).2 := by
  cases msg with
  | control json =>
    obtain ⟨hflush, hnew⟩ := h.flush
    have hcontrol := hflush.write_control json
    rw [List.append_assoc] at hcontrol
    simp only [relayItem, hnew]
    exact kept_new hcontrol
  | bytes payload =>
    obtain ⟨hbuf, hlen⟩ := h
    -- the frame so far goes out only to make room, so a single payload may be of any length
    by_cases hover : maxMerged < m.pendingLen + payload.length ∧ m.chunks ≠ []
    · have hflush := buffered_nil_iff.mpr (hbuf.flush hover.2)
      simp only [relayItem, if_pos hover, takeMerged_eq]
      exact ⟨hflush.push (fits_singleton _ _), by simp [new]⟩
    · have hfits : Fits maxMerged (m.chunks ++ [payload]) := by
        by_cases hne : m.chunks = []
        · rw [hne]
          exact fits_singleton _ _
        · apply Or.inl
          rw [List.flatten_append, List.length_append, ← hlen, List.flatten_singleton]
          have hle : ¬ maxMerged < m.pendingLen + payload.length := fun hlt => hover ⟨hlt, hne⟩
          omega
      simp only [relayItem, if_neg hover, List.append_nil]
      exact ⟨hbuf.push hfits, by simp [hlen]⟩

theorem Kept.items {I O : List ViewerMsg} {m : Merging} (h : Kept I O m)
    (msgs : List ViewerMsg) : Coalesces (Fits maxMerged) (I ++ msgs) (O ++ m.relayItems msgs) := by
  induction msgs generalizing I O m with
  | nil => simpa [relayItems] using h.flush.1
  | cons msg msgs ih =>
    have hrest := ih (h.item msg)
    simpa [relayItems, List.append_assoc] using hrest

end Merging

theorem relay_coalesces (wakeups : List (List ViewerMsg)) :
    Coalesces (Fits maxMerged) wakeups.flatten (wakeups.flatMap relay) := by
  induction wakeups with
  | nil => exact .nil
  | cons msgs wakeups ih =>
    have hfirst : Coalesces (Fits maxMerged) msgs (relay msgs) := by
      simpa [relay] using (Merging.kept_new .nil).items msgs
    rw [List.flatten_cons, List.flatMap_cons]
    exact hfirst.append ih

/-- A merge nobody can see: joining adjacent binary frames gives the same
stream, and every frame made is a run of whole payloads of at most `cap` bytes,
or one payload. -/
structure InvisibleMerge (cap : ℕ) (I O : List ViewerMsg) : Prop where
  joined_eq : joined O = joined I
  whole : ∀ payload, Frame.bytes payload ∈ O → ∃ group, group ≠ [] ∧
    group.map Frame.bytes <:+: I ∧ payload = group.flatten ∧
    (payload.length ≤ cap ∨ group = [payload])

theorem invisibleMerge_of_coalesces {cap : ℕ} {I O : List ViewerMsg}
    (h : Coalesces (Fits cap) I O) : InvisibleMerge cap I O := by
  refine ⟨h.joined_eq, fun payload hmem => ?_⟩
  obtain ⟨group, hne, hfits, rfl, hinfix⟩ := h.whole hmem
  refine ⟨group, hne, hinfix, rfl, ?_⟩
  apply hfits.imp id
  intro hone
  obtain ⟨p, rfl⟩ := List.length_eq_one_iff.mp hone
  simp

/-- Both merging stages are invisible, however the fan-out queue is cut into
batches and the viewer's queue into wake-ups, and so are the two together. -/
theorem coalescing_invisible (order : ℕ → PendingRooms → List (Σ _ : RoomId, Pending))
    (horder : ∀ i pending, (order i pending).Perm pending.entries) :
    (∀ (batches : List (List FanoutItem)) (room : RoomId), InvisibleMerge fanoutMaxBatch
      (uncoalesced room batches.flatten) (sentTo room (fanoutLoop order batches))) ∧
    (∀ wakeups : List (List ViewerMsg),
      InvisibleMerge maxMerged wakeups.flatten (wakeups.flatMap relay)) ∧
    ∀ (batches : List (List FanoutItem)) (room : RoomId) (wakeups : List (List ViewerMsg)),
      wakeups.flatten = sentTo room (fanoutLoop order batches) →
        joined (wakeups.flatMap relay) = joined (uncoalesced room batches.flatten) ∧
        ∀ payload, Frame.bytes payload ∈ wakeups.flatMap relay → ∃ group, group ≠ [] ∧
          group.map Frame.bytes <:+: uncoalesced room batches.flatten ∧
          payload = group.flatten := by
  refine ⟨fun batches room => ?_, fun wakeups => ?_, fun batches room wakeups hqueue => ?_⟩
  · exact invisibleMerge_of_coalesces (fanoutLoop_coalesces horder batches room)
  · exact invisibleMerge_of_coalesces (relay_coalesces wakeups)
  · have hrelay := relay_coalesces wakeups
    rw [hqueue] at hrelay
    have hboth := (fanoutLoop_coalesces horder batches room).trans hrelay
    refine ⟨hboth.joined_eq, fun payload hmem => ?_⟩
    obtain ⟨group, hne, -, hflat, hinfix⟩ := hboth.whole hmem
    exact ⟨group, hne, hinfix, hflat⟩

/-- Two batches for two rooms, a size among the payloads of one of them. -/
theorem coalescing_invisible_two_rooms :
    joined ((sentTo ⟨"a"⟩ (fanoutLoop (fun _ => AList.entries)
      [[⟨⟨"a"⟩, none, some [1]⟩, ⟨⟨"b"⟩, none, some [2]⟩, ⟨⟨"a"⟩, some .null, some [3]⟩],
        [⟨⟨"a"⟩, none, some [4]⟩]])) ) =
      joined [.bytes [1], .control (sizeControl .null), .bytes [3], .bytes [4]] :=
  ((coalescing_invisible (fun _ => AList.entries) fun _ _ => .refl _).1 _ ⟨"a"⟩).joined_eq

end Shellshare
