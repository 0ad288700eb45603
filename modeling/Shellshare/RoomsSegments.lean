import Mathlib.Algebra.Order.Group.Nat
import Shellshare.DisjointIntervals
import Shellshare.RoomsCalls

/-! Live segments of a room: what `broadcaster_disconnected` and `delete` report,
over any run of the store. -/
namespace Shellshare
open DisjointIntervals

def RoomsResult.duration : RoomsResult → Option ℕ
  | .disconnected _ duration => duration
  | .deleted (.ok duration) => duration
  | _ => none

namespace RoomsEvent

/-- The duration of a segment of the room, if this event reports one. -/
def reported (room : RoomId) (e : RoomsEvent) : Option ℕ :=
  if e.call.op.concerns room then e.result.duration else none

/-- A `broadcaster_connected` of the room that returned 1. -/
def Opens (room : RoomId) (e : RoomsEvent) : Prop :=
  (∃ secret, e.call.op = .broadcasterConnected room secret) ∧ e.result = .connected 1

end RoomsEvent

/-- A live segment by the places in the run of the calls that began and reported it. -/
structure LiveSegment where
  opened : ℕ
  closed : ℕ
  span : Span ℕ

def LiveSegment.Recorded (room : RoomId) (events : List RoomsEvent) (s : LiveSegment) : Prop :=
  s.opened < s.closed ∧
    (∃ e, events[s.opened]? = some e ∧ e.Opens room ∧ e.call.now = s.span.start) ∧
    ∃ e, events[s.closed]? = some e ∧ e.reported room = some s.span.length ∧
      e.call.now = s.span.stop

/-- `live_since` is set exactly while a broadcaster is attached. -/
def Room.Live (entry : Room) : Prop := entry.liveSince.isSome ↔ 0 < entry.broadcasters

section Step
variable {now : ℕ} {op : RoomsOp} {result : RoomsResult} {before after : Option Room}

theorem RoomsOp.duration_missing (op : RoomsOp) : op.missing.duration = none := by
  cases op <;> rfl

theorem RoomsOp.duration_refusal (entry : Room) (op : RoomsOp) :
    (op.refusal entry).duration = none := by
  cases op <;> rfl

theorem RoomStep.live (h : RoomStep now before op result after) (hlive : ∀ e ∈ before, e.Live) :
    ∀ e ∈ after, e.Live := by
  cases h with
  | claim r secret size message =>
    rintro e ⟨⟩
    simp [Room.Live, Room.store, Room.new]
  | missing => rintro e ⟨⟩
  | store entry r size message =>
    rintro e ⟨⟩
    exact hlive entry rfl
  | clear entry r hsole =>
    rintro e ⟨⟩
    exact hlive entry rfl
  | connect entry r =>
    rintro e ⟨⟩
    have hentry : entry.Live := hlive entry rfl
    simp only [Room.Live] at hentry ⊢
    by_cases hzero : entry.broadcasters = 0
    · simp [hzero]
    · rw [if_neg hzero, hentry]
      omega
  | disconnect entry r =>
    rintro e ⟨⟩
    have hentry : entry.Live := hlive entry rfl
    simp only [Room.Live] at hentry ⊢
    by_cases hzero : entry.broadcasters - 1 = 0
    · simp [hzero]
    · rw [if_neg hzero, hentry]
      omega
  | delete => rintro e ⟨⟩
  | evict => rintro e ⟨⟩
  | _ => exact hlive

/-- A step begins a segment when nobody was attached, or reports the one it ends,
or does neither: then the segment is left as it was or gone with the room. -/
theorem RoomStep.segment_cases (h : RoomStep now before op result after)
    (hlive : ∀ e ∈ before, e.Live) :
    (result.duration = none ∧
      (after.bind Room.liveSince = before.bind Room.liveSince ∨ after = none)) ∨
    (result.duration = none ∧ (∃ r secret, op = .broadcasterConnected r secret) ∧
      result = .connected 1 ∧ before.bind Room.liveSince = none ∧
      after.bind Room.liveSince = some now) ∨
    ∃ since, result.duration = some (now - since) ∧ before.bind Room.liveSince = some since ∧
      after.bind Room.liveSince = none := by
  cases h with
  | claim r secret size message => exact Or.inl ⟨rfl, Or.inl rfl⟩
  | missing op hop => exact Or.inl ⟨op.duration_missing, Or.inl rfl⟩
  | refuse entry op secret hsecret hp => exact Or.inl ⟨op.duration_refusal entry, Or.inl rfl⟩
  | connect entry r =>
    -- the first to be counted begins the segment, the others find it under way
    have hentry : entry.liveSince.isSome ↔ 0 < entry.broadcasters := hlive entry rfl
    by_cases hzero : entry.broadcasters = 0
    · have hnone : entry.liveSince = none := by
        rw [← Option.not_isSome_iff_eq_none, hentry]
        omega
      refine Or.inr (Or.inl ⟨rfl, ⟨r, _, rfl⟩, by rw [hzero], hnone, ?_⟩)
      simp [hzero]
    · refine Or.inl ⟨rfl, Or.inl ?_⟩
      simp [hzero]
  | disconnect entry r =>
    -- the last one to go ends the segment, if the room had one
    by_cases hzero : entry.broadcasters - 1 = 0
    · cases hsince : entry.liveSince with
      | none => exact Or.inl ⟨by simp [RoomsResult.duration], Or.inl (by simp [hsince])⟩
      | some since =>
        refine Or.inr (Or.inr ⟨since, ?_, by simpa using hsince, by simp [hzero]⟩)
        simp [RoomsResult.duration, hzero]
    · refine Or.inl ⟨by simp [RoomsResult.duration, hzero], Or.inl ?_⟩
      simp [hzero]
  | delete entry r =>
    cases hsince : entry.liveSince with
    | none => exact Or.inl ⟨rfl, Or.inr rfl⟩
    | some since => exact Or.inr (Or.inr ⟨since, rfl, by simpa using hsince, rfl⟩)
  | evict entry ttl hstale => exact Or.inl ⟨rfl, Or.inr rfl⟩
  | _ => exact Or.inl ⟨rfl, Or.inl rfl⟩

/-- An operation with another secret, or on a room that is not there, ends no segment. -/
theorem RoomStep.duration_of_stranger (h : RoomStep now before op result after)
    (hstranger : ∀ entry ∈ before, op.secret.any (· ≠ entry.password) = true) :
    result.duration = none := by
  cases h with
  | missing op hop => exact op.duration_missing
  | refuse entry op secret hsecret hp => exact op.duration_refusal entry
  -- the password of these two is the room's own
  | disconnect entry r =>
    have hown := hstranger entry rfl
    simp [RoomsOp.secret] at hown
  | delete entry r =>
    have hown := hstranger entry rfl
    simp [RoomsOp.secret] at hown
  | _ => rfl

end Step

/-- A place in a run, as a longer run still has it. -/
theorem getElem?_concat_of_some {α : Type*} {l : List α} {i : ℕ} {a : α} (b : α)
    (h : l[i]? = some a) : (l ++ [b])[i]? = some a := by
  obtain ⟨hlt, -⟩ := List.getElem?_eq_some_iff.mp h
  rw [List.getElem?_append_left hlt, h]

namespace LiveSegment

variable {room : RoomId} {events : List RoomsEvent} {s : LiveSegment}

theorem Recorded.concat (h : s.Recorded room events) (e : RoomsEvent) :
    s.Recorded room (events ++ [e]) := by
  obtain ⟨hlt, ⟨first, hfirst, hopens⟩, last, hlast, hreported⟩ := h
  exact ⟨hlt, ⟨first, getElem?_concat_of_some e hfirst, hopens⟩,
    last, getElem?_concat_of_some e hlast, hreported⟩

theorem Recorded.closed_lt (h : s.Recorded room events) : s.closed < events.length := by
  obtain ⟨-, -, last, hlast, -⟩ := h
  exact (List.getElem?_eq_some_iff.mp hlast).1

end LiveSegment

namespace Rooms

/-- The store before any room is claimed. -/
def empty : Rooms := fun _ => none

/-- Every duration reported is that of a recorded segment, the segments follow one
another, and the one under way began after the last of them. -/
def Accounted (room : RoomId) (events : List RoomsEvent) (live : Option ℕ) : Prop :=
  ∃ segments : List LiveSegment,
    events.filterMap (·.reported room) = segments.map (fun s => s.span.length) ∧
    (∀ s ∈ segments, s.Recorded room events) ∧
    segments.Pairwise (fun s t => s.closed < t.opened) ∧
    ∀ since ∈ live, ∃ i e, events[i]? = some e ∧ e.Opens room ∧ e.call.now = since ∧
      ∀ s ∈ segments, s.closed < i

variable {room : RoomId} {events : List RoomsEvent} {e : RoomsEvent} {live live' : Option ℕ}
  {rooms : Rooms} {call : RoomsCall}

/-- An event that reports nothing and begins nothing. -/
theorem Accounted.quiet (h : Accounted room events live) (hreported : e.reported room = none)
    (hlive : live' = live ∨ live' = none) : Accounted room (events ++ [e]) live' := by
  obtain ⟨segments, hdurations, hrecorded, hordered, hopen⟩ := h
  refine ⟨segments, ?_, fun s hs => (hrecorded s hs).concat e, hordered, ?_⟩
  · rw [List.filterMap_append, hdurations]
    simp [hreported]
  · intro since hsince
    rcases hlive with rfl | rfl
    · obtain ⟨i, first, hi, hrest⟩ := hopen since hsince
      exact ⟨i, first, getElem?_concat_of_some e hi, hrest⟩
    · cases hsince

/-- An event that begins a segment. -/
theorem Accounted.opens (h : Accounted room events live) (hreported : e.reported room = none)
    (hopens : e.Opens room) : Accounted room (events ++ [e]) (some e.call.now) := by
  obtain ⟨segments, hdurations, hrecorded, hordered, -⟩ := h
  refine ⟨segments, ?_, fun s hs => (hrecorded s hs).concat e, hordered, ?_⟩
  · rw [List.filterMap_append, hdurations]
    simp [hreported]
  · rintro since ⟨⟩
    exact ⟨events.length, e, List.getElem?_concat_length, hopens, rfl,
      fun s hs => (hrecorded s hs).closed_lt⟩

/-- An event that reports the segment under way. -/
theorem Accounted.closes {since : ℕ} (h : Accounted room events (some since))
    (hclock : ∀ f ∈ events, f.call.now ≤ e.call.now)
    (hreported : e.reported room = some (e.call.now - since)) :
    Accounted room (events ++ [e]) none := by
  obtain ⟨segments, hdurations, hrecorded, hordered, hopen⟩ := h
  obtain ⟨i, first, hi, hopens, hsince, hafter⟩ := hopen since rfl
  have hlt : i < events.length := (List.getElem?_eq_some_iff.mp hi).1
  have hle : since ≤ e.call.now := by
    rw [← hsince]
    exact hclock first (List.mem_of_getElem? hi)
  -- from the connection that was counted first to this event, after all segments before
  let segment : LiveSegment := ⟨i, events.length, ⟨since, e.call.now, hle⟩⟩
  have hsegment : segment.Recorded room (events ++ [e]) :=
    ⟨hlt, ⟨first, getElem?_concat_of_some e hi, hopens, hsince⟩,
      e, List.getElem?_concat_length, hreported, rfl⟩
  refine ⟨segments ++ [segment], ?_, ?_, ?_, nofun⟩
  · rw [List.filterMap_append, hdurations, List.map_append]
    simp [hreported, segment, Span.length]
  · intro s hs
    rcases List.mem_append.mp hs with hs | hs
    · exact (hrecorded s hs).concat e
    · rw [List.mem_singleton.mp hs]
      exact hsegment
  · rw [List.pairwise_append]
    refine ⟨hordered, List.pairwise_singleton _ _, ?_⟩
    intro s hs t ht
    rw [List.mem_singleton.mp ht]
    exact hafter s hs

theorem Accounted.performCall (h : Accounted room events ((rooms room).bind Room.liveSince))
    (hlive : ∀ entry ∈ rooms room, entry.Live)
    (hclock : ∀ f ∈ events, f.call.now ≤ call.now) :
    Accounted room (events ++ [⟨call, (rooms.performCall call).1⟩])
      (((rooms.performCall call).2 room).bind Room.liveSince) := by
  by_cases hop : call.op.concerns room = true
  · have hstep := perform_cases rooms call.now hop
    have hreported : RoomsEvent.reported room ⟨call, (rooms.performCall call).1⟩ =
        (rooms.performCall call).1.duration := if_pos hop
    rcases hstep.segment_cases hlive with ⟨hd, hsame⟩ | ⟨hd, ⟨r, secret, hr⟩, hone, -, hafter⟩ |
      ⟨since, hd, hbefore, hafter⟩
    · apply h.quiet (hreported.trans hd)
      rcases hsame with hsame | hgone
      · exact Or.inl hsame
      · have hnone : (rooms.performCall call).2 room = none := hgone
        rw [hnone]
        exact Or.inr rfl
    · have hopens : RoomsEvent.Opens room ⟨call, (rooms.performCall call).1⟩ := by
        rw [hr] at hop
        obtain rfl : r = room := of_decide_eq_true hop
        exact ⟨⟨secret, hr⟩, hone⟩
      have hbegun := h.opens (hreported.trans hd) hopens
      rwa [← hafter] at hbegun
    · rw [hbefore] at h
      have hended := h.closes (e := ⟨call, (rooms.performCall call).1⟩) hclock
        (hreported.trans hd)
      rwa [← hafter] at hended
  · -- another room's call reports nothing of this one and leaves its entry alone
    have hother : call.op.concerns room = false := eq_false_of_ne_true hop
    have hsame : (rooms.performCall call).2 room = rooms room := perform_of_not_concerns hother
    rw [hsame]
    exact h.quiet (if_neg hop) (Or.inl rfl)

theorem performCall_live (hlive : ∀ entry ∈ rooms room, entry.Live) :
    ∀ entry ∈ (rooms.performCall call).2 room, entry.Live := by
  by_cases hop : call.op.concerns room = true
  · exact (perform_cases rooms call.now hop).live hlive
  · have hsame : (rooms.performCall call).2 room = rooms room :=
      perform_of_not_concerns (eq_false_of_ne_true hop)
    rw [hsame]
    exact hlive

theorem performAll_live (calls : List RoomsCall) :
    ∀ entry ∈ (empty.performAll calls).2 room, entry.Live := by
  induction calls using List.reverseRecOn with
  | nil => nofun
  | append_singleton calls call ih =>
    rw [performAll_concat]
    exact performCall_live ih

theorem performAll_accounted (room : RoomId) {calls : List RoomsCall}
    (hclock : calls.Pairwise fun a b => a.now ≤ b.now) :
    Accounted room (empty.performAll calls).1
      (((empty.performAll calls).2 room).bind Room.liveSince) := by
  induction calls using List.reverseRecOn with
  | nil => exact ⟨[], rfl, nofun, List.Pairwise.nil, nofun⟩
  | append_singleton calls call ih =>
    obtain ⟨hbefore, -, hlast⟩ := List.pairwise_append.mp hclock
    rw [performAll_concat]
    apply (ih hbefore).performCall (performAll_live calls)
    -- the clock: no event so far is later than this call
    intro f hf
    have hmem : f.call ∈ calls := by
      rw [← performAll_calls empty calls]
      exact List.mem_map_of_mem hf
    exact hlast f.call hmem call (List.mem_singleton_self call)

theorem performAll_getElem? (rooms : Rooms) (calls : List RoomsCall) (n : ℕ) :
    (rooms.performAll calls).1[n]? = calls[n]?.map fun call =>
      ⟨call, ((rooms.performAll (calls.take n)).2.performCall call).1⟩ := by
  induction calls generalizing rooms n with
  | nil => rfl
  | cons first calls ih =>
    cases n with
    | zero => rfl
    | succ n => simpa [performAll] using ih (rooms.performCall first).2 n

/-- Segments that follow one another in the run follow one another in time. -/
theorem spans_successive {calls : List RoomsCall}
    (hclock : calls.Pairwise fun a b => a.now ≤ b.now) {segments : List LiveSegment}
    (hrecorded : ∀ s ∈ segments, s.Recorded room (empty.performAll calls).1)
    (hordered : segments.Pairwise fun s t => s.closed < t.opened) :
    Successive (segments.map LiveSegment.span) := by
  rw [Successive, List.pairwise_map]
  apply hordered.imp_of_mem
  intro s t hs ht hlt
  obtain ⟨-, -, last, hlast, -, hstop⟩ := hrecorded s hs
  obtain ⟨-, ⟨first, hfirst, -, hstart⟩, -⟩ := hrecorded t ht
  have hevents : (empty.performAll calls).1.Pairwise fun a b => a.call.now ≤ b.call.now := by
    rwa [← performAll_calls empty calls, List.pairwise_map] at hclock
  obtain ⟨hi, rfl⟩ := List.getElem?_eq_some_iff.mp hlast
  obtain ⟨hj, rfl⟩ := List.getElem?_eq_some_iff.mp hfirst
  have hle := List.pairwise_iff_getElem.mp hevents _ _ hi hj hlt
  omega

theorem nodup_map_of_lt {segments : List LiveSegment} {place : LiveSegment → ℕ}
    (h : segments.Pairwise fun s t => place s < place t) : (segments.map place).Nodup := by
  rw [List.Nodup, List.pairwise_map]
  apply h.imp
  intro s t hlt
  exact Nat.ne_of_lt hlt

/-- Segments that lie between two moments last no longer than what is between these. -/
theorem sum_spans_le {calls : List RoomsCall} {segments : List LiveSegment}
    (hrecorded : ∀ s ∈ segments, s.Recorded room (empty.performAll calls).1)
    (hspans : Successive (segments.map LiveSegment.span)) {lo hi : ℕ}
    (hbetween : ∀ call ∈ calls, lo ≤ call.now ∧ call.now ≤ hi) :
    (segments.map fun s => s.span.length).sum ≤ hi - lo := by
  have hin (e : RoomsEvent) (he : e ∈ (empty.performAll calls).1) :
      lo ≤ e.call.now ∧ e.call.now ≤ hi := by
    apply hbetween
    rw [← performAll_calls empty calls]
    exact List.mem_map_of_mem he
  have hsum : ((segments.map LiveSegment.span).map Span.length).sum ≤ hi - lo := by
    apply hspans.sum_length_le
    · intro span hspan
      obtain ⟨s, hs, rfl⟩ := List.mem_map.mp hspan
      obtain ⟨-, ⟨first, hfirst, -, hstart⟩, -⟩ := hrecorded s hs
      rw [← hstart]
      exact (hin first (List.mem_of_getElem? hfirst)).1
    · intro span hspan
      obtain ⟨s, hs, rfl⟩ := List.mem_map.mp hspan
      obtain ⟨-, -, last, hlast, -, hstop⟩ := hrecorded s hs
      rw [← hstop]
      exact (hin last (List.mem_of_getElem? hlast)).2
  rwa [List.map_map] at hsum

/-- In a run with a monotone clock `live_since` tells at all times whether a
broadcaster is attached. The durations reported are those of segments that follow
one another, each begun by a connection that was counted first and ended once, so
they sum to no more than the time elapsed. Without the room's secret, or without
the room, none is reported. -/
theorem live_segments_reported_once (room : RoomId) (calls : List RoomsCall)
    (hclock : calls.Pairwise fun a b => a.now ≤ b.now) :
    let events := (empty.performAll calls).1
    (∀ n, ∀ entry ∈ (empty.performAll (calls.take n)).2 room,
      (entry.liveSince.isSome ↔ 0 < entry.broadcasters)) ∧
    (∃ segments : List LiveSegment,
      events.filterMap (·.reported room) = segments.map (fun s => s.span.length) ∧
      (∀ s ∈ segments, s.Recorded room events) ∧
      (segments.map LiveSegment.opened).Nodup ∧ (segments.map LiveSegment.closed).Nodup ∧
      segments.Pairwise fun s t =>
        Disjoint (Set.Ico s.span.start s.span.stop) (Set.Ico t.span.start t.span.stop)) ∧
    (∀ lo hi, (∀ call ∈ calls, lo ≤ call.now ∧ call.now ≤ hi) →
      (events.filterMap (·.reported room)).sum ≤ hi - lo) ∧
    ∀ n call, calls[n]? = some call → call.op.concerns room = true →
      (∀ entry ∈ (empty.performAll (calls.take n)).2 room,
        call.op.secret.any (· ≠ entry.password) = true) →
      ∃ e, events[n]? = some e ∧ e.call = call ∧ e.result.duration = none := by
  obtain ⟨segments, hdurations, hrecorded, hordered, -⟩ := performAll_accounted room hclock
  have hspans := spans_successive hclock hrecorded hordered
  refine ⟨fun n => performAll_live _, ⟨segments, hdurations, hrecorded, ?_, ?_, ?_⟩, ?_, ?_⟩
  · apply nodup_map_of_lt
    apply hordered.imp_of_mem
    intro s t hs ht hlt
    have hs' : s.opened < s.closed := (hrecorded s hs).1
    omega
  · apply nodup_map_of_lt
    apply hordered.imp_of_mem
    intro s t hs ht hlt
    have ht' : t.opened < t.closed := (hrecorded t ht).1
    omega
  · have hdisjoint := hspans.pairwise_disjoint
    rwa [List.pairwise_map] at hdisjoint
  · intro lo hi hbetween
    rw [hdurations]
    exact sum_spans_le hrecorded hspans hbetween
  · intro n call hcall hop hstranger
    refine ⟨_, by rw [performAll_getElem?, hcall]; rfl, rfl, ?_⟩
    exact (perform_cases _ call.now hop).duration_of_stranger hstranger

/-- A room that goes live for three milliseconds, and again for two until it is deleted. -/
def twoSegments : List RoomsCall :=
  [⟨1, .append ⟨"demo"⟩ "mine" none none⟩, ⟨2, .broadcasterConnected ⟨"demo"⟩ "mine"⟩,
    ⟨5, .broadcasterDisconnected ⟨"demo"⟩ "mine"⟩, ⟨7, .broadcasterConnected ⟨"demo"⟩ "mine"⟩,
    ⟨9, .delete ⟨"demo"⟩ "mine"⟩]

theorem live_segments_reported_once_two : ∃ segments : List LiveSegment,
    segments.map (fun s => s.span.length) = [3, 2] ∧
    (segments.Pairwise fun s t =>
      Disjoint (Set.Ico s.span.start s.span.stop) (Set.Ico t.span.start t.span.stop)) ∧
    ([3, 2] : List ℕ).sum ≤ 9 - 1 := by
  obtain ⟨-, ⟨segments, hdurations, -, -, -, hdisjoint⟩, hsum, -⟩ :=
    live_segments_reported_once ⟨"demo"⟩ twoSegments (by decide)
  have hreported : (empty.performAll twoSegments).1.filterMap (·.reported ⟨"demo"⟩) = [3, 2] := by
    decide
  have htotal := hsum 1 9 (by decide)
  rw [hreported] at hdurations htotal
  exact ⟨segments, hdurations.symm, hdisjoint, htotal⟩

end Rooms

end Shellshare
