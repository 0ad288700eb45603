import Mathlib.Data.List.Perm.Basic
import Shellshare.ServerContent

/-! In which order stored items reach the fan-out queue. Store and publication
are two steps of a loop, with other loops' steps in between. -/
namespace Shellshare

/-- The item a loop has stored and not yet published. -/
def Phase.held : Phase → Option Stored
  | .publishing stored => some stored
  | _ => none

def Output.stored : Output → Option Stored
  | .ingest stored => some stored
  | .control _ _ => none

/-- The size that items leave their viewers with. -/
def lastSize (items : List FanoutItem) : Option Json := (items.filterMap FanoutItem.size).getLast?

theorem lastSize_append_singleton (items : List FanoutItem) (item : FanoutItem) :
    lastSize (items ++ [item]) = item.size.or (lastSize items) := by
  simp only [lastSize, List.filterMap_append]
  cases h : item.size <;> simp [h]

namespace Server
open TransitionRuns LongestSuffix
open scoped List

/-- The stored items that loops have still to publish. -/
def held (s : Server) : List Stored := s.conns.filterMap fun c => c.phase.held

/-- The items put on the fan-out queues, in order. -/
def queued (s : Server) : List Stored := s.published.filterMap Output.stored

/-- A room stays on one queue, so its order there is its order among all. -/
def queuedTo (s : Server) (room : RoomId) : List Stored :=
  s.queued.filter fun stored => stored.item.room = room

def storedIn (s : Server) (room : RoomId) : List Stored :=
  s.appended.filter fun stored => stored.item.room = room

/-- What was queued for a room is what was stored in it first, in that order. -/
def OrderKept (s : Server) : Prop := ∀ room, s.queuedTo room <+: s.storedIn room

/-- A loop publishes an item of a room while no loop holds an older one. -/
def publishesOldestFirst (s : Server) : Action → Bool
  | .publish i => s.conns[i]?.all fun c => c.phase.held.all fun stored =>
    s.held.all fun older => older.item.room != stored.item.room || stored.seq ≤ older.seq
  | _ => true

abbrev PublishesOldestFirst (s : Server) (a : Action) : Prop := publishesOldestFirst s a = true

/-- Every stored item is queued once or held once, and its place in the order
of stores is its number. -/
structure Accounted (s : Server) : Prop where
  numbered : s.appended.map Stored.seq = List.range s.appended.length
  once : (s.queued ++ s.held).Perm s.appended

theorem filterMap_set_perm {α β : Type*} {f : α → Option β} {l : List α} {i : ℕ} {a b : α}
    (hi : l[i]? = some a) :
    ((l.set i b).filterMap f ++ (f a).toList).Perm (l.filterMap f ++ (f b).toList) := by
  obtain ⟨hlt, rfl⟩ := List.getElem?_eq_some_iff.mp hi
  have hf : ∀ x : α, [x].filterMap f = (f x).toList := fun x => by
    cases h : f x <;> simp [h]
  have hl : l = l.take i ++ [l[i]] ++ l.drop (i + 1) := by simp
  have hset : l.set i b = l.take i ++ [b] ++ l.drop (i + 1) := by
    simp [List.set_eq_take_append_cons_drop, hlt]
  rw [hset]
  conv_rhs => rw [hl]
  simp only [List.filterMap_append, hf, List.append_assoc]
  refine List.Perm.append_left _ (List.perm_append_comm.trans ?_)
  rw [← List.append_assoc]
  exact List.perm_append_comm.append_right _

/-- Later stores have larger numbers. -/
theorem Accounted.sorted {s : Server} (h : Accounted s) :
    s.appended.Pairwise (fun x y => x.seq < y.seq) := by
  have hsorted : (s.appended.map Stored.seq).Pairwise (· < ·) := by
    rw [h.numbered]
    exact List.pairwise_lt_range
  exact List.pairwise_map.mp hsorted

theorem held_setConn (s : Server) {i : ℕ} {c : Conn} (hc : s.conns[i]? = some c) (c' : Conn) :
    ((s.setConn i c').held ++ c.phase.held.toList).Perm (s.held ++ c'.phase.held.toList) :=
  filterMap_set_perm hc

/-- The step lemma: what one step does to the items that were stored, that are
held and that are queued. -/
theorem order_step {s s' : Server} {a : Action} (hstep : s.step a = some s') :
    ((∀ i c, a = .publish i → s.conns[i]? = some c → c.phase.held = none) ∧
      s'.appended = s.appended ∧ s'.queued = s.queued ∧ s'.held.Perm s.held) ∨
    ((∀ i c, a = .publish i → s.conns[i]? = some c → c.phase.held = none) ∧
      ∃ stored, stored.seq = s.appended.length ∧ s'.appended = s.appended ++ [stored] ∧
      s'.queued = s.queued ∧ s'.held.Perm (stored :: s.held)) ∨
    (∃ i c stored, a = .publish i ∧ s.conns[i]? = some c ∧ c.phase.held = some stored ∧
      s'.appended = s.appended ∧ s'.queued = s.queued ++ [stored] ∧
      s.held.Perm (stored :: s'.held)) := by
  -- a loop that holds nothing before and after leaves what is held alone
  have hmove : ∀ {i : ℕ} {c : Conn} {phase : Phase}, s.conns[i]? = some c →
      c.phase.held = none → phase.held = none → (s.setConn i (c.to phase)).held.Perm s.held := by
    intro i c phase hc hbefore hafter
    have hset := held_setConn s hc (c.to phase)
    rw [hbefore, show (c.to phase).phase.held = none from hafter] at hset
    simpa using hset
  cases step_cases hstep with
  | elapse d => exact Or.inl ⟨nofun, rfl, rfl, List.Perm.refl _⟩
  | handshake room secret =>
    refine Or.inl ⟨nofun, ?_, ?_, ?_⟩
    · unfold handshake
      split <;> rfl
    · simp only [queued, handshake]
      split <;> rfl
    · rcases handshake_conns s room secret with h | h
      · rw [held, h]
        rfl
      · rw [held, h, List.filterMap_append]
        simp [held, Phase.held]
  | attach i c hc hp =>
    refine Or.inl ⟨nofun, rfl, rfl, hmove hc (by rw [hp]; rfl) ?_⟩
    split <;> rfl
  | receive i msg c hc hp =>
    obtain ⟨c', hconns, -, -, -, hpub, hcases⟩ := receive_spec s i c msg
    have hqueued : (s.receive i c msg).queued = s.queued := by rw [queued, hpub]; rfl
    have hheld : (s.receive i c msg).held.Perm (s.held ++ c'.phase.held.toList) := by
      have hset := held_setConn s hc c'
      rw [hp] at hset
      simpa [held, hconns, setConn, Phase.held] using hset
    -- the loop comes to hold an item exactly when its append was authorized
    rcases hcases with ⟨happ, hphase, -⟩ | ⟨size, message, -, -, happ, -, hphase⟩
    · refine Or.inl ⟨nofun, happ, hqueued, ?_⟩
      have hnone : c'.phase.held = none := by
        rcases hphase with h | h | h <;> rw [h] <;> rfl
      simpa [hnone] using hheld
    · refine Or.inr (Or.inl ⟨nofun, _, rfl, happ, hqueued, hheld.trans ?_⟩)
      rw [hphase]
      exact List.perm_append_singleton _ _
  | hangUp i c hc hp => exact Or.inl ⟨nofun, rfl, rfl, hmove hc (by rw [hp]; rfl) rfl⟩
  | publish i c out phase hc hp =>
    -- a control is published by a loop that holds no item
    have hfree : c.phase.held = none → ∀ j d, Action.publish i = .publish j →
        s.conns[j]? = some d → d.phase.held = none := by
      rintro hnone _ d ⟨⟩ hd
      obtain rfl : c = d := by simpa [hc] using hd
      exact hnone
    rcases publication_cases hp with ⟨h, rfl, rfl⟩ | ⟨stored, h, rfl, rfl⟩ | ⟨h, rfl, rfl⟩ |
      ⟨h, rfl, rfl⟩
    · exact Or.inl ⟨hfree (by rw [h]; rfl), rfl, by simp [queued, setConn, Output.stored],
        hmove hc (by rw [h]; rfl) rfl⟩
    · -- the item moves from the loop to the queue
      refine Or.inr (Or.inr ⟨i, c, stored, rfl, hc, by rw [h]; rfl, rfl, ?_, ?_⟩)
      · simp [queued, setConn, Output.stored]
      · have hset : ((s.setConn i (c.to .acking)).held ++ [stored]).Perm (s.held ++ []) := by
          have hset := held_setConn s hc (c.to .acking)
          rwa [h] at hset
        rw [List.append_nil] at hset
        exact hset.symm.trans (List.perm_append_singleton _ _)
    · exact Or.inl ⟨hfree (by rw [h]; rfl), rfl, by simp [queued, setConn, Output.stored],
        hmove hc (by rw [h]; rfl) rfl⟩
    · exact Or.inl ⟨hfree (by rw [h]; rfl), rfl, by simp [queued, setConn, Output.stored],
        hmove hc (by rw [h]; rfl) rfl⟩
  | ack i sent c hc hp =>
    refine Or.inl ⟨nofun, rfl, rfl, hmove hc (by rw [hp]; rfl) ?_⟩
    cases sent <;> rfl
  | detach i c hc hp =>
    refine Or.inl ⟨nofun, rfl, rfl, hmove hc (by rw [hp]; rfl) ?_⟩
    split <;> rfl
  | deleteRoom room secret => exact Or.inl ⟨nofun, rfl, rfl, List.Perm.refl _⟩
  | evict room => exact Or.inl ⟨nofun, rfl, rfl, List.Perm.refl _⟩

theorem accounted_init (ttl : ℕ) : Accounted (init ttl) := ⟨rfl, List.Perm.refl _⟩

theorem accounted_step {s s' : Server} {a : Action} (h : Accounted s)
    (hstep : s.step a = some s') : Accounted s' := by
  obtain ⟨hnum, honce⟩ := h
  rcases order_step hstep with ⟨-, happ, hq, hheld⟩ | ⟨-, stored, hseq, happ, hq, hheld⟩ |
    ⟨-, -, stored, -, -, -, happ, hq, hheld⟩
  · refine ⟨by rw [happ]; exact hnum, ?_⟩
    rw [happ, hq]
    exact (hheld.append_left _).trans honce
  · refine ⟨by simp [happ, hnum, hseq, List.range_succ], ?_⟩
    rw [happ, hq]
    calc s.queued ++ s'.held ~ s.queued ++ stored :: s.held := hheld.append_left _
      _ ~ stored :: (s.queued ++ s.held) := List.perm_middle
      _ ~ stored :: s.appended := honce.cons _
      _ ~ s.appended ++ [stored] := (List.perm_append_singleton _ _).symm
  · refine ⟨by rw [happ]; exact hnum, ?_⟩
    rw [happ, hq, List.append_assoc]
    exact (hheld.symm.append_left _).trans honce

theorem queuedTo_append (s : Server) (stored : Stored) (room : RoomId) :
    (s.queued ++ [stored]).filter (fun x => x.item.room = room) =
      s.queuedTo room ++ if stored.item.room = room then [stored] else [] := by
  by_cases hr : stored.item.room = room <;> simp [queuedTo, hr]

/-- What is not queued of a room's items is exactly what its loops hold. -/
theorem held_perm_of_kept {s : Server} (h : Accounted s) {room : RoomId} {rest : List Stored}
    (hrest : s.queuedTo room ++ rest = s.storedIn room) :
    (s.held.filter fun x => x.item.room = room) ~ rest := by
  have hfilter := h.once.filter fun x => x.item.room = room
  rw [List.filter_append] at hfilter
  exact (List.perm_append_left_iff _).mp (hfilter.trans (by rw [← storedIn, ← hrest]; rfl))

theorem sorted_storedIn {s : Server} (h : Accounted s) (room : RoomId) :
    (s.storedIn room).Pairwise (fun x y => x.seq < y.seq) :=
  h.sorted.filter _

/-- Of the items still held for a room, the oldest and only the oldest comes
next in the order of stores. -/
theorem prefix_append_iff_oldest {s : Server} (h : Accounted s) {stored : Stored}
    (hkept : s.queuedTo stored.item.room <+: s.storedIn stored.item.room)
    (hheld : stored ∈ s.held) :
    s.queuedTo stored.item.room ++ [stored] <+: s.storedIn stored.item.room ↔
      ∀ older ∈ s.held, older.item.room = stored.item.room → stored.seq ≤ older.seq := by
  obtain ⟨rest, hrest⟩ := hkept
  have hperm := held_perm_of_kept h hrest
  have hsorted : rest.Pairwise (fun x y => x.seq < y.seq) := by
    have hall := sorted_storedIn h stored.item.room
    rw [← hrest] at hall
    exact (List.pairwise_append.mp hall).2.1
  have hmem : stored ∈ rest := hperm.mem_iff.mp (by simp [hheld])
  rw [← hrest, List.prefix_append_right_inj]
  cases rest with
  | nil => cases hmem
  | cons first rest =>
    obtain ⟨hfirst, -⟩ := List.pairwise_cons.mp hsorted
    constructor
    · -- what is not queued yet starts with the oldest held item
      intro hpre older ho hroom
      obtain rfl : stored = first := by simpa using hpre
      -- another held item is not queued yet either, so it comes later
      have hin := hperm.mem_iff.mp (List.mem_filter.mpr ⟨ho, by simpa using hroom⟩)
      rcases List.mem_cons.mp hin with rfl | hlater
      · exact le_refl _
      · exact (hfirst older hlater).le
    · intro hold
      rcases List.mem_cons.mp hmem with rfl | hlater
      · simp
      -- were another one next, it would be held too, and older
      · have hin := hperm.mem_iff.mpr (List.mem_cons_self (a := first) (l := rest))
        simp only [List.mem_filter, decide_eq_true_eq] at hin
        have hle := hold first hin.1 hin.2
        have hlt := hfirst stored hlater
        omega

theorem publishesOldestFirst_iff {s : Server} {i : ℕ} {c : Conn} {stored : Stored}
    (hc : s.conns[i]? = some c) (hphase : c.phase.held = some stored) :
    PublishesOldestFirst s (.publish i) ↔
      ∀ older ∈ s.held, older.item.room = stored.item.room → stored.seq ≤ older.seq := by
  simp only [PublishesOldestFirst, publishesOldestFirst, hc, Option.all_some, hphase,
    List.all_eq_true, Bool.or_eq_true, bne_iff_ne, decide_eq_true_eq]
  refine forall₂_congr fun older _ => ?_
  rw [or_iff_not_imp_left, not_ne_iff]

theorem publishesOldestFirst_of_not_held {s : Server} {a : Action}
    (h : ∀ i c, a = .publish i → s.conns[i]? = some c → c.phase.held = none) :
    PublishesOldestFirst s a := by
  cases a with
  | publish i =>
    cases hc : s.conns[i]? with
    | none => simp [PublishesOldestFirst, publishesOldestFirst, hc]
    | some c => simp [PublishesOldestFirst, publishesOldestFirst, hc, h i c rfl hc]
  | _ => rfl

/-- The step lemma for one room: its order survives when the item published for
it, if any, is the oldest one held. -/
theorem order_step_of_oldest {s s' : Server} {a : Action} {room : RoomId} (h : Accounted s)
    (hkept : s.queuedTo room <+: s.storedIn room)
    (hold : ∀ c ∈ s.conns, ∀ stored, c.phase.held = some stored → stored.item.room = room →
      (∃ i, a = .publish i ∧ s.conns[i]? = some c) →
        ∀ older ∈ s.held, older.item.room = room → stored.seq ≤ older.seq)
    (hstep : s.step a = some s') : s'.queuedTo room <+: s'.storedIn room := by
  rcases order_step hstep with ⟨-, happ, hq, -⟩ | ⟨-, stored, -, happ, hq, -⟩ |
    ⟨i, c, stored, ha, hc, hphase, happ, hq, -⟩
  · rw [queuedTo, storedIn, happ, hq]
    exact hkept
  · rw [queuedTo, storedIn, happ, hq, List.filter_append]
    exact hkept.trans (List.prefix_append _ _)
  · rw [queuedTo, storedIn, happ, hq, queuedTo_append]
    split_ifs with hr
    · subst hr
      have hconn := List.mem_of_getElem? hc
      have hheld : stored ∈ s.held := List.mem_filterMap.mpr ⟨c, hconn, hphase⟩
      exact (prefix_append_iff_oldest h hkept hheld).mpr
        (hold c hconn stored hphase rfl ⟨i, ha, hc⟩)
    · rwa [List.append_nil]

/-- The step lemma: a step keeps the order if and only if the item it publishes,
if any, is the oldest one held for its room. -/
theorem orderKept_step_iff {s s' : Server} {a : Action} (h : Accounted s)
    (hkept : OrderKept s) (hstep : s.step a = some s') :
    OrderKept s' ↔ PublishesOldestFirst s a := by
  rcases order_step hstep with ⟨hfree, happ, hq, -⟩ | ⟨hfree, stored, -, happ, hq, -⟩ |
    ⟨i, c, stored, rfl, hc, hphase, happ, hq, -⟩
  · refine iff_of_true (fun room => ?_) (publishesOldestFirst_of_not_held hfree)
    rw [queuedTo, storedIn, happ, hq]
    exact hkept room
  · refine iff_of_true (fun room => ?_) (publishesOldestFirst_of_not_held hfree)
    rw [queuedTo, storedIn, happ, hq, List.filter_append]
    exact (hkept room).trans (List.prefix_append _ _)
  · have hheld : stored ∈ s.held := List.mem_filterMap.mpr ⟨c, List.mem_of_getElem? hc, hphase⟩
    rw [publishesOldestFirst_iff hc hphase]
    constructor
    · intro h'
      have hmine := h' stored.item.room
      rw [queuedTo, storedIn, happ, hq, queuedTo_append, if_pos rfl] at hmine
      exact (prefix_append_iff_oldest h (hkept _) hheld).mp hmine
    · intro hold room
      apply order_step_of_oldest h (hkept room) _ hstep
      rintro d - stored' hstored' rfl ⟨_, ⟨⟩, hd⟩
      obtain rfl : c = d := by simpa [hc] using hd
      obtain rfl : stored = stored' := by simpa [hphase] using hstored'
      exact hold

/-- Queues and stores only grow along a run. -/
theorem prefix_of_run {s t : Server} {as : List Action} (hrun : run step s as = some t)
    (room : RoomId) :
    s.queuedTo room <+: t.queuedTo room ∧ s.storedIn room <+: t.storedIn room := by
  have hgrow : ∀ (u : Server) (a : Action) (u' : Server),
      s.queuedTo room <+: u.queuedTo room ∧ s.storedIn room <+: u.storedIn room →
      u.step a = some u' →
        s.queuedTo room <+: u'.queuedTo room ∧ s.storedIn room <+: u'.storedIn room := by
    rintro u a u' ⟨hq, hst⟩ hstep
    have hstep : u.queued <+: u'.queued ∧ u.appended <+: u'.appended := by
      rcases order_step hstep with ⟨-, happ, hq, -⟩ | ⟨-, stored, -, happ, hq, -⟩ |
        ⟨-, -, stored, -, -, -, happ, hq, -⟩ <;> simp [happ, hq]
    exact ⟨hq.trans (hstep.1.filter _), hst.trans (hstep.2.filter _)⟩
  exact run_preserves hgrow ⟨List.prefix_refl _, List.prefix_refl _⟩ hrun

theorem queuedTo_length_le {s : Server} (h : Accounted s) (room : RoomId) :
    (s.queuedTo room).length ≤ (s.storedIn room).length := by
  have hfilter := (h.once.filter fun x => x.item.room = room).length_eq
  rw [List.filter_append, List.length_append] at hfilter
  exact Nat.le.intro hfilter

/-- A queue that ends in the order of stores was in that order all along. -/
theorem orderKept_of_final {s t : Server} {as : List Action} (h : Accounted s)
    (hrun : run step s as = some t) (hfinal : ∀ room, t.queuedTo room = t.storedIn room) :
    StatesSatisfy step OrderKept s as := by
  induction as generalizing s with
  | nil =>
    obtain rfl : s = t := by simpa using hrun
    exact fun room => hfinal room ▸ List.prefix_refl _
  | cons a as ih =>
    refine ⟨fun room => ?_, fun s' hs' => ?_⟩
    -- both lists are prefixes of the final one, and the queue is not the longer of them
    · obtain ⟨hq, hst⟩ := prefix_of_run hrun room
      exact List.prefix_of_prefix_length_le (hfinal room ▸ hq) hst (queuedTo_length_le h room)
    · obtain ⟨u, hu, hrest⟩ := run_cons_eq_some.mp hrun
      obtain rfl : s' = u := by simpa [hs'] using hu
      exact ih (accounted_step h hs') hrest

theorem queuedTo_eq_of_drained {s : Server} (h : Accounted s) (hkept : OrderKept s)
    (hdrained : s.held = []) (room : RoomId) : s.queuedTo room = s.storedIn room := by
  refine (hkept room).eq_of_length ?_
  have honce := h.once
  rw [hdrained, List.append_nil] at honce
  exact (honce.filter _).length_eq

/-- A room that is not removed shows the size of the last size item stored. -/
theorem content_size_step {s s' : Server} {a : Action} {room : RoomId}
    (hsize : (s.rooms.content room).bind Content.size = lastSize (s.appendedTo room))
    (hkeep : s.removes a ≠ some room) (hstep : s.step a = some s') :
    (s'.rooms.content room).bind Content.size = lastSize (s'.appendedTo room) := by
  obtain ⟨items, hcontent, happ, -⟩ := content_step hstep room
  rw [happ]
  have hremoved : s'.rooms.content room = none → s.rooms.content room = none := by
    simp only [Rooms.content, Option.map_eq_none_iff]
    intro hnone
    exact (((rooms_eq_none_iff_of_step hstep).mp hnone).resolve_right hkeep).1
  generalize s.rooms.content room = before at hsize hcontent hremoved
  generalize s'.rooms.content room = after at hcontent hremoved ⊢
  cases hcontent with
  | same => simpa using hsize
  | claimed => simpa [Content.empty] using hsize
  | removed c => cases hremoved rfl
  | cleared c => simpa using hsize
  | stored _ item =>
    rw [lastSize_append_singleton, ← hsize]
    cases before <;> simp [Content.store, Content.empty]

theorem snapshot_size (rooms : Rooms) (now : ℕ) (room : RoomId) :
    (rooms.snapshot now room).bind RoomSnapshot.size =
      (rooms.content room).bind Content.size := by
  cases he : rooms room <;> simp [Rooms.snapshot, Rooms.content, he]

theorem appendedTo_eq (s : Server) (room : RoomId) :
    s.appendedTo room = (s.storedIn room).map Stored.item := by
  simp [appendedTo, storedIn, List.filter_map, Function.comp_def]

/-- What holds of a room that never has more than one ingest connection. -/
structure InOrder (room : RoomId) (s : Server) : Prop where
  accounted : Accounted s
  home : ∀ c ∈ s.conns, ∀ stored, c.phase.held = some stored → stored.item.room = c.room
  order : s.queuedTo room <+: s.storedIn room

theorem inOrder_init (ttl : ℕ) (room : RoomId) : InOrder room (init ttl) :=
  ⟨accounted_init ttl, fun _ hc => (by cases hc), List.prefix_refl _⟩

theorem home_step {s s' : Server} {a : Action}
    (h : ∀ c ∈ s.conns, ∀ stored, c.phase.held = some stored → stored.item.room = c.room)
    (hstep : s.step a = some s') :
    ∀ c ∈ s'.conns, ∀ stored, c.phase.held = some stored → stored.item.room = c.room := by
  have hset : ∀ {i : ℕ} {c' : Conn},
      (∀ stored, c'.phase.held = some stored → stored.item.room = c'.room) →
        ∀ c ∈ s.conns.set i c', ∀ stored, c.phase.held = some stored →
          stored.item.room = c.room := by
    intro i c' hc' c hc
    rcases List.mem_or_eq_of_mem_set hc with hc | rfl
    · exact h c hc
    · exact hc'
  cases step_cases hstep with
  | elapse d => exact h
  | handshake room secret =>
    rcases handshake_conns s room secret with hconns | hconns <;> rw [hconns]
    · exact h
    · intro c hc
      rcases List.mem_append.mp hc with hc | hc
      · exact h c hc
      · obtain rfl := List.mem_singleton.mp hc
        nofun
  | attach i c hc hp =>
    apply hset
    simp only [Conn.to]
    split <;> nofun
  | receive i msg c hc hp =>
    obtain ⟨c', hconns, hroom, -, -, -, ⟨-, hphase, -⟩ | ⟨_, _, -, -, -, -, hphase⟩⟩ :=
      receive_spec s i c msg <;> rw [hconns] <;> apply hset
    · rcases hphase with hphase | hphase | hphase <;> rw [hphase] <;> nofun
    · rw [hphase, hroom]
      rintro _ ⟨⟩
      rfl
  | hangUp i c hc hp => exact hset nofun
  | publish i c out phase hc hp =>
    apply hset
    rcases publication_cases hp with ⟨_, _, rfl⟩ | ⟨_, _, _, rfl⟩ | ⟨_, _, rfl⟩ | ⟨_, _, rfl⟩ <;>
      nofun
  | ack i sent c hc hp =>
    apply hset
    cases sent <;> nofun
  | detach i c hc hp =>
    apply hset
    simp only [Conn.to]
    split <;> nofun
  | deleteRoom room secret => exact h
  | evict room => exact h

/-- With one ingest connection, store and publication cannot cross. -/
theorem inOrder_step {room : RoomId} {s s' : Server} {a : Action} (h : InOrder room s)
    (hone : s.conns.countP (fun c => c.room = room) ≤ 1) (hstep : s.step a = some s') :
    InOrder room s' := by
  refine ⟨accounted_step h.accounted hstep, home_step h.home hstep, ?_⟩
  apply order_step_of_oldest h.accounted h.order _ hstep
  rintro c hc stored hstored hroom - older holder hroom'
  obtain ⟨c', hc', hstored'⟩ := List.mem_filterMap.mp holder
  have hmine : c ∈ s.conns.filter fun c => c.room = room :=
    List.mem_filter.mpr ⟨hc, by simp [← h.home c hc stored hstored, hroom]⟩
  have htheirs : c' ∈ s.conns.filter fun c => c.room = room :=
    List.mem_filter.mpr ⟨hc', by simp [← h.home c' hc' older hstored', hroom']⟩
  rw [List.countP_eq_length_filter] at hone
  -- whoever holds the older item is the same connection, and it holds one item
  obtain rfl : c = c' := by
    generalize s.conns.filter (fun c => c.room = room) = conns at hone hmine htheirs
    match conns, hone with
    | [d], _ =>
      obtain rfl := List.mem_singleton.mp hmine
      exact (List.mem_singleton.mp htheirs).symm
  obtain rfl : stored = older := by simpa [hstored] using hstored'
  exact le_refl _

/-- A run keeps the items of every room in the order they were stored, in each
of its states, if and only if its loops always publish the oldest item first.
Then live viewers are sent the stream the history was cut from, and its size. -/
theorem publish_order_agrees (ttl : ℕ) (as : List Action) (s : Server)
    (hrun : run step (init ttl) as = some s) :
    (StatesSatisfy step OrderKept (init ttl) as ↔
      StepsSatisfy step PublishesOldestFirst (init ttl) as) ∧
    (s.held = [] → ((∀ room, s.queuedTo room = s.storedIn room) ↔
      StepsSatisfy step PublishesOldestFirst (init ttl) as)) ∧
    (s.held = [] → StepsSatisfy step PublishesOldestFirst (init ttl) as →
      ∀ room live, live = (s.queuedTo room).map Stored.item →
        (∀ entry, s.rooms room = some entry → ∃ messages, messages <:+ payloads live ∧
          IsLongestSuffix (MessageHistory.Allowed maxHistoryMessages maxHistoryBytes)
            (MessageHistory.nonempty messages) entry.messages.chunks) ∧
        (StepsSatisfy step (fun s a => s.removes a ≠ some room) (init ttl) as →
          (s.rooms.snapshot s.now room).bind RoomSnapshot.size = lastSize live)) := by
  have hiff : StatesSatisfy step OrderKept (init ttl) as ↔
      StepsSatisfy step PublishesOldestFirst (init ttl) as :=
    states_iff_steps (D := fun _ _ => True) (fun _ _ _ h _ hstep => accounted_step h hstep)
      (fun _ _ _ h _ hkept hstep => orderKept_step_iff h hkept hstep) (accounted_init ttl)
      (fun _ => List.prefix_refl _) (stepsSatisfy_of_forall (fun _ _ => trivial) _ as)
  have hacc : Accounted s :=
    run_preserves (fun _ _ _ h hstep => accounted_step h hstep) (accounted_init ttl) hrun
  have hagree : s.held = [] → StepsSatisfy step PublishesOldestFirst (init ttl) as →
      ∀ room, s.queuedTo room = s.storedIn room :=
    fun hdrained hC => queuedTo_eq_of_drained hacc ((hiff.mpr hC).final hrun) hdrained
  refine ⟨hiff, fun hdrained => ⟨fun hfinal => ?_, hagree hdrained⟩, ?_⟩
  · exact hiff.mp (orderKept_of_final (accounted_init ttl) hrun hfinal)
  · rintro hdrained hC room _ rfl
    rw [hagree hdrained hC room, ← appendedTo_eq]
    constructor
    · intro entry he
      obtain ⟨messages, hsuf, hholds⟩ := (historiesKept_of_run hrun).window room
        ⟨entry.messages, entry.size⟩ (by simp [Rooms.content, he])
      exact ⟨messages, hsuf, hholds.window⟩
    · intro hkeep
      rw [snapshot_size]
      exact run_preserves_of_steps (I := fun s =>
        (s.rooms.content room).bind Content.size = lastSize (s.appendedTo room))
        (fun _ _ _ hsize hkeep hstep => content_size_step hsize hkeep hstep) rfl hkeep hrun

def sizeValue (cols : ℚ) : Json := .object [("cols", .number cols), ("rows", .number 24)]

def sizeFrame (cols : ℚ) : WsMessage := .text 33 (some (.object [("size", sizeValue cols)]))

/-- Two loops cross: the size stored first is published last. -/
def crossing : List Action :=
  [.handshake ⟨"demo"⟩ "pw", .attach 0, .publish 0, .handshake ⟨"demo"⟩ "pw", .attach 1,
    .publish 1, .receive 0 (sizeFrame 80), .receive 1 (sizeFrame 100), .publish 1, .publish 0]

theorem publish_order_disagrees :
    ∃ s, run step (init 1000) crossing = some s ∧ s.held = [] ∧
      (s.storedIn ⟨"demo"⟩).map Stored.seq = [0, 1] ∧
      (s.queuedTo ⟨"demo"⟩).map Stored.seq = [1, 0] ∧
      (s.rooms.snapshot s.now ⟨"demo"⟩).bind RoomSnapshot.size = some (sizeValue 100) ∧
      lastSize ((s.queuedTo ⟨"demo"⟩).map Stored.item) = some (sizeValue 80) :=
  ⟨_, rfl, rfl, rfl, rfl, rfl, rfl⟩

/-- One loop on its own, which stores a size and then a payload. -/
def alone : List Action :=
  [.handshake ⟨"demo"⟩ "pw", .attach 0, .publish 0, .receive 0 (sizeFrame 80), .publish 0,
    .ack 0 true, .receive 0 (.binary [7]), .publish 0]

theorem publish_order_agrees_alone :
    ∃ s, run step (init 1000) alone = some s ∧ StatesSatisfy step OrderKept (init 1000) alone ∧
      (∀ room, s.queuedTo room = s.storedIn room) ∧
      (s.rooms.snapshot s.now ⟨"demo"⟩).bind RoomSnapshot.size =
        lastSize ((s.queuedTo ⟨"demo"⟩).map Stored.item) := by
  obtain ⟨s, hrun, hdrained⟩ : ∃ s, run step (init 1000) alone = some s ∧ s.held = [] :=
    ⟨_, rfl, rfl⟩
  have hC : StepsSatisfy step PublishesOldestFirst (init 1000) alone := by decide
  have hkeep : StepsSatisfy step (fun s a => s.removes a ≠ some ⟨"demo"⟩) (init 1000) alone := by
    decide
  obtain ⟨hstates, hfinal, hviewers⟩ := publish_order_agrees 1000 alone s hrun
  exact ⟨s, hrun, hstates.mpr hC, (hfinal hdrained).mpr hC,
    (hviewers hdrained hC ⟨"demo"⟩ _ rfl).2 hkeep⟩

end Server

end Shellshare
