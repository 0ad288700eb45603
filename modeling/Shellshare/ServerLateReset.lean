import Mathlib.Data.List.DropRight
import Shellshare.ServerContent
import Shellshare.ServerReset

/-! The reset of a connection that was overtaken by a later one: whose output it
clears. -/
namespace Shellshare

/-- Something that the history of the room keeps when it is stored. -/
def Stored.chunkOf (room : RoomId) (stored : Stored) : Bool :=
  stored.item.room = room && stored.item.payload.any fun m => !m.isEmpty

namespace Server
open TransitionRuns

/-- History of a run: the connections in the order their loops attached. -/
def noteAttached (_ : Server) (a : Action) (_ : Server) (attached : List ℕ) : List ℕ :=
  match a with
  | .attach i => attached ++ [i]
  | _ => attached

/-- The stores whose chunks the history of the room holds: the last ones. -/
def heldIn (s : Server) (room : RoomId) : List Stored :=
  match s.rooms room with
  | none => []
  | some entry =>
    (s.appended.filter (Stored.chunkOf room)).rtake entry.messages.chunks.length

/-- A reset frame that leaves the history empty discards nothing that was stored by a
connection attached after the one it came from. -/
def ResetKeepsNewer (p : Server × List ℕ) (a : Action) : Prop :=
  ∀ i msg c s', a = .receive i msg → p.1.conns[i]? = some c → request msg = .reset →
    p.1.step a = some s' → s'.rooms.replayed c.room = none →
      ∀ stored ∈ p.1.heldIn c.room, ¬ [i, stored.conn].Sublist p.2

/-- While the history holds a chunk of a connection that attached later, a reset
frame with the room's password finds it counting a second broadcaster. -/
def NewerStillCounted (p : Server × List ℕ) (a : Action) : Prop :=
  ∀ i msg c entry, a = .receive i msg → p.1.conns[i]? = some c → request msg = .reset →
    p.1.rooms c.room = some entry → entry.password = c.secret →
      (∃ stored ∈ p.1.heldIn c.room, [i, stored.conn].Sublist p.2) → 1 < entry.broadcasters

theorem map_payload_chunkOf (stores : List Stored) (room : RoomId) :
    (stores.filter (Stored.chunkOf room)).map (fun stored => stored.item.payload) =
      (MessageHistory.nonempty (payloads ((stores.map Stored.item).filter
        fun item => item.room = room))).map some := by
  induction stores with
  | nil => rfl
  | cons stored stores ih =>
    by_cases hroom : stored.item.room = room
    · cases hp : stored.item.payload with
      | none => simpa [Stored.chunkOf, payloads, hroom, hp] using ih
      | some m =>
        cases hm : m.isEmpty <;>
          simpa [Stored.chunkOf, payloads, MessageHistory.nonempty, hroom, hp, hm] using ih
    · simpa [Stored.chunkOf, payloads, hroom] using ih

/-- In every run the chunks of a history are the payloads of these stores. -/
theorem heldIn_payloads {ttl : ℕ} {as : List Action} {s : Server}
    (hrun : run step (init ttl) as = some s) {room : RoomId} {entry : Room}
    (he : s.rooms room = some entry) :
    (s.heldIn room).map (fun stored => stored.item.payload) =
      entry.messages.chunks.map some := by
  have hcontent : s.rooms.content room = some ⟨entry.messages, entry.size⟩ := by
    simp [Rooms.content, he]
  obtain ⟨messages, hsuffix, hholds⟩ := (historiesKept_of_run hrun).window room _ hcontent
  -- the history is the end of what was stored, so as many of the last stores hold it
  have hchunks : entry.messages.chunks <:+
      MessageHistory.nonempty (payloads (s.appendedTo room)) :=
    hholds.window.suffix.trans (hsuffix.filter _)
  let kept := MessageHistory.nonempty (payloads (s.appendedTo room))
  have hmap : (s.appended.filter (Stored.chunkOf room)).map (fun stored => stored.item.payload) =
      kept.map some := map_payload_chunkOf s.appended room
  have hlen : (s.appended.filter (Stored.chunkOf room)).length = kept.length := by
    simpa using congrArg List.length hmap
  calc (s.heldIn room).map (fun stored => stored.item.payload)
      = (kept.map some).drop (kept.length - entry.messages.chunks.length) := by
        simp only [heldIn, he, List.rtake, List.map_drop, hmap, hlen]
    _ = (kept.drop (kept.length - entry.messages.chunks.length)).map some := List.map_drop.symm
    _ = entry.messages.chunks.map some := by rw [← List.suffix_iff_eq_drop.mp hchunks]

/-- What is held is there to be replayed. -/
theorem accumulated_of_heldIn {s : Server} {room : RoomId} {stored : Stored}
    (hheld : stored ∈ s.heldIn room) :
    ∃ entry, s.rooms room = some entry ∧ entry.messages.accumulated ≠ none := by
  cases he : s.rooms room with
  | none =>
    rw [heldIn, he] at hheld
    cases hheld
  | some entry =>
    refine ⟨entry, rfl, ?_⟩
    intro hnone
    have hchunks : entry.messages.chunks = [] := by
      by_contra hne
      rw [MessageHistory.accumulated, if_neg hne] at hnone
      cases hnone
    simp [heldIn, he, hchunks, List.rtake] at hheld

/-- A reset empties a history that is not empty exactly for the sole broadcaster
with the room's password. -/
theorem replayed_reset_eq_none {rooms : Rooms} {now : ℕ} {room : RoomId} {secret : String}
    {entry : Room} (he : rooms room = some entry) (hne : entry.messages.accumulated ≠ none) :
    (rooms.reset now room secret).2.replayed room = none ↔
      entry.password = secret ∧ entry.broadcasters ≤ 1 := by
  -- the history stays where the reset is refused or skipped
  have hkept : rooms.replayed room ≠ none := by simpa [Rooms.replayed, he] using hne
  rcases rooms.reset_cases now room secret with
    ⟨held, hheld, hother, hr⟩ | ⟨hsame, hr⟩ | ⟨held, hheld, hown, hsole, hr⟩
  · obtain rfl := Option.some.inj (he.symm.trans hheld)
    rw [hr]
    exact iff_of_false hkept fun h => hother h.1
  · obtain ⟨hown, hmany⟩ := hsame entry he
    rw [hr]
    exact iff_of_false hkept (by omega)
  · obtain rfl := Option.some.inj (he.symm.trans hheld)
    rw [hr]
    exact iff_of_true (replayed_update _ _ _) ⟨hown, hsole⟩

/-- The step lemma: what a reset clears is newer only if no second broadcaster was
counted to stop it. -/
theorem resetKeepsNewer_iff {p p' : Server × List ℕ} {a : Action}
    (hstep : withHistory step noteAttached p a = some p') :
    ResetKeepsNewer p a ↔ NewerStillCounted p a := by
  obtain ⟨s, attached⟩ := p
  obtain ⟨hserver, -⟩ := withHistory_eq_some.mp hstep
  have hrooms {i : ℕ} {msg : WsMessage} {c : Conn} {t : Server} (hc : s.conns[i]? = some c)
      (hreq : request msg = .reset) (ht : s.step (.receive i msg) = some t) :
      t.rooms = (s.rooms.reset s.now c.room c.secret).2 := by
    cases step_cases ht with
    | receive i msg d hd hp =>
      obtain rfl := Option.some.inj (hc.symm.trans hd)
      rw [receive_rooms, hreq]
  constructor
  · rintro hkeeps i msg c entry rfl hc hreq he hown ⟨stored, hheld, hnewer⟩
    obtain ⟨held, hheld', hne⟩ := accumulated_of_heldIn hheld
    obtain rfl := Option.some.inj (he.symm.trans hheld')
    -- without a second broadcaster the reset would clear what is newer
    by_contra hsole
    have hclears : p'.1.rooms.replayed c.room = none := by
      rw [hrooms hc hreq hserver, replayed_reset_eq_none he hne]
      exact ⟨hown, not_lt.mp hsole⟩
    exact hkeeps i msg c p'.1 rfl hc hreq hserver hclears stored hheld hnewer
  · rintro hcounted i msg c t rfl hc hreq ht hclears stored hheld hnewer
    obtain ⟨entry, he, hne⟩ := accumulated_of_heldIn hheld
    rw [hrooms hc hreq ht, replayed_reset_eq_none he hne] at hclears
    obtain ⟨hown, hsole⟩ := hclears
    have hmany : 1 < entry.broadcasters :=
      hcounted i msg c entry rfl hc hreq he hown ⟨stored, hheld, hnewer⟩
    omega

/-- A history holds what these stores put there, and in a run no reset discards any
of it that a later connection stored if and only if none is handled, with the room's
password, that finds such output and no second broadcaster counted. -/
theorem late_reset_harmless_iff (ttl : ℕ) (as : List Action) :
    (∀ s room entry, run step (init ttl) as = some s → s.rooms room = some entry →
      (s.heldIn room).map (fun stored => stored.item.payload) =
        entry.messages.chunks.map some) ∧
    (StepsSatisfy (withHistory step noteAttached) ResetKeepsNewer (init ttl, []) as ↔
      StepsSatisfy (withHistory step noteAttached) NewerStillCounted (init ttl, []) as) :=
  ⟨fun _ _ _ hrun he => heldIn_payloads hrun he,
    stepsSatisfy_congr fun _ _ _ hstep => resetKeepsNewer_iff hstep⟩

/-- A first connection stalls with its reset in flight; its reconnect attaches, stores
a chunk and is gone again when the reset arrives. -/
def overtaken : List Action :=
  [.handshake ⟨"demo"⟩ "pw", .attach 0, .publish 0,
    .handshake ⟨"demo"⟩ "pw", .attach 1, .publish 1,
    .receive 1 (.binary [7]), .publish 1, .ack 1 true, .hangUp 1, .detach 1]

theorem late_reset_destroys :
    ∃ p p', run (withHistory step noteAttached) (init 1000, []) overtaken = some p ∧
      (p.1.heldIn ⟨"demo"⟩).map (fun stored => (stored.conn, stored.item.payload)) =
        [(1, some [7])] ∧ p.2 = [0, 1] ∧
      withHistory step noteAttached p
        (.receive 0 (.text 14 (some (.object [("reset", .bool true)])))) = some p' ∧
      p.1.rooms.replayed ⟨"demo"⟩ = some [7] ∧ p'.1.rooms.replayed ⟨"demo"⟩ = none :=
  ⟨_, _, rfl, rfl, rfl, rfl, rfl, rfl⟩

end Server

end Shellshare
