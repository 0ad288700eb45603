import Shellshare.AtLeastOnce
import Shellshare.ServerHandover
import Shellshare.ViewerFeed

/-! The whole of a broadcast: the client with its links, the server, the fan-out
tasks and the viewers. The net and viewer delivery share one server, whose steps
both of them take. -/
namespace Shellshare
open FrameCoalescing TransitionRuns

structure Broadcast (V : Type) where
  client : Transport V
  links : List Link
  delivery : Delivery

/-- The server moves in `net`: among the steps of `viewing` there is none of its own. -/
inductive BroadcastAction where
  | net (a : NetAction)
  | viewing (a : DeliveryAction)

namespace Net

variable {V : Type}

/-- The step of the server within a step of the net, if there is one. -/
def serverAction (room : RoomId) (secret : String) (n : Net V) : NetAction → Option Action
  | .dial => some (.handshake room secret)
  | .server a => some a
  | .deliver k => n.links[k]?.bind fun l => l.toServer.head?.map (.receive l.conn)
  | _ => none

theorem server_of_serve {n n' : Net V} {a : Action} (hserve : n.serve a = some n') :
    n.server.step a = some n'.server := by
  obtain ⟨server, hserver, hstep⟩ := Option.bind_eq_some_iff.mp hserve
  rw [hserver]
  split at hstep
  · split at hstep
    · cases hstep
    · rw [← Option.some.inj hstep]
  · rw [← Option.some.inj hstep]
  · rw [← Option.some.inj hstep]

variable [Vt V]

/-- A step of the net leaves the server alone or is a step of the server. -/
theorem server_of_step {room : RoomId} {secret : String} {n n' : Net V} {a : NetAction}
    (hstep : n.step room secret a = some n') :
    (n.serverAction room secret a).elim (n'.server = n.server)
      fun act => n.server.step act = some n'.server := by
  cases a with
  | client a =>
    simp only [step] at hstep
    split at hstep
    · cases hstep
    · split at hstep
      · cases hstep
      · cases hstep
      · cases hstep
      · cases hstep
      · obtain ⟨client, -, rfl⟩ := Option.map_eq_some_iff.mp hstep
        rfl
  | dial =>
    simp only [step] at hstep
    split at hstep
    · cases hstep
    · split at hstep
      · cases hstep
      · obtain ⟨client, -, rfl⟩ := Option.map_eq_some_iff.mp hstep
        rfl
  | write sent len =>
    simp only [step] at hstep
    split at hstep
    · cases hstep
    · obtain ⟨client, -, rfl⟩ := Option.map_eq_some_iff.mp hstep
      rfl
  | readAck =>
    simp only [step] at hstep
    split at hstep
    · cases hstep
    · obtain ⟨j, -, hstep⟩ := Option.bind_eq_some_iff.mp hstep
      obtain ⟨l, -, hstep⟩ := Option.bind_eq_some_iff.mp hstep
      split at hstep
      · cases hstep
      · obtain ⟨client, -, rfl⟩ := Option.map_eq_some_iff.mp hstep
        rfl
  | close =>
    simp only [step] at hstep
    split at hstep
    · cases hstep
    · obtain ⟨client, -, rfl⟩ := Option.map_eq_some_iff.mp hstep
      rfl
  | server a => exact server_of_serve hstep
  | deliver k =>
    obtain ⟨l, hl, hstep⟩ := Option.bind_eq_some_iff.mp hstep
    split at hstep
    · cases hstep
    · rename_i frame rest hframes
      obtain ⟨server, hserver, rfl⟩ := Option.map_eq_some_iff.mp hstep
      simp only [serverAction, hl, hframes, Option.bind_some, List.head?_cons, Option.map_some,
        Option.elim_some, hserver]
  | cut k toServer toClient =>
    obtain ⟨l, -, rfl⟩ := Option.map_eq_some_iff.mp hstep
    rfl

/-- A step of the net leaves the client alone or is a step of the client. -/
theorem client_of_step {room : RoomId} {secret : String} {n n' : Net V} {a : NetAction}
    (hstep : n.step room secret a = some n') :
    n'.client = n.client ∨ ∃ a', n.client.step a' = some n'.client := by
  have hmap : ∀ {a' : ClientAction} {f : Transport V → Net V}, (∀ t, (f t).client = t) →
      (n.client.step a').map f = some n' → ∃ a', n.client.step a' = some n'.client := by
    intro a' f hf h
    obtain ⟨client, hclient, rfl⟩ := Option.map_eq_some_iff.mp h
    exact ⟨a', (hf client).symm ▸ hclient⟩
  cases a with
  | client a =>
    simp only [step] at hstep
    split at hstep
    · cases hstep
    · split at hstep
      · cases hstep
      · cases hstep
      · cases hstep
      · cases hstep
      · exact Or.inr (hmap (fun _ => rfl) hstep)
  | dial =>
    simp only [step] at hstep
    split at hstep
    · cases hstep
    · split at hstep
      · cases hstep
      · exact Or.inr (hmap (fun _ => rfl) hstep)
  | write sent len =>
    simp only [step] at hstep
    split at hstep
    · cases hstep
    · exact Or.inr (hmap (fun _ => rfl) hstep)
  | readAck =>
    simp only [step] at hstep
    split at hstep
    · cases hstep
    · obtain ⟨j, -, hstep⟩ := Option.bind_eq_some_iff.mp hstep
      obtain ⟨l, -, hstep⟩ := Option.bind_eq_some_iff.mp hstep
      split at hstep
      · cases hstep
      · exact Or.inr (hmap (fun _ => rfl) hstep)
  | close =>
    simp only [step] at hstep
    split at hstep
    · cases hstep
    · exact Or.inr (hmap (fun _ => rfl) hstep)
  | server a =>
    obtain ⟨server, -, hstep⟩ := Option.bind_eq_some_iff.mp hstep
    split at hstep
    · split at hstep
      · cases hstep
      · exact Or.inl (by rw [← Option.some.inj hstep])
    · exact Or.inl (by rw [← Option.some.inj hstep])
    · exact Or.inl (by rw [← Option.some.inj hstep])
  | deliver k =>
    obtain ⟨l, -, hstep⟩ := Option.bind_eq_some_iff.mp hstep
    split at hstep
    · cases hstep
    · obtain ⟨server, -, rfl⟩ := Option.map_eq_some_iff.mp hstep
      exact Or.inl rfl
  | cut k toServer toClient =>
    obtain ⟨l, -, rfl⟩ := Option.map_eq_some_iff.mp hstep
    exact Or.inl rfl

end Net

theorem Delivery.handsOver_step {roomShard : RoomId → ℕ} {d d' : Delivery} {a : DeliveryAction}
    (h : d.server.HandsOver) (hstep : d.step roomShard a = some d') : d'.server.HandsOver := by
  by_cases ha : ∃ act, a = .server act
  · obtain ⟨act, rfl⟩ := ha
    exact Server.handsOver_step h (server_of_step hstep)
  · rw [server_of_other (fun act heq => ha ⟨act, heq⟩) hstep]
    exact h

namespace Broadcast
open Transport

variable {V : Type}

def net (b : Broadcast V) : Net V := ⟨b.client, b.delivery.server, b.links⟩

variable [Vt V]

def init (size : TermSize) (theme : Option String) (cipher : Option Encryptor) (ttl : ℕ) :
    Broadcast V :=
  ⟨Transport.new size theme cipher, [], .init ttl⟩

def step (roomShard : RoomId → ℕ) (room : RoomId) (secret : String) (b : Broadcast V) :
    BroadcastAction → Option (Broadcast V)
  | .net a => (b.net.step room secret a).bind fun n =>
    match b.net.serverAction room secret a with
    | none => some { b with client := n.client, links := n.links }
    | some act => (b.delivery.step roomShard (.server act)).map fun d => ⟨n.client, n.links, d⟩
  | .viewing (.server _) => none
  | .viewing a => (b.delivery.step roomShard a).map fun d => { b with delivery := d }

variable {roomShard : RoomId → ℕ} {room : RoomId} {secret : String} {b b' : Broadcast V}

/-- A step of the whole is a step of the net or none, and a step of viewer delivery
or none. -/
theorem projects {a : BroadcastAction} (hstep : b.step roomShard room secret a = some b') :
    (b'.net = b.net ∨ ∃ a', b.net.step room secret a' = some b'.net) ∧
    (b'.delivery = b.delivery ∨ ∃ a', b.delivery.step roomShard a' = some b'.delivery) := by
  cases a with
  | net a =>
    obtain ⟨n, hn, hstep⟩ := Option.bind_eq_some_iff.mp hstep
    have hserver := Net.server_of_step hn
    split at hstep
    · rename_i hnone
      rw [hnone] at hserver
      obtain rfl := Option.some.inj hstep
      have hnet : n = ⟨n.client, b.delivery.server, n.links⟩ := by
        rw [← show n.server = b.delivery.server from hserver]
      exact ⟨Or.inr ⟨a, hnet ▸ hn⟩, Or.inl rfl⟩
    · rename_i act hsome
      rw [hsome] at hserver
      obtain ⟨d, hd, rfl⟩ := Option.map_eq_some_iff.mp hstep
      have hsame : d.server = n.server :=
        Option.some.inj ((Delivery.server_of_step hd).symm.trans hserver)
      have hnet : n = ⟨n.client, d.server, n.links⟩ := by rw [hsame]
      exact ⟨Or.inr ⟨a, hnet ▸ hn⟩, Or.inr ⟨_, hd⟩⟩
  | viewing a =>
    have hother : ∀ act, a ≠ .server act := by
      rintro act rfl
      cases hstep
    have hview : (b.delivery.step roomShard a).map (fun d => { b with delivery := d }) =
        some b' := by
      cases a with
      | server act => exact absurd rfl (hother act)
      | _ => exact hstep
    obtain ⟨d, hd, rfl⟩ := Option.map_eq_some_iff.mp hview
    have hserver : d.server = b.delivery.server := Delivery.server_of_other hother hd
    exact ⟨Or.inl (by simp only [net, hserver]), Or.inr ⟨a, hd⟩⟩

/-- What holds of the whole system in every state. -/
structure Kept (roomShard : RoomId → ℕ) (room : RoomId) (b : Broadcast V) : Prop where
  net : Net.Kept room b.net
  fanout : FanoutKept roomShard room b.delivery
  handsOver : b.delivery.server.HandsOver

theorem kept_step (h : Kept roomShard room b) {a : BroadcastAction}
    (hstep : b.step roomShard room secret a = some b') : Kept roomShard room b' := by
  obtain ⟨hnet, hdelivery⟩ := projects hstep
  constructor
  · rcases hnet with hsame | ⟨a', hnet⟩
    · rw [hsame]
      exact h.net
    · exact Net.kept_step h.net hnet
  · rcases hdelivery with hsame | ⟨a', hdelivery⟩
    · rw [hsame]
      exact h.fanout
    · exact Delivery.fanoutKept_step h.fanout hdelivery
  · rcases hdelivery with hsame | ⟨a', hdelivery⟩
    · rw [hsame]
      exact h.handsOver
    · exact Delivery.handsOver_step h.handsOver hdelivery

theorem kept_init (roomShard : RoomId → ℕ) (room : RoomId) (size : TermSize)
    (theme : Option String) (cipher : Option Encryptor) (ttl : ℕ) :
    Kept roomShard room (init size theme cipher ttl : Broadcast V) :=
  ⟨Net.kept_init room size theme cipher ttl, Delivery.fanoutKept_init roomShard room ttl,
    Server.handsOver_init ttl⟩

/-- The `k`-th viewer follows the room from what had been `queued` when it joined. -/
structure Follower (roomShard : RoomId → ℕ) (room : RoomId) (queued : List Stored) (k : ℕ)
    (b : Broadcast V) : Prop where
  kept : Kept roomShard room b
  feeds : Delivery.Feeds roomShard room (queued.map Stored.item) k b.delivery
  grown : queued <+: b.delivery.server.queued

theorem queued_grows {d d' : Delivery} {a : DeliveryAction}
    (hstep : d.step roomShard a = some d') : d.server.queued <+: d'.server.queued := by
  by_cases ha : ∃ act, a = .server act
  · obtain ⟨act, rfl⟩ := ha
    rw [Server.queued, Server.queued,
      Server.published_outputs (Delivery.server_of_step hstep), List.filterMap_append]
    exact List.prefix_append _ _
  · rw [Delivery.server_of_other (fun act heq => ha ⟨act, heq⟩) hstep]

theorem follower_step {queued : List Stored} {k : ℕ} (h : Follower roomShard room queued k b)
    {a : BroadcastAction} (hstep : b.step roomShard room secret a = some b') :
    Follower roomShard room queued k b' := by
  have hkept := kept_step h.kept hstep
  rcases (projects hstep).2 with hsame | ⟨a', hdelivery⟩
  · exact ⟨hkept, hsame ▸ h.feeds, hsame ▸ h.grown⟩
  · exact ⟨hkept, Delivery.feeds_step h.kept.fanout h.feeds hdelivery,
      h.grown.trans (queued_grows hdelivery)⟩

theorem follower_join (h : Kept roomShard room b)
    (hstep : b.step roomShard room secret (.viewing (.join room)) = some b') :
    Follower roomShard room b.delivery.server.queued b.delivery.viewers.length b' := by
  have hkept := kept_step h hstep
  obtain rfl := Option.some.inj hstep
  exact ⟨hkept, Delivery.feeds_join h.fanout, List.prefix_rfl⟩

/-- What `v` was `fed` after its snapshot: the end of what its room published, from some
place before the state `before` on. Each connection's chunks are in their order there, and
a chunk of the client's is missing only if it is still held, was dropped by the buffer cap or
was stored before. -/
structure Fed (room : RoomId) (before : Server) (b : Broadcast V) (v : Viewer)
    (fed : List Bytes) : Prop where
  received : v.received.flatMap Frame.content =
    (v.past.snapshot.bind RoomSnapshot.history).getD [] ++ fed.flatten
  published : fed <:+ Server.payloads ((b.delivery.server.queuedTo room).map Stored.item)
  since : Server.payloads (((b.delivery.server.queuedTo room).drop
    (before.queuedTo room).length).map Stored.item) <:+ fed
  in_order : ∀ i : ℕ, ((b.delivery.server.storedBy room i).drop
    (before.storedBy room i).length).Sublist fed
  delivered : ∀ chunk ∈ b.client.queued, chunk ∈ b.client.unacked ++ b.client.pending ∨
    chunk ∈ b.client.discarded ∨ chunk.bytes ∈ fed ∨
    ∃ k l, b.links[k]? = some l ∧
      chunk ∈ (b.client.wrote k).take (before.storedBy room l.conn).length

/-- The payloads that loop `i` stored in the room, among the items `xs`. -/
def payloadsFrom (room : RoomId) (i : ℕ) (xs : List Stored) : List Bytes :=
  (xs.filter fun stored => stored.conn = i ∧ stored.item.room = room).filterMap
    fun stored => stored.item.payload

theorem payloadsFrom_append (room : RoomId) (i : ℕ) (xs ys : List Stored) :
    payloadsFrom room i (xs ++ ys) = payloadsFrom room i xs ++ payloadsFrom room i ys := by
  rw [payloadsFrom, List.filter_append, List.filterMap_append]
  rfl

theorem payloads_to_append (room : RoomId) (xs ys : List Stored) :
    Server.payloads (((xs ++ ys).map Stored.item).filter fun item => item.room = room) =
      Server.payloads ((xs.map Stored.item).filter fun item => item.room = room) ++
        Server.payloads ((ys.map Stored.item).filter fun item => item.room = room) := by
  rw [List.map_append, List.filter_append, Server.payloads_append]

/-- One loop's payloads are among its room's, in the same order. -/
theorem payloadsFrom_sublist (room : RoomId) (i : ℕ) (xs : List Stored) :
    (payloadsFrom room i xs).Sublist
      (Server.payloads ((xs.map Stored.item).filter fun item => item.room = room)) := by
  have hroom : Server.payloads ((xs.map Stored.item).filter fun item => item.room = room) =
      (xs.filter fun stored => stored.item.room = room).filterMap
        fun stored => stored.item.payload := by
    rw [Server.payloads, List.filter_map, List.filterMap_map]
    rfl
  rw [hroom]
  apply List.Sublist.filterMap
  apply List.monotone_filter_right
  intro stored hmem
  simp only [Bool.decide_and, Bool.and_eq_true, decide_eq_true_eq] at hmem ⊢
  exact hmem.2

/-- What a loop has stored is what it published, and the item it may hold. -/
theorem storedBy_of_handsOver {s : Server} (h : s.HandsOver) (room : RoomId) (i : ℕ) :
    s.storedBy room i = payloadsFrom room i s.queued ++ payloadsFrom room i (s.heldBy i) := by
  have hsplit : ∀ xs : List Stored,
      (xs.filter fun stored => stored.conn = i ∧ stored.item.room = room) =
        (xs.filter fun stored => stored.conn = i).filter fun stored =>
          stored.conn = i ∧ stored.item.room = room := by
    intro xs
    rw [List.filter_filter]
    apply List.filter_congr
    intro stored _
    by_cases hi : stored.conn = i <;> simp [hi]
  rw [Server.storedBy, payloadsFrom, payloadsFrom, ← List.filterMap_append, hsplit, h i,
    List.filter_append, ← hsplit]

/-- When no loop holds an item of the room, what a loop stored since is among what the
room published since. -/
theorem stored_since {s before : Server} (h : s.HandsOver) (hbefore : before.HandsOver)
    {new : List Stored} (hqueued : before.queued ++ new = s.queued)
    (hheld : ∀ stored ∈ s.held, stored.item.room ≠ room) (i : ℕ) :
    ((s.storedBy room i).drop (before.storedBy room i).length).Sublist
      (Server.payloads ((new.map Stored.item).filter fun item => item.room = room)) := by
  have hnone : payloadsFrom room i (s.heldBy i) = [] := by
    have hfilter : (s.heldBy i).filter
        (fun stored => stored.conn = i ∧ stored.item.room = room) = [] := by
      rw [List.filter_eq_nil_iff]
      intro stored hmem
      obtain ⟨c, hc, hphase⟩ := Option.bind_eq_some_iff.mp (Option.mem_toList.mp hmem)
      have hroom := hheld stored (List.mem_filterMap.mpr ⟨c, List.mem_of_getElem? hc, hphase⟩)
      simp [hroom]
    rw [payloadsFrom, hfilter]
    rfl
  rw [storedBy_of_handsOver h, storedBy_of_handsOver hbefore, hnone, List.append_nil, ← hqueued,
    payloadsFrom_append, List.length_append, ← List.drop_drop, List.drop_left]
  exact (List.drop_sublist _ _).trans (payloadsFrom_sublist room i new)

omit [Vt V] in
/-- A chunk that has been stored, but not by the state `before`, has been stored since. -/
theorem mem_drop_of_stored {n : Net V} (h : Net.Delivered room n) {chunk : Chunk} {k m : ℕ}
    {l : Link} (hl : n.links[k]? = some l)
    (hmem : chunk ∈ (n.client.wrote k).take (n.server.storedBy room l.conn).length)
    (hafter : chunk ∉ (n.client.wrote k).take m) :
    chunk.bytes ∈ (n.server.storedBy room l.conn).drop m := by
  obtain ⟨hstored, -⟩ := h.in_order k l hl
  obtain ⟨j, hj, hget⟩ := List.mem_take_iff_getElem.mp hmem
  have hle : m ≤ j := by
    by_contra hlt
    apply hafter
    exact List.mem_take_iff_getElem.mpr ⟨j, by omega, hget⟩
  have hlen := hstored.length_le
  have hbytes : (n.server.storedBy room l.conn)[j]? = some chunk.bytes := by
    rw [List.prefix_iff_eq_take.mp hstored, List.getElem?_take_of_lt (by omega),
      List.getElem?_map, List.getElem?_eq_getElem (by omega), hget]
    rfl
  apply List.mem_of_getElem? (i := j - m)
  rw [List.getElem?_drop, Nat.add_sub_cancel' hle]
  exact hbytes

omit [Vt V] in
/-- What a follower is fed is the end of what its room published. -/
theorem fed_of_follower {queued : List Stored} {k : ℕ} (h : Follower roomShard room queued k b)
    {v : Viewer} (hv : b.delivery.viewers[k]? = some v) (hdrained : Drained roomShard b.delivery v) :
    v.room = room ∧ ∃ earlier fed, v.received.flatMap Frame.content =
        (v.past.snapshot.bind RoomSnapshot.history).getD [] ++ fed.flatten ∧
      earlier ++ fed = Server.payloads
        ((b.delivery.server.queued.map Stored.item).filter fun item => item.room = room) ∧
      earlier <+: Server.payloads
        ((queued.map Stored.item).filter fun item => item.room = room) := by
  obtain ⟨u, hu, hroom, hfollows⟩ := h.feeds
  obtain rfl : v = u := Option.some.inj (hv.symm.trans hu)
  subst hroom
  refine ⟨rfl, ?_⟩
  have hmem := List.mem_of_getElem? hv
  obtain ⟨rest, earlier, later, hall, hbefore, hread, hrest⟩ :=
    Delivery.received_of_feeds h.kept.fanout hmem hfollows
  refine ⟨earlier.filterMap payloadOf, later.filterMap payloadOf, ?_, ?_, ?_⟩
  · have hcontent := hread seesItems_content
    have hcatchUp := (Delivery.catchUp_read (h.kept.fanout.viewers v hmem)
      (by rw [hdrained.live]; nofun)).1
    rw [hrest hdrained, List.append_nil, hcatchUp, content_eq_flatten later] at hcontent
    exact hcontent
  · rw [← List.filterMap_append, hall, payloads_uncoalesced]
  · rw [← payloads_uncoalesced]
    exact hbefore.filterMap _

theorem exists_fed {size : TermSize} {theme : Option String} {cipher : Option Encryptor} {ttl : ℕ}
    {as bs : List BroadcastAction} {b₀ b : Broadcast V} {v : Viewer}
    (hbefore : run (step roomShard room secret) (init size theme cipher ttl) as = some b₀)
    (hafter : run (step roomShard room secret) b₀ (.viewing (.join room) :: bs) = some b)
    (hv : b.delivery.viewers[b₀.delivery.viewers.length]? = some v)
    (hdrained : Drained roomShard b.delivery v) :
    v.room = room ∧ ∃ fed, Fed room b₀.delivery.server b v fed := by
  have hkept₀ : Kept roomShard room b₀ := run_preserves
    (fun _ _ _ h hstep => kept_step h hstep) (kept_init roomShard room size theme cipher ttl) hbefore
  obtain ⟨b₁, hjoin, hrun⟩ := run_cons_eq_some.mp hafter
  have h : Follower roomShard room b₀.delivery.server.queued b₀.delivery.viewers.length b :=
    run_preserves (fun _ _ _ h hstep => follower_step h hstep) (follower_join hkept₀ hjoin) hrun
  obtain ⟨hroom, earlier, fed, hreceived, hall, hearlier⟩ := fed_of_follower h hv hdrained
  obtain ⟨new, hnew⟩ := h.grown
  -- what was published since the join is at the end of what the viewer is fed
  have hsuffix : Server.payloads ((new.map Stored.item).filter fun item => item.room = room) <:+
      fed := by
    obtain ⟨more, hmore⟩ := hearlier
    rw [← hnew, payloads_to_append, ← hmore, List.append_assoc] at hall
    exact ⟨more, (List.append_cancel_left hall).symm⟩
  have hsince : ∀ i : ℕ, ((b.delivery.server.storedBy room i).drop
      (b₀.delivery.server.storedBy room i).length).Sublist fed := fun i =>
    (stored_since h.kept.handsOver hkept₀.handsOver hnew
      (fun stored hmem => hroom ▸ hdrained.published stored hmem) i).trans hsuffix.sublist
  have hdelivered := h.kept.net.delivered
  have hqueued : (b.delivery.server.queuedTo room).drop (b₀.delivery.server.queuedTo room).length =
      new.filter fun stored => stored.item.room = room := by
    rw [Server.queuedTo, Server.queuedTo, ← hnew, List.filter_append, List.drop_left]
  refine ⟨hroom, fed, hreceived, ⟨earlier, ?_⟩, ?_, hsince, fun chunk hmem => ?_⟩
  · rw [hall, Server.queuedTo, List.filter_map]
    rfl
  · rw [hqueued]
    rwa [List.filter_map] at hsuffix
  · rcases hdelivered.accounted chunk hmem with hheld | hgone | ⟨k, l, hl, hstored⟩
    · exact Or.inl hheld
    · exact Or.inr (Or.inl hgone)
    · refine Or.inr (Or.inr ?_)
      by_cases hold : chunk ∈
          (b.client.wrote k).take (b₀.delivery.server.storedBy room l.conn).length
      · exact Or.inr ⟨k, l, hl, hold⟩
      · exact Or.inl ((hsince l.conn).subset (mem_drop_of_stored hdelivered hl hstored hold))

/-- A viewer that has joined and to which all is delivered shows, after the history it
was greeted with, the end of what its room published: all since it joined and so every chunk
of the broadcast but those the client still holds, those the buffer cap dropped and those
stored before, whatever connections were cut and whatever else the server did. -/
theorem output_reaches_viewers (roomShard : RoomId → ℕ) (room : RoomId) (secret : String)
    (size : TermSize) (theme : Option String) (cipher : Option Encryptor) (ttl : ℕ)
    (as bs : List BroadcastAction) (b₀ b : Broadcast V) (v : Viewer)
    (hbefore : run (step roomShard room secret) (init size theme cipher ttl) as = some b₀)
    (hafter : run (step roomShard room secret) b₀ (.viewing (.join room) :: bs) = some b)
    (hv : b.delivery.viewers[b₀.delivery.viewers.length]? = some v)
    (hdrained : Drained roomShard b.delivery v) :
    ∃ fed, Fed room b₀.delivery.server b v fed :=
  (exists_fed hbefore hafter hv hdrained).2

/-- The first chunk is stored and published, and not yet acknowledged to the client. -/
def firstChunk : List BroadcastAction :=
  [.dial, .server (.attach 0), .server (.publish 0), .write true 14, .deliver 0,
    .server (.publish 0), .client (.send [104] size80x24 zeroNonce zeroNonce),
    .client (.read .quiet), .write true 33, .write true 0, .deliver 0, .server (.publish 0),
    .server (.ack 0 true), .deliver 0, .server (.publish 0), .server (.ack 0 true)].map
    BroadcastAction.net

/-- A viewer catches up, the connection is cut before any ack arrives, and the client
replays what it holds on the next one. -/
def cutAndReplayed : List BroadcastAction :=
  [.viewer 0 .snapshot, .viewer 0 .transmit, .viewer 0 .transmit, .viewer 0 .transmit,
    .viewer 0 .count, .viewer 0 .transmit, .viewer 0 .notify].map BroadcastAction.viewing ++
  [.cut 0 0 0, .client (.send [105] size80x24 zeroNonce zeroNonce), .client (.read .dead),
    .client (.elapse 250), .client (.tick size80x24), .dial, .server (.attach 1),
    .server (.publish 1), .write true 33, .write true 0, .write true 0, .deliver 1,
    .server (.publish 1), .server (.ack 1 true), .deliver 1, .server (.publish 1),
    .server (.ack 1 true), .deliver 1, .server (.publish 1), .server (.ack 1 true)].map
    BroadcastAction.net ++
  [.worker 0 (.drain 4), .worker 0 .handle, .worker 0 .emit, .worker 0 .handle, .worker 0 .handle,
    .worker 0 .emit, .worker 0 .emit, .worker 0 .handle, .worker 0 .handle,
    .worker 0 (.flush ⟨"demo"⟩), .worker 0 .emit, .viewer 0 .wake, .viewer 0 .transmit,
    .viewer 0 .drain, .viewer 0 .transmit, .viewer 0 .drain, .viewer 0 .drain, .viewer 0 .transmit,
    .viewer 0 .transmit, .viewer 0 .drain, .viewer 0 .settle, .viewer 0 .transmit].map
    BroadcastAction.viewing

theorem output_reaches_viewers_replayed :
    ∃ (b₀ b : Broadcast Blank) (v : Viewer) (fed : List Bytes),
      run (step (fun _ => 0) ⟨"demo"⟩ "pw") (init size80x24 none none 1000) firstChunk = some b₀ ∧
      run (step (fun _ => 0) ⟨"demo"⟩ "pw") b₀ (.viewing (.join ⟨"demo"⟩) :: cutAndReplayed) =
        some b ∧
      b.client.queued.map Chunk.bytes = [[104], [105]] ∧
      v.received.flatMap Frame.content = [104, 104, 104, 105] ∧
      Fed ⟨"demo"⟩ b₀.delivery.server b v fed := by
  obtain ⟨b₀, b, v, hbefore, hafter, hv, hqueued, hcontent, hdrained⟩ :
      ∃ (b₀ b : Broadcast Blank) (v : Viewer),
        run (step (fun _ => 0) ⟨"demo"⟩ "pw") (init size80x24 none none 1000) firstChunk = some b₀ ∧
        run (step (fun _ => 0) ⟨"demo"⟩ "pw") b₀ (.viewing (.join ⟨"demo"⟩) :: cutAndReplayed) =
          some b ∧
        b.delivery.viewers[b₀.delivery.viewers.length]? = some v ∧
        b.client.queued.map Chunk.bytes = [[104], [105]] ∧
        v.received.flatMap Frame.content = [104, 104, 104, 105] ∧
        Drained (fun _ => 0) b.delivery v :=
    ⟨_, _, _, rfl, rfl, rfl, rfl, rfl,
      ⟨fun stored hs => (by cases hs), rfl, rfl, rfl, rfl, rfl, rfl, rfl, rfl⟩⟩
  obtain ⟨fed, hfed⟩ := output_reaches_viewers (fun _ => 0) ⟨"demo"⟩ "pw" size80x24 none none 1000
    firstChunk cutAndReplayed b₀ b v hbefore hafter hv hdrained
  exact ⟨b₀, b, v, fed, hbefore, hafter, hqueued, hcontent, hfed⟩

end Broadcast

end Shellshare
