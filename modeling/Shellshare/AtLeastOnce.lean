import Shellshare.BroadcastLink
import Shellshare.ServerPublishOrder

/-! At-least-once delivery from a client to its room: what each link carries, what
the client's acks stand for, and where every queued chunk is. -/
namespace Shellshare
open CumulativeAcks ReplayBuffer

theorem total_len (chunks : List Chunk) :
    total Chunk.len chunks = totalLength (chunks.map Chunk.bytes) := by
  simp only [total, totalLength, List.map_map]
  rfl

namespace Server

/-- A step keeps every connection in its place. Only a received frame adds to what
a loop has received. -/
theorem conn_step {s s' : Server} {a : Action} (hstep : s.step a = some s') {i : ℕ} {c : Conn}
    (hc : s.conns[i]? = some c) : ∃ c', s'.conns[i]? = some c' ∧ c'.room = c.room ∧
      (c'.frames = c.frames ∨ ∃ msg, a = .receive i msg ∧ c'.frames = c.frames ++ [msg]) := by
  have hset : ∀ {conns : List Conn} {j : ℕ} {d d' : Conn}, s.conns[j]? = some d →
      conns = s.conns.set j d' → d'.room = d.room → d'.frames = d.frames →
      ∃ c', conns[i]? = some c' ∧ c'.room = c.room ∧
        (c'.frames = c.frames ∨ ∃ msg, a = .receive i msg ∧ c'.frames = c.frames ++ [msg]) := by
    rintro conns j d d' hd rfl hroom hframes
    by_cases hij : i = j
    · subst hij
      obtain rfl : d = c := Option.some.inj (hd.symm.trans hc)
      have hlt := (List.getElem?_eq_some_iff.mp hc).1
      exact ⟨d', by simp [hlt], hroom, Or.inl hframes⟩
    · exact ⟨c, by rw [List.getElem?_set_ne (Ne.symm hij)]; exact hc, rfl, Or.inl rfl⟩
  cases step_cases hstep with
  | elapse d => exact ⟨c, hc, rfl, Or.inl rfl⟩
  | handshake room secret =>
    rcases handshake_conns s room secret with h | h
    · exact ⟨c, h ▸ hc, rfl, Or.inl rfl⟩
    · have hlt := (List.getElem?_eq_some_iff.mp hc).1
      exact ⟨c, by rw [h, List.getElem?_append_left hlt]; exact hc, rfl, Or.inl rfl⟩
  | attach j d hd hp => exact hset hd rfl rfl rfl
  | receive j msg d hd hp =>
    obtain ⟨d', hconns, hroom, hframes, -⟩ := receive_counts s j d msg
    by_cases hij : i = j
    · subst hij
      obtain rfl : d = c := Option.some.inj (hd.symm.trans hc)
      have hlt := (List.getElem?_eq_some_iff.mp hc).1
      exact ⟨d', by simp [hconns, hlt], hroom, Or.inr ⟨msg, rfl, hframes⟩⟩
    · exact ⟨c, by rw [hconns, List.getElem?_set_ne (Ne.symm hij)]; exact hc, rfl, Or.inl rfl⟩
  | hangUp j d hd hp => exact hset hd rfl rfl rfl
  | publish j d out phase hd hp => exact hset hd rfl rfl rfl
  | ack j sent d hd hp => exact hset hd rfl rfl rfl
  | detach j d hd hp => exact hset hd rfl rfl rfl
  | deleteRoom room secret => exact ⟨c, hc, rfl, Or.inl rfl⟩
  | evict room => exact ⟨c, hc, rfl, Or.inl rfl⟩

theorem handshake_conns_of_ok {s : Server} {room : RoomId} {secret : String} {appended : Appended}
    (hok : (s.rooms.append s.now room secret none none).1 = .ok appended) :
    (s.handshake room secret).conns = s.conns ++ [⟨room, secret, .upgraded, 0, []⟩] := by
  unfold handshake
  split
  · rfl
  · rename_i herror
    rw [herror] at hok
    cases hok

/-- What is stored stays stored. -/
theorem storedBy_step {s s' : Server} {a : Action} (hstep : s.step a = some s') (room : RoomId)
    (i : ℕ) : s.storedBy room i <+: s'.storedBy room i := by
  have happ : s.appended <+: s'.appended := by
    rcases order_step hstep with ⟨-, happ, -⟩ | ⟨-, stored, -, happ, -⟩ |
      ⟨-, -, -, -, -, -, happ, -⟩
    · exact happ ▸ List.prefix_rfl
    · exact happ ▸ List.prefix_append _ _
    · exact happ ▸ List.prefix_rfl
  exact (happ.filter _).filterMap _

end Server

/-- What a link carries: of the chunks written on it the server has received, or
will find in flight, the first ones, all of them while nothing is cut; and every
ack in flight counts payloads the server has stored. -/
structure Carries (room : RoomId) (s : Server) (wrote : List Chunk) (l : Link) : Prop where
  frames : ∃ c, s.conns[l.conn]? = some c ∧ c.room = room ∧
    payloadsOf c.frames ++ payloadsOf l.toServer <+: wrote.map Chunk.bytes ∧
    (l.cut = false → payloadsOf c.frames ++ payloadsOf l.toServer = wrote.map Chunk.bytes)
  acks : ∀ acked ∈ l.toClient, ∃ m, m ≤ (s.storedBy room l.conn).length ∧
    acked = totalLength ((s.storedBy room l.conn).take m)

variable {room : RoomId} {s s' : Server} {wrote : List Chunk} {l : Link}

theorem Carries.stored (h : Carries room s wrote l) (hs : s.Ingests) :
    s.storedBy room l.conn <+: wrote.map Chunk.bytes := by
  obtain ⟨c, hc, rfl, hpre, -⟩ := h.frames
  exact ((hs.exact_of l.conn c hc).stored.trans (List.prefix_append _ _)).trans hpre

/-- An ack in flight is of whole chunks, the first ones written on the link. -/
theorem Carries.ack (h : Carries room s wrote l) (hs : s.Ingests) {acked : ℕ}
    (hmem : acked ∈ l.toClient) : ∃ m, m ≤ (s.storedBy room l.conn).length ∧ m ≤ wrote.length ∧
      acked = total Chunk.len (wrote.take m) := by
  obtain ⟨m, hm, rfl⟩ := h.acks acked hmem
  have hstored := h.stored hs
  have hlen := hstored.length_le
  rw [List.length_map] at hlen
  refine ⟨m, hm, hm.trans hlen, ?_⟩
  rw [total_len, List.map_take, List.prefix_iff_eq_take.mp hstored, List.take_take,
    Nat.min_eq_left hm]

theorem Carries.send (h : Carries room s wrote l) {frame : WsMessage} {chunks : List Chunk}
    (hframe : frame.payload.toList = chunks.map Chunk.bytes) :
    Carries room s (wrote ++ chunks) (l.send frame) := by
  obtain ⟨c, hc, hroom, hpre, hall⟩ := h.frames
  unfold Link.send
  split
  · rename_i hcut
    refine ⟨⟨c, hc, hroom, ?_, fun hopen => absurd (hcut.symm.trans hopen) Bool.true_eq_false.mp⟩,
      h.acks⟩
    rw [List.map_append]
    exact hpre.trans (List.prefix_append _ _)
  · rename_i hcut
    have hall := hall (Bool.eq_false_iff.mpr hcut)
    have hsingle : payloadsOf [frame] = frame.payload.toList := by
      simp only [payloadsOf]
      cases hp : frame.payload <;> simp [hp]
    have heq : payloadsOf c.frames ++ payloadsOf (l.toServer ++ [frame]) =
        (wrote ++ chunks).map Chunk.bytes := by
      rw [payloadsOf_append, ← List.append_assoc, hall, hsingle, hframe, List.map_append]
    exact ⟨⟨c, hc, hroom, heq ▸ List.prefix_rfl, fun _ => heq⟩, h.acks⟩

/-- A step of the server that takes nothing from the link. -/
theorem Carries.serve (h : Carries room s wrote l) {a : Action} (hstep : s.step a = some s')
    (ha : ∀ msg, a ≠ .receive l.conn msg) : Carries room s' wrote l := by
  obtain ⟨c, hc, hroom, hpre, hall⟩ := h.frames
  obtain ⟨c', hc', hroom', hframes⟩ := Server.conn_step hstep hc
  have hframes : c'.frames = c.frames := by
    rcases hframes with h | ⟨msg, h, -⟩
    · exact h
    · exact absurd h (ha msg)
  have hgrow := Server.storedBy_step hstep room l.conn
  refine ⟨⟨c', hc', hroom'.trans hroom, hframes ▸ hpre, hframes ▸ hall⟩, fun acked hmem => ?_⟩
  -- an ack in flight still counts a first part of what has been stored since
  obtain ⟨m, hm, rfl⟩ := h.acks acked hmem
  refine ⟨m, hm.trans hgrow.length_le, ?_⟩
  rw [List.prefix_iff_eq_take.mp hgrow, List.take_take, Nat.min_eq_left hm]

/-- The server takes the front frame of the link. -/
theorem Carries.deliver (h : Carries room s wrote l) {frame : WsMessage} {rest : List WsMessage}
    (hl : l.toServer = frame :: rest) (hstep : s.step (.receive l.conn frame) = some s') :
    Carries room s' wrote { l with toServer := rest } := by
  obtain ⟨c, hc, hroom, hpre, hall⟩ := h.frames
  obtain ⟨d, hd, hstep'⟩ := Option.bind_eq_some_iff.mp hstep
  obtain rfl : d = c := Option.some.inj (hd.symm.trans hc)
  obtain ⟨d', hconns, hroom', hframes, -⟩ := Server.receive_counts s l.conn d frame
  have hlt := (List.getElem?_eq_some_iff.mp hc).1
  have hs' : s' = s.receive l.conn d frame := by
    split at hstep'
    · exact (Option.some.inj hstep').symm
    · cases hstep'
  have hsame : payloadsOf d'.frames ++ payloadsOf rest =
      payloadsOf d.frames ++ payloadsOf l.toServer := by
    rw [hframes, hl, payloadsOf_append, List.append_assoc]
    simp only [payloadsOf, ← List.filterMap_append, List.singleton_append]
  have hgrow := Server.storedBy_step hstep room l.conn
  refine ⟨⟨d', by rw [hs', hconns]; simp [hlt], hroom'.trans hroom, hsame ▸ hpre,
    fun hcut => hsame.trans (hall hcut)⟩, fun acked hmem => ?_⟩
  obtain ⟨m, hm, rfl⟩ := h.acks acked hmem
  refine ⟨m, hm.trans hgrow.length_le, ?_⟩
  rw [List.prefix_iff_eq_take.mp hgrow, List.take_take, Nat.min_eq_left hm]

/-- The server acknowledges everything it has stored of the connection so far. -/
theorem Carries.acknowledge (h : Carries room s wrote l) (hs : s.Ingests) {c : Conn}
    (hc : s.conns[l.conn]? = some c) : Carries room s wrote (l.acknowledge c.receivedBytes) := by
  obtain ⟨d, hd, hroom, hframes⟩ := h.frames
  obtain rfl : c = d := Option.some.inj (hc.symm.trans hd)
  unfold Link.acknowledge
  split
  · exact h
  · refine ⟨⟨c, hd, hroom, hframes⟩, fun acked hmem => ?_⟩
    rcases List.mem_append.mp hmem with hmem | hmem
    · exact h.acks acked hmem
    · obtain rfl := List.mem_singleton.mp hmem
      refine ⟨_, le_rfl, ?_⟩
      rw [List.take_length, ← hroom]
      exact (hs.exact_of l.conn c hc).counted

theorem Carries.lose (h : Carries room s wrote l) (toServer toClient : ℕ) :
    Carries room s wrote (l.lose toServer toClient) := by
  obtain ⟨c, hc, hroom, hpre, -⟩ := h.frames
  refine ⟨⟨c, hc, hroom, ?_, fun hcut => absurd hcut Bool.true_eq_false.mp⟩,
    fun acked hmem => h.acks acked (List.mem_of_mem_take hmem)⟩
  -- a suffix of the frames in flight is lost, so what may still arrive is a first part
  have htake : payloadsOf (l.toServer.take toServer) <+: payloadsOf l.toServer :=
    (List.take_prefix toServer l.toServer).filterMap _
  exact ((List.prefix_append_right_inj _).mpr htake).trans hpre

namespace Net
open Transport

variable {V : Type}

/-- The invariant of a run of the whole net. -/
structure Kept (room : RoomId) (n : Net V) : Prop where
  accounted : Accounted n.client
  ordered : Ordered n.client.toReplayBuffer
  ingests : n.server.Ingests
  numbered : n.links.length = n.client.connections
  current : ∀ j, n.client.socket = some j → j < n.client.connections
  distinct : (n.links.map Link.conn).Nodup
  carries : ∀ k l, n.links[k]? = some l → Carries room n.server (n.client.wrote k) l
  reached : ∀ chunk ∈ n.client.queued,
    (chunk ∈ n.client.held ∨ chunk ∈ n.client.discarded) ∨ n.Stored room chunk

/-- What was written and is stored stays so: connections keep their place, and
what was written on them and what the server stored only grow. -/
theorem Stored.mono {n n' : Net V} {chunk : Chunk} (h : n.Stored room chunk)
    (hlinks : ∀ (k : ℕ) (l : Link), n.links[k]? = some l →
      ∃ l' : Link, n'.links[k]? = some l' ∧ l'.conn = l.conn)
    (hwrote : ∀ k, k < n.links.length → n.client.wrote k <+: n'.client.wrote k)
    (hstored : ∀ i, n.server.storedBy room i <+: n'.server.storedBy room i) :
    n'.Stored room chunk := by
  obtain ⟨k, l, hl, hmem⟩ := h
  obtain ⟨l', hl', hconn⟩ := hlinks k l hl
  refine ⟨k, l', hl', ?_⟩
  have hk : k < n.links.length := (List.getElem?_eq_some_iff.mp hl).1
  have hgrow := (hstored l.conn).length_le
  rw [hconn]
  have htake : (n.client.wrote k).take (n.server.storedBy room l.conn).length <+:
      (n'.client.wrote k).take (n'.server.storedBy room l.conn).length :=
    ((hwrote k hk).take _).trans (List.take_prefix_take_left hgrow)
  exact htake.subset hmem

theorem Kept.delivered {n : Net V} (h : Kept room n) : Delivered room n := by
  refine ⟨fun chunk hmem => ?_,
    fun k l hl => ⟨(h.carries k l hl).stored h.ingests, h.ordered.sorted k⟩⟩
  rcases h.reached chunk hmem with (hheld | hgone) | hstored
  · exact Or.inl hheld
  · exact Or.inr (Or.inl hgone)
  · exact Or.inr (Or.inr hstored)

theorem conn_of_map {links links' : List Link}
    (hconns : links'.map Link.conn = links.map Link.conn) (k : ℕ) (l : Link)
    (hl : links[k]? = some l) : ∃ l' : Link, links'[k]? = some l' ∧ l'.conn = l.conn := by
  have hat := congrArg (·[k]?) hconns
  simp only [List.getElem?_map, hl, Option.map_some] at hat
  exact Option.map_eq_some_iff.mp hat

theorem length_of_map {links links' : List Link}
    (hconns : links'.map Link.conn = links.map Link.conn) : links'.length = links.length := by
  rw [← List.length_map Link.conn, hconns, List.length_map]

theorem conn_set {links : List Link} {k : ℕ} {l l' : Link} (hl : links[k]? = some l)
    (hconn : l'.conn = l.conn) : (links.set k l').map Link.conn = links.map Link.conn := by
  obtain ⟨hlt, rfl⟩ := List.getElem?_eq_some_iff.mp hl
  rw [List.map_set, hconn, ← List.getElem_map Link.conn (h := by rwa [List.length_map])]
  exact List.set_getElem_self _

theorem set_cases {links : List Link} {j k : ℕ} {l' x : Link}
    (hx : (links.set j l')[k]? = some x) : (k = j ∧ x = l') ∨ links[k]? = some x := by
  rw [List.getElem?_set] at hx
  split at hx
  · rename_i hjk
    split at hx
    · exact Or.inl ⟨hjk.symm, (Option.some.inj hx).symm⟩
    · cases hx
  · exact Or.inr hx

/-- The client makes a call on a connection it has: the connections stay, what is
written only grows, and what leaves the buffer has been stored. -/
theorem Kept.call {n : Net V} (h : Kept room n) {client : Transport V} {links : List Link}
    (hacc : Accounted client) (hord : Ordered client.toReplayBuffer)
    (hcount : client.connections = n.client.connections)
    (hsocket : ∀ j, client.socket = some j → n.client.socket = some j)
    (hconns : links.map Link.conn = n.links.map Link.conn)
    (hwrote : ∀ k, n.client.wrote k <+: client.wrote k)
    (hcarries : ∀ (k : ℕ) (l : Link), links[k]? = some l →
      Carries room n.server (client.wrote k) l)
    (hreached : ∀ chunk ∈ client.queued,
      (chunk ∈ client.held ∨ chunk ∈ client.discarded) ∨ n.Stored room chunk) :
    Kept room { n with client := client, links := links } := by
  refine ⟨hacc, hord, h.ingests, ?_, fun j hj => hcount ▸ h.current j (hsocket j hj),
    hconns ▸ h.distinct, hcarries, fun chunk hmem => ?_⟩
  · exact (length_of_map hconns).trans (h.numbered.trans hcount.symm)
  · exact (hreached chunk hmem).imp_right fun hs => hs.mono (conn_of_map hconns)
      (fun k _ => hwrote k) fun _ => List.prefix_rfl

theorem Kept.reached_of_keeps {n : Net V} (h : Kept room n) {b : ReplayBuffer}
    (hkeeps : Keeps n.client.toReplayBuffer b) :
    ∀ chunk ∈ b.queued, (chunk ∈ b.held ∨ chunk ∈ b.discarded) ∨ n.Stored room chunk := by
  intro chunk hmem
  rcases hkeeps.queued chunk hmem with hmem | hmem
  · exact (h.reached chunk hmem).imp_left (hkeeps.kept chunk)
  · exact Or.inl hmem

/-- The server moves, and the links with it, each still carrying what it did. -/
theorem Kept.serve {n : Net V} (h : Kept room n) {server : Server} {links : List Link}
    {a : Action} (hstep : n.server.step a = some server)
    (hconns : links.map Link.conn = n.links.map Link.conn)
    (hcarries : ∀ (k : ℕ) (l : Link), links[k]? = some l →
      Carries room server (n.client.wrote k) l) :
    Kept room { n with server := server, links := links } := by
  refine ⟨h.accounted, h.ordered, Server.ingests_step h.ingests hstep,
    (length_of_map hconns).trans h.numbered, h.current, hconns ▸ h.distinct, hcarries,
    fun chunk hmem => ?_⟩
  exact (h.reached chunk hmem).imp_right fun hs => hs.mono (conn_of_map hconns)
    (fun _ _ => List.prefix_rfl) fun i => Server.storedBy_step hstep room i

theorem payload_outgoing (t : Transport V) (len : ℕ) :
    (t.outgoing len).bind WsMessage.payload = t.front.map Chunk.bytes := by
  unfold outgoing front
  cases t.stage with
  | writing caller =>
    dsimp only
    cases t.pending.head? <;> rfl
  | _ => rfl

theorem send_conn (n : Net V) (len : ℕ) : (n.send len).map Link.conn = n.links.map Link.conn := by
  have hconn : ∀ (l : Link) (frame : WsMessage), (l.send frame).conn = l.conn := by
    intro l frame
    unfold Link.send
    split <;> rfl
  unfold send
  split
  · rename_i j frame _ _
    apply List.ext_getElem?
    intro k
    simp only [List.getElem?_map, List.getElem?_modify]
    cases n.links[k]? with
    | none => rfl
    | some l =>
      simp only [Option.map_eq_map, Option.map_some]
      split
      · rw [hconn]
      · rfl
  · rfl

/-- After a call every link carries what it carried, and the current one also the
chunk that the call wrote. -/
theorem Kept.carries_send {n : Net V} (h : Kept room n) (len : ℕ) {wrote : ℕ → List Chunk}
    (hwrote : ∀ k, wrote k = if n.client.socket = some k then
      n.client.wrote k ++ n.client.front.toList else n.client.wrote k)
    (hfront : n.client.socket = none → n.client.front = none) (k : ℕ) (l : Link)
    (hl : (n.send len)[k]? = some l) : Carries room n.server (wrote k) l := by
  rw [hwrote]
  unfold send at hl
  have hpayload := payload_outgoing n.client len
  split at hl
  · rename_i j frame hj hframe
    rw [hframe, Option.bind_some] at hpayload
    rw [List.getElem?_modify] at hl
    obtain ⟨l₀, hl₀, rfl⟩ := Option.map_eq_some_iff.mp hl
    rw [hj]
    by_cases hjk : j = k
    · -- the current connection gets the frame, and with it the chunk of a `writing` stage
      subst hjk
      rw [if_pos rfl, if_pos rfl]
      apply (h.carries j l₀ hl₀).send
      rw [hpayload]
      cases n.client.front <;> rfl
    · rw [if_neg hjk, if_neg (fun heq => hjk (Option.some.inj heq))]
      exact h.carries k l₀ hl₀
  · rename_i hnone
    -- no frame, so the call wrote no chunk
    have hempty : n.client.front = none := by
      cases hj : n.client.socket with
      | none => exact hfront hj
      | some j =>
        cases hframe : n.client.outgoing len with
        | none =>
          rw [hframe] at hpayload
          exact Option.map_eq_none_iff.mp hpayload.symm
        | some frame => exact absurd hframe (hnone j frame hj)
    have hsame : (if n.client.socket = some k then n.client.wrote k ++ n.client.front.toList
        else n.client.wrote k) = n.client.wrote k := by
      rw [hempty]
      simp
    rw [hsame]
    exact h.carries k l hl

theorem Kept.serve_step {n n' : Net V} (h : Kept room n) {a : Action}
    (hserve : n.serve a = some n') : Kept room n' := by
  obtain ⟨server, hserver, hstep⟩ := Option.bind_eq_some_iff.mp hserve
  clear hserve
  have hother : (∀ l ∈ n.links, ∀ msg, a ≠ .receive l.conn msg) →
      Kept room { n with server := server } := fun ha =>
    h.serve hserver rfl fun k l hl => (h.carries k l hl).serve hserver
      (ha l (List.mem_of_getElem? hl))
  split at hstep
  · split at hstep
    · cases hstep
    · rename_i hany
      obtain rfl := Option.some.inj hstep
      refine hother fun l hl msg' heq => hany (List.any_eq_true.mpr ⟨l, hl, ?_⟩)
      injection heq with hi
      exact decide_eq_true hi.symm
  · rename_i i sent
    obtain rfl := Option.some.inj hstep
    have hconn : ∀ (l : Link) (acked : ℕ), (l.acknowledge acked).conn = l.conn := by
      intro l acked
      unfold Link.acknowledge
      split <;> rfl
    refine h.serve hserver ?_ fun k l hl => ?_
    · rw [List.map_map]
      apply List.map_congr_left
      intro l _
      dsimp only [Function.comp]
      split
      · cases n.server.conns[i]? with
        | none => rfl
        | some c => exact hconn l c.receivedBytes
      · rfl
    · rw [List.getElem?_map] at hl
      obtain ⟨l₀, hl₀, rfl⟩ := Option.map_eq_some_iff.mp hl
      have hcarries := h.carries k l₀ hl₀
      split
      · rename_i hi
        cases hc : n.server.conns[i]? with
        | none => exact hcarries.serve hserver nofun
        | some c =>
          exact (hcarries.acknowledge h.ingests (by rw [hi]; exact hc)).serve hserver nofun
      · exact hcarries.serve hserver nofun
  · rename_i hreceive _
    obtain rfl := Option.some.inj hstep
    exact hother fun l _ msg => hreceive l.conn msg

theorem Kept.deliver_step {n : Net V} (h : Kept room n) {k : ℕ} {l : Link} {frame : WsMessage}
    {rest : List WsMessage} {server : Server} (hl : n.links[k]? = some l)
    (hframes : l.toServer = frame :: rest)
    (hserver : n.server.step (.receive l.conn frame) = some server) :
    Kept room { n with server := server, links := n.links.set k { l with toServer := rest } } := by
  refine h.serve hserver (conn_set hl rfl) fun i l' hl' => ?_
  by_cases hik : i = k
  · subst hik
    have hlt := (List.getElem?_eq_some_iff.mp hl).1
    obtain rfl : { l with toServer := rest } = l' := by
      simpa [hlt] using hl'
    exact (h.carries i l hl).deliver hframes hserver
  · rw [List.getElem?_set_ne (Ne.symm hik)] at hl'
    refine (h.carries i l' hl').serve hserver fun msg heq => hik ?_
    -- one loop serves one link
    injection heq with hconn
    have hat : ∀ {j : ℕ} {x : Link}, n.links[j]? = some x →
        (n.links.map Link.conn)[j]? = some x.conn := fun hx => by
      rw [List.getElem?_map, hx]
      rfl
    have hlt : k < (n.links.map Link.conn).length := by
      rw [List.length_map]
      exact (List.getElem?_eq_some_iff.mp hl).1
    exact ((List.getElem?_inj hlt h.distinct).mp ((hat hl).trans (hconn ▸ (hat hl').symm))).symm

theorem Kept.lose_step {n : Net V} (h : Kept room n) {k : ℕ} {l : Link}
    (hl : n.links[k]? = some l) (toServer toClient : ℕ) :
    Kept room { n with links := n.links.set k (l.lose toServer toClient) } := by
  refine h.call h.accounted h.ordered rfl (fun _ => id) (conn_set hl rfl)
    (fun _ => List.prefix_rfl) (fun i l' hl' => ?_) h.reached
  rcases set_cases hl' with ⟨rfl, rfl⟩ | hl'
  · exact (h.carries i l hl).lose toServer toClient
  · exact h.carries i l' hl'

variable [Vt V]

/-- An operation, or a call that neither writes nor reads an ack. -/
theorem Kept.client_step {n : Net V} (h : Kept room n) {a : ClientAction} {client : Transport V}
    (hstep : n.client.step a = some client) (hack : ∀ body, a ≠ .read (.text body))
    (hdial : a ≠ .handshake .accepted) (hwrite : ∀ sent, a ≠ .write sent) (hclose : a ≠ .close) :
    Kept room { n with client := client } := by
  have hwhole : AcksWholeFrames n.client a := by
    unfold AcksWholeFrames acksWholeFrames
    split
    · exact absurd rfl (hack _)
    · rfl
  have hacc := accounted_step h.accounted hwhole hstep
  obtain ⟨hc, hs, hp⟩ := h.accounted
  obtain ⟨hmoves, -⟩ := step_moves hp hstep
  -- every such move keeps the connections, and drops nothing but by the cap
  suffices hquiet : Ordered client.toReplayBuffer ∧
      client.connections = n.client.connections ∧
      (∀ j, client.socket = some j → n.client.socket = some j) ∧
      client.wrote = n.client.wrote ∧ Keeps n.client.toReplayBuffer client.toReplayBuffer by
    obtain ⟨hord, hcount, hsocket, hwrote, hkeeps⟩ := hquiet
    exact h.call hacc hord hcount hsocket rfl (fun k => hwrote ▸ List.prefix_rfl)
      (hwrote ▸ h.carries) (h.reached_of_keeps hkeeps)
  generalize client.toReplayBuffer = b' at hmoves
  generalize client.keyframer = k' at hmoves
  cases hmoves with
  | elapse d => exact ⟨h.ordered, rfl, fun _ => id, rfl, keeps_refl _⟩
  | tick size => exact ⟨h.ordered, rfl, fun _ => id, rfl, keeps_refl _⟩
  | shutdown => exact ⟨h.ordered, rfl, fun _ => id, rfl, keeps_refl _⟩
  | send data size nonce keyframeNonce s hsent =>
    obtain ⟨hsocket, hcount, hwrote⟩ := bufferSealed_foldl n.client.toReplayBuffer s.records
    exact ⟨ordered_bufferSealed_foldl h.ordered hc hs (ne_nil_of_sending hsent), hcount,
      fun j hj => hsocket ▸ hj, hwrote, keeps_bufferSealed_foldl _ _⟩
  | accept hnone => exact absurd rfl hdial
  | refuse outcome ho => exact ⟨h.ordered, rfl, fun _ => id, rfl, keeps_refl _⟩
  | control sent hf hsocket => exact absurd rfl (hwrite sent)
  | sent chunk rest hf hpending hsocket => exact absurd rfl (hwrite true)
  | lost chunk rest hf hpending hsocket => exact absurd rfl (hwrite false)
  | ack body acked hacked hsocket => exact absurd rfl (hack body)
  | skip incoming hskip hsocket => exact ⟨h.ordered, rfl, fun _ => id, rfl, keeps_refl _⟩
  | dead hsocket => exact ⟨ordered_disconnect h.ordered, rfl, nofun, rfl, keeps_disconnect _⟩
  | close => exact absurd rfl hclose

/-- What a write does to the buffer, as the link sees it. -/
theorem write_spec {t : Transport V} {b : ReplayBuffer} {k : Keyframer V} {sent : Bool}
    (hc : Counted t.toReplayBuffer) (hord : Ordered t.toReplayBuffer)
    (hmoves : Moves t (.write sent) b k) :
    Ordered b ∧ b.connections = t.connections ∧
      (∀ j, b.socket = some j → t.socket = some j) ∧ t.socket ≠ none ∧
      (∀ k, b.wrote k = if t.socket = some k then t.wrote k ++ t.front.toList else t.wrote k) ∧
      Keeps t.toReplayBuffer b := by
  have hhand : ∀ {chunk : Chunk}, t.socket ≠ none → t.front = some chunk → ∀ k,
      (t.hand chunk).wrote k =
        if t.socket = some k then t.wrote k ++ t.front.toList else t.wrote k := by
    intro chunk hsocket hf k
    obtain ⟨j, hj⟩ := Option.ne_none_iff_exists'.mp hsocket
    rw [wrote_hand hj, hj, hf]
    by_cases hjk : k = j
    · subst hjk
      simp
    · rw [if_neg hjk, if_neg (fun heq => hjk (Option.some.inj heq).symm)]
  cases hmoves with
  | control sent hf hsocket =>
    have hwrote : ∀ k, t.wrote k =
        if t.socket = some k then t.wrote k ++ t.front.toList else t.wrote k := by
      intro k
      rw [hf]
      simp
    cases sent with
    | true => exact ⟨hord, rfl, fun _ => id, hsocket, hwrote, keeps_refl _⟩
    | false =>
      exact ⟨ordered_disconnect hord, rfl, nofun, hsocket, hwrote, keeps_disconnect _⟩
  | sent chunk rest hf hpending hsocket =>
    refine ⟨ordered_sent hord hc hpending, ?_, fun j hj => ?_, hsocket, hhand hsocket hf,
      keeps_advance hpending⟩
    · rw [hand_eq]
      rfl
    · rw [hand_eq] at hj
      exact hj
  | lost chunk rest hf hpending hsocket =>
    refine ⟨ordered_lost hord hpending, ?_, nofun, hsocket, hhand hsocket hf, keeps_lost _ _⟩
    rw [hand_eq]
    rfl

theorem Kept.write_step {n : Net V} (h : Kept room n) {sent : Bool} {client : Transport V}
    (hstep : n.client.step (.write sent) = some client) (len : ℕ) :
    Kept room { n with client := client, links := n.send len } := by
  have hacc := accounted_step h.accounted (a := .write sent) rfl hstep
  obtain ⟨hmoves, -⟩ := step_moves h.accounted.placed hstep
  obtain ⟨hord, hcount, hsocket, hsome, hwrote, hkeeps⟩ :=
    write_spec h.accounted.counted h.ordered hmoves
  refine h.call hacc hord hcount hsocket (send_conn n len) (fun k => ?_)
    (h.carries_send len hwrote fun hnone => absurd hnone hsome) (h.reached_of_keeps hkeeps)
  rw [hwrote]
  split
  · exact List.prefix_append _ _
  · exact List.prefix_rfl

theorem ackOf_ackMessage {acked n : ℕ} (h : ackOf (some (ackMessage acked)) = some n) :
    n = acked := by
  have hget : (ackMessage acked).get "ack" = some (.number acked) := by
    simp [ackMessage, Json.get]
  simp only [ackOf, Option.bind_some, hget, Json.asU64] at h
  split at h
  · have hn := Option.some.inj h
    rw [← hn]
    simp
  · cases h

/-- The client reads the oldest ack in flight: what it releases has been stored. -/
theorem Kept.ack_step {n : Net V} (h : Kept room n) {j : ℕ} {l : Link} {acked : ℕ} {rest : List ℕ}
    {client : Transport V} (hj : n.client.socket = some j) (hl : n.links[j]? = some l)
    (hacks : l.toClient = acked :: rest) (hopen : n.client.closed = false)
    (hstep : n.client.step (.read (.text (some (ackMessage acked)))) = some client) :
    Kept room { n with client := client, links := n.links.set j { l with toClient := rest } } := by
  obtain ⟨m, hm, hmw, hacked⟩ := (h.carries j l hl).ack h.ingests (hacks ▸ List.mem_cons_self)
  have hwritten : n.client.written = n.client.wrote j := by
    rw [written, hj]
    rfl
  rw [← hwritten] at hmw hacked
  have hwhole : AcksWholeFrames n.client (.read (.text (some (ackMessage acked)))) := by
    have hframes : n.client.toReplayBuffer.WholeFrames acked := ⟨m, hmw, hacked⟩
    have hall : (ackOf (some (ackMessage acked))).all
        (fun acked => n.client.toReplayBuffer.WholeFrames acked) = true := by
      rw [Option.all_eq_true]
      intro k hk
      rw [ackOf_ackMessage hk]
      exact decide_eq_true hframes
    exact hall
  have hacc := accounted_step h.accounted hwhole hstep
  have hconns : (n.links.set j { l with toClient := rest }).map Link.conn =
      n.links.map Link.conn := conn_set hl rfl
  have hcarries : ∀ (k : ℕ) (l' : Link),
      (n.links.set j { l with toClient := rest })[k]? = some l' →
        Carries room n.server (n.client.wrote k) l' := by
    intro k l' hl'
    rcases set_cases hl' with ⟨rfl, rfl⟩ | hl'
    · obtain ⟨hframes, hcounts⟩ := h.carries k l hl
      exact ⟨hframes, fun x hx => hcounts x (hacks ▸ List.mem_cons_of_mem _ hx)⟩
    · exact h.carries k l' hl'
  obtain ⟨hmoves, -⟩ := step_moves h.accounted.placed hstep
  -- `drain_acks` applies the ack, or cannot parse it
  suffices hread : client.toReplayBuffer = n.client.toReplayBuffer ∨
      client.toReplayBuffer = n.client.applyAck acked by
    rcases hread with hsame | hsame
    · refine h.call hacc (hsame ▸ h.ordered) (by rw [hsame]) (fun i hi => by rwa [hsame] at hi)
        hconns (fun k => by rw [hsame]) (by rwa [hsame]) ?_
      rw [hsame]
      exact h.reached
    · have hord : Ordered (n.client.applyAck acked) := ⟨h.ordered.sorted, h.ordered.ahead⟩
      refine h.call hacc (hsame ▸ hord) (by rw [hsame]; rfl)
        (fun i hi => by rw [hsame] at hi; exact hi) hconns
        (fun k => by rw [hsame]; exact List.prefix_rfl)
        (by rw [hsame]; exact hcarries) ?_
      rw [hsame]
      intro chunk hmem
      have hspec := (applyAck_spec h.accounted.counted h.accounted.settled hopen
        (by rw [hj]; exact Option.some_ne_none j) m).2.2
      rw [← hacked] at hspec
      -- a chunk that leaves `unacked` is among those the ack counts, which are stored
      rcases h.reached chunk hmem with (hheld | hgone) | hstored
      · refine (hspec chunk hheld).imp Or.inl fun htake => ⟨j, l, hl, ?_⟩
        rw [hwritten] at htake
        exact (List.take_prefix_take_left hm).subset htake
      · exact Or.inl (Or.inr hgone)
      · exact Or.inr hstored
  generalize client.toReplayBuffer = b' at hmoves
  generalize client.keyframer = k' at hmoves
  cases hmoves with
  | ack body k hk hs => exact Or.inr (by rw [ackOf_ackMessage hk])
  | skip incoming hskip hs => exact Or.inl rfl

/-- A link that has just been opened carries nothing. -/
theorem carries_opened {conns : List Conn} {room : RoomId} {secret : String}
    (hconns : s.conns = conns ++ [⟨room, secret, .upgraded, 0, []⟩]) :
    Carries room s [] ⟨conns.length, [], [], false⟩ := by
  have hlast : s.conns[conns.length]? = some ⟨room, secret, .upgraded, 0, []⟩ := by
    rw [hconns]
    exact List.getElem?_concat_length
  exact ⟨⟨_, hlast, rfl, List.prefix_rfl, fun _ => rfl⟩,
    fun acked hmem => absurd hmem List.not_mem_nil⟩

/-- A handshake that the server accepts: a new loop, a new link, nothing written. -/
theorem Kept.dial_step {n : Net V} (h : Kept room n) {secret : String} {appended : Appended}
    (hok : (n.server.rooms.append n.server.now room secret none none).1 = .ok appended)
    {client : Transport V} (hstep : n.client.step (.handshake .accepted) = some client) :
    Kept room { client := client, server := n.server.handshake room secret,
                links := n.links ++ [⟨n.server.conns.length, [], [], false⟩] } := by
  have hacc := accounted_step h.accounted (a := .handshake .accepted) rfl hstep
  obtain ⟨hmoves, -⟩ := step_moves h.accounted.placed hstep
  have hbuf : client.toReplayBuffer = n.client.accept := by
    generalize client.toReplayBuffer = b' at hmoves
    generalize client.keyframer = k' at hmoves
    cases hmoves with
    | accept hnone => rfl
    | refuse outcome ho => exact absurd rfl ho
  have hserve : n.server.step (.handshake room secret) = some (n.server.handshake room secret) :=
    rfl
  have hconns := Server.handshake_conns_of_ok hok
  have hwrote : ∀ k, k < n.links.length → client.wrote k = n.client.wrote k := by
    intro k hk
    rw [hbuf]
    exact Function.update_of_ne (h.numbered ▸ Nat.ne_of_lt hk) _ _
  have hnil : client.wrote n.links.length = [] := by
    rw [hbuf, h.numbered]
    exact Function.update_self _ _ _
  refine ⟨hacc, hbuf ▸ ordered_accept h.ordered, Server.ingests_step h.ingests hserve,
    ?_, ?_, ?_, ?_, ?_⟩
  · rw [hbuf, List.length_append, h.numbered]
    rfl
  · intro j hj
    rw [hbuf] at hj ⊢
    obtain rfl : n.client.connections = j := Option.some.inj hj
    exact Nat.lt_succ_self _
  · -- every earlier link is served by an earlier loop
    rw [List.map_append, List.nodup_append]
    refine ⟨h.distinct, List.nodup_singleton _, fun i hi j hj => ?_⟩
    obtain ⟨l, hl, rfl⟩ := List.mem_map.mp hi
    obtain rfl := List.mem_singleton.mp hj
    obtain ⟨k, hk⟩ := List.getElem?_of_mem hl
    obtain ⟨c, hc, -⟩ := (h.carries k l hk).frames
    exact Nat.ne_of_lt (List.getElem?_eq_some_iff.mp hc).1
  · intro k l hl
    rw [List.getElem?_append] at hl
    split at hl
    · rename_i hk
      rw [hwrote k hk]
      exact (h.carries k l hl).serve hserve nofun
    · rename_i hk
      rw [List.getElem?_singleton] at hl
      split at hl
      · rename_i hzero
        obtain rfl : k = n.links.length := by omega
        obtain rfl := Option.some.inj hl
        rw [hnil]
        exact carries_opened hconns
      · cases hl
  · intro chunk hmem
    rw [hbuf] at hmem ⊢
    refine (h.reached chunk hmem).imp_right fun hs => hs.mono (fun k l hl => ?_)
      (fun k hk => (hwrote k hk).symm ▸ List.prefix_rfl) fun i => Server.storedBy_step hserve room i
    have hk := (List.getElem?_eq_some_iff.mp hl).1
    exact ⟨l, by rw [List.getElem?_append_left hk]; exact hl, rfl⟩

theorem Kept.close_step {n : Net V} (h : Kept room n) {client : Transport V}
    (hstep : n.client.step .close = some client) :
    Kept room { n with client := client, links := n.send 0 } := by
  have hacc := accounted_step h.accounted (a := .close) rfl hstep
  have hfront : n.client.front = none := by
    simp only [Transport.step] at hstep
    split at hstep
    · rename_i hstage
      rw [front, hstage]
    · cases hstep
  obtain ⟨hmoves, -⟩ := step_moves h.accounted.placed hstep
  have hbuf : client.toReplayBuffer = n.client.close := by
    generalize client.toReplayBuffer = b' at hmoves
    generalize client.keyframer = k' at hmoves
    cases hmoves
    rfl
  have hkeeps : Keeps n.client.toReplayBuffer client.toReplayBuffer := by
    rw [hbuf]
    exact ⟨fun _ => Or.inl, fun _ => id⟩
  have hord : Ordered n.client.close := ⟨h.ordered.sorted, by rintro j ⟨⟩⟩
  refine h.call hacc (hbuf ▸ hord) (by rw [hbuf]; rfl) (fun j hj => by rw [hbuf] at hj; cases hj)
    (send_conn n 0) (fun k => by rw [hbuf]; exact List.prefix_rfl)
    (h.carries_send 0 (fun k => ?_) fun _ => hfront) (h.reached_of_keeps hkeeps)
  rw [hbuf, hfront]
  simp [ReplayBuffer.close]

/-- The step lemma of the net. -/
theorem kept_step {secret : String} {n n' : Net V} {a : NetAction} (h : Kept room n)
    (hstep : n.step room secret a = some n') : Kept room n' := by
  cases a with
  | client a =>
    simp only [Net.step] at hstep
    split at hstep
    · cases hstep
    · split at hstep
      · cases hstep
      · cases hstep
      · cases hstep
      · cases hstep
      · rename_i hdial hwrite hread hclose
        obtain ⟨client, hclient, rfl⟩ := Option.map_eq_some_iff.mp hstep
        exact h.client_step hclient hread hdial hwrite hclose
  | dial =>
    simp only [Net.step] at hstep
    split at hstep
    · cases hstep
    · split at hstep
      · cases hstep
      · rename_i hok
        obtain ⟨client, hclient, rfl⟩ := Option.map_eq_some_iff.mp hstep
        exact h.dial_step hok hclient
  | write sent len =>
    simp only [Net.step] at hstep
    split at hstep
    · cases hstep
    · obtain ⟨client, hclient, rfl⟩ := Option.map_eq_some_iff.mp hstep
      exact h.write_step hclient len
  | readAck =>
    simp only [Net.step] at hstep
    split at hstep
    · cases hstep
    · rename_i hopen
      obtain ⟨j, hj, hstep⟩ := Option.bind_eq_some_iff.mp hstep
      obtain ⟨l, hl, hstep⟩ := Option.bind_eq_some_iff.mp hstep
      split at hstep
      · cases hstep
      · rename_i acked rest hacks
        obtain ⟨client, hclient, rfl⟩ := Option.map_eq_some_iff.mp hstep
        exact h.ack_step hj hl hacks (Bool.eq_false_iff.mpr hopen) hclient
  | close =>
    simp only [Net.step] at hstep
    split at hstep
    · cases hstep
    · obtain ⟨client, hclient, rfl⟩ := Option.map_eq_some_iff.mp hstep
      exact h.close_step hclient
  | server a => exact h.serve_step hstep
  | deliver k =>
    obtain ⟨l, hl, hstep⟩ := Option.bind_eq_some_iff.mp hstep
    split at hstep
    · cases hstep
    · rename_i frame rest hframes
      obtain ⟨server, hserver, rfl⟩ := Option.map_eq_some_iff.mp hstep
      exact h.deliver_step hl hframes hserver
  | cut k toServer toClient =>
    obtain ⟨l, hl, rfl⟩ := Option.map_eq_some_iff.mp hstep
    exact h.lose_step hl toServer toClient

theorem kept_init (room : RoomId) (size : TermSize) (theme : Option String)
    (cipher : Option Encryptor) (ttl : ℕ) : Kept room (init size theme cipher ttl : Net V) :=
  ⟨accounted_new size theme cipher, ordered_empty, Server.ingests_init ttl, rfl, nofun,
    List.nodup_nil, fun k l hl => by simp [init] at hl, fun _ hmem => absurd hmem List.not_mem_nil⟩

/-- However the network cuts and the client reconnects, every queued chunk is
still held, was dropped by the cap, or has been stored; and a connection stores a
first part of what was written on it. -/
theorem output_delivered_at_least_once (room : RoomId) (secret : String) (size : TermSize)
    (theme : Option String) (cipher : Option Encryptor) (ttl : ℕ) (as : List NetAction) :
    TransitionRuns.StatesSatisfy (step room secret) (Delivered room)
      (init size theme cipher ttl : Net V) as :=
  TransitionRuns.states_of_invariant (fun _ _ _ h _ hstep => kept_step h hstep)
    (fun _ h => h.delivered) (kept_init room size theme cipher ttl)
    (TransitionRuns.stepsSatisfy_of_forall (fun _ _ => trivial) _ as)

end Net

end Shellshare
