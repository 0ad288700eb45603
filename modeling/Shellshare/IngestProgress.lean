import Shellshare.ClientProgress

/-! A loop whose link stays whole can always take in what is in flight and acknowledge
it, and the client can read the acks: then nothing it had written is unacknowledged. -/
namespace Shellshare
open CumulativeAcks ReplayBuffer TransitionRuns

/-- How far a loop is from its next receive, in steps of its own. -/
def Phase.distance : Phase → ℕ
  | .upgraded | .publishing _ => 2
  | .announcing | .acking => 1
  | _ => 0

/-- Past its handshake, with neither a reset nor the end of the loop under way. -/
def Phase.ingesting : Phase → Bool
  | .upgraded | .announcing | .receiving | .publishing _ | .acking => true
  | _ => false

/-- With an item stored that the client has not been told of. -/
def Phase.owesAck : Phase → Bool
  | .publishing _ | .acking => true
  | _ => false

namespace Server

variable {s : Server} {room : RoomId} {secret : String} {c : Conn}

/-- A loop whose room is its own takes in such a frame, and counts what it stored. -/
theorem receive_ingestible (h : s.Accepts room secret) (i : ℕ) (hroom : c.room = room)
    (hsecret : c.secret = secret) {frame : WsMessage} (hframe : frame.Ingestible) :
    ∃ c', (s.receive i c frame).conns = s.conns.set i c' ∧ c'.room = room ∧ c'.secret = secret ∧
      (s.receive i c frame).Accepts room secret ∧
      (c'.phase = .receiving ∧ c'.receivedBytes = c.receivedBytes ∨
        ∃ stored, c'.phase = .publishing stored) := by
  subst hroom hsecret
  have haccepts : (s.receive i c frame).Accepts c.room c.secret := by
    have hrooms := receive_rooms s i c frame
    rcases hframe with hrequest | ⟨size, message, hrequest⟩ <;> rw [hrequest] at hrooms
    · exact h.of_append hrooms
    · exact h.of_append hrooms
  rcases hframe with hrequest | ⟨size, message, hrequest⟩
  · obtain ⟨appended, happended⟩ := h.append none none
    obtain ⟨rooms, hok⟩ : ∃ rooms,
        s.rooms.append s.now c.room c.secret none none = (.ok appended, rooms) :=
      ⟨_, Prod.ext happended rfl⟩
    refine ⟨{ c with frames := c.frames ++ [frame] }.to .receiving, ?_, rfl, rfl, haccepts,
      Or.inl ⟨rfl, rfl⟩⟩
    simp only [receive, hrequest, keepalive, hok]
    rfl
  · obtain ⟨appended, happended⟩ := h.append size message
    obtain ⟨rooms, hok⟩ : ∃ rooms,
        s.rooms.append s.now c.room c.secret size message = (.ok appended, rooms) :=
      ⟨_, Prod.ext happended rfl⟩
    refine ⟨{ c with
      frames := c.frames ++ [frame]
      phase := .publishing ⟨i, s.appended.length, ⟨c.room, size, message⟩⟩
      receivedBytes := c.receivedBytes + (message.getD []).length }, ?_, rfl, rfl, haccepts,
      Or.inr ⟨_, rfl⟩⟩
    simp only [receive, hrequest, store, hok]
    rfl

end Server

namespace Net
open Transport

variable {V : Type} [Vt V] {room : RoomId} {secret : String} {n n' : Net V} {j : ℕ} {l : Link}
  {c : Conn}

/-- The loop of the `j`-th connection works on what is in flight on it, and has told the
client of all it has stored. -/
structure Ingesting (room : RoomId) (secret : String) (j : ℕ) (n : Net V) (l : Link) (c : Conn) :
    Prop where
  kept : Kept room n
  accepts : n.server.Accepts room secret
  link : n.links[j]? = some l
  whole : l.cut = false
  frames : ∀ frame ∈ l.toServer, frame.Ingestible
  conn : n.server.conns[l.conn]? = some c
  owner : c.room = room ∧ c.secret = secret
  ingesting : c.phase.ingesting = true
  acked : c.phase.owesAck = false → l.toClient.getLast?.getD 0 = c.receivedBytes

/-- What a loop has left to do, in its own steps and deliveries to it. -/
def work (l : Link) (c : Conn) : ℕ := 3 * l.toServer.length + c.phase.distance

theorem getElem?_set_conn {conns : List Conn} {i : ℕ} (hc : conns[i]? = some c) (c' : Conn) :
    (conns.set i c')[i]? = some c' :=
  List.getElem?_set_self (List.getElem?_eq_some_iff.mp hc).1

/-- The loop takes a step that changes no link. -/
theorem Ingesting.serve (h : Ingesting room secret j n l c) {a : Action} {server : Server} {c' : Conn}
    (hstep : n.step room secret (.server a) = some { n with server := server })
    (haccepts : server.Accepts room secret) (hconns : server.conns = n.server.conns.set l.conn c')
    (howner : c'.room = room ∧ c'.secret = secret) (hingesting : c'.phase.ingesting = true)
    (hacked : c'.phase.owesAck = false → l.toClient.getLast?.getD 0 = c'.receivedBytes) :
    Ingesting room secret j { n with server := server } l c' := by
  refine ⟨kept_step h.kept hstep, haccepts, h.link, h.whole, h.frames, ?_, howner, hingesting, hacked⟩
  change server.conns[l.conn]? = some c'
  rw [hconns]
  exact getElem?_set_conn h.conn c'

theorem Ingesting.attach (h : Ingesting room secret j n l c) (hphase : c.phase = .upgraded) :
    ∃ n' c', n.step room secret (.server (.attach l.conn)) = some n' ∧
      Ingesting room secret j n' l c' ∧ c'.phase.distance ≤ 1 ∧ n'.client = n.client := by
  have hstep : n.step room secret (.server (.attach l.conn)) =
      some { n with server := n.server.attach l.conn c } := by
    simp [step, Net.serve, Server.step, h.conn, hphase]
  have hacked := h.acked (by rw [hphase]; rfl)
  let announces := 0 < (n.server.rooms.broadcasterConnected n.server.now c.room c.secret).1
  refine ⟨_, c.to (if announces then .announcing else .receiving), hstep, ?_, ?_, rfl⟩
  · refine h.serve hstep (h.accepts.attach _ h.owner.1 h.owner.2) rfl h.owner ?_ fun _ => hacked
    change (if announces then Phase.announcing else Phase.receiving).ingesting = true
    split_ifs <;> rfl
  · change (if announces then Phase.announcing else Phase.receiving).distance ≤ 1
    split_ifs <;> decide

theorem Ingesting.publish (h : Ingesting room secret j n l c) {out : Output} {phase : Phase}
    (hpublication : c.publication = some (out, phase)) (hingesting : phase.ingesting = true)
    (hacked : phase.owesAck = c.phase.owesAck) :
    ∃ n', n.step room secret (.server (.publish l.conn)) = some n' ∧
      Ingesting room secret j n' l (c.to phase) ∧ n'.client = n.client := by
  let published : Server := { n.server with published := n.server.published ++ [out] }
  have hstep : n.step room secret (.server (.publish l.conn)) =
      some { n with server := published.setConn l.conn (c.to phase) } := by
    simp [step, Net.serve, Server.step, h.conn, hpublication, published]
  exact ⟨_, hstep, h.serve hstep h.accepts rfl h.owner hingesting fun howes =>
    h.acked (hacked.symm.trans howes), rfl⟩

/-- The ack goes on the link, and counts all the loop has stored. -/
theorem Ingesting.ack (h : Ingesting room secret j n l c) (hphase : c.phase = .acking) :
    ∃ n', n.step room secret (.server (.ack l.conn true)) = some n' ∧
      Ingesting room secret j n' (l.acknowledge c.receivedBytes) (c.to .receiving) ∧
      n'.client = n.client := by
  let server := n.server.setConn l.conn (c.to .receiving)
  let links := n.links.map fun k =>
    if k.conn = l.conn then (n.server.conns[l.conn]?).elim k fun c => k.acknowledge c.receivedBytes
    else k
  have hstep : n.step room secret (.server (.ack l.conn true)) =
      some { n with server := server, links := links } := by
    simp [step, Net.serve, Server.step, h.conn, hphase, server, links]
  have hack : l.acknowledge c.receivedBytes =
      { l with toClient := l.toClient ++ [c.receivedBytes] } := by
    simp [Link.acknowledge, h.whole]
  refine ⟨_, hstep, ⟨kept_step h.kept hstep, h.accepts, ?_, ?_, ?_, ?_, h.owner, rfl, ?_⟩, rfl⟩
  · change links[j]? = _
    simp only [links, List.getElem?_map, h.link, Option.map_some, if_pos, h.conn, Option.elim_some]
  all_goals rw [hack]
  · exact h.whole
  · exact h.frames
  · exact getElem?_set_conn h.conn _
  · intro _
    simp [Conn.to]

/-- The loop takes in the front frame of the link. -/
theorem Ingesting.deliver (h : Ingesting room secret j n l c) (hphase : c.phase = .receiving)
    {frame : WsMessage} {rest : List WsMessage} (hframes : l.toServer = frame :: rest) :
    ∃ n' c', n.step room secret (.deliver j) = some n' ∧
      Ingesting room secret j n' { l with toServer := rest } c' ∧ c'.phase.distance ≤ 2 ∧
      n'.client = n.client := by
  have hstep : n.step room secret (.deliver j) = some { n with
      server := n.server.receive l.conn c frame
      links := n.links.set j { l with toServer := rest } } := by
    simp [step, h.link, hframes, Server.step, h.conn, hphase]
  obtain ⟨c', hconns, hroom, hsecret, haccepts, hcases⟩ := Server.receive_ingestible h.accepts l.conn
    h.owner.1 h.owner.2 (h.frames frame (by rw [hframes]; exact List.mem_cons_self))
  have hlt := (List.getElem?_eq_some_iff.mp h.link).1
  have hacked := h.acked (by rw [hphase]; rfl)
  have hloop : c'.phase.ingesting = true ∧ c'.phase.distance ≤ 2 ∧
      (c'.phase.owesAck = false → l.toClient.getLast?.getD 0 = c'.receivedBytes) := by
    rcases hcases with ⟨hreceiving, hcount⟩ | ⟨stored, hstored⟩
    · rw [hreceiving, hcount]
      exact ⟨rfl, Nat.zero_le 2, fun _ => hacked⟩
    · rw [hstored]
      exact ⟨rfl, le_refl 2, fun h => by cases h⟩
  refine ⟨_, c', hstep, ⟨kept_step h.kept hstep, haccepts, List.getElem?_set_self hlt, h.whole,
    ?_, ?_, ⟨hroom, hsecret⟩, hloop.1, hloop.2.2⟩, hloop.2.1, rfl⟩
  · intro sent hmem
    apply h.frames
    rw [hframes]
    exact List.mem_cons_of_mem frame hmem
  · change (n.server.receive l.conn c frame).conns[l.conn]? = some c'
    rw [hconns]
    exact getElem?_set_conn h.conn c'

theorem Ingesting.progress (h : Ingesting room secret j n l c) (hwork : work l c ≠ 0) :
    ∃ n' l' c', LeadsTo (step room secret) Continues n n' ∧ Ingesting room secret j n' l' c' ∧
      work l' c' < work l c ∧ n'.client = n.client := by
  cases hphase : c.phase with
  | upgraded =>
    obtain ⟨n', c', hstep, hn', hless, hclient⟩ := h.attach hphase
    refine ⟨n', l, c', .single (a := .server (.attach _)) trivial hstep, hn', ?_, hclient⟩
    have hdistance : c.phase.distance = 2 := by rw [hphase]; rfl
    simp only [work]
    omega
  | announcing =>
    have hpublication : c.publication = some (.control c.room (.broadcasting true), .receiving) := by
      simp [Conn.publication, hphase]
    obtain ⟨n', hstep, hn', hclient⟩ := h.publish hpublication rfl (by rw [hphase]; rfl)
    refine ⟨n', l, _, .single (a := .server (.publish _)) trivial hstep, hn', ?_, hclient⟩
    simp [work, hphase, Phase.distance, Conn.to]
  | publishing stored =>
    have hpublication : c.publication = some (.ingest stored, .acking) := by
      simp [Conn.publication, hphase]
    obtain ⟨n', hstep, hn', hclient⟩ := h.publish hpublication rfl (by rw [hphase]; rfl)
    refine ⟨n', l, _, .single (a := .server (.publish _)) trivial hstep, hn', ?_, hclient⟩
    simp [work, hphase, Phase.distance, Conn.to]
  | acking =>
    obtain ⟨n', hstep, hn', hclient⟩ := h.ack hphase
    refine ⟨n', _, _, .single (a := .server (.ack _ _)) trivial hstep, hn', ?_, hclient⟩
    simp [work, hphase, Phase.distance, Conn.to, Link.acknowledge, h.whole]
  | receiving =>
    cases hframes : l.toServer with
    | nil => exact absurd (by simp [work, hphase, hframes, Phase.distance]) hwork
    | cons frame rest =>
      obtain ⟨n', c', hstep, hn', hless, hclient⟩ := h.deliver hphase hframes
      refine ⟨n', _, c', .single (a := .deliver _) trivial hstep, hn', ?_, hclient⟩
      simp only [work, hframes, List.length_cons]
      omega
  | _ =>
    have hingesting := h.ingesting
    rw [hphase] at hingesting
    cases hingesting

/-- The loop can take in all that is in flight, and acknowledge all it stored of it. -/
theorem Ingesting.ingested (h : Ingesting room secret j n l c) :
    ∃ n' l', LeadsTo (step room secret) Continues n n' ∧ Kept room n' ∧ n'.links[j]? = some l' ∧
      n'.client = n.client ∧
      l'.toClient.getLast?.getD 0 = total Chunk.len (n.client.wrote j) := by
  let P : Link × Conn → Net V → Prop := fun q m =>
    Ingesting room secret j m q.1 q.2 ∧ m.client = n.client
  have hdescend : ∀ q m, P q m → work q.1 q.2 ≠ 0 →
      ∃ q' m', LeadsTo (step room secret) Continues m m' ∧ P q' m' ∧
        work q'.1 q'.2 < work q.1 q.2 := by
    rintro q m ⟨hm, hclient⟩ hwork
    obtain ⟨m', l', c', hleads, hm', hless, hclient'⟩ := hm.progress hwork
    exact ⟨(l', c'), m', hleads, ⟨hm', hclient'.trans hclient⟩, hless⟩
  obtain ⟨⟨l', c'⟩, n', hleads, ⟨hn', hclient⟩, hzero⟩ :=
    LeadsTo.descend hdescend (i := (l, c)) ⟨h, rfl⟩
  refine ⟨n', l', hleads, hn'.kept, hn'.link, hclient, ?_⟩
  have hframes : l'.toServer = [] := by
    apply List.length_eq_zero_iff.mp
    simp only [work] at hzero
    omega
  have hdistance : c'.phase.distance = 0 := by
    simp only [work] at hzero
    omega
  have howes : c'.phase.owesAck = false := by
    cases hphase : c'.phase <;> simp_all [Phase.distance, Phase.owesAck]
  have hlooping : c'.phase.looping = true := by
    have hingesting := hn'.ingesting
    cases hphase : c'.phase <;> simp_all [Phase.ingesting, Phase.looping]
  obtain ⟨d, hd, -, -, hall⟩ := (hn'.kept.carries j l' hn'.link).frames
  obtain rfl : d = c' := Option.some.inj (hd.symm.trans hn'.conn)
  have hexact := hn'.kept.ingests.exact_of l'.conn d hd
  calc l'.toClient.getLast?.getD 0 = d.receivedBytes := hn'.acked howes
    _ = totalLength (payloadsOf d.frames) := by rw [hexact.counted, hexact.all hlooping]
    _ = totalLength ((n'.client.wrote j).map Chunk.bytes) := by
      rw [← hall hn'.whole, hframes]
      exact congrArg totalLength (List.append_nil _).symm
    _ = total Chunk.len (n.client.wrote j) := by rw [← total_len, hclient]

theorem ackOf_ackMessage_of_lt {acked : ℕ} (h : acked < 2 ^ 64) :
    ackOf (some (ackMessage acked)) = some acked := by
  have hget : (ackMessage acked).get "ack" = some (.number acked) := by
    simp [ackMessage, Json.get]
  have hbound : acked < 18446744073709551616 := h
  simp [ackOf, hget, Json.asU64, hbound]

/-- The client reads its acks, of which the last one in flight is of all it wrote. -/
structure Reading (room : RoomId) (j : ℕ) (n : Net V) (l : Link) : Prop where
  kept : Kept room n
  opened : n.client.closed = false
  stage : n.client.stage = .draining .tick
  socket : n.client.socket = some j
  link : n.links[j]? = some l
  written : n.client.pending = []
  bounded : total Chunk.len (n.client.wrote j) < 2 ^ 64
  covered : total Chunk.len (n.client.wrote j) ≤
    max n.client.connAcked (l.toClient.getLast?.getD 0)

theorem Reading.read (secret : String) (h : Reading room j n l) (hacks : l.toClient.length ≠ 0) :
    ∃ n' l', n.step room secret .readAck = some n' ∧ Reading room j n' l' ∧
      l'.toClient.length < l.toClient.length ∧ n'.client.queued = n.client.queued ∧
      n'.client.discarded = n.client.discarded := by
  cases htoClient : l.toClient with
  | nil => exact absurd (by rw [htoClient]; rfl) hacks
  | cons acked rest =>
    have hmem : acked ∈ l.toClient := by
      rw [htoClient]
      exact List.mem_cons_self
    obtain ⟨m, -, -, htake⟩ := (h.kept.carries j l h.link).ack h.kept.ingests hmem
    have hacked : acked < 2 ^ 64 := by
      have hsplit := total_take_add_drop (w := Chunk.len) m (n.client.wrote j)
      have hbounded := h.bounded
      omega
    let t : Transport V := { n.client with toReplayBuffer := n.client.applyAck acked }
    have ht : n.client.step (.read (.text (some (ackMessage acked)))) = some t := by
      simp [Transport.step, h.stage, drainTurn, ackOf_ackMessage_of_lt hacked, t]
    let n' : Net V := { n with client := t, links := n.links.set j { l with toClient := rest } }
    have hstep : n.step room secret .readAck = some n' := by
      simp [step, h.opened, h.socket, h.link, htoClient, ht, n']
    have hlt := (List.getElem?_eq_some_iff.mp h.link).1
    refine ⟨n', _, hstep, ⟨kept_step h.kept hstep, h.opened, h.stage, h.socket,
      List.getElem?_set_self hlt, h.written, h.bounded, ?_⟩, ?_, rfl, rfl⟩
    · have hcovered := h.covered
      rw [htoClient, List.getLast?_cons, Option.getD_some] at hcovered
      change total Chunk.len (n.client.wrote j) ≤
        max (max n.client.connAcked acked) (rest.getLast?.getD 0)
      cases hrest : rest.getLast? with
      | none =>
        rw [hrest, Option.getD_none] at hcovered
        omega
      | some last =>
        rw [hrest, Option.getD_some] at hcovered
        rw [Option.getD_some]
        omega
    · simp only [List.length_cons]
      omega

/-- The client has nothing left to deliver, and lost nothing on the way. -/
structure Finished (n n' : Net V) : Prop where
  held : n'.client.held = []
  queued : n'.client.queued = n.client.queued
  discarded : n'.client.discarded = n.client.discarded
  opened : n'.client.closed = false

theorem Reading.finished (secret : String) (h : Reading room j n l) :
    ∃ n', LeadsTo (step room secret) Continues n n' ∧ Finished n n' := by
  let P : Link → Net V → Prop := fun k m => Reading room j m k ∧
    m.client.queued = n.client.queued ∧ m.client.discarded = n.client.discarded
  have hdescend : ∀ k m, P k m → k.toClient.length ≠ 0 →
      ∃ k' m', LeadsTo (step room secret) Continues m m' ∧ P k' m' ∧
        k'.toClient.length < k.toClient.length := by
    rintro k m ⟨hm, hqueued, hdiscarded⟩ hacks
    obtain ⟨m', k', hstep, hm', hless, hqueued', hdiscarded'⟩ := hm.read secret hacks
    exact ⟨k', m', .single (a := .readAck) trivial hstep,
      ⟨hm', hqueued'.trans hqueued, hdiscarded'.trans hdiscarded⟩, hless⟩
  obtain ⟨l', n', hleads, ⟨hn', hqueued, hdiscarded⟩, hzero⟩ :=
    LeadsTo.descend hdescend ⟨h, rfl, rfl⟩
  refine ⟨n', hleads, ?_, hqueued, hdiscarded, hn'.opened⟩
  have hsettled := hn'.kept.accounted.settled
  have htracks := hsettled.live hn'.opened j hn'.socket
  have hcovered := hn'.covered
  rw [List.length_eq_zero_iff.mp hzero, List.getLast?_nil, Option.getD_none] at hcovered
  have htotal := htracks.total_eq
  have hall : n'.client.connAcked = total Chunk.len (n'.client.wrote j) := by omega
  have hpositive := hn'.kept.accounted.counted.positive_wrote hsettled j
  rw [held, (htracks.complete hpositive hall).1, hn'.written]
  rfl

omit [Vt V] in
/-- What was written on a new connection is within the cap of the buffer. -/
theorem Writing.bounded (h : Writing room secret n) (hsocket : n.client.socket = some j) :
    total Chunk.len (n.client.wrote j) ≤ maxBufferedBytes := by
  have hcounted := h.kept.accounted.counted
  have htotal := (h.kept.accounted.settled.live h.opened j hsocket).total_eq
  rw [h.counters.1, h.counters.2] at htotal
  calc total Chunk.len (n.client.wrote j) = total Chunk.len n.client.unacked := by omega
    _ ≤ total Chunk.len n.client.held := by
      rw [held, total_append]
      exact Nat.le_add_right _ _
    _ = n.client.bufferedBytes := hcounted.exact_bytes.symm
    _ ≤ maxBufferedBytes := hcounted.capped

/-- With all written, the loop takes it in and the client reads of it. -/
theorem Writing.finished (h : Writing room secret n) (hzero : n.client.leftToWrite = 0) :
    ∃ n', LeadsTo (step room secret) Continues n n' ∧ Finished n n' := by
  obtain ⟨j, l, hsocket, hl, hcut, hacks, hframes, hconn⟩ := h.link
  have hidle : n.client.stage = .idle ∧ n.client.pending = [] := by
    rcases h.stage with hstage | ⟨hstage, -⟩ | ⟨hstage | hstage, hpending⟩
    · simp [leftToWrite, hstage] at hzero
    · simp [leftToWrite, hstage] at hzero
    · simp [leftToWrite, hstage] at hzero
    · exact ⟨hstage, hpending⟩
  have hingesting : Ingesting room secret j n l ⟨room, secret, .upgraded, 0, []⟩ :=
    ⟨h.kept, h.accepts, hl, hcut, hframes, hconn, ⟨rfl, rfl⟩, rfl, fun _ => by rw [hacks]; rfl⟩
  obtain ⟨⟨client, server, links⟩, l', hingest, hm, hl', hclient, hlast⟩ := hingesting.ingested
  obtain rfl : client = n.client := hclient
  let t := n.client.enter (.draining .tick)
  have hstep : step room secret ⟨n.client, server, links⟩ (.client (.tick n.client.size)) =
      some ⟨t, server, links⟩ := by
    simp [step, h.opened, step_tick_online hidle.1 hsocket, t]
  have hreading : Reading room j ⟨t, server, links⟩ l' :=
    ⟨kept_step hm hstep, h.opened, rfl, hsocket, hl', hidle.2,
      (h.bounded hsocket).trans_lt (by decide), hlast.ge.trans (le_max_right _ _)⟩
  obtain ⟨n', hread, hfinished⟩ := hreading.finished secret
  have htick : LeadsTo (step room secret) Continues ⟨n.client, server, links⟩ ⟨t, server, links⟩ :=
    .single (a := .client (.tick _)) trivial hstep
  exact ⟨n', (hingest.trans htick).trans hread, hfinished.held, hfinished.queued,
    hfinished.discarded, hfinished.opened⟩

/-- A client not in `shutdown` can deliver all it holds, from every state of the net in which
its room is not claimed by another. -/
theorem finishes (hkept : Kept room n) (hpoised : n.client.Poised)
    (hopen : n.client.closed = false) (haccepts : n.server.Accepts room secret)
    (hending : n.client.stage.ending = false) :
    ∃ n', LeadsTo (step room secret) Continues n n' ∧ Finished n n' := by
  obtain ⟨w, hstart, hwriting, hzero, hstock⟩ := startsOver hkept hpoised hopen haccepts hending
  obtain ⟨n', hrest, hfinished⟩ := hwriting.finished hzero
  exact ⟨n', hstart.trans hrest, hfinished.held,
    hfinished.queued.trans (congrArg (·.2.1) hstock),
    hfinished.discarded.trans (congrArg (·.2.2.1) hstock), hfinished.opened⟩

end Net

end Shellshare
