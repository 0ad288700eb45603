import Shellshare.ReplayOrder
import Shellshare.ServerIngest

/-! One broadcasting client against the server: each of its connections is a pair
of FIFO links, either of which may lose what is in flight. The server's other
clients are free to do anything they may do. -/
namespace Shellshare

/-- The client's `k`-th connection, as the `k`-th link: the loop that serves it,
the frames and the ack counts in flight, and whether the network has cut it. -/
structure Link where
  conn : ℕ
  toServer : List WsMessage
  toClient : List ℕ
  cut : Bool

/-- What is sent on a cut link is lost. -/
def Link.send (l : Link) (frame : WsMessage) : Link :=
  if l.cut then l else { l with toServer := l.toServer ++ [frame] }

def Link.acknowledge (l : Link) (acked : ℕ) : Link :=
  if l.cut then l else { l with toClient := l.toClient ++ [acked] }

/-- The network cuts the link and loses a suffix of what is in flight either way. -/
def Link.lose (l : Link) (toServer toClient : ℕ) : Link :=
  { l with
    toServer := l.toServer.take toServer
    toClient := l.toClient.take toClient
    cut := true }

structure Net (V : Type) where
  client : Transport V
  server : Server
  links : List Link

/-- `client` covers the operations and the calls that put nothing on a link and
take no ack from one. The server takes the front frame of a link by `deliver`.
A frame whose send failed is in flight like any other: only a cut loses it. -/
inductive NetAction where
  | client (a : ClientAction)
  | dial
  | write (sent : Bool) (len : ℕ)
  | readAck
  | close
  | server (a : Action)
  | deliver (k : ℕ)
  | cut (k toServer toClient : ℕ)

def resetMessage : Json := .object [("reset", .bool true)]

def ackMessage (acked : ℕ) : Json := .object [("ack", .number acked)]

namespace Transport

variable {V : Type}

/-- The size message, with the theme and the marker of an encrypted broadcast. -/
def sizeMessage (t : Transport V) : Json :=
  .object [("size", .object
    ([("cols", .number t.size.cols.toNat), ("rows", .number t.size.rows.toNat)] ++
    (t.theme.map fun theme => ("theme", Json.string theme)).toList ++
    (t.cipher.map fun _ => ("encrypted", Json.bool true)).toList))]

/-- The frame of the pending call. A text frame is given its length from outside:
how JSON is rendered is not modelled. -/
def outgoing (t : Transport V) (len : ℕ) : Option WsMessage :=
  match t.stage with
  | .resetting => some (.text len (some resetMessage))
  | .sizing _ => some (.text len (some t.sizeMessage))
  | .writing _ => t.pending.head?.map fun chunk => .binary chunk.bytes
  | .pinging => some .ping
  | .closing => some .close
  | _ => none

end Transport

namespace Net

variable {V : Type} [Vt V]

def init (size : TermSize) (theme : Option String) (cipher : Option Encryptor) (ttl : ℕ) : Net V :=
  ⟨Transport.new size theme cipher, Server.init ttl, []⟩

/-- A frame of the pending call goes on the client's current link. -/
def send (n : Net V) (len : ℕ) : List Link :=
  match n.client.socket, n.client.outgoing len with
  | some j, some frame => n.links.modify j (·.send frame)
  | _, _ => n.links

/-- A server step that takes no frame from the client's links. An ack goes on the
link that the loop serves. -/
def serve (n : Net V) (a : Action) : Option (Net V) :=
  (n.server.step a).bind fun server =>
    match a with
    | .receive i _ => if n.links.any (·.conn = i) then none else some { n with server := server }
    | .ack i _ => some { n with
        server := server
        links := n.links.map fun l =>
          if l.conn = i then (n.server.conns[i]?).elim l fun c => l.acknowledge c.receivedBytes
          else l }
    | _ => some { n with server := server }

/-- The client's calls end with `shutdown`: every caller drops it then. -/
def step (room : RoomId) (secret : String) (n : Net V) : NetAction → Option (Net V)
  | .client a =>
    if n.client.closed then none
    else match a with
      | .handshake .accepted | .write _ | .read (.text _) | .close => none
      | a => (n.client.step a).map fun client => { n with client := client }
  | .dial =>
    if n.client.closed then none
    else match (n.server.rooms.append n.server.now room secret none none).1 with
      | .error _ => none
      | .ok _ => (n.client.step (.handshake .accepted)).map fun client =>
        { client := client
          server := n.server.handshake room secret
          links := n.links ++ [⟨n.server.conns.length, [], [], false⟩] }
  | .write sent len =>
    if n.client.closed then none
    else (n.client.step (.write sent)).map fun client =>
      { n with client := client, links := n.send len }
  | .readAck =>
    if n.client.closed then none
    else n.client.socket.bind fun j => n.links[j]?.bind fun l =>
      match l.toClient with
      | [] => none
      | acked :: rest => (n.client.step (.read (.text (some (ackMessage acked))))).map fun client =>
        { n with client := client, links := n.links.set j { l with toClient := rest } }
  | .close =>
    if n.client.closed then none
    else (n.client.step .close).map fun client =>
      { n with client := client, links := n.send 0 }
  | .server a => n.serve a
  | .deliver k => n.links[k]?.bind fun l =>
    match l.toServer with
    | [] => none
    | frame :: rest => (n.server.step (.receive l.conn frame)).map fun server =>
      { n with server := server, links := n.links.set k { l with toServer := rest } }
  | .cut k toServer toClient => n.links[k]?.map fun l =>
    { n with links := n.links.set k (l.lose toServer toClient) }

/-- The chunk is among the first chunks of some connection, as many as the loop
serving it has stored in the room. -/
def Stored (room : RoomId) (n : Net V) (chunk : Chunk) : Prop :=
  ∃ k l, n.links[k]? = some l ∧
    chunk ∈ (n.client.wrote k).take (n.server.storedBy room l.conn).length

/-- At-least-once delivery: no chunk is missing, and each connection stores, in
order and once each, the first chunks that were written on it. -/
structure Delivered (room : RoomId) (n : Net V) : Prop where
  accounted : ∀ chunk ∈ n.client.queued, chunk ∈ n.client.unacked ++ n.client.pending ∨
    chunk ∈ n.client.discarded ∨ n.Stored room chunk
  in_order : ∀ k l, n.links[k]? = some l →
    n.server.storedBy room l.conn <+: (n.client.wrote k).map Chunk.bytes ∧
      (n.client.wrote k).Pairwise fun c d => c.seq < d.seq

end Net

end Shellshare
