import Shellshare.Rooms
import Shellshare.TransitionRuns

/-! The server around the room store: upgrade handshakes, one `ws_ingest_loop`
per broadcasting connection, HTTP deletes and the cleanup sweep. A loop is cut at
each point where another task may run, so a store update and the publication
that follows it are two steps. -/
namespace Shellshare

def maxIngestFrame : ℕ := 1024 * 1024
def maxControlFrame : ℕ := 4 * 1024

/-- An ingest frame. A text frame is its length and its parse, `none` when it
is not JSON. -/
inductive WsMessage where
  | binary (bytes : Bytes)
  | text (len : ℕ) (body : Option Json)
  | ping
  | pong
  | close

/-- One unit of viewer fan-out work. -/
structure FanoutItem where
  room : RoomId
  size : Option Json
  payload : Option Bytes

/-- Viewer-visible controls that bypass the ingest fan-out queue. -/
inductive ViewerControl where
  | reset
  | broadcasting (live : Bool)

/-- An item that `append` stored. Which connection stored it and its place in
the order of stores are history: no step of the server reads them. -/
structure Stored where
  conn : ℕ
  seq : ℕ
  item : FanoutItem

/-- What the server hands to viewer delivery. -/
inductive Output where
  | ingest (stored : Stored)
  | control (room : RoomId) (control : ViewerControl)

/-- What a received frame asks of the store. -/
inductive Request where
  | keepalive
  | store (size : Option Json) (message : Option Bytes)
  | delete
  | reset
  | stop

/-- The match of `ws_ingest_loop` on a frame. A frame over the message cap is a
receive error, which ends the loop like a close does. -/
def request : WsMessage → Request
  | .binary bytes => if maxIngestFrame < bytes.length then .stop else .store none (some bytes)
  | .text len body =>
    if maxIngestFrame < len then .stop
    -- ignored, and so is a frame that does not parse, but the peer is alive
    else if maxControlFrame < len then .keepalive
    else match body with
      | none => .keepalive
      | some body =>
        if body.isTrue "delete" then .delete
        else if body.isTrue "reset" then .reset
        else match (body.get "size").filter sizeHasDimensions with
          | some size => .store (some size) none
          -- another control message, or a size without dimensions
          | none => .keepalive
  | .ping => .keepalive
  | .pong => .keepalive
  | .close => .stop

/-- Where a loop stands between two of its steps. -/
inductive Phase where
  /-- the handshake claimed or verified the room, the loop has not started -/
  | upgraded
  /-- counted by `broadcaster_connected`, `Broadcasting(true)` not yet published -/
  | announcing
  | receiving
  /-- stored by `append`, not yet handed to `publish_ingest` -/
  | publishing (stored : Stored)
  | acking
  /-- `Rooms::reset` succeeded, the viewers' `Reset` not yet published -/
  | resetting
  /-- out of the receive loop, not yet detached -/
  | leaving
  /-- detached as the last one, `Broadcasting(false)` not yet published -/
  | signingOff
  | ended

/-- One broadcasting connection. `frames` is history: what it received so far. -/
structure Conn where
  room : RoomId
  secret : String
  phase : Phase
  receivedBytes : ℕ
  frames : List WsMessage

/-- `appended` and `published` are history: the stores and the publications of
the run so far, in order. -/
structure Server where
  rooms : Rooms
  now : ℕ
  inactiveTtl : ℕ
  conns : List Conn
  appended : List Stored
  published : List Output

inductive Action where
  | elapse (d : ℕ)
  | handshake (room : RoomId) (secret : String)
  | attach (i : ℕ)
  | receive (i : ℕ) (msg : WsMessage)
  | hangUp (i : ℕ)
  | publish (i : ℕ)
  | ack (i : ℕ) (sent : Bool)
  | detach (i : ℕ)
  | deleteRoom (room : RoomId) (secret : String)
  | evict (room : RoomId)

def Conn.to (c : Conn) (phase : Phase) : Conn := { c with phase := phase }

/-- The publication a loop is about to make, and where it stands afterwards. -/
def Conn.publication (c : Conn) : Option (Output × Phase) :=
  match c.phase with
  | .announcing => some (.control c.room (.broadcasting true), .receiving)
  | .publishing stored => some (.ingest stored, .acking)
  | .resetting => some (.control c.room .reset, .receiving)
  | .signingOff => some (.control c.room (.broadcasting false), .ended)
  | _ => none

namespace Server

def init (inactiveTtl : ℕ) : Server := ⟨fun _ => none, 0, inactiveTtl, [], [], []⟩

def setConn (s : Server) (i : ℕ) (c : Conn) : Server := { s with conns := s.conns.set i c }

def handshake (s : Server) (room : RoomId) (secret : String) : Server :=
  match s.rooms.append s.now room secret none none with
  | (.ok _, rooms) =>
    { s with rooms := rooms, conns := s.conns ++ [⟨room, secret, .upgraded, 0, []⟩] }
  -- answered with 401, so no loop is started
  | (.error _, rooms) => { s with rooms := rooms }

def attach (s : Server) (i : ℕ) (c : Conn) : Server :=
  let r := s.rooms.broadcasterConnected s.now c.room c.secret
  { s with rooms := r.2 }.setConn i (c.to (if 0 < r.1 then .announcing else .receiving))

def keepalive (s : Server) (i : ℕ) (c : Conn) : Server :=
  match s.rooms.append s.now c.room c.secret none none with
  | (.ok _, rooms) => { s with rooms := rooms }.setConn i (c.to .receiving)
  | (.error _, rooms) => { s with rooms := rooms }.setConn i (c.to .leaving)

/-- `ingest` up to its publication, then the byte count the ack will carry. -/
def store (s : Server) (i : ℕ) (c : Conn) (size : Option Json) (message : Option Bytes) :
    Server :=
  match s.rooms.append s.now c.room c.secret size message with
  | (.ok _, rooms) =>
    let stored : Stored := ⟨i, s.appended.length, ⟨c.room, size, message⟩⟩
    { s with rooms := rooms, appended := s.appended ++ [stored] }.setConn i
      { c with
        phase := .publishing stored
        receivedBytes := c.receivedBytes + (message.getD []).length }
  | (.error _, rooms) => { s with rooms := rooms }.setConn i (c.to .leaving)

def resetRoom (s : Server) (i : ℕ) (c : Conn) : Server :=
  match s.rooms.reset s.now c.room c.secret with
  | (.ok _, rooms) => { s with rooms := rooms }.setConn i (c.to .resetting)
  | (.error _, rooms) => { s with rooms := rooms }.setConn i (c.to .leaving)

/-- One turn of the receive loop, up to the point where it publishes, acks or
waits for the next frame. -/
def receive (s : Server) (i : ℕ) (c : Conn) (msg : WsMessage) : Server :=
  let c := { c with frames := c.frames ++ [msg] }
  match request msg with
  | .keepalive => s.keepalive i c
  | .store size message => s.store i c size message
  -- the loop ends whether or not the room was its own
  | .delete =>
    { s with rooms := (s.rooms.delete s.now c.room c.secret).2 }.setConn i (c.to .leaving)
  | .reset => s.resetRoom i c
  | .stop => s.setConn i (c.to .leaving)

def detach (s : Server) (i : ℕ) (c : Conn) : Server :=
  let r := s.rooms.broadcasterDisconnected s.now c.room c.secret
  -- a room that is gone has nobody attached either
  { s with rooms := r.2 }.setConn i (c.to (if r.1.1 = 0 then .signingOff else .ended))

def step (s : Server) : Action → Option Server
  | .elapse d => some { s with now := s.now + d }
  | .handshake room secret => some (s.handshake room secret)
  | .attach i => s.conns[i]?.bind fun c => match c.phase with
    | .upgraded => some (s.attach i c)
    | _ => none
  | .receive i msg => s.conns[i]?.bind fun c => match c.phase with
    | .receiving => some (s.receive i c msg)
    | _ => none
  | .hangUp i => s.conns[i]?.bind fun c => match c.phase with
    | .receiving => some (s.setConn i (c.to .leaving))
    | _ => none
  | .publish i => s.conns[i]?.bind fun c => c.publication.map fun p =>
    { s with published := s.published ++ [p.1] }.setConn i (c.to p.2)
  | .ack i sent => s.conns[i]?.bind fun c => match c.phase with
    | .acking => some (s.setConn i (c.to (if sent then .receiving else .leaving)))
    | _ => none
  | .detach i => s.conns[i]?.bind fun c => match c.phase with
    | .leaving => some (s.detach i c)
    | _ => none
  | .deleteRoom room secret => some { s with rooms := (s.rooms.delete s.now room secret).2 }
  | .evict room => some { s with rooms := s.rooms.evictRoom s.now s.inactiveTtl room }

end Server

end Shellshare
