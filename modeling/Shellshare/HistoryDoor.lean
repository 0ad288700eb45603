import Mathlib.Data.List.TakeWhile
import Shellshare.AgentFollowCuts
import Shellshare.EncryptedBroadcast
import Shellshare.FragmentKey
import Shellshare.RoomIdParse

/-! The history of a room over HTTP: `/r/<room>.bin`, and the agent's reader without
`--follow`, which fetches it. -/
namespace Shellshare
open LengthPrefix PercentEncoding TransitionRuns Utf8Validation

structure Response where
  status : ℕ
  headers : List (String × String)
  body : Bytes

def plainResponse (status : ℕ) (body : String) : Response :=
  ⟨status, [("content-type", "text/plain; charset=utf-8")], utf8 body⟩

def noindexHeader : String × String := ("x-robots-tag", "noindex")

/-- `page` is the viewer page. -/
def roomGetHandler (page : Response) (rooms : Rooms) (now : ℕ) (roomPath : String) : Response :=
  match roomPath.toList.dropSuffix? ".bin".toList with
  | none => page
  | some room =>
    match rooms.snapshot now (RoomId.parse (String.ofList room)) with
    | some snapshot =>
      ⟨200, [("content-type", "application/octet-stream"), ("cache-control", "no-store"),
        noindexHeader], snapshot.history.getD []⟩
    | none => plainResponse 404 "Room not found"

/-- A GET to the server. `fallback` stands for the other routes. -/
def Server.get (page : Response) (fallback : Bytes → Response) (s : Server) (path : Bytes) :
    Response :=
  match routed "/r/" path with
  | some roomPath => roomGetHandler page s.rooms s.now roomPath
  | none => fallback path

/-- Text of ASCII bytes, as a path is. -/
def asciiText (bytes : Bytes) : String := String.ofList (bytes.map fun b => Char.ofNat b.toNat)

section Route
variable {room raw : String} {url s : Bytes}

end Route

namespace Broadcast
open Transport

variable {V : Type} [Vt V]

end Broadcast

end Shellshare
