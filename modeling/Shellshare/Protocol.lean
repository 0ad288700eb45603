import Mathlib.Algebra.Order.Ring.Nat
import Mathlib.Data.List.Basic
import Mathlib.Data.Rat.Defs

/-! The wire protocol shared by client, server and viewers: raw terminal bytes,
and JSON control messages. -/
namespace Shellshare

/-- Raw bytes, one `Bytes` buffer. -/
abbrev Bytes := List UInt8

/-- Bytes held by a queue of chunks. -/
def totalLength (chunks : List Bytes) : ℕ := (chunks.map List.length).sum

@[simp] theorem totalLength_nil : totalLength [] = 0 := rfl

@[simp] theorem totalLength_cons (c : Bytes) (cs : List Bytes) :
    totalLength (c :: cs) = c.length + totalLength cs := by
  simp only [totalLength, List.map_cons, List.sum_cons]

@[simp] theorem totalLength_append (cs ds : List Bytes) :
    totalLength (cs ++ ds) = totalLength cs + totalLength ds := by
  simp only [totalLength, List.map_append, List.sum_append]

/-- A parsed JSON value. An object keeps its fields in a list with distinct keys. -/
inductive Json where
  | null
  | bool (b : Bool)
  | number (n : ℚ)
  | string (s : String)
  | array (items : List Json)
  | object (fields : List (String × Json))

namespace Json

def get : Json → String → Option Json
  | object fields, key => fields.lookup key
  | _, _ => none

def asBool : Json → Option Bool
  | bool b => some b
  | _ => none

/-- `body.get(key).and_then(Value::as_bool) == Some(true)` -/
def isTrue (body : Json) (key : String) : Bool := (body.get key).bind asBool == some true

end Json

/-- Terminal dimensions, both `u16` in the source. -/
structure TermSize where
  cols : UInt16
  rows : UInt16
deriving DecidableEq

/-- Whether an incoming `size` value carries terminal dimensions. -/
def sizeHasDimensions (size : Json) : Bool :=
  match size with
  | .object _ => (size.get "cols").isSome && (size.get "rows").isSome
  | _ => false

/-- Whether a stored size tells viewers to expect encrypted records. -/
def sizeIsEncrypted (size : Json) : Bool := size.isTrue "encrypted"

end Shellshare
