import Mathlib.Data.List.Infix
import Shellshare.BrowserUrl
import Shellshare.Rooms

/-! The printed share link: the room that a browser opening it is sent to, and the
key it finds there, against the room the broadcaster is connected to. -/
namespace Shellshare
open DotSegments PercentEncoding

def RoomId.parse (raw : String) : RoomId :=
  let name := raw.toList.dropWhile (· = '/')
  let name := String.ofList ((name.dropPrefix? ['r', '/']).getD name)
  ⟨(decodeUtf8 (percentDecode (utf8 name))).getD name⟩

/-- What a wildcard route captures: the rest of the path, which is not empty. -/
def capture (route path : Bytes) : Option Bytes := (path.dropPrefix? route).filter (· ≠ [])

/-- The handler's `Path`: what the wildcard captures, decoded. -/
def routed (route : String) (path : Bytes) : Option String :=
  (capture (utf8 route) path).bind fun rest => decodeUtf8 (percentDecode rest)

/-- The room that a handler under the route takes a request for. -/
def roomAt (route : String) (path : Bytes) : Option RoomId := (routed route path).map RoomId.parse

/-- `Uri` takes no control and no space outside of the fragment, which it drops. What else
it refuses makes no difference here. -/
def uriAccepts (url : Bytes) : Bool := (url.takeWhile (· ≠ hash)).all (32 < ·)

def hexLower (n : UInt8) : UInt8 := if n < 10 then 48 + n else 87 + n

/-- `hex::encode` -/
def hexEncode (bytes : Bytes) : Bytes := bytes.flatMap fun b => [hexLower (b / 16), hexLower (b % 16)]

def roomPath (room : String) : Bytes := utf8 "r/" ++ utf8 room

/-- The room of `Transport::connect`, which writes the name into its URL as it is. -/
def ingestRoom (room : String) : Option RoomId :=
  let url := utf8 "/ws/" ++ roomPath room
  if uriAccepts url then roomAt "/ws/r/" (urlPath url) else none

/-- The link that is printed for an encrypted broadcast. -/
def shareUrl (room : String) (key : Bytes) : Bytes :=
  utf8 "/" ++ roomPath room ++ hash :: hexEncode key

/-- A name with this suffix is a history, and no page. -/
def isHistory (roomPath : String) : Bool := (roomPath.toList.dropSuffix? ".bin".toList).isSome

/-- The room of `WS_URL` on the viewer page, if that is what the link opens. -/
def viewerRoom (url : Bytes) : Option RoomId :=
  let pathname := browserPath url
  (routed "/r/" pathname).bind fun roomPath =>
    if isHistory roomPath then none
    else roomAt "/ws/v/r/" (browserPath (utf8 "/ws/v" ++ pathname))

/-- `window.location.hash.replace(/^#/, '')` -/
def keyHex (url : Bytes) : Bytes :=
  let fragment := percentEncode fragmentSet (urlFragment (cleaned url))
  let locationHash := if fragment = [] then [] else hash :: fragment
  (locationHash.dropPrefix? [hash]).getD locationHash

variable {s t : Bytes} {b : UInt8}

theorem uriAccepts_append (hs : ∀ b ∈ s, b ≠ hash ∧ 32 < b) :
    uriAccepts (s ++ t) = uriAccepts t := by
  have hnohash : ∀ b ∈ s, decide (b ≠ hash) = true := fun b hb => decide_eq_true (hs b hb).1
  rw [uriAccepts, List.takeWhile_append_of_pos hnohash, List.all_append, uriAccepts]
  have hall : s.all (32 < ·) = true := List.all_eq_true.mpr fun b hb => decide_eq_true (hs b hb).2
  rw [hall, Bool.true_and]

theorem uriAccepts_append_hash (s t : Bytes) : uriAccepts (s ++ hash :: t) = uriAccepts s := by
  rw [uriAccepts, uriAccepts]
  congr 1
  induction s with
  | nil => rfl
  | cons b s ih => rw [List.cons_append, List.takeWhile_cons, List.takeWhile_cons, ih]

theorem browserPath_socket (url : Bytes) :
    browserPath (utf8 "/ws/v" ++ browserPath url) = utf8 "/ws/v" ++ browserPath url := by
  have hroute : utf8 "/ws/v" = joinPath [utf8 "ws", utf8 "v"] := by decide +kernel
  rw [hroute]
  apply browserPath_append_browserPath
  decide +kernel

theorem routed_append (route : String) (rest : Bytes) :
    routed route (utf8 route ++ rest) =
      if rest = [] then none else decodeUtf8 (percentDecode rest) := by
  rw [routed, capture, List.dropPrefix?_append_of_beq rest (BEq.rfl)]
  split_ifs with h <;> simp [Option.filter, h]

theorem routed_eq_some_iff {route name : String} {path : Bytes} : routed route path = some name ↔
    ∃ rest, path = utf8 route ++ rest ∧ rest ≠ [] ∧
      decodeUtf8 (percentDecode rest) = some name := by
  constructor
  · intro h
    obtain ⟨rest, hcapture, hname⟩ := Option.bind_eq_some_iff.mp h
    obtain ⟨hdrop, hne⟩ := Option.filter_eq_some_iff.mp hcapture
    obtain ⟨front, rfl, hfront⟩ := List.dropPrefix?_eq_some_iff.mp hdrop
    rw [eq_of_beq hfront]
    exact ⟨rest, rfl, of_decide_eq_true hne, hname⟩
  · rintro ⟨rest, rfl, hne, hname⟩
    rw [routed_append, if_neg hne, hname]

/-- The page that a link opens connects to the room in the page's path. -/
theorem viewerRoom_eq_some_iff {url : Bytes} {id : RoomId} : viewerRoom url = some id ↔
    ∃ name, routed "/r/" (browserPath url) = some name ∧ isHistory name = false ∧
      RoomId.parse name = id := by
  have hsocket : ∀ name, routed "/r/" (browserPath url) = some name →
      roomAt "/ws/v/r/" (browserPath (utf8 "/ws/v" ++ browserPath url)) =
        some (RoomId.parse name) := by
    intro name hname
    obtain ⟨rest, hpath, hne, hrest⟩ := routed_eq_some_iff.mp hname
    have hroute : utf8 "/ws/v" ++ (utf8 "/r/" ++ rest) = utf8 "/ws/v/r/" ++ rest := rfl
    rw [browserPath_socket, hpath, hroute, roomAt, routed_append, if_neg hne, hrest]
    rfl
  rw [viewerRoom, Option.bind_eq_some_iff]
  apply exists_congr
  intro name
  apply and_congr_right
  intro hname
  cases hhistory : isHistory name with
  | true => simp
  | false =>
    rw [if_neg Bool.false_ne_true, hsocket name hname]
    simp

theorem uriAccepts_link (room : String) : uriAccepts (utf8 "/" ++ roomPath room) =
    uriAccepts (utf8 room) := by
  rw [roomPath, uriAccepts_append (by decide +kernel), uriAccepts_append (by decide +kernel)]

theorem ingestRoom_eq_some_iff {room : String} {id : RoomId} : ingestRoom room = some id ↔
    uriAccepts (utf8 room) = true ∧ urlPath (utf8 room) ≠ [] ∧
      ∃ name, decodeUtf8 (percentDecode (urlPath (utf8 room))) = some name ∧
        RoomId.parse name = id := by
  have haccepts : uriAccepts (utf8 "/ws/" ++ roomPath room) = uriAccepts (utf8 room) := by
    rw [roomPath, uriAccepts_append (by decide +kernel), uriAccepts_append (by decide +kernel)]
  have hpath : urlPath (utf8 "/ws/" ++ roomPath room) = utf8 "/ws/r/" ++ urlPath (utf8 room) := by
    rw [roomPath, ← List.append_assoc, urlPath_append (by decide +kernel)]
    rfl
  rw [ingestRoom, haccepts, hpath, roomAt, routed_append]
  split_ifs with h hnil
  · simp [hnil]
  · simp [h, hnil]
  · simp [h]

/-- The segments of the page of a link, whatever fragment it has. -/
theorem pageSegments_link {room : String} (haccepts : uriAccepts (utf8 room) = true) {tail : Bytes}
    (htail : tail = [] ∨ ∃ t, tail = hash :: t) :
    pageSegments (utf8 "/" ++ roomPath room ++ tail) =
      resolve dotKind [] [] (utf8 "r" :: (urlPath (utf8 room)).splitOnP isSlash) := by
  have hurl : uriAccepts (utf8 "/" ++ roomPath room ++ tail) = true ∧
      urlPath (utf8 "/" ++ roomPath room ++ tail) = utf8 "/r/" ++ urlPath (utf8 room) := by
    have hpath : urlPath (utf8 "/" ++ roomPath room) = utf8 "/r/" ++ urlPath (utf8 room) := by
      rw [roomPath, ← List.append_assoc, urlPath_append (by decide +kernel)]
      rfl
    rcases htail with rfl | ⟨t, rfl⟩
    · rw [List.append_nil, uriAccepts_link]
      exact ⟨haccepts, hpath⟩
    · rw [uriAccepts_append_hash, urlPath_append_hash, uriAccepts_link]
      exact ⟨haccepts, hpath⟩
  have hsplit : pathSegments (utf8 "/r/" ++ urlPath (utf8 room)) =
      utf8 "r" :: (urlPath (utf8 room)).splitOnP isSlash := by
    have hr : ∀ b ∈ utf8 "r", isSlash b = false := by decide +kernel
    rw [← List.splitOnP_append_cons_of_forall_mem hr slash (by decide)]
    rfl
  have hgt : ∀ b ∈ (utf8 "/" ++ roomPath room ++ tail).takeWhile (· ≠ hash), 32 < b := by
    intro b hb
    exact of_decide_eq_true (List.all_eq_true.mp hurl.1 b hb)
  rw [pageSegments, urlPath_cleaned hgt, hurl.2, hsplit]

/-- Of a plain path the page has the same, escaped. -/
theorem browserPath_link {room : String} (haccepts : uriAccepts (utf8 room) = true)
    (hplain : plainPath (urlPath (utf8 room)) = true) {tail : Bytes}
    (htail : tail = [] ∨ ∃ t, tail = hash :: t) :
    browserPath (utf8 "/" ++ roomPath room ++ tail) =
      utf8 "/r/" ++ percentEncode pathSet (urlPath (utf8 room)) := by
  have hsegs : ∀ s ∈ utf8 "r" :: (urlPath (utf8 room)).splitOnP isSlash, dotKind s = .plain :=
    List.forall_mem_cons.mpr ⟨by decide, dotKind_of_plain hplain⟩
  rw [browserPath, pageSegments_link haccepts htail, resolve_plain hsegs, List.nil_append,
    joinPath, List.flatMap_cons, ← joinPath, joinPath_of_plain hplain]
  rfl

/-! ### Keys -/

theorem keyHex_eq (url : Bytes) :
    keyHex url = percentEncode fragmentSet (urlFragment (cleaned url)) := by
  rw [keyHex]
  split_ifs with h
  · rw [h]
    rfl
  · rw [List.dropPrefix?]
    simp

theorem fragmentSet_hexLower {n : UInt8} (hn : n < 16) : fragmentSet (hexLower n) = false ∧
    hexLower n ≠ hash := by
  have hall : ∀ k : Fin 16, fragmentSet (hexLower (UInt8.ofNat k)) = false ∧
      hexLower (UInt8.ofNat k) ≠ hash := by decide
  have hlt : n.toNat < 16 := hn
  have hn' : n = UInt8.ofNat n.toNat := by simp
  rw [hn']
  exact hall ⟨n.toNat, hlt⟩

theorem fragmentSet_hexEncode {key : Bytes} (hb : b ∈ hexEncode key) :
    fragmentSet b = false ∧ b ≠ hash := by
  obtain ⟨c, -, hbc⟩ := List.mem_flatMap.mp hb
  simp only [List.mem_cons, List.not_mem_nil, or_false] at hbc
  rcases hbc with rfl | rfl
  · exact fragmentSet_hexLower (high_lt c)
  · exact fragmentSet_hexLower (low_lt c)

theorem cleaned_shareUrl (room : String) (key : Bytes) : cleaned (shareUrl room key) =
    (utf8 "/" ++ roomPath room).filter (!isTabOrNewline ·) ++ hash :: hexEncode key := by
  have hkey : cleaned (hexEncode key) = hexEncode key := by
    apply cleaned_eq_self
    intro b hb
    exact lt_of_fragmentSet (fragmentSet_hexEncode hb).1
  rw [shareUrl, cleaned_append_hash, hkey]

theorem hash_mem_filter_link (room : String) :
    hash ∈ (utf8 "/" ++ roomPath room).filter (!isTabOrNewline ·) ↔ '#' ∈ room.toList := by
  have hslash : hash ∉ utf8 "/" := by decide
  have hr : hash ∉ utf8 "r/" := by decide
  have hkept : (!isTabOrNewline hash) = true := by decide
  rw [List.mem_filter, and_iff_left hkept, roomPath, List.mem_append, List.mem_append,
    hash_mem_utf8 room]
  simp only [hslash, hr, false_or]

/-- A `#` in the name is in the fragment, too. -/
theorem hash_mem_keyHex_shareUrl {room : String} (h : '#' ∈ room.toList) (key : Bytes) :
    hash ∈ keyHex (shareUrl room key) := by
  rw [keyHex_eq, cleaned_shareUrl]
  apply mem_percentEncode_of_not_mem (by decide)
  exact hash_mem_urlFragment ((hash_mem_filter_link room).mpr h)

theorem keyHex_shareUrl_iff (room : String) (key : Bytes) :
    keyHex (shareUrl room key) = hexEncode key ↔ '#' ∉ room.toList := by
  constructor
  · -- a key has no `#`
    intro h hhash
    have hfragment := hash_mem_keyHex_shareUrl hhash key
    rw [h] at hfragment
    exact (fragmentSet_hexEncode hfragment).2 rfl
  · intro h
    rw [keyHex_eq, cleaned_shareUrl, urlFragment_append fun hhash =>
      h ((hash_mem_filter_link room).mp hhash)]
    apply percentEncode_eq_self
    intro b hb
    exact (fragmentSet_hexEncode hb).1

end Shellshare
