import Shellshare.DotSegments
import Shellshare.PercentEncoding
import Shellshare.Protocol
import Shellshare.Trimming

/-! What a browser makes of a URL: its path and its fragment. A URL stands here for what
follows its origin, in UTF-8. -/
namespace Shellshare
open DotSegments PercentEncoding Trimming

def utf8 (s : String) : Bytes := s.toList.flatMap String.utf8EncodeChar

def decodeUtf8 (bytes : Bytes) : Option String := String.fromUTF8? bytes.toByteArray

/-- The byte of `#`, which starts the fragment. -/
def hash : UInt8 := 35

def question : UInt8 := 63

def slash : UInt8 := 47

def reverseSolidus : UInt8 := 92

/-- The path of a URL ends at the first `?` or `#`. -/
def urlPath (url : Bytes) : Bytes := url.takeWhile fun b => b ≠ question && b ≠ hash

def urlFragment (url : Bytes) : Bytes := (url.dropWhile (· ≠ hash)).drop 1

/-- The bytes a browser escapes in a fragment: controls, what is not ASCII, and these. -/
def fragmentSet (b : UInt8) : Bool :=
  b < 32 || 126 < b || (utf8 " \"<>`").contains b

/-- The bytes a browser escapes in a path. -/
def pathSet (b : UInt8) : Bool := fragmentSet b || (utf8 "#?^{}").contains b

def isTabOrNewline (b : UInt8) : Bool := b = 9 || b = 10 || b = 13

/-- A URL parser drops controls and spaces at the end, and tabs and line ends everywhere. -/
def cleaned (url : Bytes) : Bytes := (url.rdropWhile (· ≤ 32)).filter (!isTabOrNewline ·)

/-- A browser takes a backslash for a slash. -/
def isSlash (b : UInt8) : Bool := b = slash || b = reverseSolidus

/-- `.` and `..`, whose dots may be escaped. -/
def dotKind (segment : Bytes) : Kind :=
  if percentDecode segment = utf8 ".." then .up
  else if percentDecode segment = utf8 "." then .here
  else .plain

/-- The segments of a path, which starts with a slash. -/
def pathSegments (path : Bytes) : List Bytes := (path.drop 1).splitOnP isSlash

def joinPath (segments : List Bytes) : Bytes :=
  segments.flatMap fun s => slash :: percentEncode pathSet s

/-- The segments of the path that a browser makes of a URL. -/
def pageSegments (url : Bytes) : List Bytes :=
  resolve dotKind [] [] (pathSegments (urlPath (cleaned url)))

/-- The path a browser makes of a URL. -/
def browserPath (url : Bytes) : Bytes := joinPath (pageSegments url)

/-- A browser leaves the path as it is, but for escapes. -/
def plainPath (path : Bytes) : Bool :=
  path.all (· ≠ reverseSolidus) && (path.splitOnP isSlash).all (dotKind · = .plain)

variable {s t : Bytes} {b : UInt8}

/-- A byte below 128 stands for a character of its own. -/
theorem mem_utf8EncodeChar_ascii (hb : b < 128) (c : Char) :
    b ∈ String.utf8EncodeChar c ↔ c.val.toNat = b.toNat := by
  have hv : c.val.toNat < 1114112 := by
    have hvalid := c.valid
    rcases hvalid with h | h <;> omega
  have hlt : b.toNat < 128 := hb
  rw [String.utf8EncodeChar]
  -- every byte of a longer encoding is at least 128
  split_ifs <;> simp only [List.mem_cons, List.not_mem_nil, or_false, ← UInt8.toNat_inj,
    UInt8.toNat_ofNat'] <;> omega

theorem mem_utf8EncodeChar_hash (c : Char) : hash ∈ String.utf8EncodeChar c ↔ c = '#' := by
  rw [mem_utf8EncodeChar_ascii (by decide), Char.ext_iff, ← UInt32.toNat_inj]
  rfl

theorem hash_mem_utf8 (s : String) : hash ∈ utf8 s ↔ '#' ∈ s.toList := by
  simp [utf8, mem_utf8EncodeChar_hash]

theorem urlPath_append_hash (s t : Bytes) : urlPath (s ++ hash :: t) = urlPath s := by
  induction s with
  | nil => rfl
  | cons b s ih =>
    simp only [urlPath] at ih
    simp only [urlPath, List.cons_append, List.takeWhile_cons, ih]

theorem urlPath_append (hs : ∀ b ∈ s, b ≠ question ∧ b ≠ hash) :
    urlPath (s ++ t) = s ++ urlPath t := by
  apply List.takeWhile_append_of_pos
  intro b hb
  simpa using hs b hb

theorem urlPath_eq_self (hs : ∀ b ∈ s, b ≠ question ∧ b ≠ hash) : urlPath s = s := by
  have hnil := urlPath_append (t := []) hs
  simpa [urlPath] using hnil

theorem sparesEscapes_pathSet : SparesEscapes pathSet := by
  have hall : ∀ n : Fin 256, (hexValue (UInt8.ofNat n)).isSome = true →
      pathSet (UInt8.ofNat n) = false := by decide +kernel
  refine ⟨by decide, fun b hb => ?_⟩
  have hb' : b = UInt8.ofNat b.toNat := by simp
  rw [hb'] at hb ⊢
  exact hall ⟨b.toNat, b.toNat_lt⟩ hb

theorem lt_of_fragmentSet (h : fragmentSet b = false) : 32 < b := by
  have hall : ∀ n : Fin 256, fragmentSet (UInt8.ofNat n) = false → 32 < UInt8.ofNat n := by
    decide +kernel
  have hb : b = UInt8.ofNat b.toNat := by simp
  rw [hb] at h ⊢
  exact hall ⟨b.toNat, b.toNat_lt⟩ h

theorem pathSet_ends (h : pathSet b = false) : b ≠ question ∧ b ≠ hash := by
  constructor
  · rintro rfl
    have hset : pathSet question = true := by decide
    rw [h] at hset
    cases hset
  · rintro rfl
    have hset : pathSet hash = true := by decide
    rw [h] at hset
    cases hset

theorem cleaned_eq_self (hs : ∀ b ∈ s, 32 < b) : cleaned s = s := by
  have hends : s.rdropWhile (· ≤ 32) = s := by
    rw [List.rdropWhile_eq_self_iff]
    intro hne
    simpa using hs _ (List.getLast_mem hne)
  rw [cleaned, hends, List.filter_eq_self]
  intro b hb
  have hgt : 32 < b.toNat := hs b hb
  simp only [isTabOrNewline, ← UInt8.toNat_inj, UInt8.reduceToNat, Bool.not_eq_true',
    Bool.or_eq_false_iff, decide_eq_false_iff_not]
  omega

theorem cleaned_append_hash (s t : Bytes) :
    cleaned (s ++ hash :: t) = s.filter (!isTabOrNewline ·) ++ hash :: cleaned t := by
  rw [cleaned, rdropWhile_append_cons (by decide), List.filter_append, List.filter_cons]
  rfl

/-- Nothing is dropped from a path without controls and spaces. -/
theorem urlPath_cleaned (hgt : ∀ b ∈ s.takeWhile (· ≠ hash), 32 < b) :
    urlPath (cleaned s) = urlPath s := by
  have hself := cleaned_eq_self hgt
  rw [← List.takeWhile_append_dropWhile (p := (· ≠ hash)) (l := s)]
  -- what is dropped is behind the `#`, where the path has ended
  cases hdrop : s.dropWhile (· ≠ hash) with
  | nil => rw [List.append_nil, hself]
  | cons c t =>
    obtain rfl : c = hash := by
      have hc := List.head?_dropWhile_not (· ≠ hash) s
      rw [hdrop] at hc
      simpa using hc
    have hfilter : (s.takeWhile (· ≠ hash)).filter (!isTabOrNewline ·) =
        s.takeWhile (· ≠ hash) := by
      rw [← hself, cleaned, List.filter_filter]
      simp
    rw [cleaned_append_hash, hfilter, urlPath_append_hash, urlPath_append_hash]

theorem isSlash_of_mem_splitOnP (hs : s ∈ t.splitOnP isSlash) : ∀ b ∈ s, isSlash b = false := by
  induction t generalizing s with
  | nil =>
    rw [List.splitOnP_nil, List.mem_singleton] at hs
    rw [hs]
    exact List.forall_mem_nil _
  | cons c t ih =>
    rw [List.splitOnP_cons_eq_if_modifyHead] at hs
    obtain ⟨first, others, hfirst⟩ := List.exists_cons_of_ne_nil (List.splitOnP_ne_nil isSlash t)
    rw [hfirst] at hs ih
    split_ifs at hs with hc
    · rcases List.mem_cons.mp hs with rfl | hs
      · exact List.forall_mem_nil _
      · exact ih hs
    · rw [List.modifyHead_cons] at hs
      rcases List.mem_cons.mp hs with rfl | hs
      · rw [Bool.not_eq_true] at hc
        exact List.forall_mem_cons.mpr ⟨hc, ih List.mem_cons_self⟩
      · exact ih (List.mem_cons_of_mem first hs)

/-- The digits of an escape are no slashes, either. -/
theorem isSlash_of_mem_percentEncode (hs : ∀ b ∈ s, isSlash b = false)
    (hb : b ∈ percentEncode pathSet s) : isSlash b = false := by
  have hdigit : ∀ n : UInt8, n < 16 → isSlash (hexDigit n) = false := by
    have hall : ∀ k : Fin 16, isSlash (hexDigit (UInt8.ofNat k)) = false := by decide
    intro n hn
    have hn' : n = UInt8.ofNat n.toNat := by simp
    rw [hn']
    exact hall ⟨n.toNat, hn⟩
  obtain ⟨c, hc, hbc⟩ := List.mem_flatMap.mp hb
  rw [encodeByte] at hbc
  split_ifs at hbc
  · simp only [List.mem_cons, List.not_mem_nil, or_false] at hbc
    rcases hbc with rfl | rfl | rfl
    · decide
    · exact hdigit _ (high_lt c)
    · exact hdigit _ (low_lt c)
  · rw [List.mem_singleton] at hbc
    rw [hbc]
    exact hs c hc

/-- The segments of a path that was joined. -/
theorem pathSegments_joinPath {segs : List Bytes} (hne : segs ≠ [])
    (hsegs : ∀ s ∈ segs, ∀ b ∈ s, isSlash b = false) :
    pathSegments (joinPath segs) = segs.map (percentEncode pathSet) := by
  induction segs with
  | nil => exact absurd rfl hne
  | cons s rest ih =>
    obtain ⟨hs, hrest⟩ := List.forall_mem_cons.mp hsegs
    have hencoded : ∀ b ∈ percentEncode pathSet s, isSlash b = false := fun b hb =>
      isSlash_of_mem_percentEncode hs hb
    rw [joinPath, List.flatMap_cons, pathSegments, List.cons_append, List.drop_one, List.tail_cons]
    cases rest with
    | nil =>
      rw [List.flatMap_nil, List.append_nil, List.splitOnP_eq_singleton hencoded]
      rfl
    | cons t rest =>
      have ih := ih (List.cons_ne_nil t rest) hrest
      rw [joinPath, List.flatMap_cons, pathSegments, List.cons_append, List.drop_one,
        List.tail_cons] at ih
      rw [List.flatMap_cons, List.cons_append,
        List.splitOnP_append_cons_of_forall_mem hencoded slash (by decide), ih]
      rfl

theorem dotKind_percentEncode (s : Bytes) : dotKind (percentEncode pathSet s) = dotKind s := by
  rw [dotKind, dotKind, percentDecode_percentEncode sparesEscapes_pathSet]

theorem mem_joinPath {segs : List Bytes} (hb : b ∈ joinPath segs) : pathSet b = false := by
  obtain ⟨s, -, hb⟩ := List.mem_flatMap.mp hb
  rcases List.mem_cons.mp hb with rfl | hb
  · decide
  · exact not_mem_of_mem_percentEncode sparesEscapes_pathSet hb

/-- A browser leaves a path that has no dot segments as it is, once it is escaped. -/
theorem browserPath_joinPath {segs : List Bytes} (hne : segs ≠ [])
    (hsegs : ∀ s ∈ segs, ∀ b ∈ s, isSlash b = false) (hplain : ∀ s ∈ segs, dotKind s = .plain) :
    browserPath (joinPath segs) = joinPath segs := by
  have hgt : ∀ b : UInt8, pathSet b = false → 32 < b := by
    intro b hb
    rw [pathSet, Bool.or_eq_false_iff] at hb
    exact lt_of_fragmentSet hb.1
  have hencoded : ∀ s ∈ segs.map (percentEncode pathSet), dotKind s = .plain := by
    intro s hs
    obtain ⟨t, ht, rfl⟩ := List.mem_map.mp hs
    rw [dotKind_percentEncode]
    exact hplain t ht
  rw [browserPath, pageSegments, cleaned_eq_self fun b hb => hgt b (mem_joinPath hb),
    urlPath_eq_self fun b hb => pathSet_ends (mem_joinPath hb), pathSegments_joinPath hne hsegs,
    resolve_plain hencoded, List.nil_append, joinPath, List.flatMap_map]
  simp only [percentEncode_percentEncode sparesEscapes_pathSet]
  rfl

theorem pageSegments_ne_nil (url : Bytes) : pageSegments url ≠ [] :=
  resolve_ne_nil (List.splitOnP_ne_nil isSlash _)

theorem isSlash_of_mem_pageSegments {url : Bytes} (hs : s ∈ pageSegments url) :
    ∀ b ∈ s, isSlash b = false := by
  rcases mem_resolve (List.splitOnP_ne_nil isSlash _) hs with hs | rfl
  · exact isSlash_of_mem_splitOnP hs
  · exact List.forall_mem_nil _

/-- A browser leaves the path of a page it is on as it is, behind any route. -/
theorem browserPath_append_browserPath {route : List Bytes}
    (hroute : ∀ s ∈ route, dotKind s = .plain ∧ ∀ b ∈ s, isSlash b = false) (url : Bytes) :
    browserPath (joinPath route ++ browserPath url) = joinPath route ++ browserPath url := by
  have hplain : ∀ s ∈ pageSegments url, dotKind s = .plain :=
    resolve_kind (by decide) (List.forall_mem_nil _)
  have hjoin : joinPath route ++ browserPath url = joinPath (route ++ pageSegments url) :=
    List.flatMap_append.symm
  rw [hjoin]
  apply browserPath_joinPath
  · exact List.append_ne_nil_of_right_ne_nil _ (pageSegments_ne_nil url)
  · exact List.forall_mem_append.mpr ⟨fun s hs => (hroute s hs).2,
      fun s hs => isSlash_of_mem_pageSegments hs⟩
  · exact List.forall_mem_append.mpr ⟨fun s hs => (hroute s hs).1, hplain⟩

def toSlash (b : UInt8) : UInt8 := if b = reverseSolidus then slash else b

theorem joinPath_splitOnP (s : Bytes) :
    joinPath (s.splitOnP isSlash) = slash :: percentEncode pathSet (s.map toSlash) := by
  have hslash : ∀ t, percentEncode pathSet (slash :: t) = slash :: percentEncode pathSet t :=
    fun t => percentEncode_cons_of_not_mem (by decide)
  induction s with
  | nil => rfl
  | cons c s ih =>
    rw [List.splitOnP_cons_eq_if_modifyHead, List.map_cons]
    split_ifs with hc
    · have hcode : toSlash c = slash := by
        simp only [isSlash, Bool.or_eq_true, decide_eq_true_eq] at hc
        rcases hc with rfl | rfl <;> rfl
      rw [hcode, hslash, ← ih]
      rfl
    · have hcode : toSlash c = c := by
        simp only [isSlash, Bool.or_eq_true, decide_eq_true_eq, not_or] at hc
        rw [toSlash, if_neg hc.2]
      obtain ⟨first, others, hfirst⟩ := List.exists_cons_of_ne_nil (List.splitOnP_ne_nil isSlash s)
      rw [hfirst, joinPath, List.flatMap_cons, List.cons_append, List.cons.injEq] at ih
      rw [hfirst, List.modifyHead_cons, joinPath, List.flatMap_cons, hcode, List.cons_append,
        percentEncode, List.flatMap_cons, List.append_assoc, percentEncode, List.flatMap_cons]
      exact congrArg (slash :: encodeByte pathSet c ++ ·) ih.2

/-- A plain path is spelled by its segments. -/
theorem joinPath_of_plain (h : plainPath s = true) :
    joinPath (s.splitOnP isSlash) = slash :: percentEncode pathSet s := by
  simp only [plainPath, Bool.and_eq_true, List.all_eq_true, decide_eq_true_eq] at h
  have hsame : s.map toSlash = s := by
    apply (List.map_congr_left _).trans (List.map_id _)
    intro b hb
    exact if_neg (h.1 b hb)
  rw [joinPath_splitOnP, hsame]

theorem dotKind_of_plain (h : plainPath s = true) :
    ∀ t ∈ s.splitOnP isSlash, dotKind t = .plain := by
  simp only [plainPath, Bool.and_eq_true, List.all_eq_true, decide_eq_true_eq] at h
  exact h.2

theorem urlFragment_append (hs : hash ∉ s) : urlFragment (s ++ hash :: t) = t := by
  have hs' : ∀ b ∈ s, decide (b ≠ hash) = true := by
    intro b hb
    apply decide_eq_true
    rintro rfl
    exact hs hb
  rw [urlFragment, List.dropWhile_append_of_pos hs']
  simp

/-- After an earlier `#` the fragment keeps the one before `t`. -/
theorem hash_mem_urlFragment (hs : hash ∈ s) : hash ∈ urlFragment (s ++ hash :: t) := by
  induction s with
  | nil => cases hs
  | cons b s ih =>
    by_cases hb : b = hash
    · simp [urlFragment, hb]
    · have hs' : hash ∈ s := by
        rcases List.mem_cons.mp hs with rfl | h
        · exact absurd rfl hb
        · exact h
      simpa [urlFragment, hb] using ih hs'

end Shellshare
