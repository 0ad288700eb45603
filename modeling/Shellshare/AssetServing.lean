import Shellshare.HistoryDoor

/-! The static files and the pages' stylesheets: which bytes a URL has, and the answer to a
request for it. SHA-256 is a parameter, and so is what `mime_guess` makes of a path. -/
namespace Shellshare

def cacheImmutable : String := "public, max-age=31536000, immutable"

def cacheOneDay : String := "public, max-age=86400"

def cacheRevalidate : String := "public, no-cache"

/-- `[u8; 32]` -/
abbrev Digest := { bytes : Bytes // bytes.length = 32 }

/-- How much of a digest goes into a URL. -/
def versionBytes : ℕ := 8

/-- `hex::encode(&hash[..VERSION_BYTES])` -/
def Digest.version (hash : Digest) : Bytes := hexEncode (hash.1.take versionBytes)

/-- The whole digest, quoted. -/
def Digest.etag (hash : Digest) : String := "\"" ++ asciiText (hexEncode hash.1) ++ "\""

structure Mime where
  text : String
  type : String
  charset : Option String

def Mime.contentType (mime : Mime) : String :=
  if mime.type = "text" ∧ mime.charset = none then mime.text ++ "; charset=utf-8" else mime.text

/-- A page's flattened stylesheet, which carries the digest of its text. -/
structure Stylesheet (sha256 : Bytes → Digest) where
  css : Bytes
  hash : Digest
  hashed : hash = sha256 css

structure Page (sha256 : Bytes → Digest) where
  html : Bytes
  etag : String
  preload : String
  bundlePath : Bytes
  stylesheet : Stylesheet sha256
  tagged : etag = (sha256 html).etag

/-- Paths that come back out of a URL: without a query, and not rooted twice. -/
def PlainPath (path : Bytes) : Prop := (∀ b ∈ path, b ≠ question ∧ b ≠ hash) ∧ path.head? ≠ some 47

/-- What one build of the server embeds, and the pages it renders from that. Startup
refuses a file under a bundle's path. -/
structure Build (sha256 : Bytes → Digest) where
  files : Bytes → Option Bytes
  index : Page sha256
  room : Page sha256
  distinct : index.bundlePath ≠ room.bundlePath
  unshadowed : ∀ page ∈ [index, room], files page.bundlePath = none
  plainFiles : ∀ path, files path ≠ none → PlainPath path
  plainBundles : ∀ page ∈ [index, room], PlainPath page.bundlePath

section Urls
variable {sha256 : Bytes → Digest}

/-- `?v=` and a version -/
def versioned (path version : Bytes) : Bytes := utf8 "/" ++ path ++ utf8 "?v=" ++ version

def Build.assetVersion (b : Build sha256) (path : Bytes) : Option Bytes :=
  (b.files path).map fun data => (sha256 data).version

def Build.versionedUrl (b : Build sha256) (path : Bytes) : Bytes :=
  (b.assetVersion path).elim (utf8 "/" ++ path) (versioned path)

def Page.bundleUrl (page : Page sha256) : Bytes :=
  versioned page.bundlePath page.stylesheet.hash.version

def Build.stylesheetBundle (b : Build sha256) (path : Bytes) : Option (Stylesheet sha256) :=
  ([b.index, b.room].find? (·.bundlePath = path)).map Page.stylesheet

def Build.assetBytes (b : Build sha256) (path : Bytes) : Option (Bytes × Digest) :=
  match b.stylesheetBundle path with
  | some sheet => some (sheet.css, sheet.hash)
  | none => (b.files path).map fun data => (data, sha256 data)

end Urls

/-- `uri.query()` -/
def urlQuery (url : Bytes) : Option Bytes :=
  match url.dropWhile fun b => b ≠ question && b ≠ hash with
  | b :: rest => if b = question then some (rest.takeWhile (· ≠ hash)) else none
  | [] => none

/-- The path as the files know it. -/
def assetPath (url : Bytes) : Bytes := (urlPath url).dropWhile (· = 47)

/-- The versions that the query names. -/
def urlVersions (url : Bytes) : List Bytes :=
  (urlQuery url).toList.flatMap fun query => (query.splitOn 38).filterMap (·.dropPrefix? (utf8 "v="))

/-- A version that is not this build's names bytes that it does not have. -/
def assetCaching (current : Bytes) (versions : List Bytes) : String :=
  if versions = [] then cacheOneDay
  else if current ∈ versions then cacheImmutable
  else cacheRevalidate

/-- `HeaderValue::to_str` lets these through. -/
def isVisibleAscii (c : Char) : Bool := 32 ≤ c.toNat && c.toNat < 127 || c = '\t'

/-- Whether `If-None-Match` names the entity tag, in its weak form or not. -/
def noneMatch (ifNoneMatch : Option String) (etag : String) : Bool :=
  (ifNoneMatch.filter fun value => value.toList.all isVisibleAscii).any fun value =>
    value = "*" || etag.toList <:+: value.toList

inductive Method where
  | get
  | head
  | other (name : String)
  deriving DecidableEq

def notFoundResponse : Response where
  status := 404
  headers := [("content-type", "text/markdown; charset=utf-8"), ("cache-control", cacheRevalidate)]
  body := utf8 ("# 404: Shellshare page not found\n\n" ++
    "The requested path does not exist. Try one of these resources:\n\n" ++
    "- [Shellshare home](/)\n" ++
    "- [Agent instructions](/llms.txt)\n" ++
    "- [Site map](/sitemap.xml)\n" ++
    "- [Source code](https://github.com/vitorbaptista/shellshare)\n")

section Answers
variable {sha256 : Bytes → Digest}

def Build.serveStatic (mimeOf : Bytes → Mime) (b : Build sha256) (method : Method) (url : Bytes)
    (ifNoneMatch : Option String) : Response :=
  let path := assetPath url
  match b.assetBytes path with
  | none => notFoundResponse
  | some (bytes, hash) =>
    if method ≠ .get ∧ method ≠ .head then
      ⟨405, [("allow", "GET, HEAD"), ("content-type", "text/plain; charset=utf-8")],
        utf8 "Method Not Allowed"⟩
    else
      let headers :=
        [("cache-control", assetCaching hash.version (urlVersions url)), ("etag", hash.etag)]
      if noneMatch ifNoneMatch hash.etag then ⟨304, headers, []⟩
      else ⟨200, headers ++ [("content-type", (mimeOf path).contentType)], bytes⟩

def servePage (page : Page sha256) (ifNoneMatch : Option String) : Response :=
  let headers := [("cache-control", cacheRevalidate), ("etag", page.etag), ("link", page.preload)]
  if noneMatch ifNoneMatch page.etag then ⟨304, headers, []⟩
  else ⟨200, headers ++ [("content-type", "text/html; charset=utf-8")], page.html⟩

def roomPageResponse (page : Page sha256) (ifNoneMatch : Option String) : Response :=
  let response := servePage page ifNoneMatch
  { response with headers := response.headers ++ [noindexHeader] }

end Answers

section Texts

/-- A quoted text within another, which has something in front of it, is that text. -/
theorem eq_of_quoted_infix {α : Type*} [DecidableEq α] {q : α} {p x y : List α} (hp : q ∉ p)
    (hx : q ∉ x) (hy : q ∉ y) (h : q :: (x ++ [q]) <:+: p ++ q :: (y ++ [q])) : x = y := by
  obtain ⟨s, t, heq⟩ := h
  have hsplit := congrArg (·.splitOn q) heq
  simp only [List.append_assoc, List.cons_append, List.nil_append, List.splitOn_append_cons_self,
    List.splitOn_eq_singleton hp, List.splitOn_eq_singleton hx, List.splitOn_eq_singleton hy,
    List.splitOn_nil] at hsplit
  -- three parts on either side, and the middle ones are the texts
  obtain ⟨a, as, has⟩ := List.exists_cons_of_ne_nil (List.splitOn_ne_nil q s)
  obtain ⟨b, bs, hbs⟩ := List.exists_cons_of_ne_nil (List.splitOn_ne_nil q t)
  rw [has, hbs] at hsplit
  have hlen := congrArg List.length hsplit
  simp only [List.length_append, List.length_cons, List.length_nil] at hlen
  obtain rfl : as = [] := List.eq_nil_of_length_eq_zero (by omega)
  simp only [List.cons_append, List.nil_append, List.cons.injEq] at hsplit
  exact hsplit.2.1

theorem toList_asciiText (bytes : Bytes) :
    (asciiText bytes).toList = bytes.map fun b => Char.ofNat b.toNat :=
  String.toList_ofList

theorem charOfByte_injective : Function.Injective fun b : UInt8 => Char.ofNat b.toNat := by
  have hall : ∀ n : Fin 256, (Char.ofNat n).toNat = n := by decide +kernel
  intro b c h
  apply UInt8.toNat_inj.mp
  calc b.toNat = (Char.ofNat b.toNat).toNat := (hall ⟨b.toNat, b.toNat_lt⟩).symm
    _ = (Char.ofNat c.toNat).toNat := congrArg Char.toNat h
    _ = c.toNat := hall ⟨c.toNat, c.toNat_lt⟩

/-- Digits are neither quotes nor separators of a query, and can stand in a header. -/
theorem digit_plain {d : UInt8} (hd : isHexDigit d = true) :
    d ≠ 38 ∧ d ≠ question ∧ d ≠ hash ∧ Char.ofNat d.toNat ≠ '"' ∧
      isVisibleAscii (Char.ofNat d.toNat) = true := by
  have hall : ∀ n : Fin 256, isHexDigit (UInt8.ofNat n) = true →
      UInt8.ofNat n ≠ 38 ∧ UInt8.ofNat n ≠ question ∧ UInt8.ofNat n ≠ hash ∧
        Char.ofNat (UInt8.ofNat n).toNat ≠ '"' ∧
        isVisibleAscii (Char.ofNat (UInt8.ofNat n).toNat) = true := by decide +kernel
  have hd' : d = UInt8.ofNat d.toNat := by simp
  rw [hd'] at hd ⊢
  exact hall ⟨d.toNat, d.toNat_lt⟩ hd

theorem toList_etag (h : Digest) : h.etag.toList =
    '"' :: ((hexEncode h.1).map (fun b => Char.ofNat b.toNat) ++ ['"']) := by
  rw [Digest.etag, String.toList_append, String.toList_append, toList_asciiText]
  rfl

theorem quote_not_mem_hex (bytes : Bytes) :
    '"' ∉ (hexEncode bytes).map fun b => Char.ofNat b.toNat := by
  intro hmem
  obtain ⟨d, hd, hquote⟩ := List.mem_map.mp hmem
  exact (digit_plain (isHexDigit_of_mem_hexEncode hd)).2.2.2.1 hquote

/-- An entity tag, or the weak form that a proxy makes of it when it compresses. -/
def tagForm (weakened : Bool) (etag : String) : String := if weakened then "W/" ++ etag else etag

theorem toList_tagForm (weakened : Bool) (etag : String) : (tagForm weakened etag).toList =
    (if weakened then ['W', '/'] else []) ++ etag.toList := by
  cases weakened with
  | false => rfl
  | true => exact String.toList_append

theorem tagForm_visible (weakened : Bool) (h : Digest) :
    (tagForm weakened h.etag).toList.all isVisibleAscii = true := by
  have hetag : h.etag.toList.all isVisibleAscii = true := by
    rw [toList_etag, List.all_eq_true]
    intro c hc
    rw [List.mem_cons, List.mem_append, List.mem_singleton] at hc
    rcases hc with rfl | hc | rfl
    · decide
    · obtain ⟨d, hd, rfl⟩ := List.mem_map.mp hc
      exact (digit_plain (isHexDigit_of_mem_hexEncode hd)).2.2.2.2
    · decide
  rw [toList_tagForm, List.all_append, hetag]
  cases weakened <;> decide

/-- A validator the server gave out is taken for the digest it was made of, and no other. -/
theorem noneMatch_tagForm_iff (weakened : Bool) (given h : Digest) :
    noneMatch (some (tagForm weakened given.etag)) h.etag = true ↔ h = given := by
  have hstar : tagForm weakened given.etag ≠ "*" := by
    intro hstar
    have hlen := congrArg (List.length ∘ String.toList) hstar
    simp [toList_tagForm, toList_etag] at hlen
    omega
  have hinfix : h.etag.toList <:+: (tagForm weakened given.etag).toList ↔ h = given := by
    rw [toList_tagForm]
    constructor
    · intro hwithin
      rw [toList_etag, toList_etag] at hwithin
      have hfront : '"' ∉ if weakened then ['W', '/'] else [] := by
        cases weakened <;> decide
      have hsame := eq_of_quoted_infix hfront (quote_not_mem_hex _) (quote_not_mem_hex _) hwithin
      exact Subtype.ext (hexEncode_injective (charOfByte_injective.list_map hsame))
    · rintro rfl
      exact (List.suffix_append _ _).isInfix
  rw [noneMatch, Option.filter_some, if_pos (tagForm_visible weakened given)]
  simp [hstar, hinfix]

end Texts

section Paths
variable {path version : Bytes}

theorem mem_version {h : Digest} {d : UInt8} (hd : d ∈ h.version) : isHexDigit d = true :=
  isHexDigit_of_mem_hexEncode hd

theorem rooted_ends (hpath : PlainPath path) : ∀ b ∈ utf8 "/" ++ path, b ≠ question ∧ b ≠ hash := by
  intro b hb
  rcases List.mem_append.mp hb with hslash | hb
  · obtain rfl : b = 47 := List.mem_singleton.mp hslash
    decide
  · exact hpath.1 b hb

theorem assetPath_rooted (hpath : PlainPath path) {rest : Bytes} (hrest : urlPath rest = []) :
    assetPath (utf8 "/" ++ path ++ rest) = path := by
  rw [assetPath, urlPath_append (rooted_ends hpath), hrest, List.append_nil]
  cases path with
  | nil => rfl
  | cons b path =>
    have hb : b ≠ 47 := fun hb => hpath.2 (congrArg some hb)
    change (47 :: b :: path).dropWhile (· = 47) = b :: path
    simp [hb]

theorem urlQuery_rooted (hpath : PlainPath path) (rest : Bytes) :
    urlQuery (utf8 "/" ++ path ++ rest) = urlQuery rest := by
  have hpass : ∀ b ∈ utf8 "/" ++ path, (b ≠ question && b ≠ hash) = true := by
    intro b hb
    simpa using rooted_ends hpath b hb
  rw [urlQuery, List.dropWhile_append_of_pos hpass, urlQuery]

theorem urlVersions_rooted (hpath : PlainPath path) : urlVersions (utf8 "/" ++ path) = [] := by
  have hquery := urlQuery_rooted hpath []
  rw [List.append_nil] at hquery
  rw [urlVersions, hquery]
  rfl

theorem assetPath_versioned (hpath : PlainPath path) : assetPath (versioned path version) = path := by
  rw [versioned, List.append_assoc]
  exact assetPath_rooted hpath rfl

theorem urlVersions_versioned (hpath : PlainPath path) (hversion : ∀ d ∈ version, isHexDigit d = true) :
    urlVersions (versioned path version) = [version] := by
  have hhash : ∀ d ∈ utf8 "v=" ++ version, d ≠ hash := by
    intro d hd
    rcases List.mem_append.mp hd with hd | hd
    · have hfront : ∀ d ∈ utf8 "v=", d ≠ hash := by decide +kernel
      exact hfront d hd
    · exact (digit_plain (hversion d hd)).2.2.1
  have hquery : urlQuery (versioned path version) = some (utf8 "v=" ++ version) := by
    rw [versioned, List.append_assoc, urlQuery_rooted hpath]
    have htake : (utf8 "v=" ++ version).takeWhile (· ≠ hash) = utf8 "v=" ++ version := by
      rw [List.takeWhile_eq_self_iff]
      exact fun d hd => decide_eq_true (hhash d hd)
    exact congrArg some htake
  have hamp : (38 : UInt8) ∉ utf8 "v=" ++ version := by
    intro hmem
    rcases List.mem_append.mp hmem with hmem | hmem
    · have hfront : (38 : UInt8) ∉ utf8 "v=" := by decide
      exact hfront hmem
    · exact (digit_plain (hversion 38 hmem)).1 rfl
  have hstripped : (utf8 "v=" ++ version).dropPrefix? (utf8 "v=") = some version :=
    List.dropPrefix?_append_of_beq version BEq.rfl
  rw [urlVersions, hquery, Option.toList_some, List.flatMap_singleton,
    List.splitOn_eq_singleton hamp]
  simp [hstripped]

end Paths

namespace Build
variable {sha256 : Bytes → Digest} (b : Build sha256) {path data : Bytes} {h : Digest}
  {page : Page sha256}

theorem stylesheetBundle_page (hpage : page ∈ [b.index, b.room]) :
    b.stylesheetBundle page.bundlePath = some page.stylesheet := by
  rw [List.mem_pair] at hpage
  rcases hpage with rfl | rfl
  · simp [stylesheetBundle]
  · simp [stylesheetBundle, b.distinct]

theorem assetBytes_bundle (hpage : page ∈ [b.index, b.room]) :
    b.assetBytes page.bundlePath = some (page.stylesheet.css, page.stylesheet.hash) := by
  rw [assetBytes, b.stylesheetBundle_page hpage]

theorem assetBytes_file (hfile : b.files path = some data) :
    b.assetBytes path = some (data, sha256 data) := by
  have hnone : b.stylesheetBundle path = none := by
    rw [stylesheetBundle, Option.map_eq_none_iff, List.find?_eq_none]
    intro page hpage heq
    have hshadowed := b.unshadowed page hpage
    rw [of_decide_eq_true heq, hfile] at hshadowed
    cases hshadowed
  rw [assetBytes, hnone, hfile]
  rfl

/-- The digest that is served is that of the bytes. -/
theorem hash_of_assetBytes (hasset : b.assetBytes path = some (data, h)) : h = sha256 data := by
  unfold assetBytes at hasset
  split at hasset
  · rename_i sheet hsheet
    obtain ⟨rfl, rfl⟩ := Prod.mk.inj (Option.some.inj hasset)
    exact sheet.hashed
  · obtain ⟨file, -, heq⟩ := Option.map_eq_some_iff.mp hasset
    obtain ⟨rfl, rfl⟩ := Prod.mk.inj heq
    rfl

/-- An URL that this build's pages and stylesheets refer to, and what they mean by it. -/
def Refers (url data : Bytes) : Prop :=
  (∃ path, b.files path = some data ∧ url = b.versionedUrl path) ∨
    ∃ page ∈ [b.index, b.room], url = page.bundleUrl ∧ data = page.stylesheet.css

/-- What a URL that a page refers to carries: the path of the bytes and their version. -/
theorem Refers.versioned {url : Bytes} (href : b.Refers url data) :
    ∃ path, PlainPath path ∧ url = versioned path (sha256 data).version ∧
      b.assetBytes path = some (data, sha256 data) := by
  rcases href with ⟨path, hfile, rfl⟩ | ⟨page, hpage, rfl, rfl⟩
  · refine ⟨path, b.plainFiles path (by simp [hfile]), ?_, b.assetBytes_file hfile⟩
    rw [versionedUrl, assetVersion, hfile]
    rfl
  · refine ⟨page.bundlePath, b.plainBundles page hpage, ?_, ?_⟩
    · rw [Page.bundleUrl, page.stylesheet.hashed]
    · rw [b.assetBytes_bundle hpage, page.stylesheet.hashed]

end Build

end Shellshare
