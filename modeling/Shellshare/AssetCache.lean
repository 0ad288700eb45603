import Shellshare.AssetServing
import Shellshare.HttpCache

/-! Pages and files as a browser gets them while builds are replaced: from its cache, and
from servers of any build, with a proxy in between that may weaken a validator. -/
namespace Shellshare
open HttpCache TransitionRuns

inductive Target where
  | roomPage (url : Bytes)
  | file (url : Bytes)
  deriving DecidableEq

/-- The number after `max-age=`. -/
def maxAge (directive : List Char) : Option ℕ :=
  (directive.dropPrefix? "max-age=".toList).map fun digits =>
    digits.foldl (fun n d => 10 * n + (d.toNat - 48)) 0

/-- For how many seconds a cache may use a response unasked. -/
def freshnessLifetime (cacheControl : String) : ℕ :=
  let directives := (cacheControl.toList.splitOn ',').map (·.dropWhile (· = ' '))
  if "no-cache".toList ∈ directives then 0 else (directives.filterMap maxAge).head?.getD 0

/-- What a cache makes of an answer. -/
def received (weakened : Bool) (r : Response) : Reply String Bytes :=
  match r.headers.lookup "etag" with
  | none => .failed
  | some etag =>
    let tag := tagForm weakened etag
    let lifetime := freshnessLifetime ((r.headers.lookup "cache-control").getD "")
    if r.status = 200 then .ok r.body tag lifetime
    else if r.status = 304 then .notModified tag lifetime
    else .failed

variable {sha256 : Bytes → Digest}

namespace Build
variable (mimeOf : Bytes → Mime) (b : Build sha256)

def answer : Target → Option String → Response
  | .roomPage _, ifNoneMatch => roomPageResponse b.room ifNoneMatch
  | .file url, ifNoneMatch => b.serveStatic mimeOf .get url ifNoneMatch

def bytesAt : Target → Option Bytes
  | .roomPage _ => some b.room.html
  | .file url => (b.assetBytes (assetPath url)).map Prod.fst

/-- How long a build lets its answer be used. -/
def allows : Target → ℕ
  | .roomPage _ => 0
  | .file url => (b.assetBytes (assetPath url)).elim 0 fun asset =>
    freshnessLifetime (assetCaching asset.2.version (urlVersions url))

variable {b}

theorem received_answer (weakened : Bool) {u : Target} {x : Bytes} (hx : b.bytesAt u = some x)
    (ifNoneMatch : Option String) :
    received weakened (b.answer mimeOf u ifNoneMatch) =
      if noneMatch ifNoneMatch (sha256 x).etag then
        .notModified (tagForm weakened (sha256 x).etag) (b.allows u)
      else .ok x (tagForm weakened (sha256 x).etag) (b.allows u) := by
  cases u with
  | roomPage url =>
    obtain rfl := Option.some.inj hx
    have hzero : freshnessLifetime cacheRevalidate = 0 := by decide +kernel
    rw [answer, roomPageResponse, servePage, b.room.tagged]
    split_ifs <;> simp [received, allows, List.lookup_cons, hzero]
  | file url =>
    obtain ⟨⟨data, h⟩, hasset, rfl⟩ := Option.map_eq_some_iff.mp hx
    obtain rfl := b.hash_of_assetBytes hasset
    have hget : ¬(Method.get ≠ .get ∧ Method.get ≠ .head) := fun h => h.1 rfl
    rw [answer, serveStatic, hasset]
    dsimp only
    rw [if_neg hget]
    split_ifs <;> simp [received, allows, hasset, List.lookup_cons]

theorem received_missing (weakened : Bool) {u : Target} (hx : b.bytesAt u = none)
    (ifNoneMatch : Option String) :
    received weakened (b.answer mimeOf u ifNoneMatch) = .failed := by
  cases u with
  | roomPage url => cases hx
  | file url =>
    have hnone : b.assetBytes (assetPath url) = none := Option.map_eq_none_iff.mp hx
    rw [answer, serveStatic, hnone]
    rfl

theorem allows_versioned {path version : Bytes} (hpath : PlainPath path)
    (hversion : ∀ d ∈ version, isHexDigit d = true)
    (hallows : b.allows (.file (versioned path version)) ≠ 0) :
    ∃ x, b.bytesAt (.file (versioned path version)) = some x ∧ (sha256 x).version = version := by
  have hzero : freshnessLifetime cacheRevalidate = 0 := by decide +kernel
  rw [allows, assetPath_versioned hpath, urlVersions_versioned hpath hversion] at hallows
  cases hasset : b.assetBytes path with
  | none => simp [hasset] at hallows
  | some asset =>
    obtain ⟨x, h⟩ := asset
    obtain rfl := b.hash_of_assetBytes hasset
    refine ⟨x, ?_, ?_⟩
    · rw [bytesAt, assetPath_versioned hpath, hasset]
      rfl
    · -- any other version is to be asked for again
      by_contra hne
      apply hallows
      simp [hasset, assetCaching, hne, hzero]

theorem allows_le_day {path : Bytes} (hpath : PlainPath path) :
    b.allows (.file (utf8 "/" ++ path)) ≤ 86400 := by
  have hday : freshnessLifetime cacheOneDay = 86400 := by decide +kernel
  rw [allows, urlVersions_rooted hpath]
  simp only [assetCaching, if_true, hday]
  cases b.assetBytes (assetPath (utf8 "/" ++ path)) with
  | none => exact Nat.zero_le _
  | some asset => exact Nat.le_refl _

end Build

section Fleet
variable {ι : Type} (mimeOf : Bytes → Mime) (builds : ι → Build sha256)

/-- The build that answers, and whether its validator is weakened on the way. -/
abbrev Route (ι : Type) := ι × Bool

def reply (o : Route ι) (u : Target) (ifNoneMatch : Option String) : Reply String Bytes :=
  received o.2 ((builds o.1).answer mimeOf u ifNoneMatch)

/-- No two builds have different bytes of one version under one URL. -/
def DistinctVersions : Prop :=
  ∀ i j u x y, (builds i).bytesAt u = some x → (builds j).bytesAt u = some y →
    (sha256 x).version = (sha256 y).version → x = y

/-- The validators of a text that some build serves. -/
def Tags (u : Target) (tag : String) (x : Bytes) : Prop :=
  (∃ i, (builds i).bytesAt u = some x) ∧ ∃ weakened, tag = tagForm weakened (sha256 x).etag

variable {builds}

theorem honest_reply (hdistinct : DistinctVersions builds) :
    Honest (reply mimeOf builds) (fun o u => (builds o.1).bytesAt u)
      (fun o u => (builds o.1).allows u) (Tags builds) where
  ok := by
    intro o u asked body tag lifetime hreply
    rw [reply] at hreply
    cases hx : (builds o.1).bytesAt u with
    | none =>
      rw [Build.received_missing mimeOf o.2 hx] at hreply
      cases hreply
    | some x =>
      rw [Build.received_answer mimeOf o.2 hx] at hreply
      split_ifs at hreply
      obtain ⟨rfl, rfl, rfl⟩ := Reply.ok.inj hreply
      exact ⟨rfl, ⟨⟨o.1, hx⟩, o.2, rfl⟩, rfl⟩
  notModified := by
    intro o u asked body tag lifetime hreply htags
    obtain ⟨⟨i, hi⟩, weakened, rfl⟩ := htags
    rw [reply] at hreply
    cases hx : (builds o.1).bytesAt u with
    | none =>
      rw [Build.received_missing mimeOf o.2 hx] at hreply
      cases hreply
    | some x =>
      rw [Build.received_answer mimeOf o.2 hx] at hreply
      split_ifs at hreply with hmatch
      obtain ⟨rfl, rfl⟩ := Reply.notModified.inj hreply
      -- the build took the validator for its own, so it has the same bytes
      have hhash := (noneMatch_tagForm_iff weakened (sha256 body) (sha256 x)).mp hmatch
      obtain rfl := hdistinct o.1 i u x body hx hi (congrArg Digest.version hhash)
      exact ⟨rfl, ⟨⟨o.1, hx⟩, o.2, rfl⟩, rfl⟩

/-- Whichever builds answer, at whatever times: a room's page is that of the build which
answers now; a file or a stylesheet under the URL that some build's pages have for it is
theirs, or else was asked for now and is what the answering build has; and one under a
stable URL is what some build had less than a day ago. -/
theorem pages_get_their_assets (hdistinct : DistinctVersions builds)
    (as : List (HttpCache.Action (Route ι) Target)) (c : Cache Target String Bytes)
    (asked : List (ℕ × Target × Route ι))
    (hrun : run (withHistory (HttpCache.step (reply mimeOf builds)) noteAsked) (Cache.empty, []) as =
      some (c, asked)) (o : Route ι) :
    (∀ url x, (c.load (reply mimeOf builds) o (.roomPage url)).2 = some x →
      x = (builds o.1).room.html) ∧
    (∀ j url data x, (builds j).Refers url data →
      (c.load (reply mimeOf builds) o (.file url)).2 = some x →
      x = data ∨ c.fresh (.file url) = none ∧ (builds o.1).bytesAt (.file url) = some x) ∧
    (∀ path x, PlainPath path →
      (c.load (reply mimeOf builds) o (.file (utf8 "/" ++ path))).2 = some x →
      (builds o.1).bytesAt (.file (utf8 "/" ++ path)) = some x ∨
        ∃ t k, (t, .file (utf8 "/" ++ path), k) ∈ asked ∧
          (builds k.1).bytesAt (.file (utf8 "/" ++ path)) = some x ∧ c.now < t + 86400) := by
  have hhonest := honest_reply mimeOf hdistinct
  have hvouched := vouched_of_run hhonest hrun
  refine ⟨fun url x hload => ?_, fun j url data x href hload => ?_, fun path x hpath hload => ?_⟩
  · rcases load_vouched hhonest hvouched hload with ⟨-, hx⟩ | ⟨t, k, -, -, hbefore, hlive⟩
    · exact (Option.some.inj hx).symm
    · -- a page is never used unasked
      have hzero : (builds k.1).allows (.roomPage url) = 0 := rfl
      rw [hzero] at hlive
      omega
  · rcases load_vouched hhonest hvouched hload with hasked | ⟨t, k, -, hx, hbefore, hlive⟩
    · exact Or.inr hasked
    · left
      obtain ⟨path, hpath, rfl, hasset⟩ := href.versioned
      have hallows : (builds k.1).allows (.file (versioned path (sha256 data).version)) ≠ 0 := by
        omega
      obtain ⟨x', hx', hversion⟩ :=
        Build.allows_versioned hpath (fun d hd => mem_version hd) hallows
      obtain rfl := Option.some.inj (hx.symm.trans hx')
      have hdata : (builds j).bytesAt (.file (versioned path (sha256 data).version)) = some data := by
        rw [Build.bytesAt, assetPath_versioned hpath, hasset]
        rfl
      exact hdistinct k.1 j _ x data hx hdata hversion
  · rcases load_vouched hhonest hvouched hload with ⟨-, hx⟩ | ⟨t, k, hmem, hx, -, hlive⟩
    · exact Or.inl hx
    · right
      have hday := Build.allows_le_day (b := builds k.1) hpath
      exact ⟨t, k, hmem, hx, by omega⟩

end Fleet

section Deploy

/-- SHA-256 of the texts below. -/
def deployDigest (text : Bytes) : Digest :=
  if text = [] then
    ⟨[227, 176, 196, 66, 152, 252, 28, 20, 154, 251, 244, 200, 153, 111, 185, 36,
      39, 174, 65, 228, 100, 155, 147, 76, 164, 149, 153, 27, 120, 82, 184, 85], rfl⟩
  else if text = utf8 "1" then
    ⟨[107, 134, 178, 115, 255, 52, 252, 225, 157, 107, 128, 78, 255, 90, 63, 87,
      71, 173, 164, 234, 162, 47, 29, 73, 192, 30, 82, 221, 183, 135, 91, 75], rfl⟩
  else
    ⟨[212, 115, 94, 58, 38, 94, 22, 238, 224, 63, 89, 113, 139, 155, 93, 3,
      1, 156, 7, 216, 182, 197, 31, 144, 218, 58, 102, 110, 236, 19, 171, 53], rfl⟩

def emptyPage (bundlePath : String) : Page deployDigest :=
  ⟨[], (deployDigest []).etag, "", utf8 bundlePath, ⟨[], deployDigest [], rfl⟩, rfl⟩

/-- A build whose one file is the viewer script. -/
def scriptBuild (script : String) : Build deployDigest where
  files path := if path = utf8 "javascript/room.js" then some (utf8 script) else none
  index := emptyPage "stylesheet/index.bundle.css"
  room := emptyPage "stylesheet/room.bundle.css"
  distinct := by decide
  unshadowed := by
    intro page hpage
    rcases List.mem_pair.mp hpage with rfl | rfl <;> rfl
  plainFiles := by
    intro path hpath
    have heq : path = utf8 "javascript/room.js" := by
      by_contra hne
      exact hpath (if_neg hne)
    subst heq
    exact ⟨by decide +kernel, by decide⟩
  plainBundles := by
    intro page hpage
    rcases List.mem_pair.mp hpage with rfl | rfl <;> exact ⟨by decide +kernel, by decide⟩

/-- An old and a new build, as they answer side by side during a deploy. -/
def deploy : Bool → Build deployDigest
  | false => scriptBuild "1"
  | true => scriptBuild "2"

theorem distinctVersions_deploy : DistinctVersions deploy := by
  have htexts : ∀ i u x, (deploy i).bytesAt u = some x → x ∈ [[], utf8 "1", utf8 "2"] := by
    intro i u x hx
    cases u with
    | roomPage url =>
      cases i <;> simp [← Option.some.inj hx, deploy, scriptBuild, emptyPage]
    | file url =>
      obtain ⟨⟨data, h⟩, hasset, rfl⟩ := Option.map_eq_some_iff.mp hx
      unfold Build.assetBytes at hasset
      split at hasset
      · rename_i sheet hsheet
        obtain ⟨page, hpage, rfl⟩ := Option.map_eq_some_iff.mp hsheet
        have hcss : page.stylesheet.css = [] := by
          have hmem := List.mem_of_find?_eq_some hpage
          cases i <;> rcases List.mem_pair.mp hmem with rfl | rfl <;> rfl
        simp [← (Prod.mk.inj (Option.some.inj hasset)).1, hcss]
      · obtain ⟨file, hfile, heq⟩ := Option.map_eq_some_iff.mp hasset
        obtain rfl := (Prod.mk.inj heq).1
        cases i <;>
          · simp only [deploy, scriptBuild] at hfile
            split_ifs at hfile
            simp [← Option.some.inj hfile]
  have hversions : ∀ x ∈ [[], utf8 "1", utf8 "2"], ∀ y ∈ [[], utf8 "1", utf8 "2"],
      (deployDigest x).version = (deployDigest y).version → x = y := by decide +kernel
  intro i j u x y hx hy
  exact hversions x (htexts i u x hx) y (htexts j u y hy)

def scriptMime (_ : Bytes) : Mime := ⟨"text/javascript", "text", none⟩

/-- The script as the new build's page refers to it. -/
def newScript : Bytes := (deploy true).versionedUrl (utf8 "javascript/room.js")

/-- The old build is asked for it first, and later the new one. -/
def deployLoads : List (HttpCache.Action (Route Bool) Target) :=
  [.load (.file newScript) (false, false), .elapse 5, .load (.file newScript) (true, true),
    .elapse 1000000]

theorem pages_get_their_assets_deploy : ∃ c asked,
    run (withHistory (HttpCache.step (reply scriptMime deploy)) noteAsked) (Cache.empty, [])
      deployLoads = some (c, asked) ∧ asked.length = 2 ∧
    ∀ x, (c.load (reply scriptMime deploy) (false, false) (.file newScript)).2 = some x →
      x = utf8 "2" := by
  obtain ⟨c, asked, hrun, hlength, hfresh⟩ : ∃ c asked,
      run (withHistory (HttpCache.step (reply scriptMime deploy)) noteAsked) (Cache.empty, [])
        deployLoads = some (c, asked) ∧ asked.length = 2 ∧
      (c.fresh (.file newScript)).isSome = true := by
    refine ⟨_, _, rfl, rfl, ?_⟩
    decide +kernel
  have hrefers : (deploy true).Refers newScript (utf8 "2") := Or.inl ⟨_, rfl, rfl⟩
  refine ⟨c, asked, hrun, hlength, fun x hload => ?_⟩
  have hall := (pages_get_their_assets _ distinctVersions_deploy deployLoads c asked hrun
    (false, false)).2.1 true newScript (utf8 "2") x hrefers hload
  rcases hall with hx | ⟨hnone, -⟩
  · exact hx
  · rw [hnone] at hfresh
    cases hfresh

end Deploy

end Shellshare
