import Shellshare.RoomIdParse
import Shellshare.RoomNameWeight

/-! Which printed links open their broadcast. Where a browser resolves dot segments, or takes
backslashes for slashes, the page's room has a lighter name than the broadcaster's. -/
namespace Shellshare
open DotSegments PercentEncoding Utf8Validation

/-- A browser leaves the name where it is in the link, and the server has a page for it. -/
def linkable (room : String) : Bool :=
  let path := urlPath (utf8 room)
  '#' ∉ room.toList && plainPath path && !(decodeUtf8 (percentDecode path)).any isHistory

variable {room : String} {id : RoomId} {key s t : Bytes}

/-! ### A parse, by its bytes -/

theorem valid_iff_decodeUtf8 : fromUtf8 s = none ↔ ∃ t, decodeUtf8 s = some t := by
  rw [fromUtf8_eq_none_iff_chars]
  constructor
  · rintro ⟨chars, rfl⟩
    exact ⟨String.ofList chars, decodeUtf8_eq_some_iff.mpr (by rw [utf8, String.toList_ofList])⟩
  · rintro ⟨t, ht⟩
    exact ⟨t.toList, decodeUtf8_eq_some_iff.mp ht⟩

theorem flatMap_dropWhile_slash (chars : List Char) :
    (chars.dropWhile (· = '/')).flatMap String.utf8EncodeChar =
      (chars.flatMap String.utf8EncodeChar).dropWhile (· = slash) := by
  have hcode : String.utf8EncodeChar '/' = [slash] := by decide
  have hfront := cons_prefix_utf8 (b := slash) (c := '/') (by decide) hcode []
  induction chars with
  | nil => rfl
  | cons c chars ih =>
    by_cases hc : c = '/'
    · subst hc
      rw [List.dropWhile_cons_of_pos (by simp), ih, List.flatMap_cons, hcode,
        List.singleton_append, List.dropWhile_cons_of_pos (by simp)]
    · rw [List.dropWhile_cons_of_neg (by simpa using hc)]
      cases hbytes : (c :: chars).flatMap String.utf8EncodeChar with
      | nil => rfl
      | cons b rest =>
        symm
        apply List.dropWhile_cons_of_neg
        intro hb
        obtain rfl := of_decide_eq_true hb
        obtain ⟨chars', heq, -⟩ := (hfront (c :: chars)).mp ⟨rest, hbytes.symm⟩
        exact hc (List.cons.inj heq).1

theorem utf8_stripped (t : String) : utf8 (stripped t) = stripBytes (utf8 t) := by
  have hr := cons_prefix_utf8 (b := 114) (c := 'r') (by decide) (by decide) [slash]
  have hslash := cons_prefix_utf8 (b := slash) (c := '/') (by decide) (by decide) []
  rw [stripped, utf8, String.toList_ofList, stripBytes, utf8, ← flatMap_dropWhile_slash]
  generalize t.toList.dropWhile (· = '/') = chars
  rcases dropPrefix_route chars with ⟨rest, rfl, hrest⟩ | ⟨hroute, hrest⟩
  · have hbytes : ('r' :: '/' :: rest).flatMap String.utf8EncodeChar =
        utf8 "r/" ++ rest.flatMap String.utf8EncodeChar := rfl
    rw [hrest, hbytes, List.dropPrefix?_append_of_beq _ BEq.rfl, Option.getD_some]
  · have hnone : (chars.flatMap String.utf8EncodeChar).dropPrefix? (utf8 "r/") = none := by
      rw [Option.eq_none_iff_forall_ne_some]
      intro rest hsome
      obtain ⟨route, hbytes, heq⟩ := List.dropPrefix?_eq_some_iff.mp hsome
      have hfront : [114, slash] <+: chars.flatMap String.utf8EncodeChar :=
        ⟨rest, by rw [hbytes, eq_of_beq heq]; rfl⟩
      obtain ⟨behind, rfl, hbehind⟩ := (hr chars).mp hfront
      obtain ⟨kept, rfl, -⟩ := (hslash behind).mp hbehind
      exact hroute kept rfl
    rw [hrest, hnone, Option.getD_none]

theorem utf8_parse (t : String) : utf8 (RoomId.parse t).name = parseBytes (utf8 t) := by
  rw [parse_eq, parseBytes, ← utf8_stripped]
  cases hdecode : decodeUtf8 (percentDecode (utf8 (stripped t))) with
  | none =>
    rw [Option.getD_none, if_neg]
    intro hvalid
    obtain ⟨s, hs⟩ := valid_iff_decodeUtf8.mp hvalid
    rw [hdecode] at hs
    cases hs
  | some s =>
    rw [Option.getD_some, if_pos (valid_iff_decodeUtf8.mpr ⟨s, hdecode⟩)]
    exact decodeUtf8_eq_some_iff.mp hdecode

theorem parseBytes_slash_cons (s : Bytes) : parseBytes (slash :: s) = parseBytes s := by
  have hstrip : stripBytes (slash :: s) = stripBytes s := stripBytes_slashes 1 s
  rw [parseBytes, hstrip, parseBytes]

/-! ### The rooms at both ends of a link -/

theorem pathOf_splitOnP (s : Bytes) : pathOf percentDecode (s.splitOnP isSlash) =
    slash :: percentDecode (s.map toSlash) := by
  have hjoin := congrArg percentDecode (joinPath_splitOnP s)
  have hencoded := percentDecode_pathOf (percentEncode pathSet) (s.splitOnP isSlash)
  simp only [percentDecode_percentEncode sparesEscapes_pathSet] at hencoded
  rw [percentDecode_slash_cons, percentDecode_percentEncode sparesEscapes_pathSet] at hjoin
  exact hencoded.symm.trans hjoin

/-- The broadcaster's room is no lighter than the segments of the path it connects to. -/
theorem weight_ingestRoom (h : ingestRoom room = some id) :
    weight (parseBytes (pathOf percentDecode ((urlPath (utf8 room)).splitOnP isSlash))) +
      (urlPath (utf8 room)).count reverseSolidus ≤ weight (utf8 id.name) := by
  obtain ⟨-, -, name, hname, rfl⟩ := ingestRoom_eq_some_iff.mp h
  rw [pathOf_splitOnP, parseBytes_slash_cons, utf8_parse, decodeUtf8_eq_some_iff.mp hname]
  exact (faded_map_toSlash _).percentDecode.weight_parse

/-- The page's room is what the segments behind the route spell. -/
theorem viewerRoom_segments (haccepts : uriAccepts (utf8 room) = true)
    (h : viewerRoom (shareUrl room key) = some id) :
    ∃ first others, others ≠ [] ∧
      resolve dotKind [] [] (utf8 "r" :: (urlPath (utf8 room)).splitOnP isSlash) =
        first :: others ∧
      utf8 id.name = parseBytes (pathOf percentDecode others) := by
  obtain ⟨name, hrouted, -, rfl⟩ := viewerRoom_eq_some_iff.mp h
  obtain ⟨rest, hpath, -, hname⟩ := routed_eq_some_iff.mp hrouted
  have hlink := pageSegments_link haccepts (Or.inr ⟨hexEncode key, rfl⟩)
  have hsegs : (pageSegments (shareUrl room key)).map (percentEncode pathSet) =
      utf8 "r" :: rest.splitOnP isSlash := by
    have hr : ∀ b ∈ utf8 "r", isSlash b = false := by decide +kernel
    rw [← pathSegments_joinPath (pageSegments_ne_nil _)
      fun s hs => isSlash_of_mem_pageSegments hs,
      ← List.splitOnP_append_cons_of_forall_mem hr slash (by decide)]
    exact congrArg pathSegments hpath
  rw [← hlink, ← shareUrl]
  cases hall : pageSegments (shareUrl room key) with
  | nil =>
    rw [hall] at hsegs
    cases hsegs
  | cons first others =>
    rw [hall, List.map_cons, List.cons.injEq] at hsegs
    refine ⟨first, others, ?_, rfl, ?_⟩
    · rintro rfl
      exact List.splitOnP_ne_nil isSlash rest hsegs.2.symm
    · have hothers : joinPath others = slash :: rest := by
        have hjoin : slash :: percentEncode pathSet first ++ joinPath others =
            utf8 "/r/" ++ rest := by
          rw [← hpath, browserPath, hall]
          rfl
        rw [hsegs.1] at hjoin
        exact List.append_cancel_left hjoin
      have hdecoded := percentDecode_pathOf (percentEncode pathSet) others
      simp only [percentDecode_percentEncode sparesEscapes_pathSet] at hdecoded
      rw [← hdecoded, utf8_parse, decodeUtf8_eq_some_iff.mp hname, ← parseBytes_slash_cons,
        ← percentDecode_slash_cons, ← hothers]
      rfl

/-- Dot segments that are resolved make the path behind the route lighter, also where they
take the route off. -/
theorem weight_resolve_lt {segs others : List Bytes} {first : Bytes}
    (hdots : ¬∀ s ∈ segs, dotKind s = .plain) (hothers : others ≠ [])
    (hresolve : resolve dotKind [] [] (utf8 "r" :: segs) = first :: others) :
    weight (parseBytes (pathOf percentDecode others)) <
      weight (parseBytes (pathOf percentDecode segs)) := by
  have hr : dotKind (utf8 "r") = .plain := by decide
  obtain ⟨front, d, rest, rfl, hfront, hd⟩ := exists_first_dot hdots
  rw [← List.cons_append, resolve_append (List.forall_mem_cons.mpr ⟨hr, hfront⟩)
    (List.cons_ne_nil d rest), List.nil_append] at hresolve
  obtain ⟨i, tail, hout, htail, hmem, hweight⟩ := resolve_cons_dot [] (utf8 "r" :: front) rest hd
  rw [hout] at hresolve
  cases i with
  | succ i =>
    rw [List.take_succ_cons, List.cons_append, List.cons.injEq] at hresolve
    rw [← hresolve.2]
    exact weight_parse_lt (List.take_prefix i front) hd htail hmem hweight
  | zero =>
    -- the route itself was taken off
    rw [List.take_zero, List.nil_append] at hresolve
    subst hresolve
    rw [← List.nil_append others]
    apply weight_parse_lt List.nil_prefix hd hothers
    · exact fun s hs => hmem s (List.mem_cons_of_mem first hs)
    · intro m hm
      refine lt_of_le_of_lt ?_ (hweight m hm)
      rw [List.map_cons, List.sum_cons]
      exact Nat.le_add_left _ _

/-- Where the path is not plain, the page is for another room, with a lighter name. -/
theorem weight_viewerRoom_lt {id' : RoomId} (hroom : ingestRoom room = some id)
    (hplain : plainPath (urlPath (utf8 room)) = false)
    (hviewer : viewerRoom (shareUrl room key) = some id') :
    weight (utf8 id'.name) < weight (utf8 id.name) := by
  have hingest := weight_ingestRoom hroom
  obtain ⟨first, others, hothers, hresolve, hname⟩ :=
    viewerRoom_segments (ingestRoom_eq_some_iff.mp hroom).1 hviewer
  rw [hname]
  by_cases hsegs : ∀ s ∈ (urlPath (utf8 room)).splitOnP isSlash, dotKind s = .plain
  · -- only a backslash is left
    have hr : dotKind (utf8 "r") = .plain := by decide
    rw [resolve_plain (List.forall_mem_cons.mpr ⟨hr, hsegs⟩), List.nil_append] at hresolve
    have hback : reverseSolidus ∈ urlPath (utf8 room) := by
      by_contra hnone
      have hall : plainPath (urlPath (utf8 room)) = true := by
        simp only [plainPath, Bool.and_eq_true, List.all_eq_true, decide_eq_true_eq]
        exact ⟨fun b hb heq => hnone (heq ▸ hb), hsegs⟩
      rw [hplain] at hall
      cases hall
    have hpos := List.count_pos_iff.mpr hback
    rw [← (List.cons.inj hresolve).2]
    omega
  · exact (weight_resolve_lt hsegs hothers hresolve).trans_le
      ((Nat.le_add_right _ _).trans hingest)

/-- A link with a plain path and no history in it opens the broadcaster's room. -/
theorem viewerRoom_of_plain (hroom : ingestRoom room = some id)
    (hplain : plainPath (urlPath (utf8 room)) = true) :
    viewerRoom (shareUrl room key) = some id ↔
      (decodeUtf8 (percentDecode (urlPath (utf8 room)))).any isHistory = false := by
  obtain ⟨haccepts, hne, name, hname, rfl⟩ := ingestRoom_eq_some_iff.mp hroom
  have hpath : browserPath (shareUrl room key) =
      utf8 "/r/" ++ percentEncode pathSet (urlPath (utf8 room)) :=
    browserPath_link haccepts hplain (Or.inr ⟨_, rfl⟩)
  have hrouted : routed "/r/" (browserPath (shareUrl room key)) = some name := by
    rw [hpath, routed_append, if_neg (percentEncode_eq_nil_iff.not.mpr hne),
      percentDecode_percentEncode sparesEscapes_pathSet, hname]
  rw [viewerRoom_eq_some_iff, hname, Option.any_some]
  constructor
  · rintro ⟨name', hrouted', hhistory, -⟩
    obtain rfl := Option.some.inj (hrouted.symm.trans hrouted')
    exact hhistory
  · exact fun hhistory => ⟨name, hrouted, hhistory, rfl⟩

/-- The link opens the broadcast exactly where neither a browser nor the server reads
something else into the name. -/
theorem share_link_opens_iff (key : Bytes) (hroom : ingestRoom room = some id) :
    (viewerRoom (shareUrl room key) = some id ∧ keyHex (shareUrl room key) = hexEncode key) ↔
      linkable room = true := by
  rw [keyHex_shareUrl_iff, linkable]
  simp only [Bool.and_eq_true, decide_eq_true_eq, Bool.not_eq_true', and_assoc]
  rw [and_comm]
  apply and_congr_right
  intro _
  cases hplain : plainPath (urlPath (utf8 room)) with
  | true => rw [viewerRoom_of_plain hroom hplain, and_iff_right rfl]
  | false =>
    apply iff_of_false
    · -- a lighter name is another one
      intro hviewer
      exact absurd (weight_viewerRoom_lt hroom hplain hviewer) (lt_irrefl _)
    · rintro ⟨h, -⟩
      cases h

theorem share_link_opens_demo : ingestRoom "demo" = some ⟨"demo"⟩ ∧
    viewerRoom (shareUrl "demo" (List.replicate 32 7)) = some ⟨"demo"⟩ ∧
    keyHex (shareUrl "demo" (List.replicate 32 7)) = hexEncode (List.replicate 32 7) := by
  have hroom : ingestRoom "demo" = some ⟨"demo"⟩ := by decide
  exact ⟨hroom, (share_link_opens_iff (List.replicate 32 7) hroom).mpr (by decide)⟩

/-- A name with a `#`: the page finds the rest of the name before the key. -/
theorem share_link_fails :
    ingestRoom "a#b" = some ⟨"a"⟩ ∧
      viewerRoom (shareUrl "a#b" (List.replicate 32 7)) = some ⟨"a"⟩ ∧
      keyHex (shareUrl "a#b" (List.replicate 32 7)) =
        utf8 "b#0707070707070707070707070707070707070707070707070707070707070707" := by
  decide

-- a page for another room, and a download
example : ingestRoom "a/../b" = some ⟨"a/../b"⟩ ∧
    viewerRoom (shareUrl "a/../b" (List.replicate 32 7)) = some ⟨"b"⟩ ∧
    viewerRoom (shareUrl "x.bin" (List.replicate 32 7)) = none := by decide

end Shellshare
