import Mathlib.Data.List.Basic
import Shellshare.AcceptHeader

/-! Content negotiation: the representation of a page that answers an Accept header. -/
namespace Shellshare
open Trimming

inductive Representation where
  | html
  | markdown
  deriving DecidableEq

def Representation.mediaType : Representation → List Char
  | .html => ['t', 'e', 'x', 't', '/', 'h', 't', 'm', 'l']
  | .markdown => ['t', 'e', 'x', 't', '/', 'm', 'a', 'r', 'k', 'd', 'o', 'w', 'n']

section Negotiation
variable {F : Type} (f : F32 F)

def acceptMatches (entry : AcceptEntry F) (candidate : List Char) : Bool :=
  if entry.mediaType = ['*', '/', '*'] then true
  else match entry.mediaType.dropSuffix? ['/', '*'] with
    | none => entry.mediaType = candidate
    | some kind => match splitOnce '/' candidate with
      | none => false
      | some (candidateKind, _) => candidateKind = kind

def isBetterMatch (matched : Option (AcceptEntry F)) (entry : AcceptEntry F) : Bool :=
  match matched with
  | none => true
  | some current => entry.specificity > current.specificity ||
      (entry.specificity = current.specificity && entry.position < current.position)

/-- One turn of the loop over the entries. -/
def matchEntry (candidate : List Char) (matched : Option (AcceptEntry F))
    (entry : AcceptEntry F) : Option (AcceptEntry F) :=
  if acceptMatches entry candidate then
    if isBetterMatch matched entry then some entry else matched
  else matched

def matchedEntry (entries : List (AcceptEntry F)) (candidate : List Char) :
    Option (AcceptEntry F) :=
  (entries.foldl (matchEntry candidate) none).filter fun entry => f.positive entry.quality

def isBetterCandidate (best : Option (Representation × F × ℕ)) (matched : AcceptEntry F) : Bool :=
  match best with
  | none => true
  | some (_, quality, position) => (f.totalCmp matched.quality quality).isGT ||
      ((f.totalCmp matched.quality quality).isEq && matched.position < position)

/-- One turn of the loop over the representations. -/
def consider (entries : List (AcceptEntry F)) (best : Option (Representation × F × ℕ))
    (candidate : Representation) : Option (Representation × F × ℕ) :=
  match matchedEntry f entries candidate.mediaType with
  | none => best
  | some matched =>
    if isBetterCandidate f best matched then some (candidate, matched.quality, matched.position)
    else best

/-- The representation for the values of the Accept headers of a request. -/
def preferredRepresentation (headers : List (List Char)) : Option Representation :=
  -- a value that `to_str` refuses is as good as absent
  let values := headers.filter fun value => value.all isVisible
  if values = [] then some .html
  else
    let entries := parseAccept f ([','].intercalate values)
    if entries.isEmpty then some .html
    -- HTML is looked at first, so that it keeps a tie
    else ([.html, .markdown].foldl (consider f entries) none).map (·.1)

end Negotiation

/-- A range stands for a media type: it is the type itself, `type/*` or `*/*`. -/
def MediaRange.Covers (m : MediaRange) (mediaType : List Char) : Prop :=
  (m.kind = ['*'] ∧ m.subtype = ['*']) ∨
    ∃ subtype, mediaType = m.kind ++ '/' :: subtype ∧ (m.subtype = ['*'] ∨ m.subtype = subtype)

variable {ranges : MediaRange → Prop} {candidate : Representation} {mediaType : List Char}

/-- The range that decides on a media type: the most specific, of these the earliest. -/
structure Decides (ranges : MediaRange → Prop) (mediaType : List Char) (m : MediaRange) :
    Prop where
  isRange : ranges m
  covers : m.Covers mediaType
  first : ∀ m', ranges m' → m'.Covers mediaType → m'.specificity < m.specificity ∨
    m'.specificity = m.specificity ∧ m.position ≤ m'.position

/-- A representation is acceptable for the range that decides on it. -/
structure Accepts (ranges : MediaRange → Prop) (candidate : Representation) (m : MediaRange) :
    Prop where
  decides : Decides ranges candidate.mediaType m
  positive : 0 < m.quality

/-- Of a higher quality, or of the same and earlier in the header. -/
def MediaRange.Outranks (m m' : MediaRange) : Prop :=
  m'.quality < m.quality ∨ m.quality = m'.quality ∧ m.position < m'.position

/-- What a header asks for. HTML wins the ties that the order of the ranges leaves. -/
inductive Preferred (ranges : MediaRange → Prop) : Option Representation → Prop where
  | unrestricted (hnone : ∀ m, ¬ ranges m) : Preferred ranges (some .html)
  | unsatisfiable {m : MediaRange} (hm : ranges m)
      (hnone : ∀ candidate m, ¬ Accepts ranges candidate m) : Preferred ranges none
  | html {m : MediaRange} (hm : Accepts ranges .html m)
      (hbest : ∀ m', Accepts ranges .markdown m' → ¬ m'.Outranks m) : Preferred ranges (some .html)
  | markdown {m : MediaRange} (hm : Accepts ranges .markdown m)
      (hbest : ∀ m', Accepts ranges .html m' → m.Outranks m') : Preferred ranges (some .markdown)

theorem Accepts.isRange {m : MediaRange} (h : Accepts ranges candidate m) : ranges m :=
  h.decides.isRange

theorem Preferred.unique {result result' : Option Representation} (h : Preferred ranges result)
    (h' : Preferred ranges result') : result = result' := by
  cases h with
  | unrestricted hnone =>
    cases h' with
    | unrestricted => rfl
    | unsatisfiable hm => exact absurd hm (hnone _)
    | html => rfl
    | markdown hm => exact absurd hm.isRange (hnone _)
  | unsatisfiable hr hnone =>
    cases h' with
    | unrestricted hempty => exact absurd hr (hempty _)
    | unsatisfiable => rfl
    | html hm => exact absurd hm (hnone _ _)
    | markdown hm => exact absurd hm (hnone _ _)
  | html hm hbest =>
    cases h' with
    | unrestricted => rfl
    | unsatisfiable _ hnone => exact absurd hm (hnone _ _)
    | html => rfl
    | markdown hm' hbest' => exact absurd (hbest' _ hm) (hbest _ hm')
  | markdown hm hbest =>
    cases h' with
    | unrestricted hempty => exact absurd hm.isRange (hempty _)
    | unsatisfiable _ hnone => exact absurd hm (hnone _ _)
    | html hm' hbest' => exact absurd (hbest _ hm') (hbest' _ hm)
    | markdown => rfl

/-- What the parser makes of the ranges of a header. -/
structure Parsed {F : Type} (ofThousandths : ℕ → F) (ranges : MediaRange → Prop)
    (entries : List (AcceptEntry F)) : Prop where
  mem_iff : ∀ entry, entry ∈ entries ↔ ∃ m, ranges m ∧ m.entry ofThousandths = entry
  named : ∀ m, ranges m → ∃ range, NamesMediaType range m.kind m.subtype
  quality_le : ∀ m, ranges m → m.quality ≤ 1000
  placed : ∀ m m', ranges m → ranges m' → m.position = m'.position → m = m'

theorem Decides.unique {m m' : MediaRange}
    (hplaced : ∀ m m', ranges m → ranges m' → m.position = m'.position → m = m')
    (h : Decides ranges mediaType m) (h' : Decides ranges mediaType m') : m = m' := by
  have hle := h.first m' h'.isRange h'.covers
  have hge := h'.first m h.isRange h.covers
  apply hplaced m m' h.isRange h'.isRange
  omega

section Matching
variable {F : Type} {f : F32 F} {ofThousandths : ℕ → F} {entries : List (AcceptEntry F)}
  {best : Option (AcceptEntry F)} {entry : AcceptEntry F} {candidate : List Char}

theorem acceptMatches_entry_iff {range : List Char} {m : MediaRange}
    (hnamed : NamesMediaType range m.kind m.subtype) :
    acceptMatches (m.entry ofThousandths) mediaType = true ↔ m.Covers mediaType := by
  have hall : m.kind ++ '/' :: m.subtype = ['*', '/', '*'] ↔
      m.kind = ['*'] ∧ m.subtype = ['*'] := by
    rw [← hnamed.slash]
    exact hnamed.lowercase_eq_all_iff
  have hmedia : (m.entry ofThousandths).mediaType = m.kind ++ '/' :: m.subtype := rfl
  rw [acceptMatches, hmedia, MediaRange.Covers]
  by_cases hstar : m.kind = ['*'] ∧ m.subtype = ['*']
  · rw [if_pos (hall.mpr hstar)]
    exact ⟨fun _ => .inl hstar, fun _ => rfl⟩
  · rw [if_neg (fun h => hstar (hall.mp h)), or_iff_right hstar]
    by_cases hsub : m.subtype = ['*']
    · -- `type/*`
      have hdrop : (m.kind ++ '/' :: m.subtype).dropSuffix? ['/', '*'] = some m.kind := by
        rw [List.dropSuffix?_eq_some_iff, hsub]
        exact ⟨['/', '*'], rfl, rfl⟩
      rw [hdrop]
      dsimp only
      constructor
      · intro h
        cases hsplit : splitOnce '/' mediaType with
        | none =>
          rw [hsplit] at h
          cases h
        | some parts =>
          rw [hsplit] at h
          have hkind : parts.1 = m.kind := of_decide_eq_true h
          rw [← hkind]
          exact ⟨parts.2, (splitOnce_eq_some_iff.mp hsplit).1, .inl hsub⟩
      · rintro ⟨subtype, rfl, -⟩
        rw [splitOnce_append_cons hnamed.first]
        exact decide_eq_true rfl
    · have hdrop : (m.kind ++ '/' :: m.subtype).dropSuffix? ['/', '*'] = none := by
        rw [Option.eq_none_iff_forall_ne_some]
        intro kind hkind
        obtain ⟨suffix, happend, hsuffix⟩ := List.dropSuffix?_eq_some_iff.mp hkind
        rw [beq_iff_eq.mp hsuffix] at happend
        -- the last character is of the subtype, which has no asterisk
        have hlast := congrArg List.getLast? happend
        rw [List.getLast?_append_of_ne_nil _ (List.cons_ne_nil _ _),
          List.getLast?_cons_of_ne_nil hnamed.subtypeNe] at hlast
        have hmem : '*' ∈ m.subtype := List.mem_of_getLast? (hlast.trans (by simp))
        exact hsub (hnamed.whole hmem)
      rw [hdrop]
      dsimp only
      rw [decide_eq_true_eq]
      constructor
      · rintro rfl
        exact ⟨m.subtype, rfl, .inr rfl⟩
      · rintro ⟨subtype, rfl, hor⟩
        rw [hor.resolve_left hsub]

/-- The entry that the loop keeps of those it has passed. -/
def Leads (entries : List (AcceptEntry F)) (candidate : List Char) :
    Option (AcceptEntry F) → Prop
  | none => ∀ entry ∈ entries, acceptMatches entry candidate = false
  | some best => best ∈ entries ∧ acceptMatches best candidate = true ∧
      ∀ entry ∈ entries, acceptMatches entry candidate = true →
        entry.specificity < best.specificity ∨
          entry.specificity = best.specificity ∧ best.position ≤ entry.position

theorem Leads.matchEntry (h : Leads entries candidate best) :
    Leads (entries ++ [entry]) candidate (matchEntry candidate best entry) := by
  rw [Shellshare.matchEntry]
  by_cases hmatch : acceptMatches entry candidate = true
  · rw [if_pos hmatch]
    cases best with
    | none =>
      refine ⟨by simp, hmatch, List.forall_mem_append.mpr ⟨?_, ?_⟩⟩
      · intro other hother hcovers
        rw [h other hother] at hcovers
        cases hcovers
      · rw [List.forall_mem_singleton]
        exact fun _ => .inr ⟨rfl, le_rfl⟩
    | some current =>
      obtain ⟨hmem, hcurrent, hfirst⟩ := h
      have hbetter : isBetterMatch (some current) entry = true ↔
          current.specificity < entry.specificity ∨
            entry.specificity = current.specificity ∧ entry.position < current.position := by
        simp [isBetterMatch]
      by_cases hwins : isBetterMatch (some current) entry = true
      · rw [if_pos hwins]
        rw [hbetter] at hwins
        refine ⟨by simp, hmatch, List.forall_mem_append.mpr ⟨?_, ?_⟩⟩
        · intro other hother hcovers
          have hle := hfirst other hother hcovers
          omega
        · rw [List.forall_mem_singleton]
          exact fun _ => .inr ⟨rfl, le_rfl⟩
      · rw [if_neg hwins]
        rw [hbetter] at hwins
        refine ⟨List.mem_append_left _ hmem, hcurrent, List.forall_mem_append.mpr ⟨hfirst, ?_⟩⟩
        rw [List.forall_mem_singleton]
        intro _
        omega
  · rw [if_neg hmatch]
    cases best with
    | none =>
      refine List.forall_mem_append.mpr ⟨h, ?_⟩
      rw [List.forall_mem_singleton]
      exact Bool.eq_false_iff.mpr hmatch
    | some current =>
      refine ⟨List.mem_append_left _ h.1, h.2.1, List.forall_mem_append.mpr ⟨h.2.2, ?_⟩⟩
      rw [List.forall_mem_singleton]
      intro hcovers
      exact absurd hcovers hmatch

theorem leads_foldl (entries : List (AcceptEntry F)) (candidate : List Char) :
    Leads entries candidate (entries.foldl (matchEntry candidate) none) := by
  induction entries using List.reverseRecOn with
  | nil => nofun
  | append_singleton entries entry ih =>
    rw [List.foldl_append]
    exact ih.matchEntry

section Selection
variable {m : MediaRange}

theorem Parsed.accepts_iff (hparsed : Parsed ofThousandths ranges entries) (hm : ranges m) :
    acceptMatches (m.entry ofThousandths) mediaType = true ↔ m.Covers mediaType := by
  obtain ⟨range, hnamed⟩ := hparsed.named m hm
  exact acceptMatches_entry_iff hnamed

/-- The loop over the entries finds the range that decides. -/
theorem Parsed.decides (hparsed : Parsed ofThousandths ranges entries)
    (hbest : entries.foldl (matchEntry mediaType) none = some entry) :
    ∃ m, Decides ranges mediaType m ∧ m.entry ofThousandths = entry := by
  have hleads := leads_foldl entries mediaType
  rw [hbest] at hleads
  obtain ⟨hmem, hmatch, hfirst⟩ := hleads
  obtain ⟨m, hm, rfl⟩ := (hparsed.mem_iff entry).mp hmem
  refine ⟨m, ⟨hm, (hparsed.accepts_iff hm).mp hmatch, ?_⟩, rfl⟩
  intro m' hm' hcovers
  exact hfirst _ ((hparsed.mem_iff _).mpr ⟨m', hm', rfl⟩) ((hparsed.accepts_iff hm').mpr hcovers)

theorem Parsed.not_covers (hparsed : Parsed ofThousandths ranges entries)
    (hbest : entries.foldl (matchEntry mediaType) none = none) (hm : ranges m) :
    ¬ m.Covers mediaType := by
  have hleads := leads_foldl entries mediaType
  rw [hbest] at hleads
  intro hcovers
  have hno := hleads _ ((hparsed.mem_iff _).mpr ⟨m, hm, rfl⟩)
  rw [(hparsed.accepts_iff hm).mpr hcovers] at hno
  cases hno

variable {candidate : Representation}

theorem Parsed.accepts_of_some (hf : f.Ordered ofThousandths)
    (hparsed : Parsed ofThousandths ranges entries)
    (hmatched : matchedEntry f entries candidate.mediaType = some entry) :
    ∃ m, Accepts ranges candidate m ∧ m.entry ofThousandths = entry := by
  obtain ⟨hbest, hpositive⟩ := Option.filter_eq_some_iff.mp hmatched
  obtain ⟨m, hdecides, rfl⟩ := hparsed.decides hbest
  have hle := hparsed.quality_le m hdecides.isRange
  exact ⟨m, ⟨hdecides, (hf.positive m.quality hle).mp hpositive⟩, rfl⟩

theorem Parsed.not_accepts_of_none (hf : f.Ordered ofThousandths)
    (hparsed : Parsed ofThousandths ranges entries)
    (hmatched : matchedEntry f entries candidate.mediaType = none) :
    ¬ Accepts ranges candidate m := by
  intro haccepts
  have hm := haccepts.isRange
  cases hbest : entries.foldl (matchEntry candidate.mediaType) none with
  | none => exact hparsed.not_covers hbest hm haccepts.decides.covers
  | some entry =>
    obtain ⟨m', hdecides, rfl⟩ := hparsed.decides hbest
    have heq : m' = m := hdecides.unique hparsed.placed haccepts.decides
    have hpositive : f.positive (m.entry ofThousandths).quality = true :=
      (hf.positive m.quality (hparsed.quality_le m hm)).mpr haccepts.positive
    rw [matchedEntry, hbest, heq, Option.filter_some, if_pos hpositive] at hmatched
    cases hmatched

theorem isBetterCandidate_iff (hf : f.Ordered ofThousandths) (candidate : Representation)
    {m' : MediaRange} (hm : m.quality ≤ 1000) (hm' : m'.quality ≤ 1000) :
    isBetterCandidate f (some (candidate, ofThousandths m.quality, m.position))
      (m'.entry ofThousandths) = true ↔ m'.Outranks m := by
  rw [isBetterCandidate, MediaRange.entry]
  dsimp only
  rw [hf.order _ _ hm' hm, MediaRange.Outranks]
  simp [Nat.compare_eq_gt]

/-- The loop over the representations finds the preferred one. -/
theorem Parsed.preferred (hf : f.Ordered ofThousandths)
    (hparsed : Parsed ofThousandths ranges entries) (hne : entries ≠ []) :
    Preferred ranges (([.html, .markdown].foldl (consider f entries) none).map (·.1)) := by
  rw [List.foldl_cons, List.foldl_cons, List.foldl_nil]
  -- whether each of the two is acceptable
  cases hhtml : matchedEntry f entries Representation.html.mediaType with
  | none =>
    have hconsider : consider f entries none .html = none := by rw [consider, hhtml]
    have hnohtml : ∀ m, ¬ Accepts ranges .html m := fun m => hparsed.not_accepts_of_none hf hhtml
    rw [hconsider, consider]
    cases hmarkdown : matchedEntry f entries Representation.markdown.mediaType with
    | none =>
      obtain ⟨entry, hentry⟩ := List.exists_mem_of_ne_nil entries hne
      obtain ⟨m, hm, -⟩ := (hparsed.mem_iff entry).mp hentry
      apply Preferred.unsatisfiable hm
      intro candidate m' haccepts
      cases candidate with
      | html => exact hnohtml m' haccepts
      | markdown => exact hparsed.not_accepts_of_none hf hmarkdown haccepts
    | some entry =>
      obtain ⟨m, haccepts, -⟩ := hparsed.accepts_of_some hf hmarkdown
      exact Preferred.markdown haccepts fun m' hm' => absurd hm' (hnohtml m')
  | some entry =>
    obtain ⟨m, haccepts, rfl⟩ := hparsed.accepts_of_some hf hhtml
    have hconsider : consider f entries none .html =
        some (.html, ofThousandths m.quality, m.position) := by
      rw [consider, hhtml]
      rfl
    rw [hconsider, consider]
    cases hmarkdown : matchedEntry f entries Representation.markdown.mediaType with
    | none =>
      exact Preferred.html haccepts fun m' hm' =>
        absurd hm' (hparsed.not_accepts_of_none hf hmarkdown)
    | some entry =>
      obtain ⟨m', haccepts', rfl⟩ := hparsed.accepts_of_some hf hmarkdown
      -- Markdown has to outrank HTML
      have hbetter := isBetterCandidate_iff hf .html
        (hparsed.quality_le m haccepts.isRange) (hparsed.quality_le m' haccepts'.isRange)
      dsimp only
      by_cases hwins : m'.Outranks m
      · rw [if_pos (hbetter.mpr hwins)]
        apply Preferred.markdown haccepts'
        intro other hother
        rw [hother.decides.unique hparsed.placed haccepts.decides]
        exact hwins
      · rw [if_neg (fun h => hwins (hbetter.mp h))]
        apply Preferred.html haccepts
        intro other hother
        rw [hother.decides.unique hparsed.placed haccepts'.decides]
        exact hwins

end Selection

end Matching

theorem parsed_parseAccept {F : Type} {f : F32 F} {ofThousandths : ℕ → F}
    (hf : f.Ordered ofThousandths) {values : List AcceptValue} (hne : values ≠ [])
    (hvalues : ∀ value ∈ values, ∀ item ∈ value.items, item.WellWeighted f) :
    Parsed ofThousandths (InHeader (values.flatMap AcceptValue.items))
      (parseAccept f ([','].intercalate (values.map AcceptValue.text))) where
  mem_iff _ := mem_parseAccept_iff hf values hne hvalues
  named := by
    rintro m ⟨item, -, hreads⟩
    exact ⟨item.range, hreads.named⟩
  quality_le _ hm := hm.quality_le
  placed _ _ hm hm' := hm.unique hm'

/-- Content negotiation answers a request as its Accept headers ask for. -/
theorem preferredRepresentation_eq_iff {F : Type} {f : F32 F} (hf : f.OrderPreserving)
    (values : List AcceptValue)
    (hvalues : ∀ value ∈ values, ∀ item ∈ value.items, item.WellWeighted f)
    (result : Option Representation) :
    preferredRepresentation f (values.map AcceptValue.text) = result ↔
      Preferred (InHeader (values.flatMap AcceptValue.items)) result := by
  obtain ⟨ofThousandths, hordered⟩ := hf
  have hpreferred : Preferred (InHeader (values.flatMap AcceptValue.items))
      (preferredRepresentation f (values.map AcceptValue.text)) := by
    have hvisible : (values.map AcceptValue.text).filter (fun value => value.all isVisible) =
        values.map AcceptValue.text := by
      rw [List.filter_eq_self]
      intro text htext
      obtain ⟨value, -, rfl⟩ := List.mem_map.mp htext
      exact value.isVisible_text
    rw [preferredRepresentation, hvisible]
    dsimp only
    by_cases hne : values = []
    · rw [if_pos (by simp [hne]), hne]
      apply Preferred.unrestricted
      rintro m ⟨item, hitem, -⟩
      cases hitem
    · rw [if_neg (by simpa using hne)]
      have hparsed := parsed_parseAccept hordered hne hvalues
      split_ifs with hempty
      · apply Preferred.unrestricted
        intro m hm
        have hmem := (hparsed.mem_iff _).mpr ⟨m, hm, rfl⟩
        rw [List.isEmpty_iff.mp hempty] at hmem
        cases hmem
      · exact hparsed.preferred hordered (fun h => hempty (List.isEmpty_iff.mpr h))
  constructor
  · rintro rfl
    exact hpreferred
  · exact hpreferred.unique

section Examples

/-- `f32`s that are qvalues, in thousandths. -/
def thousandthsF32 : F32 ℕ where
  one := 1000
  parse := qvalue
  clamp := min 1000
  positive := fun quality => 0 < quality
  totalCmp := compare

theorem thousandthsF32_orderPreserving : thousandthsF32.OrderPreserving := by
  refine ⟨id, rfl, ?_, fun _ _ _ _ => rfl, fun n _ => decide_eq_true_iff⟩
  intro v n hn
  have hmin : min 1000 n = n := Nat.min_eq_right (qvalue_le hn)
  simp only [thousandthsF32, hn, Option.map_some, hmin, id]

/-- `text/html;q=0.5` -/
def htmlHalf : AcceptItem where
  range := ['t', 'e', 'x', 't', '/', 'h', 't', 'm', 'l']
  weight := some ['0', '.', '5']
  raw := ['t', 'e', 'x', 't', '/', 'h', 't', 'm', 'l', ';', 'q', '=', '0', '.', '5']
  bare := bare_of_isBare (by decide)
  spelled := .weighted (a := []) (b := []) (c := []) (d := []) (g := []) (h := [])
    nofun nofun nofun (.inl rfl) nofun nofun
    (bare_of_isBare (by decide)) nofun

/-- ` */*;q=x` -/
def anyUnparsable : AcceptItem where
  range := ['*', '/', '*']
  weight := some ['x']
  raw := [' ', '*', '/', '*', ';', 'q', '=', 'x']
  bare := bare_of_isBare (by decide)
  spelled := .weighted (a := [' ']) (b := []) (c := []) (d := []) (g := []) (h := [])
    (List.forall_mem_singleton.mpr rfl) nofun nofun (.inl rfl) nofun nofun
    (bare_of_isBare (by decide)) nofun

/-- ` text/*` -/
def anyText : AcceptItem where
  range := ['t', 'e', 'x', 't', '/', '*']
  weight := none
  raw := [' ', 't', 'e', 'x', 't', '/', '*']
  bare := bare_of_isBare (by decide)
  spelled := .plain (a := [' ']) (b := []) (List.forall_mem_singleton.mpr rfl) nofun

/-- `te*t/html` -/
def wildcardInType : AcceptItem where
  range := ['t', 'e', '*', 't', '/', 'h', 't', 'm', 'l']
  weight := none
  raw := ['t', 'e', '*', 't', '/', 'h', 't', 'm', 'l']
  bare := bare_of_isBare (by decide)
  spelled := .plain (a := []) (b := []) nofun nofun

/-- `text/html;q=0.5, */*;q=x, text/*` -/
theorem preferredRepresentation_anyText :
    Preferred (InHeader [htmlHalf, anyUnparsable, anyText]) (some .markdown) := by
  refine (preferredRepresentation_eq_iff thousandthsF32_orderPreserving
    [⟨[htmlHalf, anyUnparsable, anyText], by simp⟩] ?_ (some .markdown)).mp (by decide)
  simp only [List.forall_mem_singleton, List.forall_mem_cons]
  refine ⟨?_, ?_, ?_⟩
  · rintro kind subtype value - hvalue -
    cases hvalue
    decide
  · rintro kind subtype value - hvalue hparse
    cases hvalue
    exact absurd (by decide) hparse
  · rintro kind subtype value - hvalue
    cases hvalue

/-- A part of a range has a wildcard beside other characters. -/
def PartialWildcard (part : List Char) : Prop := '*' ∈ part ∧ part ≠ ['*']

/-- A range with an asterisk inside its type is not ignored: nothing is acceptable, where
HTML is for a header without a range. -/
theorem wildcard_in_type_not_ignored :
    Preferred (fun m => InHeader [wildcardInType] m ∧ ¬ PartialWildcard m.kind) (some .html) ∧
      preferredRepresentation thousandthsF32 [AcceptValue.text ⟨[wildcardInType], by simp⟩] =
        none := by
  constructor
  · apply Preferred.unrestricted
    rintro m ⟨⟨item, hitem, hreads⟩, hpartial⟩
    have hwildcard : item = wildcardInType := by
      have hmem := List.mem_of_getElem? hitem
      rwa [List.mem_singleton] at hmem
    have hsplit := (namesMediaType_iff.mp hreads.named).1
    have htype : splitOnce '/' (lowercase wildcardInType.range) =
        some (['t', 'e', '*', 't'], ['h', 't', 'm', 'l']) := by decide
    rw [hwildcard, htype, Option.some_inj, Prod.mk.injEq] at hsplit
    apply hpartial
    rw [← hsplit.1, PartialWildcard]
    decide
  · decide

end Examples

end Shellshare
