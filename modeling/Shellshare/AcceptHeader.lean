import Mathlib.Algebra.Order.Ring.Nat
import Mathlib.Data.List.Basic
import Shellshare.Trimming

/-! The Accept header: its parser, and the lists of media ranges it is written for. -/
namespace Shellshare
open Trimming

/-- What the parser does with `f32`. -/
structure F32 (F : Type) where
  one : F
  parse : List Char → Option F
  /-- `clamp(0.0, 1.0)` -/
  clamp : F → F
  /-- `> 0.0` -/
  positive : F → Bool
  totalCmp : F → F → Ordering

structure AcceptEntry (F : Type) where
  mediaType : List Char
  quality : F
  specificity : ℕ
  position : ℕ

/-- `char::is_whitespace`, of ASCII. -/
def isWhitespace (c : Char) : Bool := c = ' ' || (9 ≤ c.toNat && c.toNat ≤ 13)

def isQuote (c : Char) : Bool := c = '"'

/-- `trim_matches('"')` of a trimmed value. -/
def unquoted (value : List Char) : List Char := trim isQuote (trim isWhitespace value)

def lowercase (s : List Char) : List Char := s.map Char.toLower

/-- The media types that an entry is dropped for. -/
def malformed (kind subtype : List Char) : Bool :=
  kind = [] || subtype = [] || (kind = ['*'] && subtype ≠ ['*']) ||
    (subtype.contains '*' && subtype ≠ ['*'])

section Parser
variable {F : Type} (f : F32 F)

/-- The loop over the parameters of an entry. -/
def readQuality : List (List Char) → F → Option F
  | [], quality => some quality
  | parameter :: parts, quality =>
    match splitOnce '=' (trim isWhitespace parameter) with
    -- a parameter without a value is passed over
    | none => readQuality parts quality
    | some (name, rawValue) =>
      if lowercase (trim isWhitespace name) = ['q'] then
        match f.parse (unquoted rawValue) with
        | some value => readQuality parts (f.clamp value)
        -- the entry is dropped with its quality
        | none => none
      else readQuality parts quality

def parseEntry (position : ℕ) (raw : List Char) : Option (AcceptEntry F) :=
  let parts := (trim isWhitespace raw).splitOn ';'
  let mediaType := lowercase (trim isWhitespace (parts.headD []))
  match splitOnce '/' mediaType with
  | none => none
  | some (kind, subtype) =>
    if malformed kind subtype then none
    else (readQuality f parts.tail f.one).map fun quality =>
      { mediaType := mediaType
        quality := quality
        specificity := if mediaType = ['*', '/', '*'] then 0 else if subtype = ['*'] then 1 else 2
        position := position }

def parseAccept (value : List Char) : List (AcceptEntry F) :=
  (value.splitOn ',').zipIdx.filterMap fun raw => parseEntry f raw.2 raw.1

end Parser

/-- A character that `HeaderValue::to_str` lets through. -/
def isVisible (c : Char) : Bool := (32 ≤ c.toNat && c.toNat < 127) || c = '\t'

/-- Optional white space of a header. -/
def isBlank (c : Char) : Bool := c = ' ' || c = '\t'

/-- A fraction of up to three digits, in thousandths. -/
def thousandths : List Char → Option ℕ
  | [] => some 0
  | point :: digits =>
    if point = '.' ∧ digits.length ≤ 3 ∧ digits.all Char.isDigit then
      some (digits.foldl (fun n c => 10 * n + (c.toNat - 48)) 0 * 10 ^ (3 - digits.length))
    else none

/-- A `qvalue` of RFC 9110, in thousandths. -/
def qvalue : List Char → Option ℕ
  | '0' :: fraction => thousandths fraction
  | '1' :: fraction => if thousandths fraction = some 0 then some 1000 else none
  | _ => none

/-- `ofThousandths` are the `f32`s of the qvalues, in the order of the qvalues. -/
structure F32.Ordered {F : Type} (f : F32 F) (ofThousandths : ℕ → F) : Prop where
  one : f.one = ofThousandths 1000
  parse : ∀ v n, qvalue v = some n → (f.parse v).map f.clamp = some (ofThousandths n)
  order : ∀ m n, m ≤ 1000 → n ≤ 1000 →
    f.totalCmp (ofThousandths m) (ofThousandths n) = compare m n
  positive : ∀ n, n ≤ 1000 → (f.positive (ofThousandths n) = true ↔ 0 < n)

def F32.OrderPreserving {F : Type} (f : F32 F) : Prop := ∃ ofThousandths, f.Ordered ofThousandths

/-- What an item of the header is made of, without the white space around it. -/
structure Bare (s : List Char) : Prop where
  trimmed : Trimmed isWhitespace s
  noComma : ',' ∉ s
  noSemicolon : ';' ∉ s
  visible : ∀ c ∈ s, isVisible c = true

def isBare (s : List Char) : Bool :=
  s.head?.all (!isWhitespace ·) && s.getLast?.all (!isWhitespace ·) &&
    s.all fun c => c ≠ ',' && c ≠ ';' && isVisible c

theorem bare_of_isBare {s : List Char} (h : isBare s = true) : Bare s := by
  simp only [isBare, Bool.and_eq_true, Option.all_eq_true, Bool.not_eq_true', List.all_eq_true,
    decide_eq_true_eq] at h
  exact ⟨⟨h.1.1, h.1.2⟩, fun hcomma => (h.2 _ hcomma).1.1 rfl,
    fun hsemicolon => (h.2 _ hsemicolon).1.2 rfl, fun c hc => (h.2 c hc).2⟩

def Blanks (b : List Char) : Prop := ∀ c ∈ b, isBlank c = true

/-- The ways to write a range without a parameter, or with the parameter `q`. -/
inductive Spells (range : List Char) : Option (List Char) → List Char → Prop where
  | plain {a b : List Char} (ha : Blanks a) (hb : Blanks b) : Spells range none (a ++ (range ++ b))
  | weighted {a b c d g h value : List Char} {q : Char} (ha : Blanks a) (hb : Blanks b)
      (hc : Blanks c) (hq : q = 'q' ∨ q = 'Q') (hd : Blanks d) (hg : Blanks g)
      (hvalue : Bare value) (hh : Blanks h) :
      Spells range (some value)
        (a ++ (range ++ b) ++ ';' :: (c ++ (q :: d ++ '=' :: (g ++ (value ++ h)))))

variable {F : Type} {f : F32 F} {range raw : List Char} {weight : Option (List Char)}

theorem Blanks.isWhitespace {b : List Char} (hb : Blanks b) : ∀ c ∈ b, isWhitespace c = true := by
  intro c hc
  have hblank := hb c hc
  simp only [isBlank, Bool.or_eq_true, decide_eq_true_eq] at hblank
  rcases hblank with rfl | rfl <;> decide

theorem Blanks.isVisible {b : List Char} (hb : Blanks b) : ∀ c ∈ b, isVisible c = true := by
  intro c hc
  have hblank := hb c hc
  simp only [isBlank, Bool.or_eq_true, decide_eq_true_eq] at hblank
  rcases hblank with rfl | rfl <;> decide

theorem Blanks.not_mem {b : List Char} (hb : Blanks b) {c : Char} (hc : isBlank c = false) :
    c ∉ b := by
  intro hmem
  rw [hb c hmem] at hc
  cases hc

/-- What the parser reads of the parameter. -/
def qualityOf (f : F32 F) (weight : Option (List Char)) : Option F :=
  match weight with
  | none => some f.one
  | some value => (f.parse (trim isQuote value)).map f.clamp

section Weighted
variable {a b c d g h value : List Char} {q : Char}

/-- Behind the trimming of the item only the value of its parameter is trimmed. -/
theorem splitOn_weighted (hrange : Bare range) (ha : Blanks a) (hb : Blanks b) (hc : Blanks c)
    (hq : q = 'q' ∨ q = 'Q') (hd : Blanks d) (hg : Blanks g) (hvalue : Bare value)
    (hh : Blanks h) :
    (trim isWhitespace (a ++ (range ++ b) ++
      ';' :: (c ++ (q :: d ++ '=' :: (g ++ (value ++ h)))))).splitOn ';' =
        [(a ++ (range ++ b)).dropWhile isWhitespace,
          c ++ (q :: d ++ '=' :: (g ++ (value ++ h)).rdropWhile isWhitespace)] := by
  have hblank : ∀ {l : List Char}, Blanks l → ';' ∉ l := fun hl => hl.not_mem (by decide)
  have hfront : ';' ∉ (a ++ (range ++ b)).dropWhile isWhitespace := by
    intro hmem
    have hin := (List.dropWhile_suffix (l := a ++ (range ++ b)) isWhitespace).subset hmem
    simp [hblank ha, hblank hb, hrange.noSemicolon] at hin
  -- the white space in front of the value stays, what is behind it goes
  have hback : ';' ∉ c ++ (q :: d ++ '=' :: (g ++ (value ++ h)).rdropWhile isWhitespace) := by
    intro hmem
    have hsub := (List.rdropWhile_prefix isWhitespace (g ++ (value ++ h))).subset
    have hrest : ';' ∉ (g ++ (value ++ h)).rdropWhile isWhitespace := by
      intro hin
      have hin' := hsub hin
      simp [hblank hg, hblank hh, hvalue.noSemicolon] at hin'
    have hqne : ';' ≠ q := by rcases hq with rfl | rfl <;> decide
    simp [hblank hc, hblank hd, hrest, hqne] at hmem
  have hparameter : (c ++ (q :: d ++ '=' :: (g ++ (value ++ h)))).rdropWhile isWhitespace =
      c ++ (q :: d ++ '=' :: (g ++ (value ++ h)).rdropWhile isWhitespace) := by
    rw [← List.append_assoc, rdropWhile_append_cons (by decide), List.append_assoc]
  rw [trim_append_cons (by decide), hparameter, List.splitOn_append_cons_self_of_not_mem hfront,
    List.splitOn_eq_singleton hback]

theorem readQuality_weighted (hc : Blanks c) (hq : q = 'q' ∨ q = 'Q') (hd : Blanks d)
    (hg : Blanks g) (hvalue : Bare value) (hh : Blanks h) (quality : F) :
    readQuality f [c ++ (q :: d ++ '=' :: (g ++ (value ++ h)).rdropWhile isWhitespace)] quality =
      (f.parse (trim isQuote value)).map f.clamp := by
  have hqspace : isWhitespace q = false := by rcases hq with rfl | rfl <;> decide
  have hparameter : trim isWhitespace
      (c ++ (q :: d ++ '=' :: (g ++ (value ++ h)).rdropWhile isWhitespace)) =
        q :: d ++ '=' :: (g ++ (value ++ h)).rdropWhile isWhitespace := by
    rw [← List.append_assoc, trim_append_cons (by decide), List.rdropWhile_idempotent,
      List.dropWhile_append_of_pos hc.isWhitespace, List.dropWhile_cons, if_neg (by simp [hqspace])]
  have hname : '=' ∉ q :: d := by
    have hqne : '=' ≠ q := by rcases hq with rfl | rfl <;> decide
    simp [hqne, hd.not_mem (c := '=') (by decide)]
  have hlower : lowercase (trim isWhitespace (q :: d)) = ['q'] := by
    have hbare : Trimmed isWhitespace [q] := ⟨by simp [hqspace], by simp [hqspace]⟩
    have htrim := trim_pad (a := []) nofun hd.isWhitespace hbare
    rw [List.nil_append, List.singleton_append] at htrim
    rw [htrim]
    rcases hq with rfl | rfl <;> decide
  have hunquoted : unquoted ((g ++ (value ++ h)).rdropWhile isWhitespace) =
      trim isQuote value := by
    rw [unquoted, trim_rdropWhile_pad hg.isWhitespace hh.isWhitespace hvalue.trimmed]
  rw [readQuality, hparameter, splitOnce_append_cons hname]
  dsimp only
  rw [if_pos hlower, hunquoted]
  cases f.parse (trim isQuote value) <;> rfl

end Weighted

/-- The parser takes an item apart into its range and its quality. -/
theorem parseEntry_spelled (hrange : Bare range) (hraw : Spells range weight raw)
    (position : ℕ) : parseEntry f position raw =
      match splitOnce '/' (lowercase range) with
      | none => none
      | some (kind, subtype) =>
        if malformed kind subtype then none
        else (qualityOf f weight).map fun quality =>
          { mediaType := lowercase range
            quality := quality
            specificity :=
              if lowercase range = ['*', '/', '*'] then 0 else if subtype = ['*'] then 1 else 2
            position := position } := by
  cases hraw with
  | @plain a b ha hb =>
    have htrim := trim_pad ha.isWhitespace hb.isWhitespace hrange.trimmed
    have hinner := trim_pad (a := []) (b := []) nofun nofun hrange.trimmed
    rw [List.nil_append, List.append_nil] at hinner
    rw [parseEntry, htrim, List.splitOn_eq_singleton hrange.noSemicolon, List.headD_cons, hinner]
    rfl
  | @weighted a b c d g h value q ha hb hc hq hd hg hvalue hh =>
    have hmedia : trim isWhitespace ((a ++ (range ++ b)).dropWhile isWhitespace) = range := by
      rw [trim_dropWhile]
      exact trim_pad ha.isWhitespace hb.isWhitespace hrange.trimmed
    rw [parseEntry, splitOn_weighted hrange ha hb hc hq hd hg hvalue hh, List.headD_cons, hmedia,
      List.tail_cons, readQuality_weighted hc hq hd hg hvalue hh]
    rfl

/-- An item of the header, with the range it is written for. -/
structure AcceptItem where
  range : List Char
  weight : Option (List Char)
  raw : List Char
  bare : Bare range
  spelled : Spells range weight raw

/-- A header value is a list of items. -/
structure AcceptValue where
  items : List AcceptItem
  nonempty : items ≠ []

def AcceptValue.text (value : AcceptValue) : List Char :=
  [','].intercalate (value.items.map (·.raw))

/-- A range that is not ignored. Its quality is in thousandths. -/
structure MediaRange where
  kind : List Char
  subtype : List Char
  quality : ℕ
  position : ℕ

/-- `kind/subtype` in lower case: no part is empty, a wildcard is a whole part, and a
wildcard type has a wildcard subtype. -/
structure NamesMediaType (range kind subtype : List Char) : Prop where
  slash : lowercase range = kind ++ '/' :: subtype
  first : '/' ∉ kind
  kindNe : kind ≠ []
  subtypeNe : subtype ≠ []
  wildcard : kind = ['*'] → subtype = ['*']
  whole : '*' ∈ subtype → subtype = ['*']

/-- A range that has no parameter is of the quality 1. -/
def Weighs : Option (List Char) → ℕ → Prop
  | none, quality => quality = 1000
  | some value, quality => qvalue value = some quality

/-- What an item says that is not ignored. -/
structure AcceptItem.Reads (item : AcceptItem) (m : MediaRange) : Prop where
  named : NamesMediaType item.range m.kind m.subtype
  weight : Weighs item.weight m.quality

/-- Where the type is not ignored, a parameter that parses is a qvalue. -/
def AcceptItem.WellWeighted (f : F32 F) (item : AcceptItem) : Prop :=
  ∀ kind subtype value, NamesMediaType item.range kind subtype → item.weight = some value →
    f.parse (trim isQuote value) ≠ none → (qvalue value).isSome = true

/-- The ranges of a header that are not ignored, each at its place. -/
def InHeader (items : List AcceptItem) (m : MediaRange) : Prop :=
  ∃ item, items[m.position]? = some item ∧ item.Reads m

/-- A full type over `type/*` over `*/*`. -/
def MediaRange.specificity (m : MediaRange) : ℕ :=
  if m.subtype ≠ ['*'] then 2 else if m.kind ≠ ['*'] then 1 else 0

/-- What the parser makes of a range. -/
def MediaRange.entry (ofThousandths : ℕ → F) (m : MediaRange) : AcceptEntry F :=
  { mediaType := m.kind ++ '/' :: m.subtype
    quality := ofThousandths m.quality
    specificity := m.specificity
    position := m.position }

theorem namesMediaType_iff {kind subtype : List Char} : NamesMediaType range kind subtype ↔
    splitOnce '/' (lowercase range) = some (kind, subtype) ∧ malformed kind subtype = false := by
  rw [splitOnce_eq_some_iff]
  constructor
  · intro h
    refine ⟨⟨h.slash, h.first⟩, ?_⟩
    have hwildcard := h.wildcard
    have hwhole := h.whole
    simp only [malformed, h.kindNe, h.subtypeNe, decide_false, Bool.false_or, Bool.or_eq_false_iff,
      Bool.and_eq_false_imp, decide_eq_true_eq, decide_eq_false_iff_not, not_not,
      List.contains_iff_mem]
    exact ⟨hwildcard, hwhole⟩
  · rintro ⟨⟨hslash, hfirst⟩, hwell⟩
    simp only [malformed, Bool.or_eq_false_iff, Bool.and_eq_false_imp, decide_eq_true_eq,
      decide_eq_false_iff_not, not_not, List.contains_iff_mem] at hwell
    exact ⟨hslash, hfirst, hwell.1.1.1, hwell.1.1.2, hwell.1.2, hwell.2⟩

section Quality
variable {value fraction digits : List Char} {n : ℕ}

theorem foldl_digits_lt (hdigits : ∀ c ∈ digits, c.isDigit = true) (start : ℕ) :
    digits.foldl (fun n c => 10 * n + (c.toNat - 48)) start < (start + 1) * 10 ^ digits.length := by
  induction digits generalizing start with
  | nil => simp
  | cons c digits ih =>
    rw [List.forall_mem_cons] at hdigits
    have hdigit : c.toNat - 48 ≤ 9 := by
      have hc := hdigits.1
      simp only [Char.isDigit, Bool.and_eq_true, decide_eq_true_eq] at hc
      have hle : c.toNat ≤ 57 := UInt32.le_iff_toNat_le.mp hc.2
      omega
    calc (c :: digits).foldl (fun n c => 10 * n + (c.toNat - 48)) start
        < (10 * start + (c.toNat - 48) + 1) * 10 ^ digits.length := ih hdigits.2 _
      _ ≤ (start + 1) * 10 * 10 ^ digits.length := by
        apply Nat.mul_le_mul_right
        omega
      _ = (start + 1) * 10 ^ (c :: digits).length := by
        rw [List.length_cons, Nat.pow_succ', Nat.mul_assoc]

theorem thousandths_lt (h : thousandths fraction = some n) : n < 1000 := by
  cases fraction with
  | nil => cases h; omega
  | cons point digits =>
    rw [thousandths] at h
    split_ifs at h with hpoint
    cases h
    have hlt := foldl_digits_lt (List.all_eq_true.mp hpoint.2.2) 0
    have hlength := hpoint.2.1
    calc _ < 10 ^ digits.length * 10 ^ (3 - digits.length) := by
          apply Nat.mul_lt_mul_of_pos_right _ (Nat.pow_pos (by decide))
          simpa using hlt
      _ = 1000 := by rw [← Nat.pow_add, Nat.add_sub_cancel' hlength]

theorem qvalue_le (h : qvalue value = some n) : n ≤ 1000 := by
  unfold qvalue at h
  split at h
  · exact (thousandths_lt h).le
  · split_ifs at h
    cases h
    rfl
  · cases h

theorem thousandths_noQuote (h : thousandths fraction = some n) :
    ∀ c ∈ fraction, isQuote c = false := by
  cases fraction with
  | nil => nofun
  | cons point digits =>
    rw [thousandths] at h
    split_ifs at h with hpoint
    rw [List.forall_mem_cons]
    refine ⟨by rw [hpoint.1]; decide, ?_⟩
    intro c hc
    have hdigit := List.all_eq_true.mp hpoint.2.2 c hc
    rw [isQuote, decide_eq_false_iff_not]
    rintro rfl
    revert hdigit
    decide

/-- A qvalue has no quotes to take off. -/
theorem trim_qvalue (h : qvalue value = some n) : trim isQuote value = value := by
  have hquote : ∀ c ∈ value, isQuote c = false := by
    unfold qvalue at h
    split at h
    · exact List.forall_mem_cons.mpr ⟨by decide, thousandths_noQuote h⟩
    · split_ifs at h with hzero
      exact List.forall_mem_cons.mpr ⟨by decide, thousandths_noQuote hzero⟩
    · cases h
  have htrimmed : Trimmed isQuote value :=
    ⟨fun c hc => hquote c (List.mem_of_mem_head? hc),
      fun c hc => hquote c (List.mem_of_getLast? hc)⟩
  simpa using trim_pad (a := []) (b := []) nofun nofun htrimmed

/-- The parser reads the quality that is written. -/
theorem qualityOf_eq_some_iff {ofThousandths : ℕ → F} {quality : F}
    (hf : f.Ordered ofThousandths)
    (hweight : ∀ value, weight = some value → f.parse (trim isQuote value) ≠ none →
      (qvalue value).isSome = true) :
    qualityOf f weight = some quality ↔ ∃ n, Weighs weight n ∧ ofThousandths n = quality := by
  cases weight with
  | none =>
    rw [qualityOf, hf.one, Option.some_inj]
    constructor
    · intro h
      exact ⟨1000, rfl, h⟩
    · rintro ⟨n, rfl, h⟩
      exact h
  | some value =>
    rw [qualityOf]
    constructor
    · intro h
      have hparse : f.parse (trim isQuote value) ≠ none := by
        intro hnone
        rw [hnone] at h
        cases h
      obtain ⟨n, hn⟩ := Option.isSome_iff_exists.mp (hweight value rfl hparse)
      rw [trim_qvalue hn, hf.parse value n hn] at h
      exact ⟨n, hn, Option.some_inj.mp h⟩
    · rintro ⟨n, hn, rfl⟩
      rw [trim_qvalue hn]
      exact hf.parse value n hn

end Quality

theorem Spells.noComma (hrange : Bare range) (hraw : Spells range weight raw) : ',' ∉ raw := by
  have hblank : ∀ {l : List Char}, Blanks l → ',' ∉ l := fun hl => hl.not_mem (by decide)
  cases hraw with
  | plain ha hb => simp [hblank ha, hblank hb, hrange.noComma]
  | weighted ha hb hc hq hd hg hvalue hh =>
    rcases hq with rfl | rfl <;>
      simp [hblank ha, hblank hb, hblank hc, hblank hd, hblank hg, hblank hh, hrange.noComma,
        hvalue.noComma]

theorem Spells.isVisible (hrange : Bare range) (hraw : Spells range weight raw) :
    ∀ c ∈ raw, isVisible c = true := by
  cases hraw with
  | plain ha hb =>
    simp only [List.forall_mem_append]
    exact ⟨ha.isVisible, hrange.visible, hb.isVisible⟩
  | weighted ha hb hc hq hd hg hvalue hh =>
    simp only [List.forall_mem_append, List.forall_mem_cons]
    refine ⟨⟨ha.isVisible, hrange.visible, hb.isVisible⟩, by decide, hc.isVisible,
      ⟨?_, hd.isVisible⟩, by decide, hg.isVisible, hvalue.visible, hh.isVisible⟩
    rcases hq with rfl | rfl <;> decide

theorem AcceptValue.isVisible_text (value : AcceptValue) :
    value.text.all isVisible = true := by
  rw [List.all_eq_true]
  apply forall_mem_intercalate
  · simp only [List.forall_mem_singleton]
    decide
  · intro raw hraw
    obtain ⟨item, -, rfl⟩ := List.mem_map.mp hraw
    exact item.spelled.isVisible item.bare

theorem AcceptValue.splitOn_text (value : AcceptValue) :
    value.text.splitOn ',' = value.items.map AcceptItem.raw := by
  apply List.splitOn_intercalate
  · intro raw hraw
    obtain ⟨item, -, rfl⟩ := List.mem_map.mp hraw
    exact item.spelled.noComma item.bare
  · simpa using value.nonempty

section Entries
variable {ofThousandths : ℕ → F} {entry : AcceptEntry F}

theorem NamesMediaType.lowercase_eq_all_iff {kind subtype : List Char}
    (h : NamesMediaType range kind subtype) :
    lowercase range = ['*', '/', '*'] ↔ kind = ['*'] ∧ subtype = ['*'] := by
  rw [h.slash]
  constructor
  · intro hrange
    have hsplit := splitOnce_append_cons (t := subtype) h.first
    rw [hrange] at hsplit
    cases hsplit
    exact ⟨rfl, rfl⟩
  · rintro ⟨rfl, rfl⟩
    rfl

theorem specificity_eq {kind subtype : List Char} (h : NamesMediaType range kind subtype)
    (quality position : ℕ) :
    (MediaRange.mk kind subtype quality position).specificity =
      if lowercase range = ['*', '/', '*'] then 0 else if subtype = ['*'] then 1 else 2 := by
  simp only [MediaRange.specificity, h.lowercase_eq_all_iff]
  split_ifs <;> tauto

/-- The parser keeps the items that are not ignored. -/
theorem parseEntry_eq_some_iff (hf : f.Ordered ofThousandths) (item : AcceptItem)
    (hitem : item.WellWeighted f) (position : ℕ) :
    parseEntry f position item.raw = some entry ↔
      ∃ m, m.position = position ∧ item.Reads m ∧ m.entry ofThousandths = entry := by
  have hnames : ∀ m, item.Reads m →
      splitOnce '/' (lowercase item.range) = some (m.kind, m.subtype) ∧
        malformed m.kind m.subtype = false :=
    fun m hreads => namesMediaType_iff.mp hreads.named
  rw [parseEntry_spelled item.bare item.spelled]
  cases hsplit : splitOnce '/' (lowercase item.range) with
  | none =>
    constructor
    · nofun
    · rintro ⟨m, -, hreads, -⟩
      cases hsplit.symm.trans (hnames m hreads).1
  | some parts =>
    obtain ⟨kind, subtype⟩ := parts
    dsimp only
    -- a type that can be dropped is none that an item says
    by_cases hmalformed : malformed kind subtype = true
    · rw [if_pos hmalformed]
      constructor
      · nofun
      · rintro ⟨m, -, hreads, -⟩
        cases hsplit.symm.trans (hnames m hreads).1
        rw [(hnames m hreads).2] at hmalformed
        cases hmalformed
    · have hnamed : NamesMediaType item.range kind subtype :=
        namesMediaType_iff.mpr ⟨hsplit, Bool.eq_false_iff.mpr hmalformed⟩
      have hquality : ∀ quality, qualityOf f item.weight = some quality ↔ _ := fun quality =>
        qualityOf_eq_some_iff hf fun value => hitem kind subtype value hnamed
      rw [if_neg hmalformed, Option.map_eq_some_iff]
      constructor
      · rintro ⟨quality, hread, rfl⟩
        obtain ⟨n, hweight, rfl⟩ := (hquality quality).mp hread
        refine ⟨⟨kind, subtype, n, position⟩, rfl, ⟨hnamed, hweight⟩, ?_⟩
        rw [MediaRange.entry, specificity_eq hnamed, hnamed.slash]
      · rintro ⟨m, rfl, hreads, rfl⟩
        cases hsplit.symm.trans (hnames m hreads).1
        refine ⟨_, (hquality _).mpr ⟨_, hreads.weight, rfl⟩, ?_⟩
        rw [MediaRange.entry, ← specificity_eq hnamed, hnamed.slash]

/-- An item is one range. -/
theorem AcceptItem.Reads.unique {item : AcceptItem} {m m' : MediaRange} (h : item.Reads m)
    (h' : item.Reads m') (hposition : m.position = m'.position) : m = m' := by
  have hsplit := (namesMediaType_iff.mp h.named).1
  rw [(namesMediaType_iff.mp h'.named).1, Option.some_inj, Prod.mk.injEq] at hsplit
  have hquality : m.quality = m'.quality := by
    have hweight := h.weight
    have hweight' := h'.weight
    cases hitem : item.weight with
    | none =>
      rw [hitem] at hweight hweight'
      exact hweight.trans hweight'.symm
    | some value =>
      rw [hitem] at hweight hweight'
      exact Option.some_inj.mp (hweight.symm.trans hweight')
  cases m
  cases m'
  simp_all

theorem InHeader.unique {items : List AcceptItem} {m m' : MediaRange} (h : InHeader items m)
    (h' : InHeader items m') (hposition : m.position = m'.position) : m = m' := by
  obtain ⟨item, hitem, hreads⟩ := h
  obtain ⟨item', hitem', hreads'⟩ := h'
  rw [hposition, hitem', Option.some_inj] at hitem
  rw [hitem] at hreads'
  exact hreads.unique hreads' hposition

theorem InHeader.quality_le {items : List AcceptItem} {m : MediaRange} (h : InHeader items m) :
    m.quality ≤ 1000 := by
  obtain ⟨item, -, hreads⟩ := h
  have hweight := hreads.weight
  cases hitem : item.weight with
  | none =>
    rw [hitem] at hweight
    exact hweight.le
  | some value =>
    rw [hitem] at hweight
    exact qvalue_le hweight

/-- The entries of a header are the entries of its ranges. -/
theorem mem_parseAccept_iff (hf : f.Ordered ofThousandths) (values : List AcceptValue)
    (hne : values ≠ []) (hvalues : ∀ value ∈ values, ∀ item ∈ value.items, item.WellWeighted f) :
    entry ∈ parseAccept f ([','].intercalate (values.map AcceptValue.text)) ↔
      ∃ m, InHeader (values.flatMap AcceptValue.items) m ∧ m.entry ofThousandths = entry := by
  have hsplit : ([','].intercalate (values.map AcceptValue.text)).splitOn ',' =
      (values.flatMap AcceptValue.items).map AcceptItem.raw := by
    rw [splitOn_intercalate_flatMap (by simpa using hne), List.flatMap_map, List.map_flatMap]
    apply List.flatMap_congr
    intro value _
    exact value.splitOn_text
  have hitems : ∀ item ∈ values.flatMap AcceptValue.items, item.WellWeighted f := by
    intro item hitem
    obtain ⟨value, hvalue, hmem⟩ := List.mem_flatMap.mp hitem
    exact hvalues value hvalue item hmem
  rw [parseAccept, hsplit, List.mem_filterMap]
  constructor
  · rintro ⟨⟨raw, position⟩, hraw, hentry⟩
    rw [List.mem_zipIdx_iff_getElem?, List.getElem?_map, Option.map_eq_some_iff] at hraw
    obtain ⟨item, hitem, rfl⟩ := hraw
    obtain ⟨m, rfl, hreads, rfl⟩ := (parseEntry_eq_some_iff hf item
      (hitems item (List.mem_of_getElem? hitem)) position).mp hentry
    exact ⟨m, ⟨item, hitem, hreads⟩, rfl⟩
  · rintro ⟨m, ⟨item, hitem, hreads⟩, rfl⟩
    refine ⟨(item.raw, m.position), ?_, ?_⟩
    · rw [List.mem_zipIdx_iff_getElem?, List.getElem?_map, hitem]
      rfl
    · exact (parseEntry_eq_some_iff hf item
        (hitems item (List.mem_of_getElem? hitem)) m.position).mpr ⟨m, rfl, hreads, rfl⟩

end Entries

end Shellshare
