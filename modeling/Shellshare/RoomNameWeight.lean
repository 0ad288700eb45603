import Shellshare.BrowserUrl
import Shellshare.Utf8Decoding

/-! The weight of a room's name. A name that is parsed from a path gets lighter where
backslashes of the path become slashes, and where dot segments are resolved. -/
namespace Shellshare
open DotSegments PercentEncoding Utf8Validation

variable {s t z u v : Bytes} {b : UInt8} {n : ℕ} {segs : List Bytes}

/-- The length of a name, in which a backslash counts for more than a slash. -/
def weight (s : Bytes) : ℕ := s.length + s.count reverseSolidus

theorem weight_append (s t : Bytes) : weight (s ++ t) = weight s + weight t := by
  rw [weight, weight, weight, List.length_append, List.count_append]
  omega

theorem weight_cons_le (b : UInt8) (s : Bytes) :
    weight s + 1 ≤ weight (b :: s) ∧ weight (b :: s) ≤ weight s + 2 := by
  simp only [weight, List.length_cons, List.count_cons]
  split_ifs <;> omega

theorem weight_percentDecode_le (s : Bytes) : weight (percentDecode s) ≤ weight s := by
  fun_induction percentDecode s with
  | case1 => exact le_rfl
  | case2 b => exact le_rfl
  | case3 b h => exact le_rfl
  | case4 b h l rest c hescape ih =>
    have hc := (weight_cons_le c (percentDecode rest)).2
    have hb := (weight_cons_le b (h :: l :: rest)).1
    have hh := (weight_cons_le h (l :: rest)).1
    have hl := (weight_cons_le l rest).1
    omega
  | case5 b h l rest hescape ih =>
    have hcons : ∀ s, weight (b :: s) = weight [b] + weight s := fun s => weight_append [b] s
    rw [hcons, hcons (h :: l :: rest)]
    exact Nat.add_le_add_left ih _

/-! ### Paths by their segments -/

/-- A path whose segments are spelled some way. -/
def pathOf (g : Bytes → Bytes) (segs : List Bytes) : Bytes := segs.flatMap fun s => slash :: g s

theorem percentDecode_slash_cons (t : Bytes) :
    percentDecode (slash :: t) = slash :: percentDecode t :=
  percentDecode_cons fun h => absurd h (by decide)

/-- A slash takes no part in an escape. -/
theorem percentDecode_append_slash (s t : Bytes) :
    percentDecode (s ++ slash :: t) = percentDecode s ++ slash :: percentDecode t := by
  rw [percentDecode_append s (by rintro b ⟨⟩; decide), percentDecode_slash_cons]

theorem percentDecode_pathOf (g : Bytes → Bytes) (segs : List Bytes) :
    percentDecode (pathOf g segs) = pathOf (fun s => percentDecode (g s)) segs := by
  induction segs with
  | nil => rfl
  | cons s segs ih =>
    have hrest : ∀ b ∈ (pathOf g segs).head?, hexValue b = none := by
      cases segs with
      | nil => exact fun b hb => by cases hb
      | cons t segs =>
        rintro b ⟨⟩
        decide
    rw [pathOf, List.flatMap_cons, List.cons_append, percentDecode_slash_cons, ← pathOf,
      percentDecode_append _ hrest, ih]
    rfl

theorem weight_pathOf (g : Bytes → Bytes) (segs : List Bytes) :
    weight (pathOf g segs) = (segs.map fun s => weight (g s) + 1).sum := by
  induction segs with
  | nil => rfl
  | cons s segs ih =>
    have hslash : weight (slash :: g s) = weight (g s) + 1 := by
      rw [← List.singleton_append, weight_append, Nat.add_comm]
      rfl
    rw [pathOf, List.flatMap_cons, weight_append, ← pathOf, ih, hslash, List.map_cons,
      List.sum_cons]

theorem valid_slash_cons (t : Bytes) : fromUtf8 (slash :: t) = none ↔ fromUtf8 t = none :=
  fromUtf8_append_of_valid (s := [slash]) (by decide +kernel) t

theorem valid_pathOf_iff (g : Bytes → Bytes) (segs : List Bytes) :
    fromUtf8 (pathOf g segs) = none ↔ ∀ s ∈ segs, fromUtf8 (g s) = none := by
  induction segs with
  | nil => exact iff_of_true (by simp [pathOf, fromUtf8]) (List.forall_mem_nil _)
  | cons s segs ih =>
    rw [pathOf, List.flatMap_cons, List.cons_append, valid_slash_cons, ← pathOf,
      List.forall_mem_cons, ← ih]
    constructor
    · intro h
      have hs : fromUtf8 (g s) = none := by
        cases segs with
        | nil => rwa [pathOf, List.flatMap_nil, List.append_nil] at h
        | cons t segs => exact fromUtf8_left (b := slash) (by decide) h
      exact ⟨hs, (fromUtf8_append_of_valid hs _).mp h⟩
    · rintro ⟨hs, hsegs⟩
      exact (fromUtf8_append_of_valid hs _).mpr hsegs

/-! ### What a parse takes off -/

/-- Slashes, and one `r/` behind them. -/
def IsLead (z : Bytes) : Prop :=
  ∃ k, z = List.replicate k slash ∨ z = List.replicate k slash ++ utf8 "r/"

def stripBytes (s : Bytes) : Bytes :=
  let s := s.dropWhile (· = slash)
  (s.dropPrefix? (utf8 "r/")).getD s

/-- What a parse of a room's name does to its bytes. -/
def parseBytes (s : Bytes) : Bytes :=
  let s := stripBytes s
  if fromUtf8 (percentDecode s) = none then percentDecode s else s

theorem stripBytes_slashes (k : ℕ) (t : Bytes) :
    stripBytes (List.replicate k slash ++ t) = stripBytes t := by
  have hall : ∀ b ∈ List.replicate k slash, decide (b = slash) = true := fun b hb =>
    decide_eq_true (List.eq_of_mem_replicate hb)
  rw [stripBytes, List.dropWhile_append_of_pos hall, stripBytes]

theorem stripBytes_route (t : Bytes) : stripBytes (utf8 "r/" ++ t) = t := by
  have hkept : (utf8 "r/" ++ t).dropWhile (· = slash) = utf8 "r/" ++ t :=
    List.dropWhile_cons_of_neg (by decide)
  rw [stripBytes, hkept, List.dropPrefix?_append_of_beq t BEq.rfl, Option.getD_some]

theorem exists_lead (s : Bytes) : ∃ z, IsLead z ∧ s = z ++ stripBytes s := by
  have hslashes : s.takeWhile (· = slash) =
      List.replicate (s.takeWhile (· = slash)).length slash := by
    apply List.eq_replicate_of_mem
    intro b hb
    simpa using List.mem_takeWhile_imp hb
  have hs := List.takeWhile_append_dropWhile (p := (· = slash)) (l := s)
  rw [stripBytes]
  cases hdrop : (s.dropWhile (· = slash)).dropPrefix? (utf8 "r/") with
  | none => exact ⟨_, ⟨_, Or.inl hslashes⟩, hs.symm⟩
  | some rest =>
    obtain ⟨route, hrest, hroute⟩ := List.dropPrefix?_eq_some_iff.mp hdrop
    refine ⟨s.takeWhile (· = slash) ++ utf8 "r/", ⟨_, Or.inr (by rw [← hslashes])⟩, ?_⟩
    rw [Option.getD_some, List.append_assoc, ← eq_of_beq hroute, ← hrest, hs]

/-- Slashes and the letter of a route, which every decoding leaves as they are. -/
def IsCut (z : Bytes) : Prop := ∀ b ∈ z, b = slash ∨ b = 114

theorem IsLead.isCut (hz : IsLead z) : IsCut z := by
  obtain ⟨k, rfl | rfl⟩ := hz
  · exact fun b hb => Or.inl (List.eq_of_mem_replicate hb)
  · intro b hb
    rcases List.mem_append.mp hb with hb | hb
    · exact Or.inl (List.eq_of_mem_replicate hb)
    · rcases List.mem_cons.mp hb with rfl | hb
      · exact Or.inr rfl
      · exact Or.inl (List.mem_singleton.mp hb)

/-- A parse takes off all that it can. -/
theorem stripBytes_lead (hz : IsLead z) (t : Bytes) :
    ∃ y, IsCut y ∧ t = y ++ stripBytes (z ++ t) := by
  obtain ⟨k, rfl | rfl⟩ := hz
  · obtain ⟨y, hy, ht⟩ := exists_lead t
    exact ⟨y, hy.isCut, by rw [stripBytes_slashes]; exact ht⟩
  · refine ⟨[], List.forall_mem_nil _, ?_⟩
    rw [List.append_assoc, stripBytes_slashes, stripBytes_route, List.nil_append]

theorem percentDecode_cut (hz : IsCut z) (t : Bytes) :
    percentDecode (z ++ t) = z ++ percentDecode t := by
  induction z with
  | nil => rfl
  | cons b z ih =>
    obtain ⟨hb, hz⟩ := List.forall_mem_cons.mp hz
    rw [List.cons_append, percentDecode_cons, ih hz, List.cons_append]
    rintro rfl
    exact absurd hb (by decide)

theorem valid_cut_iff (hz : IsCut z) (t : Bytes) :
    fromUtf8 (z ++ t) = none ↔ fromUtf8 t = none := by
  induction z with
  | nil => rfl
  | cons b z ih =>
    obtain ⟨hb, hz⟩ := List.forall_mem_cons.mp hz
    have hsingle : fromUtf8 [b] = none := by
      rcases hb with rfl | rfl <;> decide +kernel
    rw [List.cons_append, ← List.singleton_append, fromUtf8_append_of_valid hsingle, ih hz]

theorem parseBytes_cases (s : Bytes) :
    (fromUtf8 (percentDecode (stripBytes s)) = none ∧
      parseBytes s = percentDecode (stripBytes s)) ∨
    (¬fromUtf8 (percentDecode (stripBytes s)) = none ∧ parseBytes s = stripBytes s) := by
  rw [parseBytes]
  by_cases h : fromUtf8 (percentDecode (stripBytes s)) = none
  · exact Or.inl ⟨h, if_pos h⟩
  · exact Or.inr ⟨h, if_neg h⟩

/-! ### Backslashes -/

/-- The second text has slashes where the first has so many backslashes more. -/
inductive Faded : ℕ → Bytes → Bytes → Prop where
  | same (s : Bytes) : Faded 0 s s
  | fade {n : ℕ} {s t : Bytes} (front : Bytes) (h : Faded n s t) :
    Faded (n + 1) (front ++ reverseSolidus :: s) (front ++ slash :: t)

theorem Faded.cons (b : UInt8) (h : Faded n s t) : Faded n (b :: s) (b :: t) := by
  cases h with
  | same => exact .same _
  | fade front h => exact .fade (b :: front) h

theorem faded_map_toSlash (s : Bytes) : Faded (s.count reverseSolidus) s (s.map toSlash) := by
  induction s with
  | nil => exact .same _
  | cons b s ih =>
    rw [List.map_cons, toSlash]
    split_ifs with hb
    · subst hb
      rw [List.count_cons_self]
      exact .fade [] ih
    · rw [List.count_cons_of_ne hb]
      exact ih.cons b

theorem Faded.weight_eq (h : Faded n s t) : weight s = weight t + n := by
  have hback : weight [reverseSolidus] = 2 := by decide
  have hslash : weight [slash] = 1 := by decide
  induction h with
  | same s => rfl
  | fade front h ih =>
    rw [weight_append, weight_append, ← List.singleton_append, weight_append, hback,
      ← List.singleton_append, weight_append, hslash]
    omega

theorem Faded.percentDecode (h : Faded n s t) :
    Faded n (percentDecode s) (percentDecode t) := by
  induction h with
  | same s => exact .same _
  | fade front h ih =>
    have hcons : ∀ t, PercentEncoding.percentDecode (reverseSolidus :: t) =
        reverseSolidus :: PercentEncoding.percentDecode t :=
      fun t => percentDecode_cons fun h => absurd h (by decide)
    rw [percentDecode_append_slash, percentDecode_append _ (by rintro b ⟨⟩; decide), hcons]
    exact .fade _ ih

theorem Faded.valid_iff (h : Faded n s t) : fromUtf8 s = none ↔ fromUtf8 t = none := by
  have hcons : ∀ b : UInt8, b = slash ∨ b = reverseSolidus → ∀ front t,
      fromUtf8 (front ++ b :: t) = none ↔ fromUtf8 front = none ∧ fromUtf8 t = none := by
    intro b hb front t
    have hsingle : fromUtf8 [b] = none := by
      rcases hb with rfl | rfl <;> decide +kernel
    have hrest : fromUtf8 (b :: t) = none ↔ fromUtf8 t = none :=
      fromUtf8_append_of_valid hsingle t
    constructor
    · intro h
      have hfront : fromUtf8 front = none :=
        fromUtf8_left (by rcases hb with rfl | rfl <;> decide) h
      exact ⟨hfront, hrest.mp ((fromUtf8_append_of_valid hfront _).mp h)⟩
    · rintro ⟨hfront, ht⟩
      exact (fromUtf8_append_of_valid hfront _).mpr (hrest.mpr ht)
  induction h with
  | same s => rfl
  | fade front h ih =>
    rw [hcons _ (Or.inr rfl), hcons _ (Or.inl rfl)]
    exact and_congr_right fun _ => ih

/-- What stands in front without a backslash is the same on both sides. -/
theorem Faded.of_append (h : Faded n (z ++ u) t) (hz : reverseSolidus ∉ z) :
    ∃ v, t = z ++ v ∧ Faded n u v := by
  generalize hs : z ++ u = s at h
  cases h with
  | same => exact ⟨u, hs.symm, .same u⟩
  | @fade n s t front h =>
    rcases List.append_eq_append_iff.mp hs with ⟨a, rfl, rfl⟩ | ⟨a, rfl, ha⟩
    · exact ⟨a ++ slash :: t, List.append_assoc _ _ _, .fade a h⟩
    · cases a with
      | nil =>
        rw [List.nil_append] at ha
        rw [List.append_nil]
        exact ⟨slash :: t, rfl, ha ▸ .fade [] h⟩
      | cons b a =>
        obtain rfl := (List.cons.inj ha).1
        exact absurd (List.mem_append_right _ List.mem_cons_self) hz

theorem Faded.weight_parse (h : Faded n s t) :
    weight (parseBytes t) + n ≤ weight (parseBytes s) := by
  obtain ⟨z, hz, hs⟩ := exists_lead s
  have hnone : reverseSolidus ∉ z := fun h => absurd (hz.isCut _ h) (by decide)
  rw [hs] at h
  obtain ⟨v, rfl, huv⟩ := h.of_append hnone
  obtain ⟨y, hy, hv⟩ := stripBytes_lead hz v
  -- one of the two names is decoded once more exactly if the other is
  have hdecoded := huv.percentDecode
  have hsame : fromUtf8 (PercentEncoding.percentDecode (stripBytes s)) = none ↔
      fromUtf8 (PercentEncoding.percentDecode (stripBytes (z ++ v))) = none := by
    rw [hdecoded.valid_iff, hv, percentDecode_cut hy, valid_cut_iff hy, ← hv]
  have hwhole := hdecoded.weight_eq
  have hraw := huv.weight_eq
  rw [hv, percentDecode_cut hy, weight_append] at hwhole
  rw [hv, weight_append] at hraw
  rcases parseBytes_cases s with ⟨hs, heq⟩ | ⟨hs, heq⟩
  · rcases parseBytes_cases (z ++ v) with ⟨-, heq'⟩ | ⟨hv', -⟩
    · rw [heq, heq']
      omega
    · exact absurd (hsame.mp hs) hv'
  · rcases parseBytes_cases (z ++ v) with ⟨hv', -⟩ | ⟨-, heq'⟩
    · exact absurd (hsame.mpr hv') hs
    · rw [heq, heq']
      omega

/-! ### Dot segments -/

/-- A lead ends at a slash, and so does whatever it starts with that ends at one. -/
theorem IsLead.of_isPrefix (hz : IsLead z) {p : Bytes} (hp : p ++ [slash] <+: z) :
    IsLead (p ++ [slash]) := by
  have hslashes : ∀ k, p ++ [slash] <+: List.replicate k slash → IsLead (p ++ [slash]) := by
    intro k hpre
    refine ⟨(p ++ [slash]).length, Or.inl (List.eq_replicate_of_mem fun b hb => ?_)⟩
    exact List.eq_of_mem_replicate (hpre.subset hb)
  obtain ⟨k, rfl | rfl⟩ := hz
  · exact hslashes k hp
  · have hroute : List.replicate k slash ++ utf8 "r/" =
        List.replicate k slash ++ [114] ++ [slash] := by
      rw [List.append_assoc]
      rfl
    rw [hroute] at hp
    rcases List.prefix_concat_iff.mp hp with heq | hp
    · rw [heq, ← hroute]
      exact ⟨k, Or.inr rfl⟩
    · rcases List.prefix_concat_iff.mp hp with heq | hp
      · exact absurd (List.append_inj_right' heq rfl) (by decide)
      · exact hslashes k hp

def dot : UInt8 := 46

/-- Nothing, or something that ends at a slash. -/
def Closed (f : Bytes) : Prop := f = [] ∨ ∃ q, f = q ++ [slash]

/-- What ends at a slash is decoded by itself. -/
theorem Closed.decode_append {f : Bytes} (hf : Closed f) (t : Bytes) :
    percentDecode (f ++ t) = percentDecode f ++ percentDecode t := by
  rcases hf with rfl | ⟨q, rfl⟩
  · rfl
  · rw [List.append_assoc, List.singleton_append, percentDecode_append_slash,
      percentDecode_append_slash, List.append_assoc]
    rfl

theorem Closed.valid {f : Bytes} (hf : Closed f) (h : fromUtf8 (percentDecode f ++ t) = none) :
    fromUtf8 (percentDecode f) = none := by
  rcases hf with rfl | ⟨q, rfl⟩
  · simp [percentDecode, fromUtf8]
  · rw [percentDecode_append_slash, List.append_assoc] at h
    rw [percentDecode_append_slash]
    have hq := fromUtf8_left (b := slash) (by decide) h
    exact (fromUtf8_append_of_valid hq _).mpr (by decide +kernel)

/-- Two paths that share a start up to a slash, a dot behind it in the first: what a parse
leaves of the second one's start is a part of what it leaves of the first one's. -/
theorem exists_shared {p p' x y : Bytes} (hshared : p' ++ [slash] <+: p ++ [slash])
    (hx : x.head? = some dot) :
    ∃ f f' c, stripBytes (p ++ [slash] ++ x) = f ++ x ∧ f' <+: f ∧
      Closed f' ∧ IsCut c ∧
      f' ++ y = c ++ stripBytes (p' ++ [slash] ++ y) := by
  obtain ⟨z, hz, hall⟩ := exists_lead (p ++ [slash] ++ x)
  obtain ⟨f, hf, hstrip⟩ : ∃ f, p ++ [slash] = z ++ f ∧
      stripBytes (p ++ [slash] ++ x) = f ++ x := by
    rcases List.append_eq_append_iff.mp hall with ⟨a, rfl, hx'⟩ | ⟨a, hp, hx'⟩
    · -- a lead has no dot
      cases a with
      | nil => exact ⟨[], by simp, hx'.symm⟩
      | cons b a =>
        rw [hx', List.cons_append, List.head?_cons] at hx
        have hb := hz.isCut b (List.mem_append_right _ List.mem_cons_self)
        rw [Option.some.inj hx] at hb
        exact absurd hb (by decide)
    · exact ⟨a, hp, hx'⟩
  rw [hf] at hshared
  rcases List.prefix_or_prefix_of_prefix hshared (List.prefix_append z f) with hp' | hp'
  · -- the shared start is a part of the lead
    obtain ⟨c, hc, hy⟩ := stripBytes_lead (hz.of_isPrefix hp') y
    exact ⟨f, [], c, hstrip, List.nil_prefix, Or.inl rfl, hc, hy⟩
  · obtain ⟨f', hf'⟩ := hp'
    obtain ⟨c, hc, hy⟩ := stripBytes_lead hz (f' ++ y)
    rw [← hf'] at hshared
    refine ⟨f, f', c, hstrip, (List.prefix_append_right_inj z).mp hshared, ?_, hc, ?_⟩
    · rcases List.eq_nil_or_concat' f' with rfl | ⟨q, b, rfl⟩
      · exact Or.inl rfl
      · rw [← List.append_assoc] at hf'
        have hb := List.append_inj_right' hf' rfl
        exact Or.inr ⟨q, by rw [hb]⟩
    · rw [← hf', List.append_assoc]
      exact hy

/-- The end of the second path is lighter: then so is its name. -/
theorem weight_parse_lt_of_shared {s t x y f f' c : Bytes} (hs : stripBytes s = f ++ x)
    (ht : f' ++ y = c ++ stripBytes t) (hpre : f' <+: f) (hclosed : Closed f') (hc : IsCut c)
    (hx : x.head? = some dot) (hraw : weight y < weight x)
    (hdecoded : weight (percentDecode y) < weight (percentDecode x))
    (hvalid : fromUtf8 (percentDecode x) = none → fromUtf8 (percentDecode y) = none) :
    weight (parseBytes t) < weight (parseBytes s) := by
  obtain ⟨more, rfl⟩ := hpre
  obtain ⟨x, rfl⟩ : ∃ x', x = dot :: x' := by
    cases x with
    | nil => cases hx
    | cons b x => exact ⟨x, by rw [Option.some.inj hx]⟩
  have hdot : percentDecode (dot :: x) = dot :: percentDecode x :=
    percentDecode_cons fun h => absurd h (by decide)
  have hleft : percentDecode (stripBytes s) =
      percentDecode f' ++ (percentDecode more ++ percentDecode (dot :: x)) := by
    rw [hs, percentDecode_append _ (by rintro b ⟨⟩; decide), hclosed.decode_append,
      List.append_assoc]
  have hright : c ++ percentDecode (stripBytes t) = percentDecode f' ++ percentDecode y := by
    rw [← percentDecode_cut hc, ← ht, hclosed.decode_append]
  rcases parseBytes_cases s with ⟨hok, heq⟩ | ⟨-, heq⟩
  · -- where the first name is decoded, so is the second
    have hok' : fromUtf8 (percentDecode (stripBytes t)) = none := by
      rw [hleft] at hok
      have hstart := hclosed.valid hok
      have hrest := (fromUtf8_append_of_valid hstart _).mp hok
      rw [hdot] at hrest
      have hmore := fromUtf8_left (b := dot) (by decide) hrest
      have hend := (fromUtf8_append_of_valid hmore _).mp hrest
      rw [← valid_cut_iff hc, hright, fromUtf8_append_of_valid hstart]
      exact hvalid (by rw [hdot]; exact hend)
    have hlen := congrArg weight hright
    rw [weight_append, weight_append] at hlen
    rcases parseBytes_cases t with ⟨-, heq'⟩ | ⟨hnot, -⟩
    · rw [heq, heq', hleft, weight_append, weight_append]
      omega
    · exact absurd hok' hnot
  · -- where it is not, decoding the second one makes that only lighter
    have hlen := congrArg weight ht
    have hle := weight_percentDecode_le (stripBytes t)
    rw [weight_append, weight_append] at hlen
    rw [heq, hs, weight_append, weight_append]
    rcases parseBytes_cases t with ⟨-, heq'⟩ | ⟨-, heq'⟩
    · rw [heq']
      omega
    · rw [heq']
      omega

theorem pathOf_append (g : Bytes → Bytes) (segs more : List Bytes) :
    pathOf g (segs ++ more) = pathOf g segs ++ pathOf g more := List.flatMap_append

/-- A dot segment spells one or two dots, however it is escaped. -/
theorem percentDecode_of_dotKind {d : Bytes} (hd : dotKind d ≠ .plain) :
    percentDecode d = utf8 ".." ∨ percentDecode d = utf8 "." := by
  unfold dotKind at hd
  split_ifs at hd with hup hhere
  · exact Or.inl hup
  · exact Or.inr hhere
  · exact absurd rfl hd

/-- The segments from a dot segment on, replaced by lighter ones: so is the room's name. -/
theorem weight_parse_lt {kept front tail rest : List Bytes} {d : Bytes} (hkept : kept <+: front)
    (hd : dotKind d ≠ .plain) (hne : tail ≠ []) (hmem : ∀ s ∈ tail, s ∈ rest ∨ s = [])
    (hweight : ∀ m : Bytes → ℕ, (∀ s, dotKind s ≠ .plain → m [] < m s) →
      (tail.map m).sum < ((d :: rest).map m).sum) :
    weight (parseBytes (pathOf percentDecode (kept ++ tail))) <
      weight (parseBytes (pathOf percentDecode (front ++ d :: rest))) := by
  have hdots : ∀ s, dotKind s ≠ .plain →
      (percentDecode s).head? = some dot ∧ percentDecode (percentDecode s) = percentDecode s ∧
        0 < weight (percentDecode s) := by
    intro s hs
    rcases percentDecode_of_dotKind hs with h | h <;> rw [h] <;> decide
  obtain ⟨y, hy⟩ : ∃ y, pathOf percentDecode tail = slash :: y := by
    cases tail with
    | nil => exact absurd rfl hne
    | cons s tail => exact ⟨_, rfl⟩
  have hx : pathOf percentDecode (d :: rest) =
      slash :: (percentDecode d ++ pathOf percentDecode rest) := rfl
  have hfirst : (percentDecode d ++ pathOf percentDecode rest).head? = some dot := by
    rw [List.head?_append, (hdots d hd).1]
    rfl
  have hshared :
      pathOf percentDecode kept ++ [slash] <+: pathOf percentDecode front ++ [slash] := by
    obtain ⟨more, rfl⟩ := hkept
    cases more with
    | nil => rw [List.append_nil]
    | cons s more =>
      rw [pathOf_append, List.append_assoc, List.prefix_append_right_inj]
      exact ⟨percentDecode s ++ pathOf percentDecode more ++ [slash], rfl⟩
  obtain ⟨f, f', c, hs, hpre, hclosed, hc, ht⟩ := exists_shared (y := y) hshared hfirst
  have hcons : ∀ t, weight (slash :: t) = weight t + 1 := fun t => by
    rw [← List.singleton_append, weight_append, Nat.add_comm]
    rfl
  have hdecoded := percentDecode_pathOf percentDecode tail
  rw [hy, percentDecode_slash_cons] at hdecoded
  have hdecoded' := percentDecode_pathOf percentDecode (d :: rest)
  rw [hx, percentDecode_slash_cons] at hdecoded'
  rw [pathOf_append, pathOf_append, hy, hx]
  rw [List.append_assoc, List.singleton_append] at hs ht
  -- once for the names as they are, and once for the names decoded
  apply weight_parse_lt_of_shared hs ht hpre hclosed hc hfirst
  · have hlt := hweight (fun s => weight (percentDecode s) + 1) fun s hs =>
      Nat.add_lt_add_right (hdots s hs).2.2 1
    rw [← weight_pathOf, ← weight_pathOf, hy, hx, hcons, hcons] at hlt
    omega
  · have hlt := hweight (fun s => weight (percentDecode (percentDecode s)) + 1) fun s hs => by
      rw [(hdots s hs).2.1]
      exact Nat.add_lt_add_right (hdots s hs).2.2 1
    rw [← weight_pathOf, ← weight_pathOf, ← hdecoded, ← hdecoded', hcons, hcons] at hlt
    omega
  · intro hvalid
    rw [← valid_slash_cons, hdecoded', valid_pathOf_iff] at hvalid
    rw [← valid_slash_cons, hdecoded, valid_pathOf_iff]
    intro s hs
    rcases hmem s hs with hs | rfl
    · exact hvalid s (List.mem_cons_of_mem d hs)
    · simp [percentDecode, fromUtf8]

end Shellshare
