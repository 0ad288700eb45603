import Shellshare.ShareLink

/-! Parsing a room name that was parsed before: what the first parse leaves for the
second one to take off. -/
namespace Shellshare
open PercentEncoding

/-- The name without its leading slashes and one `r/`. -/
def stripped (raw : String) : String :=
  let name := raw.toList.dropWhile (· = '/')
  String.ofList ((name.dropPrefix? ['r', '/']).getD name)

/-- The bytes start with something that `RoomId::parse` strips. -/
def startsLikePath (bytes : Bytes) : Bool :=
  [slash].isPrefixOf bytes || (utf8 "r/").isPrefixOf bytes

def isUtf8 (bytes : Bytes) : Bool := (decodeUtf8 bytes).isSome

/-- Stripping and one decoding leave a name without a slash or an `r/` in front and
without an escape; an escape that decodes to no UTF-8 may stay. -/
def decodesAtOnce (raw : String) : Bool :=
  let name := utf8 (stripped raw)
  let decoded := percentDecode name
  if isUtf8 decoded then
    !startsLikePath decoded && (!hasEscape decoded || !isUtf8 (percentDecode decoded))
  else !startsLikePath name

variable {s t raw : String} {b : UInt8} {c : Char}

theorem parse_eq (raw : String) : RoomId.parse raw =
    ⟨(decodeUtf8 (percentDecode (utf8 (stripped raw)))).getD (stripped raw)⟩ := rfl

theorem toByteArray_utf8 (s : String) : (utf8 s).toByteArray = s.toByteArray := by
  rw [← String.utf8Encode_toList]
  rfl

theorem decodeUtf8_eq_some_iff {bytes : Bytes} : decodeUtf8 bytes = some s ↔ utf8 s = bytes := by
  unfold decodeUtf8 String.fromUTF8?
  constructor
  · intro h
    split_ifs at h with hvalid
    obtain rfl := Option.some.inj h
    apply List.toByteArray_inj.mp
    exact toByteArray_utf8 _
  · rintro rfl
    have hvalid : (utf8 s).toByteArray.IsValidUTF8 := by
      rw [toByteArray_utf8]
      exact s.isValidUTF8
    rw [dif_pos hvalid]
    apply congrArg some
    apply String.toByteArray_inj.mp
    exact toByteArray_utf8 s

theorem utf8_inj : utf8 s = utf8 t ↔ s = t := by
  rw [← List.toByteArray_inj, toByteArray_utf8, toByteArray_utf8, String.toByteArray_inj]

/-- An ASCII byte in front is the first character. -/
theorem cons_prefix_utf8 (hb : b < 128) (hc : String.utf8EncodeChar c = [b]) (p : Bytes)
    (chars : List Char) :
    b :: p <+: chars.flatMap String.utf8EncodeChar ↔
      ∃ rest, chars = c :: rest ∧ p <+: rest.flatMap String.utf8EncodeChar := by
  cases chars with
  | nil => simp
  | cons d rest =>
    by_cases hd : d = c
    · subst hd
      simp [List.flatMap_cons, hc, List.cons_prefix_cons]
    · have hval : c.val.toNat = b.toNat := by
        rw [← mem_utf8EncodeChar_ascii hb, hc]
        exact List.mem_singleton_self b
      apply iff_of_false
      · intro hfront
        have hmem : b ∈ String.utf8EncodeChar d := by
          rw [List.flatMap_cons] at hfront
          cases hcode : String.utf8EncodeChar d with
          | nil =>
            have hpos := String.utf8EncodeChar_ne_nil (c := d)
            contradiction
          | cons e es =>
            rw [hcode, List.cons_append, List.cons_prefix_cons] at hfront
            rw [hfront.1]
            exact List.mem_cons_self
        rw [mem_utf8EncodeChar_ascii hb, ← hval, UInt32.toNat_inj, ← Char.ext_iff] at hmem
        exact hd hmem
      · rintro ⟨rest', hcons, -⟩
        rw [List.cons.injEq] at hcons
        exact hd hcons.1

theorem startsLikePath_iff : startsLikePath (utf8 t) = true ↔
    (∃ rest, t.toList = '/' :: rest) ∨ ∃ rest, t.toList = 'r' :: '/' :: rest := by
  have hslash := cons_prefix_utf8 (b := slash) (c := '/') (by decide) (by decide) []
  have hr := cons_prefix_utf8 (b := 114) (c := 'r') (by decide) (by decide) [slash]
  have hutf8 : utf8 "r/" = [114, slash] := by decide
  rw [startsLikePath, Bool.or_eq_true, List.isPrefixOf_iff_prefix, List.isPrefixOf_iff_prefix,
    hutf8]
  apply or_congr
  · rw [utf8, hslash]
    simp
  · rw [utf8, hr]
    simp [hslash]

/-- What `strip_prefix` does to the characters of a name. -/
theorem dropPrefix_route (chars : List Char) :
    (∃ rest, chars = 'r' :: '/' :: rest ∧ (chars.dropPrefix? ['r', '/']).getD chars = rest) ∨
      (∀ rest, chars ≠ 'r' :: '/' :: rest) ∧
        (chars.dropPrefix? ['r', '/']).getD chars = chars := by
  by_cases hr : ∃ rest, chars = 'r' :: '/' :: rest
  · obtain ⟨rest, rfl⟩ := hr
    left
    exact ⟨rest, rfl, by simp [List.dropPrefix?]⟩
  · right
    rw [not_exists] at hr
    refine ⟨hr, ?_⟩
    have hnone : chars.dropPrefix? ['r', '/'] = none := by
      rw [Option.eq_none_iff_forall_ne_some]
      intro rest hsome
      obtain ⟨p, happend, hp⟩ := List.dropPrefix?_eq_some_iff.mp hsome
      have hpeq : p = ['r', '/'] := by simpa using hp
      rw [hpeq] at happend
      exact hr rest happend
    rw [hnone, Option.getD_none]

theorem dropPrefix_route_suffix (chars : List Char) :
    (chars.dropPrefix? ['r', '/']).getD chars <:+ chars := by
  rcases dropPrefix_route chars with ⟨rest, rfl, hrest⟩ | ⟨-, hrest⟩
  · rw [hrest]
    exact ⟨['r', '/'], rfl⟩
  · rw [hrest]

theorem stripped_suffix (t : String) : (stripped t).toList <:+ t.toList := by
  rw [stripped, String.toList_ofList]
  exact (dropPrefix_route_suffix _).trans (List.dropWhile_suffix _)

/-- What is stripped takes up bytes. -/
theorem length_utf8_stripped_lt (h : stripped t ≠ t) :
    (utf8 (stripped t)).length < (utf8 t).length := by
  obtain ⟨front, hfront⟩ := stripped_suffix t
  cases front with
  | nil =>
    rw [List.nil_append, String.toList_inj] at hfront
    exact absurd hfront h
  | cons c front =>
    have hc := List.length_pos_iff.mpr (String.utf8EncodeChar_ne_nil (c := c))
    rw [utf8, utf8, ← hfront, List.flatMap_append, List.flatMap_cons, List.length_append,
      List.length_append]
    omega

/-- Stripping leaves exactly the names that do not start like a path. -/
theorem stripped_eq_self_iff : stripped t = t ↔ startsLikePath (utf8 t) = false := by
  rw [← Bool.not_eq_true, startsLikePath_iff, stripped, ← String.toList_inj, String.toList_ofList]
  by_cases hslash : ∃ rest, t.toList = '/' :: rest
  · obtain ⟨rest, hrest⟩ := hslash
    apply iff_of_false
    · -- the name got shorter
      intro heq
      have hlen := congrArg List.length heq
      have hroute := (dropPrefix_route_suffix (rest.dropWhile (· = '/'))).length_le
      have hdrop := (List.dropWhile_suffix (l := rest) (· = '/')).length_le
      rw [hrest, List.dropWhile_cons_of_pos (by simp), List.length_cons] at hlen
      omega
    · rw [not_not]
      exact Or.inl ⟨rest, hrest⟩
  · have hdrop : t.toList.dropWhile (· = '/') = t.toList := by
      cases hchars : t.toList with
      | nil => rfl
      | cons c rest =>
        apply List.dropWhile_cons_of_neg
        intro hc
        exact hslash ⟨rest, by rw [hchars, of_decide_eq_true hc]⟩
    rw [hdrop]
    rcases dropPrefix_route t.toList with ⟨rest, hchars, hrest⟩ | ⟨hroute, hrest⟩
    · apply iff_of_false
      · intro heq
        have hlen := congrArg List.length heq
        rw [hrest, hchars, List.length_cons, List.length_cons] at hlen
        omega
      · rw [not_not]
        exact Or.inr ⟨rest, hchars⟩
    · apply iff_of_true hrest
      rintro (h | ⟨rest, hchars⟩)
      · exact hslash h
      · exact hroute rest hchars

/-- Decoding leaves a name as it is if there is no escape in it, or no way to decode it. -/
theorem decoded_eq_self_iff : (decodeUtf8 (percentDecode (utf8 t))).getD t = t ↔
    hasEscape (utf8 t) = false ∨ isUtf8 (percentDecode (utf8 t)) = false := by
  rw [isUtf8]
  cases hdecode : decodeUtf8 (percentDecode (utf8 t)) with
  | none => simp
  | some s =>
    have hbytes := decodeUtf8_eq_some_iff.mp hdecode
    calc (some s).getD t = t ↔ percentDecode (utf8 t) = utf8 t := by
          rw [Option.getD_some, ← hbytes, utf8_inj]
      _ ↔ hasEscape (utf8 t) = false := percentDecode_eq_self_iff (utf8 t)
      _ ↔ _ := by simp

/-- A name is canonical exactly when there is nothing to strip and nothing to decode. -/
theorem parse_eq_self_iff : RoomId.parse t = ⟨t⟩ ↔ startsLikePath (utf8 t) = false ∧
    (hasEscape (utf8 t) = false ∨ isUtf8 (percentDecode (utf8 t)) = false) := by
  rw [parse_eq, RoomId.mk.injEq, ← stripped_eq_self_iff, ← decoded_eq_self_iff]
  constructor
  · intro heq
    have hstripped : stripped t = t := by
      by_contra hne
      have hlt := length_utf8_stripped_lt hne
      cases hdecode : decodeUtf8 (percentDecode (utf8 (stripped t))) with
      | none =>
        rw [hdecode, Option.getD_none] at heq
        exact hne heq
      | some s =>
        -- decoding adds no bytes to what stripping left
        have hbytes := decodeUtf8_eq_some_iff.mp hdecode
        have hle := length_percentDecode_le (utf8 (stripped t))
        rw [hdecode, Option.getD_some] at heq
        rw [← hbytes, heq] at hle
        omega
    rw [hstripped] at heq
    exact ⟨hstripped, heq⟩
  · rintro ⟨hstripped, hdecoded⟩
    rw [hstripped, hdecoded]

/-- Parsing what a parse has returned changes nothing exactly for the names whose escapes
hide nothing that a parse takes off. -/
theorem parse_parse_iff (raw : String) :
    RoomId.parse (RoomId.parse raw).name = RoomId.parse raw ↔ decodesAtOnce raw = true := by
  have heta : ∀ room : RoomId, (⟨room.name⟩ : RoomId) = room := by
    intro room
    rfl
  have hfix := parse_eq_self_iff (t := (RoomId.parse raw).name)
  rw [heta] at hfix
  rw [hfix, decodesAtOnce]
  cases hdecode : decodeUtf8 (percentDecode (utf8 (stripped raw))) with
  | none =>
    have hparse : (RoomId.parse raw).name = stripped raw := by
      rw [parse_eq, hdecode, Option.getD_none]
    have hinvalid : isUtf8 (percentDecode (utf8 (stripped raw))) = false := by
      rw [isUtf8, hdecode, Option.isSome_none]
    rw [hparse]
    simp [hinvalid]
  | some s =>
    have hparse : (RoomId.parse raw).name = s := by
      rw [parse_eq, hdecode, Option.getD_some]
    have hbytes := decodeUtf8_eq_some_iff.mp hdecode
    have hvalid : isUtf8 (utf8 s) = true := by
      rw [isUtf8, hbytes, hdecode, Option.isSome_some]
    rw [hparse, ← hbytes]
    simp [hvalid]

/-- The second parse takes the second prefix off. -/
theorem parse_parse_ne : RoomId.parse (RoomId.parse "r/r/x").name ≠ RoomId.parse "r/r/x" := by
  decide +kernel

-- nor does one parse take off both layers of escapes
example : RoomId.parse "a%2541" = ⟨"a%41"⟩ ∧ RoomId.parse "a%41" = ⟨"aA"⟩ := by decide +kernel

end Shellshare
