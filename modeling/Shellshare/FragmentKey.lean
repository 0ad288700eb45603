import Shellshare.ShareLink

/-! The key in a link's fragment: what the viewer page and the agent's reader make of it,
each in its own way. -/
namespace Shellshare
open PercentEncoding

/-- `[0-9a-fA-F]` -/
def isHexDigit (c : UInt8) : Bool := (hexValue c).isSome

/-- `parseInt` of two digits. -/
def parseByte (h l : UInt8) : UInt8 := (hexValue h).getD 0 * 16 + (hexValue l).getD 0

/-- The digits two by two. -/
def bytesOfPairs : Bytes → Bytes
  | h :: l :: rest => parseByte h l :: bytesOfPairs rest
  | _ => []

def hexToBytes (hexString : Bytes) : Option Bytes :=
  if hexString.length % 2 ≠ 0 || !hexString.all isHexDigit then none
  else some (bytesOfPairs hexString)

/-- The key that the page imports, if it is secure: over plain http a browser gives a page no
`window.crypto.subtle`, unless it is from localhost. Without a key it decrypts nothing. -/
def pageKey (secure : Bool) (url : Bytes) : Option Bytes :=
  let keyHex := keyHex url
  if keyHex = [] || !secure then none else (hexToBytes keyHex).filter (·.length = 32)

/-- `Buffer.from(hex, 'hex')`, which stops at the first pair that is no byte. -/
def bufferFromHex : Bytes → Bytes
  | h :: l :: rest => if isHexDigit h && isHexDigit l then parseByte h l :: bufferFromHex rest else []
  | _ => []

/-- `new URL(url).hash.slice(1)` -/
def agentHex (url : Bytes) : Bytes :=
  let fragment := percentEncode fragmentSet (urlFragment (cleaned url))
  (if fragment = [] then [] else hash :: fragment).drop 1

/-- `/^[0-9a-f]{64}$/i.test(hex) ? Buffer.from(hex, 'hex') : null` -/
def agentKey (url : Bytes) : Option Bytes :=
  let hex := agentHex url
  if hex.length = 64 && hex.all isHexDigit then some (bufferFromHex hex) else none

def asciiLower (c : UInt8) : UInt8 := if 65 ≤ c ∧ c ≤ 90 then c + 32 else c

variable {s : Bytes} {c h l x y : UInt8}

theorem hexLower_of_hexValue (hc : hexValue c = some x) : x < 16 ∧ hexLower x = asciiLower c := by
  have hall : ∀ n : Fin 256, ∀ v ∈ hexValue (UInt8.ofNat n),
      v < 16 ∧ hexLower v = asciiLower (UInt8.ofNat n) := by decide +kernel
  have hc' : c = UInt8.ofNat c.toNat := by simp
  rw [hc'] at hc ⊢
  exact hall ⟨c.toNat, c.toNat_lt⟩ x hc

theorem hexValue_hexLower (hx : x < 16) : hexValue (hexLower x) = some x ∧
    asciiLower (hexLower x) = hexLower x := by
  have hall : ∀ n : Fin 16, hexValue (hexLower (UInt8.ofNat n)) = some (UInt8.ofNat n) ∧
      asciiLower (hexLower (UInt8.ofNat n)) = hexLower (UInt8.ofNat n) := by decide
  have hlt : x.toNat < 16 := hx
  have hx' : x = UInt8.ofNat x.toNat := by simp
  rw [hx']
  exact hall ⟨x.toNat, hlt⟩

theorem nibbles (hx : x < 16) (hy : y < 16) :
    (x * 16 + y) / 16 = x ∧ (x * 16 + y) % 16 = y := by
  have hx' : x.toNat < 16 := hx
  have hy' : y.toNat < 16 := hy
  constructor <;> rw [← UInt8.toNat_inj] <;>
    simp only [UInt8.toNat_add, UInt8.toNat_mul, UInt8.toNat_div, UInt8.toNat_mod,
      UInt8.reduceToNat] <;> omega

theorem hexEncode_cons (b : UInt8) (bytes : Bytes) :
    hexEncode (b :: bytes) = hexLower (b / 16) :: hexLower (b % 16) :: hexEncode bytes := rfl

theorem length_hexEncode (bytes : Bytes) : (hexEncode bytes).length = 2 * bytes.length := by
  induction bytes with
  | nil => rfl
  | cons b bytes ih =>
    rw [hexEncode_cons, List.length_cons, List.length_cons, List.length_cons, ih]
    omega

/-- Digits that are read as bytes are the encoding of those bytes, but for case. -/
theorem hexEncode_bytesOfPairs (heven : s.length % 2 = 0) (hs : s.all isHexDigit = true) :
    hexEncode (bytesOfPairs s) = s.map asciiLower := by
  fun_induction bytesOfPairs s with
  | case1 h l rest ih =>
    simp only [List.all_cons, Bool.and_eq_true] at hs
    obtain ⟨x, hx⟩ := Option.isSome_iff_exists.mp hs.1
    obtain ⟨y, hy⟩ := Option.isSome_iff_exists.mp hs.2.1
    obtain ⟨hxlt, hxlower⟩ := hexLower_of_hexValue hx
    obtain ⟨hylt, hylower⟩ := hexLower_of_hexValue hy
    obtain ⟨hdiv, hmod⟩ := nibbles hxlt hylt
    have hrest := ih (by simp only [List.length_cons] at heven; omega) hs.2.2
    have hbyte : parseByte h l = x * 16 + y := by rw [parseByte, hx, hy]; rfl
    rw [hexEncode_cons, hbyte, hdiv, hmod, hxlower, hylower, hrest]
    rfl
  | case2 s hshort =>
    match s, hshort with
    | [], _ => rfl
    | [_], _ => simp at heven
    | h :: l :: rest, hshort => exact absurd rfl (hshort h l rest)

theorem hexLower_inj (hx : x < 16) (hy : y < 16) (h : hexLower x = hexLower y) : x = y := by
  have hval := (hexValue_hexLower hx).1
  rw [h, (hexValue_hexLower hy).1] at hval
  exact (Option.some.inj hval).symm

theorem hexEncode_injective : Function.Injective hexEncode := by
  intro bytes bytes' h
  induction bytes generalizing bytes' with
  | nil =>
    cases bytes' with
    | nil => rfl
    | cons b' bytes' => cases h
  | cons b bytes ih =>
    cases bytes' with
    | nil => cases h
    | cons b' bytes' =>
      rw [hexEncode_cons, hexEncode_cons] at h
      obtain ⟨hhigh, h⟩ := List.cons.inj h
      obtain ⟨hlow, h⟩ := List.cons.inj h
      have hdiv := congrArg UInt8.toNat (hexLower_inj (high_lt b) (high_lt b') hhigh)
      have hmod := congrArg UInt8.toNat (hexLower_inj (low_lt b) (low_lt b') hlow)
      simp only [UInt8.toNat_div, UInt8.toNat_mod, UInt8.reduceToNat] at hdiv hmod
      have hb : b = b' := by
        rw [← UInt8.toNat_inj]
        omega
      rw [hb, ih h]

/-- Any case of the encoding of some bytes is read as those bytes. -/
theorem bytesOfPairs_of_lower {bytes : Bytes} (hs : s.all isHexDigit = true)
    (hlower : s.map asciiLower = hexEncode bytes) : bytesOfPairs s = bytes := by
  have heven : s.length % 2 = 0 := by
    have hlen := congrArg List.length hlower
    rw [List.length_map, length_hexEncode] at hlen
    omega
  apply hexEncode_injective
  rw [hexEncode_bytesOfPairs heven hs, hlower]

theorem bufferFromHex_eq (hs : s.all isHexDigit = true) : bufferFromHex s = bytesOfPairs s := by
  fun_induction bytesOfPairs s with
  | case1 h l rest ih =>
    simp only [List.all_cons, Bool.and_eq_true] at hs
    rw [bufferFromHex, hs.1, hs.2.1, ih hs.2.2]
    rfl
  | case2 s hshort =>
    match s, hshort with
    | [], _ => rfl
    | [_], _ => rfl
    | h :: l :: rest, hshort => exact absurd rfl (hshort h l rest)

/-- Any case of the encoding of some bytes has digits only. -/
theorem isHexDigit_of_mem_hexEncode {bytes : Bytes} {d : UInt8} (hd : d ∈ hexEncode bytes) :
    isHexDigit d = true := by
  obtain ⟨b, -, hdb⟩ := List.mem_flatMap.mp hd
  simp only [List.mem_cons, List.not_mem_nil, or_false] at hdb
  rcases hdb with rfl | rfl
  · rw [isHexDigit, (hexValue_hexLower (high_lt b)).1, Option.isSome_some]
  · rw [isHexDigit, (hexValue_hexLower (low_lt b)).1, Option.isSome_some]

theorem all_isHexDigit_of_lower {bytes : Bytes} (hlower : s.map asciiLower = hexEncode bytes) :
    s.all isHexDigit = true := by
  have hlowered : ∀ n : Fin 256, isHexDigit (asciiLower (UInt8.ofNat n)) = true →
      isHexDigit (UInt8.ofNat n) = true := by decide +kernel
  rw [List.all_eq_true]
  intro c hc
  have hc' : c = UInt8.ofNat c.toNat := by simp
  have hd : isHexDigit (asciiLower c) = true :=
    isHexDigit_of_mem_hexEncode (hlower ▸ List.mem_map_of_mem hc)
  rw [hc'] at hd ⊢
  exact hlowered ⟨c.toNat, c.toNat_lt⟩ hd

theorem agentHex_eq (url : Bytes) : agentHex url = keyHex url := by
  rw [agentHex, keyHex_eq]
  split_ifs with hnil
  · rw [hnil]
    rfl
  · rfl

/-- The keys of a secure page are the 64 digit encodings, in any case. -/
theorem pageKey_eq_some_iff (url key : Bytes) : pageKey true url = some key ↔
    key.length = 32 ∧ (keyHex url).map asciiLower = hexEncode key := by
  rw [pageKey]
  generalize keyHex url = s
  constructor
  · intro h
    split_ifs at h
    obtain ⟨hread, hlen⟩ := Option.filter_eq_some_iff.mp h
    rw [hexToBytes] at hread
    split_ifs at hread with hbad
    simp only [Bool.or_eq_true, Bool.not_eq_true', decide_eq_true_eq, not_or, ne_eq, not_not,
      Bool.not_eq_false] at hbad
    obtain rfl := Option.some.inj hread
    exact ⟨of_decide_eq_true hlen, (hexEncode_bytesOfPairs hbad.1 hbad.2).symm⟩
  · rintro ⟨hlen, hlower⟩
    have hall := all_isHexDigit_of_lower hlower
    have hcount := congrArg List.length hlower
    rw [List.length_map, length_hexEncode] at hcount
    have hne : s ≠ [] := by
      rintro rfl
      rw [List.length_nil] at hcount
      omega
    have hread : hexToBytes s = some key := by
      rw [hexToBytes, hall, bytesOfPairs_of_lower hall hlower]
      simp [hcount]
    rw [hread]
    simp [hne, hlen]

/-- A link hands its key to the page exactly when it is a key, and the name has no `#`. -/
theorem pageKey_shareUrl_iff (room : String) (key : Bytes) :
    pageKey true (shareUrl room key) = some key ↔ key.length = 32 ∧ '#' ∉ room.toList := by
  rw [pageKey_eq_some_iff]
  apply and_congr_right
  intro _
  constructor
  · intro hlower hhash
    have hdigits := List.all_eq_true.mp (all_isHexDigit_of_lower hlower) hash
      (hash_mem_keyHex_shareUrl hhash key)
    exact absurd hdigits (by decide)
  · intro hroom
    rw [(keyHex_shareUrl_iff room key).mpr hroom]
    -- the digits are written in lower case
    apply (List.map_congr_left _).trans (List.map_id _)
    intro c hc
    obtain ⟨b, -, hcb⟩ := List.mem_flatMap.mp hc
    simp only [List.mem_cons, List.not_mem_nil, or_false] at hcb
    rcases hcb with rfl | rfl
    · exact (hexValue_hexLower (high_lt b)).2
    · exact (hexValue_hexLower (low_lt b)).2

theorem agentKey_eq_pageKey (url : Bytes) : agentKey url = pageKey true url := by
  rw [agentKey, agentHex_eq, pageKey, Bool.not_true, Bool.or_false]
  generalize keyHex url = s
  by_cases hall : s.all isHexDigit = true
  · rw [hall, bufferFromHex_eq hall, Bool.and_true]
    by_cases heven : s.length % 2 = 0
    · -- 64 digits are 32 bytes
      have hcount := congrArg List.length (hexEncode_bytesOfPairs heven hall)
      rw [length_hexEncode, List.length_map] at hcount
      by_cases hlen : s.length = 64
      · have hne : s ≠ [] := by
          rintro rfl
          cases hlen
        have h32 : (bytesOfPairs s).length = 32 := by omega
        rw [hexToBytes, hall]
        simp [hlen, hne, Option.filter, h32]
      · have hread : hexToBytes s = some (bytesOfPairs s) := by
          rw [hexToBytes, hall]
          simp [heven]
        have hrefused : (some (bytesOfPairs s)).filter (·.length = 32) = none := by
          apply Option.filter_eq_none_iff.mpr
          intro bytes hbytes
          rw [← Option.some.inj hbytes, decide_eq_true_eq]
          omega
        rw [decide_eq_false hlen, if_neg Bool.false_ne_true, hread, hrefused, ite_self]
    · have hlen : s.length ≠ 64 := by omega
      rw [decide_eq_false hlen, if_neg Bool.false_ne_true, hexToBytes, hall]
      simp [heven]
  · rw [Bool.not_eq_true] at hall
    rw [hall, Bool.and_false, if_neg Bool.false_ne_true, hexToBytes, hall]
    simp

/-- A page without a secure context takes no key out of any link. -/
theorem pageKey_insecure (url : Bytes) : pageKey false url = none := by
  rw [pageKey, Bool.not_false, Bool.or_true, if_pos rfl]

/-- A secure page and the agent's reader take the same key out of every link, and only out of
a fragment that encodes 32 bytes, in any case. The link of a broadcast hands them its key
exactly when it is one and the name has no `#`. A page that is not secure takes none. -/
theorem readers_take_same_key : (∀ url, agentKey url = pageKey true url) ∧
    (∀ url, pageKey false url = none) ∧
    (∀ url key, pageKey true url = some key ↔
      key.length = 32 ∧ (keyHex url).map asciiLower = hexEncode key) ∧
    ∀ room key, pageKey true (shareUrl room key) = some key ↔
      key.length = 32 ∧ '#' ∉ room.toList :=
  ⟨agentKey_eq_pageKey, pageKey_insecure, pageKey_eq_some_iff, pageKey_shareUrl_iff⟩

end Shellshare
