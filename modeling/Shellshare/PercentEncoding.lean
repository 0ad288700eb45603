import Mathlib.Data.List.Basic
import Mathlib.Data.UInt

/-! Percent-encoding of bytes: decoding undoes it, and does not see it where it
leaves the percent sign and the hexadecimal digits alone. -/
namespace PercentEncoding

def percent : UInt8 := 37

def hexValue (c : UInt8) : Option UInt8 :=
  if 48 ≤ c ∧ c ≤ 57 then some (c - 48)
  else if 65 ≤ c ∧ c ≤ 70 then some (c - 55)
  else if 97 ≤ c ∧ c ≤ 102 then some (c - 87)
  else none

/-- The upper case digit of a value below 16. -/
def hexDigit (n : UInt8) : UInt8 := if n < 10 then 48 + n else 55 + n

/-- The byte that an escape stands for. -/
def escape (b h l : UInt8) : Option UInt8 :=
  if b = percent then (hexValue h).bind fun x => (hexValue l).map fun y => x * 16 + y else none

/-- What is no escape stands for itself. -/
def percentDecode : List UInt8 → List UInt8
  | [] => []
  | [b] => [b]
  | [b, h] => [b, h]
  | b :: h :: l :: rest =>
    match escape b h l with
    | some c => c :: percentDecode rest
    | none => b :: percentDecode (h :: l :: rest)

def encodeByte (set : UInt8 → Bool) (b : UInt8) : List UInt8 :=
  if set b then [percent, hexDigit (b / 16), hexDigit (b % 16)] else [b]

/-- Escape the bytes of a set. -/
def percentEncode (set : UInt8 → Bool) (bytes : List UInt8) : List UInt8 :=
  bytes.flatMap (encodeByte set)

/-- The set leaves escapes as they are. -/
structure SparesEscapes (set : UInt8 → Bool) : Prop where
  percent : set percent = false
  digit : ∀ b, (hexValue b).isSome = true → set b = false

/-- Somewhere in the bytes there is an escape. -/
def hasEscape : List UInt8 → Bool
  | b :: h :: l :: rest => (escape b h l).isSome || hasEscape (h :: l :: rest)
  | _ => false

def startsWithDigits : List UInt8 → Bool
  | h :: l :: _ => (hexValue h).isSome && (hexValue l).isSome
  | _ => false

variable {set : UInt8 → Bool} {b : UInt8} {t : List UInt8}

@[simp] theorem percentEncode_nil : percentEncode set [] = [] := rfl

theorem percentEncode_cons_of_mem (h : set b = true) :
    percentEncode set (b :: t) =
      percent :: hexDigit (b / 16) :: hexDigit (b % 16) :: percentEncode set t := by
  simp [percentEncode, encodeByte, h]

theorem percentEncode_cons_of_not_mem (h : set b = false) :
    percentEncode set (b :: t) = b :: percentEncode set t := by
  simp [percentEncode, encodeByte, h]

/-- Bytes outside the set are left as they are. -/
theorem percentEncode_eq_self (h : ∀ b ∈ t, set b = false) : percentEncode set t = t := by
  induction t with
  | nil => rfl
  | cons b t ih =>
    have hb : set b = false := h b List.mem_cons_self
    have ht := ih fun c hc => h c (List.mem_cons_of_mem b hc)
    rw [percentEncode_cons_of_not_mem hb, ht]

/-- A byte outside the set stays. -/
theorem mem_percentEncode_of_not_mem (hb : set b = false) (ht : b ∈ t) :
    b ∈ percentEncode set t := by
  apply List.mem_flatMap.mpr
  refine ⟨b, ht, ?_⟩
  simp [encodeByte, hb]

theorem percentEncode_eq_nil_iff : percentEncode set t = [] ↔ t = [] := by
  cases t with
  | nil => simp
  | cons b t =>
    cases hb : set b with
    | true => simp [percentEncode_cons_of_mem hb]
    | false => simp [percentEncode_cons_of_not_mem hb]

theorem hexValue_hexDigit {n : UInt8} (hn : n < 16) : hexValue (hexDigit n) = some n := by
  have hall : ∀ k : Fin 16, hexValue (hexDigit (UInt8.ofNat k)) = some (UInt8.ofNat k) := by decide
  have hlt : n.toNat < 16 := hn
  have hn' : n = UInt8.ofNat n.toNat := by simp
  rw [hn']
  exact hall ⟨n.toNat, hlt⟩

theorem high_lt (b : UInt8) : b / 16 < 16 := by
  rw [UInt8.lt_iff_toNat_lt, UInt8.toNat_div]
  have hb := b.toNat_lt
  simp only [UInt8.reduceToNat]
  omega

theorem low_lt (b : UInt8) : b % 16 < 16 := by
  rw [UInt8.lt_iff_toNat_lt, UInt8.toNat_mod]
  simp only [UInt8.reduceToNat]
  omega

theorem escape_digits (b : UInt8) :
    escape percent (hexDigit (b / 16)) (hexDigit (b % 16)) = some b := by
  have hsum : b / 16 * 16 + b % 16 = b := by
    rw [← UInt8.toNat_inj]
    have hb := b.toNat_lt
    simp only [UInt8.toNat_add, UInt8.toNat_mul, UInt8.toNat_div, UInt8.toNat_mod,
      UInt8.reduceToNat]
    omega
  rw [escape, if_pos rfl, hexValue_hexDigit (high_lt b), hexValue_hexDigit (low_lt b),
    Option.bind_some, Option.map_some, hsum]

/-- An encoding has no byte of the set. -/
theorem not_mem_of_mem_percentEncode (hset : SparesEscapes set) (hb : b ∈ percentEncode set t) :
    set b = false := by
  have hdigit : ∀ n, n < 16 → set (hexDigit n) = false := by
    intro n hn
    apply hset.digit
    rw [hexValue_hexDigit hn, Option.isSome_some]
  obtain ⟨c, -, hbc⟩ := List.mem_flatMap.mp hb
  rw [encodeByte] at hbc
  split_ifs at hbc with hc
  · simp only [List.mem_cons, List.not_mem_nil, or_false] at hbc
    rcases hbc with rfl | rfl | rfl
    · exact hset.percent
    · exact hdigit _ (high_lt c)
    · exact hdigit _ (low_lt c)
  · rw [List.mem_singleton] at hbc
    simpa [hbc] using hc

/-- Encoding again changes nothing. -/
theorem percentEncode_percentEncode (hset : SparesEscapes set) (t : List UInt8) :
    percentEncode set (percentEncode set t) = percentEncode set t := by
  apply percentEncode_eq_self
  intro b hb
  exact not_mem_of_mem_percentEncode hset hb

theorem percentDecode_escape (b : UInt8) (t : List UInt8) :
    percentDecode (percent :: hexDigit (b / 16) :: hexDigit (b % 16) :: t) =
      b :: percentDecode t := by
  rw [percentDecode, escape_digits]

/-- A byte that no escape starts with. -/
theorem percentDecode_cons (h : b = percent → startsWithDigits t = false) :
    percentDecode (b :: t) = b :: percentDecode t := by
  match t with
  | [] => rfl
  | [_] => rfl
  | c :: d :: rest =>
    have hescape : escape b c d = none := by
      rw [escape]
      split_ifs with hb
      · have hdigits := h hb
        rw [startsWithDigits] at hdigits
        cases hc : hexValue c <;> cases hd : hexValue d <;> simp_all
      · rfl
    rw [percentDecode, hescape]

theorem startsWithDigits_percentEncode (hset : SparesEscapes set) :
    startsWithDigits (percentEncode set t) = startsWithDigits t := by
  have hpercent : hexValue percent = none := by decide
  -- what is escaped is no digit, and neither is the percent sign in its place
  have hmem : ∀ c, set c = true → (hexValue c).isSome = false := by
    intro c hc
    cases hdigit : (hexValue c).isSome with
    | false => rfl
    | true =>
      have hspared := hset.digit c hdigit
      rw [hc] at hspared
      cases hspared
  match t with
  | [] => rfl
  | [c] =>
    cases hc : set c with
    | true =>
      rw [percentEncode_cons_of_mem hc]
      simp [startsWithDigits, hpercent]
    | false =>
      rw [percentEncode_cons_of_not_mem hc]
      rfl
  | c :: d :: rest =>
    cases hc : set c with
    | true =>
      rw [percentEncode_cons_of_mem hc]
      simp [startsWithDigits, hpercent, hmem c hc]
    | false =>
      rw [percentEncode_cons_of_not_mem hc]
      cases hd : set d with
      | true =>
        rw [percentEncode_cons_of_mem hd]
        simp [startsWithDigits, hpercent, hmem d hd]
      | false =>
        rw [percentEncode_cons_of_not_mem hd]
        rfl

/-- Decoding does not see an encoding that spares escapes. -/
theorem percentDecode_percentEncode (hset : SparesEscapes set) (bytes : List UInt8) :
    percentDecode (percentEncode set bytes) = percentDecode bytes := by
  have hstep : ∀ b t, (b = percent → startsWithDigits t = false) →
      percentDecode (percentEncode set (b :: t)) = b :: percentDecode (percentEncode set t) := by
    intro b t hb
    cases hmem : set b with
    | true => rw [percentEncode_cons_of_mem hmem, percentDecode_escape]
    | false =>
      rw [percentEncode_cons_of_not_mem hmem]
      apply percentDecode_cons
      intro hpercent
      rw [startsWithDigits_percentEncode hset]
      exact hb hpercent
  fun_induction percentDecode bytes with
  | case1 => rfl
  | case2 b => rw [hstep b [] fun _ => rfl, percentEncode_nil, percentDecode]
  | case3 b h =>
    rw [hstep b [h] fun _ => rfl, hstep h [] fun _ => rfl, percentEncode_nil, percentDecode]
  | case4 b h l rest c hescape ih =>
    -- an escape, none of whose bytes is in the set
    have hparts : b = percent ∧ (hexValue h).isSome = true ∧ (hexValue l).isSome = true := by
      rw [escape] at hescape
      split_ifs at hescape with hb
      cases hh : hexValue h <;> cases hl : hexValue l <;> simp_all
    obtain ⟨rfl, hh, hl⟩ := hparts
    rw [percentEncode_cons_of_not_mem hset.percent,
      percentEncode_cons_of_not_mem (hset.digit h hh),
      percentEncode_cons_of_not_mem (hset.digit l hl), percentDecode, hescape]
    exact congrArg (c :: ·) ih
  | case5 b h l rest hescape ih =>
    have hb : b = percent → startsWithDigits (h :: l :: rest) = false := by
      rintro rfl
      rw [escape, if_pos rfl] at hescape
      cases hh : hexValue h <;> cases hl : hexValue l <;> simp_all [startsWithDigits]
    rw [hstep b (h :: l :: rest) hb, ih]

/-- Bytes without a digit in front take no part in an escape before them. -/
theorem percentDecode_append (s : List UInt8)
    (ht : ∀ b ∈ t.head?, hexValue b = none) :
    percentDecode (s ++ t) = percentDecode s ++ percentDecode t := by
  have hfirst : startsWithDigits t = false := by
    rcases t with - | ⟨b, - | ⟨c, rest⟩⟩
    · rfl
    · rfl
    · simp [startsWithDigits, ht b rfl]
  have hsecond : ∀ h, startsWithDigits (h :: t) = false := by
    intro h
    cases t with
    | nil => rfl
    | cons b rest => simp [startsWithDigits, ht b rfl]
  fun_induction percentDecode s with
  | case1 => rfl
  | case2 b => exact percentDecode_cons fun _ => hfirst
  | case3 b h =>
    have hb : percentDecode (b :: h :: t) = b :: percentDecode (h :: t) :=
      percentDecode_cons fun _ => hsecond h
    have hh : percentDecode (h :: t) = h :: percentDecode t := percentDecode_cons fun _ => hfirst
    rw [List.cons_append, List.cons_append, List.nil_append, hb, hh]
    rfl
  | case4 b h l rest c hescape ih =>
    rw [List.cons_append, List.cons_append, List.cons_append, percentDecode, hescape]
    exact congrArg (c :: ·) ih
  | case5 b h l rest hescape ih =>
    rw [List.cons_append, List.cons_append, List.cons_append, percentDecode, hescape]
    exact congrArg (b :: ·) ih

/-- Decoding takes two bytes off for each escape. -/
theorem length_percentDecode_le (bytes : List UInt8) :
    (percentDecode bytes).length ≤ bytes.length := by
  fun_induction percentDecode bytes with
  | case1 => exact le_rfl
  | case2 b => exact le_rfl
  | case3 b h => exact le_rfl
  | case4 b h l rest c hescape ih =>
    simp only [List.length_cons]
    omega
  | case5 b h l rest hescape ih =>
    rw [List.length_cons, List.length_cons]
    exact Nat.succ_le_succ ih

/-- Decoding leaves exactly the bytes without an escape as they are. -/
theorem percentDecode_eq_self_iff (bytes : List UInt8) :
    percentDecode bytes = bytes ↔ hasEscape bytes = false := by
  fun_induction percentDecode bytes with
  | case1 => simp [hasEscape]
  | case2 b => simp [hasEscape]
  | case3 b h => simp [hasEscape]
  | case4 b h l rest c hescape ih =>
    have hle := length_percentDecode_le rest
    apply iff_of_false
    · intro heq
      have hlen := congrArg List.length heq
      simp only [List.length_cons] at hlen
      omega
    · simp [hasEscape, hescape]
  | case5 b h l rest hescape ih =>
    rw [hasEscape, hescape, List.cons.injEq, ih]
    simp

end PercentEncoding
