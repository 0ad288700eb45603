import Shellshare.Utf8Validation

/-! Decoding a stream that is UTF-8 only in parts. It is cut into characters and
malformed sequences, and may end inside a character: that unfinished end is all that
the decoding of what follows depends on. -/
namespace Utf8Validation

/-- A character or a malformed sequence, by its bytes. -/
inductive Piece where
  | char (bytes : List UInt8)
  | invalid (bytes : List UInt8)
deriving DecidableEq

def Piece.bytes : Piece → List UInt8
  | .char bytes | .invalid bytes => bytes

/-- What is left of a piece when malformed sequences are skipped. -/
def Piece.text : Piece → List UInt8
  | .char bytes => bytes
  | .invalid _ => []

/-- The pieces of a stream, and the character it ends inside of. -/
def pieces : List UInt8 → List Piece × List UInt8
  | [] => ([], [])
  | a :: rest =>
    match scanChar a rest with
    | .char len =>
      let later := pieces (rest.drop (len - 1))
      (.char (a :: rest.take (len - 1)) :: later.1, later.2)
    | .invalid len =>
      let later := pieces (rest.drop (len - 1))
      (.invalid (a :: rest.take (len - 1)) :: later.1, later.2)
    | .incomplete => ([], a :: rest)
termination_by bytes => bytes.length
decreasing_by
  all_goals
    rw [List.length_drop, List.length_cons]
    omega

/-- The stream with its malformed sequences skipped and its unfinished end left out. -/
def validText (s : List UInt8) : List UInt8 := (pieces s).1.flatMap Piece.text

/-- The unfinished end of a stream. -/
def unfinished (s : List UInt8) : List UInt8 := (pieces s).2

section Scan
variable {a : UInt8} {rest more : List UInt8} {owed seen len : ℕ}

theorem scanRest_char (h : scanRest owed seen rest = .char len) :
    len = seen + owed ∧ owed ≤ rest.length := by
  induction rest generalizing owed seen with
  | nil =>
    cases owed with
    | zero =>
      cases h
      exact ⟨rfl, le_rfl⟩
    | succ owed => cases h
  | cons c rest ih =>
    cases owed with
    | zero =>
      cases h
      exact ⟨rfl, Nat.zero_le _⟩
    | succ owed =>
      rw [scanRest] at h
      split_ifs at h
      have hrest := ih h
      rw [List.length_cons]
      omega

theorem scanRest_invalid (h : scanRest owed seen rest = .invalid len) :
    seen ≤ len ∧ len < seen + rest.length := by
  induction rest generalizing owed seen with
  | nil => cases owed <;> cases h
  | cons c rest ih =>
    cases owed with
    | zero => cases h
    | succ owed =>
      rw [scanRest] at h
      rw [List.length_cons]
      split_ifs at h
      · have hrest := ih h
        omega
      · cases h
        omega

theorem scanRest_incomplete (h : scanRest owed seen rest = .incomplete) :
    rest.length < owed := by
  induction rest generalizing owed seen with
  | nil =>
    cases owed with
    | zero => cases h
    | succ owed => exact Nat.succ_pos owed
  | cons c rest ih =>
    cases owed with
    | zero => cases h
    | succ owed =>
      rw [scanRest] at h
      split_ifs at h
      exact Nat.succ_lt_succ (ih h)

theorem scanRest_append (h : scanRest owed seen rest ≠ .incomplete) :
    scanRest owed seen (rest ++ more) = scanRest owed seen rest := by
  induction rest generalizing owed seen with
  | nil =>
    cases owed with
    | zero => cases more <;> rfl
    | succ owed => exact absurd rfl h
  | cons c rest ih =>
    cases owed with
    | zero => rfl
    | succ owed =>
      rw [scanRest] at h ⊢
      rw [List.cons_append, scanRest]
      split_ifs at h ⊢
      · exact ih h
      · rfl

theorem scanRest_interrupted {b : UInt8} (more : List UInt8)
    (h : scanRest owed seen rest = .incomplete) (hb : isContinuation b = false) :
    scanRest owed seen (rest ++ b :: more) = .invalid (seen + rest.length) := by
  induction rest generalizing owed seen with
  | nil =>
    cases owed with
    | zero => cases h
    | succ owed =>
      rw [List.nil_append, scanRest, hb]
      rfl
  | cons c rest ih =>
    cases owed with
    | zero => cases h
    | succ owed =>
      rw [scanRest] at h
      rw [List.cons_append, scanRest, List.length_cons, Nat.add_comm rest.length, ← Nat.add_assoc]
      split_ifs at h ⊢
      exact ih h

/-- What is there of an unfinished character, behind its second byte. -/
theorem isContinuation_of_scanRest (h : scanRest owed seen rest = .incomplete) :
    ∀ b ∈ rest, isContinuation b = true := by
  induction rest generalizing owed seen with
  | nil => exact List.forall_mem_nil _
  | cons c rest ih =>
    cases owed with
    | zero => cases h
    | succ owed =>
      rw [scanRest] at h
      split_ifs at h with hc
      exact List.forall_mem_cons.mpr ⟨hc, ih h⟩

/-- What a first byte announces decides when its character is complete. -/
theorem scanChar_char (h : scanChar a rest = .char len) :
    len = width a ∧ 0 < len ∧ len ≤ rest.length + 1 := by
  unfold scanChar at h
  split at h
  · cases h
  · rename_i hwidth
    cases h
    omega
  · rename_i owed hwidth
    split at h
    · cases h
    · split_ifs at h
      have hrest := scanRest_char h
      rw [List.length_cons]
      omega

theorem scanChar_invalid (h : scanChar a rest = .invalid len) :
    0 < len ∧ len ≤ rest.length + 1 := by
  unfold scanChar at h
  split at h
  · cases h
    omega
  · cases h
  · split at h
    · cases h
    · split_ifs at h
      · have hrest := scanRest_invalid h
        rw [List.length_cons]
        omega
      · cases h
        omega

theorem scanChar_incomplete (h : scanChar a rest = .incomplete) : rest.length + 1 < width a := by
  unfold scanChar at h
  split at h
  · cases h
  · cases h
  · rename_i owed hwidth
    split at h
    · rw [hwidth, List.length_nil]
      omega
    · split_ifs at h
      have hrest := scanRest_incomplete h
      rw [hwidth, List.length_cons]
      omega

/-- Once the bytes of a character or of a malformed sequence are there, what follows
them does not matter. -/
theorem scanChar_append (h : scanChar a rest ≠ .incomplete) :
    scanChar a (rest ++ more) = scanChar a rest := by
  unfold scanChar at h ⊢
  split
  · rfl
  · rfl
  · rename_i owed hwidth
    cases rest with
    | nil => simp [hwidth] at h
    | cons b rest =>
      simp only [hwidth] at h ⊢
      rw [List.cons_append]
      dsimp only
      split_ifs at h ⊢
      · exact scanRest_append h
      · rfl

/-- A character that is broken off by a byte of another one is malformed, as far as it goes. -/
theorem scanChar_interrupted {b : UInt8} (more : List UInt8)
    (h : scanChar a rest = .incomplete) (hb : isContinuation b = false) :
    scanChar a (rest ++ b :: more) = .invalid (rest.length + 1) := by
  unfold scanChar at h ⊢
  split at h
  · cases h
  · cases h
  · rename_i owed hwidth
    cases rest with
    | nil =>
      have hsecond : secondAllowed a b = false := by
        rw [secondAllowed, hb]
        rfl
      simp [hsecond]
    | cons c rest =>
      dsimp only at h
      split_ifs at h with hc
      have hrest := scanRest_interrupted more h hb
      simp only [List.cons_append, hc, if_true, hrest, List.length_cons, Scan.invalid.injEq]
      omega

/-- An unfinished character goes on as its first byte announces. -/
theorem isContinuation_of_incomplete (h : scanChar a rest = .incomplete) :
    ∀ b ∈ rest, isContinuation b = true := by
  unfold scanChar at h
  split at h
  · cases h
  · cases h
  · split at h
    · exact List.forall_mem_nil _
    · split_ifs at h with hsecond
      refine List.forall_mem_cons.mpr ⟨?_, isContinuation_of_scanRest h⟩
      simp only [secondAllowed, Bool.and_eq_true] at hsecond
      exact hsecond.1.1.1.1

theorem width_le (a : UInt8) : width a ≤ 4 := by
  unfold width
  split_ifs <;> omega

end Scan

variable {s t : List UInt8}

theorem pieces_of_char {a : UInt8} {rest : List UInt8} {len : ℕ} (h : scanChar a rest = .char len) :
    pieces (a :: rest) = (.char (a :: rest.take (len - 1)) :: (pieces (rest.drop (len - 1))).1,
      (pieces (rest.drop (len - 1))).2) := by
  rw [pieces, h]

theorem pieces_of_invalid {a : UInt8} {rest : List UInt8} {len : ℕ}
    (h : scanChar a rest = .invalid len) :
    pieces (a :: rest) = (.invalid (a :: rest.take (len - 1)) :: (pieces (rest.drop (len - 1))).1,
      (pieces (rest.drop (len - 1))).2) := by
  rw [pieces, h]

theorem pieces_of_incomplete {a : UInt8} {rest : List UInt8}
    (h : scanChar a rest = .incomplete) : pieces (a :: rest) = ([], a :: rest) := by
  rw [pieces, h]

/-- A cut of the stream changes nothing: the later part is decoded after the
unfinished end of the earlier one. -/
theorem pieces_append (s t : List UInt8) :
    pieces (s ++ t) = ((pieces s).1 ++ (pieces (unfinished s ++ t)).1,
      (pieces (unfinished s ++ t)).2) := by
  unfold unfinished
  induction s using pieces.induct with
  | case1 => rw [pieces]; rfl
  | case2 a rest len hscan ih =>
    have hlen := (scanChar_char hscan).2.2
    have hmore : scanChar a (rest ++ t) = .char len := by
      rw [scanChar_append (by rw [hscan]; exact nofun), hscan]
    have htake : (rest ++ t).take (len - 1) = rest.take (len - 1) :=
      List.take_append_of_le_length (by omega)
    have hdrop : (rest ++ t).drop (len - 1) = rest.drop (len - 1) ++ t :=
      List.drop_append_of_le_length (by omega)
    rw [List.cons_append, pieces_of_char hmore, pieces_of_char hscan, htake, hdrop, ih]
    rfl
  | case3 a rest len hscan ih =>
    have hlen := (scanChar_invalid hscan).2
    have hmore : scanChar a (rest ++ t) = .invalid len := by
      rw [scanChar_append (by rw [hscan]; exact nofun), hscan]
    have htake : (rest ++ t).take (len - 1) = rest.take (len - 1) :=
      List.take_append_of_le_length (by omega)
    have hdrop : (rest ++ t).drop (len - 1) = rest.drop (len - 1) ++ t :=
      List.drop_append_of_le_length (by omega)
    rw [List.cons_append, pieces_of_invalid hmore, pieces_of_invalid hscan, htake, hdrop, ih]
    rfl
  | case4 a rest hscan =>
    rw [pieces_of_incomplete hscan]
    rfl

/-- An unfinished character has at most three bytes. -/
theorem length_unfinished_le (s : List UInt8) : (unfinished s).length ≤ 3 := by
  unfold unfinished
  induction s using pieces.induct with
  | case1 => simp [pieces]
  | case2 a rest len hscan ih =>
    rw [pieces_of_char hscan]
    exact ih
  | case3 a rest len hscan ih =>
    rw [pieces_of_invalid hscan]
    exact ih
  | case4 a rest hscan =>
    have hlen := scanChar_incomplete hscan
    have hwidth := width_le a
    rw [pieces_of_incomplete hscan, List.length_cons]
    omega

/-- The pieces and the unfinished end are the stream. -/
theorem bytes_pieces (s : List UInt8) : (pieces s).1.flatMap Piece.bytes ++ unfinished s = s := by
  unfold unfinished
  induction s using pieces.induct with
  | case1 => simp [pieces]
  | case2 a rest len hscan ih =>
    rw [pieces_of_char hscan, List.flatMap_cons, List.append_assoc, ih, Piece.bytes,
      List.cons_append, List.take_append_drop]
  | case3 a rest len hscan ih =>
    rw [pieces_of_invalid hscan, List.flatMap_cons, List.append_assoc, ih, Piece.bytes,
      List.cons_append, List.take_append_drop]
  | case4 a rest hscan => rw [pieces_of_incomplete hscan]; rfl

/-! ### Characters -/

/-- The four shapes of a character. -/
inductive WellFormed : List UInt8 → Prop where
  | one {a : UInt8} (ha : a.toNat < 128) : WellFormed [a]
  | two {a b : UInt8} (ha : 0xC2 ≤ a.toNat ∧ a.toNat ≤ 0xDF) (hb : isContinuation b = true) :
    WellFormed [a, b]
  | three {a b c : UInt8} (ha : 0xE0 ≤ a.toNat ∧ a.toNat ≤ 0xEF) (hb : secondAllowed a b = true)
    (hc : isContinuation c = true) : WellFormed [a, b, c]
  | four {a b c d : UInt8} (ha : 0xF0 ≤ a.toNat ∧ a.toNat ≤ 0xF4) (hb : secondAllowed a b = true)
    (hc : isContinuation c = true) (hd : isContinuation d = true) : WellFormed [a, b, c, d]

section Chars
variable {a b c d : UInt8} {rest bytes : List UInt8}

theorem isContinuation_iff : isContinuation b = true ↔ 128 ≤ b.toNat ∧ b.toNat ≤ 191 := by
  simp [isContinuation, UInt8.le_iff_toNat_le]

theorem secondAllowed_iff : secondAllowed a b = true ↔
    (128 ≤ b.toNat ∧ b.toNat ≤ 191) ∧ (a.toNat = 0xE0 → 0xA0 ≤ b.toNat) ∧
      (a.toNat = 0xED → b.toNat ≤ 0x9F) ∧ (a.toNat = 0xF0 → 0x90 ≤ b.toNat) ∧
      (a.toNat = 0xF4 → b.toNat ≤ 0x8F) := by
  have hne : ∀ n : UInt8, (a != n) = true ↔ a.toNat ≠ n.toNat := by
    intro n
    rw [bne_iff_ne, Ne, Ne, UInt8.toNat_inj]
  have himp : ∀ p q : Prop, ¬ p ∨ q ↔ (p → q) := fun p q => imp_iff_not_or.symm
  simp only [secondAllowed, Bool.and_eq_true, Bool.or_eq_true, hne, isContinuation_iff,
    decide_eq_true_eq, UInt8.le_iff_toNat_le, Ne, himp, and_assoc]
  rfl

theorem width_eq (a : UInt8) : width a =
    if a.toNat < 128 then 1
    else if 0xC2 ≤ a.toNat ∧ a.toNat ≤ 0xDF then 2
    else if 0xE0 ≤ a.toNat ∧ a.toNat ≤ 0xEF then 3
    else if 0xF0 ≤ a.toNat ∧ a.toNat ≤ 0xF4 then 4
    else 0 := by
  simp [width, UInt8.lt_iff_toNat_lt, UInt8.le_iff_toNat_le]

/-- A scanned character has one of the shapes. -/
theorem wellFormed_of_scanChar {len : ℕ} (h : scanChar a rest = .char len) :
    WellFormed (a :: rest.take (len - 1)) := by
  have hwidth := width_eq a
  unfold scanChar at h
  split at h
  · cases h
  · rename_i hone
    cases h
    apply WellFormed.one
    rw [hone] at hwidth
    split_ifs at hwidth with h1 <;> omega
  · rename_i owed howed
    rw [howed] at hwidth
    cases rest with
    | nil => cases h
    | cons b rest =>
      dsimp only at h
      split_ifs at h with hb
      -- as many continuation bytes as the first byte announces
      match owed, rest, h with
      | 0, rest, h =>
        cases h
        apply WellFormed.two
        · split_ifs at hwidth <;> omega
        · exact isContinuation_iff.mpr (secondAllowed_iff.mp hb).1
      | 1, c :: rest, h =>
        simp only [scanRest] at h
        split_ifs at h with hc
        cases h
        apply WellFormed.three _ hb hc
        split_ifs at hwidth <;> omega
      | 2, [c], h =>
        simp only [scanRest] at h
        split_ifs at h
      | 2, c :: d :: rest, h =>
        simp only [scanRest] at h
        split_ifs at h with hc hd
        cases h
        apply WellFormed.four _ hb hc hd
        split_ifs at hwidth <;> omega
      | owed + 3, rest, h =>
        split_ifs at hwidth <;> omega

/-- Each shape is scanned as one character. -/
theorem WellFormed.scanChar (h : WellFormed (a :: bytes)) (rest : List UInt8) :
    scanChar a (bytes ++ rest) = .char (bytes.length + 1) := by
  have hwidth := width_eq a
  cases h with
  | one ha =>
    rw [if_pos ha] at hwidth
    simp [Utf8Validation.scanChar, hwidth]
  | two ha hb =>
    rw [if_neg (by omega), if_pos ha] at hwidth
    have hnarrow := isContinuation_iff.mp hb
    have hsecond : secondAllowed a _ = true :=
      secondAllowed_iff.mpr ⟨hnarrow, by omega, by omega, by omega, by omega⟩
    simp [Utf8Validation.scanChar, hwidth, hsecond, scanRest]
  | three ha hb hc =>
    rw [if_neg (by omega), if_neg (by omega), if_pos ha] at hwidth
    simp [Utf8Validation.scanChar, hwidth, hb, hc, scanRest]
  | four ha hb hc hd =>
    rw [if_neg (by omega), if_neg (by omega), if_neg (by omega), if_pos ha] at hwidth
    simp [Utf8Validation.scanChar, hwidth, hb, hc, hd, scanRest]

/-- The code point of a character. -/
def codePoint : List UInt8 → ℕ
  | [a] => a.toNat
  | [a, b] => a.toNat % 32 * 64 + b.toNat % 64
  | [a, b, c] => a.toNat % 16 * 4096 + b.toNat % 64 * 64 + c.toNat % 64
  | [a, b, c, d] =>
    a.toNat % 8 * 262144 + b.toNat % 64 * 4096 + c.toNat % 64 * 64 + d.toNat % 64
  | _ => 0

def charOf (bytes : List UInt8) : Char := Char.ofNat (codePoint bytes)

theorem eq_ofNat {n : ℕ} (h : n = a.toNat) : UInt8.ofNat n = a := by
  rw [h, UInt8.ofNat_toNat]

/-- The shapes are the encodings: a shape encodes its code point. -/
theorem WellFormed.encode_charOf (h : WellFormed bytes) :
    String.utf8EncodeChar (charOf bytes) = bytes := by
  have hval : ∀ n : ℕ, n.isValidChar → (Char.ofNat n).val.toNat = n := by
    intro n hn
    rw [Char.ofNat, dif_pos hn]
    rfl
  cases h with
  | @one a ha =>
    have hn := hval (codePoint [a]) (Or.inl (by rw [codePoint]; omega))
    rw [String.utf8EncodeChar, charOf, hn, codePoint, if_pos (by omega), UInt8.ofNat_toNat]
  | @two a b ha hb =>
    have hb := isContinuation_iff.mp hb
    have hn := hval (codePoint [a, b]) (Or.inl (by rw [codePoint]; omega))
    rw [String.utf8EncodeChar, charOf, hn, codePoint, if_neg (by omega), if_pos (by omega)]
    simp only [List.cons.injEq, and_true]
    exact ⟨eq_ofNat (by omega), eq_ofNat (by omega)⟩
  | @three a b c ha hb hc =>
    have hb := secondAllowed_iff.mp hb
    have hc := isContinuation_iff.mp hc
    have hn := hval (codePoint [a, b, c]) (by rw [codePoint, Nat.isValidChar]; omega)
    rw [String.utf8EncodeChar, charOf, hn, codePoint, if_neg (by omega), if_neg (by omega),
      if_pos (by omega)]
    simp only [List.cons.injEq, and_true]
    exact ⟨eq_ofNat (by omega), eq_ofNat (by omega), eq_ofNat (by omega)⟩
  | @four a b c d ha hb hc hd =>
    have hb := secondAllowed_iff.mp hb
    have hc := isContinuation_iff.mp hc
    have hd := isContinuation_iff.mp hd
    have hn := hval (codePoint [a, b, c, d]) (by rw [codePoint, Nat.isValidChar]; omega)
    rw [String.utf8EncodeChar, charOf, hn, codePoint, if_neg (by omega), if_neg (by omega),
      if_neg (by omega)]
    simp only [List.cons.injEq, and_true]
    exact ⟨eq_ofNat (by omega), eq_ofNat (by omega), eq_ofNat (by omega), eq_ofNat (by omega)⟩

/-- Every encoding has one of the shapes. -/
theorem wellFormed_encode (ch : Char) : WellFormed (String.utf8EncodeChar ch) := by
  have hvalid : ch.val.toNat < 0xD800 ∨ 0xDFFF < ch.val.toNat ∧ ch.val.toNat < 0x110000 := ch.valid
  rw [String.utf8EncodeChar]
  split_ifs with h1 h2 h3
  · apply WellFormed.one
    simp only [UInt8.toNat_ofNat']
    omega
  · apply WellFormed.two
    · simp only [UInt8.toNat_ofNat']
      omega
    · simp only [isContinuation_iff, UInt8.toNat_ofNat']
      omega
  · apply WellFormed.three
    · simp only [UInt8.toNat_ofNat']
      omega
    · simp only [secondAllowed_iff, UInt8.toNat_ofNat']
      omega
    · simp only [isContinuation_iff, UInt8.toNat_ofNat']
      omega
  · apply WellFormed.four
    · simp only [UInt8.toNat_ofNat']
      omega
    · simp only [secondAllowed_iff, UInt8.toNat_ofNat']
      omega
    · simp only [isContinuation_iff, UInt8.toNat_ofNat']
      omega
    · simp only [isContinuation_iff, UInt8.toNat_ofNat']
      omega

end Chars

/-! ### Validity -/

/-- No malformed sequence; the stream may still end inside a character. -/
def NoInvalid (s : List UInt8) : Prop := ∀ p ∈ (pieces s).1, ∃ bytes, p = .char bytes

theorem pieces_nil : pieces [] = ([], []) := by
  rw [pieces]

theorem unfinished_cases (s : List UInt8) :
    unfinished s = [] ∨ ∃ a rest, unfinished s = a :: rest ∧ scanChar a rest = .incomplete := by
  unfold unfinished
  induction s using pieces.induct with
  | case1 => exact Or.inl (congrArg Prod.snd pieces_nil)
  | case2 a rest len hscan ih =>
    rw [pieces_of_char hscan]
    exact ih
  | case3 a rest len hscan ih =>
    rw [pieces_of_invalid hscan]
    exact ih
  | case4 a rest hscan =>
    rw [pieces_of_incomplete hscan]
    exact Or.inr ⟨a, rest, rfl, hscan⟩

/-- A character that is broken off is a malformed sequence of its own. -/
theorem pieces_interrupted {b : UInt8} (hs : unfinished s ≠ []) (hb : isContinuation b = false)
    (t : List UInt8) : pieces (s ++ b :: t) =
      ((pieces s).1 ++ .invalid (unfinished s) :: (pieces (b :: t)).1, (pieces (b :: t)).2) := by
  obtain ⟨a, rest, hend, hscan⟩ := (unfinished_cases s).resolve_left hs
  rw [pieces_append, hend, List.cons_append, pieces_of_invalid (scanChar_interrupted t hscan hb),
    Nat.add_sub_cancel, List.take_left, List.drop_left]

theorem unfinished_append (s t : List UInt8) :
    unfinished (s ++ t) = unfinished (unfinished s ++ t) := by
  rw [unfinished, pieces_append]
  rfl

theorem validText_append (s t : List UInt8) :
    validText (s ++ t) = validText s ++ validText (unfinished s ++ t) := by
  rw [validText, pieces_append, List.flatMap_append, validText, validText]

theorem noInvalid_append (s t : List UInt8) :
    NoInvalid (s ++ t) ↔ NoInvalid s ∧ NoInvalid (unfinished s ++ t) := by
  simp only [NoInvalid, pieces_append s t, List.forall_mem_append]

/-- `from_utf8` accepts what is made of whole characters. -/
theorem fromUtf8_eq_none_iff (s : List UInt8) :
    fromUtf8 s = none ↔ NoInvalid s ∧ unfinished s = [] := by
  unfold NoInvalid unfinished
  induction s using pieces.induct with
  | case1 => simp [pieces, fromUtf8]
  | case2 a rest len hscan ih =>
    rw [fromUtf8, hscan, pieces_of_char hscan, List.forall_mem_cons]
    dsimp only
    rw [Option.map_eq_none_iff, ih]
    simp
  | case3 a rest len hscan ih =>
    rw [fromUtf8, hscan, pieces_of_invalid hscan, List.forall_mem_cons]
    simp
  | case4 a rest hscan =>
    rw [fromUtf8, hscan, pieces_of_incomplete hscan]
    simp

/-- Valid text does not start with a continuation byte. -/
theorem isContinuation_of_valid {b : UInt8} (h : fromUtf8 (b :: t) = none) :
    isContinuation b = false := by
  rw [fromUtf8] at h
  cases hscan : scanChar b t with
  | char len =>
    have hwidth := width_eq b
    have hlen := scanChar_char hscan
    rw [Bool.eq_false_iff, Ne, isContinuation_iff]
    split_ifs at hwidth <;> omega
  | invalid len =>
    rw [hscan] at h
    cases h
  | incomplete =>
    rw [hscan] at h
    cases h

/-- Behind valid text the decoding starts afresh. -/
theorem fromUtf8_append_of_valid (hs : fromUtf8 s = none) (t : List UInt8) :
    fromUtf8 (s ++ t) = none ↔ fromUtf8 t = none := by
  obtain ⟨hno, hend⟩ := (fromUtf8_eq_none_iff s).mp hs
  rw [fromUtf8_eq_none_iff, fromUtf8_eq_none_iff, noInvalid_append, unfinished_append, hend,
    List.nil_append]
  exact and_congr_left fun _ => and_iff_right hno

/-- Text that is cut in front of a byte that goes on with no character is cut between two. -/
theorem fromUtf8_left {b : UInt8} (hb : isContinuation b = false)
    (h : fromUtf8 (s ++ b :: t) = none) : fromUtf8 s = none := by
  obtain ⟨hno, -⟩ := (fromUtf8_eq_none_iff _).mp h
  rw [fromUtf8_eq_none_iff]
  refine ⟨((noInvalid_append _ _).mp hno).1, ?_⟩
  by_contra hs
  rw [NoInvalid, pieces_interrupted hs hb] at hno
  obtain ⟨bytes, hbytes⟩ := hno _ (List.mem_append_right _ List.mem_cons_self)
  cases hbytes

/-- Valid text inside a character breaks the character. -/
theorem not_noInvalid_of_interrupted (hs : unfinished s ≠ []) (ht : fromUtf8 t = none)
    (hne : t ≠ []) : ¬ NoInvalid (s ++ t) := by
  obtain ⟨b, t, rfl⟩ := List.exists_cons_of_ne_nil hne
  rw [NoInvalid, pieces_interrupted hs (isContinuation_of_valid ht)]
  intro hno
  obtain ⟨bytes, hbytes⟩ := hno _ (List.mem_append_right _ List.mem_cons_self)
  cases hbytes

/-- What `from_utf8` reports on the way through a stream. -/
theorem pieces_of_error {e : Utf8Error} (h : fromUtf8 s = some e) :
    match e.errorLen with
    | none => validText s = s.take e.validUpTo ∧ unfinished s = s.drop e.validUpTo
    | some n => validText s = s.take e.validUpTo ++ validText (s.drop (e.validUpTo + n)) ∧
        unfinished s = unfinished (s.drop (e.validUpTo + n)) := by
  unfold validText unfinished
  induction s using pieces.induct generalizing e with
  | case1 => simp [fromUtf8] at h
  | case2 a rest len hscan ih =>
    rw [fromUtf8, hscan] at h
    obtain ⟨later, hlater, rfl⟩ := Option.map_eq_some_iff.mp h
    have hpos := (scanChar_char hscan).2.1
    have hlen : len + later.validUpTo = (len - 1 + later.validUpTo) + 1 := by omega
    have htake : (a :: rest).take (len + later.validUpTo) =
        (a :: rest.take (len - 1)) ++ (rest.drop (len - 1)).take later.validUpTo := by
      rw [hlen, List.take_succ_cons, List.take_add, List.cons_append]
    have hdrop : ∀ n, (a :: rest).drop (len + later.validUpTo + n) =
        (rest.drop (len - 1)).drop (later.validUpTo + n) := by
      intro n
      have hlen' : len + later.validUpTo + n = (len - 1 + (later.validUpTo + n)) + 1 := by omega
      rw [hlen', List.drop_succ_cons, List.drop_drop]
    have hlater := ih hlater
    rw [pieces_of_char hscan, List.flatMap_cons, Piece.text]
    dsimp only
    cases herr : later.errorLen with
    | none =>
      rw [herr] at hlater
      have hdrop' := hdrop 0
      simp only [Nat.add_zero] at hdrop'
      rw [htake, hdrop', hlater.1, hlater.2]
      exact ⟨rfl, rfl⟩
    | some n =>
      rw [herr] at hlater
      dsimp only at hlater ⊢
      rw [htake, hdrop, hlater.1, hlater.2, List.append_assoc]
      exact ⟨rfl, rfl⟩
  | case3 a rest len hscan ih =>
    rw [fromUtf8, hscan] at h
    cases h
    have hpos := (scanChar_invalid hscan).1
    have hlen : 0 + len = (len - 1) + 1 := by omega
    rw [pieces_of_invalid hscan, List.flatMap_cons]
    dsimp only
    rw [hlen, List.drop_succ_cons]
    exact ⟨rfl, rfl⟩
  | case4 a rest hscan =>
    rw [fromUtf8, hscan] at h
    cases h
    rw [pieces_of_incomplete hscan]
    exact ⟨rfl, rfl⟩

/-- `valid_up_to` bytes are valid. -/
theorem fromUtf8_take {e : Utf8Error} (h : fromUtf8 s = some e) :
    fromUtf8 (s.take e.validUpTo) = none := by
  induction s using pieces.induct generalizing e with
  | case1 => simp [fromUtf8] at h
  | case2 a rest len hscan ih =>
    rw [fromUtf8, hscan] at h
    obtain ⟨later, hlater, rfl⟩ := Option.map_eq_some_iff.mp h
    obtain ⟨-, hpos, hle⟩ := scanChar_char hscan
    -- the cut keeps the whole first character
    have htake : (a :: rest).take (len + later.validUpTo) =
        a :: (rest.take (len - 1) ++ (rest.drop (len - 1)).take later.validUpTo) := by
      have hlen : len + later.validUpTo = (len - 1 + later.validUpTo) + 1 := by omega
      rw [hlen, List.take_succ_cons, List.take_add]
    have hchar : scanChar a (rest.take (len - 1) ++ (rest.drop (len - 1)).take later.validUpTo) =
        .char len := by
      have hwhole := (wellFormed_of_scanChar hscan).scanChar
        ((rest.drop (len - 1)).take later.validUpTo)
      have hlen : (rest.take (len - 1)).length + 1 = len := by
        rw [List.length_take]
        omega
      rwa [hlen] at hwhole
    have hdrop : (rest.take (len - 1) ++ (rest.drop (len - 1)).take later.validUpTo).drop
        (len - 1) = (rest.drop (len - 1)).take later.validUpTo := by
      apply List.drop_left'
      rw [List.length_take]
      omega
    dsimp only
    rw [htake, fromUtf8, hchar]
    dsimp only
    rw [hdrop, ih hlater, Option.map_none]
  | case3 a rest len hscan ih =>
    rw [fromUtf8, hscan] at h
    cases h
    rw [List.take_zero, fromUtf8]
  | case4 a rest hscan =>
    rw [fromUtf8, hscan] at h
    cases h
    rw [List.take_zero, fromUtf8]

theorem validText_of_valid (h : fromUtf8 s = none) : validText s = s := by
  obtain ⟨hchars, hend⟩ := (fromUtf8_eq_none_iff s).mp h
  have htext : ∀ p ∈ (pieces s).1, p.text = p.bytes := by
    intro p hp
    obtain ⟨bytes, rfl⟩ := hchars p hp
    rfl
  calc validText s
    _ = (pieces s).1.flatMap Piece.bytes := List.flatMap_congr htext
    _ = (pieces s).1.flatMap Piece.bytes ++ unfinished s := by rw [hend, List.append_nil]
    _ = s := bytes_pieces s

/-- The pieces of a stream of characters. -/
theorem pieces_encode (cs : List Char) :
    pieces (cs.flatMap String.utf8EncodeChar) =
      (cs.map fun c => .char (String.utf8EncodeChar c), []) := by
  induction cs with
  | nil => exact pieces_nil
  | cons c cs ih =>
    have hc := wellFormed_encode c
    rw [List.flatMap_cons, List.map_cons]
    cases henc : String.utf8EncodeChar c with
    | nil =>
      rw [henc] at hc
      cases hc
    | cons a bytes =>
      rw [henc] at hc
      rw [List.cons_append, pieces_of_char (hc.scanChar _), Nat.add_sub_cancel, List.take_left,
        List.drop_left, ih]

theorem wellFormed_of_mem_pieces {bytes : List UInt8} (h : .char bytes ∈ (pieces s).1) :
    WellFormed bytes := by
  induction s using pieces.induct with
  | case1 => simp [pieces] at h
  | case2 a rest len hscan ih =>
    rw [pieces_of_char hscan] at h
    rcases List.mem_cons.mp h with heq | h
    · cases heq
      exact wellFormed_of_scanChar hscan
    · exact ih h
  | case3 a rest len hscan ih =>
    rw [pieces_of_invalid hscan] at h
    rcases List.mem_cons.mp h with heq | h
    · cases heq
    · exact ih h
  | case4 a rest hscan =>
    rw [pieces_of_incomplete hscan] at h
    cases h

/-- A character is decoded to itself. -/
theorem charOf_encode (c : Char) : charOf (String.utf8EncodeChar c) = c := by
  have henc := (wellFormed_encode c).encode_charOf
  apply String.singleton_inj.mp
  apply String.toByteArray_inj.mp
  rw [String.toByteArray_singleton, String.toByteArray_singleton, List.utf8Encode_singleton,
    List.utf8Encode_singleton, henc]

/-- What is left after skipping is the encoding of the characters of the stream. -/
theorem encode_charOf_pieces (s : List UInt8) :
    ∃ cs : List Char, cs.flatMap String.utf8EncodeChar = validText s := by
  have hpiece : ∀ p ∈ (pieces s).1, ∃ cs : List Char,
      cs.flatMap String.utf8EncodeChar = p.text := by
    intro p hp
    cases p with
    | char bytes =>
      refine ⟨[charOf bytes], ?_⟩
      rw [List.flatMap_singleton]
      exact (wellFormed_of_mem_pieces hp).encode_charOf
    | invalid bytes => exact ⟨[], rfl⟩
  unfold validText
  generalize (pieces s).1 = ps at hpiece ⊢
  induction ps with
  | nil => exact ⟨[], rfl⟩
  | cons p ps ih =>
    obtain ⟨cs, hcs⟩ := hpiece p List.mem_cons_self
    obtain ⟨later, hlater⟩ := ih fun q hq => hpiece q (List.mem_cons_of_mem p hq)
    exact ⟨cs ++ later, by rw [List.flatMap_append, hcs, hlater, List.flatMap_cons]⟩

/-- Valid bytes are the encoding of some characters. -/
theorem fromUtf8_eq_none_iff_chars (s : List UInt8) :
    fromUtf8 s = none ↔ ∃ cs : List Char, cs.flatMap String.utf8EncodeChar = s := by
  constructor
  · intro h
    have hchars := encode_charOf_pieces s
    rwa [validText_of_valid h] at hchars
  · rintro ⟨cs, rfl⟩
    rw [fromUtf8_eq_none_iff, NoInvalid, unfinished, pieces_encode]
    simp

end Utf8Validation
