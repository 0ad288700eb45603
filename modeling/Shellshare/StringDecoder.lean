import Shellshare.Protocol
import Shellshare.Utf8Decoding

/-! Node's `StringDecoder`: a stream is decoded write by write, and what may be the start
of a character is held back for the next write. Text is a JavaScript string here, a list of
UTF-16 code units. -/
namespace Shellshare
open Utf8Validation

abbrev Text := List UInt16

def codeUnits (s : String) : Text := s.toList.map fun c => c.val.toUInt16

def utf16 (c : Char) : Text :=
  let n := c.val.toNat
  if n < 65536 then [.ofNat n]
  else [.ofNat (0xD800 + (n - 65536) / 1024), .ofNat (0xDC00 + (n - 65536) % 1024)]

/-- A malformed sequence is decoded to one replacement character. -/
def pieceText : Piece → Text
  | .char bytes => utf16 (charOf bytes)
  | .invalid _ => [0xFFFD]

/-- Bytes that are decoded at once: one more replacement character for an unfinished end. -/
def decodeText (bytes : Bytes) : Text :=
  (pieces bytes).1.flatMap pieceText ++ if unfinished bytes = [] then [] else [0xFFFD]

namespace StringDecoder

/-- The length that the high bits of a byte announce, `0` if it starts no character.
Nothing else is checked: `C0`, `C1` and `F5` to `F7` announce one too. -/
def charLength (b : UInt8) : ℕ :=
  if 0xC0 ≤ b ∧ b ≤ 0xDF then 2
  else if 0xE0 ≤ b ∧ b ≤ 0xEF then 3
  else if 0xF0 ≤ b ∧ b ≤ 0xF7 then 4
  else 0

/-- Fewer bytes than the first of them announces, and continuation bytes from there on. -/
def isIncomplete : Bytes → Bool
  | [] => false
  | b :: rest => decide (rest.length + 1 < charLength b) && rest.all isContinuation

/-- What is decoded of some bytes, and what is held back. -/
def splitEnd : Bytes → Bytes × Bytes
  | [] => ([], [])
  | b :: rest =>
    if isIncomplete (b :: rest) then ([], b :: rest)
    else (b :: (splitEnd rest).1, (splitEnd rest).2)

/-- `write`, after the bytes that were held: the text, and what is held now. -/
def write (held data : Bytes) : Text × Bytes :=
  let bytes := splitEnd (held ++ data)
  (decodeText bytes.1, bytes.2)

end StringDecoder

variable {s t : Bytes}

theorem decodeText_of_unfinished_nil (hs : unfinished s = []) (t : Bytes) :
    decodeText (s ++ t) = decodeText s ++ decodeText t := by
  have hpieces := pieces_append s t
  rw [hs, List.nil_append] at hpieces
  have hend : unfinished (s ++ t) = unfinished t := by rw [unfinished, hpieces]; rfl
  simp only [decodeText, hs, hend, hpieces, if_true, List.append_nil, List.flatMap_append,
    List.append_assoc]

/-- Bytes are decoded in two parts as at once, if they are cut in front of a byte that goes
on with no character. -/
theorem decodeText_append (ht : ∀ b ∈ t.head?, isContinuation b = false) :
    decodeText (s ++ t) = decodeText s ++ decodeText t := by
  by_cases hs : unfinished s = []
  · exact decodeText_of_unfinished_nil hs t
  cases t with
  | nil =>
    have hnil : decodeText [] = [] := by simp [decodeText, unfinished, pieces_nil]
    rw [hnil, List.append_nil, List.append_nil]
  | cons b t =>
    have hpieces := pieces_interrupted hs (ht b rfl) t
    have hend : unfinished (s ++ b :: t) = unfinished (b :: t) := by rw [unfinished, hpieces]; rfl
    simp only [decodeText, hend, hpieces, if_neg hs, List.flatMap_append, List.flatMap_cons,
      pieceText, List.append_assoc]

theorem decodeText_encode (cs : List Char) :
    decodeText (cs.flatMap String.utf8EncodeChar) = cs.flatMap utf16 := by
  rw [decodeText, unfinished, pieces_encode, List.flatMap_map]
  simp only [pieceText, charOf_encode, if_true, List.append_nil]

namespace StringDecoder

theorem splitEnd_append_end (s : Bytes) : (splitEnd s).1 ++ (splitEnd s).2 = s := by
  induction s with
  | nil => rfl
  | cons b rest ih =>
    rw [splitEnd]
    split_ifs
    · rfl
    · exact congrArg (b :: ·) ih

/-- More bytes never bring back what was incomplete no longer. -/
theorem isIncomplete_of_append (hne : s ≠ []) (h : isIncomplete (s ++ t) = true) :
    isIncomplete s = true := by
  cases s with
  | nil => exact absurd rfl hne
  | cons b rest =>
    simp only [List.cons_append, isIncomplete, List.length_append, List.all_append,
      Bool.and_eq_true, decide_eq_true_eq] at h ⊢
    exact ⟨by omega, h.2.1⟩

/-- What is held back is all that the split of what follows depends on. -/
theorem splitEnd_append (s t : Bytes) :
    splitEnd (s ++ t) = ((splitEnd s).1 ++ (splitEnd ((splitEnd s).2 ++ t)).1,
      (splitEnd ((splitEnd s).2 ++ t)).2) := by
  induction s with
  | nil => rfl
  | cons b rest ih =>
    by_cases hheld : isIncomplete (b :: rest) = true
    · rw [splitEnd.eq_2 b rest, if_pos hheld]
      rfl
    · have hnot : ¬ isIncomplete (b :: (rest ++ t)) = true := fun h =>
        hheld (isIncomplete_of_append (t := t) (List.cons_ne_nil b rest) h)
      rw [splitEnd.eq_2 b rest, if_neg hheld, List.cons_append, splitEnd, if_neg hnot, ih]
      rfl

theorem charLength_eq (b : UInt8) : charLength b =
    if 0xC0 ≤ b.toNat ∧ b.toNat ≤ 0xDF then 2
    else if 0xE0 ≤ b.toNat ∧ b.toNat ≤ 0xEF then 3
    else if 0xF0 ≤ b.toNat ∧ b.toNat ≤ 0xF7 then 4
    else 0 := by
  simp [charLength, UInt8.le_iff_toNat_le]

theorem charLength_of_isContinuation {b : UInt8} (hb : isContinuation b = true) :
    charLength b = 0 := by
  rw [isContinuation_iff] at hb
  rw [charLength_eq, if_neg (by omega), if_neg (by omega), if_neg (by omega)]

/-- What is held back starts a character. -/
theorem head_splitEnd (s : Bytes) : ∀ b ∈ (splitEnd s).2.head?, isContinuation b = false := by
  induction s with
  | nil => simp [splitEnd]
  | cons a rest ih =>
    rw [splitEnd]
    split_ifs with hheld
    · rintro b ⟨⟩
      by_contra hb
      rw [Bool.not_eq_false] at hb
      simp [isIncomplete, charLength_of_isContinuation hb] at hheld
    · exact ih

/-- An unfinished character is held back. -/
theorem isIncomplete_of_scanChar {a : UInt8} {rest : Bytes}
    (h : scanChar a rest = .incomplete) : isIncomplete (a :: rest) = true := by
  have hshort := scanChar_incomplete h
  have hwidth := width_eq a
  have hlength : width a ≤ charLength a := by
    rw [charLength_eq]
    split_ifs at hwidth <;> split_ifs <;> omega
  simp only [isIncomplete, Bool.and_eq_true, decide_eq_true_eq, List.all_eq_true]
  exact ⟨by omega, isContinuation_of_incomplete h⟩

theorem splitEnd_ne_nil (s : Bytes) (ht : isIncomplete t = true) : (splitEnd (s ++ t)).2 ≠ [] := by
  induction s with
  | nil =>
    cases t with
    | nil => cases ht
    | cons b rest => simp [splitEnd, ht]
  | cons b rest ih =>
    rw [List.cons_append, splitEnd]
    split_ifs
    · exact List.cons_ne_nil _ _
    · exact ih

/-- If nothing is held back, the bytes end between two characters. -/
theorem unfinished_of_splitEnd (h : (splitEnd s).2 = []) : unfinished s = [] := by
  rcases unfinished_cases s with hnil | ⟨a, rest, hend, hscan⟩
  · exact hnil
  · rw [← bytes_pieces s, hend] at h
    exact absurd h (splitEnd_ne_nil _ (isIncomplete_of_scanChar hscan))

/-- A decoder that is fed in two writes writes the text of one, and holds the same. -/
theorem write_append (held data : Bytes) :
    write [] (held ++ data) =
      ((write [] held).1 ++ (write (write [] held).2 data).1, (write (write [] held).2 data).2) := by
  simp only [write, List.nil_append]
  rw [splitEnd_append]
  refine congrArg (·, _) ?_
  by_cases hnone : (splitEnd held).2 = []
  · have hall := splitEnd_append_end held
    rw [hnone, List.append_nil] at hall
    rw [decodeText_of_unfinished_nil]
    rw [hall]
    exact unfinished_of_splitEnd hnone
  · -- the later text starts where the decoder had stopped
    apply decodeText_append
    intro b hb
    have hsplit := splitEnd_append_end ((splitEnd held).2 ++ data)
    obtain ⟨a, rest, hheld⟩ := List.exists_cons_of_ne_nil hnone
    apply head_splitEnd held b
    rw [hheld, List.cons_append] at hb hsplit
    rw [hheld]
    cases hfirst : (splitEnd (a :: (rest ++ data))).1 with
    | nil =>
      rw [hfirst] at hb
      cases hb
    | cons c front =>
      rw [hfirst] at hb hsplit
      rw [List.cons_append] at hsplit
      rw [← (List.cons.inj hsplit).1]
      exact hb

theorem splitEnd_continuation {rest : Bytes} (h : ∀ b ∈ rest, isContinuation b = true)
    (t : Bytes) : splitEnd (rest ++ t) = (rest ++ (splitEnd t).1, (splitEnd t).2) := by
  induction rest with
  | nil => rfl
  | cons b rest ih =>
    obtain ⟨hb, hrest⟩ := List.forall_mem_cons.mp h
    have hnot : ¬ isIncomplete (b :: (rest ++ t)) = true := by
      simp [isIncomplete, charLength_of_isContinuation hb]
    rw [List.cons_append, splitEnd, if_neg hnot, ih hrest]
    rfl

/-- A whole character is as long as its first byte announces. -/
theorem WellFormed.charLength_le {a : UInt8} {rest : Bytes} (h : WellFormed (a :: rest)) :
    charLength a ≤ rest.length + 1 ∧ ∀ b ∈ rest, isContinuation b = true := by
  have hlength := charLength_eq a
  cases h with
  | one ha =>
    refine ⟨?_, List.forall_mem_nil _⟩
    split_ifs at hlength <;> simp <;> omega
  | two ha hb =>
    refine ⟨?_, by simpa using hb⟩
    rw [hlength, if_pos (by omega)]
    rfl
  | three ha hb hc =>
    have hb := isContinuation_iff.mpr (secondAllowed_iff.mp hb).1
    refine ⟨?_, by simpa using ⟨hb, hc⟩⟩
    rw [hlength, if_neg (by omega), if_pos (by omega)]
    rfl
  | four ha hb hc hd =>
    have hb := isContinuation_iff.mpr (secondAllowed_iff.mp hb).1
    refine ⟨?_, by simpa using ⟨hb, hc, hd⟩⟩
    rw [hlength, if_neg (by omega), if_neg (by omega), if_pos (by omega)]
    rfl

/-- No byte of a whole character is held back. -/
theorem splitEnd_wellFormed (h : WellFormed s) (t : Bytes) :
    splitEnd (s ++ t) = (s ++ (splitEnd t).1, (splitEnd t).2) := by
  cases s with
  | nil => rfl
  | cons a rest =>
    obtain ⟨hlength, hrest⟩ := WellFormed.charLength_le h
    have hnot : ¬ isIncomplete (a :: (rest ++ t)) = true := by
      simp only [isIncomplete, List.length_append, Bool.and_eq_true, decide_eq_true_eq, not_and]
      omega
    rw [List.cons_append, splitEnd, if_neg hnot, splitEnd_continuation hrest]
    rfl

theorem splitEnd_encode (cs : List Char) :
    splitEnd (cs.flatMap String.utf8EncodeChar) = (cs.flatMap String.utf8EncodeChar, []) := by
  induction cs with
  | nil => rfl
  | cons c cs ih => rw [List.flatMap_cons, splitEnd_wellFormed (wellFormed_encode c), ih]

/-- A text in UTF-8 is decoded to itself. -/
theorem write_encode (cs : List Char) :
    write [] (cs.flatMap String.utf8EncodeChar) = (cs.flatMap utf16, []) := by
  rw [write, List.nil_append, splitEnd_encode, decodeText_encode]

theorem write_nil : write [] [] = ([], []) := write_encode []

end StringDecoder

end Shellshare
