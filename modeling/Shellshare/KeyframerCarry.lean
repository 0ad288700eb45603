import Shellshare.Keyframer
import Shellshare.Utf8Decoding

/-! What the keyframer's emulator is fed: the text of the broadcast stream, wherever
the stream was cut into frames. -/
namespace Shellshare
open Utf8Validation

/-- An emulator that keeps the strings it was fed. -/
structure Recorded (V : Type) where
  vt : V
  fed : List Bytes

variable {V : Type} [Vt V]

instance : Vt (Recorded V) where
  new cols rows := ⟨Vt.new cols rows, []⟩
  feedStr v s := ⟨Vt.feedStr v.vt s, v.fed ++ [s]⟩
  resize v cols rows := ⟨Vt.resize v.vt cols rows, v.fed⟩
  dump v := Vt.dump v.vt

namespace Keyframer

variable {buf : Bytes} {e : Utf8Error} {n : ℕ}

theorem decode_of_valid (vt : V) (h : fromUtf8 buf = none) :
    decode vt buf = (if buf = [] then vt else Vt.feedStr vt buf, []) := by
  rw [decode]
  split
  · rfl
  · simp_all

theorem decode_of_incomplete (vt : V) (h : fromUtf8 buf = some e) (hlen : e.errorLen = none) :
    decode vt buf = (if 0 < e.validUpTo then Vt.feedStr vt (buf.take e.validUpTo) else vt,
      buf.drop e.validUpTo) := by
  rw [decode]
  split
  · simp_all
  · rename_i e' he'
    obtain rfl : e = e' := Option.some.inj (h.symm.trans he')
    dsimp only
    split
    · rfl
    · simp_all

theorem decode_of_invalid (vt : V) (h : fromUtf8 buf = some e) (hlen : e.errorLen = some n) :
    decode vt buf = decode (if 0 < e.validUpTo then Vt.feedStr vt (buf.take e.validUpTo) else vt)
      (buf.drop (e.validUpTo + n)) := by
  rw [decode]
  split
  · simp_all
  · rename_i e' he'
    obtain rfl : e = e' := Option.some.inj (h.symm.trans he')
    dsimp only
    split
    · simp_all
    · rename_i n' hn'
      obtain rfl : n = n' := Option.some.inj (hlen.symm.trans hn')
      rfl

/-- The loop feeds the text of the buffer, in valid strings, and leaves its unfinished
end. -/
structure Feeds (v : Recorded V) (buf : Bytes) (decoded : Recorded V × Bytes) : Prop where
  text : decoded.1.fed.flatten = v.fed.flatten ++ validText buf
  carry : decoded.2 = unfinished buf
  valid : ∀ s ∈ decoded.1.fed, s ∈ v.fed ∨ s ≠ [] ∧ fromUtf8 s = none

/-- One turn of the loop that finds a valid part. -/
theorem feeds_valid_part (v : Recorded V) (h : fromUtf8 buf = some e) :
    let v' := if 0 < e.validUpTo then Vt.feedStr v (buf.take e.validUpTo) else v
    v'.fed.flatten = v.fed.flatten ++ buf.take e.validUpTo ∧
      ∀ s ∈ v'.fed, s ∈ v.fed ∨ s ≠ [] ∧ fromUtf8 s = none := by
  intro v'
  by_cases hpos : 0 < e.validUpTo
  · have hfed : v'.fed = v.fed ++ [buf.take e.validUpTo] := by
      simp only [v', if_pos hpos]
      rfl
    rw [hfed]
    refine ⟨by simp, fun s hs => ?_⟩
    rcases List.mem_append.mp hs with hs | hs
    · exact Or.inl hs
    · obtain rfl := List.mem_singleton.mp hs
      refine Or.inr ⟨?_, fromUtf8_take h⟩
      -- a buffer with an error in it is not empty
      have hbuf : buf ≠ [] := by
        rintro rfl
        simp [fromUtf8] at h
      simp [hbuf]
      omega
  · have hfed : v'.fed = v.fed := by
      simp only [v', if_neg hpos]
    have hzero : e.validUpTo = 0 := by omega
    rw [hfed, hzero]
    exact ⟨by simp, fun s hs => Or.inl hs⟩

theorem decode_feeds (v : Recorded V) (buf : Bytes) : Feeds v buf (decode v buf) := by
  induction v, buf using decode.induct with
  | case1 v buf hvalid =>
    rw [decode_of_valid v hvalid]
    have hend := ((fromUtf8_eq_none_iff buf).mp hvalid).2
    split
    · rename_i hnil
      refine ⟨?_, hend.symm, fun s hs => Or.inl hs⟩
      rw [validText_of_valid hvalid, hnil, List.append_nil]
    · rename_i hne
      refine ⟨?_, hend.symm, fun s hs => ?_⟩
      · rw [validText_of_valid hvalid]
        simp [Vt.feedStr]
      · rcases List.mem_append.mp hs with hs | hs
        · exact Or.inl hs
        · obtain rfl := List.mem_singleton.mp hs
          exact Or.inr ⟨hne, hvalid⟩
  | case2 v buf e he hlen =>
    have hpieces := pieces_of_error he
    rw [hlen] at hpieces
    obtain ⟨htext, hvalid⟩ := feeds_valid_part v he
    rw [decode_of_incomplete v he hlen]
    exact ⟨by rw [hpieces.1]; exact htext, hpieces.2.symm, hvalid⟩
  | case3 v buf e he v' n hlen ih =>
    have hpieces := pieces_of_error he
    rw [hlen] at hpieces
    obtain ⟨htext, hvalid⟩ := feeds_valid_part v he
    have hv' : v' = if 0 < e.validUpTo then Vt.feedStr v (buf.take e.validUpTo) else v := rfl
    rw [hv'] at ih
    rw [decode_of_invalid v he hlen]
    refine ⟨?_, ?_, fun s hs => ?_⟩
    · rw [ih.text, htext, hpieces.1, List.append_assoc]
    · rw [ih.carry, hpieces.2]
    · rcases ih.valid s hs with hs | hs
      · exact hvalid s hs
      · exact Or.inr hs

/-- The keyframer without its record. -/
def forget (k : Keyframer (Recorded V)) : Keyframer V :=
  { vt := k.vt.vt, cols := k.cols, rows := k.rows, carry := k.carry, framesSince := k.framesSince }

theorem decode_forget (v : Recorded V) (buf : Bytes) :
    ((decode v buf).1.vt, (decode v buf).2) = decode v.vt buf := by
  induction v, buf using decode.induct with
  | case1 v buf hvalid =>
    rw [decode_of_valid v hvalid, decode_of_valid v.vt hvalid]
    split_ifs <;> rfl
  | case2 v buf e he hlen =>
    rw [decode_of_incomplete v he hlen, decode_of_incomplete v.vt he hlen]
    split_ifs <;> rfl
  | case3 v buf e he v' n hlen ih =>
    have hv' : v' = if 0 < e.validUpTo then Vt.feedStr v (buf.take e.validUpTo) else v := rfl
    rw [hv'] at ih
    rw [decode_of_invalid v he hlen, decode_of_invalid v.vt he hlen, ih]
    split_ifs <;> rfl

/-- Recording changes nothing. -/
theorem forget_feedBytes (k : Keyframer (Recorded V)) (data : Bytes) :
    (k.feedBytes data).forget = k.forget.feedBytes data := by
  have hdecode := decode_forget k.vt (k.carry ++ data)
  simp only [feedBytes, forget, ← hdecode]

theorem decode_carry (vt : V) (buf : Bytes) : (decode vt buf).2 = unfinished buf := by
  have hforget := congrArg Prod.snd (decode_forget ⟨vt, []⟩ buf)
  exact hforget.symm.trans (decode_feeds ⟨vt, []⟩ buf).carry

/-- The carry is too short to be dropped. -/
theorem feedBytes_carry (k : Keyframer V) (data : Bytes) :
    (decode k.vt (k.carry ++ data)).2.length ≤ 3 ∧
      (k.feedBytes data).carry = unfinished (k.carry ++ data) := by
  have hcarry := decode_carry k.vt (k.carry ++ data)
  have hlen := length_unfinished_le (k.carry ++ data)
  have hshort : (decode k.vt (k.carry ++ data)).2.length ≤ 3 := by
    rw [hcarry]
    exact hlen
  refine ⟨hshort, ?_⟩
  have hmax : ¬ maxCarry < (decode k.vt (k.carry ++ data)).2.length := by
    unfold maxCarry
    omega
  rw [feedBytes]
  dsimp only
  rw [if_neg hmax, hcarry]

/-- The keyframer has seen exactly a stream. -/
structure HasFed (k : Keyframer (Recorded V)) (stream : Bytes) : Prop where
  text : k.vt.fed.flatten = validText stream
  valid : ∀ s ∈ k.vt.fed, fromUtf8 s = none
  carry : k.carry = unfinished stream

theorem hasFed_new (size : TermSize) : HasFed (new size : Keyframer (Recorded V)) [] := by
  refine ⟨?_, nofun, ?_⟩
  · simp [new, Vt.new, validText, pieces_nil]
  · simp [new, unfinished, pieces_nil]

/-- The step lemma: what was carried is decoded together with the next bytes. -/
theorem HasFed.feedBytes {k : Keyframer (Recorded V)} {stream : Bytes} (h : HasFed k stream)
    (data : Bytes) : HasFed (k.feedBytes data) (stream ++ data) := by
  have hfeeds := decode_feeds k.vt (k.carry ++ data)
  refine ⟨?_, fun s hs => ?_, ?_⟩
  · calc (k.feedBytes data).vt.fed.flatten
      _ = k.vt.fed.flatten ++ validText (k.carry ++ data) := hfeeds.text
      _ = validText stream ++ validText (unfinished stream ++ data) := by rw [h.text, h.carry]
      _ = validText (stream ++ data) := (validText_append stream data).symm
  · rcases hfeeds.valid s hs with hs | hs
    · exact h.valid s hs
    · exact hs.2
  · calc (k.feedBytes data).carry
      _ = unfinished (k.carry ++ data) := (feedBytes_carry k data).2
      _ = unfinished (unfinished stream ++ data) := by rw [h.carry]
      _ = unfinished (stream ++ data) := (unfinished_append stream data).symm

theorem HasFed.foldl {k : Keyframer (Recorded V)} {stream : Bytes} (h : HasFed k stream)
    (calls : List Bytes) :
    HasFed (calls.foldl Keyframer.feedBytes k) (stream ++ calls.flatten) := by
  induction calls generalizing k stream with
  | nil => simpa using h
  | cons data calls ih =>
    rw [List.flatten_cons, ← List.append_assoc]
    exact ih (h.feedBytes data)

/-- The emulator is fed the text of the whole stream, and the carry is its unfinished
end, however the stream was cut into calls. -/
theorem fed_independent_of_chunking (size : TermSize) (calls : List Bytes) :
    let k := calls.foldl feedBytes (new size : Keyframer (Recorded V))
    k.forget = calls.foldl feedBytes (new size : Keyframer V) ∧
      k.vt.fed.flatten = validText calls.flatten ∧
      (∀ s ∈ k.vt.fed, fromUtf8 s = none) ∧
      k.carry = unfinished calls.flatten ∧ k.carry.length ≤ 3 ∧
      ∀ data, ¬ maxCarry < (decode k.vt (k.carry ++ data)).2.length := by
  intro k
  have hfed : HasFed k calls.flatten := (hasFed_new size).foldl calls
  have hcarry : k.carry.length ≤ 3 := by
    rw [hfed.carry]
    exact length_unfinished_le calls.flatten
  have hforget : k.forget = calls.foldl feedBytes (new size : Keyframer V) :=
    (List.foldl_hom forget fun k data => (forget_feedBytes k data).symm).symm
  refine ⟨hforget, hfed.text, hfed.valid, hfed.carry, hcarry, fun data => ?_⟩
  have hshort := (feedBytes_carry k data).1
  unfold maxCarry
  omega

end Keyframer

end Shellshare
