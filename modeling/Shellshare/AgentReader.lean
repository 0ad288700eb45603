import Shellshare.EncryptedRecords

/-! The agent's reader of a room's history: the check that the link fits the
room, then `decode`, against the viewer page's `decryptRecords`. -/
namespace Shellshare
open LengthPrefix

/-- What `decode` returns, before the text is stripped and decoded. A negative
`consumed` is a record that the key does not open. -/
structure Decoded where
  text : Bytes
  consumed : ℤ

/-- `Buffer.subarray`, which clamps its ends. -/
def clamped (buf : Bytes) (start stop : ℕ) : Bytes := (buf.drop start).take (stop - start)

section Agent
variable {Key : Type} (aes : Aes256Gcm Key)

/-- The loop of `decode` from an offset. The cipher takes the ciphertext and its
tag in one piece. `none` is the `RangeError` of a read past the end. -/
def decodeFrom (key : Key) (buf : Bytes) (o : ℕ) (out : List Bytes) : Option Decoded :=
  if buf.length < o + 4 then some ⟨out.flatten, o⟩
  else match getUint32 buf o with
    | none => none
    | some n =>
      -- a partial trailing record waits for the rest
      if buf.length < o + 4 + n then some ⟨out.flatten, o⟩
      else
        match aes.decrypt key (clamped buf (o + 4) (o + 16)) (clamped buf (o + 16) (o + 4 + n)) with
        | some plain => decodeFrom key buf (o + 4 + n) (out ++ [plain])
        | none => some ⟨[], -1⟩
termination_by buf.length - o
decreasing_by omega

def decode (key : Option Key) (buf : Bytes) : Option Decoded :=
  match key with
  | none => some ⟨buf, buf.length⟩
  | some key => decodeFrom aes key buf 0 []

/-- Whether a whole record stands at the front. -/
def isFramed (b : Bytes) : Bool :=
  4 ≤ b.length && (getUint32 b 0).any fun n => 28 ≤ n && n + 4 ≤ b.length

def mismatch (key : Option Key) (b : Bytes) : Option String :=
  if b.isEmpty then none
  else if key.isNone && isFramed b then
    some "this room is encrypted but the URL has no #key - lost its #fragment?"
  else if key.isSome && !isFramed b then
    some "this room is not encrypted but the URL carries a #key"
  else none

def wrongKey : String := "decryption failed - is this the right #key for this room?"

/-- The one-shot read of a history: what it prints, or the message it dies with. -/
def readHistory (key : Option Key) (raw : Bytes) : Option (Except String Bytes) :=
  match mismatch key raw with
  | some wrong => some (.error wrong)
  | none => (decode aes key raw).map fun decoded =>
    if decoded.consumed = -1 then .error wrongKey else .ok decoded.text

variable {aes} {key : Key} {buf body rest : Bytes} {o : ℕ}

/-- The loop at a whole record: the key opens it, or the read is given up. -/
theorem decodeFrom_frame (hfits : u32.Fits minRecord body)
    (hdrop : buf.drop o = u32.frame body ++ rest) (out : List Bytes) :
    decodeFrom aes key buf o out =
      match openRecord aes key body with
      | some plain => decodeFrom aes key buf (o + 4 + body.length) (out ++ [plain])
      | none => some ⟨[], -1⟩ := by
  have hframe : (u32.frame body).length = 4 + body.length := Header.length_frame body
  have hleast : 28 ≤ body.length := hfits.1
  have hlen : buf.length = o + (4 + body.length + rest.length) := by
    have hlen := congrArg List.length hdrop
    rw [List.length_drop, List.length_append, hframe] at hlen
    omega
  have hhead : buf.drop o = beBytes body.length ++ (body ++ rest) := by
    rw [hdrop, Header.frame, List.append_assoc]
    rfl
  have hread : getUint32 buf o = some body.length := by
    have htake : (buf.drop o).take 4 = beBytes body.length := by
      rw [hhead]
      exact List.take_left' rfl
    rw [getUint32, if_pos (by omega), htake, beValue_beBytes hfits.2]
  have hbody : buf.drop (o + 4) = body ++ rest := by
    rw [← List.drop_drop, hhead]
    exact List.drop_left' rfl
  have hiv : clamped buf (o + 4) (o + 16) = body.take nonceLen := by
    have hdiff : o + 16 - (o + 4) = nonceLen := Nat.add_sub_add_left o 16 4
    rw [clamped, hbody, hdiff]
    exact List.take_append_of_le_length (by simp only [nonceLen]; omega)
  have hct : clamped buf (o + 16) (o + 4 + body.length) = body.drop nonceLen := by
    have hsplit : buf.drop (o + 16) = body.drop nonceLen ++ rest := by
      have hdiff : o + 16 = o + 4 + nonceLen := rfl
      rw [hdiff, ← List.drop_drop, hbody]
      exact List.drop_append_of_le_length (by simp only [nonceLen]; omega)
    have hlong : o + 4 + body.length - (o + 16) = (body.drop nonceLen).length := by
      rw [List.length_drop]
      simp only [nonceLen]
      omega
    rw [clamped, hsplit, hlong, List.take_left]
  rw [decodeFrom, if_neg (by omega), hread]
  dsimp only
  rw [if_neg (by omega), hiv, hct]
  rfl

/-- The whole loop over whole records: all of them open, or nothing is read. -/
theorem decodeFrom_frames {bodies : List Bytes} (hfits : ∀ b ∈ bodies, u32.Fits minRecord b)
    (hle : o ≤ buf.length) (hdrop : buf.drop o = bodies.flatMap u32.frame) (out : List Bytes) :
    decodeFrom aes key buf o out =
      match bodies.mapM (openRecord aes key) with
      | some plains => some ⟨(out ++ plains).flatten, buf.length⟩
      | none => some ⟨[], -1⟩ := by
  induction bodies generalizing o out with
  | nil =>
    have hend : buf.length ≤ o := List.drop_eq_nil_iff.mp hdrop
    have ho : o = buf.length := by omega
    rw [decodeFrom, if_pos (by omega), ho]
    simp
  | cons body bodies ih =>
    rw [List.flatMap_cons] at hdrop
    rw [decodeFrom_frame (hfits body List.mem_cons_self) hdrop]
    cases hopen : openRecord aes key body with
    | none => simp [hopen]
    | some plain =>
      have hframe : (u32.frame body).length = 4 + body.length := Header.length_frame body
      have hle' : o + 4 + body.length ≤ buf.length := by
        have hlen := congrArg List.length hdrop
        rw [List.length_drop, List.length_append, hframe] at hlen
        omega
      have hdrop' : buf.drop (o + 4 + body.length) = bodies.flatMap u32.frame := by
        rw [Nat.add_assoc, ← List.drop_drop, hdrop]
        exact List.drop_left' hframe
      dsimp only
      rw [ih (fun b hb => hfits b (List.mem_cons_of_mem body hb)) hle' hdrop', List.mapM_cons,
        hopen]
      cases bodies.mapM (openRecord aes key) <;> simp

theorem isFramed_frame (hfits : u32.Fits minRecord body) :
    isFramed (u32.frame body ++ rest) = true := by
  have hframe : (u32.frame body).length = 4 + body.length := Header.length_frame body
  have hlen : (u32.frame body ++ rest).length = 4 + body.length + rest.length := by
    rw [List.length_append, hframe]
  have hleast : 28 ≤ body.length := hfits.1
  have htake : ((u32.frame body ++ rest).drop 0).take 4 = beBytes body.length := by
    rw [List.drop_zero, Header.frame, List.append_assoc]
    exact List.take_left' rfl
  have hread : getUint32 (u32.frame body ++ rest) 0 = some body.length := by
    rw [getUint32, if_pos (by omega), htake, beValue_beBytes hfits.2]
  simp only [isFramed, hread, Option.any_some, Bool.and_eq_true, decide_eq_true_eq]
  omega

theorem mismatch_stream (records : List (SealedRecord aes)) :
    mismatch (some key) (SealedRecord.stream records) = none := by
  cases records with
  | nil => rfl
  | cons s records =>
    obtain ⟨hbytes, hfits, -⟩ := s.eq_frame
    have hframed : isFramed (SealedRecord.stream (s :: records)) = true := by
      rw [SealedRecord.stream, List.flatMap_cons, hbytes]
      exact isFramed_frame hfits
    rw [mismatch, hframed]
    simp

/-- All records open, unless another key sealed one of them. -/
theorem mapM_openRecord [DecidableEq Key] {records : List (SealedRecord aes)}
    (hrefused : SealedRecord.ForeignRefused key records) :
    (records.map SealedRecord.body).mapM (openRecord aes key) =
      if ∀ s ∈ records, s.key = key then some (records.map SealedRecord.plaintext) else none := by
  induction records with
  | nil => rfl
  | cons s records ih =>
    have hrest := ih fun t ht => hrefused t (List.mem_cons_of_mem s ht)
    rw [List.map_cons, List.mapM_cons, hrest]
    by_cases hkey : s.key = key
    · subst hkey
      rw [SealedRecord.openRecord_own]
      have hcons : (∀ t ∈ s :: records, t.key = s.key) ↔ ∀ t ∈ records, t.key = s.key := by
        simp
      simp only [hcons]
      split_ifs <;> rfl
    · have hopen : openRecord aes key s.body = none := by
        rw [SealedRecord.openRecord_body]
        exact hrefused s List.mem_cons_self hkey
      rw [hopen]
      simp [hkey]

/-- One record of another key, and the agent gives up the whole history. -/
theorem readHistory_stream [DecidableEq Key] {records : List (SealedRecord aes)}
    (hrefused : SealedRecord.ForeignRefused key records) :
    readHistory aes (some key) (SealedRecord.stream records) =
      some (if ∀ s ∈ records, s.key = key then .ok (records.flatMap SealedRecord.plaintext)
        else .error wrongKey) := by
  obtain ⟨hfits, hbytes⟩ := Header.parse_eq_some_iff.mp (SealedRecord.parse_stream records)
  have hloop : decodeFrom aes key (SealedRecord.stream records) 0 [] = _ :=
    decodeFrom_frames hfits (Nat.zero_le _) (List.drop_zero.trans hbytes) []
  rw [readHistory, mismatch_stream]
  dsimp only [decode]
  rw [hloop, mapM_openRecord hrefused]
  by_cases hall : ∀ s ∈ records, s.key = key
  · have hconsumed : ((SealedRecord.stream records).length : ℤ) ≠ -1 := by omega
    rw [if_pos hall, if_pos hall]
    simp [hconsumed, List.flatMap]
  · rw [if_neg hall, if_neg hall]
    rfl

/-- The agent recovers what the viewer page does exactly when every record of
the history was sealed under the key of the link. -/
theorem readers_agree_iff [DecidableEq Key] (aes : Aes256Gcm Key) (key : Key)
    (records : List (SealedRecord aes)) (hrefused : SealedRecord.ForeignRefused key records) :
    (∃ plain chunks,
      readHistory aes (some key) (SealedRecord.stream records) = some (.ok plain) ∧
        decrypted aes key (SealedRecord.stream records) = some chunks ∧ plain = chunks.flatten) ↔
      ∀ s ∈ records, s.key = key := by
  rw [readHistory_stream hrefused, SealedRecord.decrypted_stream hrefused]
  constructor
  · rintro ⟨plain, chunks, hread, -, -⟩
    by_contra hall
    rw [if_neg hall] at hread
    cases hread
  · intro hall
    refine ⟨_, _, by rw [if_pos hall], rfl, ?_⟩
    have hfilter : records.filter (fun s => s.key = key) = records := by
      rw [List.filter_eq_self]
      intro s hs
      exact decide_eq_true (hall s hs)
    rw [SealedRecord.plaintextsUnder, hfilter, List.flatMap]

/-- A history of the link's key alone. -/
def unmixed : List (SealedRecord tagged) := mixed.filter fun s => s.key = 1

theorem readers_agree_own : ∃ plain chunks,
    readHistory tagged (some 1) (SealedRecord.stream unmixed) = some (.ok plain) ∧
      decrypted tagged 1 (SealedRecord.stream unmixed) = some chunks ∧ plain = chunks.flatten :=
  (readers_agree_iff tagged 1 unmixed (by
    unfold SealedRecord.ForeignRefused
    decide)).mpr (by decide)

/-- A history with a record of an earlier key: the page shows the rest, the agent
refuses all of it. -/
theorem readers_disagree :
    (∃ s ∈ mixed, s.key = 1) ∧ SealedRecord.ForeignRefused 1 mixed ∧
      decrypted tagged 1 (SealedRecord.stream mixed) = some [[104, 105], []] ∧
      readHistory tagged (some 1) (SealedRecord.stream mixed) = some (.error wrongKey) := by
  have hrefused : SealedRecord.ForeignRefused 1 mixed := by
    unfold SealedRecord.ForeignRefused
    decide
  refine ⟨by decide, hrefused, ?_, ?_⟩
  · rw [SealedRecord.decrypted_stream hrefused]
    rfl
  · rw [readHistory_stream hrefused, if_neg (by decide)]

end Agent

end Shellshare
