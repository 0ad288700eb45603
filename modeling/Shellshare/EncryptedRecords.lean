import Shellshare.Encryptor
import Shellshare.LengthPrefix

/-! The viewer page's reader of encrypted records: `decryptRecords` walks a
message by offsets, skips the records its key does not open, and rejects a
message that is not whole records. -/
namespace Shellshare
open LengthPrefix

/-- AES-256-GCM for every key. `decrypt` takes the ciphertext with its tag, and is
`none` when authentication fails. -/
structure Aes256Gcm (Key : Type) where
  encrypt : Key → Nonce → Bytes → Option Bytes
  decrypt : Key → Bytes → Bytes → Option Bytes
  length_encrypt : ∀ key nonce plaintext ciphertext,
    encrypt key nonce plaintext = some ciphertext → ciphertext.length = plaintext.length + tagLen
  decrypt_encrypt : ∀ key nonce plaintext ciphertext,
    encrypt key nonce plaintext = some ciphertext →
      decrypt key nonce.bytes ciphertext = some plaintext

/-- The broadcaster's half, under its key. -/
def Aes256Gcm.encryptor {Key : Type} (aes : Aes256Gcm Key) (key : Key) : Encryptor :=
  ⟨aes.encrypt key, aes.length_encrypt key⟩

/-- A record that some broadcaster sealed. -/
structure SealedRecord {Key : Type} (aes : Aes256Gcm Key) where
  key : Key
  nonce : Nonce
  plaintext : Bytes
  bytes : Bytes
  sealed_eq : (aes.encryptor key).sealRecord nonce plaintext = some bytes

/-- Four bytes, big endian. -/
def beValue (bytes : Bytes) : ℕ := bytes.foldl (fun n b => n * 256 + b.toNat) 0

/-- The least length a record declares: a nonce and a tag. -/
def minRecord : ℕ := nonceLen + tagLen

theorem beValue_beBytes {n : ℕ} (hn : n < 2 ^ 32) : beValue (beBytes n) = n := by
  simp only [beValue, beBytes, List.foldl_cons, List.foldl_nil, UInt8.toNat_ofNat']
  omega

theorem beValue_lt {bytes : Bytes} (hlen : bytes.length = 4) : beValue bytes < 2 ^ 32 := by
  obtain ⟨a, b, c, d, rfl⟩ := List.length_eq_four.mp hlen
  have ha := a.toNat_lt
  have hb := b.toNat_lt
  have hc := c.toNat_lt
  have hd := d.toNat_lt
  simp only [beValue, List.foldl_cons, List.foldl_nil]
  omega

theorem beBytes_beValue {bytes : Bytes} (hlen : bytes.length = 4) :
    beBytes (beValue bytes) = bytes := by
  obtain ⟨a, b, c, d, rfl⟩ := List.length_eq_four.mp hlen
  have ha := a.toNat_lt
  have hb := b.toNat_lt
  have hc := c.toNat_lt
  have hd := d.toNat_lt
  have hbyte : ∀ (n : ℕ) (x : UInt8), n % 256 = x.toNat → UInt8.ofNat n = x := by
    intro n x hn
    rw [← UInt8.toNat_inj, UInt8.toNat_ofNat']
    exact hn
  simp only [beValue, beBytes, List.foldl_cons, List.foldl_nil, List.cons.injEq, and_true]
  refine ⟨?_, ?_, ?_, ?_⟩ <;> apply hbyte <;> omega

/-- The `u32` length prefix of a record. -/
def u32 : Header UInt8 where
  width := 4
  bound := 2 ^ 32
  encode := beBytes
  decode := beValue
  width_pos := by decide
  length_encode := fun _ => rfl
  decode_encode := fun _ hn => beValue_beBytes hn
  decode_lt := fun _ hlen => beValue_lt hlen
  encode_decode := fun _ hlen => beBytes_beValue hlen

/-- `DataView.getUint32`; `none` is the `RangeError` of a read past the end. -/
def getUint32 (bytes : Bytes) (offset : ℕ) : Option ℕ :=
  if offset + 4 ≤ bytes.length then some (beValue ((bytes.drop offset).take 4)) else none

/-- `subarray`, where it does not have to clamp its ends. -/
def subarray (bytes : Bytes) (start stop : ℕ) : Option Bytes :=
  if start ≤ stop ∧ stop ≤ bytes.length then some ((bytes.drop start).take (stop - start))
  else none

/-- What `step` finds at an offset of a message. -/
inductive Scan where
  | finished
  | malformed
  | record (iv ciphertext : Bytes) (offset : ℕ)

/-- One `step` up to its call of `decrypt`. `none` is a read past the end. -/
def scan (bytes : Bytes) (offset : ℕ) : Option Scan :=
  if bytes.length ≤ offset then some .finished
  else if bytes.length - offset < 4 then some .malformed
  else (getUint32 bytes offset).bind fun recordLen =>
    if recordLen < 28 ∨ bytes.length - offset - 4 < recordLen then some .malformed
    else
      let body := offset + 4
      (subarray bytes body (body + 12)).bind fun iv =>
        (subarray bytes (body + 12) (body + recordLen)).map fun ciphertext =>
          .record iv ciphertext (body + recordLen)

/-- How the promise of `decryptRecords` settles. -/
inductive Settlement where
  | resolved (chunks : List Bytes) (decryptable : Bool)
  | rejected

/-- What `step` makes of the record, or of what else, it stands at. -/
def Scan.ofFront (offset : ℕ) : Front UInt8 → Scan
  | .finished => .finished
  | .malformed => .malformed
  | .record body _ => .record (body.take nonceLen) (body.drop nonceLen) (offset + 4 + body.length)

/-- A step stays within the message, and takes one record off what is left of it. -/
theorem scan_eq (bytes : Bytes) (offset : ℕ) :
    scan bytes offset = some (.ofFront offset (u32.front minRecord (bytes.drop offset))) := by
  have hlen : (bytes.drop offset).length = bytes.length - offset := List.length_drop
  have hnil : bytes.drop offset = [] ↔ bytes.length ≤ offset := List.drop_eq_nil_iff
  simp only [scan, Header.front, hnil, hlen, show u32.width = 4 from rfl,
    show u32.decode = beValue from rfl, show minRecord = 28 from rfl]
  by_cases hend : bytes.length ≤ offset
  · rw [if_pos hend, if_pos hend]
    rfl
  rw [if_neg hend, if_neg hend]
  by_cases hshort : bytes.length - offset < 4
  · rw [if_pos hshort, if_pos hshort]
    rfl
  rw [if_neg hshort, if_neg hshort, getUint32, if_pos (by omega), Option.bind_some]
  generalize beValue ((bytes.drop offset).take 4) = len
  by_cases hbad : len < 28 ∨ bytes.length - offset - 4 < len
  · rw [if_pos hbad, if_pos hbad]
    rfl
  rw [if_neg hbad, if_neg hbad]
  have hbody : (((bytes.drop offset).drop 4).take len).length = len := by
    rw [List.length_take, List.length_drop, hlen]
    omega
  have hiv : subarray bytes (offset + 4) (offset + 4 + 12) =
      some ((((bytes.drop offset).drop 4).take len).take nonceLen) := by
    rw [subarray, if_pos (by omega), List.drop_drop, List.take_take]
    congr 2
    simp only [nonceLen]
    omega
  have hct : subarray bytes (offset + 4 + 12) (offset + 4 + len) =
      some ((((bytes.drop offset).drop 4).take len).drop nonceLen) := by
    rw [subarray, if_pos (by omega), List.drop_drop, List.drop_take, List.drop_drop]
    congr 2
    simp only [nonceLen]
    omega
  rw [hiv, hct, Scan.ofFront, hbody]
  rfl

theorem drop_of_front_record {bytes body rest : Bytes} {offset : ℕ}
    (hfront : u32.front minRecord (bytes.drop offset) = .record body rest) :
    bytes.drop (offset + 4 + body.length) = rest := by
  have hstream := (Header.eq_of_front_record hfront).2
  have hlen : (u32.frame body).length = 4 + body.length := Header.length_frame body
  rw [Nat.add_assoc, ← List.drop_drop, hstream]
  exact List.drop_left' hlen

/-- A record that a step takes is the first of what is left of the message. -/
theorem front_of_scan_record {bytes iv ciphertext : Bytes} {offset next : ℕ}
    (hscan : scan bytes offset = some (.record iv ciphertext next)) :
    ∃ body, u32.front minRecord (bytes.drop offset) = .record body (bytes.drop next) ∧
      iv = body.take nonceLen ∧ ciphertext = body.drop nonceLen := by
  rw [scan_eq] at hscan
  have hscan := Option.some.inj hscan
  cases hfront : u32.front minRecord (bytes.drop offset) with
  | finished =>
    rw [hfront] at hscan
    cases hscan
  | malformed =>
    rw [hfront] at hscan
    cases hscan
  | record body rest =>
    rw [hfront] at hscan
    obtain ⟨hiv, hct, hnext⟩ := Scan.record.inj hscan
    refine ⟨body, ?_, hiv.symm, hct.symm⟩
    rw [← hnext, drop_of_front_record hfront]

/-- The walk ends: each record leaves less of the message. -/
theorem sub_lt_of_scan {bytes iv ciphertext : Bytes} {offset next : ℕ}
    (hscan : scan bytes offset = some (.record iv ciphertext next)) :
    bytes.length - next < bytes.length - offset := by
  obtain ⟨body, hfront, -, -⟩ := front_of_scan_record hscan
  have hless := Header.length_of_front_record hfront
  rw [List.length_drop, List.length_drop] at hless
  exact hless

section Reader
variable {Key : Type} (aes : Aes256Gcm Key) (key : Key) (bytes : Bytes)

/-- `step` from an offset, each decryption settled. `none` is a read past the end. -/
def decryptFrom (offset : ℕ) (chunks : List Bytes) (decryptable : Bool) : Option Settlement :=
  match _hscan : scan bytes offset with
  | none => none
  | some .finished => some (.resolved chunks decryptable)
  | some .malformed => some .rejected
  | some (.record iv ciphertext next) =>
    match aes.decrypt key iv ciphertext with
    | some plain => decryptFrom next (chunks ++ [plain]) true
    -- the wrong key for this record, whose framing is intact
    | none => decryptFrom next chunks decryptable
termination_by bytes.length - offset
decreasing_by all_goals exact sub_lt_of_scan _hscan

def decryptRecords : Option Settlement := decryptFrom aes key bytes 0 [] false

/-- The body of a record, decrypted with the viewer's key. -/
def openRecord (body : Bytes) : Option Bytes :=
  aes.decrypt key (body.take nonceLen) (body.drop nonceLen)

/-- What a message settles to, from its records as a list. -/
def settle (chunks : List Bytes) (decryptable : Bool) : Option (List Bytes) → Settlement
  | some bodies =>
    .resolved (chunks ++ bodies.filterMap (openRecord aes key))
      (decryptable || bodies.any fun body => (openRecord aes key body).isSome)
  | none => .rejected

/-- The walk reads within the message, and settles as the list of its records says. -/
theorem decryptFrom_eq (offset : ℕ) (chunks : List Bytes) (decryptable : Bool) :
    decryptFrom aes key bytes offset chunks decryptable =
      some (settle aes key chunks decryptable (u32.parse minRecord (bytes.drop offset))) := by
  fun_induction decryptFrom aes key bytes offset chunks decryptable with
  | case1 offset chunks decryptable hscan =>
    rw [scan_eq] at hscan
    cases hscan
  | case2 offset chunks decryptable hscan =>
    rw [scan_eq] at hscan
    cases hfront : u32.front minRecord (bytes.drop offset) with
    | finished =>
      rw [Header.front_finished_iff.mp hfront, Header.parse_nil]
      simp [settle]
    | malformed =>
      rw [hfront] at hscan
      cases hscan
    | record body rest =>
      rw [hfront] at hscan
      cases hscan
  | case3 offset chunks decryptable hscan =>
    rw [scan_eq] at hscan
    cases hfront : u32.front minRecord (bytes.drop offset) with
    | finished =>
      rw [hfront] at hscan
      cases hscan
    | malformed =>
      rw [Header.parse_of_malformed hfront]
      rfl
    | record body rest =>
      rw [hfront] at hscan
      cases hscan
  | case4 offset chunks decryptable iv ciphertext next hscan plain hplain ih =>
    obtain ⟨body, hfront, rfl, rfl⟩ := front_of_scan_record hscan
    have hopen : openRecord aes key body = some plain := hplain
    rw [ih, Header.parse_of_record hfront]
    cases u32.parse minRecord (bytes.drop next) with
    | none => rfl
    | some bodies => simp [settle, hopen]
  | case5 offset chunks decryptable iv ciphertext next hscan hnone ih =>
    obtain ⟨body, hfront, rfl, rfl⟩ := front_of_scan_record hscan
    have hopen : openRecord aes key body = none := hnone
    rw [ih, Header.parse_of_record hfront]
    cases u32.parse minRecord (bytes.drop next) with
    | none => rfl
    | some bodies => simp [settle, hopen]

theorem decryptRecords_eq : decryptRecords aes key bytes =
    some (settle aes key [] false (u32.parse minRecord bytes)) := by
  rw [decryptRecords, decryptFrom_eq, List.drop_zero]

/-- What a message decrypts to, when the promise resolves. -/
def decrypted : Option (List Bytes) :=
  match decryptRecords aes key bytes with
  | some (.resolved chunks _) => some chunks
  | _ => none

theorem decrypted_eq :
    decrypted aes key bytes =
      (u32.parse minRecord bytes).map fun bodies => bodies.filterMap (openRecord aes key) := by
  rw [decrypted, decryptRecords_eq]
  cases u32.parse minRecord bytes <;> simp [settle]

end Reader

namespace SealedRecord

variable {Key : Type} {aes : Aes256Gcm Key}

/-- The ciphertext with its tag, after the length and the nonce. -/
def ciphertext (s : SealedRecord aes) : Bytes := s.bytes.drop (4 + nonceLen)

/-- The bytes of a list of records. -/
def stream (records : List (SealedRecord aes)) : Bytes := records.flatMap SealedRecord.bytes

/-- What a record declares the length of. -/
def body (s : SealedRecord aes) : Bytes := s.nonce.bytes ++ s.ciphertext

/-- A sealed record is the frame of its body, which is long enough to be read. -/
theorem eq_frame (s : SealedRecord aes) :
    s.bytes = u32.frame s.body ∧ u32.Fits minRecord s.body ∧
      aes.encrypt s.key s.nonce s.plaintext = some s.ciphertext := by
  obtain ⟨ciphertext, hencrypt, hrecord⟩ := Option.bind_eq_some_iff.mp s.sealed_eq
  have hlen := aes.length_encrypt s.key s.nonce s.plaintext ciphertext hencrypt
  have hnonce := s.nonce.length_eq
  split_ifs at hrecord with hfits
  have hbytes := (Option.some.inj hrecord).symm
  have hct : s.ciphertext = ciphertext := by
    have hhead : (beBytes (nonceLen + ciphertext.length) ++ s.nonce.bytes).length =
        4 + nonceLen := by
      rw [List.length_append, hnonce]
      rfl
    rw [SealedRecord.ciphertext, hbytes]
    exact List.drop_left' hhead
  have hbody : s.body.length = nonceLen + ciphertext.length := by
    rw [body, hct, List.length_append, hnonce]
  refine ⟨?_, ⟨?_, ?_⟩, ?_⟩
  · rw [Header.frame, hbody, hbytes, body, hct, List.append_assoc]
    rfl
  · rw [hbody, hlen, minRecord]
    omega
  · rw [hbody]
    exact hfits
  · rw [hct]
    exact hencrypt

theorem openRecord_body (s : SealedRecord aes) (key : Key) :
    openRecord aes key s.body = aes.decrypt key s.nonce.bytes s.ciphertext := by
  rw [openRecord, body, List.take_left' s.nonce.length_eq, List.drop_left' s.nonce.length_eq]

theorem openRecord_own (s : SealedRecord aes) : openRecord aes s.key s.body = some s.plaintext := by
  rw [openRecord_body]
  exact aes.decrypt_encrypt s.key s.nonce s.plaintext s.ciphertext s.eq_frame.2.2

/-- What was sealed is whole records. -/
theorem parse_stream (records : List (SealedRecord aes)) :
    u32.parse minRecord (stream records) = some (records.map body) := by
  rw [Header.parse_eq_some_iff]
  constructor
  · intro b hb
    obtain ⟨s, -, rfl⟩ := List.mem_map.mp hb
    exact s.eq_frame.2.1
  · rw [stream, List.flatMap_map]
    apply List.flatMap_congr
    intro s _
    exact s.eq_frame.1

/-- Authentication fails for every record that another key sealed. -/
def ForeignRefused (key : Key) (records : List (SealedRecord aes)) : Prop :=
  ∀ s ∈ records, s.key ≠ key → aes.decrypt key s.nonce.bytes s.ciphertext = none

/-- The plaintexts that were sealed under a key, in order. -/
def plaintextsUnder [DecidableEq Key] (key : Key) (records : List (SealedRecord aes)) :
    List Bytes :=
  (records.filter fun s => s.key = key).map SealedRecord.plaintext

theorem decrypted_stream [DecidableEq Key] {key : Key} {records : List (SealedRecord aes)}
    (hrefused : ForeignRefused key records) :
    decrypted aes key (stream records) = some (plaintextsUnder key records) := by
  rw [decrypted_eq, parse_stream, Option.map_some, List.filterMap_map]
  congr 1
  induction records with
  | nil => rfl
  | cons s records ih =>
    have hrest := ih fun t ht => hrefused t (List.mem_cons_of_mem s ht)
    rw [List.filterMap_cons, hrest]
    by_cases hkey : s.key = key
    · subst hkey
      have hopen : (openRecord aes s.key ∘ body) s = some s.plaintext := openRecord_own s
      rw [hopen]
      simp [plaintextsUnder]
    · have hopen : (openRecord aes key ∘ body) s = none := by
        rw [Function.comp_apply, openRecord_body]
        exact hrefused s List.mem_cons_self hkey
      rw [hopen]
      simp [plaintextsUnder, hkey]

end SealedRecord

/-- Messages of whole records decrypt to the same chunks however they are cut. -/
theorem decrypted_flatten {Key : Type} (aes : Aes256Gcm Key) (key : Key) {messages : List Bytes}
    (hframed : ∀ m ∈ messages, u32.Framed minRecord m) :
    ∃ results, List.Forall₂ (fun m r => decrypted aes key m = some r) messages results ∧
      decrypted aes key messages.flatten = some results.flatten := by
  induction messages with
  | nil =>
    refine ⟨[], .nil, ?_⟩
    rw [decrypted_eq, List.flatten_nil, Header.parse_nil]
    rfl
  | cons m messages ih =>
    obtain ⟨results, hall, hflat⟩ := ih fun m' hm' => hframed m' (List.mem_cons_of_mem m hm')
    obtain ⟨bodies, hm⟩ := Header.framed_iff_parse.mp (hframed m List.mem_cons_self)
    rw [decrypted_eq] at hflat
    obtain ⟨others, hothers, hflat⟩ := Option.map_eq_some_iff.mp hflat
    refine ⟨bodies.filterMap (openRecord aes key) :: results, .cons ?_ hall, ?_⟩
    · rw [decrypted_eq, hm]
      rfl
    · rw [decrypted_eq, List.flatten_cons, Header.parse_append hm hothers, Option.map_some,
        List.filterMap_append, hflat, List.flatten_cons]

/-- The viewer's reader undoes the broadcaster's sealing, over any mix of keys and
any cut between records, and resolves for whole records and nothing else. Its
reads stay within the message and its walk ends. -/
theorem decryptRecords_undoes_seal {Key : Type} [DecidableEq Key] (aes : Aes256Gcm Key)
    (key : Key) :
    (∀ records : List (SealedRecord aes), u32.Framed minRecord (SealedRecord.stream records) ∧
      (SealedRecord.ForeignRefused key records →
        decrypted aes key (SealedRecord.stream records) =
          some (SealedRecord.plaintextsUnder key records))) ∧
    (∀ messages : List Bytes, (∀ m ∈ messages, u32.Framed minRecord m) →
      ∃ results, List.Forall₂ (fun m r => decrypted aes key m = some r) messages results ∧
        decrypted aes key messages.flatten = some results.flatten) ∧
    ∀ bytes : Bytes,
      (u32.Framed minRecord bytes ∧
        ∃ chunks decryptable, decryptRecords aes key bytes = some (.resolved chunks decryptable)) ∨
      (¬ u32.Framed minRecord bytes ∧ decryptRecords aes key bytes = some .rejected) := by
  refine ⟨fun records => ⟨?_, SealedRecord.decrypted_stream⟩,
    fun messages hframed => decrypted_flatten aes key hframed, ?_⟩
  · rw [Header.framed_iff_parse]
    exact ⟨_, SealedRecord.parse_stream records⟩
  intro bytes
  rw [Header.framed_iff_parse, decryptRecords_eq]
  cases hparse : u32.parse minRecord bytes with
  | some bodies => exact Or.inl ⟨⟨bodies, rfl⟩, _, _, rfl⟩
  | none =>
    refine Or.inr ⟨?_, rfl⟩
    rintro ⟨bodies, hbodies⟩
    cases hbodies

/-- A stand-in cipher: a copy of the plaintext, and a tag that names the key. -/
def tagged : Aes256Gcm UInt8 where
  encrypt key _ plaintext := some (plaintext ++ List.replicate tagLen key)
  decrypt key _ ciphertext :=
    if ciphertext.drop (ciphertext.length - tagLen) = List.replicate tagLen key then
      some (ciphertext.take (ciphertext.length - tagLen))
    else none
  length_encrypt := by
    rintro key nonce plaintext ciphertext ⟨⟩
    simp
  decrypt_encrypt := by
    rintro key nonce plaintext ciphertext ⟨⟩
    simp

def blankNonce : Nonce := ⟨List.replicate nonceLen 0, length_zeros⟩

/-- A record of another key between two of the viewer's, one of them empty. -/
def mixed : List (SealedRecord tagged) :=
  [⟨1, blankNonce, [104, 105], _, rfl⟩, ⟨2, blankNonce, [7], _, rfl⟩, ⟨1, blankNonce, [], _, rfl⟩]

theorem decryptRecords_undoes_seal_mixed :
    decrypted tagged 1 (SealedRecord.stream mixed) = some [[104, 105], []] :=
  ((decryptRecords_undoes_seal tagged 1).1 mixed).2 (by
    unfold SealedRecord.ForeignRefused
    decide)

end Shellshare
