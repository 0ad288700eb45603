import Shellshare.Protocol

/-! Sealing terminal output into self-delimiting records: a length, a nonce, and
the ciphertext with its tag. -/
namespace Shellshare

def nonceLen : ℕ := 12
def tagLen : ℕ := 16

/-- A nonce drawn for one record. -/
structure Nonce where
  bytes : Bytes
  length_eq : bytes.length = nonceLen

theorem length_zeros : (List.replicate nonceLen (0 : UInt8)).length = nonceLen :=
  List.length_replicate

/-- AES-256-GCM under the broadcast's key; `none` is an encryption error. GCM
adds no padding, only the tag. -/
structure Encryptor where
  encrypt : Nonce → Bytes → Option Bytes
  length_encrypt : ∀ nonce plaintext ciphertext, encrypt nonce plaintext = some ciphertext →
    ciphertext.length = plaintext.length + tagLen

/-- `u32::to_be_bytes` -/
def beBytes (n : ℕ) : Bytes :=
  [UInt8.ofNat (n / 2 ^ 24), UInt8.ofNat (n / 2 ^ 16), UInt8.ofNat (n / 2 ^ 8), UInt8.ofNat n]

namespace Encryptor

/-- `Encryptor::seal`. `none` is a panic: the cipher failed, or the record exceeds
its length prefix. -/
def sealRecord (e : Encryptor) (nonce : Nonce) (plaintext : Bytes) : Option Bytes :=
  (e.encrypt nonce plaintext).bind fun ciphertext =>
    if nonceLen + ciphertext.length < 2 ^ 32 then
      some (beBytes (nonceLen + ciphertext.length) ++ nonce.bytes ++ ciphertext)
    else none

/-- A record is exactly 32 bytes longer than what it seals. -/
theorem length_sealRecord {e : Encryptor} {nonce : Nonce} {plaintext record : Bytes}
    (h : e.sealRecord nonce plaintext = some record) : record.length = plaintext.length + 32 := by
  obtain ⟨ciphertext, hc, hr⟩ := Option.bind_eq_some_iff.mp h
  have hlen := e.length_encrypt nonce plaintext ciphertext hc
  split at hr
  · obtain rfl := Option.some.inj hr
    simp only [List.length_append, nonce.length_eq, hlen, beBytes, List.length_cons,
      List.length_nil, nonceLen, tagLen]
    omega
  · cases hr

end Encryptor

/-- What is queued for a chunk of plaintext: a record when encrypting, a copy otherwise. -/
def sealed (cipher : Option Encryptor) (nonce : Nonce) (data : Bytes) : Option Bytes :=
  match cipher with
  | none => some data
  | some e => e.sealRecord nonce data

theorem length_sealed {cipher : Option Encryptor} {nonce : Nonce} {data record : Bytes}
    (h : sealed cipher nonce data = some record) :
    data.length ≤ record.length ∧ record.length ≤ data.length + 32 := by
  cases cipher with
  | none =>
    obtain rfl := Option.some.inj h
    omega
  | some e =>
    have hlen : record.length = data.length + 32 := Encryptor.length_sealRecord h
    omega

/-- What is sealed is not empty, unless it was. -/
theorem sealed_ne_nil {cipher : Option Encryptor} {nonce : Nonce} {data record : Bytes}
    (h : sealed cipher nonce data = some record) (hdata : data ≠ []) : record ≠ [] := by
  have hlen := (length_sealed h).1
  have hpos : 0 < data.length := List.length_pos_of_ne_nil hdata
  apply List.ne_nil_of_length_pos
  omega

end Shellshare
