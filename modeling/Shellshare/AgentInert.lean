import Shellshare.AgentFollowCuts
import Shellshare.TransitionReach

/-! Which streams let a control introducer through to the terminal of the agent's reader. -/
namespace Shellshare
open PatternRemoval TransitionRuns Utf8Validation

/-- A C1 character in UTF-8: `C2`, and a byte from `80` to `9F`. -/
def HoldsC1 (bytes : Bytes) : Prop := ∃ b : UInt8, (0x80 ≤ b ∧ b ≤ 0x9F) ∧ [0xC2, b] <:+: bytes

variable {s t text : Bytes}

theorem HoldsC1.of_isInfix (h : HoldsC1 s) (hst : s <:+: t) : HoldsC1 t := by
  obtain ⟨b, hb, hs⟩ := h
  exact ⟨b, hb, hs.trans hst⟩

/-- The encoding of a C1 character. -/
theorem encode_c1 {c : Char} (h : 0x80 ≤ c.val.toNat ∧ c.val.toNat ≤ 0x9F) :
    String.utf8EncodeChar c = [0xC2, UInt8.ofNat c.val.toNat] := by
  have hbyte : ∀ m n : ℕ, m = n → UInt8.ofNat m = UInt8.ofNat n := fun m n h => by rw [h]
  rw [String.utf8EncodeChar, if_neg (by omega), if_pos (by omega)]
  simp only [List.cons.injEq, and_true]
  exact ⟨hbyte _ 0xC2 (by omega), hbyte _ _ (by omega)⟩

/-- No other character has a C1 code unit. -/
theorem c1_of_utf16 {ch : Char} {c : UInt16} (hc : c ∈ utf16 ch) (hc1 : isC1 c = true) :
    0x80 ≤ ch.val.toNat ∧ ch.val.toNat ≤ 0x9F := by
  have hvalid : ch.val.toNat < 0x110000 := by
    have hvalid : ch.val.toNat < 0xD800 ∨ 0xDFFF < ch.val.toNat ∧ ch.val.toNat < 0x110000 :=
      ch.valid
    omega
  have hrange : 0x80 ≤ c.toNat ∧ c.toNat ≤ 0x9F := by
    simpa [isC1, UInt16.le_iff_toNat_le] using hc1
  dsimp only [utf16] at hc
  split_ifs at hc with hsmall
  · rw [List.mem_singleton] at hc
    rw [hc, UInt16.toNat_ofNat', Nat.mod_eq_of_lt hsmall] at hrange
    exact hrange
  · -- a surrogate is none
    simp only [List.mem_cons, List.not_mem_nil, or_false] at hc
    rcases hc with rfl | rfl
    · rw [UInt16.toNat_ofNat'] at hrange
      omega
    · rw [UInt16.toNat_ofNat'] at hrange
      omega

/-- Only C1 characters are decoded to C1 characters. -/
theorem holdsC1_of_decodeText {c : UInt16} (hc : c ∈ decodeText s) (hc1 : isC1 c = true) :
    HoldsC1 s := by
  have hreplaced : c ≠ 0xFFFD := by
    rintro rfl
    exact absurd hc1 (by decide)
  rw [decodeText, List.mem_append] at hc
  rcases hc with hc | hc
  · obtain ⟨p, hp, hc⟩ := List.mem_flatMap.mp hc
    cases p with
    | invalid bytes => exact absurd (List.mem_singleton.mp hc) hreplaced
    | char bytes =>
      have hin : bytes <:+: s := by
        have hpiece : bytes ∈ (pieces s).1.map Piece.bytes := List.mem_map_of_mem hp
        rw [← bytes_pieces s, List.flatMap_def]
        exact (List.infix_of_mem_flatten hpiece).trans (List.prefix_append _ _).isInfix
      have hrange := c1_of_utf16 hc hc1
      rw [← (wellFormed_of_mem_pieces hp).encode_charOf, encode_c1 hrange] at hin
      refine ⟨_, ?_, hin⟩
      simp only [UInt8.le_iff_toNat_le, UInt8.toNat_ofNat', UInt8.reduceToNat]
      omega
  · split_ifs at hc
    · cases hc
    · exact absurd (List.mem_singleton.mp hc) hreplaced

namespace StringDecoder

/-- What a decoder writes on its way through a stream without C1 characters is printed
without any control introducer. -/
theorem inert_write (done : Bytes) {data : Bytes} (htext : ¬HoldsC1 text)
    (hpre : done ++ data <+: text) :
    Inert (strip (write (write [] done).2 data).1) := by
  apply inert_strip
  intro c hc
  by_contra hc1
  rw [Bool.not_eq_false] at hc1
  have hall : c ∈ (write [] (done ++ data)).1 := by
    rw [write_append]
    exact List.mem_append_right _ hc
  have hdecoded := holdsC1_of_decodeText hall hc1
  have hsplit : (splitEnd (done ++ data)).1 <:+: done ++ data :=
    ⟨[], (splitEnd (done ++ data)).2, splitEnd_append_end _⟩
  exact htext (hdecoded.of_isInfix (hsplit.trans hpre.isInfix))

/-- The first byte of a C1 character is held back, whatever stands before it. -/
theorem write_c2 (s : Bytes) : (write [] (s ++ [0xC2])).2 = [0xC2] := by
  rw [write, List.nil_append]
  induction s with
  | nil => decide
  | cons b s ih =>
    have hnot : ¬isIncomplete (b :: (s ++ [0xC2])) = true := by
      rw [isIncomplete, List.all_append, show [(0xC2 : UInt8)].all isContinuation = false by decide]
      simp
    rw [List.cons_append, splitEnd, if_neg hnot]
    exact ih

/-- Then its second byte completes it. -/
theorem write_c1 {b : UInt8} (hb : 0x80 ≤ b ∧ b ≤ 0x9F) :
    write [0xC2] [b] = ([UInt16.ofNat b.toNat], []) := by
  simp only [UInt8.le_iff_toNat_le, UInt8.reduceToNat] at hb
  have hval : (Char.ofNat b.toNat).val.toNat = b.toNat := by
    have hvalid : b.toNat.isValidChar := Or.inl (by omega)
    rw [Char.ofNat, dif_pos hvalid]
    rfl
  have hencode := encode_c1 (c := Char.ofNat b.toNat) (by omega)
  have hwrite := write_encode [Char.ofNat b.toNat]
  rw [List.flatMap_singleton, List.flatMap_singleton, hencode, hval, UInt8.ofNat_toNat] at hwrite
  rw [write, List.singleton_append]
  rw [write, List.nil_append] at hwrite
  rw [hwrite]
  simp only [utf16, hval, if_pos (show b.toNat < 65536 by omega)]

end StringDecoder

namespace Follower

variable {Key : Type} {aes : Aes256Gcm Key} {key : Option Key} {k : Key} {s s' : Follower}
  {a : FollowAction} {heard : Bytes × List Text}

/-- A message keeps the output inert if the batch that it brings is printed so. -/
theorem printsInert_onBinary (h : s.PrintsInert) {data : Bytes}
    (hbatch : ∀ decoded, s.receive aes key data = some (.ok decoded) →
      Inert (strip (StringDecoder.write s.held decoded.text).1)) :
    (s.onBinary aes key data).PrintsInert := by
  unfold onBinary
  split
  · exact h
  · exact h
  · rename_i decoded hreceive
    dsimp only
    split_ifs
    · exact h
    · exact List.forall_mem_append.mpr ⟨h, List.forall_mem_singleton.mpr (hbatch _ hreceive)⟩

theorem printsInert_step (h : s.PrintsInert) (hstep : step aes key s a = some s')
    (hbatch : ∀ data decoded, a = .binary data → s.receive aes key data = some (.ok decoded) →
      Inert (strip (StringDecoder.write s.held decoded.text).1)) : s'.PrintsInert := by
  unfold step at hstep
  split_ifs at hstep
  cases a with
  | text data =>
    obtain rfl := Option.some.inj hstep
    rw [PrintsInert, stdout_onText]
    exact h
  | binary data =>
    obtain rfl := Option.some.inj hstep
    exact printsInert_onBinary h (hbatch data · rfl)
  | elapse ms =>
    obtain rfl := Option.some.inj hstep
    exact h
  | fire handle =>
    dsimp only at hstep
    split_ifs at hstep
    obtain rfl := Option.some.inj hstep
    exact h

/-- Without a key the bytes that arrive are decoded as they are. -/
structure ReadsPlain (s : Follower) (heard : Bytes × List Text) : Prop where
  buf : s.buf = []
  held : s.held = (StringDecoder.write [] heard.1).2

theorem ReadsPlain.receive_eq (aes : Aes256Gcm Key) (h : ReadsPlain s heard) (data : Bytes) :
    s.receive aes none data = some (.ok ⟨data, data.length⟩) ∨
      ∃ message, s.receive aes none data = some (.error message) := by
  rw [receive, h.buf, List.nil_append]
  split
  · exact Or.inr ⟨_, rfl⟩
  · have hnonneg : (data.length : ℤ) ≠ -1 := by omega
    simp only [decode, Option.map_some, if_neg hnonneg]
    exact Or.inl trivial

theorem ReadsPlain.onText (h : ReadsPlain s heard) (data : String) :
    ReadsPlain (s.onText (none : Option Key) data) heard := by
  unfold Follower.onText
  split
  · exact ⟨h.buf, h.held⟩
  · exact ⟨h.buf, h.held⟩
  · exact ⟨h.buf, h.held⟩
  · split_ifs <;> exact ⟨h.buf, h.held⟩
  · exact h

theorem ReadsPlain.onBinary (h : ReadsPlain s heard) (data : Bytes) (texts : List Text)
    (hlive : (s.onBinary aes none data).ended = none) :
    ReadsPlain (s.onBinary aes none data) (heard.1 ++ data, texts) := by
  rcases h.receive_eq aes data with hreceive | ⟨message, hreceive⟩
  · have hall : (s.buf ++ data).drop data.length = [] := by
      rw [h.buf, List.nil_append, List.drop_length]
    rw [Follower.onBinary, hreceive]
    dsimp only
    rw [Int.toNat_natCast, hall, h.held]
    split_ifs <;> exact ⟨rfl, by rw [StringDecoder.write_append]⟩
  · rw [Follower.onBinary, hreceive] at hlive
    cases hlive

theorem ReadsPlain.step {p p' : Follower × (Bytes × List Text)} (h : ReadsPlain p.1 p.2)
    (hstep : withHistory (Follower.step aes none) (noteHeard aes none) p a = some p')
    (hlive : p'.1.ended = none) : ReadsPlain p'.1 p'.2 := by
  obtain ⟨hstep, hnote⟩ := withHistory_eq_some.mp hstep
  rw [hnote]
  unfold Follower.step at hstep
  split_ifs at hstep
  cases a with
  | text data =>
    rw [← Option.some.inj hstep]
    exact h.onText data
  | binary data =>
    rw [← Option.some.inj hstep] at hlive ⊢
    exact h.onBinary data _ hlive
  | elapse ms =>
    rw [← Option.some.inj hstep]
    exact ⟨h.buf, h.held⟩
  | fire handle =>
    dsimp only at hstep
    split_ifs at hstep
    rw [← Option.some.inj hstep]
    exact ⟨h.buf, h.held⟩

/-- With a key, a first message that starts with no whole record is refused. -/
theorem receive_of_not_opensFramed (aes : Aes256Gcm Key) (k : Key)
    (hbuf : s.checked = false → s.buf = []) {data : Bytes}
    (h : ¬s.OpensFramed (.binary data)) :
    ∃ message, s.receive aes (some k) data = some (.error message) := by
  simp only [OpensFramed, Classical.not_imp, not_or] at h
  obtain ⟨hchecked, hne, hframed⟩ := h
  rw [receive, hbuf hchecked, List.nil_append, hchecked, if_neg Bool.false_ne_true]
  have hempty : data.isEmpty = false := by rwa [List.isEmpty_eq_false_iff]
  simp [mismatch, hempty, hframed]

theorem Reads.step {records : List (SealedRecord aes)} {p p' : Follower × (Bytes × List Text)}
    (h : Reads records p.1 p.2) (hkeys : ∀ r ∈ records, r.key = k)
    (hstep : withHistory (Follower.step aes (some k)) (noteHeard aes (some k)) p a = some p')
    (harrived : p'.2.1 <+: SealedRecord.stream records) (hlive : p'.1.ended = none) :
    Reads records p'.1 p'.2 := by
  by_cases hopens : p.1.OpensFramed a
  · exact reads_step hkeys h hopens hstep harrived
  · obtain ⟨hstep, -⟩ := withHistory_eq_some.mp hstep
    unfold Follower.step at hstep
    split_ifs at hstep
    cases a with
    | binary data =>
      obtain ⟨message, hreceive⟩ := receive_of_not_opensFramed aes k h.unchecked hopens
      rw [← Option.some.inj hstep, Follower.onBinary, hreceive] at hlive
      cases hlive
    | text data => exact absurd trivial hopens
    | elapse ms => exact absurd trivial hopens
    | fire handle => exact absurd trivial hopens

section Runs
variable {wire : Bytes} {G : Follower → Bytes × List Text → Prop}

/-- A follow that reads a stream without C1 characters, as long as it goes on, has printed no
control introducer. -/
theorem printsInert_of_run (htext : ¬HoldsC1 text) (hstart : G start ([], []))
    (hstep : ∀ p a p', G p.1 p.2 →
      withHistory (step aes key) (noteHeard aes key) p a = some p' → p'.2.1 <+: wire →
      p'.1.ended = none → G p'.1 p'.2)
    (hbatch : ∀ s heard data decoded, G s heard → heard.1 ++ data <+: wire →
      s.receive aes key data = some (.ok decoded) → ∃ done,
        (StringDecoder.write [] done).2 = s.held ∧ done ++ decoded.text <+: text)
    {as : List FollowAction} {s : Follower} (hrun : run (step aes key) start as = some s)
    (harrived : (as.filterMap dataOf).flatten <+: wire) : s.PrintsInert := by
  obtain ⟨heard, hhistory⟩ := exists_history hrun (noteHeard aes key) ([], [])
  have hall : heard.1 = (as.filterMap dataOf).flatten := heard_of_run hhistory
  rw [← hall] at harrived
  refine (run_preserves (I := fun p : Follower × (Bytes × List Text) =>
    p.2.1 <+: wire → p.1.PrintsInert ∧ (p.1.ended = none → G p.1 p.2)) ?_ ?_ hhistory
      harrived).1
  · -- what had arrived before is a part of the stream, too
    intro p a p' hI hp harrived'
    obtain ⟨hprints, hreads⟩ := hI ((heard_grows hp).trans harrived')
    obtain ⟨hs, hnote⟩ := withHistory_eq_some.mp hp
    have hlive : p.1.ended = none := by
      by_contra hended
      unfold step at hs
      rw [if_pos (Option.isSome_iff_ne_none.mpr hended)] at hs
      cases hs
    refine ⟨printsInert_step hprints hs ?_, hstep p a p' (hreads hlive) hp harrived'⟩
    rintro data decoded rfl hreceive
    rw [hnote] at harrived'
    obtain ⟨done, hheld, hpre⟩ := hbatch p.1 p.2 data decoded (hreads hlive) harrived' hreceive
    rw [← hheld]
    exact StringDecoder.inert_write _ htext hpre
  · exact fun _ => ⟨List.forall_mem_nil _, fun _ => hstart⟩

end Runs

/-- What is sent of a plaintext: itself without a key, records of the key otherwise. -/
def Carries (aes : Aes256Gcm Key) (key : Option Key) (text wire : Bytes) : Prop :=
  match key with
  | none => wire = text
  | some k => ∃ records : List (SealedRecord aes), (∀ r ∈ records, r.key = k) ∧
      records.flatMap SealedRecord.plaintext = text ∧ SealedRecord.stream records = wire

/-- However it is sent, cut and read, a stream without C1 characters is printed without any
control introducer. -/
theorem printsInert_of_carries {wire : Bytes} (htext : ¬HoldsC1 text)
    (hcarries : Carries aes key text wire) {as : List FollowAction}
    (hrun : run (step aes key) start as = some s)
    (harrived : (as.filterMap dataOf).flatten <+: wire) : s.PrintsInert := by
  cases key with
  | none =>
    obtain rfl : wire = text := hcarries
    apply printsInert_of_run (G := ReadsPlain) htext ⟨rfl, ?_⟩ ?_ ?_ hrun harrived
    · rw [StringDecoder.write_nil]
      rfl
    · exact fun p a p' h hp _ hlive => h.step hp hlive
    · intro s heard data decoded h hpre hreceive
      refine ⟨heard.1, h.held.symm, ?_⟩
      rcases h.receive_eq aes data with hok | ⟨message, herror⟩
      · rw [hreceive] at hok
        rw [Except.ok.inj (Option.some.inj hok)]
        exact hpre
      · rw [hreceive] at herror
        cases herror
  | some k =>
    obtain ⟨records, hkeys, rfl, rfl⟩ := hcarries
    apply printsInert_of_run (G := Reads records) htext (reads_start records) ?_ ?_ hrun harrived
    · exact fun p a p' h hp harrived' hlive => h.step hkeys hp harrived' hlive
    · intro s heard data decoded h hpre hreceive
      by_cases hopens : s.OpensFramed (.binary data)
      · obtain ⟨done, new, others, tail, hall, -, -, -, hwritten, hok⟩ :=
          h.receive_eq hkeys hopens hpre
        rw [hok] at hreceive
        rw [← Except.ok.inj (Option.some.inj hreceive)]
        refine ⟨done.flatMap SealedRecord.plaintext, by rw [hwritten], ?_⟩
        rw [hall, List.flatMap_append, List.flatMap_append]
        exact List.prefix_append _ _
      · -- the follow ends over the key, and prints nothing
        obtain ⟨message, herror⟩ := receive_of_not_opensFramed aes k h.unchecked hopens
        rw [hreceive] at herror
        cases herror

theorem inert_printedHistory {wire : Bytes} (htext : ¬HoldsC1 text)
    (hcarries : Carries aes key text wire) : Inert (printedHistory aes key wire) := by
  have hprinted : ∀ plain, readHistory aes key wire = some (.ok plain) → plain = text := by
    intro plain hread
    cases key with
    | none =>
      obtain rfl : wire = text := hcarries
      rw [readHistory] at hread
      split at hread
      · cases hread
      · have hnonneg : (wire.length : ℤ) ≠ -1 := by omega
        simp only [decode, Option.map_some, if_neg hnonneg] at hread
        exact (Except.ok.inj (Option.some.inj hread)).symm
    | some k =>
      obtain ⟨records, hkeys, rfl, rfl⟩ := hcarries
      rw [readHistory_own hkeys] at hread
      exact (Except.ok.inj (Option.some.inj hread)).symm
  rw [printedHistory]
  split
  · rename_i plain hread
    rw [hprinted plain hread]
    have hwrite := StringDecoder.inert_write [] htext List.prefix_rfl
    rwa [StringDecoder.write_nil] at hwrite
  · exact List.forall_mem_nil _

/-- Any byte can be sealed under any key. -/
def SealsBytes (aes : Aes256Gcm Key) : Prop :=
  ∀ k b, ∃ r : SealedRecord aes, r.key = k ∧ r.plaintext = [b]

theorem Carries.append {text' wire wire' : Bytes} (h : Carries aes key text wire)
    (h' : Carries aes key text' wire') : Carries aes key (text ++ text') (wire ++ wire') := by
  cases key with
  | none => exact congrArg₂ (· ++ ·) h h'
  | some k =>
    obtain ⟨records, hkeys, rfl, rfl⟩ := h
    obtain ⟨others, hkeys', rfl, rfl⟩ := h'
    exact ⟨records ++ others, List.forall_mem_append.mpr ⟨hkeys, hkeys'⟩, List.flatMap_append,
      List.flatMap_append⟩

theorem exists_carries_byte (hseals : SealsBytes aes) (key : Option Key) (b : UInt8) :
    ∃ data, Carries aes key [b] data := by
  cases key with
  | none => exact ⟨[b], rfl⟩
  | some k =>
    obtain ⟨r, hkey, hplain⟩ := hseals k b
    exact ⟨_, [r], List.forall_mem_singleton.mpr hkey, by rw [List.flatMap_singleton, hplain], rfl⟩

/-- A message that carries one byte is decoded at once. -/
theorem receive_byte (hbuf : s.buf = []) {b : UInt8} {data : Bytes}
    (h : Carries aes key [b] data) : s.receive aes key data = some (.ok ⟨[b], data.length⟩) := by
  have hnonneg : (data.length : ℤ) ≠ -1 := by omega
  have hcheck : mismatch key data = none := by
    cases key with
    | none =>
      obtain rfl : data = [b] := h
      simp [mismatch, isFramed]
    | some k =>
      obtain ⟨records, -, -, rfl⟩ := h
      exact mismatch_stream records
  have hdecode : decode aes key data = some ⟨[b], data.length⟩ := by
    cases key with
    | none =>
      obtain rfl : data = [b] := h
      rfl
    | some k =>
      obtain ⟨records, hkeys, hplain, rfl⟩ := h
      have hloop := decodeFrom_stream hkeys (Nat.zero_le _)
        (List.drop_zero.trans (List.append_nil _).symm) (Or.inl rfl : Partial [] []) []
      rw [Nat.zero_add, List.nil_append, ← List.flatMap_def, hplain] at hloop
      exact hloop
  rw [receive, hbuf, List.nil_append, hcheck, ite_self, hdecode]
  simp only [Option.map_some, if_neg hnonneg]

theorem onBinary_byte (hbuf : s.buf = []) {b : UInt8} {data : Bytes}
    (h : Carries aes key [b] data) :
    (s.onBinary aes key data).buf = [] ∧ (s.onBinary aes key data).ended = s.ended ∧
      (s.onBinary aes key data).held = (StringDecoder.write s.held [b]).2 ∧
      (strip (StringDecoder.write s.held [b]).1 ≠ [] →
        strip (StringDecoder.write s.held [b]).1 ∈ (s.onBinary aes key data).stdout) := by
  have hall : (s.buf ++ data).drop data.length = [] := by
    rw [hbuf, List.nil_append, List.drop_length]
  rw [onBinary, receive_byte hbuf h]
  dsimp only
  rw [Int.toNat_natCast, hall]
  split_ifs with hempty
  · exact ⟨rfl, rfl, rfl, fun hne => absurd hempty hne⟩
  · exact ⟨rfl, rfl, rfl, fun _ => List.mem_append_right _ List.mem_cons_self⟩

/-- Any stream can be sent byte by byte, and the decoder gets it so. -/
theorem exists_bytewise (hseals : SealsBytes aes) (key : Option Key) (bytes : Bytes) :
    ∃ (frames : List Bytes) (s : Follower), Carries aes key bytes frames.flatten ∧
      run (step aes key) start (frames.map .binary) = some s ∧ s.buf = [] ∧ s.ended = none ∧
      s.held = (StringDecoder.write [] bytes).2 := by
  induction bytes using List.reverseRecOn with
  | nil =>
    refine ⟨[], start, ?_, rfl, rfl, rfl, by rw [StringDecoder.write_nil]; rfl⟩
    cases key with
    | none => rfl
    | some k => exact ⟨[], List.forall_mem_nil _, rfl, rfl⟩
  | append_singleton bytes b ih =>
    obtain ⟨frames, s, hcarries, hrun, hbuf, hlive, hheld⟩ := ih
    obtain ⟨data, hdata⟩ := exists_carries_byte hseals key b
    obtain ⟨hbuf', hlive', hheld', -⟩ := onBinary_byte hbuf hdata
    refine ⟨frames ++ [data], s.onBinary aes key data, ?_, ?_, hbuf', hlive'.trans hlive, ?_⟩
    · rw [List.flatten_append, List.flatten_singleton]
      exact hcarries.append hdata
    · rw [List.map_append, run_append, hrun]
      simp [run, step, hlive]
    · rw [hheld', hheld, StringDecoder.write_append]

/-- Cut inside of a C1 character, a stream brings the character alone into a batch. -/
theorem exists_shown (hseals : SealsBytes aes) (key : Option Key) (h : HoldsC1 text) :
    ∃ wire as s, Carries aes key text wire ∧ run (step aes key) start as = some s ∧
      (as.filterMap dataOf).flatten <+: wire ∧ ¬s.PrintsInert := by
  obtain ⟨b, hb, before, after, rfl⟩ := h
  obtain ⟨frames, s, hcarries, hrun, hbuf, hlive, hheld⟩ :=
    exists_bytewise hseals key (before ++ [0xC2])
  obtain ⟨data, hdata⟩ := exists_carries_byte hseals key b
  obtain ⟨later, _, hlater, -⟩ := exists_bytewise hseals key after
  obtain ⟨-, -, -, hprinted⟩ := onBinary_byte hbuf hdata
  -- the batch is the character, which no shape matches
  have hnat : 0x80 ≤ b.toNat ∧ b.toNat ≤ 0x9F := by
    simpa [UInt8.le_iff_toNat_le] using hb
  have hc1 : isC1 (UInt16.ofNat b.toNat) = true := by
    simp only [isC1, UInt16.le_iff_toNat_le, UInt16.toNat_ofNat', Bool.and_eq_true,
      decide_eq_true_eq, UInt16.reduceToNat]
    omega
  have hesc : UInt16.ofNat b.toNat ≠ esc := by
    intro heq
    rw [heq] at hc1
    exact absurd hc1 (by decide)
  rw [hheld, StringDecoder.write_c2, StringDecoder.write_c1 hb, strip_singleton hesc] at hprinted
  refine ⟨frames.flatten ++ data ++ later.flatten, (frames ++ [data]).map .binary,
    s.onBinary aes key data, ?_, ?_, ?_, ?_⟩
  · have hall := (hcarries.append hdata).append hlater
    rw [List.append_assoc before] at hall
    exact hall
  · rw [List.map_append, run_append, hrun]
    simp [run, step, hlive]
  · rw [filterMap_dataOf, List.flatten_append, List.flatten_singleton]
    exact List.prefix_append _ _
  · intro hinert
    have hchar := hinert _ (hprinted (List.cons_ne_nil _ _)) _ List.mem_cons_self
    rw [hc1] at hchar
    exact absurd hchar.2 (by decide)

/-- What is printed, with `--follow` and without it, is inert for every cut of a stream
exactly when the stream has no C1 character. -/
theorem printed_inert_iff (aes : Aes256Gcm Key) (hseals : SealsBytes aes) (key : Option Key)
    (text : Bytes) :
    (∀ wire, Carries aes key text wire → Inert (printedHistory aes key wire) ∧
      ∀ as s, run (step aes key) start as = some s → (as.filterMap dataOf).flatten <+: wire →
        s.PrintsInert) ↔ ¬HoldsC1 text := by
  constructor
  · intro h hc1
    obtain ⟨wire, as, s, hcarries, hrun, harrived, hshown⟩ := exists_shown hseals key hc1
    exact hshown ((h wire hcarries).2 as s hrun harrived)
  · intro htext wire hcarries
    exact ⟨inert_printedHistory htext hcarries,
      fun as s hrun harrived => printsInert_of_carries htext hcarries hrun harrived⟩

/-- `ESC ] 0 ;` and a BEL, and an `é` behind it. -/
def titled : Bytes := [27, 93, 48, 59, 7, 0xC3, 0xA9]

def titledRecords : List (SealedRecord tagged) :=
  [⟨1, blankNonce, titled.take 3, _, rfl⟩, ⟨1, blankNonce, titled.drop 3, _, rfl⟩]

theorem printed_inert_titled :
    Inert (printedHistory tagged (some 1) (SealedRecord.stream titledRecords)) ∧
      ∃ (frames : List Bytes) (s : Follower), frames.flatten = titled ∧
        run (step tagged none) start (frames.map .binary) = some s ∧ s.PrintsInert := by
  have hseals : SealsBytes tagged := fun k b => ⟨⟨k, blankNonce, [b], _, rfl⟩, rfl, rfl⟩
  have htext : ¬HoldsC1 titled := by
    rintro ⟨b, -, hb⟩
    have hin : (0xC2 : UInt8) ∈ titled := hb.subset List.mem_cons_self
    exact absurd hin (by decide)
  constructor
  · exact ((printed_inert_iff tagged hseals (some 1) titled).mpr htext _
      ⟨titledRecords, by decide, rfl, rfl⟩).1
  · obtain ⟨frames, s, hcarries, hrun, -⟩ := exists_bytewise hseals none titled
    refine ⟨frames, s, hcarries, hrun, ?_⟩
    apply ((printed_inert_iff tagged hseals none titled).mpr htext _ rfl).2 _ s hrun
    rw [filterMap_dataOf, hcarries]

/-- The 8-bit introducer U+009B and `2J`, in UTF-8. -/
def eightBitClear : Bytes := [0xC2, 0x9B, 50, 74]

/-- It reaches the terminal, from a history and from a live message. -/
theorem c1_reaches_terminal :
    ¬Inert (printedHistory tagged none eightBitClear) ∧
      ¬StatesSatisfy (step tagged none) PrintsInert start [.binary eightBitClear] := by
  have hchars : eightBitClear = [Char.ofNat 0x9B, '2', 'J'].flatMap String.utf8EncodeChar := by
    decide
  have hwrite : StringDecoder.write [] eightBitClear = ([0x9B, 50, 74], []) := by
    rw [hchars, StringDecoder.write_encode]
    decide
  have hread : readHistory tagged none eightBitClear = some (.ok eightBitClear) := by decide
  have hshown : ¬Inert (strip [0x9B, 50, 74]) := by decide
  constructor
  · rw [printedHistory, hread]
    dsimp only
    rwa [hwrite]
  · rintro ⟨-, h⟩
    have hreceive : start.receive tagged none eightBitClear = some (.ok ⟨eightBitClear, 4⟩) := rfl
    have hprints : (start.onBinary tagged none eightBitClear).PrintsInert := h _ rfl
    apply hshown
    apply hprints
    rw [onBinary, hreceive]
    dsimp only
    rw [start, hwrite]
    decide

end Follower

end Shellshare
