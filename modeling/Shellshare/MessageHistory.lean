import Shellshare.LongestSuffix
import Shellshare.Protocol

namespace Shellshare
open LongestSuffix

/-- Bounded message history for replaying to late joiners. `bytes` is the
running sum of the chunk lengths, maintained on every push and eviction. -/
structure MessageHistory where
  chunks : List Bytes
  maxMessages : ℕ
  maxBytes : ℕ
  bytes : ℕ

namespace MessageHistory

def new (maxMessages maxBytes : ℕ) : MessageHistory := ⟨[], maxMessages, maxBytes, 0⟩

/-- The eviction loop of `push`: drop from the front while a bound is exceeded. -/
def evict (maxMessages maxBytes : ℕ) : List Bytes → ℕ → List Bytes × ℕ
  | [], bytes => ([], bytes)
  | dropped :: chunks, bytes =>
    -- the newest chunk survives the byte bound, whatever its length
    if maxMessages < chunks.length + 1 ∨ (maxBytes < bytes ∧ 1 < chunks.length + 1) then
      evict maxMessages maxBytes chunks (bytes - dropped.length)
    else (dropped :: chunks, bytes)

def push (h : MessageHistory) (message : Bytes) : MessageHistory :=
  if message = [] then h
  else
    let kept := evict h.maxMessages h.maxBytes (h.chunks ++ [message]) (h.bytes + message.length)
    { h with chunks := kept.1, bytes := kept.2 }

def accumulated (h : MessageHistory) : Option Bytes :=
  if h.chunks = [] then none else some h.chunks.flatten

/-- `evict` with every subtraction checked; `none` is an underflow. -/
def evictChecked (maxMessages maxBytes : ℕ) : List Bytes → ℕ → Option (List Bytes × ℕ)
  | [], bytes => some ([], bytes)
  | dropped :: chunks, bytes =>
    if maxMessages < chunks.length + 1 ∨ (maxBytes < bytes ∧ 1 < chunks.length + 1) then
      if dropped.length ≤ bytes then
        evictChecked maxMessages maxBytes chunks (bytes - dropped.length)
      else none
    else some (dropped :: chunks, bytes)

/-- `push` with every subtraction checked; `none` is an underflow. -/
def pushChecked (h : MessageHistory) (message : Bytes) : Option MessageHistory :=
  if message = [] then some h
  else (evictChecked h.maxMessages h.maxBytes (h.chunks ++ [message])
    (h.bytes + message.length)).map fun kept => { h with chunks := kept.1, bytes := kept.2 }

/-- What both bounds allow a history to hold. -/
def Allowed (maxMessages maxBytes : ℕ) (chunks : List Bytes) : Prop :=
  chunks.length ≤ maxMessages ∧ (totalLength chunks ≤ maxBytes ∨ chunks.length = 1)

/-- The messages a history counts: empty ones are dropped on arrival. -/
def nonempty (messages : List Bytes) : List Bytes := messages.filter (fun m => !m.isEmpty)

/-- The state of a history after the messages were pushed on it: the counter is
exact and the chunks are the longest allowed suffix. -/
structure Holds (maxMessages maxBytes : ℕ) (messages : List Bytes) (h : MessageHistory) : Prop where
  maxMessages_eq : h.maxMessages = maxMessages
  maxBytes_eq : h.maxBytes = maxBytes
  bytes_eq : h.bytes = totalLength h.chunks
  window : IsLongestSuffix (Allowed maxMessages maxBytes) (nonempty messages) h.chunks

theorem evict_bytes (maxMessages maxBytes : ℕ) (chunks : List Bytes) :
    (evict maxMessages maxBytes chunks (totalLength chunks)).2 =
      totalLength (evict maxMessages maxBytes chunks (totalLength chunks)).1 := by
  induction chunks with
  | nil => rfl
  | cons dropped chunks ih =>
    unfold evict
    split
    · rwa [totalLength_cons, Nat.add_sub_cancel_left]
    · rfl

theorem evictChecked_eq_some (maxMessages maxBytes : ℕ) (chunks : List Bytes) :
    evictChecked maxMessages maxBytes chunks (totalLength chunks) =
      some (evict maxMessages maxBytes chunks (totalLength chunks)) := by
  induction chunks with
  | nil => rfl
  | cons dropped chunks ih =>
    unfold evictChecked evict
    have hle : dropped.length ≤ totalLength (dropped :: chunks) := by simp
    have hsub : totalLength (dropped :: chunks) - dropped.length = totalLength chunks := by simp
    split
    · rw [hsub, ih]
    · rfl

/-- The loop stops exactly when the front chunk may stay. -/
theorem allowed_cons_iff {maxMessages maxBytes : ℕ} {c : Bytes} {cs : List Bytes} :
    Allowed maxMessages maxBytes (c :: cs) ↔
      ¬ (maxMessages < cs.length + 1 ∨
        (maxBytes < totalLength (c :: cs) ∧ 1 < cs.length + 1)) := by
  simp only [Allowed, List.length_cons]
  omega

theorem evict_isLongestSuffix (maxMessages maxBytes : ℕ) (chunks : List Bytes) :
    IsLongestSuffix (Allowed maxMessages maxBytes) chunks
      (evict maxMessages maxBytes chunks (totalLength chunks)).1 := by
  induction chunks with
  | nil => exact isLongestSuffix_self ⟨Nat.zero_le _, Or.inl (Nat.zero_le _)⟩
  | cons dropped chunks ih =>
    unfold evict
    split
    · rename_i hover
      rw [totalLength_cons, Nat.add_sub_cancel_left]
      exact isLongestSuffix_cons_of_not (fun h => allowed_cons_iff.mp h hover) ih
    · rename_i hfits
      exact isLongestSuffix_self (allowed_cons_iff.mpr hfits)

/-- Dropping the newest chunk never breaks a bound, so the window of a longer
history lies inside the window of the shorter one. -/
theorem allowed_of_append_singleton {maxMessages maxBytes : ℕ} {cs : List Bytes} {c : Bytes}
    (h : Allowed maxMessages maxBytes (cs ++ [c])) : Allowed maxMessages maxBytes cs := by
  obtain ⟨hlen, hbytes⟩ := h
  simp only [List.length_append, List.length_singleton, totalLength_append] at hlen hbytes
  refine ⟨by omega, Or.inl ?_⟩
  rcases hbytes with hbytes | hone
  · omega
  · obtain rfl : cs = [] := List.length_eq_zero_iff.mp (by omega)
    simp

theorem nonempty_append_of_ne_nil {messages : List Bytes} {m : Bytes} (hm : m ≠ []) :
    nonempty (messages ++ [m]) = nonempty messages ++ [m] := by
  simp [nonempty, hm]

theorem nonempty_append_nil (messages : List Bytes) :
    nonempty (messages ++ [[]]) = nonempty messages := by
  simp [nonempty]

theorem holds_new (maxMessages maxBytes : ℕ) :
    Holds maxMessages maxBytes [] (new maxMessages maxBytes) :=
  ⟨rfl, rfl, rfl, isLongestSuffix_self ⟨Nat.zero_le _, Or.inl (Nat.zero_le _)⟩⟩

theorem pushChecked_eq_some {h : MessageHistory} (hb : h.bytes = totalLength h.chunks)
    (message : Bytes) : h.pushChecked message = some (h.push message) := by
  unfold pushChecked push
  split
  · rfl
  · have ht : h.bytes + message.length = totalLength (h.chunks ++ [message]) := by simp [hb]
    rw [ht, evictChecked_eq_some]
    rfl

theorem Holds.push {maxMessages maxBytes : ℕ} {messages : List Bytes} {h : MessageHistory}
    (hh : Holds maxMessages maxBytes messages h) (m : Bytes) :
    Holds maxMessages maxBytes (messages ++ [m]) (h.push m) := by
  obtain ⟨hmm, hmb, hbytes, hwin⟩ := hh
  unfold MessageHistory.push
  split
  · -- an empty message is neither stored nor counted
    rename_i hm
    subst hm
    exact ⟨hmm, hmb, hbytes, by rwa [nonempty_append_nil]⟩
  · rename_i hm
    have ht : h.bytes + m.length = totalLength (h.chunks ++ [m]) := by simp [hbytes]
    refine ⟨hmm, hmb, ?_, ?_⟩
    · simp only [ht]
      exact evict_bytes _ _ _
    · -- the new window lies in the old one and the message, which is where the loop looks
      rw [nonempty_append_of_ne_nil hm]
      apply isLongestSuffix_append_singleton (fun _ => allowed_of_append_singleton) hwin
      simp only [ht, hmm, hmb]
      exact evict_isLongestSuffix _ _ _

/-- The newest non-empty message is always kept, so a history that allows one
message at all is empty only when nothing was pushed. -/
theorem Holds.chunks_eq_nil_iff {maxMessages maxBytes : ℕ} {messages : List Bytes}
    {h : MessageHistory} (hh : Holds maxMessages maxBytes messages h) (hmm : 1 ≤ maxMessages) :
    h.chunks = [] ↔ ∀ m ∈ messages, m = [] := by
  have hnil : nonempty messages = [] ↔ ∀ m ∈ messages, m = [] := by
    simp [nonempty, List.filter_eq_nil_iff]
  rw [← hnil]
  constructor
  · intro hc
    -- the newest message alone is within both bounds
    rcases List.eq_nil_or_concat' (nonempty messages) with h0 | ⟨ms, m, h0⟩
    · exact h0
    · have hsuf : [m] <:+ nonempty messages := ⟨ms, h0.symm⟩
      have hlong := hh.window.longest [m] hsuf ⟨hmm, Or.inr rfl⟩
      rw [hc] at hlong
      exact absurd (List.suffix_nil.mp hlong) (List.cons_ne_nil m [])
  · intro h0
    exact List.suffix_nil.mp (h0 ▸ hh.window.suffix)

theorem Holds.accumulated_eq_none_iff {maxMessages maxBytes : ℕ} {messages : List Bytes}
    {h : MessageHistory} (hh : Holds maxMessages maxBytes messages h) (hmm : 1 ≤ maxMessages) :
    h.accumulated = none ↔ ∀ m ∈ messages, m = [] := by
  rw [← hh.chunks_eq_nil_iff hmm]
  simp [accumulated]

theorem accumulated_getD (h : MessageHistory) : h.accumulated.getD [] = h.chunks.flatten := by
  unfold accumulated
  split
  · rename_i hc
    simp [hc]
  · rfl

/-- Pushing a whole sequence, with no underflow on the way. -/
theorem holds_foldl (maxMessages maxBytes : ℕ) (messages : List Bytes) :
    Holds maxMessages maxBytes messages (messages.foldl push (new maxMessages maxBytes)) := by
  induction messages using List.reverseRecOn with
  | nil => exact holds_new _ _
  | append_singleton messages m ih =>
    rw [List.foldl_append]
    exact ih.push m

theorem foldlM_pushChecked (maxMessages maxBytes : ℕ) (messages : List Bytes) :
    messages.foldlM pushChecked (new maxMessages maxBytes) =
      some (messages.foldl push (new maxMessages maxBytes)) := by
  induction messages using List.reverseRecOn with
  | nil => rfl
  | append_singleton messages m ih =>
    rw [List.foldlM_append, ih, List.foldl_append]
    simp only [List.foldlM_cons, List.foldlM_nil, List.foldl_cons, List.foldl_nil]
    change (pushChecked _ m).bind pure = _
    rw [pushChecked_eq_some (holds_foldl maxMessages maxBytes messages).bytes_eq]
    rfl

/-- With every message below the byte bound, the exception for a single
oversized chunk never applies. -/
theorem Holds.bytes_le {maxMessages maxBytes : ℕ} {messages : List Bytes} {h : MessageHistory}
    (hh : Holds maxMessages maxBytes messages h) (hcap : ∀ m ∈ messages, m.length ≤ maxBytes) :
    h.bytes ≤ maxBytes := by
  rw [hh.bytes_eq]
  rcases hh.window.holds.2 with hle | hone
  · exact hle
  · obtain ⟨m, hm⟩ := List.length_eq_one_iff.mp hone
    have hmem : m ∈ nonempty messages := hh.window.suffix.subset (hm ▸ List.mem_singleton_self m)
    simpa [hm] using hcap m (List.mem_filter.mp hmem).1

end MessageHistory

end Shellshare
