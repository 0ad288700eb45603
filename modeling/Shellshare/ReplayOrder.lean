import Shellshare.TransportAccounting

/-! Where each queued chunk is, and in which order a connection gets them. -/
namespace Shellshare.ReplayBuffer
open CumulativeAcks

/-- A connection is handed chunks in the order they were queued, each once. -/
structure Ordered (b : ReplayBuffer) : Prop where
  sorted : ∀ j, (b.wrote j).Pairwise fun c d => c.seq < d.seq
  ahead : ∀ j, b.socket = some j → ∀ c ∈ b.wrote j, ∀ d ∈ b.pending, c.seq < d.seq

/-- Nothing is lost from one buffer to the next but by the cap. -/
structure Keeps (b b' : ReplayBuffer) : Prop where
  queued : ∀ c ∈ b'.queued, c ∈ b.queued ∨ c ∈ b'.held ∨ c ∈ b'.discarded
  kept : ∀ c, c ∈ b.held ∨ c ∈ b.discarded → c ∈ b'.held ∨ c ∈ b'.discarded

theorem ordered_empty : Ordered empty :=
  ⟨fun _ => List.Pairwise.nil, nofun⟩

theorem Counted.sorted_queued {b : ReplayBuffer} (h : Counted b) :
    b.queued.Pairwise fun c d => c.seq < d.seq := by
  have hsorted : (b.queued.map Chunk.seq).Pairwise (· < ·) := by
    rw [h.numbered]
    exact List.pairwise_lt_range
  exact List.pairwise_map.mp hsorted

theorem Counted.seq_lt {b : ReplayBuffer} (h : Counted b) {c : Chunk} (hc : c ∈ b.queued) :
    c.seq < b.queued.length := by
  have hmem : c.seq ∈ b.queued.map Chunk.seq := List.mem_map_of_mem hc
  rwa [h.numbered, List.mem_range] at hmem

/-- The chunk to be written next comes before all that wait behind it. -/
theorem Counted.front_lt {b : ReplayBuffer} (h : Counted b) {chunk : Chunk} {rest : List Chunk}
    (hp : b.pending = chunk :: rest) : ∀ d ∈ rest, chunk.seq < d.seq := by
  have hpending : b.pending <:+ b.queued := (List.suffix_append b.unacked b.pending).trans h.suffix
  have hsorted := h.sorted_queued.sublist hpending.sublist
  rw [hp] at hsorted
  exact (List.pairwise_cons.mp hsorted).1

theorem ordered_bufferSealed {b : ReplayBuffer} (h : Ordered b) (hc : Counted b) (hs : Settled b)
    (sealed : Bytes) : Ordered (b.bufferSealed sealed) := by
  obtain ⟨-, rest, -, hp, -, -, -, -, -⟩ := evict_spec
    { b with
      bufferedBytes := b.bufferedBytes + Chunk.len ⟨b.queued.length, sealed⟩
      pending := b.pending ++ [⟨b.queued.length, sealed⟩]
      queued := b.queued ++ [⟨b.queued.length, sealed⟩] }
  have hp : b.pending ++ [⟨b.queued.length, sealed⟩] =
      rest ++ (b.bufferSealed sealed).pending := hp
  refine ⟨h.sorted, fun j hj c hmem d hd => ?_⟩
  have hd : d ∈ b.pending ++ [⟨b.queued.length, sealed⟩] :=
    hp ▸ List.mem_append_right rest hd
  rcases List.mem_append.mp hd with hd | hd
  · exact h.ahead j hj c hmem d hd
  · -- the new chunk has the highest number so far
    obtain rfl := List.mem_singleton.mp hd
    exact hc.seq_lt (hs.handed j hmem)

/-- The chunks of one connection stay sorted when the front of `pending` is added. -/
theorem sorted_hand {b : ReplayBuffer} (h : Ordered b) {chunk : Chunk} {rest : List Chunk}
    (hp : b.pending = chunk :: rest) (i : ℕ) :
    ((b.hand chunk).wrote i).Pairwise fun c d => c.seq < d.seq := by
  cases hj : b.socket with
  | none =>
    simp only [hand, hj]
    exact h.sorted i
  | some j =>
    rw [wrote_hand hj]
    split
    · rw [List.pairwise_append]
      refine ⟨h.sorted j, List.pairwise_singleton _ _, fun c hc d hd => ?_⟩
      obtain rfl := List.mem_singleton.mp hd
      exact h.ahead j hj c hc _ (hp ▸ List.mem_cons_self)
    · exact h.sorted i

theorem ordered_sent {b : ReplayBuffer} (h : Ordered b) (hc : Counted b) {chunk : Chunk}
    {rest : List Chunk} (hp : b.pending = chunk :: rest) :
    Ordered ((b.hand chunk).advance chunk rest) := by
  refine ⟨sorted_hand h hp, fun j hj c hmem d hd => ?_⟩
  have hj : b.socket = some j := by
    rw [hand_eq] at hj
    exact hj
  have hmem : c ∈ (b.hand chunk).wrote j := hmem
  rw [wrote_hand hj, if_pos rfl] at hmem
  -- the chunk just written was at the front of `pending`
  rcases List.mem_append.mp hmem with hmem | hmem
  · exact h.ahead j hj c hmem d (hp ▸ List.mem_cons_of_mem _ hd)
  · obtain rfl := List.mem_singleton.mp hmem
    exact hc.front_lt hp d hd

theorem ordered_lost {b : ReplayBuffer} (h : Ordered b) {chunk : Chunk} {rest : List Chunk}
    (hp : b.pending = chunk :: rest) : Ordered (b.hand chunk).disconnect :=
  ⟨sorted_hand h hp, nofun⟩

theorem ordered_disconnect {b : ReplayBuffer} (h : Ordered b) : Ordered b.disconnect :=
  ⟨h.sorted, nofun⟩

theorem ordered_accept {b : ReplayBuffer} (h : Ordered b) : Ordered b.accept := by
  refine ⟨fun i => ?_, fun j hj c hmem => ?_⟩
  · by_cases hi : i = b.connections
    · subst hi
      simp [accept]
    · rw [show b.accept.wrote i = b.wrote i from Function.update_of_ne hi _ _]
      exact h.sorted i
  · obtain rfl : b.connections = j := Option.some.inj hj
    rw [show b.accept.wrote b.connections = [] from Function.update_self _ _ _] at hmem
    exact absurd hmem List.not_mem_nil

theorem keeps_refl (b : ReplayBuffer) : Keeps b b := ⟨fun _ => Or.inl, fun _ => id⟩

theorem Keeps.trans {a b c : ReplayBuffer} (h : Keeps a b) (h' : Keeps b c) : Keeps a c := by
  refine ⟨fun x hx => ?_, fun x hx => h'.kept x (h.kept x hx)⟩
  rcases h'.queued x hx with hx | hx
  · exact (h.queued x hx).imp_right (h'.kept x)
  · exact Or.inr hx

theorem keeps_evict (b : ReplayBuffer) (c : Chunk) (hc : c ∈ b.held ∨ c ∈ b.discarded) :
    c ∈ b.evict.held ∨ c ∈ b.evict.discarded := by
  obtain ⟨front, rest, hu, hp, hd, -, -, -, -⟩ := evict_spec b
  simp only [held, hu, hp, hd, List.mem_append] at hc ⊢
  tauto

theorem keeps_bufferSealed (b : ReplayBuffer) (sealed : Bytes) :
    Keeps b (b.bufferSealed sealed) := by
  refine ⟨fun c hc => ?_, fun c hc => keeps_evict _ c ?_⟩
  · rcases List.mem_append.mp hc with hc | hc
    · exact Or.inl hc
    · refine Or.inr (keeps_evict _ c (Or.inl ?_))
      exact List.mem_append_right _ (List.mem_append_right _ hc)
  · refine hc.imp_left fun hc => ?_
    simp only [held, List.mem_append] at hc ⊢
    tauto

theorem keeps_bufferSealed_foldl (b : ReplayBuffer) (records : List Bytes) :
    Keeps b (records.foldl bufferSealed b) := by
  induction records generalizing b with
  | nil => exact keeps_refl b
  | cons record records ih => exact (keeps_bufferSealed b record).trans (ih _)

theorem ordered_bufferSealed_foldl {b : ReplayBuffer} (h : Ordered b) (hc : Counted b)
    (hs : Settled b) {records : List Bytes} (hne : ∀ record ∈ records, record ≠ []) :
    Ordered (records.foldl bufferSealed b) := by
  induction records generalizing b with
  | nil => exact h
  | cons record records ih =>
    have hrecord : record ≠ [] := hne record List.mem_cons_self
    exact ih (ordered_bufferSealed h hc hs record) (counted_bufferSealed hc hrecord)
      (settled_bufferSealed hs record) fun r hr => hne r (List.mem_cons_of_mem _ hr)

theorem keeps_advance {b : ReplayBuffer} {chunk : Chunk} {rest : List Chunk}
    (hp : b.pending = chunk :: rest) : Keeps b ((b.hand chunk).advance chunk rest) := by
  refine ⟨fun c hc => Or.inl ?_, fun c hc => ?_⟩
  · rwa [hand_eq] at hc
  · rw [hand_eq]
    simpa [held, advance, hp, List.append_assoc] using hc

theorem keeps_disconnect (b : ReplayBuffer) : Keeps b b.disconnect :=
  ⟨fun _ => Or.inl, fun _ => id⟩

theorem keeps_lost (b : ReplayBuffer) (chunk : Chunk) : Keeps b (b.hand chunk).disconnect := by
  rw [hand_eq]
  exact ⟨fun _ => Or.inl, fun _ => id⟩

end Shellshare.ReplayBuffer
