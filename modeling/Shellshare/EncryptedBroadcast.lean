import Shellshare.Broadcast
import Shellshare.ReplayWindow
import Shellshare.RoomIsolation
import Shellshare.ViewerPage

/-! An encrypted broadcast from the keystrokes to the page: what the client seals is all
that its room stores, and a viewer page with the key shows the plaintexts. -/
namespace Shellshare
open FrameCoalescing TransitionRuns LengthPrefix

section Sealing
variable {Key : Type} (aes : Aes256Gcm Key) (key : Key)

/-- A record sealed under the key. -/
def SealedUnder (bytes : Bytes) : Prop := ∃ s : SealedRecord aes, s.key = key ∧ s.bytes = bytes

variable {aes key}

theorem sealedUnder_of_sealed {nonce : Nonce} {data record : Bytes}
    (h : sealed (some (aes.encryptor key)) nonce data = some record) :
    SealedUnder aes key record :=
  ⟨⟨key, nonce, data, record, h⟩, rfl, rfl⟩

/-- Records in a row are the stream of sealed records. -/
theorem exists_stream {group : List Bytes} (h : ∀ g ∈ group, SealedUnder aes key g) :
    ∃ records : List (SealedRecord aes), (∀ s ∈ records, s.key = key) ∧
      records.map SealedRecord.bytes = group := by
  induction group with
  | nil => exact ⟨[], nofun, rfl⟩
  | cons g group ih =>
    obtain ⟨s, hkey, hbytes⟩ := h g List.mem_cons_self
    obtain ⟨records, hkeys, hgroup⟩ := ih fun g' hg' => h g' (List.mem_cons_of_mem g hg')
    refine ⟨s :: records, ?_, by rw [List.map_cons, hbytes, hgroup]⟩
    intro t ht
    rcases List.mem_cons.mp ht with rfl | ht
    · exact hkey
    · exact hkeys t ht

theorem SealedRecord.stream_eq_flatten (records : List (SealedRecord aes)) :
    stream records = (records.map SealedRecord.bytes).flatten := List.flatMap_def

/-- The key opens every record it sealed, so the page needs no other one refused. -/
theorem decrypted_stream_own {records : List (SealedRecord aes)} (h : ∀ s ∈ records, s.key = key) :
    decrypted aes key (SealedRecord.stream records) =
      some (records.map SealedRecord.plaintext) := by
  rw [decrypted_eq, SealedRecord.parse_stream, Option.map_some, List.filterMap_map]
  congr 1
  rw [← List.filterMap_eq_map]
  apply List.filterMap_congr
  intro s hs
  rw [← h s hs]
  exact s.openRecord_own

end Sealing

/-- Every record of one `send` is sealed under the client's key. -/
theorem Transport.sealedUnder_of_sending {V : Type} [Vt V] {Key : Type} {aes : Aes256Gcm Key}
    {key : Key} {k : Keyframer V} {data : Bytes} {size : TermSize} {nonce keyframeNonce : Nonce}
    {s : Sending V}
    (h : sending (some (aes.encryptor key)) k data size nonce keyframeNonce = some s) :
    ∀ record ∈ s.records, SealedUnder aes key record := by
  obtain ⟨hdata, hkeyframe, -⟩ := sending_eq_some h
  intro record hmem
  rcases List.mem_append.mp hmem with hmem | hmem
  · rcases hdata with ⟨-, hnone⟩ | ⟨-, sent, hsealed, hsome⟩
    · simp [hnone] at hmem
    · obtain rfl : record = sent := by simpa [hsome] using hmem
      exact sealedUnder_of_sealed hsealed
  · rcases hkeyframe with ⟨-, hnone⟩ | ⟨keyframe, sent, -, hsealed, hsome⟩
    · simp [hnone] at hmem
    · obtain rfl : record = sent := by simpa [hsome] using hmem
      exact sealedUnder_of_sealed hsealed

namespace Net

variable {V : Type} [Vt V] {room : RoomId} {secret : String} {n n' : Net V}

/-- The client seals with the key, and all it has queued is sealed with it. -/
structure Seals {Key : Type} (aes : Aes256Gcm Key) (key : Key) (n : Net V) : Prop where
  cipher : n.client.cipher = some (aes.encryptor key)
  queued : ∀ record ∈ n.client.queued.map Chunk.bytes, SealedUnder aes key record

variable {Key : Type} {aes : Aes256Gcm Key} {key : Key}

theorem seals_step (hkept : Kept room n) (h : Seals aes key n) {a : NetAction}
    (hstep : n.step room secret a = some n') : Seals aes key n' := by
  rcases client_of_step hstep with hsame | ⟨a', hclient⟩
  · exact ⟨hsame ▸ h.cipher, hsame ▸ h.queued⟩
  · obtain ⟨hmoves, hcipher, -⟩ := Transport.step_moves hkept.accounted.placed hclient
    refine ⟨hcipher.trans h.cipher, fun record hmem => ?_⟩
    rcases hmoves.queued with ⟨-, hqueued, -⟩ | ⟨call, s, -, hsending, hqueued, -⟩
    · exact h.queued record (hqueued ▸ hmem)
    · rw [hqueued] at hmem
      rw [h.cipher] at hsending
      rcases List.mem_append.mp hmem with hold | hnew
      · exact h.queued record hold
      · exact Transport.sealedUnder_of_sending hsending record hnew

/-- Nobody but the client's own connections has stored anything in the room. -/
def OnlyClient (room : RoomId) (n : Net V) : Prop :=
  ∀ stored ∈ n.server.appended, stored.item.room = room → ∃ l ∈ n.links, l.conn = stored.conn

omit [Vt V] in
/-- Then all that is stored in the room was queued by the client. -/
theorem OnlyClient.stored_queued (hown : OnlyClient room n) (hkept : Kept room n) :
    ∀ g ∈ Server.payloads (n.server.appendedTo room), g ∈ n.client.queued.map Chunk.bytes := by
  intro g hg
  obtain ⟨item, hitem, hpayload⟩ := List.mem_filterMap.mp hg
  obtain ⟨hitem, hroom⟩ := List.mem_filter.mp hitem
  obtain ⟨stored, hstored, rfl⟩ := List.mem_map.mp hitem
  have hroom := of_decide_eq_true hroom
  obtain ⟨l, hl, hconn⟩ := hown stored hstored hroom
  obtain ⟨k, hk⟩ := List.mem_iff_getElem?.mp hl
  -- what a connection stores was written on it, and so queued by the client
  have hby : g ∈ n.server.storedBy room l.conn :=
    List.mem_filterMap.mpr ⟨stored, List.mem_filter.mpr ⟨hstored, by simp [hconn, hroom]⟩, hpayload⟩
  have hwrote := ((hkept.delivered.in_order k l hk).1).subset hby
  obtain ⟨chunk, hchunk, rfl⟩ := List.mem_map.mp hwrote
  exact List.mem_map_of_mem (hkept.accounted.settled.handed k hchunk)

omit [Vt V] in
theorem Seals.stored (h : Seals aes key n) (hkept : Kept room n) (hown : OnlyClient room n) :
    ∀ g ∈ Server.payloads (n.server.appendedTo room), SealedUnder aes key g :=
  fun g hg => h.queued g (hown.stored_queued hkept g hg)

end Net

section Page
variable {Key : Type} {aes : Aes256Gcm Key} {key : Key}

/-- Frames of whole records of the key are shown as the plaintexts of all of them. -/
theorem records_of_frames {frames : List Bytes}
    (h : ∀ frame ∈ frames, ∃ records : List (SealedRecord aes), (∀ s ∈ records, s.key = key) ∧
      frame = SealedRecord.stream records) {all : List (SealedRecord aes)}
    (hall : ∀ s ∈ all, s.key = key) (hflatten : frames.flatten = SealedRecord.stream all) :
    frames.flatMap (ViewerPage.records aes key) = all.map SealedRecord.plaintext := by
  have hsplit : ∃ own : List (SealedRecord aes), (∀ s ∈ own, s.key = key) ∧
      frames.flatten = SealedRecord.stream own ∧
      frames.flatMap (ViewerPage.records aes key) = own.map SealedRecord.plaintext := by
    clear hflatten
    induction frames with
    | nil => exact ⟨[], nofun, rfl, rfl⟩
    | cons frame frames ih =>
      obtain ⟨first, hfirst, rfl⟩ := h frame List.mem_cons_self
      obtain ⟨own, hown, hflat, hshown⟩ := ih fun f hf => h f (List.mem_cons_of_mem _ hf)
      refine ⟨first ++ own, ?_, ?_, ?_⟩
      · intro s hs
        rcases List.mem_append.mp hs with hs | hs
        · exact hfirst s hs
        · exact hown s hs
      · rw [List.flatten_cons, hflat, SealedRecord.stream, SealedRecord.stream,
          SealedRecord.stream, List.flatMap_append]
      · rw [List.flatMap_cons, hshown, List.map_append, ViewerPage.records,
          decrypted_stream_own hfirst, Option.getD_some]
  obtain ⟨own, hown, hflat, hshown⟩ := hsplit
  -- the same bytes decrypt to the same plaintexts, however they are cut into records
  have hsame := decrypted_stream_own hown
  rw [← hflat, hflatten, decrypted_stream_own hall] at hsame
  rw [hshown, Option.some.inj hsame]

/-- With nothing left to do, a page shows the records of all that arrived. -/
theorem ViewerPage.Ordered.shown_of_idle {p : ViewerPage} {arrived : List Bytes}
    (h : p.Ordered aes key arrived) (hidle : p.Idle) :
    sinceClear p.written = arrived.flatMap (records aes key) := by
  obtain ⟨hterm, -, hjobs, -⟩ := hidle
  have haccounted := h.accounted
  rw [hjobs, List.flatMap_nil, List.append_nil, shown, h.flushed hterm,
    List.append_nil] at haccounted
  exact haccounted

end Page

namespace Broadcast
open Transport

variable {V : Type} [Vt V] {roomShard : RoomId → ℕ} {room : RoomId} {secret : String}
  {b b' : Broadcast V} {Key : Type} {aes : Aes256Gcm Key} {key : Key}

/-- What holds of an encrypted broadcast in every state. -/
structure Private (roomShard : RoomId → ℕ) (room : RoomId) (aes : Aes256Gcm Key) (key : Key)
    (b : Broadcast V) : Prop where
  kept : Kept roomShard room b
  seals : Net.Seals aes key b.net
  isolated : Delivery.Isolated roomShard b.delivery

theorem private_step (h : Private roomShard room aes key b) {a : BroadcastAction}
    (hstep : b.step roomShard room secret a = some b') : Private roomShard room aes key b' := by
  obtain ⟨hnet, hdelivery⟩ := projects hstep
  refine ⟨kept_step h.kept hstep, ?_, ?_⟩
  · rcases hnet with hsame | ⟨a', hnet⟩
    · rw [hsame]
      exact h.seals
    · exact Net.seals_step h.kept.net h.seals hnet
  · rcases hdelivery with hsame | ⟨a', hdelivery⟩
    · rw [hsame]
      exact h.isolated
    · exact Delivery.isolated_step h.isolated hdelivery

theorem private_init (roomShard : RoomId → ℕ) (room : RoomId) (aes : Aes256Gcm Key) (key : Key)
    (size : TermSize) (theme : Option String) (ttl : ℕ) :
    Private roomShard room aes key
      (init size theme (some (aes.encryptor key)) ttl : Broadcast V) :=
  ⟨kept_init roomShard room size theme _ ttl, ⟨rfl, nofun⟩, Delivery.isolated_init roomShard ttl⟩

omit [Vt V] in
/-- Whole payloads of the room are whole records of the key. -/
theorem Private.stream_of_whole (h : Private roomShard room aes key b)
    (hown : Net.OnlyClient room b.net) {bytes : Bytes}
    (hwhole : WholePayloads b.delivery.server room bytes) :
    ∃ records : List (SealedRecord aes), (∀ s ∈ records, s.key = key) ∧
      bytes = SealedRecord.stream records := by
  obtain ⟨group, rfl, hgroup⟩ := hwhole
  obtain ⟨records, hkeys, hbytes⟩ := exists_stream fun g hg =>
    h.seals.stored h.kept.net hown g (hgroup g hg)
  exact ⟨records, hkeys, by rw [SealedRecord.stream_eq_flatten, hbytes]⟩

omit [Vt V] in
theorem Private.greeted_stream (h : Private roomShard room aes key b)
    (hown : Net.OnlyClient room b.net) {v : Viewer} (hv : v ∈ b.delivery.viewers)
    (hroom : v.room = room) : ∃ records : List (SealedRecord aes), (∀ s ∈ records, s.key = key) ∧
      (v.past.snapshot.bind RoomSnapshot.history).getD [] = SealedRecord.stream records := by
  cases hhistory : v.past.snapshot.bind RoomSnapshot.history with
  | none => exact ⟨[], nofun, rfl⟩
  | some history =>
    have hwhole := h.isolated.greeted v hv history hhistory
    rw [hroom] at hwhole
    exact h.stream_of_whole hown hwhole

omit [Vt V] in
theorem Private.fed_stream (h : Private roomShard room aes key b)
    (hown : Net.OnlyClient room b.net) {before : Server} {v : Viewer} {fed : List Bytes}
    (hfed : Fed room before b v fed) :
    ∃ records : List (SealedRecord aes), (∀ s ∈ records, s.key = key) ∧
      records.map SealedRecord.bytes = fed := by
  apply exists_stream
  intro g hg
  apply h.seals.stored h.kept.net hown
  -- what was published was stored first
  obtain ⟨item, hitem, hpayload⟩ := List.mem_filterMap.mp (hfed.published.subset hg)
  obtain ⟨stored, hstored, rfl⟩ := List.mem_map.mp hitem
  obtain ⟨hqueued, hroom⟩ := List.mem_filter.mp hstored
  have happ := h.kept.fanout.accounted.once.subset (List.mem_append_left _ hqueued)
  exact List.mem_filterMap.mpr ⟨stored.item,
    List.mem_filter.mpr ⟨List.mem_map_of_mem happ, hroom⟩, hpayload⟩

/-- All that a viewer is sent is whole records of the key: the history it was greeted
with, and what it was fed then. -/
theorem exists_records {size : TermSize} {theme : Option String} {ttl : ℕ}
    {as bs : List BroadcastAction} {b₀ : Broadcast V} {v : Viewer}
    (hbefore : run (step roomShard room secret)
      (init size theme (some (aes.encryptor key)) ttl) as = some b₀)
    (hafter : run (step roomShard room secret) b₀ (.viewing (.join room) :: bs) = some b)
    (hv : b.delivery.viewers[b₀.delivery.viewers.length]? = some v)
    (hdrained : Drained roomShard b.delivery v) (hown : Net.OnlyClient room b.net) :
    ∃ greeted fed : List (SealedRecord aes), (∀ s ∈ greeted ++ fed, s.key = key) ∧
      (v.past.snapshot.bind RoomSnapshot.history).getD [] = SealedRecord.stream greeted ∧
      Fed room b₀.delivery.server b v (fed.map SealedRecord.bytes) ∧
      (v.received.filterMap payloadOf).flatten = SealedRecord.stream (greeted ++ fed) ∧
      ∀ frame ∈ v.received.filterMap payloadOf, ∃ records : List (SealedRecord aes),
        (∀ s ∈ records, s.key = key) ∧ frame = SealedRecord.stream records := by
  have h : Private roomShard room aes key b := run_preserves
    (fun _ _ _ h hstep => private_step h hstep)
    (run_preserves (fun _ _ _ h hstep => private_step h hstep)
      (private_init roomShard room aes key size theme ttl) hbefore) hafter
  obtain ⟨rfl, fed, hfed⟩ := exists_fed hbefore hafter hv hdrained
  have hmem := List.mem_of_getElem? hv
  obtain ⟨greeted, hgreeted, hhistory⟩ := h.greeted_stream hown hmem rfl
  obtain ⟨records, hrecords, rfl⟩ := h.fed_stream hown hfed
  refine ⟨greeted, records, ?_, hhistory, hfed, ?_, ?_⟩
  · intro s hs
    rcases List.mem_append.mp hs with hs | hs
    · exact hgreeted s hs
    · exact hrecords s hs
  · rw [← content_eq_flatten, hfed.received, hhistory, ← SealedRecord.stream_eq_flatten,
      SealedRecord.stream, SealedRecord.stream, SealedRecord.stream, List.flatMap_append]
  · intro frame hframe
    obtain ⟨msg, hmsg, hpayload⟩ := List.mem_filterMap.mp hframe
    cases msg with
    | control json => cases hpayload
    | bytes payload =>
      obtain rfl := Option.some.inj hpayload
      exact h.stream_of_whole hown (h.isolated.received hmem hmsg)

/-- A page that has the key and nothing left to do shows the plaintexts of the records
its viewer was greeted with and then fed, as many as arrived since it was last cleared. -/
theorem encrypted_output_shown (aes : Aes256Gcm Key) (key : Key) (roomShard : RoomId → ℕ)
    (room : RoomId) (secret : String) (size : TermSize) (theme : Option String) (ttl : ℕ)
    (as bs : List BroadcastAction) (b₀ b : Broadcast V) (v : Viewer)
    (hbefore : run (step roomShard room secret)
      (init size theme (some (aes.encryptor key)) ttl) as = some b₀)
    (hafter : run (step roomShard room secret) b₀ (.viewing (.join room) :: bs) = some b)
    (hv : b.delivery.viewers[b₀.delivery.viewers.length]? = some v)
    (hdrained : Drained roomShard b.delivery v) (hown : Net.OnlyClient room b.net)
    (acts : List ViewerPage.Action) (p : ViewerPage) (arrived : List Bytes)
    (hpage : run (withHistory (ViewerPage.step aes key) ViewerPage.noteArrived)
      (ViewerPage.init, []) acts = some (p, arrived))
    (harrived : arrived <:+ v.received.filterMap payloadOf) (hidle : p.Idle) :
    ∃ greeted fed : List (SealedRecord aes), (∀ s ∈ greeted ++ fed, s.key = key) ∧
      (v.past.snapshot.bind RoomSnapshot.history).getD [] = SealedRecord.stream greeted ∧
      Fed room b₀.delivery.server b v (fed.map SealedRecord.bytes) ∧
      ViewerPage.sinceClear p.written <:+ (greeted ++ fed).map SealedRecord.plaintext ∧
      (arrived = v.received.filterMap payloadOf →
        ViewerPage.sinceClear p.written = (greeted ++ fed).map SealedRecord.plaintext) := by
  obtain ⟨greeted, fed, hall, hhistory, hfed, hflatten, hframes⟩ :=
    exists_records hbefore hafter hv hdrained hown
  have hshown : (v.received.filterMap payloadOf).flatMap (ViewerPage.records aes key) =
      (greeted ++ fed).map SealedRecord.plaintext := records_of_frames hframes hall hflatten
  have hpage : ViewerPage.sinceClear p.written = arrived.flatMap (ViewerPage.records aes key) :=
    (ViewerPage.ordered_of_run hpage).shown_of_idle hidle
  refine ⟨greeted, fed, hall, hhistory, hfed, ?_, fun heq => ?_⟩
  · obtain ⟨front, hfront⟩ := harrived
    rw [hpage, ← hshown, ← hfront, List.flatMap_append]
    exact List.suffix_append _ _
  · rw [hpage, heq, hshown]

/-- A page on which the frames arrive before the terminal and the key are there. -/
def readingPage (frames : List Bytes) : List ViewerPage.Action :=
  .opened :: frames.map .message ++ [.createTerminal, .importKey] ++ List.replicate 13 .turn

theorem encrypted_output_shown_replayed :
    ∃ (b₀ b : Broadcast Blank) (v : Viewer) (p : ViewerPage) (greeted fed : List (SealedRecord tagged)),
      run (step (fun _ => 0) ⟨"demo"⟩ "pw") (init size80x24 none (some (tagged.encryptor 1)) 1000)
        firstChunk = some b₀ ∧
      run (step (fun _ => 0) ⟨"demo"⟩ "pw") b₀ (.viewing (.join ⟨"demo"⟩) :: cutAndReplayed) =
        some b ∧
      Fed ⟨"demo"⟩ b₀.delivery.server b v (fed.map SealedRecord.bytes) ∧
      ViewerPage.sinceClear p.written = [[104], [104], [104], [105]] ∧
      ViewerPage.sinceClear p.written = (greeted ++ fed).map SealedRecord.plaintext := by
  obtain ⟨b₀, b, v, p, hbefore, hafter, hv, hdrained, hown, hpage, hshown, hidle⟩ :
      ∃ (b₀ b : Broadcast Blank) (v : Viewer) (p : ViewerPage),
        run (step (fun _ => 0) ⟨"demo"⟩ "pw")
          (init size80x24 none (some (tagged.encryptor 1)) 1000) firstChunk = some b₀ ∧
        run (step (fun _ => 0) ⟨"demo"⟩ "pw") b₀ (.viewing (.join ⟨"demo"⟩) :: cutAndReplayed) =
          some b ∧
        b.delivery.viewers[b₀.delivery.viewers.length]? = some v ∧
        Drained (fun _ => 0) b.delivery v ∧ Net.OnlyClient ⟨"demo"⟩ b.net ∧
        run (withHistory (ViewerPage.step tagged 1) ViewerPage.noteArrived) (ViewerPage.init, [])
          (readingPage (v.received.filterMap payloadOf)) =
            some (p, v.received.filterMap payloadOf) ∧
        ViewerPage.sinceClear p.written = [[104], [104], [104], [105]] ∧ p.Idle := by
    refine ⟨_, _, _, _, rfl, rfl, rfl,
      ⟨fun stored hs => (by cases hs), rfl, rfl, rfl, rfl, rfl, rfl, rfl, rfl⟩, ?_, rfl, rfl,
      ⟨rfl, rfl, rfl, fun chain hc => absurd hc List.not_mem_nil⟩⟩
    unfold Net.OnlyClient
    decide
  obtain ⟨greeted, fed, -, -, hfed, -, hall⟩ := encrypted_output_shown tagged 1 (fun _ => 0)
    ⟨"demo"⟩ "pw" size80x24 none 1000 firstChunk cutAndReplayed b₀ b v hbefore hafter hv hdrained
    hown (readingPage (v.received.filterMap payloadOf)) p _ hpage List.suffix_rfl hidle
  exact ⟨b₀, b, v, p, greeted, fed, hbefore, hafter, hfed, hshown, hall rfl⟩

end Broadcast

end Shellshare
