import Shellshare.AgentFollowCuts
import Shellshare.EncryptedBroadcast

/-! An encrypted broadcast, read by the agent with `--follow`: the binary messages of the
follow are the payloads that a viewer of the room is sent. -/
namespace Shellshare
open LengthPrefix TransitionRuns

namespace Follower

variable {Key : Type} {aes : Aes256Gcm Key} {key : Option Key}

/-- Messages of whole records pass the check of the first one. -/
theorem opensFramed_of_streams {as : List FollowAction}
    (h : ∀ data ∈ as.filterMap dataOf, ∃ records : List (SealedRecord aes),
      data = SealedRecord.stream records) (p : Follower × (Bytes × List Text)) :
    StepsSatisfy (withHistory (step aes key) (noteHeard aes key))
      (fun p a => p.1.OpensFramed a) p as := by
  induction as generalizing p with
  | nil => trivial
  | cons a as ih =>
    intro p' _
    have hrest : ∀ data ∈ as.filterMap dataOf, data ∈ (a :: as).filterMap dataOf :=
      fun data hdata => ((List.sublist_cons_self a as).filterMap dataOf).subset hdata
    refine ⟨?_, ih (fun data hdata => h data (hrest data hdata)) p'⟩
    cases a with
    | text data => trivial
    | elapse ms => trivial
    | fire handle => trivial
    | binary data =>
      intro _
      obtain ⟨records, rfl⟩ := h data List.mem_cons_self
      cases records with
      | nil => exact Or.inl rfl
      | cons r records =>
        obtain ⟨hbytes, hfits, -⟩ := r.eq_frame
        rw [SealedRecord.stream, List.flatMap_cons, hbytes]
        exact Or.inr (isFramed_frame hfits)

end Follower

namespace Broadcast
open Transport

variable {V : Type} [Vt V]

/-- A follow with the key, over what a viewer of the room is sent, decodes the records that
the viewer was greeted with and then fed, as many as have arrived, whatever text messages
come between. It never ends over the key. -/
theorem encrypted_output_followed {Key : Type} (aes : Aes256Gcm Key) (key : Key)
    (roomShard : RoomId → ℕ) (room : RoomId) (secret : String) (size : TermSize)
    (theme : Option String) (ttl : ℕ) (as bs : List BroadcastAction) (b₀ b : Broadcast V)
    (v : Viewer)
    (hbefore : run (step roomShard room secret)
      (init size theme (some (aes.encryptor key)) ttl) as = some b₀)
    (hafter : run (step roomShard room secret) b₀ (.viewing (.join room) :: bs) = some b)
    (hv : b.delivery.viewers[b₀.delivery.viewers.length]? = some v)
    (hdrained : Drained roomShard b.delivery v) (hown : Net.OnlyClient room b.net)
    (acts : List FollowAction) (s : Shellshare.Follower) (heard : Bytes × List Text)
    (hfollow : run (withHistory (Follower.step aes (some key))
      (Follower.noteHeard aes (some key))) (Follower.start, ([], [])) acts = some (s, heard))
    (harrived : acts.filterMap Follower.dataOf <+: v.received.filterMap payloadOf) :
    ∃ greeted fed : List (SealedRecord aes), (∀ r ∈ greeted ++ fed, r.key = key) ∧
      (v.past.snapshot.bind RoomSnapshot.history).getD [] = SealedRecord.stream greeted ∧
      Fed room b₀.delivery.server b v (fed.map SealedRecord.bytes) ∧
      Follower.Reads (greeted ++ fed) s heard ∧
      (acts.filterMap Follower.dataOf = v.received.filterMap payloadOf → s.buf = [] ∧
        StringDecoder.write [] ((greeted ++ fed).flatMap SealedRecord.plaintext) =
          (heard.2.flatten, s.held)) := by
  obtain ⟨greeted, fed, hall, hhistory, hfed, hflatten, hframes⟩ :=
    exists_records hbefore hafter hv hdrained hown
  have hheard : heard.1 = (acts.filterMap Follower.dataOf).flatten := Follower.heard_of_run hfollow
  have hprefix : heard.1 <+: SealedRecord.stream (greeted ++ fed) := by
    obtain ⟨more, hmore⟩ := harrived
    rw [hheard, ← hflatten, ← hmore, List.flatten_append]
    exact List.prefix_append _ _
  have hreads := Follower.reads_of_run hall hfollow hprefix <|
    Follower.opensFramed_of_streams (fun data hdata => by
      obtain ⟨records, -, heq⟩ := hframes data (harrived.subset hdata)
      exact ⟨records, heq⟩) _
  refine ⟨greeted, fed, hall, hhistory, hfed, hreads, fun heq => ?_⟩
  apply hreads.all_read
  rw [hheard, heq, hflatten]

/-- The chunk `h` is in the history, and is then fed twice: the client replays it. -/
def replayedRecords : List (SealedRecord tagged) :=
  [⟨1, zeroNonce, [104], _, rfl⟩, ⟨1, zeroNonce, [104], _, rfl⟩, ⟨1, zeroNonce, [104], _, rfl⟩,
    ⟨1, zeroNonce, [105], _, rfl⟩]

theorem encrypted_output_followed_replayed :
    ∃ (b₀ b : Broadcast Blank) (v : Viewer) (s : Shellshare.Follower) (heard : Bytes × List Text),
      run (step (fun _ => 0) ⟨"demo"⟩ "pw") (init size80x24 none (some (tagged.encryptor 1)) 1000)
        firstChunk = some b₀ ∧
      run (step (fun _ => 0) ⟨"demo"⟩ "pw") b₀ (.viewing (.join ⟨"demo"⟩) :: cutAndReplayed) =
        some b ∧
      run (withHistory (Follower.step tagged (some 1)) (Follower.noteHeard tagged (some 1)))
        (Follower.start, ([], [])) ((v.received.filterMap payloadOf).map .binary) =
          some (s, heard) ∧
      s.buf = [] ∧ heard.2.flatten = codeUnits "hhhi" := by
  obtain ⟨b₀, b, v, hbefore, hafter, hv, hdrained, hown, hsent⟩ :
      ∃ (b₀ b : Broadcast Blank) (v : Viewer),
        run (step (fun _ => 0) ⟨"demo"⟩ "pw")
          (init size80x24 none (some (tagged.encryptor 1)) 1000) firstChunk = some b₀ ∧
        run (step (fun _ => 0) ⟨"demo"⟩ "pw") b₀ (.viewing (.join ⟨"demo"⟩) :: cutAndReplayed) =
          some b ∧
        b.delivery.viewers[b₀.delivery.viewers.length]? = some v ∧
        Drained (fun _ => 0) b.delivery v ∧ Net.OnlyClient ⟨"demo"⟩ b.net ∧
        (v.received.filterMap payloadOf).flatten = SealedRecord.stream replayedRecords := by
    refine ⟨_, _, _, rfl, rfl, rfl,
      ⟨fun stored hs => (by cases hs), rfl, rfl, rfl, rfl, rfl, rfl, rfl, rfl⟩, ?_, rfl⟩
    unfold Net.OnlyClient
    decide
  obtain ⟨_, _, hall, -, -, hflatten, hframes⟩ :=
    exists_records hbefore hafter hv hdrained hown
  have hdata := Follower.filterMap_dataOf (v.received.filterMap payloadOf)
  obtain ⟨⟨s, heard⟩, hfollow⟩ := Follower.exists_run (p := (Follower.start, ([], []))) hall
    (Follower.reads_start _) rfl
    (Follower.opensFramed_of_streams (fun data hmem => by
      rw [hdata] at hmem
      obtain ⟨records, -, heq⟩ := hframes data hmem
      exact ⟨records, heq⟩) _)
    (by rw [List.nil_append, hflatten])
  obtain ⟨greeted, fed, hkeys, hhistory, hfed, hreads, hcomplete⟩ :=
    encrypted_output_followed tagged 1 (fun _ => 0)
      ⟨"demo"⟩ "pw" size80x24 none 1000 firstChunk cutAndReplayed b₀ b v hbefore hafter hv hdrained
      hown _ s heard hfollow (by rw [hdata])
  obtain ⟨hbuf, -⟩ := hcomplete hdata
  refine ⟨b₀, b, v, s, heard, hbefore, hafter, hfollow, hbuf, ?_⟩
  -- the records that were decoded are those bytes, and so have their plaintexts
  obtain ⟨done, others, hdone, hheard, -, hwritten⟩ := hreads.read
  have hplain : done.flatMap SealedRecord.plaintext =
      ['h', 'h', 'h', 'i'].flatMap String.utf8EncodeChar := by
    have hsame : SealedRecord.stream done = SealedRecord.stream replayedRecords := by
      rw [← hsent, ← hdata, ← List.append_nil (SealedRecord.stream done), ← hbuf, ← hheard]
      exact Follower.heard_of_run hfollow
    have hown : ∀ r ∈ done, r.key = 1 := by
      intro r hr
      apply hkeys
      rw [hdone]
      exact List.mem_append_left _ hr
    rw [Follower.plaintexts_of_stream hown (by decide) hsame]
    decide
  rw [hplain, StringDecoder.write_encode] at hwritten
  have htext : ['h', 'h', 'h', 'i'].flatMap utf16 = heard.2.flatten := congrArg Prod.fst hwritten
  rw [← htext]
  decide

end Broadcast

end Shellshare
