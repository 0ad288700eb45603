import Shellshare.PageConnection

/-! A broadcast as a page shows it that has lost its connection before: whatever it
received on other sockets, only the viewer behind its latest one counts. -/
namespace Shellshare
open TransitionRuns

namespace PageConnection

def Heard.payload : Heard → Option Bytes
  | .bytes data => some data
  | .reset => none

/-- A reset takes away what came before it. -/
theorem afterReset_suffix (heard : List Heard) :
    afterReset heard <:+ heard.filterMap Heard.payload := by
  induction heard using List.reverseRecOn with
  | nil => exact List.suffix_rfl
  | append_singleton heard h ih =>
    rw [List.filterMap_append]
    cases h with
    | bytes data =>
      obtain ⟨front, hfront⟩ := ih
      refine ⟨front, ?_⟩
      rw [afterReset_append_bytes, ← hfront, List.append_assoc]
      rfl
    | reset =>
      rw [afterReset_append_reset]
      exact List.nil_suffix

theorem afterReset_eq {heard : List Heard} (h : .reset ∉ heard) :
    afterReset heard = heard.filterMap Heard.payload := by
  induction heard using List.reverseRecOn with
  | nil => rfl
  | append_singleton heard last ih =>
    rw [List.mem_append, not_or] at h
    rw [List.filterMap_append, ← ih h.1]
    cases last with
    | bytes data => exact afterReset_append_bytes heard data
    | reset => exact absurd (List.mem_singleton.mpr rfl) h.2

end PageConnection

namespace Broadcast
open Transport

variable {V : Type} [Vt V] {Key : Type}

/-- With nothing left to do, a page shows the plaintexts of what the viewer task behind
its latest socket was greeted with and then fed, all of them but for those before a reset.
Nothing is left of what its earlier sockets delivered. -/
theorem reconnected_page_shows (aes : Aes256Gcm Key) (key : Key) (roomShard : RoomId → ℕ)
    (room : RoomId) (secret : String) (size : TermSize) (theme : Option String) (ttl : ℕ)
    (as bs : List BroadcastAction) (b₀ b : Broadcast V) (v : Viewer)
    (hbefore : run (step roomShard room secret)
      (init size theme (some (aes.encryptor key)) ttl) as = some b₀)
    (hafter : run (step roomShard room secret) b₀ (.viewing (.join room) :: bs) = some b)
    (hv : b.delivery.viewers[b₀.delivery.viewers.length]? = some v)
    (hdrained : Drained roomShard b.delivery v) (hown : Net.OnlyClient room b.net)
    (acts : List ConnectionAction) (c : PageConnection) (log : PageConnection.Log) (i : ℕ)
    (hpage : run (withHistory (PageConnection.step aes key) PageConnection.note)
      (PageConnection.init, PageConnection.Log.empty) acts = some (c, log))
    (hlatest : log.latest = some i)
    (hheard : (PageConnection.heardOn i log.heard).filterMap PageConnection.Heard.payload =
      v.received.filterMap payloadOf) (hidle : c.page.Idle) :
    ∃ greeted fed : List (SealedRecord aes), (∀ s ∈ greeted ++ fed, s.key = key) ∧
      (v.past.snapshot.bind RoomSnapshot.history).getD [] = SealedRecord.stream greeted ∧
      Fed room b₀.delivery.server b v (fed.map SealedRecord.bytes) ∧
      ViewerPage.sinceClear c.page.written <:+ (greeted ++ fed).map SealedRecord.plaintext ∧
      (.reset ∉ PageConnection.heardOn i log.heard →
        ViewerPage.sinceClear c.page.written = (greeted ++ fed).map SealedRecord.plaintext) := by
  obtain ⟨greeted, fed, hall, hhistory, hfed, hflatten, hframes⟩ :=
    exists_records hbefore hafter hv hdrained hown
  have hrecords : (v.received.filterMap payloadOf).flatMap (ViewerPage.records aes key) =
      (greeted ++ fed).map SealedRecord.plaintext := records_of_frames hframes hall hflatten
  have hshown : ViewerPage.sinceClear c.page.written =
      (PageConnection.afterReset (PageConnection.heardOn i log.heard)).flatMap
        (ViewerPage.records aes key) := by
    rw [← PageConnection.arrived_of_latest hlatest]
    exact (PageConnection.kept_of_run hpage).2.ordered.shown_of_idle hidle
  refine ⟨greeted, fed, hall, hhistory, hfed, ?_, fun hreset => ?_⟩
  · obtain ⟨front, hfront⟩ := PageConnection.afterReset_suffix (PageConnection.heardOn i log.heard)
    rw [hshown, ← hrecords, ← hheard, ← hfront, List.flatMap_append]
    exact List.suffix_append _ _
  · rw [hshown, PageConnection.afterReset_eq hreset, hheard, hrecords]

/-- A page whose first connection ends after a frame, and whose second delivers them all. -/
def reconnectedReading (frames : List Bytes) : List ConnectionAction :=
  [.opened 0, .binary 0 (frames.head?.getD []), .closed 0 250, .elapse 250, .dial 0, .opened 1] ++
    frames.map (.binary 1) ++ [.page .createTerminal, .page .importKey] ++
    List.replicate 13 (.page .turn) ++ List.replicate 4 (.page (.droppedTurn 0))

theorem reconnected_page_shows_replayed :
    ∃ (b₀ b : Broadcast Blank) (v : Viewer) (c : PageConnection)
      (greeted fed : List (SealedRecord tagged)),
      run (step (fun _ => 0) ⟨"demo"⟩ "pw") (init size80x24 none (some (tagged.encryptor 1)) 1000)
        firstChunk = some b₀ ∧
      run (step (fun _ => 0) ⟨"demo"⟩ "pw") b₀ (.viewing (.join ⟨"demo"⟩) :: cutAndReplayed) =
        some b ∧
      Fed ⟨"demo"⟩ b₀.delivery.server b v (fed.map SealedRecord.bytes) ∧
      ViewerPage.sinceClear c.page.written = [[104], [104], [104], [105]] ∧
      ViewerPage.sinceClear c.page.written = (greeted ++ fed).map SealedRecord.plaintext := by
  obtain ⟨b₀, b, v, c, log, hbefore, hafter, hv, hdrained, hown, hpage, hlatest, hheard, hreset,
      hshown, hidle⟩ :
      ∃ (b₀ b : Broadcast Blank) (v : Viewer) (c : PageConnection) (log : PageConnection.Log),
        run (step (fun _ => 0) ⟨"demo"⟩ "pw")
          (init size80x24 none (some (tagged.encryptor 1)) 1000) firstChunk = some b₀ ∧
        run (step (fun _ => 0) ⟨"demo"⟩ "pw") b₀ (.viewing (.join ⟨"demo"⟩) :: cutAndReplayed) =
          some b ∧
        b.delivery.viewers[b₀.delivery.viewers.length]? = some v ∧
        Drained (fun _ => 0) b.delivery v ∧ Net.OnlyClient ⟨"demo"⟩ b.net ∧
        run (withHistory (PageConnection.step tagged 1) PageConnection.note)
          (PageConnection.init, PageConnection.Log.empty)
          (reconnectedReading (v.received.filterMap payloadOf)) = some (c, log) ∧
        log.latest = some 1 ∧
        (PageConnection.heardOn 1 log.heard).filterMap PageConnection.Heard.payload =
          v.received.filterMap payloadOf ∧
        PageConnection.Heard.reset ∉ PageConnection.heardOn 1 log.heard ∧
        ViewerPage.sinceClear c.page.written = [[104], [104], [104], [105]] ∧ c.page.Idle := by
    refine ⟨_, _, _, _, _, rfl, rfl, rfl,
      ⟨fun stored hs => (by cases hs), rfl, rfl, rfl, rfl, rfl, rfl, rfl, rfl⟩, ?_, rfl, rfl, rfl,
      ?_, rfl, ⟨rfl, rfl, rfl, by decide⟩⟩
    · unfold Net.OnlyClient
      decide
    · decide
  obtain ⟨greeted, fed, -, -, hfed, -, hall⟩ := reconnected_page_shows tagged 1 (fun _ => 0)
    ⟨"demo"⟩ "pw" size80x24 none 1000 firstChunk cutAndReplayed b₀ b v hbefore hafter hv hdrained
    hown (reconnectedReading (v.received.filterMap payloadOf)) c log 1 hpage hlatest hheard hidle
  exact ⟨b₀, b, v, c, greeted, fed, hbefore, hafter, hfed, hshown, hall hreset⟩

end Broadcast

end Shellshare
