import Shellshare.KeylessPage
import Shellshare.RoomIsolation
import Shellshare.ServerSizeFirst

/-! What a viewer whose link has no key sees of an encrypted room: the size that says
`encrypted` comes before all output, so the page takes none of it for text. -/
namespace Shellshare
open FrameCoalescing TransitionRuns

/-- A reading that keeps bytes and sizes in their order. -/
def notices : ViewerMsg → List (UInt8 ⊕ Json)
  | .bytes payload => payload.map Sum.inl
  | .control json => (json.get "size").toList.map Sum.inr

theorem seesItems_notices : SeesItems notices := by
  refine ⟨fun group => ?_, fun msg hmsg => ?_⟩
  · simp only [notices, List.map_flatten, List.flatMap_def]
  · cases msg with
    | bytes payload => cases hmsg
    | control json =>
      simp only [isIngest, Option.isSome_eq_false_iff, Option.isNone_iff_eq_none] at hmsg
      rw [notices, hmsg]
      rfl

/-- Nothing comes before a size that says `encrypted`. -/
def MarkedFirst (read : List (UInt8 ⊕ Json)) : Prop :=
  ∀ first ∈ read.head?, ∃ size, first = .inr size ∧ sizeIsEncrypted size = true

theorem markedFirst_nil : MarkedFirst [] := fun _ h => by cases h

theorem MarkedFirst.append {xs ys : List (UInt8 ⊕ Json)} (hxs : MarkedFirst xs)
    (hys : MarkedFirst ys) : MarkedFirst (xs ++ ys) := by
  cases xs with
  | nil => exact hys
  | cons x xs => exact fun first hfirst => hxs first hfirst

theorem MarkedFirst.of_isPrefix {xs ys : List (UInt8 ⊕ Json)} (hys : MarkedFirst ys)
    (hpre : xs <+: ys) : MarkedFirst xs := by
  obtain ⟨zs, rfl⟩ := hpre
  cases xs with
  | nil => exact markedFirst_nil
  | cons x xs => exact fun first hfirst => hys first hfirst

/-- It stays so when a page reads one connection after another. -/
theorem MarkedFirst.flatten {sockets : List (List ViewerMsg)}
    (h : ∀ msgs ∈ sockets, MarkedFirst (msgs.flatMap notices)) :
    MarkedFirst (sockets.flatten.flatMap notices) := by
  induction sockets with
  | nil => exact markedFirst_nil
  | cons msgs sockets ih =>
    rw [List.flatten_cons, List.flatMap_append]
    apply (h msgs List.mem_cons_self).append
    exact ih fun later hlater => h later (List.mem_cons_of_mem msgs hlater)

namespace KeylessPage

/-- The message that a step of the page takes from its connection. -/
def heard : Action → Option ViewerMsg
  | .text (some control) => some (.control control)
  | .message bytes => some (.bytes bytes)
  | _ => none

/-- History of a run: the messages that arrived. -/
def noteHeard (_ : KeylessPage) (a : Action) (_ : KeylessPage) (msgs : List ViewerMsg) :
    List ViewerMsg :=
  msgs ++ (heard a).toList

/-- A page that has written nothing, and that says why once it has been told anything of
output or of sizes. -/
structure Mute (s : KeylessPage × List ViewerMsg) : Prop where
  cleared : ∀ w ∈ s.1.written, w = .ris
  waiting : s.1.pendingWrites = []
  noticed : s.1.encryptedWithoutKey = true → s.1.cryptoNotice = some missingKeyNotice
  warned : s.2.flatMap notices ≠ [] → s.1.encryptedWithoutKey = true

theorem mute_init : Mute (init, []) :=
  ⟨fun _ h => (by cases h), rfl, fun h => (by cases h), fun h => absurd rfl h⟩

theorem Mute.clearScreen {p : KeylessPage} {msgs : List ViewerMsg} (h : Mute (p, msgs)) :
    Mute (p.clearScreen, msgs) := by
  refine ⟨fun w hw => ?_, rfl, h.noticed, h.warned⟩
  change w ∈ if p.term then p.written ++ [.ris] else p.written at hw
  split_ifs at hw
  · rcases List.mem_append.mp hw with hw | hw
    · exact h.cleared w hw
    · exact List.mem_singleton.mp hw
  · exact h.cleared w hw

/-- A size leaves the screen alone, and one that says `encrypted` leaves the warning. -/
theorem onSize_screen (floor : Option Json → Option ℤ) (p : KeylessPage) (size : Json) :
    (p.onSize floor size).written = p.written ∧
      (p.onSize floor size).pendingWrites = p.pendingWrites ∧
      (p.onSize floor size).cryptoNotice =
        (if encryptedFlag size && !p.encryptedWithoutKey then some missingKeyNotice
          else p.cryptoNotice) := by
  unfold onSize
  dsimp only
  cases hflag : encryptedFlag size <;> cases hset : p.encryptedWithoutKey <;>
    split_ifs <;> simp_all

/-- What the page takes for a size where the message has one that says `encrypted`. -/
theorem sizeOf_of_encrypted {control size : Json} (hget : control.get "size" = some size)
    (hsize : sizeIsEncrypted size = true) : sizeOf control = some size := by
  have htruthy : size.truthy = true := by
    cases size with
    | object fields => rfl
    | null | bool | number | string | array => cases hsize
  rw [sizeOf, hget, Option.filter_some, if_pos htruthy]

theorem Mute.onSize {floor : Option Json → Option ℤ} {p : KeylessPage} {msgs : List ViewerMsg}
    (h : Mute (p, msgs)) (size : Json) : Mute (p.onSize floor size, msgs) := by
  obtain ⟨-, -, hflag⟩ := onSize_spec floor p size
  obtain ⟨hwritten, hwaiting, hnotice⟩ := onSize_screen floor p size
  refine ⟨fun w hw => h.cleared w (hwritten ▸ hw), hwaiting.trans h.waiting, fun hset => ?_,
    fun hread => ?_⟩
  · change (p.onSize floor size).cryptoNotice = some missingKeyNotice
    rw [hnotice]
    split_ifs with hnew
    · rfl
    · -- the size set no flag, so it was set before
      apply h.noticed
      rw [hflag] at hset
      cases hbefore : p.encryptedWithoutKey with
      | true => rfl
      | false =>
        rw [hbefore, Bool.false_or] at hset
        exact absurd (by rw [hset, hbefore]; rfl) hnew
  · rw [hflag, h.warned hread]
    rfl

theorem Mute.onControl {floor : Option Json → Option ℤ} {p : KeylessPage} {msgs : List ViewerMsg}
    (h : Mute (p, msgs)) {control : Json}
    (hfirst : MarkedFirst ((msgs ++ [Frame.control control]).flatMap notices)) :
    Mute (p.onControl floor control, msgs ++ [Frame.control control]) := by
  have hmute : Mute ((sizeOf control).elim p (p.onSize floor), msgs) := by
    cases sizeOf control with
    | none => exact h
    | some size => exact h.onSize size
  have hsized : Mute
      ((sizeOf control).elim p (p.onSize floor), msgs ++ [Frame.control control]) := by
    refine ⟨hmute.cleared, hmute.waiting, hmute.noticed, fun hread => ?_⟩
    by_cases hbefore : msgs.flatMap notices = []
    · -- the first size that the page is told
      rw [List.flatMap_append, hbefore, List.nil_append, List.flatMap_singleton] at hread hfirst
      obtain ⟨size, hget⟩ : ∃ size, control.get "size" = some size := by
        cases hget : control.get "size" with
        | none => simp [notices, hget] at hread
        | some size => exact ⟨size, rfl⟩
      rw [notices, hget] at hfirst
      obtain ⟨size', heq, hencrypted⟩ := hfirst (.inr size) rfl
      obtain rfl := Sum.inr.inj heq
      rw [sizeOf_of_encrypted hget hencrypted, Option.elim_some, (onSize_spec floor p size).2.2,
        encryptedFlag_of_isEncrypted hencrypted, Bool.or_true]
    · exact hmute.warned hbefore
  unfold KeylessPage.onControl
  dsimp only
  split_ifs
  · exact hsized.clearScreen
  · exact hsized

/-- Bytes come after the flag is set, or there are none. -/
theorem Mute.onMessage {p : KeylessPage} {msgs : List ViewerMsg} (h : Mute (p, msgs))
    {bytes : Bytes} (hfirst : MarkedFirst ((msgs ++ [Frame.bytes bytes]).flatMap notices)) :
    Mute (p.onMessage bytes, msgs ++ [Frame.bytes bytes]) := by
  rw [List.flatMap_append, List.flatMap_singleton] at hfirst
  cases bytes with
  | nil =>
    refine ⟨h.cleared, h.waiting, h.noticed, fun hread => h.warned ?_⟩
    rwa [List.flatMap_append, List.flatMap_singleton, notices, List.map_nil,
      List.append_nil] at hread
  | cons b bytes =>
    have hset : p.encryptedWithoutKey = true := by
      apply h.warned
      intro hnone
      rw [hnone] at hfirst
      obtain ⟨size, heq, -⟩ := hfirst (.inl b) rfl
      cases heq
    have hsame : p.onMessage (b :: bytes) = p := by
      simp [KeylessPage.onMessage, hset]
    rw [hsame]
    exact ⟨h.cleared, h.waiting, h.noticed, fun _ => hset⟩

/-- The step lemma of a page that is told of the encryption first. -/
theorem mute_step {floor : Option Json → Option ℤ} {s s' : KeylessPage × List ViewerMsg}
    {a : Action} (h : Mute s) (hfirst : MarkedFirst (s'.2.flatMap notices))
    (hstep : withHistory (step floor) noteHeard s a = some s') : Mute s' := by
  obtain ⟨p, msgs⟩ := s
  obtain ⟨p', msgs'⟩ := s'
  obtain ⟨hp', hmsgs⟩ := withHistory_eq_some.mp hstep
  dsimp only at hp' hmsgs hfirst
  cases a with
  | opened =>
    obtain rfl : msgs' = msgs := by simpa [noteHeard, heard] using hmsgs
    obtain rfl := Option.some.inj hp'
    split_ifs
    · exact h.clearScreen
    · exact ⟨h.cleared, h.waiting, h.noticed, h.warned⟩
  | text control =>
    cases control with
    | none =>
      obtain rfl : msgs' = msgs := by simpa [noteHeard, heard] using hmsgs
      obtain rfl := Option.some.inj hp'
      exact h
    | some control =>
      obtain rfl : msgs' = msgs ++ [Frame.control control] := hmsgs
      obtain rfl := Option.some.inj hp'
      exact h.onControl hfirst
  | message bytes =>
    obtain rfl : msgs' = msgs ++ [Frame.bytes bytes] := hmsgs
    obtain rfl := Option.some.inj hp'
    exact h.onMessage hfirst
  | createTerminal =>
    obtain rfl : msgs' = msgs := by simpa [noteHeard, heard] using hmsgs
    rw [step] at hp'
    split_ifs at hp'
    obtain rfl := Option.some.inj hp'
    -- nothing waits for the terminal, so it is created empty
    refine ⟨fun w hw => h.cleared w ?_, rfl, h.noticed, h.warned⟩
    have hwaiting : p.pendingWrites = [] := h.waiting
    simpa [hwaiting] using hw

theorem heard_grows {floor : Option Json → Option ℤ} {s s' : KeylessPage × List ViewerMsg}
    {acts : List Action} (hrun : run (withHistory (step floor) noteHeard) s acts = some s') :
    s.2 <+: s'.2 := by
  apply run_preserves (I := fun t => s.2 <+: t.2) _ (List.prefix_refl _) hrun
  intro t a u hpre hstep
  rw [(withHistory_eq_some.mp hstep).2]
  exact hpre.trans (List.prefix_append _ _)

/-- The run lemma: what arrived by a step is the start of what arrived in all. -/
theorem mute_run {floor : Option Json → Option ℤ} {s s' : KeylessPage × List ViewerMsg}
    {acts : List Action} (h : Mute s) (hfirst : MarkedFirst (s'.2.flatMap notices))
    (hrun : run (withHistory (step floor) noteHeard) s acts = some s') : Mute s' := by
  induction acts generalizing s with
  | nil =>
    obtain rfl := Option.some.inj hrun
    exact h
  | cons a acts ih =>
    obtain ⟨t, hstep, hrest⟩ := run_cons_eq_some.mp hrun
    apply ih (mute_step h _ hstep) hrest
    exact hfirst.of_isPrefix ((heard_grows hrest).flatMap notices)

end KeylessPage

namespace Server
variable {room : RoomId} {s : Server}

/-- What is queued for the room reads so. -/
theorem SizeFirst.queued_markedFirst (h : SizeFirst room s) (hover : s.HandsOver) :
    MarkedFirst ((uncoalesced room (s.queued.map Stored.item)).flatMap notices) := by
  have hitems : (s.queued.map Stored.item).filter (fun item => item.room = room) =
      (s.queuedTo room).map Stored.item := by
    simp [queuedTo, List.filter_map, Function.comp_def]
  rw [uncoalesced, hitems]
  cases hqueued : s.queuedTo room with
  | nil => exact markedFirst_nil
  | cons stored rest =>
    obtain ⟨size, hsize⟩ := Option.isSome_iff_exists.mp
      (h.head_queued hover (by rw [hqueued]; rfl))
    have hstored : stored ∈ s.queuedTo room := hqueued ▸ List.mem_cons_self
    obtain ⟨hin, hroom⟩ := List.mem_filter.mp hstored
    have hmem : stored.item ∈ s.appendedTo room :=
      hover.mem_appendedTo hin (of_decide_eq_true hroom)
    intro first hfirst
    refine ⟨size, ?_, h.marked stored.item hmem size hsize⟩
    simpa [FanoutItem.messages, hsize, notices, sizeControl, Json.get, eq_comm] using hfirst

end Server

namespace Delivery
variable {roomShard : RoomId → ℕ} {room : RoomId} {d d' : Delivery}

/-- The room stays and is an encrypting client's, whoever watches it meanwhile. -/
def keepsEncrypted (room : RoomId) (d : Delivery) : DeliveryAction → Bool
  | .server a => d.server.keepsEncrypted room a
  | _ => true

abbrev KeepsEncrypted (room : RoomId) (d : Delivery) (a : DeliveryAction) : Prop :=
  keepsEncrypted room d a = true

/-- The `k`-th viewer was told a size that says `encrypted`, or it joined before anything
was queued for the room. -/
def Prepared (roomShard : RoomId → ℕ) (room : RoomId) (k : ℕ) (v : Viewer) (d : Delivery) : Prop :=
  ∃ queued, Feeds roomShard room queued k d ∧
    (d.server.appendedTo room = [] → uncoalesced room queued = []) ∧
    (∀ size, v.past.snapshot.bind RoomSnapshot.size = some size → sizeIsEncrypted size = true) ∧
    (v.phase ≠ .registered → v.past.snapshot.bind RoomSnapshot.size = none →
      uncoalesced room queued = [] ∧ (v.past.snapshot.bind RoomSnapshot.history).getD [] = [])

/-- What holds in every state of an encrypted room. -/
structure EncryptedRoom (roomShard : RoomId → ℕ) (room : RoomId) (d : Delivery) : Prop where
  isolated : Isolated roomShard d
  sizes : d.server.SizeFirst room
  handsOver : d.server.HandsOver
  prepared : ∀ k v, d.viewers[k]? = some v → v.room = room → Prepared roomShard room k v d

theorem encryptedRoom_init (roomShard : RoomId → ℕ) (room : RoomId) (ttl : ℕ) :
    EncryptedRoom roomShard room (init ttl) :=
  ⟨isolated_init roomShard ttl, Server.sizeFirst_init room ttl, Server.handsOver_init ttl,
    fun k v hv => by simp [init] at hv⟩

/-- A snapshot of the room has a size that says `encrypted`, or there is nothing to show. -/
theorem EncryptedRoom.snapshot (h : EncryptedRoom roomShard room d) :
    (∀ size, (d.server.rooms.snapshot d.server.now room).bind RoomSnapshot.size = some size →
      sizeIsEncrypted size = true) ∧
    ((d.server.rooms.snapshot d.server.now room).bind RoomSnapshot.size = none →
      d.server.appendedTo room = [] ∧
        ((d.server.rooms.snapshot d.server.now room).bind RoomSnapshot.history).getD [] = []) := by
  rw [Server.snapshot_size]
  refine ⟨fun size hsize => ?_, fun hnone => ?_⟩
  · rw [h.sizes.size] at hsize
    obtain ⟨item, hitem, hsome⟩ := List.mem_filterMap.mp (List.mem_of_getLast? hsize)
    exact h.sizes.marked item hitem size hsome
  · have hnil := h.sizes.appendedTo_eq_nil hnone
    refine ⟨hnil, ?_⟩
    cases hhistory : (d.server.rooms.snapshot d.server.now room).bind RoomSnapshot.history with
    | none => rfl
    | some history =>
      -- a history is of payloads that were stored, and none was
      obtain ⟨group, rfl, hgroup⟩ := h.isolated.histories.snapshot hhistory
      rw [hnil] at hgroup
      have hempty : group = [] := List.eq_nil_iff_forall_not_mem.mpr fun g hg => by
        cases hgroup g hg
      rw [hempty]
      rfl

theorem prepared_step (h : EncryptedRoom roomShard room d) {a : DeliveryAction}
    (hstep : d.step roomShard a = some d') {k : ℕ} {v' : Viewer} (hv' : d'.viewers[k]? = some v')
    (hroom : v'.room = room) : Prepared roomShard room k v' d' := by
  have hviewers : ∀ v ∈ d.viewers, v.Kept := (h.isolated.fanout room).viewers
  rcases viewers_step hviewers hstep hv' with ⟨v, hv, hsame, hsnap⟩ | ⟨r, rfl, rfl, rfl⟩
  · obtain ⟨queued, hfeeds, hstart, hmarked, hbare⟩ := h.prepared k v hv (hsame.symm.trans hroom)
    refine ⟨queued, feeds_step (h.isolated.fanout room) hfeeds hstep, fun hnil => ?_, ?_⟩
    · apply hstart
      exact List.prefix_nil.mp (hnil ▸ appendedTo_grows hstep room)
    · rcases hsnap with ⟨hsnap, hphase⟩ | ⟨hsnap, -, -⟩
      · rw [hsnap]
        exact ⟨hmarked, fun hp => hbare (hphase hp)⟩
      · -- the viewer takes its snapshot in this step
        rw [hsnap, hsame.symm.trans hroom]
        exact ⟨h.snapshot.1, fun _ hnone => ⟨hstart (h.snapshot.2 hnone).1, (h.snapshot.2 hnone).2⟩⟩
  · obtain rfl : r = room := hroom
    obtain rfl := Option.some.inj hstep
    refine ⟨_, feeds_join (h.isolated.fanout r), fun hnil => ?_, fun size hsize => ?_,
      fun hp => absurd rfl hp⟩
    · -- what waits in the queue was stored, so nothing waits for the room
      rw [uncoalesced, List.flatMap_eq_nil_iff]
      intro item hitem
      obtain ⟨hitem, hr⟩ := List.mem_filter.mp hitem
      obtain ⟨stored, hstored, rfl⟩ := List.mem_map.mp hitem
      have hmem := h.handsOver.mem_appendedTo hstored (of_decide_eq_true hr)
      have hnil : d.server.appendedTo r = [] := hnil
      rw [hnil] at hmem
      cases hmem
    · cases hsize

/-- The step lemma of an encrypted room and its viewers. -/
theorem encryptedRoom_step (h : EncryptedRoom roomShard room d) {a : DeliveryAction}
    (hkeeps : KeepsEncrypted room d a) (hstep : d.step roomShard a = some d') :
    EncryptedRoom roomShard room d' := by
  have hserver : d'.server.SizeFirst room ∧ d'.server.HandsOver := by
    by_cases ha : ∃ act, a = .server act
    · obtain ⟨act, rfl⟩ := ha
      exact ⟨Server.sizeFirst_step h.sizes hkeeps (server_of_step hstep),
        Server.handsOver_step h.handsOver (server_of_step hstep)⟩
    · rw [server_of_other (fun act heq => ha ⟨act, heq⟩) hstep]
      exact ⟨h.sizes, h.handsOver⟩
  exact ⟨isolated_step h.isolated hstep, hserver.1, hserver.2,
    fun k v hv hroom => prepared_step h hstep hv hroom⟩

theorem notices_catchUpFrames (snapshot : Option RoomSnapshot) :
    (catchUpFrames snapshot).flatMap notices =
      (snapshot.bind RoomSnapshot.size).toList.map Sum.inr ++
        ((snapshot.bind RoomSnapshot.history).getD []).map Sum.inl := by
  unfold catchUpFrames
  generalize snapshot.bind RoomSnapshot.size = size
  generalize snapshot.bind RoomSnapshot.history = history
  cases size <;> cases history <;>
    simp [notices, sizeControl, ViewerControl.json, Json.get]

/-- Every viewer of the room is told that it is encrypted before it is sent any output. -/
theorem EncryptedRoom.received_markedFirst (h : EncryptedRoom roomShard room d) {v : Viewer}
    (hv : v ∈ d.viewers) (hroom : v.room = room) : MarkedFirst (v.received.flatMap notices) := by
  obtain ⟨k, hk⟩ := List.mem_iff_getElem?.mp hv
  obtain ⟨queued, ⟨u, hu, -, hfollows⟩, -, hmarked, hbare⟩ := h.prepared k v hk hroom
  obtain rfl : v = u := Option.some.inj (hk.symm.trans hu)
  subst hroom
  have hkept := (h.isolated.fanout v.room).viewers v hv
  by_cases hp : v.phase = .registered
  · -- before it takes its snapshot a viewer has been sent nothing
    have hnone := (hkept.early (by rw [hp]; rfl)).1
    rw [hkept.fresh hp] at hnone
    rw [(List.append_eq_nil_iff.mp hnone).1]
    exact markedFirst_nil
  obtain ⟨rest, earlier, later, hsplit, hbefore, hread, -⟩ :=
    received_of_feeds (h.isolated.fanout v.room) hv hfollows
  obtain ⟨counts, hcounts, hcaught⟩ := hkept.caught hp
  have hquiet : counts.flatMap notices = [] := by
    rw [List.flatMap_eq_nil_iff]
    intro msg hmsg
    obtain ⟨n, rfl⟩ := hcounts msg hmsg
    exact seesItems_notices.quiet _ rfl
  -- what was sent so far and what is still to come read as the catch-up, then the items
  have hall := hread seesItems_notices
  rw [hcaught, List.flatMap_append, List.flatMap_append, hquiet, List.append_nil,
    notices_catchUpFrames] at hall
  apply MarkedFirst.of_isPrefix _ (List.prefix_append _ _)
  · exact rest.flatMap notices
  rw [hall]
  cases hsize : v.past.snapshot.bind RoomSnapshot.size with
  | some size =>
    intro first hfirst
    exact ⟨size, (Option.some.inj hfirst).symm, hmarked size hsize⟩
  | none =>
    -- nothing came before the viewer, so the room's first size is on its way
    obtain ⟨hstart, hhistory⟩ := hbare hp hsize
    rw [hstart] at hbefore
    obtain rfl := List.prefix_nil.mp hbefore
    rw [List.nil_append] at hsplit
    rw [hhistory, hsplit]
    exact h.sizes.queued_markedFirst h.handsOver

/-- Whatever connections a page without a key makes to an encrypted room that is not
removed, and however many, whenever its terminal is created and whoever broadcasts in the
room: it writes nothing but clears, and once output has arrived it says that the key is
missing. -/
theorem keyless_viewers_see_nothing (floor : Option Json → Option ℤ) (roomShard : RoomId → ℕ)
    (room : RoomId) (ttl : ℕ) (as : List DeliveryAction) (d : Delivery)
    (hkeeps : StepsSatisfy (step roomShard) (KeepsEncrypted room) (init ttl) as)
    (hrun : run (step roomShard) (init ttl) as = some d)
    (acts : List KeylessPage.Action) (p : KeylessPage) (sockets : List (List ViewerMsg))
    (hsockets : ∀ msgs ∈ sockets, ∃ v ∈ d.viewers, v.room = room ∧ msgs <+: v.received)
    (hpage : run (withHistory (KeylessPage.step floor) KeylessPage.noteHeard)
      (KeylessPage.init, []) acts = some (p, sockets.flatten)) :
    (∀ w ∈ p.written, w = .ris) ∧ p.pendingWrites = [] ∧
      ((∃ payload, payload ≠ [] ∧ .bytes payload ∈ sockets.flatten) →
        p.cryptoNotice = some KeylessPage.missingKeyNotice) := by
  have h : EncryptedRoom roomShard room d := run_preserves_of_steps
    (fun _ _ _ h hkeeps hstep => encryptedRoom_step h hkeeps hstep)
    (encryptedRoom_init roomShard room ttl) hkeeps hrun
  have hfirst : MarkedFirst (sockets.flatten.flatMap notices) := by
    apply MarkedFirst.flatten
    intro msgs hmsgs
    obtain ⟨v, hv, hroom, hpre⟩ := hsockets msgs hmsgs
    exact (h.received_markedFirst hv hroom).of_isPrefix (hpre.flatMap notices)
  have hmute := KeylessPage.mute_run KeylessPage.mute_init hfirst hpage
  refine ⟨hmute.cleared, hmute.waiting, fun hoffered => hmute.noticed (hmute.warned ?_)⟩
  obtain ⟨payload, hne, hmem⟩ := hoffered
  intro hnone
  have hnothing := List.flatMap_eq_nil_iff.mp hnone _ hmem
  exact hne (List.map_eq_nil_iff.mp hnothing)

/-- A viewer that joins between the size and the first ciphertext, and is sent both. -/
def joiningEncrypted : List DeliveryAction :=
  [.server (.handshake ⟨"demo"⟩ "pw"), .server (.attach 0), .server (.publish 0),
    .server (.receive 0 Server.encryptedSize), .server (.publish 0), .server (.ack 0 true),
    .join ⟨"demo"⟩, .viewer 0 .snapshot, .server (.receive 0 (.binary [7])), .server (.publish 0),
    .worker 0 (.drain 1), .worker 0 .handle, .worker 0 .emit, .worker 0 .handle,
    .worker 0 (.flush ⟨"demo"⟩), .worker 0 .emit, .viewer 0 .transmit, .viewer 0 .transmit,
    .viewer 0 .count, .viewer 0 .transmit, .viewer 0 .notify, .viewer 0 .wake, .viewer 0 .transmit,
    .viewer 0 .drain, .viewer 0 .settle, .viewer 0 .transmit]

/-- The message as it arrives at a page. -/
def arriving : ViewerMsg → KeylessPage.Action
  | .bytes payload => .message payload
  | .control json => .text (some json)

theorem keyless_viewers_see_nothing_joining : ∃ d v p,
    run (step fun _ => 0) (init 1000) joiningEncrypted = some d ∧ d.viewers = [v] ∧
      v.received.flatMap Frame.content = [7] ∧
      run (withHistory (KeylessPage.step KeylessPage.wholeNumber) KeylessPage.noteHeard)
        (KeylessPage.init, []) (.createTerminal :: .opened :: v.received.map arriving) =
          some (p, v.received) ∧
      p.pendingWrites = [] ∧ p.cryptoNotice = some KeylessPage.missingKeyNotice := by
  obtain ⟨d, v, p, hrun, hviewers, hroom, hcontent, hmem, hpage⟩ : ∃ d v p,
      run (step fun _ => 0) (init 1000) joiningEncrypted = some d ∧ d.viewers = [v] ∧
      v.room = ⟨"demo"⟩ ∧ v.received.flatMap Frame.content = [7] ∧
      v.received.getLast? = some (.bytes [7]) ∧
      run (withHistory (KeylessPage.step KeylessPage.wholeNumber) KeylessPage.noteHeard)
        (KeylessPage.init, []) (.createTerminal :: .opened :: v.received.map arriving) =
          some (p, v.received) :=
    ⟨_, _, _, rfl, rfl, rfl, rfl, rfl, rfl⟩
  have hkeeps : StepsSatisfy (step fun _ => 0) (KeepsEncrypted ⟨"demo"⟩) (init 1000)
      joiningEncrypted := by
    decide
  obtain ⟨-, hwaiting, hnotice⟩ := keyless_viewers_see_nothing KeylessPage.wholeNumber (fun _ => 0)
    ⟨"demo"⟩ 1000 joiningEncrypted d hkeeps hrun _ p [v.received]
    (by simp [hviewers, hroom]) (by simpa using hpage)
  refine ⟨d, v, p, hrun, hviewers, hcontent, hpage, hwaiting, hnotice ⟨[7], by decide, ?_⟩⟩
  simpa using List.mem_of_getLast? hmem

end Delivery

end Shellshare
