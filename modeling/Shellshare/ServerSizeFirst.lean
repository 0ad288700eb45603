import Shellshare.ServerEncryptedMarker
import Shellshare.ServerHandover
import Shellshare.ServerVacancy

/-! An encrypted room from its claim on: whichever connections broadcast in it, what comes
first on each of them, in the room and on its way to the viewers is a size. -/
namespace Shellshare

/-- Phases from which a loop may go on to receive. -/
def Phase.listens : Phase → Bool
  | .leaving | .signingOff | .ended => false
  | _ => true

namespace Server

/-- The room stays, and whoever broadcasts in it does so with an encrypting client. -/
def keepsEncrypted (room : RoomId) (s : Server) (a : Action) : Bool :=
  s.removes a != some room && match a with
  | .receive i _ => (s.conns[i]?.any fun c => c.room != room) || encryptingClient s a
  | _ => true

abbrev KeepsEncrypted (room : RoomId) (s : Server) (a : Action) : Prop :=
  keepsEncrypted room s a = true

/-- What connection `i` has stored in the room. -/
def storedHere (s : Server) (room : RoomId) (i : ℕ) : List Stored :=
  (s.storedIn room).filter fun stored => stored.conn = i

/-- The room has the size that was stored in it last, and in what each connection stored
there a size came first. -/
structure SizeFirst (room : RoomId) (s : Server) : Prop where
  size : (s.rooms.content room).bind Content.size = lastSize (s.appendedTo room)
  marked : ∀ item ∈ s.appendedTo room, ∀ size, item.size = some size → sizeIsEncrypted size = true
  first : ∀ i, ∀ stored ∈ (s.storedHere room i).head?, stored.item.size.isSome = true
  announced : ∀ i c, s.conns[i]? = some c → c.room = room → c.phase.listens = true →
    c.frames.any marksEncrypted = true → s.storedHere room i ≠ []

variable {room : RoomId} {s s' : Server}

theorem sizeFirst_init (room : RoomId) (ttl : ℕ) : SizeFirst room (init ttl) :=
  ⟨rfl, fun _ h => (by cases h), fun _ _ h => (by cases h), fun _ _ h => (by cases h)⟩

theorem encrypting_of_keeps {a : Action} {i : ℕ} {msg : WsMessage} {c : Conn}
    (hkeeps : KeepsEncrypted room s a) (ha : a = .receive i msg) (hc : s.conns[i]? = some c)
    (hroom : c.room = room) : EncryptingClient s a := by
  subst ha
  have hreceive := (Bool.and_eq_true_iff.mp hkeeps).2
  simpa [hc, hroom] using hreceive

theorem removes_of_keeps {a : Action} (hkeeps : KeepsEncrypted room s a) :
    s.removes a ≠ some room :=
  bne_iff_ne.mp (Bool.and_eq_true_iff.mp hkeeps).1

/-- A text frame stores a size and nothing else, a binary frame a message. -/
theorem payload_of_no_size {msg : WsMessage} {message : Option Bytes}
    (h : request msg = .store none message) : ∃ bytes, message = some bytes := by
  cases msg with
  | binary bytes =>
    simp only [request] at h
    split_ifs at h
    simp only [Request.store.injEq, true_and] at h
    exact ⟨bytes, h.symm⟩
  | text len body =>
    simp only [request] at h
    split_ifs at h
    cases body with
    | none => cases h
    | some body =>
      dsimp only at h
      split_ifs at h
      split at h <;> cases h
  | ping => cases h
  | pong => cases h
  | close => cases h

theorem store_of_marks {msg : WsMessage} (h : marksEncrypted msg = true) :
    ∃ size message, request msg = .store (some size) message := by
  unfold marksEncrypted at h
  split at h
  · rename_i size message hreq
    exact ⟨size, message, hreq⟩
  · cases h

theorem listens_of_publication {c : Conn} {out : Output} {phase : Phase}
    (hp : c.publication = some (out, phase)) (h : phase.listens = true) :
    c.phase.listens = true := by
  rcases publication_cases hp with ⟨hphase, -, -⟩ | ⟨stored, hphase, -, -⟩ |
    ⟨hphase, -, -⟩ | ⟨-, -, rfl⟩
  · rw [hphase]
    rfl
  · rw [hphase]
    rfl
  · rw [hphase]
    rfl
  · cases h

/-- A step that moves one loop along and gives it no frame. -/
theorem listens_of_set {i j : ℕ} {d d' c' : Conn} (hd : s.conns[j]? = some d)
    (hc' : (s.conns.set j d')[i]? = some c') (hlistens : c'.phase.listens = true)
    (hroom : d'.room = d.room) (hframes : d'.frames = d.frames)
    (hback : d'.phase.listens = true → d.phase.listens = true) :
    ∃ c, s.conns[i]? = some c ∧ c.room = c'.room ∧ c.phase.listens = true ∧
      c'.frames = c.frames := by
  rw [List.getElem?_set] at hc'
  split_ifs at hc' with hji hlt
  · subst hji
    obtain rfl := Option.some.inj hc'
    exact ⟨d, hd, hroom.symm, hback hlistens, hframes⟩
  · exact ⟨c', hc', rfl, hlistens, rfl⟩

/-- A loop that a step leaves listening has received nothing, or it was listening before,
and has received no more than before unless it received the frame of the step. -/
theorem listens_step {a : Action} (hstep : s.step a = some s') {i : ℕ} {c' : Conn}
    (hc' : s'.conns[i]? = some c') (hlistens : c'.phase.listens = true) :
    c'.frames = [] ∨
    (∃ c, s.conns[i]? = some c ∧ c.room = c'.room ∧ c.phase.listens = true ∧
      c'.frames = c.frames) ∨
    ∃ c msg, s.conns[i]? = some c ∧ c.room = c'.room ∧ c.phase.listens = true ∧
      a = .receive i msg ∧ c'.frames = c.frames ++ [msg] ∧ s' = s.receive i c msg := by
  have hset : ∀ {j : ℕ} {d d' : Conn}, s.conns[j]? = some d → s'.conns = s.conns.set j d' →
      d'.room = d.room → d'.frames = d.frames →
      (d'.phase.listens = true → d.phase.listens = true) →
      ∃ c, s.conns[i]? = some c ∧ c.room = c'.room ∧ c.phase.listens = true ∧
        c'.frames = c.frames :=
    fun hd hconns => listens_of_set hd (hconns ▸ hc') hlistens
  cases step_cases hstep with
  | elapse | deleteRoom | evict => exact Or.inr (Or.inl ⟨c', hc', rfl, hlistens, rfl⟩)
  | handshake room secret =>
    rcases handshake_conns s room secret with hconns | hconns
    · exact Or.inr (Or.inl ⟨c', hconns ▸ hc', rfl, hlistens, rfl⟩)
    · rw [hconns, List.getElem?_append] at hc'
      split_ifs at hc' with hlt
      · exact Or.inr (Or.inl ⟨c', hc', rfl, hlistens, rfl⟩)
      · -- the new loop has received nothing yet
        left
        rw [List.getElem?_singleton] at hc'
        split_ifs at hc'
        obtain rfl := Option.some.inj hc'
        rfl
  | attach j d hd hp => exact Or.inr (Or.inl (hset hd rfl rfl rfl fun _ => by rw [hp]; rfl))
  | receive j msg d hd hp =>
    right
    obtain ⟨d', hconns, hroom, -, hframes, -⟩ := receive_spec s j d msg
    rw [hconns, List.getElem?_set] at hc'
    split_ifs at hc' with hji hlt
    · subst hji
      obtain rfl := Option.some.inj hc'
      have hbefore : d.phase.listens = true := by
        rw [hp]
        rfl
      exact Or.inr ⟨d, msg, hd, hroom.symm, hbefore, rfl, hframes, rfl⟩
    · exact Or.inl ⟨c', hc', rfl, hlistens, rfl⟩
  | hangUp j d hd hp => exact Or.inr (Or.inl (hset hd rfl rfl rfl fun h => by cases h))
  | publish j d out phase hd hp =>
    exact Or.inr (Or.inl (hset hd rfl rfl rfl (listens_of_publication hp)))
  | ack j sent d hd hp => exact Or.inr (Or.inl (hset hd rfl rfl rfl fun _ => by rw [hp]; rfl))
  | detach j d hd hp =>
    refine Or.inr (Or.inl (hset hd rfl rfl rfl fun h => ?_))
    change (if _ then Phase.signingOff else Phase.ended).listens = true at h
    split_ifs at h <;> cases h

/-- What a step adds to what the connections stored in the room. -/
theorem storedIn_step {a : Action} (hstep : s.step a = some s') :
    s'.appended = s.appended ∨ ∃ i msg c size message, a = .receive i msg ∧
      s.conns[i]? = some c ∧ c.phase = .receiving ∧ request msg = .store size message ∧
      s'.appended = s.appended ++ [⟨i, s.appended.length, ⟨c.room, size, message⟩⟩] := by
  cases step_cases hstep with
  | handshake room secret =>
    left
    unfold handshake
    split <;> rfl
  | receive i msg c hc hp =>
    obtain ⟨c', -, -, -, -, -, ⟨happ, -⟩ | ⟨size, message, hreq, -, happ, -⟩⟩ :=
      receive_spec s i c msg
    · exact Or.inl happ
    · exact Or.inr ⟨i, msg, c, size, message, rfl, hc, hp, hreq, happ⟩
  | elapse | attach | hangUp | publish | ack | detach | deleteRoom | evict => exact Or.inl rfl

/-- What is stored in the room is kept there, with the next item behind it. -/
theorem storedHere_of_append {stored : Stored} (happ : s'.appended = s.appended ++ [stored])
    (room : RoomId) (i : ℕ) :
    s'.storedHere room i =
      s.storedHere room i ++ if stored.item.room = room ∧ stored.conn = i then [stored] else [] := by
  by_cases hroom : stored.item.room = room <;> by_cases hi : stored.conn = i <;>
    simp [storedHere, storedIn, happ, hroom, hi]

theorem storedHere_of_same (happ : s'.appended = s.appended) (room : RoomId) (i : ℕ) :
    s'.storedHere room i = s.storedHere room i := by
  rw [storedHere, storedIn, happ]
  rfl

theorem storedHere_grows {a : Action} (hstep : s.step a = some s') (room : RoomId) (i : ℕ) :
    s.storedHere room i <+: s'.storedHere room i := by
  rcases storedIn_step hstep with happ | ⟨j, msg, c, size, message, -, -, -, -, happ⟩
  · rw [storedHere_of_same happ]
  · rw [storedHere_of_append happ]
    exact List.prefix_append _ _

/-- The first item of a connection comes with a size, since an encrypting client sends its
first binary frame after a size, which would have been stored. -/
theorem first_step (h : SizeFirst room s) {a : Action} (hkeeps : KeepsEncrypted room s a)
    (hstep : s.step a = some s') (i : ℕ) :
    ∀ stored ∈ (s'.storedHere room i).head?, stored.item.size.isSome = true := by
  rcases storedIn_step hstep with happ | ⟨j, msg, c, size, message, rfl, hc, hp, hreq, happ⟩
  · rw [storedHere_of_same happ]
    exact h.first i
  · rw [storedHere_of_append happ]
    intro stored hmem
    by_cases hnone : s.storedHere room i = []
    · rw [hnone, List.nil_append] at hmem
      split_ifs at hmem with hown
      · obtain rfl := Option.some.inj hmem
        obtain ⟨hroom, rfl⟩ := hown
        cases size with
        | some size => rfl
        | none =>
          obtain ⟨bytes, rfl⟩ := payload_of_no_size hreq
          have hclient := encrypting_of_keeps hkeeps rfl hc hroom
          have hmarked : c.frames.any marksEncrypted = true := by
            simpa [EncryptingClient, encryptingClient, hc, hreq] using hclient
          have hlistens : c.phase.listens = true := by
            rw [hp]
            rfl
          exact absurd hnone (h.announced j c hc hroom hlistens hmarked)
      · cases hmem
    · rw [List.head?_append_of_ne_nil _ hnone] at hmem
      exact h.first i stored hmem

theorem announced_step (h : SizeFirst room s) {a : Action} (hstep : s.step a = some s') {i : ℕ}
    {c' : Conn} (hc' : s'.conns[i]? = some c') (hroom : c'.room = room)
    (hlistens : c'.phase.listens = true) (hmarked : c'.frames.any marksEncrypted = true) :
    s'.storedHere room i ≠ [] := by
  have hgrow : s.storedHere room i ≠ [] → s'.storedHere room i ≠ [] := by
    intro hne hnil
    exact hne (List.prefix_nil.mp (hnil ▸ storedHere_grows hstep room i))
  rcases listens_step hstep hc' hlistens with hframes | ⟨c, hc, hsame, hbefore, hframes⟩ |
    ⟨c, msg, hc, hsame, hbefore, rfl, hframes, hreceive⟩
  · rw [hframes] at hmarked
    cases hmarked
  · exact hgrow (h.announced i c hc (hsame.trans hroom) hbefore (hframes ▸ hmarked))
  · rw [hframes, List.any_append, Bool.or_eq_true] at hmarked
    rcases hmarked with hmarked | hmarked
    · exact hgrow (h.announced i c hc (hsame.trans hroom) hbefore hmarked)
    · -- the size is stored now, or the loop leaves
      obtain ⟨size, message, hreq⟩ := store_of_marks (by simpa using hmarked)
      obtain ⟨-, -, -, -, -, -, ⟨-, -, hfail⟩ | ⟨size, message, -, -, happ, -⟩⟩ :=
        receive_spec s i c msg
      · obtain ⟨-, entry, hentry, hpassword⟩ := hfail (some size) message hreq
        have hleft := ((receive_ends_iff hc msg).mpr
          (Or.inr (Or.inr (reclaimed_iff.mpr ⟨entry, hentry, hpassword⟩)))).1
        rw [← hreceive, hc', Option.map_some] at hleft
        rw [Option.some.inj hleft] at hlistens
        cases hlistens
      · rw [← hreceive] at happ
        rw [storedHere_of_append happ]
        simp [hsame.trans hroom]

/-- The step lemma of an encrypted room. -/
theorem sizeFirst_step (h : SizeFirst room s) {a : Action} (hkeeps : KeepsEncrypted room s a)
    (hstep : s.step a = some s') : SizeFirst room s' := by
  refine ⟨?_, fun item hitem size hsize => ?_, first_step h hkeeps hstep,
    fun i c hc hroom hlistens hmarked => announced_step h hstep hc hroom hlistens hmarked⟩
  · exact content_size_step h.size (removes_of_keeps hkeeps) hstep
  · obtain ⟨items, -, happ, hitems⟩ := content_step hstep room
    rw [happ] at hitem
    rcases List.mem_append.mp hitem with hitem | hitem
    · exact h.marked item hitem size hsize
    · obtain ⟨i, msg, c, ha, hc, hroom, -⟩ := hitems item hitem
      have hclient := encrypting_of_keeps hkeeps ha hc hroom
      exact (hitems item hitem).size_marked hclient hsize

theorem HandsOver.mem_appendedTo (hover : s.HandsOver) {stored : Stored}
    (hmem : stored ∈ s.queued) (hroom : stored.item.room = room) :
    stored.item ∈ s.appendedTo room := by
  have hown : stored ∈ s.appended.filter fun x => x.conn = stored.conn := by
    rw [hover stored.conn]
    apply List.mem_append_left
    exact List.mem_filter.mpr ⟨hmem, decide_eq_true rfl⟩
  apply List.mem_filter.mpr
  exact ⟨List.mem_map_of_mem (List.mem_filter.mp hown).1, decide_eq_true hroom⟩

/-- What waits to be sent to the room's viewers starts with a size. -/
theorem SizeFirst.head_queued (h : SizeFirst room s) (hover : s.HandsOver) {stored : Stored}
    (hhead : (s.queuedTo room).head? = some stored) : stored.item.size.isSome = true := by
  obtain ⟨rest, hrest⟩ : ∃ rest, s.queuedTo room = stored :: rest := List.head?_eq_some_iff.mp hhead
  have hown : (s.queuedTo room).filter (fun x => x.conn = stored.conn) <+:
      s.storedHere room stored.conn := by
    have hprefix : s.queued.filter (fun x => x.conn = stored.conn) <+:
        s.appended.filter fun x => x.conn = stored.conn := by
      rw [hover stored.conn]
      exact List.prefix_append _ _
    have hcomm := hprefix.filter fun x => x.item.room = room
    simpa only [queuedTo, storedHere, storedIn, List.filter_filter, Bool.and_comm] using hcomm
  obtain ⟨more, hmore⟩ := hown
  apply h.first stored.conn stored
  rw [← hmore, hrest]
  simp

/-- A room that is not there, or has no size, has had nothing stored in it. -/
theorem SizeFirst.appendedTo_eq_nil (h : SizeFirst room s)
    (hnone : (s.rooms.content room).bind Content.size = none) : s.appendedTo room = [] := by
  rw [h.size, lastSize, List.getLast?_eq_none_iff, List.filterMap_eq_nil_iff] at hnone
  by_contra hne
  obtain ⟨stored, rest, hrest⟩ : ∃ stored rest, s.storedIn room = stored :: rest := by
    apply List.exists_cons_of_ne_nil
    intro hnil
    exact hne (by rw [appendedTo_eq, hnil]; rfl)
  have hsize := h.first stored.conn stored (by rw [storedHere, hrest]; simp)
  have hmem : stored.item ∈ s.appendedTo room := by
    rw [appendedTo_eq, hrest]
    exact List.mem_cons_self
  rw [hnone stored.item hmem] at hsize
  cases hsize

end Server

end Shellshare
