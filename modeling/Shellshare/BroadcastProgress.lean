import Shellshare.DeliveryProgress
import Shellshare.IngestProgress

/-! A broadcast is never stuck: whatever has happened to it, what the client still holds
can reach every viewer that is connected. -/
namespace Shellshare
open FrameCoalescing TransitionRuns

namespace Delivery

variable {roomShard : RoomId → ℕ} {room : RoomId} {k : ℕ} {d d' : Delivery} {v : Viewer}

/-- A step of the server leaves a caught-up viewer connected. -/
theorem CaughtUp.server (h : CaughtUp k room d v) {a : Action}
    (hstep : d.step roomShard (.server a) = some d') : ∃ u, Connected k room d' u := by
  obtain ⟨s, -, rfl⟩ := Option.map_eq_some_iff.mp hstep
  have hserver : CaughtUp k room { d with server := s } v :=
    ⟨⟨h.here, h.room, h.isRegistered, h.running⟩, h.done⟩
  rcases Server.outputs_cases d.server a with hout | ⟨out, hout⟩ <;> rw [hout]
  · exact ⟨v, hserver.toConnected⟩
  · cases out with
    | control r c => exact hserver.send r (.control c.json)
    | ingest stored => exact ⟨v, h.here, h.room, h.isRegistered, h.running⟩

end Delivery

namespace Broadcast
open Transport

variable {V : Type} [Vt V] {roomShard : RoomId → ℕ} {room : RoomId} {secret : String} {k : ℕ}
  {b b' : Broadcast V}

/-- The steps that carry what is stored to the `k`-th viewer. -/
def Carries (k : ℕ) : BroadcastAction → Prop
  | .net (.server (.publish _)) => True
  | .viewing a => Delivery.Carries k a
  | _ => False

/-- The steps that finish what was begun: they add no output, end no connection that
is of use, and carry to the `k`-th viewer what is stored. -/
def Finishes (k : ℕ) : BroadcastAction → Prop
  | .net a => Net.Continues a
  | .viewing a => Delivery.Carries k a

/-- A carrying step of viewer delivery is one of the whole, and moves nothing else. -/
theorem leads_carrying {a : DeliveryAction} {d : Delivery} (ha : Delivery.Carries k a)
    (hstep : b.delivery.step roomShard a = some d) :
    LeadsTo (step roomShard room secret) (Carries k) b { b with delivery := d } := by
  cases a with
  | server act =>
    cases act with
    | publish i =>
      apply LeadsTo.single (a := .net (.server (.publish i))) trivial
      have hserver := Delivery.server_of_step hstep
      simp [step, Net.step, Net.serve, Net.serverAction, net, hserver, hstep]
    | _ => cases ha
  | worker n act => exact .single (a := .viewing (.worker n act)) ha (by simp [step, hstep])
  | viewer j act => exact .single (a := .viewing (.viewer j act)) ha (by simp [step, hstep])
  | join r => cases ha
  | counts act => cases ha

theorem leads_delivery {d : Delivery}
    (h : LeadsTo (Delivery.step roomShard) (Delivery.Carries k) b.delivery d) :
    LeadsTo (step roomShard room secret) (Carries k) b { b with delivery := d } := by
  let R : Delivery → Broadcast V → Prop := fun e x => x = { b with delivery := e }
  have hsimulates : ∀ e a e' x, Delivery.Carries k a → e.step roomShard a = some e' → R e x →
      ∃ y, LeadsTo (step roomShard room secret) (Carries k) x y ∧ R e' y := by
    rintro e a e' x ha hstep rfl
    exact ⟨_, leads_carrying ha hstep, rfl⟩
  obtain ⟨y, hleads, rfl⟩ := h.simulates hsimulates rfl
  exact hleads

/-- Whatever is stored in a viewer's room can be brought to it. -/
theorem leads_drained {v : Viewer} (h : Delivery.Connected k room b.delivery v) :
    ∃ b' v', LeadsTo (step roomShard room secret) (Carries k) b b' ∧ b'.client = b.client ∧
      b'.links = b.links ∧ b'.delivery.server.appended = b.delivery.server.appended ∧
      b'.delivery.viewers[k]? = some v' ∧ Drained roomShard b'.delivery v' := by
  obtain ⟨d, v', hleads, hconnected, hdrained, happended⟩ := h.drained roomShard
  exact ⟨{ b with delivery := d }, v', leads_delivery hleads, rfl, rfl, happended, hconnected.here,
    hdrained⟩

theorem finishes_of_carries {a : BroadcastAction} (h : Carries k a) : Finishes k a := by
  cases a with
  | net a =>
    cases a with
    | server act =>
      cases act with
      | publish i => trivial
      | _ => cases h
    | _ => cases h
  | viewing a => exact h

/-- A step of the net, after which the viewer catches up again. -/
theorem leads_net {n : Net V} {a : NetAction} (ha : Net.Continues a)
    (hstep : b.net.step room secret a = some n) {v : Viewer}
    (h : Delivery.CaughtUp k room b.delivery v) :
    ∃ b', LeadsTo (step roomShard room secret) (Finishes k) b b' ∧ b'.net = n ∧
      ∃ v', Delivery.CaughtUp k room b'.delivery v' := by
  have hserver := Net.server_of_step hstep
  obtain ⟨d, hnet, hsame, u, hu⟩ : ∃ d, b.step roomShard room secret (.net a) =
      some ⟨n.client, n.links, d⟩ ∧ d.server = n.server ∧ ∃ u, Delivery.Connected k room d u := by
    cases hact : b.net.serverAction room secret a with
    | none =>
      rw [hact] at hserver
      exact ⟨b.delivery, by simp [step, hstep, hact], hserver.symm, v, h.toConnected⟩
    | some act =>
      rw [hact] at hserver
      have hdelivery : ∃ d, b.delivery.step roomShard (.server act) = some d :=
        ⟨_, by rw [Delivery.step, show b.delivery.server.step act = some n.server from hserver]; rfl⟩
      obtain ⟨d, hd⟩ := hdelivery
      exact ⟨d, by simp [step, hstep, hact, hd],
        Option.some.inj ((Delivery.server_of_step hd).symm.trans hserver), h.server hd⟩
  obtain ⟨d', v', hcatch, hv', hserver', -⟩ := hu.caughtUp roomShard
  let b₁ : Broadcast V := ⟨n.client, n.links, d⟩
  have hcarry : LeadsTo (step roomShard room secret) (Carries k) b₁ { b₁ with delivery := d' } :=
    leads_delivery hcatch
  refine ⟨{ b₁ with delivery := d' }, ?_, ?_, v', hv'⟩
  · exact (LeadsTo.single (a := .net a) ha hnet).trans (hcarry.mono fun _ => finishes_of_carries)
  · simp only [net, b₁, hserver', hsame]

/-- What the client holds can be delivered, and brought to the viewer. -/
theorem leads_finished {v : Viewer} (hkept : Net.Kept room b.net) (hpoised : b.client.Poised)
    (hopen : b.client.closed = false) (hending : b.client.stage.ending = false)
    (haccepts : b.delivery.server.Accepts room secret)
    (h : Delivery.Connected k room b.delivery v) :
    ∃ b' v', LeadsTo (step roomShard room secret) (Finishes k) b b' ∧ Net.Finished b.net b'.net ∧
      b'.delivery.viewers[k]? = some v' ∧ Drained roomShard b'.delivery v' := by
  obtain ⟨d₁, v₁, hcatch, hv₁, hserver₁, -⟩ := h.caughtUp roomShard
  let b₁ : Broadcast V := { b with delivery := d₁ }
  have hnet₁ : b₁.net = b.net := by simp only [net, b₁, hserver₁]
  have hfirst : LeadsTo (step roomShard room secret) (Finishes k) b b₁ :=
    (leads_delivery hcatch).mono fun _ => finishes_of_carries
  obtain ⟨n, hleads, hfinished⟩ : ∃ n, LeadsTo (Net.step room secret) Net.Continues b.net n ∧
      Net.Finished b.net n := Net.finishes hkept hpoised hopen haccepts hending
  let R : Net V → Broadcast V → Prop := fun m x =>
    x.net = m ∧ ∃ u, Delivery.CaughtUp k room x.delivery u
  have hsimulates : ∀ m a m' x, Net.Continues a → m.step room secret a = some m' → R m x →
      ∃ y, LeadsTo (step roomShard room secret) (Finishes k) x y ∧ R m' y := by
    rintro m a m' x ha hstep ⟨rfl, u, hu⟩
    obtain ⟨y, hxy, hnet, hcaught⟩ := leads_net ha hstep hu
    exact ⟨y, hxy, hnet, hcaught⟩
  obtain ⟨b₂, hsecond, hnet₂, v₂, hv₂⟩ := hleads.simulates hsimulates
    (show R b.net b₁ from ⟨hnet₁, v₁, hv₁⟩)
  obtain ⟨b', v', hthird, hclient, -, -, hv', hdrained⟩ := leads_drained hv₂.toConnected
  refine ⟨b', v', (hfirst.trans hsecond).trans (hthird.mono fun _ => finishes_of_carries), ?_,
    hv', hdrained⟩
  have hsame : b'.net.client = n.client := by
    rw [← hnet₂]
    exact hclient
  exact ⟨hsame ▸ hfinished.held, hsame ▸ hfinished.queued, hsame ▸ hfinished.discarded,
    hsame ▸ hfinished.opened⟩

theorem poised_of_step {a : BroadcastAction} (h : b.client.Poised)
    (hstep : b.step roomShard room secret a = some b') : b'.client.Poised := by
  rcases (projects hstep).1 with hsame | ⟨a', hnet⟩
  · have hclient : b'.client = b.client := congrArg Net.client hsame
    rw [hclient]
    exact h
  · have hpoised : b.net.client.Poised := h
    exact Net.poised_of_step hpoised hnet

section Run
variable {size : TermSize} {theme : Option String} {cipher : Option Encryptor} {ttl : ℕ}
  {as bs : List BroadcastAction} {b₀ : Broadcast V}

theorem poised_of_run (hrun : run (step roomShard room secret) (init size theme cipher ttl) as =
    some b) : b.client.Poised :=
  run_preserves (I := fun b => b.client.Poised) (fun _ _ _ h hstep => poised_of_step h hstep)
    (fun _ => nofun) hrun

theorem kept_of_run (hrun : run (step roomShard room secret) (init size theme cipher ttl) as =
    some b) : Kept roomShard room b :=
  run_preserves (fun _ _ _ h hstep => kept_step h hstep)
    (kept_init roomShard room size theme cipher ttl) hrun

/-- A viewer that has joined and whose task runs is connected to the room. -/
theorem connected_of_run
    (hbefore : run (step roomShard room secret) (init size theme cipher ttl) as = some b₀)
    (hafter : run (step roomShard room secret) b₀ (.viewing (.join room) :: bs) = some b)
    {v : Viewer} (hv : b.delivery.viewers[b₀.delivery.viewers.length]? = some v)
    (hregistered : v.isRegistered = true) (hrunning : v.phase.over = false) :
    Delivery.Connected b₀.delivery.viewers.length room b.delivery v := by
  obtain ⟨b₁, hjoin, hrun⟩ := run_cons_eq_some.mp hafter
  have h : Follower roomShard room b₀.delivery.server.queued b₀.delivery.viewers.length b :=
    run_preserves (fun _ _ _ h hstep => follower_step h hstep)
      (follower_join (kept_of_run hbefore) hjoin) hrun
  obtain ⟨u, hu, hroom, -⟩ := h.feeds
  obtain rfl : u = v := Option.some.inj (hu.symm.trans hv)
  exact ⟨hv, hroom, hregistered, hrunning⟩

/-- A schedule after the join leaves what the viewer was fed to be read off at its end. -/
theorem exists_fed_after
    (hbefore : run (step roomShard room secret) (init size theme cipher ttl) as = some b₀)
    (hafter : run (step roomShard room secret) b₀ (.viewing (.join room) :: bs) = some b)
    {C : BroadcastAction → Prop} (hleads : LeadsTo (step roomShard room secret) C b b') {v : Viewer}
    (hv : b'.delivery.viewers[b₀.delivery.viewers.length]? = some v)
    (hdrained : Drained roomShard b'.delivery v) : ∃ fed, Fed room b₀.delivery.server b' v fed := by
  obtain ⟨cs, -, hcs⟩ := hleads
  have hrun : run (step roomShard room secret) b₀ (.viewing (.join room) :: (bs ++ cs)) =
      some b' := by
    rw [← List.cons_append, run_append, hafter]
    exact hcs
  exact (exists_fed hbefore hrun hv hdrained).2

end Run

/-- Fan-out is never stuck: from every state, all that is stored in a room can be brought
to each viewer of it that is registered, without a step of any client. -/
theorem stored_can_reach_viewers (roomShard : RoomId → ℕ) (room : RoomId) (secret : String)
    (size : TermSize) (theme : Option String) (cipher : Option Encryptor) (ttl : ℕ)
    (as bs : List BroadcastAction) (b₀ b : Broadcast V) (v : Viewer)
    (hbefore : run (step roomShard room secret) (init size theme cipher ttl) as = some b₀)
    (hafter : run (step roomShard room secret) b₀ (.viewing (.join room) :: bs) = some b)
    (hv : b.delivery.viewers[b₀.delivery.viewers.length]? = some v)
    (hregistered : v.isRegistered = true) (hrunning : v.phase.over = false) :
    ∃ b' v' fed, LeadsTo (step roomShard room secret) (Carries b₀.delivery.viewers.length) b b' ∧
      b'.client = b.client ∧ b'.links = b.links ∧
      b'.delivery.server.appended = b.delivery.server.appended ∧
      b'.delivery.viewers[b₀.delivery.viewers.length]? = some v' ∧
      Fed room b₀.delivery.server b' v' fed := by
  obtain ⟨b', v', hleads, hclient, hlinks, happended, hv', hdrained⟩ :=
    leads_drained (connected_of_run hbefore hafter hv hregistered hrunning)
  obtain ⟨fed, hfed⟩ := exists_fed_after hbefore hafter hleads hv' hdrained
  exact ⟨b', v', fed, hleads, hclient, hlinks, happended, hv', hfed⟩

/-- A second chunk is stored after the viewer joins, and not yet published. -/
def heldBack : List BroadcastAction :=
  [.client (.send [105] size80x24 zeroNonce zeroNonce), .client (.read .quiet), .write true 0,
    .deliver 0].map BroadcastAction.net

theorem stored_can_reach_viewers_held_back :
    ∃ (b b' : Broadcast Blank) (v' : Viewer) (fed : List Bytes),
      b.delivery.server.held.map (fun stored => stored.item.payload) = [some [105]] ∧
      LeadsTo (step (fun _ => 0) ⟨"demo"⟩ "pw") (Carries 0) b b' ∧ b'.client = b.client ∧
      b'.delivery.server.storedBy ⟨"demo"⟩ 0 = [[104], [105]] ∧ [[105]].Sublist fed ∧
      v'.received.flatMap Frame.content =
        (v'.past.snapshot.bind RoomSnapshot.history).getD [] ++ fed.flatten := by
  obtain ⟨b₀, b, v, hbefore, hafter, hv, hregistered, hrunning, hheld, hstored, hnone, hfirst⟩ :
      ∃ (b₀ b : Broadcast Blank) (v : Viewer),
        run (step (fun _ => 0) ⟨"demo"⟩ "pw") (init size80x24 none none 1000) firstChunk = some b₀ ∧
        run (step (fun _ => 0) ⟨"demo"⟩ "pw") b₀ (.viewing (.join ⟨"demo"⟩) :: heldBack) =
          some b ∧
        b.delivery.viewers[b₀.delivery.viewers.length]? = some v ∧
        v.isRegistered = true ∧ v.phase.over = false ∧
        b.delivery.server.held.map (fun stored => stored.item.payload) = [some [105]] ∧
        b.delivery.server.storedBy ⟨"demo"⟩ 0 = [[104], [105]] ∧
        (b₀.delivery.server.storedBy ⟨"demo"⟩ 0).length = 1 ∧
        b₀.delivery.viewers.length = 0 :=
    ⟨_, _, _, rfl, rfl, rfl, rfl, rfl, rfl, rfl, rfl, rfl⟩
  obtain ⟨b', v', fed, hleads, hclient, -, happended, hv', hfed⟩ :=
    stored_can_reach_viewers (fun _ => 0) ⟨"demo"⟩ "pw" size80x24 none none 1000 firstChunk heldBack
      b₀ b v hbefore hafter hv hregistered hrunning
  have hsame : b'.delivery.server.storedBy ⟨"demo"⟩ 0 = [[104], [105]] := by
    rw [Server.storedBy, happended]
    exact hstored
  have hsince := hfed.in_order 0
  rw [hsame, hnone] at hsince
  rw [hfirst] at hleads
  exact ⟨b, b', v', fed, hheld, hleads, hclient, hsame, hsince, hfed.received⟩

/-- A broadcast is never stuck: from every state in which the client is not shutting down
and its room is not another's, all that it has queued and not dropped can be stored and
brought to a viewer that is registered, with no new output. -/
theorem output_can_reach_viewers (roomShard : RoomId → ℕ) (room : RoomId) (secret : String)
    (size : TermSize) (theme : Option String) (cipher : Option Encryptor) (ttl : ℕ)
    (as bs : List BroadcastAction) (b₀ b : Broadcast V) (v : Viewer)
    (hbefore : run (step roomShard room secret) (init size theme cipher ttl) as = some b₀)
    (hafter : run (step roomShard room secret) b₀ (.viewing (.join room) :: bs) = some b)
    (hv : b.delivery.viewers[b₀.delivery.viewers.length]? = some v)
    (hregistered : v.isRegistered = true) (hrunning : v.phase.over = false)
    (hopen : b.client.closed = false) (hending : b.client.stage.ending = false)
    (haccepts : b.delivery.server.Accepts room secret) :
    ∃ b' v' fed, LeadsTo (step roomShard room secret) (Finishes b₀.delivery.viewers.length) b b' ∧
      b'.delivery.viewers[b₀.delivery.viewers.length]? = some v' ∧
      Fed room b₀.delivery.server b' v' fed ∧ b'.client.held = [] ∧
      ∀ chunk ∈ b.client.queued, chunk ∈ b.client.discarded ∨ chunk.bytes ∈ fed ∨
        ∃ k l, b'.links[k]? = some l ∧
          chunk ∈ (b'.client.wrote k).take (b₀.delivery.server.storedBy room l.conn).length := by
  have hrun : run (step roomShard room secret) (init size theme cipher ttl)
      (as ++ .viewing (.join room) :: bs) = some b := by
    rw [run_append, hbefore]
    exact hafter
  obtain ⟨b', v', hleads, hfinished, hv', hdrained⟩ :=
    leads_finished (kept_of_run hrun).net (poised_of_run hrun) hopen hending haccepts
      (connected_of_run hbefore hafter hv hregistered hrunning)
  obtain ⟨fed, hfed⟩ := exists_fed_after hbefore hafter hleads hv' hdrained
  refine ⟨b', v', fed, hleads, hv', hfed, hfinished.held, fun chunk hmem => ?_⟩
  have hqueued : b'.client.queued = b.client.queued := hfinished.queued
  have hdiscarded : b'.client.discarded = b.client.discarded := hfinished.discarded
  rcases hfed.delivered chunk (hqueued ▸ hmem) with hheld | hgone | hrest
  · have hnone : chunk ∈ b'.client.held := hheld
    rw [show b'.client.held = [] from hfinished.held] at hnone
    cases hnone
  · exact Or.inl (hdiscarded ▸ hgone)
  · exact Or.inr hrest

/-- The connection is cut with the first chunk unacknowledged, and more output comes. -/
def cutMidway : List BroadcastAction :=
  [.cut 0 0 0, .client (.send [105] size80x24 zeroNonce zeroNonce)].map BroadcastAction.net

theorem output_can_reach_viewers_cut :
    ∃ (b b' : Broadcast Blank) (v' : Viewer) (fed : List Bytes),
      b.links.map Link.cut = [true] ∧ b.client.held.map Chunk.bytes = [[104], [105]] ∧
      LeadsTo (step (fun _ => 0) ⟨"demo"⟩ "pw") (Finishes 0) b b' ∧ b'.client.held = [] ∧
      b'.delivery.viewers[0]? = some v' ∧
      v'.received.flatMap Frame.content =
        (v'.past.snapshot.bind RoomSnapshot.history).getD [] ++ fed.flatten := by
  obtain ⟨b₀, b, v, hbefore, hafter, hv, hregistered, hrunning, hopen, hending, hclaim, hlinks,
      hheld, hfirst⟩ :
      ∃ (b₀ b : Broadcast Blank) (v : Viewer),
        run (step (fun _ => 0) ⟨"demo"⟩ "pw") (init size80x24 none none 1000) firstChunk = some b₀ ∧
        run (step (fun _ => 0) ⟨"demo"⟩ "pw") b₀ (.viewing (.join ⟨"demo"⟩) :: cutMidway) =
          some b ∧
        b.delivery.viewers[b₀.delivery.viewers.length]? = some v ∧
        v.isRegistered = true ∧ v.phase.over = false ∧ b.client.closed = false ∧
        b.client.stage.ending = false ∧
        b.delivery.server.rooms.claim ⟨"demo"⟩ = some ("pw", 1) ∧
        b.links.map Link.cut = [true] ∧ b.client.held.map Chunk.bytes = [[104], [105]] ∧
        b₀.delivery.viewers.length = 0 :=
    ⟨_, _, _, rfl, rfl, rfl, rfl, rfl, rfl, rfl, rfl, rfl, rfl, rfl⟩
  have haccepts : b.delivery.server.Accepts ⟨"demo"⟩ "pw" := by
    intro p count hp
    rw [hclaim] at hp
    cases hp
    rfl
  obtain ⟨b', v', fed, hleads, hv', hfed, hnone, -⟩ :=
    output_can_reach_viewers (fun _ => 0) ⟨"demo"⟩ "pw" size80x24 none none 1000 firstChunk
      cutMidway b₀ b v hbefore hafter hv hregistered hrunning hopen hending haccepts
  rw [hfirst] at hleads hv'
  exact ⟨b, b', v', fed, hlinks, hheld, hleads, hnone, hv', hfed.received⟩

end Broadcast

end Shellshare
