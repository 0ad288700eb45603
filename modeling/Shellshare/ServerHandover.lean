import Shellshare.ServerPublishOrder

/-! One loop's items between its store and the fan-out queues: whatever the other
loops do, they are handed over in the order the loop stores them. -/
namespace Shellshare

namespace Server

/-- What loop `i` has stored and not yet published. -/
def heldBy (s : Server) (i : ℕ) : List Stored := (s.conns[i]?.bind fun c => c.phase.held).toList

/-- Each loop publishes what it stores in the order it stores it. -/
def HandsOver (s : Server) : Prop := ∀ i, s.appended.filter (fun stored => stored.conn = i) =
  s.queued.filter (fun stored => stored.conn = i) ++ s.heldBy i

theorem heldBy_set {s : Server} {i : ℕ} {c c' : Conn} {conns : List Conn}
    (hc : s.conns[i]? = some c) (hconns : conns = s.conns.set i c') (j : ℕ) :
    (conns[j]?.bind fun c => c.phase.held).toList =
      if j = i then c'.phase.held.toList else s.heldBy j := by
  have hlt := (List.getElem?_eq_some_iff.mp hc).1
  rw [hconns, heldBy]
  split_ifs with hij
  · subst hij
    simp [hlt]
  · rw [List.getElem?_set_ne (Ne.symm hij)]

/-- A loop that holds nothing before and after a step hands nothing over in it. -/
theorem HandsOver.move {s s' : Server} (h : s.HandsOver) {i : ℕ} {c c' : Conn}
    (hc : s.conns[i]? = some c) (hconns : s'.conns = s.conns.set i c')
    (hbefore : c.phase.held = none) (hafter : c'.phase.held = none)
    (happ : s'.appended = s.appended) (hqueued : s'.queued = s.queued) : s'.HandsOver := by
  intro j
  have hj := h j
  rw [happ, hqueued, hj, heldBy, heldBy, heldBy_set hc hconns]
  split_ifs with hij
  · rw [hij, hc, Option.bind_some, hbefore, hafter]
  · rfl

theorem handsOver_init (ttl : ℕ) : (init ttl).HandsOver := fun _ => rfl

theorem handsOver_step {s s' : Server} {a : Action} (h : s.HandsOver)
    (hstep : s.step a = some s') : s'.HandsOver := by
  cases step_cases hstep with
  | elapse d => exact h
  | handshake room secret =>
    intro i
    have hsame : (s.handshake room secret).heldBy i = s.heldBy i := by
      rcases handshake_conns s room secret with hconns | hconns
      · rw [heldBy, hconns]
        rfl
      · rw [heldBy, heldBy, hconns, List.getElem?_append]
        split_ifs with hlt
        · rfl
        · -- the new loop has stored nothing yet
          rw [List.getElem?_eq_none (not_lt.mp hlt), List.getElem?_singleton]
          split_ifs <;> rfl
    have hfields : (s.handshake room secret).appended = s.appended ∧
        (s.handshake room secret).queued = s.queued := by
      simp only [queued, handshake]
      split <;> exact ⟨rfl, rfl⟩
    rw [hfields.1, hfields.2, hsame]
    exact h i
  | attach i c hc hp =>
    refine h.move hc rfl (by rw [hp]; rfl) ?_ rfl rfl
    change (if _ then Phase.announcing else Phase.receiving).held = none
    split_ifs <;> rfl
  | receive i msg c hc hp =>
    obtain ⟨c', hconns, -, -, -, hpub, hcases⟩ := receive_spec s i c msg
    have hqueued : (s.receive i c msg).queued = s.queued := by rw [queued, hpub]; rfl
    have hbefore : c.phase.held = none := by rw [hp]; rfl
    rcases hcases with ⟨happ, hphase, -⟩ | ⟨size, message, -, -, happ, -, hphase⟩
    · refine h.move hc hconns hbefore ?_ happ hqueued
      rcases hphase with hphase | hphase | hphase <;> rw [hphase] <;> rfl
    · -- the item is stored and held at once
      intro j
      rw [happ, hqueued, List.filter_append, h j, heldBy, heldBy, heldBy_set hc hconns]
      split_ifs with hij
      · subst hij
        rw [hc, Option.bind_some, hbefore, hphase]
        simp [Phase.held]
      · simp [heldBy, Ne.symm hij]
  | hangUp i c hc hp => exact h.move hc rfl (by rw [hp]; rfl) rfl rfl rfl
  | publish i c out phase hc hp =>
    rcases publication_cases hp with ⟨hphase, rfl, rfl⟩ | ⟨stored, hphase, rfl, rfl⟩ |
      ⟨hphase, rfl, rfl⟩ | ⟨hphase, rfl, rfl⟩
    · exact h.move hc rfl (by rw [hphase]; rfl) rfl rfl
        (by simp [queued, setConn, Output.stored])
    · intro j
      have hown : stored.conn = i := by
        have hi := h i
        have hmem : stored ∈ s.appended.filter (fun stored => stored.conn = i) := by
          rw [hi, heldBy, hc]
          simp [hphase, Phase.held]
        exact of_decide_eq_true (List.mem_filter.mp hmem).2
      change s.appended.filter _ = ((s.published ++ [Output.ingest stored]).filterMap
        Output.stored).filter _ ++ ((s.conns.set i (c.to .acking))[j]?.bind fun c =>
          c.phase.held).toList
      rw [h j, heldBy_set hc rfl, List.filterMap_append, List.filter_append, heldBy]
      split_ifs with hij
      · subst hij
        simp [queued, hc, hphase, Phase.held, Conn.to, Output.stored, hown]
      · simp [queued, Output.stored, hown, Ne.symm hij]
    · exact h.move hc rfl (by rw [hphase]; rfl) rfl rfl
        (by simp [queued, setConn, Output.stored])
    · exact h.move hc rfl (by rw [hphase]; rfl) rfl rfl
        (by simp [queued, setConn, Output.stored])
  | ack i sent c hc hp =>
    refine h.move hc rfl (by rw [hp]; rfl) ?_ rfl rfl
    cases sent <;> rfl
  | detach i c hc hp =>
    refine h.move hc rfl (by rw [hp]; rfl) ?_ rfl rfl
    change (if _ then Phase.signingOff else Phase.ended).held = none
    split_ifs <;> rfl
  | deleteRoom room secret => exact h
  | evict room => exact h

end Server

end Shellshare
