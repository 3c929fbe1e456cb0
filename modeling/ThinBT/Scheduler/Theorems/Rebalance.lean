import ThinBT.Scheduler.Theorems.Methods

namespace ThinBT

namespace PeerSlot

-- The slots may only differ in their active sub-blocks of the chunk.
structure SameOff (c : Nat) (p q : PeerSlot) : Prop where
  slotId          : q.slotId = p.slotId
  remoteBitfield  : q.remoteBitfield = p.remoteBitfield
  pendingRequests : q.pendingRequests = p.pendingRequests
  pipelineCap     : q.pipelineCap = p.pipelineCap
  begins          : c' ≠ c → q.begins c' = p.begins c'

theorem SameOff.refl {p : PeerSlot} : p.SameOff c p :=
  ⟨rfl, rfl, rfl, rfl, fun _ => rfl⟩

theorem SameOff.trans {p q r : PeerSlot} (h₁ : p.SameOff c q) (h₂ : q.SameOff c r) :
    p.SameOff c r where
  slotId          := h₂.slotId.trans h₁.slotId
  remoteBitfield  := h₂.remoteBitfield.trans h₁.remoteBitfield
  pendingRequests := h₂.pendingRequests.trans h₁.pendingRequests
  pipelineCap     := h₂.pipelineCap.trans h₁.pipelineCap
  begins hc       := (h₂.begins hc).trans (h₁.begins hc)

theorem SameOff.drop {p : PeerSlot} : p.SameOff c (p.drop c b) :=
  ⟨rfl, rfl, rfl, rfl, fun hc => begins_drop.trans (if_neg (Ne.symm hc))⟩

end PeerSlot

namespace Scheduler

variable {σ τ : Scheduler}

-- The schedulers may only differ in the active sub-blocks of the chunk.
structure SameOff (c : Nat) (σ τ : Scheduler) : Prop where
  closed      : τ.closed = σ.closed
  subDone     : τ.subDone = σ.subDone
  totalChunks : τ.totalChunks = σ.totalChunks
  length      : τ.peerSlots.length = σ.peerSlots.length
  peers       : ∀ {k : Nat} {p}, σ.peerSlots[k]? = some p →
    ∃ q, τ.peerSlots[k]? = some q ∧ p.SameOff c q

theorem SameOff.refl : σ.SameOff c σ :=
  ⟨rfl, rfl, rfl, rfl, fun h => ⟨_, h, .refl⟩⟩

theorem SameOff.dropDone : σ.SameOff c (σ.apply (.dropDone j c b)) where
  closed      := funext fun _ => closed_apply
  subDone     := funext fun _ => funext fun _ => subDone_apply
  totalChunks := totalChunks_apply
  length      := List.length_modify ..
  peers h     := by
    refine ⟨_, (getElem?_apply (by simp) (by simp)).trans (h ▸ Option.map_some ..), ?_⟩
    simp only [onPeer]
    split
    case isTrue  => exact .drop
    case isFalse => exact .refl

theorem SameOff.trans {υ : Scheduler} (h₁ : σ.SameOff c τ) (h₂ : τ.SameOff c υ) :
    σ.SameOff c υ where
  closed      := h₂.closed.trans h₁.closed
  subDone     := h₂.subDone.trans h₁.subDone
  totalChunks := h₂.totalChunks.trans h₁.totalChunks
  length      := h₂.length.trans h₁.length
  peers h     := by
    have ⟨_, hq, h₁⟩ := h₁.peers h
    have ⟨r, hr, h₂⟩ := h₂.peers hq
    exact ⟨r, hr, h₁.trans h₂⟩

-- Position `j` holds a full source other than `slot` whose first active sub-block is not done.
def Source (σ : Scheduler) (slot c j : Nat) : Prop :=
  ∃ q b, σ.peerSlots[j]? = some q ∧ q.slotId ≠ slot ∧ q.isFullSource σ.totalChunks ∧
    (q.begins c).first? = some b ∧ ¬σ.subDone c (b / subBlockSize)

theorem SameOff.symm (h : σ.SameOff c τ) : τ.SameOff c σ where
  closed      := h.closed.symm
  subDone     := h.subDone.symm
  totalChunks := h.totalChunks.symm
  length      := h.length.symm
  peers hk    := by
    have ⟨hl, _⟩ := List.getElem?_eq_some_iff.mp hk
    have hp := List.getElem?_eq_getElem (h.length ▸ hl)
    have ⟨q, hq, hs⟩ := h.peers hp
    cases hk.symm.trans hq
    exact ⟨_, hp, hs.slotId.symm, hs.remoteBitfield.symm, hs.pendingRequests.symm,
      hs.pipelineCap.symm, fun hc => (hs.begins hc).symm⟩

theorem SameOff.source (h : σ.SameOff c τ) (hc : c' ≠ c) (hs : σ.Source slot c' j) :
    τ.Source slot c' j := by
  have ⟨q, b, hq, hn, hf, hb, hd⟩ := hs
  have ⟨q', hq', he⟩ := h.peers hq
  refine ⟨q', b, hq', he.slotId ▸ hn, ?_, he.begins hc ▸ hb, h.subDone ▸ hd⟩
  rw [PeerSlot.isFullSource, PeerSlot.haveCount, he.remoteBitfield, h.totalChunks]
  exact hf

theorem SameOff.source_iff (h : σ.SameOff c τ) (hc : c' ≠ c) :
    τ.Source slot c' j ↔ σ.Source slot c' j :=
  ⟨h.symm.source hc, h.source hc⟩

theorem sameOff_rebalanceSources (h : ¬(rebalanceSources i c now js σ).any Action.isMove) :
    σ.SameOff c (σ.exec (rebalanceSources i c now js σ)) := by
  induction js generalizing σ <;> simp only [rebalanceSources] at h ⊢
  case nil => exact .refl
  case cons j js hi =>
    split at h
    case h_2 => exact .refl
    case h_1 =>
      split at h
      case isTrue he => rw [if_pos he]; exact hi h
      case isFalse he =>
        rw [if_neg he]
        split at h
        case h_1 => exact hi h
        case h_2 b _ =>
          split at h
          case isTrue hd =>
            rw [if_pos hd]
            exact SameOff.dropDone.trans (hi (by simpa [Action.isMove] using h))
          case isFalse => simp [Action.isMove] at h

-- The loop over the sources moves a sub-block as soon as it meets a source.
theorem any_isMove_rebalanceSources (hp : σ.peerSlots[i]? = some p) (hn : js.Nodup)
    (hj : ∀ j ∈ js, j < σ.peerSlots.length) :
    (rebalanceSources i c now js σ).any Action.isMove ↔ ∃ j ∈ js, σ.Source p.slotId c j := by
  induction js generalizing σ <;> simp only [rebalanceSources]
  case nil => simp
  case cons j js hi =>
    obtain ⟨hm, hn⟩ := List.nodup_cons.mp hn
    obtain ⟨hl, hj⟩ := List.forall_mem_cons.mp hj
    have hq := List.getElem?_eq_getElem hl
    generalize σ.peerSlots[j] = q at hq
    rw [hp, hq]
    dsimp only
    simp only [List.mem_cons, exists_eq_or_imp]
    split
    case isTrue he =>
      rw [hi hp hn hj, or_iff_right]
      rintro ⟨q', b, hq', hs, hf, _⟩
      cases hq.symm.trans hq'
      exact he.elim hs (absurd hf)
    case isFalse he =>
      obtain ⟨hs, hf⟩ := not_or.mp he
      split
      case h_1 hb =>
        rw [hi hp hn hj, or_iff_right]
        rintro ⟨q', b, hq', _, _, hb', _⟩
        cases hq.symm.trans hq'
        cases hb.symm.trans hb'
      case h_2 b hb =>
        split
        case isTrue hd =>
          have hne : i ≠ j := by
            rintro rfl
            cases hp.symm.trans hq
            exact hs rfl
          have hk : ∀ k, k ≠ j → (σ.apply (.dropDone j c b)).peerSlots[k]? = σ.peerSlots[k]? := by
            intro k hk
            rw [getElem?_apply (by simp) (by simp)]
            simp [onPeer, hk]
          have hsame : ∀ k ∈ js,
              ((σ.apply (.dropDone j c b)).Source p.slotId c k ↔ σ.Source p.slotId c k) := by
            intro k hkm
            have hkj : k ≠ j := fun he => hm (he ▸ hkm)
            simp only [Source, hk k hkj, totalChunks_apply, subDone_apply]
          rw [List.any_cons, show (Action.dropDone j c b).isMove = false from rfl, Bool.false_or,
            hi ((hk i hne).trans hp) hn (by simpa [peerSlots_apply] using hj), or_iff_right]
          · exact exists_congr fun k => and_congr_right fun hkm => hsame k hkm
          · rintro ⟨q', b', hq', _, _, hb', hd'⟩
            cases hq.symm.trans hq'
            cases hb.symm.trans hb'
            exact hd' hd
        case isFalse hd =>
          simp only [List.any_cons, Action.isMove, Bool.true_or, true_iff]
          exact .inl ⟨q, b, hq, hs, not_not.mp hf, hb, hd⟩

-- The peer at position `i` could take over a sub-block of one of the chunks.
def Takes (σ : Scheduler) (p : PeerSlot) (c : Nat) : Prop :=
  p.has c ∧ ¬σ.closed c ∧ ∃ j < σ.peerSlots.length, σ.Source p.slotId c j

theorem any_isMove_rebalanceChunks (hp : σ.peerSlots[i]? = some p)
    (hc : p.pendingRequests < p.pipelineCap) (hn : cs.Nodup) :
    (rebalanceChunks i now cs σ).any Action.isMove ↔ ∃ c ∈ cs, σ.Takes p c := by
  induction cs generalizing σ p <;> simp only [rebalanceChunks]
  case nil => simp
  case cons c cs hi =>
    obtain ⟨hm, hn⟩ := List.nodup_cons.mp hn
    rw [hp]
    dsimp only
    rw [if_neg (Nat.not_le.mpr hc)]
    simp only [List.mem_cons, exists_eq_or_imp]
    split
    case isTrue he =>
      rw [hi hp hc hn, or_iff_right]
      exact fun ht => he.elim (absurd ht.left) ht.right.left
    case isFalse he =>
      obtain ⟨hh, ho⟩ := not_or.mp he
      have hs : (rebalanceSources i c now (.range σ.peerSlots.length) σ).any Action.isMove ↔ _ :=
        any_isMove_rebalanceSources hp List.nodup_range fun j hj => List.mem_range.mp hj
      split
      case isTrue ha =>
        obtain ⟨j, hj, hs⟩ := hs.mp ha
        exact iff_of_true ha (.inl ⟨not_not.mp hh, ho, j, List.mem_range.mp hj, hs⟩)
      case isFalse ha =>
        have hsame := sameOff_rebalanceSources ha
        obtain ⟨p', hp', he⟩ := hsame.peers hp
        rw [List.any_append, Bool.eq_false_of_not_eq_true ha, Bool.false_or,
          hi hp' (by rw [he.pendingRequests, he.pipelineCap]; exact hc) hn, or_iff_right]
        · refine exists_congr fun c' => and_congr_right fun hc' => ?_
          have hne : c' ≠ c := fun he => hm (he ▸ hc')
          simp only [Takes, PeerSlot.has, he.remoteBitfield, hsame.closed, hsame.length, he.slotId,
            hsame.source_iff hne]
        · rintro ⟨_, _, j, hj, ht⟩
          exact ha (hs.mpr ⟨j, List.mem_range.mpr hj, ht⟩)

-- The peer at position `i` is no full source, has room and could take over a sub-block.
def Movable (σ : Scheduler) (i : Nat) : Prop :=
  ∃ p, σ.peerSlots[i]? = some p ∧ ¬p.isFullSource σ.totalChunks ∧
    p.pendingRequests < p.pipelineCap ∧ ∃ c ∈ σ.activeChunks, σ.Takes p c

theorem any_isMove_rebalanceSeedRequestsForPeer (h : σ.activeChunks.Nodup) :
    (rebalanceSeedRequestsForPeer i now (n + 1) σ).any Action.isMove ↔ σ.Movable i := by
  unfold rebalanceSeedRequestsForPeer Movable
  cases hp : σ.peerSlots[i]?
  case none => simp
  case some p =>
    simp only [Option.some.injEq, exists_eq_left']
    split
    case isTrue hf => simp [hf]
    case isFalse hf =>
      simp only [rebalanceLoop, hp]
      split
      case isTrue hc => simp [Nat.not_lt.mpr hc]
      case isFalse hc =>
        have ha : (rebalanceChunks i now σ.activeChunks σ).any Action.isMove ↔ _ :=
          any_isMove_rebalanceChunks hp (Nat.not_le.mp hc) h
        rw [and_iff_right hf, and_iff_right (Nat.not_le.mp hc), ← ha]
        split
        case isTrue hm  => simp [hm]
        case isFalse hm => rfl

end Scheduler
end ThinBT
