import ThinBT.Scheduler.State

namespace ThinBT.PeerSlot

variable {p : PeerSlot}

section Fields

@[simp] theorem slotId_track : (p.track c b).slotId = p.slotId := rfl

@[simp] theorem slotId_decPending : p.decPending.slotId = p.slotId := rfl

@[simp] theorem slotId_drop : (p.drop c b).slotId = p.slotId := rfl

@[simp]
theorem slotId_untrack : (p.untrack c b).slotId = p.slotId := by
  unfold untrack; split <;> rfl

@[simp]
theorem slotId_cancelChunk : (p.cancelChunk c e).slotId = p.slotId := by
  unfold cancelChunk; split <;> rfl

@[simp]
theorem remoteBitfield_untrack : (p.untrack c b).remoteBitfield = p.remoteBitfield := by
  unfold untrack; split <;> rfl

@[simp]
theorem remoteBitfield_cancelChunk : (p.cancelChunk c e).remoteBitfield = p.remoteBitfield := by
  unfold cancelChunk; split <;> rfl

@[simp] theorem eligible_track : (p.track c b).eligible = p.eligible := rfl

@[simp] theorem begins_decPending : p.decPending.begins = p.begins := rfl

@[simp] theorem pendingRequests_track : (p.track c b).pendingRequests = p.pendingRequests + 1 := rfl

@[simp] theorem pendingRequests_drop : (p.drop c b).pendingRequests = p.pendingRequests := rfl

@[simp]
theorem pendingRequests_untrack : (p.untrack c b).pendingRequests = p.pendingRequests := by
  unfold untrack; split <;> rfl

@[simp]
theorem pendingRequests_decPending : p.decPending.pendingRequests = p.pendingRequests - 1 :=
  rfl

end Fields

theorem eligible_iff :
    p.eligible c ↔ p.has c = true ∧ p.amChoking = false ∧ p.consecutiveTimeouts < 3 := by
  simp [eligible, and_assoc]

theorem begins_track :
    (p.track c b).begins c' = if c = c' then (p.begins c).insert b else p.begins c' := by
  simp only [begins, track, SortedMap.find?_upsert]
  split <;> rfl

theorem begins_drop :
    (p.drop c b).begins c' = if c = c' then (p.begins c).erase b else p.begins c' := by
  simp only [begins, drop, SortedMap.find?_upsert]
  split <;> rfl

theorem begins_untrack :
    (p.untrack c b).begins c' = if c = c' then (p.begins c).erase b else p.begins c' := by
  unfold untrack
  cases h : p.activeSubBlocks.find? c <;> dsimp only
  case none =>
    split
    case isTrue hc => subst hc; simp only [begins, h]; rfl
    case isFalse   => rfl
  case some s =>
    have hb : p.begins c = s := by simp [begins, h]
    simp only [begins]
    split
    case isTrue hz =>
      simp only [SortedMap.find?_erase]
      split
      case isTrue =>
        rw [← begins, hb]
        exact (SortedSet.ext (List.length_eq_zero_iff.mp hz)).symm
      case isFalse => rfl
    case isFalse =>
      simp only [SortedMap.find?_upsert]
      split
      case isTrue  => rw [← begins, hb]; rfl
      case isFalse => rfl

theorem begins_cancelChunk :
    (p.cancelChunk c e).begins c' = if p.slotId ≠ e ∧ c = c' then ∅ else p.begins c' := by
  unfold cancelChunk
  split
  case isTrue h =>
    split
    case isTrue hc =>
      have hz := h.resolve_left hc.left
      rw [← hc.right]
      exact SortedSet.ext (List.length_eq_zero_iff.mp hz)
    case isFalse => rfl
  case isFalse h =>
    have ⟨hs, _⟩ := not_or.mp h
    simp only [begins, SortedMap.find?_erase]
    by_cases hc : c = c'
    case pos => rw [if_pos hc, if_pos ⟨hs, hc⟩]; rfl
    case neg => rw [if_neg hc, if_neg (hc ·.right)]

theorem mem_begins_track :
    b' ∈ (p.track c b).begins c' ↔ (c' = c ∧ b' = b) ∨ b' ∈ p.begins c' := by
  rw [begins_track]
  by_cases hc : c = c'
  case pos => simp [hc]
  case neg => simp [hc, Ne.symm hc]

theorem mem_begins_untrack :
    b' ∈ (p.untrack c b).begins c' ↔ ¬(c' = c ∧ b' = b) ∧ b' ∈ p.begins c' := by
  rw [begins_untrack]
  by_cases hc : c = c'
  case pos => simp [hc]
  case neg => simp [hc, Ne.symm hc]

theorem mem_begins_drop :
    b' ∈ (p.drop c b).begins c' ↔ ¬(c' = c ∧ b' = b) ∧ b' ∈ p.begins c' := by
  rw [begins_drop]
  by_cases hc : c = c'
  case pos => simp [hc]
  case neg => simp [hc, Ne.symm hc]

theorem mem_begins_cancelChunk :
    b' ∈ (p.cancelChunk c e).begins c' ↔ ¬(p.slotId ≠ e ∧ c = c') ∧ b' ∈ p.begins c' := by
  rw [begins_cancelChunk]
  split <;> simp_all

theorem mem_entries_of_mem_begins (h : b ∈ p.begins c) :
    (c, p.begins c) ∈ p.activeSubBlocks.entries := by
  rw [← SortedMap.find?_eq_some]
  unfold begins at h ⊢
  cases hf : p.activeSubBlocks.find? c
  case none   => simp [hf] at h
  case some s => rfl

-- The measures of the old and the new set of a chunk determine how the total changes.
theorem total_begins : (p.activeSubBlocks.find? c).elim 0 SortedSet.size = (p.begins c).size := by
  unfold begins
  cases p.activeSubBlocks.find? c <;> rfl

theorem activeTotal_track : (p.track c b).activeTotal + (p.begins c).size =
    p.activeTotal + ((p.begins c).insert b).size := by
  have := SortedMap.total_upsert (m := p.activeSubBlocks) (k := c) (v := (p.begins c).insert b)
    (f := SortedSet.size)
  rwa [total_begins] at this

theorem activeTotal_track_of_not_mem (h : b ∉ p.begins c) :
    (p.track c b).activeTotal = p.activeTotal + 1 := by
  have := p.activeTotal_track (c := c) (b := b)
  rw [SortedSet.size_insert h] at this
  omega

theorem activeTotal_untrack : (p.untrack c b).activeTotal + (p.begins c).size =
    p.activeTotal + ((p.begins c).erase b).size := by
  unfold untrack
  cases h : p.activeSubBlocks.find? c
  case none => simp only [begins, h]; rfl
  case some s =>
    have hb : p.begins c = s := by simp [begins, h]
    simp only [activeTotal]
    split
    case isTrue hz =>
      have := SortedMap.total_erase (m := p.activeSubBlocks) (k := c) (f := SortedSet.size)
      rw [total_begins] at this
      rw [this, hb, hz, Nat.add_zero]
    case isFalse =>
      have := SortedMap.total_upsert (m := p.activeSubBlocks) (k := c) (v := s.erase b)
        (f := SortedSet.size)
      rw [total_begins] at this
      rw [this, hb]

theorem activeTotal_untrack_of_mem (h : b ∈ p.begins c) :
    (p.untrack c b).activeTotal + 1 = p.activeTotal := by
  have := p.activeTotal_untrack (c := c) (b := b)
  have := SortedSet.size_erase h
  omega

theorem activeTotal_cancelChunk (h : p.pendingRequests = p.activeTotal) :
    (p.cancelChunk c e).pendingRequests = (p.cancelChunk c e).activeTotal := by
  unfold cancelChunk
  split
  case isTrue => exact h
  case isFalse =>
    have := SortedMap.total_erase (m := p.activeSubBlocks) (k := c) (f := SortedSet.size)
    rw [total_begins] at this
    simp only [activeTotal] at h ⊢
    omega

end ThinBT.PeerSlot
