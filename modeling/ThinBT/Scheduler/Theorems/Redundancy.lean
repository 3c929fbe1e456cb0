import ThinBT.Scheduler.Theorems.Runs

namespace ThinBT.Scheduler

variable {σ : Scheduler}

-- The peer exists and lists an active sub-block of the chunk.
def Serving (σ : Scheduler) (slot c : Nat) : Prop :=
  ∃ p ∈ σ.peerSlots, p.slotId = slot ∧ 0 < (p.begins c).size

-- The peers that could serve a chunk and have no active sub-block of it.
def spare (σ : Scheduler) (c : Nat) : List PeerSlot :=
  σ.peerSlots.filter fun p => p.eligible c && (p.begins c).size = 0

-- A serving peer is not spare, so that excluding it from the candidates changes nothing.
theorem candidates_eq_spare (h : σ.Shape) (hs : σ.Serving primary c) :
    σ.peerSlots.filter (redundantCandidate c primary) = σ.spare c := by
  refine List.filter_congr fun p hp => ?_
  have ⟨q, hq, he, hz⟩ := hs
  by_cases hp' : p.slotId = primary
  case pos =>
    have hpq : p = q := by
      have h₁ := h.find?_slot hp
      have h₂ := h.find?_slot hq
      rw [hp', ← he, h₂] at h₁
      exact Option.some.inj h₁.symm
    simp [redundantCandidate, hpq, hz.ne']
  case neg => simp [redundantCandidate, hp']

theorem primaryPeer_loop {l : List PeerSlot} (best : Nat × Nat) :
    (l.foldl (fun best p =>
      if best.2 < (p.begins c).size then (p.slotId, (p.begins c).size) else best) best = best ∧
        ∀ p ∈ l, (p.begins c).size ≤ best.2) ∨
    ∃ p ∈ l, 0 < (p.begins c).size ∧
      (l.foldl (fun best p =>
        if best.2 < (p.begins c).size then (p.slotId, (p.begins c).size) else best) best).1 =
          p.slotId := by
  induction l generalizing best
  case nil => simp
  case cons q l hi =>
    rw [List.foldl_cons]
    split
    case isTrue hq =>
      cases hi (q.slotId, (q.begins c).size)
      case inl h =>
        refine .inr ⟨q, List.mem_cons_self, Nat.lt_of_le_of_lt (Nat.zero_le _) hq, ?_⟩
        rw [h.left]
      case inr h =>
        have ⟨p, hp, h⟩ := h
        exact .inr ⟨p, List.mem_cons_of_mem _ hp, h⟩
    case isFalse hq =>
      cases hi best
      case inl h => exact .inl ⟨h.left, List.forall_mem_cons.mpr ⟨Nat.not_lt.mp hq, h.right⟩⟩
      case inr h =>
        have ⟨p, hp, h⟩ := h
        exact .inr ⟨p, List.mem_cons_of_mem _ hp, h⟩

theorem serving_primaryPeer (h : σ.Tracked c b) : σ.Serving (σ.primaryPeer c) c := by
  have ⟨p, hp, hb⟩ := h
  cases primaryPeer_loop (c := c) (l := σ.peerSlots) (uint32Max, 0)
  case inl h => exact absurd (SortedSet.size_pos_of_mem hb) (Nat.not_lt.mpr (h.right p hp))
  case inr h =>
    have ⟨q, hq, hz, he⟩ := h
    exact ⟨q, hq, he.symm, hz⟩

theorem Serving.redundant (h : σ.Serving slot c) :
    (σ.apply (.redundant c' s is)).Serving slot c := by
  have ⟨p, hp, he, hz⟩ := h
  have ⟨k, hk⟩ := List.mem_iff_getElem?.mp hp
  refine ⟨_, (onPeer_mem_peerSlots hk).resolve_right (by simp), ?_, ?_⟩
  · rw [slotId_onPeer, he]
  · have ⟨b, hb⟩ := List.exists_mem_of_length_pos hz
    exact SortedSet.size_pos_of_mem (mem_begins_iterate_track.mpr (.inr hb))

-- A hungry sub-block is requested from as many spare peers as possible.
def Spread (σ : Scheduler) : Action → Prop
  | .redundant c _ is => is.length = min maxRedundantPeers (σ.spare c).length
  | _                 => True

theorem spread_endgameSubBlocks (h : σ.Shape) (hc : ¬σ.closed c)
    (hs : ∀ s, σ.subReq c s → ¬σ.subDone c s → σ.Serving primary c) :
    Actions.AllAt apply Spread σ (endgameSubBlocks c primary threshold now ss σ) := by
  induction ss generalizing σ <;> simp only [endgameSubBlocks]
  case nil => trivial
  case cons s ss hi =>
    split
    case isTrue hh =>
      obtain ⟨hr, hd⟩ := of_hungry hh
      refine ⟨?_, hi (h.apply ⟨hc, hr, hd, primary, rfl⟩) ?_ ?_⟩
      · rw [Spread, (redundantPeers_spec h rfl).left, candidates_eq_spare h (hs s hr hd)]
      · rwa [closed_apply]
      · intro s' hr' hd'
        rw [subReq_apply] at hr'
        rw [subDone_apply] at hd'
        exact (hs s' hr' hd').redundant
    case isFalse => exact hi h hc hs

theorem spread_endgameChunks (h : σ.Shape) (hc : ∀ c ∈ cs, ¬σ.closed c) :
    Actions.AllAt apply Spread σ (endgameChunks now n cs σ) := by
  induction cs generalizing σ n <;> simp only [endgameChunks]
  case nil => trivial
  case cons c cs hi =>
    obtain ⟨hc, hcs⟩ := List.forall_mem_cons.mp hc
    split
    case isTrue => trivial
    case isFalse =>
      split
      case isTrue => exact hi h hcs
      case isFalse =>
        refine Actions.allAt_append.mpr ⟨spread_endgameSubBlocks h hc ?_, hi (h.exec ?_) ?_⟩
        · exact fun s hr hd => serving_primaryPeer (h.owned hc hr hd)
        · exact (duplicating_endgameSubBlocks hc).traffic.guarded
        · intro c' hc'
          rw [closed_endgameSubBlocks]
          exact hcs c' hc'

theorem Reaction.spread (h : σ.Reaction a) : σ.Spread a := by
  cases a <;> trivial

theorem spread_of_isRequest (h : a.isRequest = false) : σ.Spread a := by
  cases a <;> trivial

theorem spread_tick {std : StdSort} (h : σ.Shape) :
    Actions.AllAt apply Spread σ (tick std now σ) := by
  unfold tick
  split
  case isTrue => trivial
  case isFalse =>
    have ha := reaction_rebalanceAll (σ := σ) now
    have hb := (assigning_scheduleAll (σ := σ.exec (rebalanceAll now σ)) now).reaction
    simp only [Actions.allAt_append, Actions.exec_append]
    refine ⟨⟨ha.mono fun _ _ => Reaction.spread, hb.mono fun _ _ => Reaction.spread⟩, ?_⟩
    split
    case isTrue =>
      have h := (h.exec ha.traffic.guarded).exec hb.traffic.guarded
      exact spread_endgameChunks h fun _ => not_closed_of_downloading
    case isFalse => trivial

theorem spread_actions {std : StdSort} (h : σ.Shape) :
    Actions.AllAt apply Spread σ (actions std op σ) := by
  cases op
  case tick           => exact spread_tick h
  case onBitfield     => exact reaction_onBitfield.mono fun _ _ => Reaction.spread
  case onHave         => exact reaction_onHave.mono fun _ _ => Reaction.spread
  case decPeerPending => exact reaction_decPeerPending.mono fun _ _ => Reaction.spread
  all_goals exact Actions.allAt_of_forall fun a ha _ => spread_of_isRequest (isRequest_of_mem rfl ha)

-- The number of redundant requests of a sub-block after an action, given the number before it.
-- Each peer of a `redundant` action is sent one request.
def countRedundant (c s n : Nat) : Action → Nat
  | .assign _ c' s' _   => if c' = c ∧ s' = s then 0 else n
  | .move _ _ c' b _    => if c' = c ∧ b = s * subBlockSize then 0 else n
  | .redundant c' s' is => if c' = c ∧ s' = s then n + is.length else n
  | _                   => n

-- The number of redundant requests of a sub-block since it was last assigned or moved.
def redundantSince (c s : Nat) (as : List Action) : Nat :=
  as.foldl (countRedundant c s) 0

theorem redundantSince_concat :
    redundantSince c s (as ++ [a]) = countRedundant c s (redundantSince c s as) a :=
  List.foldl_concat ..

theorem countRedundant_le (h : n ≤ m) (ha : ∀ is, a ≠ .redundant c s is) :
    countRedundant c s n a ≤ m := by
  cases a <;> simp only [countRedundant]
  case assign => split <;> omega
  case move   => split <;> omega
  case redundant c' s' is =>
    split
    case isTrue he => exact absurd (by rw [he.left, he.right]) (ha is)
    case isFalse   => exact h
  all_goals exact h

variable {std : StdSort} {ops : List Op} {total : UInt32} {speed : Nat} {sizes : List UInt32}

theorem spread_history (hl : AllOps std Legal (start total speed sizes) ops)
    (h : history std (start total speed sizes) ops = as ++ a :: bs) :
    ((start total speed sizes).exec as).Spread a := by
  have hs : Actions.AllAt apply (fun σ a => σ.Guard a ∧ σ.Spread a) (start total speed sizes)
      (history std (start total speed sizes) ops) :=
    Actions.AllAt.perform (fun _ _ hs hg => Shape.apply hs hg.left)
      (fun _ _ hs hl => (guarded_actions hl).and (spread_actions hs)) shape_start hl
  rw [h] at hs
  exact (Actions.allAt_append.mp hs).right.left.right

-- The bound holds exactly if, whenever a sub-block that has redundant requests is hungry again, the
-- spare peers that are left do not exceed it.
theorem redundancy_bounded_iff (hl : AllOps std Legal (start total speed sizes) ops) :
    (∀ as, as <+: history std (start total speed sizes) ops →
        redundantSince c s as ≤ maxRedundantPeers) ↔
      ∀ as is bs, history std (start total speed sizes) ops = as ++ .redundant c s is :: bs →
        redundantSince c s as = 0 ∨
          redundantSince c s as + (((start total speed sizes).exec as).spare c).length ≤
            maxRedundantPeers := by
  constructor
  case mp =>
    intro hb as is bs he
    have hp := hb (as ++ [.redundant c s is]) ⟨bs, by simp [he]⟩
    rw [redundantSince_concat, countRedundant, if_pos ⟨rfl, rfl⟩, spread_history hl he] at hp
    simp only [maxRedundantPeers] at hp ⊢
    omega
  case mpr =>
    intro hc as
    induction as using List.reverseRecOn
    case nil => exact fun _ => Nat.zero_le _
    case append_singleton as a hi =>
      rintro ⟨bs, he⟩
      have hn := hi ⟨a :: bs, by rw [← he, List.append_assoc]; rfl⟩
      rw [List.append_assoc] at he
      rw [redundantSince_concat]
      by_cases ha : ∃ is, a = .redundant c s is
      case pos =>
        obtain ⟨is, rfl⟩ := ha
        have hb := hc as is bs he.symm
        rw [countRedundant, if_pos ⟨rfl, rfl⟩, spread_history hl he.symm]
        omega
      case neg => exact countRedundant_le hn fun is he => ha ⟨is, he⟩

-- Five peers hold the last chunk, of which the first one does not answer.
def hungryChunk (ticks : List Op) : List Op :=
  [.markAllComplete [false, true],
    .onPeerAdded 1 1000, .onBitfield 1 [true, false] 1, .onChokeChange 1 false,
    .onPeerAdded 2 1000, .onBitfield 2 [true, false] 2, .onChokeChange 2 false,
    .onPeerAdded 3 1000, .onBitfield 3 [true, false] 3, .onChokeChange 3 false,
    .onPeerAdded 4 1000, .onBitfield 4 [true, false] 4, .onChokeChange 4 false,
    .onPeerAdded 5 1000, .onBitfield 5 [true, false] 5, .onChokeChange 5 false] ++ ticks

theorem hungryChunk_bounded_iff :
    (∀ as, as <+: history .stable (start 2 1000 [100, 16384]) (hungryChunk [.tick 10, .tick 100]) →
        redundantSince 0 0 as ≤ maxRedundantPeers) ↔
      ∀ as is bs, history .stable (start 2 1000 [100, 16384]) (hungryChunk [.tick 10, .tick 100]) =
          as ++ .redundant 0 0 is :: bs →
        redundantSince 0 0 as = 0 ∨
          redundantSince 0 0 as + (((start 2 1000 [100, 16384]).exec as).spare 0).length ≤
            maxRedundantPeers :=
  redundancy_bounded_iff (by decide +kernel)

-- Every further tick of the endgame asks two more of them, until all of them have been asked.
theorem hungry_subblock_is_broadcast :
    AllOps .stable Legal (start 2 1000 [100, 16384])
        (hungryChunk [.tick 10, .tick 100, .tick 200]) ∧
      (run .stable (start 2 1000 [100, 16384])
        (hungryChunk [.tick 10, .tick 100, .tick 200])).phase = .endgame ∧
      redundantSince 0 0 (history .stable (start 2 1000 [100, 16384])
        (hungryChunk [.tick 10, .tick 100, .tick 200])) = 4 := by
  decide +kernel

end ThinBT.Scheduler
