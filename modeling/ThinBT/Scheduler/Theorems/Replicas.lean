import ThinBT.Scheduler.Theorems.Runs

namespace ThinBT.Scheduler

variable {σ τ : Scheduler} {std : StdSort}

-- The number of peers that are known to have a chunk.
def replicas (σ : Scheduler) (c : Nat) : Nat :=
  σ.peerSlots.countP (·.has c)

def AvailabilityExact (σ : Scheduler) : Prop :=
  ∀ c < σ.totalChunks, (σ.availabilityOf c).toNat = σ.replicas c

-- The number of replicas of a chunk can be represented.
def ReplicasFit (σ : Scheduler) : Prop :=
  ∀ c < σ.totalChunks, σ.replicas c < 2 ^ 32

-- The actions that change what peers are known to have.
def Action.replicates : Action → Bool
  | .setBitfield .. | .recordHave .. | .removePeer _ => true
  | _                                                => false

section Actions

theorem availability_removePeer (hp : σ.peerSlots.find? (·.slotId = slot) = some p) :
    (σ.apply (.removePeer slot)).availability = (σ.withdraw p).availability := by
  have ⟨_, _, _, _, h⟩ := foldl_releaseChunk_eq (σ := σ.withdraw p) p.activeSubBlocks.entries
  simp only [apply, removePeer_eq, released, hp]
  rw [h]

theorem removePeer_of_find?_none (hp : σ.peerSlots.find? (·.slotId = slot) = none) :
    σ.apply (.removePeer slot) = σ := by
  have hf : σ.peerSlots.filter (·.slotId ≠ slot) = σ.peerSlots := by
    refine List.filter_eq_self.mpr fun p hm => decide_eq_true fun he => ?_
    exact List.find?_eq_none.mp hp p hm (decide_eq_true he)
  simp only [apply, removePeer_eq, released, hp, hf]

theorem availability_apply (h : a.replicates = false) :
    (σ.apply a).availability = σ.availability := by
  cases a
  case setBitfield | recordHave | removePeer => cases h
  case redundant => rw [redundant_eq]
  case arrive    => simp only [apply, markDone]; split <;> rfl
  case timeout   => simp only [apply]; split <;> rfl
  case complete  => simp only [apply, sendCancelForChunk]; split <;> rfl
  all_goals rfl

theorem length_availability_apply : (σ.apply a).availability.length = σ.availability.length := by
  cases a
  case setBitfield => exact List.length_mapIdx
  case recordHave  => exact List.length_modify ..
  case removePeer slot =>
    cases hp : σ.peerSlots.find? (·.slotId = slot)
    case none   => rw [removePeer_of_find?_none hp]
    case some p => rw [availability_removePeer hp]; exact List.length_mapIdx
  all_goals rw [availability_apply rfl]

theorem has_newPeer : (σ.newPeer slot speed).has c = false :=
  List.getElem?_getD_replicate_default_eq ..

theorem has_onPeer {p : PeerSlot} (h : a.replicates = false) : (σ.onPeer a k p).has c = p.has c := by
  rw [PeerSlot.has, remoteBitfield_onPeer]
  cases a
  case setBitfield | recordHave => cases h
  all_goals rfl

theorem replicas_apply (h : a.replicates = false) : (σ.apply a).replicas c = σ.replicas c := by
  rw [replicas, peerSlots_apply]
  split
  case h_1 => rw [List.countP_append, List.countP_singleton, has_newPeer]; rfl
  case h_2 => cases h
  case h_3 => exact List.countP_mapIdx fun _ _ => has_onPeer h

theorem replicas_setBitfield (bf : List Bool) (hp : σ.peerSlots[i]? = some p) :
    (σ.apply (.setBitfield i bf)).replicas c + (p.has c).toNat =
      σ.replicas c + (bf.getD c false).toNat :=
  List.countP_modify hp

theorem replicas_recordHave (hp : σ.peerSlots[i]? = some p) (hd : d < p.remoteBitfield.length)
    (hn : p.has d = false) :
    (σ.apply (.recordHave i d)).replicas c = σ.replicas c + (decide (d = c)).toNat := by
  have h : (σ.apply (.recordHave i d)).replicas c + (p.has c).toNat =
      σ.replicas c + ((p.remoteBitfield.set d true).getD c false).toNat := List.countP_modify hp
  simp only [List.getD_eq_getElem?_getD, List.getElem?_set, hd, if_true] at h
  by_cases hc : d = c
  case pos =>
    subst hc
    simpa [hn] using h
  case neg =>
    simp only [hc, if_false, decide_false] at h ⊢
    exact Nat.add_right_cancel h

theorem replicas_removePeer (h : σ.Shape) (hp : σ.peerSlots.find? (·.slotId = slot) = some p) :
    (σ.apply (.removePeer slot)).replicas c + (p.has c).toNat = σ.replicas c := by
  rw [replicas, peerSlots_apply]
  exact List.countP_filter_key h.slotsNodup hp

theorem availabilityOf_setBitfield (bf : List Bool) (hc : c < σ.availability.length) :
    (σ.apply (.setBitfield i bf)).availabilityOf c =
      σ.availabilityOf c + if bf.getD c false then 1 else 0 := by
  simp only [availabilityOf, apply, List.getD_eq_getElem?_getD, List.getElem?_mapIdx,
    List.getElem?_eq_getElem hc, Option.map_some, Option.getD_some]
  split
  case isTrue  => rfl
  case isFalse => exact (UInt32.add_zero _).symm

theorem availabilityOf_recordHave (hc : c < σ.availability.length) :
    (σ.apply (.recordHave i d)).availabilityOf c =
      σ.availabilityOf c + if d = c then 1 else 0 := by
  simp only [availabilityOf, apply, List.getD_modify, hc, and_true]
  split
  case isTrue  => rfl
  case isFalse => exact (UInt32.add_zero _).symm

theorem availabilityOf_removePeer (hc : c < σ.availability.length)
    (hp : σ.peerSlots.find? (·.slotId = slot) = some p) :
    (σ.apply (.removePeer slot)).availabilityOf c =
      if p.has c then σ.availabilityOf c - 1 else σ.availabilityOf c := by
  simp only [availabilityOf, availability_removePeer hp, withdraw, List.getD_eq_getElem?_getD,
    List.getElem?_mapIdx, List.getElem?_eq_getElem hc, Option.map_some, Option.getD_some]

end Actions

section Operations

-- A step that counts each new replica.
theorem AvailabilityExact.iff_fit (hx : σ.AvailabilityExact) (ht : τ.totalChunks = σ.totalChunks)
    (b : Nat → Bool)
    (hr : ∀ c < σ.totalChunks, τ.replicas c = σ.replicas c + (b c).toNat)
    (ha : ∀ c < σ.totalChunks, τ.availabilityOf c = σ.availabilityOf c + if b c then 1 else 0) :
    τ.AvailabilityExact ↔ τ.ReplicasFit := by
  refine forall_congr' fun c => ?_
  rw [ht]
  refine imp_congr_right fun hc => ?_
  rw [hr c hc, ha c hc, UInt32.toNat_add, ← hx c hc]
  have := (σ.availabilityOf c).toNat_lt
  cases b c
  case false => simp; omega
  case true  => simp

theorem AvailabilityExact.iff_fit_self (hx : σ.AvailabilityExact) :
    σ.AvailabilityExact ↔ σ.ReplicasFit :=
  hx.iff_fit rfl (fun _ => false) (fun _ _ => rfl) fun _ _ => (UInt32.add_zero _).symm

def Neutral (_ : Scheduler) (a : Action) : Prop :=
  a.replicates = false

theorem covers_neutral : Covers Neutral where
  assigning {_ a} h     := by cases a <;> first | rfl | cases h
  rebalancing {_ _ a} h := by cases a <;> first | rfl | cases h
  notInterested         := rfl

theorem Duplicating.neutral (h : σ.Duplicating a) : σ.Neutral a := by
  cases a <;> first | rfl | cases h

section Exec

variable {as : List Action}

theorem availability_exec (h : Actions.AllAt apply Neutral σ as) :
    (σ.exec as).availability = σ.availability := by
  induction as generalizing σ
  case nil          => rfl
  case cons a as hi => exact (hi h.right).trans (availability_apply h.left)

theorem replicas_exec (h : Actions.AllAt apply Neutral σ as) :
    (σ.exec as).replicas c = σ.replicas c := by
  induction as generalizing σ
  case nil          => rfl
  case cons a as hi => exact (hi h.right).trans (replicas_apply h.left)

theorem availabilityExact_exec (h : Actions.AllAt apply Neutral σ as) :
    (σ.exec as).AvailabilityExact ↔ σ.AvailabilityExact := by
  simp only [AvailabilityExact, availabilityOf, availability_exec h, replicas_exec h,
    totalChunks_exec]

theorem replicasFit_exec (h : Actions.AllAt apply Neutral σ as) :
    (σ.exec as).ReplicasFit ↔ σ.ReplicasFit := by
  simp only [ReplicasFit, replicas_exec h, totalChunks_exec]

end Exec

-- The bitfield is the first thing that a peer tells about the chunks it has.
def FirstNews (σ : Scheduler) : Op → Prop
  | .onBitfield slot _ _ =>
    ∀ p ∈ σ.peerSlots, p.slotId = slot → ∀ c < σ.totalChunks, ¬p.has c
  | _                    => True

structure AvailabilityShape (σ : Scheduler) : Prop extends σ.Shape where
  length : σ.availability.length = σ.totalChunks

namespace AvailabilityShape

theorem apply (h : σ.AvailabilityShape) (hg : σ.Guard a) : (σ.apply a).AvailabilityShape where
  toShape := h.toShape.apply hg
  length  := by rw [length_availability_apply, totalChunks_apply, h.length]

theorem next (h : σ.AvailabilityShape) (hl : σ.Legal op) :
    (Scheduler.next std σ op).AvailabilityShape :=
  (guarded_actions hl).invariant (fun _ _ => apply) h

theorem setBitfield_iff (h : σ.AvailabilityShape) (hx : σ.AvailabilityExact)
    (hp : σ.peerSlots[i]? = some p) :
    (σ.apply (.setBitfield i bf)).AvailabilityExact ↔
      (∀ c < σ.totalChunks, ¬p.has c) ∧ (σ.apply (.setBitfield i bf)).ReplicasFit := by
  by_cases hn : ∀ c < σ.totalChunks, ¬p.has c
  case pos =>
    refine (hx.iff_fit totalChunks_apply (bf.getD · false) (fun c hc => ?_) fun c hc => ?_).trans
      (and_iff_right hn).symm
    · have hr := replicas_setBitfield (c := c) bf hp
      rwa [eq_false_of_ne_true (hn c hc)] at hr
    · exact availabilityOf_setBitfield bf (h.length ▸ hc)
  case neg =>
    refine iff_of_false (fun hx' => hn fun c hc hh => ?_) fun hs => hn hs.left
    have hr := replicas_setBitfield (c := c) bf hp
    have ha := congrArg UInt32.toNat
      (availabilityOf_setBitfield (c := c) (i := i) bf (h.length ▸ hc))
    have hb := (σ.availabilityOf c).toNat_lt
    rw [hx' c (by rwa [totalChunks_apply]), UInt32.toNat_add, hx c hc] at ha
    rw [hx c hc] at hb
    rw [hh] at hr
    generalize bf.getD c false = v at hr ha
    cases v <;> simp at hr ha <;> omega

theorem recordHave_iff (h : σ.AvailabilityShape) (hx : σ.AvailabilityExact)
    (hp : σ.peerSlots[i]? = some p) (hd : d < p.remoteBitfield.length) (hn : p.has d = false) :
    (σ.apply (.recordHave i d)).AvailabilityExact ↔ (σ.apply (.recordHave i d)).ReplicasFit := by
  refine hx.iff_fit totalChunks_apply (decide <| d = ·) (fun c _ => ?_) fun c hc => ?_
  · exact replicas_recordHave hp hd hn
  · simpa using availabilityOf_recordHave (h.length ▸ hc)

theorem removePeer (h : σ.AvailabilityShape) (hx : σ.AvailabilityExact) :
    (σ.apply (.removePeer slot)).AvailabilityExact := by
  cases hp : σ.peerSlots.find? (·.slotId = slot)
  case none => rwa [removePeer_of_find?_none hp]
  case some p =>
    intro c hc
    rw [totalChunks_apply] at hc
    have hr := replicas_removePeer (c := c) h.toShape hp
    have ha := hx c hc
    rw [availabilityOf_removePeer (h.length ▸ hc) hp]
    cases hh : p.has c
    case false =>
      rw [hh] at hr
      exact ha.trans hr.symm
    case true =>
      rw [hh, Bool.toNat_true] at hr
      have h1 : 1 ≤ σ.availabilityOf c := UInt32.le_iff_toNat_le.mpr (by
        rw [ha, ← hr]
        exact Nat.le_add_left ..)
      rw [if_pos rfl, UInt32.toNat_sub_of_le _ _ h1, ha, ← hr]
      rfl

theorem onBitfield_iff (h : σ.AvailabilityShape) (hx : σ.AvailabilityExact) :
    (Scheduler.next std σ (.onBitfield slot bf now)).AvailabilityExact ↔
      σ.FirstNews (.onBitfield slot bf now) ∧
        (Scheduler.next std σ (.onBitfield slot bf now)).ReplicasFit := by
  simp only [Scheduler.next, Actions.after, actions, onBitfield]
  split
  case h_1 hs =>
    have hf : σ.FirstNews (.onBitfield slot bf now) := fun p hp he =>
      absurd he (of_decide_eq_false (List.findIdx?_eq_none_iff.mp hs p hp))
    exact hx.iff_fit_self.trans (and_iff_right hf).symm
  case h_2 i hs =>
    obtain ⟨p, hp, he⟩ := getElem?_peerSlot hs
    have hf : σ.FirstNews (.onBitfield slot bf now) ↔ ∀ c < σ.totalChunks, ¬p.has c := by
      refine ⟨fun hf => hf p (List.mem_of_getElem? hp) he, fun hf q hq hs => ?_⟩
      obtain rfl : p = q :=
        List.inj_on_of_nodup_map h.slotsNodup (List.mem_of_getElem? hp) hq (he.trans hs.symm)
      exact hf
    rw [Actions.exec_cons, availabilityExact_exec covers_neutral.checked_rebalance,
      replicasFit_exec covers_neutral.checked_rebalance, hf]
    exact h.setBitfield_iff hx hp

theorem onHave_iff (h : σ.AvailabilityShape) (hx : σ.AvailabilityExact) :
    (Scheduler.next std σ (.onHave slot d now)).AvailabilityExact ↔
      (Scheduler.next std σ (.onHave slot d now)).ReplicasFit := by
  simp only [Scheduler.next, Actions.after, actions, onHave]
  split
  case h_1 => exact hx.iff_fit_self
  case h_2 i hs =>
    split
    case h_1 => exact hx.iff_fit_self
    case h_2 p hp =>
      split
      case isTrue => exact hx.iff_fit_self
      case isFalse hd =>
        rw [List.append_assoc, Actions.exec_append,
          availabilityExact_exec covers_neutral.checked_rebalance,
          replicasFit_exec covers_neutral.checked_rebalance]
        split
        case isTrue      => exact hx.iff_fit_self
        case isFalse hh =>
          exact h.recordHave_iff hx hp (Nat.not_le.mp hd) (eq_false_of_ne_true hh)

-- Only bitfields can be counted twice.
theorem next_iff_fit (h : σ.AvailabilityShape) (hx : σ.AvailabilityExact)
    (ho : ∀ slot bf now, op ≠ .onBitfield slot bf now) :
    (Scheduler.next std σ op).AvailabilityExact ↔ (Scheduler.next std σ op).ReplicasFit := by
  have neutral (hn : Actions.AllAt Scheduler.apply Neutral σ (actions std op σ)) :
      (Scheduler.next std σ op).AvailabilityExact ↔ (Scheduler.next std σ op).ReplicasFit :=
    ((availabilityExact_exec hn).mpr hx).iff_fit_self
  have other (ht : op.isTraffic = false) (hr : ∀ slot, op ≠ .onPeerRemoved slot) :
      (Scheduler.next std σ op).AvailabilityExact ↔ (Scheduler.next std σ op).ReplicasFit := by
    refine neutral (Actions.allAt_of_forall fun a ha _ => ?_)
    cases makes_of_not_isTraffic ht ha
    case removePeer => exact absurd rfl (hr _)
    all_goals rfl
  cases op
  case onBitfield     => exact absurd rfl (ho _ _ _)
  case onHave         => exact h.onHave_iff hx
  case onPeerRemoved  => exact (h.removePeer hx).iff_fit_self
  case tick           => exact neutral (covers_neutral.tick Duplicating.neutral)
  case decPeerPending => exact neutral (covers_neutral.decPeerPending fun _ _ => rfl)
  all_goals exact other rfl nofun

theorem next_iff (h : σ.AvailabilityShape) (hx : σ.AvailabilityExact) :
    (Scheduler.next std σ op).AvailabilityExact ↔
      σ.FirstNews op ∧ (Scheduler.next std σ op).ReplicasFit := by
  cases op
  case onBitfield => exact h.onBitfield_iff hx
  all_goals exact (h.next_iff_fit hx (by simp)).trans (and_iff_right trivial).symm

end AvailabilityShape

end Operations

section Runs

variable {ops : List Op}

theorem availabilityShape_start : (start total speed sizes).AvailabilityShape where
  toShape := shape_start
  length  := by simp [totalChunks, start, setChunkSizes, init]

theorem availabilityExact_start : (start total speed sizes).AvailabilityExact := by
  intro c _
  have ha : (start total speed sizes).availabilityOf c = 0 :=
    List.getElem?_getD_replicate_default_eq ..
  rw [ha]
  rfl

-- A bitfield that is not the first news of a peer is counted on top of what was known of it.
theorem availability_exact_iff (hl : AllOps std Legal (start total speed sizes) ops) :
    (∀ before, before <+: ops → (run std (start total speed sizes) before).AvailabilityExact) ↔
      AllOps std FirstNews (start total speed sizes) ops ∧
        ∀ before, before <+: ops → (run std (start total speed sizes) before).ReplicasFit := by
  have hfit :
      (∀ before, before <+: ops → (run std (start total speed sizes) before).ReplicasFit) ↔
        AllOps std (fun σ op => (next std σ op).ReplicasFit) (start total speed sizes) ops :=
    hl.forall_prefix_iff (fun _ _ => AvailabilityShape.next) (fun _ _ _ _ _ => Iff.rfl)
      availabilityShape_start (availabilityExact_start.iff_fit_self.mp availabilityExact_start)
  rw [hfit, ← Actions.allAt_and]
  exact hl.forall_prefix_iff (fun _ _ => AvailabilityShape.next) (fun _ _ h _ => h.next_iff)
    availabilityShape_start availabilityExact_start

-- Two peers announce chunks with a bitfield and with HAVE messages, and one of them leaves.
def announcedOnce : List Op := [
  .onPeerAdded 1 1000, .onBitfield 1 [true, false] 5, .onHave 1 1 6, .onHave 1 1 7,
  .onPeerAdded 2 1000, .onHave 2 0 8, .onHave 2 5 9, .onPeerRemoved 1
]

theorem announcedOnce_availability :
    (∀ before, before <+: announcedOnce →
      (run .stable (start 2 1000 [16384, 100]) before).AvailabilityExact) ↔
      AllOps .stable FirstNews (start 2 1000 [16384, 100]) announcedOnce ∧
        ∀ before, before <+: announcedOnce →
          (run .stable (start 2 1000 [16384, 100]) before).ReplicasFit :=
  availability_exact_iff (by decide +kernel)

-- A peer that has announced a chunk with a HAVE message sends its bitfield.
def announcedTwice : List Op := [
  .onPeerAdded 1 1000, .onHave 1 0 5, .onBitfield 1 [true, false] 6
]

theorem announcedTwice_not_availabilityExact :
    AllOps .stable Legal (start 2 1000 [16384, 100]) announcedTwice ∧
      (run .stable (start 2 1000 [16384, 100]) announcedTwice).availabilityOf 0 = 2 ∧
      (run .stable (start 2 1000 [16384, 100]) announcedTwice).replicas 0 = 1 := by
  decide +kernel

end Runs

end ThinBT.Scheduler
