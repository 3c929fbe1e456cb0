import ThinBT.Task.Theorems.Ledger
import ThinBT.Session.Theorems.Pieces

namespace ThinBT

-- The piece is as long as what a peer sends for one of the sub-blocks of the chunk.
def PieceTask.IsMeasured {δ : Type} (source : List UInt8) (seed : TSeedFile δ) (t : PieceTask) :
    Prop :=
  ∃ s e, seed.chunks[t.chunkIdx.toNat]? = some e ∧ Measured source e s t.begin t.data

namespace Task

variable {δ : Type} {τ τ' : Task δ} {source : List UInt8}

def Writable (τ : Task δ) (c : Nat) : Prop :=
  ∃ a, τ.assemblers[c]? = some a ∧ a.base.isSome

def StageMeasured (source : List UInt8) (τ : Task δ) : Stage → Prop
  | .idle      => True
  | .written t => τ.Writable t.chunkIdx.toNat ∧ t.IsMeasured source τ.seed
  | .marked t  => τ.Writable t.chunkIdx.toNat

-- A task that has only received pieces of the right size.
structure WellMeasured (source : List UInt8) (τ : Task δ) : Prop where
  layout : τ.Layout
  ledger : ∀ c, τ.Ledger c
  length : τ.file.length = source.length
  slots  : ∀ {c : Nat} {a s}, τ.assemblers[c]? = some a → a.received s → s < a.totalSlots.toNat
  mapped : ∀ v ∈ τ.verifyTasks, v.data.isSome
  queues : ∀ k ∈ τ.workers, ∀ t ∈ k.queue, t.IsMeasured source τ.seed
  stages : ∀ k ∈ τ.workers, τ.StageMeasured source k.stage

theorem IoStep.writable (hs : IoStep τ w τ') (h : τ.Layout) (hc : τ.Writable c) : τ'.Writable c := by
  obtain ⟨a, ha, hb⟩ := hc
  have hl : c < τ'.assemblers.length := by
    rw [(h.ioStep hs).count, hs.seed, ← h.count]
    exact (List.getElem?_eq_some_iff.mp ha).choose
  have ha' := List.getElem?_eq_getElem hl
  have ⟨b, hb', hf⟩ := hs.frame ha'
  obtain rfl : a = b := Option.some.inj (ha.symm.trans hb')
  exact ⟨_, ha', hf.base ▸ hb⟩

theorem mem_setWorker (h : k ∈ (τ.setWorker w k').workers) : k ∈ τ.workers ∨ k = k' :=
  List.mem_or_eq_of_mem_set h

theorem IoStep.queue (hs : IoStep τ w τ') (hk : k' ∈ τ'.workers) :
    ∃ k ∈ τ.workers, ∀ t ∈ k'.queue, t ∈ k.queue := by
  have set {k₀ : Worker} {q : List PieceTask} {stage} (hw : τ.workers[w]? = some k₀)
      (hq : ∀ t ∈ q, t ∈ k₀.queue) (hk : k' ∈ (τ.setWorker w ⟨q, stage⟩).workers) :
      ∃ k ∈ τ.workers, ∀ t ∈ k'.queue, t ∈ k.queue := by
    cases mem_setWorker hk
    case inl hk => exact ⟨k', hk, fun _ => id⟩
    case inr hk => exact ⟨k₀, List.mem_of_getElem? hw, hk ▸ hq⟩
  cases hs
  case skip                => exact ⟨k', hk, fun _ => id⟩
  case reject hw _ _       => exact set hw (fun _ => List.mem_cons_of_mem _) hk
  case write hw _ _ _ _    => exact set hw (fun _ => List.mem_cons_of_mem _) hk
  case mark hw _ _         => exact set hw (fun _ => id) hk
  case count hw _ _        => exact set hw (fun _ => id) hk
  case complete hw _ _ _   => exact set hw (fun _ => id) hk

theorem mem_dispatch (h : k ∈ (τ.dispatch t).workers) :
    ∃ k₀ ∈ τ.workers, (∀ u ∈ k.queue, u ∈ k₀.queue ∨ u = t) ∧ k.stage = k₀.stage := by
  obtain ⟨i, hi⟩ := List.mem_iff_getElem?.mp h
  rw [dispatch, List.getElem?_modify] at hi
  obtain ⟨k₀, hk₀, hi⟩ := Option.map_eq_some_iff.mp hi
  refine ⟨k₀, List.mem_of_getElem? hk₀, ?_⟩
  split at hi
  case isTrue =>
    subst hi
    exact ⟨fun u hu => (List.mem_append.mp hu).imp id List.mem_singleton.mp, rfl⟩
  case isFalse =>
    subst hi
    exact ⟨fun u hu => .inl hu, rfl⟩

-- A bit of a mask is old, or a worker has set it for the piece that it has written.
theorem IoStep.received (hs : IoStep τ w τ') {c : Nat} (ha : τ'.assemblers[c]? = some a)
    (hr : a.received s) :
    ∃ b, τ.assemblers[c]? = some b ∧ a.SameFrame b ∧ (b.received s ∨
      ∃ k ∈ τ.workers, ∃ t, k.stage = .written t ∧ t.chunkIdx.toNat = c ∧ s = b.slot t.begin) := by
  obtain ⟨b, hb, hf⟩ := hs.frame ha
  refine ⟨b, hb, hf, ?_⟩
  -- The assembler is the one that the step stores, or another one.
  have set {d : Nat} {b₀ b' : ChunkAssembler} (hd : τ.assemblers[d]? = some b₀)
      (ha : (τ.setAssembler d b').assemblers[c]? = some a) :
      b.received s ∨ d = c ∧ b₀ = b ∧ b' = a := by
    by_cases hc : d = c
    case neg =>
      obtain rfl := Option.some.inj (hb.symm.trans ((getElem?_setAssembler_of_ne hc).symm.trans ha))
      exact .inl hr
    case pos =>
      subst hc
      exact .inr ⟨rfl, Option.some.inj (hd.symm.trans hb), (eq_of_getElem?_setAssembler ha).symm⟩
  cases hs
  case skip | reject | write =>
    obtain rfl := Option.some.inj (hb.symm.trans ha)
    exact .inl hr
  case count hd _ =>
    obtain h | ⟨_, rfl, rfl⟩ := set hd ha
    case inl => exact .inl h
    case inr => exact .inl hr
  case complete hd _ _ =>
    obtain h | ⟨_, rfl, rfl⟩ := set hd ha
    case inl => exact .inl h
    case inr => exact .inl hr
  case mark hk hd hm =>
    obtain h | ⟨hc, rfl, rfl⟩ := set hd ha
    case inl => exact .inl h
    case inr =>
      rw [hm.received, Bool.or_eq_true, beq_iff_eq] at hr
      exact hr.symm.imp id fun he => ⟨_, List.mem_of_getElem? hk, _, rfl, hc, he⟩

namespace WellMeasured

variable {w : Nat} {q : List PieceTask} {t : PieceTask} {a : ChunkAssembler}

-- What is known when a worker copies a piece.
theorem copy (h : τ.WellMeasured source) (ha : τ.assemblers[t.chunkIdx.toNat]? = some a)
    (hc : a.accepts t.begin t.length) (hb : a.base = some base)
    (he : τ.seed.chunks[t.chunkIdx.toNat]? = some e) (hh : Measured source e s t.begin t.data) :
    base + t.begin.toNat = e.offset.toNat + s * subBlockSize ∧
      e.offset.toNat + e.length.toNat ≤ source.length ∧
      s * subBlockSize + t.data.length ≤ e.length.toNat := by
  have hA := h.layout.assembles ha he
  have ⟨ho, hf, _⟩ := hA.base_eq hb
  exact ⟨by rw [ho, hh.begins], h.length ▸ hf, (hA.accepts_iff hb hh).mp hc⟩

-- The slot of a piece that was written is one of the assembler.
theorem slot_lt (h : τ.WellMeasured source) (hw : τ.Writable t.chunkIdx.toNat)
    (ht : t.IsMeasured source τ.seed) (ha : τ.assemblers[t.chunkIdx.toNat]? = some a) :
    a.slot t.begin < a.totalSlots.toNat := by
  obtain ⟨b, hb, hbase⟩ := hw
  obtain rfl := Option.some.inj (ha.symm.trans hb)
  obtain ⟨s, e, he, hh⟩ := ht
  obtain ⟨base, hbase⟩ := Option.isSome_iff_exists.mp hbase
  have hA := h.layout.assembles ha he
  rw [hA.slot_eq, hh.begins, Nat.mul_div_cancel _ (by decide)]
  exact (hA.lt_totalSlots_iff (hA.base_eq hbase).right.right).mpr hh.inside

theorem slots_ioStep (h : τ.WellMeasured source) (hs : IoStep τ w τ') {c : Nat}
    (ha : τ'.assemblers[c]? = some a) (hr : a.received s) : s < a.totalSlots.toNat := by
  obtain ⟨b, hb, hf, hr⟩ := hs.received ha hr
  rw [hf.totalSlots]
  obtain hr | ⟨k, hk, t, hst, rfl, rfl⟩ := hr
  case inl => exact h.slots hb hr
  case inr =>
    have hS := h.stages k hk
    rw [hst] at hS
    exact h.slot_lt hS.left hS.right hb

theorem stages_ioStep (h : τ.WellMeasured source) (hs : IoStep τ w τ') (hk : k ∈ τ'.workers) :
    τ'.StageMeasured source k.stage := by
  have hwr (c) := hs.writable h.layout (c := c)
  have hseed := hs.seed
  have old {k} (hk : k ∈ τ.workers) : τ'.StageMeasured source k.stage := by
    have hS := h.stages k hk
    revert hS
    cases k.stage
    case idle    => exact id
    case marked  => exact hwr _
    case written => exact fun hS => ⟨hwr _ hS.left, hseed ▸ hS.right⟩
  cases hs
  case skip => exact old hk
  case write hk₀ hb _ hbase _ =>
    obtain hk | rfl := mem_setWorker hk
    case inl => exact old hk
    case inr =>
      exact ⟨⟨_, hb, hbase ▸ rfl⟩, h.queues _ (List.mem_of_getElem? hk₀) _ List.mem_cons_self⟩
  case mark first hk₀ _ _ =>
    obtain hk | rfl := mem_setWorker hk
    case inl => exact old hk
    case inr =>
      cases first
      case false => trivial
      case true  => exact hwr _ (h.stages _ (List.mem_of_getElem? hk₀)).left
  case reject | count | complete =>
    obtain hk | rfl := mem_setWorker hk
    case inl => exact old hk
    case inr => trivial

theorem mapped_ioStep (h : τ.WellMeasured source) (hs : IoStep τ w τ') (hv : v ∈ τ'.verifyTasks) :
    v.data.isSome := by
  cases hs
  case complete hk hb _ _ =>
    obtain hv | hv := List.mem_append.mp hv
    case inl => exact h.mapped v hv
    case inr =>
      rw [List.mem_singleton.mp hv]
      obtain ⟨b, hb', hbase⟩ := h.stages _ (List.mem_of_getElem? hk)
      obtain rfl := Option.some.inj (hb'.symm.trans hb)
      exact hbase
  all_goals exact h.mapped v hv

theorem ioStep (h : τ.WellMeasured source) (hs : IoStep τ w τ') : τ'.WellMeasured source where
  layout   := h.layout.ioStep hs
  ledger c := (h.ledger c).ioStep h.layout hs
  length   := hs.length_file.trans h.length
  slots    := h.slots_ioStep hs
  mapped _ := h.mapped_ioStep hs
  queues k hk t ht := by
    have ⟨k₀, hk₀, hq⟩ := hs.queue hk
    rw [hs.seed]
    exact h.queues k₀ hk₀ t (hq t ht)
  stages _ := h.stages_ioStep hs

-- Pieces of the right size never make a worker leave the memory of a chunk.
theorem ioStep_defined (h : τ.WellMeasured source) : ∃ τ', τ.ioStep w = some τ' := by
  unfold Task.ioStep
  split
  case h_2 => exact ⟨_, rfl⟩
  case h_1 k hk =>
    obtain ⟨q, stage⟩ := k
    cases stage
    case idle =>
      cases q
      case nil => exact ⟨_, rfl⟩
      case cons t q =>
        have ⟨s, e, he, hh⟩ := h.queues _ (List.mem_of_getElem? hk) t List.mem_cons_self
        have hlt : t.chunkIdx.toNat < τ.assemblers.length :=
          h.layout.count ▸ (List.getElem?_eq_some_iff.mp he).choose
        have ha := List.getElem?_eq_getElem hlt
        simp only [ha, Option.bind_eq_bind, Option.bind_some]
        split
        case isFalse => exact ⟨_, rfl⟩
        case isTrue hc =>
          obtain ⟨base, hb⟩ := Option.isSome_iff_exists.mp (Bool.and_eq_true_iff.mp hc).left
          have ⟨_, _, hfit⟩ := h.copy ha hc hb he hh
          have hA := h.layout.assembles ha he
          rw [ChunkAssembler.write, hb, hA.chunkSize, hh.begins]
          simp only [if_pos hfit, Option.bind_some]
          exact ⟨_, rfl⟩
    case written t =>
      obtain ⟨hw, ht⟩ := h.stages _ (List.mem_of_getElem? hk)
      have hlt {a} (ha) := h.slot_lt (a := a) hw ht ha
      obtain ⟨a, ha, _⟩ := hw
      have ⟨e, he, hA⟩ := h.layout.exists_entry ha
      have ⟨a', first, hm⟩ := ChunkAssembler.mark_defined hA (hlt ha)
      simp only [ha, hm, Option.bind_eq_bind, Option.bind_some]
      exact ⟨_, rfl⟩
    case marked t =>
      have ⟨a, ha, _⟩ : τ.Writable t.chunkIdx.toNat := h.stages _ (List.mem_of_getElem? hk)
      have ⟨e, he, _⟩ := h.layout.exists_entry ha
      simp only [ha, he, Option.bind_eq_bind, Option.bind_some]
      exact ⟨_, rfl⟩

variable [DecidableEq δ] {sha256 : List UInt8 → δ} {std : StdSort}

theorem step (h : τ.WellMeasured source)
    (hp : ∀ t now, op = .piece t now → t.IsMeasured source τ.seed)
    (hst : τ.step sha256 std op = some τ') : τ'.WellMeasured source := by
  have hledger (c) := (h.ledger c).step h.layout hst
  have hlay := h.layout.step hst
  cases op
  case io w => exact h.ioStep (ioStep_cases hst)
  case session =>
    cases hst
    exact ⟨hlay, hledger, h.length, h.slots, h.mapped, h.queues, h.stages⟩
  case tick =>
    cases hst
    exact ⟨hlay, hledger, h.length, h.slots, h.mapped, h.queues, h.stages⟩
  case verify k =>
    obtain rfl | ⟨v, base, hv, hb, rfl⟩ := verifyStep_cases hst
    case inl => exact h
    case inr =>
      exact ⟨hlay, hledger, h.length, h.slots, fun v hv => h.mapped v (List.mem_of_mem_eraseIdx hv),
        h.queues, h.stages⟩
  case piece t now =>
    cases hst
    refine ⟨hlay, hledger, h.length, h.slots, h.mapped, fun k hk u hu => ?_, fun k hk => ?_⟩
    · obtain ⟨k₀, hk₀, hq, _⟩ := mem_dispatch hk
      cases hq u hu
      case inl hu => exact h.queues k₀ hk₀ u hu
      case inr hu => exact hu ▸ hp t now rfl
    · obtain ⟨k₀, hk₀, _, hstage⟩ := mem_dispatch hk
      rw [hstage]
      exact h.stages k₀ hk₀

theorem step_defined (h : τ.WellMeasured source) : ∃ τ', τ.step sha256 std op = some τ' := by
  cases op
  case io w     => exact h.ioStep_defined
  case verify k =>
    simp only [Task.step, verifyStep]
    split
    case h_2 => exact ⟨_, rfl⟩
    case h_1 v hv =>
      obtain ⟨base, hb⟩ := Option.isSome_iff_exists.mp (h.mapped v (List.mem_of_getElem? hv))
      simp only [hb, Option.bind_eq_bind, Option.bind_some]
      exact ⟨_, rfl⟩
  all_goals exact ⟨_, rfl⟩

end WellMeasured

theorem Fresh.wellMeasured (h : τ.Fresh) (hl : τ.Layout) (hf : τ.file.length = source.length) :
    τ.WellMeasured source := by
  refine ⟨hl, fun _ => h.ledger, hf, fun {c a s} ha hr => ?_, ?_, fun k hk => ?_, fun k hk => ?_⟩
  · rw [h.received_eq_false ha] at hr
    cases hr
  · rw [h.verifyTasks]
    exact List.forall_mem_nil _
  · rw [h.workers k hk]
    exact List.forall_mem_nil _
  · rw [h.workers k hk]
    trivial

end Task
end ThinBT
