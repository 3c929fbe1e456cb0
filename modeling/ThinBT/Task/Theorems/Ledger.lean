import ThinBT.Task.Theorems.Start

namespace ThinBT

def Stage.counting (c : Nat) : Stage → Bool
  | .marked t => t.chunkIdx.toNat = c
  | _         => false

namespace Task

variable {δ : Type} {τ τ' : Task δ}

-- The number of workers that have set a new bit of the chunk's mask, but not yet counted down.
def countingOn (τ : Task δ) (c : Nat) : Nat :=
  τ.workers.countP (·.stage.counting c)

-- The number of verifications of a chunk that are waiting or have an undrained result.
def inFlight (τ : Task δ) (c : Nat) : Nat :=
  τ.verifyTasks.countP (·.chunkIdx = c) + τ.results.countP (·.chunkIdx = c)

-- The assembler has counted down from its number of slots to zero.
def Spent (τ : Task δ) (c : Nat) : Prop :=
  ∀ a, τ.assemblers[c]? = some a →
    a.totalSlots.toNat + τ.countingOn c ≤ Bitset.size a.completedMask

-- The counter of a chunk together with its verifications.
structure Ledger (τ : Task δ) (c : Nat) : Prop where
  pending  : ∀ a, τ.assemblers[c]? = some a →
    (a.pendingCount.toNat + Bitset.size a.completedMask) % 2 ^ 32 =
      (a.totalSlots.toNat + τ.countingOn c) % 2 ^ 32
  counting : ∀ a, τ.assemblers[c]? = some a → τ.countingOn c ≤ Bitset.size a.completedMask
  once     : τ.inFlight c ≤ 1
  spent    : 0 < τ.inFlight c → τ.Spent c

theorem countingOn_setWorker (h : τ.workers[w]? = some k) (k' : Worker) :
    (τ.setWorker w k').countingOn c + (if k.stage.counting c then 1 else 0) =
      τ.countingOn c + if k'.stage.counting c then 1 else 0 :=
  List.countP_set_add h

@[simp]
theorem countingOn_setAssembler : (τ.setAssembler d a).countingOn c = τ.countingOn c :=
  rfl

-- A worker that neither sets a bit nor counts down.
theorem countingOn_setWorker_eq (h : τ.workers[w]? = some k) (hk : k.stage.counting c = false)
    (hk' : k'.stage.counting c = false) : (τ.setWorker w k').countingOn c = τ.countingOn c := by
  simpa [hk, hk'] using countingOn_setWorker (c := c) h k'

theorem Spent.of_eq (h : τ.Spent c) (ha : τ'.assemblers[c]? = τ.assemblers[c]?)
    (hm : τ'.countingOn c = τ.countingOn c) : τ'.Spent c := by
  rw [Spent, ha, hm]
  exact h

theorem Ledger.of_eq (h : τ.Ledger c) (ha : τ'.assemblers[c]? = τ.assemblers[c]?)
    (hm : τ'.countingOn c = τ.countingOn c) (hf : τ'.inFlight c = τ.inFlight c) : τ'.Ledger c where
  pending  := by rw [ha, hm]; exact h.pending
  counting := by rw [ha, hm]; exact h.counting
  once     := hf ▸ h.once
  spent hp := (h.spent (hf ▸ hp)).of_eq ha hm

-- The counter has no room to wrap around, so that it reaches one exactly before the last count.
theorem Ledger.last_count (h : τ.Ledger c) (hl : τ.Layout) (ha : τ.assemblers[c]? = some a)
    (hp : a.pendingCount = 1) :
    Bitset.size a.completedMask + 1 = a.totalSlots.toNat + τ.countingOn c := by
  have ⟨e, _, hf⟩ := hl.exists_entry ha
  have := hf.totalSlots_le
  have := hf.size_le
  have := h.counting a ha
  have he := h.pending a ha
  rw [hp, UInt32.toNat_one] at he
  omega

-- What the step of a worker means for a chunk: it leaves the chunk's counting alone, sets a bit of its
-- mask or counts down, and the last count starts a verification.
inductive IoOn (τ : Task δ) (w c : Nat) : Task δ → Prop
  | other {υ : Task δ} :
    υ.assemblers[c]? = τ.assemblers[c]? → υ.countingOn c = τ.countingOn c →
    υ.inFlight c = τ.inFlight c → IoOn τ w c υ
  | mark :
    t.chunkIdx.toNat = c → τ.workers[w]? = some ⟨q, .written t⟩ →
    τ.assemblers[t.chunkIdx.toNat]? = some a → a.Marked (a.slot t.begin) a' first →
    IoOn τ w c ((τ.setAssembler t.chunkIdx.toNat a').setWorker w
      ⟨q, if first then .marked t else .idle⟩)
  | count :
    t.chunkIdx.toNat = c → τ.workers[w]? = some ⟨q, .marked t⟩ →
    τ.assemblers[t.chunkIdx.toNat]? = some a →
    IoOn τ w c ((τ.setAssembler t.chunkIdx.toNat a.countDown.1).setWorker w ⟨q, .idle⟩)
  | complete {e : ChunkEntry δ} :
    t.chunkIdx.toNat = c → τ.workers[w]? = some ⟨q, .marked t⟩ →
    τ.assemblers[t.chunkIdx.toNat]? = some a → a.pendingCount = 1 →
    IoOn τ w c (((τ.setAssembler t.chunkIdx.toNat a.countDown.1).setWorker w
      ⟨q, .idle⟩).enqueueVerify a e t)

section Workers

variable {q : List PieceTask} {t : PieceTask} {a a' : ChunkAssembler}

theorem counting_marked_self : (Stage.marked t).counting t.chunkIdx.toNat = true :=
  decide_eq_true rfl

-- Setting a new bit moves one worker to counting.
theorem countingOn_mark (hk : τ.workers[w]? = some ⟨q, .written t⟩) (hm : a.Marked s a' first) :
    ((τ.setAssembler t.chunkIdx.toNat a').setWorker w
      ⟨q, if first then .marked t else .idle⟩).countingOn t.chunkIdx.toNat =
      τ.countingOn t.chunkIdx.toNat + if a.received s then 0 else 1 := by
  have hw := countingOn_setWorker (c := t.chunkIdx.toNat) (τ := τ.setAssembler t.chunkIdx.toNat a') hk
    ⟨q, if first then .marked t else .idle⟩
  rw [hm.first] at hw ⊢
  cases hr : a.received s <;> simpa [hr, Stage.counting] using hw

-- Counting down moves one worker back to idle.
theorem countingOn_countDown (hk : τ.workers[w]? = some ⟨q, .marked t⟩) (a' : ChunkAssembler) :
    ((τ.setAssembler t.chunkIdx.toNat a').setWorker w ⟨q, .idle⟩).countingOn t.chunkIdx.toNat + 1 =
      τ.countingOn t.chunkIdx.toNat := by
  have hw := countingOn_setWorker (c := t.chunkIdx.toNat) (τ := τ.setAssembler t.chunkIdx.toNat a') hk
    ⟨q, .idle⟩
  rw [if_pos counting_marked_self] at hw
  exact hw

theorem Spent.mark (h : τ.Spent t.chunkIdx.toNat) (hk : τ.workers[w]? = some ⟨q, .written t⟩)
    (ha : τ.assemblers[t.chunkIdx.toNat]? = some a) (hm : a.Marked s a' first) :
    ((τ.setAssembler t.chunkIdx.toNat a').setWorker w
      ⟨q, if first then .marked t else .idle⟩).Spent t.chunkIdx.toNat := by
  intro b hb
  obtain rfl := eq_of_getElem?_setAssembler hb
  have he := h a ha
  rw [hm.frame.totalSlots, countingOn_mark hk hm, hm.size]
  omega

theorem Spent.countDown (h : τ.Spent t.chunkIdx.toNat) (hk : τ.workers[w]? = some ⟨q, .marked t⟩)
    (ha : τ.assemblers[t.chunkIdx.toNat]? = some a) :
    ((τ.setAssembler t.chunkIdx.toNat a.countDown.1).setWorker w ⟨q, .idle⟩).Spent
      t.chunkIdx.toNat := by
  intro b hb
  obtain rfl := eq_of_getElem?_setAssembler hb
  have hc := countingOn_countDown hk a.countDown.1
  have he := h a ha
  change a.totalSlots.toNat + _ ≤ Bitset.size a.completedMask
  omega

theorem Ledger.mark (h : τ.Ledger t.chunkIdx.toNat) (hk : τ.workers[w]? = some ⟨q, .written t⟩)
    (ha : τ.assemblers[t.chunkIdx.toNat]? = some a) (hm : a.Marked s a' first) :
    ((τ.setAssembler t.chunkIdx.toNat a').setWorker w
      ⟨q, if first then .marked t else .idle⟩).Ledger t.chunkIdx.toNat := by
  have hc := countingOn_mark hk hm
  have hs := hm.size
  refine ⟨?_, ?_, h.once, fun hp => (h.spent hp).mark hk ha hm⟩
  · intro b hb
    obtain rfl := eq_of_getElem?_setAssembler hb
    have he := h.pending a ha
    rw [hm.pending, hm.frame.totalSlots, hc, hs]
    omega
  · intro b hb
    obtain rfl := eq_of_getElem?_setAssembler hb
    have he := h.counting a ha
    rw [hc, hs]
    omega

theorem Ledger.countDown (h : τ.Ledger t.chunkIdx.toNat)
    (hk : τ.workers[w]? = some ⟨q, .marked t⟩)
    (ha : τ.assemblers[t.chunkIdx.toNat]? = some a) :
    ((τ.setAssembler t.chunkIdx.toNat a.countDown.1).setWorker w ⟨q, .idle⟩).Ledger
      t.chunkIdx.toNat := by
  have hc := countingOn_countDown hk a.countDown.1
  have hn := h.counting a ha
  refine ⟨?_, ?_, h.once, fun hp => (h.spent hp).countDown hk ha⟩
  · intro b hb
    obtain rfl := eq_of_getElem?_setAssembler hb
    have he := h.pending a ha
    have hd : a.countDown.1.pendingCount.toNat = (2 ^ 32 - 1 + a.pendingCount.toNat) % 2 ^ 32 :=
      UInt32.toNat_sub ..
    rw [hd]
    change (_ + Bitset.size a.completedMask) % _ = (a.totalSlots.toNat + _) % _
    omega
  · intro b hb
    obtain rfl := eq_of_getElem?_setAssembler hb
    change _ ≤ Bitset.size a.completedMask
    omega

theorem IoStep.on (hs : IoStep τ w τ') (c : Nat) : IoOn τ w c τ' := by
  cases hs
  case skip => exact .other rfl rfl rfl
  case reject hk _ _ | write hk _ _ _ _ =>
    exact .other rfl (countingOn_setWorker_eq hk rfl rfl) rfl
  case mark q t a a' first hk ha hm =>
    by_cases hc : t.chunkIdx.toNat = c
    case pos => exact .mark hc hk ha hm
    case neg =>
      refine .other (getElem?_setAssembler_of_ne hc) ?_ rfl
      refine countingOn_setWorker_eq (τ := τ.setAssembler t.chunkIdx.toNat a') hk rfl ?_
      cases first
      case true  => exact decide_eq_false hc
      case false => rfl
  case count q t a hk ha hp =>
    by_cases hc : t.chunkIdx.toNat = c
    case pos => exact .count hc hk ha
    case neg =>
      refine .other (getElem?_setAssembler_of_ne hc) ?_ rfl
      exact countingOn_setWorker_eq (τ := τ.setAssembler _ _) hk (decide_eq_false hc) rfl
  case complete q t a e hk ha hp he =>
    by_cases hc : t.chunkIdx.toNat = c
    case pos => exact .complete hc hk ha hp
    case neg =>
      refine .other (getElem?_setAssembler_of_ne hc) ?_ ?_
      · exact countingOn_setWorker_eq (τ := τ.setAssembler _ _) hk (decide_eq_false hc) rfl
      · simp [inFlight, enqueueVerify, setWorker, setAssembler, hc]

theorem inFlight_enqueueVerify {e : ChunkEntry δ} :
    (τ.enqueueVerify a e t).inFlight t.chunkIdx.toNat = τ.inFlight t.chunkIdx.toNat + 1 := by
  simp only [inFlight, enqueueVerify, List.countP_append, List.countP_singleton, decide_true, if_true]
  omega

theorem Ledger.ioStep (h : τ.Ledger c) (hl : τ.Layout) (hs : IoStep τ w τ') : τ'.Ledger c := by
  cases hs.on c
  case other ha hm hf           => exact h.of_eq ha hm hf
  case mark t q a a' f hc hk ha hm => subst hc; exact h.mark hk ha hm
  case count t q a hc hk ha     => subst hc; exact h.countDown hk ha
  case complete q t a e hc hk ha hp =>
    subst hc
    have hd := h.countDown hk ha
    have hn := countingOn_countDown hk a.countDown.1
    have ht := h.last_count hl ha hp
    have hf : τ.inFlight t.chunkIdx.toNat = 0 := by
      by_contra hf
      have := h.spent (Nat.pos_of_ne_zero hf) a ha
      omega
    refine ⟨hd.pending, hd.counting, ?_, ?_⟩
    · rw [inFlight_enqueueVerify]
      exact Nat.le_of_eq (congrArg (· + 1) hf)
    · intro _ b hb
      obtain rfl := eq_of_getElem?_setAssembler hb
      change a.totalSlots.toNat + ((τ.setAssembler t.chunkIdx.toNat a.countDown.1).setWorker w
        ⟨q, .idle⟩).countingOn _ ≤ Bitset.size a.completedMask
      omega

end Workers

theorem countP_modify {l : List α} {p : α → Bool} (h : ∀ x, p (f x) = p x) :
    (l.modify i f).countP p = l.countP p := by
  induction l generalizing i
  case nil => simp
  case cons x l hi => cases i <;> simp [List.countP_cons, h, hi]

theorem countingOn_dispatch : (τ.dispatch t).countingOn c = τ.countingOn c :=
  countP_modify fun _ => rfl

-- A verification moves from the tasks to the results.
theorem inFlight_verified {r : VerifyResult} (hv : τ.verifyTasks[k]? = some v)
    (hr : r.chunkIdx = v.chunkIdx) :
    { τ with
      verifyTasks := τ.verifyTasks.eraseIdx k
      results     := τ.results ++ [r] }.inFlight c = τ.inFlight c := by
  have hl := (List.getElem?_eq_some_iff.mp hv).choose
  have he := (List.getElem?_eq_some_iff.mp hv).choose_spec
  have hp := (List.getElem_cons_eraseIdx_perm hl).countP_eq (·.chunkIdx = c)
  simp only [List.countP_cons, he] at hp
  simp only [inFlight, List.countP_append, List.countP_singleton, hr]
  omega

theorem Ledger.tick {std : StdSort} (h : τ.Ledger c) : (τ.tick std now dead).Ledger c := by
  have hf : (τ.tick std now dead).inFlight c ≤ τ.inFlight c :=
    Nat.add_le_add_left (Nat.zero_le _) _
  exact ⟨h.pending, h.counting, hf.trans h.once, fun hp => h.spent (hp.trans_le hf)⟩

theorem Fresh.ledger (h : τ.Fresh) : τ.Ledger c := by
  have hm : τ.countingOn c = 0 := by
    refine List.countP_eq_zero.mpr fun k hk => ?_
    rw [h.workers k hk]
    exact Bool.false_ne_true
  have hf : τ.inFlight c = 0 := by
    rw [inFlight, h.verifyTasks, h.results]
    rfl
  refine ⟨?_, ?_, by omega, by omega⟩
  · intro a ha
    obtain ⟨base, size, rfl⟩ := h.assemblers ha
    have hz : Bitset.size (ChunkAssembler.init base size (.ofNat subBlockSize)).completedMask = 0 :=
      Bitset.size_replicate_zero
    rw [hz, hm]
    rfl
  · intro a ha
    rw [hm]
    exact Nat.zero_le _

section Steps

variable [DecidableEq δ] {sha256 : List UInt8 → δ} {std : StdSort}

theorem Ledger.step (h : τ.Ledger c) (hl : τ.Layout) (hs : τ.step sha256 std op = some τ') :
    τ'.Ledger c := by
  cases op
  case session => cases hs; exact h.of_eq rfl rfl rfl
  case piece   => cases hs; exact h.of_eq rfl countingOn_dispatch rfl
  case io      => exact h.ioStep hl (ioStep_cases hs)
  case verify  =>
    obtain rfl | ⟨v, base, hv, _, rfl⟩ := verifyStep_cases hs
    case inl => exact h
    case inr => exact h.of_eq rfl rfl (inFlight_verified hv rfl)
  case tick => cases hs; exact h.tick

end Steps

end Task
end ThinBT
