import ThinBT.Queue.Theorems.Spsc
import Mathlib.Data.List.Range

namespace ThinBT.ReaderWriterQueue

variable {α : Type}

section Start

theorem exists_ceilToPow2 (h₁ : 2 ≤ x) (h₂ : x ≤ 2 ^ 63) : ∃ k, ceilToPow2 x = 2 ^ (k + 1) := by
  obtain ⟨k, hk⟩ := Ring.exists_two_pow_of_smear (n := x - 1) (by omega)
  have hle : x - 1 ≤ [1, 2, 4, 8, 16, 32].foldl Ring.smear (x - 1) := by
    simp only [List.foldl_cons, List.foldl_nil, Ring.smear]
    exact Nat.left_le_or.trans (Nat.left_le_or.trans (Nat.left_le_or.trans
      (Nat.left_le_or.trans (Nat.left_le_or.trans Nat.left_le_or))))
  cases k
  case zero   => omega
  case succ k => exact ⟨k, hk⟩

theorem getElem?_circle {count size i : Nat} (hi : i < count) : (circle α count size)[i]? =
    some { makeBlock α size with next := if i + 1 = count then 0 else i + 1 } := by
  rw [circle, List.getElem?_map, List.getElem?_range hi]
  rfl

theorem good_circle (m k : Nat) :
    Good { blocks := circle α (m + 1) (2 ^ (k + 1)), largestBlockSize := 2 ^ (k + 1) } .idle .idle {} [0]
      ((List.range m).map Nat.succ) fun _ => ⟨2 ^ (k + 1), 0, [], 0, 0, none⟩ := by
  have hr : [0] ++ (List.range m).map Nat.succ = List.range (m + 1) := List.range_succ_eq_map.symm
  refine ⟨⟨⟨⟨[], rfl⟩, ⟨[], rfl⟩, ?_, ?_⟩, fun b hb => ?_, (fun _ hb => nomatch hb), ⟨k, rfl⟩⟩, rfl,
    fun _ _ => .inl rfl, trivial, trivial, fun hd => absurd rfl hd⟩
  · rw [hr]
    exact List.nodup_range
  · rw [hr, List.range_succ, List.append_assoc, List.singleton_append, List.isChain_append_cons_cons,
      ← List.range_succ, List.isChain_range_succ]
    refine ⟨fun i hi => ⟨_, getElem?_circle (by omega), if_neg (by omega)⟩,
      ⟨_, getElem?_circle (Nat.lt_succ_self m), if_pos rfl⟩, .singleton _⟩
  · rw [hr, List.mem_range] at hb
    exact ⟨_, getElem?_circle hb, Block.shows_empty _⟩

theorem good_init {size : Nat} (h₁ : 1 ≤ size) (h₂ : size < 2 ^ 63) :
    ∃ used free view, Good (init α size) .idle .idle {} used free view := by
  obtain ⟨k, hk⟩ := exists_ceilToPow2 (x := size + 1) (by omega) (by omega)
  rw [init, hk]
  split
  case isTrue =>
    obtain ⟨m, hm⟩ : ∃ m, (size + maxBlockSize * 2 - 3) / (maxBlockSize - 1) = m + 1 :=
      Nat.exists_eq_add_one.mpr (Nat.div_pos (by rw [maxBlockSize]; omega) (by decide))
    rw [hm]
    exact ⟨_, _, _, good_circle m 8⟩
  case isFalse => exact ⟨_, _, _, good_circle 0 k⟩

end Start

section Ranks

-- A bound on the steps that are left of a call.
def Enqueue.rank : Enqueue α → Nat
  | .idle                                             => 0
  | .storeTail .. | .storeTailBlock ..                => 1
  | .construct .. | .storeNextTail .. | .storeNext .. => 2
  | .constructNext ..                                 => 3
  | .loadNextFront ..                                 => 4
  | .loadFrontBlock ..                                => 5
  | .loadFront ..                                     => 6

def Dequeue.rank : Dequeue α → Nat
  | .idle               => 0
  | .storeFront ..      => 1
  | .take ..            => 2
  | .storeFrontBlock .. => 3
  | .loadNextTail ..    => 4
  | .loadNext ..        => 5
  | .reloadTail         => 6
  | .loadTailBlock ..   => 7
  | .loadTail ..        => 8

variable {q q' : ReaderWriterQueue α} {e e' : Enqueue α} {d d' : Dequeue α}

theorem Enqueue.rank_le : e.rank ≤ 6 := by
  cases e <;> simp [rank]

theorem Dequeue.rank_le : d.rank ≤ 8 := by
  cases d <;> simp [rank]

theorem Enqueue.rank_eq_zero_iff : e.rank = 0 ↔ e = .idle := by
  cases e <;> simp [rank]

theorem Dequeue.rank_eq_zero_iff : d.rank = 0 ↔ d = .idle := by
  cases d <;> simp [rank]

theorem rank_produce (h : q.produce allocates e = some (q', e', events)) : e'.rank ≤ e.rank - 1 := by
  cases e
  case idle | storeTailBlock => cases h; exact Nat.le_refl _
  case construct | storeTail | loadNextFront | constructNext | storeNextTail =>
    obtain ⟨B, _, h⟩ := Option.bind_eq_some_iff.mp h
    cases h
    exact Nat.le_refl _
  case loadFront | loadFrontBlock =>
    obtain ⟨B, _, h⟩ := Option.bind_eq_some_iff.mp h
    cases h
    split <;> simp [Enqueue.rank]
  case storeNext =>
    obtain ⟨B, _, h⟩ := Option.bind_eq_some_iff.mp h
    cases allocates <;> cases h <;> simp [Enqueue.rank]

theorem rank_consume (h : q.consume d = some (q', d', events)) : d'.rank ≤ d.rank - 1 := by
  cases d
  case idle | storeFrontBlock => cases h; exact Nat.le_refl _
  case loadNext | loadNextTail | storeFront =>
    obtain ⟨B, _, h⟩ := Option.bind_eq_some_iff.mp h
    cases h
    exact Nat.le_refl _
  case loadTail | reloadTail =>
    obtain ⟨B, _, h⟩ := Option.bind_eq_some_iff.mp h
    cases h
    split <;> simp [Dequeue.rank]
  case loadTailBlock =>
    rw [consume] at h
    split at h <;> cases h <;> simp [Dequeue.rank]
  case take =>
    obtain ⟨B, _, h⟩ := Option.bind_eq_some_iff.mp h
    obtain ⟨x, _, h⟩ := Option.bind_eq_some_iff.mp h
    cases h
    exact Nat.le_refl _

end Ranks

namespace Shared

variable [DecidableEq α] {s s' : Shared α}

-- The producers do not overlap, and what the calls have returned is what an atomic queue returns.
def Atomic (s : Shared α) : Prop :=
  ∃ p t used free view, (∀ p' ≠ p, s.producers p' = .idle) ∧
    Machine.run Fifo.step {} s.log = some t ∧
    Good s.queue (s.producers p) s.consumer t used free view

theorem Atomic.step (h : s.Atomic) (ha : s.Alone op) : ∃ s', s.step op = some s' ∧ s'.Atomic := by
  obtain ⟨p, t, used, free, view, hp, ht, hg⟩ := h
  cases op
  case enqueue p' x =>
    by_cases hi : s.producers p' = .idle
    case neg => exact ⟨s, if_neg hi, p, t, used, free, view, hp, ht, hg⟩
    case pos =>
      have hidle := ha hi
      rw [hidle p] at hg
      obtain ⟨e, he, hg⟩ := hg.innerEnqueue x
      refine ⟨{ s with producers := Function.update s.producers p' e },
        by rw [Shared.step, if_pos hi, he]; rfl, p', t, used, free, view, fun c hc => ?_, ht, ?_⟩
      · exact (Function.update_of_ne hc ..).trans (hidle c)
      · simpa only [Function.update_self] using hg
  case produce p' allocates =>
    by_cases hpp : p' = p
    case pos =>
      subst hpp
      obtain ⟨q', e', events, t', used', free', view', hq, ht', hg⟩ := hg.produce allocates
      refine ⟨{ s with
          queue := q', producers := Function.update s.producers p' e', log := s.log ++ events },
        by rw [Shared.step, hq]; rfl, p', t', used', free', view', fun c hc => ?_,
        Machine.run_append.mpr ⟨t, ht, ht'⟩, ?_⟩
      · exact (Function.update_of_ne hc ..).trans (hp c hc)
      · simpa only [Function.update_self] using hg
    case neg =>
      have hu : Function.update s.producers p' .idle = s.producers := by
        rw [← hp p' hpp, Function.update_eq_self]
      refine ⟨s, ?_, p, t, used, free, view, hp, ht, hg⟩
      rw [Shared.step, hp p' hpp]
      exact congrArg some (by rw [hu, List.append_nil])
  case tryDequeue =>
    by_cases hi : s.consumer = .idle
    case neg => exact ⟨s, if_neg hi, p, t, used, free, view, hp, ht, hg⟩
    case pos =>
      rw [hi] at hg
      obtain ⟨d, hd, hg⟩ := hg.tryDequeue
      exact ⟨{ s with consumer := d, log := s.log ++ [.asked] },
        by rw [Shared.step, if_pos hi, hd]; rfl, p, _, used, free, view, hp,
        Machine.run_append.mpr ⟨t, ht, rfl⟩, hg⟩
  case consume =>
    obtain ⟨q', d', events, t', used', free', view', hq, ht', hg⟩ := hg.consume
    exact ⟨{ s with queue := q', consumer := d', log := s.log ++ events },
      by rw [Shared.step, hq]; rfl, p, t', used', free', view', hp,
      Machine.run_append.mpr ⟨t, ht, ht'⟩, hg⟩

section WaitFree

theorem rank_step_enqueue (p : Nat) (h : s.step op = some s') (hc : ¬op.isEnqueue p) :
    (s'.producers p).rank ≤ (s.producers p).rank - (op.isProduce p).toNat := by
  cases op
  case enqueue p' x =>
    rw [step] at h
    split at h
    case isFalse => cases h; exact Nat.le_refl _
    case isTrue =>
      obtain ⟨e, _, h⟩ := Option.bind_eq_some_iff.mp h
      cases h
      have hp : p ≠ p' := fun he => hc (decide_eq_true he.symm)
      simp only [Function.update_of_ne hp]
      exact Nat.le_refl _
  case produce p' allocates =>
    obtain ⟨⟨q, e, events⟩, he, h⟩ := Option.bind_eq_some_iff.mp h
    cases h
    by_cases hp : p' = p
    case pos =>
      subst hp
      simp only [Function.update_self, Op.isProduce, decide_true, Bool.toNat_true]
      exact rank_produce he
    case neg =>
      simp only [Function.update_of_ne (Ne.symm hp), Op.isProduce, hp, decide_false, Bool.toNat_false]
      exact Nat.le_refl _
  case tryDequeue =>
    rw [step] at h
    split at h
    case isFalse => cases h; exact Nat.le_refl _
    case isTrue =>
      obtain ⟨d, _, h⟩ := Option.bind_eq_some_iff.mp h
      cases h
      exact Nat.le_refl _
  case consume =>
    obtain ⟨x, _, h⟩ := Option.bind_eq_some_iff.mp h
    cases h
    exact Nat.le_refl _

theorem rank_step_dequeue (h : s.step op = some s') (hc : ¬op.isTryDequeue) :
    s'.consumer.rank ≤ s.consumer.rank - op.isConsume.toNat := by
  cases op
  case enqueue p' x =>
    rw [step] at h
    split at h
    case isFalse => cases h; exact Nat.le_refl _
    case isTrue =>
      obtain ⟨e, _, h⟩ := Option.bind_eq_some_iff.mp h
      cases h
      exact Nat.le_refl _
  case produce =>
    obtain ⟨x, _, h⟩ := Option.bind_eq_some_iff.mp h
    cases h
    exact Nat.le_refl _
  case tryDequeue => exact absurd rfl hc
  case consume =>
    obtain ⟨⟨q, d, events⟩, hd, h⟩ := Option.bind_eq_some_iff.mp h
    cases h
    exact rank_consume hd

end WaitFree

theorem atomic_start {size : Nat} (h₁ : 1 ≤ size) (h₂ : size < 2 ^ 63) :
    Atomic { queue := init α size } := by
  obtain ⟨used, free, view, hg⟩ := good_init (α := α) h₁ h₂
  exact ⟨0, {}, used, free, view, fun _ _ => rfl, rfl, hg⟩

theorem Atomic.run {ops : List (Op α)} (h : s.Atomic) (ha : Machine.AllAt Shared.step Alone s ops) :
    ∃ s', Machine.run Shared.step s ops = some s' ∧ s'.Atomic :=
  ha.exists_run Atomic (fun _ _ hs hp => hs.step hp) h

-- As long as no two threads enqueue at once, the queue never reads a cell without an element, and its
-- calls return what those of a queue return whose calls are atomic. They return after a bounded number
-- of their own steps, whatever the other threads do.
theorem calls_are_atomic {size : Nat} {ops : List (Op α)} (h₁ : 1 ≤ size) (h₂ : size < 2 ^ 63)
    (ha : Machine.AllAt step Alone { queue := init α size } ops) :
    ∃ s t, Machine.run step { queue := init α size } ops = some s ∧
      Machine.run Fifo.step {} s.log = some t ∧
      (∀ more s', Machine.run step s more = some s' → (∀ op ∈ more, ¬op.isTryDequeue) →
        8 ≤ more.countP Op.isConsume → s'.consumer = .idle) ∧
      ∀ p more s', Machine.run step s more = some s' → (∀ op ∈ more, ¬op.isEnqueue p) →
        6 ≤ more.countP (Op.isProduce p) → s'.producers p = .idle := by
  obtain ⟨s, hr, p, t, used, free, view, _, ht, _⟩ :=
    Atomic.run (atomic_start h₁ h₂) ha
  refine ⟨s, t, hr, ht, fun more s' hm hc hn => ?_, fun p more s' hm hc hn => ?_⟩
  · exact Dequeue.rank_eq_zero_iff.mp (Machine.rank_eq_zero (fun s : Shared α => s.consumer.rank)
      Op.isConsume Op.isTryDequeue (fun _ _ _ => rank_step_dequeue) hc (Dequeue.rank_le.trans hn) hm)
  · exact Enqueue.rank_eq_zero_iff.mp (Machine.rank_eq_zero
      (fun s : Shared α => (s.producers p).rank) (Op.isProduce p) (Op.isEnqueue p)
      (fun _ _ _ => rank_step_enqueue p) hc (Enqueue.rank_le.trans hn) hm)

-- A single thread never overlaps with itself.
theorem alone_of_single {ops : List (Op α)} (p : Nat) (hs : ∀ p' ≠ p, s.producers p' = .idle)
    (h : ∀ op ∈ ops, ∀ p', op.isEnqueue p' → p' = p) : Machine.AllAt step Alone s ops := by
  induction ops generalizing s
  case nil => trivial
  case cons op ops hi =>
    obtain ⟨ho, hos⟩ := List.forall_mem_cons.mp h
    refine ⟨?_, fun s' hs' => hi (fun p' hp => ?_) hos⟩
    · cases op
      case enqueue p' x =>
        intro hidle c
        obtain rfl : p' = p := ho p' (decide_eq_true rfl)
        by_cases hc : c = p'
        case pos => exact hc ▸ hidle
        case neg => exact hs c hc
      all_goals trivial
    · refine Enqueue.rank_eq_zero_iff.mp (Nat.le_zero.mp ?_)
      refine (rank_step_enqueue p' hs' (mt (ho p') hp)).trans ?_
      rw [hs p' hp]
      exact Nat.sub_le ..

-- Two elements are enqueued and one is dequeued.
def passOne : List (Op Nat) := [
  .enqueue 0 5, .produce 0 true, .tryDequeue, .produce 0 true, .enqueue 0 6, .consume, .consume,
  .produce 0 true, .consume, .produce 0 true
]

theorem one_is_passed :
    ∃ s t, Machine.run step { queue := init Nat 15 } passOne = some s ∧
      s.log = [.asked, .enqueued 5, .dequeued 5, .enqueued 6] ∧
      Machine.run Fifo.step {} s.log = some t ∧ t.content = [6] := by
  have ha : Machine.AllAt step Alone { queue := init Nat 15 } passOne :=
    alone_of_single 0 (fun _ _ => rfl) (by simp [passOne, Op.isEnqueue])
  obtain ⟨s, t, hr, ht, _⟩ := calls_are_atomic (by decide) (by decide) ha
  have he : (Machine.run step { queue := init Nat 15 } passOne).map (·.log) =
      some [.asked, .enqueued 5, .dequeued 5, .enqueued 6] := by decide +kernel
  rw [hr] at he
  replace he : s.log = [.asked, .enqueued 5, .dequeued 5, .enqueued 6] := Option.some.inj he
  refine ⟨s, t, hr, he, ht, ?_⟩
  have hc := Fifo.content_run ht
  rw [he] at hc
  exact (List.cons.inj hc).right.symm

end Shared

end ThinBT.ReaderWriterQueue
