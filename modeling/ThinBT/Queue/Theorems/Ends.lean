import ThinBT.Queue.Theorems.Calls
import Mathlib.Data.List.ReduceOption

namespace ThinBT.ReaderWriterQueue

variable {α : Type}

open Fifo (Event)

-- What the call enqueues.
def Enqueue.element : Enqueue α → Option α
  | .idle => none
  | .loadFront x .. | .construct x .. | .storeTail x .. | .loadFrontBlock x .. | .loadNextFront x ..
  | .constructNext x .. | .storeNextTail x .. | .storeTailBlock x .. | .storeNext x .. => some x

-- What the call has still to write into a cell.
def Enqueue.unwritten : Enqueue α → Option α
  | .loadFront x .. | .construct x .. | .loadFrontBlock x .. | .loadNextFront x ..
  | .constructNext x .. | .storeNext x .. => some x
  | .idle | .storeTail .. | .storeNextTail .. | .storeTailBlock .. => none

-- What the call has read and is about to return.
def Dequeue.element : Dequeue α → Option α
  | .storeFront _ _ x => some x
  | _                 => none

-- The memory of all blocks.
def cells (q : ReaderWriterQueue α) : List (Option α) :=
  q.blocks.flatMap (·.data)

def values (q : ReaderWriterQueue α) : List α :=
  q.cells.reduceOption

-- The elements of a queue whose producer and consumer are at the given places.
def Keeps (q : ReaderWriterQueue α) (e : Enqueue α) (d : Dequeue α) (xs : List α) : Prop :=
  ∃ t used free view, t.content = xs ∧ Good q e d t used free view

-- What a step of the producer leads to.
inductive Put (allocates : Bool) (x : α) (d : Dequeue α) (xs : List α) :
    ReaderWriterQueue α → Enqueue α → List (Event α) → Prop
  | goesOn  : Enqueue.element e = some x → Keeps q e d xs → Put allocates x d xs q e []
  | returns : Keeps q .idle d (xs ++ [x]) → Put allocates x d xs q .idle [.enqueued x]
  | fails   : allocates = false → Keeps q .idle d xs → Put allocates x d xs q .idle [.refused x]

-- What a step of the consumer leads to.
inductive Got (e : Enqueue α) : List α → ReaderWriterQueue α → Dequeue α → List (Event α) → Prop
  | goesOn  : d ≠ .idle → Keeps q e d xs → Got e xs q d []
  | empty   : Keeps q e .idle xs → Got e xs q .idle [.empty]
  | returns : Keeps q e .idle xs → Got e (x :: xs) q .idle [.dequeued x]

variable {q q' : ReaderWriterQueue α} {e e' : Enqueue α} {d d' : Dequeue α} {x : α}

theorem Enqueue.element_eq_none_iff : e.element = none ↔ e = .idle := by
  cases e <;> simp [element]

theorem element_innerEnqueue (h : q.innerEnqueue x = some e) : e.element = some x := by
  obtain ⟨B, _, h⟩ := Option.bind_eq_some_iff.mp h
  cases h
  split <;> rfl

-- A call goes on with its element, or it returns.
theorem produce_cases (h : q.produce allocates e = some (q', e', events)) (he : e.element = some x) :
    (events = [] ∧ e'.element = some x) ∨ (e' = .idle ∧
      (events = [.enqueued x] ∨ (events = [.refused x] ∧ allocates = false))) := by
  cases e <;> cases he
  case storeTailBlock => cases h; exact .inr ⟨rfl, .inl rfl⟩
  case construct | loadNextFront | constructNext | storeNextTail =>
    obtain ⟨B, _, h⟩ := Option.bind_eq_some_iff.mp h
    cases h
    exact .inl ⟨rfl, rfl⟩
  case storeTail =>
    obtain ⟨B, _, h⟩ := Option.bind_eq_some_iff.mp h
    cases h
    exact .inr ⟨rfl, .inl rfl⟩
  case loadFront | loadFrontBlock =>
    obtain ⟨B, _, h⟩ := Option.bind_eq_some_iff.mp h
    cases h
    split <;> exact .inl ⟨rfl, rfl⟩
  case storeNext =>
    obtain ⟨B, _, h⟩ := Option.bind_eq_some_iff.mp h
    cases allocates <;> cases h
    case false => exact .inr ⟨rfl, .inr ⟨rfl, rfl⟩⟩
    case true  => exact .inl ⟨rfl, rfl⟩

theorem tryDequeue_ne_idle (h : q.tryDequeue = some d) : d ≠ .idle := by
  obtain ⟨B, _, h⟩ := Option.bind_eq_some_iff.mp h
  cases h
  split <;> simp

theorem consume_cases (h : q.consume d = some (q', d', events)) (hd : d ≠ .idle) :
    (events = [] ∧ d' ≠ .idle) ∨ (d' = .idle ∧ (events = [.empty] ∨ ∃ x, events = [.dequeued x])) := by
  cases d
  case idle => exact absurd rfl hd
  case storeFrontBlock => cases h; exact .inl ⟨rfl, by simp⟩
  case loadNext | loadNextTail =>
    obtain ⟨B, _, h⟩ := Option.bind_eq_some_iff.mp h
    cases h
    exact .inl ⟨rfl, by simp⟩
  case storeFront b f x =>
    obtain ⟨B, _, h⟩ := Option.bind_eq_some_iff.mp h
    cases h
    exact .inr ⟨rfl, .inr ⟨x, rfl⟩⟩
  case loadTail | reloadTail =>
    obtain ⟨B, _, h⟩ := Option.bind_eq_some_iff.mp h
    cases h
    split <;> exact .inl ⟨rfl, by simp⟩
  case loadTailBlock =>
    rw [consume] at h
    split at h <;> cases h
    case isTrue  => exact .inl ⟨rfl, by simp⟩
    case isFalse => exact .inr ⟨rfl, .inl rfl⟩
  case take =>
    obtain ⟨B, _, h⟩ := Option.bind_eq_some_iff.mp h
    obtain ⟨x, _, h⟩ := Option.bind_eq_some_iff.mp h
    cases h
    exact .inl ⟨rfl, by simp⟩

section Values

variable {B B' : Block α} {b i : Nat} {y : α}

theorem mem_values : y ∈ q.values ↔ ∃ B ∈ q.blocks, some y ∈ B.data := by
  rw [values, List.reduceOption_mem_iff, cells, List.mem_flatMap]

theorem values_init {size : Nat} : (init α size).values = [] := by
  rw [List.eq_nil_iff_forall_not_mem]
  intro y hy
  obtain ⟨B, hB, hy⟩ := mem_values.mp hy
  have circle {count size} (hB : B ∈ circle α count size) : B.data = .replicate size none := by
    obtain ⟨i, _, rfl⟩ := List.mem_map.mp hB
    rfl
  rw [init] at hB
  dsimp only at hB
  split at hB
  all_goals
    rw [circle hB] at hy
    cases List.eq_of_mem_replicate hy

theorem of_mem_values_setBlock (hy : y ∈ (q.setBlock b B').values) :
    some y ∈ B'.data ∨ y ∈ q.values := by
  obtain ⟨C, hC, hd⟩ := mem_values.mp hy
  obtain hC | rfl := List.mem_or_eq_of_mem_set hC
  case inl => exact .inr (mem_values.mpr ⟨C, hC, hd⟩)
  case inr => exact .inl hd

theorem of_mem_values_set (hB : q.blocks[b]? = some B) (hy : y ∈ (q.setBlock b B').values)
    (hd : B'.data = B.data.set i o) : y ∈ q.values ∨ o = some y := by
  obtain hy | hy := of_mem_values_setBlock hy
  case inr => exact .inl hy
  case inl =>
    rw [hd] at hy
    obtain hy | rfl := List.mem_or_eq_of_mem_set hy
    case inl => exact .inl (mem_values.mpr ⟨B, List.mem_of_getElem? hB, hy⟩)
    case inr => exact .inr rfl

theorem of_mem_values_same (hB : q.blocks[b]? = some B) (hy : y ∈ (q.setBlock b B').values)
    (hd : B'.data = B.data) : y ∈ q.values := by
  obtain hy | hy := of_mem_values_setBlock hy
  case inl => exact mem_values.mpr ⟨B, List.mem_of_getElem? hB, hd ▸ hy⟩
  case inr => exact hy

-- The steps of a producer only move its element, whatever other producers do.
theorem of_mem_values_produce (h : q.produce allocates e = some (q', e', events))
    (hy : y ∈ q'.values) : y ∈ q.values ∨ e.element = some y := by
  cases e
  case idle => cases h; exact .inl hy
  case storeTailBlock => cases h; exact .inl hy
  case loadFrontBlock =>
    obtain ⟨B, _, h⟩ := Option.bind_eq_some_iff.mp h
    cases h
    exact .inl hy
  case loadFront | storeTail | loadNextFront | storeNextTail =>
    obtain ⟨B, hB, h⟩ := Option.bind_eq_some_iff.mp h
    cases h
    exact .inl (of_mem_values_same hB hy rfl)
  case construct | constructNext =>
    obtain ⟨B, hB, h⟩ := Option.bind_eq_some_iff.mp h
    cases h
    exact of_mem_values_set hB hy rfl
  case storeNext x b =>
    obtain ⟨B, hB, h⟩ := Option.bind_eq_some_iff.mp h
    cases allocates <;> cases h
    case false => exact .inl hy
    case true =>
      obtain ⟨C, hC, hy⟩ := mem_values.mp hy
      obtain hC | hC := List.mem_append.mp hC
      case inl =>
        have hy : y ∈ (q.setBlock b { B with next := q.blocks.length }).values :=
          mem_values.mpr ⟨C, hC, hy⟩
        exact .inl (of_mem_values_same hB hy rfl)
      case inr =>
        obtain rfl := List.mem_singleton.mp hC
        obtain hy | hy := List.mem_or_eq_of_mem_set hy
        case inl => cases List.eq_of_mem_replicate hy
        case inr => exact .inr hy.symm

theorem element_produce (h : q.produce allocates e = some (q', e', events))
    (hy : e'.element = some y) : e.element = some y := by
  cases hx : e.element
  case none =>
    obtain rfl := Enqueue.element_eq_none_iff.mp hx
    cases h
    cases hy
  case some x =>
    obtain ⟨_, he⟩ | ⟨rfl, _⟩ := produce_cases h hx
    case inl => rw [← he, hy]
    case inr => cases hy

theorem of_mem_values_consume (h : q.consume d = some (q', d', events)) (hy : y ∈ q'.values) :
    y ∈ q.values := by
  cases d
  case idle | storeFrontBlock => cases h; exact hy
  case loadNext =>
    obtain ⟨B, _, h⟩ := Option.bind_eq_some_iff.mp h
    cases h
    exact hy
  case loadTail | reloadTail | loadNextTail =>
    obtain ⟨B, hB, h⟩ := Option.bind_eq_some_iff.mp h
    cases h
    exact of_mem_values_same hB hy rfl
  case loadTailBlock =>
    rw [consume] at h
    split at h <;> cases h <;> exact hy
  case take =>
    obtain ⟨B, _, h⟩ := Option.bind_eq_some_iff.mp h
    obtain ⟨x, _, h⟩ := Option.bind_eq_some_iff.mp h
    cases h
    exact hy
  case storeFront =>
    obtain ⟨B, hB, h⟩ := Option.bind_eq_some_iff.mp h
    cases h
    obtain hy | hy := of_mem_values_set hB hy rfl
    case inl => exact hy
    case inr => cases hy

-- What the consumer reads was in a cell, and it returns what it has read.
theorem element_consume (h : q.consume d = some (q', d', events)) :
    (∀ y ∈ d'.element, y ∈ q.values) ∧ ∀ y ∈ events.filterMap Event.popped, d.element = some y := by
  cases d
  case idle | storeFrontBlock => cases h; simp [Dequeue.element]
  case loadTailBlock =>
    rw [consume] at h
    split at h <;> cases h <;> simp [Dequeue.element, Event.popped]
  case take =>
    obtain ⟨B, hB, h⟩ := Option.bind_eq_some_iff.mp h
    obtain ⟨x, hx, h⟩ := Option.bind_eq_some_iff.mp h
    cases h
    refine ⟨fun y hy => ?_, by simp⟩
    obtain rfl : x = y := Option.some.inj hy
    have hi := Option.join_eq_some_iff.mp hx
    exact mem_values.mpr ⟨B, List.mem_of_getElem? hB, List.mem_of_getElem? hi⟩
  case storeFront =>
    obtain ⟨B, _, h⟩ := Option.bind_eq_some_iff.mp h
    cases h
    simp [Dequeue.element, Event.popped]
  case loadTail | reloadTail =>
    obtain ⟨B, _, h⟩ := Option.bind_eq_some_iff.mp h
    cases h
    split <;> simp [Dequeue.element]
  case loadNext | loadNextTail =>
    obtain ⟨B, _, h⟩ := Option.bind_eq_some_iff.mp h
    cases h
    simp [Dequeue.element]

theorem element_tryDequeue (h : q.tryDequeue = some d) : d.element = none := by
  obtain ⟨B, _, h⟩ := Option.bind_eq_some_iff.mp h
  cases h
  split <;> rfl

end Values

section Counts

variable {B B' : Block α} {b i : Nat} {p : α → Bool}

-- The number of cells with such an element.
def cellsWith (q : ReaderWriterQueue α) (p : α → Bool) : Nat :=
  q.cells.countP (·.any p)

theorem cellsWith_eq_zero_iff : q.cellsWith p = 0 ↔ ∀ y ∈ q.values, ¬p y := by
  rw [cellsWith, List.countP_eq_zero]
  constructor
  · intro h y hy
    exact h (some y) (List.reduceOption_mem_iff.mp hy)
  · intro h o ho hp
    obtain ⟨y, rfl, hy⟩ := (Option.any_eq_true ..).mp hp
    exact h y (List.reduceOption_mem_iff.mpr ho) hy

theorem cellsWith_setBlock (hB : q.blocks[b]? = some B) :
    (q.setBlock b B').cellsWith p + B.data.countP (·.any p) =
      q.cellsWith p + B'.data.countP (·.any p) := by
  obtain ⟨hb, rfl⟩ := List.getElem?_eq_some_iff.mp hB
  have hq : q.blocks = q.blocks.take b ++ q.blocks[b] :: q.blocks.drop (b + 1) := by
    rw [List.getElem_cons_drop, List.take_append_drop]
  rw [cellsWith, cellsWith, cells, cells, setBlock, List.set_eq_take_append_cons_drop, if_pos hb]
  conv_rhs => rw [hq]
  simp only [List.flatMap_append, List.flatMap_cons, List.countP_append]
  omega

theorem cellsWith_same (hB : q.blocks[b]? = some B) (hd : B'.data = B.data) :
    (q.setBlock b B').cellsWith p = q.cellsWith p := by
  have h : (q.setBlock b B').cellsWith p + _ = _ := cellsWith_setBlock hB
  rw [hd] at h
  omega

theorem cellsWith_set_le (hB : q.blocks[b]? = some B) (hd : B'.data = B.data.set i o) :
    (q.setBlock b B').cellsWith p ≤ q.cellsWith p + if o.any p then 1 else 0 := by
  have h : (q.setBlock b B').cellsWith p + _ = _ := cellsWith_setBlock hB
  rw [hd] at h
  obtain hi | hi := Nat.lt_or_ge i B.data.length
  case inl =>
    have hs := List.countP_set_add (y := o) (p := (·.any p)) (List.getElem?_eq_getElem hi)
    omega
  case inr =>
    rw [List.set_eq_of_length_le hi] at h
    omega

theorem countP_newBlock {size next : Nat} :
    (newBlock x size next).data.countP (·.any p) ≤ if p x then 1 else 0 := by
  cases size
  case zero => exact Nat.zero_le _
  case succ n =>
    have hn : (List.replicate n (none : Option α)).countP (·.any p) = 0 :=
      List.countP_eq_zero.mpr fun o ho => by simp [List.eq_of_mem_replicate ho]
    simp only [newBlock, List.replicate_succ, List.set_cons_zero, List.countP_cons, hn, Option.any_some,
      Nat.zero_add]
    exact Nat.le_refl _

-- An element does not get into two cells.
theorem cellsWith_produce (h : q.produce allocates e = some (q', e', events)) :
    q'.cellsWith p + (if e'.unwritten.any p then 1 else 0) ≤
      q.cellsWith p + if e.unwritten.any p then 1 else 0 := by
  cases e
  case idle | storeTailBlock => cases h; exact Nat.le_refl _
  case loadFrontBlock =>
    obtain ⟨B, _, h⟩ := Option.bind_eq_some_iff.mp h
    cases h
    split <;> exact Nat.le_refl _
  case loadFront =>
    obtain ⟨B, hB, h⟩ := Option.bind_eq_some_iff.mp h
    cases h
    refine Nat.add_le_add (Nat.le_of_eq (cellsWith_same hB rfl)) ?_
    split <;> exact Nat.le_refl _
  case storeTail | loadNextFront | storeNextTail =>
    obtain ⟨B, hB, h⟩ := Option.bind_eq_some_iff.mp h
    cases h
    exact Nat.add_le_add (Nat.le_of_eq (cellsWith_same hB rfl)) (Nat.le_refl _)
  case construct | constructNext =>
    obtain ⟨B, hB, h⟩ := Option.bind_eq_some_iff.mp h
    cases h
    exact cellsWith_set_le hB rfl
  case storeNext x b =>
    obtain ⟨B, hB, h⟩ := Option.bind_eq_some_iff.mp h
    cases allocates <;> cases h
    case false => exact Nat.le_add_right ..
    case true =>
      have hs : (q.setBlock b { B with next := q.blocks.length }).cellsWith p = q.cellsWith p :=
        cellsWith_same hB rfl
      simp only [cellsWith, cells, setBlock] at hs ⊢
      rw [List.flatMap_append, List.countP_append, hs, List.flatMap_singleton]
      exact Nat.add_le_add_left countP_newBlock _

-- The cell that the consumer has read still has the element.
def Dequeue.InCell (q : ReaderWriterQueue α) : Dequeue α → Prop
  | .storeFront b f x => ∃ B, q.blocks[b]? = some B ∧ B.data[f]? = some (some x)
  | _                 => True

theorem Dequeue.InCell.mem_values (h : d.InCell q) (hx : d.element = some x) : x ∈ q.values := by
  cases d <;> cases hx
  obtain ⟨B, hB, hx⟩ := h
  exact ReaderWriterQueue.mem_values.mpr ⟨B, List.mem_of_getElem? hB, List.mem_of_getElem? hx⟩

theorem cellsWith_consume (h : q.consume d = some (q', d', events)) (hc : d.InCell q) :
    q'.cellsWith p + (events.filterMap Event.popped).countP p = q.cellsWith p := by
  cases d
  case idle | storeFrontBlock => cases h; rfl
  case loadNext =>
    obtain ⟨B, _, h⟩ := Option.bind_eq_some_iff.mp h
    cases h
    rfl
  case loadTail | reloadTail | loadNextTail =>
    obtain ⟨B, hB, h⟩ := Option.bind_eq_some_iff.mp h
    cases h
    exact cellsWith_same hB rfl
  case loadTailBlock =>
    rw [consume] at h
    split at h <;> cases h <;> rfl
  case take =>
    obtain ⟨B, _, h⟩ := Option.bind_eq_some_iff.mp h
    obtain ⟨x, _, h⟩ := Option.bind_eq_some_iff.mp h
    cases h
    rfl
  case storeFront b f x =>
    obtain ⟨B, hB, h⟩ := Option.bind_eq_some_iff.mp h
    cases h
    obtain ⟨B', hB', hx⟩ := hc
    obtain rfl := Option.some.inj (hB.symm.trans hB')
    have hs := List.countP_set_add (y := none) (p := (·.any p)) hx
    let B' : Block α := { B with data := B.data.set f none, front := (f + 1) &&& B.sizeMask }
    have h : (q.setBlock b B').cellsWith p + B.data.countP (·.any p) =
        q.cellsWith p + (B.data.set f none).countP (·.any p) := cellsWith_setBlock hB
    simp only [Option.any_some, Option.any_none, Bool.false_eq_true, if_false] at hs
    simp only [List.filterMap_cons, List.filterMap_nil, Event.popped, List.countP_singleton]
    change (q.setBlock b B').cellsWith p + _ = _
    omega

end Counts

namespace Keeps

variable {xs : List α}

theorem init {size : Nat} (h₁ : 1 ≤ size) (h₂ : size < 2 ^ 63) :
    Keeps (init α size) .idle .idle [] := by
  obtain ⟨used, free, view, hg⟩ := good_init (α := α) h₁ h₂
  exact ⟨{}, used, free, view, rfl, hg⟩

theorem innerEnqueue (h : Keeps q .idle d xs) (x : α) :
    ∃ e, q.innerEnqueue x = some e ∧ e.element = some x ∧ Keeps q e d xs := by
  obtain ⟨t, used, free, view, ht, hg⟩ := h
  obtain ⟨e, he, hg⟩ := hg.innerEnqueue x
  exact ⟨e, he, element_innerEnqueue he, t, used, free, view, ht, hg⟩

theorem tryDequeue (h : Keeps q e .idle xs) :
    ∃ d, q.tryDequeue = some d ∧ d ≠ .idle ∧ Keeps q e d xs := by
  obtain ⟨t, used, free, view, ht, hg⟩ := h
  obtain ⟨d, hd, hg⟩ := hg.tryDequeue
  exact ⟨d, hd, tryDequeue_ne_idle hd, { t with wasEmpty := t.content.isEmpty }, used, free, view, ht,
    hg⟩

theorem inCell (h : Keeps q e d xs) : d.InCell q := by
  obtain ⟨t, used, free, view, _, hg⟩ := h
  cases d
  case storeFront b f x =>
    obtain ⟨rfl, rfl, _, hx⟩ := hg.dequeue
    obtain ⟨B, hB, hs⟩ := hg.holds.exists_block hg.holds.linked.frontBlock_mem
    refine ⟨B, hB, ?_⟩
    have hw := hs.window 0 x (by rwa [← List.head?_eq_getElem?])
    rwa [Nat.add_zero, hs.length] at hw
  all_goals trivial

variable [DecidableEq α]

theorem produce (h : Keeps q e d xs) (he : e.element = some x) (allocates : Bool) :
    ∃ q' e' events, q.produce allocates e = some (q', e', events) ∧
      Put allocates x d xs q' e' events := by
  obtain ⟨t, used, free, view, rfl, hg⟩ := h
  obtain ⟨q', e', events, t', used', free', view', hq, ht, hg⟩ := hg.produce allocates
  have hc := (Fifo.content_run ht).symm
  refine ⟨q', e', events, hq, ?_⟩
  obtain ⟨rfl, he'⟩ | ⟨rfl, rfl | ⟨rfl, ha⟩⟩ := produce_cases hq he
  all_goals simp only [List.filterMap_cons, List.filterMap_nil, List.append_nil, List.nil_append,
    Event.pushed, Event.popped] at hc
  case inl     => exact .goesOn he' ⟨t', used', free', view', hc, hg⟩
  case inr.inl => exact .returns ⟨t', used', free', view', hc, hg⟩
  case inr.inr => exact .fails ha ⟨t', used', free', view', hc, hg⟩

theorem consume (h : Keeps q e d xs) (hd : d ≠ .idle) :
    ∃ q' d' events, q.consume d = some (q', d', events) ∧ Got e xs q' d' events := by
  obtain ⟨t, used, free, view, rfl, hg⟩ := h
  obtain ⟨q', d', events, t', used', free', view', hq, ht, hg⟩ := hg.consume
  have hc := Fifo.content_run ht
  refine ⟨q', d', events, hq, ?_⟩
  obtain ⟨rfl, hd'⟩ | ⟨rfl, rfl | ⟨x, rfl⟩⟩ := consume_cases hq hd
  all_goals
    simp only [List.filterMap_cons, List.filterMap_nil, List.append_nil, List.nil_append,
      List.cons_append, Event.pushed, Event.popped] at hc
    rw [hc]
  case inl     => exact .goesOn hd' ⟨t', used', free', view', rfl, hg⟩
  case inr.inl => exact .empty ⟨t', used', free', view', rfl, hg⟩
  case inr.inr => exact .returns ⟨t', used', free', view', rfl, hg⟩

end Keeps

section Overlap

-- The producer knows of a free cell in the last block.
def HasRoom (q : ReaderWriterQueue α) : Prop :=
  ∃ B ∈ q.blocks[q.tailBlock]?, (B.tail + 1) &&& B.sizeMask ≠ B.localFront

theorem innerEnqueue_of_room (hB : q.blocks[q.tailBlock]? = some B)
    (hn : (B.tail + 1) &&& B.sizeMask ≠ B.localFront) (x : α) :
    q.innerEnqueue x = some (.construct x q.tailBlock B.tail ((B.tail + 1) &&& B.sizeMask)) := by
  rw [innerEnqueue, hB]
  exact congrArg some (if_pos hn)

theorem produce_construct {b i n : Nat} (hB : q.blocks[b]? = some B) :
    q.produce a (.construct x b i n) =
      some (q.setBlock b { B with data := B.data.set i (some x) }, .storeTail x b n, []) := by
  rw [produce, hB]
  rfl

theorem produce_storeTail {b n : Nat} (hB : q.blocks[b]? = some B) :
    q.produce a (.storeTail x b n) = some (q.setBlock b { B with tail := n }, .idle, [.enqueued x]) := by
  rw [produce, hB]
  rfl

theorem setBlock_setBlock {b : Nat} {B B' : Block α} :
    (q.setBlock b B).setBlock b B' = q.setBlock b B' :=
  congrArg (fun bs : List (Block α) => { q with blocks := bs }) (List.set_set ..)

variable [DecidableEq α] {xs : List α}

-- Two threads enqueue at once: both calls succeed, and the element of one of them is gone.
theorem Keeps.overlap (h : Keeps q .idle d xs) (hr : q.HasRoom) (x y : α) (a : Bool) :
    ∃ e₀ e₁ e₂ e₃ q₁ q₂ q₃ q₄,
      q.innerEnqueue x = some e₀ ∧ q.innerEnqueue y = some e₁ ∧
      q.produce a e₀ = some (q₁, e₂, []) ∧ q₁.produce a e₁ = some (q₂, e₃, []) ∧
      q₂.produce a e₂ = some (q₃, .idle, [.enqueued x]) ∧
      q₃.produce a e₃ = some (q₄, .idle, [.enqueued y]) ∧ Keeps q₄ .idle d (xs ++ [y]) ∧
      ∀ z ∈ q₄.values, z ∈ q.values ∨ z = y := by
  obtain ⟨B, hB, hn⟩ := hr
  replace hB : q.blocks[q.tailBlock]? = some B := hB
  let n := (B.tail + 1) &&& B.sizeMask
  let Bx : Block α := { B with data := B.data.set B.tail (some x) }
  let By : Block α := { B with data := B.data.set B.tail (some y) }
  have h₁ : (q.setBlock q.tailBlock Bx).blocks[q.tailBlock]? = some Bx := getElem?_setBlock_self hB
  have h₂ : (q.setBlock q.tailBlock By).blocks[q.tailBlock]? = some By := getElem?_setBlock_self hB
  have h₃ : (q.setBlock q.tailBlock { By with tail := n }).blocks[q.tailBlock]? =
      some { By with tail := n } := getElem?_setBlock_self hB
  have hy : { Bx with data := Bx.data.set B.tail (some y) } = By :=
    congrArg (fun l : List (Option α) => { B with data := l }) (List.set_set ..)
  have hx₂ := produce_construct (x := y) (i := B.tail) (n := n) (a := a) h₁
  rw [setBlock_setBlock, hy] at hx₂
  have hx₃ := produce_storeTail (x := x) (n := n) (a := a) h₂
  have hx₄ := produce_storeTail (x := y) (n := n) (a := a) h₃
  rw [setBlock_setBlock] at hx₃ hx₄
  refine ⟨_, _, _, _, _, _, _, _, innerEnqueue_of_room hB hn x, innerEnqueue_of_room hB hn y,
    produce_construct hB, hx₂, hx₃, hx₄, ?_,
    fun z hz => (of_mem_values_set hB hz rfl).imp_right fun h => (Option.some.inj h).symm⟩
  -- The same queue as if only the second thread had been there.
  obtain ⟨e, he, hx, hk⟩ := h.innerEnqueue y
  obtain rfl := Option.some.inj ((innerEnqueue_of_room hB hn y).symm.trans he)
  obtain ⟨q', e', events, hp, hput⟩ := hk.produce hx a
  cases (produce_construct hB).symm.trans hp
  cases hput
  case goesOn hx' hk =>
    obtain ⟨q'', e'', events', hp, hput⟩ := hk.produce hx' a
    cases (produce_storeTail h₂).symm.trans hp
    cases hput
    case returns hk => rwa [setBlock_setBlock] at hk

end Overlap

end ThinBT.ReaderWriterQueue
