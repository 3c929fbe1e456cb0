import ThinBT.Queue.ReaderWriterQueue
import ThinBT.Util.Lists
import Mathlib.Data.List.Chain
import Mathlib.Data.List.Nodup

namespace ThinBT.ReaderWriterQueue

variable {α : Type}

-- What a block stands for. Positions are those of `Ring`.
structure View (α : Type) where
  size    : Nat
  head    : Nat
  items   : List α
  -- The positions that `localFront` and `localTail` stand for.
  seen    : Nat
  known   : Nat
  -- The element that is constructed behind the items.
  pending : Option α := none

namespace View

variable (v : View α)

def stop : Nat :=
  v.head + v.items.length

-- There is a cell besides the one that stays unused.
def HasRoom : Prop :=
  v.stop + 1 < v.seen + v.size

def push (x : α) : View α :=
  { v with items := v.items ++ [x], pending := none }

def pop : View α :=
  { v with head := v.head + 1, items := v.items.tail }

def look : View α :=
  { v with known := v.stop }

variable {v}

theorem head_lt_stop (h : v.items ≠ []) : v.head < v.stop := by
  have := List.length_pos_iff.mpr h
  unfold stop
  omega

theorem stop_push {x : α} : (v.push x).stop = v.stop + 1 := by
  simp only [stop, push, List.length_append, List.length_singleton]
  omega

theorem stop_pop (h : v.items ≠ []) : v.pop.stop = v.stop := by
  have := List.length_pos_iff.mpr h
  simp only [stop, pop, List.length_tail]
  omega

end View

namespace Block

structure Shows (B : Block α) (v : View α) : Prop where
  length     : B.data.length = v.size
  mask       : ∃ k, v.size = 2 ^ (k + 1) ∧ B.sizeMask = 2 ^ (k + 1) - 1
  front      : B.front = v.head % v.size
  tail       : B.tail = v.stop % v.size
  localFront : B.localFront = v.seen % v.size
  localTail  : B.localTail = v.known % v.size
  seen       : v.seen ≤ v.head
  room       : v.stop < v.seen + v.size
  known      : v.head ≤ v.known ∧ v.known ≤ v.stop
  window     : Ring.Window B.data v.head v.items
  pending    : ∀ x, v.pending = some x → B.data[v.stop % v.size]? = some (some x)

namespace Shows

variable {B : Block α} {v : View α} {x : α}

theorem succ (h : B.Shows v) (p : Nat) : (p % v.size + 1) &&& B.sizeMask = (p + 1) % v.size := by
  obtain ⟨k, hs, hm⟩ := h.mask
  rw [hm, hs]
  exact Ring.succ_and_mask (k + 1)

theorem two_le (h : B.Shows v) : 2 ≤ v.size := by
  obtain ⟨k, hs, _⟩ := h.mask
  rw [hs, Nat.pow_succ]
  have := Nat.two_pow_pos k
  omega

section Producer

theorem loadFront (h : B.Shows v) :
    Shows { B with localFront := B.front } { v with seen := v.head } :=
  { h with
    localFront := h.front
    seen       := Nat.le_refl _
    room       := Nat.lt_of_lt_of_le h.room (Nat.add_le_add_right h.seen _) }

theorem construct (h : B.Shows v) (x : α) :
    Shows { B with data := B.data.set (v.stop % v.size) (some x) } { v with pending := some x } :=
  { h with
    length  := (List.length_set ..).trans h.length
    window  := by
      have hr := Nat.lt_of_lt_of_le h.room (Nat.add_le_add_right h.seen _)
      have hw := h.window.set (Nat.le_refl v.stop) (by rwa [h.length]) (some x)
      rwa [h.length] at hw
    pending := by
      intro y hy
      obtain rfl := Option.some.inj hy
      refine List.getElem?_set_self ?_
      rw [h.length]
      exact Nat.mod_lt _ (Nat.lt_of_lt_of_le Nat.two_pos h.two_le) }

theorem storeTail (h : B.Shows v) (hx : v.pending = some x) (hr : v.HasRoom) :
    Shows { B with tail := (v.stop + 1) % v.size } (v.push x) :=
  { h with
    tail    := by rw [View.stop_push]; rfl
    room    := by rw [View.stop_push]; exact hr
    known   := ⟨h.known.left, by rw [View.stop_push]; exact Nat.le_succ_of_le h.known.right⟩
    window  := h.window.append (by rw [h.length]; exact h.pending x hx)
    pending := fun _ hy => nomatch hy }

-- The index of the tail runs into `localFront` only if the block is full.
theorem hasRoom (h : B.Shows v) (hn : (v.stop + 1) % v.size ≠ B.localFront) : v.HasRoom := by
  have hr := h.room
  refine Nat.lt_of_le_of_ne hr fun he => hn ?_
  rw [h.localFront, he, Nat.add_mod_right]

theorem hasRoom_of_empty (h : B.Shows v) (hi : v.items = []) (hs : v.seen = v.head) : v.HasRoom := by
  have := h.two_le
  rw [View.HasRoom, View.stop, hi, hs, List.length_nil]
  omega

end Producer

section Consumer

theorem loadTail (h : B.Shows v) : Shows { B with localTail := B.tail } v.look :=
  { h with
    localTail := h.tail
    known     := ⟨Nat.le_add_right .., Nat.le_refl _⟩ }

theorem head_lt_known (h : B.Shows v) (hf : B.front ≠ B.localTail) : v.head < v.known := by
  refine Nat.lt_of_le_of_ne h.known.left fun he => hf ?_
  rw [h.front, h.localTail, he]

theorem front_eq_tail_iff (h : B.Shows v) : v.head % v.size = B.tail ↔ v.items = [] := by
  rw [h.tail]
  constructor
  · intro he
    by_contra hne
    have hr := h.room
    have hs := h.seen
    exact Ring.mod_ne (View.head_lt_stop hne) (by omega) he
  · intro he
    rw [View.stop, he, List.length_nil, Nat.add_zero]

theorem exists_items (h : B.Shows v) (hk : v.head < v.known) : ∃ x xs, v.items = x :: xs := by
  cases hi : v.items
  case cons x xs => exact ⟨x, xs, rfl⟩
  case nil =>
    have := h.known.right
    rw [View.stop, hi, List.length_nil] at this
    omega

theorem take (h : B.Shows v) (hi : v.items.head? = some x) :
    (B.data[v.head % v.size]?).join = some x := by
  obtain ⟨xs, hi⟩ := List.head?_eq_some_iff.mp hi
  have hw := h.window
  rw [hi] at hw
  rw [← h.length, hw.first]
  rfl

theorem storeFront (h : B.Shows v) (hk : v.head < v.known) :
    Shows { B with data := B.data.set (v.head % v.size) none, front := (v.head + 1) % v.size } v.pop := by
  obtain ⟨x, xs, hi⟩ := h.exists_items hk
  have hstop : v.pop.stop = v.stop := View.stop_pop (by rw [hi]; exact List.cons_ne_nil _ _)
  have hl : v.stop = v.head + (xs.length + 1) := by rw [View.stop, hi, List.length_cons]
  have hr := h.room
  have hs := h.seen
  exact { h with
    length  := (List.length_set ..).trans h.length
    front   := rfl
    tail    := by rw [hstop]; exact h.tail
    seen    := Nat.le_succ_of_le hs
    room    := by rw [hstop]; exact hr
    known   := ⟨hk, by rw [hstop]; exact h.known.right⟩
    window  := by
      have hw := h.window
      rw [hi] at hw
      have hw' := hw.tail.set_before (by rw [h.length]; omega) none
      rw [View.pop, hi]
      rwa [h.length] at hw'
    pending := by
      intro y hy
      rw [hstop]
      refine (List.getElem?_set_ne (Ring.mod_ne ?_ ?_)).trans (h.pending y hy)
      all_goals omega }

end Consumer

theorem link (h : B.Shows v) (next : Nat) : Shows { B with next } v :=
  { h with }

end Shows

theorem shows_empty {k : Nat} (next : Nat) :
    Shows { makeBlock α (2 ^ (k + 1)) with next } ⟨2 ^ (k + 1), 0, [], 0, 0, none⟩ where
  length     := List.length_replicate
  mask       := ⟨k, rfl, rfl⟩
  front      := (Nat.zero_mod _).symm
  tail       := (Nat.zero_mod _).symm
  localFront := (Nat.zero_mod _).symm
  localTail  := (Nat.zero_mod _).symm
  seen       := Nat.le_refl _
  room       := by
    have hp := Nat.two_pow_pos (k + 1)
    show 0 + 0 < 0 + 2 ^ (k + 1)
    omega
  known      := ⟨Nat.le_refl _, Nat.le_refl _⟩
  window     := Ring.window_nil
  pending    := fun _ hy => nomatch hy

-- A block with an element is an empty block to which it was added.
theorem shows_newBlock {k : Nat} (x : α) (next : Nat) :
    (newBlock x (2 ^ (k + 1)) next).Shows ⟨2 ^ (k + 1), 0, [x], 0, 1, none⟩ := by
  have h := shows_empty (α := α) (k := k) next
  have h2 := h.two_le
  have h1 : 1 % 2 ^ (k + 1) = 1 := Nat.mod_eq_of_lt h2
  have hc := h.construct x
  have hs := (hc.storeTail (x := x) rfl (h.hasRoom_of_empty rfl rfl)).loadTail
  simp only [View.stop, List.length_nil, Nat.add_zero, Nat.zero_mod, Nat.zero_add, h1] at hs
  exact hs

end Block

-- The blocks from the front block to the tail block, and the free ones behind it, form a circle.
structure Linked (q : ReaderWriterQueue α) (used free : List Nat) : Prop where
  front : ∃ more, used = q.frontBlock :: more
  tail  : ∃ before, used = before ++ [q.tailBlock]
  nodup : (used ++ free).Nodup
  next  : (used ++ free ++ [q.frontBlock]).IsChain fun a b => ∃ B, q.blocks[a]? = some B ∧ B.next = b

-- Only the first block may be empty.
structure Holds (q : ReaderWriterQueue α) (used free : List Nat) (view : Nat → View α) : Prop where
  linked  : Linked q used free
  shows   : ∀ b ∈ used ++ free, ∃ B, q.blocks[b]? = some B ∧ B.Shows (view b)
  filled  : ∀ b ∈ used.tail, (view b).items ≠ []
  largest : ∃ k, q.largestBlockSize = 2 ^ (k + 1)

variable {q : ReaderWriterQueue α} {used free : List Nat} {view : Nat → View α} {B B' : Block α}
variable {v : View α} {b : Nat}

theorem getElem?_setBlock_self (hB : q.blocks[b]? = some B) :
    (q.setBlock b B').blocks[b]? = some B' :=
  List.getElem?_set_self (List.getElem?_eq_some_iff.mp hB).choose

theorem getElem?_setBlock_ne {c : Nat} (hne : c ≠ b) :
    (q.setBlock b B').blocks[c]? = q.blocks[c]? :=
  List.getElem?_set_ne hne.symm

namespace Linked

theorem frontBlock_mem (h : Linked q used free) : q.frontBlock ∈ used := by
  obtain ⟨more, hu⟩ := h.front
  exact hu ▸ List.mem_cons_self

theorem tailBlock_mem (h : Linked q used free) : q.tailBlock ∈ used := by
  obtain ⟨before, hu⟩ := h.tail
  exact hu ▸ List.mem_append_right _ (List.mem_singleton_self _)

theorem not_mem_used (h : Linked q used free) (hb : b ∈ free) : b ∉ used :=
  fun hu => (List.nodup_append.mp h.nodup).right.right b hu b hb rfl

-- The front block is the tail block exactly if there is no other one.
theorem tailBlock_eq_iff (h : Linked q used free) :
    q.tailBlock = q.frontBlock ↔ used = [q.frontBlock] := by
  obtain ⟨more, hm⟩ := h.front
  obtain ⟨before, hb⟩ := h.tail
  have hn := (List.nodup_append.mp h.nodup).left
  constructor
  · intro he
    cases before
    case nil => rw [hb, he]; rfl
    case cons c before =>
      rw [hb] at hm hn
      obtain ⟨rfl, -⟩ := List.cons.inj hm
      refine absurd ?_ (List.nodup_cons.mp hn).left
      exact he ▸ List.mem_append_right _ (List.mem_singleton_self _)
  · intro he
    have ht := h.tailBlock_mem
    rw [he] at ht
    exact List.mem_singleton.mp ht

theorem exists_second (h : Linked q used free) (hne : q.tailBlock ≠ q.frontBlock) :
    ∃ c rest, used = q.frontBlock :: c :: rest := by
  obtain ⟨more, hu⟩ := h.front
  cases more
  case nil         => exact absurd (h.tailBlock_eq_iff.mpr hu) hne
  case cons c rest => exact ⟨c, rest, hu⟩

theorem set (h : Linked q used free) (hB : q.blocks[b]? = some B) (hn : B'.next = B.next) :
    Linked (q.setBlock b B') used free :=
  { h with
    next := by
      refine h.next.imp fun a c hac => ?_
      obtain ⟨A, hA, hc⟩ := hac
      by_cases hab : a = b
      case pos =>
        subst hab
        obtain rfl := Option.some.inj (hA.symm.trans hB)
        exact ⟨B', getElem?_setBlock_self hB, hn.trans hc⟩
      case neg => exact ⟨A, (getElem?_setBlock_ne hab).trans hA, hc⟩ }

-- The block behind the tail block is the first free one, if there is one, or the front block.
theorem next_tailBlock (h : Linked q used free) (hB : q.blocks[q.tailBlock]? = some B) :
    (free ++ [q.frontBlock]).head? = some B.next := by
  obtain ⟨before, hu⟩ := h.tail
  have hc := h.next
  rw [hu, List.append_assoc, List.append_assoc] at hc
  obtain ⟨c, hf⟩ : ∃ c, (free ++ [q.frontBlock]).head? = some c := by
    cases free <;> exact ⟨_, rfl⟩
  obtain ⟨rest, hr⟩ := List.head?_eq_some_iff.mp hf
  rw [hr, List.singleton_append, List.isChain_append_cons_cons] at hc
  obtain ⟨A, hA, rfl⟩ := hc.right.left
  rw [hf, Option.some.inj (hA.symm.trans hB)]

theorem next_frontBlock {c : Nat} {rest : List Nat} (h : Linked q used free)
    (hu : used = q.frontBlock :: c :: rest) (hB : q.blocks[q.frontBlock]? = some B) : B.next = c := by
  have hc := h.next
  rw [hu] at hc
  obtain ⟨A, hA, rfl⟩ := (List.isChain_cons_cons.mp hc).left
  rw [Option.some.inj (hA.symm.trans hB)]

-- The front block becomes the last of the free ones.
theorem storeFrontBlock {c : Nat} {rest : List Nat} (h : Linked q used free)
    (hu : used = q.frontBlock :: c :: rest) :
    Linked { q with frontBlock := c } (c :: rest) (free ++ [q.frontBlock]) where
  front := ⟨rest, rfl⟩
  tail  := by
    obtain ⟨before, hb⟩ := h.tail
    rw [hu] at hb
    cases before
    case nil           => exact absurd (List.cons.inj hb).right (List.cons_ne_nil _ _)
    case cons _ before => exact ⟨before, (List.cons.inj hb).right⟩
  nodup := by
    have hn := h.nodup
    rw [hu, List.cons_append] at hn
    rw [← List.append_assoc]
    exact List.nodup_append_comm.mp hn
  next  := by
    have hn := h.next
    rw [hu] at hn
    obtain ⟨hc, hn⟩ := List.isChain_cons_cons.mp hn
    have ha : (c :: rest ++ (free ++ [q.frontBlock]) ++ [c]) =
        (c :: (rest ++ free)) ++ q.frontBlock :: c :: [] := by simp
    rw [ha, List.isChain_append_cons_cons]
    exact ⟨hn, hc, .singleton _⟩

theorem storeTailBlock {c : Nat} {rest : List Nat} (h : Linked q used (c :: rest)) :
    Linked { q with tailBlock := c } (used ++ [c]) rest where
  front := by
    obtain ⟨more, hu⟩ := h.front
    exact ⟨more ++ [c], by rw [hu]; rfl⟩
  tail  := ⟨used, rfl⟩
  nodup := by
    rw [List.append_assoc]
    exact h.nodup
  next  := by
    rw [List.append_assoc used]
    exact h.next

-- A new block is linked behind the tail block.
theorem storeNext (h : Linked q used free) (hB : q.blocks[q.tailBlock]? = some B) (x : α)
    (size : Nat) :
    Linked { q with
      blocks           := (q.blocks.set q.tailBlock { B with next := q.blocks.length }) ++
        [newBlock x size B.next]
      largestBlockSize := size } used (q.blocks.length :: free) := by
  obtain ⟨before, hu⟩ := h.tail
  have hlt (a) (ha : a ∈ used ++ free) : a < q.blocks.length := by
    have hc := h.next
    obtain ⟨l₁, l₂, hl⟩ := List.append_of_mem ha
    obtain ⟨c, rest, hr⟩ : ∃ c rest, l₂ ++ [q.frontBlock] = c :: rest := by
      cases l₂ <;> exact ⟨_, _, rfl⟩
    rw [hl, List.append_assoc, List.cons_append, hr, List.isChain_append_cons_cons] at hc
    obtain ⟨A, hA, _⟩ := hc.right.left
    exact (List.getElem?_eq_some_iff.mp hA).choose
  have hnew : q.blocks.length ∉ used ++ free := fun hm => Nat.lt_irrefl _ (hlt _ hm)
  have htail := hlt _ (List.mem_append_left free h.tailBlock_mem)
  -- Blocks other than the tail block keep their links.
  have keep (a c) (ha : a ≠ q.tailBlock) (hac : ∃ A, q.blocks[a]? = some A ∧ A.next = c) :
      ∃ A, ((q.blocks.set q.tailBlock { B with next := q.blocks.length }) ++
        [newBlock x size B.next])[a]? = some A ∧ A.next = c := by
    obtain ⟨A, hA, hc⟩ := hac
    refine ⟨A, ?_, hc⟩
    have ha' := (List.getElem?_eq_some_iff.mp hA).choose
    rw [List.getElem?_append_left (by rwa [List.length_set]), List.getElem?_set_ne ha.symm, hA]
  refine ⟨h.front, ⟨before, hu⟩, ?_, ?_⟩
  · refine (List.perm_middle.nodup_iff).mpr (List.nodup_cons.mpr ⟨hnew, h.nodup⟩)
  · have hn := h.nodup
    have hc := h.next
    obtain ⟨c, rest, hr⟩ : ∃ c rest, free ++ [q.frontBlock] = c :: rest := by
      cases free <;> exact ⟨_, _, rfl⟩
    have hcB : B.next = c := by
      have := h.next_tailBlock hB
      rw [hr] at this
      exact (Option.some.inj this).symm
    rw [hu, List.append_assoc, List.append_assoc, hr, List.singleton_append,
      List.isChain_append_cons_cons] at hc
    have hl : used ++ q.blocks.length :: free ++ [q.frontBlock] =
        before ++ q.tailBlock :: q.blocks.length :: c :: rest := by
      simp only [hu, List.append_assoc, List.cons_append, hr, List.nil_append]
    rw [hl, List.isChain_append_cons_cons, List.isChain_cons_cons]
    refine ⟨?_, ⟨{ B with next := q.blocks.length }, ?_, rfl⟩, ⟨newBlock x size B.next, ?_, hcB⟩, ?_⟩
    · rw [hu, List.append_assoc] at hn
      refine hc.left.imp_concat fun a ha c => keep a c ?_
      rintro rfl
      exact (List.nodup_append.mp hn).right.right _ ha _ List.mem_cons_self rfl
    · rw [List.getElem?_append_left (by rwa [List.length_set]), List.getElem?_set_self htail]
    · rw [List.getElem?_append_right (by rw [List.length_set]), List.length_set, Nat.sub_self]
      rfl
    · rw [← hr] at hc ⊢
      refine hc.right.right.imp_concat fun a ha c => keep a c ?_
      rintro rfl
      exact h.not_mem_used ha h.tailBlock_mem

end Linked

end ThinBT.ReaderWriterQueue
