import ThinBT.Queue.Theorems.Blocks

namespace ThinBT.ReaderWriterQueue

variable {α : Type} {q q' : ReaderWriterQueue α} {used free used' free' : List Nat}
variable {view view' : Nat → View α} {B B' : Block α} {v : View α} {b : Nat} {x : α}

def contentOf (view : Nat → View α) (used : List Nat) : List α :=
  used.flatMap fun b => (view b).items

theorem contentOf_congr (h : ∀ b ∈ used, (view' b).items = (view b).items) :
    contentOf view' used = contentOf view used :=
  List.flatMap_congr h

namespace Holds

theorem exists_block (h : Holds q used free view) (hb : b ∈ used) :
    ∃ B, q.blocks[b]? = some B ∧ B.Shows (view b) :=
  h.shows b (List.mem_append_left _ hb)

theorem exists_free (h : Holds q used free view) (hb : free.head? = some b) :
    ∃ B, q.blocks[b]? = some B ∧ B.Shows (view b) :=
  h.shows b (List.mem_append_right _ (List.mem_of_head? hb))

-- A block changes, and with it what it stands for.
theorem set (h : Holds q used free view) (hB : q.blocks[b]? = some B) (hv : B'.Shows v)
    (hn : B'.next = B.next) (hf : b ∈ used.tail → v.items ≠ []) :
    Holds (q.setBlock b B') used free (Function.update view b v) where
  linked  := h.linked.set hB hn
  shows   := by
    intro c hc
    by_cases hcb : c = b
    case pos =>
      subst hcb
      exact ⟨B', getElem?_setBlock_self hB, by rwa [Function.update_self]⟩
    case neg =>
      rw [getElem?_setBlock_ne hcb, Function.update_of_ne hcb]
      exact h.shows c hc
  filled  := by
    intro c hc
    by_cases hcb : c = b
    case pos =>
      subst hcb
      rw [Function.update_self]
      exact hf hc
    case neg =>
      rw [Function.update_of_ne hcb]
      exact h.filled c hc
  largest := h.largest

theorem set_of_items (h : Holds q used free view) (hB : q.blocks[b]? = some B) (hv : B'.Shows v)
    (hn : B'.next = B.next) (hi : v.items = (view b).items) :
    Holds (q.setBlock b B') used free (Function.update view b v) :=
  h.set hB hv hn fun hb => hi ▸ h.filled b hb

end Holds

section Places

-- What holds while the producer is at a place.
def Enqueue.Ready (q : ReaderWriterQueue α) (free : List Nat) (view : Nat → View α) : Enqueue α → Prop
  | .idle                             => True
  | .loadFront _ b i n                => b = q.tailBlock ∧ i = (view b).stop % (view b).size ∧
    n = ((view b).stop + 1) % (view b).size
  | .construct _ b i n                => b = q.tailBlock ∧ i = (view b).stop % (view b).size ∧
    n = ((view b).stop + 1) % (view b).size ∧ (view b).HasRoom
  | .storeTail x b n                  => b = q.tailBlock ∧ n = ((view b).stop + 1) % (view b).size ∧
    (view b).HasRoom ∧ (view b).pending = some x
  | .loadFrontBlock _ b | .storeNext _ b => b = q.tailBlock
  | .loadNextFront _ b                => free.head? = some b
  | .constructNext _ b i              => free.head? = some b ∧ i = (view b).stop % (view b).size ∧
    (view b).HasRoom
  | .storeNextTail x b n              => free.head? = some b ∧
    n = ((view b).stop + 1) % (view b).size ∧ (view b).HasRoom ∧ (view b).pending = some x
  | .storeTailBlock x b               => free.head? = some b ∧ (view b).items = [x]

-- What holds while the consumer is at a place.
def Dequeue.Ready (q : ReaderWriterQueue α) (wasEmpty : Bool) (used : List Nat)
    (view : Nat → View α) : Dequeue α → Prop
  | .idle                => True
  | .loadTail b f        => b = q.frontBlock ∧ f = (view b).head % (view b).size
  | .loadTailBlock b     => b = q.frontBlock ∧ (q.tailBlock = q.frontBlock → wasEmpty)
  | .reloadTail          => q.tailBlock ≠ q.frontBlock
  | .loadNext b          => b = q.frontBlock ∧ q.tailBlock ≠ q.frontBlock ∧ (view b).items = []
  | .loadNextTail b      => ∃ rest, used = q.frontBlock :: b :: rest ∧ (view q.frontBlock).items = []
  | .storeFrontBlock b f => ∃ rest, used = q.frontBlock :: b :: rest ∧
    (view q.frontBlock).items = [] ∧ f = (view b).head % (view b).size ∧ (view b).head < (view b).known
  | .take b f            => b = q.frontBlock ∧ f = (view b).head % (view b).size ∧
    (view b).head < (view b).known
  | .storeFront b f x    => b = q.frontBlock ∧ f = (view b).head % (view b).size ∧
    (view b).head < (view b).known ∧ (view b).items.head? = some x

-- What a step of the producer leaves to the consumer.
structure Produced (q q' : ReaderWriterQueue α) (used used' : List Nat) (view view' : Nat → View α) :
    Prop where
  front  : q'.frontBlock = q.frontBlock
  tail   : q'.tailBlock = q.frontBlock → q.tailBlock = q.frontBlock
  grows  : used <+: used'
  same   : ∀ b ∈ used, (view' b).size = (view b).size ∧ (view' b).head = (view b).head ∧
    (view' b).known = (view b).known
  items  : ∀ b ∈ used, (view b).items <+: (view' b).items
  closed : ∀ b ∈ used, b ≠ q.tailBlock → (view' b).items = (view b).items

-- What a step of the consumer leaves to the producer.
structure Consumed (q q' : ReaderWriterQueue α) (free free' : List Nat) (view view' : Nat → View α) :
    Prop where
  tail  : q'.tailBlock = q.tailBlock
  grows : free <+: free'
  same  : ∀ b, (view' b).size = (view b).size ∧ (view' b).stop = (view b).stop ∧
    (view' b).seen = (view b).seen ∧ (view' b).pending = (view b).pending
  kept  : ∀ b ∈ free, (view' b).items = (view b).items

theorem Dequeue.Ready.produced {d : Dequeue α} (h : d.Ready q w used view) (hl : Linked q used free)
    (hp : Produced q q' used used' view view') : d.Ready q' w used' view' := by
  have hf := hl.frontBlock_mem
  obtain ⟨hs, hh, hk⟩ := hp.same _ hf
  -- If the front block is empty and another one follows, the producer has left it.
  have second {c rest} (hu : used = q.frontBlock :: c :: rest) :
      (∃ rest', used' = q'.frontBlock :: c :: rest') ∧ c ∈ used ∧
        ((view q.frontBlock).items = [] → (view' q'.frontBlock).items = []) := by
    obtain ⟨more, hm⟩ := hp.grows
    have hne : q.frontBlock ≠ q.tailBlock := by
      intro he
      have := hl.tailBlock_eq_iff.mp he.symm
      rw [hu] at this
      cases this
    refine ⟨⟨rest ++ more, ?_⟩, ?_, fun hi => ?_⟩
    · rw [← hm, hu, hp.front]
      rfl
    · rw [hu]
      exact List.mem_cons_of_mem _ List.mem_cons_self
    · rw [hp.front, hp.closed _ hf hne, hi]
  cases d
  case idle => trivial
  case loadTail b f =>
    obtain ⟨rfl, rfl⟩ := h
    exact ⟨hp.front.symm, by rw [hs, hh]⟩
  case loadTailBlock b =>
    obtain ⟨rfl, h⟩ := h
    exact ⟨hp.front.symm, fun he => h (hp.tail (he.trans hp.front))⟩
  case reloadTail => exact fun he => h (hp.tail (he.trans hp.front))
  case loadNext b =>
    obtain ⟨rfl, ht, hi⟩ := h
    refine ⟨hp.front.symm, fun he => ht (hp.tail (he.trans hp.front)), ?_⟩
    rw [hp.closed _ hf (Ne.symm ht), hi]
  case loadNextTail b =>
    obtain ⟨rest, hu, hi⟩ := h
    obtain ⟨⟨rest', hu'⟩, _, he⟩ := second hu
    exact ⟨rest', hu', he hi⟩
  case storeFrontBlock b f =>
    obtain ⟨rest, hu, hi, rfl, hlt⟩ := h
    obtain ⟨⟨rest', hu'⟩, hb, he⟩ := second hu
    obtain ⟨hs, hh, hk⟩ := hp.same _ hb
    exact ⟨rest', hu', he hi, by rw [hs, hh], by rwa [hh, hk]⟩
  case take b f =>
    obtain ⟨rfl, rfl, hlt⟩ := h
    exact ⟨hp.front.symm, by rw [hs, hh], by rwa [hh, hk]⟩
  case storeFront b f x =>
    obtain ⟨rfl, rfl, hlt, hx⟩ := h
    refine ⟨hp.front.symm, by rw [hs, hh], by rwa [hh, hk], ?_⟩
    obtain ⟨more, hm⟩ := hp.items _ hf
    rw [← hm, List.head?_append, hx]
    rfl

theorem Enqueue.Ready.consumed {e : Enqueue α} (h : e.Ready q free view)
    (hc : Consumed q q' free free' view view') : e.Ready q' free' view' := by
  have head {b} (hb : free.head? = some b) : free'.head? = some b ∧ b ∈ free := by
    obtain ⟨more, hm⟩ := hc.grows
    exact ⟨by rw [← hm, List.head?_append, hb]; rfl, List.mem_of_head? hb⟩
  cases e
  case idle => trivial
  case loadFront x b i n =>
    obtain ⟨rfl, rfl, rfl⟩ := h
    obtain ⟨hs, ht, _⟩ := hc.same q.tailBlock
    exact ⟨hc.tail.symm, by rw [hs, ht], by rw [hs, ht]⟩
  case construct x b i n =>
    obtain ⟨rfl, rfl, rfl, hr⟩ := h
    obtain ⟨hs, ht, hn, _⟩ := hc.same q.tailBlock
    exact ⟨hc.tail.symm, by rw [hs, ht], by rw [hs, ht], by rwa [View.HasRoom, hs, ht, hn]⟩
  case storeTail x b n =>
    obtain ⟨rfl, rfl, hr, hx⟩ := h
    obtain ⟨hs, ht, hn, hp⟩ := hc.same q.tailBlock
    exact ⟨hc.tail.symm, by rw [hs, ht], by rwa [View.HasRoom, hs, ht, hn], hp.trans hx⟩
  case loadFrontBlock | storeNext => exact Eq.trans h hc.tail.symm
  case loadNextFront => exact (head h).left
  case constructNext x b i =>
    obtain ⟨hb, rfl, hr⟩ := h
    obtain ⟨hs, ht, hn, _⟩ := hc.same b
    exact ⟨(head hb).left, by rw [hs, ht], by rwa [View.HasRoom, hs, ht, hn]⟩
  case storeNextTail x b n =>
    obtain ⟨hb, rfl, hr, hx⟩ := h
    obtain ⟨hs, ht, hn, hp⟩ := hc.same b
    exact ⟨(head hb).left, by rw [hs, ht], by rwa [View.HasRoom, hs, ht, hn], hp.trans hx⟩
  case storeTailBlock x b =>
    obtain ⟨hb, hi⟩ := h
    exact ⟨(head hb).left, (hc.kept b (head hb).right).trans hi⟩

end Places

-- A queue, its producer and its consumer in the middle of what they do, and the atomic queue that they
-- implement.
structure Good (q : ReaderWriterQueue α) (e : Enqueue α) (d : Dequeue α) (t : Fifo α)
    (used free : List Nat) (view : Nat → View α) : Prop where
  holds   : Holds q used free view
  content : t.content = contentOf view used
  -- The block behind the tail block has an element before it becomes the tail block.
  spare   : ∀ b ∈ free, (view b).items = [] ∨ ∃ x, e = .storeTailBlock x b
  enqueue : e.Ready q free view
  dequeue : d.Ready q t.wasEmpty used view
  asked   : d ≠ .idle → t.content = [] → t.wasEmpty

namespace Good

variable {e e' : Enqueue α} {d d' : Dequeue α} {t t' : Fifo α}

theorem items_free (h : Good q e d t used free view) (he : ∀ x b, e ≠ .storeTailBlock x b)
    (hb : b ∈ free) : (view b).items = [] := by
  obtain hi | ⟨x, hx⟩ := h.spare b hb
  · exact hi
  · exact absurd hx (he x b)

section Producer

-- The producer goes on, without a change.
theorem go (h : Good q e d t used free view) (he : ∀ x b, e ≠ .storeTailBlock x b)
    (he' : e'.Ready q free view) : Good q e' d t used free view :=
  { h with
    spare   := fun _ hb => .inl (h.items_free he hb)
    enqueue := he' }

-- It changes a block, but not what is in it.
theorem adjust (h : Good q e d t used free view) (hB : q.blocks[b]? = some B) (hv : B'.Shows v)
    (hn : B'.next = B.next) (hi : v.items = (view b).items)
    (hsame : v.size = (view b).size ∧ v.head = (view b).head ∧ v.known = (view b).known)
    (he : ∀ x b, e ≠ .storeTailBlock x b)
    (he' : e'.Ready (q.setBlock b B') free (Function.update view b v)) :
    Good (q.setBlock b B') e' d t used free (Function.update view b v) := by
  have items (c) : (Function.update view b v c).items = (view c).items := by
    by_cases hcb : c = b
    case pos => rw [hcb, Function.update_self, hi]
    case neg => rw [Function.update_of_ne hcb]
  refine ⟨h.holds.set_of_items hB hv hn hi, ?_, fun c hc => .inl ?_, he', ?_, h.asked⟩
  · rw [h.content, contentOf_congr fun c _ => items c]
  · rw [items c]
    exact h.items_free he hc
  · refine h.dequeue.produced h.holds.linked ⟨rfl, id, List.prefix_rfl, fun c _ => ?_,
      fun c _ => items c ▸ List.prefix_rfl, fun c _ _ => items c⟩
    by_cases hcb : c = b
    case pos => rwa [hcb, Function.update_self]
    case neg => rw [Function.update_of_ne hcb]; exact ⟨rfl, rfl, rfl⟩

-- The element in the tail block becomes visible.
theorem storeTail (h : Good q (.storeTail x b n) d t used free view) (hB : q.blocks[b]? = some B)
    (hs : B.Shows (view b)) :
    Good (q.setBlock b { B with tail := n }) .idle d { t with content := t.content ++ [x] } used free
      (Function.update view b ((view b).push x)) := by
  obtain ⟨rfl, rfl, hr, hx⟩ := h.enqueue
  obtain ⟨before, hu⟩ := h.holds.linked.tail
  have hn := (List.nodup_append.mp h.holds.linked.nodup).left
  have other (c) (hc : c ≠ q.tailBlock) :
      Function.update view q.tailBlock ((view q.tailBlock).push x) c = view c :=
    Function.update_of_ne hc ..
  refine ⟨h.holds.set hB (hs.storeTail hx hr) rfl fun _ => List.append_ne_nil_of_right_ne_nil _ (by simp),
    ?_, fun c hc => .inl ?_, trivial, ?_, fun _ hc => absurd hc (by simp)⟩
  · have split (w : Nat → View α) : contentOf w used = contentOf w before ++ (w q.tailBlock).items := by
      rw [hu, contentOf, List.flatMap_append, List.flatMap_singleton]
      rfl
    have hbefore : contentOf (Function.update view q.tailBlock ((view q.tailBlock).push x)) before =
        contentOf view before := by
      refine contentOf_congr fun c hc => ?_
      rw [hu] at hn
      rw [other c fun he => (List.nodup_append.mp hn).right.right c hc _ (List.mem_singleton_self _) he]
    rw [split, hbefore, Function.update_self, View.push, ← List.append_assoc, ← split, h.content]
  · rw [other c fun he => h.holds.linked.not_mem_used hc (he ▸ h.holds.linked.tailBlock_mem)]
    exact h.items_free (by simp) hc
  · have same (c) : (Function.update view q.tailBlock ((view q.tailBlock).push x) c).size =
        (view c).size ∧ (Function.update view q.tailBlock ((view q.tailBlock).push x) c).head =
        (view c).head ∧ (Function.update view q.tailBlock ((view q.tailBlock).push x) c).known =
        (view c).known ∧ (view c).items <+:
        (Function.update view q.tailBlock ((view q.tailBlock).push x) c).items := by
      by_cases hc : c = q.tailBlock
      case pos => rw [hc, Function.update_self]; exact ⟨rfl, rfl, rfl, List.prefix_append ..⟩
      case neg => rw [other c hc]; exact ⟨rfl, rfl, rfl, List.prefix_rfl⟩
    exact h.dequeue.produced h.holds.linked ⟨rfl, id, List.prefix_rfl,
      fun c _ => ⟨(same c).left, (same c).right.left, (same c).right.right.left⟩,
      fun c _ => (same c).right.right.right, fun c _ hc => by rw [other c hc]⟩

-- The element is in the block behind the tail block, which the consumer does not look at.
theorem storeNextTail (h : Good q (.storeNextTail x b n) d t used free view)
    (hB : q.blocks[b]? = some B) (hs : B.Shows (view b)) :
    Good (q.setBlock b { B with tail := n }) (.storeTailBlock x b) d t used free
      (Function.update view b ((view b).push x)) := by
  obtain ⟨hb, rfl, hr, hx⟩ := h.enqueue
  have hi := h.items_free (by simp) (List.mem_of_head? hb)
  have hnot := h.holds.linked.not_mem_used (List.mem_of_head? hb)
  have other (c) (hc : c ∈ used) : Function.update view b ((view b).push x) c = view c := by
    refine Function.update_of_ne ?_ ..
    rintro rfl
    exact hnot hc
  refine ⟨h.holds.set hB (hs.storeTail hx hr) rfl fun hm => absurd (List.mem_of_mem_tail hm) hnot,
    ?_, fun c hc => ?_, ⟨hb, ?_⟩, ?_, h.asked⟩
  · rw [h.content, contentOf_congr fun c hc => congrArg View.items (other c hc)]
  · by_cases hcb : c = b
    case pos => exact .inr ⟨x, by rw [hcb]⟩
    case neg =>
      rw [Function.update_of_ne hcb]
      exact .inl (h.items_free (by simp) hc)
  · rw [Function.update_self, View.push, hi]
    rfl
  · refine h.dequeue.produced h.holds.linked ⟨rfl, id, List.prefix_rfl, fun c hc => ?_, fun c hc => ?_,
      fun c hc _ => congrArg View.items (other c hc)⟩
    · rw [other c hc]
      exact ⟨rfl, rfl, rfl⟩
    · exact ⟨[], by rw [other c hc, List.append_nil]⟩

-- The block behind the tail block becomes the tail block.
theorem storeTailBlock (h : Good q (.storeTailBlock x b) d t used free view) :
    Good { q with tailBlock := b } .idle d { t with content := t.content ++ [x] } (used ++ [b])
      free.tail view := by
  obtain ⟨hb, hx⟩ := h.enqueue
  obtain ⟨rest, rfl⟩ := List.head?_eq_some_iff.mp hb
  obtain ⟨more, hu⟩ := h.holds.linked.front
  have hn := List.nodup_cons.mp (List.nodup_append.mp h.holds.linked.nodup).right.left
  have hnot := h.holds.linked.not_mem_used List.mem_cons_self
  refine ⟨⟨h.holds.linked.storeTailBlock, ?_, ?_, h.holds.largest⟩, ?_, fun c hc => .inl ?_, trivial, ?_,
    fun _ hc => absurd hc (by simp)⟩
  · rw [List.tail_cons, List.append_assoc]
    exact h.holds.shows
  · intro c hc
    rw [hu, List.cons_append, List.tail_cons] at hc
    cases List.mem_append.mp hc
    case inl hc => exact h.holds.filled c (by rw [hu]; exact hc)
    case inr hc =>
      rw [List.mem_singleton.mp hc, hx]
      exact List.cons_ne_nil _ _
  · rw [h.content, contentOf, contentOf, List.flatMap_append, List.flatMap_singleton, hx]
  · obtain hi | ⟨y, hy⟩ := h.spare c (List.mem_cons_of_mem _ hc)
    · exact hi
    · cases hy
      exact absurd hc hn.left
  · refine h.dequeue.produced h.holds.linked ⟨rfl, fun he => ?_, List.prefix_append .., fun _ _ =>
      ⟨rfl, rfl, rfl⟩, fun _ _ => List.prefix_rfl, fun _ _ _ => rfl⟩
    replace he : b = q.frontBlock := he
    exact absurd (he ▸ h.holds.linked.frontBlock_mem) hnot

-- A block with the element is linked behind the tail block.
theorem storeNext (h : Good q (.storeNext x b) d t used free view) (hB : q.blocks[b]? = some B)
    (k : Nat) :
    Good { q with
        blocks           := (q.blocks.set b { B with next := q.blocks.length }) ++
          [newBlock x (2 ^ (k + 1)) B.next]
        largestBlockSize := 2 ^ (k + 1) }
      (.storeTailBlock x q.blocks.length) d t used (q.blocks.length :: free)
      (Function.update view q.blocks.length ⟨2 ^ (k + 1), 0, [x], 0, 1, none⟩) := by
  obtain rfl : b = q.tailBlock := h.enqueue
  have hlinked := h.holds.linked.storeNext hB x (2 ^ (k + 1))
  have hnew : q.blocks.length ∉ used ++ free :=
    (List.nodup_cons.mp (List.perm_middle.nodup_iff.mp hlinked.nodup)).left
  have other (c) (hc : c ∈ used ++ free) : Function.update view q.blocks.length
      ⟨2 ^ (k + 1), 0, [x], 0, 1, none⟩ c = view c := by
    refine Function.update_of_ne ?_ ..
    rintro rfl
    exact hnew hc
  have items (c) (hc : c ∈ used) := congrArg View.items (other c (List.mem_append_left _ hc))
  refine ⟨⟨hlinked, ?_, ?_, k, rfl⟩, ?_, ?_, ⟨rfl, by rw [Function.update_self]⟩, ?_, h.asked⟩
  · intro c hc
    by_cases hc' : c = q.blocks.length
    case pos =>
      subst hc'
      refine ⟨_, ?_, by rw [Function.update_self]; exact Block.shows_newBlock x B.next⟩
      rw [List.getElem?_append_right (by rw [List.length_set]), List.length_set, Nat.sub_self]
      rfl
    case neg =>
      have hc : c ∈ used ++ free := by
        simpa [hc'] using hc
      obtain ⟨C, hC, hs⟩ := h.holds.shows c hc
      rw [other c hc, List.getElem?_append_left
        (by rw [List.length_set]; exact (List.getElem?_eq_some_iff.mp hC).choose)]
      by_cases hct : c = q.tailBlock
      case pos =>
        subst hct
        obtain rfl := Option.some.inj (hC.symm.trans hB)
        exact ⟨_, List.getElem?_set_self (List.getElem?_eq_some_iff.mp hC).choose, hs.link _⟩
      case neg => exact ⟨C, by rw [List.getElem?_set_ne (Ne.symm hct), hC], hs⟩
  · intro c hc
    rw [items c (List.mem_of_mem_tail hc)]
    exact h.holds.filled c hc
  · rw [h.content, contentOf_congr items]
  · intro c hc
    by_cases hc' : c = q.blocks.length
    case pos => exact .inr ⟨x, by rw [hc']⟩
    case neg =>
      have hc : c ∈ free := (List.mem_cons.mp hc).resolve_left hc'
      rw [other c (List.mem_append_right _ hc)]
      exact .inl (h.items_free (by simp) hc)
  · refine h.dequeue.produced h.holds.linked ⟨rfl, id, List.prefix_rfl, fun c hc => ?_, fun c hc => ?_,
      fun c hc _ => items c hc⟩
    · rw [other c (List.mem_append_left _ hc)]
      exact ⟨rfl, rfl, rfl⟩
    · exact ⟨[], by rw [items c hc, List.append_nil]⟩

theorem produce [DecidableEq α] (h : Good q e d t used free view) (allocates : Bool) :
    ∃ q' e' events t' used' free' view', q.produce allocates e = some (q', e', events) ∧
      Machine.run Fifo.step t events = some t' ∧ Good q' e' d t' used' free' view' := by
  have he := h.enqueue
  cases e
  case idle => exact ⟨_, _, _, _, _, _, _, rfl, rfl, h⟩
  case loadFront x b i n =>
    obtain ⟨rfl, rfl, rfl⟩ := he
    obtain ⟨B, hB, hs⟩ := h.holds.exists_block h.holds.linked.tailBlock_mem
    refine ⟨_, _, _, t, used, free, _, by rw [ReaderWriterQueue.produce, hB]; rfl, rfl,
      h.adjust hB hs.loadFront rfl rfl ⟨rfl, rfl, rfl⟩ (by simp) ?_⟩
    split
    case isTrue hne =>
      rw [Enqueue.Ready, Function.update_self]
      exact ⟨rfl, rfl, rfl, hs.loadFront.hasRoom hne⟩
    case isFalse => rfl
  case construct x b i n =>
    obtain ⟨rfl, rfl, rfl, hr⟩ := he
    obtain ⟨B, hB, hs⟩ := h.holds.exists_block h.holds.linked.tailBlock_mem
    refine ⟨_, _, _, t, used, free, _, by rw [ReaderWriterQueue.produce, hB]; rfl, rfl,
      h.adjust hB (hs.construct x) rfl rfl ⟨rfl, rfl, rfl⟩ (by simp) ?_⟩
    rw [Enqueue.Ready, Function.update_self]
    exact ⟨rfl, rfl, hr, rfl⟩
  case storeTail x b n =>
    obtain ⟨rfl, _⟩ := he
    obtain ⟨B, hB, hs⟩ := h.holds.exists_block h.holds.linked.tailBlock_mem
    exact ⟨_, _, _, _, _, _, _, by rw [ReaderWriterQueue.produce, hB]; rfl, rfl, h.storeTail hB hs⟩
  case loadFrontBlock x b =>
    obtain rfl : b = q.tailBlock := he
    obtain ⟨B, hB, hs⟩ := h.holds.exists_block h.holds.linked.tailBlock_mem
    refine ⟨_, _, _, t, used, free, view, by rw [ReaderWriterQueue.produce, hB]; rfl, rfl,
      h.go (by simp) ?_⟩
    split
    case isFalse => rfl
    case isTrue hne =>
      have hn := h.holds.linked.next_tailBlock hB
      cases free
      case nil       => exact absurd (Option.some.inj hn).symm hne
      case cons c cs => exact hn
  case loadNextFront x b =>
    obtain ⟨B, hB, hs⟩ := h.holds.exists_free he
    have hi := h.items_free (by simp) (List.mem_of_head? he)
    refine ⟨_, _, _, t, used, free, _, by rw [ReaderWriterQueue.produce, hB]; rfl, rfl,
      h.adjust hB hs.loadFront rfl rfl ⟨rfl, rfl, rfl⟩ (by simp) ?_⟩
    rw [Enqueue.Ready, Function.update_self]
    exact ⟨he, hs.tail, hs.loadFront.hasRoom_of_empty hi rfl⟩
  case constructNext x b i =>
    obtain ⟨hb, rfl, hr⟩ := he
    obtain ⟨B, hB, hs⟩ := h.holds.exists_free hb
    refine ⟨_, _, _, t, used, free, _, by rw [ReaderWriterQueue.produce, hB]; rfl, rfl,
      h.adjust hB (hs.construct x) rfl rfl ⟨rfl, rfl, rfl⟩ (by simp) ?_⟩
    rw [Enqueue.Ready, Function.update_self]
    exact ⟨hb, hs.succ _, hr, rfl⟩
  case storeNextTail x b n =>
    obtain ⟨hb, _⟩ := he
    obtain ⟨B, hB, hs⟩ := h.holds.exists_free hb
    exact ⟨_, _, _, _, _, _, _, by rw [ReaderWriterQueue.produce, hB]; rfl, rfl, h.storeNextTail hB hs⟩
  case storeTailBlock x b => exact ⟨_, _, _, _, _, _, _, rfl, rfl, h.storeTailBlock⟩
  case storeNext x b =>
    obtain rfl : b = q.tailBlock := he
    obtain ⟨B, hB, hs⟩ := h.holds.exists_block h.holds.linked.tailBlock_mem
    cases allocates
    case false =>
      exact ⟨q, .idle, [.refused x], t, used, free, view,
        by rw [ReaderWriterQueue.produce, hB]; rfl, rfl, h.go (by simp) trivial⟩
    case true =>
      obtain ⟨k, hk⟩ : ∃ k, (if maxBlockSize ≤ q.largestBlockSize then q.largestBlockSize
          else q.largestBlockSize * 2) = 2 ^ (k + 1) := by
        obtain ⟨k, hk⟩ := h.holds.largest
        rw [hk]
        split
        case isTrue  => exact ⟨k, rfl⟩
        case isFalse => exact ⟨k + 1, (Nat.pow_succ ..).symm⟩
      refine ⟨_, _, [], t, _, _, _, ?_, rfl, h.storeNext hB k⟩
      rw [ReaderWriterQueue.produce, hB, hk]
      rfl

theorem innerEnqueue (h : Good q .idle d t used free view) (x : α) :
    ∃ e, q.innerEnqueue x = some e ∧ Good q e d t used free view := by
  obtain ⟨B, hB, hs⟩ := h.holds.exists_block h.holds.linked.tailBlock_mem
  have hn : (B.tail + 1) &&& B.sizeMask =
      ((view q.tailBlock).stop + 1) % (view q.tailBlock).size := by rw [hs.tail, hs.succ]
  refine ⟨_, by rw [ReaderWriterQueue.innerEnqueue, hB]; rfl, h.go (by simp) ?_⟩
  split
  case isTrue hne => exact ⟨rfl, hs.tail, hn, hs.hasRoom (hn ▸ hne)⟩
  case isFalse    => exact ⟨rfl, hs.tail, hn⟩

end Producer

section Consumer

-- The consumer goes on, without a change.
theorem goOn (h : Good q e d t used free view) (hd : d ≠ .idle)
    (hd' : d'.Ready q t.wasEmpty used view) : Good q e d' t used free view :=
  { h with
    dequeue := hd'
    asked   := fun _ => h.asked hd }

-- It looks how far the producer is in a block.
theorem loadTail (h : Good q e d t used free view) (hd : d ≠ .idle) (hB : q.blocks[b]? = some B)
    (hs : B.Shows (view b))
    (hd' : d'.Ready q t.wasEmpty used (Function.update view b (view b).look)) :
    Good (q.setBlock b { B with localTail := B.tail }) e d' t used free
      (Function.update view b (view b).look) := by
  have same (c) : (Function.update view b (view b).look c).items = (view c).items ∧
      (Function.update view b (view b).look c).size = (view c).size ∧
      (Function.update view b (view b).look c).stop = (view c).stop ∧
      (Function.update view b (view b).look c).seen = (view c).seen ∧
      (Function.update view b (view b).look c).pending = (view c).pending := by
    by_cases hcb : c = b
    case pos => rw [hcb, Function.update_self]; exact ⟨rfl, rfl, rfl, rfl, rfl⟩
    case neg => rw [Function.update_of_ne hcb]; exact ⟨rfl, rfl, rfl, rfl, rfl⟩
  refine ⟨h.holds.set_of_items hB hs.loadTail rfl rfl, ?_, fun c hc => ?_, ?_, ?_,
    fun _ => h.asked hd⟩
  · rw [h.content, contentOf_congr fun c _ => (same c).left]
  · rw [(same c).left]
    exact h.spare c hc
  · exact h.enqueue.consumed ⟨rfl, List.prefix_rfl, fun c => (same c).right, fun c _ => (same c).left⟩
  · cases d' <;> exact hd'

-- The consumer leaves a block that is empty.
theorem storeFrontBlock (h : Good q e (.storeFrontBlock b f) t used free view) :
    Good { q with frontBlock := b } e (.take b f) t used.tail (free ++ [q.frontBlock]) view := by
  obtain ⟨rest, hu, hi, hf, hk⟩ := h.dequeue
  subst hu
  refine ⟨⟨h.holds.linked.storeFrontBlock rfl, fun c hc => h.holds.shows c ?_, fun c hc =>
    h.holds.filled c (List.mem_cons_of_mem _ hc), h.holds.largest⟩, ?_, fun c hc => ?_, ?_, ⟨rfl, hf, hk⟩,
    fun _ => h.asked (by simp)⟩
  · simp only [List.tail_cons, List.mem_append, List.mem_cons, List.not_mem_nil, or_false] at hc ⊢
    tauto
  · rw [h.content, contentOf, List.flatMap_cons, hi]
    rfl
  · cases List.mem_append.mp hc
    case inl hc => exact h.spare c hc
    case inr hc => exact .inl (by rw [List.mem_singleton.mp hc, hi])
  · exact h.enqueue.consumed ⟨rfl, List.prefix_append .., fun _ => ⟨rfl, rfl, rfl, rfl⟩, fun _ _ => rfl⟩

-- The element is gone.
theorem storeFront (h : Good q e (.storeFront b f x) t used free view) (hB : q.blocks[b]? = some B)
    (hs : B.Shows (view b)) :
    t.content.head? = some x ∧
      Good (q.setBlock b { B with data := B.data.set f none, front := (f + 1) &&& B.sizeMask }) e .idle
        { t with content := t.content.tail } used free (Function.update view b (view b).pop) := by
  obtain ⟨rfl, rfl, hk, hx⟩ := h.dequeue
  obtain ⟨more, rfl⟩ := h.holds.linked.front
  obtain ⟨xs, hi⟩ := List.head?_eq_some_iff.mp hx
  have hn := (List.nodup_cons.mp (List.nodup_append.mp h.holds.linked.nodup).left).left
  have hc := h.content
  rw [contentOf, List.flatMap_cons, hi, List.cons_append] at hc
  have hstop : (view q.frontBlock).pop.stop = (view q.frontBlock).stop :=
    View.stop_pop (by rw [hi]; exact List.cons_ne_nil _ _)
  have other (c) (hcb : c ≠ q.frontBlock) :
      Function.update view q.frontBlock (view q.frontBlock).pop c = view c :=
    Function.update_of_ne hcb ..
  have hfree (c) (hc : c ∈ free) : c ≠ q.frontBlock :=
    fun he => h.holds.linked.not_mem_used hc (he ▸ List.mem_cons_self)
  refine ⟨by rw [hc]; rfl, h.holds.set hB (by rw [hs.succ]; exact hs.storeFront hk) rfl fun hm =>
    absurd hm hn, ?_, fun c hc => ?_, ?_, trivial, fun hd => absurd rfl hd⟩
  · have hp : (view q.frontBlock).pop.items = xs := by rw [View.pop, hi]; rfl
    rw [hc, contentOf, List.flatMap_cons, Function.update_self, hp]
    refine congrArg (xs ++ ·) (contentOf_congr fun c hc => ?_).symm
    rw [other c fun he => hn (he ▸ hc)]
  · rw [other c (hfree c hc)]
    exact h.spare c hc
  · refine h.enqueue.consumed ⟨rfl, List.prefix_rfl, fun c => ?_, fun c hc => ?_⟩
    · by_cases hcb : c = q.frontBlock
      case pos => rw [hcb, Function.update_self]; exact ⟨rfl, hstop, rfl, rfl⟩
      case neg => rw [other c hcb]; exact ⟨rfl, rfl, rfl, rfl⟩
    · rw [other c (hfree c hc)]

theorem consume [DecidableEq α] (h : Good q e d t used free view) :
    ∃ q' d' events t' used' free' view', q.consume d = some (q', d', events) ∧
      Machine.run Fifo.step t events = some t' ∧ Good q' e d' t' used' free' view' := by
  have hd := h.dequeue
  have hfront := h.holds.linked.frontBlock_mem
  obtain ⟨B, hB, hs⟩ := h.holds.exists_block hfront
  cases d
  case idle => exact ⟨_, _, _, _, _, _, _, rfl, rfl, h⟩
  case loadTail b f =>
    obtain ⟨rfl, rfl⟩ := hd
    refine ⟨_, _, _, t, used, free, _, by rw [ReaderWriterQueue.consume, hB]; rfl, rfl,
      h.loadTail (by simp) hB hs ?_⟩
    split
    case isTrue hne =>
      rw [Dequeue.Ready, Function.update_self]
      exact ⟨rfl, rfl, View.head_lt_stop (mt hs.front_eq_tail_iff.mpr hne)⟩
    case isFalse he =>
      refine ⟨rfl, fun ht => h.asked (by simp) ?_⟩
      rw [h.content, h.holds.linked.tailBlock_eq_iff.mp ht, contentOf, List.flatMap_singleton]
      exact hs.front_eq_tail_iff.mp (not_not.mp he)
  case loadTailBlock b =>
    obtain ⟨rfl, hw⟩ := hd
    by_cases hne : q.frontBlock ≠ q.tailBlock
    case pos =>
      exact ⟨q, .reloadTail, [], t, used, free, view, if_pos hne, rfl,
        h.goOn (by simp) hne.symm⟩
    case neg =>
      refine ⟨q, .idle, [.empty], t, used, free, view, if_neg hne, ?_,
        { h with dequeue := trivial, asked := fun hd => absurd rfl hd }⟩
      rw [Machine.run, Fifo.step, if_pos (hw (not_not.mp hne).symm)]
      rfl
  case reloadTail =>
    refine ⟨_, _, _, t, used, free, _, by rw [ReaderWriterQueue.consume, hB]; rfl, rfl,
      h.loadTail (by simp) hB hs ?_⟩
    rw [hs.front]
    split
    case isTrue hne =>
      rw [Dequeue.Ready, Function.update_self]
      exact ⟨rfl, rfl, View.head_lt_stop (mt hs.front_eq_tail_iff.mpr hne)⟩
    case isFalse he =>
      rw [Dequeue.Ready, Function.update_self]
      exact ⟨rfl, hd, hs.front_eq_tail_iff.mp (not_not.mp he)⟩
  case loadNext b =>
    obtain ⟨rfl, hne, hi⟩ := hd
    obtain ⟨c, rest, hu⟩ := h.holds.linked.exists_second hne
    refine ⟨q, .loadNextTail c, [], t, used, free, view, ?_, rfl,
      h.goOn (by simp) ⟨rest, hu, hi⟩⟩
    rw [ReaderWriterQueue.consume, hB, ← h.holds.linked.next_frontBlock hu hB]
    rfl
  case loadNextTail b =>
    obtain ⟨rest, hu, hi⟩ := hd
    have hb : b ∈ used.tail := by rw [hu]; exact List.mem_cons_self
    have hne : q.frontBlock ≠ b := by
      have hn := (List.nodup_append.mp h.holds.linked.nodup).left
      rw [hu] at hn
      exact fun he => (List.nodup_cons.mp hn).left (he ▸ List.mem_cons_self)
    obtain ⟨C, hC, hsC⟩ := h.holds.exists_block (List.mem_of_mem_tail hb)
    refine ⟨_, .storeFrontBlock b C.front, _, t, used, free, _,
      by rw [ReaderWriterQueue.consume, hC]; rfl, rfl,
      h.loadTail (by simp) hC hsC ⟨rest, hu, ?_, ?_⟩⟩
    · rw [Function.update_of_ne hne, hi]
    · rw [Function.update_self]
      exact ⟨hsC.front, View.head_lt_stop (h.holds.filled b hb)⟩
  case storeFrontBlock b f => exact ⟨_, _, _, _, _, _, _, rfl, rfl, h.storeFrontBlock⟩
  case take b f =>
    obtain ⟨rfl, rfl, hk⟩ := hd
    obtain ⟨x, xs, hi⟩ := hs.exists_items hk
    have hx : (view q.frontBlock).items.head? = some x := by rw [hi]; rfl
    refine ⟨q, .storeFront q.frontBlock _ x, [], t, used, free, view, ?_, rfl,
      h.goOn (by simp) ⟨rfl, rfl, hk, hx⟩⟩
    rw [ReaderWriterQueue.consume, hB, Option.bind_eq_bind, Option.bind_some, hs.take hx]
    rfl
  case storeFront b f x =>
    obtain ⟨rfl, _⟩ := hd
    obtain ⟨hx, hg⟩ := h.storeFront hB hs
    refine ⟨_, _, _, _, _, _, _, by rw [ReaderWriterQueue.consume, hB]; rfl, ?_, hg⟩
    rw [Machine.run, Fifo.step, if_pos hx]
    rfl

theorem tryDequeue (h : Good q e .idle t used free view) :
    ∃ d, q.tryDequeue = some d ∧
      Good q e d { t with wasEmpty := t.content.isEmpty } used free view := by
  obtain ⟨B, hB, hs⟩ := h.holds.exists_block h.holds.linked.frontBlock_mem
  refine ⟨_, by rw [ReaderWriterQueue.tryDequeue, hB]; rfl,
    { h with dequeue := ?_, asked := fun _ he => List.isEmpty_iff.mpr he }⟩
  split
  case isTrue hne => exact ⟨rfl, hs.front, hs.head_lt_known hne⟩
  case isFalse    => exact ⟨rfl, hs.front⟩

end Consumer

end Good

end ThinBT.ReaderWriterQueue
