import ThinBT.Util.Machine

-- A queue whose calls take effect at once. Its runs are the sequences of what the calls return.
structure Fifo (α : Type*) where
  content  : List α := []
  -- Whether there was nothing to dequeue when it was last asked for.
  wasEmpty : Bool := true

namespace Fifo

variable {α : Type*}

inductive Event (α : Type*)
  | enqueued (x : α)
  | refused (x : α)
  -- A dequeue is called.
  | asked
  | dequeued (x : α)
  | empty
  deriving DecidableEq, Repr

def Event.pushed : Event α → Option α
  | enqueued x => some x
  | _          => none

def Event.popped : Event α → Option α
  | dequeued x => some x
  | _          => none

variable [DecidableEq α]

-- It may be found empty if it was empty when the dequeue was called.
def step (t : Fifo α) : Event α → Option (Fifo α)
  | .enqueued x => some { t with content := t.content ++ [x] }
  | .refused _  => some t
  | .asked      => some { t with wasEmpty := t.content.isEmpty }
  | .dequeued x => if t.content.head? = some x then some { t with content := t.content.tail } else none
  | .empty      => if t.wasEmpty then some t else none

variable {t t' : Fifo α}

theorem content_step (h : t.step e = some t') :
    t.content ++ e.pushed.toList = e.popped.toList ++ t'.content := by
  cases e
  case enqueued | refused | asked => cases h; simp [Event.pushed, Event.popped]
  case dequeued x =>
    obtain ⟨hx, h⟩ := Option.ite_none_right_eq_some.mp h
    obtain rfl := Option.some.inj h
    obtain ⟨xs, hc⟩ := List.head?_eq_some_iff.mp hx
    simp [Event.pushed, Event.popped, hc]
  case empty =>
    obtain ⟨_, h⟩ := Option.ite_none_right_eq_some.mp h
    obtain rfl := Option.some.inj h
    simp [Event.pushed, Event.popped]

-- What is dequeued is what was enqueued, in the same order.
theorem content_run {log : List (Event α)} (h : Machine.run step t log = some t') :
    t.content ++ log.filterMap Event.pushed = log.filterMap Event.popped ++ t'.content := by
  induction log generalizing t
  case nil => simpa using congrArg content (Option.some.inj h)
  case cons e log hi =>
    obtain ⟨u, hu, h⟩ := Machine.run_cons.mp h
    have hcons (f : Event α → Option α) : (e :: log).filterMap f = (f e).toList ++ log.filterMap f := by
      cases hf : f e <;> simp [hf]
    rw [hcons, hcons, ← List.append_assoc, content_step hu, List.append_assoc, hi h, List.append_assoc]

end Fifo
