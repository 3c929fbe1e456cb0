import ThinBT.Util.Simulation
import ThinBT.Queue.Theorems.Ends
import ThinBT.Task.Pool
import ThinBT.Task.Theorems.Layout

namespace ThinBT

open ReaderWriterQueue (Enqueue Dequeue Keeps)

namespace Task

variable {δ : Type} {τ τ' : Task δ} {c : Nat → List PieceTask} {w : Nat}

-- The workers have pieces behind those of their lists.
def withQueued (τ : Task δ) (c : Nat → List PieceTask) : Task δ :=
  { τ with workers := τ.workers.mapIdx fun w k => { k with queue := k.queue ++ c w } }

theorem getElem?_withQueued :
    (τ.withQueued c).workers[w]? = (τ.workers[w]?).map fun k => { k with queue := k.queue ++ c w } :=
  List.getElem?_mapIdx

@[simp]
theorem seed_withQueued : (τ.withQueued c).seed = τ.seed :=
  rfl

@[simp]
theorem assemblers_withQueued : (τ.withQueued c).assemblers = τ.assemblers :=
  rfl

theorem length_withQueued : (τ.withQueued c).workers.length = τ.workers.length :=
  List.length_mapIdx

theorem withQueued_setWorker (k : Worker) :
    (τ.setWorker w k).withQueued c = (τ.withQueued c).setWorker w ⟨k.queue ++ c w, k.stage⟩ :=
  congrArg ({ τ with workers := · }) List.mapIdx_set

theorem eq_of_workers (h : ∀ w : Nat, τ.workers[w]? = τ'.workers[w]?)
    (hτ : τ = { τ' with workers := τ.workers }) : τ = τ' := by
  rw [hτ, List.ext_getElem? h]

theorem withQueued_nil : τ.withQueued (fun _ => []) = τ := by
  refine eq_of_workers (fun w => ?_) rfl
  rw [getElem?_withQueued]
  simp

theorem setWorker_self (hk : τ.workers[w]? = some k) : τ.setWorker w k = τ := by
  obtain ⟨hw, rfl⟩ := List.getElem?_eq_some_iff.mp hk
  exact congrArg ({ τ with workers := · }) (List.set_getElem_self hw)

-- The worker takes its next piece.
theorem withQueued_take (hk : τ.workers[w]? = some {}) (hc : c w = t :: rest) :
    (τ.setWorker w ⟨[t], .idle⟩).withQueued (Function.update c w rest) = τ.withQueued c := by
  refine eq_of_workers (fun v => ?_) rfl
  rw [getElem?_withQueued, getElem?_withQueued]
  by_cases hv : v = w
  case pos =>
    subst hv
    rw [setWorker, List.getElem?_set_self (List.getElem?_eq_some_iff.mp hk).choose, hk,
      Function.update_self, hc]
    rfl
  case neg =>
    rw [Function.update_of_ne hv, setWorker, List.getElem?_set_ne (Ne.symm hv)]

theorem dispatch_withQueued (hw : w = (t.chunkIdx ^^^ t.begin / .ofNat subBlockSize).toNat %
      τ.workers.length) :
    (τ.withQueued c).dispatch t = τ.withQueued (Function.update c w (c w ++ [t])) := by
  refine eq_of_workers (fun v => ?_) rfl
  rw [getElem?_withQueued, dispatch, List.getElem?_modify, length_withQueued, ← hw,
    getElem?_withQueued]
  by_cases hv : w = v
  case pos =>
    subst hv
    simp only [if_true, Function.update_self, Option.map_eq_map, Option.map_map, Function.comp_def,
      List.append_assoc]
  case neg => simp [hv, Function.update_of_ne (Ne.symm hv)]

-- What a worker does with the piece in its hands does not depend on those behind it.
theorem ioStep_withQueued (hk : τ.workers[w]? ≠ some {}) :
    (τ.withQueued c).ioStep w = (τ.ioStep w).map (·.withQueued c) := by
  unfold ioStep
  rw [getElem?_withQueued]
  cases hw : τ.workers[w]?
  case none => rfl
  case some k =>
    obtain ⟨q, stage⟩ := k
    cases stage
    case idle =>
      cases q
      case nil => exact absurd hw hk
      case cons t q =>
        simp only [Option.map_some, Option.bind_eq_bind, List.cons_append]
        cases ha : τ.assemblers[t.chunkIdx.toNat]?
        case none => simp [ha]
        case some a =>
          simp only [assemblers_withQueued, ha, Option.bind_some]
          split
          case isTrue =>
            change (a.write t.begin t.data τ.file).bind _ = _
            cases a.write t.begin t.data τ.file
            case none      => rfl
            case some file => exact congrArg some (withQueued_setWorker (τ := { τ with file }) ⟨q, .written t⟩).symm
          case isFalse => exact congrArg some (withQueued_setWorker ⟨q, .idle⟩).symm
    case written t =>
      simp only [Option.map_some, Option.bind_eq_bind]
      cases ha : τ.assemblers[t.chunkIdx.toNat]?
      case none => simp [ha]
      case some a =>
        simp only [assemblers_withQueued, ha, Option.bind_some]
        cases a.mark t.begin
        case none => rfl
        case some x =>
          exact congrArg some (withQueued_setWorker (τ := τ.setAssembler t.chunkIdx.toNat x.1)
            ⟨q, if x.2 then .marked t else .idle⟩).symm
    case marked t =>
      simp only [Option.map_some, Option.bind_eq_bind]
      cases ha : τ.assemblers[t.chunkIdx.toNat]?
      case none => simp [ha]
      case some a =>
        cases he : τ.seed.chunks[t.chunkIdx.toNat]?
        case none => simp [ha, he]
        case some e =>
          simp only [assemblers_withQueued, seed_withQueued, ha, he, Option.bind_some]
          cases a.countDown.2
          case false =>
            exact congrArg some
              (withQueued_setWorker (τ := τ.setAssembler t.chunkIdx.toNat a.countDown.1) ⟨q, .idle⟩).symm
          case true =>
            exact congrArg (fun υ : Task δ => some (υ.enqueueVerify a e t))
              (withQueued_setWorker (τ := τ.setAssembler t.chunkIdx.toNat a.countDown.1) ⟨q, .idle⟩).symm

theorem verifyStep_withQueued [DecidableEq δ] {sha256 : List UInt8 → δ} :
    (τ.withQueued c).verifyStep sha256 k = (τ.verifyStep sha256 k).map (·.withQueued c) := by
  have hv : (τ.withQueued c).verifyTasks = τ.verifyTasks := rfl
  rw [verifyStep, verifyStep, hv]
  cases τ.verifyTasks[k]?
  case none => rfl
  case some v =>
    simp only [Option.bind_eq_bind]
    cases v.data <;> rfl

end Task

namespace Pooled

variable {δ : Type} {x x' : Pooled δ} {τ : Task δ} {c : Nat → List PieceTask} {w : Nat}

-- What the network thread enqueues for a worker.
def enqueued (x : Pooled δ) (w : Nat) : Option PieceTask :=
  x.dispatching.bind fun d => if x.route d.1 = w then some d.1 else none

-- The queues hold the pieces `c`.
structure Holds (x : Pooled δ) (c : Nat → List PieceTask) : Prop where
  length   : x.queues.length = x.task.workers.length
  nonempty : x.queues ≠ []
  keeps    : ∀ w q, x.queues[w]? = some q → Keeps q.queue q.producer q.consumer (c w)
  producer : ∀ w q, x.queues[w]? = some q → q.producer.element = x.enqueued w

theorem holds_start (hτ : τ.workers ≠ []) : (start τ).Holds fun _ => [] where
  length   := List.length_map _
  nonempty := by simpa [start] using hτ
  keeps    := by
    intro w q hq
    rw [start, List.getElem?_map, Option.map_eq_some_iff] at hq
    obtain ⟨k, _, rfl⟩ := hq
    exact Keeps.init (show 1 ≤ 4096 by decide) (by decide)
  producer := by
    intro w q hq
    rw [start, List.getElem?_map, Option.map_eq_some_iff] at hq
    obtain ⟨k, _, rfl⟩ := hq
    rfl

namespace Holds

theorem exists_queue (h : x.Holds c) (t : PieceTask) : ∃ q, x.queues[x.route t]? = some q :=
  ⟨_, List.getElem?_eq_getElem (Nat.mod_lt _ (List.length_pos_iff.mpr h.nonempty))⟩

-- Only the task changes, with as many workers as before.
theorem setTask (h : x.Holds c) (hl : τ.workers.length = x.task.workers.length) :
    Holds { x with task := τ } c :=
  { h with length := h.length.trans hl.symm }

-- A queue changes, and with it what it holds and what is enqueued in it.
theorem setQueue {y : Pooled δ} (h : x.Holds c) (hw : x.queues[w]? = some q)
    (hk : Keeps p.queue p.producer p.consumer ts) (hq : y.queues = x.queues.set w p)
    (hl : y.task.workers.length = x.task.workers.length) (hp : p.producer.element = y.enqueued w)
    (ho : ∀ v ≠ w, y.enqueued v = x.enqueued v) : y.Holds (Function.update c w ts) := by
  have hget (v r) (hv : y.queues[v]? = some r) : (v = w ∧ r = p) ∨ (v ≠ w ∧ x.queues[v]? = some r) := by
    by_cases he : v = w
    case pos =>
      subst he
      rw [hq, List.getElem?_set_self (List.getElem?_eq_some_iff.mp hw).choose] at hv
      exact .inl ⟨rfl, (Option.some.inj hv).symm⟩
    case neg =>
      rw [hq, List.getElem?_set_ne (Ne.symm he)] at hv
      exact .inr ⟨he, hv⟩
  refine ⟨?_, ?_, fun v r hv => ?_, fun v r hv => ?_⟩
  · rw [hq, List.length_set, hl, h.length]
  · rw [hq, ne_eq, List.set_eq_nil_iff]
    exact h.nonempty
  · obtain ⟨rfl, rfl⟩ | ⟨hne, hv⟩ := hget v r hv
    case inl => rwa [Function.update_self]
    case inr => rw [Function.update_of_ne hne]; exact h.keeps v r hv
  · obtain ⟨rfl, rfl⟩ | ⟨hne, hv⟩ := hget v r hv
    case inl => exact hp
    case inr => rw [ho v hne]; exact h.producer v r hv

theorem route_setQueue : (x.setQueue w q).route t = x.route t := by
  rw [route, route, Pooled.setQueue, List.length_set]

theorem piece (h : x.Holds c) (hd : x.dispatching = none) (t : PieceTask) (now : UInt64) :
    ∃ x', x.piece t now = some x' ∧ x'.task = x.task ∧ x'.Holds c := by
  obtain ⟨q, hq⟩ := h.exists_queue t
  have hidle : q.producer = .idle := by
    rw [← Enqueue.element_eq_none_iff, h.producer _ q hq, enqueued, hd]
    rfl
  have hk := h.keeps _ q hq
  rw [hidle] at hk
  obtain ⟨e, he, hx, hk⟩ := hk.innerEnqueue t
  refine ⟨{ x.setQueue (x.route t) { q with producer := e } with dispatching := some (t, now) },
    by rw [Pooled.piece, hq, Option.bind_eq_bind, Option.bind_some, he]; rfl, rfl, ?_⟩
  have hh := h.setQueue (p := { q with producer := e })
    (y := { x.setQueue (x.route t) { q with producer := e } with dispatching := some (t, now) })
    hq hk rfl rfl ?_ fun v hv => ?_
  · rwa [Function.update_eq_self] at hh
  · rw [hx, enqueued]
    exact (if_pos route_setQueue).symm
  · rw [enqueued, enqueued, hd]
    exact if_neg fun hr => hv (hr.symm.trans route_setQueue)

theorem enqueued_setQueue :
    enqueued { x.setQueue w q with task := τ } v = x.enqueued v := by
  have hr : route { x.setQueue w q with task := τ } = x.route := funext fun _ => route_setQueue
  rw [enqueued, enqueued, hr]
  rfl

-- The worker goes on in its call.
theorem consumer (h : x.Holds c) (hq : x.queues[w]? = some q) (hk : Keeps queue q.producer d ts)
    (hl : τ.workers.length = x.task.workers.length) :
    Holds { x.setQueue w { q with queue := queue, consumer := d } with task := τ }
      (Function.update c w ts) := by
  refine h.setQueue hq hk rfl hl ?_ fun v _ => enqueued_setQueue
  exact (h.producer w q hq).trans enqueued_setQueue.symm

-- The pieces of a worker are those in its queue and the one that it has dequeued.
theorem poll (h : x.Holds c) (hk : x.task.workers[w]? = some {}) :
    ∃ x' c', x.poll w = some x' ∧ x'.task.withQueued c' = x.task.withQueued c ∧ x'.Holds c' := by
  have hlt : w < x.queues.length := h.length ▸ (List.getElem?_eq_some_iff.mp hk).choose
  have hq := List.getElem?_eq_getElem hlt
  generalize x.queues[w] = q at hq
  have hsame : x.task.setWorker w {} = x.task := Task.setWorker_self hk
  have hl (k : Worker) : (x.task.setWorker w k).workers.length = x.task.workers.length :=
    List.length_set
  rw [Pooled.poll, hq, Option.bind_eq_bind, Option.bind_some]
  split
  case isTrue hi =>
    have hK := h.keeps w q hq
    rw [hi] at hK
    obtain ⟨d, hd, _, hK⟩ := hK.tryDequeue
    rw [hd]
    have hH := h.consumer (τ := x.task) hq hK rfl
    rw [Function.update_eq_self] at hH
    exact ⟨_, c, rfl, rfl, hH⟩
  case isFalse hi =>
    obtain ⟨queue, d, events, hc, hg⟩ := (h.keeps w q hq).consume hi
    rw [hc]
    generalize hw : c w = ts at hg
    cases hg
    case goesOn hK =>
      refine ⟨_, c, rfl, congrArg (Task.withQueued · c) hsame, ?_⟩
      have hH := h.consumer hq (hw ▸ hK) (hl {})
      rwa [Function.update_eq_self] at hH
    case empty hK =>
      refine ⟨_, c, rfl, congrArg (Task.withQueued · c) hsame, ?_⟩
      have hH := h.consumer hq (hw ▸ hK) (hl {})
      rwa [Function.update_eq_self] at hH
    case returns ts t hK =>
      exact ⟨_, Function.update c w ts, rfl, Task.withQueued_take hk hw, h.consumer hq hK (hl _)⟩

-- What a step of `dispatch` leads to.
inductive Dispatched (std : StdSort) (x : Pooled δ) (c : Nat → List PieceTask) (allocates : Bool) :
    Pooled δ → Prop
  | idle : x.dispatching = none → Dispatched std x c allocates x
  | goesOn : x.dispatching = some d → y.dispatching = some d → y.task = x.task → y.Holds c →
    Dispatched std x c allocates y
  | returns : x.dispatching = some (t, now) → y.dispatching = none →
    y.task.withQueued f = (x.task.withQueued c).handlePieceMsg std t now → y.Holds f →
    Dispatched std x c allocates y
  | fails : allocates = false → Dispatched std x c allocates y

theorem dispatch (h : x.Holds c) (std : StdSort) (allocates : Bool) :
    ∃ x', x.dispatch std allocates = some x' ∧ Dispatched std x c allocates x' := by
  cases hd : x.dispatching
  case none => exact ⟨x, by rw [Pooled.dispatch, hd]; rfl, .idle hd⟩
  case some d =>
    obtain ⟨t, now⟩ := d
    obtain ⟨q, hq⟩ := h.exists_queue t
    have he : q.producer.element = some t := by
      rw [h.producer _ q hq, enqueued, hd]
      exact if_pos rfl
    obtain ⟨queue, e, events, hp, hput⟩ := (h.keeps _ q hq).produce he allocates
    rw [Pooled.dispatch, hd]
    simp only [hq, Option.bind_eq_bind, Option.bind_some, hp]
    refine ⟨_, rfl, ?_⟩
    cases hput
    case goesOn he' hK =>
      have hH := h.setQueue (y := x.setQueue (x.route t) { q with queue := queue, producer := e })
        hq hK rfl rfl (he'.trans (he.symm.trans ((h.producer _ q hq).trans enqueued_setQueue.symm))) fun v _ => enqueued_setQueue
      rw [Function.update_eq_self] at hH
      exact .goesOn hd hd rfl hH
    case returns hK =>
      refine .returns (f := Function.update c (x.route t) (c (x.route t) ++ [t])) hd rfl ?_ ?_
      · have hr : x.route t = (t.chunkIdx ^^^ t.begin / .ofNat subBlockSize).toNat %
            x.task.workers.length := by rw [← h.length]; rfl
        rw [Task.handlePieceMsg, Task.dispatch_withQueued hr]
        rfl
      · refine h.setQueue hq hK rfl rfl rfl fun v hv => ?_
        rw [enqueued, enqueued, hd]
        exact (if_neg (Ne.symm hv)).symm
    case fails ha hK => exact .fails ha

end Holds

section Refinement

theorem ioStep_eq : x.ioStep w = if x.task.workers[w]? = some {} then x.poll w else
    (x.task.ioStep w).map ({ x with task := · }) := by
  rw [ioStep]
  cases hk : x.task.workers[w]?
  case none =>
    rw [if_neg (fun h => nomatch h), Task.ioStep, hk]
    rfl
  case some k => simp only [Option.some.injEq]

variable [DecidableEq δ] {sha256 : List UInt8 → δ} {std : StdSort}

-- Every step stands for steps of the task whose workers have the pieces of the queues in their lists.
theorem Holds.step (h : x.Holds c) (hl : x.Legal op) (hs : x.step sha256 std op = some x') :
    Machine.AllAt (Task.step sha256 std) Task.Legal (x.task.withQueued c) (x.taskOps std op) ∧
      ∃ c', Machine.run (Task.step sha256 std) (x.task.withQueued c) (x.taskOps std op) =
        some (x'.task.withQueued c') ∧ x'.Holds c' := by
  cases op
  case session op =>
    rw [Pooled.step] at hs
    rw [taskOps]
    split at hs <;> cases hs
    case isTrue hd =>
      rw [if_pos hd]
      exact ⟨⟨hl, fun _ _ => trivial⟩, c, rfl, h.setTask rfl⟩
    case isFalse hd =>
      rw [if_neg hd]
      exact ⟨trivial, c, rfl, h⟩
  case piece t now =>
    rw [Pooled.step] at hs
    split at hs
    case isTrue hd =>
      obtain ⟨y, hy, ht, hH⟩ := h.piece hd t now
      obtain rfl := Option.some.inj (hs.symm.trans hy)
      exact ⟨trivial, c, congrArg (fun τ : Task δ => some (τ.withQueued c)) ht.symm, hH⟩
    case isFalse => cases hs; exact ⟨trivial, c, rfl, h⟩
  case dispatch a =>
    obtain ⟨y, hy, hD⟩ := h.dispatch std a
    obtain rfl := Option.some.inj (hs.symm.trans hy)
    rw [taskOps, hy, Option.map_some]
    cases hD
    case idle hd => rw [hd]; exact ⟨trivial, c, rfl, h⟩
    case goesOn hd hd' ht hH =>
      rw [hd, hd']
      exact ⟨trivial, c, congrArg (fun τ : Task δ => some (τ.withQueued c)) ht.symm, hH⟩
    case returns t now c' hd hd' ht hH =>
      rw [hd, hd']
      exact ⟨⟨trivial, fun _ _ => trivial⟩, c', congrArg some ht.symm, hH⟩
    case fails ha => exact absurd (ha.symm.trans hl) Bool.false_ne_true
  case io w =>
    rw [Pooled.step, ioStep_eq] at hs
    rw [taskOps]
    split at hs
    case isTrue hk =>
      obtain ⟨y, c', hy, ht, hH⟩ := h.poll hk
      obtain rfl := Option.some.inj (hs.symm.trans hy)
      rw [if_pos hk]
      exact ⟨trivial, c', congrArg some ht.symm, hH⟩
    case isFalse hk =>
      obtain ⟨τ, hτ, rfl⟩ := Option.map_eq_some_iff.mp hs
      rw [if_neg hk]
      refine ⟨⟨trivial, fun _ _ => trivial⟩, c, ?_, h.setTask (Task.ioStep_cases hτ).length_workers⟩
      rw [Machine.run, Task.step, Task.ioStep_withQueued hk, hτ]
      rfl
  case verify k =>
    obtain ⟨τ, hτ, rfl⟩ := Option.map_eq_some_iff.mp hs
    have hl : τ.workers.length = x.task.workers.length := by
      obtain rfl | ⟨v, base, _, _, rfl⟩ := Task.verifyStep_cases hτ <;> rfl
    refine ⟨⟨trivial, fun _ _ => trivial⟩, c, ?_, h.setTask hl⟩
    rw [taskOps, Machine.run, Task.step, Task.verifyStep_withQueued, hτ]
    rfl
  case tick now dead =>
    rw [Pooled.step] at hs
    rw [taskOps]
    split at hs <;> cases hs
    case isTrue hd =>
      rw [if_pos hd]
      exact ⟨⟨trivial, fun _ _ => trivial⟩, c, rfl, h.setTask rfl⟩
    case isFalse hd =>
      rw [if_neg hd]
      exact ⟨trivial, c, rfl, h⟩

theorem Holds.undefined (h : x.Holds c) (hs : x.step sha256 std op = none) :
    ∃ op' ∈ x.taskOps std op, (x.task.withQueued c).step sha256 std op' = none := by
  cases op
  case session op =>
    rw [Pooled.step] at hs
    split at hs <;> cases hs
  case piece t now =>
    rw [Pooled.step] at hs
    split at hs
    case isTrue hd =>
      obtain ⟨y, hy, _⟩ := h.piece hd t now
      cases hy.symm.trans hs
    case isFalse => cases hs
  case dispatch a =>
    obtain ⟨y, hy, _⟩ := h.dispatch std a
    cases hy.symm.trans hs
  case io w =>
    rw [Pooled.step, ioStep_eq] at hs
    split at hs
    case isTrue hk =>
      obtain ⟨y, c', hy, _⟩ := h.poll hk
      cases hy.symm.trans hs
    case isFalse hk =>
      refine ⟨.io w, by rw [taskOps, if_neg hk]; exact List.mem_singleton_self _, ?_⟩
      rw [Task.step, Task.ioStep_withQueued hk, Option.map_eq_none_iff.mp hs]
      rfl
  case verify k =>
    refine ⟨.verify k, List.mem_singleton_self _, ?_⟩
    rw [Task.step, Task.verifyStep_withQueued, Option.map_eq_none_iff.mp hs]
    rfl
  case tick now dead =>
    rw [Pooled.step] at hs
    split at hs <;> cases hs

-- A task whose I/O workers get their pieces through lock-free queues does what the task does whose
-- workers have lists of pieces. In particular it only fails where that task fails.
theorem pooled_task_refines_task {ops : List Op} (hτ : τ.workers ≠ [])
    (hl : Machine.AllAt (step sha256 std) Legal (start τ) ops)
    (hr : Machine.run (step sha256 std) (start τ) ops = some x) :
    Machine.AllAt (Task.step sha256 std) Task.Legal τ
        (Machine.trace (step sha256 std) (taskOps std) (start τ) ops) ∧
      ∃ c, Machine.run (Task.step sha256 std) τ
          (Machine.trace (step sha256 std) (taskOps std) (start τ) ops) = some (x.task.withQueued c) ∧
        ∀ op, x.step sha256 std op = none →
          ∃ op' ∈ x.taskOps std op, (x.task.withQueued c).step sha256 std op' = none := by
  have hstep (y : Pooled δ) (op : Op) (y' : Pooled δ) (υ : Task δ)
      (hR : ∃ c, υ = y.task.withQueued c ∧ y.Holds c) (hl : y.Legal op)
      (hs : y.step sha256 std op = some y') :
      Machine.AllAt (Task.step sha256 std) Task.Legal υ (y.taskOps std op) ∧
        ∃ υ', Machine.run (Task.step sha256 std) υ (y.taskOps std op) = some υ' ∧
          ∃ c, υ' = y'.task.withQueued c ∧ y'.Holds c := by
    obtain ⟨c, rfl, hH⟩ := hR
    obtain ⟨ha, c', hr, hH'⟩ := hH.step hl hs
    exact ⟨ha, _, hr, c', rfl, hH'⟩
  obtain ⟨ha, υ, hυ, c, rfl, hH⟩ := Machine.refines_trace hstep hl
    ⟨_, Task.withQueued_nil.symm, holds_start hτ⟩ hr
  exact ⟨ha, c, hυ, fun op => hH.undefined⟩

-- A seed with one chunk of three bytes, and a run in which the piece with these bytes is dequeued while
-- the network thread is still in `dispatch`.
def noteSeed : TSeedFile (List UInt8) where
  fileSize := 3
  config   := {}
  chunks   := [⟨0, 3, [5, 6, 7]⟩]
  countLt  := by decide

def noteStart : Task (List UInt8) :=
  (Task.cmdAdd id .stable noteSeed none 4 1000 [0]).get (by decide +kernel)

def noteOps : List Op := [
  .piece ⟨0, 0, 0, [5, 6, 7], by decide⟩ 11, .io 0, .dispatch true, .dispatch true, .io 0, .io 0,
  .session (.onPeerAdded 0 1000), .io 0, .io 0, .io 0, .io 0, .verify 0, .tick 20 false
]

theorem note_is_stored :
    ∃ x c, Machine.run (step id .stable) (start noteStart) noteOps = some x ∧
      x.task.file = [5, 6, 7] ∧ x.task.state = .complete ∧
      Machine.run (Task.step id .stable) noteStart
        (Machine.trace (step id .stable) (taskOps .stable) (start noteStart) noteOps) =
          some (x.task.withQueued c) := by
  have he : (Machine.run (step id .stable) (start noteStart) noteOps).map
      (fun x => (x.task.file, x.task.state)) = some ([5, 6, 7], .complete) := by decide +kernel
  obtain ⟨x, hx, h⟩ := Option.map_eq_some_iff.mp he
  obtain ⟨hf, hs⟩ := Prod.mk.inj h
  have hl : Machine.AllAt (step id .stable) Legal (start noteStart) noteOps := by decide +kernel
  obtain ⟨_, c, hc, _⟩ := pooled_task_refines_task (by decide +kernel) hl hx
  exact ⟨x, c, hx, hf, hs, hc⟩

end Refinement

end Pooled

end ThinBT
