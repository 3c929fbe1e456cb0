import ThinBT.Swarm.Theorems.Fifo
import ThinBT.Node.Theorems.Trusted

namespace ThinBT

-- A node opens a session with a slot that no other session uses.
def Node.OpensFresh {δ : Type} (n : Node δ) (x : UInt64 × Op) : Prop :=
  x.2.opens → n.FreshSlot

instance {δ : Type} {n : Node δ} {x : UInt64 × Node.Op} : Decidable (n.OpensFresh x) :=
  inferInstanceAs (Decidable (_ → _))

-- The tasks of the nodes that share the source.
inductive Task.Shares {δ : Type} [DecidableEq δ] (sha256 : List UInt8 → δ) (std : StdSort)
    (source : List UInt8) (seed : TSeedFile δ) : Task δ → Prop
  | cmdSeed : Shares sha256 std source seed (Task.cmdSeed std seed source hw speed)
  | cmdAdd {τ : Task δ} : order.Perm (.range seed.chunks.length) →
    Task.cmdAdd sha256 std seed existing hw speed order = some τ → Shares sha256 std source seed τ

namespace Task.Shares

variable {δ : Type} [DecidableEq δ] {sha256 : List UInt8 → δ} {std : StdSort} {source : List UInt8}
variable {seed : TSeedFile δ} {τ : Task δ}

theorem started (h : τ.Shares sha256 std source seed) : τ.Started sha256 std ∧ τ.seed = seed := by
  cases h
  case cmdSeed      => exact ⟨.cmdSeed, rfl⟩
  case cmdAdd ho ha => exact ⟨.cmdAdd ho ha, (cmdAdd_spec ha).left⟩

theorem sound (h : τ.Shares sha256 std source seed) (hs : seed.SeedOf sha256 source)
    (hc : seed.CollisionFree sha256 source) : τ.Sound source := by
  cases h
  case cmdSeed      => exact sound_cmdSeed hs
  case cmdAdd ho ha =>
    obtain ⟨rfl, hA⟩ := cmdAdd_spec ha
    exact hA.sound ho hs hc

theorem wellMeasured (h : τ.Shares sha256 std source seed) (hs : seed.SeedOf sha256 source) :
    τ.WellMeasured source := by
  cases h
  case cmdSeed      => exact (sound_cmdSeed hs).toWellMeasured
  case cmdAdd ho ha =>
    obtain ⟨rfl, hA⟩ := cmdAdd_spec ha
    exact hA.fresh.wellMeasured hA.layout (hA.layout.fileLength.trans hs.fileSize)

end Task.Shares

namespace Swarm

variable {δ : Type} {w w' : Swarm δ} {e d : End} {source : List UInt8} {seed : TSeedFile δ}
variable {n : Node δ}

-- The node at the other end of the session has the chunk.
def Gives (has : Task δ → Nat → Prop) (w : Swarm δ) (e : End) (c : Nat) : Prop :=
  ∃ d n, w.mate e = some d ∧ w.nodes[d.node]? = some n ∧ has n.task c

-- The nodes only know and only store what is true.
structure Safe (source : List UInt8) (seed : TSeedFile δ) (w : Swarm δ) : Prop where
  -- Every slot of a scheduler is the one of an open session.
  owned    : ∀ n ∈ w.nodes, ∀ p ∈ n.task.scheduler.peerSlots,
    ∃ s ∈ n.sessions, s.closed = false ∧ s.slotId.toNat = p.slotId
  slots    : ∀ e n s, w.nodes[e.node]? = some n → n.sessions[e.session]? = some s → s.closed = false →
    ∀ p ∈ n.task.scheduler.peerSlots, p.slotId = s.slotId.toNat →
      ∀ c < seed.chunks.length, p.remoteBitfield[c]? = some true → w.Gives (Task.Holds source) e c
  complete : ∀ n ∈ w.nodes, ∀ c : Nat, n.task.scheduler.chunkStates[c]? = some .complete →
    n.task.Holds source c
  verified : ∀ n ∈ w.nodes, ∀ r ∈ n.task.results, r.passed = true

section Step

variable [DecidableEq δ] {K : Contract source seed}

def Trusted (K : Contract source seed) (w : Swarm δ) : Prop :=
  ∀ (i : Nat) (n : Node δ), w.nodes[i]? = some n → n.Trusted K fun k => w.Gives K.has ⟨i, k⟩

-- What is sent at one end of a connection is welcome at the other one.
theorem Trusted.welcome (h : w.Trusted K) (hp : w.Paired) (he : w.event op = some (i, nop))
    (hn : w.nodes[i]? = some n) : n.Welcome K (fun k => w.Gives K.has ⟨i, k⟩) nop := by
  intro k m peers ho
  subst ho
  obtain ⟨d, s, t, hm, _, ht, hmsg⟩ := nextMessage_eq_some.mp (event_receive he)
  obtain ⟨n', hn', hk⟩ := session_eq_some.mp ht
  have hf := ((h d.node n' hn').fair d.session t hk).stream m (List.mem_of_getElem? hmsg)
  refine hf.mono (fun c hc => ⟨d, n', hm, hn', hc⟩) ?_
  rintro c ⟨e, n'', he, hn'', hc⟩
  obtain rfl := Option.some.inj ((hp.symm hm).symm.trans he)
  obtain rfl := Option.some.inj (hn.symm.trans hn'')
  exact hc

theorem Trusted.safe (h : w.Trusted (.bytes source seed)) : w.Safe source seed where
  owned n hn p hp := by
    obtain ⟨i, hi⟩ := List.getElem?_of_mem hn
    obtain ⟨x, hx, hc, hs⟩ := (h i n hi).wired.listed.slots p hp
    obtain ⟨s, hm, rfl⟩ := List.mem_map.mp hx
    exact ⟨s, hm, hc, hs⟩
  slots e n s hn hk hs p hp he c hc hb := by
    have hw := (h e.node n hn).wired
    rw [← (h e.node n hn).sameSeed, ← hw.indexed.totalChunks] at hc
    have hh : p.has c = true := by rw [PeerSlot.has, List.getD_eq_getElem?_getD, hb, Option.getD_some]
    exact hw.listed.chunks p hp c hc hh e.session s.wire (Node.wire_of_session hk)
      ((hw.basic s (List.mem_of_getElem? hk)).live hs) he.symm
  complete n hn c hc := by
    obtain ⟨i, hi⟩ := List.getElem?_of_mem hn
    have hT := h i n hi
    have hlt := (List.getElem?_eq_some_iff.mp hc).choose
    refine hT.keeps.closed c (hT.wired.indexed.totalChunks ▸ hlt) ?_
    rw [Scheduler.closed, List.getD_eq_getElem?_getD, hc]
    rfl
  verified n hn r hr := by
    obtain ⟨i, hi⟩ := List.getElem?_of_mem hn
    exact ((h i n hi).keeps.results r hr).left

variable {sha256 : List UInt8 → δ} {std : StdSort} {x : UInt64 × Op}

theorem Trusted.step (h : w.Trusted K) (hp : w.Paired) (hs : seed.SeedOf sha256 source)
    (hx : w.Each Node.OpensFresh x) (hst : w.step sha256 std x = some w') : w'.Trusted K := by
  have node {j : Nat} {n n' : Node δ} (hn : w.nodes[j]? = some n) (hn' : w'.nodes[j]? = some n') :
      n'.Trusted K (fun k => w.Gives K.has ⟨j, k⟩) ∧ ∀ c, K.has n.task c → K.has n'.task c := by
    obtain ⟨n₀, hn₀, hstep⟩ := node_step hst hn'
    obtain rfl := Option.some.inj (hn.symm.trans hn₀)
    obtain rfl | ⟨op, he, hstep⟩ := hstep
    case inl => exact ⟨h j n' hn, fun _ => id⟩
    case inr => exact (h j n hn).step hs (h.welcome hp he hn) (hx _ he n hn) hstep
  intro i n' hn'
  obtain ⟨n, hn, _⟩ := node_step hst hn'
  refine (node hn hn').left.mono fun k c hg => ?_
  obtain ⟨d, m, hm, hd, hc⟩ := hg
  obtain ⟨m', hd'⟩ := node_of_step hst hd
  exact ⟨d, m', hp.mate_step (relinks hst) hm, hd', (node hd hd').right c hc⟩

theorem Trusted.step_defined (h : w.Trusted K) (hp : w.Paired) (hs : seed.SeedOf sha256 source)
    (hx : w.Each Node.OpensFresh x) (hl : seed.chunks.length + 7 < 2 ^ 32) :
    (w.step sha256 std x).isSome := by
  unfold Swarm.step
  split
  case h_1 => rfl
  case h_2 i op he =>
    split
    case h_1 => rfl
    case h_2 n hn =>
      have hd : (n.step sha256 std (x.1, op)).isSome :=
        (h i n hn).step_defined hs (h.welcome hp he hn) (hx _ he n hn) hl
      obtain ⟨n', hn'⟩ := Option.isSome_iff_exists.mp hd
      rw [hn']
      rfl

theorem trusted_start {tasks : List (Task δ)} (hτ : ∀ τ ∈ tasks, τ.Shares sha256 std source seed)
    (hk : ∀ τ ∈ tasks, K.keeps τ) : (start tasks).Trusted K := by
  intro i n hn
  obtain ⟨τ, hm, rfl⟩ := List.mem_map.mp (List.mem_of_getElem? hn)
  obtain ⟨hst, rfl⟩ := (hτ τ hm).started
  exact ⟨Node.wired_start hst, hk τ hm, rfl, fun c e he => hst.subTotal he, hst.initialBitfield,
    fun k s hk => by cases hk⟩

-- The swarm is safe in every run in which new sessions get slots of their own.
theorem swarm_is_safe {tasks : List (Task δ)} {ops : List (UInt64 × Op)}
    (hs : seed.SeedOf sha256 source) (hc : seed.CollisionFree sha256 source)
    (hτ : ∀ τ ∈ tasks, τ.Shares sha256 std source seed)
    (hx : Machine.AllAt (Swarm.step sha256 std) (Each Node.OpensFresh) (start tasks) ops) :
    (seed.chunks.length + 7 < 2 ^ 32 →
        (Machine.run (Swarm.step sha256 std) (start tasks) ops).isSome) ∧
      ∀ w, Machine.run (Swarm.step sha256 std) (start tasks) ops = some w → w.Safe source seed := by
  have h₀ : (start tasks).Paired ∧ (start tasks).Trusted (.bytes source seed) :=
    ⟨paired_start, trusted_start hτ fun τ hm => (hτ τ hm).sound hs hc⟩
  have step (w : Swarm δ) (x) (w') (h : w.Paired ∧ w.Trusted (.bytes source seed))
      (hx : w.Each Node.OpensFresh x) (hst : w.step sha256 std x = some w') :
      w'.Paired ∧ w'.Trusted (.bytes source seed) :=
    ⟨h.left.step hst, h.right.step h.left hs hx hst⟩
  refine ⟨fun hl => hx.defined _ step (fun w x h hx => ?_) h₀, fun w hr => ?_⟩
  · exact h.right.step_defined h.left hs hx hl
  · exact (hx.invariant _ step h₀ hr).right.safe

end Step

section Runs

def trioSeed : TSeedFile (List UInt8) where
  fileSize := 3
  config   := {}
  chunks   := [⟨0, 3, [7, 8, 9]⟩]
  countLt  := by decide

def trioTasks : List (Task (List UInt8)) := [
  Task.cmdSeed .stable trioSeed [7, 8, 9] 4 1000,
  (Task.cmdAdd id .stable trioSeed none 4 1000 [0]).get (by decide +kernel),
  (Task.cmdAdd id .stable trioSeed none 4 1000 [0]).get (by decide +kernel)
]

theorem seedOf_trioSeed : trioSeed.SeedOf id [7, 8, 9] :=
  ⟨rfl, by decide +kernel⟩

theorem collisionFree_trioSeed : trioSeed.CollisionFree id [7, 8, 9] :=
  fun _ _ _ _ => id

theorem shares_trioTasks : ∀ τ ∈ trioTasks, τ.Shares id .stable [7, 8, 9] trioSeed :=
  List.forall_mem_cons.mpr ⟨.cmdSeed, List.forall_mem_cons.mpr ⟨.cmdAdd (.refl [0]) (Option.some_get _).symm,
    List.forall_mem_singleton.mpr (.cmdAdd (.refl [0]) (Option.some_get _).symm)⟩⟩

-- The second node connects to the first one and receives its bitfield.
def meetRun : List (UInt64 × Op) := [
  (1, .connect 1 0), (2, .accept 0), (3, .node 1 (.established 0)), (4, .deliver ⟨0, 0⟩ []),
  (5, .deliver ⟨1, 0⟩ []), (6, .deliver ⟨1, 0⟩ [])
]

-- The chunk is transferred.
def shareRun : List (UInt64 × Op) := meetRun ++ [
  (7, .deliver ⟨0, 0⟩ []), (8, .deliver ⟨0, 0⟩ []), (9, .deliver ⟨1, 0⟩ []), (10, .node 1 (.tick false)),
  (11, .deliver ⟨0, 0⟩ []), (12, .node 0 (.read 0 0)), (13, .node 0 (.post 0)), (14, .deliver ⟨1, 0⟩ []),
  (15, .node 1 (.io 0)), (16, .node 1 (.io 0)), (17, .node 1 (.io 0)), (18, .node 1 (.verify 0)),
  (19, .node 1 (.tick false))
]

def sharedSwarm : Swarm (List UInt8) :=
  (Machine.run (step id .stable) (start trioTasks) shareRun).get (by decide +kernel)

theorem sharedSwarm_is_safe :
    sharedSwarm.nodes.map (·.task.scheduler.chunkStates) = [[.complete], [.complete], [.missing]] ∧
      sharedSwarm.Safe [7, 8, 9] trioSeed := by
  obtain ⟨_, hs⟩ := swarm_is_safe seedOf_trioSeed collisionFree_trioSeed shares_trioTasks
    (show Machine.AllAt _ _ (start trioTasks) shareRun by decide +kernel)
  exact ⟨by decide +kernel, hs sharedSwarm (Option.some_get _).symm⟩

end Runs
end Swarm

namespace Node

variable {δ : Type} {n : Node δ}

-- The state after a connection that failed at once.
def churn (n : Node δ) : Node δ :=
  { n with
    sessions   := n.sessions ++ [{
      slotId   := n.nextSlotId
      state    := .disconnected
      closed   := true
      reading  := .nothing }]
    nextSlotId := n.nextSlotId + 1 }

theorem peerCount_churn : n.churn.peerCount = n.peerCount := by
  simp [peerCount, churn]

theorem step_churn [DecidableEq δ] {sha256 : List UInt8 → δ} {std : StdSort}
    (hn : n.peerCount < maxPeers)
    (hf : ∀ p ∈ n.task.scheduler.peerSlots, p.slotId ≠ n.nextSlotId.toNat) :
    ∃ n', n.step sha256 std (t, .connect) = some n' ∧ n'.sessions.length = n.sessions.length + 1 ∧
      n'.step sha256 std (t, .readError n.sessions.length) = some n.churn := by
  have hr : Scheduler.run std n.task.scheduler [.onPeerAdded n.nextSlotId.toNat 0,
      .onPeerRemoved n.nextSlotId.toNat] = n.task.scheduler :=
    Scheduler.run_added_removed hf
  let added := Scheduler.run std n.task.scheduler [.onPeerAdded n.nextSlotId.toNat 0]
  refine ⟨{ n with
    task       := { n.task with scheduler := added }
    sessions   := n.sessions ++ [{ slotId := n.nextSlotId, reading := .connect }]
    nextSlotId := n.nextSlotId + 1 }, ?_, List.length_append, ?_⟩
  · simp only [step, actions, openSession, if_neg (Nat.not_le.mpr hn)]
    rfl
  · simp only [step, actions, onSession, List.getElem?_concat_length, readError, hangUp]
    rw [if_neg Reading.noConfusion, Machine.run_cons]
    refine ⟨{ n with
      sessions   := n.sessions ++ [{
        slotId   := n.nextSlotId
        state    := .disconnected
        closed   := true
        reading  := .connect }]
      nextSlotId := n.nextSlotId + 1 }, ?_, ?_⟩
    · refine apply_eq_some.mpr ⟨_, rfl, .inr ⟨.session (.onPeerRemoved n.nextSlotId.toNat), ?_, ?_⟩⟩
      · simp [taskOp, isDisconnected]
      · refine taskStep_eq_some.mpr ⟨n.task, ?_, ?_⟩
        · simp only [isDisconnected, modify, List.getElem?_concat_length]
          exact congrArg (fun σ => some { n.task with scheduler := σ }) hr
        · simp only [isDisconnected, modify, List.getElem?_concat_length, List.modify_concat_length]
          rfl
    · simp [Machine.run, apply, onSessions, modify, List.modify_concat_length, taskOp, churn, PeerSession.apply]

end Node

namespace Swarm

section Reuse

variable {δ : Type} [DecidableEq δ] {sha256 : List UInt8 → δ} {std : StdSort} {w : Swarm δ} {n : Node δ}
variable {i j : Nat}

theorem run_churn (hij : i ≠ j) (hn : w.nodes[i]? = some n) (hc : n.peerCount < maxPeers)
    (hf : ∀ p ∈ n.task.scheduler.peerSlots, p.slotId ≠ n.nextSlotId.toNat) :
    Machine.run (Swarm.step sha256 std) w
        [(0, .connect i j), (0, .node i (.readError n.sessions.length))] =
      some { w with
        nodes   := w.nodes.set i n.churn
        backlog := w.backlog ++ [(⟨i, n.sessions.length⟩, j)] } := by
  obtain ⟨n', h₁, hl, h₂⟩ : ∃ n', n.step sha256 std (0, .connect) = some n' ∧ _ :=
    Node.step_churn hc hf
  have hlt := (List.getElem?_eq_some_iff.mp hn).choose
  refine Machine.run_cons.mpr ⟨{ w with
    nodes   := w.nodes.set i n'
    backlog := w.backlog ++ [(⟨i, n.sessions.length⟩, j)] }, ?_, ?_⟩
  · simp [Swarm.step, event, hij, hn, h₁, reconnect, hl]
  · simp [Machine.run, Swarm.step, event, isLocal, hlt, h₂, reconnect]

-- A node goes through its slots while it keeps its other sessions.
theorem run_churns (hij : i ≠ j) (hn : w.nodes[i]? = some n) (hc : n.peerCount < maxPeers)
    (hf : ∀ l < m, ∀ p ∈ n.task.scheduler.peerSlots, p.slotId ≠ (n.nextSlotId + .ofNat l).toNat) :
    ∃ ops n' bl, Machine.run (Swarm.step sha256 std) w ops =
        some { w with nodes := w.nodes.set i n', backlog := w.backlog ++ bl } ∧
      n'.task = n.task ∧ n'.nextSlotId = n.nextSlotId + .ofNat m ∧ n'.peerCount = n.peerCount := by
  induction m generalizing w n
  case zero =>
    obtain ⟨hlt, rfl⟩ := List.getElem?_eq_some_iff.mp hn
    refine ⟨[], _, [], ?_, rfl, by simp, rfl⟩
    rw [List.set_getElem_self, List.append_nil]
    rfl
  case succ m hi =>
    have hlt := (List.getElem?_eq_some_iff.mp hn).choose
    have hnext (l : Nat) : n.churn.nextSlotId + .ofNat l = n.nextSlotId + .ofNat (l + 1) := by
      rw [Node.churn, UInt32.ofNat_add, UInt32.add_assoc, UInt32.add_comm 1]
      rfl
    have h₁ : Machine.run (Swarm.step sha256 std) w _ = _ :=
      run_churn hij hn hc (by simpa using hf 0 (Nat.succ_pos m))
    have hn₁ : (w.nodes.set i n.churn)[i]? = some n.churn := List.getElem?_set_self hlt
    obtain ⟨ops, n', bl, h₂, ht, hs, hp⟩ := hi
      (w := { w with nodes := _, backlog := w.backlog ++ [(⟨i, n.sessions.length⟩, j)] }) hn₁
      (Node.peerCount_churn.trans_lt hc)
      fun l hl p hp => by rw [hnext]; exact hf (l + 1) (Nat.succ_lt_succ hl) p hp
    refine ⟨_, n', (⟨i, n.sessions.length⟩, j) :: bl, Machine.run_append.mpr ⟨_, h₁, h₂.trans ?_⟩, ht,
      ?_, ?_⟩
    · rw [List.set_set, List.append_assoc]
      rfl
    · rw [hs, hnext]
    · rw [hp, Node.peerCount_churn]

variable (sha256 std) in
-- The slot of an old session is used for a new one.
theorem slot_is_reused (slot : UInt32) (hij : i ≠ j) (hn : w.nodes[i]? = some n)
    (hb : w.backlog[0]? = some (c, i))
    (hc : n.peerCount < maxPeers) (hs : n.nextSlotId = slot + 1)
    (hp : ∀ p ∈ n.task.scheduler.peerSlots, p.slotId = slot.toNat) :
    ∃ ops w' n' k s, Machine.run (Swarm.step sha256 std) w ops = some w' ∧
      w'.nodes[i]? = some n' ∧ n'.sessions[k]? = some s ∧ s.closed = false ∧ s.slotId = slot ∧
      w'.mate ⟨i, k⟩ = some c ∧ (∀ p ∈ n.task.scheduler.peerSlots, p ∈ n'.task.scheduler.peerSlots) ∧
      ∀ l, l ≠ i → w'.nodes[l]? = w.nodes[l]? := by
  have hlt := (List.getElem?_eq_some_iff.mp hn).choose
  have hfresh (l : Nat) (hl : l < 2 ^ 32 - 1) (p) (hm : p ∈ n.task.scheduler.peerSlots) :
      p.slotId ≠ (n.nextSlotId + .ofNat l).toNat := by
    rw [hp p hm, hs, UInt32.toNat_add, UInt32.toNat_add, UInt32.toNat_one,
      UInt32.toNat_ofNat_of_lt' (by rw [UInt32.size]; omega)]
    have := slot.toNat_lt
    omega
  obtain ⟨ops, n₁, bl, hr, ht, hs₁, hc₁⟩ :
      ∃ ops, ∃ n' : Node δ, ∃ bl, Machine.run (Swarm.step sha256 std) w ops = _ ∧ n'.task = n.task ∧ _ :=
    run_churns hij hn hc hfresh
  have hslot : n₁.nextSlotId = slot := by
    rw [hs₁, hs, UInt32.add_assoc]
    exact UInt32.add_zero slot
  let n₂ : Node δ := { n₁ with
    task       := { n₁.task with
      scheduler := Scheduler.run std n₁.task.scheduler [.onPeerAdded n₁.nextSlotId.toNat 0] }
    sessions   := n₁.sessions ++ [{ slotId := n₁.nextSlotId, reading := .handshake }]
    nextSlotId := n₁.nextSlotId + 1 }
  have hstep : n₁.step sha256 std (0, .accept) = some n₂ := by
    simp only [Node.step, Node.actions, Node.openSession, if_neg (Nat.not_le.mpr (hc₁ ▸ hc))]
    rfl
  let k : End := ⟨i, n₁.sessions.length⟩
  refine ⟨ops ++ [(0, .accept 0)], ⟨w.nodes.set i n₂, (w.backlog ++ bl).eraseIdx 0,
    Function.update (Function.update w.mate c (some k)) k (some c)⟩, n₂, n₁.sessions.length,
    { slotId := n₁.nextSlotId, reading := .handshake }, Machine.run_append.mpr ⟨_, hr, ?_⟩,
    List.getElem?_set_self hlt, List.getElem?_concat_length, rfl, hslot, Function.update_self .., ?_, ?_⟩
  · have hb' : (w.backlog ++ bl)[0]? = some (c, i) := by
      rw [List.getElem?_append_left (List.getElem?_eq_some_iff.mp hb).choose, hb]
    simp [Machine.run, Swarm.step, event, hb', hlt, hstep, reconnect, n₂, k]
  · exact fun p hm => List.mem_append_left _ (ht ▸ hm)
  · exact fun l hl => List.getElem?_set_ne hl.symm

-- The third node connects to the second one.
def waitingSwarm : Swarm (List UInt8) :=
  (Machine.run (step id .stable) (start trioTasks) (meetRun ++ [(7, .connect 2 1)])).get
    (by decide +kernel)

-- When the third node is accepted, the second one has used all slots.
theorem reused_slot_shows_wrong_chunks :
    (trioSeed.SeedOf id [7, 8, 9] ∧ trioSeed.CollisionFree id [7, 8, 9] ∧
        ∀ τ ∈ trioTasks, τ.Shares id .stable [7, 8, 9] trioSeed) ∧
      ∃ ops w B X k s p, Machine.run (step id .stable) (start trioTasks) ops = some w ∧
        w.nodes[1]? = some B ∧ B.sessions[k]? = some s ∧ s.closed = false ∧
        p ∈ B.task.scheduler.peerSlots ∧ p.slotId = s.slotId.toNat ∧
        p.remoteBitfield[0]? = some true ∧
        w.mate ⟨1, k⟩ = some ⟨2, 0⟩ ∧ w.nodes[2]? = some X ∧ ¬X.task.Holds [7, 8, 9] 0 := by
  refine ⟨⟨seedOf_trioSeed, collisionFree_trioSeed, shares_trioTasks⟩, ?_⟩
  have hB₀ := (Option.some_get (show (waitingSwarm.nodes[1]?).isSome by decide +kernel)).symm
  obtain ⟨ops, w, B, k, s, hr, hB, hk, hc, hs, hm, hp, hn⟩ :=
    slot_is_reused id .stable 0 (show 1 ≠ 0 by decide) hB₀ (show _ = some (⟨2, 0⟩, 1) by decide +kernel)
      (by decide +kernel) (by decide +kernel) (by decide +kernel)
  refine ⟨_, w, B, (waitingSwarm.nodes[2]?).get (by decide +kernel), k, s,
    ((waitingSwarm.nodes[1]?).bind (·.task.scheduler.peerSlots[0]?)).get (by decide +kernel),
    Machine.run_append.mpr ⟨waitingSwarm, (Option.some_get _).symm, hr⟩, hB, hk, hc,
    hp _ (by decide +kernel), by rw [hs]; decide +kernel, by decide +kernel, hm,
    (hn 2 (by decide)).trans (Option.some_get _).symm, fun h => ?_⟩
  exact absurd (h ⟨0, 3, [7, 8, 9]⟩ (by decide +kernel)) (by decide +kernel)

end Reuse
end Swarm
end ThinBT
