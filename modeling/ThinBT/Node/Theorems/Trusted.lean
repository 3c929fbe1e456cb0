import ThinBT.Node.Theorems.Disclosure
import ThinBT.Task.Theorems.Sound

namespace ThinBT

-- What the nodes that share a file rely on: an invariant of their tasks, what is true of a chunk that
-- a node has, and what the pieces are like.
structure Contract {δ : Type} [DecidableEq δ] (source : List UInt8) (seed : TSeedFile δ) where
  keeps   : Task δ → Prop
  has     : Task δ → Nat → Prop
  piece   : UInt32 → UInt32 → List UInt8 → Prop
  initial : ∀ {τ c}, keeps τ → τ.initialBitfield.getD c false → has τ c
  results : ∀ {τ} {r : VerifyResult}, keeps τ → r ∈ τ.results → has τ r.chunkIdx
  read    : ∀ {τ e s} {j : ReadJob}, keeps τ → τ.seed = seed → has τ j.index.toNat →
    j.Reads seed e s → piece j.index j.begin (j.pread τ.file)
  step    : ∀ {sha256 std τ τ' op}, seed.SeedOf sha256 source → keeps τ → τ.seed = seed → τ.Legal op →
    (∀ t now, op = .piece t now → piece t.chunkIdx t.begin t.data) →
    τ.step sha256 std op = some τ' → keeps τ'
  stays   : ∀ {sha256 std τ τ' op c}, keeps τ → τ.step sha256 std op = some τ' → has τ c → has τ' c
  defined : ∀ {sha256 std τ op}, keeps τ → ∃ τ', τ.step sha256 std op = some τ'

namespace Contract

variable {δ : Type} [DecidableEq δ] (source : List UInt8) (seed : TSeedFile δ)

-- The nodes have the bytes of the source.
def bytes : Contract source seed where
  keeps   := Task.Sound source
  has     := Task.Holds source
  piece index begin data := ∃ s e, seed.chunks[index.toNat]? = some e ∧ Honest source e s begin data
  initial h hc         := h.initial _ hc
  results h hr         := (h.results _ hr).right
  read h hseed hh hr   := ⟨_, _, hr.chunk, hr.honest h.length (hh _ (hseed ▸ hr.chunk))⟩
  step hs h he hl hp   := h.step (he ▸ hs) hl fun t now ho => he ▸ hp t now ho
  stays h hst          := h.holds_step hst
  defined h            := h.step_defined

-- The files of the nodes are as long as the source.
def sizes : Contract source seed where
  keeps   := Task.WellMeasured source
  has _ _ := True
  piece index begin data :=
    ∃ s e, seed.chunks[index.toNat]? = some e ∧ Measured source e s begin data
  initial _ _          := trivial
  results _ _          := trivial
  read h _ _ hr        := ⟨_, _, hr.chunk, hr.measured h.length⟩
  step _ h he _ hp     := h.step fun t now ho => he ▸ hp t now ho
  stays _ _            := id
  defined h            := h.step_defined

end Contract

section Sessions

variable {δ : Type} [DecidableEq δ] {source : List UInt8} {seed : TSeedFile δ}
variable {K : Contract source seed} {sha256 : List UInt8 → δ} {H H' P P' : Nat → Prop}
variable {s : PeerSession} {u : PeerSession.Update} {now : UInt64}

-- What a node that has the chunks in `H` may send to one that has the chunks in `P`.
def Msg.Fair (K : Contract source seed) (H P : Nat → Prop) : Msg → Prop
  | haveChunk ci               => H ci.toNat
  | bitfield bf                => ∀ c, (Bitfield.record bf).getD c false → H c
  | request index begin length => P index.toNat ∧ ∃ e s, Asks seed e s index begin length
  | piece index begin data     => K.piece index begin data
  | _                          => True

theorem Msg.Fair.mono {m : Msg} (h : m.Fair K H P) (hH : ∀ c, H c → H' c) (hP : ∀ c, P c → P' c) :
    m.Fair K H' P' := by
  cases m
  case haveChunk => exact hH _ h
  case bitfield  => exact fun c hc => hH c (h c hc)
  case request   => exact ⟨hP _ h.left, h.right⟩
  all_goals exact h

-- A session of a node that has the chunks in `H` with one that has the chunks in `P`.
structure PeerSession.Fair (K : Contract source seed) (H P : Nat → Prop) (s : PeerSession) :
    Prop where
  stream : ∀ m ∈ s.stream, m.Fair K H P
  posted : ∀ m ∈ s.posted, m.Fair K H P
  reads  : ∀ j ∈ s.reads, H j.index.toNat ∧ ∃ e s, j.Reads seed e s

namespace PeerSession

theorem Fair.mono (h : s.Fair K H P) (hH : ∀ c, H c → H' c) (hP : ∀ c, P c → P' c) :
    s.Fair K H' P' where
  stream := fun m hm => (h.stream m hm).mono hH hP
  posted := fun m hm => (h.posted m hm).mono hH hP
  reads  := fun j hj => (h.reads j hj).imp (hH _) id

-- The requests that are dispatched are fair, and so are the pieces that the pool reads.
def Keeps (K : Contract source seed) (H P : Nat → Prop) (s : PeerSession) : Update → Prop
  | .dispatch offsets m => offsets = seed.chunks.map (·.offset) ∧ m.Fair K P H
  | .finishRead k data  => ∀ j, s.reads[k]? = some j → K.piece j.index j.begin data
  | _                   => True

theorem Fair.apply (h : s.Fair K H P) (hs : seed.SeedOf sha256 source) (hu : s.Keeps K H P u)
    (hm : ∀ m ∈ s.sends u, m.Fair K H P) : (s.apply now u).Fair K H P where
  stream := forall_stream_apply h.stream hm
  posted := by
    refine forall_posted_apply h.posted fun k data j he hj => ?_
    subst he
    exact hu j hj
  reads  := by
    refine forall_reads_apply h.reads fun offsets index begin length j he hj => ?_
    subst he
    obtain ⟨rfl, hH, e, t, hA⟩ := hu
    have hi : j.index = index := by rw [handleRequestMsg_eq_some hj]
    exact ⟨hi ▸ hH, e, t, hA.reads hs hj⟩

end PeerSession
end Sessions

namespace Node

open PeerSession

theorem dispatch_of_piece {δ : Type} {n n₀ : Node δ} (hg : Guard op n₀ n a)
    (ho : n.taskOp now a = some (.piece t t')) :
    ∃ k, a = .dispatch k (.piece t.chunkIdx t.begin t.data) := by
  cases makes_of_taskOp ho
  case task  => cases hg.left
  case piece => exact ⟨_, rfl⟩

variable {δ : Type} [DecidableEq δ] {n n' n₀ : Node δ} {now : UInt64} {k : Nat}
variable {s s₀ s' : PeerSession} {a : Action} {op : Op} {std : StdSort} {source : List UInt8}
variable {seed : TSeedFile δ} {K : Contract source seed} {Q R : Nat → Nat → Prop}

-- A node that has only received what its peers may send, where `Q` tells which chunks the peers have.
structure Trusted (K : Contract source seed) (Q : Nat → Nat → Prop) (n : Node δ) : Prop where
  wired    : n.Wired Q
  keeps    : K.keeps n.task
  sameSeed : n.task.seed = seed
  subTotal : ∀ c e, seed.chunks[c]? = some e →
    n.task.scheduler.subTotal c = Scheduler.subBlockCount e.length
  initial  : n.task.initialBitfield.length = seed.chunks.length
  fair     : ∀ (k : Nat) (s : PeerSession), n.sessions[k]? = some s → s.Fair K (K.has n.task) (Q k)

-- The message of a step is one that the peer may send.
def Welcome (K : Contract source seed) (Q : Nat → Nat → Prop) (n : Node δ) (op : Op) : Prop :=
  ∀ k m peers, op = .receive k m peers → m.Fair K (Q k) (K.has n.task)

theorem Trusted.mono (h : n.Trusted K Q) (hq : ∀ k c, Q k c → R k c) : n.Trusted K R where
  wired    := h.wired.mono fun k _ c => hq k c
  keeps    := h.keeps
  sameSeed := h.sameSeed
  subTotal := h.subTotal
  initial  := h.initial
  fair     := fun k s hk => (h.fair k s hk).mono (fun _ => id) (hq k)

theorem Welcome.told (hw : n₀.Welcome K Q op) (hg : Guard op n₀ n a) : n.Told Q a := by
  intro k m s ha _
  subst ha
  obtain ⟨⟨peers, ho⟩, _⟩ := hg.left
  have hf := hw k m peers ho
  cases m
  case haveChunk => exact fun _ => hf
  case bitfield  => exact fun c _ hc => hf c hc
  all_goals trivial

-- The pieces that a node receives are fair.
theorem Welcome.piece (hw : n₀.Welcome K Q op) (hg : Guard op n₀ n a)
    (ho : n.taskOp now a = some (.piece t t')) : K.piece t.chunkIdx t.begin t.data := by
  obtain ⟨k, rfl⟩ := dispatch_of_piece hg ho
  obtain ⟨⟨peers, hop⟩, _⟩ := hg.left
  exact hw k _ peers hop

-- Everything that a node sends is fair.
theorem Trusted.sends (h : n.Trusted K Q) (hw : n₀.Welcome K Q op) (hg : Guard op n₀ n a)
    (hf : op.opens → n₀.FreshSlot) (hk : n.sessions[k]? = some s₀) (hb : s.Basic)
    (hF : s₀.Follows s) (hs : s.Fair K (K.has n.task) (Q k)) (ht : n.Touches std now a k s u)
    (hm : m ∈ s.sends u) : m.Fair K (K.has n.task) (Q k) := by
  cases ht
  case session hk ha =>
    subst ha
    have hsg := (hg s hk).right
    cases sends_of_mem hm
    case send      => obtain ⟨⟨_, _, rfl⟩, _⟩ := hsg; trivial
    case request   => cases hsg
    case posted hm => exact hs.posted m hm
    all_goals trivial
  case dispatch => cases hm
  case close    => cases hm
  case announce bf _ hbuild _ =>
    rw [List.mem_singleton.mp hm]
    exact fun c hc => K.initial h.keeps (Bitfield.getD_record_build hbuild ▸ hc)
  case call top call ho hc hr =>
    have hB := h.wired.backed_at hg hf (hw.told hg) ho hc hk hb hF hr
    cases call
    case issueRequest slot c b len =>
      rw [List.mem_singleton.mp hm]
      obtain ⟨hq, rfl, s, rfl, hlt, hsub⟩ := hB
      rw [h.wired.indexed.totalChunks, h.sameSeed] at hlt
      have he := List.getElem?_eq_getElem hlt
      rw [h.subTotal c _ he] at hsub
      refine ⟨?_, _, s, asks_ofNat he (Scheduler.inside_of_lt_subBlockCount hsub)⟩
      rwa [UInt32.toNat_ofNat_of_lt' (Nat.lt_trans hlt seed.countLt)]
    case broadcastHave c =>
      rw [List.mem_singleton.mp hm]
      change K.has n.task (UInt32.ofNat c).toNat
      rw [Announces.toNat hB h.wired.indexed]
      obtain ⟨r, hmem, rfl, _⟩ := hB
      exact K.results h.keeps hmem
    case notInterested =>
      cases sends_of_mem hm
      trivial
    all_goals
      rw [List.mem_singleton.mp hm]
      trivial

-- What a node receives and reads is fair.
theorem Trusted.updates (h : n.Trusted K Q) (hw : n₀.Welcome K Q op) (hg : Guard op n₀ n a)
    (hs : s.Fair K (K.has n.task) (Q k)) (ht : n.Touches std now a k s u) :
    s.Keeps K (K.has n.task) (Q k) u := by
  cases ht
  case session hk ha =>
    subst ha
    have hsg := (hg s hk).right
    cases u
    case dispatch => cases hsg
    case finishRead j data =>
      intro job hj
      obtain ⟨_, hj', rfl⟩ := hsg
      obtain rfl := Option.some.inj (hj.symm.trans hj')
      obtain ⟨hH, e, t, hR⟩ := hs.reads _ (List.mem_of_getElem? hj)
      exact K.read h.keeps h.sameSeed hH hR
    all_goals trivial
  case dispatch m ha hk =>
    subst ha
    obtain ⟨⟨peers, ho⟩, rfl⟩ := hg.left
    exact ⟨by rw [chunkOffsets, h.sameSeed], hw k m peers ho⟩
  case call call _ _ _ => cases call <;> trivial
  all_goals trivial

variable {sha256 : List UInt8 → δ}

theorem Trusted.has_apply (h : n.Trusted K Q) (ha : n.apply sha256 std now a = some n')
    (hc : K.has n.task c) : K.has n'.task c := by
  obtain ⟨_, he⟩ | ⟨top, _, hs⟩ := task_apply ha
  case inl => rwa [he]
  case inr => exact K.stays h.keeps hs hc

theorem Trusted.keeps_apply (h : n.Trusted K Q) (hs : seed.SeedOf sha256 source)
    (hw : n₀.Welcome K Q op) (hg : Guard op n₀ n a) (hf : op.opens → n₀.FreshSlot)
    (ha : n.apply sha256 std now a = some n') : K.keeps n'.task := by
  obtain ⟨_, he⟩ | ⟨top, ho, hst⟩ := task_apply ha
  case inl => exact he ▸ h.keeps
  case inr =>
    refine K.step hs h.keeps h.sameSeed (h.wired.legal hg hf ho) (fun t t' he => ?_) hst
    exact hw.piece hg (he ▸ ho)

theorem Trusted.fair_apply (h : n.Trusted K Q) (hs : seed.SeedOf sha256 source)
    (hw : n₀.Welcome K Q op) (hg : Guard op n₀ n a) (hf : op.opens → n₀.FreshSlot)
    (ha : n.apply sha256 std now a = some n') (hk' : n'.sessions[k]? = some s') :
    s'.Fair K (K.has n.task) (Q k) := by
  obtain ⟨s, hk, _⟩ | ⟨r, _, _, rfl⟩ := session_of_apply ha hk'
  case inr => exact ⟨List.forall_mem_nil _, List.forall_mem_nil _, List.forall_mem_nil _⟩
  case inl =>
    refine session_invariant (PeerSession.Fair K (K.has n.task) (Q k)) h.wired.basic hg ha hk hk'
      (fun t u hb hF ht hI => ?_) (h.fair k s hk)
    exact hI.apply hs (h.updates hw hg hI ht) fun m hm => h.sends hw hg hf hk hb hF hI ht hm

theorem Trusted.apply (h : n.Trusted K Q) (hs : seed.SeedOf sha256 source)
    (hw : n₀.Welcome K Q op) (hg : Guard op n₀ n a) (hf : op.opens → n₀.FreshSlot)
    (ha : n.apply sha256 std now a = some n') : n'.Trusted K Q := by
  obtain ⟨hseed, hbf⟩ := constants_apply ha
  refine ⟨h.wired.apply hg hf (hw.told hg) ha, h.keeps_apply hs hw hg hf ha,
    hseed.trans h.sameSeed, ?_, hbf ▸ h.initial, fun k s' hk' => ?_⟩
  · intro c e he
    rw [scheduler_apply ha, Scheduler.subTotal_run]
    exact h.subTotal c e he
  · exact (h.fair_apply hs hw hg hf ha hk').mono (fun _ => h.has_apply ha) fun _ => id

theorem Trusted.apply_defined (h : n.Trusted K Q) (hl : seed.chunks.length + 7 < 2 ^ 32) :
    (n.apply sha256 std now a).isSome := by
  refine Node.apply_defined (.inr (Bitfield.build_defined (h.initial ▸ hl))) fun top _ => ?_
  exact Option.isSome_iff_exists.mpr (K.defined h.keeps)

variable {x : UInt64 × Op}

theorem Trusted.step (h : n.Trusted K Q) (hs : seed.SeedOf sha256 source) (hw : n.Welcome K Q x.2)
    (hf : x.2.opens → n.FreshSlot) (hst : n.step sha256 std x = some n') :
    n'.Trusted K Q ∧ ∀ c, K.has n.task c → K.has n'.task c := by
  refine step_invariant (fun n₁ => n₁.Trusted K Q ∧ ∀ c, K.has n.task c → K.has n₁.task c) ?_
    h.wired.basic ⟨h, fun _ => id⟩ hst
  intro n₁ a n₂ _ _ hg ha ⟨h₁, hc⟩
  exact ⟨h₁.apply hs hw hg hf ha, fun c hh => h₁.has_apply ha (hc c hh)⟩

-- The steps of a node are defined.
theorem Trusted.step_defined (h : n.Trusted K Q) (hs : seed.SeedOf sha256 source)
    (hw : n.Welcome K Q x.2) (hf : x.2.opens → n.FreshSlot) (hl : seed.chunks.length + 7 < 2 ^ 32) :
    (n.step sha256 std x).isSome := by
  have hg : Guarded sha256 std x.1 x.2 n n (n.actions std x.1 x.2) := guarded_actions h.wired.basic
  exact hg.defined (Trusted K Q) (fun _ _ _ h₁ hg ha => h₁.apply hs hw hg hf ha)
    (fun _ _ h₁ _ => h₁.apply_defined hl) h

end Node
end ThinBT
