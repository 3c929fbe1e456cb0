import ThinBT.Session.Theorems.Writers

namespace ThinBT

-- A sequence of complete messages: each length is followed by as many bytes.
inductive Framed : List UInt8 → Prop
  | nil : Framed []
  | cons (n : UInt32) (body rest : List UInt8) :
      body.length = n.toNat → Framed rest → Framed (be32 n ++ body ++ rest)

section Framed

variable {id : P2PMsgId}

theorem Framed.single (h : body.length = n.toNat) : Framed (be32 n ++ body) := by
  simpa using Framed.cons n body [] h .nil

theorem Framed.append (ha : Framed as) (hb : Framed bs) : Framed (as ++ bs) := by
  induction ha
  case nil => exact hb
  case cons n body rest hn _ hi =>
    rw [List.append_assoc]
    exact .cons n body _ hn hi

theorem be32_inj (h : be32 m = be32 n) : m = n := by
  have he : some m = some n := by rw [← field32_self, h, field32_self]
  exact Option.some.inj he

theorem Framed.le_length (h : Framed (be32 n ++ bs)) : n.toNat ≤ bs.length := by
  generalize he : be32 n ++ bs = as at h
  cases h
  case nil => simpa using congrArg List.length he
  case cons m body rest hm _ =>
    rw [List.append_assoc] at he
    obtain ⟨hn, rfl⟩ := List.append_inj he (by simp)
    rw [be32_inj hn, ← hm, List.length_append]
    exact Nat.le_add_right ..

theorem length_lt_of_buildMessage (h : buildMessage id payload = some bs) :
    5 + payload.length < 2 ^ 32 := by
  simp only [buildMessage] at h
  split at h
  case isTrue hl => exact Nat.lt_of_le_of_lt hl (UInt32.toNat_lt _)
  case isFalse   => cases h

-- Builders are undefined on bodies that are too long for the length of a message.
theorem Built.length_lt {m : Built} (h : m.bytes = some bs) : 5 + m.body.length < 2 ^ 32 := by
  cases m
  case bitfield bits =>
    obtain ⟨bf, hb, h⟩ := Option.bind_eq_some_iff.mp h
    rw [body, hb]
    exact length_lt_of_buildMessage h
  case piece index begin data =>
    simp only [bytes, buildPiece] at h
    split at h
    case isFalse => cases h
    case isTrue hl =>
      have hl := Nat.lt_of_le_of_lt hl (UInt32.toNat_lt _)
      simp only [body, List.length_append, length_be32]
      omega
  case pex isDelta peers =>
    simp only [bytes, buildPex] at h
    split at h
    case isTrue  => exact length_lt_of_buildMessage h
    case isFalse => cases h
  all_goals exact length_lt_of_buildMessage h

theorem Built.framed {m : Built} (h : m.bytes = some bs) : Framed bs := by
  have hl := m.length_lt h
  have hn : (UInt32.ofNat m.body.length).toNat = m.body.length := UInt32.toNat_ofNat_of_lt' (by
    rw [UInt32.size]
    omega)
  rw [m.eq_frame h, frame, List.append_assoc]
  refine .single ?_
  have h1 : (1 : UInt32).toNat = 1 := rfl
  rw [UInt32.toNat_add, hn, h1, List.length_append, List.length_singleton]
  omega

theorem framed_header {j : SendJob} (hl : j.length.toNat + 9 < 2 ^ 32)
    (hd : data.length = j.length.toNat) : Framed (j.header.take 13 ++ data) := by
  have hn : (1 + 8 + j.length).toNat = j.length.toNat + 9 := by
    have h9 : (1 + 8 : UInt32).toNat = 9 := rfl
    rw [UInt32.toNat_add, h9]
    omega
  rw [List.take_of_length_le (by simp [SendJob.header])]
  simp only [SendJob.header, List.append_assoc]
  refine .single ?_
  simp only [List.length_append, length_be32, List.length_singleton]
  omega

end Framed

namespace Writer

-- What the writer still has to put on the socket.
def Owes : Writer → List UInt8 → Prop
  | writing rest, data => data = rest
  | sending j, data    => data.length = j.length.toNat
  | _, data            => data = []

def HeaderClean (closed : Bool) (count : Option Nat) : Writer → Prop
  | posted j => closed ∨ count.getD 0 = 0 ∨ count = some 13 ∧ j.length.toNat + 9 < 2 ^ 32
  | _        => True

def BodyClean (closed : Bool) (data : List UInt8) : Writer → Prop
  | sending j => closed ∨ j.length.toNat ≤ data.length
  | _         => True

instance : DecidablePred (HeaderClean closed count)
  | posted _ => inferInstanceAs (Decidable (closed ∨ _ ∨ _))
  | starting | owning _ | writing _ | written | sending _ | sent => .isTrue trivial

instance : DecidablePred (BodyClean closed data)
  | sending _ => inferInstanceAs (Decidable (closed ∨ _))
  | starting | owning _ | writing _ | written | posted _ | sent => .isTrue trivial

end Writer

namespace WriteSide

-- Nobody takes the socket while the flag is clear and a writer is under way, headers are sent as a
-- whole or not at all, their length does not overflow, and the data is sent as a whole.
def Clean (s : WriteSide) : Op → Prop
  | .send _         => s.isWriting ∨ s.writers = []
  | .request _      => s.isWriting ∨ s.writers = []
  | .header k count => ∀ w ∈ s.writers[k]?, w.HeaderClean s.closed count
  | .body k data    => ∀ w ∈ s.writers[k]?, w.BodyClean s.closed data
  | _               => True

instance : Decidable (Clean s op) := by
  cases op <;> unfold Clean <;> infer_instance

-- The bytes that complete the messages under way.
def Rest (s : WriteSide) (rest : List UInt8) : Prop :=
  ∃ parts, List.Forall₂ Writer.Owes s.writers parts ∧ rest = parts.flatten

variable {s : WriteSide} {w v : Writer} {k : Nat}

theorem rest_nil (h : s.writers = []) : s.Rest rest ↔ rest = [] := by
  simp [Rest, h]

theorem rest_singleton (h : s.writers = [w]) : s.Rest rest ↔ w.Owes rest := by
  constructor
  case mp =>
    rintro ⟨parts, hp, rfl⟩
    rw [h] at hp
    cases hp
    case cons p ps hw hp =>
      cases hp
      simpa using hw
  case mpr =>
    intro hw
    exact ⟨[rest], h ▸ .cons hw .nil, by simp⟩

theorem rest_of_inactive (h : ∀ w ∈ s.writers, ¬w.Active) : s.Rest [] := by
  refine ⟨s.writers.map fun _ => [], ?_, by simp⟩
  rw [List.forall₂_map_right_iff, List.forall₂_same]
  intro w hw
  have ha := h w hw
  cases w
  case writing | sending => exact (ha trivial).elim
  all_goals rfl

structure Framing (s : WriteSide) : Prop where
  one    : s.writers.length ≤ 1
  queue  : ∀ buf ∈ s.writeQueue, Framed buf
  owning : ∀ buf, .owning buf ∈ s.writers → Framed buf
  socket : s.closed = false → ∀ rest, s.Rest rest → Framed (s.socket ++ rest)

namespace Framing

theorem writer (h : s.Framing) (hk : s.writers[k]? = some w) : k = 0 ∧ s.writers = [w] := by
  have h1 := h.one
  match hw : s.writers with
  | []          => simp [hw] at hk
  | [v]         =>
    rw [hw, List.getElem?_singleton] at hk
    split at hk
    case isTrue h0 => exact ⟨h0, congrArg (fun v => [v]) (Option.some.inj hk)⟩
    case isFalse   => cases hk
  | _ :: _ :: _ => simp [hw] at h1

-- The first writer takes the socket and has not put anything on it.
theorem start (h : s.Framing) (hw : s.writers = []) (ho : ∀ data, w.Owes data → data = [])
    (hn : ∀ buf, w ≠ .owning buf) :
    { s with isWriting := true, writers := s.writers ++ [w] }.Framing where
  one        := by simp [hw]
  queue      := h.queue
  owning     := by
    intro buf hb
    rw [hw] at hb
    exact (hn buf (List.mem_singleton.mp hb).symm).elim
  socket     := by
    intro hc rest hr
    rw [ho rest ((rest_singleton (by rw [hw]; rfl)).mp hr)]
    exact h.socket hc [] ((rest_nil hw).mpr rfl)

theorem setFlag (h : s.Framing) : { s with isWriting := b }.Framing :=
  ⟨h.one, h.queue, h.owning, h.socket⟩

theorem close (h : s.Framing) : { s with error := b, closed := true }.Framing :=
  ⟨h.one, h.queue, h.owning, fun hc => by cases hc⟩

theorem framed_of_owes (h : s.Framing) (hk : s.writers[k]? = some w) (hc : s.closed = false)
    (ho : w.Owes data) : Framed (s.socket ++ data) :=
  h.socket hc data ((rest_singleton (h.writer hk).right).mpr ho)

-- The writer is gone and owes nothing, or the session is closed.
theorem stop (h : s.Framing) (hk : s.writers[k]? = some w) (ho : s.closed = false → w.Owes []) :
    (s.dropWriter k).Framing := by
  obtain ⟨rfl, hw⟩ := h.writer hk
  have hd : s.writers.eraseIdx 0 = [] := by rw [hw]; rfl
  refine ⟨by simp [dropWriter, hd], h.queue, by simp [dropWriter, hd], ?_⟩
  intro hc rest hr
  rw [(rest_nil hd).mp hr]
  exact h.framed_of_owes hk hc (ho hc)

-- The writer goes on to its next stage.
theorem move (h : s.Framing) (hk : s.writers[k]? = some w) (hq : ∀ buf ∈ q, Framed buf)
    (hb : ∀ buf, v = .owning buf → Framed buf)
    (hs : s.closed = false → ∀ data, v.Owes data → Framed (bytes ++ data)) :
    ({ s with writeQueue := q, socket := bytes }.setWriter k v).Framing := by
  obtain ⟨rfl, hw⟩ := h.writer hk
  have hd : s.writers.set 0 v = [v] := by rw [hw]; rfl
  refine ⟨by simp [setWriter, hd], hq, ?_, ?_⟩
  · intro buf hm
    exact hb buf (List.mem_singleton.mp (hd ▸ hm)).symm
  · intro hc data hr
    exact hs hc data ((rest_singleton hd).mp hr)

-- The same if the writer has nothing on the socket, before and after.
theorem restart (h : s.Framing) (hk : s.writers[k]? = some w) (ho : w.Owes []) :
    (s.setWriter k .starting).Framing :=
  h.move hk h.queue (fun _ he => by cases he)
    fun hc data hd => (show data = [] from hd) ▸ h.framed_of_owes hk hc ho

theorem send (h : s.Framing) (hb : Framed buf) (hc : s.isWriting ∨ s.writers = []) :
    (s.send buf).Framing := by
  have hq : { s with writeQueue := s.writeQueue ++ [buf] }.Framing :=
    ⟨h.one, List.forall_mem_append.mpr ⟨h.queue, by simpa using hb⟩, h.owning, h.socket⟩
  simp only [WriteSide.send]
  split
  case isTrue => exact hq
  case isFalse hi =>
    have hw : s.writers = [] := hc.resolve_left hi
    exact hq.start hw (fun _ ho => ho) (fun _ he => by cases he)

theorem request (h : s.Framing) (hc : s.isWriting ∨ s.writers = []) : (s.request j).Framing := by
  unfold WriteSide.request
  split
  case isTrue hi =>
    have hw : s.writers = [] := hc.resolve_left hi.right.right
    exact h.start hw (fun _ ho => ho) (fun _ he => by cases he)
  case isFalse => exact h

theorem run (h : s.Framing) : (s.run k).Framing := by
  unfold WriteSide.run
  split
  case h_1 hk =>
    split
    case h_1 => exact h.setFlag.stop hk fun _ => rfl
    case h_2 buf q hq =>
      have ⟨hb, hq⟩ := List.forall_mem_cons.mp (hq ▸ h.queue)
      refine h.move hk hq ?_ ?_
      · rintro _ ⟨⟩
        exact hb
      · rintro hc data rfl
        exact h.framed_of_owes hk hc rfl
  case h_2 buf hk =>
    have hw := (h.writer hk).right
    refine h.move hk h.queue (fun _ he => by cases he) ?_
    rintro hc data rfl
    have hs : Framed (s.socket ++ []) := h.framed_of_owes hk hc rfl
    rw [List.append_nil] at hs
    exact hs.append (h.owning _ (by simp [hw]))
  case h_3 hk =>
    split
    case isTrue hq => exact h.setFlag.stop hk fun _ => rfl
    case isFalse   => exact h.restart hk rfl
  case h_4 hk =>
    split
    case isTrue hq => exact h.setFlag.stop hk fun _ => rfl
    case isFalse   => exact h.setFlag.restart hk rfl
  case h_5 => exact h

theorem progress (h : s.Framing) : (s.progress k count).Framing := by
  unfold WriteSide.progress
  split
  case h_1 rest hk =>
    refine h.move hk h.queue (fun _ he => by cases he) ?_
    rintro hc data rfl
    rw [List.append_assoc, List.take_append_drop]
    exact h.framed_of_owes hk hc rfl
  case h_2 => exact h

theorem complete (h : s.Framing) : (s.complete k).Framing := by
  unfold WriteSide.complete
  split
  case h_1 hk =>
    refine h.move hk h.queue (fun _ he => by cases he) ?_
    rintro hc data rfl
    exact h.framed_of_owes hk hc rfl
  case h_2 => exact h

theorem fail (h : s.Framing) : (s.fail k).Framing := by
  unfold WriteSide.fail
  split
  case h_1 hk => exact h.close.stop hk fun hc => by cases hc
  case h_2    => exact h

theorem header (h : s.Framing) (hc : ∀ w ∈ s.writers[k]?, w.HeaderClean s.closed count) :
    (s.header k count).Framing := by
  unfold WriteSide.header
  split
  case h_2 => exact h
  case h_1 j hk =>
    split
    case isTrue hcl => exact h.stop hk fun hf => by simp [hcl] at hf
    case isFalse hcl =>
      have hs : Framed (s.socket ++ []) := h.framed_of_owes hk (eq_false_of_ne_true hcl) rfl
      rw [List.append_nil] at hs
      obtain hl | h0 | ⟨rfl, hl⟩ := hc _ hk
      case inl => exact absurd hl hcl
      case inr.inl =>
        rw [if_neg (by rintro rfl; cases h0), h0]
        refine h.move hk h.queue (fun _ he => by cases he) ?_
        rintro _ data rfl
        simpa using hs
      case inr.inr =>
        rw [if_pos rfl]
        refine h.move hk h.queue (fun _ he => by cases he) ?_
        intro _ data hd
        rw [List.append_assoc]
        exact hs.append (framed_header hl hd)

theorem body (h : s.Framing) (hc : ∀ w ∈ s.writers[k]?, w.BodyClean s.closed data) :
    (s.body k data).Framing := by
  unfold WriteSide.body
  split
  case h_2 => exact h
  case h_1 j hk =>
    refine h.move hk h.queue (fun _ he => by cases he) ?_
    rintro hcl rest rfl
    rw [List.append_nil]
    refine h.framed_of_owes hk hcl ?_
    obtain hf | hl := hc _ hk
    case inl => simp [hcl] at hf
    case inr => exact List.length_take_of_le hl

theorem step (h : s.Framing) (hc : s.Clean op) (hb : ∀ buf, op = .send buf → Framed buf) :
    (s.step op).Framing := by
  cases op
  case send buf   => exact h.send (hb buf rfl) hc
  case request    => exact h.request hc
  case run        => exact h.run
  case progress   => exact h.progress
  case complete   => exact h.complete
  case fail       => exact h.fail
  case header     => exact h.header hc
  case body       => exact h.body hc
  case disconnect => exact h.close

end Framing

-- The stream is framed in every run whose steps are clean.
theorem sendfile_keeps_framing (ops : List Op)
    (hm : ∀ buf ∈ enqueued ops, ∃ m : Built, m.bytes = some buf)
    (hc : Actions.AllAt step Clean { useSendfile := true } ops) :
    let s := reached true ops
    s.writers.length ≤ 1 ∧
    (s.closed = false →
      ((∀ w ∈ s.writers, ¬w.Active) → Framed s.socket) ∧
      ∀ rest, s.Rest rest → Framed (s.socket ++ rest)) := by
  intro s
  have hb : ∀ op ∈ ops, ∀ s : WriteSide, ∀ buf, op = .send buf → Framed buf := by
    rintro op hop _ buf rfl
    obtain ⟨m, hm⟩ := hm buf (List.mem_filterMap.mpr ⟨_, hop, rfl⟩)
    exact m.framed hm
  have h0 : Framing { useSendfile := true } :=
    ⟨by simp, by simp, by simp, fun _ rest hr => by rw [(rest_nil rfl).mp hr]; exact .nil⟩
  have h : s.Framing :=
    (hc.and (Actions.allAt_of_forall hb)).invariant (fun _ _ h hc => h.step hc.left hc.right) h0
  refine ⟨h.one, fun hcl => ⟨fun ha => ?_, h.socket hcl⟩⟩
  simpa using h.socket hcl [] (rest_of_inactive ha)

-- A message of the queue, then a piece of two bytes.
def cleanUpload : List Op :=
  [.send [0, 0, 0, 1, 2], .run 0, .run 0, .progress 0 5, .complete 0, .run 0, .request ⟨0, 0, 2⟩,
    .header 0 (some 13), .body 0 [4, 5], .run 0]

theorem cleanUpload_is_framed :
    (reached true cleanUpload).socket =
      [0, 0, 0, 1, 2, 0, 0, 0, 11, 7, 0, 0, 0, 0, 0, 0, 0, 0, 4, 5] ∧
    Framed (reached true cleanUpload).socket := by
  have hm : ∀ buf ∈ enqueued cleanUpload, ∃ m : Built, m.bytes = some buf := by
    intro buf hb
    rw [List.mem_singleton.mp hb]
    exact ⟨.interested, rfl⟩
  have h := sendfile_keeps_framing cleanUpload hm (by decide +kernel)
  exact ⟨by decide +kernel, (h.right (by decide +kernel)).left (by decide +kernel)⟩

-- A message is queued during the upload. The handler of the upload clears the flag and takes that
-- message from the queue, and the next message starts a second write.
def crossedUpload : List Op :=
  [.request ⟨0, 0, 1⟩, .send [0, 0, 0, 1, 2], .header 0 (some 13), .body 0 [9], .run 0, .run 0, .run 0,
    .send [0, 0, 0, 1, 3], .run 1, .run 1]

-- The socket takes five bytes of the header.
def shortUpload : List Op :=
  [.request ⟨0, 0, 2⟩, .header 0 (some 5), .run 0]

theorem sendfile_breaks_framing :
    ((reached true crossedUpload).writers.countP fun w => decide w.Active) = 2 ∧
    (reached true shortUpload).closed = false ∧ (reached true shortUpload).writers = [] ∧
    ¬Framed (reached true shortUpload).socket := by
  refine ⟨by decide +kernel, rfl, rfl, fun h => ?_⟩
  have hs : (reached true shortUpload).socket = be32 11 ++ [7] := by decide +kernel
  have hl : (11 : UInt32).toNat ≤ [(7 : UInt8)].length := Framed.le_length (hs ▸ h)
  exact absurd hl (by decide)

end WriteSide
end ThinBT
