import ThinBT.Session.WriteSide
import ThinBT.Session.Theorems.Streams

namespace ThinBT

namespace Writer

-- A writer of the queue: its `async_write` is outstanding or about to be started.
def OfQueue : Writer → Prop
  | starting | owning _ | writing _ | written => True
  | posted _ | sending _ | sent               => False

instance : DecidablePred OfQueue :=
  fun w => by cases w <;> unfold OfQueue <;> infer_instance

-- The writer uses the socket.
def Active : Writer → Prop
  | writing _ | sending _ => True
  | _                     => False

instance : DecidablePred Active :=
  fun w => by cases w <;> unfold Active <;> infer_instance

-- What the writer of a buffer still has to write.
def owed : Writer → List UInt8
  | owning buf   => buf
  | writing rest => rest
  | _            => []

end Writer

namespace WriteSide

variable {s : WriteSide}

section Queue

-- The three phases of a session without `sendfile`, where `sent` are the bytes of all messages so
-- far.
inductive Serial (sent : List UInt8) (s : WriteSide) : Prop
  | idle (writing : s.isWriting = false) (error : s.error = false) (writers : s.writers = [])
      (queue : s.writeQueue = []) (bytes : s.socket = sent)
  | busy (writing : s.isWriting = true) (error : s.error = false) (w : Writer) (isWrite : w.OfQueue)
      (writers : s.writers = [w]) (bytes : s.socket ++ w.owed ++ s.writeQueue.flatten = sent)
  | failed (writing : s.isWriting = true) (error : s.error = true) (writers : s.writers = [])
      (bytes : s.socket <+: sent)

namespace Serial

theorem writer (h : s.Serial sent) (hk : s.writers[k]? = some w) :
    k = 0 ∧ s.writers = [w] ∧ w.OfQueue ∧ s.isWriting = true ∧ s.error = false ∧
      s.socket ++ w.owed ++ s.writeQueue.flatten = sent := by
  cases h
  case idle hw _ _ => simp [hw] at hk
  case failed hw _ => simp [hw] at hk
  case busy hi he v ho hw hb =>
    rw [hw, List.getElem?_singleton] at hk
    split at hk
    case isTrue h0 =>
      cases hk
      exact ⟨h0, hw, ho, hi, he, hb⟩
    case isFalse => cases hk

theorem send (h : s.Serial sent) : (s.send buf).Serial (sent ++ buf) := by
  cases h
  case idle hi he hw hq hb =>
    simp only [WriteSide.send, hi, Bool.false_eq_true, if_false]
    exact .busy rfl he .starting trivial (by rw [hw]; rfl) (by simp [Writer.owed, hq, hb])
  case busy hi he w ho hw hb =>
    rw [WriteSide.send, if_pos hi]
    exact .busy hi he w ho hw (by simp [← hb])
  case failed hi he hw hb =>
    rw [WriteSide.send, if_pos hi]
    exact .failed hi he hw (hb.trans (List.prefix_append ..))

theorem request (h : s.Serial sent) (hs : s.useSendfile = false) : (s.request j).Serial sent := by
  rw [WriteSide.request, if_neg (by simp [hs])]
  exact h

-- The writer has nothing left to do.
theorem stop (h : s.Serial sent) (hk : s.writers[k]? = some w) (ho : w.owed = [])
    (hq : s.writeQueue = []) : ({ s with isWriting := false }.dropWriter k).Serial sent := by
  obtain ⟨rfl, hw, _, _, he, hb⟩ := h.writer hk
  refine .idle rfl he ?_ hq ?_
  · simp [dropWriter, hw]
  · simpa [dropWriter, hq, ho] using hb

-- The writer goes on to its next stage.
theorem move (h : s.Serial sent) (hk : s.writers[k]? = some w) (hv : v.OfQueue)
    (hb : bytes ++ v.owed ++ q.flatten = s.socket ++ w.owed ++ s.writeQueue.flatten) :
    ({ s with socket := bytes, writeQueue := q }.setWriter k v).Serial sent := by
  obtain ⟨rfl, hw, _, hi, he, h⟩ := h.writer hk
  exact .busy hi he v hv (by simp [setWriter, hw]) (hb.trans h)

theorem run (h : s.Serial sent) : (s.run k).Serial sent := by
  unfold WriteSide.run
  split
  case h_1 hk =>
    split
    case h_1 hq        => exact h.stop hk rfl hq
    case h_2 buf q hq => exact h.move hk trivial (by simp [hq, Writer.owed])
  case h_2 buf hk => exact h.move hk trivial rfl
  case h_3 hk =>
    split
    case isTrue hq => exact h.stop hk rfl hq
    case isFalse   => exact h.move hk trivial rfl
  case h_4 hk => exact (h.writer hk).right.right.left.elim
  case h_5    => exact h

theorem progress (h : s.Serial sent) : (s.progress k count).Serial sent := by
  unfold WriteSide.progress
  split
  case h_1 rest hk => exact h.move hk trivial (by
    rw [Writer.owed, Writer.owed, List.append_assoc s.socket, List.take_append_drop])
  case h_2         => exact h

theorem complete (h : s.Serial sent) : (s.complete k).Serial sent := by
  unfold WriteSide.complete
  split
  case h_1 hk => exact h.move hk trivial rfl
  case h_2    => exact h

theorem fail (h : s.Serial sent) : (s.fail k).Serial sent := by
  unfold WriteSide.fail
  split
  case h_1 rest hk =>
    obtain ⟨rfl, hw, _, hi, _, hb⟩ := h.writer hk
    refine .failed hi rfl (by simp [dropWriter, hw]) ⟨rest ++ s.writeQueue.flatten, ?_⟩
    rw [← hb, List.append_assoc]
    rfl
  case h_2 => exact h

theorem header (h : s.Serial sent) : (s.header k count).Serial sent := by
  unfold WriteSide.header
  split
  case h_1 hk => exact (h.writer hk).right.right.left.elim
  case h_2    => exact h

theorem body (h : s.Serial sent) : (s.body k data).Serial sent := by
  unfold WriteSide.body
  split
  case h_1 hk => exact (h.writer hk).right.right.left.elim
  case h_2    => exact h

theorem disconnect (h : s.Serial sent) : { s with closed := true }.Serial sent := by
  cases h
  case idle hi he hw hq hb     => exact .idle hi he hw hq hb
  case busy hi he w ho hw hb => exact .busy hi he w ho hw hb
  case failed hi he hw hb     => exact .failed hi he hw hb

theorem step (h : s.Serial sent) (hs : s.useSendfile = false) :
    (s.step op).Serial (sent ++ (enqueued [op]).flatten) := by
  cases op
  case send buf =>
    rw [show enqueued [.send buf] = [buf] from rfl, List.flatten_singleton]
    exact h.send
  all_goals rw [show enqueued [_] = [] from rfl, List.flatten_nil, List.append_nil]
  case request    => exact h.request hs
  case run        => exact h.run
  case progress   => exact h.progress
  case complete   => exact h.complete
  case fail       => exact h.fail
  case header     => exact h.header
  case body       => exact h.body
  case disconnect => exact h.disconnect

end Serial

theorem useSendfile_step : (s.step op).useSendfile = s.useSendfile := by
  cases op <;> simp only [step, send, request, run, progress, complete, fail, header, body] <;>
    (repeat' split) <;> rfl

theorem enqueued_cons : enqueued (op :: ops) = enqueued [op] ++ enqueued ops := by
  rw [enqueued, enqueued, enqueued, ← List.filterMap_append, List.singleton_append]

theorem Serial.exec (h : s.Serial sent) (hs : s.useSendfile = false) :
    (Actions.exec WriteSide.step s ops).Serial (sent ++ (enqueued ops).flatten) := by
  induction ops generalizing s sent
  case nil => simpa [enqueued] using h
  case cons op ops hi =>
    rw [Actions.exec_cons, enqueued_cons, List.flatten_append, ← List.append_assoc]
    exact hi (h.step hs) (useSendfile_step.trans hs)

-- One write is outstanding at a time, none is forgotten, and all bytes are written in their order.
theorem writes_are_serialized (ops : List Op) :
    let s := reached false ops
    (s.writers.countP fun w => decide w.Active) ≤ 1 ∧
    (s.writeQueue ≠ [] → s.error = false → ∃ w ∈ s.writers, w.OfQueue) ∧
    s.socket <+: (enqueued ops).flatten ∧
    (s.error = false →
      s.socket ++ s.writers.flatMap Writer.owed ++ s.writeQueue.flatten = (enqueued ops).flatten) := by
  intro s
  have h0 : Serial [] { useSendfile := false } := .idle rfl rfl rfl rfl rfl
  have hs : s.Serial (enqueued ops).flatten := h0.exec rfl
  cases hs
  case idle _ he hw hq hb =>
    simp [hw, hq, hb]
  case busy _ he w ho hw hb =>
    refine ⟨?_, fun _ _ => ⟨w, by simp [hw], ho⟩, ?_, fun _ => by simpa [hw] using hb⟩
    · exact hw ▸ List.countP_le_length
    · exact ⟨w.owed ++ s.writeQueue.flatten, by rw [← hb, List.append_assoc]⟩
  case failed _ he hw hb => simp [hw, he, hb]

end Queue
end WriteSide
end ThinBT
