import ThinBT.Util.Machine
import ThinBT.Assembler.ChunkAssembler

namespace ThinBT

-- How far a call of `on_piece` has got.
inductive Progress
  | called
  -- The data has been copied, `fetch_or` comes next.
  | copied
  -- The bit was clear, `fetch_sub` comes next.
  | marked
  | returned (complete : Bool)
  deriving DecidableEq, Repr

structure Call where
  begin    : UInt32
  data     : List UInt8
  progress : Progress := .called
  deriving DecidableEq, Repr

-- An assembler, the memory that it copies to and the calls that threads have made of its `on_piece`.
structure Threads where
  assembler : ChunkAssembler
  memory    : List UInt8
  calls     : List Call := []
  deriving DecidableEq, Repr

namespace Threads

inductive Label
  -- A thread calls `on_piece`.
  | call (begin : UInt32) (data : List UInt8)
  -- The thread of a call executes the next step of it.
  | step (k : Nat)
  deriving DecidableEq, Repr

def proceed (s : Threads) (k : Nat) (c : Call) (progress : Progress) : Threads :=
  { s with calls := s.calls.set k { c with progress } }

-- The steps of `on_piece`. The checks read only what no call changes, so that they are made together
-- with the copy.
def advance (s : Threads) (k : Nat) (c : Call) : Option Threads :=
  match c.progress with
  | .called =>
    if s.assembler.accepts c.begin (.ofNat c.data.length) then do
      let memory ← s.assembler.write c.begin c.data s.memory
      return { s with memory }.proceed k c .copied
    else return s.proceed k c (.returned false)
  | .copied => do
    let (assembler, first) ← s.assembler.mark c.begin
    return { s with assembler }.proceed k c (if first then .marked else .returned false)
  | .marked =>
    let (assembler, complete) := s.assembler.countDown
    some ({ s with assembler }.proceed k c (.returned complete))
  | .returned _ => some s

def next (s : Threads) : Label → Option Threads
  | .call begin data => some { s with calls := s.calls ++ [{ begin, data }] }
  | .step k          =>
    match s.calls[k]? with
    | some c => s.advance k c
    | none   => some s

abbrev run : Threads → List Label → Option Threads :=
  Machine.run next

variable {s s' : Threads}

section Alone

variable {a : ChunkAssembler} {memory : List UInt8} {calls : List Call}

@[simp]
theorem proceed_last :
    proceed ⟨a, memory, calls ++ [c]⟩ calls.length c p =
      ⟨a, memory, calls ++ [{ c with progress := p }]⟩ := by
  rw [proceed, List.set_append_right _ _ (Nat.le_refl _), Nat.sub_self]
  rfl

theorem run_last : run ⟨a, memory, calls ++ [c]⟩ (.step calls.length :: ls) =
    (advance ⟨a, memory, calls ++ [c]⟩ calls.length c).bind (run · ls) := by
  rw [run, Machine.run, next, List.getElem?_concat_length]

theorem run_returned {r : Bool} : run ⟨a, memory, calls ++ [⟨begin, data, .returned r⟩]⟩
    (List.replicate n (.step calls.length)) =
      some ⟨a, memory, calls ++ [⟨begin, data, .returned r⟩]⟩ := by
  induction n
  case zero      => rfl
  case succ n hi => rw [List.replicate_succ, run_last]; exact hi

end Alone

-- The steps of a call that no other call comes between compute `on_piece`.
theorem run_alone (s : Threads) (begin : UInt32) (data : List UInt8) :
    s.run (.call begin data :: List.replicate 3 (.step s.calls.length)) =
      (s.assembler.onPiece begin data s.memory).map fun (a, memory, complete) =>
        ⟨a, memory, s.calls ++ [⟨begin, data, .returned complete⟩]⟩ := by
  obtain ⟨a, memory, calls⟩ := s
  change run ⟨a, memory, calls ++ [⟨begin, data, .called⟩]⟩ _ = _
  dsimp only
  rw [List.replicate_succ, run_last, ChunkAssembler.onPiece]
  simp only [advance]
  split
  case isFalse =>
    simp only [Option.pure_def, Option.bind_some, proceed_last]
    exact run_returned
  case isTrue =>
    simp only [Option.bind_eq_bind]
    cases a.write begin data memory
    case none => rfl
    case some memory =>
      simp only [Option.bind_some, proceed_last, Option.pure_def]
      rw [List.replicate_succ, run_last]
      simp only [advance, Option.bind_eq_bind]
      cases a.mark begin
      case none => rfl
      case some m =>
        obtain ⟨a, first⟩ := m
        simp only [Option.bind_some, proceed_last, Option.pure_def]
        cases first
        case false => exact run_returned
        case true  =>
          simp only [if_true]
          rw [List.replicate_succ, run_last]
          simp [advance]

-- What a step does to the state. A call that has returned, or has not been made, takes no steps.
inductive Moves (s : Threads) : Label → Threads → Prop
  | call   : Moves s (.call begin data) { s with calls := s.calls ++ [{ begin, data }] }
  | rest   : (∀ c, s.calls[k]? = some c → ∃ r, c.progress = .returned r) → Moves s (.step k) s
  | refuse : s.calls[k]? = some ⟨begin, data, .called⟩ →
    ¬s.assembler.accepts begin (.ofNat data.length) →
    Moves s (.step k) (s.proceed k ⟨begin, data, .called⟩ (.returned false))
  | copy   : s.calls[k]? = some ⟨begin, data, .called⟩ → s.assembler.base = some base →
    Moves s (.step k) ({ s with memory := s.memory.overwrite (base + begin.toNat) data }.proceed k
      ⟨begin, data, .called⟩ .copied)
  | mark   : s.calls[k]? = some ⟨begin, data, .copied⟩ →
    s.assembler.Marked (s.assembler.slot begin) a first →
    Moves s (.step k) ({ s with assembler := a }.proceed k ⟨begin, data, .copied⟩
      (if first then .marked else .returned false))
  | count  : s.calls[k]? = some ⟨begin, data, .marked⟩ →
    Moves s (.step k) ({ s with assembler := s.assembler.countDown.1 }.proceed k
      ⟨begin, data, .marked⟩ (.returned s.assembler.countDown.2))

theorem moves_of_next (h : s.next l = some s') : Moves s l s' := by
  cases l
  case call => cases h; exact .call
  case step k =>
    rw [next] at h
    split at h
    case h_2 hc =>
      cases h
      exact .rest fun c h => nomatch hc.symm.trans h
    case h_1 c hc =>
      obtain ⟨begin, data, progress⟩ := c
      cases progress
      case returned r =>
        cases h
        exact .rest fun c h => ⟨r, Option.some.inj (h.symm.trans hc) ▸ rfl⟩
      case called =>
        simp only [advance] at h
        split at h
        case isFalse ha => cases h; exact .refuse hc ha
        case isTrue =>
          obtain ⟨memory, hm, h⟩ := Option.bind_eq_some_iff.mp h
          obtain ⟨base, hb, _, rfl⟩ := ChunkAssembler.write_eq_some hm
          cases h
          exact .copy hc hb
      case copied =>
        obtain ⟨⟨a, first⟩, hm, h⟩ := Option.bind_eq_some_iff.mp h
        cases h
        exact .mark hc (ChunkAssembler.mark_eq_some hm)
      case marked => cases h; exact .count hc

end Threads
end ThinBT
