import ThinBT.Util.Machine
import Mathlib.Data.List.Forall2

namespace Machine

variable {σ τ α β : Type*} {step : σ → α → Option σ} {step' : τ → β → Option τ}

-- Each step of the first machine is matched by a run of the second one. `M` tells which labels match
-- a label, and `R` which states belong together.
def Simulates (step : σ → α → Option σ) (step' : τ → β → Option τ) (P : α → Prop)
    (M : α → List β → Prop) (R : σ → τ → Prop) : Prop :=
  ∀ s a s' t, R s t → P a → step s a = some s' → ∃ bs t', M a bs ∧ run step' t bs = some t' ∧ R s' t'

theorem Simulates.run {P : α → Prop} {M : α → List β → Prop} {R : σ → τ → Prop} {as : List α}
    (h : Simulates step step' P M R) (hp : ∀ a ∈ as, P a) (ht : R s t)
    (hr : run step s as = some s') :
    ∃ bss t', List.Forall₂ M as bss ∧ Machine.run step' t bss.flatten = some t' ∧ R s' t' := by
  induction as generalizing s t
  case nil =>
    obtain rfl := Option.some.inj hr
    exact ⟨[], t, .nil, rfl, ht⟩
  case cons a as hi =>
    obtain ⟨ha, has⟩ := List.forall_mem_cons.mp hp
    obtain ⟨u, hu, hr⟩ := run_cons.mp hr
    obtain ⟨bs, v, hm, hv, hR⟩ := h s a u t ht ha hu
    obtain ⟨bss, t', hms, ht', hR'⟩ := hi has hR hr
    refine ⟨bs :: bss, t', .cons hm hms, ?_, hR'⟩
    rw [List.flatten_cons]
    exact run_append.mpr ⟨v, hv, ht'⟩

section Trace

-- The labels that stand for a run when `f` tells which ones stand for a step.
def trace (step : σ → α → Option σ) (f : σ → α → List β) : σ → List α → List β
  | _, []      => []
  | s, a :: as => f s a ++ (step s a).elim [] (trace step f · as)

variable {f : σ → α → List β} {P : σ → α → Prop} {Q : τ → β → Prop} {R : σ → τ → Prop}

theorem refines_trace (h : ∀ s a s' t, R s t → P s a → step s a = some s' →
      AllAt step' Q t (f s a) ∧ ∃ t', Machine.run step' t (f s a) = some t' ∧ R s' t')
    (hp : AllAt step P s as) (ht : R s t) (hr : Machine.run step s as = some s') :
    AllAt step' Q t (trace step f s as) ∧
      ∃ t', Machine.run step' t (trace step f s as) = some t' ∧ R s' t' := by
  induction as generalizing s t
  case nil =>
    obtain rfl := Option.some.inj hr
    exact ⟨trivial, t, rfl, ht⟩
  case cons a as hi =>
    obtain ⟨u, hu, hr⟩ := run_cons.mp hr
    obtain ⟨hq, v, hv, hR⟩ := h s a u t ht hp.left hu
    obtain ⟨hqs, t', ht', hR'⟩ := hi (hp.right u hu) hR hr
    rw [trace, hu]
    exact ⟨hq.concat hv hqs, t', run_append.mpr ⟨v, hv, ht'⟩, hR'⟩

end Trace

end Machine
