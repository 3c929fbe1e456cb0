import Mathlib.Data.List.Basic

-- A machine whose steps may be undefined. Its runs are sequences of labels.
namespace Machine

variable {σ α : Type*}

def run (step : σ → α → Option σ) : σ → List α → Option σ
  | s, []      => some s
  | s, a :: as => (step s a).bind (run step · as)

-- Every step of the run satisfies `P` in the state it is taken in.
def AllAt (step : σ → α → Option σ) (P : σ → α → Prop) : σ → List α → Prop
  | _, []      => True
  | s, a :: as => P s a ∧ ∀ s' ∈ step s a, AllAt step P s' as

instance AllAt.decidable (step : σ → α → Option σ) (P : σ → α → Prop) [∀ s a, Decidable (P s a)] :
    (s : σ) → (as : List α) → Decidable (AllAt step P s as)
  | _, []      => .isTrue trivial
  | s, a :: as =>
    have := fun s' => AllAt.decidable step P s' as
    inferInstanceAs (Decidable (P s a ∧ ∀ s' ∈ step s a, AllAt step P s' as))

variable {step : σ → α → Option σ} {P Q : σ → α → Prop} {s s' : σ}

@[simp]
theorem run_nil : run step s [] = some s :=
  rfl

theorem run_cons :
    run step s (a :: as) = some s' ↔ ∃ t, step s a = some t ∧ run step t as = some s' :=
  Option.bind_eq_some_iff

theorem run_append :
    run step s (as ++ bs) = some s' ↔ ∃ t, run step s as = some t ∧ run step t bs = some s' := by
  induction as generalizing s
  case nil          => simp
  case cons a as hi =>
    simp only [List.cons_append, run_cons, hi]
    constructor
    · rintro ⟨t, ha, u, hu, hb⟩
      exact ⟨u, ⟨t, ha, hu⟩, hb⟩
    · rintro ⟨u, ⟨t, ha, hu⟩, hb⟩
      exact ⟨t, ha, u, hu, hb⟩

theorem allAt_cons (h : step s a = some s') :
    AllAt step P s (a :: as) ↔ P s a ∧ AllAt step P s' as := by
  refine and_congr_right fun _ => ⟨fun ha => ha s' h, fun ha t ht => ?_⟩
  exact Option.some.inj (h.symm.trans ht) ▸ ha

theorem AllAt.mono (h : AllAt step P s as) (hpq : ∀ s a, P s a → Q s a) : AllAt step Q s as := by
  induction as generalizing s
  case nil          => trivial
  case cons a as hi => exact ⟨hpq _ _ h.left, fun s' hs => hi (h.right s' hs)⟩

theorem AllAt.append (h : AllAt step P s (as ++ bs)) (hr : run step s as = some s') :
    AllAt step P s as ∧ AllAt step P s' bs := by
  induction as generalizing s
  case nil =>
    obtain rfl := Option.some.inj hr
    exact ⟨trivial, h⟩
  case cons a as hi =>
    have ⟨t, ha, hr⟩ := run_cons.mp hr
    have hb := (hi (h.right t ha) hr).right
    refine ⟨⟨h.left, fun t' ht' => ?_⟩, hb⟩
    obtain rfl : t' = t := Option.some.inj (ht'.symm.trans ha)
    exact (hi (h.right t' ha) hr).left

theorem AllAt.concat (ha : AllAt step P s as) (hr : run step s as = some s')
    (hb : AllAt step P s' bs) : AllAt step P s (as ++ bs) := by
  induction as generalizing s
  case nil =>
    obtain rfl := Option.some.inj hr
    exact hb
  case cons a as hi =>
    obtain ⟨t, ht, hr⟩ := run_cons.mp hr
    refine ⟨ha.left, fun u hu => hi (ha.right u hu) ?_⟩
    exact Option.some.inj (ht.symm.trans hu) ▸ hr

-- An invariant of the steps that satisfy `P` is an invariant of the runs made of such steps.
theorem AllAt.invariant (Inv : σ → Prop)
    (hp : ∀ s a s', Inv s → P s a → step s a = some s' → Inv s') (hs : Inv s)
    (h : AllAt step P s as) (hr : run step s as = some s') : Inv s' := by
  induction as generalizing s
  case nil          => exact Option.some.inj hr ▸ hs
  case cons a as hi =>
    have ⟨t, ha, hr⟩ := run_cons.mp hr
    exact hi (hp _ _ _ hs h.left ha) (h.right t ha) hr

theorem run_invariant (Inv : σ → Prop) (hi : ∀ s a s', Inv s → step s a = some s' → Inv s')
    (hs : Inv s) (hr : run step s as = some s') : Inv s' := by
  induction as generalizing s
  case nil          => exact Option.some.inj hr ▸ hs
  case cons a as ih =>
    have ⟨t, ha, hr⟩ := run_cons.mp hr
    exact ih (hi _ _ _ hs ha) hr

-- What no step can establish holds from the start.
theorem of_run (B : σ → Prop) (hb : ∀ s a s', step s a = some s' → B s' → B s)
    (hr : run step s as = some s') (h : B s') : B s := by
  by_contra hn
  exact run_invariant (¬B ·) (fun s a s' hn hs h => hn (hb s a s' hs h)) hn hr h

-- If each step keeps `Good` exactly when it satisfies `P`, a run keeps it exactly when all of its
-- steps do. The steps satisfy `Q`, and they lead to states with `B`.
theorem AllAt.run_iff (Inv Good B : σ → Prop) (hb : ∀ s a s', step s a = some s' → B s' → B s)
    (hp : ∀ s a s', Inv s → Q s a → step s a = some s' → B s' →
      Inv s' ∧ (Good s' ↔ Good s ∧ P s a))
    (hs : Inv s) (h : AllAt step Q s as) (hr : run step s as = some s') (hB : B s') :
    Inv s' ∧ (Good s' ↔ Good s ∧ AllAt step P s as) := by
  induction as generalizing s
  case nil =>
    obtain rfl := Option.some.inj hr
    exact ⟨hs, (and_iff_left trivial).symm⟩
  case cons a as hi =>
    obtain ⟨t, ha, hr⟩ := run_cons.mp hr
    obtain ⟨ht, hg⟩ := hp s a t hs h.left ha (of_run B hb hr hB)
    obtain ⟨hs', hg'⟩ := hi ht (h.right t ha) hr
    exact ⟨hs', by rw [hg', hg, allAt_cons ha, and_assoc]⟩

-- If steps lead from `Good` states to `Good` states exactly when they satisfy `P`, all states of a
-- run are `Good` exactly when all of its steps do.
theorem forall_prefix_iff (Inv Good : σ → Prop)
    (hi : ∀ s a s', Inv s → step s a = some s' → Inv s')
    (hd : ∀ s a, Inv s → step s a = none → P s a)
    (hg : ∀ s a s', Inv s → Good s → step s a = some s' → (Good s' ↔ P s a))
    (hs : Inv s) (h : Good s) :
    (∀ before, before <+: as → ∀ s', run step s before = some s' → Good s') ↔
      AllAt step P s as := by
  constructor
  · intro hb
    induction as generalizing s
    case nil          => trivial
    case cons a as ih =>
      have first (t) (ht : step s a = some t) : Good t :=
        hb [a] ⟨as, rfl⟩ t (run_cons.mpr ⟨t, ht, rfl⟩)
      refine ⟨?_, fun t ht => ih (hi s a t hs ht) (first t ht) fun before hp s' hr => ?_⟩
      · cases ha : step s a
        case none   => exact hd s a hs ha
        case some t => exact (hg s a t hs h ha).mp (first t ha)
      · exact hb (a :: before) (List.cons_prefix_cons.mpr ⟨rfl, hp⟩) s' (run_cons.mpr ⟨t, ht, hr⟩)
  · rintro ha before ⟨after, rfl⟩ s' hr
    refine ((ha.append hr).left.invariant (fun s => Inv s ∧ Good s) ?_ ⟨hs, h⟩ hr).right
    exact fun s a s' hs hp ha => ⟨hi s a s' hs.left ha, (hg s a s' hs.left hs.right ha).mpr hp⟩

-- The steps of a machine that are steps of another one.
theorem AllAt.comap {step' : τ → α → Option τ} {P : τ → α → Prop} {f : σ → τ}
    (hf : ∀ s a s', step s a = some s' → step' (f s) a = some (f s'))
    (h : AllAt step' P (f s) as) : AllAt step (fun s a => P (f s) a) s as := by
  induction as generalizing s
  case nil          => trivial
  case cons a as hi => exact ⟨h.left, fun s' hs => hi (h.right (f s') (hf s a s' hs))⟩

-- An invariant of the run may be assumed at each of its steps.
theorem AllAt.strengthen (Inv : σ → Prop)
    (hp : ∀ s a s', Inv s → P s a → step s a = some s' → Inv s') (hs : Inv s)
    (h : AllAt step P s as) : AllAt step (fun s a => Inv s ∧ P s a) s as := by
  induction as generalizing s
  case nil          => trivial
  case cons a as hi =>
    exact ⟨⟨hs, h.left⟩, fun t ht => hi (hp _ _ _ hs h.left ht) (h.right t ht)⟩

theorem AllAt.and_mem (h : AllAt step P s as) : AllAt step (fun s a => P s a ∧ a ∈ as) s as := by
  induction as generalizing s
  case nil => trivial
  case cons a as hi =>
    refine ⟨⟨h.left, List.mem_cons_self⟩, fun s' hs' => (hi (h.right s' hs')).mono ?_⟩
    exact fun _ _ hp => ⟨hp.left, List.mem_cons_of_mem _ hp.right⟩

-- Steps that are possible while an invariant holds.
theorem allAt_of_invariant (Inv : σ → Prop) (hi : ∀ s a s', Inv s → step s a = some s' → Inv s')
    (hs : Inv s) (h : ∀ a ∈ as, ∀ s, Inv s → P s a) : AllAt step P s as := by
  induction as generalizing s
  case nil => trivial
  case cons a as ih =>
    have ⟨ha, has⟩ := List.forall_mem_cons.mp h
    exact ⟨ha s hs, fun s' hs' => ih (hi s a s' hs hs') has⟩

-- A run is defined if its steps are defined while an invariant holds.
theorem AllAt.defined (Inv : σ → Prop)
    (hp : ∀ s a s', Inv s → P s a → step s a = some s' → Inv s')
    (hd : ∀ s a, Inv s → P s a → (step s a).isSome) (hs : Inv s) (h : AllAt step P s as) :
    (run step s as).isSome := by
  induction as generalizing s
  case nil => rfl
  case cons a as hi =>
    obtain ⟨t, ht⟩ := Option.isSome_iff_exists.mp (hd s a hs h.left)
    rw [run, ht, Option.bind_some]
    exact hi (hp s a t hs h.left ht) (h.right t ht)

-- The same where each step is defined and keeps the invariant.
theorem AllAt.exists_run (Inv : σ → Prop)
    (hi : ∀ s a, Inv s → P s a → ∃ s', step s a = some s' ∧ Inv s') (hs : Inv s)
    (h : AllAt step P s as) : ∃ s', run step s as = some s' ∧ Inv s' := by
  induction as generalizing s
  case nil => exact ⟨s, rfl, hs⟩
  case cons a as ih =>
    obtain ⟨t, ht, hit⟩ := hi s a hs h.left
    obtain ⟨s', hr, hs'⟩ := ih hit (h.right t ht)
    exact ⟨s', run_cons.mpr ⟨t, ht, hr⟩, hs'⟩

-- A rank that some labels lower and only calls raise is used up after so many of them.
theorem rank_eq_zero (rank : σ → Nat) (lowers calls : α → Bool)
    (hr : ∀ s a s', step s a = some s' → ¬calls a → rank s' ≤ rank s - (lowers a).toNat)
    (hc : ∀ a ∈ as, ¬calls a) (hl : rank s ≤ as.countP lowers) (h : run step s as = some s') :
    rank s' = 0 := by
  induction as generalizing s
  case nil => exact Nat.le_zero.mp (Option.some.inj h ▸ hl)
  case cons a as ih =>
    obtain ⟨ha, has⟩ := List.forall_mem_cons.mp hc
    obtain ⟨t, ht, h⟩ := run_cons.mp h
    have hrank := hr s a t ht ha
    rw [List.countP_cons] at hl
    refine ih has ?_ h
    cases hla : lowers a <;> simp only [hla, Bool.toNat_false, Bool.toNat_true, if_true,
      Bool.false_eq_true, if_false] at hl hrank <;> omega

-- An invariant that counts the steps, up to a bound. The steps are defined while it holds.
theorem exists_run_of_counted (Inv : Nat → σ → Prop) {Q : α → Prop} {m bound : Nat}
    (hi : ∀ m s a, m < bound → Inv m s → Q a → ∃ s', step s a = some s' ∧ Inv (m + 1) s')
    (hs : Inv m s) (hq : ∀ a ∈ as, Q a) (hl : m + as.length ≤ bound) :
    ∃ s', run step s as = some s' ∧ Inv (m + as.length) s' := by
  induction as generalizing s m
  case nil => exact ⟨s, rfl, hs⟩
  case cons a as ih =>
    obtain ⟨ha, has⟩ := List.forall_mem_cons.mp hq
    rw [List.length_cons] at hl
    obtain ⟨t, ht, hit⟩ := hi m s a (by omega) hs ha
    obtain ⟨s', hr, hs'⟩ := ih hit has (by omega)
    refine ⟨s', run_cons.mpr ⟨t, ht, hr⟩, ?_⟩
    rwa [List.length_cons, Nat.add_comm as.length, ← Nat.add_assoc]

end Machine
