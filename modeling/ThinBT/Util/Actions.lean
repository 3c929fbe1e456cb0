import Mathlib.Data.List.Basic

-- A component is given by what one elementary action does to its state. A method of the component
-- is then the list of actions it performs, and a run is the list of all actions performed so far.
namespace Actions

variable {σ α ω : Type*}

def exec (apply : σ → α → σ) : σ → List α → σ :=
  List.foldl apply

-- The actions of a list, each together with the state it is executed in.
def trace (apply : σ → α → σ) : σ → List α → List (σ × α)
  | _, []      => []
  | s, a :: as => (s, a) :: trace apply (apply s a) as

-- Every action of the list satisfies `P` in the state it is executed in.
def AllAt (apply : σ → α → σ) (P : σ → α → Prop) : σ → List α → Prop
  | _, []      => True
  | s, a :: as => P s a ∧ AllAt apply P (apply s a) as

instance AllAt.decidable (apply : σ → α → σ) (P : σ → α → Prop) [∀ s a, Decidable (P s a)] :
    (s : σ) → (as : List α) → Decidable (AllAt apply P s as)
  | _, []      => .isTrue trivial
  | s, a :: as =>
    have := AllAt.decidable apply P (apply s a) as
    inferInstanceAs (Decidable (P s a ∧ AllAt apply P (apply s a) as))

-- The actions that a list of calls performs, where `method` gives the actions of a single call.
def perform (apply : σ → α → σ) (method : ω → σ → List α) : σ → List ω → List α
  | _, []      => []
  | s, c :: cs => method c s ++ perform apply method (exec apply s (method c s)) cs

-- The state after a call.
def after (apply : σ → α → σ) (method : ω → σ → List α) (s : σ) (c : ω) : σ :=
  exec apply s (method c s)

variable {apply : σ → α → σ} {method : ω → σ → List α} {P Q : σ → α → Prop} {Inv : σ → Prop}

@[simp]
theorem exec_nil : exec apply s [] = s :=
  rfl

@[simp]
theorem exec_cons : exec apply s (a :: as) = exec apply (apply s a) as :=
  rfl

@[simp]
theorem exec_append : exec apply s (as ++ bs) = exec apply (exec apply s as) bs :=
  List.foldl_append

theorem exec_eq_self (h : ∀ s, ∀ a ∈ as, apply s a = s) : exec apply s as = s := by
  induction as generalizing s
  case nil => rfl
  case cons a as hi =>
    rw [exec_cons, h s a List.mem_cons_self]
    exact hi fun s b hb => h s b (List.mem_cons_of_mem _ hb)

-- Only one of the actions does something.
theorem exec_eq_of_mem (hn : as.Nodup) (ha : a ∈ as) (h : ∀ s, ∀ b ∈ as, b ≠ a → apply s b = s) :
    exec apply s as = apply s a := by
  obtain ⟨l, r, rfl⟩ := List.append_of_mem ha
  obtain ⟨-, hr, hd⟩ := List.nodup_append.mp hn
  have hl : ∀ b ∈ l, b ≠ a := fun b hb => hd b hb a List.mem_cons_self
  have hr : ∀ b ∈ r, b ≠ a := fun b hb => ne_of_mem_of_not_mem hb (List.nodup_cons.mp hr).left
  rw [exec_append, exec_cons, exec_eq_self fun s b hb => h s b (by simp [hb]) (hl b hb),
    exec_eq_self fun s b hb => h s b (by simp [hb]) (hr b hb)]

@[simp]
theorem allAt_nil : AllAt apply P s [] ↔ True :=
  Iff.rfl

@[simp]
theorem allAt_cons : AllAt apply P s (a :: as) ↔ P s a ∧ AllAt apply P (apply s a) as :=
  Iff.rfl

@[simp]
theorem allAt_append :
    AllAt apply P s (as ++ bs) ↔ AllAt apply P s as ∧ AllAt apply P (exec apply s as) bs := by
  induction as generalizing s <;> simp only [List.nil_append, List.cons_append, allAt_nil,
    allAt_cons, exec_nil, exec_cons, true_and]
  case cons hi => rw [hi, and_assoc]

theorem allAt_iff_trace : AllAt apply P s as ↔ ∀ x ∈ trace apply s as, P x.1 x.2 := by
  induction as generalizing s <;> simp only [trace, List.not_mem_nil, false_imp_iff, implies_true,
    allAt_nil, allAt_cons, List.mem_cons, forall_eq_or_imp]
  case cons hi => rw [hi]

theorem allAt_of_forall (h : ∀ a ∈ as, ∀ s, P s a) : AllAt apply P s as := by
  induction as generalizing s
  case nil => trivial
  case cons a as hi =>
    have ⟨ha, has⟩ := List.forall_mem_cons.mp h
    exact ⟨ha s, hi has⟩

-- No action invalidates what is required of a later one.
theorem allAt_of_pairwise (hp : as.Pairwise fun a b => ∀ s, P s b → P (apply s a) b)
    (h : ∀ a ∈ as, P s a) : AllAt apply P s as := by
  induction as generalizing s
  case nil => trivial
  case cons a as hi =>
    obtain ⟨ha, has⟩ := List.forall_mem_cons.mp h
    obtain ⟨hb, hp⟩ := List.pairwise_cons.mp hp
    exact ⟨ha, hi hp fun b hm => hb b hm s (has b hm)⟩

theorem AllAt.exists_of_mem (h : AllAt apply P s as) (ha : a ∈ as) : ∃ s, P s a := by
  induction as generalizing s
  case nil => cases ha
  case cons b as hi =>
    cases List.mem_cons.mp ha
    case inl ha => exact ⟨s, ha ▸ h.left⟩
    case inr ha => exact hi h.right ha

theorem AllAt.mono (h : AllAt apply P s as) (hpq : ∀ s a, P s a → Q s a) : AllAt apply Q s as := by
  induction as generalizing s
  case nil          => trivial
  case cons a as hi => exact ⟨hpq _ _ h.left, hi h.right⟩

theorem AllAt.and (hp : AllAt apply P s as) (hq : AllAt apply Q s as) :
    AllAt apply (fun s a => P s a ∧ Q s a) s as := by
  induction as generalizing s
  case nil          => trivial
  case cons a as hi => exact ⟨⟨hp.left, hq.left⟩, hi hp.right hq.right⟩

theorem allAt_and :
    AllAt apply (fun s a => P s a ∧ Q s a) s as ↔ AllAt apply P s as ∧ AllAt apply Q s as :=
  ⟨fun h => ⟨h.mono fun _ _ => And.left, h.mono fun _ _ => And.right⟩, fun h => h.left.and h.right⟩

theorem AllAt.invariant (hp : ∀ s a, Inv s → P s a → Inv (apply s a)) (hs : Inv s)
    (h : AllAt apply P s as) : Inv (exec apply s as) := by
  induction as generalizing s
  case nil          => exact hs
  case cons a as hi => exact hi (hp _ _ hs h.left) h.right

-- An invariant of the run may be assumed at each of its actions.
theorem AllAt.strengthen (hp : ∀ s a, Inv s → P s a → Inv (apply s a)) (hs : Inv s)
    (h : AllAt apply P s as) : AllAt apply (fun s a => Inv s ∧ P s a) s as := by
  induction as generalizing s
  case nil          => trivial
  case cons a as hi => exact ⟨⟨hs, h.left⟩, hi (hp _ _ hs h.left) h.right⟩

theorem exec_perform :
    exec apply s (perform apply method s cs) = exec (after apply method) s cs := by
  induction cs generalizing s <;> simp only [perform, exec_nil, exec_cons, exec_append]
  case cons hi => rw [hi]; rfl

theorem exists_mem_trace (h : a ∈ as) : ∃ t, (t, a) ∈ trace apply s as := by
  induction as generalizing s
  case nil => cases h
  case cons b as hi =>
    cases List.mem_cons.mp h
    case inl h => exact ⟨s, h ▸ List.mem_cons_self⟩
    case inr h =>
      obtain ⟨t, ht⟩ := hi (s := apply s b) h
      exact ⟨t, List.mem_cons_of_mem _ ht⟩

theorem mem_perform_of_mem (hc : c ∈ cs) (h : ∀ t, a ∈ method c t) :
    a ∈ perform apply method s cs := by
  induction cs generalizing s
  case nil => cases hc
  case cons d cs hi =>
    cases List.mem_cons.mp hc
    case inl hc => exact List.mem_append_left _ (hc ▸ h s)
    case inr hc => exact List.mem_append_right _ (hi hc)

theorem mem_perform (h : a ∈ perform apply method s cs) : ∃ c ∈ cs, ∃ t, a ∈ method c t := by
  induction cs generalizing s
  case nil => cases h
  case cons c cs hi =>
    cases List.mem_append.mp h
    case inl h => exact ⟨c, List.mem_cons_self, s, h⟩
    case inr h =>
      obtain ⟨d, hd, ht⟩ := hi h
      exact ⟨d, List.mem_cons_of_mem _ hd, ht⟩

-- If every legal call performs only actions that satisfy `P`, then so does every legal run.
theorem AllAt.perform {Legal : σ → ω → Prop}
    (hp : ∀ s a, Inv s → P s a → Inv (apply s a))
    (hm : ∀ s c, Inv s → Legal s c → AllAt apply P s (method c s))
    (hs : Inv s) (h : AllAt (after apply method) Legal s cs) :
    AllAt apply P s (perform apply method s cs) := by
  induction cs generalizing s
  case nil => trivial
  case cons c cs hi =>
    have hc := hm s c hs h.left
    exact allAt_append.mpr ⟨hc, hi (hc.invariant hp hs) h.right⟩

-- The same conclusion for the invariant itself.
theorem invariant_of_run {Legal : σ → ω → Prop}
    (hp : ∀ s a, Inv s → P s a → Inv (apply s a))
    (hm : ∀ s c, Inv s → Legal s c → AllAt apply P s (method c s))
    (hs : Inv s) (h : AllAt (after apply method) Legal s cs) :
    Inv (exec (after apply method) s cs) :=
  h.invariant (fun s c hs hc => (hm s c hs hc).invariant hp hs) hs

-- If each action keeps `Good` exactly when it satisfies `P`, a list of actions keeps it exactly when
-- all of them do. The actions satisfy `Q`.
theorem AllAt.exec_iff {Good : σ → Prop}
    (hp : ∀ s a, Inv s → Q s a → Inv (apply s a) ∧ (Good (apply s a) ↔ Good s ∧ P s a))
    (hs : Inv s) (h : AllAt apply Q s as) :
    Good (exec apply s as) ↔ Good s ∧ AllAt apply P s as := by
  induction as generalizing s
  case nil => exact (and_iff_left trivial).symm
  case cons a as hi =>
    obtain ⟨ha, hg⟩ := hp s a hs h.left
    rw [exec_cons, hi ha h.right, hg, allAt_cons, and_assoc]

-- If actions lead from `Good` states to `Good` states exactly when they satisfy `P`, all states of a
-- run are `Good` exactly when all of its actions do. The actions satisfy `Q`.
theorem AllAt.forall_prefix_iff {Good : σ → Prop}
    (hp : ∀ s a, Inv s → Q s a → Inv (apply s a))
    (hg : ∀ s a, Inv s → Q s a → Good s → (Good (apply s a) ↔ P s a)) (hs : Inv s) (hi : Good s)
    (h : AllAt apply Q s as) :
    (∀ before, before <+: as → Good (exec apply s before)) ↔ AllAt apply P s as := by
  induction as generalizing s
  case nil =>
    refine iff_of_true ?_ trivial
    intro before hb
    rwa [List.prefix_nil.mp hb]
  case cons a as ih =>
    have hn := hg s a hs h.left hi
    constructor
    · intro hb
      have ha : Good (apply s a) := hb [a] ⟨as, rfl⟩
      refine ⟨hn.mp ha, (ih (hp s a hs h.left) ha h.right).mp fun before hp => ?_⟩
      exact hb (a :: before) (List.cons_prefix_cons.mpr ⟨rfl, hp⟩)
    · rintro ⟨ha, has⟩ before hb
      cases before
      case nil => exact hi
      case cons b before =>
        obtain ⟨rfl, hp'⟩ := List.cons_prefix_cons.mp hb
        exact (ih (hp s b hs h.left) (hn.mpr ha) h.right).mpr has before hp'

end Actions
