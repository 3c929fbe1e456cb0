import Mathlib.Data.List.Count
import Mathlib.Logic.Function.Basic

-- Demands are met one after the other, as long as the supply of what they ask for lasts.
namespace List

variable {κ : Type*} [DecidableEq κ] {f : κ → Nat} {k : κ} {ks : List κ}

def served (supply : κ → Nat) : List κ → List Bool
  | []      => []
  | k :: ks => decide (0 < supply k) :: served (Function.update supply k (supply k - 1)) ks

-- A demand is met exactly if the equal demands before it leave something.
theorem getElem?_served {i : Nat} :
    (served f ks)[i]? = ks[i]?.map fun k => decide ((ks.take i).count k < f k) := by
  induction ks generalizing f i
  case nil => rfl
  case cons k ks hi =>
    cases i
    case zero => rfl
    case succ i =>
      rw [served, getElem?_cons_succ, getElem?_cons_succ, hi]
      congr 1
      funext k'
      rw [take_succ_cons, count_cons, decide_eq_decide]
      by_cases hk : k' = k
      case pos =>
        subst hk
        rw [Function.update_self, beq_self_eq_true, if_pos rfl]
        omega
      case neg =>
        rw [Function.update_of_ne hk, if_neg (by simpa using Ne.symm hk), Nat.add_zero]

theorem countP_zip_served :
    ((ks.zip (served f ks)).countP fun x => decide (x.1 = k) && x.2) = min (ks.count k) (f k) := by
  induction ks generalizing f
  case nil => simp
  case cons k' ks hi =>
    rw [served, zip_cons_cons, countP_cons, hi, count_cons]
    by_cases hk : k' = k
    case pos =>
      subst hk
      simp only [Function.update_self, decide_true, Bool.true_and, decide_eq_true_eq,
        beq_self_eq_true, if_true]
      split <;> omega
    case neg =>
      have hb : (k' == k) = false := by simpa using hk
      simp [Function.update_of_ne (Ne.symm hk), hk, hb]

-- Everything that is in stock is delivered exactly if no more is asked for than there is.
theorem served_eq_iff :
    served f ks = ks.map (fun k => decide (0 < f k)) ↔ ∀ k ∈ ks, 0 < f k → ks.count k ≤ f k := by
  constructor
  · intro h k _ hf
    have hc : ((ks.zip (served f ks)).countP fun x => decide (x.1 = k) && x.2) = _ :=
      countP_zip_served
    have hm : ((ks.zip (served f ks)).countP fun x => decide (x.1 = k) && x.2) = ks.count k := by
      rw [h, ← map_prod_left_eq_zip, countP_map, count]
      refine countP_congr fun k' _ => ?_
      simp only [Function.comp_apply, Bool.and_eq_true, decide_eq_true_eq, beq_iff_eq]
      exact ⟨And.left, fun hk => ⟨hk, hk ▸ hf⟩⟩
    omega
  · intro h
    refine ext_getElem? fun i => ?_
    rw [getElem?_served, getElem?_map]
    cases hk : ks[i]?
    case none => rfl
    case some k =>
      rw [Option.map_some, Option.map_some, Option.some.injEq, decide_eq_decide]
      refine ⟨Nat.zero_lt_of_lt, fun hf => ?_⟩
      have hc := h k (mem_of_getElem? hk) hf
      obtain ⟨hi, he⟩ := getElem?_eq_some_iff.mp hk
      rw [← take_append_drop i ks, count_append, drop_eq_getElem_cons hi, he, count_cons_self] at hc
      omega

end List
