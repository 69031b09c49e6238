import Mathlib.Algebra.BigOperators.Finprod

open Function

-- Loops over the keys of a map which only change the value of the key that they are at.
namespace Updates

variable {K V : Type*} [DecidableEq K]

def modify (f : V → V) (k : K) (m : K → V) : K → V :=
  update m k (f (m k))

@[simp]
theorem modify_self (f : V → V) (k : K) (m : K → V) : modify f k m k = f (m k) :=
  update_self ..

theorem modify_of_ne (h : k' ≠ k) (f : V → V) (m : K → V) : modify f k m k' = m k' :=
  update_of_ne h ..

-- An entry of an extended map is the new one, or it was there before.
theorem update_eq_some {m : K → Option V} :
    update m k (some v) k' = some v' ↔ k' = k ∧ v = v' ∨ k' ≠ k ∧ m k' = some v' := by
  by_cases hk : k' = k
  · simp [hk]
  · simp [hk]

-- What happens to a value only depends on how often the loop gets to its key.
theorem foldl_modify_apply (f : V → V) (l : List K) (m : K → V) (k : K) :
    l.foldl (fun m k => modify f k m) m k = f^[l.count k] (m k) := by
  induction l generalizing m with
  | nil => rfl
  | cons k' l hi =>
    rw [List.foldl_cons, hi]
    by_cases hk : k = k'
    · subst hk
      rw [modify_self, List.count_cons_self, iterate_succ_apply]
    · rw [modify_of_ne hk, List.count_cons_of_ne (Ne.symm hk)]

theorem foldl_modify_of_nodup (f : V → V) {l : List K} (h : l.Nodup) (m : K → V) (k : K) :
    l.foldl (fun m k => modify f k m) m k = if k ∈ l then f (m k) else m k := by
  rw [foldl_modify_apply, h.count]
  split <;> rfl

-- The sum of the values of a map which is zero almost everywhere.
section Sum

variable {M : Type*} [AddCommMonoid M] {f : K → M}

theorem finite_support_update (hf : f.support.Finite) (k : K) (v : M) :
    (update f k v).support.Finite := by
  refine (hf.insert k).subset fun i hi => ?_
  by_cases hk : i = k
  · exact .inl hk
  · rw [mem_support, update_of_ne hk] at hi
    exact .inr hi

-- The change of one value changes the sum by as much.
theorem finsum_update (hf : f.support.Finite) (k : K) (v : M) :
    ∑ᶠ i, update f k v i + f k = ∑ᶠ i, f i + v := by
  have hS : f.support ⊆ ↑(insert k hf.toFinset) := by simp
  have hS' : (update f k v).support ⊆ ↑(insert k hf.toFinset) := by
    intro i hi
    by_cases hk : i = k
    · simp [hk]
    · rw [mem_support, update_of_ne hk] at hi
      simpa [hk] using hi
  rw [finsum_eq_sum_of_support_subset _ hS', finsum_eq_sum_of_support_subset _ hS,
    ← Finset.add_sum_erase _ _ (Finset.mem_insert_self k _),
    ← Finset.add_sum_erase _ f (Finset.mem_insert_self k _), update_self]
  have hrest : ∑ i ∈ (insert k hf.toFinset).erase k, update f k v i =
      ∑ i ∈ (insert k hf.toFinset).erase k, f i :=
    Finset.sum_congr rfl fun i hi => update_of_ne (Finset.ne_of_mem_erase hi) ..
  rw [hrest]
  ac_rfl

end Sum

end Updates
