import Mathlib.Algebra.BigOperators.Finprod

open Function

-- A partial map with finitely many keys.
structure Store (κ υ : Type*) where
  get : κ → Option υ
  finite : {k | get k ≠ none}.Finite

namespace Store

variable {κ υ : Type*}

@[ext]
theorem ext {s₁ s₂ : Store κ υ} (h : ∀ k, s₁.get k = s₂.get k) : s₁ = s₂ := by
  cases s₁; cases s₂
  simp only [mk.injEq]
  exact funext h

def empty : Store κ υ where
  get _ := none
  finite := by simp

variable [DecidableEq κ]

def insert (s : Store κ υ) (k : κ) (v : υ) : Store κ υ where
  get := update s.get k (some v)
  finite := (s.finite.insert k).subset fun k' h => by
    by_cases hk : k' = k
    case pos => exact .inl hk
    case neg => exact .inr (by simpa [update_of_ne hk] using h)

def erase (s : Store κ υ) (k : κ) : Store κ υ where
  get := update s.get k none
  finite := s.finite.subset fun k' h => by
    by_cases hk : k' = k
    case pos => simp [hk] at h
    case neg => simpa [update_of_ne hk] using h

@[simp]
theorem get_insert_self (s : Store κ υ) (k : κ) (v : υ) : (s.insert k v).get k = some v :=
  update_self ..

theorem get_insert_of_ne (h : k' ≠ k) (s : Store κ υ) (v : υ) : (s.insert k v).get k' = s.get k' :=
  update_of_ne h ..

section Sum

variable {M : Type*} [AddCommGroup M] {f : υ → M}

-- The sum of what is stored. A key that is absent contributes nothing.
noncomputable def sum (s : Store κ υ) (f : υ → M) : M :=
  ∑ᶠ k, (s.get k).elim 0 f

omit [DecidableEq κ] in
theorem finite_support (s : Store κ υ) (f : υ → M) :
    (support fun k => (s.get k).elim 0 f).Finite := by
  refine s.finite.subset fun k h hn => h ?_
  simp [hn]

-- An insertion changes the sum by the difference at its key.
theorem sum_insert (s : Store κ υ) (f : υ → M) (k : κ) (v : υ) :
    (s.insert k v).sum f = s.sum f + (f v - (s.get k).elim 0 f) := by
  have hdiff : ∀ k', ((s.insert k v).get k').elim 0 f =
      (s.get k').elim 0 f + (if k' = k then f v - (s.get k).elim 0 f else 0) := by
    intro k'
    by_cases hk : k' = k
    case pos => simp [hk]
    case neg => simp [hk, get_insert_of_ne hk]
  have hfin : (support fun k' => if k' = k then f v - (s.get k).elim 0 f else 0).Finite :=
    (Set.finite_singleton k).subset fun k' h => by
      by_contra hk
      simp_all
  rw [sum, sum, finsum_congr hdiff, finsum_add_distrib (s.finite_support f) hfin,
    finsum_eq_single _ k (fun k' hk => if_neg hk), if_pos rfl]

end Sum

end Store
