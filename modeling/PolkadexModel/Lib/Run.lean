import Mathlib.Algebra.Order.BigOperators.Group.List
import Mathlib.Data.List.Induction

-- Runs of a machine that is driven by calls. A call that is rejected (`none`) leaves the state as
-- it was, which is how a dispatchable behaves whose storage changes are rolled back on an error.
namespace Run

variable {σ ι : Type*}

def exec (step : σ → ι → Option σ) (s : σ) (i : ι) : σ :=
  (step s i).getD s

def run (step : σ → ι → Option σ) (s : σ) (is : List ι) : σ :=
  is.foldl (exec step) s

-- The calls of a run, each with the state in which it was made.
def trace (step : σ → ι → Option σ) (s : σ) : List ι → List (σ × ι)
  | []      => []
  | i :: is => (s, i) :: trace step (exec step s i) is

-- Every call of the run meets `P` in the state in which it is made.
def Along (step : σ → ι → Option σ) (P : σ → ι → Prop) (s : σ) (is : List ι) : Prop :=
  ∀ e ∈ trace step s is, P e.1 e.2

variable {step : σ → ι → Option σ} {P : σ → ι → Prop} {s s' : σ} {i : ι} {is js : List ι}

theorem exec_of_some (h : step s i = some s') : exec step s i = s' := by
  simp [exec, h]

theorem exec_of_none (h : step s i = none) : exec step s i = s := by
  simp [exec, h]

theorem eq_exec_of_isSome (h : (step s i).isSome) : step s i = some (exec step s i) := by
  obtain ⟨s', hs⟩ := Option.isSome_iff_exists.mp h
  rw [exec_of_some hs, hs]

theorem exec_cases (step : σ → ι → Option σ) (s : σ) (i : ι) :
    (step s i = some (exec step s i)) ∨ (step s i = none ∧ exec step s i = s) := by
  cases h : step s i <;> simp [exec, h]

@[simp]
theorem run_nil : run step s [] = s :=
  rfl

@[simp]
theorem run_cons : run step s (i :: is) = run step (exec step s i) is :=
  rfl

@[simp]
theorem run_append : run step s (is ++ js) = run step (run step s is) js :=
  List.foldl_append

@[simp]
theorem trace_nil : trace step s [] = [] :=
  rfl

@[simp]
theorem trace_cons : trace step s (i :: is) = (s, i) :: trace step (exec step s i) is :=
  rfl

@[simp]
theorem trace_append : trace step s (is ++ js) = trace step s is ++ trace step (run step s is) js := by
  induction is generalizing s <;> simp_all

-- An entry of a trace is a call which was made after a part of the run.
theorem mem_trace_split (h : e ∈ trace step s is) :
    ∃ is₁ is₂, is = is₁ ++ e.2 :: is₂ ∧ e.1 = run step s is₁ := by
  induction is generalizing s with
  | nil => simp at h
  | cons i is hi =>
    simp only [trace_cons, List.mem_cons] at h
    rcases h with rfl | h
    · exact ⟨[], is, rfl, rfl⟩
    · obtain ⟨is₁, is₂, h₁, h₂⟩ := hi h
      exact ⟨i :: is₁, is₂, by simp [h₁], by simp [h₂]⟩

-- What the last call contributes to a list.
theorem filterMap_trace_append {α : Type*} (f : σ → ι → Option α) :
    (trace step s (is ++ [i])).filterMap (fun e => f e.1 e.2) =
      (trace step s is).filterMap (fun e => f e.1 e.2) ++ (f (run step s is) i).toList := by
  rw [trace_append, List.filterMap_append]
  cases h : f (run step s is) i <;> simp [h]

-- A quantity to which every call of a run contributes.
section Sum

variable {M : Type*} [AddCommMonoid M]

def total (step : σ → ι → Option σ) (f : σ → ι → M) (s : σ) (is : List ι) : M :=
  ((trace step s is).map fun e => f e.1 e.2).sum

-- The rule for a relation between the states and the quantity.
theorem total_induction (step : σ → ι → Option σ) (f : σ → ι → M) {motive : σ → M → Prop} (init : motive s m)
    (pres : ∀ s i m, motive s m → motive (exec step s i) (m + f s i)) :
    motive (run step s is) (m + total step f s is) := by
  induction is generalizing s m with
  | nil => simpa [total] using init
  | cons i is hi =>
    have h := hi (pres s i m init)
    rwa [total, trace_cons, List.map_cons, List.sum_cons, ← add_assoc]

theorem total_eq_zero_iff [PartialOrder M] [IsOrderedAddMonoid M]
    [CanonicallyOrderedAdd M] {f : σ → ι → M} :
    total step f s is = 0 ↔ Along step (fun s i => f s i = 0) s is := by
  simp only [total, List.sum_eq_zero_iff, List.forall_mem_map, Along]

end Sum

-- A fold does not change what none of its steps changes.
theorem foldl_frame {α β : Type*} {f : σ → α → σ} (g : σ → β) (h : ∀ s a, g (f s a) = g s)
    (s : σ) (l : List α) : g (l.foldl f s) = g s := by
  induction l generalizing s with
  | nil => rfl
  | cons a l hi => exact (hi (f s a)).trans (h s a)

namespace Along

theorem of_append (h : Along step P s (is ++ js)) : Along step P s is :=
  fun e he => h e (by simp [he])

theorem last (h : Along step P s (is ++ [i])) : P (run step s is) i :=
  h (run step s is, i) (by simp)

theorem cons_iff : Along step P s (i :: is) ↔ P s i ∧ Along step P (exec step s i) is :=
  List.forall_mem_cons

-- Two conditions on the calls of a run are equivalent if they are equivalent in every state that
-- meets an invariant, which each of them preserves.
theorem congr {motive : σ → Prop} (h : Along step R s is) (init : motive s)
    (hiff : ∀ s i, R s i → motive s → (P s i ↔ Q s i))
    (pres : ∀ s i, R s i → P s i → motive s → motive (exec step s i)) :
    Along step P s is ↔ Along step Q s is := by
  induction is generalizing s with
  | nil => exact iff_of_true (by simp [Along]) (by simp [Along])
  | cons i is hi =>
    obtain ⟨hr, h⟩ := cons_iff.mp h
    rw [cons_iff, cons_iff, ← hiff s i hr init]
    exact and_congr_right fun hp => hi h (pres s i hr hp init)

-- The invariant rule for runs: an invariant which holds initially, and is preserved by every call
-- that meets `P`, holds after every run whose calls meet `P`. The invariant may mention the calls
-- made so far.
theorem induction {motive : List ι → σ → Prop} (h : Along step P s is) (nil : motive [] s)
    (snoc : ∀ is i, Along step P s (is ++ [i]) → motive is (run step s is) →
      motive (is ++ [i]) (exec step (run step s is) i)) :
    motive is (run step s is) := by
  induction is using List.reverseRecOn with
  | nil => exact nil
  | append_singleton is i hi =>
    rw [run_append]
    exact snoc is i h (hi h.of_append)

-- The same rule for an invariant of the states alone.
theorem invariant {motive : σ → Prop} (h : Along step P s is) (init : motive s)
    (pres : ∀ s i, P s i → motive s → motive (exec step s i)) : motive (run step s is) :=
  h.induction (motive := fun _ => motive) init (fun _ _ h' => pres _ _ h'.last)

-- An invariant of the states holds in particular whenever a call is made.
theorem invariant_trace {motive : σ → Prop} (h : Along step P s is) (init : motive s)
    (pres : ∀ s i, P s i → motive s → motive (exec step s i)) (he : e ∈ trace step s is) : motive e.1 := by
  obtain ⟨is₁, is₂, h₁, h₂⟩ := mem_trace_split he
  subst h₁
  exact h₂ ▸ h.of_append.invariant init pres

end Along

end Run
