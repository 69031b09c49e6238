import Mathlib.Algebra.Order.Ring.Nat
import Mathlib.Data.List.Basic

-- Unsigned machine words of width `w`, as natural numbers below `2 ^ w`.
namespace Word

def max (w : ℕ) : ℕ :=
  2 ^ w - 1

def saturatingAdd (w a b : ℕ) : ℕ :=
  min (a + b) (max w)

def saturatingMul (w a b : ℕ) : ℕ :=
  min (a * b) (max w)

def wrappingAdd (w a b : ℕ) : ℕ :=
  (a + b) % 2 ^ w

-- The conversion to a narrower word which clamps what does not fit.
def saturatedInto (w a : ℕ) : ℕ :=
  min a (max w)

theorem lt_two_pow_iff : a < 2 ^ w ↔ a ≤ max w := by
  have := Nat.two_pow_pos w
  simp only [max]
  omega

theorem saturatingAdd_le_max (w a b : ℕ) : saturatingAdd w a b ≤ max w :=
  Nat.min_le_right ..

theorem saturatingAdd_eq (h : a + b ≤ max w) : saturatingAdd w a b = a + b :=
  Nat.min_eq_left h

theorem saturatingAdd_le : saturatingAdd w a b ≤ a + b :=
  Nat.min_le_left ..

theorem le_saturatingAdd (h : a ≤ max w) : a ≤ saturatingAdd w a b :=
  Nat.le_min.mpr ⟨Nat.le_add_right .., h⟩

-- A word reaches its saturated successor by one, unless it is at the maximum already.
theorem lt_saturatingAdd_one (h : a < max w) : saturatingAdd w a 1 = a + 1 :=
  saturatingAdd_eq h

theorem saturatingMul_eq_zero_iff (hw : w ≠ 0) : saturatingMul w a b = 0 ↔ a = 0 ∨ b = 0 := by
  have hmax : max w ≠ 0 := Nat.sub_ne_zero_of_lt (Nat.one_lt_two_pow hw)
  rw [saturatingMul, Nat.min_eq_zero_iff, or_iff_left hmax, Nat.mul_eq_zero]

theorem saturatingMul_eq (h : a * b ≤ max w) : saturatingMul w a b = a * b :=
  Nat.min_eq_left h

-- A product that is not at the maximum has not been cut.
theorem saturatingMul_eq_of_lt (h : saturatingMul w a b < max w) : saturatingMul w a b = a * b := by
  refine saturatingMul_eq (Nat.le_of_lt ?_)
  exact (min_lt_iff.mp h).resolve_right (Nat.lt_irrefl _)

theorem saturatingMul_mono (h : a ≤ a') (b : ℕ) : saturatingMul w a b ≤ saturatingMul w a' b :=
  min_le_min_right _ (Nat.mul_le_mul_right b h)

theorem saturatingMul_div_self (h : a ≤ max w) (b : ℕ) : saturatingMul w (a / b) b = a / b * b :=
  saturatingMul_eq ((Nat.div_mul_le_self a b).trans h)

end Word

-- A list with at most `n` elements.
structure BoundedVec (α : Type*) (n : ℕ) where
  toList : List α
  length_le : toList.length ≤ n

namespace BoundedVec

variable {α : Type*} {n : ℕ}

@[ext]
theorem ext {v w : BoundedVec α n} (h : v.toList = w.toList) : v = w := by
  cases v; cases w; simp_all

instance [DecidableEq α] : DecidableEq (BoundedVec α n) :=
  fun _ _ => decidable_of_iff _ ⟨BoundedVec.ext, congrArg toList⟩

instance : Inhabited (BoundedVec α n) where
  default := ⟨[], Nat.zero_le _⟩

@[simp]
theorem default_toList : (default : BoundedVec α n).toList = [] :=
  rfl

theorem length_append_le {v : BoundedVec α n} (h : v.toList.length < n) : (v.toList ++ [a]).length ≤ n := by
  rw [List.length_append]
  exact h

def tryPush (v : BoundedVec α n) (a : α) : Option (BoundedVec α n) :=
  if h : v.toList.length < n then some ⟨v.toList ++ [a], length_append_le h⟩ else none

theorem tryPush_eq_some {v w : BoundedVec α n} : v.tryPush a = some w ↔ w.toList = v.toList ++ [a] := by
  unfold tryPush
  split <;> simp only [Option.some.injEq, reduceCtorEq, false_iff]
  case isTrue => exact ⟨fun h => h ▸ rfl, fun h => BoundedVec.ext h.symm⟩
  case isFalse h =>
    intro hw
    have := w.length_le
    simp [hw] at this
    omega

theorem exists_tryPush {v : BoundedVec α n} (a : α) (h : v.toList.length < n) :
    ∃ w, v.tryPush a = some w :=
  ⟨_, dif_pos h⟩

end BoundedVec
