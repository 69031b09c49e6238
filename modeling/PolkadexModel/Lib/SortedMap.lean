import Mathlib.Data.List.Basic

-- A map whose entries are kept in the order of a comparison, as the maps of the standard library are.
-- The search for a key starts at the least one, and it ends where the comparison says less or equal.
namespace SortedMap

variable {K V : Type*}

inductive Op (K V : Type*)
  | get (k : K)
  | insert (k : K) (v : V)
  | remove (k : K)

namespace Op

def key : Op K V → K
  | get k | insert k _ | remove k => k

def isInsert : Op K V → Bool
  | insert _ _ => true
  | _          => false

end Op

section Container

variable (cmp : K → K → Ordering)

def get (k : K) : List (K × V) → Option V
  | []     => none
  | e :: l =>
    match cmp k e.1 with
    | .lt => none
    | .eq => some e.2
    | .gt => get k l

def insert (k : K) (v : V) : List (K × V) → List (K × V)
  | []     => [(k, v)]
  | e :: l =>
    match cmp k e.1 with
    | .lt => (k, v) :: e :: l
    | .eq => (e.1, v) :: l
    | .gt => e :: insert k v l

def remove (k : K) : List (K × V) → List (K × V)
  | []     => []
  | e :: l =>
    match cmp k e.1 with
    | .lt => e :: l
    | .eq => l
    | .gt => e :: remove k l

def apply (l : List (K × V)) : Op K V → List (K × V)
  | .get _      => l
  | .insert k v => insert cmp k v l
  | .remove k   => remove cmp k l

-- Every operation is answered with the value that the key had before it.
def replies (l : List (K × V)) : List (Op K V) → List (Option V)
  | []        => []
  | op :: ops => get cmp op.key l :: replies (apply cmp l op) ops

end Container

-- The map which the container stands for. Equivalent keys have the same value.
section Map

variable (r : K → K → Prop) [DecidableRel r]

def Map.apply (m : K → Option V) : Op K V → K → Option V
  | .get _      => m
  | .insert k v => fun k' => if r k' k then some v else m k'
  | .remove k   => fun k' => if r k' k then none else m k'

def Map.replies (m : K → Option V) : List (Op K V) → List (Option V)
  | []        => []
  | op :: ops => m op.key :: replies (apply r m op) ops

variable {r} {m : K → Option V} (hm : ∀ a b, r a b → m a = m b)

include hm

theorem Map.apply_congr (hr : Equivalence r) (op : Op K V) (a b : K) (hab : r a b) :
    apply r m op a = apply r m op b := by
  have hiff (k : K) : r a k ↔ r b k := ⟨hr.trans (hr.symm hab), hr.trans hab⟩
  cases op with
  | get k => exact hm a b hab
  | insert k v | remove k => simp only [apply, hiff, hm a b hab]

theorem Map.apply_eq_none_iff (hnone : m op.key = none) (k : K) :
    apply r m op k = none ↔ m k = none ∧ (op.isInsert → ¬r k op.key) := by
  cases op with
  | get k' => simp [apply, Op.isInsert]
  | insert k' v =>
    simp only [apply, Op.isInsert, Op.key, forall_const]
    split_ifs with hk <;> simp [hk]
  | remove k' =>
    simp only [apply, Op.isInsert, Bool.false_eq_true, false_implies, and_true]
    split_ifs with hk
    · exact iff_of_true rfl ((hm k k' hk).trans hnone)
    · rfl

end Map

section Unequal

variable {cmp : K → K → Ordering} (hcmp : ∀ a b, cmp a b ≠ .eq)

include hcmp

theorem get_eq_none (k : K) (l : List (K × V)) : get cmp k l = none := by
  induction l with
  | nil => rfl
  | cons e l hi =>
    rw [get]
    cases h : cmp k e.1 with
    | lt => rfl
    | eq => exact absurd h (hcmp k e.1)
    | gt => exact hi

variable {r : K → K → Prop} [DecidableRel r]

-- If the comparison never finds two keys equal, the container answers like a map only as long as no key
-- is used again after it has been inserted.
theorem replies_eq_iff (hr : Equivalence r) (hm : ∀ a b, r a b → m a = m b) (l : List (K × V))
    (ops : List (Op K V)) : replies cmp l ops = Map.replies r m ops ↔
      (∀ op ∈ ops, m op.key = none) ∧ ops.Pairwise fun a b => a.isInsert → ¬r b.key a.key := by
  induction ops generalizing l m with
  | nil => simp [replies, Map.replies]
  | cons op ops hi =>
    rw [replies, Map.replies, get_eq_none hcmp, List.cons.injEq, eq_comm, List.forall_mem_cons, List.pairwise_cons,
      and_assoc]
    refine and_congr_right fun hnone => ?_
    rw [hi (Map.apply_congr hm hr op)]
    simp only [Map.apply_eq_none_iff hm hnone, forall_and, and_assoc]

end Unequal

end SortedMap
