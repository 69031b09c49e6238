import PolkadexModel.Lib.SortedMap
import PolkadexModel.Ocex.OrderKey
import Mathlib.Data.Prod.Lex

-- Whether the comparison of orders is a total order, and what becomes of the containers that rely on it.
namespace Ocex

namespace OrderKey

def Better (a b : OrderKey) : Prop :=
  a.side = .bid ∧ b.price < a.price ∨ a.side = .ask ∧ a.price < b.price ∨
  a.price ≈ b.price ∧ a.timestamp < b.timestamp

instance (a b : OrderKey) : Decidable (a.Better b) :=
  inferInstanceAs (Decidable (_ ∧ _ ∨ _ ∧ _ ∨ _ ∧ _))

def rank (k : OrderKey) : ℚ ×ₗ ℤ :=
  toLex (if k.side = .bid then k.price.toRat else -k.price.toRat, -k.timestamp)

variable {a b c : OrderKey}

theorem better_iff (hs : a.side = b.side) : a.Better b ↔ b.rank < a.rank := by
  rw [Better, rank, rank, ← hs, Prod.Lex.toLex_lt_toLex]
  cases a.side with
  | bid => simp [Decimal.lt_iff, Decimal.equiv_iff, eq_comm]
  | ask => simp [Decimal.lt_iff, Decimal.equiv_iff, eq_comm]

theorem equiv_iff (hs : a.side = b.side) : a ≈ b ↔ a.rank = b.rank := by
  have he : a ≈ b ↔ a.price ≈ b.price ∧ a.timestamp = b.timestamp ∧ a.side = b.side := Iff.rfl
  rw [he, rank, rank, ← hs, toLex_inj, Prod.mk.injEq, neg_inj, Decimal.equiv_iff]
  cases a.side with
  | bid => simp
  | ask => simp

theorem equivalence : Equivalence fun a b : OrderKey => a ≈ b where
  refl _ := ⟨rfl, rfl, rfl⟩
  symm h := ⟨Eq.symm h.1, h.2.1.symm, h.2.2.symm⟩
  trans h h' := ⟨Decimal.equiv_iff.mpr ((Decimal.equiv_iff.mp h.1).trans (Decimal.equiv_iff.mp h'.1)),
    h.2.1.trans h'.2.1, h.2.2.trans h'.2.2⟩

theorem ordering_eq (a b : OrderKey) : a.ordering b = if a.Better b then .gt else .lt := by
  obtain ⟨price, timestamp, side⟩ := a
  rcases lt_trichotomy price.toRat b.price.toRat with h | h | h
  · have hc : compare price b.price = .lt := by rw [Decimal.compare_eq, compare_lt_iff_lt.mpr h]
    cases side <;> simp [ordering, OrderSide.cmp, hc, Better, Decimal.lt_iff, Decimal.equiv_iff, h, h.ne, h.le]
  · have hc : compare price b.price = .eq := by rw [Decimal.compare_eq, compare_eq_iff_eq.mpr h]
    cases side <;> simp [ordering, OrderSide.cmp, hc, Better, Decimal.lt_iff, Decimal.equiv_iff, h]
  · have hc : compare price b.price = .gt := by rw [Decimal.compare_eq, compare_gt_iff_gt.mpr h]
    cases side <;> simp [ordering, OrderSide.cmp, hc, Better, Decimal.lt_iff, Decimal.equiv_iff, h, h.ne', h.le]

theorem ordering_ne_eq (a b : OrderKey) : a.ordering b ≠ .eq := by
  rw [ordering_eq]
  split_ifs <;> decide

theorem ordering_eq_gt_iff (hs : a.side = b.side) : a.ordering b = .gt ↔ b.rank < a.rank := by
  rw [ordering_eq, ← better_iff hs]
  split_ifs with h <;> simp [h]

theorem ordering_eq_lt_iff (hs : a.side = b.side) : a.ordering b = .lt ↔ a.rank ≤ b.rank := by
  rw [ordering_eq, ← not_lt, ← better_iff hs]
  split_ifs with h <;> simp [h]

theorem ordering_trans (hs : a.side = b.side) (hs' : b.side = c.side) (h : a.ordering b = o)
    (h' : b.ordering c = o) : a.ordering c = o := by
  cases o with
  | lt =>
    rw [ordering_eq_lt_iff hs] at h
    rw [ordering_eq_lt_iff hs'] at h'
    exact (ordering_eq_lt_iff (hs.trans hs')).mpr (h.trans h')
  | eq => exact absurd h (ordering_ne_eq a b)
  | gt =>
    rw [ordering_eq_gt_iff hs] at h
    rw [ordering_eq_gt_iff hs'] at h'
    exact (ordering_eq_gt_iff (hs.trans hs')).mpr (h'.trans h)

theorem ordering_eq_swap_iff (hs : a.side = b.side) : a.ordering b = (b.ordering a).swap ↔ ¬a ≈ b := by
  rw [equiv_iff hs, ordering_eq, ordering_eq]
  simp only [better_iff hs, better_iff hs.symm]
  rcases lt_trichotomy a.rank b.rank with h | h | h
  · simp [h, h.not_gt, h.ne]
  · simp [h]
  · simp [h, h.not_gt, h.ne']

end OrderKey

-- What the comparison has to say of two values with keys of the same side, and of any third one.
structure LawfulAt {K : Type} (key : K → OrderKey) (cmp : K → K → Except Fault Ordering) (a b : K) : Prop where
  equal   : cmp a b = .ok .eq ↔ key a ≈ key b
  reverse : ∃ o, cmp a b = .ok o ∧ cmp b a = .ok o.swap
  trans   : ∀ c, (key b).side = (key c).side → ∀ o, cmp a b = .ok o → cmp b c = .ok o → cmp a c = .ok o
  best    : cmp a b = .ok .gt ↔ (key a).Better (key b)

theorem lawfulAt_iff {K : Type} {key : K → OrderKey} {cmp : K → K → Except Fault Ordering}
    (hcmp : ∀ a b, cmp a b = (key a).cmp (key b)) {a b : K} (hs : (key a).side = (key b).side) :
    LawfulAt key cmp a b ↔ ¬key a ≈ key b := by
  have hab : cmp a b = .ok ((key a).ordering (key b)) := by rw [hcmp, OrderKey.cmp, if_pos hs]
  have hba : cmp b a = .ok ((key b).ordering (key a)) := by rw [hcmp, OrderKey.cmp, if_pos hs.symm]
  constructor
  case mp =>
    rintro ⟨-, ⟨o, ho, ho'⟩, -, -⟩
    rw [hab, Except.ok.injEq] at ho
    rw [hba, Except.ok.injEq] at ho'
    rw [← OrderKey.ordering_eq_swap_iff hs, ho, ho', Ordering.swap_swap]
  case mpr =>
    intro hne
    refine ⟨?equal, ⟨_, hab, ?reverse⟩, fun c hs' o ho ho' => ?trans, ?best⟩
    case equal =>
      rw [hab, Except.ok.injEq]
      exact iff_of_false (OrderKey.ordering_ne_eq _ _) hne
    case reverse => rw [hba, (OrderKey.ordering_eq_swap_iff hs).mpr hne, Ordering.swap_swap]
    case trans =>
      rw [hab, Except.ok.injEq] at ho
      rw [hcmp, OrderKey.cmp, if_pos hs', Except.ok.injEq] at ho'
      rw [hcmp, OrderKey.cmp, if_pos (hs.trans hs'), OrderKey.ordering_trans hs hs' ho ho']
    case best => rw [hab, Except.ok.injEq, OrderKey.ordering_eq_gt_iff hs, OrderKey.better_iff hs]

-- The comparison is lawful exactly for keys which differ. A sorted container answers like a map exactly
-- as long as no key is used after it has been inserted.
theorem cmp_lawful_iff {Acc Sign V : Type} :
    (∀ a b : OrderKey, a.side = b.side → (LawfulAt id OrderKey.cmp a b ↔ ¬a ≈ b)) ∧
    (∀ a b : Order Acc Sign, a.side = b.side → (LawfulAt Order.key Order.cmp a b ↔ ¬a.key ≈ b.key)) ∧
    ∀ ops : List (SortedMap.Op OrderKey V),
      SortedMap.replies OrderKey.ordering [] ops = SortedMap.Map.replies (fun a b : OrderKey => a ≈ b) (fun _ => none) ops ↔
        ops.Pairwise fun a b => a.isInsert → ¬b.key ≈ a.key := by
  refine ⟨fun a b hs => lawfulAt_iff (fun _ _ => rfl) hs, fun a b hs => lawfulAt_iff (fun _ _ => rfl) hs, fun ops => ?_⟩
  rw [SortedMap.replies_eq_iff OrderKey.ordering_ne_eq OrderKey.equivalence fun _ _ _ => rfl]
  simp

namespace Mock

def bidAt (timestamp : ℤ) : OrderKey :=
  ⟨1, timestamp, .bid⟩

def entered : List (SortedMap.Op OrderKey ℕ) :=
  [.insert (bidAt 1) 10, .get (bidAt 2), .insert (bidAt 2) 20]

theorem distinct_bids_ordered :
    LawfulAt id OrderKey.cmp (bidAt 1) (bidAt 2) ∧
    SortedMap.replies OrderKey.ordering [] entered =
      SortedMap.Map.replies (fun a b : OrderKey => a ≈ b) (fun _ => none) entered :=
  ⟨((@cmp_lawful_iff ℕ ℕ ℕ).1 (bidAt 1) (bidAt 2) rfl).mpr (by decide +kernel),
    ((@cmp_lawful_iff ℕ ℕ ℕ).2.2 entered).mpr (by decide +kernel)⟩

-- A key is less than itself, and it is not found after it has been inserted.
theorem bid_not_found :
    (bidAt 1).cmp (bidAt 1) = .ok .lt ∧ ¬LawfulAt id OrderKey.cmp (bidAt 1) (bidAt 1) ∧
    SortedMap.replies OrderKey.ordering [] [.insert (bidAt 1) 10, .get (bidAt 1)] = [none, none] ∧
    SortedMap.Map.replies (fun a b : OrderKey => a ≈ b) (fun _ => none) [.insert (bidAt 1) 10, .get (bidAt 1)] =
      [none, some 10] := by
  refine ⟨by decide +kernel, fun h => ?_, by decide +kernel, by decide +kernel⟩
  have heq := h.equal.mpr (by decide +kernel)
  revert heq
  decide +kernel

end Mock

end Ocex
