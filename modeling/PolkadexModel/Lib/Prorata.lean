import Mathlib.Tactic.Linarith
import Mathlib.Tactic.Ring

-- A balance that is paid out in proportion to the shares in it. Every claim is rounded down, and what
-- remains belongs to the other shares.
structure Pot where
  balance : ℕ
  shares : ℕ

namespace Pot

def part (p : Pot) (n : ℕ) : ℕ :=
  p.balance * n / p.shares

def claim (p : Pot) (n : ℕ) : Pot where
  balance := p.balance - p.part n
  shares := p.shares - n

-- An amount is the part of some shares, up to the rounding of this claim and of `k` earlier ones.
structure InProportion (p : Pot) (k n amount : ℕ) : Prop where
  lt : p.balance * n < (amount + 1) * p.shares
  le : amount * p.shares ≤ p.balance * n + k * p.shares

-- What remains of a pot after `k` claims is at least in proportion, and at most one unit more than that
-- for every claim.
structure Rest (k : ℕ) (p q : Pot) : Prop where
  ge : p.balance * q.shares ≤ q.balance * p.shares
  le : q.balance * p.shares ≤ p.balance * q.shares + k * p.shares

variable {p q : Pot} {k n : ℕ}

theorem part_mul_le (p : Pot) (n : ℕ) : p.part n * p.shares ≤ p.balance * n :=
  Nat.div_mul_le_self ..

theorem lt_part_succ_mul (h : 0 < p.shares) (n : ℕ) : p.balance * n < (p.part n + 1) * p.shares := by
  rw [mul_comm (p.part n + 1)]
  exact Nat.lt_mul_div_succ _ h

theorem part_le (h : n ≤ p.shares) : p.part n ≤ p.balance :=
  Nat.div_le_of_le_mul (by nlinarith)

theorem Rest.refl (p : Pot) : Rest 0 p p :=
  ⟨le_rfl, by simp⟩

theorem Rest.part (h : Rest k p q) (hp : 0 < p.shares) (hq : 0 < q.shares) (hn : n ≤ q.shares) :
    p.InProportion k n (q.part n) := by
  constructor
  case lt =>
    refine Nat.lt_of_mul_lt_mul_right (a := q.shares) ?_
    calc p.balance * n * q.shares = n * (p.balance * q.shares) := by ring
      _ ≤ n * (q.balance * p.shares) := Nat.mul_le_mul_left _ h.ge
      _ = q.balance * n * p.shares := by ring
      _ < (q.part n + 1) * q.shares * p.shares := Nat.mul_lt_mul_of_pos_right (lt_part_succ_mul hq n) hp
      _ = (q.part n + 1) * p.shares * q.shares := by ring
  case le =>
    refine Nat.le_of_mul_le_mul_right (c := q.shares) ?_ hq
    calc q.part n * p.shares * q.shares = q.part n * q.shares * p.shares := by ring
      _ ≤ q.balance * n * p.shares := Nat.mul_le_mul_right _ (q.part_mul_le n)
      _ = n * (q.balance * p.shares) := by ring
      _ ≤ n * (p.balance * q.shares + k * p.shares) := Nat.mul_le_mul_left _ h.le
      _ = p.balance * n * q.shares + k * p.shares * n := by ring
      _ ≤ p.balance * n * q.shares + k * p.shares * q.shares :=
        Nat.add_le_add_left (Nat.mul_le_mul_left _ hn) _
      _ = (p.balance * n + k * p.shares) * q.shares := by ring

theorem Rest.claim (h : Rest k p q) (hp : 0 < p.shares) (hq : 0 < q.shares) (hn : n ≤ q.shares) :
    Rest (k + 1) p (q.claim n) := by
  obtain ⟨r, hr⟩ := Nat.exists_eq_add_of_le (part_le hn)
  obtain ⟨m, hm⟩ := Nat.exists_eq_add_of_le hn
  have hclaim : q.claim n = ⟨r, m⟩ := by
    rw [Pot.claim, hm, Nat.add_sub_cancel_left, Nat.sub_eq_of_eq_add' hr]
  have hge := h.ge
  have hle := h.le
  have hlt := (h.part hp hq hn).lt
  rw [hr, hm] at hge hle
  rw [hclaim]
  constructor
  case ge =>
    -- The remaining shares do not lose by the rounding.
    have hrest : q.part n * m ≤ r * n := by
      have hmul := q.part_mul_le n
      rw [hm, hr] at hmul
      linarith
    refine Nat.le_of_mul_le_mul_right (c := n + m) ?_ (hm ▸ hq)
    calc p.balance * m * (n + m) = m * (p.balance * (n + m)) := by ring
      _ ≤ m * ((q.part n + r) * p.shares) := Nat.mul_le_mul_left _ hge
      _ = (q.part n * m + r * m) * p.shares := by ring
      _ ≤ (r * n + r * m) * p.shares := by gcongr
      _ = r * p.shares * (n + m) := by ring
  case le =>
    show r * p.shares ≤ p.balance * m + (k + 1) * p.shares
    linarith

end Pot
