import PolkadexModel.Lib.DecimalArith
import PolkadexModel.Lib.Except
import PolkadexModel.Ocex.Settlement

namespace Ocex.OffchainState

variable {Acc Sign : Type} [DecidableEq Acc]

section Entries

variable {s s' : OffchainState Acc} {account account' : Acc} {asset asset' : AssetId}
  {balance deducted : Decimal} {isWithdrawal : Bool}

@[simp]
theorem entry_setEntry_self : (s.setEntry account asset balance).entry account asset = some balance := by
  simp [entry, setEntry]

theorem entry_setEntry_of_ne (h : account' ≠ account ∨ asset' ≠ asset) :
    (s.setEntry account asset balance).entry account' asset' = s.entry account' asset' := by
  by_cases ha : account' = account
  case neg => simp [entry, setEntry, Store.get_insert_of_ne ha]
  case pos =>
    subst ha
    have hne := h.resolve_left (· rfl)
    cases hg : s.balances.get account' <;> simp [entry, setEntry, hg, hne]

theorem entry_setEntry : (s.setEntry account asset balance).entry account' asset' =
    if account' = account ∧ asset' = asset then some balance else s.entry account' asset' := by
  split_ifs with h
  · rw [h.1, h.2, entry_setEntry_self]
  · exact entry_setEntry_of_ne (not_and_or.mp h)

omit [DecidableEq Acc] in
theorem getBalance_eq (h : s.entry account asset = some b) : s.getBalance account asset = b := by
  simp [getBalance, h]

variable [Decimal.Arith]

def added (s : OffchainState Acc) (account : Acc) (asset : AssetId)
    (balance : Decimal) : Decimal :=
  (s.entry account asset).elim balance fun total => Order.roundingOff (total.saturatingAdd balance)

theorem addBalance_eq :
    s.addBalance account asset balance = s.setEntry account asset (s.added account asset balance) := by
  simp only [addBalance, added]
  cases s.entry account asset <;> rfl

theorem subBalance_eq_ok :
    s.subBalance account asset balance isWithdrawal = .ok (s', deducted) ↔
    ∃ b, s.entry account asset = some b ∧ deductible b balance isWithdrawal = .ok deducted ∧
      s' = s.setEntry account asset (Order.roundingOff (b.saturatingSub deducted)) := by
  simp only [subBalance, entry]
  cases s.balances.get account with
  | none => simp
  | some balances =>
    cases hb : balances asset with
    | none => simp [hb]
    | some b =>
      cases hd : deductible b balance isWithdrawal with
      | error e => simp [hb, hd, bind, Except.bind]
      | ok d =>
        simp only [hb, hd, Option.bind_some, bind, Except.bind, pure, Except.pure, Except.ok.injEq,
          Prod.mk.injEq, Option.some.injEq, exists_eq_left']
        constructor
        · rintro ⟨h, e⟩
          exact ⟨e, by rw [← h, e]⟩
        · rintro ⟨e, h⟩
          exact ⟨by rw [h, e], e⟩

-- Outside of a withdrawal the full amount is deducted, and the account has it.
theorem deductible_eq_ok : deductible b balance false = .ok deducted ↔ deducted = balance ∧ balance ≤ b := by
  simp only [deductible, Bool.false_eq_true, if_false]
  split_ifs with h <;> rw [Decimal.lt_iff] at h <;> rw [Decimal.le_iff]
  · simpa using fun _ => h
  · simp only [Except.ok.injEq, not_lt.mp h, and_true]
    exact eq_comm

end Entries

section Total

variable {s : OffchainState Acc} {account : Acc} {asset asset' : AssetId}
  {balance : Decimal}

-- The total of an asset over all accounts.
noncomputable def total (s : OffchainState Acc) (asset : AssetId) : ℚ :=
  ∑ᶠ account, (s.getBalance account asset).toRat

omit [DecidableEq Acc] in
theorem total_eq_sum :
    s.total asset = s.balances.sum fun balances => ((balances asset).getD 0).toRat := by
  refine finsum_congr fun account => ?_
  cases h : s.balances.get account <;> simp [getBalance, entry, h]

theorem total_setEntry : (s.setEntry account asset balance).total asset' = s.total asset' +
    if asset' = asset then balance.toRat - (s.getBalance account asset).toRat else 0 := by
  rw [total_eq_sum, total_eq_sum, setEntry, Store.sum_insert, add_right_inj]
  split_ifs with h
  · subst h
    cases hg : s.balances.get account <;> simp [getBalance, entry, hg]
  · cases hg : s.balances.get account <;> simp [h]

end Total

end Ocex.OffchainState

open Decimal

namespace Ocex

-- A change of a balance: an addition, or a subtraction which is not a withdrawal.
structure Posting (Acc : Type) where
  account : Acc
  asset : AssetId
  amount : Decimal
  isCredit : Bool

variable {Acc : Type} [DecidableEq Acc] [Decimal.Arith]

namespace Posting

def change (p : Posting Acc) : ℚ :=
  if p.isCredit then p.amount.toRat else -p.amount.toRat

def balance (s : OffchainState Acc) (p : Posting Acc) : ℚ :=
  (s.getBalance p.account p.asset).toRat

-- What is cut off from the new balance. A new entry is not rounded off.
def loss (s : OffchainState Acc) (p : Posting Acc) : ℚ :=
  (s.entry p.account p.asset).elim 0 fun b => Decimal.truncLoss 9 (b.toRat + p.change)

def net (asset : AssetId) (ps : List (Posting Acc)) : ℚ :=
  (ps.map fun p => if p.asset = asset then p.change else 0).sum

def amounts (ps : List (Posting Acc)) : ℚ :=
  (ps.map (·.amount.toRat)).sum

end Posting

namespace OffchainState

def post (s : OffchainState Acc) (p : Posting Acc) :
    Except Fault (OffchainState Acc) :=
  if p.isCredit then .ok (s.addBalance p.account p.asset p.amount) else do
    let (s, _) ← s.subBalance p.account p.asset p.amount false
    return s

def postAll (s : OffchainState Acc) (ps : List (Posting Acc)) :
    Except Fault (OffchainState Acc) :=
  ps.foldlM post s

def lossAlong (asset : AssetId) : OffchainState Acc → List (Posting Acc) → ℚ
  | _, [] => 0
  | s, p :: ps =>
    (if p.asset = asset then p.loss s else 0) + (s.post p).toOption.elim 0 (lossAlong asset · ps)

end OffchainState

open OffchainState

variable {s s' : OffchainState Acc} {p q : Posting Acc} {ps : List (Posting Acc)}
  {asset : AssetId} {k : ℕ}

omit [DecidableEq Acc] [Decimal.Arith] in
theorem Posting.loss_nonneg (s : OffchainState Acc) (p : Posting Acc) : 0 ≤ p.loss s := by
  cases h : s.entry p.account p.asset with
  | none   => simp [loss, h]
  | some b => simpa [loss, h] using truncLoss_nonneg ..

theorem OffchainState.lossAlong_nonneg (asset : AssetId) (s : OffchainState Acc)
    (ps : List (Posting Acc)) : 0 ≤ s.lossAlong asset ps := by
  induction ps generalizing s with
  | nil => exact le_rfl
  | cons p ps hi =>
    refine add_nonneg ?_ ?_
    · split_ifs
      · exact p.loss_nonneg s
      · exact le_rfl
    · cases (s.post p).toOption with
      | none    => exact le_rfl
      | some s' => exact hi s'

-- The new balance can be computed without an overflow, and is not negative.
structure Posting.Exact (s : OffchainState Acc) (p : Posting Acc) : Prop where
  nonneg : 0 ≤ p.balance s + p.change
  fits : ∃ z : Decimal, z.toRat = p.balance s + p.change

theorem Posting.Exact.post (he : p.Exact s) (h : s.post p = .ok s') :
    ∃ b : Decimal, s' = s.setEntry p.account p.asset b ∧
      b.toRat = p.balance s + p.change - p.loss s := by
  obtain ⟨z, hz⟩ := he.fits
  have hn := he.nonneg
  cases hc : p.isCredit with
  | true =>
    simp only [OffchainState.post, hc, if_true, Except.ok.injEq] at h
    refine ⟨s.added p.account p.asset p.amount, by rw [← h, addBalance_eq], ?_⟩
    simp only [balance, change, loss, getBalance, hc, if_true] at hz hn ⊢
    cases hb : s.entry p.account p.asset with
    | none => simp [added, hb]
    | some b =>
      rw [hb, Option.getD_some] at hz hn
      have hadd := toRat_saturatingAdd hz
      simp only [added, hb, Option.elim_some, Option.getD_some, Order.roundingOff]
      rw [toRat_truncate 9 (by rwa [hadd]), hadd, truncLoss]
      ring
  | false =>
    simp only [OffchainState.post, hc, Bool.false_eq_true, if_false, bind_eq_ok,
      pure_eq_ok, Prod.exists] at h
    obtain ⟨t, d, hsub, ht⟩ := h
    obtain ⟨b, hb, hd, hs⟩ := subBalance_eq_ok.mp hsub
    obtain ⟨hd, _⟩ := deductible_eq_ok.mp hd
    refine ⟨_, by rw [← ht, hs], ?_⟩
    simp only [balance, change, loss, getBalance, hc, hb, Bool.false_eq_true, if_false,
      Option.getD_some, Option.elim_some, ← sub_eq_add_neg] at hz hn ⊢
    have hsub := toRat_saturatingSub hz
    rw [hd, Order.roundingOff, toRat_truncate 9 (by rwa [hsub]), hsub, truncLoss]
    ring

theorem OffchainState.amount_le_of_post (h : s.post p = .ok s') (hc : p.isCredit = false) :
    p.amount.toRat ≤ p.balance s := by
  simp only [post, hc, Bool.false_eq_true, if_false, bind_eq_ok, pure_eq_ok,
    Prod.exists] at h
  obtain ⟨t, d, hsub, _⟩ := h
  obtain ⟨b, hb, hd, _⟩ := subBalance_eq_ok.mp hsub
  obtain ⟨_, hle⟩ := deductible_eq_ok.mp hd
  rw [Posting.balance, getBalance_eq hb]
  exact le_iff.mp hle

-- All numbers are multiples of `10 ^ -k`, and small enough that their sums are decimal numbers.
structure Fits (k : ℕ) (s : OffchainState Acc) (ps : List (Posting Acc)) : Prop where
  nine_le : 9 ≤ k
  le : k ≤ 28
  amount_nonneg : ∀ p ∈ ps, 0 ≤ p.amount.toRat
  amount_onGrid : ∀ p ∈ ps, Decimal.OnGrid k p.amount.toRat
  balance_nonneg : ∀ p ∈ ps, 0 ≤ p.balance s
  balance_onGrid : ∀ p ∈ ps, Decimal.OnGrid k (p.balance s)
  bound : ∀ p ∈ ps, (p.balance s + Posting.amounts ps) * 10 ^ k < 2 ^ 96

namespace Fits

omit [DecidableEq Acc] [Decimal.Arith] in
theorem change_onGrid (h : Fits k s (p :: ps)) : Decimal.OnGrid k p.change := by
  have hg := h.amount_onGrid p (by simp)
  simp only [Posting.change]
  split_ifs
  · exact hg
  · obtain ⟨n, hn⟩ := hg
    exact ⟨-n, by rw [hn]; push_cast; ring⟩

omit [DecidableEq Acc] [Decimal.Arith] in
theorem change_le (h : Fits k s (p :: ps)) : p.change ≤ p.amount.toRat := by
  have hn := h.amount_nonneg p (by simp)
  simp only [Posting.change]
  split_ifs <;> linarith

omit [DecidableEq Acc] [Decimal.Arith] in
theorem tail_amounts_nonneg (h : Fits k s (p :: ps)) : 0 ≤ Posting.amounts ps :=
  List.sum_nonneg (by simpa using fun p hp => h.amount_nonneg p (by simp [hp]))

omit [DecidableEq Acc] [Decimal.Arith] in
theorem amounts_cons : Posting.amounts (p :: ps) = p.amount.toRat + Posting.amounts ps := by
  simp [Posting.amounts]

theorem exact (h : Fits k s (p :: ps)) (hp : s.post p = .ok s') : p.Exact s := by
  have hbal := h.balance_nonneg p (by simp)
  have hamt := h.amount_nonneg p (by simp)
  have hnonneg : 0 ≤ p.balance s + p.change := by
    cases hc : p.isCredit with
    | true  => simpa [Posting.change, hc] using add_nonneg hbal hamt
    | false => simpa [Posting.change, hc] using amount_le_of_post hp hc
  refine ⟨hnonneg, ?_⟩
  have hgrid := (h.balance_onGrid p (by simp)).add h.change_onGrid
  refine hgrid.exists_decimal h.le ?_
  rw [abs_of_nonneg hnonneg]
  have hb := h.bound p (by simp)
  rw [amounts_cons] at hb
  have hle : p.balance s + p.change ≤ p.balance s + (p.amount.toRat + Posting.amounts ps) := by
    linarith [h.change_le, h.tail_amounts_nonneg]
  exact (mul_le_mul_of_nonneg_right hle (by positivity)).trans_lt hb

omit [Decimal.Arith] in
theorem balance_setEntry (q : Posting Acc) (b : Decimal) :
    q.balance (s.setEntry p.account p.asset b) =
      if q.account = p.account ∧ q.asset = p.asset then b.toRat else q.balance s := by
  simp only [Posting.balance, getBalance, entry_setEntry]
  split_ifs <;> rfl

theorem tail (h : Fits k s (p :: ps)) (hp : s.post p = .ok s') : Fits k s' ps := by
  have he := h.exact hp
  obtain ⟨b, hs, hb⟩ := he.post hp
  have hloss := p.loss_nonneg s
  -- The new balance is truncated from the exact one, or is the exact one.
  have hb' : b.toRat = p.balance s + p.change ∨
      b.toRat = truncRat 9 (p.balance s + p.change) := by
    rw [hb, Posting.loss]
    cases hentry : s.entry p.account p.asset with
    | none   => exact .inl (by simp)
    | some c =>
      refine .inr ?_
      rw [Posting.balance, getBalance_eq hentry, Option.elim_some, truncLoss]
      ring
  have hnonneg : 0 ≤ b.toRat := by
    cases hb' with
    | inl h => exact h ▸ he.nonneg
    | inr h => exact h ▸ truncRat_nonneg he.nonneg
  have hgrid : Decimal.OnGrid k b.toRat := by
    cases hb' with
    | inl hb' => exact hb' ▸ (h.balance_onGrid p (by simp)).add h.change_onGrid
    | inr hb' => exact hb' ▸ .truncRat h.nine_le _
  subst hs
  refine ⟨h.nine_le, h.le, fun q hq => h.amount_nonneg q (by simp [hq]),
    fun q hq => h.amount_onGrid q (by simp [hq]), fun q hq => ?_, fun q hq => ?_, fun q hq => ?_⟩
  all_goals
    rw [balance_setEntry]
    split_ifs with heq
  · exact hnonneg
  · exact h.balance_nonneg q (by simp [hq])
  · exact hgrid
  · exact h.balance_onGrid q (by simp [hq])
  · refine lt_of_le_of_lt (mul_le_mul_of_nonneg_right ?_ (by positivity)) (h.bound p (by simp))
    rw [amounts_cons]
    linarith [h.change_le]
  · refine lt_of_le_of_lt (mul_le_mul_of_nonneg_right ?_ (by positivity)) (h.bound q (by simp [hq]))
    rw [amounts_cons]
    linarith [h.amount_nonneg p (by simp)]

theorem total (h : Fits k s ps) (hp : s.postAll ps = .ok s') :
    s'.total asset = s.total asset + Posting.net asset ps - s.lossAlong asset ps := by
  induction ps generalizing s with
  | nil =>
    cases foldlM_nil_eq_ok.mp hp
    simp [Posting.net, lossAlong]
  | cons p ps hi =>
    obtain ⟨t, ht, hp⟩ := foldlM_cons_eq_ok.mp hp
    obtain ⟨b, hs, hb⟩ := (h.exact ht).post ht
    rw [hi (h.tail ht) hp, lossAlong, ht]
    simp only [Posting.net, List.map_cons, List.sum_cons, Except.toOption, Option.elim_some]
    rw [hs, total_setEntry, hb, Posting.balance]
    by_cases ha : p.asset = asset
    case pos =>
      rw [if_pos ha.symm, if_pos ha, if_pos ha]
      ring
    case neg =>
      rw [if_neg (Ne.symm ha), if_neg ha, if_neg ha]
      ring

end Fits

end Ocex

-- What the rounding takes from a balance over time.
namespace Ocex

open List OffchainState

section Drift

variable {Acc : Type} [DecidableEq Acc] [Decimal.Arith]
  {s s' : OffchainState Acc} {p : Posting Acc} {ps : List (Posting Acc)}
  {account : Acc} {asset : AssetId}

omit [DecidableEq Acc] [Decimal.Arith] in
theorem Posting.loss_le (s : OffchainState Acc) (p : Posting Acc) : p.loss s ≤ 1 / 10 ^ 9 := by
  cases h : s.entry p.account p.asset with
  | none => simp [loss, h]
  | some b => simpa [loss, h] using (Decimal.truncLoss_lt 9 (b.toRat + p.change)).le

omit [DecidableEq Acc] [Decimal.Arith] in
theorem Posting.loss_le_balance (h : 0 ≤ p.balance s + p.change) : p.loss s ≤ p.balance s + p.change := by
  rw [balance, getBalance] at h ⊢
  cases hb : s.entry p.account p.asset with
  | none =>
    rw [hb] at h
    simpa [loss, hb] using h
  | some b =>
    rw [hb, Option.getD_some] at h
    have hnonneg := Decimal.truncRat_nonneg (k := 9) h
    rw [loss, hb, Option.elim_some, Option.getD_some, Decimal.truncLoss]
    linarith

-- The sum of a balance and the amount of a posting is a decimal number.
def Posting.Representable (s : OffchainState Acc) (p : Posting Acc) : Prop :=
  ∃ z : Decimal, z.toRat = p.balance s + p.change

theorem Posting.Representable.exact (hr : p.Representable s) (h : s.post p = .ok s') (hb : 0 ≤ p.balance s)
    (hp : 0 ≤ p.amount.toRat) : p.Exact s := by
  refine ⟨?_, hr⟩
  cases hc : p.isCredit with
  | true =>
    rw [change, hc, if_pos rfl]
    exact add_nonneg hb hp
  | false =>
    have hle := amount_le_of_post h hc
    rw [change, hc, if_neg (by decide)]
    linarith

theorem Posting.Exact.drift (he : p.Exact s) (h : s.post p = .ok s') :
    p.balance s + p.change - 1 / 10 ^ 9 ≤ p.balance s' ∧ p.balance s' ≤ p.balance s + p.change ∧
      0 ≤ p.balance s' := by
  obtain ⟨b, hs', hb⟩ := he.post h
  have hbalance : p.balance s' = b.toRat := by
    rw [balance, hs', getBalance_eq entry_setEntry_self]
  have hle := p.loss_le s
  have hnonneg := p.loss_nonneg s
  have hbound := Posting.loss_le_balance he.nonneg
  rw [hbalance, hb]
  refine ⟨?_, ?_, ?_⟩ <;> linarith

-- The postings which are made to one balance. The additions and subtractions on the way are exact.
structure Postings (account : Acc) (asset : AssetId) (s : OffchainState Acc)
    (ps : List (Posting Acc)) : Prop where
  target : ∀ p ∈ ps, p.account = account ∧ p.asset = asset
  nonneg : ∀ p ∈ ps, 0 ≤ p.amount.toRat
  exact : ∀ before p after t, ps = before ++ p :: after → s.postAll before = .ok t → p.Representable t

theorem Postings.nil : Postings account asset s [] where
  target _ hp := absurd hp not_mem_nil
  nonneg _ hp := absurd hp not_mem_nil
  exact before _ _ _ heq := by cases before <;> cases heq

theorem Postings.cons (ht : p.account = account ∧ p.asset = asset) (hp : 0 ≤ p.amount.toRat)
    (hr : p.Representable s) (hs : s.post p = .ok s') (hps : Postings account asset s' ps) :
    Postings account asset s (p :: ps) := by
  refine ⟨forall_mem_cons.mpr ⟨ht, hps.target⟩, forall_mem_cons.mpr ⟨hp, hps.nonneg⟩, ?_⟩
  intro before q after t heq ht
  cases before with
  | nil =>
    cases heq
    cases foldlM_nil_eq_ok.mp ht
    exact hr
  | cons p' before =>
    cases heq
    obtain ⟨u, hu, ht⟩ := foldlM_cons_eq_ok.mp ht
    cases hs.symm.trans hu
    exact hps.exact before q after t rfl ht

theorem Postings.tail (h : Postings account asset s (p :: ps)) (hp : s.post p = .ok s') :
    Postings account asset s' ps  where
  target q hq := h.target q (mem_cons_of_mem _ hq)
  nonneg q hq := h.nonneg q (mem_cons_of_mem _ hq)
  exact before q after t heq ht := h.exact (p :: before) q after t (by rw [heq, cons_append])
    (foldlM_cons_eq_ok.mpr ⟨s', hp, ht⟩)

-- The run lemma. Every posting takes less than the last decimal place of a balance.
theorem drift_bounded (hps : Postings account asset s ps) (hinit : 0 ≤ (s.getBalance account asset).toRat)
    (h : s.postAll ps = .ok s') :
    (s.getBalance account asset).toRat + (ps.map (·.change)).sum - ps.length / 10 ^ 9 ≤
      (s'.getBalance account asset).toRat ∧
    (s'.getBalance account asset).toRat ≤ (s.getBalance account asset).toRat + (ps.map (·.change)).sum ∧
    0 ≤ (s'.getBalance account asset).toRat ∧
    ∀ account' asset', account' ≠ account ∨ asset' ≠ asset → s'.entry account' asset' = s.entry account' asset' := by
  induction ps generalizing s with
  | nil =>
    cases foldlM_nil_eq_ok.mp h
    simpa using hinit
  | cons p ps ih =>
    obtain ⟨t, ht, hrest⟩ := foldlM_cons_eq_ok.mp h
    obtain ⟨rfl, rfl⟩ := hps.target p mem_cons_self
    have hexact := (hps.exact [] p ps s rfl rfl).exact ht hinit (hps.nonneg p mem_cons_self)
    obtain ⟨hlow, hhigh, hnonneg⟩ := hexact.drift ht
    obtain ⟨hlow', hhigh', hnonneg', hframe⟩ := ih (hps.tail ht) hnonneg hrest
    rw [map_cons, sum_cons, length_cons]
    push_cast
    rw [add_div]
    simp only [Posting.balance] at hlow hhigh
    refine ⟨by linarith, by linarith, hnonneg', fun account' asset' hne => ?_⟩
    obtain ⟨b, rfl, -⟩ := hexact.post ht
    rw [hframe account' asset' hne, entry_setEntry_of_ne hne]

end Drift

namespace Mock

attribute [local instance] Decimal.HalfEven.arith

theorem natAbs_one_lt : (1 : ℤ).natAbs < 2 ^ 96 := by
  decide

theorem nine_le_scale : 9 ≤ 28 := by
  decide

def roundedPostings : List (Posting Account) :=
  [⟨2, .polkadex, ⟨15, 10, by decide, by decide⟩, true⟩, ⟨2, .polkadex, ⟨16, 10, by decide, by decide⟩, true⟩,
    ⟨2, .polkadex, ⟨1, 9, natAbs_one_lt, nine_le_scale⟩, false⟩]

theorem postings_rounded : Postings 2 .polkadex (OffchainState.empty : OffchainState Account) roundedPostings := by
  refine .cons ⟨rfl, rfl⟩ (by decide +kernel) ⟨⟨15, 10, by decide, by decide⟩, by decide +kernel⟩ rfl ?_
  refine .cons ⟨rfl, rfl⟩ (by decide +kernel) ⟨⟨31, 10, by decide, by decide⟩, by decide +kernel⟩ rfl ?_
  exact .cons ⟨rfl, rfl⟩ (by decide +kernel) ⟨⟨2, 9, by decide, by decide⟩, by decide +kernel⟩ rfl .nil

-- The exact sum is above the balance by a tenth of the last decimal place.
theorem drift_of_rounded_postings : ∃ s', OffchainState.empty.postAll roundedPostings = .ok s' ∧
    (s'.getBalance 2 .polkadex).toRat = 2 / 10 ^ 9 ∧
    0 + (roundedPostings.map (·.change)).sum - (3 : ℕ) / 10 ^ 9 ≤ (s'.getBalance 2 .polkadex).toRat ∧
    (s'.getBalance 2 .polkadex).toRat ≤ 0 + (roundedPostings.map (·.change)).sum := by
  have hinit : ((OffchainState.empty : OffchainState Account).getBalance 2 .polkadex).toRat = 0 := Decimal.toRat_zero
  refine ⟨_, rfl, by decide +kernel, ?_⟩
  obtain ⟨hlow, hhigh, -⟩ := drift_bounded postings_rounded hinit.ge rfl
  rw [hinit] at hlow hhigh
  exact ⟨hlow, hhigh⟩

end Mock

end Ocex
