import PolkadexModel.Ocex.Inventory
import PolkadexModel.Ocex.Theorems.Executability

open List Decimal Ocex.OffchainState

namespace Ocex

open Decimal (FaithfulArith OnGrid)

variable {Acc Auth W : Type}

def amountOf (l : List (AssetId × Decimal)) (asset : AssetId) : ℚ :=
  (l.map fun e => if e.1 = asset then e.2.toRat else 0).sum

-- Amounts that are not negative, with at most `k` decimal places.
def Places (k : ℕ) (l : List (AssetId × Decimal)) : Prop :=
  ∀ e ∈ l, 0 ≤ e.2.toRat ∧ OnGrid k e.2.toRat

section Amounts

variable {k : ℕ} {l : List (AssetId × Decimal)} {asset : AssetId}

theorem amountOf_cons (e : AssetId × Decimal) (l : List (AssetId × Decimal)) :
    amountOf (e :: l) asset = (if e.1 = asset then e.2.toRat else 0) + amountOf l asset := by
  simp [amountOf]

theorem amountOf_append (l l' : List (AssetId × Decimal)) :
    amountOf (l ++ l') asset = amountOf l asset + amountOf l' asset := by
  simp [amountOf]

theorem amountOf_flatMap {α : Type} (f : α → List (AssetId × Decimal)) (l : List α) :
    amountOf (l.flatMap f) asset = (l.map fun a => amountOf (f a) asset).sum := by
  induction l with
  | nil => rfl
  | cons a l hi => rw [flatMap_cons, amountOf_append, hi, map_cons, sum_cons]

theorem amountOf_nonneg (h : ∀ e ∈ l, 0 ≤ e.2.toRat) : 0 ≤ amountOf l asset := by
  refine sum_nonneg fun q hq => ?_
  obtain ⟨e, he, rfl⟩ := mem_map.mp hq
  split_ifs
  · exact h e he
  · exact le_rfl

theorem amountOf_onGrid (h : Places k l) : OnGrid k (amountOf l asset) := by
  induction l with
  | nil => exact ⟨0, by simp [amountOf]⟩
  | cons e l hi =>
    obtain ⟨he, hl⟩ := forall_mem_cons.mp h
    rw [amountOf_cons]
    refine OnGrid.add ?_ (hi hl)
    split_ifs
    · exact he.2
    · exact ⟨0, by simp⟩

theorem amountOf_eq_zero_iff (h : ∀ e ∈ l, 0 ≤ e.2.toRat) :
    amountOf l asset = 0 ↔ ∀ e ∈ l, e.1 = asset → e.2.toRat = 0 := by
  induction l with
  | nil => simp [amountOf]
  | cons e l hi =>
    rw [forall_mem_cons] at h ⊢
    have hrest : 0 ≤ amountOf l asset := amountOf_nonneg h.2
    have hfirst : 0 ≤ if e.1 = asset then e.2.toRat else 0 := by
      split_ifs
      · exact h.1
      · exact le_rfl
    rw [amountOf_cons, add_eq_zero_iff_of_nonneg hfirst hrest, hi h.2]
    simp

def held (inventory : Std.TreeMap AssetId Decimal) (asset : AssetId) : ℚ :=
  (inventory[asset]?.getD 0).toRat

theorem exists_decimal_of_le (hk : k ≤ 28) (hg : OnGrid k q) (h₀ : 0 ≤ q) (hle : q ≤ r)
    (hfit : r * 10 ^ k ≤ 2 ^ 96 - 1) : ∃ z : Decimal, z.toRat = q := by
  have hmul : q * 10 ^ k ≤ r * 10 ^ k := by gcongr
  exact hg.exists_decimal hk (by rw [abs_of_nonneg h₀]; linarith)

variable [Decimal.Arith]

theorem held_addToInventory {inventory : Std.TreeMap AssetId Decimal} (h : e.1 = asset → ∃ z : Decimal, z.toRat = held inventory asset + e.2.toRat) :
    held (addToInventory inventory e) asset =
      held inventory asset + if e.1 = asset then e.2.toRat else 0 := by
  by_cases ha : e.1 = asset
  case neg =>
    simp only [held, addToInventory]
    split <;> simp [Std.TreeMap.getElem?_insert, ha]
  case pos =>
    obtain ⟨z, hz⟩ := h ha
    subst ha
    simp only [held, addToInventory] at hz ⊢
    cases hi : inventory[e.1]? with
    | none => simp
    | some total =>
      rw [hi, Option.getD_some] at hz
      simp [toRat_saturatingAdd hz]

theorem held_foldl_addToInventory (inventory : Std.TreeMap AssetId Decimal) (hk : k ≤ 28)
    (h₀ : 0 ≤ held inventory asset) (hg : OnGrid k (held inventory asset)) (hl : Places k l)
    (hfit : (held inventory asset + amountOf l asset) * 10 ^ k ≤ 2 ^ 96 - 1) :
    held (l.foldl addToInventory inventory) asset = held inventory asset + amountOf l asset := by
  induction l generalizing inventory with
  | nil => simp [amountOf]
  | cons e l hi =>
    obtain ⟨he, hl⟩ := forall_mem_cons.mp hl
    rw [amountOf_cons, ← add_assoc] at hfit
    have hrest : 0 ≤ amountOf l asset := amountOf_nonneg fun e he => (hl e he).1
    have hsum : e.1 = asset → ∃ z : Decimal, z.toRat = held inventory asset + e.2.toRat := by
      intro ha
      rw [if_pos ha] at hfit
      exact exists_decimal_of_le hk (hg.add he.2) (add_nonneg h₀ he.1) (le_add_of_nonneg_right hrest) hfit
    have hstep := held_addToInventory hsum
    rw [foldl_cons, amountOf_cons, ← add_assoc, ← hstep]
    refine hi _ ?nonneg ?grid hl (hstep ▸ hfit)
    case nonneg =>
      rw [hstep]
      split_ifs
      · exact add_nonneg h₀ he.1
      · simpa using h₀
    case grid =>
      rw [hstep]
      split_ifs
      · exact hg.add he.2
      · simpa using hg

end Amounts

variable [Ord Acc] {cfg : Config}

-- What is held by accounts that are not main accounts of the exchange.
noncomputable def outside (chain : State Acc Auth W cfg) (s : OffchainState Acc)
    (asset : AssetId) : ℚ :=
  ∑ᶠ account, if (chain.accounts account).isSome then 0 else (s.getBalance account asset).toRat

section Ledger

variable {chain : State Acc Auth W cfg} {s : OffchainState Acc} {asset : AssetId}

omit [Ord Acc] in
theorem finite_balances (s : OffchainState Acc) (asset : AssetId) :
    (Function.support fun account => (s.getBalance account asset).toRat).Finite := by
  refine s.balances.finite.subset fun account h hn => h ?_
  simp [getBalance, entry, hn]

theorem amountOf_balances (keys : InventoryKeys chain s) (main : Acc) :
    amountOf ((keys.assets main).map fun asset => (asset, s.getBalance main asset)) asset =
      (s.getBalance main asset).toRat := by
  have hd : ((keys.assets main).map fun asset => (asset, s.getBalance main asset)).Pairwise
      fun x y => x.1 ≠ y.1 := pairwise_map.mpr (keys.nodup_assets main)
  rw [amountOf, Trees.sum_ite hd toRat (a := asset) (o := s.entry main asset)]
  · cases h : s.entry main asset <;> simp [getBalance, h]
  · intro b
    simp only [mem_map, Prod.mk.injEq]
    constructor
    · rintro ⟨_, hm, rfl, rfl⟩
      obtain ⟨b, hb⟩ := Option.isSome_iff_exists.mp ((keys.mem_assets main _).mp hm)
      rw [hb, getBalance, hb, Option.getD_some]
    · intro hb
      exact ⟨asset, (keys.mem_assets main asset).mpr (by simp [hb]), rfl, getBalance_eq hb⟩

theorem total_eq_registered (keys : InventoryKeys chain s) :
    s.total asset = amountOf (registeredAmounts keys) asset + outside chain s asset := by
  classical
  have hsum : amountOf (registeredAmounts keys) asset = ∑ᶠ account,
      if (chain.accounts account).isSome then (s.getBalance account asset).toRat else 0 := by
    rw [registeredAmounts, amountOf_flatMap, map_congr_left fun main _ => amountOf_balances keys main,
      ← sum_toFinset _ keys.nodup_accountIds, finsum_eq_sum_of_support_subset]
    · refine Finset.sum_congr rfl fun account ha => ?_
      rw [if_pos ((keys.mem_accountIds account).mp (mem_toFinset.mp ha))]
    · intro account ha
      simp only [Function.mem_support, ne_eq, ite_eq_right_iff, not_forall] at ha
      obtain ⟨hs, _⟩ := ha
      exact mem_toFinset.mpr ((keys.mem_accountIds account).mpr hs)
  have hfin := finite_balances s asset
  rw [hsum, outside, ← finsum_add_distrib (hfin.subset ?left) (hfin.subset ?right), total]
  case left =>
    intro account ha h
    simp_all
  case right =>
    intro account ha h
    simp_all
  refine finsum_congr fun account => ?_
  split_ifs <;> simp

end Ledger

variable [PalletAccounts Acc] [Balances Acc W]

-- The custody agrees with the ledger: it holds the balances of all accounts, the deposits which are
-- not imported yet, and the withdrawals which were taken from the ledger and are not paid yet. The
-- amounts have at most `k` decimal places, and can be added without rounding them.
structure Balanced (chain : State Acc Auth W cfg) (trie : Trie Acc)
    (unpaid : List (Withdrawal Acc)) (k : ℕ) : Prop where
  agrees : ∀ asset ∈ chain.allowlistedToken, (chain.custodyBalance asset : ℚ) / 10 ^ 12 =
    trie.state.total asset + amountOf (chain.queuedDeposits trie.loadStateInfo) asset +
      amountOf (unpaid.map fun w => (w.asset, w.amount)) asset
  balances : ∀ account asset, 0 ≤ (trie.state.getBalance account asset).toRat ∧
    OnGrid k (trie.state.getBalance account asset).toRat
  deposits : Places k (chain.queuedDeposits trie.loadStateInfo)
  withdrawals : ∀ w ∈ unpaid, 0 ≤ w.amount.toRat
  places : 12 ≤ k ∧ k ≤ 28
  fits : ∀ asset ∈ chain.allowlistedToken, ((chain.custodyBalance asset : ℚ) / 10 ^ 12 +
    amountOf (chain.queuedDeposits trie.loadStateInfo) asset) * 10 ^ k ≤ 2 ^ 96 - 1

section Deviation

variable {chain : State Acc Auth W cfg} {trie : Trie Acc}
  {unpaid : List (Withdrawal Acc)} {k : ℕ} {asset : AssetId}

-- The balance in units, if it can be converted.
def State.custodyUnits [Decimal.Arith] (chain : State Acc Auth W cfg)
    (asset : AssetId) : Decimal :=
  (chain.getOnchainBalance asset).toOption.getD 0

namespace Balanced

variable (h : Balanced chain trie unpaid k)
include h

theorem queued_nonneg (asset : AssetId) :
    0 ≤ amountOf (chain.queuedDeposits trie.loadStateInfo) asset :=
  amountOf_nonneg fun e he => (h.deposits e he).1

theorem unpaid_nonneg (asset : AssetId) :
    0 ≤ amountOf (unpaid.map fun w => (w.asset, w.amount)) asset :=
  amountOf_nonneg (by simpa using h.withdrawals)

theorem held_outside_nonneg (account : Acc) (asset : AssetId) :
    0 ≤ if (chain.accounts account).isSome then 0 else (trie.state.getBalance account asset).toRat := by
  split_ifs
  · exact le_rfl
  · exact (h.balances account asset).1

theorem outside_nonneg (asset : AssetId) : 0 ≤ outside chain trie.state asset :=
  finsum_nonneg fun account => h.held_outside_nonneg account asset

theorem outside_eq_zero_iff (asset : AssetId) : outside chain trie.state asset = 0 ↔
    ∀ account, chain.accounts account = none → (trie.state.getBalance account asset).toRat = 0 := by
  constructor
  · intro hzero account ha
    have hle := single_le_finsum account ((finite_balances trie.state asset).subset ?_)
      fun account => h.held_outside_nonneg account asset
    · rw [← outside, hzero, ha] at hle
      exact le_antisymm (by simpa using hle) (h.balances account asset).1
    · intro account ha hb
      simp_all
  · intro hall
    refine (finsum_congr fun account => ?_).trans finsum_zero
    cases ha : chain.accounts account with
    | none => simpa [ha] using hall account ha
    | some info => simp

theorem custodyBalance_lt (ha : asset ∈ chain.allowlistedToken) :
    chain.custodyBalance asset < 2 ^ 96 := by
  have hq := h.queued_nonneg asset
  have hpow : (10 : ℚ) ^ 12 ≤ 10 ^ k := pow_le_pow_right₀ (by norm_num) h.places.1
  have hle : (chain.custodyBalance asset : ℚ) ≤ 2 ^ 96 - 1 :=
    calc (chain.custodyBalance asset : ℚ) = chain.custodyBalance asset / 10 ^ 12 * 10 ^ 12 := by field_simp
      _ ≤ (chain.custodyBalance asset / 10 ^ 12 +
          amountOf (chain.queuedDeposits trie.loadStateInfo) asset) * 10 ^ k := by gcongr; linarith
      _ ≤ 2 ^ 96 - 1 := h.fits asset ha
  have hlt : (chain.custodyBalance asset : ℚ) < 2 ^ 96 := by linarith
  exact_mod_cast hlt

variable [FaithfulArith]

omit [FaithfulArith] in
theorem onGrid_custody (asset : AssetId) : OnGrid k ((chain.custodyBalance asset : ℚ) / 10 ^ 12) :=
  OnGrid.mono ⟨chain.custodyBalance asset, by push_cast; rfl⟩ h.places.1

omit [FaithfulArith] in
theorem places_registered (keys : InventoryKeys chain trie.state) :
    Places k (registeredAmounts keys) := by
  intro e he
  simp only [registeredAmounts, mem_flatMap, mem_map] at he
  obtain ⟨main, _, a, _, rfl⟩ := he
  exact h.balances main a

theorem getOnchainBalance_eq (ha : asset ∈ chain.allowlistedToken) :
    chain.getOnchainBalance asset = .ok (chain.custodyUnits asset) ∧
      (chain.custodyUnits asset).toRat = chain.custodyBalance asset / 10 ^ 12 := by
  obtain ⟨x, hx⟩ := exists_divUnit (h.custodyBalance_lt ha)
  have hu : chain.custodyUnits asset = x := by
    rw [State.custodyUnits, State.getOnchainBalance, hx]
    rfl
  exact ⟨hu ▸ hx, hu ▸ (toRat_of_divUnit hx).1⟩

theorem held_onchainInventory : ∃ inventory, chain.onchainInventory trie.loadStateInfo = .ok inventory ∧
    ∀ asset ∈ chain.allowlistedToken, held inventory asset = chain.custodyBalance asset / 10 ^ 12 +
      amountOf (chain.queuedDeposits trie.loadStateInfo) asset := by
  have hunits : ∀ asset ∈ chain.allowlistedToken.toList,
      chain.getOnchainBalance asset = .ok (chain.custodyUnits asset) ∧
        (chain.custodyUnits asset).toRat = chain.custodyBalance asset / 10 ^ 12 :=
    fun asset ha => h.getOnchainBalance_eq (Std.TreeSet.mem_toList.mp ha)
  have hloop := Except.foldlM_eq_ok (f := fun inventory asset => do
      return addToInventory inventory (asset, ← chain.getOnchainBalance asset))
    (g := fun inventory asset => addToInventory inventory (asset, chain.custodyUnits asset))
    (l := chain.allowlistedToken.toList) (fun asset ha inventory => by rw [(hunits asset ha).1]; rfl) ∅
  rw [← foldl_map (f := fun asset => (asset, chain.custodyUnits asset))] at hloop
  refine ⟨_, bind_eq_ok.mpr ⟨_, hloop, rfl⟩, fun asset ha => ?_⟩
  have hcustody : amountOf (chain.allowlistedToken.toList.map fun asset =>
      (asset, chain.custodyUnits asset)) asset = chain.custodyBalance asset / 10 ^ 12 := by
    have hm := Std.TreeSet.mem_toList.mpr ha
    have hd : (chain.allowlistedToken.toList.map fun asset =>
        (asset, chain.custodyUnits asset)).Pairwise fun x y => x.1 ≠ y.1 :=
      pairwise_map.mpr (Trees.nodup_toList _)
    rw [← (hunits asset hm).2]
    exact Trees.sum_ite_of_mem hd toRat (mem_map.mpr ⟨asset, hm, rfl⟩)
  have hempty : held ∅ asset = 0 := by simp [held]
  have hplaces : Places k ((chain.allowlistedToken.toList.map fun asset =>
      (asset, chain.custodyUnits asset)) ++ chain.queuedDeposits trie.loadStateInfo) := by
    refine forall_mem_append.mpr ⟨fun e he => ?_, h.deposits⟩
    obtain ⟨a, ha, rfl⟩ := mem_map.mp he
    rw [(hunits a ha).2]
    exact ⟨by positivity, h.onGrid_custody a⟩
  have hfit := h.fits asset ha
  rw [← hcustody, ← amountOf_append] at hfit ⊢
  rw [← foldl_append, held_foldl_addToInventory _ h.places.2 hempty.ge ?grid hplaces ?fit,
    hempty, zero_add]
  case grid => exact hempty ▸ ⟨0, by simp⟩
  case fit => rwa [hempty, zero_add]

theorem held_offchainInventory (keys : InventoryKeys chain trie.state)
    (ha : asset ∈ chain.allowlistedToken) :
    held (offchainInventory keys) asset = amountOf (registeredAmounts keys) asset := by
  have hempty : held ∅ asset = 0 := by simp [held]
  have hle : amountOf (registeredAmounts keys) asset ≤ chain.custodyBalance asset / 10 ^ 12 +
      amountOf (chain.queuedDeposits trie.loadStateInfo) asset := by
    have hsum := h.agrees asset ha
    rw [total_eq_registered keys] at hsum
    linarith [h.queued_nonneg asset, h.unpaid_nonneg asset, h.outside_nonneg asset]
  have hfit : amountOf (registeredAmounts keys) asset * 10 ^ k ≤ 2 ^ 96 - 1 :=
    (mul_le_mul_of_nonneg_right hle (by positivity)).trans (h.fits asset ha)
  have hsum := held_foldl_addToInventory ∅ h.places.2 hempty.ge (hempty ▸ ⟨0, by simp⟩)
    (h.places_registered keys) (by rwa [hempty, zero_add])
  rwa [hempty, zero_add] at hsum

theorem deviation_eq (keys : InventoryKeys chain trie.state) : ∃ deviation,
    calculateInventoryDeviation trie keys = .ok deviation ∧ ∀ asset ∈ chain.allowlistedToken,
      ∃ d, deviation[asset]? = some d ∧ d.toRat =
        2 * amountOf (chain.queuedDeposits trie.loadStateInfo) asset + outside chain trie.state asset +
          amountOf (unpaid.map fun w => (w.asset, w.amount)) asset := by
  obtain ⟨onchain, hon, hheld⟩ := h.held_onchainInventory
  refine ⟨_, bind_eq_ok.mpr ⟨onchain, hon, rfl⟩, fun asset ha => ?_⟩
  refine ⟨_, (Trees.getElem?_foldl_insert _ _ _ asset).trans
    (if_pos (Std.TreeSet.mem_toList.mpr ha)), ?_⟩
  have hsum := h.agrees asset ha
  rw [total_eq_registered keys] at hsum
  have hdiff : held onchain asset - held (offchainInventory keys) asset =
      2 * amountOf (chain.queuedDeposits trie.loadStateInfo) asset + outside chain trie.state asset +
        amountOf (unpaid.map fun w => (w.asset, w.amount)) asset := by
    rw [hheld asset ha, h.held_offchainInventory keys ha]
    linarith
  have hgrid : OnGrid k (held onchain asset - held (offchainInventory keys) asset) := by
    rw [hheld asset ha, h.held_offchainInventory keys ha]
    exact ((h.onGrid_custody asset).add (amountOf_onGrid h.deposits)).sub
      (amountOf_onGrid (h.places_registered keys))
  have hreg : 0 ≤ held (offchainInventory keys) asset := by
    rw [h.held_offchainInventory keys ha]
    exact amountOf_nonneg fun e he => (h.places_registered keys e he).1
  obtain ⟨z, hz⟩ := exists_decimal_of_le h.places.2 hgrid
    (by linarith [h.queued_nonneg asset, h.unpaid_nonneg asset, h.outside_nonneg asset])
    (sub_le_self _ hreg) (hheld asset ha ▸ h.fits asset ha)
  exact (toRat_saturatingSub hz).trans hdiff

end Balanced

-- Nothing is on its way into the ledger or out of it, and nothing of it belongs to other accounts than
-- the main accounts, such as the pot of the fees.
structure AtRest (chain : State Acc Auth W cfg) (trie : Trie Acc)
    (unpaid : List (Withdrawal Acc)) : Prop where
  deposits : ∀ e ∈ chain.queuedDeposits trie.loadStateInfo, e.1 ∈ chain.allowlistedToken → e.2 ≈ 0
  others : ∀ asset ∈ chain.allowlistedToken, ∀ account, chain.accounts account = none →
    trie.state.getBalance account asset ≈ 0
  withdrawals : ∀ w ∈ unpaid, w.asset ∈ chain.allowlistedToken → w.amount ≈ 0

theorem Balanced.atRest_iff (h : Balanced chain trie unpaid k) : AtRest chain trie unpaid ↔
    ∀ asset ∈ chain.allowlistedToken, amountOf (chain.queuedDeposits trie.loadStateInfo) asset = 0 ∧
      outside chain trie.state asset = 0 ∧
      amountOf (unpaid.map fun w => (w.asset, w.amount)) asset = 0 := by
  have hzero (x : Decimal) : x ≈ 0 ↔ x.toRat = 0 := by rw [equiv_iff, toRat_zero]
  have hqueued (asset : AssetId) : amountOf (chain.queuedDeposits trie.loadStateInfo) asset = 0 ↔ _ :=
    amountOf_eq_zero_iff fun e he => (h.deposits e he).1
  have hunpaid (asset : AssetId) :
      amountOf (unpaid.map fun w => (w.asset, w.amount)) asset = 0 ↔ _ :=
    amountOf_eq_zero_iff (by simpa using h.withdrawals)
  simp only [hqueued, hunpaid, h.outside_eq_zero_iff, forall_mem_map]
  constructor
  · intro hr asset ha
    refine ⟨fun e he hasset => ?_, fun account hn => ?_, fun w hw hasset => ?_⟩
    · exact (hzero _).mp (hr.deposits e he (hasset ▸ ha))
    · exact (hzero _).mp (hr.others asset ha account hn)
    · exact (hzero _).mp (hr.withdrawals w hw (hasset ▸ ha))
  · intro hz
    refine ⟨fun e he ha => ?_, fun asset ha account hn => ?_, fun w hw ha => ?_⟩
    · exact (hzero _).mpr ((hz e.1 ha).1 e he rfl)
    · exact (hzero _).mpr ((hz asset ha).2.1 account hn)
    · exact (hzero _).mpr ((hz w.asset ha).2.2 w hw rfl)

-- A consistent exchange reports zero only if it is at rest.
theorem deviation_zero_iff [FaithfulArith] (keys : InventoryKeys chain trie.state)
    (h : Balanced chain trie unpaid k) :
    (∃ deviation, calculateInventoryDeviation trie keys = .ok deviation ∧
      ∀ asset ∈ chain.allowlistedToken, ∃ d, deviation[asset]? = some d ∧ d ≈ 0) ↔
    AtRest chain trie unpaid := by
  obtain ⟨deviation, hd, hvalue⟩ := h.deviation_eq keys
  have hzero : (∃ deviation, calculateInventoryDeviation trie keys = .ok deviation ∧
      ∀ asset ∈ chain.allowlistedToken, ∃ d, deviation[asset]? = some d ∧ d ≈ 0) ↔
      ∀ asset ∈ chain.allowlistedToken, 2 * amountOf (chain.queuedDeposits trie.loadStateInfo) asset +
        outside chain trie.state asset +
          amountOf (unpaid.map fun w => (w.asset, w.amount)) asset = 0 := by
    constructor
    · rintro ⟨deviation', hd', hz⟩ asset ha
      cases hd.symm.trans hd'
      obtain ⟨d, hs, hv⟩ := hvalue asset ha
      obtain ⟨d', hs', hz⟩ := hz asset ha
      cases hs.symm.trans hs'
      rw [← hv, equiv_iff.mp hz, toRat_zero]
    · intro hz
      refine ⟨deviation, hd, fun asset ha => ?_⟩
      obtain ⟨d, hs, hv⟩ := hvalue asset ha
      exact ⟨d, hs, equiv_iff.mpr (by rw [hv, hz asset ha, toRat_zero])⟩
  rw [hzero, h.atRest_iff]
  refine forall₂_congr fun asset _ => ?_
  have hq := h.queued_nonneg asset
  have ho := h.outside_nonneg asset
  have hu := h.unpaid_nonneg asset
  constructor
  · intro hs
    exact ⟨by linarith, by linarith, by linarith⟩
  · rintro ⟨hq, ho, hu⟩
    rw [hq, ho, hu]
    norm_num

end Deviation

namespace Mock

attribute [local instance] Decimal.HalfEven.faithfulArith percent

def convertedUnit : Decimal :=
  ⟨10 ^ 28, 28, by decide, by decide⟩

theorem toRat_convertedUnit : convertedUnit.toRat = 1 := by
  norm_num [convertedUnit, toRat]

def importedTrie : Trie Account where
  state := OffchainState.empty.setEntry 2 .polkadex convertedUnit
  stateInfo := some { lastBlock := 1, stid := 1, snapshotId := 1 }

example : (runOnChainValidation smallExchange (servesWithdrawals 0) .empty).1 = importedTrie := rfl

def feesTrie : Trie Account where
  state := (OffchainState.empty.setEntry 2 .polkadex 0).setEntry PalletAccounts.potAccount .polkadex
    convertedUnit
  stateInfo := importedTrie.stateInfo

theorem mem_allowlisted : asset ∈ smallExchange.allowlistedToken ↔ asset = .polkadex := by
  have ht : smallExchange.allowlistedToken = (∅ : Std.TreeSet AssetId).insert .polkadex := rfl
  rw [ht, Std.TreeSet.mem_insert, Std.LawfulEqCmp.compare_eq_iff_eq, or_iff_left (by simp)]
  exact eq_comm

theorem mem_smallExchange_accounts (account : Account) :
    account ∈ ([2] : List Account) ↔ (smallExchange.accounts account).isSome := by
  revert account
  decide +kernel

-- The accounts with an entry have one for a single asset.
def polkadexOf (hasEntry : Account → Bool) (account : Account) : List AssetId :=
  if hasEntry account then [.polkadex] else []

theorem nodup_polkadexOf (hasEntry : Account → Bool) (account : Account) :
    (polkadexOf hasEntry account).Nodup := by
  rw [polkadexOf]
  split_ifs <;> simp

theorem mem_polkadexOf : asset ∈ polkadexOf hasEntry account ↔ hasEntry account ∧ asset = .polkadex := by
  rw [polkadexOf]
  split_ifs <;> simp [*]

theorem entry_empty (account : Account) (asset : AssetId) :
    OffchainState.empty.entry account asset = none :=
  rfl

def inventoryKeys (trie : Trie Account) (hasEntry : Account → Bool) (hm : ∀ account asset,
    asset ∈ polkadexOf hasEntry account ↔ (trie.state.entry account asset).isSome) :
    InventoryKeys smallExchange trie.state where
  accountIds := [2]
  assets := polkadexOf hasEntry
  mem_accountIds := mem_smallExchange_accounts
  mem_assets := hm
  nodup_accountIds := by decide
  nodup_assets := nodup_polkadexOf hasEntry

theorem mem_importedTrie (account : Account) (asset : AssetId) :
    asset ∈ polkadexOf (· = 2) account ↔ (importedTrie.state.entry account asset).isSome := by
  rw [mem_polkadexOf, importedTrie, entry_setEntry, entry_empty]
  split_ifs <;> simp_all

theorem mem_feesTrie (account : Account) (asset : AssetId) :
    asset ∈ polkadexOf (fun a => a = 2 ∨ a = 1) account ↔ (feesTrie.state.entry account asset).isSome := by
  have hpot : (PalletAccounts.potAccount : Account) = 1 := rfl
  rw [mem_polkadexOf, feesTrie, entry_setEntry, entry_setEntry, entry_empty,
    hpot]
  split_ifs with hp hm
  · simp [hp]
  · simp [hm]
  · simp only [Option.isSome_none, Bool.false_eq_true, iff_false, decide_eq_true_eq]
    tauto

theorem mem_empty (account : Account) (asset : AssetId) :
    asset ∈ polkadexOf (fun _ => false) account ↔ ((Trie.empty : Trie Account).state.entry account asset).isSome := by
  rw [mem_polkadexOf, Trie.empty, entry_empty]
  simp

theorem custodyBalance_smallExchange : smallExchange.custodyBalance .polkadex = 10 ^ 12 := by
  decide +kernel

theorem balanced_smallExchange (hsum : trie.state.total .polkadex +
      amountOf (smallExchange.queuedDeposits trie.loadStateInfo) .polkadex = 1)
    (hb : ∀ account asset, (trie.state.getBalance account asset).toRat = 0 ∨
      (trie.state.getBalance account asset).toRat = 1)
    (hq : smallExchange.queuedDeposits trie.loadStateInfo ⊆ [(.polkadex, convertedUnit)]) :
    Balanced smallExchange trie [] 12 := by
  have hpart {q : ℚ} (h : q = 0 ∨ q = 1) : 0 ≤ q ∧ OnGrid 12 q := by
    rcases h with rfl | rfl
    · exact ⟨le_rfl, 0, by simp⟩
    · exact ⟨zero_le_one, 10 ^ 12, by norm_num⟩
  have htotal : 0 ≤ trie.state.total .polkadex := finsum_nonneg fun account => (hpart (hb account _)).1
  refine ⟨fun asset ha => ?_, fun account asset => hpart (hb account asset), fun e he => ?_, by simp,
    by decide, fun asset ha => ?_⟩
  · rw [mem_allowlisted.mp ha, custodyBalance_smallExchange, hsum]
    norm_num [amountOf]
  · rw [mem_singleton.mp (hq he)]
    exact hpart (.inr toRat_convertedUnit)
  · rw [mem_allowlisted.mp ha, custodyBalance_smallExchange]
    have hle : amountOf (smallExchange.queuedDeposits trie.loadStateInfo) .polkadex ≤ 1 := by linarith
    norm_num
    linarith

theorem total_empty (asset : AssetId) : (OffchainState.empty : OffchainState Account).total asset = 0 :=
  (finsum_congr fun _ => toRat_zero).trans finsum_zero

theorem balanced_imported : Balanced smallExchange importedTrie [] 12 := by
  have hq : smallExchange.queuedDeposits importedTrie.loadStateInfo = [] := rfl
  refine balanced_smallExchange ?sum (fun account asset => ?balances) (hq ▸ nil_subset _)
  case sum =>
    have hold : (empty : OffchainState Account).getBalance 2 .polkadex = 0 := rfl
    rw [hq, importedTrie, total_setEntry, total_empty, hold, toRat_convertedUnit]
    norm_num [amountOf]
  case balances =>
    simp only [importedTrie, getBalance, entry_setEntry]
    split_ifs
    · exact .inr toRat_convertedUnit
    · exact .inl toRat_zero

theorem deviation_zero_after_import : ∃ deviation,
    calculateInventoryDeviation importedTrie (inventoryKeys _ _ mem_importedTrie) = .ok deviation ∧
    ∀ asset ∈ smallExchange.allowlistedToken, ∃ d, deviation[asset]? = some d ∧ d ≈ 0 := by
  have hq : smallExchange.queuedDeposits importedTrie.loadStateInfo = [] := rfl
  refine (deviation_zero_iff (inventoryKeys _ _ mem_importedTrie) balanced_imported).mpr ⟨?deposits, ?others, by simp⟩
  case deposits => simp [hq]
  case others =>
    intro asset _ account hn
    have hne : account ≠ 2 := by
      intro h
      have hs := (mem_smallExchange_accounts account).mp (by simp [h])
      simp [hn] at hs
    simp only [importedTrie, getBalance, entry_setEntry, hne, false_and,
      if_false]
    exact equiv_iff.mpr rfl

theorem balanced_queued : Balanced smallExchange .empty [] 12 := by
  have hq : smallExchange.queuedDeposits (Trie.empty : Trie Account).loadStateInfo =
    [(.polkadex, convertedUnit)] := rfl
  refine balanced_smallExchange ?sum (fun _ _ => .inl toRat_zero) (hq ▸ List.Subset.refl _)
  rw [hq, Trie.empty, total_empty]
  norm_num [amountOf, toRat_convertedUnit]

theorem balanced_fees : Balanced smallExchange feesTrie [] 12 := by
  have hq : smallExchange.queuedDeposits feesTrie.loadStateInfo = [] := rfl
  refine balanced_smallExchange ?sum (fun account asset => ?balances) (hq ▸ nil_subset _)
  case sum =>
    have hold : (empty : OffchainState Account).getBalance 2 .polkadex = 0 := rfl
    have hpot : ((empty : OffchainState Account).setEntry 2 .polkadex 0).getBalance
      PalletAccounts.potAccount .polkadex = 0 := rfl
    rw [hq, feesTrie, total_setEntry, total_setEntry, total_empty, hold, hpot,
      toRat_convertedUnit]
    norm_num [amountOf]
  case balances =>
    simp only [feesTrie, getBalance, entry_setEntry]
    split_ifs
    · exact .inr toRat_convertedUnit
    · exact .inl toRat_zero
    · exact .inl toRat_zero

-- Before its import, a deposit is counted twice, and the fees are not counted at all after that.
theorem deposit_counted_twice : smallExchange.Reachable AuthSig ∧
    Balanced smallExchange .empty [] 12 ∧ (∃ deviation d,
      calculateInventoryDeviation .empty (inventoryKeys _ _ mem_empty) = .ok deviation ∧
      deviation[AssetId.polkadex]? = some d ∧ d.toRat = 2) ∧
    Balanced smallExchange feesTrie [] 12 ∧ ∃ deviation d,
      calculateInventoryDeviation feesTrie (inventoryKeys _ _ mem_feesTrie) = .ok deviation ∧
      deviation[AssetId.polkadex]? = some d ∧ d.toRat = 1 :=
  ⟨⟨_, _, _, rfl⟩, balanced_queued, ⟨_, _, rfl, rfl, by decide +kernel⟩, balanced_fees,
    ⟨_, _, rfl, rfl, by decide +kernel⟩⟩

end Mock

end Ocex
