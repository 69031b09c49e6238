import PolkadexModel.LiquidityMining.Theorems.Pools
import PolkadexModel.Ocex.Theorems.Imports
import PolkadexModel.Ocex.Theorems.Solvency

open List Option Decimal Ocex.OffchainState

-- The shares that the providers get for their deposits, and what they redeem for them. The chain is run
-- together with the batches of the exchange.
namespace LiquidityMining

open Ocex (AssetId TradingPair TradingPairConfig IngressMessages EgressMessages OffchainState
  RewardsAccount)
open Decimal (FaithfulArith nonneg_iff)

-- No operation but the minting issues anything.
class LawfulIssuance (Acc A : Type) [Ocex.Assets Acc A] [Ocex.CrossChainGadget Acc A]
    [RewardsAccount Acc A] [Fungibles Acc A] : Prop where
  create : ∀ {a a' : A} {id minimum : ℕ} {admin : Acc},
    Fungibles.create a id admin minimum = .ok a' → Fungibles.totalIssuance Acc a' id = 0
  keep : ∀ {a a' : A} {id : ℕ}, @AssetMove Acc A _ _ _ _ (· = 0) a a' →
    Fungibles.totalIssuance Acc a id = 0 → Fungibles.totalIssuance Acc a' id = 0

variable {Acc Auth AuthSign Sign A : Type} [Ord Acc] {cfg : Ocex.Config}

-- The chain, and what the batches have brought about since the last snapshot.
structure Exchange (Acc Auth A : Type) [Ord Acc] (cfg : Ocex.Config) where
  chain : Chain Acc Auth A cfg
  batch : Ocex.BatchState Acc

inductive Exchange.Event (Acc Auth AuthSign Sign : Type) [Ord Acc]
  -- Any call but a snapshot.
  | call (c : Call Acc Auth AuthSign)
  | action (a : Ocex.UserActions Acc Sign)
  -- The snapshot has the withdrawals and the messages of the batches.
  | snapshot (summary : Ocex.SnapshotSummary Acc) (signatures : List (ℕ × AuthSign))

def Call.isSnapshot : Call Acc Auth AuthSign → Bool
  | .ocex (.call (.submitSnapshot ..)) => true
  | _ => false

theorem Call.not_carries {c : Call Acc Auth AuthSign} (h : c.isSnapshot = false)
    (m : EgressMessages Acc) : ¬c.Carries m := by
  cases c with
  | ocex call =>
    cases call with
    | call call =>
      cases call with
      | submitSnapshot => cases h
      | _ => exact id
    | claimLmpRewards => exact id
  | _ => exact id

def IsDeposit : IngressMessages Acc → Prop
  | .addLiquidity .. => True
  | _ => False

-- A deposit into a pool, with the reply of the engine.
structure Deposit (Acc : Type) where
  lp : Acc
  totalShares : Decimal
  base : Decimal
  quote : Decimal
  issued : Decimal
  price : Decimal
  inventory : Decimal

namespace Deposit

def ofMessage (engine : IngressMessages Acc → Option (EgressMessages Acc)) :
    IngressMessages Acc → Option (Deposit Acc)
  | .addLiquidity market pool lp totalShares base quote =>
    match engine (.addLiquidity market pool lp totalShares base quote) with
    | some (.addLiquidityResult _ _ _ issued price inventory) =>
      some ⟨lp, totalShares, base, quote, issued, price, inventory⟩
    | _ => none
  | _ => none

def value (price : ℚ) (d : Deposit Acc) : ℚ :=
  d.base.toRat * price + d.quote.toRat

-- The part of all shares is that of the inventory after the deposit, up to the smallest denomination,
-- and the first depositor gets something.
structure Fair (d : Deposit Acc) : Prop where
  first : d.totalShares.toRat = 0 → 0 < d.issued.toRat
  part : |d.issued.toRat * d.inventory.toRat -
    d.value d.price.toRat * (d.totalShares.toRat + d.issued.toRat)| ≤ d.inventory.toRat / 10 ^ 12

-- Nothing was issued before, and nothing is issued for it.
structure Void (d : Deposit Acc) : Prop where
  totalShares : d.totalShares.toRat = 0
  issued : d.issued.toRat = 0

end Deposit

omit [Ord Acc] in
theorem Deposit.isDeposit_of_ofMessage {engine : IngressMessages Acc → Option (EgressMessages Acc)}
    {m : IngressMessages Acc} {d : Deposit Acc} (h : ofMessage engine m = some d) :
    IsDeposit m := by
  cases m with
  | addLiquidity => trivial
  | _ => cases h

def redemption [DecidableEq Acc] (price : ℚ) (lp : Acc) : EgressMessages Acc → ℚ
  | .removeLiquidityResult _ _ lp' base quote => if lp' = lp then base.toRat * price + quote.toRat else 0
  | _ => 0

-- A message from a chain without shares.
def Unbacked : IngressMessages Acc → Prop
  | .addLiquidity _ _ _ totalShares _ _ => totalShares.toRat = 0
  | .removeLiquidity .. => False
  | _ => True

-- A reply that neither issues nor redeems shares.
def Worthless : EgressMessages Acc → Prop
  | .addLiquidityResult _ _ _ issued _ _ => issued.toRat = 0
  | .removeLiquidityResult .. | .removeLiquidityFailed .. => False
  | _ => True

omit [Ord Acc] in
theorem mints_of_worthless [FaithfulArith] {m : EgressMessages Acc} {amount : ℕ} (hw : Worthless m)
    (h : Mints m amount) : amount = 0 := by
  cases m with
  | addLiquidityResult _ _ _ issued =>
    have hissued : issued.toRat = 0 := hw
    have hn := (Ocex.inPlanck_eq_ok hissued.ge).mp (Ocex.orElse_eq_ok.mpr (orElse_eq_ok.mp h))
    rw [hn, hissued]
    simp [toRat_max_pos.le]
  | removeLiquidityFailed => exact hw.elim
  | _ => exact h.elim

section Imports

variable [FaithfulArith] [DecidableEq Acc]

-- The inventory is not empty after a deposit, so that a part of all shares is computed.
theorem sharesMinted_of_zero {given totalShares inventory minted : Decimal}
    (ht : totalShares.toRat = 0) (hi : 0 < inventory.toRat)
    (h : OffchainState.sharesMinted given totalShares inventory = .ok minted) : minted.toRat = 0 := by
  have hz : ¬inventory.isZero := fun hz => hi.ne' (isZero_iff.mp hz)
  have hgiven : (given.saturatingMul totalShares).toRat = 0 := by
    rw [toRat_saturatingMul (z := 0) (by simp [ht]), ht, mul_zero]
  obtain ⟨w, hw, he⟩ := Decimal.Arith.div_exact (z := 0) hi.ne' (by rw [hgiven]; simp)
  rw [sharesMinted, if_neg hz, mem_def.mp hw] at h
  rw [← Except.ok.inj h, he, toRat_zero]

omit [Ord Acc] in
theorem verifyAddLiquidity_eq_ok {s : OffchainState Acc} {market : TradingPairConfig}
    {pool lp : Acc} {totalShares base quote : Decimal} {reply : Option (EgressMessages Acc)}
    {egress : EgressMessages Acc}
    (h : s.verifyAddLiquidity market pool lp totalShares base quote reply = .ok egress) :
    ∃ market' issued price inventory minted,
      egress = .addLiquidityResult market' pool lp issued price inventory ∧ reply = some egress ∧
      inventory ≈ (s.getBalance pool market.quoteAsset).saturatingAdd
        (price.saturatingMul (s.getBalance pool market.baseAsset)) ∧
      OffchainState.sharesMinted ((base.saturatingMul price).saturatingAdd quote) totalShares inventory =
        .ok minted ∧ issued ≈ minted := by
  simp only [verifyAddLiquidity] at h
  split at h
  · simp at h
  · simp only [bind_eq_ok, pure_eq_ok, Ocex.check_eq_ok] at h
    obtain ⟨_, rfl, _, rfl, _, hi, minted, hm, _, hs, rfl⟩ := h
    exact ⟨_, _, _, _, minted, rfl, rfl, hi, hm, hs⟩
  · simp at h

omit [Ord Acc] in
theorem issued_of_import {s s' : OffchainState Acc} {market : TradingPairConfig}
    {pool lp : Acc} {totalShares base quote : Decimal} {reply : Option (EgressMessages Acc)}
    {egress : EgressMessages Acc} (ht : totalShares.toRat = 0) (hs : s.Solvent) (hb : 0 ≤ base)
    (hq : 1 / 10 ^ 9 ≤ quote.toRat)
    (hp : ∀ market pool lp issued price inventory,
      reply = some (.addLiquidityResult market pool lp issued price inventory) → 0 ≤ price.toRat)
    (h : s.importAddLiquidity market pool lp totalShares base quote reply = .ok (s', egress)) :
    ∃ market' issued price inventory, reply = some egress ∧
      egress = .addLiquidityResult market' pool lp issued price inventory ∧ issued.toRat = 0 := by
  simp only [importAddLiquidity, bind_eq_ok, pure_eq_ok,
    Prod.mk.injEq] at h
  obtain ⟨_, h, _, rfl⟩ := h
  obtain ⟨market', issued, price, inventory, minted, he, hr, hi, hm, hissued⟩ := verifyAddLiquidity_eq_ok h
  refine ⟨market', issued, price, inventory, hr, he, ?_⟩
  rw [equiv_iff] at hi hissued
  -- The quote asset is in the balance of the pool.
  let y : Decimal := ⟨1, 9, by decide, by decide⟩
  have hy : y.toRat = 1 / 10 ^ 9 := by norm_num [y, toRat]
  have hyq : y.toRat ≤ quote.toRat := hy ▸ hq
  have hs₁ : (s.addBalance pool market.baseAsset base).Solvent := hs.addBalance hb
  have hquote := le_addBalance_self (hs₁ pool market.quoteAsset)
    (onGrid_toRat (x := y) le_rfl) (by rw [hy]; positivity) hyq
  have hquote₀ : 0 ≤ quote := nonneg_iff.mpr (le_trans (by positivity) hq)
  have hs₂ : ((s.addBalance pool market.baseAsset base).addBalance pool market.quoteAsset quote).Solvent :=
    hs₁.addBalance hquote₀
  have hbase := nonneg_iff.mp (hs₂ pool market.baseAsset)
  have hpart := (faithful_saturatingMul price _).nonneg
    (mul_nonneg (hp _ _ _ _ _ _ (hr.trans (congrArg some he))) hbase)
  have hinventory := (faithful_saturatingAdd _ _).ge y
    (hquote.trans (le_add_of_nonneg_right hpart))
  rw [← hi, hy] at hinventory
  rw [hissued]
  exact sharesMinted_of_zero ht (lt_of_lt_of_le (by positivity) hinventory) hm

variable [Ocex.PalletAccounts Acc] {chain : Chain Acc Auth A cfg}
  {engine : IngressMessages Acc → Option (EgressMessages Acc)}
  {m : IngressMessages Acc} {acc acc' : OffchainState Acc × List (EgressMessages Acc)}

theorem void_of_import (hmin : 1000 ≤ cfg.minimumDeposit) (hm : chain.Sent m) (hu : Unbacked m)
    (hs : acc.1.Solvent)
    (hp : ∀ market pool lp issued price inventory,
      engine m = some (.addLiquidityResult market pool lp issued price inventory) → 0 ≤ price.toRat)
    (h : OffchainState.importMessage chain.allowlistedToken engine acc m = .ok acc') :
    (∀ x ∈ acc'.2, x ∈ acc.2 ∨ Worthless x) ∧
    (IsDeposit m → ∃ d, Deposit.ofMessage engine m = some d) ∧
    ∀ d, Deposit.ofMessage engine m = some d → d.Void := by
  have hnone (hd : Deposit.ofMessage engine m = none) :
      ∀ d, Deposit.ofMessage engine m = some d → d.Void := by simp [hd]
  have hone {r : EgressMessages Acc} (hr : Worthless r) :
      ∀ x ∈ acc.2 ++ [r], x ∈ acc.2 ∨ Worthless x := by
    intro x hx
    refine (mem_append.mp hx).imp_right fun hx => ?_
    rwa [mem_singleton.mp hx]
  cases hm with
  | deposit =>
    cases Except.ok.inj h
    exact ⟨fun _ hx => .inl hx, False.elim, hnone rfl⟩
  | @addLiquidity base quote market pool lp totalShares baseAmount quoteAmount _ hb hq hq' =>
    have hquote : (1 : ℚ) / 10 ^ 9 ≤ quoteAmount.toRat := by
      have hle : (1000 : ℚ) ≤ quote := by exact_mod_cast hmin.trans hq
      linarith [Ocex.le_of_inPlanck hq']
    have hbase := Ocex.nonneg_of_inPlanck hb
    simp only [importMessage, bind_eq_ok, pure_eq_ok, Prod.exists] at h
    obtain ⟨s', egress, himport, rfl⟩ := h
    obtain ⟨market', issued, price, inventory, hr, rfl, hissued⟩ :=
      issued_of_import hu hs hbase hquote hp himport
    have hd : Deposit.ofMessage engine (.addLiquidity (.ofPair market.base market.quote) pool lp
        totalShares baseAmount quoteAmount) =
        some ⟨lp, totalShares, baseAmount, quoteAmount, issued, price, inventory⟩ := by
      simp only [Deposit.ofMessage, hr]
    refine ⟨hone hissued, fun _ => ⟨_, hd⟩, fun d hd' => ?_⟩
    rw [← some.inj (hd.symm.trans hd')]
    exact ⟨hu, hissued⟩
  | removeLiquidity => exact hu.elim
  | forceClosePool =>
    simp only [importMessage, importForceClosePool, bind_eq_ok,
      pure_eq_ok, Prod.exists, Prod.mk.injEq] at h
    obtain ⟨_, _, ⟨_, _, _, _, _, _, _, rfl⟩, rfl⟩ := h
    exact ⟨hone trivial, False.elim, hnone rfl⟩
  | setting hset =>
    cases m with
    | deposit | addLiquidity | removeLiquidity | forceClosePool => cases hset
    | withdrawTradingFees =>
      simp only [importMessage, bind_eq_ok, pure_eq_ok, Prod.exists] at h
      obtain ⟨_, _, hf, rfl⟩ := h
      obtain ⟨fees, _, rfl, _⟩ := importTradingFees_eq_ok hf
      exact ⟨hone trivial, False.elim, hnone rfl⟩
    | newLMPEpoch epoch =>
      cases Except.ok.inj h
      exact ⟨fun _ hx => .inl hx, False.elim, hnone rfl⟩
    | _ => exact ⟨fun _ hx => .inl (Except.ok.inj h ▸ hx), False.elim, hnone rfl⟩

theorem void_of_foldlM [Ocex.Verify Acc Sign] {ts : List (Ocex.Trade Acc Sign)}
    (hpres : Ocex.Preserves chain ts OffchainState.Solvent) (hmin : 1000 ≤ cfg.minimumDeposit)
    {queue : List (IngressMessages Acc)}
    (hm : ∀ m ∈ queue, chain.Sent m ∧ Unbacked m) (hs : acc.1.Solvent)
    (hp : ∀ m market pool lp issued price inventory,
      engine m = some (.addLiquidityResult market pool lp issued price inventory) → 0 ≤ price.toRat)
    (h : queue.foldlM (OffchainState.importMessage chain.allowlistedToken engine) acc = .ok acc') :
    (∀ x ∈ acc'.2, x ∈ acc.2 ∨ Worthless x) ∧ ∀ m ∈ queue,
      (IsDeposit m → ∃ d, Deposit.ofMessage engine m = some d) ∧
      ∀ d, Deposit.ofMessage engine m = some d → d.Void := by
  induction queue generalizing acc with
  | nil => exact foldlM_nil_eq_ok.mp h ▸ ⟨fun _ hx => .inl hx, by simp⟩
  | cons m queue hi =>
    obtain ⟨t, ht, h⟩ := foldlM_cons_eq_ok.mp h
    obtain ⟨hsent, hu⟩ := hm m mem_cons_self
    obtain ⟨hnew, hd⟩ := void_of_import hmin hsent hu hs (hp m) ht
    obtain ⟨hnew', hd'⟩ := hi (fun m hm' => hm m (mem_cons_of_mem _ hm'))
      (hpres.importMessage hsent ht hs) h
    exact ⟨fun x hx => (hnew' x hx).elim (hnew x) .inr, forall_mem_cons.mpr ⟨hd, hd'⟩⟩

end Imports

section Chain

variable [DecidableEq Acc] [Ocex.PalletAccounts Acc] [Ocex.Assets Acc A]
  [Ocex.CrossChainGadget Acc A] [RewardsAccount Acc A] [Fungibles Acc A]
  [PoolAccounts Acc] [CreatedAssets Acc A] [FaithfulArith]

-- A chain on which no shares were issued.
structure Unissued (s : Chain Acc Auth A cfg) : Prop where
  registered : s.world.Registered
  sound : s.Sound
  issuance : ∀ key config, s.world.records.terms key = some config →
    Fungibles.totalIssuance Acc s.world.assets config.shareId = 0
  requests : ∀ key, s.world.withdrawalRequests key = []
  queue : ∀ n, ∀ m ∈ (s.ingressMessages n).toList, Unbacked m

omit [DecidableEq Acc] [Ocex.PalletAccounts Acc] in
theorem unissued_genesis (authorities : List Auth) (assets : A) :
    Unissued (genesis authorities assets : Chain Acc Auth A cfg) := by
  refine ⟨Storage.registered_genesis assets, ⟨?_, ?_⟩, ?_, fun _ => rfl, ?_⟩ <;>
    simp [genesis, Ocex.State.genesis, Storage.genesis, Storage.records]

variable [LawfulIssuance Acc A]

omit [Ord Acc] [DecidableEq Acc] [Ocex.PalletAccounts Acc] [PoolAccounts Acc]
  [CreatedAssets Acc A] [FaithfulArith] in
theorem issuance_of_moves {a a' : A} {id : ℕ} (h : AssetMoves Acc (· = 0) a a')
    (ha : Fungibles.totalIssuance Acc a id = 0) : Fungibles.totalIssuance Acc a' id = 0 := by
  induction h with
  | refl => exact ha
  | tail _ h hi => exact LawfulIssuance.keep h hi

variable {s s' : Chain Acc Auth A cfg} {c : Call Acc Auth AuthSign}

omit [DecidableEq Acc] [Ocex.PalletAccounts Acc] in
theorem Posts.unbacked {m : IngressMessages Acc} (h : Unissued s) (hm : Posts s c m) :
    Unbacked m := by
  cases hm with
  | setting hset => cases m <;> simp [IngressMessages.isSetting] at hset <;> trivial
  | deposit | forceClosePool => trivial
  | @addLiquidity _ _ _ _ _ _ config a total _ _ hc ha ht =>
    have hmoves : AssetMoves Acc (· = 0) s.world.assets a :=
      ha.lift id fun _ _ hmove => AssetMove.mono (fun _ => False.elim) hmove
    have hzero : Fungibles.totalIssuance Acc a config.shareId = 0 :=
      issuance_of_moves hmoves (h.issuance _ config.terms (Storage.terms_of_pools hc))
    have htotal := (Ocex.toRat_of_divUnit ht).1
    rw [hzero, Nat.cast_zero, zero_div] at htotal
    exact htotal
  | removeLiquidity hc hr => simp [h.requests] at hr

variable [LawfulPoolAccounts Acc] [Ocex.Percent]
  [Ocex.Authority Acc Auth AuthSign]

theorem Unissued.dispatch (h : Unissued s) (hc : ∀ m, c.Carries m → Worthless m)
    (hd : LiquidityMining.dispatch s c = .ok s') : Unissued s' := by
  have hstep : s.world.PoolStep (· = 0) s'.world :=
    poolStep_of_dispatch (fun m hm _ hmints => mints_of_worthless (hc m hm) hmints) hd
  refine ⟨h.registered.step hstep, (advances_of_dispatch hd).sound h.sound, ?issuance, fun key => ?requests,
    fun n m hm => ?queue⟩
  case issuance =>
    cases hstep with
    | keep ht _ ha _ => exact fun key config hk => issuance_of_moves ha (h.issuance key config (ht ▸ hk))
    | register _ _ hcreate ha ht _ _ =>
      intro key config' hk
      rcases Updates.update_eq_some.mp (ht ▸ hk) with ⟨_, rfl⟩ | ⟨_, hk⟩
      · exact issuance_of_moves ha (LawfulIssuance.create hcreate)
      · exact issuance_of_moves ha (LawfulIssuance.keep (.create hcreate) (h.issuance key config' hk))
  case requests =>
    refine eq_nil_iff_forall_not_mem.mpr fun request hr => ?_
    rcases hstep.requests key request hr with hr | ⟨pool, config, hc, hne⟩
    · simp [h.requests] at hr
    · exact hne (h.issuance pool config hc)
  case queue => exact (queued_of_dispatch hd n m hm).elim (h.queue n m) (·.unbacked h)

end Chain

namespace Exchange

def genesis (authorities : List Auth) (assets : A) : Exchange Acc Auth A cfg where
  chain := LiquidityMining.genesis authorities assets
  batch := { state := .empty, info := {} }

def submission (e : Exchange Acc Auth A cfg) (summary : Ocex.SnapshotSummary Acc)
    (signatures : List (ℕ × AuthSign)) : Call Acc Auth AuthSign :=
  .ocex (.call (.submitSnapshot { summary with
    withdrawals := e.batch.withdrawals
    egressMessages := e.batch.egressMessages } signatures))

variable [DecidableEq Acc] [Ocex.PalletAccounts Acc] [Ocex.Assets Acc A]
  [Ocex.CrossChainGadget Acc A] [RewardsAccount Acc A] [Fungibles Acc A]
  [PoolAccounts Acc] [Ocex.Percent] [Ocex.Authority Acc Auth AuthSign]
  [Ocex.Verify Acc Sign] [Ocex.FromText]

section Step

variable [Decimal.Arith]

def step (e : Exchange Acc Auth A cfg) :
    Event Acc Auth AuthSign Sign →
    Option (Exchange Acc Auth A cfg)
  | .call c =>
    if c.isSnapshot then none
    else (LiquidityMining.step e.chain c).map fun chain => { e with chain := chain }
  | .action a => (Ocex.processAction e.chain e.batch a).toOption.map fun b => { e with batch := b }
  | .snapshot summary signatures =>
    (LiquidityMining.step e.chain (e.submission summary signatures)).map fun chain =>
      ⟨chain, { e.batch with withdrawals := [], egressMessages := [] }⟩

def deposits (e : Exchange Acc Auth A cfg)
    (event : Event Acc Auth AuthSign Sign) : List (Deposit Acc) :=
  match event with
  | .action (.blockImport blk engine _) =>
    if (step e event).isSome then (e.chain.ingressMessages blk).toList.filterMap (Deposit.ofMessage engine)
    else []
  | _ => []

def deposited (price : ℚ) (lp : Acc) (e : Exchange Acc Auth A cfg)
    (event : Event Acc Auth AuthSign Sign) : ℚ :=
  ((deposits e event).map fun d => if d.lp = lp then d.value price else 0).sum

def redeemed (price : ℚ) (lp : Acc) (e : Exchange Acc Auth A cfg)
    (event : Event Acc Auth AuthSign Sign) : ℚ :=
  match event with
  | .snapshot .. =>
    if (step e event).isSome then (e.batch.egressMessages.map (redemption price lp)).sum else 0
  | _ => 0

-- The engine computes with the price, and the parts of the trades are not negative.
def AtPrice (price : ℚ) (_ : Exchange Acc Auth A cfg) :
    Event Acc Auth AuthSign Sign → Prop
  | .action (.trade ts) => ∀ t ∈ ts, t.Nonneg
  | .action (.blockImport _ engine _) => ∀ m market pool lp issued price' inventory,
    engine m = some (.addLiquidityResult market pool lp issued price' inventory) → price'.toRat = price
  | _ => True

-- No liquidity is added in a block that is imported.
def NoDeposit (e : Exchange Acc Auth A cfg)
    (event : Event Acc Auth AuthSign Sign) : Prop :=
  match event with
  | .action (.blockImport blk _ _) =>
    (step e event).isSome → ∀ m ∈ (e.chain.ingressMessages blk).toList, ¬IsDeposit m
  | _ => True

end Step

variable [CreatedAssets Acc A] [LawfulPoolAccounts Acc] [LawfulIssuance Acc A]
  [FaithfulArith] {e e' : Exchange Acc Auth A cfg}
  {event : Event Acc Auth AuthSign Sign} {price : ℚ}

-- Neither the chain nor the batches have shares.
structure Shareless (e : Exchange Acc Auth A cfg) : Prop where
  chain : Unissued e.chain
  solvent : e.batch.state.Solvent
  egress : ∀ m ∈ e.batch.egressMessages, Worthless m

section Steps

omit [LawfulPoolAccounts Acc] [LawfulIssuance Acc A]

omit [Ocex.Percent] [Ocex.FromText] in
theorem Shareless.importBlk {ts : List (Ocex.Trade Acc Sign)} (h : Shareless e)
    (hpres : Ocex.Preserves e.chain ts OffchainState.Solvent) (hmin : 1000 ≤ cfg.minimumDeposit)
    (hprice : 0 ≤ price) {blk : ℕ} {engine : IngressMessages Acc → Option (EgressMessages Acc)}
    (hp : ∀ m market pool lp issued price' inventory,
      engine m = some (.addLiquidityResult market pool lp issued price' inventory) →
        price'.toRat = price)
    {s' : OffchainState Acc} {info' : Ocex.StateInfo} {egress : List (EgressMessages Acc)}
    (hi : Ocex.importBlk e.chain blk e.batch.state e.batch.info engine = .ok (s', info', egress)) :
    (∀ x ∈ egress, Worthless x) ∧ ∀ m ∈ (e.chain.ingressMessages blk).toList,
      (IsDeposit m → ∃ d, Deposit.ofMessage engine m = some d) ∧
      ∀ d, Deposit.ofMessage engine m = some d → d.Void := by
  have hnonneg (m market pool lp issued price' inventory)
      (he : engine m = some (.addLiquidityResult market pool lp issued price' inventory)) :
      0 ≤ price'.toRat := hp m market pool lp issued price' inventory he ▸ hprice
  simp only [Ocex.importBlk, bind_eq_ok, pure_eq_ok, Prod.exists, Prod.mk.injEq] at hi
  obtain ⟨_, _, t, out, hl, _, _, rfl⟩ := hi
  obtain ⟨hnew, hd⟩ := void_of_foldlM hpres hmin (fun m hm =>
    ⟨h.chain.sound.sent blk m hm, h.chain.queue blk m hm⟩) h.solvent hnonneg hl
  exact ⟨fun x hx => (hnew x hx).resolve_left (by simp), hd⟩

omit [Ocex.Percent] [Ocex.Authority Acc Auth AuthSign] in
theorem Shareless.processAction (h : Shareless e) (hmin : 1000 ≤ cfg.minimumDeposit)
    (hprice : 0 ≤ price) {a : Ocex.UserActions Acc Sign}
    (hp : AtPrice price e (.action a : Event Acc Auth AuthSign Sign))
    {b : Ocex.BatchState Acc} (ha : Ocex.processAction e.chain e.batch a = .ok b) :
    Shareless { e with batch := b } := by
  have hpres : Ocex.Preserves e.chain ([] : List (Ocex.Trade Acc Sign))
    OffchainState.Solvent := Ocex.preserves_solvent (by simp)
  cases a with
  | trade ts =>
    refine ⟨h.chain, (Ocex.preserves_solvent hp).processAction h.chain.sound (by simp) ha h.solvent, ?_⟩
    simp only [Ocex.processAction, bind_eq_ok, pure_eq_ok] at ha
    obtain ⟨_, _, rfl⟩ := ha
    exact h.egress
  | blockImport blk engine prices =>
    refine ⟨h.chain, ?_, ?_⟩
    · exact hpres.processAction h.chain.sound (by simp) ha h.solvent
    · simp only [Ocex.processAction, bind_eq_ok, pure_eq_ok, Prod.exists] at ha
      obtain ⟨_, _, egress, hi, rfl⟩ := ha
      have hnew := (h.importBlk hpres hmin hprice hp hi).1
      simp only [forall_mem_append, forall_mem_singleton]
      exact ⟨⟨h.egress, hnew⟩, trivial⟩
  | withdraw | withdrawV1 =>
    refine ⟨h.chain, ?_, ?_⟩
    · exact hpres.processAction h.chain.sound (by simp) ha h.solvent
    · simp only [Ocex.processAction, bind_eq_ok, pure_eq_ok, Prod.exists] at ha
      obtain ⟨_, _, _, rfl⟩ := ha
      exact h.egress
  | reset | oneMinLMPReport => exact Except.ok.inj ha ▸ h

end Steps

theorem Shareless.step (h : Shareless e) (hmin : 1000 ≤ cfg.minimumDeposit) (hprice : 0 ≤ price)
    (hp : AtPrice price e event) : Shareless (Run.exec Exchange.step e event) := by
  cases Run.exec_cases Exchange.step e event with
  | inr he => exact he.2.symm ▸ h
  | inl he =>
    cases event with
    | call c =>
      simp only [Exchange.step] at he
      split_ifs at he with hc
      obtain ⟨chain, hd, hs⟩ := map_eq_some_iff.mp he
      rw [← hs]
      exact ⟨h.chain.dispatch (fun m hm => (Call.not_carries (by simpa using hc) m hm).elim)
        (toOption_eq_some.mp hd), h.solvent, h.egress⟩
    | action a =>
      obtain ⟨b, ha, hs⟩ := map_eq_some_iff.mp he
      rw [← hs]
      exact h.processAction hmin hprice hp (toOption_eq_some.mp ha)
    | snapshot summary signatures =>
      obtain ⟨chain, hd, hs⟩ := map_eq_some_iff.mp he
      rw [← hs]
      have hc (m : EgressMessages Acc)
          (hm : (e.submission summary signatures : Call Acc Auth AuthSign).Carries m) :
          Worthless m := h.egress m hm
      exact ⟨h.chain.dispatch hc (toOption_eq_some.mp hd), h.solvent, by simp⟩

section Runs

omit [CreatedAssets Acc A] [LawfulPoolAccounts Acc] [LawfulIssuance Acc A]

theorem deposits_of_noDeposit (h : NoDeposit e event) : deposits e event = [] := by
  cases event with
  | call | snapshot => rfl
  | action a =>
    cases a with
    | blockImport blk engine prices =>
      simp only [deposits]
      split_ifs with hs
      · refine filterMap_eq_nil_iff.mpr fun m hm => eq_none_iff_forall_not_mem.mpr fun d hd => ?_
        exact h hs m hm (Deposit.isDeposit_of_ofMessage hd)
      · rfl
    | _ => rfl

theorem redeemed_eq_zero (h : ∀ m ∈ e.batch.egressMessages, Worthless m) (lp : Acc) :
    redeemed price lp e event = 0 := by
  cases event with
  | call | action => rfl
  | snapshot =>
    simp only [redeemed]
    split_ifs
    · refine sum_eq_zero fun x hx => ?_
      obtain ⟨m, hm, rfl⟩ := mem_map.mp hx
      have hw := h m hm
      cases m with
      | removeLiquidityResult => exact hw.elim
      | _ => rfl
    · rfl

end Runs

omit [LawfulPoolAccounts Acc] [LawfulIssuance Acc A] in
theorem Shareless.noDeposit (h : Shareless e) (hmin : 1000 ≤ cfg.minimumDeposit) (hprice : 0 ≤ price)
    (hp : AtPrice price e event) (hf : ∀ d ∈ deposits e event, d.Fair) : NoDeposit e event := by
  have hpres : Ocex.Preserves e.chain ([] : List (Ocex.Trade Acc Sign))
    OffchainState.Solvent := Ocex.preserves_solvent (by simp)
  cases event with
  | call | snapshot => trivial
  | action a =>
    cases a with
    | blockImport blk engine prices =>
      intro hs m hm hdep
      obtain ⟨e', he⟩ := isSome_iff_exists.mp hs
      obtain ⟨b, hb, _⟩ := map_eq_some_iff.mp he
      have hb := toOption_eq_some.mp hb
      simp only [Ocex.processAction, bind_eq_ok, Prod.exists] at hb
      obtain ⟨_, _, _, hi, _⟩ := hb
      obtain ⟨hsome, hvoid⟩ := (h.importBlk hpres hmin hprice hp hi).2 m hm
      obtain ⟨d, hd⟩ := hsome hdep
      have hfair := hf d (by rw [deposits, if_pos hs]; exact mem_filterMap.mpr ⟨m, hm, hd⟩)
      exact (hfair.first (hvoid d hd).totalShares).ne' (hvoid d hd).issued
    | _ => trivial

-- The deposits are fair, and nobody redeems more than was deposited, if and only if there are no
-- deposits.
theorem share_fairness_iff (hmin : 1000 ≤ cfg.minimumDeposit) (hprice : 0 ≤ price)
    (authorities : List Auth) (assets : A)
    (events : List (Event Acc Auth AuthSign Sign))
    (hp : Run.Along Exchange.step (AtPrice price)
      (genesis authorities assets : Exchange Acc Auth A cfg) events) :
    (Run.Along Exchange.step (fun e event => ∀ d ∈ deposits e event, d.Fair)
      (genesis authorities assets : Exchange Acc Auth A cfg) events ∧
      ∀ lp, Run.total Exchange.step (redeemed price lp)
          (genesis authorities assets : Exchange Acc Auth A cfg) events ≤
        Run.total Exchange.step (deposited price lp)
          (genesis authorities assets : Exchange Acc Auth A cfg) events) ↔
    Run.Along Exchange.step NoDeposit (genesis authorities assets : Exchange Acc Auth A cfg)
      events := by
  have h₀ : Shareless (genesis authorities assets : Exchange Acc Auth A cfg) :=
    ⟨unissued_genesis authorities assets, .empty, by simp [genesis]⟩
  have hinv := fun x hx => hp.invariant_trace (motive := Shareless) h₀
    (fun e event hp h => h.step hmin hprice hp) (e := x) hx
  constructor
  case mp =>
    rintro ⟨hfair, _⟩ x hx
    exact (hinv x hx).noDeposit hmin hprice (hp x hx) (hfair x hx)
  case mpr =>
    intro hno
    refine ⟨fun x hx d hd => ?_, fun lp => ?_⟩
    · rw [deposits_of_noDeposit (hno x hx)] at hd
      cases hd
    · refine sum_le_sum fun x hx => ?_
      rw [redeemed_eq_zero (hinv x hx).egress, deposited, deposits_of_noDeposit (hno x hx)]
      simp

end Exchange

namespace Mock

open Ocex (unitBalance)
open Ocex.Mock (Account AuthSig Sig config)

attribute [local instance] Decimal.HalfEven.faithfulArith Ocex.Mock.percent

def Empty (world : Ocex.Mock.World) (asset : AssetId) : Prop :=
  ∀ account, world account asset = 0

namespace Empty

variable {world world' : Ocex.Mock.World} {asset asset' : AssetId} {account payer payee : Account}
  {amount : ℕ}

theorem setBalance (h : Empty world asset) (ha : asset = asset' → amount = 0) :
    Empty (Bank.setBalance world account asset' amount) asset := by
  intro account'
  rw [Bank.setBalance_apply]
  split_ifs with hk
  · exact ha hk.2
  · exact h account'

theorem transfer (h : Empty world asset)
    (ht : Ocex.Mock.transfer world asset' payer payee amount = .ok world') : Empty world' asset := by
  simp only [Ocex.Mock.transfer] at ht
  split_ifs at ht with hlt
  have hzero (ha : asset = asset') : amount = 0 := by
    subst ha
    simpa [h payer] using hlt
  cases ht
  have hpayer : Empty (Bank.setBalance world payer asset' (world payer asset' - amount)) asset :=
    h.setBalance fun ha => by rw [← ha, h payer, Nat.zero_sub]
  refine hpayer.setBalance fun ha => ?_
  have hpayee := hpayer payee
  rw [ha] at hpayee
  exact Nat.add_eq_zero_iff.mpr ⟨hpayee, hzero ha⟩

end Empty

theorem issuance_eq_zero {b : Bank} {id : ℕ} :
    Fungibles.totalIssuance Account b id = 0 ↔ Empty b.balances (.asset id) := by
  simp [Fungibles.totalIssuance, Bank.issuance, Empty]

theorem empty_onBalances {b b' : Bank} {asset : AssetId}
    {f : Ocex.Mock.World → Except Ocex.DispatchError Ocex.Mock.World} (h : b.onBalances f = .ok b')
    (hf : ∀ {w w'}, f w = .ok w' → Empty w asset → Empty w' asset) (hb : Empty b.balances asset) :
    Empty b'.balances asset := by
  obtain ⟨w, hw, rfl⟩ := Except.map_eq_ok.mp h
  exact hf hw hb

theorem empty_assetMove {b b' : Bank} {id : ℕ} (h : @AssetMove Account Bank _ _ _ _ (· = 0) b b')
    (hb : Empty b.balances (.asset id)) : Empty b'.balances (.asset id) := by
  cases h with
  | transfer h =>
    simp only [Ocex.Assets.transfer] at h
    split at h
    · exact empty_onBalances h (fun ht hw => hw.transfer ht) hb
    · exact empty_onBalances h (fun ht hw => hw.transfer ht) hb
  | transferPreserve h =>
    refine empty_onBalances h (fun ht hw => ?_) hb
    simp only [Bank.transferPreserve] at ht
    split_ifs at ht
    exact hw.transfer ht
  | transferAllowDeath h => exact empty_onBalances h (fun ht hw => hw.transfer ht) hb
  | burnNative h =>
    obtain ⟨w, hw, rfl⟩ := map_eq_some_iff.mp h
    simp only [Ocex.Assets.burnNative] at hw
    split_ifs at hw
    cases hw
    exact hb.setBalance (by simp)
  | parachainWithdraw h => cases h
  | create h =>
    simp only [Fungibles.create, Bank.create] at h
    split_ifs at h
    cases h
    exact hb
  | mintInto hm h =>
    refine empty_onBalances h (fun ht hw => ?_) hb
    rw [← Except.ok.inj ht]
    exact hw.setBalance fun ha => by rw [← ha, hw, hm]
  | burnFrom h =>
    refine empty_onBalances h (fun ht hw => ?_) hb
    simp only [Bank.burn] at ht
    split_ifs at ht
    rw [← Except.ok.inj ht]
    exact hw.setBalance fun ha => by rw [← ha, hw, Nat.zero_sub]

theorem issuance_of_create {b b' : Bank} {id minimum : ℕ} {admin : Account}
    (h : Fungibles.create b id admin minimum = .ok b') : Fungibles.totalIssuance Account b' id = 0 := by
  simp only [Fungibles.create, Bank.create] at h
  split_ifs at h with hc
  cases h
  exact not_not.mp fun hne => hc (.inr hne)

instance : LawfulIssuance Account Bank where
  create := issuance_of_create
  keep h hb := issuance_eq_zero.mpr (empty_assetMove h (issuance_eq_zero.mp hb))

-- The inventory is twice the deposit, which is credited twice.
def engine : IngressMessages Account → Option (EgressMessages Account)
  | .addLiquidity market pool lp _ _ _ =>
    some (.addLiquidityResult market pool lp 0 1 ⟨4, 0, by decide, by decide⟩)
  | _ => none

-- The account 3 is the first to deposit into a pool. The deposit is imported, and the reply is submitted.
def firstDeposit : List (Exchange.Event Account ℕ AuthSig Sig) :=
  (poolCalls 0).map .call ++ [
    .action (.blockImport 0 (fun _ => none) ((∅ : Std.TreeMap TradingPair Decimal).insert market 1)),
    .snapshot prices [(0, 7, 1, 0)],
    .call (.addLiquidity 0 3 market 2 unitBalance unitBalance),
    .action (.blockImport 0 engine ∅),
    .snapshot { prices with snapshotId := 2 } [(0, 7, 2, 0)]]

def start : Exchange Account ℕ Bank config :=
  .genesis [7] (bank [2, 3])

def imported : List (Deposit Account) :=
  (Run.trace Exchange.step start firstDeposit).flatMap fun x => Exchange.deposits x.1 x.2

theorem imported_eq : imported.map (fun d => (d.lp, d.value 1, d.totalShares.toRat, d.issued.toRat)) =
    [(3, 2, 0, 0)] := by
  decide +kernel

theorem atPrice_firstDeposit : Run.Along Exchange.step (Exchange.AtPrice 1) start firstDeposit := by
  have hat : ∀ event ∈ firstDeposit, ∀ e : Exchange Account ℕ Bank config, Exchange.AtPrice 1 e event := by
    simp only [firstDeposit, List.forall_mem_append, List.forall_mem_map, List.forall_mem_cons]
    refine ⟨fun _ _ _ => trivial, fun _ => by simp [Exchange.AtPrice], fun _ => trivial,
      fun _ => trivial, fun _ m market pool lp issued price inventory hm => ?_, fun _ => trivial, by simp⟩
    cases m <;> simp only [engine, reduceCtorEq, some.injEq, EgressMessages.addLiquidityResult.injEq]
      at hm
    rw [← hm.2.2.2.2.1, toRat_one]
  intro x hx
  obtain ⟨before, after, hsplit, _⟩ := Run.mem_trace_split hx
  exact hat x.2 (by simp [hsplit]) x.1

-- The run is not fair since it has a deposit.
theorem deposits_not_fair : ¬(Run.Along Exchange.step (fun e event => ∀ d ∈ Exchange.deposits e event, d.Fair)
      start firstDeposit ∧
    ∀ lp, Run.total Exchange.step (Exchange.redeemed 1 lp) start firstDeposit ≤
      Run.total Exchange.step (Exchange.deposited 1 lp) start firstDeposit) := by
  intro h
  have hno := (Exchange.share_fairness_iff (by decide) (by norm_num) [7] (bank [2, 3]) firstDeposit
    atPrice_firstDeposit).mp h
  have himported : imported = [] :=
    flatMap_eq_nil_iff.mpr fun x hx => Exchange.deposits_of_noDeposit (hno x hx)
  have heq := imported_eq
  simp [himported] at heq

-- The first depositor gives a value of 2 and gets no shares. There are still no shares afterwards.
theorem first_depositor_gets_nothing :
    (∃ x ∈ Run.trace Exchange.step start firstDeposit, ∃ d ∈ Exchange.deposits x.1 x.2,
      d.lp = 3 ∧ d.value 1 = 2 ∧ d.issued.toRat = 0 ∧ ¬d.Fair) ∧
    Fungibles.totalIssuance Account (Run.run Exchange.step start firstDeposit).chain.world.assets 106 =
      0 := by
  refine ⟨?_, by decide +kernel⟩
  have hmem : (3, 2, 0, 0) ∈
      imported.map fun d => (d.lp, d.value 1, d.totalShares.toRat, d.issued.toRat) := by
    rw [imported_eq]
    exact mem_singleton_self _
  obtain ⟨d, hd, heq⟩ := mem_map.mp hmem
  obtain ⟨x, hx, hd⟩ := mem_flatMap.mp hd
  simp only [Prod.mk.injEq] at heq
  obtain ⟨hlp, hvalue, htotal, hissued⟩ := heq
  exact ⟨x, hx, d, hd, hlp, hvalue, hissued, fun hf => (hf.first htotal).ne' hissued⟩

end Mock

end LiquidityMining
