import PolkadexModel.Ocex.Theorems.Custody

namespace Ocex

open Decimal (FaithfulArith nonneg_iff)

variable {Acc Auth W : Type}

-- What the execution of a message asks of the other pallets.
inductive Demand (Acc : Type)
  -- A payment by the account that holds the funds.
  | transfer (payee : Acc) (amount : ℕ) (asset : AssetId)
  | burn (amount : ℕ)
  -- More than an amount of the native currency can be spent.
  | spendable (amount : ℕ)
  | validPool (pool : Acc)
  | liquidityAdded (market : TradingPair) (pool lp : Acc) (shares price inventory : Decimal)
  | liquidityRemoved (market : TradingPair) (pool lp : Acc) (base quote : Decimal)
  | removalFailed (market : TradingPair) (pool lp : Acc) (burnFrac total baseFree quoteFree
      baseRequired quoteRequired : Decimal)
  | poolClosed (market : TradingPair) (pool : Acc) (base quote : Decimal)

section Messages

variable [PalletAccounts Acc] [Decimal.Arith] [Percent]

-- The fees of one asset. Those in the native currency are burned, if they are not distributed.
def feeDemands (distribution : Option (FeeDistribution Acc)) :
    AssetId × Decimal → List (Demand Acc)
  | (.asset id, fees) => [.transfer PalletAccounts.potAccount (planck fees) (.asset id)]
  | (.polkadex, fees) =>
    match distribution with
    | none   => [.burn (planck fees)]
    | some d =>
      [.spendable (planck fees), .burn (Percent.mul (min d.burnRation 100) (planck fees)),
        .transfer d.recipientAddress
          (planck fees - Percent.mul (min d.burnRation 100) (planck fees)) .polkadex]

def poolDemands (market : TradingPairConfig) (pool : Acc) (base quote : Decimal) :
    List (Demand Acc) :=
  [.validPool pool, .transfer pool (planck base) market.baseAsset,
    .transfer pool (planck quote) market.quoteAsset]

def EgressMessages.demands (distribution : Option (FeeDistribution Acc)) :
    EgressMessages Acc → List (Demand Acc)
  | .tradingFees fees => fees.toList.flatMap (feeDemands distribution)
  | .addLiquidityResult market pool lp shares price inventory =>
    [.liquidityAdded market.pair pool lp shares price inventory]
  | .removeLiquidityResult market pool lp base quote =>
    poolDemands market pool base quote ++ [.liquidityRemoved market.pair pool lp base quote]
  | .removeLiquidityFailed market pool lp burnFrac total baseFree quoteFree baseRequired
      quoteRequired =>
    [.removalFailed market.pair pool lp burnFrac total baseFree quoteFree baseRequired quoteRequired]
  | .poolForceClosed market pool base quote =>
    poolDemands market pool base quote ++ [.poolClosed market.pair pool base quote]
  | .priceOracle _ => []

end Messages

variable [PalletAccounts Acc] [Assets Acc W] [CrowdSourceLiquidityMining Acc W]

-- The storage of the other pallets after a demand, if they meet it.
def Demand.meet (world : W) : Demand Acc → Option W
  | .transfer payee amount asset =>
    (Assets.transfer world PalletAccounts.palletAccount payee amount asset).toOption
  | .burn amount => Assets.burnNative world (PalletAccounts.palletAccount : Acc) amount
  | .spendable amount =>
    if amount < Assets.reducibleNative world (PalletAccounts.palletAccount : Acc)
    then some world else none
  | .validPool pool =>
    if CrowdSourceLiquidityMining.isValidPoolId world pool then some world else none
  | .liquidityAdded market pool lp shares price inventory =>
    (CrowdSourceLiquidityMining.addLiquiditySuccess world market pool lp shares price
      inventory).toOption
  | .liquidityRemoved market pool lp base quote =>
    (CrowdSourceLiquidityMining.removeLiquiditySuccess world market pool lp base quote).toOption
  | .removalFailed market pool lp burnFrac total baseFree quoteFree baseRequired quoteRequired =>
    (CrowdSourceLiquidityMining.removeLiquidityFailed world market pool lp burnFrac total baseFree
      quoteFree baseRequired quoteRequired).toOption
  | .poolClosed market pool base quote =>
    (CrowdSourceLiquidityMining.poolForceCloseSuccess world market pool base quote).toOption

def Demand.meetAll (world : W) (ds : List (Demand Acc)) : Option W :=
  ds.foldlM meet world

theorem Demand.meetAll_append (world : W) (ds ds' : List (Demand Acc)) :
    meetAll world (ds ++ ds') = (meetAll world ds).bind (meetAll · ds') :=
  List.foldlM_append

theorem Demand.meetAll_singleton (world : W) (d : Demand Acc) : meetAll world [d] = d.meet world := by
  simp [meetAll]

variable [Ord Acc] {cfg : Config}

namespace State

-- The step `r` from the state `s` succeeds exactly if `p` holds and the demands are met one after the
-- other.
structure Demands (s : State Acc Auth W cfg) (p : Prop) (ds : List (Demand Acc))
    (r : Except DispatchError (State Acc Auth W cfg)) : Prop where
  sound : ∀ s', r = .ok s' → p ∧ Demand.meetAll s.world ds = some s'.world ∧
    s'.feeDistributionConfig = s.feeDistributionConfig
  complete : p → ∀ world, Demand.meetAll s.world ds = some world → ∃ s', r = .ok s'

namespace Demands

variable {s s' : State Acc Auth W cfg} {p q : Prop} {d : Demand Acc}
  {ds ds' : List (Demand Acc)} {r : Except DispatchError (State Acc Auth W cfg)}

theorem congr (h : Demands s p ds r) (hp : q ↔ p) : Demands s q ds r :=
  ⟨fun s' hr => (h.sound s' hr).imp_left hp.mpr, fun hq => h.complete (hp.mp hq)⟩

theorem isOk_iff (h : Demands s p ds r) :
    (∃ s', r = .ok s') ↔ p ∧ ∃ world, Demand.meetAll s.world ds = some world := by
  constructor
  · rintro ⟨s', hr⟩
    obtain ⟨hp, hw, _⟩ := h.sound s' hr
    exact ⟨hp, _, hw⟩
  · rintro ⟨hp, world, hw⟩
    exact h.complete hp world hw

theorem done (hw : s'.world = s.world) (hc : s'.feeDistributionConfig = s.feeDistributionConfig) :
    Demands s True [] (.ok s') where
  sound t ht := by
    cases ht
    exact ⟨trivial, congrArg some hw.symm, hc⟩
  complete _ _ _ := ⟨s', rfl⟩

theorem call (hd : d.meet s.world = x.toOption) :
    Demands s True [d] (x >>= fun world => .ok { s with world := world })  where
  sound t ht := by
    obtain ⟨world, hx, ht⟩ := bind_eq_ok.mp ht
    cases ht
    rw [Demand.meetAll_singleton, hd]
    exact ⟨trivial, toOption_eq_some.mpr hx, rfl⟩
  complete _ world hw := by
    rw [Demand.meetAll_singleton, hd] at hw
    exact ⟨_, bind_eq_ok.mpr ⟨world, toOption_eq_some.mp hw, rfl⟩⟩

theorem bind (h : Demands s p ds r)
    (hf : ∀ s', s'.feeDistributionConfig = s.feeDistributionConfig → Demands s' q ds' (f s')) :
    Demands s (p ∧ q) (ds ++ ds') (r >>= f)  where
  sound t ht := by
    obtain ⟨s', hr, ht⟩ := bind_eq_ok.mp ht
    obtain ⟨hp, hw, hc⟩ := h.sound s' hr
    obtain ⟨hq, hw', hc'⟩ := (hf s' hc).sound t ht
    rw [Demand.meetAll_append, hw]
    exact ⟨⟨hp, hq⟩, hw', hc'.trans hc⟩
  complete hpq world hw := by
    rw [Demand.meetAll_append, Option.bind_eq_some_iff] at hw
    obtain ⟨world', hw, hw'⟩ := hw
    obtain ⟨s', hr⟩ := h.complete hpq.1 world' hw
    obtain ⟨_, hs, hc⟩ := h.sound s' hr
    cases hw.symm.trans hs
    obtain ⟨t, ht⟩ := (hf s' hc).complete hpq.2 world hw'
    exact ⟨t, bind_eq_ok.mpr ⟨s', hr, ht⟩⟩

theorem guard [Decidable g]
    (hd : d.meet s.world = if g then some s.world else none) (h : Demands s p ds (f ())) :
    Demands s p (d :: ds) (ensure g e >>= f) := by
  have hcons : Demand.meetAll s.world (d :: ds) = (d.meet s.world).bind (Demand.meetAll · ds) := by
    rw [← List.singleton_append, Demand.meetAll_append, Demand.meetAll_singleton]
  rw [hd] at hcons
  by_cases hg : g
  case pos =>
    have hr : (ensure g e >>= f) = f () := by simp [ensure, hg, Bind.bind, Except.bind]
    rw [if_pos hg] at hcons
    rw [hr]
    exact ⟨fun t ht => hcons ▸ h.sound t ht, fun hp world hw => h.complete hp world (hcons.symm.trans hw)⟩
  case neg =>
    rw [if_neg hg] at hcons
    refine ⟨fun t ht => ?_, fun _ world hw => by simp [hcons] at hw⟩
    obtain ⟨_, he, _⟩ := bind_eq_ok.mp ht
    exact absurd (ensure_eq_ok.mp he) hg

theorem foldlM {α : Type} {f : State Acc Auth W cfg → α → Except DispatchError _}
    {p : α → Prop} {ds : α → List (Demand Acc)} (l : List α)
    (hf : ∀ s' a, s'.feeDistributionConfig = s.feeDistributionConfig → Demands s' (p a) (ds a) (f s' a)) :
    Demands s (∀ a ∈ l, p a) (l.flatMap ds) (l.foldlM f s) := by
  induction l generalizing s with
  | nil => exact (done rfl rfl).congr (by simp)
  | cons a l hi =>
    rw [List.foldlM_cons, List.flatMap_cons]
    refine ((hf s a rfl).bind fun s' hs => hi fun t b ht => hf t b (ht.trans hs)).congr ?_
    rw [List.forall_mem_cons]

variable [FaithfulArith]

theorem convert (h : Demands s p ds (f (planck x))) : Demands s (0 ≤ x ∧ p) ds (inPlanck x >>= f)  where
  sound t ht := by
    obtain ⟨n, hn, ht⟩ := bind_eq_ok.mp ht
    cases planck_of_inPlanck hn
    obtain ⟨hp, hs⟩ := h.sound t ht
    exact ⟨⟨nonneg_of_inPlanck hn, hp⟩, hs⟩
  complete hx world hw := by
    obtain ⟨n, hn⟩ : ∃ n, inPlanck x = .ok n := ⟨_, (inPlanck_eq_ok (nonneg_iff.mp hx.1)).mpr rfl⟩
    obtain ⟨t, ht⟩ := h.complete hx.2 world hw
    exact ⟨t, bind_eq_ok.mpr ⟨n, hn, planck_of_inPlanck hn ▸ ht⟩⟩

end Demands

section Functions

variable (s : State Acc Auth W cfg)

theorem demands_transferAsset (payee : Acc) (amount : ℕ) (asset : AssetId) :
    Demands s True [.transfer payee amount asset]
      (s.transferAsset PalletAccounts.palletAccount payee amount asset) :=
  .call rfl

theorem demands_burnFees (amount : ℕ) : Demands s True [.burn amount] (s.burnFees amount) := by
  refine .call ?_
  simp only [Demand.meet]
  cases Assets.burnNative s.world (PalletAccounts.palletAccount : Acc) amount <;> rfl

variable [FaithfulArith] [Percent]

theorem demands_processTradingFees (e : AssetId × Decimal) :
    Demands s (0 ≤ e.2) (feeDemands s.feeDistributionConfig e) (s.processTradingFees e) := by
  obtain ⟨asset, fees⟩ := e
  have hevent (s' : State Acc Auth W cfg) :
      Demands s' True [] (.ok (s'.depositEvent (.tradingFeesBurned asset (planck fees)))) :=
    .done rfl rfl
  have hpay : Demands s True (feeDemands s.feeDistributionConfig (asset, fees))
      (s.payFees (planck fees) asset) := by
    cases asset with
    | asset id => exact demands_transferAsset s _ _ _
    | polkadex =>
      simp only [payFees, feeDemands]
      cases s.feeDistributionConfig with
      | none => exact demands_burnFees s _
      | some d =>
        have hburn := demands_burnFees s (Percent.mul (min d.burnRation 100) (planck fees))
        exact .guard rfl ((hburn.bind fun s' _ => demands_transferAsset s' _ _ _).congr (by simp))
  have h : Demands s (0 ≤ fees ∧ True ∧ True) _ (s.processTradingFees (asset, fees)) :=
    .convert (hpay.bind fun s' _ => hevent s')
  rw [List.append_nil] at h
  exact h.congr (by simp)

omit [Percent] in
theorem demands_payPool (market : TradingPairConfig) (pool : Acc) (base quote : Decimal) :
    Demands s (0 ≤ base ∧ 0 ≤ quote) (poolDemands market pool base quote)
      (s.payPool market pool base quote) := by
  have hbase := demands_transferAsset s pool (planck base) market.baseAsset
  have hpay := hbase.bind fun s' _ => demands_transferAsset s' pool (planck quote) market.quoteAsset
  exact (Demands.guard rfl hpay.convert.convert).congr (by simp)

theorem demands_processEgress (msg : EgressMessages Acc) :
    Demands s (∀ e ∈ msg.payouts, 0 ≤ e.2) (msg.demands s.feeDistributionConfig)
      (s.processEgress msg) := by
  cases msg with
  | tradingFees fees =>
    refine .foldlM fees.toList fun s' e hs => ?_
    rw [← hs]
    exact demands_processTradingFees s' e
  | addLiquidityResult | removeLiquidityFailed =>
    exact (Demands.call rfl).congr (by simp [EgressMessages.payouts])
  | removeLiquidityResult market pool lp base quote =>
    have h := (demands_payPool s market pool base quote).bind fun s' _ =>
      Demands.call (d := .liquidityRemoved market.pair pool lp base quote) rfl
    exact h.congr (by simp [EgressMessages.payouts])
  | poolForceClosed market pool base quote =>
    have h := (demands_payPool s market pool base quote).bind fun s' _ =>
      Demands.call (d := .poolClosed market.pair pool base quote) rfl
    exact h.congr (by simp [EgressMessages.payouts])
  | priceOracle prices =>
    have h : Demands s True [] (s.processEgress (.priceOracle prices)) := .done rfl rfl
    exact h.congr (by simp [EgressMessages.payouts])

theorem processEgressMsg_isOk (msgs : List (EgressMessages Acc)) :
    (∃ s', s.processEgressMsg msgs = .ok s') ↔ msgs.length ≤ cfg.maxEgressMessages ∧
      (∀ msg ∈ msgs, ∀ e ∈ msg.payouts, 0 ≤ e.2) ∧
      ∃ world, Demand.meetAll s.world (msgs.flatMap (·.demands s.feeDistributionConfig)) = some world := by
  have h : Demands s _ _ (msgs.foldlM processEgress s) := .foldlM msgs fun s' msg hs =>
    hs ▸ demands_processEgress s' msg
  rw [← h.isOk_iff]
  simp only [processEgressMsg, bind_eq_ok, ensure_eq_ok]
  constructor
  · rintro ⟨s', _, hl, hs⟩
    exact ⟨hl, s', hs⟩
  · rintro ⟨hl, s', hs⟩
    exact ⟨s', (), hl, hs⟩

end Functions

end State

end Ocex
