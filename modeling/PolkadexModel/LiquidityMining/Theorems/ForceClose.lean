import PolkadexModel.Lib.Prorata
import PolkadexModel.LiquidityMining.Theorems.Pools

open List LiquidityMining.Fungibles

-- The funds of a pool that was closed by force, which the providers claim for their shares.
namespace LiquidityMining

open Ocex (AssetId TradingPair DispatchError RewardsAccount)

section Assets

variable {Acc A : Type} [Ocex.Assets Acc A] [Fungibles Acc A]

-- All that an account has of an asset is burned.
structure Burned (id : ℕ) (account : Acc) (a a' : A) : Prop where
  issuance : Fungibles.totalIssuance Acc a' id =
    Fungibles.totalIssuance Acc a id - Fungibles.reducibleBalance a id account
  rest : Fungibles.reducibleBalance a' id account = 0
  others : ∀ id' account', (id', account') ≠ (id, account) →
    Fungibles.reducibleBalance a' id' account' = Fungibles.reducibleBalance a id' account'
  minimum : ∀ id', Fungibles.minimumBalance Acc a' id' = Fungibles.minimumBalance Acc a id'

structure Transferred (id : ℕ) (payer payee : Acc) (amount : ℕ) (a a' : A) : Prop where
  issuance : ∀ id', Fungibles.totalIssuance Acc a' id' = Fungibles.totalIssuance Acc a id'
  paid : Fungibles.reducibleBalance a' id payer = Fungibles.reducibleBalance a id payer - amount
  received : Fungibles.reducibleBalance a' id payee = Fungibles.reducibleBalance a id payee + amount
  others : ∀ id' account, (id', account) ≠ (id, payer) → (id', account) ≠ (id, payee) →
    Fungibles.reducibleBalance a' id' account = Fungibles.reducibleBalance a id' account
  minimum : ∀ id', Fungibles.minimumBalance Acc a' id' = Fungibles.minimumBalance Acc a id'

variable (Acc A) in
-- What is used of the assets. Nothing is lost of an asset whose least balance is one.
class LawfulFungibles where
  canReceive : A → ℕ → Acc → ℕ → Prop
  le_issuance : ∀ (a : A) (id : ℕ) (account : Acc),
    Fungibles.reducibleBalance a id account ≤ Fungibles.totalIssuance Acc a id
  burnFrom : ∀ (a : A) (id : ℕ) (account : Acc), 0 < Fungibles.reducibleBalance a id account →
    ∃ a', Fungibles.burnFrom a id account (Fungibles.reducibleBalance a id account) .force = .ok a' ∧
      Burned id account a a'
  transferOther : ∀ (a : A) (id : ℕ) (payer payee : Acc) (amount : ℕ), payer ≠ payee →
    Fungibles.minimumBalance Acc a id ≤ 1 → amount ≤ Fungibles.reducibleBalance a id payer →
    canReceive a id payee amount → ∃ a', Ocex.Assets.transferOther a id payer payee amount = .ok a' ∧
      Transferred id payer payee amount a a'

end Assets

section Pools

variable {Acc Auth AuthSign A : Type} [Ord Acc] {cfg : Ocex.Config}
  [Ocex.Assets Acc A] [Fungibles Acc A]

def pot (s : Chain Acc Auth A cfg) (config : MarketMakerConfig Acc) (id : ℕ) : Pot where
  balance := Fungibles.reducibleBalance s.world.assets id config.poolId
  shares := Fungibles.totalIssuance Acc s.world.assets config.shareId

def sharesOf (s : Chain Acc Auth A cfg) (config : MarketMakerConfig Acc)
    (lp : Acc) : ℕ :=
  Fungibles.reducibleBalance s.world.assets config.shareId lp

section Claims

variable [LawfulFungibles Acc A]

-- The account can receive both payments, at the time when they are made.
def CanReceive (a : A) (pool lp : Acc) (base quote amount : ℕ) : Prop :=
  LawfulFungibles.canReceive a base lp amount ∧
  ∀ a', Ocex.Assets.transferOther a base pool lp amount = .ok a' →
    LawfulFungibles.canReceive a' quote lp amount

-- A claim of a provider with shares. The pool has the same balance of both assets, none of which is
-- the native currency, and the products do not overflow.
structure Claimable (config : MarketMakerConfig Acc) (base quote : ℕ)
    (s : Chain Acc Auth A cfg) (lp : Acc) : Prop where
  distinct : [config.shareId, base, quote].Nodup
  lp_ne : config.poolId ≠ lp
  shares : 0 < sharesOf s config lp
  base_minimum : Fungibles.minimumBalance Acc s.world.assets base ≤ 1
  quote_minimum : Fungibles.minimumBalance Acc s.world.assets quote ≤ 1
  balanced : (pot s config quote).balance = (pot s config base).balance
  fits : (pot s config base).balance * sharesOf s config lp < 2 ^ 128
  receive : ∀ a, Fungibles.burnFrom s.world.assets config.shareId lp (sharesOf s config lp) .force = .ok a →
    CanReceive a config.poolId lp base quote ((pot s config base).part (sharesOf s config lp))

-- The effect of a claim.
structure Paid (config : MarketMakerConfig Acc) (base quote : ℕ) (lp : Acc)
    (s s' : Chain Acc Auth A cfg) : Prop where
  pools : s'.world.pools = s.world.pools
  pots : ∀ id ∈ [base, quote], pot s' config id = (pot s config id).claim (sharesOf s config lp)
  received : ∀ id ∈ [base, quote], Fungibles.reducibleBalance s'.world.assets id lp =
    Fungibles.reducibleBalance s.world.assets id lp + (pot s config id).part (sharesOf s config lp)
  burned : sharesOf s' config lp = 0
  others : ∀ account, account ≠ lp → sharesOf s' config account = sharesOf s config account

variable {market : TradingPair} {maker lp : Acc} {config : MarketMakerConfig Acc}
  {base quote : ℕ} {s : Chain Acc Auth A cfg}

theorem amountToClaim_part {p : Pot} (hp : 0 < p.shares) (h : p.balance * n < 2 ^ 128) :
    amountToClaim p.balance n p.shares = .ok (p.part n) := by
  rw [amountToClaim, if_neg hp.ne', min_eq_left (Word.lt_two_pow_iff.mp h)]
  rfl

theorem Claimable.claim (hc : s.world.pools (market, maker) = some config)
    (hf : config.forceClosed = true) (hb : market.base = .asset base) (hq : market.quote = .asset quote)
    (h : Claimable config base quote s lp) :
    ∃ s', claimForceClosedPoolFunds s lp market maker = .ok s' ∧ Paid config base quote lp s s' := by
  have hle : sharesOf s config lp ≤ (pot s config base).shares := LawfulFungibles.le_issuance ..
  have hpos : 0 < (pot s config base).shares := h.shares.trans_le hle
  have hamount := amountToClaim_part hpos h.fits
  have hpart := Pot.part_le hle
  have hpot : pot s config quote = pot s config base := congrArg (Pot.mk · _) h.balanced
  have hne {id id' : ℕ} {x y : Acc} (hid : id ≠ id') : (id, x) ≠ (id', y) :=
    fun he => hid (congrArg Prod.fst he)
  obtain ⟨⟨hsb, hsq⟩, hbq⟩ : (config.shareId ≠ base ∧ config.shareId ≠ quote) ∧ base ≠ quote := by
    simpa using h.distinct
  -- The shares are burned, and both amounts are transferred.
  obtain ⟨a₁, h₁, hburn⟩ := LawfulFungibles.burnFrom s.world.assets config.shareId lp h.shares
  obtain ⟨hreceive, hreceive'⟩ := h.receive a₁ h₁
  have hbase : reducibleBalance a₁ base config.poolId = (pot s config base).balance :=
    hburn.others _ _ (hne hsb.symm)
  obtain ⟨a₂, h₂, ht⟩ := LawfulFungibles.transferOther a₁ base config.poolId lp
    ((pot s config base).part (sharesOf s config lp)) h.lp_ne (hburn.minimum base ▸ h.base_minimum)
    (hbase ▸ hpart) hreceive
  have hquote : reducibleBalance a₂ quote config.poolId = (pot s config base).balance := by
    rw [ht.others _ _ (hne hbq.symm) (hne hbq.symm), hburn.others _ _ (hne hsq.symm)]
    exact h.balanced
  obtain ⟨a₃, h₃, ht'⟩ := LawfulFungibles.transferOther a₂ quote config.poolId lp
    ((pot s config base).part (sharesOf s config lp)) h.lp_ne
    (by rw [ht.minimum, hburn.minimum]; exact h.quote_minimum) (hquote ▸ hpart) (hreceive' a₂ h₂)
  have hshares (account : Acc) : reducibleBalance a₃ config.shareId account =
      reducibleBalance a₁ config.shareId account := by
    rw [ht'.others _ _ (hne hsq) (hne hsq), ht.others _ _ (hne hsb) (hne hsb)]
  have hissuance : totalIssuance Acc a₃ config.shareId =
      (pot s config base).shares - sharesOf s config lp := by
    rw [ht'.issuance, ht.issuance]
    exact hburn.issuance
  refine ⟨{ s with world := { s.world with assets := a₃ } }, ?_, rfl, ?pots, ?received, ?burned, ?others⟩
  · simp only [claimForceClosedPoolFunds, bind_eq_ok, orElse_eq_ok, ensure_eq_ok,
      pure_eq_ok]
    exact ⟨config, hc, (), hf, base, by rw [hb]; rfl, _, hamount, _, hamount, a₁, h₁, a₂, h₂, quote,
      by rw [hq]; rfl, a₃, h₃, rfl⟩
  case pots =>
    rw [forall_mem_cons, forall_mem_singleton]
    constructor
    · refine congrArg₂ Pot.mk ?_ hissuance
      show reducibleBalance a₃ base config.poolId = _
      rw [ht'.others _ _ (hne hbq) (hne hbq), ht.paid, hbase]
    · rw [hpot]
      refine congrArg₂ Pot.mk ?_ hissuance
      show reducibleBalance a₃ quote config.poolId = _
      rw [ht'.paid, hquote]
  case received =>
    rw [forall_mem_cons, forall_mem_singleton]
    constructor
    · show reducibleBalance a₃ base lp = _
      rw [ht'.others _ _ (hne hbq) (hne hbq), ht.received, hburn.others _ _ (hne hsb.symm)]
    · show reducibleBalance a₃ quote lp = _
      rw [hpot, ht'.received, ht.others _ _ (hne hbq.symm) (hne hbq.symm),
        hburn.others _ _ (hne hsq.symm)]
  case burned => exact (hshares lp).trans hburn.rest
  case others =>
    exact fun account ha => (hshares account).trans (hburn.others _ _ fun he => ha (congrArg Prod.snd he))

def claimStep (market : TradingPair) (maker : Acc) (s : Chain Acc Auth A cfg)
    (lp : Acc) : Option (Chain Acc Auth A cfg) :=
  (claimForceClosedPoolFunds s lp market maker).toOption

def received (market : TradingPair) (maker : Acc) (id : ℕ) (s : Chain Acc Auth A cfg)
    (lp : Acc) : ℕ :=
  Fungibles.reducibleBalance (Run.exec (claimStep market maker) s lp).world.assets id lp -
    Fungibles.reducibleBalance s.world.assets id lp

-- The pool, and that it is closed.
structure Closed (market : TradingPair) (maker : Acc) (config : MarketMakerConfig Acc)
    (base quote : ℕ) (s : Chain Acc Auth A cfg) : Prop where
  pool : s.world.pools (market, maker) = some config
  forceClosed : config.forceClosed = true
  base : market.base = .asset base
  quote : market.quote = .asset quote

theorem Claimable.exec (hc : Closed market maker config base quote s)
    (h : Claimable config base quote s lp) : (claimStep market maker s lp).isSome ∧
      Paid config base quote lp s (Run.exec (claimStep market maker) s lp) ∧
      ∀ id ∈ [base, quote], received market maker id s lp =
        (pot s config id).part (sharesOf s config lp) := by
  obtain ⟨s', hs, hp⟩ := h.claim hc.pool hc.forceClosed hc.base hc.quote
  have hstep : claimStep market maker s lp = some s' := toOption_eq_some.mpr hs
  have hexec := Run.exec_of_some hstep
  refine ⟨hstep ▸ rfl, hexec ▸ hp, fun id hid => ?_⟩
  rw [received, hexec, hp.received id hid, Nat.add_sub_cancel_left]

-- After some claims, the pots have what is left for the shares of the others.
structure Left (config : MarketMakerConfig Acc) (base quote : ℕ)
    (s : Chain Acc Auth A cfg) (k : ℕ) (t : Chain Acc Auth A cfg) : Prop where
  pools : t.world.pools = s.world.pools
  rest : ∀ id ∈ [base, quote], Pot.Rest k (pot s config id) (pot t config id)
  shares : ∀ account, sharesOf t config account = sharesOf s config account ∨ sharesOf t config account = 0
  issuance : (pot t config base).shares ≤ (pot s config base).shares

theorem Left.step (h : Left config base quote s k t)
    (hcl : Claimable config base quote t lp) (hp : Paid config base quote lp t t') :
    Left config base quote s (k + 1) t' := by
  have hle : sharesOf t config lp ≤ (pot t config base).shares := LawfulFungibles.le_issuance ..
  have hpos : 0 < (pot t config base).shares := hcl.shares.trans_le hle
  refine ⟨hp.pools.trans h.pools, fun id hid => ?_, fun account => ?_, ?_⟩
  · rw [hp.pots id hid]
    exact (h.rest id hid).claim (hpos.trans_le h.issuance) hpos hle
  · by_cases ha : account = lp
    · exact .inr (ha ▸ hp.burned)
    · rw [hp.others account ha]
      exact h.shares account
  · rw [hp.pots base mem_cons_self]
    exact (Nat.sub_le ..).trans h.issuance

theorem left_run (hc : Closed market maker config base quote s)
    (h : Run.Along (claimStep market maker) (Claimable config base quote) s lps) :
    Left config base quote s lps.length (Run.run (claimStep market maker) s lps) ∧
    ∀ id ∈ [base, quote], Run.total (claimStep market maker) (received market maker id) s lps +
      (pot (Run.run (claimStep market maker) s lps) config id).balance = (pot s config id).balance := by
  refine h.induction (motive := fun lps t => Left config base quote s lps.length t ∧
    ∀ id ∈ [base, quote], Run.total (claimStep market maker) (received market maker id) s lps +
      (pot t config id).balance = (pot s config id).balance) ?nil ?snoc
  case nil => exact ⟨⟨rfl, fun _ _ => .refl _, fun _ => .inl rfl, le_rfl⟩, fun _ _ => by simp [Run.total]⟩
  case snoc =>
    rintro lps lp h ⟨hl, htotal⟩
    set t := Run.run (claimStep market maker) s lps with ht
    have hcl : Claimable config base quote t lp := h.last
    obtain ⟨_, hp, hr⟩ := hcl.exec { hc with pool := hl.pools ▸ hc.pool }
    refine ⟨?_, fun id hid => ?_⟩
    · rw [length_append]
      exact hl.step hcl hp
    · have hle : (pot t config id).part (sharesOf t config lp) ≤ (pot t config id).balance :=
        Pot.part_le (LawfulFungibles.le_issuance ..)
      have htotal := htotal id hid
      have hbalance := congrArg Pot.balance (hp.pots id hid)
      simp only [Pot.claim] at hbalance
      simp only [Run.total, Run.trace_append, map_append, sum_append, Run.trace_cons,
        Run.trace_nil, map_cons, map_nil, sum_cons, sum_nil] at htotal ⊢
      rw [hbalance, ← ht, hr id hid]
      omega

-- Every claim is accepted, and it brings the part of both balances for the shares. In total, it is not
-- more than the balances.
theorem force_closed_payout (hc : Closed market maker config base quote s) {lps : List Acc}
    (h : Run.Along (claimStep market maker) (Claimable config base quote) s lps) :
    ∀ id ∈ [base, quote],
      (∀ before lp after, before ++ lp :: after = lps →
        (claimStep market maker (Run.run (claimStep market maker) s before) lp).isSome ∧
        (pot s config id).InProportion before.length (sharesOf s config lp)
          (received market maker id (Run.run (claimStep market maker) s before) lp)) ∧
      Run.total (claimStep market maker) (received market maker id) s lps ≤ (pot s config id).balance := by
  intro id hid
  constructor
  case left =>
    rintro before lp after rfl
    have hbefore : Run.Along (claimStep market maker) (Claimable config base quote) s (before ++ [lp]) := by
      rw [← singleton_append, ← append_assoc] at h
      exact h.of_append
    obtain ⟨hl, _⟩ := left_run hc hbefore.of_append
    set t := Run.run (claimStep market maker) s before
    have hcl : Claimable config base quote t lp := hbefore.last
    obtain ⟨hsome, _, hr⟩ := hcl.exec { hc with pool := hl.pools ▸ hc.pool }
    have hle : sharesOf t config lp ≤ (pot t config id).shares := LawfulFungibles.le_issuance ..
    have hpos : 0 < (pot t config id).shares := hcl.shares.trans_le hle
    refine ⟨hsome, ?_⟩
    rw [hr id hid, ← (hl.shares lp).resolve_right hcl.shares.ne']
    exact (hl.rest id hid).part (hpos.trans_le hl.issuance) hpos hle
  case right =>
    have htotal := (left_run hc h).2 id hid
    omega

end Claims

end Pools

namespace Mock

open Ocex (unitBalance)
open Ocex.Mock (Account AuthSig World config)

attribute [local instance] Decimal.HalfEven.arith Ocex.Mock.percent

namespace Bank

theorem sum_setBalance (world : World) (account : Account) (asset : AssetId) (n : ℕ) :
    ∑ a, setBalance world account asset n a asset + world account asset = ∑ a, world a asset + n := by
  have hupdate : (fun a => setBalance world account asset n a asset) =
      Function.update (fun a => world a asset) account n := by
    funext a
    simp [setBalance_apply, Function.update_apply]
  have hrest := Finset.add_sum_erase _ (fun a => world a asset) (Finset.mem_univ account)
  rw [Finset.erase_eq] at hrest
  rw [hupdate, Finset.sum_update_of_mem (Finset.mem_univ _)]
  omega

theorem sum_setBalance_of_ne (world : World) (account : Account) (n : ℕ)
    (h : asset' ≠ asset) : ∑ a, setBalance world account asset n a asset' = ∑ a, world a asset' := by
  simp [setBalance_apply, h]

theorem burned (b : Bank) (id : ℕ) (account : Account) : Burned id account b
    ⟨setBalance b.balances account (.asset id)
      (b.balances account (.asset id) - b.balances account (.asset id)), b.created⟩ := by
  refine ⟨?_, ?_, fun id' account' hne => ?_, fun _ => rfl⟩
  · have hsum := sum_setBalance b.balances account (.asset id)
      (b.balances account (.asset id) - b.balances account (.asset id))
    simp only [totalIssuance, reducibleBalance, issuance] at hsum ⊢
    omega
  · simp [reducibleBalance, setBalance_apply]
  · refine (setBalance_apply ..).trans (if_neg fun he => hne ?_)
    exact Prod.ext (AssetId.asset.inj he.2) he.1

theorem transferred (b : Bank) (id : ℕ) (hne : payer ≠ payee)
    (hle : amount ≤ b.balances payer (.asset id)) : Transferred id payer payee amount b
    ⟨setBalance (setBalance b.balances payer (.asset id) (b.balances payer (.asset id) - amount)) payee
      (.asset id) (setBalance b.balances payer (.asset id) (b.balances payer (.asset id) - amount) payee
        (.asset id) + amount), b.created⟩ := by
  have hpayee : setBalance b.balances payer (.asset id) (b.balances payer (.asset id) - amount) payee
      (.asset id) = b.balances payee (.asset id) := by
    simp [setBalance_apply, hne.symm]
  rw [hpayee]
  refine ⟨fun id' => ?_, ?_, ?_, fun id' account hp hq => ?_, fun _ => rfl⟩
  · simp only [totalIssuance, issuance]
    by_cases hid : id' = id
    · subst hid
      have h₁ := sum_setBalance b.balances payer (.asset id') (b.balances payer (.asset id') - amount)
      have h₂ := sum_setBalance (setBalance b.balances payer (.asset id')
        (b.balances payer (.asset id') - amount)) payee (.asset id')
        (b.balances payee (.asset id') + amount)
      omega
    · have hasset : AssetId.asset id' ≠ .asset id := fun he => hid (AssetId.asset.inj he)
      rw [sum_setBalance_of_ne _ _ _ hasset, sum_setBalance_of_ne _ _ _ hasset]
  · simp [reducibleBalance, setBalance_apply, hne]
  · simp [reducibleBalance, setBalance_apply]
  · have hother {x : Account} (h : (id', account) ≠ (id, x)) :
        ¬(account = x ∧ AssetId.asset id' = .asset id) :=
      fun he => h (Prod.ext (AssetId.asset.inj he.2) he.1)
    simp only [reducibleBalance, setBalance_apply, if_neg (hother hp), if_neg (hother hq)]

end Bank

instance : LawfulFungibles Account Bank where
  canReceive _ _ _ _ := True
  le_issuance b id account := Finset.single_le_sum (f := fun a => b.balances a (.asset id))
    (fun _ _ => Nat.zero_le _) (Finset.mem_univ account)
  burnFrom b id account _ :=
    ⟨_, congrArg (Except.map _) (if_neg (lt_irrefl _)), b.burned id account⟩
  transferOther b id _ _ _ hne _ hle _ :=
    ⟨_, congrArg (Except.map _) (if_neg (not_lt.mpr hle)), b.transferred id hne hle⟩

-- The accounts 2 and 3 have got shares, and the pool is closed with the amounts that were freed.
def closing (shares₂ shares₃ baseFreed quoteFreed : Decimal) : Ocex.SnapshotSummary Account where
  validatorSetId := 0
  snapshotId := 1
  stateHash := 0
  stateChangeId := 0
  lastProcessedBlk := 0
  withdrawals := []
  egressMessages := [.addLiquidityResult (.ofPair market.base market.quote) 6 2 shares₂ 1 1,
    .addLiquidityResult (.ofPair market.base market.quote) 6 3 shares₃ 1 1,
    .poolForceClosed (.ofPair market.base market.quote) 6 baseFreed quoteFreed]
  traderMetrics := none

def closed (shares₂ shares₃ baseFreed quoteFreed : Decimal) : Chain Account ℕ Bank config :=
  Run.run step (genesis [7] (bank [0, 2, 3]))
    (poolCalls 0 ++ [.ocex (.call (.submitSnapshot (closing shares₂ shares₃ baseFreed quoteFreed)
      [(0, 7, 1, 0)]))])

-- One planck more than a unit, because the pool has got one planck more of the quote asset before.
def unitAndPlanck : Decimal :=
  ⟨1000000000001, 12, by decide, by decide⟩

def evenlyClosed : Chain Account ℕ Bank config :=
  closed Ocex.Mock.two 1 unitAndPlanck 1

theorem claimable {s : Chain Account ℕ Bank config} {lp : Account}
    (hp : poolConfig.poolId = 6) (hs : poolConfig.shareId = 106) (hlp : 6 ≠ lp)
    (h : 0 < s.world.assets.balances lp (.asset 106) ∧
      s.world.assets.balances 6 (.asset 2) = s.world.assets.balances 6 (.asset 1) ∧
      s.world.assets.balances 6 (.asset 1) * s.world.assets.balances lp (.asset 106) < 2 ^ 128) :
    Claimable poolConfig 1 2 s lp := by
  refine ⟨?_, ?_, ?_, le_rfl, le_rfl, ?_, ?_, fun _ _ => ⟨trivial, fun _ _ => trivial⟩⟩
  all_goals simp only [pot, sharesOf, hp, hs, reducibleBalance]
  · decide
  · exact hlp
  · exact h.1
  · exact h.2.1
  · exact h.2.2

theorem evenly_closed_claimable : ∃ config, config.poolId = 6 ∧
    Closed market 2 config 1 2 evenlyClosed ∧
    Run.Along (claimStep market 2) (Claimable config 1 2) evenlyClosed [3, 2] := by
  have hpool : (evenlyClosed.world.pools (market, 2)).map
      (fun c => (c.poolId, c.shareId, c.forceClosed)) = some (6, 106, true) := by
    decide +kernel
  obtain ⟨config, hc, hconfig⟩ := Option.map_eq_some_iff.mp hpool
  simp only [Prod.mk.injEq] at hconfig
  obtain ⟨hpoolId, hshareId, hclosed⟩ := hconfig
  refine ⟨config, hpoolId, ⟨hc, hclosed, rfl, rfl⟩, ?_⟩
  simp only [Run.Along, Run.trace_cons, Run.trace_nil, forall_mem_cons]
  exact ⟨claimable hpoolId hshareId (by decide) (by decide +kernel),
    claimable hpoolId hshareId (by decide) (by decide +kernel), by simp⟩

theorem evenly_closed_payout :
    Run.total (claimStep market 2) (received market 2 2) evenlyClosed [3, 2] = unitBalance + 2 ∧
    Run.total (claimStep market 2) (received market 2 2) evenlyClosed [3, 2] ≤
      Fungibles.reducibleBalance evenlyClosed.world.assets 2 (6 : Account) := by
  obtain ⟨poolConfig, hp, hc, h⟩ := evenly_closed_claimable
  refine ⟨by decide +kernel, hp ▸ (force_closed_payout hc h 2 (by simp)).2⟩

-- The pool has less of the quote asset, so that the only provider cannot claim. If it has more, the
-- provider does not get all of it.
theorem closed_unevenly :
    (claimStep market 2 (closed 0 1 Ocex.Mock.two 1) 3).isNone ∧
    Fungibles.reducibleBalance (closed 0 1 1 Ocex.Mock.two).world.assets 2 (6 : Account) =
      2 * unitBalance + 2 ∧
    received market 2 2 (closed 0 1 1 Ocex.Mock.two) 3 = unitBalance + 1 := by
  decide +kernel

end Mock

end LiquidityMining
