import PolkadexModel.LiquidityMining.Theorems.Rewards
import PolkadexModel.Ocex.Theorems.Imports

open Decimal

-- A request to remove liquidity which the engine refuses. The shares were burned for it, and they are
-- given back.
namespace LiquidityMining

open Ocex (TradingPair TradingPairConfig IngressMessages EgressMessages OffchainState RewardsAccount)
open Ocex.State (Queues)
open Decimal (FaithfulArith nonneg_iff le_iff equiv_iff)

section Amounts

variable [FaithfulArith] {shares total : ℕ} {b t frac : Decimal}

theorem burnFrac_near (hb : Decimal.ofNat? shares = some b) (ht : Decimal.ofNat? total = some t)
    (hpos : 0 < total) (hle : shares ≤ total)
    (hfrac : frac.toRat = ((Decimal.Arith.checkedDiv b t).getD 0).toRat) :
    0 ≤ frac.toRat ∧ frac.toRat ≤ 1 ∧ |total * frac.toRat - shares| ≤ total / 10 ^ 28 := by
  have hbrat := toRat_ofNat? hb
  have htrat := toRat_ofNat? ht
  have htotal : (0 : ℚ) < total := by exact_mod_cast hpos
  have hq : (0 : ℚ) ≤ shares / total := by positivity
  have hq' : (shares : ℚ) / total ≤ 1 := div_le_one_of_le₀ (by exact_mod_cast hle) htotal.le
  have hf : ((Decimal.Arith.checkedDiv b t).getD 0).Faithful (shares / total) := by
    rw [← hbrat, ← htrat]
    exact faithful_checkedDiv (by rw [hbrat]; positivity) (by rwa [htrat])
      (by rw [hbrat, htrat]; exact_mod_cast hle)
  have hdiff := hf.abs_sub_le le_rfl hq (by linarith)
  rw [hfrac]
  refine ⟨hf.nonneg hq, by simpa using hf.le 1 (by simpa using hq'), ?_⟩
  set w := ((Decimal.Arith.checkedDiv b t).getD 0).toRat
  calc |total * w - shares| = |total * (w - shares / total)| := by
        rw [mul_sub, mul_div_cancel₀ _ htotal.ne']
    _ = total * |w - shares / total| := by rw [abs_mul, abs_of_pos htotal]
    _ ≤ total * (1 / 10 ^ 28) := by gcongr
    _ = total / 10 ^ 28 := by ring

theorem givenBack_near {total' : Decimal} (hb : Decimal.ofNat? shares = some b)
    (ht : Decimal.ofNat? total = some t) (hpos : 0 < total) (hle : shares ≤ total)
    (hfrac : frac.toRat = ((Decimal.Arith.checkedDiv b t).getD 0).toRat)
    (htotal : total'.toRat * 10 ^ 12 = total)
    (h : Storage.toBalance (total'.saturatingMul frac) = .ok minted) :
    |(minted : ℤ) - shares| ≤ ⌈(total : ℚ) / 10 ^ 28⌉ := by
  obtain ⟨hnn, hone, hnear⟩ := burnFrac_near hb ht hpos hle hfrac
  have hmax : (total : ℚ) + 1 ≤ 2 ^ 96 := by exact_mod_cast lt_of_ofNat? ht
  have htotal₀ : (0 : ℚ) ≤ total := by positivity
  have hexact : total'.toRat * frac.toRat * 10 ^ 12 = total * frac.toRat := by
    rw [← htotal]
    ring
  obtain ⟨hbelow, habove⟩ := Ocex.inPlanck_bracket (faithful_saturatingMul total' frac)
    (by nlinarith) (by rw [hexact]; nlinarith) (inPlanck_of_toBalance h)
  rw [hexact] at hbelow habove
  obtain ⟨hlow, hhigh⟩ := abs_le.mp hnear
  have hD := Int.le_ceil ((total : ℚ) / 10 ^ 28)
  have h₁ : (shares : ℤ) - ⌈(total : ℚ) / 10 ^ 28⌉ ≤ ⌊total * frac.toRat⌋ :=
    Int.le_floor.mpr (by push_cast; linarith)
  have h₂ : ⌈total * frac.toRat⌉ ≤ (shares : ℤ) + ⌈(total : ℚ) / 10 ^ 28⌉ :=
    Int.ceil_le.mpr (by push_cast; linarith)
  rw [abs_le]
  omega

end Amounts

-- Nothing is burned that was not issued.
class BurnsIssued (Acc A : Type) [Fungibles Acc A] : Prop where
  le_issuance : ∀ {a a' : A} {id n : ℕ} {account : Acc} {fortitude : Fortitude},
    Fungibles.burnFrom a id account n fortitude = .ok a' → n ≤ Fungibles.totalIssuance Acc a id

variable {Acc Auth AuthSign A : Type} [Ord Acc] {cfg : Ocex.Config}

def removalMessage [Decimal.Arith] (market : TradingPair) (pool lp : Acc) (burned total : Decimal) :
    IngressMessages Acc :=
  .removeLiquidity (.ofPair market.base market.quote) pool lp
    ((Decimal.Arith.checkedDiv burned total).getD 0) total

-- A message is in the queue of the block, or it was dropped because there is no space left.
def QueuedOrFull (s : Chain Acc Auth A cfg) (n : ℕ) (m : IngressMessages Acc) : Prop :=
  m ∈ (s.ingressMessages n).toList ∨ (s.ingressMessages n).toList.length = cfg.obIngressLimit

-- The refusal is about the market of the request and has the total in units, as the other amounts.
def Truthful (market : TradingPair) (total : ℕ) : EgressMessages Acc → Prop
  | .removeLiquidityFailed market' _ _ _ totalShares baseFree quoteFree _ _ =>
    market'.pair = market ∧ totalShares.toRat * 10 ^ 12 = total ∧ 0 ≤ baseFree ∧ 0 ≤ quoteFree
  | _ => False

section Requests

variable {s s' : Chain Acc Auth A cfg} {market : TradingPair} {maker lp : Acc}
  {shares epoch n : ℕ}

theorem QueuedOrFull.queues (hm : QueuedOrFull s n m) (h : Queues s ms s') : QueuedOrFull s' n m := by
  have hi := h.ingress n
  cases hm with
  | inl hm => exact .inl (hi ▸ List.mem_append_left _ hm)
  | inr hlen =>
    refine .inr (le_antisymm (s'.ingressMessages n).length_le ?_)
    rw [hi, List.length_append, hlen]
    exact Nat.le_add_right ..

variable [Decimal.Arith]

theorem queuedOrFull_removeLiquidity (h : s.removeLiquidity market pool lp shares total = .ok s') :
    ∃ b t, Decimal.ofNat? shares = some b ∧ Decimal.ofNat? total = some t ∧
      QueuedOrFull s' s.currentBlockNumber (removalMessage market pool lp b t) := by
  simp only [Ocex.State.removeLiquidity, bind_eq_ok, pure_eq_ok,
    Ocex.decimalFrom_eq_ok] at h
  obtain ⟨b, hb, t, ht, hs⟩ := h
  have hq := Queues.getD_pushIngressAt_cases (s := s) (removalMessage market pool lp b t)
  rw [removalMessage, hs] at hq
  refine ⟨b, t, hb, ht, ?_⟩
  split_ifs at hq with hlen
  · exact .inl (by simp [hq.ingress, removalMessage])
  · rw [hq]
    exact .inr (le_antisymm (s.ingressMessages _).length_le (not_lt.mp hlen))

theorem queuedOrFull_foldlM {requests : List (Acc × ℕ × ℕ)} (h : requests.foldlM (fun s request =>
      s.removeLiquidity market pool request.1 request.2.1 request.2.2) s = .ok s') :
    ∀ request ∈ requests, ∃ b t, Decimal.ofNat? request.2.1 = some b ∧
      Decimal.ofNat? request.2.2 = some t ∧
      QueuedOrFull s' s.currentBlockNumber (removalMessage market pool request.1 b t) := by
  induction requests generalizing s with
  | nil => simp
  | cons request requests hi =>
    obtain ⟨u, hu, h⟩ := foldlM_cons_eq_ok.mp h
    have hnext := Queues.removeLiquidity hu
    obtain ⟨_, _, _, _, _, _, hq⟩ := hnext
    refine List.forall_mem_cons.mpr ⟨?_, hq.currentBlockNumber ▸ hi h⟩
    obtain ⟨b, t, hb, ht, hm⟩ := queuedOrFull_removeLiquidity hu
    refine ⟨b, t, hb, ht, Except.foldlM_invariant
      (motive := fun v => QueuedOrFull v s.currentBlockNumber _) h hm fun v _ _ _ hv h => ?_⟩
    obtain ⟨_, _, _, _, _, _, hq⟩ := Queues.removeLiquidity h
    exact hv.queues hq

theorem queuedOrFull_initiateWithdrawal [DecidableEq Acc] (hc : s.world.pools (market, maker) = some config)
    (h : initiateWithdrawal s maker market epoch n = .ok s') :
    ∀ request ∈ (s.world.withdrawalRequests (epoch, config.poolId)).take n, ∃ b t,
      Decimal.ofNat? request.2.1 = some b ∧ Decimal.ofNat? request.2.2 = some t ∧
      QueuedOrFull s' s.currentBlockNumber (removalMessage market config.poolId request.1 b t) := by
  simp only [initiateWithdrawal, bind_eq_ok, orElse_eq_ok, hc, Option.some.injEq,
    exists_eq_left'] at h
  obtain ⟨t, ht, h⟩ := h
  split_ifs at h
  have hall := queuedOrFull_foldlM ht
  rw [← pure_eq_ok.mp h]
  exact hall

end Requests

section Replies

open Ocex.OffchainState (importMessage)

variable [FaithfulArith] [DecidableEq Acc] [Ocex.PalletAccounts Acc]

theorem exists_toBalance (h : 0 ≤ x.toRat) : ∃ n, Storage.toBalance x = .ok n :=
  ⟨_, orElse_eq_ok.mpr (Ocex.orElse_eq_ok.mp ((Ocex.inPlanck_eq_ok h).mpr rfl))⟩

omit [Ord Acc] in
-- What is checked of a refusal. The market and the total are not.
theorem importMessage_refusal {pool lp pool' lp' : Acc}
    (he : engine (.removeLiquidity market pool lp frac total) = some (.removeLiquidityFailed market' pool'
      lp' frac' total' baseFree quoteFree baseRequired quoteRequired))
    (h : importMessage allowlist engine (state, egress) (.removeLiquidity market pool lp frac total) =
      .ok (state', egress')) :
    pool = pool' ∧ lp = lp' ∧ frac ≈ frac' ∧ baseFree < baseRequired ∧ quoteFree < quoteRequired := by
  simp only [importMessage, OffchainState.importRemoveLiquidity, he, bind_eq_ok,
    pure_eq_ok, Ocex.check_eq_ok, equiv_iff, le_iff, lt_iff,
    not_le] at h ⊢
  obtain ⟨_, ⟨_, hp, _, hl, _, hf, _, hq, _, hb, _, hq', _, hb', _⟩, _⟩ := h
  exact ⟨hp, hl, hf, hb ▸ hb', hq ▸ hq'⟩

variable [Ocex.Assets Acc A] [Fungibles Acc A] [Ocex.Percent]

-- The reply succeeds if and only if the amount can be minted, and nothing else happens to the
-- currencies.
def GivesBack (s : Chain Acc Auth A cfg) (reply : EgressMessages Acc) (shareId : ℕ)
    (lp : Acc) (amount : ℕ) : Prop :=
  ∀ a, (∃ s', s.processEgress reply = .ok s' ∧ s'.world.assets = a) ↔
    Fungibles.mintInto s.world.assets shareId lp amount = .ok a

-- A message of a snapshot is processed after those before it.
def Processing (s : Chain Acc Auth A cfg)
    (metrics : Option (Ocex.TradingPairMetricsMap Acc)) (earlier : List (EgressMessages Acc))
    (s' : Chain Acc Auth A cfg) : Prop :=
  ∃ t, s.updateScores metrics = .ok t ∧ earlier.foldlM Ocex.State.processEgress t = .ok s'

variable {s s' : Chain Acc Auth A cfg}

theorem Processing.kept [Ocex.CrossChainGadget Acc A] [RewardsAccount Acc A]
    {metrics : Option (Ocex.TradingPairMetricsMap Acc)} {earlier : List (EgressMessages Acc)}
    (h : Processing s metrics earlier s') : s.world.Kept (fun _ => True) s'.world := by
  obtain ⟨t, ht, h⟩ := h
  have hm : Ocex.WorldMoves (fun _ => True) t.world s'.world :=
    Ocex.State.moves_foldlM (fun _ _ _ _ => Ocex.State.moves_processEgress trivial) h
  rw [← (Ocex.State.scores_updateScores ht).world]
  exact .worldMoves (fun _ _ _ _ => trivial) hm

theorem givesBack_of_toBalance {lp : Acc}
    (hp : s.world.resolvePool market.pair pool = .ok (maker, config))
    (hnonneg : ∀ x ∈ [frac, baseFree, quoteFree, baseRequired, quoteRequired], 0 ≤ x.toRat)
    (hm : Storage.toBalance (total.saturatingMul frac) = .ok minted) :
    GivesBack s (.removeLiquidityFailed market pool lp frac total baseFree quoteFree baseRequired
      quoteRequired) config.shareId lp minted := by
  intro a
  obtain ⟨n₁, h₁⟩ := exists_toBalance (hnonneg frac (by simp))
  obtain ⟨n₂, h₂⟩ := exists_toBalance (hnonneg baseFree (by simp))
  obtain ⟨n₃, h₃⟩ := exists_toBalance (hnonneg quoteFree (by simp))
  obtain ⟨n₄, h₄⟩ := exists_toBalance (hnonneg baseRequired (by simp))
  obtain ⟨n₅, h₅⟩ := exists_toBalance (hnonneg quoteRequired (by simp))
  simp only [Ocex.State.processEgress, Ocex.CrowdSourceLiquidityMining.removeLiquidityFailed,
    Storage.removeLiquidityFailed, bind_eq_ok, pure_eq_ok, h₁, h₂, h₃, h₄, h₅, hm, hp,
    Except.ok.injEq, exists_eq_left', Storage.onAssets, Except.map_eq_ok]
  constructor
  · rintro ⟨_, ⟨_, ⟨_, ⟨a', ha, rfl⟩, rfl⟩, rfl⟩, rfl⟩
    exact ha
  · intro ha
    exact ⟨_, ⟨_, ⟨_, ⟨a, ha, rfl⟩, rfl⟩, rfl⟩, rfl⟩

end Replies

section Runs

open Ocex.OffchainState (importMessage)

variable [DecidableEq Acc] [Ocex.PalletAccounts Acc] [Ocex.Assets Acc A]
  [Ocex.CrossChainGadget Acc A] [RewardsAccount Acc A] [Fungibles Acc A]
  [PoolAccounts Acc] [Ocex.Percent] [Ocex.Authority Acc Auth AuthSign]
  [CreatedAssets Acc A] [LawfulPoolAccounts Acc] [BurnsIssued Acc A]
  [FaithfulArith]

-- The shares that were burned for a request are given back, whatever else happens in the meantime.
theorem failed_removal_neutral (authorities : List Auth) (assets : A)
    {before between after : List (Call Acc Auth AuthSign)}
    {s s₁ s₂ u v : Chain Acc Auth A cfg} {market : TradingPair} {maker lp : Acc}
    {config : MarketMakerConfig Acc} {shares epoch n : ℕ}
    {metrics : Option (Ocex.TradingPairMetricsMap Acc)} {earlier : List (EgressMessages Acc)}
    (hs : Run.run step (genesis authorities assets) before = s)
    (hc : s.world.pools (market, maker) = some config)
    (hburn : step s (.removeLiquidity lp market maker shares :
      Call Acc Auth AuthSign) = some s₁)
    (hbetween : Run.run step s₁ between = s₂)
    (hrequest : (lp, shares, Fungibles.totalIssuance Acc s.world.assets config.shareId) ∈
      (s₂.world.withdrawalRequests (epoch, config.poolId)).take n)
    (hforward : step s₂ (.initiateWithdrawal maker market epoch n :
      Call Acc Auth AuthSign) = some u)
    (hafter : Processing (Run.run step u after) metrics earlier v) :
    ∃ b t, Decimal.ofNat? shares = some b ∧
      Decimal.ofNat? (Fungibles.totalIssuance Acc s.world.assets config.shareId) = some t ∧
      QueuedOrFull u s₂.currentBlockNumber (removalMessage market config.poolId lp b t) ∧
      ∀ allowlist engine state egress state' egress' reply,
        engine (removalMessage market config.poolId lp b t) = some reply →
        importMessage allowlist engine (state, egress) (removalMessage market config.poolId lp b t) =
          .ok (state', egress') →
        Truthful market (Fungibles.totalIssuance Acc s.world.assets config.shareId) reply →
        ∃ minted : ℕ, |(minted : ℤ) - shares| ≤
            ⌈(Fungibles.totalIssuance Acc s.world.assets config.shareId : ℚ) / 10 ^ 28⌉ ∧
          GivesBack v reply config.shareId lp minted := by
  -- The pool has the same terms at all times.
  have hr : s.world.Registered := hs ▸ registered_run (Storage.registered_genesis assets) before
  have hterms := Storage.terms_of_pools hc
  have hs₂ : Run.run step s (.removeLiquidity lp market maker shares :: between) = s₂ := by
    rw [Run.run_cons, Run.exec_of_some hburn, hbetween]
  have hu : Run.run step s₂ (.initiateWithdrawal maker market epoch n :: after) = Run.run step u after := by
    rw [Run.run_cons, Run.exec_of_some hforward]
  have hr₂ : s₂.world.Registered := hs₂ ▸ registered_run hr _
  have hterms₂ : s₂.world.records.terms (market, maker) = some config.terms := hs₂ ▸ terms_run hterms _
  have hkept := Storage.PoolStep.of_kept hafter.kept
  have hrv : v.world.Registered := (hu ▸ registered_run hr₂ _ : (Run.run step u after).world.Registered).step
    hkept
  have htermsv : v.world.records.terms (market, maker) = some config.terms :=
    hkept.terms (hu ▸ terms_run hterms₂ _)
  obtain ⟨config₂, hc₂, _, hpool, _⟩ := hr₂.resolve hterms₂
  obtain ⟨configv, _, hresolve, _, hshare⟩ := hrv.resolve htermsv
  -- The request, and its message.
  obtain ⟨_, hc', hne, hb, _⟩ := removeLiquidity_spec (toOption_eq_some.mp hburn)
  cases hc.symm.trans hc'
  have hpos := Nat.pos_of_ne_zero hne
  have hle := BurnsIssued.le_issuance hb
  obtain ⟨b, t, hb, ht, hm⟩ := queuedOrFull_initiateWithdrawal hc₂ (toOption_eq_some.mp hforward) _
    (hpool.symm ▸ hrequest)
  rw [hpool] at hm
  refine ⟨b, t, hb, ht, hm, fun allowlist engine state egress state' egress' reply he himport htruth => ?_⟩
  cases reply with
  | removeLiquidityFailed market' pool' lp' frac total' baseFree quoteFree baseRequired quoteRequired =>
    obtain ⟨rfl, htotal, hbase, hquote⟩ := htruth
    obtain ⟨rfl, rfl, hfrac, hbase', hquote'⟩ := importMessage_refusal he himport
    rw [equiv_iff] at hfrac
    rw [nonneg_iff] at hbase hquote
    rw [lt_iff] at hbase' hquote'
    obtain ⟨hfrac₀, _⟩ := burnFrac_near hb ht hpos hle hfrac.symm
    have htotal₀ : 0 ≤ total'.toRat := by
      have hnonneg : (0 : ℚ) ≤ total'.toRat * 10 ^ 12 := htotal ▸ Nat.cast_nonneg _
      linarith
    obtain ⟨minted, hminted⟩ := exists_toBalance ((faithful_saturatingMul total' frac).nonneg
      (mul_nonneg htotal₀ hfrac₀))
    refine ⟨minted, givenBack_near hb ht hpos hle hfrac.symm htotal hminted, ?_⟩
    rw [← hshare]
    refine givesBack_of_toBalance hresolve (fun x hx => ?_) hminted
    simp only [List.mem_cons, List.not_mem_nil, or_false] at hx
    rcases hx with rfl | rfl | rfl | rfl | rfl <;> linarith
  | _ => exact htruth.elim

end Runs

namespace Mock

open Ocex (unitBalance unitDecimal)
open Ocex.Mock (Account AuthSig config)
open Ocex.OffchainState (importMessage)

attribute [local instance] Decimal.HalfEven.faithfulArith Ocex.Mock.percent

theorem burned_le_issuance {b b' : Bank} {id n : ℕ} {account : Account}
    (h : Fungibles.burnFrom b id account n fortitude = .ok b') : n ≤ Fungibles.totalIssuance Account b id := by
  obtain ⟨_, hburn, _⟩ := Except.map_eq_ok.mp h
  simp only [Bank.burn] at hburn
  split_ifs at hburn with hlt
  exact (not_lt.mp hlt).trans (Finset.single_le_sum (f := fun a => b.balances a (.asset id))
    (fun _ _ => Nat.zero_le _) (Finset.mem_univ account))

instance : BurnsIssued Account Bank where
  le_issuance := burned_le_issuance

def issuing : Ocex.SnapshotSummary Account :=
  { prices with egressMessages := [.addLiquidityResult (.ofPair market.base market.quote) 6 3 1 1 1] }

def issued : Chain Account ℕ Bank config :=
  after (poolCalls 0 ++ [.ocex (.call (.submitSnapshot issuing [(0, 7, 1, 0)]))])

def burn : Call Account ℕ AuthSig :=
  .removeLiquidity 3 market 2 unitBalance

def forward : Call Account ℕ AuthSig :=
  .initiateWithdrawal 2 market 0 1

def forwarded : Chain Account ℕ Bank config :=
  Run.run step issued [burn, forward]

-- The pool has a unit of both assets on the exchange, none of which is free.
def funded : OffchainState Account :=
  (OffchainState.empty.addBalance 6 (.asset 1) 1).addBalance 6 (.asset 2) 1

def refuse (total : Decimal → Decimal) : IngressMessages Account → Option (EgressMessages Account)
  | .removeLiquidity market pool lp burnFrac totalShares =>
    some (.removeLiquidityFailed market pool lp burnFrac (total totalShares) 0 0 1 1)
  | _ => none

-- The shares of the account 3 after the last message was imported, and the replies are processed.
def sharesAfter (total : Decimal → Decimal) : Option ℕ := do
  let m ← (forwarded.ingressMessages 0).toList.getLast?
  let (_, replies) ← (importMessage ∅ (refuse total) (funded, []) m).toOption
  let s ← (replies.foldlM Ocex.State.processEgress forwarded).toOption
  return s.world.assets.balances 3 (.asset 106)

-- An engine with the total in units.
theorem refusal_gives_back : sharesAfter (fun _ => 1) = some (10 ^ 12) ∧
    ∃ minted : ℕ, |(minted : ℤ) - unitBalance| ≤ 1 ∧
      GivesBack forwarded (.removeLiquidityFailed (.ofPair market.base market.quote) 6 3 1 1 0 0 1 1) 106 3
        minted := by
  refine ⟨by decide +kernel, ?_⟩
  have hpool : (issued.world.pools (market, 2)).map (fun c => (c.poolId, c.shareId)) = some (6, 106) := by
    decide +kernel
  have hissuance : Fungibles.totalIssuance Account issued.world.assets 106 = unitBalance := by decide +kernel
  have hrequest : (3, unitBalance, unitBalance) ∈
      ((Run.exec step issued burn).world.withdrawalRequests (0, 6)).take 1 := by decide +kernel
  have hburn : (step issued burn).isSome := by decide +kernel
  have hforward : (step (Run.exec step issued burn) forward).isSome := by decide +kernel
  have himport : (importMessage ∅ (fun _ => some (.removeLiquidityFailed
      (.ofPair market.base market.quote) 6 3 1 1 0 0 1 1)) (funded, [])
      (removalMessage market 6 3 unitDecimal unitDecimal)).toOption.isSome := by decide +kernel
  obtain ⟨poolConfig, hc, hconfig⟩ := Option.map_eq_some_iff.mp hpool
  simp only [Prod.mk.injEq] at hconfig
  obtain ⟨hp, hs⟩ := hconfig
  obtain ⟨⟨state', egress'⟩, himport⟩ := Option.isSome_iff_exists.mp himport
  have hbefore : Run.run step (genesis [7] (bank [2, 3])) (poolCalls 0 ++
      [.ocex (.call (.submitSnapshot issuing [(0, 7, 1, 0)]))]) = issued := rfl
  have hbetween : Run.run step (Run.exec step issued burn) ([] : List (Call Account ℕ AuthSig)) =
    Run.exec step issued burn := rfl
  have hafter : Processing (Run.run step forwarded ([] : List (Call Account ℕ AuthSig))) none []
    forwarded := ⟨_, rfl, rfl⟩
  obtain ⟨b, t, hb, ht, _, h⟩ := failed_removal_neutral [7] (bank [2, 3]) hbefore hc
    (Run.eq_exec_of_isSome hburn) hbetween (by rw [hp, hs, hissuance]; exact hrequest)
    (Run.eq_exec_of_isSome hforward) hafter
  have hunit : ofNat? unitBalance = some unitDecimal := rfl
  rw [hs, hissuance] at ht h
  cases hunit.symm.trans hb
  cases hunit.symm.trans ht
  rw [hp] at h
  have htruth : Truthful market unitBalance (.removeLiquidityFailed (.ofPair market.base market.quote)
      (6 : Account) 3 1 1 0 0 1 1) :=
    ⟨rfl, by norm_num [unitBalance], by decide, by decide⟩
  obtain ⟨minted, hle, hback⟩ := h ∅ _ funded [] state' egress' _ rfl (toOption_eq_some.mp himport)
    htruth
  exact ⟨minted, hle.trans (Int.ceil_le.mpr (by norm_num [unitBalance])), hback⟩

-- An engine which repeats the total of the message.
theorem refusal_mints_more :
    issued.world.assets.balances 3 (.asset 106) = 10 ^ 12 ∧ sharesAfter id = some (10 ^ 24) := by
  decide +kernel

end Mock

end LiquidityMining
