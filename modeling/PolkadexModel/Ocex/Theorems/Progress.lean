import PolkadexModel.Ocex.Theorems.Solvency

open Function Decimal Ocex.OffchainState

namespace Ocex

open Decimal (nonneg_iff FaithfulArith)

variable {Acc Auth AuthSign W : Type}

namespace IngressMessages

-- The balances that a message adds to. They are created if they do not exist.
def credits : IngressMessages Acc → List (AccountAsset Acc)
  | .deposit _ main asset _ => [⟨main, asset⟩]
  | .addLiquidity market pool _ _ _ _ => [⟨pool, market.baseAsset⟩, ⟨pool, market.quoteAsset⟩]
  | _ => []

-- The balances that a message takes all of.
def closes : IngressMessages Acc → List (AccountAsset Acc)
  | .forceClosePool market pool => [⟨pool, market.baseAsset⟩, ⟨pool, market.quoteAsset⟩]
  | _ => []

def isRemoval : IngressMessages Acc → Bool
  | .removeLiquidity .. => true
  | _ => false

end IngressMessages

-- The balances of a pool exist when the message that closes it is imported.
def Funded (stored : Set (AccountAsset Acc)) : List (IngressMessages Acc) → Prop
  | []         => True
  | m :: queue => (∀ a ∈ m.closes, a ∈ stored) ∧ Funded (stored ∪ {a | a ∈ m.credits}) queue

instance decidableFunded [DecidableEq Acc] : (queue : List (IngressMessages Acc)) →
    (stored : Set (AccountAsset Acc)) → [DecidablePred (· ∈ stored)] →
    Decidable (Funded stored queue)
  | [], _, _ => inferInstanceAs (Decidable True)
  | m :: queue, stored, _ =>
    have := decidableFunded queue (stored ∪ {a | a ∈ m.credits})
    inferInstanceAs (Decidable (_ ∧ _))

namespace OffchainState

def stored (s : OffchainState Acc) : Set (AccountAsset Acc) :=
  {a | (s.entry a.main a.asset).isSome}

instance (s : OffchainState Acc) : DecidablePred (· ∈ s.stored) :=
  fun a => inferInstanceAs (Decidable (s.entry a.main a.asset).isSome)

variable [DecidableEq Acc] {s s' : OffchainState Acc} {account pool lp : Acc}
  {asset : AssetId} {market : TradingPairConfig} {balance burnFrac : Decimal}

theorem stored_setEntry : (s.setEntry account asset balance).stored = insert ⟨account, asset⟩ s.stored := by
  ext ⟨account', asset'⟩
  simp only [stored, Set.mem_ofPred_eq, Set.mem_insert_iff, entry_setEntry, AccountAsset.mk.injEq]
  split_ifs with h <;> simp [h]

section Arith

variable [Decimal.Arith]

theorem stored_addBalance :
    (s.addBalance account asset balance).stored = insert ⟨account, asset⟩ s.stored := by
  rw [addBalance_eq, stored_setEntry]

theorem mem_stored_of_subBalance (h : s.subBalance account asset balance isWithdrawal = .ok (s', deducted)) :
    ⟨account, asset⟩ ∈ s.stored := by
  obtain ⟨_, he, _⟩ := subBalance_eq_ok.mp h
  simp [stored, he]

theorem stored_subBalance (h : s.subBalance account asset balance isWithdrawal = .ok (s', deducted)) :
    s'.stored = s.stored := by
  obtain ⟨_, _, _, hs⟩ := subBalance_eq_ok.mp h
  rw [hs, stored_setEntry, Set.insert_eq_of_mem (mem_stored_of_subBalance h)]

variable [PalletAccounts Acc] {allowlist : Std.TreeSet AssetId}
  {engine engine' : IngressMessages Acc → Option (EgressMessages Acc)}
  {acc acc' : OffchainState Acc × List (EgressMessages Acc)}
  {message : Option (EgressMessages Acc)} {egress : EgressMessages Acc}

omit [PalletAccounts Acc] in
theorem stored_importRemoveLiquidity
    (h : s.importRemoveLiquidity market pool lp burnFrac message = .ok (s', egress)) :
    s'.stored = s.stored := by
  simp only [importRemoveLiquidity] at h
  split at h
  · simp at h
  · simp only [bind_eq_ok, pure_eq_ok, Prod.exists, Prod.mk.injEq] at h
    obtain ⟨_, _, _, _, _, _, _, _, _, _, hq, _, _, hb, hs, _⟩ := h
    rw [← hs, stored_subBalance hb, stored_subBalance hq]
  · simp only [bind_eq_ok, pure_eq_ok, Prod.mk.injEq] at h
    obtain ⟨_, _, _, _, _, _, _, _, _, _, _, _, _, _, hs, _⟩ := h
    rw [hs]
  · simp at h

theorem stored_withdrawFees (h : withdrawFees fees s asset = .ok s') : s'.stored = s.stored := by
  simp only [withdrawFees] at h
  split at h
  · rw [Except.ok.inj h]
  · simp only [bind_eq_ok, pure_eq_ok, Prod.exists] at h
    obtain ⟨_, _, _, _, _, _, hsub, hs⟩ := h
    rw [← hs, stored_subBalance hsub]

theorem stored_importTradingFees
    (h : s.importTradingFees allowlist message = .ok (s', egress)) : s'.stored = s.stored := by
  simp only [importTradingFees] at h
  split at h
  · simp at h
  · simp only [bind_eq_ok, pure_eq_ok, Prod.mk.injEq] at h
    obtain ⟨_, hl, hs, _⟩ := h
    rw [← hs]
    refine Except.foldlM_invariant (motive := fun t => t.stored = s.stored) hl rfl ?_
    exact fun _ _ t _ ht h => (stored_withdrawFees h).trans ht
  · simp at h

-- Which balances exist after a message does not depend on the engine, and those that are taken exist.
theorem stored_importMessage (h : importMessage allowlist engine acc m = .ok acc') :
    (∀ a ∈ m.closes, a ∈ acc.1.stored) ∧ acc'.1.stored = acc.1.stored ∪ {a | a ∈ m.credits} := by
  have hnone {t : OffchainState Acc} (ht : t.stored = acc.1.stored) :
      t.stored = acc.1.stored ∪ {a | a ∈ []} := by simp [ht]
  cases m with
  | deposit =>
    simp only [importMessage, Except.ok.injEq] at h
    refine ⟨by simp [IngressMessages.closes], ?_⟩
    ext a
    simp [← h, stored_addBalance, IngressMessages.credits, or_comm]
  | addLiquidity =>
    simp only [importMessage, importAddLiquidity, bind_eq_ok, pure_eq_ok, Prod.exists,
      Prod.mk.injEq] at h
    obtain ⟨_, _, ⟨_, _, hs, _⟩, ha⟩ := h
    refine ⟨by simp [IngressMessages.closes], ?_⟩
    ext a
    simp only [← ha, ← hs, stored_addBalance, IngressMessages.credits, Set.mem_insert_iff,
      Set.mem_union, Set.mem_ofPred_eq, List.mem_cons, List.not_mem_nil, or_false]
    tauto
  | removeLiquidity =>
    simp only [importMessage, bind_eq_ok, pure_eq_ok, Prod.exists] at h
    obtain ⟨_, _, hr, ha⟩ := h
    exact ⟨by simp [IngressMessages.closes], ha ▸ hnone (stored_importRemoveLiquidity hr)⟩
  | forceClosePool market pool =>
    simp only [importMessage, importForceClosePool, bind_eq_ok, pure_eq_ok, Prod.exists,
      Prod.mk.injEq] at h
    obtain ⟨_, _, ⟨_, _, hb, _, _, hq, hs, _⟩, ha⟩ := h
    have hq' := mem_stored_of_subBalance hq
    rw [stored_subBalance hb] at hq'
    refine ⟨by simp [IngressMessages.closes, mem_stored_of_subBalance hb, hq'], ?_⟩
    rw [← ha, ← hs]
    exact hnone ((stored_subBalance hq).trans (stored_subBalance hb))
  | withdrawTradingFees =>
    simp only [importMessage, bind_eq_ok, pure_eq_ok, Prod.exists] at h
    obtain ⟨_, _, hf, ha⟩ := h
    exact ⟨by simp [IngressMessages.closes], ha ▸ hnone (stored_importTradingFees hf)⟩
  | _ =>
    cases Except.ok.inj h
    exact ⟨by simp [IngressMessages.closes], hnone rfl⟩

theorem funded_of_import (h : queue.foldlM (importMessage allowlist engine) acc = .ok acc') :
    Funded acc.1.stored queue := by
  induction queue generalizing acc with
  | nil => trivial
  | cons m queue hi =>
    obtain ⟨t, ht, h⟩ := foldlM_cons_eq_ok.mp h
    obtain ⟨hc, hs⟩ := stored_importMessage ht
    exact ⟨hc, hs ▸ hi h⟩

theorem importMessage_congr (h : engine m = engine' m) :
    importMessage allowlist engine acc m = importMessage allowlist engine' acc m := by
  cases m <;> simp only [importMessage, h]

omit [PalletAccounts Acc] in
theorem subBalance_all (h : s.entry account asset = some b) : s.subBalance account asset b false =
      .ok (s.setEntry account asset (Order.roundingOff (b.saturatingSub b)), b) :=
  subBalance_eq_ok.mpr ⟨b, h, deductible_eq_ok.mpr ⟨rfl, le_iff.mpr le_rfl⟩, rfl⟩

omit [PalletAccounts Acc] in
theorem importForceClosePool_of_stored (hm : market.baseAsset ≠ market.quoteAsset)
    (h : ∀ a ∈ (IngressMessages.forceClosePool market pool).closes, a ∈ s.stored) :
    ∃ r, s.importForceClosePool market pool = .ok r := by
  have hb : (s.entry pool market.baseAsset).isSome := h _ (.head _)
  have hq : (s.entry pool market.quoteAsset).isSome := h _ (.tail _ (.head _))
  obtain ⟨base, hb⟩ := Option.isSome_iff_exists.mp hb
  obtain ⟨quote, hq⟩ := Option.isSome_iff_exists.mp hq
  have hq' (b : Decimal) :
      (s.setEntry pool market.baseAsset b).entry pool market.quoteAsset = some quote :=
    (entry_setEntry_of_ne (.inr hm.symm)).trans hq
  simp only [importForceClosePool, getBalance_eq hb, getBalance_eq hq]
  exact ⟨_, bind_eq_ok.mpr ⟨_, subBalance_all hb,
    bind_eq_ok.mpr ⟨_, subBalance_all (hq' _), rfl⟩⟩⟩

end Arith

end OffchainState

section Answers

variable [FaithfulArith] {x y : Decimal}

omit [FaithfulArith] in
theorem onGrid_one : Decimal.OnGrid 9 (1 : Decimal).toRat :=
  onGrid_toRat (Nat.zero_le _)

-- The largest number absorbs what it is multiplied by, and what it is added to.
theorem toRat_max_saturatingMul (h : 1 ≤ x.toRat) :
    (Decimal.max.saturatingMul x).toRat = Decimal.max.toRat := by
  refine le_antisymm (le_toRat_max _) ?_
  refine (faithful_saturatingMul max x).ge max ?_
  exact le_mul_of_one_le_right toRat_max_pos.le h

theorem toRat_saturatingAdd_max (h : 0 ≤ x.toRat) (hy : y.toRat = Decimal.max.toRat) :
    (x.saturatingAdd y).toRat = Decimal.max.toRat := by
  refine le_antisymm (le_toRat_max _) ?_
  exact (faithful_saturatingAdd x y).ge max (by linarith)

theorem checkedDiv_max_ne_none (x : Decimal) : Decimal.Arith.checkedDiv x Decimal.max ≠ none := by
  have hpos := toRat_max_pos
  have hone := le_toRat_max 1
  rw [toRat_one] at hone
  refine (FaithfulArith.div_rounds x max hpos.ne').fits min max ?_ ?_
  · rw [le_div_iff₀ hpos, toRat_min]
    have := toRat_min_le x
    rw [toRat_min] at this
    nlinarith
  · rw [div_le_iff₀ hpos]
    nlinarith [le_toRat_max x]

namespace OffchainState

variable [DecidableEq Acc] {s : OffchainState Acc} {account account' pool lp : Acc}
  {asset asset' : AssetId} {market : TradingPairConfig} {totalShares burnFrac : Decimal}

theorem one_le_addBalance (h : 1 ≤ (s.getBalance account asset).toRat) (hx : 0 ≤ x) :
    1 ≤ ((s.addBalance account' asset' x).getBalance account asset).toRat := by
  rw [addBalance_eq, getBalance, entry_setEntry]
  split_ifs with ha
  · rw [Option.getD_some, ← ha.1, ← ha.2, added]
    cases he : s.entry account asset with
    | none => simp [getBalance, he, toRat_zero] at h; linarith
    | some total =>
      rw [getBalance_eq he] at h
      rw [← toRat_one] at h ⊢
      exact le_roundingOff onGrid_one (by simp)
        ((faithful_saturatingAdd total x).ge 1 (by linarith [nonneg_iff.mp hx]))
  · exact h

-- At the highest price, every inventory of a pool with a unit of its base asset is the largest number.
def saturatedShares (totalShares base quote : Decimal) : Decimal :=
  let given := (base.saturatingMul .max).saturatingAdd quote
  (Decimal.Arith.checkedDiv (given.saturatingMul totalShares) .max).getD 0

theorem verifyAddLiquidity_saturated (lp : Acc) (totalShares base quote : Decimal)
    (hb : 1 ≤ (s.getBalance pool market.baseAsset).toRat)
    (hq : 0 ≤ s.getBalance pool market.quoteAsset) :
    ∃ r, s.verifyAddLiquidity market pool lp totalShares base quote (some (.addLiquidityResult market
      pool lp (saturatedShares totalShares base quote) .max .max)) = .ok r := by
  have hinv : max ≈ (s.getBalance pool market.quoteAsset).saturatingAdd
      (max.saturatingMul (s.getBalance pool market.baseAsset)) :=
    equiv_iff.mpr
      (toRat_saturatingAdd_max (nonneg_iff.mp hq) (toRat_max_saturatingMul hb)).symm
  obtain ⟨minted, hm⟩ := Option.ne_none_iff_exists'.mp (checkedDiv_max_ne_none
    (((base.saturatingMul .max).saturatingAdd quote).saturatingMul totalShares))
  have hminted : sharesMinted ((base.saturatingMul .max).saturatingAdd quote) totalShares .max =
      .ok minted := by
    have hzero : max.isZero = false := rfl
    simp [sharesMinted, hzero, hm]
  have hshares : saturatedShares totalShares base quote ≈ minted := by
    simp [saturatedShares, hm]
  simp only [verifyAddLiquidity, bind_eq_ok, pure_eq_ok, check_eq_ok]
  exact ⟨_, (), trivial, (), trivial, (), hinv, minted, hminted, (), hshares, rfl⟩

-- The engine can always claim that less than nothing is available.
def refusal (s : OffchainState Acc) (market : TradingPairConfig) (pool lp : Acc)
    (burnFrac totalShares : Decimal) : EgressMessages Acc :=
  .removeLiquidityFailed market pool lp burnFrac totalShares .min .min
    (burnFrac.saturatingMul (s.getBalance pool market.baseAsset))
    (burnFrac.saturatingMul (s.getBalance pool market.quoteAsset))

theorem importRemoveLiquidity_refusal [Ord Acc] (hs : s.Solvent) (hf : 0 ≤ burnFrac) :
    s.importRemoveLiquidity market pool lp burnFrac
      (some (s.refusal market pool lp burnFrac totalShares)) =
      .ok (s, s.refusal market pool lp burnFrac totalShares) := by
  have hpos (asset : AssetId) : ¬burnFrac.saturatingMul (s.getBalance pool asset) ≤ min := by
    have h := (faithful_saturatingMul burnFrac (s.getBalance pool asset)).nonneg
      (mul_nonneg (nonneg_iff.mp hf) (nonneg_iff.mp (hs pool asset)))
    rw [le_iff, toRat_min]
    linarith [toRat_max_pos]
  simp only [refusal, importRemoveLiquidity, bind_eq_ok, pure_eq_ok, check_eq_ok]
  exact ⟨(), trivial, (), trivial, (), trivial, (), trivial, (), trivial, (), hpos _, (), hpos _, trivial⟩

end OffchainState

-- How a message that is no removal can be answered. The answer does not depend on the balances, so it
-- is right for all equal messages.
def answer : IngressMessages Acc → Option (EgressMessages Acc)
  | .addLiquidity market pool lp totalShares base quote => some (.addLiquidityResult market pool lp
      (OffchainState.saturatedShares totalShares base quote) .max .max)
  | .withdrawTradingFees => some (.tradingFees ∅)
  | _ => none

variable [Ord Acc] [DecidableEq Acc] [PalletAccounts Acc] {cfg : Config}
  {chain : State Acc Auth W cfg} {m : IngressMessages Acc}
  {acc : OffchainState Acc × List (EgressMessages Acc)}

omit [Ord Acc] in
theorem OffchainState.importTradingFees_empty (s : OffchainState Acc)
    (allowlist : Std.TreeSet AssetId) :
    s.importTradingFees allowlist (some (.tradingFees ∅)) = .ok (s, .tradingFees ∅) := by
  have hnone (s : OffchainState Acc) (asset : AssetId) : withdrawFees ∅ s asset = .ok s := by
    simp [withdrawFees]
  have hfold (l : List AssetId) : l.foldlM (withdrawFees ∅) s = .ok s := by
    induction l with
    | nil => rfl
    | cons asset l hi => exact foldlM_cons_eq_ok.mpr ⟨s, hnone s asset, hi⟩
  exact bind_eq_ok.mpr ⟨s, hfold _, rfl⟩

-- What the liquidity mining pallet has checked: the market of a pool that is closed is registered, and
-- shares are only burned if there are any.
def Pooled (chain : State Acc Auth W cfg) : IngressMessages Acc → Prop
  | .forceClosePool market _ => chain.tradingPairs market.pair ≠ none
  | .removeLiquidity _ _ _ _ total => ¬total.isZero
  | _ => True

instance : DecidablePred (Pooled chain) := fun m => by
  cases m <;> simp only [Pooled] <;> infer_instance

omit [FaithfulArith] in
theorem nonneg_of_decimalFrom (h : State.decimalFrom n = .ok x) : 0 ≤ x.toRat := by
  cases hn : ofNat? n with
  | none => simp [State.decimalFrom, hn] at h
  | some d =>
    simp only [State.decimalFrom, hn, Option.elim_some, Except.ok.injEq] at h
    rw [← h, toRat_ofNat? hn]
    positivity

theorem burnFrac_nonneg (hx : 0 ≤ x.toRat) (hy : 0 ≤ y.toRat) (hz : ¬y.isZero) :
    0 ≤ (Decimal.Arith.checkedDiv x y).getD 0 := by
  have hne : y.toRat ≠ 0 := by
    have hm : (y.mantissa : ℚ) ≠ 0 := by simpa [isZero] using hz
    exact div_ne_zero hm (by positivity)
  cases hd : Decimal.Arith.checkedDiv x y with
  | none => exact nonneg_iff.mpr (by simp)
  | some q =>
    have hf := (FaithfulArith.div_rounds x y hne).faithful q hd
    exact nonneg_iff.mpr (hf.nonneg (div_nonneg hx hy))

-- Every message has an answer with which it is imported, apart from the closing of a pool whose
-- balances do not exist.
theorem exists_answer (hmin : unitBalance ≤ cfg.minimumDeposit) (hc : chain.Sound)
    (hm : chain.Sent m) (hp : Pooled chain m) (hs : acc.1.Solvent) (hclose : ∀ a ∈ m.closes, a ∈ acc.1.stored) :
    ∃ e, (¬m.isRemoval → e = answer m) ∧ ∃ acc', ∀ engine, engine m = e →
      OffchainState.importMessage chain.allowlistedToken engine acc m = .ok acc' := by
  cases hm with
  | deposit => exact ⟨none, fun _ => rfl, _, fun _ _ => rfl⟩
  | @addLiquidity base quote market pool lp totalShares baseAmount quoteAmount hb hb' hq hq' =>
    have hone : 1 ≤ baseAmount.toRat := by
      have hunit : 10 ^ 12 ≤ base := hmin.trans hb
      have hunit : (10 ^ 12 : ℚ) ≤ base := by exact_mod_cast hunit
      linarith [le_of_inPlanck hb']
    have hquote := nonneg_of_inPlanck hq'
    rw [← toRat_one] at hone
    have hbase := le_addBalance_self (hs pool market.base) onGrid_one (by simp) hone
    rw [toRat_one] at hbase
    let market' : TradingPairConfig := .ofPair market.base market.quote
    let s := (acc.1.addBalance pool market.base baseAmount).addBalance pool market.quote quoteAmount
    have hs : s.Solvent := (hs.addBalance (nonneg_of_inPlanck hb')).addBalance hquote
    have hbase : 1 ≤ (s.getBalance pool market'.baseAsset).toRat :=
      one_le_addBalance hbase hquote
    obtain ⟨r, hr⟩ := verifyAddLiquidity_saturated lp totalShares baseAmount quoteAmount
      hbase (hs pool market'.quoteAsset)
    refine ⟨_, fun _ => rfl, (s, acc.2 ++ [r]), fun engine he => ?_⟩
    simp only [importMessage, he, answer]
    exact bind_eq_ok.mpr ⟨(s, r), bind_eq_ok.mpr ⟨r, hr, rfl⟩, rfl⟩
  | @removeLiquidity _ _ market pool lp b total hb ht =>
    let burnFrac := (Decimal.Arith.checkedDiv b total).getD 0
    let egress := acc.1.refusal (.ofPair market.base market.quote) pool lp burnFrac total
    have hf := burnFrac_nonneg (nonneg_of_decimalFrom hb) (nonneg_of_decimalFrom ht) hp
    refine ⟨some egress, fun h => absurd rfl h, (acc.1, acc.2 ++ [egress]), fun engine he => ?_⟩
    simp only [importMessage, he]
    exact bind_eq_ok.mpr ⟨_, importRemoveLiquidity_refusal hs hf, rfl⟩
  | @forceClosePool market pool =>
    obtain ⟨r, hr⟩ := importForceClosePool_of_stored
      (hc.pairs _ hp) hclose
    exact ⟨none, fun _ => rfl, _, fun _ _ => bind_eq_ok.mpr ⟨r, hr, rfl⟩⟩
  | setting hset =>
    cases m with
    | deposit | addLiquidity | removeLiquidity | forceClosePool => cases hset
    | withdrawTradingFees =>
      refine ⟨_, fun _ => rfl, (acc.1, acc.2 ++ [.tradingFees ∅]), fun engine he => ?_⟩
      simp only [importMessage, he, answer]
      exact bind_eq_ok.mpr ⟨_, acc.1.importTradingFees_empty _, rfl⟩
    | _ => exact ⟨none, fun _ => rfl, _, fun _ _ => rfl⟩

-- The answers are found one after the other. An answer to a removal depends on the balances at that
-- point, so no removal may occur twice.
theorem exists_engine (hmin : unitBalance ≤ cfg.minimumDeposit) (hc : chain.Sound)
    (hm : ∀ m ∈ queue, chain.Sent m ∧ Pooled chain m)
    (hn : (queue.filter IngressMessages.isRemoval).Nodup) (hs : acc.1.Solvent)
    (hf : Funded acc.1.stored queue) : ∃ engine, (∀ m, ¬m.isRemoval → engine m = answer m) ∧ ∃ acc',
      queue.foldlM (OffchainState.importMessage chain.allowlistedToken engine) acc = .ok acc' := by
  classical
  induction queue generalizing acc with
  | nil => exact ⟨fun m => answer m, fun _ _ => rfl, acc, rfl⟩
  | cons m queue hi =>
    obtain ⟨⟨hsent, hpool⟩, hm⟩ := List.forall_mem_cons.mp hm
    obtain ⟨e, he, t, ht⟩ := exists_answer hmin hc hsent hpool hs hf.1
    have hstep := ht (fun _ => e) rfl
    have hsolvent : t.1.Solvent := by
      let _ : Verify Acc Unit := ⟨fun _ _ _ => false⟩
      have hp : Preserves chain ([] : List (Trade Acc Unit)) OffchainState.Solvent :=
        preserves_solvent (by simp)
      exact hp.importMessage hsent hstep hs
    have hnodup : (queue.filter IngressMessages.isRemoval).Nodup ∧ (m.isRemoval → m ∉ queue) := by
      rw [List.filter_cons] at hn
      split_ifs at hn with hr
      · obtain ⟨hmem, hn⟩ := List.nodup_cons.mp hn
        exact ⟨hn, fun _ h => hmem (List.mem_filter.mpr ⟨h, hr⟩)⟩
      · exact ⟨hn, fun h => absurd h hr⟩
    obtain ⟨engine, hengine, acc', hacc⟩ := hi hm hnodup.1 hsolvent
      ((stored_importMessage hstep).2 ▸ hf.2)
    refine ⟨update engine m e, fun m' hm' => ?_, acc', ?_⟩
    · by_cases hmm : m' = m
      · rw [hmm, update_self]
        exact he (hmm ▸ hm')
      · rw [update_of_ne hmm]
        exact hengine m' hm'
    · refine foldlM_cons_eq_ok.mpr ⟨t, ht _ (update_self ..), ?_⟩
      rw [← hacc]
      refine Except.foldlM_congr (fun m' hm' s => OffchainState.importMessage_congr ?_) t
      by_cases hmm : m' = m
      · -- The message is answered again, so it is no removal.
        have hr : ¬m.isRemoval := fun hr => hnodup.2 hr (hmm ▸ hm')
        rw [hmm, update_self, he hr, hengine m hr]
      · rw [update_of_ne hmm]

section Blocks

variable {s : OffchainState Acc} {info : StateInfo} {blk : ℕ}

theorem funded_of_importBlk (h : importBlk chain blk s info engine = .ok r) :
    Funded s.stored (chain.ingressMessages blk).toList := by
  simp only [importBlk, bind_eq_ok, Prod.exists] at h
  obtain ⟨_, _, _, _, h, _⟩ := h
  exact funded_of_import h

variable [Assets Acc W] [CrossChainGadget Acc W]
  [CrowdSourceLiquidityMining Acc W] [Percent]
  [Authority Acc Auth AuthSign]

-- A block can be imported with some answers of the engine exactly if no pool is closed without balances.
theorem exists_importBlk_iff (hr : chain.Reachable AuthSign)
    (hmin : unitBalance ≤ cfg.minimumDeposit) (hs : s.Solvent)
    (hblk : info.lastBlock = 0 ∨ blk = Word.saturatingAdd 32 info.lastBlock 1)
    (hp : ∀ m ∈ (chain.ingressMessages blk).toList, Pooled chain m)
    (hn : ((chain.ingressMessages blk).toList.filter IngressMessages.isRemoval).Nodup) :
    (∃ engine r, importBlk chain blk s info engine = .ok r) ↔
      Funded s.stored (chain.ingressMessages blk).toList := by
  constructor
  · rintro ⟨_, _, h⟩
    exact funded_of_importBlk h
  · intro hf
    have hm : ∀ m ∈ (chain.ingressMessages blk).toList, chain.Sent m ∧ Pooled chain m :=
      fun m hmem => ⟨hr.sound.sent blk m hmem, hp m hmem⟩
    let acc : OffchainState Acc × List (EgressMessages Acc) := (s, [])
    have hs : acc.1.Solvent := hs
    obtain ⟨engine, _, acc', h⟩ := exists_engine hmin hr.sound hm hn hs hf
    exact ⟨engine, _, bind_eq_ok.mpr
      ⟨(), check_eq_ok.mpr hblk, bind_eq_ok.mpr ⟨acc', h, rfl⟩⟩⟩

end Blocks

end Answers

namespace Mock

attribute [local instance] Decimal.HalfEven.faithfulArith percent

-- Liquidity is added to a pool and half of it is removed. Then a pool is closed.
def poolCalls (closed : Account) : List (Call Account ℕ AuthSig) :=
  [.addLiquidity 2 pair 4 5 0 1 1, .removeLiquidity pair 4 5 1 2, .forceClosePool pair closed]

def poolChain (closed : Account) : State Account ℕ World config :=
  Run.run step market (poolCalls closed)

theorem poolChain_reachable (closed : Account) : (poolChain closed).Reachable AuthSig :=
  ⟨[], fun _ _ => unitBalance, marketCalls ++ poolCalls closed, (Run.run_append ..).symm⟩

-- The queue is only evaluated where it is decided on.
attribute [irreducible] poolChain

theorem pool_closed_of_balances :
    Funded OffchainState.empty.stored ((poolChain 4).ingressMessages 1).toList ∧
    ∃ engine r, importBlk (poolChain 4) 1 .empty {} engine = .ok r := by
  have hf : Funded empty.stored ((poolChain 4).ingressMessages 1).toList := by
    decide +kernel
  have hp : ∀ m ∈ ((poolChain 4).ingressMessages 1).toList, Pooled (poolChain 4) m := by decide +kernel
  have hone : (((poolChain 4).ingressMessages 1).toList.filter IngressMessages.isRemoval).length = 1 := by
    decide +kernel
  have hn (l : List (IngressMessages Account)) (h : l.length = 1) : l.Nodup := by
    obtain ⟨m, hm⟩ := List.length_eq_one_iff.mp h
    exact hm ▸ List.nodup_singleton m
  have hs : (empty : OffchainState Account).Solvent := .empty
  have hblk : ({} : StateInfo).lastBlock = 0 ∨ 1 = Word.saturatingAdd 32 ({} : StateInfo).lastBlock 1 :=
    .inl rfl
  exact ⟨hf, (exists_importBlk_iff (poolChain_reachable 4) (by decide) hs hblk hp (hn _ hone)).mpr hf⟩

-- The account that is closed has never had a balance.
theorem close_without_balances : (poolChain 5).Reachable AuthSig ∧
    ∀ engine r, importBlk (poolChain 5) 1 .empty {} engine ≠ .ok r := by
  have hf : ¬Funded empty.stored ((poolChain 5).ingressMessages 1).toList := by
    decide +kernel
  exact ⟨poolChain_reachable 5, fun engine r h => hf (funded_of_importBlk h)⟩

end Mock

end Ocex
