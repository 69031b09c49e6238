import PolkadexModel.Lib.Trees
import PolkadexModel.Ocex.Theorems.Authorisation

-- The import of a message as a list of postings to the balances.
namespace Ocex.OffchainState

variable {Acc : Type} [DecidableEq Acc] [PalletAccounts Acc] [Decimal.Arith]

-- What a withdrawal of the fees takes from a balance of the pot. It is rounded off, which makes a
-- negative balance larger.
def takeable (balance : Decimal) : Decimal :=
  if balance < Order.roundingOff balance then balance else Order.roundingOff balance

def feePostings (fees : Std.TreeMap AssetId Decimal) (s : OffchainState Acc)
    (assets : List AssetId) : List (Posting Acc) :=
  (assets.filter fees.contains).map fun asset => {
    account := PalletAccounts.potAccount
    asset := asset
    amount := takeable (s.getBalance PalletAccounts.potAccount asset)
    isCredit := false }

def postings (allowlistedToken : Std.TreeSet AssetId)
    (engineMessages : IngressMessages Acc → Option (EgressMessages Acc))
    (s : OffchainState Acc) : IngressMessages Acc → List (Posting Acc)
  | .deposit _ main asset amount => [⟨main, asset, amount, true⟩]
  | .addLiquidity market pool _ _ baseDeposited quoteDeposited =>
    [⟨pool, market.baseAsset, baseDeposited, true⟩, ⟨pool, market.quoteAsset, quoteDeposited, true⟩]
  | .removeLiquidity market pool lp burnFrac totalShares =>
    match engineMessages (.removeLiquidity market pool lp burnFrac totalShares) with
    | some (.removeLiquidityResult market' _ _ _ _) =>
      [⟨pool, market'.quoteAsset, burnFrac.saturatingMul (s.getBalance pool market.quoteAsset), false⟩,
        ⟨pool, market'.baseAsset, burnFrac.saturatingMul (s.getBalance pool market.baseAsset), false⟩]
    | _ => []
  | .forceClosePool market pool =>
    [⟨pool, market.baseAsset, s.getBalance pool market.baseAsset, false⟩,
      ⟨pool, market.quoteAsset, s.getBalance pool market.quoteAsset, false⟩]
  | .withdrawTradingFees =>
    match engineMessages .withdrawTradingFees with
    | some (.tradingFees fees) => feePostings fees s allowlistedToken.toList
    | _ => []
  | _ => []

-- The postings of a whole queue, each message in the state that the ones before it lead to.
def queuePostings (allowlistedToken : Std.TreeSet AssetId)
    (engineMessages : IngressMessages Acc → Option (EgressMessages Acc)) :
    OffchainState Acc → List (IngressMessages Acc) → List (Posting Acc)
  | _, [] => []
  | s, m :: queue => s.postings allowlistedToken engineMessages m ++
    (importMessage allowlistedToken engineMessages (s, []) m).toOption.elim []
      fun r => queuePostings allowlistedToken engineMessages r.1 queue

section Debits

variable {s s' : OffchainState Acc} {account : Acc} {asset : AssetId}
  {balance amount deducted : Decimal} {isWithdrawal : Bool}

omit [DecidableEq Acc] [PalletAccounts Acc] in
theorem le_of_deductible (h : deductible balance amount isWithdrawal = .ok deducted) :
    deducted ≤ balance := by
  simp only [deductible] at h
  split_ifs at h with hlt hw
  · cases hs : Decimal.Arith.checkedSub amount balance with
    | none => simp [hs] at h
    | some _ =>
      simp only [hs, Except.ok.injEq] at h
      exact h ▸ Decimal.le_iff.mpr le_rfl
  · rw [← Except.ok.inj h, Decimal.le_iff]
    exact not_lt.mp (mt Decimal.lt_iff.mpr hlt)

omit [PalletAccounts Acc] in
theorem post_of_subBalance (h : s.subBalance account asset amount isWithdrawal = .ok (s', deducted)) :
    s.post ⟨account, asset, deducted, false⟩ = .ok s' := by
  obtain ⟨b, he, hd, hs⟩ := subBalance_eq_ok.mp h
  have hsub := subBalance_eq_ok.mpr ⟨b, he, deductible_eq_ok.mpr ⟨rfl, le_of_deductible hd⟩, hs⟩
  exact bind_eq_ok.mpr ⟨_, hsub, rfl⟩

omit [PalletAccounts Acc] in
theorem deducted_eq (h : s.subBalance account asset amount false = .ok (s', deducted)) :
    deducted = amount := by
  obtain ⟨_, _, hd, _⟩ := subBalance_eq_ok.mp h
  exact (deductible_eq_ok.mp hd).1

omit [DecidableEq Acc] [PalletAccounts Acc] in
theorem takeable_of_deductible
    (h : deductible balance (Order.roundingOff balance) true = .ok deducted) :
    deducted = takeable balance := by
  simp only [deductible, if_true] at h
  rw [takeable]
  split_ifs at h ⊢
  · cases hs : Decimal.Arith.checkedSub (Order.roundingOff balance) balance with
    | none => simp [hs] at h
    | some _ => simpa [hs, eq_comm] using h
  · exact (Except.ok.inj h).symm

end Debits

section Fees

variable {s s' : OffchainState Acc} {fees : Std.TreeMap AssetId Decimal} {asset : AssetId}
  {fee : Decimal}

theorem withdrawFees_eq_ok (hf : fees[asset]? = some fee) (h : withdrawFees fees s asset = .ok s') :
    Order.roundingOff (s.getBalance PalletAccounts.potAccount asset) ≈ fee ∧
      s.post ⟨PalletAccounts.potAccount, asset,
        takeable (s.getBalance PalletAccounts.potAccount asset), false⟩ = .ok s' := by
  simp only [withdrawFees, hf, bind_eq_ok, pure_eq_ok, Prod.exists, check_eq_ok] at h
  obtain ⟨_, _, _, heq, _, deducted, hsub, hs⟩ := h
  obtain ⟨b, hb, hd, _⟩ := subBalance_eq_ok.mp hsub
  rw [getBalance_eq hb] at hd
  rw [getBalance_eq hb, ← takeable_of_deductible hd, ← hs]
  exact ⟨getBalance_eq hb ▸ heq, post_of_subBalance hsub⟩

omit [DecidableEq Acc] [Decimal.Arith] in
theorem feePostings_congr (h : ∀ asset ∈ l,
    s'.getBalance PalletAccounts.potAccount asset = s.getBalance PalletAccounts.potAccount asset) :
    feePostings fees s' l = feePostings fees s l := by
  refine List.map_congr_left fun asset ha => ?_
  rw [h asset (List.mem_of_mem_filter ha)]

theorem postAll_withdrawFees (hn : l.Nodup) (h : l.foldlM (withdrawFees fees) s = .ok s') :
    s.postAll (feePostings fees s l) = .ok s' ∧ ∀ asset ∈ l, ∀ fee, fees[asset]? = some fee →
      Order.roundingOff (s.getBalance PalletAccounts.potAccount asset) ≈ fee := by
  induction l generalizing s with
  | nil => exact ⟨h, by simp⟩
  | cons asset l hi =>
    obtain ⟨hnot, hn⟩ := List.nodup_cons.mp hn
    obtain ⟨t, ht, h⟩ := foldlM_cons_eq_ok.mp h
    cases hf : fees[asset]? with
    | none =>
      simp only [withdrawFees, hf, Except.ok.injEq] at ht
      subst ht
      obtain ⟨hp, he⟩ := hi hn h
      have hc : fees.contains asset = false := by rw [Std.TreeMap.contains_eq_isSome_getElem?, hf]; rfl
      rw [feePostings, List.filter_cons_of_neg (by simp [hc])]
      exact ⟨hp, List.forall_mem_cons.mpr ⟨by simp [hf], he⟩⟩
    | some fee =>
      obtain ⟨heq, hpost⟩ := withdrawFees_eq_ok hf ht
      have hkeep : ∀ asset' ∈ l, t.getBalance PalletAccounts.potAccount asset' =
          s.getBalance PalletAccounts.potAccount asset' := by
        intro asset' ha
        have hne : asset' ≠ asset := fun he => hnot (he ▸ ha)
        exact getBalance_post hpost (.inr hne)
      obtain ⟨hp, he⟩ := hi hn h
      rw [feePostings_congr hkeep] at hp
      have hc : fees.contains asset = true := by rw [Std.TreeMap.contains_eq_isSome_getElem?, hf]; rfl
      rw [feePostings, List.filter_cons_of_pos hc]
      refine ⟨foldlM_cons_eq_ok.mpr ⟨t, hpost, hp⟩, List.forall_mem_cons.mpr ⟨?_, ?_⟩⟩
      · simpa [hf] using heq
      · exact fun asset' ha => hkeep asset' ha ▸ he asset' ha

end Fees

section Messages

variable {s s' : OffchainState Acc} {allowlist : Std.TreeSet AssetId}
  {engine : IngressMessages Acc → Option (EgressMessages Acc)}
  {m : IngressMessages Acc} {egress out : List (EgressMessages Acc)}

omit [PalletAccounts Acc] in
theorem postAll_pair (h₁ : s.subBalance account asset₁ amount₁ false = .ok (t, d₁))
    (h₂ : t.subBalance account asset₂ amount₂ false = .ok (s', d₂)) :
    s.postAll [⟨account, asset₁, amount₁, false⟩, ⟨account, asset₂, amount₂, false⟩] = .ok s' := by
  have hp₁ := post_of_subBalance h₁
  have hp₂ := post_of_subBalance h₂
  rw [deducted_eq h₁] at hp₁
  rw [deducted_eq h₂] at hp₂
  exact foldlM_cons_eq_ok.mpr ⟨t, hp₁, foldlM_cons_eq_ok.mpr ⟨s', hp₂, rfl⟩⟩

-- The answers to a removal: the amounts are freed as they are computed from the balances, or nothing is.
inductive Removal (s : OffchainState Acc) (market : TradingPairConfig) (pool : Acc)
    (burnFrac : Decimal) : EgressMessages Acc → OffchainState Acc → Prop
  | freed {market' : TradingPairConfig} {pool' lp' : Acc} {base quote : Decimal}
      {s' : OffchainState Acc} :
    burnFrac.saturatingMul (s.getBalance pool market.quoteAsset) ≈ quote →
    burnFrac.saturatingMul (s.getBalance pool market.baseAsset) ≈ base →
    s.postAll [
      ⟨pool, market'.quoteAsset, burnFrac.saturatingMul (s.getBalance pool market.quoteAsset), false⟩,
      ⟨pool, market'.baseAsset, burnFrac.saturatingMul (s.getBalance pool market.baseAsset), false⟩] =
      .ok s' →
    Removal s market pool burnFrac (.removeLiquidityResult market' pool' lp' base quote) s'
  | failed {market' : TradingPairConfig} {pool' lp' : Acc}
      {burnFrac' totalShares base quote base' quote' : Decimal} :
    Removal s market pool burnFrac
      (.removeLiquidityFailed market' pool' lp' burnFrac' totalShares base quote base' quote') s

omit [PalletAccounts Acc] in
theorem removal_of_import {answer : EgressMessages Acc} {lp : Acc} (h : s.importRemoveLiquidity market pool lp burnFrac message = .ok (s', answer)) :
    message = some answer ∧ Removal s market pool burnFrac answer s' := by
  simp only [importRemoveLiquidity] at h
  split at h
  · simp at h
  · simp only [bind_eq_ok, pure_eq_ok, Prod.exists, Prod.mk.injEq, check_eq_ok] at h
    obtain ⟨_, _, _, _, _, hq, _, hb, _, _, hsq, _, _, hsb, hs, ha⟩ := h
    exact ⟨ha ▸ rfl, ha ▸ hs ▸ .freed hq hb (postAll_pair hsq hsb)⟩
  · simp only [bind_eq_ok, pure_eq_ok, Prod.mk.injEq] at h
    obtain ⟨_, _, _, _, _, _, _, _, _, _, _, _, _, _, hs, ha⟩ := h
    exact ⟨ha ▸ rfl, ha ▸ hs ▸ .failed⟩
  · simp at h

theorem importTradingFees_eq_ok {answer : EgressMessages Acc} (h : s.importTradingFees allowlist message = .ok (s', answer)) :
    ∃ fees, message = some (.tradingFees fees) ∧ answer = .tradingFees fees ∧
      allowlist.toList.foldlM (withdrawFees fees) s = .ok s' := by
  simp only [importTradingFees] at h
  split at h
  · simp at h
  · simp only [bind_eq_ok, pure_eq_ok, Prod.mk.injEq] at h
    obtain ⟨_, hl, hs, ha⟩ := h
    exact ⟨_, rfl, ha.symm, hs ▸ hl⟩
  · simp at h

-- Apart from the epoch, the import of a message consists of its postings.
theorem postAll_importMessage (h : importMessage allowlist engine (s, egress) m = .ok (s', out)) :
    ∃ t, s.postAll (s.postings allowlist engine m) = .ok t ∧ t.balances = s'.balances := by
  cases m with
  | deposit =>
    simp only [importMessage, Except.ok.injEq, Prod.mk.injEq] at h
    exact ⟨_, rfl, congrArg balances h.1⟩
  | addLiquidity =>
    simp only [importMessage, importAddLiquidity, bind_eq_ok, pure_eq_ok, Prod.exists,
      Prod.mk.injEq] at h
    obtain ⟨_, _, ⟨_, _, ht, _⟩, hs, _⟩ := h
    exact ⟨_, rfl, congrArg balances (ht.trans hs)⟩
  | removeLiquidity =>
    simp only [importMessage, bind_eq_ok, pure_eq_ok, Prod.exists, Prod.mk.injEq] at h
    obtain ⟨t, answer, hr, hs, _⟩ := h
    obtain ⟨hm, hr⟩ := removal_of_import hr
    simp only [postings, hm]
    cases hr with
    | freed _ _ hp => exact ⟨t, hp, congrArg balances hs⟩
    | failed => exact ⟨s, rfl, congrArg balances hs⟩
  | forceClosePool =>
    simp only [importMessage, importForceClosePool, bind_eq_ok, pure_eq_ok, Prod.exists,
      Prod.mk.injEq] at h
    obtain ⟨_, _, ⟨_, _, hb, _, _, hq, hu, _⟩, hs, _⟩ := h
    exact ⟨_, postAll_pair hb hq, congrArg balances (hu.trans hs)⟩
  | withdrawTradingFees =>
    simp only [importMessage, bind_eq_ok, pure_eq_ok, Prod.exists, Prod.mk.injEq] at h
    obtain ⟨t, _, hf, hs, _⟩ := h
    obtain ⟨fees, hm, _, hl⟩ := importTradingFees_eq_ok hf
    simp only [postings, hm]
    exact ⟨t, (postAll_withdrawFees (Trees.nodup_toList allowlist) hl).1, congrArg balances hs⟩
  | newLMPEpoch =>
    simp only [importMessage, Except.ok.injEq, Prod.mk.injEq] at h
    have hb := congrArg balances h.1
    exact ⟨s, rfl, hb⟩
  | _ =>
    simp only [importMessage, Except.ok.injEq, Prod.mk.injEq] at h
    exact ⟨s, rfl, congrArg balances h.1⟩

end Messages

section Queues

variable {s s' t : OffchainState Acc} {allowlist : Std.TreeSet AssetId}
  {engine : IngressMessages Acc → Option (EgressMessages Acc)}
  {m : IngressMessages Acc} {queue : List (IngressMessages Acc)}
  {egress out : List (EgressMessages Acc)} {p : Posting Acc}
  {ps : List (Posting Acc)}

omit [PalletAccounts Acc] in
theorem post_congr (hb : t.balances = s.balances) (h : s.post p = .ok s') :
    ∃ t', t.post p = .ok t' ∧ t'.balances = s'.balances := by
  have he (account : Acc) (asset : AssetId) : t.entry account asset = s.entry account asset := by
    rw [entry, entry, hb]
  have hset (b : Decimal) : (t.setEntry p.account p.asset b).balances =
      (s.setEntry p.account p.asset b).balances := by simp only [setEntry, hb]
  simp only [post] at h ⊢
  split_ifs at h ⊢
  · have hadd : t.added p.account p.asset p.amount = s.added p.account p.asset p.amount := by
      rw [added, added, he]
    rw [← Except.ok.inj h]
    exact ⟨_, rfl, by rw [addBalance_eq, addBalance_eq, hadd, hset]⟩
  · simp only [bind_eq_ok, pure_eq_ok, Prod.exists] at h
    obtain ⟨_, _, hsub, hu⟩ := h
    obtain ⟨b, hb, hd, hs⟩ := subBalance_eq_ok.mp hsub
    have ht := subBalance_eq_ok.mpr ⟨b, (he _ _).trans hb, hd, rfl⟩
    exact ⟨_, bind_eq_ok.mpr ⟨_, ht, rfl⟩, by rw [← hu, hs, hset]⟩

omit [PalletAccounts Acc] in
theorem postAll_congr (hb : t.balances = s.balances) (h : s.postAll ps = .ok s') :
    ∃ t', t.postAll ps = .ok t' ∧ t'.balances = s'.balances := by
  induction ps generalizing s t with
  | nil => exact ⟨t, rfl, hb.trans (congrArg balances (foldlM_nil_eq_ok.mp h))⟩
  | cons p ps hi =>
    obtain ⟨u, hu, h⟩ := foldlM_cons_eq_ok.mp h
    obtain ⟨v, hv, hvu⟩ := post_congr hb hu
    obtain ⟨t', ht, hs⟩ := hi hvu h
    exact ⟨t', foldlM_cons_eq_ok.mpr ⟨v, hv, ht⟩, hs⟩

theorem importMessage_append (s : OffchainState Acc) (egress : List (EgressMessages Acc)) :
    importMessage allowlist engine (s, egress) m =
      (importMessage allowlist engine (s, []) m).map fun r => (r.1, egress ++ r.2) := by
  cases m with
  | addLiquidity market pool lp totalShares base quote =>
    simp only [importMessage]
    cases s.importAddLiquidity market pool lp totalShares base quote (engine _) <;> rfl
  | removeLiquidity market pool lp burnFrac totalShares =>
    simp only [importMessage]
    cases s.importRemoveLiquidity market pool lp burnFrac (engine _) <;> rfl
  | forceClosePool market pool =>
    simp only [importMessage]
    cases s.importForceClosePool market pool <;> rfl
  | withdrawTradingFees =>
    simp only [importMessage]
    cases s.importTradingFees allowlist (engine _) <;> rfl
  | _ => simp [importMessage, Except.map]

theorem import_cons (h : (m :: queue).foldlM (importMessage allowlist engine) (s, egress) = .ok (s', out)) :
    ∃ t new, importMessage allowlist engine (s, []) m = .ok (t, new) ∧
      queue.foldlM (importMessage allowlist engine) (t, egress ++ new) = .ok (s', out) ∧
      queuePostings allowlist engine s (m :: queue) =
        s.postings allowlist engine m ++ queuePostings allowlist engine t queue := by
  obtain ⟨acc, hm, h⟩ := foldlM_cons_eq_ok.mp h
  rw [importMessage_append] at hm
  cases hi : importMessage allowlist engine (s, []) m with
  | error e => simp [hi, Except.map] at hm
  | ok r =>
    simp only [hi, Except.map, Except.ok.injEq] at hm
    exact ⟨r.1, r.2, rfl, hm ▸ h, by rw [queuePostings, hi]; rfl⟩

theorem postAll_import (h : queue.foldlM (importMessage allowlist engine) (s, egress) = .ok (s', out)) :
    ∃ t, s.postAll (queuePostings allowlist engine s queue) = .ok t ∧ t.balances = s'.balances := by
  induction queue generalizing s egress with
  | nil =>
    cases foldlM_nil_eq_ok.mp h
    exact ⟨_, rfl, rfl⟩
  | cons m queue hi =>
    obtain ⟨t, new, hm, h, hps⟩ := import_cons h
    obtain ⟨u, hu, hut⟩ := postAll_importMessage hm
    obtain ⟨v, hv, hvs⟩ := hi h
    obtain ⟨w, hw, hwv⟩ := postAll_congr hut hv
    rw [hps]
    exact ⟨w, Except.foldlM_append_eq_ok.mpr ⟨u, hu, hw⟩, hwv.trans hvs⟩

end Queues

end Ocex.OffchainState
