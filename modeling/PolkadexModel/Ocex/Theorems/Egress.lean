import PolkadexModel.Ocex.Theorems.Custody
import PolkadexModel.Ocex.Theorems.Imports

open List Ocex.OffchainState Std.TreeMap

namespace Ocex

open Decimal (nonneg_iff FaithfulArith)

variable {Acc Auth W : Type}

def Posting.debits (ps : List (Posting Acc)) : List (AssetId × Decimal) :=
  (ps.filter (!·.isCredit)).map fun p => (p.asset, p.amount)

theorem Posting.debits_append (ps qs : List (Posting Acc)) :
    debits (ps ++ qs) = debits ps ++ debits qs := by
  simp [debits]

-- The fees that the engine withdraws in assets which are not on the list.
def unlisted (allowlistedToken : Std.TreeSet AssetId)
    (engineMessages : IngressMessages Acc → Option (EgressMessages Acc)) :
    IngressMessages Acc → List (AssetId × Decimal)
  | .withdrawTradingFees =>
    match engineMessages .withdrawTradingFees with
    | some (.tradingFees fees) => fees.toList.filter (·.1 ∉ allowlistedToken)
    | _ => []
  | _ => []

section Planck

variable [FaithfulArith] {x y : Decimal}

theorem planck_eq (x : Decimal) : planck x = ⌊min (x.toRat * 10 ^ 12) Decimal.max.toRat⌋₊ := by
  by_cases hx : 0 ≤ x.toRat
  case pos => exact planck_of_inPlanck ((inPlanck_eq_ok hx).mpr rfl)
  case neg =>
    have hneg : min (x.toRat * 10 ^ 12) Decimal.max.toRat ≤ 0 :=
      (min_le_left ..).trans (by linarith)
    rw [Nat.floor_of_nonpos hneg, planck]
    cases hn : (x.saturatingMul unitDecimal).toNat? with
    | none => rfl
    | some n =>
      have hp : State.inPlanck x = .ok n := orElse_eq_ok.mpr hn
      exact absurd (nonneg_iff.mp (nonneg_of_inPlanck hp)) hx

theorem planck_congr (h : x ≈ y) : planck x = planck y := by
  rw [planck_eq, planck_eq, Decimal.equiv_iff.mp h]

theorem planck_of_nonpos (h : x.toRat ≤ 0) : planck x = 0 := by
  rw [planck_eq, Nat.floor_of_nonpos]
  exact (min_le_left ..).trans (by linarith)

-- A negative balance of the pot has no fees, whether it is rounded off or not.
theorem planck_takeable (x : Decimal) :
    planck (OffchainState.takeable x) = planck (Order.roundingOff x) := by
  rw [takeable]
  split_ifs with hlt
  · have hneg : x.toRat ≤ 0 := by
      by_contra hpos
      have hle := Decimal.truncRat_le 9 x.toRat
      rw [Decimal.lt_iff, Order.roundingOff, Decimal.toRat_truncate 9 (not_le.mp hpos).le] at hlt
      linarith
    have hround : (Order.roundingOff x).toRat ≤ 0 := Decimal.toRat_truncate_nonpos 9 hneg
    rw [planck_of_nonpos hneg, planck_of_nonpos hround]
  · rfl

end Planck

section Fees

variable [DecidableEq Acc] [PalletAccounts Acc] [FaithfulArith]
  {s s' : OffchainState Acc} {fees : Std.TreeMap AssetId Decimal}
  {allowlist : Std.TreeSet AssetId}

omit [DecidableEq Acc] [FaithfulArith] in
theorem debits_feePostings (l : List AssetId) : Posting.debits (OffchainState.feePostings fees s l) =
    (l.filter fees.contains).map fun asset =>
      (asset, OffchainState.takeable (s.getBalance PalletAccounts.potAccount asset)) := by
  simp [Posting.debits, feePostings, filter_map, Function.comp_def]

theorem planckOf_fees
    (h : allowlist.toList.foldlM (OffchainState.withdrawFees fees) s = .ok s') :
    planckOf fees.toList =
      planckOf (Posting.debits (OffchainState.feePostings fees s allowlist.toList)) +
        planckOf (fees.toList.filter (·.1 ∉ allowlist)) := by
  have hn := Trees.nodup_toList allowlist
  have hfees := (postAll_withdrawFees hn h).2
  have hd := Trees.distinct_toList fees
  funext asset
  have hall : planckOf fees.toList asset = (fees[asset]?).elim 0 planck :=
    Trees.sum_ite hd planck fun fee => mem_toList_iff_getElem?_eq_some
  have hunlisted : planckOf (fees.toList.filter (·.1 ∉ allowlist)) asset =
      (if asset ∈ allowlist then none else fees[asset]?).elim 0 planck := by
    refine Trees.sum_ite (hd.filter _) planck fun fee => ?_
    rw [mem_filter, mem_toList_iff_getElem?_eq_some]
    split_ifs with ha <;> simp [ha]
  have hlisted : planckOf (Posting.debits (feePostings fees s allowlist.toList)) asset =
      (if asset ∈ allowlist ∧ fees.contains asset then
        some (takeable (s.getBalance PalletAccounts.potAccount asset)) else none).elim 0
        planck := by
    rw [debits_feePostings]
    refine Trees.sum_ite ?_ planck fun fee => ?_
    · exact pairwise_map.mpr (hn.filter _)
    · simp only [mem_map, mem_filter, Std.TreeSet.mem_toList, Prod.mk.injEq]
      split_ifs with ha
      · exact ⟨fun ⟨_, _, hk, ht⟩ => hk ▸ congrArg some ht, fun ht => ⟨asset, ha, rfl, Option.some.inj ht⟩⟩
      · exact ⟨fun ⟨_, hm, hk, _⟩ => absurd (hk ▸ hm) ha, fun ht => by simp at ht⟩
  rw [Pi.add_apply, hall, hunlisted, hlisted]
  by_cases ha : asset ∈ allowlist
  case neg => simp [ha]
  case pos =>
    cases hf : fees[asset]? with
    | none => simp [contains_eq_isSome_getElem?, hf]
    | some fee =>
      have heq := hfees asset (Std.TreeSet.mem_toList.mpr ha) fee hf
      simp [contains_eq_isSome_getElem?, hf, ha, planck_takeable, planck_congr heq]

end Fees

section Messages

variable [DecidableEq Acc] [PalletAccounts Acc] [FaithfulArith]
  {s s' : OffchainState Acc} {allowlist : Std.TreeSet AssetId}
  {engine : IngressMessages Acc → Option (EgressMessages Acc)}
  {m : IngressMessages Acc} {queue : List (IngressMessages Acc)}
  {egress out : List (EgressMessages Acc)}

omit [PalletAccounts Acc] in
theorem payouts_verifyAddLiquidity {answer : EgressMessages Acc} {lp : Acc}
    (h : s.verifyAddLiquidity market pool lp totalShares base quote message = .ok answer) :
    answer.payouts = [] := by
  simp only [verifyAddLiquidity] at h
  split at h
  · simp at h
  · simp only [bind_eq_ok, pure_eq_ok] at h
    obtain ⟨_, _, _, _, _, _, _, _, _, _, ha⟩ := h
    exact ha ▸ rfl
  · simp at h

-- What is paid for a message was taken from the balances, apart from the fees in other assets.
theorem planckOf_importMessage
    (h : OffchainState.importMessage allowlist engine (s, []) m = .ok (s', out)) :
    planckOf (out.flatMap EgressMessages.payouts) =
      planckOf (Posting.debits (s.postings allowlist engine m)) +
        planckOf (unlisted allowlist engine m) := by
  cases m with
  | addLiquidity =>
    simp only [importMessage, importAddLiquidity, bind_eq_ok,
      pure_eq_ok, Prod.exists, Prod.mk.injEq] at h
    obtain ⟨_, _, ⟨_, hv, _, he⟩, _, ho⟩ := h
    rw [← ho, ← he, nil_append, flatMap_singleton, payouts_verifyAddLiquidity hv]
    rfl
  | removeLiquidity =>
    simp only [importMessage, bind_eq_ok, pure_eq_ok, Prod.exists,
      Prod.mk.injEq] at h
    obtain ⟨t, answer, hr, _, ho⟩ := h
    obtain ⟨hm, hr⟩ := removal_of_import hr
    simp only [← ho, postings, hm, unlisted]
    cases hr with
    | @freed market' _ _ base quote _ hq hb =>
      change planckOf [(market'.baseAsset, base), (market'.quoteAsset, quote)] =
        planckOf [(market'.quoteAsset, _), (market'.baseAsset, _)] + planckOf []
      simp only [planckOf_cons, planckOf_nil, planck_congr hq, planck_congr hb, add_zero]
      exact add_comm ..
    | failed => rfl
  | forceClosePool =>
    simp only [importMessage, importForceClosePool, bind_eq_ok,
      pure_eq_ok, Prod.exists, Prod.mk.injEq] at h
    obtain ⟨_, _, ⟨_, _, _, _, _, _, _, he⟩, _, ho⟩ := h
    rw [← ho, ← he]
    rfl
  | withdrawTradingFees =>
    simp only [importMessage, bind_eq_ok, pure_eq_ok, Prod.exists,
      Prod.mk.injEq] at h
    obtain ⟨t, _, hf, _, ho⟩ := h
    obtain ⟨fees, hm, he, hl⟩ := importTradingFees_eq_ok hf
    simp only [← ho, he, postings, hm, unlisted, nil_append,
      flatMap_singleton, EgressMessages.payouts]
    exact planckOf_fees hl
  | _ =>
    simp only [importMessage, Except.ok.injEq, Prod.mk.injEq] at h
    rw [← h.2]
    rfl

theorem planckOf_import
    (h : queue.foldlM (OffchainState.importMessage allowlist engine) (s, egress) = .ok (s', out)) :
    planckOf (out.flatMap EgressMessages.payouts) = planckOf (egress.flatMap EgressMessages.payouts) +
      (planckOf (Posting.debits (OffchainState.queuePostings allowlist engine s queue)) +
        planckOf (queue.flatMap (unlisted allowlist engine))) := by
  induction queue generalizing s egress with
  | nil =>
    cases foldlM_nil_eq_ok.mp h
    rfl
  | cons m queue hi =>
    obtain ⟨t, new, hm, h, hps⟩ := import_cons h
    rw [hi h, hps, flatMap_append, planckOf_append, planckOf_importMessage hm,
      Posting.debits_append, planckOf_append, flatMap_cons, planckOf_append]
    ac_rfl

end Messages

section Payments

theorem planckOf_eq_zero [Decimal.Arith] : planckOf l = 0 ↔ ∀ e ∈ l, planck e.2 = 0 := by
  constructor
  · intro h e he
    have hsum := List.sum_eq_zero_iff_forall_eq_nat.mp (congrFun h e.1) _ (List.mem_map_of_mem he)
    simpa using hsum
  · intro h
    funext asset
    refine List.sum_eq_zero_iff_forall_eq_nat.mpr fun n hn => ?_
    obtain ⟨e, he, hn⟩ := List.mem_map.mp hn
    rw [← hn, h e he, ite_self]

theorem mem_unlisted {queue : List (IngressMessages Acc)} :
    e ∈ queue.flatMap (unlisted allowlist engine) ↔ .withdrawTradingFees ∈ queue ∧
      ∃ fees, engine .withdrawTradingFees = some (.tradingFees fees) ∧ fees[e.1]? = some e.2 ∧
        e.1 ∉ allowlist := by
  rw [mem_flatMap]
  constructor
  · rintro ⟨m, hm, he⟩
    simp only [unlisted] at he
    split at he
    · split at he
      · rename_i fees hf
        rw [mem_filter, mem_toList_iff_getElem?_eq_some] at he
        exact ⟨hm, fees, hf, he.1, of_decide_eq_true he.2⟩
      · cases he
    · cases he
  · rintro ⟨hm, fees, hf, he, hn⟩
    refine ⟨_, hm, ?_⟩
    simp only [unlisted, hf]
    exact mem_filter.mpr ⟨mem_toList_iff_getElem?_eq_some.mpr he, decide_eq_true hn⟩

variable [Ord Acc] [DecidableEq Acc] [PalletAccounts Acc] [Assets Acc W]
  [CrowdSourceLiquidityMining Acc W] [Custody Acc W] [Percent] [FaithfulArith]
  {cfg : Config} {chain chain' chain'' : State Acc Auth W cfg}

def debited (chain : State Acc Auth W cfg) (blk : ℕ) (s : OffchainState Acc)
    (engine : IngressMessages Acc → Option (EgressMessages Acc)) : AssetId → ℕ :=
  planckOf (Posting.debits (OffchainState.queuePostings chain.allowlistedToken engine s
    (chain.ingressMessages blk).toList))

theorem State.custody_egress (hi : importBlk chain blk s info engine = .ok (s', info', egress))
    (ho : chain'.PaysOthers) (hm : ∀ msg ∈ egress, msg.provider ≠ some PalletAccounts.palletAccount)
    (hp : chain'.processEgressMsg egress = .ok chain'') :
    chain'.custody = chain''.custody + debited chain blk s engine +
      planckOf ((chain.ingressMessages blk).toList.flatMap (unlisted chain.allowlistedToken engine)) := by
  simp only [importBlk, bind_eq_ok, pure_eq_ok, Prod.exists, Prod.mk.injEq] at hi
  obtain ⟨_, _, _, out, hl, _, _, he⟩ := hi
  have hpaid := planckOf_import hl
  rw [flatMap_nil, planckOf_nil, zero_add, he] at hpaid
  rw [(State.Pays.processEgressMsg ho hm hp).custody, hpaid, debited, add_assoc]

-- No more is paid than was taken exactly if the engine only withdraws fees in assets of the list. The
-- debits are those of the import, which consists of its postings.
theorem State.egress_backed_iff {s s' : OffchainState Acc} {info info' : StateInfo} {blk : ℕ}
    {engine : IngressMessages Acc → Option (EgressMessages Acc)}
    {egress : List (EgressMessages Acc)}
    (hi : importBlk chain blk s info engine = .ok (s', info', egress))
    (ho : chain'.PaysOthers)
    (hm : ∀ msg ∈ egress, msg.provider ≠ some PalletAccounts.palletAccount)
    (hp : chain'.processEgressMsg egress = .ok chain'') :
    (∃ t, s.postAll (OffchainState.queuePostings chain.allowlistedToken engine s
      (chain.ingressMessages blk).toList) = .ok t ∧ t.balances = s'.balances) ∧
    ((∀ asset, chain'.custody asset ≤ chain''.custody asset + debited chain blk s engine asset) ↔
      (.withdrawTradingFees ∈ (chain.ingressMessages blk).toList → ∀ fees,
        engine .withdrawTradingFees = some (.tradingFees fees) → ∀ asset fee,
        asset ∉ chain.allowlistedToken → fees[asset]? = some fee → planck fee = 0)) := by
  refine ⟨?postings, ?backed⟩
  case postings =>
    simp only [importBlk, bind_eq_ok, pure_eq_ok, Prod.exists, Prod.mk.injEq] at hi
    obtain ⟨_, _, _, _, hl, hs, _⟩ := hi
    exact hs ▸ postAll_import hl
  case backed =>
    have hc := State.custody_egress hi ho hm hp
    have hzero : (∀ asset, chain'.custody asset ≤
        chain''.custody asset + debited chain blk s engine asset) ↔
        planckOf ((chain.ingressMessages blk).toList.flatMap
          (unlisted chain.allowlistedToken engine)) = 0 := by
      rw [funext_iff]
      refine forall_congr' fun asset => ?_
      rw [hc]
      simp only [Pi.add_apply, Pi.zero_apply]
      omega
    rw [hzero, planckOf_eq_zero]
    constructor
    · intro h hmem fees hf asset fee hn hfee
      exact h (asset, fee) (mem_unlisted.mpr ⟨hmem, fees, hf, hfee, hn⟩)
    · intro h e he
      obtain ⟨hmem, fees, hf, hfee, hn⟩ := mem_unlisted.mp he
      exact h hmem fees hf e.1 e.2 hn hfee

end Payments

namespace Mock

attribute [local instance] Decimal.HalfEven.faithfulArith percent custody

def feeChain : State Account ℕ World config :=
  { (State.genesis [] fun _ _ => unitBalance : State Account ℕ World config) with
    allowlistedToken := (∅ : Std.TreeSet AssetId).insert pair.base
    ingressMessages := fun _ => ⟨[.withdrawTradingFees], by decide⟩ }

def feeState : OffchainState Account :=
  OffchainState.empty.addBalance PalletAccounts.potAccount pair.base 1

def oneOf (asset : AssetId) : Std.TreeMap AssetId Decimal :=
  (∅ : Std.TreeMap AssetId Decimal).insert asset 1

def withdrawOne (asset : AssetId) (_ : IngressMessages Account) : Option (EgressMessages Account) :=
  some (.tradingFees (oneOf asset))

theorem listed_fees_backed : ∃ s' info' chain'',
    importBlk feeChain 1 feeState {} (withdrawOne pair.base) =
      .ok (s', info', [.tradingFees (oneOf pair.base)]) ∧
    feeChain.processEgressMsg [.tradingFees (oneOf pair.base)] = .ok chain'' ∧
    ∀ asset, feeChain.custody asset ≤
      chain''.custody asset + debited feeChain 1 feeState (withdrawOne pair.base) asset := by
  obtain ⟨s', info', hi⟩ : ∃ s' info', importBlk feeChain 1 feeState {} (withdrawOne pair.base) =
    .ok (s', info', [.tradingFees (oneOf pair.base)]) := ⟨_, _, rfl⟩
  obtain ⟨chain'', hp⟩ : ∃ chain'',
    feeChain.processEgressMsg [.tradingFees (oneOf pair.base)] = .ok chain'' := ⟨_, rfl⟩
  refine ⟨s', info', chain'', hi, hp, (State.egress_backed_iff hi ?others ?provider hp).2.mpr ?listed⟩
  case others =>
    intro _ h
    cases h
  case provider => decide
  case listed =>
    intro _ fees hf asset fee hn hfee
    cases hf
    rw [oneOf, Std.TreeMap.getElem?_insert] at hfee
    split at hfee
    case isTrue he =>
      rw [feeChain, Std.TreeSet.mem_insert] at hn
      exact absurd (.inl he) hn
    case isFalse => simp at hfee

-- The fees in the native currency are burned, although nothing is taken from the pot.
theorem unlisted_fees_paid : ∃ s' info' chain'',
    importBlk feeChain 1 feeState {} (withdrawOne pair.quote) =
      .ok (s', info', [.tradingFees (oneOf pair.quote)]) ∧
    feeChain.processEgressMsg [.tradingFees (oneOf pair.quote)] = .ok chain'' ∧
    chain''.custody pair.quote + debited feeChain 1 feeState (withdrawOne pair.quote) pair.quote <
      feeChain.custody pair.quote := by
  refine ⟨_, _, _, rfl, rfl, ?_⟩
  decide +kernel

end Mock

end Ocex
