import PolkadexModel.Lib.DecimalArith
import PolkadexModel.Ocex.Rewards
import PolkadexModel.Ocex.Theorems.Records

open Function

-- The epochs of the liquidity mining are flagged and finalised one after the other, and their rewards
-- are paid once.
namespace Ocex

namespace Epochs

variable {Acc : Type} [DecidableEq Acc]

-- What a call does to the epochs. It may finalise an epoch, or pay the rewards of one entry.
inductive Step (r : Epochs Acc) : Option ℕ → Option (ℕ × TradingPair × Acc) →
    Epochs Acc → Prop
  | expect (config : Option LMPEpochConfig) : Step r none none { r with expectedLMPConfig := config }
  | enter (config : LMPEpochConfig) : Step r none none (r.enter config)
  | finalise {epoch : ℕ} {r' : Epochs Acc} : r.finalizeLMPScore = some epoch →
    r'.lmpEpoch = r.lmpEpoch → r'.lmpConfig = r.lmpConfig →
    r'.finalizeLMPScore = (if Word.saturatingAdd 16 epoch 1 < r.lmpEpoch
      then some (Word.saturatingAdd 16 epoch 1) else none) →
    (∀ e ≠ epoch, r'.lmpClaimBlk e = r.lmpClaimBlk e) →
    (∀ key, key.1 ≠ epoch → r'.traderMetrics key = r.traderMetrics key) → Step r (some epoch) none r'
  | pay {key : ℕ × TradingPair × Acc} {score fees : Decimal} : r.lmpClaimBlk key.1 ≠ none →
    (r.traderMetrics key).2.2 = false → Step r none (some key)
      { r with traderMetrics := update r.traderMetrics key (score, fees, true) }

-- The epochs below `m` are finalised. If they are not all that are over, then the next one is flagged.
structure Orderly (m : ℕ) (paid : List (ℕ × TradingPair × Acc)) (r : Epochs Acc) :
    Prop where
  flagged : ∀ epoch, r.finalizeLMPScore = some epoch → epoch = m ∧ m < r.lmpEpoch
  finalised : r.finalizeLMPScore = none → m = r.lmpEpoch
  configured : ∀ epoch ≤ r.lmpEpoch, 0 < r.lmpEpoch → r.lmpConfig epoch ≠ none
  closed : ∀ epoch ≥ m, r.lmpClaimBlk epoch = none
  once : paid.Nodup
  claimed : ∀ key ∈ paid, key.1 < m ∧ (r.traderMetrics key).2.2 = true

variable {r r' : Epochs Acc} {m : ℕ} {paid : List (ℕ × TradingPair × Acc)}
  {finalised : Option ℕ} {pays : Option (ℕ × TradingPair × Acc)}

-- The number of epochs that were flagged so far, if `m` are finalised.
def flags (m : ℕ) (r : Epochs Acc) : ℕ :=
  if r.finalizeLMPScore = none then m else m + 1

omit [DecidableEq Acc] in
theorem lmpEpoch_enter (h : r.lmpEpoch < Word.max 16) (config : LMPEpochConfig) :
    (r.enter config).lmpEpoch = r.lmpEpoch + 1 :=
  Word.lt_saturatingAdd_one h

theorem Step.keep (r : Epochs Acc) : Step r none none r :=
  .expect r.expectedLMPConfig

theorem Step.lmpEpoch_lt (hs : Step r finalised pays r') (h : r'.lmpEpoch < Word.max 16) :
    r.lmpEpoch < Word.max 16 := by
  cases hs with
  | enter config =>
    have h : min (r.lmpEpoch + 1) (Word.max 16) < Word.max 16 := h
    omega
  | finalise _ he => exact he ▸ h
  | _ => exact h

namespace Orderly

theorem enter (h : Orderly m paid r)
    (hlt : (r.enter config).lmpEpoch < Word.max 16) : Orderly m paid (r.enter config) ∧
      (r.enter config).finalizeLMPScore = some m := by
  have hlt := (Step.enter config).lmpEpoch_lt hlt
  have he := lmpEpoch_enter hlt config
  have hnext : (r.enter config).finalizeLMPScore = some m ∧ m < r.lmpEpoch + 1 := by
    cases hf : r.finalizeLMPScore with
    | none => exact ⟨by simp [Epochs.enter, hf, h.finalised hf], by simp [h.finalised hf]⟩
    | some epoch =>
      obtain ⟨hm, hlt⟩ := h.flagged epoch hf
      exact ⟨by simp [Epochs.enter, hf, hm], by omega⟩
  refine ⟨⟨fun epoch hs => ?flagged, fun hn => ?finalised, fun epoch hle _ => ?configured, h.closed, h.once,
    h.claimed⟩, hnext.1⟩
  case flagged =>
    rw [hnext.1] at hs
    exact ⟨(Option.some.inj hs).symm, he ▸ hnext.2⟩
  case finalised =>
    rw [hnext.1] at hn
    cases hn
  case configured =>
    rw [he] at hle
    simp only [Epochs.enter, Word.lt_saturatingAdd_one hlt]
    by_cases hnew : epoch = r.lmpEpoch + 1
    case pos => simp [hnew]
    case neg =>
      rw [update_of_ne hnew]
      -- The first epoch is configured together with the second one.
      by_cases hzero : r.lmpEpoch = 0
      · have hepoch : epoch = 0 := by omega
        subst hepoch
        cases hc : r.lmpConfig 0 <;> simp [hzero, hc]
      · rw [if_neg (by simp [hzero])]
        exact h.configured epoch (by omega) (by omega)

-- What is finalised is the next epoch, and what is flagged is the next one that was not flagged.
theorem step (h : Orderly m paid r) (hs : Step r finalised pays r') (hlt : r'.lmpEpoch < Word.max 16) :
    ∃ m', List.range m ++ finalised.toList = List.range m' ∧ Orderly m' (paid ++ pays.toList) r' ∧
      List.range (r.flags m) ++ (if r'.finalizeLMPScore = r.finalizeLMPScore then none
        else r'.finalizeLMPScore).toList = List.range (r'.flags m') := by
  cases hs with
  | expect config =>
    refine ⟨m, by simp, ?_, by simp [flags]⟩
    rw [Option.toList_none, List.append_nil]
    exact ⟨h.flagged, h.finalised, h.configured, h.closed, h.once, h.claimed⟩
  | enter config =>
    obtain ⟨ho, hn⟩ := h.enter hlt
    refine ⟨m, by simp, by simpa using ho, ?_⟩
    cases hf : r.finalizeLMPScore with
    | none => simp [flags, hf, hn, List.range_succ]
    | some epoch => simp [flags, hf, hn, (h.flagged epoch hf).1]
  | @finalise epoch _ hf he hc hn hb hm =>
    obtain ⟨hepoch, hlt'⟩ := h.flagged epoch hf
    subst hepoch
    rw [he] at hlt
    rw [Word.lt_saturatingAdd_one (hlt'.trans hlt)] at hn
    refine ⟨epoch + 1, List.range_succ.symm, ?_, ?flags⟩
    case flags =>
      by_cases hnext : epoch + 1 < r.lmpEpoch <;> simp [flags, hf, hn, hnext, List.range_succ]
    rw [Option.toList_none, List.append_nil]
    refine ⟨fun e hs => ?flagged, fun hs => ?finalised, ?configured, fun e hge => ?closed, h.once,
      fun key hk => ?claimed⟩
    case flagged =>
      rw [hn] at hs
      split_ifs at hs with hnext
      exact ⟨(Option.some.inj hs).symm, he ▸ hnext⟩
    case finalised =>
      rw [hn] at hs
      split_ifs at hs with hnext
      omega
    case configured =>
      rw [he, hc]
      exact h.configured
    case closed =>
      rw [hb e (by omega)]
      exact h.closed e (by omega)
    case claimed =>
      obtain ⟨hlt, hk⟩ := h.claimed key hk
      rw [hm key (by omega)]
      exact ⟨by omega, hk⟩
  | @pay key score fees hb hn =>
    have hlt : key.1 < m := by
      by_contra hge
      exact hb (h.closed key.1 (not_lt.mp hge))
    have hnew : key ∉ paid := by
      intro hk
      rw [(h.claimed key hk).2] at hn
      cases hn
    refine ⟨m, by simp, ⟨h.flagged, h.finalised, h.configured, h.closed, ?once, ?claimed⟩, by simp [flags]⟩
    case once =>
      rw [Option.toList_some, List.nodup_append_comm]
      exact List.nodup_cons.mpr ⟨hnew, h.once⟩
    case claimed =>
      intro key' hk
      by_cases he : key' = key
      · simp [he, hlt]
      · obtain ⟨hlt, hk⟩ := h.claimed key' (by simpa [he] using hk)
        simpa [he] using ⟨hlt, hk⟩

end Orderly

end Epochs

section Runs

variable {Acc Auth AuthSign W : Type} [Ord Acc] [DecidableEq Acc]
  {cfg : Config} [PalletAccounts Acc] [Assets Acc W] [CrossChainGadget Acc W]
  [CrowdSourceLiquidityMining Acc W] [RewardsAccount Acc W] [Percent]
  [Authority Acc Auth AuthSign] [Decimal.Arith]

namespace State

def finalisedBy (s : State Acc Auth W cfg) :
    LmpCall Acc Auth AuthSign → Option ℕ
  | .call (.submitSnapshot summary signatures) =>
    if (step s (.submitSnapshot summary signatures)).isSome ∧ summary.traderMetrics.isSome
    then s.finalizeLMPScore else none
  | _ => none

-- The epoch that a call flags, if it changes the flag.
def flaggedBy (s : State Acc Auth W cfg)
    (c : LmpCall Acc Auth AuthSign) : Option ℕ :=
  if (Run.exec lmpStep s c).finalizeLMPScore = s.finalizeLMPScore then none
  else (Run.exec lmpStep s c).finalizeLMPScore

def paidBy (s : State Acc Auth W cfg) :
    LmpCall Acc Auth AuthSign → Option (ℕ × TradingPair × Acc)
  | .claimLmpRewards main epoch market =>
    if (lmpStep s (.claimLmpRewards main epoch market :
      LmpCall Acc Auth AuthSign)).isSome then some (epoch, market, main) else none
  | _ => none

section Step

variable {s s' : State Acc Auth W cfg}

omit [Ord Acc] [PalletAccounts Acc] [Assets Acc W] [CrossChainGadget Acc W]
  [CrowdSourceLiquidityMining Acc W] [RewardsAccount Acc W] [Percent]
  [Authority Acc Auth AuthSign] [Decimal.Arith] in
theorem traderMetrics_storeMetrics (epoch : ℕ) (pair : TradingPair)
    (metrics : ℕ × TradingPair × Acc → Decimal × Decimal × Bool) (counter : ℕ)
    (scores : List (Acc × (Decimal × Decimal))) {key : ℕ × TradingPair × Acc}
    (h : key.1 ≠ epoch) : (storeMetrics epoch pair metrics counter scores).1 key = metrics key := by
  induction scores generalizing metrics counter with
  | nil => rfl
  | cons entry scores hi =>
    have hk : key ≠ (epoch, pair, entry.1) := fun he => h (congrArg Prod.fst he)
    simp only [storeMetrics]
    split_ifs
    · exact update_of_ne hk ..
    · rw [hi]
      exact update_of_ne hk ..

omit [PalletAccounts Acc] [Assets Acc W] [CrossChainGadget Acc W]
  [CrowdSourceLiquidityMining Acc W] [RewardsAccount Acc W] [Percent]
  [Authority Acc Auth AuthSign] [Decimal.Arith] in
theorem step_updateLmpScores {metrics : TradingPairMetricsMap Acc}
    (h : s.updateLmpScores metrics = .ok s') :
    s.epochs.Step s.finalizeLMPScore none s'.epochs := by
  simp only [updateLmpScores] at h
  cases hf : s.finalizeLMPScore with
  | none =>
    simp only [hf, Except.ok.injEq] at h
    exact h ▸ .keep _
  | some epoch =>
    simp only [hf, bind_eq_ok, pure_eq_ok] at h
    obtain ⟨config, _, hs⟩ := h
    -- The loop over the markets only changes the scores.
    have hrest := Run.foldl_frame (f := storeMarket epoch)
      (fun acc : State Acc Auth W cfg × ℕ =>
        (acc.1.lmpEpoch, acc.1.lmpConfig, acc.1.lmpClaimBlk)) (fun _ _ => rfl)
      (s, config.maxAccountsRewarded) metrics.toList
    have hmetrics {key : ℕ × TradingPair × Acc} (hk : key.1 ≠ epoch) := Run.foldl_frame
      (f := storeMarket epoch) (fun acc : State Acc Auth W cfg × ℕ =>
        acc.1.traderMetrics key) (fun acc market => traderMetrics_storeMetrics epoch market.1
          acc.1.traderMetrics acc.2 market.2.1.toList hk) (s, config.maxAccountsRewarded) metrics.toList
    simp only [Prod.mk.injEq] at hrest
    obtain ⟨hepoch, hconfig, hclaim⟩ := hrest
    subst hs
    refine .finalise hf hepoch hconfig ?_ (fun e he => ?_) fun key hk => hmetrics hk
    · exact congrArg (fun n => if _ < n then _ else _) hepoch
    · exact (update_of_ne he ..).trans (congrFun hclaim e)

omit [PalletAccounts Acc] [Assets Acc W] [CrossChainGadget Acc W]
  [CrowdSourceLiquidityMining Acc W] [Percent]
  [Authority Acc Auth AuthSign] in
theorem step_doClaimLmpRewards {main : Acc} {epoch total : ℕ} {market : TradingPair}
    (h : s.doClaimLmpRewards main epoch market = .ok (s', total)) :
    s.epochs.Step none (some (epoch, market, main)) s'.epochs := by
  simp only [doClaimLmpRewards, bind_eq_ok, pure_eq_ok, ensure_eq_ok, orElse_eq_ok,
    Prod.mk.injEq] at h
  obtain ⟨_, hb, _, _, _, _, _, hn, _, _, _, _, hs, _⟩ := h
  have hn : (s.epochs.traderMetrics (epoch, market, main)).2.2 = false :=
    (Bool.not_eq_true' _).mp hn
  subst hs
  exact .pay (by simp [epochs, hb]) hn

omit [PalletAccounts Acc] [Assets Acc W] [CrossChainGadget Acc W]
  [CrowdSourceLiquidityMining Acc W] [RewardsAccount Acc W] [Percent]
  [Authority Acc Auth AuthSign] [Decimal.Arith] in
theorem RecordStep.step_epochs {c : Call Acc Auth AuthSign}
    {r : Records Acc} (h : s.RecordStep c r)
    (hc : ∀ summary signatures, c ≠ .submitSnapshot summary signatures) :
    s.epochs.Step none none r.epochs := by
  cases h with
  | register _ he => exact he ▸ .keep _
  | keep => exact .keep _
  | expect => exact .expect _
  | enter => exact .enter _
  | scores => exact absurd rfl (hc _ _)

theorem step_exec (s : State Acc Auth W cfg)
    (c : LmpCall Acc Auth AuthSign) :
    s.epochs.Step (s.finalisedBy c) (s.paidBy c) (Run.exec lmpStep s c).epochs := by
  rcases Run.exec_cases lmpStep s c with hstep | ⟨hstep, hexec⟩
  case inl =>
    generalize Run.exec lmpStep s c = s' at hstep
    cases c with
    | claimLmpRewards main epoch market =>
      have hsome : (lmpStep s (.claimLmpRewards main epoch market :
        LmpCall Acc Auth AuthSign)).isSome := by simp [hstep]
      simp only [finalisedBy, paidBy, hsome, if_true]
      obtain ⟨⟨t, total⟩, ht, he⟩ := Except.map_eq_ok.mp (toOption_eq_some.mp hstep)
      subst he
      exact step_doClaimLmpRewards ht
    | call c =>
      have hd : dispatch s c = .ok s' := toOption_eq_some.mp hstep
      cases c with
      | submitSnapshot summary signatures =>
        have hsome : (step s (.submitSnapshot summary signatures)).isSome := by simp [step, hd, Except.toOption]
        simp only [dispatch, bind_eq_ok] at hd
        obtain ⟨_, _, hd⟩ := hd
        obtain ⟨t, ht, hr⟩ := records_submitSnapshot hd
        have hr : s'.epochs = t.epochs := congrArg Records.epochs hr
        simp only [finalisedBy, paidBy, hsome, true_and]
        cases hm : summary.traderMetrics with
        | none =>
          rw [hm] at ht
          cases ht
          simpa [hr] using Epochs.Step.keep s.epochs
        | some metrics =>
          rw [hm] at ht
          exact hr ▸ step_updateLmpScores ht
      | _ => exact (recordStep_of_dispatch hd).step_epochs (by simp)
  case inr =>
    rw [hexec]
    cases c with
    | claimLmpRewards main epoch market => simpa [finalisedBy, paidBy, hstep] using Epochs.Step.keep s.epochs
    | call c =>
      cases c with
      | submitSnapshot summary signatures =>
        have hstep : step s (.submitSnapshot summary signatures) = none := hstep
        simpa [finalisedBy, paidBy, hstep] using Epochs.Step.keep s.epochs
      | _ => exact .keep _

end Step

-- The epochs that a run flags, those that it finalises, and the entries that it pays.
def flagged (s : State Acc Auth W cfg)
    (calls : List (LmpCall Acc Auth AuthSign)) : List ℕ :=
  (Run.trace lmpStep s calls).filterMap fun e => e.1.flaggedBy e.2

def finalised (s : State Acc Auth W cfg)
    (calls : List (LmpCall Acc Auth AuthSign)) : List ℕ :=
  (Run.trace lmpStep s calls).filterMap fun e => e.1.finalisedBy e.2

def paid (s : State Acc Auth W cfg)
    (calls : List (LmpCall Acc Auth AuthSign)) :
    List (ℕ × TradingPair × Acc) :=
  (Run.trace lmpStep s calls).filterMap fun e => e.1.paidBy e.2

section Run

variable {s : State Acc Auth W cfg}
  {calls : List (LmpCall Acc Auth AuthSign)}

-- The epochs are finalised in order as long as their numbers do not reach the last one.
theorem orderly_run (hs : s.epochs.Orderly 0 []) (hflag : s.finalizeLMPScore = none)
    (hlt : (Run.run lmpStep s calls).lmpEpoch < Word.max 16) :
    ∃ m, s.finalised calls = List.range m ∧ (Run.run lmpStep s calls).epochs.Orderly m (s.paid calls) ∧
      s.flagged calls = List.range ((Run.run lmpStep s calls).epochs.flags m) := by
  have hall : Run.Along lmpStep (fun _ _ => True) s calls := fun _ _ => trivial
  refine hall.induction (motive := fun calls s' => s'.lmpEpoch < Word.max 16 →
    ∃ m, s.finalised calls = List.range m ∧ s'.epochs.Orderly m (s.paid calls) ∧
      s.flagged calls = List.range (s'.epochs.flags m)) ?nil ?snoc hlt
  case nil =>
    intro _
    refine ⟨0, rfl, hs, ?_⟩
    simp [flagged, Epochs.flags, epochs, hflag]
  case snoc =>
    intro calls c _ hi hlt
    have hstep := step_exec (Run.run lmpStep s calls) c
    obtain ⟨m, hf, ho, hg⟩ := hi (hstep.lmpEpoch_lt hlt)
    obtain ⟨m', hf', ho', hg'⟩ := ho.step hstep hlt
    refine ⟨m', ?_, ?_, ?_⟩
    · rw [finalised, Run.filterMap_trace_append, ← hf', ← hf]
      rfl
    · rw [paid, Run.filterMap_trace_append]
      exact ho'
    · rw [flagged, Run.filterMap_trace_append, ← hg', ← hg]
      rfl

end Run

end State

-- Every epoch is flagged and finalised once, and in the order of the numbers. A flagged epoch is
-- configured, and no rewards are paid twice.
theorem epochs_finalised_in_order (authorities : List Auth) (world : W)
    (calls : List (LmpCall Acc Auth AuthSign))
    (h : (Run.run lmpStep (State.genesis authorities world : State Acc Auth W cfg)
      calls).lmpEpoch < 65535) :
    (∃ n, (State.genesis authorities world : State Acc Auth W cfg).flagged calls =
      List.range n) ∧
    (∃ n, (State.genesis authorities world : State Acc Auth W cfg).finalised calls =
      List.range n) ∧
    (∀ epoch, (Run.run lmpStep (State.genesis authorities world : State Acc Auth W cfg)
        calls).finalizeLMPScore = some epoch →
      (Run.run lmpStep (State.genesis authorities world : State Acc Auth W cfg)
        calls).lmpConfig epoch ≠ none) ∧
    ((State.genesis authorities world : State Acc Auth W cfg).paid calls).Nodup := by
  have hinit : (State.genesis authorities world : State Acc Auth W cfg).epochs.Orderly 0 [] := by
    constructor <;> simp [State.genesis, State.epochs]
  obtain ⟨m, hf, ho, hg⟩ := State.orderly_run hinit rfl h
  refine ⟨⟨_, hg⟩, ⟨m, hf⟩, fun epoch hs => ?_, ho.once⟩
  obtain ⟨he, hlt⟩ := ho.flagged epoch hs
  exact ho.configured epoch (he ▸ hlt.le) (by omega)

end Runs

namespace Mock

attribute [local instance] Decimal.HalfEven.arith percent

def lmpMarket : TradingPair where
  base := .asset 1
  quote := .polkadex

def lmpConfiguration : Call Account ℕ AuthSig :=
  .setLmpEpochConfig (some (2 * unitBalance)) (some (2 * unitBalance))
    [⟨lmpMarket, unitBalance, 0, 0, 0, 0⟩] none (some 0)

def lmpSummary : SnapshotSummary Account where
  validatorSetId := 0
  snapshotId := 1
  stateHash := 0
  stateChangeId := 0
  lastProcessedBlk := 0
  withdrawals := []
  egressMessages := []
  traderMetrics := some ((∅ : TradingPairMetricsMap Account).insert lmpMarket
    (((∅ : Std.TreeMap Account (Decimal × Decimal)).insert 2 (1, 1)).insert 3 (1, 0), (two, 1)))

def claimedEpoch : List (LmpCall Account ℕ AuthSig) :=
  [.call (.setExchangeState true), .call (.allowlistToken (.asset 1)), .call (.allowlistToken .polkadex),
    .call (.registerTradingPair (.asset 1) .polkadex unitBalance (100 * unitBalance) unitBalance unitBalance),
    .call lmpConfiguration, .call .startNewEpochLmp, .call .startNewEpochLmp,
    .call (.submitSnapshot lmpSummary [(0, 7, 1, 0)]), .claimLmpRewards 2 0 lmpMarket,
    .claimLmpRewards 2 0 lmpMarket]

def rewardsGenesis : State Account ℕ World config :=
  State.genesis [7] fun account _ => if account = 7 then 10 * unitBalance else 0

theorem claimed_epoch_in_order : rewardsGenesis.flagged claimedEpoch = [0, 1] ∧
    rewardsGenesis.finalised claimedEpoch = [0] ∧
    rewardsGenesis.paid claimedEpoch = [(0, lmpMarket, 2)] ∧
    (rewardsGenesis.paid claimedEpoch).Nodup :=
  ⟨by decide +kernel, by decide +kernel, by decide +kernel,
    (epochs_finalised_in_order [7] _ claimedEpoch (by decide +kernel)).2.2.2⟩

end Mock

end Ocex
