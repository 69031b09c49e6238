import PolkadexModel.Rewards.Pallet
import PolkadexModel.PdexMigration.Theorems.Locks

open Function

-- What a claim unlocks, and what the query reports.
namespace Rewards

open PdexMigration (LockIdentifier Balances)

variable {Acc Sign B : Type} {cfg : Config Acc}

theorem ensure_eq_ok [Decidable p] : ensure p e = .ok u ↔ p := by
  simp [ensure]

theorem orElse_eq_ok {α : Type} {a : Option α} {b : α} : orElse e a = .ok b ↔ a = some b := by
  cases a <;> simp [orElse]

-- The state without the events.
structure Records (Acc B : Type) where
  initializeRewards : ℕ → Option RewardInfo
  distributor : ℕ → Acc → Option RewardInfoForAccount
  blockNumber : ℕ
  currency : B

namespace State

abbrev records (s : State Acc B cfg) : Records Acc B :=
  ⟨s.initializeRewards, s.distributor, s.blockNumber, s.currency⟩

end State

namespace Records

def setReward [DecidableEq Acc] (r : Records Acc B) (rewardId : ℕ) (user : Acc)
    (info : RewardInfoForAccount) : Records Acc B :=
  { r with
    distributor := update r.distributor rewardId
      (update (r.distributor rewardId) user (some info)) }

variable [DecidableEq Acc] {r : Records Acc B} {rewardId rewardId' : ℕ} {user user' : Acc}
  {info : RewardInfoForAccount}

theorem distributor_setReward_self : (r.setReward rewardId user info).distributor rewardId user = some info := by
  simp [setReward]

theorem distributor_setReward_of_ne (h : (rewardId', user') ≠ (rewardId, user)) :
    (r.setReward rewardId user info).distributor rewardId' user' = r.distributor rewardId' user' := by
  simp only [setReward]
  by_cases hr : rewardId' = rewardId
  case pos =>
    subst hr
    rw [update_self, update_of_ne (by simpa using h)]
  case neg => rw [update_of_ne hr]

end Records

def RewardInfoForAccount.fresh (cycle : RewardInfo) (total initial factor : ℕ) : RewardInfoForAccount where
  totalRewardAmount := total
  claimAmount := 0
  isInitialRewardsClaimed := false
  isInitialized := true
  lockId := rewardsLockId
  lastBlockRewardsClaim := cycle.startBlock
  initialRewardsClaimable := initial
  factor := factor

def RewardInfoForAccount.claimedAt (info : RewardInfoForAccount) (block : ℕ) : RewardInfoForAccount :=
  { info with
    lastBlockRewardsClaim := block
    isInitialRewardsClaimed := true
    claimAmount := info.totalRewardAmount }

namespace Move

def claims : Move Acc Sign B → Option (Acc × ℕ)
  | .call (.claim user rewardId)      => some (user, rewardId)
  | .call (.unsignedClaim payload _)  => some (payload.user, payload.rewardId)
  | _                                 => none

def inits : Move Acc Sign B → Option (Acc × ℕ)
  | .call (.initializeClaimRewards user rewardId)        => some (user, rewardId)
  | .call (.unsignedInitializeClaimRewards payload _)    => some (payload.user, payload.rewardId)
  | _                                                    => none

end Move

section Steps

variable [DecidableEq Acc] [NativeCurrency Acc B] [Verify Acc Sign]

def claimed (s : State Acc B cfg) (m : Move Acc Sign B) : Option (Acc × ℕ) :=
  if (step s m).isSome then m.claims else none

def initialised (s : State Acc B cfg) (m : Move Acc Sign B) : Option (Acc × ℕ) :=
  if (step s m).isSome then m.inits else none

-- What a call does to the records.
inductive Effect (s : State Acc B cfg) (m : Move Acc Sign B) : Records Acc B → Prop
  | create {rewardId : ℕ} {cycle : RewardInfo} (hc : claimed s m = none) (hi : initialised s m = none)
      (hnew : s.initializeRewards rewardId = none) :
      Effect s m { s.records with
        initializeRewards := update s.initializeRewards rewardId (some cycle) }
  | init {user : Acc} {rewardId total initial factor : ℕ} {cycle : RewardInfo} {currency : B}
      (hc : claimed s m = none) (hi : initialised s m = some (user, rewardId))
      (hcycle : s.initializeRewards rewardId = some cycle) (hstart : cycle.startBlock ≤ s.blockNumber)
      (hnew : s.distributor rewardId user = none) (hrewards : cfg.rewards user = some (total, initial, factor))
      (hmin : minRewardsClaimableAmount < total)
      (htransfer : NativeCurrency.transfer s.currency cfg.palletAccount user total = some currency) :
      Effect s m ({ s.records with currency := Balances.setLock currency rewardsLockId user total }.setReward
        rewardId user (.fresh cycle total initial factor))
  | claim {user : Acc} {rewardId : ℕ} {cycle : RewardInfo} {info : RewardInfoForAccount}
      (hc : claimed s m = some (user, rewardId)) (hi : initialised s m = none)
      (hcycle : s.initializeRewards rewardId = some cycle) (hinfo : s.distributor rewardId user = some info) :
      Effect s m ({ s.records with currency := Balances.removeLock s.currency info.lockId user }.setReward
        rewardId user (info.claimedAt s.blockNumber))
  | tick (hc : claimed s m = none) (hi : initialised s m = none) :
      Effect s m { s.records with blockNumber := s.blockNumber + 1 }
  | others {currency : B} (hc : claimed s m = none) (hi : initialised s m = none) (hm : m = .others currency) :
      Effect s m { s.records with currency }
  | keep (hc : claimed s m = none) (hi : initialised s m = none) : Effect s m s.records

variable {s s' : State Acc B cfg} {m : Move Acc Sign B} {user : Acc} {rewardId : ℕ}

theorem claimed_of_step (h : step s m = some s') : claimed s m = m.claims := by
  rw [claimed, h, if_pos Option.isSome_some]

theorem initialised_of_step (h : step s m = some s') : initialised s m = m.inits := by
  rw [initialised, h, if_pos Option.isSome_some]

theorem effect_of_init (hs : step s m = some s') (hm : m.inits = some (user, rewardId)) (hc : m.claims = none)
    (h : s.doInitializeClaimRewards user rewardId = .ok s') : Effect s m s'.records := by
  simp only [State.doInitializeClaimRewards, bind_eq_ok, pure_eq_ok, orElse_eq_ok,
    ensure_eq_ok] at h
  obtain ⟨cycle, hcycle, _, hstart, _, hnew, ⟨total, initial, factor⟩, hrewards, _, hmin, t, ht, rfl⟩ := h
  simp only [State.transferPdexRewards] at ht
  cases htransfer : NativeCurrency.transfer s.currency cfg.palletAccount user total with
  | none => simp [htransfer] at ht
  | some currency =>
    simp only [htransfer, Option.elim_some, Except.ok.injEq] at ht
    subst ht
    exact .init ((claimed_of_step hs).trans hc) ((initialised_of_step hs).trans hm) hcycle hstart hnew hrewards
      hmin htransfer

theorem effect_of_claim (hs : step s m = some s') (hm : m.claims = some (user, rewardId)) (hi : m.inits = none)
    (h : s.doClaim user rewardId = .ok s') : Effect s m s'.records := by
  simp only [State.doClaim, bind_eq_ok, pure_eq_ok, orElse_eq_ok, ensure_eq_ok] at h
  obtain ⟨cycle, hcycle, info, hinfo, _, _, rfl⟩ := h
  exact .claim ((claimed_of_step hs).trans hm) ((initialised_of_step hs).trans hi) hcycle hinfo

theorem effect (s : State Acc B cfg) (m : Move Acc Sign B) :
    Effect s m (Run.exec step s m).records := by
  rcases Run.exec_cases step s m with hs | ⟨hs, he⟩
  case inr =>
    rw [he]
    exact .keep (by rw [claimed, hs, if_neg (by simp)]) (by rw [initialised, hs, if_neg (by simp)])
  case inl =>
    cases m with
    | others currency => exact .others (claimed_of_step hs) (initialised_of_step hs) rfl
    | call c =>
      have h := hs
      simp only [step, toOption_eq_some] at h
      cases c with
      | createRewardCycle startBlock endBlock initialPercentage rewardId =>
        simp only [dispatch, State.createRewardCycle, bind_eq_ok, pure_eq_ok, ensure_eq_ok] at h
        obtain ⟨_, hnew, _, _, _, _, h⟩ := h
        rw [← h]
        exact .create (claimed_of_step hs) (initialised_of_step hs) hnew
      | initializeClaimRewards user rewardId => exact effect_of_init hs rfl rfl h
      | claim user rewardId => exact effect_of_claim hs rfl rfl h
      | unsignedInitializeClaimRewards payload signature =>
        obtain ⟨_, _, h⟩ := bind_eq_ok.mp h
        exact effect_of_init hs rfl rfl h
      | unsignedClaim payload signature =>
        obtain ⟨_, _, h⟩ := bind_eq_ok.mp h
        exact effect_of_claim hs rfl rfl h
      | nextBlock =>
        rw [← Except.ok.inj h]
        exact .tick (claimed_of_step hs) (initialised_of_step hs)

end Steps

-- Every reward belongs to a cycle, and has a property.
def Every (P : RewardInfo → ℕ → RewardInfoForAccount → Prop) (r : Records Acc B) : Prop :=
  ∀ rewardId user info, r.distributor rewardId user = some info →
    ∃ cycle, r.initializeRewards rewardId = some cycle ∧ P cycle r.blockNumber info

-- An account has either claimed nothing, or everything.
def Stage (cycle : RewardInfo) (_ : ℕ) (info : RewardInfoForAccount) : Prop :=
  info.isInitialRewardsClaimed = false ∧ info.claimAmount = 0 ∧
    info.lastBlockRewardsClaim = cycle.startBlock ∨
  info.isInitialRewardsClaimed = true ∧ info.claimAmount = info.totalRewardAmount

-- The claims are covered by the rewards up to the block.
def Covered (cycle : RewardInfo) (block : ℕ) (info : RewardInfoForAccount) : Prop :=
  info.claimAmount ≤
    info.initialRewardsClaimable + info.factor * (min block cycle.endBlock - cycle.startBlock)

section Runs

variable [DecidableEq Acc] [NativeCurrency Acc B] [Verify Acc Sign]
  {s : State Acc B cfg} {m : Move Acc Sign B} {r : Records Acc B}
  {P : RewardInfo → ℕ → RewardInfoForAccount → Prop}

theorem Every.effect (h : Every P s.records) (he : Effect s m r)
    (hfresh : ∀ cycle total initial factor, P cycle s.blockNumber (.fresh cycle total initial factor))
    (hclaim : ∀ user rewardId cycle info, claimed s m = some (user, rewardId) →
      s.initializeRewards rewardId = some cycle → s.distributor rewardId user = some info →
      P cycle s.blockNumber info → P cycle s.blockNumber (info.claimedAt s.blockNumber))
    (htick : ∀ cycle info, P cycle s.blockNumber info → P cycle (s.blockNumber + 1) info) : Every P r := by
  intro id who info hinfo
  cases he with
  | @create rewardId _ _ _ hnew =>
    obtain ⟨cycle', hcycle, hp⟩ := h id who info hinfo
    refine ⟨cycle', ?_, hp⟩
    have hne : id ≠ rewardId := by
      rintro rfl
      simp [hnew] at hcycle
    simpa [hne] using hcycle
  | @init user rewardId total initial factor cycle _ _ _ hcycle =>
    by_cases hk : (id, who) = (rewardId, user)
    case pos =>
      obtain ⟨rfl, rfl⟩ := Prod.mk.inj hk
      rw [Records.distributor_setReward_self] at hinfo
      exact ⟨cycle, hcycle, Option.some.inj hinfo ▸ hfresh cycle total initial factor⟩
    case neg =>
      rw [Records.distributor_setReward_of_ne hk] at hinfo
      exact h id who info hinfo
  | @claim user rewardId cycle info' hc _ hcycle hinfo' =>
    by_cases hk : (id, who) = (rewardId, user)
    case pos =>
      obtain ⟨rfl, rfl⟩ := Prod.mk.inj hk
      rw [Records.distributor_setReward_self] at hinfo
      obtain ⟨cycle', hcycle', hp⟩ := h id who info' hinfo'
      cases hcycle.symm.trans hcycle'
      exact ⟨cycle, hcycle, Option.some.inj hinfo ▸ hclaim who id cycle info' hc hcycle hinfo' hp⟩
    case neg =>
      rw [Records.distributor_setReward_of_ne hk] at hinfo
      exact h id who info hinfo
  | tick =>
    obtain ⟨cycle, hcycle, hp⟩ := h id who info hinfo
    exact ⟨cycle, hcycle, htick cycle info hp⟩
  | others => exact h id who info hinfo
  | keep => exact h id who info hinfo

theorem Every.stage (h : Every Stage s.records) (m : Move Acc Sign B) :
    Every Stage (Run.exec step s m).records :=
  h.effect (Rewards.effect s m) (fun _ _ _ _ => .inl ⟨rfl, rfl, rfl⟩) (fun _ _ _ _ _ _ _ _ => .inr ⟨rfl, rfl⟩)
    fun _ _ hp => hp

def State.unlocked (s : State Acc B cfg) (user : Acc) (rewardId : ℕ) : ℕ :=
  (s.distributor rewardId user).elim 0 RewardInfoForAccount.claimAmount

-- Before the end of the cycle, no more is unlocked than the initial part and the parts for the blocks
-- since its start.
def Vested (s : State Acc B cfg) : Prop :=
  ∀ rewardId user info cycle, s.distributor rewardId user = some info →
    s.initializeRewards rewardId = some cycle → s.blockNumber < cycle.endBlock →
    s.unlocked user rewardId ≤ info.initialRewardsClaimable + info.factor * (s.blockNumber - cycle.startBlock)

-- A claim unlocks what the query reports as claimable.
def Agrees (s : State Acc B cfg) (m : Move Acc Sign B) : Prop :=
  ∀ user rewardId, claimed s m = some (user, rewardId) →
    (s.accountInfo user rewardId).map RewardsInfoByAccount.claimable =
      .ok ((Run.exec step s m).unlocked user rewardId - s.unlocked user rewardId)

-- The first claim is made when exactly the whole reward is vested, and no later one when something
-- more seems to be.
def ClaimsAll (s : State Acc B cfg) (m : Move Acc Sign B) : Prop :=
  ∀ user rewardId info cycle, claimed s m = some (user, rewardId) →
    s.distributor rewardId user = some info → s.initializeRewards rewardId = some cycle →
    if info.isInitialRewardsClaimed then
      info.factor = 0 ∨ min s.blockNumber cycle.endBlock ≤ info.lastBlockRewardsClaim
    else
      Word.saturatingAdd 128 info.initialRewardsClaimable
        (Word.saturatingMul 128 info.factor (min s.blockNumber cycle.endBlock - cycle.startBlock)) =
        info.totalRewardAmount

theorem Every.covered (h : Every Covered s.records) (hst : Every Stage s.records)
    (hall : ClaimsAll s m) : Every Covered (Run.exec step s m).records := by
  refine h.effect (Rewards.effect s m) (fun _ _ _ _ => Nat.zero_le _) ?claim ?tick
  case claim =>
    intro user rewardId cycle info hc hcycle hinfo hp
    obtain ⟨cycle', hcycle', hstage⟩ := hst rewardId user info hinfo
    have hall := hall user rewardId info cycle hc hinfo hcycle
    simp only [Covered, RewardInfoForAccount.claimedAt] at hp ⊢
    rcases hstage with ⟨hfirst, _⟩ | ⟨_, hdone⟩
    case inl =>
      rw [if_neg (by simp [hfirst])] at hall
      rw [← hall]
      exact Word.saturatingAdd_le.trans (Nat.add_le_add_left (Nat.min_le_left ..) _)
    case inr => exact hdone ▸ hp
  case tick =>
    intro cycle info hp
    refine le_trans hp (Nat.add_le_add_left (Nat.mul_le_mul_left _ ?_) _)
    omega

omit [DecidableEq Acc] [NativeCurrency Acc B] in
theorem vested_of_covered (h : Every Covered s.records) : Vested s := by
  intro rewardId user info cycle hinfo hcycle hlt
  obtain ⟨cycle', hcycle', hp⟩ := h rewardId user info hinfo
  cases hcycle.symm.trans hcycle'
  simp only [Covered, min_eq_left hlt.le] at hp
  simpa [State.unlocked, hinfo] using hp

theorem of_claimed (hc : claimed s m = some (user, rewardId)) :
    ∃ cycle info, s.initializeRewards rewardId = some cycle ∧ s.distributor rewardId user = some info ∧
      (Run.exec step s m).distributor rewardId user = some (info.claimedAt s.blockNumber) := by
  have he := Rewards.effect s m
  generalize hr : (Run.exec step s m).records = r at he
  cases he with
  | claim hc' _ hcycle hinfo =>
    obtain ⟨rfl, rfl⟩ := Prod.mk.inj (Option.some.inj (hc.symm.trans hc'))
    have hd := congrArg (fun r => r.distributor rewardId user) hr
    exact ⟨_, _, hcycle, hinfo, hd.trans Records.distributor_setReward_self⟩
  | create hc' | init hc' | tick hc' | others hc' | keep hc' => simp [hc'] at hc

omit [DecidableEq Acc] [NativeCurrency Acc B] in
theorem claimable_accountInfo
    (hinfo : s.distributor rewardId user = some info) (hcycle : s.initializeRewards rewardId = some cycle) :
    (s.accountInfo user rewardId).map RewardsInfoByAccount.claimable = .ok (Word.saturatingAdd 128
      (if info.isInitialRewardsClaimed then 0 else info.initialRewardsClaimable)
      (Word.saturatingMul 128 info.factor
        (min s.blockNumber cycle.endBlock - info.lastBlockRewardsClaim))) := by
  rw [State.accountInfo, hinfo, hcycle]
  rfl

-- What a claim unlocks, from the two stages of a reward.
theorem claim_agrees_iff (hst : Every Stage s.records) (hc : claimed s m = some (user, rewardId))
    (hinfo : s.distributor rewardId user = some info) (hcycle : s.initializeRewards rewardId = some cycle) :
    (s.accountInfo user rewardId).map RewardsInfoByAccount.claimable =
      .ok ((Run.exec step s m).unlocked user rewardId - s.unlocked user rewardId) ↔
    if info.isInitialRewardsClaimed then
      info.factor = 0 ∨ min s.blockNumber cycle.endBlock ≤ info.lastBlockRewardsClaim else
      Word.saturatingAdd 128 info.initialRewardsClaimable
        (Word.saturatingMul 128 info.factor (min s.blockNumber cycle.endBlock - cycle.startBlock)) =
        info.totalRewardAmount := by
  obtain ⟨cycle', hcycle', hstage⟩ := hst rewardId user info hinfo
  cases hcycle.symm.trans hcycle'
  obtain ⟨_, _, _, hinfo', hafter⟩ := of_claimed hc
  cases hinfo.symm.trans hinfo'
  rw [claimable_accountInfo hinfo hcycle, Except.ok.injEq]
  simp only [State.unlocked, hinfo, hafter, Option.elim_some, RewardInfoForAccount.claimedAt]
  rcases hstage with ⟨hfirst, hnone, hlast⟩ | ⟨hlater, hdone⟩
  case inl => simp [hfirst, hnone, hlast]
  case inr =>
    have hadd : Word.saturatingAdd 128 0 (Word.saturatingMul 128 info.factor
        (min s.blockNumber cycle.endBlock - info.lastBlockRewardsClaim)) =
        Word.saturatingMul 128 info.factor
          (min s.blockNumber cycle.endBlock - info.lastBlockRewardsClaim) := by
      rw [Word.saturatingAdd, Nat.zero_add]
      exact Nat.min_eq_left (Nat.min_le_right ..)
    rw [if_pos hlater, if_pos hlater, hadd, hdone, Nat.sub_self,
      Word.saturatingMul_eq_zero_iff (by decide), Nat.sub_eq_zero_iff_le]

theorem agrees_iff (hst : Every Stage s.records) : Agrees s m ↔ ClaimsAll s m := by
  constructor
  case mp =>
    intro h user rewardId info cycle hc hinfo hcycle
    exact (claim_agrees_iff hst hc hinfo hcycle).mp (h user rewardId hc)
  case mpr =>
    intro h user rewardId hc
    obtain ⟨cycle, info, hcycle, hinfo, _⟩ := of_claimed hc
    exact (claim_agrees_iff hst hc hinfo hcycle).mpr (h user rewardId info cycle hc hinfo hcycle)

end Runs

namespace Mock

open PdexMigration.Mock (Bank bank existentialDeposit)

def transfer (b : Bank) (payer payee amount : ℕ) : Option Bank :=
  if amount + existentialDeposit ≤ b.free payer then
    let free := update b.free payer (b.free payer - amount)
    some { b with free := update free payee (free payee + amount) }
  else none

instance : NativeCurrency ℕ Bank where
  transfer := transfer

instance : Verify ℕ Bool where
  verify signature _ _ := signature

def config : Config ℕ where
  palletAccount := 0
  rewardees := [(1, 100 * 10 ^ 12, 25 * 10 ^ 12, 75 * 10 ^ 10)]

def start : State ℕ Bank config :=
  .genesis (bank (fun who => if who = 0 then 10 ^ 15 else 0) (10 ^ 15))

-- The account initialises and claims its reward in the first block of a cycle of a hundred blocks.
def earlyClaim : List (Move ℕ Bool Bank) :=
  [.call (.createRewardCycle 1 101 25 7), .call .nextBlock, .call (.initializeClaimRewards 1 7),
    .call (.claim 1 7)]

end Mock

end Rewards
