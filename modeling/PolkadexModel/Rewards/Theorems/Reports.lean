import PolkadexModel.Rewards.Theorems.Vesting

-- What the events report about the claims.
namespace Rewards

variable {Acc Sign B : Type} {cfg : Config Acc}

def RewardInfoForAccount.claimable (info : RewardInfoForAccount) : ℕ :=
  Word.saturatingAdd 128 (if info.isInitialRewardsClaimed then 0 else info.initialRewardsClaimable)
    (info.totalRewardAmount - info.claimAmount)

section Events

variable [DecidableEq Acc] [NativeCurrency Acc B] [Verify Acc Sign]

-- The events of a call.
inductive Announces (s : State Acc B cfg) (m : Move Acc Sign B) : List (Event Acc) → Prop
  | create {startBlock endBlock rewardId : ℕ} (hc : claimed s m = none) (hi : initialised s m = none) :
      Announces s m [.rewardCycleCreated startBlock endBlock rewardId]
  | init {user : Acc} {rewardId : ℕ} (hc : claimed s m = none)
      (hi : initialised s m = some (user, rewardId)) : Announces s m [.userUnlockedReward user rewardId]
  | claim {user : Acc} {rewardId : ℕ} {info : RewardInfoForAccount} (hc : claimed s m = some (user, rewardId))
      (hi : initialised s m = none) (hinfo : s.distributor rewardId user = some info) :
      Announces s m [.userClaimedReward user rewardId info.claimable]
  | quiet (hc : claimed s m = none) (hi : initialised s m = none) : Announces s m []

variable {s s' : State Acc B cfg} {m : Move Acc Sign B} {user : Acc} {rewardId : ℕ}

theorem events_doInitializeClaimRewards (h : s.doInitializeClaimRewards user rewardId = .ok s') :
    s'.events = s.events ++ [.userUnlockedReward user rewardId] := by
  simp only [State.doInitializeClaimRewards, bind_eq_ok, pure_eq_ok] at h
  obtain ⟨_, _, _, _, _, _, ⟨total, _, _⟩, _, _, _, t, ht, rfl⟩ := h
  simp only [State.transferPdexRewards] at ht
  cases htransfer : NativeCurrency.transfer s.currency cfg.palletAccount user total with
  | none => simp [htransfer] at ht
  | some currency =>
    rw [htransfer, Option.elim_some, Except.ok.injEq] at ht
    subst ht
    rfl

theorem events_doClaim (h : s.doClaim user rewardId = .ok s') : ∃ info, s.distributor rewardId user = some info ∧
    s'.events = s.events ++ [.userClaimedReward user rewardId info.claimable] := by
  simp only [State.doClaim, bind_eq_ok, pure_eq_ok, orElse_eq_ok] at h
  obtain ⟨_, _, info, hinfo, _, _, rfl⟩ := h
  exact ⟨info, hinfo, rfl⟩

theorem announces_init (hs : step s m = some s') (hm : m.inits = some (user, rewardId)) (hc : m.claims = none)
    (h : s.doInitializeClaimRewards user rewardId = .ok s') :
    ∃ es, s'.events = s.events ++ es ∧ Announces s m es :=
  ⟨_, events_doInitializeClaimRewards h, .init ((claimed_of_step hs).trans hc) ((initialised_of_step hs).trans hm)⟩

theorem announces_claim (hs : step s m = some s') (hm : m.claims = some (user, rewardId)) (hi : m.inits = none)
    (h : s.doClaim user rewardId = .ok s') : ∃ es, s'.events = s.events ++ es ∧ Announces s m es := by
  obtain ⟨info, hinfo, hevents⟩ := events_doClaim h
  exact ⟨_, hevents, .claim ((claimed_of_step hs).trans hm) ((initialised_of_step hs).trans hi) hinfo⟩

theorem announces (s : State Acc B cfg) (m : Move Acc Sign B) :
    ∃ es, (Run.exec step s m).events = s.events ++ es ∧ Announces s m es := by
  rcases Run.exec_cases step s m with hs | ⟨hs, he⟩
  case inr =>
    refine ⟨[], ?_, .quiet (by rw [claimed, hs, if_neg (by simp)]) (by rw [initialised, hs, if_neg (by simp)])⟩
    rw [he, List.append_nil]
  case inl =>
    have hq (hc : m.claims = none) (hi : m.inits = none) : Announces s m [] :=
      .quiet ((claimed_of_step hs).trans hc) ((initialised_of_step hs).trans hi)
    cases m with
    | others currency =>
      rw [← Option.some.inj hs]
      exact ⟨[], (List.append_nil _).symm, hq rfl rfl⟩
    | call c =>
      have h := hs
      simp only [step, toOption_eq_some] at h
      cases c with
      | createRewardCycle startBlock endBlock initialPercentage rewardId =>
        simp only [dispatch, State.createRewardCycle, bind_eq_ok, pure_eq_ok] at h
        obtain ⟨_, _, _, _, _, _, h⟩ := h
        rw [← h]
        exact ⟨_, rfl, .create (claimed_of_step hs) (initialised_of_step hs)⟩
      | initializeClaimRewards user rewardId => exact announces_init hs rfl rfl h
      | claim user rewardId => exact announces_claim hs rfl rfl h
      | unsignedInitializeClaimRewards payload signature =>
        obtain ⟨_, _, h⟩ := bind_eq_ok.mp h
        exact announces_init hs rfl rfl h
      | unsignedClaim payload signature =>
        obtain ⟨_, _, h⟩ := bind_eq_ok.mp h
        exact announces_claim hs rfl rfl h
      | nextBlock =>
        rw [← Except.ok.inj h]
        exact ⟨[], (List.append_nil _).symm, hq rfl rfl⟩

end Events

section Sums

variable [DecidableEq Acc]

-- The amount which the event reports as claimed by the account in the cycle.
def Event.claimed (user : Acc) (rewardId : ℕ) : Event Acc → ℕ
  | .userClaimedReward user' rewardId' amount => if (user', rewardId') = (user, rewardId) then amount else 0
  | _                                         => 0

def reported (s : State Acc B cfg) (user : Acc) (rewardId : ℕ) : ℕ :=
  (s.events.map (Event.claimed user rewardId)).sum

-- The reports are within the reward of the account, and they make it up when everything is claimed.
structure AddsUp (s : State Acc B cfg) (user : Acc) (rewardId : ℕ) : Prop where
  within : reported s user rewardId ≤
    (s.distributor rewardId user).elim 0 RewardInfoForAccount.totalRewardAmount
  whole  : ∀ info, s.distributor rewardId user = some info → info.claimAmount = info.totalRewardAmount →
    reported s user rewardId = info.totalRewardAmount

-- The table has no part of the reward that can be claimed initially, or the whole reward is the largest number.
def NoInitialPart (cfg : Config Acc) (user : Acc) : Prop :=
  ∀ total initial factor, cfg.rewards user = some (total, initial, factor) → initial = 0 ∨ total = Word.max 128

-- The record of an account, and what has been reported about it. The last part says whether there was a claim.
inductive Booked (cfg : Config Acc) (user : Acc) : Option RewardInfoForAccount → ℕ → Prop → Prop
  | none {p : Prop} : Booked cfg user none 0 p
  | before {info : RewardInfoForAccount} {factor : ℕ} {p : Prop}
      (hrewards : cfg.rewards user = some (info.totalRewardAmount, info.initialRewardsClaimable, factor))
      (hfirst : info.isInitialRewardsClaimed = false) (hnone : info.claimAmount = 0) : Booked cfg user (some info) 0 p
  | after {info : RewardInfoForAccount} {factor : ℕ} {p : Prop}
      (hrewards : cfg.rewards user = some (info.totalRewardAmount, info.initialRewardsClaimable, factor))
      (hlater : info.isInitialRewardsClaimed = true) (hall : info.claimAmount = info.totalRewardAmount) (hp : p) :
      Booked cfg user (some info)
        (Word.saturatingAdd 128 info.initialRewardsClaimable info.totalRewardAmount) p

variable [NativeCurrency Acc B] [Verify Acc Sign] {s : State Acc B cfg}
  {m : Move Acc Sign B} {user : Acc} {rewardId : ℕ}

theorem reported_exec_of_claimed (hc : claimed s m = some (user, rewardId))
    (hinfo : s.distributor rewardId user = some info) :
    reported (Run.exec step s m) user rewardId = reported s user rewardId + info.claimable := by
  obtain ⟨es, hes, ha⟩ := announces s m
  rw [reported, hes, List.map_append, List.sum_append, ← reported]
  cases ha with
  | create hc' | init hc' | quiet hc' => simp [hc] at hc'
  | claim hc' _ hinfo' =>
    obtain ⟨rfl, rfl⟩ := Prod.mk.inj (Option.some.inj (hc.symm.trans hc'))
    cases hinfo.symm.trans hinfo'
    simp [Event.claimed]

theorem reported_exec_of_ne (hc : claimed s m ≠ some (user, rewardId)) :
    reported (Run.exec step s m) user rewardId = reported s user rewardId := by
  obtain ⟨es, hes, ha⟩ := announces s m
  rw [reported, hes, List.map_append, List.sum_append, ← reported]
  cases ha with
  | create | init | quiet => simp [Event.claimed]
  | @claim user' rewardId' info hc' =>
    have hne : (user', rewardId') ≠ (user, rewardId) := fun heq => hc (hc'.trans (congrArg some heq))
    simp [Event.claimed, hne]

theorem distributor_exec_of_ne (hc : claimed s m ≠ some (user, rewardId)) :
    (Run.exec step s m).distributor rewardId user = s.distributor rewardId user ∨
    s.distributor rewardId user = none ∧ ∃ cycle total initial factor, cfg.rewards user = some (total, initial, factor) ∧
      (Run.exec step s m).distributor rewardId user = some (.fresh cycle total initial factor) := by
  have he := effect s m
  have hd : (Run.exec step s m).distributor = (Run.exec step s m).records.distributor := rfl
  rw [hd]
  generalize (Run.exec step s m).records = r at he
  cases he with
  | create | tick | others | keep => exact .inl rfl
  | @init user' rewardId' total initial factor cycle _ _ _ _ _ hnew hrewards =>
    by_cases hk : (rewardId, user) = (rewardId', user')
    case pos =>
      obtain ⟨rfl, rfl⟩ := Prod.mk.inj hk
      exact .inr ⟨hnew, cycle, total, initial, factor, hrewards, Records.distributor_setReward_self⟩
    case neg => exact .inl (Records.distributor_setReward_of_ne hk)
  | @claim user' rewardId' cycle info hc' =>
    refine .inl (Records.distributor_setReward_of_ne fun hk => hc ?_)
    obtain ⟨rfl, rfl⟩ := Prod.mk.inj hk
    exact hc'

-- The first claim reports the initial part besides the whole reward, and every later one nothing.
theorem Booked.step {p : Prop} (h : Booked cfg user (s.distributor rewardId user) (reported s user rewardId) p) :
    Booked cfg user ((Run.exec step s m).distributor rewardId user) (reported (Run.exec step s m) user rewardId)
      (p ∨ claimed s m = some (user, rewardId)) := by
  by_cases hc : claimed s m = some (user, rewardId)
  case pos =>
    obtain ⟨_, info, _, hinfo, hafter⟩ := of_claimed hc
    rw [hafter, reported_exec_of_claimed hc hinfo]
    rw [hinfo] at h
    generalize reported s user rewardId = n at h
    cases h with
    | before hrewards hfirst hnone =>
      rw [RewardInfoForAccount.claimable, hfirst, hnone, Nat.zero_add]
      exact .after hrewards rfl rfl (.inr hc)
    | after hrewards hlater hall hp =>
      have hzero : info.claimable = 0 := by
        rw [RewardInfoForAccount.claimable, hlater, hall, Nat.sub_self]
        rfl
      rw [hzero, Nat.add_zero]
      exact .after hrewards rfl rfl (.inl hp)
  case neg =>
    rw [reported_exec_of_ne hc]
    rcases distributor_exec_of_ne hc with heq | ⟨hnone, cycle, total, initial, factor, hrewards, hafter⟩
    case inl =>
      rw [heq]
      generalize s.distributor rewardId user = record, reported s user rewardId = n at h
      cases h with
      | none => exact .none
      | before hrewards hfirst hnone => exact .before hrewards hfirst hnone
      | after hrewards hlater hall hp => exact .after hrewards hlater hall (.inl hp)
    case inr =>
      rw [hafter]
      rw [hnone] at h
      generalize reported s user rewardId = n at h
      cases h with
      | none => exact .before hrewards rfl rfl

def HasClaimed (s : State Acc B cfg) (ms : List (Move Acc Sign B)) (user : Acc) (rewardId : ℕ) :
    Prop :=
  ∃ e ∈ Run.trace step s ms, claimed e.1 e.2 = some (user, rewardId)

theorem hasClaimed_append_iff : HasClaimed s (ms ++ [m]) user rewardId ↔
      HasClaimed s ms user rewardId ∨ claimed (Run.run step s ms) m = some (user, rewardId) := by
  simp [HasClaimed, or_and_right, exists_or]

variable {currency : B}

theorem booked_run (ms : List (Move Acc Sign B)) (user : Acc) (rewardId : ℕ) :
    Booked cfg user ((Run.run step (.genesis currency : State Acc B cfg) ms).distributor rewardId user)
      (reported (Run.run step (.genesis currency : State Acc B cfg) ms) user rewardId)
      (HasClaimed (.genesis currency : State Acc B cfg) ms user rewardId) := by
  have hrun : Run.Along step (fun _ _ => True) (.genesis currency : State Acc B cfg) ms := fun _ _ => trivial
  refine hrun.induction (motive := fun ms s => Booked cfg user (s.distributor rewardId user) (reported s user rewardId)
    (HasClaimed (.genesis currency : State Acc B cfg) ms user rewardId)) .none fun ms m _ hi => ?_
  rw [hasClaimed_append_iff]
  exact hi.step

theorem saturatingAdd_le_right_iff (h : b ≤ Word.max w) :
    Word.saturatingAdd w a b ≤ b ↔ a = 0 ∨ b = Word.max w := by
  rw [Word.saturatingAdd]
  omega

-- The reports add up if and only if the account has no initial part, or does not claim.
theorem reports_add_up_iff {user : Acc}
    (hbound : ∀ total initial factor, cfg.rewards user = some (total, initial, factor) → total < 2 ^ 128) (rewardId : ℕ)
    (ms : List (Move Acc Sign B)) :
    (∀ before, before <+: ms →
      AddsUp (Run.run step (.genesis currency : State Acc B cfg) before) user rewardId) ↔
    (HasClaimed (.genesis currency : State Acc B cfg) ms user rewardId → NoInitialPart cfg user) := by
  have hiff {info : RewardInfoForAccount} {factor : ℕ}
      (hrewards : cfg.rewards user = some (info.totalRewardAmount, info.initialRewardsClaimable, factor)) :
      Word.saturatingAdd 128 info.initialRewardsClaimable info.totalRewardAmount ≤ info.totalRewardAmount ↔
        info.initialRewardsClaimable = 0 ∨ info.totalRewardAmount = Word.max 128 :=
    saturatingAdd_le_right_iff (Word.lt_two_pow_iff.mp (hbound _ _ _ hrewards))
  constructor
  case mp =>
    rintro h ⟨e, he, hc⟩ total initial factor hrewards
    obtain ⟨before, after, rfl, hbefore⟩ := Run.mem_trace_split he
    have hwithin := (h (before ++ [e.2]) ⟨after, by simp⟩).within
    obtain ⟨_, info, _, _, hafter⟩ := of_claimed hc
    have hbooked : Booked cfg user _ _ (HasClaimed (.genesis currency : State Acc B cfg) _ user rewardId) :=
      booked_run (before ++ [e.2]) user rewardId
    rw [Run.run_append, ← hbefore, Run.run_cons, Run.run_nil, hafter] at hwithin hbooked
    generalize reported (Run.exec step e.1 e.2) user rewardId = n at hwithin hbooked
    cases hbooked with
    | before _ hfirst => cases hfirst
    | after hrewards' =>
      cases hrewards.symm.trans hrewards'
      exact (hiff hrewards').mp hwithin
  case mpr =>
    rintro h before ⟨after, rfl⟩
    have hbooked : Booked cfg user _ _ (HasClaimed (.genesis currency : State Acc B cfg) _ user rewardId) :=
      booked_run before user rewardId
    generalize hs : Run.run step (.genesis currency : State Acc B cfg) before = s at hbooked
    generalize hrecord : s.distributor rewardId user = record, hn : reported s user rewardId = n at hbooked
    cases hbooked with
    | none =>
      refine ⟨by rw [hn]; exact Nat.zero_le _, fun info hinfo => ?_⟩
      cases hrecord.symm.trans hinfo
    | before hrewards hfirst hnone =>
      refine ⟨by rw [hn]; exact Nat.zero_le _, fun info' hinfo hall => ?_⟩
      cases hrecord.symm.trans hinfo
      rw [hn, ← hall, hnone]
    | @after info factor _ hrewards _ _ hp =>
      obtain ⟨e, he, hc⟩ := hp
      have hle := (hiff hrewards).mpr (h ⟨e, by simp [he], hc⟩ _ _ _ hrewards)
      refine ⟨by rwa [hn, hrecord], fun info' hinfo _ => ?_⟩
      cases hrecord.symm.trans hinfo
      have hmax := Word.lt_two_pow_iff.mp (hbound _ _ _ hrewards)
      rw [hn]
      refine hle.antisymm (Nat.le_min.mpr ⟨Nat.le_add_left .., hmax⟩)

end Sums

namespace Mock

open PdexMigration.Mock (Bank bank)

def plainConfig : Config ℕ where
  palletAccount := 0
  rewardees := [(1, 100 * 10 ^ 12, 0, 10 ^ 12)]

def plainStart : State ℕ Bank plainConfig :=
  .genesis (bank (fun who => if who = 0 then 10 ^ 15 else 0) (10 ^ 15))

def twoClaims : List (Move ℕ Bool Bank) :=
  earlyClaim ++ [.call (.claim 1 7)]

theorem rewards_plainConfig : plainConfig.rewards 1 = some (100 * 10 ^ 12, 0, 10 ^ 12) :=
  rfl

theorem two_claims_add_up :
    reported (Run.run step plainStart twoClaims) 1 7 = 100 * 10 ^ 12 ∧
    AddsUp (Run.run step plainStart twoClaims) 1 7 := by
  refine ⟨by decide +kernel, (reports_add_up_iff (fun total initial factor h => ?_) 7 twoClaims).mpr
    (fun _ total initial factor h => ?_) twoClaims List.prefix_rfl⟩
  · cases rewards_plainConfig.symm.trans h
    decide
  · cases rewards_plainConfig.symm.trans h
    exact .inl rfl

-- The initial part is reported besides the whole reward.
theorem claim_reported_in_excess :
    reported (Run.run step start earlyClaim) 1 7 = 125 * 10 ^ 12 ∧
    ((Run.run step start earlyClaim).distributor 7 1).map RewardInfoForAccount.totalRewardAmount =
      some (100 * 10 ^ 12) ∧
    ¬AddsUp (Run.run step start earlyClaim) 1 7 := by
  have hreported : reported (Run.run step start earlyClaim) 1 7 = 125 * 10 ^ 12 := by decide +kernel
  have htotal : ((Run.run step start earlyClaim).distributor 7 1).map RewardInfoForAccount.totalRewardAmount =
      some (100 * 10 ^ 12) := by decide +kernel
  refine ⟨hreported, htotal, fun h => ?_⟩
  obtain ⟨info, hinfo, heq⟩ := Option.map_eq_some_iff.mp htotal
  have hwithin := h.within
  rw [hreported, hinfo, Option.elim_some, heq] at hwithin
  revert hwithin
  decide

end Mock

-- What an event says to have been done, in the words of a payload.
def Event.performed : Event Acc → Option (ExchangePayload Acc)
  | .userUnlockedReward user rewardId  => some ⟨rewardId, .init, user⟩
  | .userClaimedReward user rewardId _ => some ⟨rewardId, .claim, user⟩
  | .rewardCycleCreated _ _ _          => none

-- The calls without an origin, with the payload that is signed for them.
inductive Unsigned (payload : ExchangePayload Acc) (signature : Sign) :
    ExchangePayloadAction → Call Acc Sign → Prop
  | init  : Unsigned payload signature .init (.unsignedInitializeClaimRewards payload signature)
  | claim : Unsigned payload signature .claim (.unsignedClaim payload signature)

-- What an unsigned call does for the user who is named in its payload, and what the user has signed.
section Calls

variable [DecidableEq Acc] [NativeCurrency Acc B] [Verify Acc Sign]

-- Whatever the accounts have signed, if nobody can forge the signature, the call only does what its user has
-- signed.
def AsSigned (payload : ExchangePayload Acc) (signature : Sign) (s s' : State Acc B cfg) : Prop :=
  ∀ signed : Acc → ExchangePayload Acc → Prop,
    (Verify.verify signature payload payload.user = true → signed payload.user payload) →
    ∃ es, s'.events = s.events ++ es ∧ ∀ e ∈ es, ∀ performed ∈ e.performed, signed performed.user performed

variable {s s' : State Acc B cfg} {payload : ExchangePayload Acc} {signature : Sign}
  {action : ExchangePayloadAction} {c : Call Acc Sign}

theorem ensureValid_eq_ok [Decidable p] : ensureValid p code = .ok u ↔ p := by
  simp [ensureValid]

-- An accepted call has a valid signature, and it is executed as the kind of call says.
theorem of_unsigned (hc : Unsigned payload signature action c) (h : dispatch s c = .ok s') :
    Verify.verify signature payload payload.user = true ∧
    ∃ e, s'.events = s.events ++ [e] ∧ e.performed = some ⟨payload.rewardId, action, payload.user⟩ := by
  cases hc with
  | init =>
    simp only [dispatch, State.validateUnsignedInitializeClaimRewards, bind_eq_ok, ensureValid_eq_ok] at h
    obtain ⟨_, ⟨_, hv, _⟩, h⟩ := h
    exact ⟨hv, _, events_doInitializeClaimRewards h, rfl⟩
  | claim =>
    simp only [dispatch, State.validateUnsignedClaim, bind_eq_ok, ensureValid_eq_ok] at h
    obtain ⟨_, ⟨_, _, _, _, hv⟩, h⟩ := h
    obtain ⟨info, _, hevents⟩ := events_doClaim h
    exact ⟨hv, _, hevents, rfl⟩

-- Neither validation reads the action of the payload.
theorem as_signed_iff (hc : Unsigned payload signature action c) (h : dispatch s c = .ok s') :
    AsSigned payload signature s s' ↔ payload.action = action := by
  obtain ⟨hv, e, hevents, hperformed⟩ := of_unsigned hc h
  constructor
  case mp =>
    intro hsigned
    obtain ⟨es, hes, hall⟩ := hsigned (fun _ p => p = payload) fun _ => rfl
    rw [hevents] at hes
    have heq := List.append_cancel_left hes
    have hp := hall e (heq ▸ List.mem_singleton_self e) _ hperformed
    exact (congrArg ExchangePayload.action hp).symm
  case mpr =>
    intro haction signed hforge
    refine ⟨[e], hevents, fun e' he' performed hp => ?_⟩
    rw [List.mem_singleton.mp he', hperformed, Option.mem_some_iff, ← haction] at hp
    rw [← hp]
    exact hforge hv

end Calls

namespace Mock

open PdexMigration.Mock (Bank)

-- A signature shows what it was made on.
instance payloadVerify : Verify ℕ (ExchangePayload ℕ) where
  verify signature payload user :=
    signature.rewardId = payload.rewardId && signature.action = payload.action &&
      signature.user = payload.user && user = payload.user

def initPayload : ExchangePayload ℕ :=
  ⟨7, .init, 1⟩

def initCall : Call ℕ (ExchangePayload ℕ) :=
  .unsignedInitializeClaimRewards initPayload initPayload

def claimCall : Call ℕ (ExchangePayload ℕ) :=
  .unsignedClaim initPayload initPayload

def cycleStarted : State ℕ Bank config :=
  Run.run step start (earlyClaim.take 2)

def cycleInitialised : State ℕ Bank config :=
  Run.exec step cycleStarted (.call initCall)

def cycleClaimed : State ℕ Bank config :=
  Run.exec step cycleInitialised (.call claimCall)

theorem dispatch_eq_exec {s : State ℕ Bank config} {c : Call ℕ (ExchangePayload ℕ)}
    (h : (step s (.call c)).isSome = true) : dispatch s c = .ok (Run.exec step s (.call c)) :=
  toOption_eq_some.mp (Run.eq_exec_of_isSome h)

theorem dispatch_initCall : dispatch cycleStarted initCall = .ok cycleInitialised :=
  dispatch_eq_exec (by decide +kernel)

theorem dispatch_claimCall : dispatch cycleInitialised claimCall = .ok cycleClaimed :=
  dispatch_eq_exec (by decide +kernel)

theorem initialised_as_signed :
    dispatch cycleStarted initCall = .ok cycleInitialised ∧
    AsSigned initPayload initPayload cycleStarted cycleInitialised :=
  ⟨dispatch_initCall, (as_signed_iff .init dispatch_initCall).mpr rfl⟩

-- The signature is used again to claim, which the account has not signed.
theorem claimed_with_signature_for_init :
    dispatch cycleInitialised claimCall = .ok cycleClaimed ∧
    cycleClaimed.events = cycleInitialised.events ++ [.userClaimedReward 1 7 (125 * 10 ^ 12)] ∧
    Verify.verify initPayload initPayload 1 = true ∧
    Verify.verify initPayload (⟨7, .claim, 1⟩ : ExchangePayload ℕ) 1 = false ∧
    ¬AsSigned initPayload initPayload cycleInitialised cycleClaimed := by
  refine ⟨dispatch_claimCall, by decide +kernel, rfl, rfl, fun h => ?_⟩
  obtain ⟨es, hes, hall⟩ := h (fun _ p => p.action = .init) fun _ => rfl
  have hevents : cycleClaimed.events = cycleInitialised.events ++ [.userClaimedReward 1 7 (125 * 10 ^ 12)] := by
    decide +kernel
  have heq := List.append_cancel_left (hes.symm.trans hevents)
  cases hall _ (heq ▸ List.mem_singleton_self _) _ rfl

end Mock

end Rewards
