import PolkadexModel.Rewards.Theorems.Vesting
import Mathlib.Algebra.BigOperators.Finprod

-- What is paid out and locked for an account, over all cycles.
namespace Rewards

open PdexMigration (LockIdentifier Balances LawfulLocks lockUnder)

variable {Acc Sign B : Type} {cfg : Config Acc}

class LawfulCurrency (Acc : outParam Type) (B : Type) [NativeCurrency Acc B] : Prop
    extends LawfulLocks Acc B where
  transfer {b b' : B} {payer payee : Acc} {amount : ℕ} (id : LockIdentifier) (who : Acc) :
    NativeCurrency.transfer b payer payee amount = some b' → lockUnder b' id who = lockUnder b id who

section Accounts

variable [DecidableEq Acc] [NativeCurrency Acc B] [Verify Acc Sign]

def entitlement (cfg : Config Acc) (who : Acc) : ℕ :=
  (cfg.rewards who).elim 0 Prod.fst

def paid (who : Acc) (s : State Acc B cfg) (m : Move Acc Sign B) : ℕ :=
  (initialised s m).elim 0 fun (user, rewardId) =>
    if user = who then
      ((Run.exec step s m).distributor rewardId user).elim 0 RewardInfoForAccount.totalRewardAmount
    else 0

def locked (s : State Acc B cfg) (who : Acc) : ℕ :=
  (lockUnder s.currency rewardsLockId who).getD 0

def unclaimed (info : RewardInfoForAccount) : ℕ :=
  info.totalRewardAmount - info.claimAmount

-- The payments are within the entitlement, and the lock is on what is not claimed in all cycles.
structure Accounted (s : State Acc B cfg) (ms : List (Move Acc Sign B)) (who : Acc) :
    Prop where
  paid : Run.total step (paid who) s ms ≤ entitlement cfg who
  lock : locked (Run.run step s ms) who =
    ∑ᶠ rewardId, ((Run.run step s ms).distributor rewardId who).elim 0 unclaimed

-- Nobody else uses the identifier of the lock.
def Move.KeepsLocks (s : State Acc B cfg) : Move Acc Sign B → Prop
  | .call _          => True
  | .others currency => ∀ who, lockUnder currency rewardsLockId who = lockUnder s.currency rewardsLockId who

-- An account that initialises a cycle has not initialised any before.
def Once (s : State Acc B cfg) (m : Move Acc Sign B) : Prop :=
  ∀ user rewardId, initialised s m = some (user, rewardId) → ∀ rewardId', s.distributor rewardId' user = none

variable {s : State Acc B cfg} {m : Move Acc Sign B} {who : Acc}

theorem paid_of_none (h : initialised s m = none) : paid who s m = 0 := by
  rw [paid, h, Option.elim_none]

theorem of_initialised (h : initialised s m = some (user, rewardId)) :
    paid user s m = entitlement cfg user ∧ (∀ who ≠ user, paid who s m = 0) ∧ 0 < entitlement cfg user := by
  have he := effect s m
  generalize hr : (Run.exec step s m).records = r at he
  cases he with
  | init _ hi _ _ _ hrewards hmin =>
    obtain ⟨rfl, rfl⟩ := Prod.mk.inj (Option.some.inj (h.symm.trans hi))
    have hd := congrArg (fun r => r.distributor rewardId user) hr
    rw [Records.distributor_setReward_self] at hd
    have hent : entitlement cfg user = _ := congrArg (fun r => r.elim 0 Prod.fst) hrewards
    refine ⟨?_, fun who hw => ?_, ?_⟩
    · simp only [paid, h, Option.elim_some, if_true, hent]
      exact congrArg (fun r => r.elim 0 RewardInfoForAccount.totalRewardAmount) hd
    · simp only [paid, h, Option.elim_some, if_neg hw.symm]
    · rw [hent]
      exact Nat.zero_lt_of_lt hmin
  | create _ hi | claim _ hi | tick _ hi | others _ hi | keep _ hi => simp [hi] at h

theorem entitlement_le_paid {s₀ : State Acc B cfg} (h₀ : ∀ rewardId, s₀.distributor rewardId who = none)
    (ms : List (Move Acc Sign B)) (h : (Run.run step s₀ ms).distributor rewardId who ≠ none) :
    entitlement cfg who ≤ Run.total step (paid who) s₀ ms := by
  have hinv : ∀ rewardId, (Run.run step s₀ ms).distributor rewardId who ≠ none →
      entitlement cfg who ≤ 0 + Run.total step (paid who) s₀ ms := by
    refine Run.total_induction step (paid who)
      (motive := fun s p => ∀ rewardId, s.distributor rewardId who ≠ none → entitlement cfg who ≤ p)
      (fun rewardId hne => absurd (h₀ rewardId) hne) fun s m p hi rewardId hne => ?_
    have he := effect s m
    have hd : (Run.exec step s m).distributor = (Run.exec step s m).records.distributor := rfl
    rw [hd] at hne
    generalize (Run.exec step s m).records = r at he hne
    cases he with
    | @init user id _ _ _ _ _ _ hin =>
      by_cases hw : who = user
      case pos =>
        rw [hw, (of_initialised hin).1]
        exact Nat.le_add_left ..
      case neg =>
        rw [Records.distributor_setReward_of_ne (by simp [hw])] at hne
        exact (hi rewardId hne).trans (Nat.le_add_right ..)
    | @claim user id _ info _ _ _ hinfo =>
      refine (hi rewardId fun hnone => hne ?_).trans (Nat.le_add_right ..)
      refine (Records.distributor_setReward_of_ne ?_).trans hnone
      rintro ⟨⟩
      cases hinfo.symm.trans hnone
    | create | tick | others | keep => exact (hi rewardId hne).trans (Nat.le_add_right ..)
  simpa using hinv rewardId h

-- An account which has initialised at most one cycle, and what it has been paid.
inductive Standing (cfg : Config Acc) (r : Records Acc B) (who : Acc) : ℕ → Prop
  | none (hd : ∀ rewardId, r.distributor rewardId who = none)
      (hl : lockUnder r.currency rewardsLockId who = none) : Standing cfg r who 0
  | one {rewardId : ℕ} {info : RewardInfoForAccount} (hd : r.distributor rewardId who = some info)
      (ho : ∀ rewardId' ≠ rewardId, r.distributor rewardId' who = none) (hid : info.lockId = rewardsLockId)
      (hl : (lockUnder r.currency rewardsLockId who).getD 0 = unclaimed info) :
      Standing cfg r who (entitlement cfg who)

namespace Standing

variable {r r' : Records Acc B} {p : ℕ}

omit [Verify Acc Sign] in
theorem congr (h : Standing cfg r who p) (hd : ∀ rewardId, r'.distributor rewardId who = r.distributor rewardId who)
    (hl : lockUnder r'.currency rewardsLockId who = lockUnder r.currency rewardsLockId who) :
    Standing cfg r' who p := by
  cases h with
  | none hd' hl' => exact .none (fun id => (hd id).trans (hd' id)) (hl.trans hl')
  | one hd' ho hid hl' =>
    exact .one ((hd _).trans hd') (fun id hne => (hd id).trans (ho id hne)) hid (hl ▸ hl')

variable [LawfulCurrency Acc B]

theorem step (h : Standing cfg s.records who p) (honce : Once s m) (hk : m.KeepsLocks s) :
    Standing cfg (Run.exec Rewards.step s m).records who (p + paid who s m) := by
  have he := effect s m
  generalize (Run.exec Rewards.step s m).records = r at he
  cases he with
  | @init user rewardId total initial factor cycle currency _ hin _ _ _ hrewards hmin htransfer =>
    have hkeep (who : Acc) := LawfulCurrency.transfer rewardsLockId who htransfer
    by_cases hw : who = user
    case pos =>
      subst hw
      have hnone := honce who rewardId hin
      cases h with
      | one hd => simp [hnone] at hd
      | none =>
        rw [Nat.zero_add, (of_initialised hin).1]
        refine .one Records.distributor_setReward_self (fun id hne => ?_) rfl ?_
        · rw [Records.distributor_setReward_of_ne (by simp [hne])]
          exact hnone id
        · simp only [Records.setReward]
          rw [LawfulLocks.setLock_self _ _ _ (Nat.ne_zero_of_lt hmin)]
          rfl
    case neg =>
      rw [(of_initialised hin).2.1 who hw]
      refine h.congr (fun id => Records.distributor_setReward_of_ne (by simp [hw])) ?_
      exact (LawfulLocks.setLock_of_ne _ _ (by simp [hw])).trans (hkeep who)
  | @claim user rewardId cycle info _ hin _ hinfo =>
    rw [paid_of_none hin]
    by_cases hw : who = user
    case pos =>
      subst hw
      cases h with
      | none hd => cases hinfo.symm.trans (hd rewardId)
      | @one id info' hd ho hid =>
        have hrid : rewardId = id := by
          by_contra hne
          cases hinfo.symm.trans (ho rewardId hne)
        subst hrid
        cases hinfo.symm.trans hd
        refine .one Records.distributor_setReward_self (fun id hne => ?_) hid ?_
        · rw [Records.distributor_setReward_of_ne (by simp [hne])]
          exact ho id hne
        · simp only [Records.setReward, hid]
          rw [LawfulLocks.removeLock_self]
          exact (Nat.sub_self _).symm
    case neg =>
      refine h.congr (fun id => Records.distributor_setReward_of_ne (by simp [hw])) ?_
      exact LawfulLocks.removeLock_of_ne _ (by simp [hw])
  | create _ hin | tick _ hin | keep _ hin =>
    rw [paid_of_none hin]
    exact h.congr (fun _ => rfl) rfl
  | others _ hin hm =>
    subst hm
    rw [paid_of_none hin]
    exact h.congr (fun _ => rfl) (hk who)

end Standing

theorem accounted_of_standing {ms : List (Move Acc Sign B)}
    (h : Standing cfg (Run.run step s ms).records who (Run.total step (paid who) s ms)) :
    Accounted s ms who := by
  generalize hp : Run.total step (paid who) s ms = p at h
  cases h with
  | none hd hl =>
    refine ⟨hp ▸ Nat.zero_le _, ?_⟩
    rw [locked, hl, finsum_congr fun rewardId => congrArg (Option.elim · 0 unclaimed) (hd rewardId)]
    exact finsum_zero.symm
  | @one rewardId info hd ho _ hl =>
    refine ⟨hp.le, hl.trans ?_⟩
    rw [finsum_eq_single _ rewardId fun rewardId' hne => congrArg (Option.elim · 0 unclaimed) (ho rewardId' hne)]
    exact congrArg (Option.elim · 0 unclaimed) hd.symm

variable [LawfulCurrency Acc B] {currency : B}

theorem standing_run (hlocks : ∀ who, lockUnder currency rewardsLockId who = none)
    {ms : List (Move Acc Sign B)}
    (h : Run.Along step (fun s m => Once s m ∧ m.KeepsLocks s) (.genesis currency : State Acc B cfg) ms)
    (who : Acc) :
    Standing cfg (Run.run step (.genesis currency : State Acc B cfg) ms).records who
      (Run.total step (paid who) (.genesis currency : State Acc B cfg) ms) := by
  refine h.induction (motive := fun ms s => Standing cfg s.records who (Run.total step (paid who) _ ms))
    (.none (fun _ => rfl) (hlocks who)) fun ms m hm hi => ?_
  have hstep := hi.step hm.last.1 hm.last.2
  simpa [Run.total] using hstep

-- The cycles share the entitlement and the lock, so that the accounts are right only if nobody
-- initialises a second cycle.
theorem payout_accounted_iff (hlocks : ∀ who, lockUnder currency rewardsLockId who = none)
    (ms : List (Move Acc Sign B))
    (hk : Run.Along step (fun s m => m.KeepsLocks s) (.genesis currency : State Acc B cfg) ms) :
    (∀ before, before <+: ms → ∀ who, Accounted (.genesis currency : State Acc B cfg) before who) ↔
    Run.Along step Once (.genesis currency : State Acc B cfg) ms := by
  constructor
  case mp =>
    intro h e he user rewardId hin rewardId'
    by_contra hne
    obtain ⟨before, after, rfl, hbefore⟩ := Run.mem_trace_split he
    have hle := entitlement_le_paid (fun _ => rfl) before (hbefore ▸ hne)
    obtain ⟨hpaid, _, hpos⟩ := of_initialised hin
    -- The second payment exceeds the entitlement.
    have hacc := (h (before ++ [e.2]) ⟨after, by simp⟩ user).paid
    simp only [Run.total, Run.trace_append, Run.trace_cons, Run.trace_nil, List.map_append, List.map_cons,
      List.map_nil, List.sum_append, List.sum_cons, List.sum_nil, ← hbefore, hpaid] at hacc hle
    omega
  case mpr =>
    rintro h before ⟨after, rfl⟩ who
    refine accounted_of_standing (standing_run hlocks (fun e he => ?_) who)
    exact ⟨h.of_append e he, hk.of_append e he⟩

end Accounts

namespace Mock

open PdexMigration.Mock (Bank bank)

theorem lockUnder_transfer (id : LockIdentifier) (who : ℕ)
    (h : transfer b payer payee amount = some b') : lockUnder b' id who = lockUnder b id who := by
  simp only [transfer, Option.ite_none_right_eq_some, Option.some.injEq] at h
  rw [← h.2]
  rfl

instance : LawfulCurrency ℕ Bank where
  transfer := lockUnder_transfer

theorem keepsLocks_calls {ms : List (Move ℕ Bool Bank)} (h : ∀ m ∈ ms, ∃ c, m = .call c) :
    Run.Along step (fun s m => m.KeepsLocks s) start ms := by
  intro e he
  obtain ⟨before, after, hsplit, _⟩ := Run.mem_trace_split he
  obtain ⟨c, hc⟩ := h e.2 (by simp [hsplit])
  rw [hc]
  trivial

theorem once_earlyClaim : Run.Along step Once start earlyClaim := by
  intro e he user rewardId hin rewardId'
  simp only [earlyClaim, Run.trace_cons, Run.trace_nil, List.mem_cons, List.not_mem_nil, or_false] at he
  rcases he with rfl | rfl | rfl | rfl
  case inr.inr.inl => rfl
  all_goals simp [initialised, Move.inits] at hin

-- One cycle is initialised and claimed.
theorem early_claim_accounted :
    Run.total step (paid 1) start earlyClaim = 100 * 10 ^ 12 ∧ Accounted start earlyClaim 1 :=
  ⟨by decide +kernel, (payout_accounted_iff (fun _ => rfl) earlyClaim
    (keepsLocks_calls (by simp [earlyClaim]))).mpr once_earlyClaim earlyClaim List.prefix_rfl 1⟩

def secondCycle : List (Move ℕ Bool Bank) :=
  [.call (.createRewardCycle 1 101 25 7), .call (.createRewardCycle 1 101 25 8), .call .nextBlock,
    .call (.initializeClaimRewards 1 7), .call (.initializeClaimRewards 1 8)]

-- The reward is paid twice, but locked once only. The claim of one of them releases the lock.
theorem second_cycle_pays_again :
    Run.total step (paid 1) start secondCycle = 2 * entitlement config 1 ∧
    locked (Run.run step start secondCycle) 1 = entitlement config 1 ∧
    ((Run.run step start secondCycle).distributor 7 1).map unclaimed = some (entitlement config 1) ∧
    ((Run.run step start secondCycle).distributor 8 1).map unclaimed = some (entitlement config 1) ∧
    locked (Run.run step start (secondCycle ++ [.call (.claim 1 7)])) 1 = 0 ∧
    ((Run.run step start (secondCycle ++ [.call (.claim 1 7)])).distributor 8 1).map unclaimed =
      some (entitlement config 1) := by
  decide +kernel

end Mock

end Rewards
