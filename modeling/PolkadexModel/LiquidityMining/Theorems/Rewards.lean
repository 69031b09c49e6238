import PolkadexModel.Lib.Trees
import PolkadexModel.LiquidityMining.Theorems.Pools
import PolkadexModel.Ocex.Theorems.Amounts
import Mathlib.Data.Nat.Cast.Order.Field

open Function

-- The rewards that a pool pays for an epoch, against those that it received.
namespace LiquidityMining

open Ocex (TradingPair RewardsAccount)
open Decimal (FaithfulArith OnGrid nonneg_iff le_iff)

variable {Acc Auth AuthSign A : Type} [Ord Acc] {cfg : Ocex.Config}

-- The amount that is paid to a provider or, if there is none, to the market maker.
structure Payment (Acc : Type) where
  epoch : ℕ
  pool : Acc
  provider : Option Acc
  amount : ℕ

namespace Payment

variable {Acc : Type}

def key (p : Payment Acc) : ℕ × Acc :=
  (p.epoch, p.pool)

def payee (p : Payment Acc) : ℕ × Acc × Option Acc :=
  (p.epoch, p.pool, p.provider)

end Payment

def paid [DecidableEq Acc] (ps : List (Payment Acc)) (key : ℕ × Acc) : ℕ :=
  ((ps.filter (·.key = key)).map Payment.amount).sum

def paidTo [DecidableEq Acc] (provider : Bool) (ps : List (Payment Acc))
    (key : ℕ × Acc) : ℕ :=
  (ps.map fun p => if p.key = key ∧ p.provider.isSome = provider then p.amount else 0).sum

section Paid

variable [DecidableEq Acc] {ps : List (Payment Acc)} {key : ℕ × Acc}

omit [Ord Acc] in
theorem paid_eq_add (ps : List (Payment Acc)) (key : ℕ × Acc) :
    paid ps key = paidTo true ps key + paidTo false ps key := by
  induction ps with
  | nil => rfl
  | cons p ps hi =>
    simp only [paid, paidTo, List.map_cons, List.sum_cons] at hi ⊢
    by_cases hk : p.key = key
    · cases hp : p.provider.isSome <;> simp [hk, hi] <;> omega
    · simp [hk, hi]

omit [Ord Acc] in
theorem paidTo_append (provider : Bool) (ps : List (Payment Acc)) (p : Payment Acc) :
    paidTo provider (ps ++ [p]) key = paidTo provider ps key +
      if p.key = key ∧ p.provider.isSome = provider then p.amount else 0 := by
  simp [paidTo]

omit [Ord Acc] in
theorem paidTo_eq_zero (provider : Bool) (h : ∀ p ∈ ps, p.key ≠ key) : paidTo provider ps key = 0 := by
  refine List.sum_eq_zero fun n hn => ?_
  obtain ⟨p, hp, hn⟩ := List.mem_map.mp hn
  rw [← hn, if_neg fun hk => h p hp hk.1]

end Paid

-- The scores of all providers of a pool, and of those that have claimed.
def scoreSum (scores : Std.TreeMap Acc (ℕ × Bool)) : ℕ :=
  (scores.toList.map (·.2.1)).sum

theorem scoreSum_empty : scoreSum (∅ : Std.TreeMap Acc (ℕ × Bool)) = 0 :=
  rfl

def claimedScore (scores : Std.TreeMap Acc (ℕ × Bool)) : ℕ :=
  (scores.toList.map fun e => if e.2.2 then e.2.1 else 0).sum

theorem claimedScore_le (scores : Std.TreeMap Acc (ℕ × Bool)) :
    claimedScore scores ≤ scoreSum scores := by
  refine List.sum_le_sum fun e _ => ?_
  split_ifs
  · exact le_rfl
  · exact Nat.zero_le _

-- Somebody has claimed, according to the scores that are stored.
def HasClaimed (info : MMInfo Acc) : Option Acc → Prop
  | some lp => ∃ score, info.1[lp]? = some (score, true)
  | none => info.2.2 = true

-- The providers leave the commission to the market maker.
def Fits (commission : Decimal) (scores : Std.TreeMap Acc (ℕ × Bool)) (totalScore : ℕ) : Prop :=
  (scoreSum scores : ℚ) ≤ (1 - commission.toRat) * totalScore

theorem inPlanck_of_toBalance [Decimal.Arith] {x : Decimal} {n : ℕ} (h : Storage.toBalance x = .ok n) :
    Ocex.State.inPlanck x = .ok n :=
  Ocex.orElse_eq_ok.mpr (orElse_eq_ok.mp h)

theorem rewardsForMm_le [FaithfulArith] {commission : Decimal} {rewards amount : ℕ}
    (hc : 0 ≤ commission.toRat) (hc' : commission.toRat ≤ 1)
    (h : rewardsForMm commission rewards = .ok amount) :
    (amount : ℤ) ≤ ⌈commission.toRat * rewards⌉ := by
  simp only [rewardsForMm, bind_eq_ok] at h
  obtain ⟨units, hu, h⟩ := h
  obtain ⟨hunits, hlt⟩ := Ocex.toRat_of_divUnit hu
  have hle : commission.toRat * rewards ≤ rewards := by
    have hr : (0 : ℚ) ≤ rewards := by positivity
    nlinarith
  have hmax : (rewards : ℚ) + 1 ≤ 2 ^ 96 := by exact_mod_cast hlt
  have hf := Decimal.faithful_saturatingMul commission units
  have hexact : commission.toRat * units.toRat * 10 ^ 12 = commission.toRat * rewards := by
    rw [hunits]
    ring
  have hbracket := Ocex.inPlanck_bracket hf (mul_nonneg hc (hunits ▸ by positivity))
    (by rw [hexact]; linarith) (inPlanck_of_toBalance h)
  rw [hexact] at hbracket
  exact hbracket.2

namespace Records

variable [DecidableEq Acc]

def received (r : Records Acc) (key : ℕ × Acc) : ℕ :=
  (r.rewards key).getD 0

omit [DecidableEq Acc] in
theorem received_le {r : Records Acc} {key : ℕ × Acc} {rewards : ℕ}
    (h : r.rewards key = none ∨ r.rewards key = some rewards) : r.received key ≤ rewards := by
  rcases h with h | h <;> simp [received, h]

-- What a call does to the pools and to the rewards, with the payment that it makes. The scores are
-- among those of `S`.
inductive Step [Decimal.Arith] (S : LMPScoreSheet Acc → Prop) (r : Records Acc) :
    Option (Payment Acc) → Records Acc → Prop
  | keep : Step S r none r
  | requests {key : ℕ × Acc} {requests : List (Acc × ℕ × ℕ)} :
      Step S r none (r.setRequests key requests)
  | register {key : TradingPair × Acc} {config : MarketMakerConfig Acc}
      (hn : r.terms key = none) (hi : r.poolIdIndex config.poolId = none)
      (hc : 0 ≤ config.commission ∧ config.commission ≤ 1) :
      Step S r none { r with
        terms := update r.terms key (some config)
        poolIdIndex := update r.poolIdIndex config.poolId (some key) }
  | provider {key : TradingPair × Acc} {config : MarketMakerConfig Acc} {lp : Acc}
      {epoch rewards totalScore score amount : ℕ} {scores : Std.TreeMap Acc (ℕ × Bool)}
      {mmClaimed : Bool} (hc : r.terms key = some config)
      (hr : r.rewards (epoch, config.poolId) = none ∨ r.rewards (epoch, config.poolId) = some rewards)
      (hp : r.liquidityProviders (epoch, config.poolId) = (scores, totalScore, mmClaimed))
      (hs : scores[lp]? = some (score, false)) (ha : rewardsForLp score rewards totalScore = .ok amount) :
      Step S r (some ⟨epoch, config.poolId, some lp, amount⟩)
        ((r.setRewards (epoch, config.poolId) rewards).setProviders (epoch, config.poolId)
          (scores.insert lp (score, true), totalScore, mmClaimed))
  | maker {key : TradingPair × Acc} {config : MarketMakerConfig Acc}
      {epoch rewards totalScore amount : ℕ} {scores : Std.TreeMap Acc (ℕ × Bool)}
      (hc : r.terms key = some config)
      (hr : r.rewards (epoch, config.poolId) = none ∨ r.rewards (epoch, config.poolId) = some rewards)
      (hp : r.liquidityProviders (epoch, config.poolId) = (scores, totalScore, false))
      (ha : rewardsForMm config.commission rewards = .ok amount) :
      Step S r (some ⟨epoch, config.poolId, none, amount⟩)
        ((r.setRewards (epoch, config.poolId) rewards).setProviders (epoch, config.poolId)
          (scores, totalScore, true))
  | scores {results : LMPScoreSheet Acc} {r' : Records Acc} (hS : S results)
      (h : results.foldlM storeScores r = some r') : Step S r none r'

-- Everybody is paid once, and by the scores that are stored.
structure Budget (r : Records Acc) (ps : List (Payment Acc)) : Prop where
  once : (ps.map Payment.payee).Nodup
  pools : ∀ p ∈ ps, ∃ key config, r.terms key = some config ∧ config.poolId = p.pool
  claimed : ∀ p ∈ ps, HasClaimed (r.liquidityProviders p.key) p.provider
  fresh : ∀ pool, r.poolIdIndex pool = none → ∀ epoch, r.liquidityProviders (epoch, pool) = (∅, 0, false)
  commission : ∀ key config, r.terms key = some config →
    0 ≤ config.commission.toRat ∧ config.commission.toRat ≤ 1
  fits : ∀ epoch key config, r.terms key = some config →
    Fits config.commission (r.liquidityProviders (epoch, config.poolId)).1
      (r.liquidityProviders (epoch, config.poolId)).2.1
  providers : ∀ key, (paidTo true ps key : ℚ) ≤
    claimedScore (r.liquidityProviders key).1 * r.received key / (r.liquidityProviders key).2.1
  maker : ∀ epoch key config, r.terms key = some config →
    (paidTo false ps (epoch, config.poolId) : ℤ) ≤
      if (r.liquidityProviders (epoch, config.poolId)).2.2
      then ⌈config.commission.toRat * r.received (epoch, config.poolId)⌉ else 0

namespace Budget

variable {r r' : Records Acc} {ps : List (Payment Acc)}

theorem paid_le (h : Budget r ps) (key : ℕ × Acc) : paid ps key ≤ r.received key := by
  by_cases hp : ∃ p ∈ ps, p.key = key
  case neg =>
    have hno : ∀ p ∈ ps, p.key ≠ key := fun p hp' hk => hp ⟨p, hp', hk⟩
    rw [paid_eq_add, paidTo_eq_zero true hno, paidTo_eq_zero false hno]
    exact Nat.zero_le _
  case pos =>
    obtain ⟨p, hp, rfl⟩ := hp
    obtain ⟨k, config, hc, hpool⟩ := h.pools p hp
    obtain ⟨hc₀, hc₁⟩ := h.commission k config hc
    have hfits := h.fits p.epoch k config hc
    have hmaker := h.maker p.epoch k config hc
    have hproviders := h.providers p.key
    rw [hpool] at hfits hmaker
    change Fits _ (r.liquidityProviders p.key).1 _ at hfits
    change (paidTo false ps p.key : ℤ) ≤ if (r.liquidityProviders p.key).2.2 then
      ⌈config.commission.toRat * r.received p.key⌉ else 0 at hmaker
    have hrest : (paidTo true ps p.key : ℚ) ≤ (1 - config.commission.toRat) * r.received p.key := by
      refine hproviders.trans (div_le_of_le_mul₀ (by positivity) (by nlinarith) ?_)
      have hle : (claimedScore (r.liquidityProviders p.key).1 : ℚ) ≤
          (1 - config.commission.toRat) * (r.liquidityProviders p.key).2.1 :=
        le_trans (by exact_mod_cast claimedScore_le _) hfits
      calc _ ≤ (1 - config.commission.toRat) * (r.liquidityProviders p.key).2.1 * r.received p.key := by
            gcongr
        _ = _ := by ring
    -- The amounts are integers, so that the providers leave the commission rounded up.
    have hceil : ⌈config.commission.toRat * r.received p.key⌉ ≤
        (r.received p.key : ℤ) - paidTo true ps p.key := by
      refine Int.ceil_le.mpr ?_
      push_cast
      linarith
    have hnn : 0 ≤ ⌈config.commission.toRat * r.received p.key⌉ := Int.ceil_nonneg (by positivity)
    rw [paid_eq_add]
    split_ifs at hmaker <;> omega

-- The index of the pools tells them apart.
variable (hindex : ∀ key config, r.terms key = some config → r.poolIdIndex config.poolId = some key)

include hindex

omit [DecidableEq Acc] in
theorem config_eq {key key' : TradingPair × Acc} {config config' : MarketMakerConfig Acc}
    (h : r.terms key = some config) (h' : r.terms key' = some config')
    (hp : config'.poolId = config.poolId) : config' = config := by
  have hk : some key' = some key := by
    rw [← hindex key' config' h', hp]
    exact hindex key config h
  rw [Option.some.inj hk, h] at h'
  exact (Option.some.inj h').symm

omit [DecidableEq Acc] in
theorem ne_poolId {key : TradingPair × Acc} {config : MarketMakerConfig Acc}
    {pool : Acc} (h : r.terms key = some config) (hp : r.poolIdIndex pool = none) :
    pool ≠ config.poolId := by
  rintro rfl
  rw [hindex key config h] at hp
  cases hp

theorem register (h : Budget r ps) {key : TradingPair × Acc} {config : MarketMakerConfig Acc}
    (hi : r.poolIdIndex config.poolId = none) (hc : 0 ≤ config.commission ∧ config.commission ≤ 1)
    (hn : r.terms key = none) :
    Budget { r with
      terms := update r.terms key (some config)
      poolIdIndex := update r.poolIdIndex config.poolId (some key) } ps := by
  -- The pool has no scores yet, and has not paid.
  have hno (epoch) : ∀ p ∈ ps, p.key ≠ (epoch, config.poolId) := by
    intro p hp hk
    obtain ⟨k, config', hc', hpool⟩ := h.pools p hp
    exact ne_poolId hindex hc' hi (hpool.trans (congrArg Prod.snd hk)).symm
  have hempty := h.fresh config.poolId hi
  have hterms {k config'} (hk : update r.terms key (some config) k = some config') :
      config = config' ∨ r.terms k = some config' := by
    rcases Updates.update_eq_some.mp hk with ⟨_, he⟩ | ⟨_, hk⟩
    · exact .inl he
    · exact .inr hk
  refine ⟨h.once, fun p hp => ?pools, h.claimed, fun pool hp => ?fresh, fun k config' hk => ?commission,
    fun epoch k config' hk => ?fits, h.providers, fun epoch k config' hk => ?maker⟩
  case pools =>
    obtain ⟨k, config', hc', hpool⟩ := h.pools p hp
    have hne : k ≠ key := fun he => by simp [he, hn] at hc'
    exact ⟨k, config', (update_of_ne hne ..).trans hc', hpool⟩
  case fresh =>
    have hne : pool ≠ config.poolId := fun he => by simp [he] at hp
    exact h.fresh pool ((update_of_ne hne ..).symm.trans hp)
  case commission =>
    rcases hterms hk with rfl | hk
    · exact ⟨nonneg_iff.mp hc.1, by simpa using le_iff.mp hc.2⟩
    · exact h.commission k config' hk
  case fits =>
    rcases hterms hk with rfl | hk
    · rw [hempty, Fits, scoreSum_empty]
      simp
    · exact h.fits epoch k config' hk
  case maker =>
    rcases hterms hk with rfl | hk
    · simp [paidTo_eq_zero false (hno epoch), hempty]
    · exact h.maker epoch k config' hk

theorem storeScores (h : Budget r ps) {key : TradingPair × Acc}
    {config : MarketMakerConfig Acc} {epoch totalScore : ℕ}
    {scores : Std.TreeMap Acc (ℕ × Bool)} (hc : r.terms key = some config)
    (hno : ∀ p ∈ ps, p.key ≠ (epoch, config.poolId)) (hfits : Fits config.commission scores totalScore) :
    Budget (r.setProviders (epoch, config.poolId) (scores, totalScore, false)) ps := by
  have hother {k} (hk : k ≠ (epoch, config.poolId)) : (r.setProviders (epoch, config.poolId)
      (scores, totalScore, false)).liquidityProviders k = r.liquidityProviders k :=
    update_of_ne hk ..
  have hself : (r.setProviders (epoch, config.poolId) (scores, totalScore, false)).liquidityProviders
      (epoch, config.poolId) = (scores, totalScore, false) := update_self ..
  refine ⟨h.once, h.pools, fun p hp => ?claimed, fun pool hp epoch' => ?fresh, h.commission,
    fun epoch' k config' hk => ?fits, fun k => ?providers, fun epoch' k config' hk => ?maker⟩
  case claimed => exact hother (hno p hp) ▸ h.claimed p hp
  case fresh =>
    have hne : (epoch', pool) ≠ (epoch, config.poolId) :=
      fun he => ne_poolId hindex hc hp (congrArg Prod.snd he)
    exact (hother hne).trans (h.fresh pool hp epoch')
  case fits =>
    by_cases he : (epoch', config'.poolId) = (epoch, config.poolId)
    · rw [he, hself, config_eq hindex hc hk (congrArg Prod.snd he)]
      exact hfits
    · rw [hother he]
      exact h.fits epoch' k config' hk
  case providers =>
    by_cases he : k = (epoch, config.poolId)
    · rw [he, paidTo_eq_zero true hno]
      positivity
    · rw [hother he]
      exact h.providers k
  case maker =>
    by_cases he : (epoch', config'.poolId) = (epoch, config.poolId)
    · rw [he, paidTo_eq_zero false hno, hself]
      simp
    · rw [hother he]
      exact h.maker epoch' k config' hk

theorem pay (h : Budget r ps) {key : TradingPair × Acc} {config : MarketMakerConfig Acc}
    {p : Payment Acc} {rewards : ℕ} {info : MMInfo Acc} (hc : r.terms key = some config)
    (hpool : p.pool = config.poolId) (hnew : ¬HasClaimed (r.liquidityProviders p.key) p.provider)
    (hclaimed : ∀ payee, HasClaimed (r.liquidityProviders p.key) payee ∨ payee = p.provider →
      HasClaimed info payee)
    (hfits : Fits config.commission info.1 info.2.1)
    (hproviders : (paidTo true (ps ++ [p]) p.key : ℚ) ≤ claimedScore info.1 * rewards / info.2.1)
    (hmaker : (paidTo false (ps ++ [p]) p.key : ℤ) ≤
      if info.2.2 then ⌈config.commission.toRat * rewards⌉ else 0) :
    Budget ((r.setRewards p.key rewards).setProviders p.key info) (ps ++ [p]) := by
  have hother {k} (hk : k ≠ p.key) : ((r.setRewards p.key rewards).setProviders p.key
      info).liquidityProviders k = r.liquidityProviders k := update_of_ne hk ..
  have hself : ((r.setRewards p.key rewards).setProviders p.key info).liquidityProviders p.key = info :=
    update_self ..
  have hreceived {k} (hk : k ≠ p.key) : ((r.setRewards p.key rewards).setProviders p.key
      info).received k = r.received k := by simp [received, setProviders, setRewards, hk]
  have hreceived' : ((r.setRewards p.key rewards).setProviders p.key info).received p.key = rewards := by
    simp [received, setProviders, setRewards]
  have hpaid (provider) {k} (hk : k ≠ p.key) : paidTo provider (ps ++ [p]) k = paidTo provider ps k := by
    rw [paidTo_append, if_neg fun he => hk he.1.symm, add_zero]
  have hkey {epoch : ℕ} {k config'} (hk : r.terms k = some config') (he : (epoch, config'.poolId) = p.key) :
      config' = config := config_eq hindex hc hk ((congrArg Prod.snd he).trans hpool)
  refine ⟨?once, fun q hq => ?pools, fun q hq => ?claimed, fun pool hp epoch' => ?fresh, h.commission,
    fun epoch' k config' hk => ?fits, fun k => ?providers, fun epoch' k config' hk => ?maker⟩
  case once =>
    rw [List.map_append, List.map_singleton]
    refine List.nodup_append.mpr ⟨h.once, List.nodup_singleton _, fun a ha b hb he => ?_⟩
    obtain ⟨q, hq, hqa⟩ := List.mem_map.mp ha
    have hpq : q.payee = p.payee := hqa.trans (he.trans (List.mem_singleton.mp hb))
    simp only [Payment.payee, Prod.mk.injEq] at hpq
    have hcq := h.claimed q hq
    rw [Payment.key, hpq.1, hpq.2.1, hpq.2.2] at hcq
    exact hnew hcq
  case pools =>
    rcases List.mem_append.mp hq with hq | hq
    · exact h.pools q hq
    · exact ⟨key, config, hc, List.mem_singleton.mp hq ▸ hpool.symm⟩
  case claimed =>
    rcases List.mem_append.mp hq with hq | hq
    · by_cases hk : q.key = p.key
      · rw [hk, hself]
        exact hclaimed _ (.inl (hk ▸ h.claimed q hq))
      · exact hother hk ▸ h.claimed q hq
    · rw [List.mem_singleton.mp hq, hself]
      exact hclaimed _ (.inr rfl)
  case fresh =>
    have hne : (epoch', pool) ≠ p.key :=
      fun he => ne_poolId hindex hc hp ((congrArg Prod.snd he).trans hpool)
    exact (hother hne).trans (h.fresh pool hp epoch')
  case fits =>
    by_cases he : (epoch', config'.poolId) = p.key
    · rw [he, hself, hkey hk he]
      exact hfits
    · rw [hother he]
      exact h.fits epoch' k config' hk
  case providers =>
    by_cases he : k = p.key
    · rw [he, hself, hreceived']
      exact hproviders
    · rw [hother he, hreceived he, hpaid true he]
      exact h.providers k
  case maker =>
    by_cases he : (epoch', config'.poolId) = p.key
    · rw [he, hself, hreceived', hkey hk he]
      exact hmaker
    · rw [hother he, hreceived he, hpaid false he]
      exact h.maker epoch' k config' hk

theorem payProvider [Std.TransOrd Acc] [Std.LawfulEqOrd Acc] (h : Budget r ps) {key : TradingPair × Acc}
    {config : MarketMakerConfig Acc} {lp : Acc}
    {epoch rewards totalScore score amount : ℕ} {scores : Std.TreeMap Acc (ℕ × Bool)}
    {mmClaimed : Bool} (hc : r.terms key = some config)
    (hr : r.rewards (epoch, config.poolId) = none ∨ r.rewards (epoch, config.poolId) = some rewards)
    (hp : r.liquidityProviders (epoch, config.poolId) = (scores, totalScore, mmClaimed))
    (hs : scores[lp]? = some (score, false)) (ha : rewardsForLp score rewards totalScore = .ok amount) :
    Budget ((r.setRewards (epoch, config.poolId) rewards).setProviders (epoch, config.poolId)
      (scores.insert lp (score, true), totalScore, mmClaimed))
      (ps ++ [⟨epoch, config.poolId, some lp, amount⟩]) := by
  obtain ⟨hc₀, _⟩ := h.commission key config hc
  have hfits := h.fits epoch key config hc
  have hproviders := h.providers (epoch, config.poolId)
  have hmaker := h.maker epoch key config hc
  rw [hp] at hfits hproviders hmaker
  have hle := received_le hr
  refine h.pay hindex (p := ⟨epoch, config.poolId, some lp, amount⟩) hc rfl ?new ?claimed ?fits
    ?providers ?maker
  case new => simp [Payment.key, HasClaimed, hp, hs]
  case claimed =>
    rintro (_ | lp') hclaimed
    · simpa [Payment.key, HasClaimed, hp] using hclaimed
    · by_cases hlp : lp = lp'
      · exact ⟨score, by simp [hlp]⟩
      · simpa [Payment.key, HasClaimed, hp, Std.TreeMap.getElem?_insert, hlp, Ne.symm hlp] using hclaimed
  case fits =>
    have hsum : scoreSum (scores.insert lp (score, true)) = scoreSum scores :=
      Nat.add_right_cancel (Trees.sum_insert (·.2.1) (score, true) hs)
    rw [Fits, hsum]
    exact hfits
  case providers =>
    have hsum : claimedScore (scores.insert lp (score, true)) = claimedScore scores + score :=
      Trees.sum_insert (fun e => if e.2.2 then e.2.1 else 0) (score, true) hs
    have hamount : (amount : ℚ) ≤ score * rewards / totalScore := by
      simp only [rewardsForLp] at ha
      split_ifs at ha
      rw [← Except.ok.inj ha]
      refine le_trans Nat.cast_div_le ?_
      gcongr
      exact_mod_cast min_le_left ..
    rw [paidTo_append, if_pos (by simp), hsum]
    push_cast
    rw [add_mul, add_div]
    refine add_le_add (hproviders.trans ?_) hamount
    gcongr
  case maker =>
    rw [paidTo_append, if_neg (by simp), add_zero]
    refine hmaker.trans ?_
    split_ifs
    · exact Int.ceil_le_ceil (by gcongr)
    · exact le_rfl

theorem payMaker [FaithfulArith] (h : Budget r ps) {key : TradingPair × Acc}
    {config : MarketMakerConfig Acc} {epoch rewards totalScore amount : ℕ}
    {scores : Std.TreeMap Acc (ℕ × Bool)} (hc : r.terms key = some config)
    (hr : r.rewards (epoch, config.poolId) = none ∨ r.rewards (epoch, config.poolId) = some rewards)
    (hp : r.liquidityProviders (epoch, config.poolId) = (scores, totalScore, false))
    (ha : rewardsForMm config.commission rewards = .ok amount) :
    Budget ((r.setRewards (epoch, config.poolId) rewards).setProviders (epoch, config.poolId)
      (scores, totalScore, true)) (ps ++ [⟨epoch, config.poolId, none, amount⟩]) := by
  obtain ⟨hc₀, hc₁⟩ := h.commission key config hc
  have hfits := h.fits epoch key config hc
  have hproviders := h.providers (epoch, config.poolId)
  have hmaker := h.maker epoch key config hc
  rw [hp] at hfits hproviders hmaker
  have hle := received_le hr
  refine h.pay hindex (p := ⟨epoch, config.poolId, none, amount⟩) hc rfl ?new ?claimed hfits
    ?providers ?maker
  case new => simp [Payment.key, HasClaimed, hp]
  case claimed =>
    rintro (_ | lp) hclaimed
    · rfl
    · simpa [Payment.key, HasClaimed, hp] using hclaimed
  case providers =>
    rw [paidTo_append, if_neg (by simp), add_zero]
    refine hproviders.trans ?_
    gcongr
  case maker =>
    rw [paidTo_append, if_pos (by simp)]
    have hamount := rewardsForMm_le hc₀ hc₁ ha
    simp only [Bool.false_eq_true, if_false] at hmaker
    simp only [if_true, Payment.key]
    push_cast
    linarith

theorem foldlM_storeScores (h : Budget r ps) {results : LMPScoreSheet Acc}
    (hS : ∀ entry ∈ results, ∀ config, r.terms (entry.1.1, entry.1.2.1) = some config →
      (∀ p ∈ ps, p.key ≠ (entry.1.2.2, config.poolId)) ∧ Fits config.commission entry.2.1 entry.2.2)
    (hs : results.foldlM Records.storeScores r = some r') : Budget r' ps := by
  induction results generalizing r with
  | nil => exact Option.some.inj hs ▸ h
  | cons entry results hi =>
    obtain ⟨t, ht, hs⟩ := Option.bind_eq_some_iff.mp hs
    obtain ⟨config, hc, ht⟩ := Option.map_eq_some_iff.mp ht
    obtain ⟨hno, hfits⟩ := hS entry List.mem_cons_self config hc
    subst ht
    exact hi (r := r.setProviders _ _) hindex (h.storeScores hindex hc hno hfits)
      (fun e he => hS e (List.mem_cons_of_mem _ he)) hs

theorem step [Std.TransOrd Acc] [Std.LawfulEqOrd Acc] [FaithfulArith] {S : LMPScoreSheet Acc → Prop} {p : Option (Payment Acc)}
    (h : Budget r ps)
    (hS : ∀ results, S results → ∀ entry ∈ results, ∀ config,
      r.terms (entry.1.1, entry.1.2.1) = some config →
        (∀ payee, ¬HasClaimed (r.liquidityProviders (entry.1.2.2, config.poolId)) payee) ∧
        Fits config.commission entry.2.1 entry.2.2)
    (hs : Step S r p r') : Budget r' (ps ++ p.toList) := by
  cases hs with
  | keep => simpa using h
  | requests =>
    rw [Option.toList_none, List.append_nil]
    exact ⟨h.once, h.pools, h.claimed, h.fresh, h.commission, h.fits, h.providers, h.maker⟩
  | register hn hi hc => simpa using h.register hindex hi hc hn
  | provider hc hr hp hs ha => exact h.payProvider hindex hc hr hp hs ha
  | maker hc hr hp ha => exact h.payMaker hindex hc hr hp ha
  | scores hresults hs =>
    rw [Option.toList_none, List.append_nil]
    refine h.foldlM_storeScores hindex (fun entry he config hc => ?_) hs
    obtain ⟨hclaimed, hfits⟩ := hS _ hresults entry he config hc
    exact ⟨fun p hp hk => hclaimed p.provider (hk ▸ h.claimed p hp), hfits⟩

end Budget

end Records

section Runs

variable [DecidableEq Acc] [Ocex.PalletAccounts Acc] [Ocex.Assets Acc A]
  [Ocex.CrossChainGadget Acc A] [RewardsAccount Acc A] [Fungibles Acc A]
  [PoolAccounts Acc] [Ocex.Percent] [Ocex.Authority Acc Auth AuthSign]

section Payments

variable [Decimal.Arith]

def claim (s : Chain Acc Auth A cfg) :
    Call Acc Auth AuthSign → Option (Payment Acc)
  | .claimRewardsByLp lp market maker epoch => (lpClaim s lp market maker epoch).toOption.map
      fun claim => ⟨epoch, claim.2.1, some lp, claim.2.2.2⟩
  | .claimRewardsByMm maker market epoch => (mmClaim s maker market epoch).toOption.map
      fun claim => ⟨epoch, claim.2.1, none, claim.2.2⟩
  | _ => none

def payment (s : Chain Acc Auth A cfg) (c : Call Acc Auth AuthSign) :
    Option (Payment Acc) :=
  (step s c).bind fun _ => claim s c

def payments (s : Chain Acc Auth A cfg)
    (calls : List (Call Acc Auth AuthSign)) : List (Payment Acc) :=
  (Run.trace step s calls).filterMap fun e => payment e.1 e.2

-- The scores of a pool are only replaced before anybody has claimed by them, and the providers leave
-- the commission to the market maker.
def ScoresFit (s : Chain Acc Auth A cfg) :
    Call Acc Auth AuthSign → Prop
  | .submitScoresOfLps source results =>
    (step s (.submitScoresOfLps source results :
      Call Acc Auth AuthSign)).isSome →
    ∀ entry ∈ results, ∀ config, s.world.pools (entry.1.1, entry.1.2.1) = some config →
      (∀ payee, ¬HasClaimed (s.world.liquidityProviders (entry.1.2.2, config.poolId)) payee) ∧
      Fits config.commission entry.2.1 entry.2.2
  | _ => True

def Submits (s : Chain Acc Auth A cfg) (c : Call Acc Auth AuthSign)
    (results : LMPScoreSheet Acc) : Prop :=
  (step s c).isSome ∧ ∃ source, c = .submitScoresOfLps source results

end Payments

variable [CreatedAssets Acc A] [LawfulPoolAccounts Acc]
  {s s' : Chain Acc Auth A cfg} {c : Call Acc Auth AuthSign}

theorem recordsStep_of_dispatch [Decimal.Arith] (hr : s.world.Registered) (h : dispatch s c = .ok s') :
    Records.Step (Submits s c) s.world.records (payment s c) s'.world.records := by
  have hstep : step s c = some s' := toOption_eq_some.mpr h
  have hkeep (hk : s.world.Kept (fun _ => True) s'.world) :
      Records.Step (Submits s c) s.world.records none s'.world.records := hk.records ▸ .keep
  simp only [payment, hstep, Option.bind_some]
  cases c with
  | ocex call =>
    simp only [dispatch] at h
    split_ifs at h
    exact hkeep (kept_ocex (fun _ _ _ _ => trivial) h)
  | registerPool =>
    obtain ⟨config, a, hn, hp, hc, ha, _, hrec⟩ := registerPool_spec (M := fun _ => True) h
    rw [hrec]
    exact .register hn (hr.index_eq_none hp ha) hc
  | addLiquidity => exact hkeep (kept_addLiquidity h)
  | removeLiquidity =>
    obtain ⟨_, _, _, _, hrec⟩ := removeLiquidity_spec h
    exact hrec ▸ .requests
  | forceClosePool => exact hkeep (kept_forceClosePool h)
  | initiateWithdrawal =>
    obtain ⟨_, _, _, hrec⟩ := initiateWithdrawal_spec h
    exact hrec ▸ .requests
  | claimForceClosedPoolFunds => exact hkeep (kept_claimForceClosedPoolFunds h)
  | claimRewardsByLp =>
    obtain ⟨u, pool, score, amount, scores, totalScore, mmClaimed, hu, hp, hrec, _⟩ :=
      claimRewardsByLp_spec (M := fun _ => True) h
    obtain ⟨config, rewards, _, _, _, hc, rfl, hrew, hp', hs, ha, hu', _⟩ :=
      lpClaim_spec (M := fun _ => True) hu
    obtain ⟨rfl, rfl, rfl⟩ : scores = _ ∧ totalScore = _ ∧ mmClaimed = _ := by
      simpa using hp.symm.trans hp'
    rw [hrec, hu', claim, hu]
    exact .provider hc hrew hp hs ha
  | claimRewardsByMm =>
    obtain ⟨u, pool, amount, scores, totalScore, mmClaimed, hu, hp, hrec, _⟩ :=
      claimRewardsByMm_spec (M := fun _ => True) h
    obtain ⟨config, rewards, _, _, hc, rfl, hrew, hp', ha, hu', _⟩ := mmClaim_spec (M := fun _ => True) hu
    obtain ⟨rfl, rfl, rfl⟩ : scores = _ ∧ totalScore = _ ∧ mmClaimed = _ := by
      simpa using hp.symm.trans hp'
    rw [hrec, hu', claim, hu]
    exact .maker hc hrew hp ha
  | submitScoresOfLps source results =>
    simp only [dispatch, bind_eq_ok] at h
    obtain ⟨_, _, h⟩ := h
    exact .scores ⟨hstep ▸ rfl, source, rfl⟩ (submitScoresOfLps_spec h).1

theorem recordsStep_exec [Decimal.Arith] (hr : s.world.Registered) :
    Records.Step (Submits s c) s.world.records (payment s c) (Run.exec step s c).world.records := by
  cases Run.exec_cases step s c with
  | inl he => exact recordsStep_of_dispatch hr (toOption_eq_some.mp he)
  | inr he =>
    rw [he.2, payment, he.1]
    exact .keep

variable [Std.TransOrd Acc] [Std.LawfulEqOrd Acc] [FaithfulArith]

-- No pool pays more for an epoch than it received, and nobody is paid twice.
theorem pool_rewards_within_budget (authorities : List Auth) (assets : A)
    (calls : List (Call Acc Auth AuthSign))
    (h : Run.Along step ScoresFit (genesis authorities assets : Chain Acc Auth A cfg) calls) :
    (∀ epoch pool,
      paid (payments (genesis authorities assets : Chain Acc Auth A cfg) calls)
        (epoch, pool) ≤
      ((Run.run step (genesis authorities assets : Chain Acc Auth A cfg)
        calls).world.rewards (epoch, pool)).getD 0) ∧
    ((payments (genesis authorities assets : Chain Acc Auth A cfg) calls).map
      Payment.payee).Nodup := by
  have hbudget := h.induction (motive := fun calls s => s.world.Registered ∧ Records.Budget s.world.records
    (payments (genesis authorities assets : Chain Acc Auth A cfg) calls)) ?nil ?snoc
  case nil =>
    refine ⟨Storage.registered_genesis assets, ?_⟩
    constructor <;> simp [payments, genesis, Ocex.State.genesis, Storage.records, Storage.genesis, paidTo]
  case snoc =>
    rintro calls c hall ⟨hr, hb⟩
    refine ⟨hr.step (poolStep_exec _ c), ?_⟩
    rw [payments, Run.filterMap_trace_append]
    refine hb.step hr.index ?_ (recordsStep_exec hr)
    rintro results ⟨hsome, source, rfl⟩ entry he config hc
    obtain ⟨config', hc', ht⟩ := Storage.pools_of_terms hc
    subst ht
    exact hall.last hsome entry he config' hc'
  exact ⟨fun epoch pool => hbudget.2.paid_le (epoch, pool), hbudget.2.once⟩

end Runs

namespace Mock

open Ocex (unitBalance)
open Ocex.Mock (Account AuthSig config)

attribute [local instance] Decimal.HalfEven.faithfulArith Ocex.Mock.percent

def rewardsGenesis : Chain Account ℕ Bank config :=
  genesis [7] (bank [2, 3, 6, 7])

def poolSummary : Ocex.SnapshotSummary Account where
  validatorSetId := 0
  snapshotId := 1
  stateHash := 0
  stateChangeId := 0
  lastProcessedBlk := 0
  withdrawals := []
  egressMessages := []
  traderMetrics := some ((∅ : Ocex.TradingPairMetricsMap Account).insert market
    ((∅ : Std.TreeMap Account (Decimal × Decimal)).insert 6 (1, 1), (1, 1)))

def rewardCalls : List (Call Account ℕ AuthSig) :=
  poolCalls (unitBalance / 10) ++
    [.ocex (.call (.setLmpEpochConfig (some (2 * unitBalance)) (some (2 * unitBalance))
      [⟨market, unitBalance, 0, 0, 0, 0⟩] none (some 0))),
    .ocex (.call .startNewEpochLmp), .ocex (.call .startNewEpochLmp),
    .ocex (.call (.submitSnapshot poolSummary [(0, 7, 1, 0)]))]

def submitScores (score totalScore : ℕ) : Call Account ℕ AuthSig :=
  .submitScoresOfLps .local
    [((market, 2, 0), ((∅ : Std.TreeMap Account (ℕ × Bool)).insert 3 (score, false), totalScore))]

def claims : List (Call Account ℕ AuthSig) :=
  [.claimRewardsByLp 3 market 2 0, .claimRewardsByMm 2 market 0]

def fitting : List (Call Account ℕ AuthSig) :=
  rewardCalls ++ submitScores 9 10 :: claims

theorem scores_fit : Run.Along step ScoresFit rewardsGenesis fitting := by
  have hpool : ((Run.run step rewardsGenesis rewardCalls).world.pools (market, 2)).map
      (fun c => (c.poolId, c.commission.toRat)) = some (6, 1 / 10) := by
    decide +kernel
  have hempty : (((Run.run step rewardsGenesis rewardCalls).world.liquidityProviders (0, 6)).1.isEmpty,
      ((Run.run step rewardsGenesis rewardCalls).world.liquidityProviders (0, 6)).2) =
        (true, 0, false) := by
    decide +kernel
  simp only [Run.Along, fitting, Run.trace_append, List.forall_mem_append, Run.trace_cons,
    List.forall_mem_cons]
  refine ⟨by simp [rewardCalls, poolCalls, ScoresFit], ?_, by simp [claims, ScoresFit]⟩
  intro _ entry he config hc
  rw [List.mem_singleton.mp he] at hc ⊢
  simp only [hc, Option.map_some, Option.some.injEq, Prod.mk.injEq] at hpool hempty
  rw [hpool.1]
  refine ⟨?_, ?_⟩
  · rintro (_ | lp) h
    · simp [HasClaimed, hempty.2] at h
    · obtain ⟨score, h⟩ := h
      rw [Std.TreeMap.getElem?_of_isEmpty hempty.1] at h
      cases h
  · have hsum : scoreSum ((∅ : Std.TreeMap Account (ℕ × Bool)).insert 3 (9, false)) = 9 := by
      decide +kernel
    rw [Fits, hsum, hpool.2]
    norm_num

theorem fitting_within_budget :
    paid (payments rewardsGenesis fitting) (0, 6) = 4 * unitBalance ∧
    paid (payments rewardsGenesis fitting) (0, 6) ≤
      ((Run.run step rewardsGenesis fitting).world.rewards (0, 6)).getD 0 :=
  ⟨by decide +kernel, (pool_rewards_within_budget [7] (bank [2, 3, 6, 7]) fitting scores_fit).1 0 6⟩

-- The provider has the whole score, so that the commission is not covered. If the scores are submitted
-- again, the provider claims again.
theorem rewards_over_budget :
    (((Run.run step rewardsGenesis (rewardCalls ++ submitScores 1 1 :: claims)).world.rewards
      (0, 6)).getD 0 <
      paid (payments rewardsGenesis (rewardCalls ++ submitScores 1 1 :: claims)) (0, 6)) ∧
    (payments rewardsGenesis (rewardCalls ++ submitScores 1 1 :: claims ++
      [.ocex (.call .startNewEpochLmp), submitScores 1 1, .claimRewardsByLp 3 market 2 0])).map
        Payment.payee = [(0, 6, some 3), (0, 6, none), (0, 6, some 3)] := by
  decide +kernel

end Mock

end LiquidityMining
