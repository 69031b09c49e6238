import PolkadexModel.Lib.DecimalArith
import PolkadexModel.Lib.Updates
import PolkadexModel.LiquidityMining.Theorems.Queue

open Function

-- The registered pools, and how the messages for the engine name them.
namespace LiquidityMining

open Ocex (AssetId TradingPair DispatchError IngressMessages EgressMessages RewardsAccount)

-- Both are determined by the hash of the market maker and the market.
class LawfulPoolAccounts (Acc : Type) [PoolAccounts Acc] : Prop where
  shareId_eq : ∀ {maker maker' : Acc} {market market' : TradingPair},
    (PoolAccounts.createPoolAccount maker market).1 = (PoolAccounts.createPoolAccount maker' market').1 →
    (PoolAccounts.createPoolAccount maker market).2 = (PoolAccounts.createPoolAccount maker' market').2

-- The assets that were created, which are not created again and are not destroyed.
class CreatedAssets (Acc A : Type) [Ocex.Assets Acc A] [Ocex.CrossChainGadget Acc A]
    [RewardsAccount Acc A] [Fungibles Acc A] where
  created : A → ℕ → Prop
  create : ∀ {a a' : A} {id minimum : ℕ} {admin : Acc},
    Fungibles.create a id admin minimum = .ok a' → ¬created a id ∧ created a' id
  keep : ∀ {a a' : A} {id : ℕ}, @AssetMove Acc A _ _ _ _ (fun _ => True) a a' →
    created a id → created a' id

variable {Acc Auth AuthSign A : Type} [Ord Acc] {cfg : Ocex.Config}

def Call.Carries : Call Acc Auth AuthSign → EgressMessages Acc → Prop
  | .ocex call, message => call.Carries message
  | _, _ => False

namespace Storage

variable {w w' : Storage Acc A} {market : TradingPair} {pool maker : Acc}

-- The account is that of a pool for the market, and the handlers of the replies find it.
def Resolves (w : Storage Acc A) (market : TradingPair) (pool : Acc) : Prop :=
  ∃ maker config, w.poolIdIndex pool = some (market, maker) ∧ w.pools (market, maker) = some config ∧
    config.poolId = pool

theorem Resolves.resolvePool (h : w.Resolves market pool) :
    w.isValidPoolId pool ∧ ∃ maker config, w.resolvePool market pool = .ok (maker, config) ∧
      config.poolId = pool := by
  obtain ⟨maker, config, hi, hp, hc⟩ := h
  exact ⟨by simp [isValidPoolId, hi], maker, config, resolvePool_eq_ok.mpr ⟨⟨market, hi⟩, hp⟩, hc⟩

theorem terms_of_pools (h : w.pools key = some config) : w.records.terms key = some config.terms := by
  simp [records, h]

theorem pools_of_terms (h : w.records.terms key = some config) : ∃ config', w.pools key = some config' ∧
      config'.terms = config :=
  Option.map_eq_some_iff.mp h

section Steps

variable [DecidableEq Acc] [Ocex.Assets Acc A] [Ocex.CrossChainGadget Acc A]
  [RewardsAccount Acc A] [Fungibles Acc A] [PoolAccounts Acc]

-- The requests were there before, or they are for shares that were issued.
def Requests (w w' : Storage Acc A) : Prop :=
  ∀ key, ∀ request ∈ w'.withdrawalRequests key, request ∈ w.withdrawalRequests key ∨
    ∃ pool config, w.records.terms pool = some config ∧
      Fungibles.totalIssuance Acc w.assets config.shareId ≠ 0

-- A call registers a pool, or it keeps those that there are.
inductive PoolStep (M : ℕ → Prop) (w w' : Storage Acc A) : Prop
  | keep (ht : w'.records.terms = w.records.terms) (hi : w'.poolIdIndex = w.poolIdIndex)
      (ha : AssetMoves Acc M w.assets w'.assets) (hq : Requests w w')
  | register {market : TradingPair} {maker : Acc} {config : MarketMakerConfig Acc} {a : A}
      (hn : w.records.terms (market, maker) = none)
      (hp : PoolAccounts.createPoolAccount maker market = (config.poolId, config.shareId))
      (hc : Fungibles.create w.assets config.shareId config.poolId 1 = .ok a)
      (ha : AssetMoves Acc M a w'.assets)
      (ht : w'.records.terms = update w.records.terms (market, maker) (some config))
      (hi : w'.poolIdIndex = update w.poolIdIndex config.poolId (some (market, maker)))
      (hq : Requests w w')

omit [DecidableEq Acc] [Ocex.Assets Acc A] [Ocex.CrossChainGadget Acc A]
  [RewardsAccount Acc A] [PoolAccounts Acc] in
theorem Requests.of_eq (h : w'.withdrawalRequests = w.withdrawalRequests) : Requests w w' :=
  fun _ _ hm => .inl (h ▸ hm)

theorem PoolStep.of_kept (h : Kept M w w') : PoolStep M w w' :=
  .keep (congrArg Records.terms h.records) (congrArg Records.poolIdIndex h.records) h.assets
    (.of_eq (congrArg Records.withdrawalRequests h.records))

theorem PoolStep.requests (h : PoolStep M w w') : Requests w w' := by
  cases h with
  | keep _ _ _ hq => exact hq
  | register _ _ _ _ _ _ hq => exact hq

theorem PoolStep.terms (h : PoolStep M w w') (hc : w.records.terms key = some config) :
    w'.records.terms key = some config := by
  cases h with
  | keep ht _ _ _ => exact ht ▸ hc
  | register hn _ _ _ ht _ _ =>
    exact ht ▸ Updates.update_eq_some.mpr (.inr ⟨fun he => by simp [← he, hc] at hn, hc⟩)

variable [CreatedAssets Acc A]

-- The index and the pools agree, and the shares of the pools exist.
structure Registered (w : Storage Acc A) : Prop where
  index : ∀ key config, w.records.terms key = some config → w.poolIdIndex config.poolId = some key
  pools : ∀ pool key, w.poolIdIndex pool = some key →
    ∃ config, w.records.terms key = some config ∧ config.poolId = pool
  derived : ∀ key config, w.records.terms key = some config →
    PoolAccounts.createPoolAccount key.2 key.1 = (config.poolId, config.shareId)
  created : ∀ key config, w.records.terms key = some config →
    CreatedAssets.created Acc w.assets config.shareId

omit [DecidableEq Acc] in
theorem registered_genesis (assets : A) : (genesis assets : Storage Acc A).Registered := by
  constructor <;> simp [genesis, records]

omit [Ord Acc] [DecidableEq Acc] [PoolAccounts Acc] in
theorem created_of_moves {a a' : A} {id : ℕ} (h : AssetMoves Acc M a a')
    (hc : CreatedAssets.created Acc a id) : CreatedAssets.created Acc a' id := by
  induction h with
  | refl => exact hc
  | tail _ h hi => exact CreatedAssets.keep (h.mono fun _ _ => trivial) hi

omit [DecidableEq Acc] in
theorem Registered.resolves_iff (h : w.Registered) :
    w.Resolves market pool ↔ ∃ maker, w.poolIdIndex pool = some (market, maker) := by
  constructor
  · rintro ⟨maker, _, hi, _⟩
    exact ⟨maker, hi⟩
  · rintro ⟨maker, hi⟩
    obtain ⟨config, hc, hp⟩ := h.pools pool (market, maker) hi
    obtain ⟨config', hc', ht⟩ := pools_of_terms hc
    exact ⟨maker, config', hi, hc', hp ▸ ht ▸ rfl⟩

omit [DecidableEq Acc] in
theorem Registered.resolves (h : w.Registered)
    (hc : w.pools (market, maker) = some config) : w.Resolves market config.poolId := by
  have hi := h.index _ _ (terms_of_pools hc)
  exact ⟨maker, config, hi, hc, rfl⟩

omit [DecidableEq Acc] in
theorem Registered.resolve (h : w.Registered) {config : MarketMakerConfig Acc}
    (hc : w.records.terms (market, maker) = some config.terms) : ∃ config',
      w.pools (market, maker) = some config' ∧
      w.resolvePool market config.poolId = .ok (maker, config') ∧
      config'.poolId = config.poolId ∧ config'.shareId = config.shareId := by
  obtain ⟨config', hc', ht⟩ := pools_of_terms hc
  have hi : w.poolIdIndex config.poolId = some (market, maker) := h.index _ config.terms hc
  have hp : config'.terms.poolId = config.terms.poolId := congrArg MarketMakerConfig.poolId ht
  have hs : config'.terms.shareId = config.terms.shareId := congrArg MarketMakerConfig.shareId ht
  exact ⟨config', hc', resolvePool_eq_ok.mpr ⟨⟨market, hi⟩, hc'⟩, hp, hs⟩

omit [DecidableEq Acc] in
-- The account of a new pool is not in the index: otherwise the shares of both pools were the same.
theorem Registered.index_eq_none [LawfulPoolAccounts Acc] (h : w.Registered) {config : MarketMakerConfig Acc}
    (hp : PoolAccounts.createPoolAccount maker market = (config.poolId, config.shareId))
    (hc : Fungibles.create w.assets config.shareId config.poolId 1 = .ok a) :
    w.poolIdIndex config.poolId = none := by
  by_contra hne
  obtain ⟨key, hi⟩ := Option.ne_none_iff_exists'.mp hne
  obtain ⟨config', hc', hp'⟩ := h.pools _ key hi
  have hd := h.derived key config' hc'
  have heq : (PoolAccounts.createPoolAccount key.2 key.1).1 =
      (PoolAccounts.createPoolAccount maker market).1 := by
    rw [hd, hp]
    exact hp'
  have hs : config'.shareId = config.shareId := by
    have hs := LawfulPoolAccounts.shareId_eq heq
    rwa [hd, hp] at hs
  exact (CreatedAssets.create hc).1 (hs ▸ h.created key config' hc')

variable [LawfulPoolAccounts Acc] {M : ℕ → Prop}

theorem Registered.step (h : w.Registered) (hs : PoolStep M w w') : w'.Registered := by
  cases hs with
  | keep ht hi ha _ =>
    refine ⟨?_, ?_, ?_, fun key config hc => created_of_moves ha (h.created key config (ht ▸ hc))⟩
    · exact ht ▸ hi ▸ h.index
    · exact ht ▸ hi ▸ h.pools
    · exact ht ▸ h.derived
  | @register market maker config a hn hp hc ha ht hi _ =>
    have hfree := h.index_eq_none hp hc
    have hterms {key config'} : w'.records.terms key = some config' ↔ key = (market, maker) ∧
        config = config' ∨ key ≠ (market, maker) ∧ w.records.terms key = some config' :=
      ht ▸ Updates.update_eq_some
    have hindex {pool key} : w'.poolIdIndex pool = some key ↔ pool = config.poolId ∧
        (market, maker) = key ∨ pool ≠ config.poolId ∧ w.poolIdIndex pool = some key :=
      hi ▸ Updates.update_eq_some
    refine ⟨fun key config' hk => ?index, fun pool key hk => ?pools, fun key config' hk => ?derived,
      fun key config' hk => ?created⟩
    case index =>
      rcases hterms.mp hk with ⟨hkey, hc'⟩ | ⟨_, hk⟩
      · exact hindex.mpr (.inl ⟨hc' ▸ rfl, hkey.symm⟩)
      · refine hindex.mpr (.inr ⟨fun he => ?_, h.index key config' hk⟩)
        simpa [he, hfree] using h.index key config' hk
    case pools =>
      rcases hindex.mp hk with ⟨hpool, hkey⟩ | ⟨_, hk⟩
      · exact ⟨config, hterms.mpr (.inl ⟨hkey.symm, rfl⟩), hpool.symm⟩
      · obtain ⟨config', hc', hp'⟩ := h.pools pool key hk
        exact ⟨config', hterms.mpr (.inr ⟨fun he => by simp [he, hn] at hc', hc'⟩), hp'⟩
    case derived =>
      rcases hterms.mp hk with ⟨hkey, hc'⟩ | ⟨_, hk⟩
      · exact hkey ▸ hc' ▸ hp
      · exact h.derived key config' hk
    case created =>
      rcases hterms.mp hk with ⟨_, hc'⟩ | ⟨_, hk⟩
      · exact hc' ▸ created_of_moves ha (CreatedAssets.create hc).2
      · exact created_of_moves ha (CreatedAssets.keep (.create hc) (h.created key config' hk))

theorem Resolves.step (hr : w.Resolves market pool) (h : w.Registered) (hs : PoolStep M w w') :
    w'.Resolves market pool := by
  obtain ⟨maker, hi⟩ := h.resolves_iff.mp hr
  refine (h.step hs).resolves_iff.mpr ⟨maker, ?_⟩
  cases hs with
  | keep _ hi' _ _ => exact hi' ▸ hi
  | register _ hp hc _ _ hi' _ =>
    refine hi' ▸ Updates.update_eq_some.mpr (.inr ⟨fun he => ?_, hi⟩)
    rw [he, h.index_eq_none hp hc] at hi
    cases hi

end Steps

end Storage

-- The market and the account of the pool that a message names.
def poolOf : IngressMessages Acc → Option (TradingPair × Acc)
  | .addLiquidity market pool _ _ _ _ | .removeLiquidity market pool _ _ _
  | .forceClosePool market pool => some (market.pair, pool)
  | _ => none

def Names (w : Storage Acc A) (m : IngressMessages Acc) : Prop :=
  ∀ key, poolOf m = some key → w.Resolves key.1 key.2

-- Every message in the queues names a pool of its market, if it names one.
def Addressed (s : Chain Acc Auth A cfg) : Prop :=
  ∀ n, ∀ m ∈ (s.ingressMessages n).toList, Names s.world m

-- A pool is only closed under an account which happens to be that of a pool for the same market, or the
-- message about it is dropped.
def NamesPool (s : Chain Acc Auth A cfg) :
    Call Acc Auth AuthSign → Prop
  | .forceClosePool market maker => (s.world.pools (market, maker)).isSome →
    (s.ingressMessages s.currentBlockNumber).toList.length < cfg.obIngressLimit →
    s.world.Resolves market maker
  | _ => True

theorem names_of_isSetting {w : Storage Acc A} (h : m.isSetting) : Names w m := by
  intro key hk
  cases m <;> simp [poolOf, IngressMessages.isSetting] at h hk

theorem Names.step [DecidableEq Acc] [Ocex.Assets Acc A] [Ocex.CrossChainGadget Acc A]
    [RewardsAccount Acc A] [Fungibles Acc A] [PoolAccounts Acc] [LawfulPoolAccounts Acc] [CreatedAssets Acc A]
    {w w' : Storage Acc A} (hn : Names w m) (hr : w.Registered) (hs : w.PoolStep M w') : Names w' m :=
  fun key hk => (hn key hk).step hr hs

section Dispatch

variable [DecidableEq Acc] [Ocex.PalletAccounts Acc] [Ocex.Assets Acc A]
  [Ocex.CrossChainGadget Acc A] [RewardsAccount Acc A] [Fungibles Acc A]
  [PoolAccounts Acc] [Ocex.Percent] [Ocex.Authority Acc Auth AuthSign]
  [Decimal.Arith] {s s' : Chain Acc Auth A cfg}
  {c : Call Acc Auth AuthSign} {M : ℕ → Prop}

theorem poolStep_of_dispatch
    (hM : ∀ message, c.Carries message → ∀ amount, Mints message amount → M amount)
    (h : dispatch s c = .ok s') : s.world.PoolStep M s'.world := by
  cases c with
  | ocex call =>
    simp only [dispatch] at h
    split_ifs at h
    exact .of_kept (kept_ocex hM h)
  | registerPool =>
    obtain ⟨config, a, hn, hp, _, hc, ha, hr⟩ := registerPool_spec h
    exact .register hn hp hc ha (congrArg Records.terms hr) (congrArg Records.poolIdIndex hr)
      (.of_eq (congrArg Records.withdrawalRequests hr))
  | addLiquidity => exact .of_kept (kept_addLiquidity h)
  | removeLiquidity =>
    obtain ⟨config, hc, hne, ha, hr⟩ := removeLiquidity_spec h
    refine .keep ((congrArg Records.terms hr).trans rfl) ((congrArg Records.poolIdIndex hr).trans rfl)
      (.single (.burnFrom ha)) fun _ _ _ => ?_
    exact .inr ⟨_, config.terms, Storage.terms_of_pools hc, hne⟩
  | forceClosePool => exact .of_kept (kept_forceClosePool h)
  | initiateWithdrawal maker market epoch numRequests =>
    obtain ⟨config, hc, ha, hr⟩ := initiateWithdrawal_spec h
    refine .keep ((congrArg Records.terms hr).trans rfl) ((congrArg Records.poolIdIndex hr).trans rfl)
      (ha ▸ .refl) fun key request hm => .inl ?_
    have hq : s'.world.withdrawalRequests = update s.world.withdrawalRequests
        (epoch, config.poolId) _ := congrArg Records.withdrawalRequests hr
    rw [hq, update_apply] at hm
    split_ifs at hm with hk
    · exact hk ▸ List.mem_of_mem_drop hm
    · exact hm
  | claimForceClosedPoolFunds => exact .of_kept (kept_claimForceClosedPoolFunds h)
  | claimRewardsByLp =>
    obtain ⟨u, pool, score, amount, _, _, _, hu, _, hr, ha⟩ := claimRewardsByLp_spec h
    obtain ⟨_, _, _, _, _, _, _, _, _, _, _, hrec, _⟩ := lpClaim_spec (M := M) hu
    rw [hrec] at hr
    exact .keep ((congrArg Records.terms hr).trans rfl) ((congrArg Records.poolIdIndex hr).trans rfl) ha
      (.of_eq ((congrArg Records.withdrawalRequests hr).trans rfl))
  | claimRewardsByMm =>
    obtain ⟨u, pool, amount, _, _, _, hu, _, hr, ha⟩ := claimRewardsByMm_spec h
    obtain ⟨_, _, _, _, _, _, _, _, _, hrec, _⟩ := mmClaim_spec (M := M) hu
    rw [hrec] at hr
    exact .keep ((congrArg Records.terms hr).trans rfl) ((congrArg Records.poolIdIndex hr).trans rfl) ha
      (.of_eq ((congrArg Records.withdrawalRequests hr).trans rfl))
  | submitScoresOfLps source results =>
    simp only [dispatch, bind_eq_ok] at h
    obtain ⟨_, _, h⟩ := h
    obtain ⟨hr, ha⟩ := submitScoresOfLps_spec h
    obtain ⟨ht, hi, hq⟩ := Records.pools_foldlM_storeScores hr
    exact .keep ht hi (ha ▸ .refl) (.of_eq hq)

theorem poolStep_exec (s : Chain Acc Auth A cfg)
    (c : Call Acc Auth AuthSign) :
    s.world.PoolStep (fun _ => True) (Run.exec step s c).world := by
  cases Run.exec_cases step s c with
  | inl he => exact poolStep_of_dispatch (fun _ _ _ _ => trivial) (toOption_eq_some.mp he)
  | inr he => exact he.2.symm ▸ .of_kept (.refl s.world)

theorem terms_run (hc : s.world.records.terms key = some config)
    (calls : List (Call Acc Auth AuthSign)) :
    (Run.run step s calls).world.records.terms key = some config := by
  have hall : Run.Along step (fun _ _ => True) s calls := fun _ _ => trivial
  exact hall.invariant (motive := fun s => s.world.records.terms key = some config) hc
    fun s c _ hc => (poolStep_exec s c).terms hc

variable [CreatedAssets Acc A]

omit [DecidableEq Acc] [Ocex.PalletAccounts Acc] [Ocex.Percent]
  [Ocex.Authority Acc Auth AuthSign] in
theorem Posts.names (hr : s.world.Registered) (hn : NamesPool s c) (hm : Posts s c m) : Names s.world m := by
  intro key hk
  cases hm with
  | setting h => exact names_of_isSetting h key hk
  | deposit => simp [poolOf] at hk
  | addLiquidity hc | removeLiquidity hc =>
    cases hk
    exact hr.resolves hc
  | forceClosePool hp hlen =>
    cases hk
    exact hn hp hlen

variable [LawfulPoolAccounts Acc]

theorem addressed_exec_iff (hr : s.world.Registered) (hs : Addressed s) :
    Addressed (Run.exec step s c) ↔ NamesPool s c := by
  constructor
  case mp =>
    intro ha
    cases c with
    | forceClosePool market maker =>
      -- The call succeeds, and its message is the last one of the block.
      intro hp hlen
      have hd : forceClosePool s market maker = .ok (s.forceClosePool market maker) := by
        rw [forceClosePool, show ensure _ _ = .ok () from ensure_eq_ok.mpr hp]
        rfl
      obtain ⟨_, hw, hq⟩ := forceClosePool_eq_ok hd
      rw [if_pos hlen] at hq
      rw [Run.exec_of_some (toOption_eq_some.mpr hd)] at ha
      have hm := ha s.currentBlockNumber (.forceClosePool (.ofPair market.base market.quote) maker)
        (by simp [hq.ingress])
      rw [hw] at hm
      exact hm (market, maker) rfl
    | _ => trivial
  case mpr =>
    intro hn
    have hstep := poolStep_exec s c
    cases Run.exec_cases step s c with
    | inl he =>
      have hq := queued_of_dispatch (toOption_eq_some.mp he)
      exact fun n m hm => (hq n m hm).elim (fun hm => (hs n m hm).step hr hstep)
        fun hm => (hm.names hr hn).step hr hstep
    | inr he => exact he.2.symm ▸ hs

theorem registered_run (hr : s.world.Registered)
    (calls : List (Call Acc Auth AuthSign)) :
    (Run.run step s calls).world.Registered := by
  have hall : Run.Along step (fun _ _ => True) s calls := fun _ _ => trivial
  exact hall.invariant (motive := fun s => s.world.Registered) hr
    fun s c _ hr => hr.step (poolStep_exec s c)

theorem resolves_run (hr : s.world.Registered)
    (hp : s.world.Resolves market pool) (calls : List (Call Acc Auth AuthSign)) :
    (Run.run step s calls).world.Resolves market pool := by
  have hall : Run.Along step (fun _ _ => True) s calls := fun _ _ => trivial
  have hinv := hall.invariant (motive := fun s => s.world.Registered ∧ s.world.Resolves market pool)
    ⟨hr, hp⟩ fun s c _ h => ⟨h.1.step (poolStep_exec s c), h.2.step h.1 (poolStep_exec s c)⟩
  exact hinv.2

-- The messages name a pool of their market at every time of the run, and the handlers of the replies
-- find it at every later time, if and only if no pool is closed under another account.
theorem pool_addressing_iff (authorities : List Auth) (assets : A)
    (calls : List (Call Acc Auth AuthSign)) :
    (∀ before after, before ++ after = calls →
      ∀ n, ∀ m ∈ ((Run.run step (genesis authorities assets : Chain Acc Auth A cfg)
        before).ingressMessages n).toList,
      ∀ market pool, poolOf m = some (market, pool) →
        (Run.run step (genesis authorities assets : Chain Acc Auth A cfg)
          before).world.Resolves market pool ∧
        (Run.run step (genesis authorities assets : Chain Acc Auth A cfg)
          calls).world.isValidPoolId pool ∧
        ∃ maker config, (Run.run step (genesis authorities assets : Chain Acc Auth A cfg)
          calls).world.resolvePool market pool = .ok (maker, config) ∧ config.poolId = pool) ↔
    Run.Along step NamesPool (genesis authorities assets : Chain Acc Auth A cfg) calls := by
  have hr : (genesis authorities assets : Chain Acc Auth A cfg).world.Registered :=
    Storage.registered_genesis assets
  have ha : Addressed (genesis authorities assets : Chain Acc Auth A cfg) := by
    simp [Addressed, genesis, Ocex.State.genesis]
  constructor
  case mp =>
    intro h e he
    have haddr (before after) (hcalls : before ++ after = calls) : Addressed (Run.run step _ before) :=
      fun n m hm key hk => (h before after hcalls n m hm key.1 key.2 hk).1
    obtain ⟨before, after, hcalls, hs⟩ := Run.mem_trace_split he
    have hexec := haddr (before ++ [e.2]) after (by simp [hcalls])
    rw [Run.run_append, ← hs] at hexec
    refine (addressed_exec_iff ?_ ?_).mp hexec
    · exact hs ▸ registered_run hr before
    · exact hs ▸ haddr before (e.2 :: after) hcalls.symm
  case mpr =>
    intro h before after hcalls n m hm market pool hk
    subst hcalls
    have hinv := h.of_append.invariant
      (motive := fun s : Chain Acc Auth A cfg => s.world.Registered ∧ Addressed s) ⟨hr, ha⟩
      fun s c hn hs => ⟨hs.1.step (poolStep_exec s c), (addressed_exec_iff hs.1 hs.2).mpr hn⟩
    have hp := hinv.2 n m hm (market, pool) hk
    refine ⟨hp, ?_⟩
    rw [Run.run_append]
    exact (resolves_run hinv.1 hp after).resolvePool

end Dispatch

namespace Mock

open Ocex (unitBalance)
open Ocex.Mock (Account AuthSig config)

attribute [local instance] Decimal.HalfEven.arith Ocex.Mock.percent

instance : LawfulPoolAccounts Account where
  shareId_eq h := congrArg (fun pool : Account => 100 + pool.val) h

theorem Bank.setBalance_apply (world : Ocex.Mock.World) (account account' : Account) (asset asset' : AssetId) (n : ℕ) :
    setBalance world account asset n account' asset' =
      if account' = account ∧ asset' = asset then n else world account' asset' := by
  by_cases ha : account' = account
  · subst ha
    by_cases hs : asset' = asset <;> simp [setBalance, hs]
  · simp [setBalance, ha]

theorem created_onBalances {b b' : Bank} (h : b.onBalances f = .ok b') : b'.created = b.created := by
  obtain ⟨_, _, hb⟩ := Except.map_eq_ok.mp h
  exact hb ▸ rfl

theorem created_assetMove {b b' : Bank} {id : ℕ} (h : @AssetMove Account Bank _ _ _ _ (fun _ => True) b b')
    (hc : b.created id = true) : b'.created id = true := by
  cases h with
  | transfer h =>
    simp only [Ocex.Assets.transfer] at h
    split at h
    · exact created_onBalances h ▸ hc
    · exact created_onBalances h ▸ hc
  | transferPreserve h => exact created_onBalances h ▸ hc
  | transferAllowDeath h => exact created_onBalances h ▸ hc
  | burnNative h =>
    obtain ⟨_, _, hb⟩ := Option.map_eq_some_iff.mp h
    exact hb ▸ hc
  | parachainWithdraw h => cases h
  | create h =>
    simp only [Fungibles.create, Bank.create] at h
    split_ifs at h
    cases h
    simp only [update_apply, hc, ite_self]
  | mintInto _ h => exact created_onBalances h ▸ hc
  | burnFrom h => exact created_onBalances h ▸ hc

instance : CreatedAssets Account Bank where
  created b id := b.created id = true
  create h := by
    simp only [Fungibles.create, Bank.create] at h
    split_ifs at h with hc
    cases h
    exact ⟨fun he => hc (.inl he), by simp⟩
  keep := created_assetMove

def market : TradingPair where
  base := .asset 1
  quote := .asset 2

def bank (accounts : List Account) : Bank where
  balances account asset :=
    if account ∈ accounts ∧ asset ∈ [.polkadex, .asset 1, .asset 2] then 10 * unitBalance else 0
  created _ := false

def after (calls : List (Call Account ℕ AuthSig)) : Chain Account ℕ Bank config :=
  Run.run step (genesis [7] (bank [2, 3])) calls

def poolCalls (commission : ℕ) : List (Call Account ℕ AuthSig) :=
  [.ocex (.call (.setExchangeState true)), .ocex (.call (.allowlistToken (.asset 1))),
    .ocex (.call (.allowlistToken (.asset 2))),
    .ocex (.call (.registerTradingPair (.asset 1) (.asset 2) unitBalance (100 * unitBalance) unitBalance
      unitBalance)),
    .registerPool 2 (Vector.replicate 10 0) market commission 0 true 5]

def prices : Ocex.SnapshotSummary Account where
  validatorSetId := 0
  snapshotId := 1
  stateHash := 0
  stateChangeId := 0
  lastProcessedBlk := 0
  withdrawals := []
  egressMessages := [.priceOracle ((∅ : Std.TreeMap TradingPair Decimal).insert market 1)]
  traderMetrics := none

def depositCalls : List (Call Account ℕ AuthSig) :=
  poolCalls 0 ++ [.ocex (.call (.submitSnapshot prices [(0, 7, 1, 0)])),
    .addLiquidity 0 3 market 2 unitBalance unitBalance]

theorem deposit_names_pool :
    ((after depositCalls).ingressMessages 0).toList.filterMap poolOf = [(market, 6)] ∧
    (after depositCalls).world.isValidPoolId 6 := by
  have hq : ((after depositCalls).ingressMessages 0).toList.filterMap poolOf = [(market, 6)] := by
    decide +kernel
  obtain ⟨m, hm, hk⟩ := List.mem_filterMap.mp (hq ▸ List.mem_singleton_self (market, 6))
  have hn : Run.Along step NamesPool (genesis [7] (bank [2, 3]) : Chain Account ℕ Bank config)
      depositCalls := by
    simp [Run.Along, depositCalls, poolCalls, NamesPool]
  exact ⟨hq, ((pool_addressing_iff [7] (bank [2, 3]) depositCalls).mpr hn depositCalls [] (List.append_nil _) 0
    m hm market 6 hk).2.1⟩

-- The message has the market maker for the pool, and the reply about it is refused.
theorem closed_under_market_maker :
    ((after (poolCalls 0 ++ [.forceClosePool market 2])).ingressMessages 0).toList.filterMap poolOf =
      [(market, 2)] ∧
    (after (poolCalls 0 ++ [.forceClosePool market 2])).world.poolIdIndex 2 = none ∧
    ((after (poolCalls 0 ++ [.forceClosePool market 2])).processEgress
      (.poolForceClosed (.ofPair market.base market.quote) 2 0 0)).map (fun _ => ()) =
        .error (.module .invalidEgressPoolId) := by
  decide +kernel

end Mock

end LiquidityMining
