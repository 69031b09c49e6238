import PolkadexModel.Lib.DecimalArith
import PolkadexModel.Ocex.Theorems.Queue
import PolkadexModel.Ocex.Theorems.Records

open Function List

-- The registry of the accounts is a bijection between the proxies and their entries in the lists of
-- the main accounts. A name can only be once in it, and anyone can put the name of another account
-- there.
namespace Ocex

namespace Registry

variable {Acc : Type}

def proxiesOf (r : Registry Acc) (main : Acc) : List Acc :=
  (r.accounts main).elim [] (·.proxies.toList)

structure Consistent (r : Registry Acc) : Prop where
  index : ∀ proxy main, r.proxies proxy = some main ↔ proxy ∈ r.proxiesOf main
  nodup : ∀ main, (r.proxiesOf main).Nodup
  length : ∀ main, r.accounts main ≠ none →
    1 ≤ (r.proxiesOf main).length ∧ (r.proxiesOf main).length ≤ proxyLimit
  unique : ∀ proxy main main', proxy ∈ r.proxiesOf main → proxy ∈ r.proxiesOf main' → main = main'

theorem proxiesOf_eq {r : Registry Acc}
    (h : r.accounts main = some info) : r.proxiesOf main = info.proxies.toList := by
  simp [proxiesOf, h]

theorem length_proxiesOf_le (r : Registry Acc) (main : Acc) :
    (r.proxiesOf main).length ≤ proxyLimit := by
  cases h : r.accounts main with
  | none => simp [proxiesOf, h]
  | some info => exact proxiesOf_eq h ▸ info.proxies.length_le

theorem unique_of_index {r : Registry Acc}
    (h : ∀ proxy main, r.proxies proxy = some main ↔ proxy ∈ r.proxiesOf main)
    (proxy main main' : Acc) (hm : proxy ∈ r.proxiesOf main) (hm' : proxy ∈ r.proxiesOf main') :
    main = main' := by
  have h₁ := (h proxy main).mpr hm
  have h₂ := (h proxy main').mpr hm'
  exact Option.some.inj (h₁.symm.trans h₂)

variable [DecidableEq Acc]

def put (r : Registry Acc) (main : Acc) (info : AccountInfo Acc)
    (proxy : Acc) (owner : Option Acc) : Registry Acc where
  accounts := update r.accounts main (some info)
  proxies := update r.proxies proxy owner

-- A change that is made for a main account. It is registered with its first proxy.
inductive Change (main : Acc) (r : Registry Acc) : Registry Acc → Prop
  | add {proxy : Acc} {info : AccountInfo Acc} : r.proxies proxy = none →
    info.proxies.toList = r.proxiesOf main ++ [proxy] →
    Change main r (r.put main info proxy (some main))
  | remove {proxy : Acc} {info : AccountInfo Acc} : proxy ∈ r.proxiesOf main →
    1 < (r.proxiesOf main).length → info.proxies.toList = (r.proxiesOf main).erase proxy →
    Change main r (r.put main info proxy none)

abbrev Changes (main : Acc) : Registry Acc → Registry Acc → Prop :=
  Relation.ReflTransGen (Change main)

section Put

variable {r r' : Registry Acc} {main main' proxy : Acc} {info : AccountInfo Acc}
  {owner : Option Acc}

theorem proxiesOf_put_self : (r.put main info proxy owner).proxiesOf main = info.proxies.toList := by
  simp [proxiesOf, put]

theorem proxiesOf_put_of_ne (h : main' ≠ main) :
    (r.put main info proxy owner).proxiesOf main' = r.proxiesOf main' := by
  simp [proxiesOf, put, h]

-- A change is consistent if its list has no duplicates, is not empty, and differs from the old one
-- only in the proxy whose owner is written.
theorem Consistent.put (h : r.Consistent) (hnodup : info.proxies.toList.Nodup)
    (hpos : 1 ≤ info.proxies.toList.length)
    (hself : proxy ∈ info.proxies.toList ↔ owner = some main)
    (hother : ∀ main', main' ≠ main → proxy ∉ r.proxiesOf main' ∧ owner ≠ some main')
    (hrest : ∀ proxy', proxy' ≠ proxy →
      (proxy' ∈ info.proxies.toList ↔ proxy' ∈ r.proxiesOf main)) :
    (r.put main info proxy owner).Consistent := by
  have hindex (proxy' main' : Acc) : (r.put main info proxy owner).proxies proxy' = some main' ↔
      proxy' ∈ (r.put main info proxy owner).proxiesOf main' := by
    by_cases hm : main' = main
    case pos =>
      subst hm
      rw [proxiesOf_put_self]
      by_cases hp : proxy' = proxy
      · simp [Registry.put, hp, hself]
      · rw [hrest proxy' hp, ← h.index]
        simp [Registry.put, hp]
    case neg =>
      rw [proxiesOf_put_of_ne hm]
      by_cases hp : proxy' = proxy
      · obtain ⟨hn, ho⟩ := hother main' hm
        simp [Registry.put, hp, hn, ho]
      · rw [← h.index]
        simp [Registry.put, hp]
  refine ⟨hindex, fun main' => ?nodup, fun main' hreg => ⟨?pos, length_proxiesOf_le ..⟩,
    unique_of_index hindex⟩
  case nodup =>
    by_cases hm : main' = main
    · rw [hm, proxiesOf_put_self]
      exact hnodup
    · rw [proxiesOf_put_of_ne hm]
      exact h.nodup main'
  case pos =>
    by_cases hm : main' = main
    · rw [hm, proxiesOf_put_self]
      exact hpos
    · rw [proxiesOf_put_of_ne hm]
      exact (h.length main' (by simpa [Registry.put, hm] using hreg)).1

theorem Consistent.change (h : r.Consistent) (hc : Change main r r') : r'.Consistent := by
  cases hc with
  | @add proxy info hfree hlist =>
    -- Nobody has a proxy without an owner in the list.
    have hnot (m : Acc) : proxy ∉ r.proxiesOf m := by
      rw [← h.index, hfree]
      simp
    refine h.put ?_ (by simp [hlist]) (by simp [hlist]) (fun m hm => ⟨hnot m, ?_⟩) fun p hp => ?_
    · rw [hlist, nodup_append_comm]
      exact nodup_cons.mpr ⟨hnot main, h.nodup main⟩
    · exact fun he => hm (Option.some.inj he).symm
    · simp [hlist, hp]
  | @remove proxy info hmem hlen hlist =>
    refine h.put (hlist ▸ (h.nodup main).erase proxy) ?_ ?_ (fun m hm => ⟨?_, by simp⟩) fun p hp => ?_
    · rw [hlist, length_erase_of_mem hmem]
      omega
    · simpa [hlist] using (h.nodup main).not_mem_erase
    · exact fun hm' => hm (h.unique _ _ _ hm' hmem)
    · rw [hlist]
      exact mem_erase_of_ne hp

theorem Consistent.changes (h : r.Consistent) (hc : Changes main r r') : r'.Consistent := by
  induction hc with
  | refl => exact h
  | tail _ hc hi => exact hi.change hc

theorem accounts_changes (hc : Changes main r r') (h : main' ≠ main) :
    r'.accounts main' = r.accounts main' := by
  induction hc with
  | refl => rfl
  | tail _ hc hi => cases hc <;> simpa [Registry.put, h] using hi

end Put

end Registry

open State

section Runs

variable {Acc Auth AuthSign W : Type} [Ord Acc] [DecidableEq Acc]
  {cfg : Config}

namespace State

open Registry (Change Changes)

variable {s s' : State Acc Auth W cfg} {main proxy user : Acc}

theorem change_registerUser (h : s.registerUser main proxy = .ok s') :
    Change main s.registry s'.registry := by
  simp only [registerUser, bind_eq_ok, pure_eq_ok, ensure_eq_ok, orElse_eq_ok,
    BoundedVec.tryPush_eq_some] at h
  obtain ⟨_, _, _, hnew, _, hfree, proxies, hlist, t, ht, hs⟩ := h
  have hr : t.registry = _ := congrArg Records.registry (frame_pushIngress ht).2
  have hnil : s.registry.proxiesOf main = [] := by simp [Registry.proxiesOf, registry, hnew]
  have hc : Change main s.registry (s.registry.put main ⟨main, proxies⟩ proxy (some main)) :=
    .add hfree (by simpa [hnil] using hlist)
  have hp : t.proxies = s.proxies := congrArg Registry.proxies hr
  have ha : t.accounts = update s.accounts main (some ⟨main, proxies⟩) :=
    congrArg Registry.accounts hr
  rw [← hs]
  simpa only [registry, depositEvent, Registry.put, hp, ha] using hc

theorem change_addProxyAccount (h : s.addProxyAccount main proxy = .ok s') :
    Change main s.registry s'.registry := by
  simp only [addProxyAccount, bind_eq_ok, pure_eq_ok, ensure_eq_ok, orElse_eq_ok,
    BoundedVec.tryPush_eq_some] at h
  obtain ⟨_, _, info, hinfo, _, hfree, proxies, hlist, t, ht, hs⟩ := h
  have hr : t.registry = s.registry := congrArg Records.registry (frame_pushIngress ht).2
  have hold : s.registry.proxiesOf main = info.proxies.toList := Registry.proxiesOf_eq hinfo
  have hc : Change main s.registry
      (s.registry.put main { info with proxies := proxies } proxy (some main)) :=
    .add hfree (by rw [hold]; exact hlist)
  rw [← hr] at hc
  subst hs
  exact hr ▸ hc

theorem change_removeProxyAccount (h : s.removeProxyAccount main proxy = .ok s') :
    Change main s.registry s'.registry := by
  simp only [removeProxyAccount, bind_eq_ok, pure_eq_ok, ensure_eq_ok, orElse_eq_ok] at h
  obtain ⟨_, _, info, hinfo, _, hlen, _, hmem, t, ht, hs⟩ := h
  have hr : t.registry = s.registry := congrArg Records.registry (frame_pushIngress ht).2
  have hold : s.registry.proxiesOf main = info.proxies.toList := Registry.proxiesOf_eq hinfo
  rw [← hold] at hlen hmem
  have hc : Change main s.registry (s.registry.put main { info with
      proxies := ⟨info.proxies.toList.erase proxy, length_erase_le.trans info.proxies.length_le⟩ }
      proxy none) := .remove hmem hlen (by rw [hold])
  rw [← hr] at hc
  subst hs
  exact hr ▸ hc

section Deposits

theorem changes_registerDepositor (h : s.registerDepositor user = .ok s') :
    Changes user s.registry s'.registry := by
  simp only [registerDepositor] at h
  split_ifs at h
  · exact .single (change_registerUser h)
  · exact Except.ok.inj h ▸ .refl

variable [PalletAccounts Acc] [Assets Acc W] [Decimal.Arith]

theorem changes_doDeposit {id amount : ℕ}
    (h : s.doDeposit id user asset amount = .ok s') : Changes user s.registry s'.registry := by
  obtain ⟨t, ht, hr⟩ := records_doDeposit h
  have hr : s'.registry = t.registry := congrArg Records.registry hr
  exact hr ▸ changes_registerDepositor ht

theorem changes_addLiquidity {lp : Acc} {id : ℕ}
    (h : s.addLiquidity id market pool lp totalShares baseAmount quoteAmount = .ok s') :
    Changes pool s.registry s'.registry := by
  simp only [addLiquidity, bind_eq_ok] at h
  obtain ⟨_, _, t₁, h₁, _, _, t₂, h₂, h₃⟩ := h
  have h₃ : s'.registry = t₂.registry := congrArg Records.registry (frame_pushIngress h₃).2
  rw [h₃]
  exact (changes_doDeposit h₁).trans (changes_doDeposit h₂)

end Deposits

variable [PalletAccounts Acc] [Assets Acc W] [CrossChainGadget Acc W]
  [CrowdSourceLiquidityMining Acc W] [Percent]
  [Authority Acc Auth AuthSign] [Decimal.Arith]
  {c : Call Acc Auth AuthSign}

theorem changes_of_dispatch (h : dispatch s c = .ok s') : s'.registry = s.registry ∨
    ∃ main, c.registrant = some main ∧ Changes main s.registry s'.registry := by
  cases c with
  | registerMainAccount main => exact .inr ⟨main, rfl, .single (change_registerUser h)⟩
  | addProxyAccount main => exact .inr ⟨main, rfl, .single (change_addProxyAccount h)⟩
  | removeProxyAccount main => exact .inr ⟨main, rfl, .single (change_removeProxyAccount h)⟩
  | deposit id user => exact .inr ⟨user, rfl, changes_doDeposit h⟩
  | addLiquidity id market pool => exact .inr ⟨pool, rfl, changes_addLiquidity h⟩
  | _ => exact .inl ((recordStep_of_dispatch h).registry rfl)

theorem consistent_run {calls : List (Call Acc Auth AuthSign)}
    (h : s.registry.Consistent) : (Run.run step s calls).registry.Consistent := by
  have hall : Run.Along step (fun _ _ => True) s calls := fun _ _ => trivial
  refine hall.invariant (motive := fun s => s.registry.Consistent) h fun s c _ h => ?_
  rcases Run.exec_cases step s c with hstep | ⟨_, hexec⟩
  · rcases changes_of_dispatch (toOption_eq_some.mp hstep) with hr | ⟨main, _, hr⟩
    · exact hr.symm ▸ h
    · exact h.changes hr
  · exact hexec.symm ▸ h

theorem accounts_run {calls : List (Call Acc Auth AuthSign)}
    (h : ∀ c ∈ calls, c.registrant ≠ some user) (hs : s.accounts user = none) :
    (Run.run step s calls).accounts user = none := by
  induction calls generalizing s with
  | nil => exact hs
  | cons c calls hi =>
    refine hi (fun c' hc' => h c' (mem_cons_of_mem _ hc')) ?_
    rcases Run.exec_cases step s c with hstep | ⟨_, hexec⟩
    · rcases changes_of_dispatch (toOption_eq_some.mp hstep) with hr | ⟨main, hm, hr⟩
      · exact (congrFun (congrArg Registry.accounts hr) user).trans hs
      · have hne : user ≠ main := fun he => h c mem_cons_self (he ▸ hm)
        exact (Registry.accounts_changes hr hne).trans hs
    · exact hexec.symm ▸ hs

end State

variable [PalletAccounts Acc] [Assets Acc W] [CrossChainGadget Acc W]
  [CrowdSourceLiquidityMining Acc W] [Percent]
  [Authority Acc Auth AuthSign] [Decimal.Arith]

omit [DecidableEq Acc] [PalletAccounts Acc] [Assets Acc W]
  [CrossChainGadget Acc W] [CrowdSourceLiquidityMining Acc W] [Percent]
  [Authority Acc Auth AuthSign] [Decimal.Arith] in
theorem consistent_genesis (authorities : List Auth) (world : W) :
    (State.genesis authorities world : State Acc Auth W cfg).registry.Consistent := by
  constructor <;> simp [State.registry, State.genesis, Registry.proxiesOf]

-- The index of the proxies agrees with the lists of the main accounts after all calls.
theorem registry_consistent (authorities : List Auth) (world : W)
    (calls : List (Call Acc Auth AuthSign)) :
    (Run.run step (State.genesis authorities world : State Acc Auth W cfg)
      calls).registry.Consistent :=
  State.consistent_run (consistent_genesis authorities world)

theorem State.Reachable.consistent {s : State Acc Auth W cfg}
    (h : s.Reachable AuthSign) : s.registry.Consistent := by
  obtain ⟨authorities, world, calls, hs⟩ := h
  exact hs ▸ State.consistent_run (consistent_genesis authorities world)

-- What a first deposit depends on, apart from the deposit itself.
section Deposits

variable {s t : State Acc Auth W cfg} {user : Acc} {asset : AssetId}
  {id amount : ℕ}

-- A deposit that its account can pay, of an asset that can be deposited.
structure State.Funded (s : State Acc Auth W cfg) (user : Acc) (asset : AssetId)
    (amount : ℕ) : Prop where
  allowlisted : asset ∈ s.allowlistedToken
  le_max : amount ≤ depositMax
  ge_min : cfg.minimumDeposit ≤ amount
  transfer : ∃ world, Assets.transfer s.world user PalletAccounts.palletAccount amount asset = .ok world

-- The exchange is open, the account is nobody's proxy, there is space for its registration and its
-- deposit in the queue, and the total of the asset does not overflow.
structure State.Admits (s : State Acc Auth W cfg) (user : Acc) (asset : AssetId)
    (amount : ℕ) : Prop where
  operational : s.exchangeState
  unclaimed : ∀ main, user ∉ s.registry.proxiesOf main
  space : (s.ingressMessages s.currentBlockNumber).toList.length + 2 ≤ cfg.obIngressLimit
  total : ∃ converted total, State.inUnits .failedToConvertDecimaltoBalance amount = .ok converted ∧
    Decimal.Arith.checkedAdd converted (s.totalAssets asset) = some total

omit [PalletAccounts Acc] [Assets Acc W] [CrossChainGadget Acc W]
  [CrowdSourceLiquidityMining Acc W] [Percent]
  [Authority Acc Auth AuthSign] [Decimal.Arith] in
theorem State.exists_registerUser_iff (hnew : s.accounts user = none) :
    (∃ t, s.registerUser user user = .ok t) ↔ s.exchangeState ∧ s.proxies user = none ∧
      (s.ingressMessages s.currentBlockNumber).toList.length < cfg.obIngressLimit := by
  simp only [registerUser, bind_eq_ok, pure_eq_ok, ensure_eq_ok, orElse_eq_ok]
  constructor
  · rintro ⟨_, _, hex, _, _, _, hfree, _, _, t, ht, _⟩
    have hlen := (t.ingressMessages s.currentBlockNumber).length_le
    rw [(Queues.pushIngress ht).ingress, if_pos rfl, length_append] at hlen
    exact ⟨hex, hfree, hlen⟩
  · rintro ⟨hex, hfree, hspace⟩
    obtain ⟨proxies, hp⟩ := BoundedVec.exists_tryPush
      (v := (default : BoundedVec Acc proxyLimit)) user (Nat.succ_pos 2)
    obtain ⟨t, ht⟩ := (State.exists_pushIngress_iff
      { s with accounts := update s.accounts user (some ⟨user, proxies⟩) }
      (.registerUser user user)).mpr hspace
    exact ⟨_, (), hex, (), hnew, (), hfree, proxies, hp, t, ht, rfl⟩

omit [PalletAccounts Acc] [Assets Acc W] [CrossChainGadget Acc W]
  [CrowdSourceLiquidityMining Acc W] [Percent]
  [Authority Acc Auth AuthSign] [Decimal.Arith] in
theorem State.assets_registerUser {main proxy : Acc} (h : s.registerUser main proxy = .ok t) :
    t.world = s.world ∧ t.totalAssets = s.totalAssets := by
  simp only [registerUser, pushIngress, pushIngressAt, bind_eq_ok, pure_eq_ok,
    orElse_eq_ok, Option.map_eq_some_iff] at h
  obtain ⟨_, _, _, _, _, _, _, _, u, ⟨_, _, hu⟩, ht⟩ := h
  subst hu ht
  exact ⟨rfl, rfl⟩

omit [CrossChainGadget Acc W] [CrowdSourceLiquidityMining Acc W] [Percent]
  [Authority Acc Auth AuthSign] in
theorem State.exists_doDeposit_iff (hr : s.registry.Consistent) (hnew : s.accounts user = none)
    (hf : s.Funded user asset amount) :
    (∃ t, s.doDeposit id user asset amount = .ok t) ↔ s.Admits user asset amount := by
  have hclaim : s.proxies user = none ↔ ∀ main, user ∉ s.registry.proxiesOf main := by
    simp only [← hr.index, Option.eq_none_iff_forall_ne_some]
    rfl
  have hreg := State.exists_registerUser_iff hnew
  simp only [doDeposit, registerDepositor, hnew, Option.isNone_none, if_true, transferAsset,
    bind_eq_ok, pure_eq_ok, ensure_eq_ok, orElse_eq_ok]
  constructor
  · rintro ⟨_, _, hex, _, _, _, _, _, _, converted, hc, t₁, h₁, t₂, ⟨_, _, h₂⟩, total, htotal, t₃, h₃, _⟩
    obtain ⟨_, hfree, _⟩ := hreg.mp ⟨t₁, h₁⟩
    subst h₂
    refine ⟨hex, hclaim.mp hfree, ?space, converted, total, hc, (State.assets_registerUser h₁).2 ▸ htotal⟩
    case space =>
      -- Both messages are in the queue in the end.
      have hq₁ := (Queues.registerUser h₁).1
      have hq₃ := (Queues.pushIngress h₃).ingress t₁.currentBlockNumber
      have hlen := (t₃.ingressMessages t₁.currentBlockNumber).length_le
      rw [hq₃, if_pos rfl, length_append] at hlen
      simp only [hq₁.ingress, hq₁.currentBlockNumber, if_true, length_append,
        length_singleton] at hlen
      omega
  · rintro ⟨hex, hfree, hspace, converted, total, hc, htotal⟩
    obtain ⟨t₁, h₁⟩ := hreg.mpr ⟨hex, hclaim.mpr hfree, by omega⟩
    obtain ⟨hw, ha⟩ := State.assets_registerUser h₁
    obtain ⟨world, ht⟩ := hf.transfer
    have hq₁ := (Queues.registerUser h₁).1
    have hlen : (t₁.ingressMessages t₁.currentBlockNumber).toList.length < cfg.obIngressLimit := by
      simp only [hq₁.ingress, hq₁.currentBlockNumber, if_true, length_append, length_singleton]
      omega
    obtain ⟨t₃, h₃⟩ := (State.exists_pushIngress_iff { t₁ with
      world := world
      totalAssets := update t₁.totalAssets asset total }
      (.deposit id user asset converted)).mpr hlen
    exact ⟨_, (), hex, (), hf.allowlisted, (), hf.le_max, (), hf.ge_min, converted, hc, t₁, h₁, _,
      ⟨world, hw ▸ ht, rfl⟩, total, ha ▸ htotal, t₃, h₃, rfl⟩

-- A deposit of an account that never registered, after calls of others.
theorem first_deposit_iff (hr : s.Reachable AuthSign) (hnew : s.accounts user = none)
    (calls : List (Call Acc Auth AuthSign))
    (hothers : ∀ c ∈ calls, c.registrant ≠ some user)
    (hf : (Run.run step s calls).Funded user asset amount) :
    (∃ t, dispatch (Run.run step s calls)
      (.deposit id user asset amount : Call Acc Auth AuthSign) = .ok t) ↔
      (Run.run step s calls).Admits user asset amount :=
  State.exists_doDeposit_iff (State.consistent_run hr.consistent) (State.accounts_run hothers hnew) hf

end Deposits

end Runs

namespace Mock

attribute [local instance] Decimal.HalfEven.arith percent

def openExchange : State Account ℕ World config :=
  Run.run step (State.genesis [7] fun account _ => if account = 2 then 5 * unitBalance else 0)
    ([.setExchangeState true, .allowlistToken .polkadex] : List (Call Account ℕ AuthSig))

theorem openExchange_reachable : openExchange.Reachable AuthSig :=
  ⟨_, _, _, rfl⟩

-- The account 3 registers with the account 2 as its proxy, which nobody asks for consent.
def namesProxy (proxy : Account) : List (Call Account ℕ AuthSig) :=
  [.registerMainAccount 3 proxy]

theorem names_other_proxy_admits : ∃ s, dispatch (Run.run step openExchange (namesProxy 4))
    (.deposit 0 2 .polkadex unitBalance : Call Account ℕ AuthSig) = .ok s :=
  (first_deposit_iff openExchange_reachable rfl (namesProxy 4) (by decide)
    ⟨by decide +kernel, by decide, by decide, _, rfl⟩).mpr
    ⟨by decide +kernel, by decide +kernel, by decide +kernel, _, _, rfl, rfl⟩

theorem names_proxy_blocks : openExchange.Reachable AuthSig ∧ openExchange.accounts 2 = none ∧
    (∀ c ∈ namesProxy 2, c.registrant ≠ some 2) ∧
    (Run.run step openExchange (namesProxy 2)).Funded 2 .polkadex unitBalance ∧
    dispatch (Run.run step openExchange (namesProxy 2))
      (.deposit 0 2 .polkadex unitBalance : Call Account ℕ AuthSig) =
      .error (.module .proxyAlreadyRegistered) :=
  ⟨openExchange_reachable, rfl, by decide, ⟨by decide +kernel, by decide, by decide, _, rfl⟩, rfl⟩

end Mock

end Ocex
