import PolkadexModel.Ocex.Theorems.CatchUp
import PolkadexModel.Ocex.Theorems.Invariants

open List Ocex.OffchainState

namespace Ocex

variable {Acc Auth AuthSign Sign W : Type} [Ord Acc] {cfg : Config}

section Loading

variable [DecidableEq Acc] {s t : OffchainState Acc} {account : Acc}
  {asset : AssetId} {entries : List (AccountAsset Acc × Decimal)}

namespace OffchainState

def setEntries (s : OffchainState Acc) (entries : List (AccountAsset Acc × Decimal)) :
    OffchainState Acc :=
  entries.foldl (fun s entry => s.setEntry entry.1.main entry.1.asset entry.2) s

omit [Ord Acc]

theorem lmpConfig_setEntries (t : OffchainState Acc)
    (entries : List (AccountAsset Acc × Decimal)) :
    (t.setEntries entries).lmpConfig = t.lmpConfig := by
  induction entries generalizing t with
  | nil => rfl
  | cons _ _ hi => exact hi _

theorem get_setEntries_eq_none : (t.setEntries entries).balances.get account = none ↔
    t.balances.get account = none ∧ ∀ e ∈ entries, e.1.main ≠ account := by
  induction entries generalizing t with
  | nil => simp [setEntries]
  | cons e entries hi =>
    have hset : (t.setEntry e.1.main e.1.asset e.2).balances.get account = none ↔
        t.balances.get account = none ∧ e.1.main ≠ account := by
      by_cases ha : account = e.1.main
      · simp [setEntry, ha]
      · simp [setEntry, Store.get_insert_of_ne ha, Ne.symm ha]
    rw [setEntries, foldl_cons, ← setEntries, hi, hset, forall_mem_cons, and_assoc]

-- Entries which agree with a state overwrite with what the state has.
theorem entry_setEntries (he : ∀ e ∈ entries, s.entry e.1.main e.1.asset = some e.2) :
    (t.setEntries entries).entry account asset =
      if ⟨account, asset⟩ ∈ entries.map Prod.fst then s.entry account asset
      else t.entry account asset := by
  induction entries generalizing t with
  | nil => simp [setEntries]
  | cons e entries hi =>
    obtain ⟨he₀, he⟩ := forall_mem_cons.mp he
    rw [setEntries, foldl_cons, ← setEntries, hi he, entry_setEntry]
    simp only [map_cons, mem_cons]
    by_cases hmem : ⟨account, asset⟩ ∈ entries.map Prod.fst
    · simp [hmem]
    · by_cases hk : account = e.1.main ∧ asset = e.1.asset
      · rw [if_neg hmem, if_pos hk, if_pos (.inl (by rw [hk.1, hk.2])), hk.1, hk.2, he₀]
      · have hne : (⟨account, asset⟩ : AccountAsset Acc) ≠ e.1 :=
          fun h => hk ⟨congrArg AccountAsset.main h, congrArg AccountAsset.asset h⟩
        rw [if_neg hmem, if_neg hk, if_neg (not_or.mpr ⟨hne, hmem⟩)]

omit [DecidableEq Acc] in
theorem balances_ext
    (hn : ∀ account, s.balances.get account = none ↔ t.balances.get account = none)
    (he : ∀ account asset, s.entry account asset = t.entry account asset) :
    s.balances = t.balances := by
  refine Store.ext fun account => ?_
  cases hs : s.balances.get account with
  | none => exact ((hn account).mp hs).symm
  | some balances =>
    cases ht : t.balances.get account with
    | none => simp [(hn account).mpr ht] at hs
    | some balances' =>
      congr 1
      funext asset
      simpa [entry, hs, ht] using he account asset

end OffchainState

end Loading

-- Every account in the trie is known to the chain or is the pot, and none is stored without a balance.
structure Exportable [PalletAccounts Acc] (chain : State Acc Auth W cfg)
    (s : OffchainState Acc) : Prop where
  known : ∀ account, s.balances.get account ≠ none →
    account = PalletAccounts.potAccount ∨ (chain.accounts account).isSome
  nonempty : ∀ account balances, s.balances.get account = some balances →
    ∃ asset, balances asset ≠ none

namespace Exportable

variable [DecidableEq Acc] [PalletAccounts Acc] {chain : State Acc Auth W cfg}
  {s s' : OffchainState Acc} {account : Acc} {asset : AssetId} {balance : Decimal}

omit [DecidableEq Acc] in
theorem empty : Exportable chain .empty :=
  ⟨fun _ h => absurd rfl h, fun _ _ h => absurd h (by simp [OffchainState.empty, Store.empty])⟩

omit [DecidableEq Acc] in
theorem known_of_entry (h : Exportable chain s) (he : s.entry account asset = some balance) :
    account = PalletAccounts.potAccount ∨ (chain.accounts account).isSome :=
  h.known account fun hn => by simp [entry, hn] at he

theorem setEntry (h : Exportable chain s)
    (ha : account = PalletAccounts.potAccount ∨ (chain.accounts account).isSome) :
    Exportable chain (s.setEntry account asset balance) := by
  have hget (account' : Acc) (heq : account' ≠ account) :
      (s.setEntry account asset balance).balances.get account' = s.balances.get account' :=
    Store.get_insert_of_ne heq ..
  refine ⟨fun account' hn => ?known, fun account' balances hb => ?nonempty⟩
  case known =>
    by_cases heq : account' = account
    · exact heq ▸ ha
    · exact h.known account' (hget account' heq ▸ hn)
  case nonempty =>
    by_cases heq : account' = account
    · subst heq
      simp only [setEntry, Store.get_insert_self, Option.some.injEq] at hb
      exact ⟨asset, by simp [← hb]⟩
    · exact h.nonempty account' balances (hget account' heq ▸ hb)

variable [Decimal.Arith]

theorem addBalance (h : Exportable chain s)
    (ha : account = PalletAccounts.potAccount ∨ (chain.accounts account).isSome) :
    Exportable chain (s.addBalance account asset balance) := by
  rw [addBalance_eq]
  exact h.setEntry ha

theorem subBalance (h : Exportable chain s)
    (hs : s.subBalance account asset balance isWithdrawal = .ok (s', deducted)) : Exportable chain s' := by
  obtain ⟨_, he, _, hs⟩ := subBalance_eq_ok.mp hs
  exact hs ▸ h.setEntry (h.known_of_entry he)

-- An account is credited before it is debited in a trade, but the debit is made in the other asset.
theorem postingsOf {t : Trade Acc Sign}
    (h : Exportable chain s) (hne : (t.order maker).pair.base ≠ (t.order maker).pair.quote)
    (hs : s.postAll (t.postingsOf volume maker fraction) = .ok s') : Exportable chain s' := by
  have hassets : (t.order maker).debitAsset ≠ (t.order maker).creditAsset := by
    cases hside : (t.order maker).side <;>
      simp [Order.debitAsset, Order.creditAsset, hside, hne, hne.symm]
  simp only [Trade.postingsOf, postAll, foldlM_cons_eq_ok,
    foldlM_nil_eq_ok, post, if_true, Bool.false_eq_true, if_false,
    Except.ok.injEq, bind_eq_ok, pure_eq_ok, Prod.exists] at hs
  obtain ⟨s₁, h₁, s₂, h₂, s₃, ⟨_, _, hsub, h₃⟩, h₄⟩ := hs
  obtain ⟨b, hb, _⟩ := subBalance_eq_ok.mp hsub
  rw [← h₂, addBalance_eq, entry_setEntry_of_ne (.inr hassets), ← h₁,
    addBalance_eq, entry_setEntry_of_ne (.inr hassets)] at hb
  have hknown := h.known_of_entry hb
  have he₁ : Exportable chain s₁ := h₁ ▸ h.addBalance hknown
  have he₂ : Exportable chain s₂ := h₂ ▸ he₁.addBalance (.inl rfl)
  exact h₄ ▸ h₃ ▸ he₂.subBalance hsub

variable [Verify Acc Sign]

theorem settleTrade {chain₀ : State Acc Auth W cfg} {t : Trade Acc Sign}
    (h : Exportable chain s) (hc : chain₀.Sound) (hs : settleTrade chain₀ s t = .ok s') :
    Exportable chain s' := by
  obtain ⟨config, volume, hv, _, hp⟩ := settleTrade_eq_ok hs
  have hpair := Trade.pair_eq_of_verify hv
  have hne : (t.order true).pair.base ≠ (t.order true).pair.quote := by
    refine hc.pairs t.maker.pair fun hn => ?_
    simp [Ocex.settleTrade, hn] at hs
  have hne' : (t.order false).pair.base ≠ (t.order false).pair.quote := by
    rw [show (t.order false).pair = (t.order true).pair from hpair.symm]
    exact hne
  obtain ⟨s₁, hm, ht⟩ := Except.foldlM_append_eq_ok.mp hp
  have h₁ : Exportable chain s₁ := h.postingsOf hne hm
  exact h₁.postingsOf hne' ht

theorem preserves {chain₀ : State Acc Auth W cfg} (hc : chain₀.Sound)
    (ha : ∀ account, (chain₀.accounts account).isSome → (chain.accounts account).isSome)
    (ts : List (Trade Acc Sign)) : Preserves chain₀ ts (Exportable chain) where
  deposit hu _ h := h.addBalance (.inr (ha _ hu))
  debit hs h := h.subBalance hs
  epoch h := ⟨h.known, h.nonempty⟩
  trade _ hs h := h.settleTrade hc hs

end Exportable

section RoundTrip

variable [DecidableEq Acc] [PalletAccounts Acc]

namespace Trie

variable {chain : State Acc Auth W cfg} {trie : Trie Acc}

omit [DecidableEq Acc] in
theorem mem_fetchCheckpoint (h : Exportable chain trie.state) (keys : StorageKeys chain trie.state)
 : e ∈ (fetchCheckpoint trie keys).balances ↔
      trie.state.entry e.1.main e.1.asset = some e.2 := by
  obtain ⟨⟨main, asset⟩, balance⟩ := e
  simp only [fetchCheckpoint, mem_flatMap, mem_append, mem_singleton, mem_map,
    keys.mem_accountIds, keys.mem_assets, Prod.mk.injEq, AccountAsset.mk.injEq]
  constructor
  · rintro ⟨account, _, asset', hs, ⟨ha, hx⟩, hb⟩
    subst ha hx
    obtain ⟨b, he⟩ := Option.isSome_iff_exists.mp hs
    rw [getBalance_eq he] at hb
    exact hb ▸ he
  · intro he
    have hk := h.known_of_entry he
    exact ⟨main, hk.symm, asset, by simp [he], ⟨rfl, rfl⟩, getBalance_eq he⟩

theorem processCheckpoint_fetchCheckpoint (h : Exportable chain trie.state)
    (keys : StorageKeys chain trie.state) :
    OffchainState.empty.processCheckpoint (fetchCheckpoint trie keys) =
      { trie.state with lmpConfig := none } := by
  have hmem {e : AccountAsset Acc × Decimal} := mem_fetchCheckpoint h keys (e := e)
  have hentry (account : Acc) (asset : AssetId) :
      (OffchainState.empty.setEntries (fetchCheckpoint trie keys).balances).entry account asset =
        trie.state.entry account asset := by
    rw [OffchainState.entry_setEntries fun e he => hmem.mp he]
    split_ifs with hk
    · rfl
    · cases hs : trie.state.entry account asset with
      | none => rfl
      | some b => exact absurd (List.mem_map.mpr ⟨(⟨account, asset⟩, b), hmem.mpr hs, rfl⟩) hk
  have hnone (account : Acc) :
      (OffchainState.empty.setEntries (fetchCheckpoint trie keys).balances).balances.get account =
        none ↔ trie.state.balances.get account = none := by
    rw [OffchainState.get_setEntries_eq_none]
    constructor
    · rintro ⟨_, hl⟩
      by_contra hs
      obtain ⟨balances, hs⟩ := Option.ne_none_iff_exists'.mp hs
      obtain ⟨asset, ha⟩ := h.nonempty account balances hs
      obtain ⟨b, hb⟩ := Option.ne_none_iff_exists'.mp ha
      exact hl (⟨account, asset⟩, b) (hmem.mpr (by simp [OffchainState.entry, hs, hb])) rfl
    · intro hs
      refine ⟨rfl, fun e he ha => ?_⟩
      simp [hmem, OffchainState.entry, ha, hs] at he
  exact congrArg₂ OffchainState.mk (OffchainState.balances_ext hnone hentry)
    (OffchainState.lmpConfig_setEntries ..)

end Trie

namespace Worker

def recovered (w : Worker Acc) (checkpoint : ObCheckpointRaw Acc) : Worker Acc :=
  commit (OffchainState.empty.processCheckpoint checkpoint) (w.info.update checkpoint)

variable [Decimal.Arith] [Verify Acc Sign] [FromText] {w : Worker Acc}
  {is : List (Input Acc Auth Sign W cfg)}

theorem workerNonce_of_result {i : Input Acc Auth Sign W cfg} (hr : w.result i = some b) :
    b.info.workerNonce = w.info.workerNonce := by
  refine Except.foldlM_invariant (motive := fun b => b.info.workerNonce = w.info.workerNonce)
    (result_eq_some.mp hr).2 rfl fun action _ b b' hi hb => ?_
  rw [← hi]
  cases action with
  | trade =>
    simp only [processAction, bind_eq_ok, pure_eq_ok] at hb
    obtain ⟨_, _, hb⟩ := hb
    rw [← hb]
  | withdraw | withdrawV1 =>
    simp only [processAction, bind_eq_ok, pure_eq_ok, Prod.exists] at hb
    obtain ⟨_, _, _, hb⟩ := hb
    rw [← hb]
  | blockImport =>
    simp only [processAction, importBlk, bind_eq_ok, pure_eq_ok, Prod.exists,
      Prod.mk.injEq] at hb
    obtain ⟨_, _, _, ⟨_, _, _, _, _, _, hinfo, _⟩, hb⟩ := hb
    rw [← hb, ← hinfo]
  | reset | oneMinLMPReport => rw [Except.ok.inj hb]

-- What a worker has committed is what it works with.
structure Consistent (w : Worker Acc) : Prop where
  workerNonce : w.info.workerNonce = 0
  stored : w.stored.stateInfo ≠ none → w.stored = ⟨w.state, some w.info⟩

theorem consistent_run (is : List (Input Acc Auth Sign W cfg)) :
    (Run.run step (.fresh : Worker Acc) is).Consistent := by
  have hall : Run.Along step (fun _ _ => True) (.fresh : Worker Acc) is := fun _ _ => trivial
  refine hall.invariant ⟨rfl, fun h => absurd rfl h⟩ fun w i _ h => ?_
  cases hr : w.result i with
  | none =>
    rw [Run.exec_of_none (by simp [step, hr])]
    exact h
  | some b =>
    have hstep : step w i = some (commitBatch b i.2) := by simp [step, hr]
    rw [Run.exec_of_some hstep]
    exact ⟨(workerNonce_of_result hr).trans h.workerNonce, fun _ => rfl⟩

variable [Assets Acc W] [CrossChainGadget Acc W]
  [CrowdSourceLiquidityMining Acc W] [Percent]
  [Authority Acc Auth AuthSign]

-- The batches are processed with states that the chain has gone through.
def Follows (AuthSign : Type) [Authority Acc Auth AuthSign]
    (chain : State Acc Auth W cfg)
    (is : List (Input Acc Auth Sign W cfg)) : Prop :=
  ∀ i ∈ is, i.1.Reachable AuthSign ∧
    ∃ calls : List (Call Acc Auth AuthSign), Run.run Ocex.step i.1 calls = chain

theorem exportable_run (h : Follows AuthSign chain is) :
    Exportable chain (Run.run step (.fresh : Worker Acc) is).state := by
  refine preserved_run .empty (fun i hi => (h i hi).1.sound) fun i hi => ?_
  obtain ⟨hr, calls, hc⟩ := h i hi
  have ha := (State.Advances.run i.1 calls).accounts
  exact Exportable.preserves hr.sound (hc ▸ ha) _

-- A checkpoint has all balances and the state info, but not the configuration of the liquidity mining.
theorem stored_recovered_iff (hf : Follows AuthSign chain is) (hw : Run.run step .fresh is = w)
    (hc : w.stored.stateInfo ≠ none) (keys : StorageKeys chain w.stored.state)
    (is' : List (Input Acc Auth Sign W cfg)) :
    ((Run.run step .fresh is').recovered (fetchCheckpoint w.stored keys)).stored = w.stored ↔
      w.stored.state.lmpConfig = none := by
  have hcons := hw ▸ consistent_run is
  have he : Exportable chain w.stored.state := by
    rw [hcons.stored hc, ← hw]
    exact exportable_run hf
  have hi : w.stored.stateInfo = some w.info := by rw [hcons.stored hc]
  have hload : w.stored.loadStateInfo = w.info := by simp [Trie.loadStateInfo, hi]
  have hinfo : (Run.run step .fresh is').info.update (fetchCheckpoint w.stored keys) = w.info := by
    simp only [StateInfo.update, fetchCheckpoint, hload, (consistent_run is').workerNonce,
      ← hcons.workerNonce]
  rw [recovered, commit, Trie.processCheckpoint_fetchCheckpoint he keys, hinfo]
  constructor
  · intro h
    exact (congrArg (·.state.lmpConfig) h).symm
  · intro h
    exact congrArg₂ Trie.mk (congrArg (OffchainState.mk _) h.symm) hi.symm

-- The state that a checkpoint was made from is loaded again, and passes the comparison with the root of
-- its snapshot, if and only if no epoch of the liquidity mining has begun in it.
theorem checkpoint_reproduces_iff [TrieRoot Acc] {chain : State Acc Auth W cfg}
    (hf : Follows AuthSign chain is) (hw : Run.run step .fresh is = w)
    (hc : w.stored.stateInfo ≠ none) (keys : StorageKeys chain w.stored.state)
    (is' : List (Input Acc Auth Sign W cfg)) :
    (((Run.run step .fresh is').recovered (fetchCheckpoint w.stored keys)).stored = w.stored ↔
      w.stored.state.lmpConfig = none) ∧
    (w.stored.state.lmpConfig = none → ∀ (chain' : State Acc Auth W cfg)
      (agg : Aggregator Acc Sign) (nextNonce : ℕ) (summary : SnapshotSummary Acc),
      checkpointBlocks ≤ nextNonce - (Run.run step .fresh is').info.snapshotId →
      agg.checkpoint = some (fetchCheckpoint w.stored keys) →
      chain'.snapshots w.stored.loadStateInfo.snapshotId = some summary →
      summary.stateHash = TrieRoot.root w.stored →
      loadCheckpoint chain' agg nextNonce (Run.run step .fresh is') =
        .ok ((Run.run step .fresh is').recovered (fetchCheckpoint w.stored keys),
          summary.snapshotId)) := by
  have hiff := stored_recovered_iff hf hw hc keys is'
  refine ⟨hiff, fun hl chain' agg nextNonce summary hn ha hs hroot => ?_⟩
  have hstored := hiff.mpr hl
  simp only [recovered] at hstored
  have hs' : chain'.snapshots (fetchCheckpoint w.stored keys).snapshotId = some summary := hs
  simp only [loadCheckpoint, if_pos hn, ha, hs', hstored, hroot, if_true, recovered]

end Worker

end RoundTrip

namespace Mock

@[reducible]
def snapshotRoot : TrieRoot Account where
  root trie := trie.loadStateInfo.snapshotId

attribute [local instance] Decimal.HalfEven.arith percent snapshotRoot

-- The keys, if only the second account may have a balance, in the native currency.
def keysOf (chain : State Account ℕ World config) (s : OffchainState Account)
    (h : ∀ account asset, (s.entry account asset).isSome → account = 2 ∧ asset = .polkadex) :
    StorageKeys chain s where
  accountIds := (List.finRange 8).filter fun account => (chain.accounts account).isSome
  assets account := [AssetId.polkadex].filter fun asset => (s.entry account asset).isSome
  mem_accountIds account := by simp
  mem_assets account asset := by
    simp only [List.mem_filter, List.mem_singleton, and_iff_right_iff_imp]
    exact fun hs => (h account asset hs).2

def importBatch : UserActionBatch Account Sig where
  actions := [.blockImport 1 (fun _ => none) ∅]
  stid := 1
  snapshotId := 1
  signature := (0, .withdrawal ⟨.polkadex, "", 0, none⟩)

theorem follows_importBatch {chain : State Account ℕ World config} (h : chain.Reachable AuthSig) :
    Worker.Follows AuthSig chain [(chain, importBatch)] := by
  intro i hi
  rw [mem_singleton.mp hi]
  exact ⟨h, [], Run.run_nil⟩

def depositCalls : List (Call Account ℕ AuthSig) :=
  [.setExchangeState true, .allowlistToken .polkadex, .nextBlock,
    .deposit 0 2 .polkadex unitBalance]

def deposited : State Account ℕ World config :=
  Run.run step (.genesis [] fun _ _ => unitBalance) depositCalls

def holding : Worker Account :=
  Run.run Worker.step .fresh [(deposited, importBatch)]

theorem entry_holding (account : Account) (asset : AssetId) :
    (holding.stored.state.entry account asset).isSome → account = 2 ∧ asset = .polkadex := by
  have hs : holding.stored.state = empty.setEntry 2 .polkadex
    (holding.stored.state.getBalance 2 .polkadex) := rfl
  rw [hs, entry_setEntry]
  split_ifs with h
  · exact fun _ => h
  · exact fun hn => by simp [entry, empty, Store.empty] at hn

theorem deposit_reproduced :
    (Worker.fresh.recovered (fetchCheckpoint holding.stored
      (keysOf deposited _ entry_holding))).stored = holding.stored := by
  have hf : Worker.Follows AuthSig deposited [(deposited, importBatch)] :=
    follows_importBatch ⟨_, _, _, rfl⟩
  have hc : holding.stored.stateInfo ≠ none := by decide +kernel
  exact (Worker.checkpoint_reproduces_iff hf rfl hc _ []).1.mpr rfl

def epochCalls : List (Call Account ℕ AuthSig) :=
  [.setExchangeState true, .allowlistToken pair.base, .allowlistToken pair.quote,
    .registerTradingPair pair.base pair.quote (10 ^ 4) (10 ^ 18) (10 ^ 6) (10 ^ 9),
    .setLmpEpochConfig none none [⟨pair, unitBalance, 0, 0, 0, 0⟩] none none, .nextBlock,
    .startNewEpochLmp]

def epochBegun : State Account ℕ World config :=
  Run.run step (.genesis [] fun _ _ => unitBalance) epochCalls

def mining : Worker Account :=
  Run.run Worker.step .fresh [(epochBegun, importBatch)]

theorem entry_mining (account : Account) (asset : AssetId) :
    (mining.stored.state.entry account asset).isSome → account = 2 ∧ asset = .polkadex := by
  have hs : mining.stored.state.entry account asset = none := rfl
  simp [hs]

-- The configuration of the epoch is missing in the state that is loaded from the checkpoint.
theorem epoch_not_reproduced : Worker.Follows AuthSig epochBegun [(epochBegun, importBatch)] ∧
    mining.stored.stateInfo ≠ none ∧
    mining.stored.state.lmpConfig = some { epoch := 1, index := 0 } ∧
    (Worker.fresh.recovered (fetchCheckpoint mining.stored
      (keysOf epochBegun _ entry_mining))).stored.state.lmpConfig = none := by
  refine ⟨follows_importBatch ⟨_, _, _, rfl⟩, ?_⟩
  decide +kernel

end Mock

end Ocex
