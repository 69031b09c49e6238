import PolkadexModel.XcmHelper.Transactor
import Mathlib.Data.Countable.Basic
import Mathlib.Logic.Equiv.List
import Mathlib.Tactic.DeriveCountable

open Function Option

-- The ids of the assets and the locations that are stored for them.
namespace XcmHelper

open Ocex (AssetId)

section

variable {Acc Id B TheaId Sign W : Type} {cfg : TransactorConfig Acc Id}

def TransactorConfig.assetIdOf (cfg : TransactorConfig Acc Id) (asset : XcmAssetId) : AssetId :=
  if cfg.isNative asset then .polkadex else .asset (cfg.hashAsset asset)

namespace TransactorConfig

variable {asset asset' : XcmAssetId}

theorem isNative_iff :
    cfg.isNative asset ↔ asset = .concrete cfg.ownLocation ∨ asset = .concrete ⟨0, []⟩ := by
  simp [isNative]

theorem assetIdOf_of_isNative (h : cfg.isNative asset) : cfg.assetIdOf asset = .polkadex :=
  if_pos h

theorem assetIdOf_of_not_isNative (h : ¬cfg.isNative asset) : cfg.assetIdOf asset = .asset (cfg.hashAsset asset) :=
  if_neg h

-- The native asset is the only one with two spellings.
theorem eq_or_isNative_of_assetIdOf_eq (hinj : Injective cfg.hashAsset)
    (h : cfg.assetIdOf asset = cfg.assetIdOf asset') :
    asset = asset' ∨ (cfg.isNative asset ∧ cfg.isNative asset') := by
  by_cases hn : cfg.isNative asset <;> by_cases hn' : cfg.isNative asset'
  case pos => exact .inr ⟨hn, hn'⟩
  case neg => rw [assetIdOf_of_isNative hn, assetIdOf_of_not_isNative hn'] at h; cases h
  case pos => rw [assetIdOf_of_not_isNative hn, assetIdOf_of_isNative hn'] at h; cases h
  case neg =>
    rw [assetIdOf_of_not_isNative hn, assetIdOf_of_not_isNative hn'] at h
    exact .inl (hinj (AssetId.asset.inj h))

theorem eq_of_assetIdOf_eq (hinj : Injective cfg.hashAsset) (hn : ¬cfg.isNative asset)
    (h : cfg.assetIdOf asset' = cfg.assetIdOf asset) : asset' = asset :=
  (eq_or_isNative_of_assetIdOf_eq hinj h).resolve_right fun hboth => hn hboth.2

end TransactorConfig

namespace Transactor

variable {s s' : Transactor Acc Id B TheaId Sign W cfg} {asset : XcmAssetId} {call : Call}

section Generate

theorem snd_generateAssetIdForParachain :
    (s.generateAssetIdForParachain asset).2 = cfg.assetIdOf asset := by
  rw [generateAssetIdForParachain, TransactorConfig.assetIdOf]
  split_ifs <;> rfl

theorem generateAssetIdForParachain_of_isNative (h : cfg.isNative asset) :
    (s.generateAssetIdForParachain asset).1 = s := by
  rw [generateAssetIdForParachain, if_pos h]

theorem generateAssetIdForParachain_of_isSome (h : (s.parachainAssets (cfg.assetIdOf asset)).isSome) :
    (s.generateAssetIdForParachain asset).1 = s := by
  by_cases hn : cfg.isNative asset
  case pos => exact generateAssetIdForParachain_of_isNative hn
  case neg =>
    rw [TransactorConfig.assetIdOf_of_not_isNative hn] at h
    simp only [generateAssetIdForParachain, if_neg hn, if_pos h]

theorem generateAssetIdForParachain_of_eq_none (hn : ¬cfg.isNative asset)
    (h : s.parachainAssets (cfg.assetIdOf asset) = none) :
    (s.generateAssetIdForParachain asset).1 = s.insertParachainAsset (cfg.assetIdOf asset) asset := by
  rw [TransactorConfig.assetIdOf_of_not_isNative hn] at h ⊢
  simp [generateAssetIdForParachain, hn, h]

theorem generateAssetIdForParachain_cases (s : Transactor Acc Id B TheaId Sign W cfg) (asset : XcmAssetId) :
    (s.generateAssetIdForParachain asset).1 = s ∨
      (¬cfg.isNative asset ∧ s.parachainAssets (cfg.assetIdOf asset) = none ∧
        (s.generateAssetIdForParachain asset).1 = s.insertParachainAsset (cfg.assetIdOf asset) asset) := by
  by_cases hn : cfg.isNative asset
  case pos => exact .inl (generateAssetIdForParachain_of_isNative hn)
  case neg =>
    cases hm : s.parachainAssets (cfg.assetIdOf asset) with
    | none => exact .inr ⟨hn, rfl, generateAssetIdForParachain_of_eq_none hn hm⟩
    | some _ => exact .inl (generateAssetIdForParachain_of_isSome (isSome_of_eq_some hm))

theorem generateAssetIdForParachain_twice :
    ((s.generateAssetIdForParachain asset).1.generateAssetIdForParachain asset).1 =
      (s.generateAssetIdForParachain asset).1 := by
  obtain h | ⟨-, -, h⟩ := s.generateAssetIdForParachain_cases asset
  · rw [h, h]
  · exact generateAssetIdForParachain_of_isSome (by simp [h, insertParachainAsset])

end Generate

-- What a call does to the map: an asset is stored under its own id when it is first used, and governance
-- stores what it likes.
inductive Maps (cfg : TransactorConfig Acc Id) (m : AssetId → Option XcmAssetId) :
    Call → (AssetId → Option XcmAssetId) → Prop
  | same (call : Call) : Maps cfg m call m
  | first (call : Call) (asset : XcmAssetId) (native : ¬cfg.isNative asset)
      (fresh : m (cfg.assetIdOf asset) = none) :
      Maps cfg m call (update m (cfg.assetIdOf asset) (some asset))
  | insert (assetId : AssetId) (asset : XcmAssetId) :
      Maps cfg m (.insertAsset assetId asset) (update m assetId (some asset))

theorem maps_generate (s : Transactor Acc Id B TheaId Sign W cfg) (asset : XcmAssetId) (call : Call) :
    Maps cfg s.parachainAssets call (s.generateAssetIdForParachain asset).1.parachainAssets := by
  obtain h | ⟨hn, hm, h⟩ := s.generateAssetIdForParachain_cases asset
  · rw [h]
    exact .same call
  · rw [h]
    exact .first call asset hn hm

section Dispatch

variable [DecidableEq Id] [AssetPallets Acc Id B]

theorem parachainAssets_deposit (s : State Acc Id B cfg.toConfig) (asset : AssetId) (amount : ℕ)
    (who : Acc) : (s.deposit asset amount who).1.parachainAssets = s.parachainAssets := by
  simp only [State.deposit, State.resolveDepositParachain]
  repeat' split
  all_goals rfl

theorem parachainAssets_depositSibling :
    (s.depositSibling what who assetId account amount).parachainAssets = s.parachainAssets := by
  simp only [depositSibling]
  split <;> exact parachainAssets_deposit ..

omit [DecidableEq Id] [AssetPallets Acc Id B] in
theorem parachainAssets_queueDeposit : (s.queueDeposit what who recipient extra amount).1.parachainAssets =
      (s.generateAssetIdForParachain what.id).1.parachainAssets := by
  simp only [queueDeposit]
  split <;> rfl

omit [DecidableEq Id] [AssetPallets Acc Id B] in
theorem parachainAssets_withAssets : (s.withAssets code assets).1.parachainAssets = s.parachainAssets := by
  cases assets <;> rfl

theorem maps_depositAsset (what : MultiAsset) (who : MultiLocation) :
    Maps cfg s.parachainAssets call (s.depositAsset what who).1.parachainAssets := by
  have hmaps := maps_generate s what.id call
  simp only [depositAsset]
  split
  · split
    · exact hmaps
    · rwa [parachainAssets_depositSibling]
  · split
    · exact hmaps
    · split
      · exact hmaps
      · rwa [parachainAssets_queueDeposit, generateAssetIdForParachain_twice]

theorem maps_withdrawAsset (what : MultiAsset) (who : MultiLocation) :
    Maps cfg s.parachainAssets call (s.withdrawAsset what who).1.parachainAssets := by
  rw [withdrawAsset]
  split
  · exact .same call
  · exact .same call
  · rw [parachainAssets_withAssets]
    exact maps_generate s what.id call

theorem maps_transferAsset (asset : MultiAsset) (source target : MultiLocation) :
    Maps cfg s.parachainAssets call (s.transferAsset asset source target).1.parachainAssets := by
  rw [transferAsset]
  split
  · rw [parachainAssets_withAssets]
    exact maps_generate s asset.id call
  · exact .same call
  · exact .same call

omit [DecidableEq Id] [AssetPallets Acc Id B] in
theorem maps_of_commit
    (hmaps : Maps cfg s.parachainAssets call result.1.parachainAssets) (h : commit result = some s') :
    Maps cfg s.parachainAssets call s'.parachainAssets := by
  rw [commit] at h
  repeat' split at h
  all_goals cases h
  all_goals exact hmaps

theorem maps_of_whitelistToken (h : s.whitelistToken token = some s') :
    Maps cfg s.parachainAssets call s'.parachainAssets := by
  simp only [whitelistToken, bind_eq_bind, bind_eq_some_iff, pure_def] at h
  obtain ⟨-, -, -, -, -, -, assets, -, he⟩ := h
  cases he
  exact maps_generate s token call

omit [DecidableEq Id] [AssetPallets Acc Id B] in
theorem maps_of_removeWhitelistedToken (h : s.removeWhitelistedToken token = some s') :
    Maps cfg s.parachainAssets call s'.parachainAssets := by
  simp only [removeWhitelistedToken, bind_eq_bind, bind_eq_some_iff, pure_def] at h
  obtain ⟨-, -, he⟩ := h
  cases he
  exact maps_generate s token call

theorem parachainAssets_processWithdrawal (l : Loop Acc Id B cfg.toConfig) (w : Withdraw) :
    (l.processWithdrawal w).state.parachainAssets = l.state.parachainAssets := by
  have hresume (l : Loop Acc Id B cfg.toConfig) (e : Event)
      (r : State Acc Id B cfg.toConfig × Bool) :
      (l.resume w e r).state.parachainAssets = r.1.parachainAssets := by
    rw [Loop.resume]
    split <;> rfl
  have hdeposit (l : Loop Acc Id B cfg.toConfig) (asset : AssetId) (amount : ℕ) (who : Acc) :
      (l.deposit w asset amount who).state.parachainAssets = l.state.parachainAssets := by
    rw [Loop.deposit, hresume, parachainAssets_deposit]
  have hhandle (location : VersionedMultiLocation) :
      (l.state.handleDeposit w location).1.parachainAssets = l.state.parachainAssets := by
    rw [State.handleDeposit]
    split
    · rfl
    · exact parachainAssets_deposit ..
  simp only [Loop.processWithdrawal]
  repeat' split
  all_goals simp only [hresume, hdeposit, hhandle, Loop.fail, State.depositEvent]

theorem parachainAssets_handleNewPendingWithdrawals (s : State Acc Id B cfg.toConfig) (n : ℕ) :
    (s.handleNewPendingWithdrawals n).parachainAssets = s.parachainAssets := by
  have hloop := Run.foldl_frame (fun l : Loop Acc Id B cfg.toConfig => l.state.parachainAssets)
    parachainAssets_processWithdrawal ⟨s.requeue n, []⟩ (s.toProcess n)
  rw [State.handleNewPendingWithdrawals]
  split <;> exact hloop

theorem maps_of_dispatch (h : s.dispatch call = some s') :
    Maps cfg s.parachainAssets call s'.parachainAssets := by
  cases call with
  | depositAsset what who => exact maps_of_commit (maps_depositAsset what who) h
  | withdrawAsset what who => exact maps_of_commit (maps_withdrawAsset what who) h
  | transferAsset asset source target => exact maps_of_commit (maps_transferAsset asset source target) h
  | convertLocationToAssetId location =>
    cases h
    exact maps_generate s (.concrete location) _
  | whitelistToken token => exact maps_of_whitelistToken h
  | removeWhitelistedToken token => exact maps_of_removeWhitelistedToken h
  | insertAsset assetId asset =>
    cases h
    exact .insert assetId asset
  | onInitialize n =>
    cases h
    exact parachainAssets_handleNewPendingWithdrawals s.toState n ▸ .same _

theorem maps_exec (s : Transactor Acc Id B TheaId Sign W cfg) (call : Call) :
    Maps cfg s.parachainAssets call (Run.exec dispatch s call).parachainAssets := by
  obtain h | ⟨-, h⟩ := Run.exec_cases dispatch s call
  · exact maps_of_dispatch h
  · rw [h]
    exact .same call

end Dispatch

-- A location is converted to an id, and the id to a location.
def goAndBack (s : Transactor Acc Id B TheaId Sign W cfg) (location : MultiLocation) : Option MultiLocation :=
  (s.convertLocationToAssetId location).1.convertAssetIdToLocation (s.convertLocationToAssetId location).2

section GoAndBack

variable {location : MultiLocation}

theorem convertAssetIdToLocation_eq_some :
    s.convertAssetIdToLocation assetId = some location ↔ s.parachainAssets assetId = some (.concrete location) := by
  rw [convertAssetIdToLocation]
  split <;> simp_all

theorem goAndBack_eq_some :
    s.goAndBack location = some location ↔
      (s.generateAssetIdForParachain (.concrete location)).1.parachainAssets (cfg.assetIdOf (.concrete location)) =
        some (.concrete location) := by
  rw [goAndBack, convertLocationToAssetId, convertAssetIdToLocation_eq_some, snd_generateAssetIdForParachain]

theorem goAndBack_of_isNative (h : cfg.isNative (.concrete location)) :
    s.goAndBack location = some location ↔ s.parachainAssets .polkadex = some (.concrete location) := by
  rw [goAndBack_eq_some, generateAssetIdForParachain_of_isNative h, TransactorConfig.assetIdOf_of_isNative h]

theorem goAndBack_of_not_isNative (h : ¬cfg.isNative (.concrete location)) :
    s.goAndBack location = some location ↔
      ∀ stored, s.parachainAssets (cfg.assetIdOf (.concrete location)) = some stored →
        stored = .concrete location := by
  rw [goAndBack_eq_some]
  cases hm : s.parachainAssets (cfg.assetIdOf (.concrete location)) with
  | none => simp [generateAssetIdForParachain_of_eq_none h hm, insertParachainAsset]
  | some stored =>
    rw [generateAssetIdForParachain_of_isSome (isSome_of_eq_some hm), hm]
    simp

end GoAndBack

-- Governance does not change what is stored, and stores under the id of a location only the location.
def Proper (s : Transactor Acc Id B TheaId Sign W cfg) : Call → Prop
  | .insertAsset assetId asset =>
    (∀ stored, s.parachainAssets assetId = some stored → asset = stored) ∧
      ∀ location, ¬cfg.isNative (.concrete location) → cfg.assetIdOf (.concrete location) = assetId →
        asset = .concrete location
  | _ => True

-- The step lemmas, for what is stored and for what is found again.
section Step

variable {m m' : AssetId → Option XcmAssetId}

theorem stored_of_maps (hmaps : Maps cfg m call m')
    (hp : ∀ assetId asset stored, call = .insertAsset assetId asset → m assetId = some stored → asset = stored)
 (h : m assetId = some stored) : m' assetId = some stored := by
  cases hmaps with
  | same => exact h
  | first _ asset _ hfresh =>
    have hne : assetId ≠ cfg.assetIdOf asset := by
      rintro rfl
      rw [hfresh] at h
      cases h
    rw [update_of_ne hne, h]
  | insert assetId' asset =>
    by_cases heq : assetId = assetId'
    case pos => rw [heq, update_self, hp assetId' asset stored rfl (heq ▸ h)]
    case neg => rw [update_of_ne heq, h]

theorem found_of_maps (hinj : Injective cfg.hashAsset) (hmaps : Maps cfg m call m')
    (hn : ¬cfg.isNative (.concrete location))
    (hp : ∀ asset, call = .insertAsset (cfg.assetIdOf (.concrete location)) asset → asset = .concrete location)
    (h : ∀ stored, m (cfg.assetIdOf (.concrete location)) = some stored → stored = .concrete location)
 (hs : m' (cfg.assetIdOf (.concrete location)) = some stored) : stored = .concrete location := by
  cases hmaps with
  | same => exact h stored hs
  | first _ asset _ _ =>
    by_cases heq : cfg.assetIdOf (.concrete location) = cfg.assetIdOf asset
    case pos =>
      rw [heq, update_self] at hs
      rw [← some.inj hs, TransactorConfig.eq_of_assetIdOf_eq hinj hn heq.symm]
    case neg => exact h stored (by rwa [update_of_ne heq] at hs)
  | insert assetId asset =>
    by_cases heq : cfg.assetIdOf (.concrete location) = assetId
    case pos =>
      rw [heq, update_self] at hs
      rw [← some.inj hs, hp asset (by rw [heq])]
    case neg => exact h stored (by rwa [update_of_ne heq] at hs)

end Step

section Runs

variable [DecidableEq Id] [AssetPallets Acc Id B]

-- At every time of a run, the locations which are not native are found again, and what is stored for an id
-- stays.
structure StableBijection (s : Transactor Acc Id B TheaId Sign W cfg) (calls : List Call) : Prop where
  returns : ∀ before, before <+: calls → ∀ location, ¬cfg.isNative (.concrete location) →
    (Run.run dispatch s before).goAndBack location = some location
  stable : ∀ before after, before ++ after <+: calls → ∀ assetId asset,
    (Run.run dispatch s before).parachainAssets assetId = some asset →
      (Run.run dispatch s (before ++ after)).parachainAssets assetId = some asset

theorem Proper.stored_exec (hp : s.Proper call) (h : s.parachainAssets assetId = some stored) :
    (Run.exec dispatch s call).parachainAssets assetId = some stored := by
  refine stored_of_maps (maps_exec s call) (fun assetId asset stored hcall hs => ?_) h
  subst hcall
  exact hp.1 stored hs

theorem Proper.goAndBack_exec (hinj : Injective cfg.hashAsset) (hp : s.Proper call)
    (hn : ¬cfg.isNative (.concrete location)) (h : s.goAndBack location = some location) :
    (Run.exec dispatch s call).goAndBack location = some location := by
  rw [goAndBack_of_not_isNative hn] at h ⊢
  refine fun stored => found_of_maps hinj (maps_exec s call) hn (fun asset hcall => ?_) h
  subst hcall
  exact hp.2 location hn rfl

theorem stableBijection_of_along (hinj : Injective cfg.hashAsset)
    (hs : ∀ assetId, s.parachainAssets assetId = none)
    (h : Run.Along dispatch Proper s calls) : StableBijection s calls  where
  returns before hbefore location hn := by
    obtain ⟨after, rfl⟩ := hbefore
    refine h.of_append.invariant ?_ fun _ _ hp => hp.goAndBack_exec hinj hn
    exact (goAndBack_of_not_isNative hn).mpr fun stored hstored => by simp [hs] at hstored
  stable before after hboth assetId asset hstored := by
    obtain ⟨rest, rfl⟩ := hboth
    have hafter : Run.Along dispatch Proper (Run.run dispatch s before) after :=
      fun e he => h.of_append e (by simp [he])
    rw [Run.run_append]
    exact hafter.invariant hstored fun _ _ hp hm => hp.stored_exec hm

theorem StableBijection.along (h : StableBijection s calls) : Run.Along dispatch Proper s calls := by
  rintro ⟨s', call⟩ he
  obtain ⟨before, after, rfl, rfl⟩ := Run.mem_trace_split he
  have hsplit : before ++ [call] <+: before ++ call :: after := ⟨after, by simp⟩
  cases call with
  | insertAsset assetId asset =>
    have hnow : (Run.run dispatch s (before ++ [.insertAsset assetId asset])).parachainAssets assetId = some asset := by
      rw [Run.run_append]
      exact update_self ..
    refine ⟨fun stored hstored => ?_, fun location hn hid => ?_⟩
    · have hkept := h.stable before [_] hsplit assetId stored hstored
      exact some.inj (hnow.symm.trans hkept)
    · have hreturn := h.returns _ hsplit location hn
      exact (goAndBack_of_not_isNative hn).mp hreturn asset (hid ▸ hnow)
  | _ => trivial

-- For the native asset, a spelling is found again only if governance has stored it.
theorem stable_bijection_iff (hinj : Injective cfg.hashAsset) (s : Transactor Acc Id B TheaId Sign W cfg)
    (hs : ∀ assetId, s.parachainAssets assetId = none) (calls : List Call) :
    (StableBijection s calls ↔ Run.Along dispatch Proper s calls) ∧
    (∀ (s₁ s₂ : Transactor Acc Id B TheaId Sign W cfg) (l₁ l₂ : MultiLocation),
      (s₁.convertLocationToAssetId l₁).2 = (s₂.convertLocationToAssetId l₂).2 →
        l₁ = l₂ ∨ (cfg.isNative (.concrete l₁) ∧ cfg.isNative (.concrete l₂))) ∧
    ∀ location, cfg.isNative (.concrete location) →
      ((Run.run dispatch s calls).goAndBack location = some location ↔
        (Run.run dispatch s calls).parachainAssets .polkadex = some (.concrete location)) := by
  refine ⟨⟨StableBijection.along, stableBijection_of_along hinj hs⟩, fun s₁ s₂ l₁ l₂ h => ?_,
    fun location hn => goAndBack_of_isNative hn⟩
  simp only [convertLocationToAssetId, snd_generateAssetIdForParachain] at h
  obtain h | h := TransactorConfig.eq_or_isNative_of_assetIdOf_eq hinj h
  · exact .inl (XcmAssetId.concrete.inj h)
  · exact .inr h

end Runs

end Transactor

end

namespace Transactor.Mock

local instance : Countable UInt8 :=
  Injective.countable fun _ _ => UInt8.toNat_inj.mp

deriving instance Countable for NetworkId
deriving instance Countable for BodyId
deriving instance Countable for BodyPart
deriving instance Countable for Junction
deriving instance Countable for MultiLocation
deriving instance Countable for XcmAssetId

-- An injective hash.
noncomputable def number : XcmAssetId → ℕ :=
  Classical.choose (Countable.exists_injective_nat XcmAssetId)

theorem number_injective : Injective number :=
  Classical.choose_spec (Countable.exists_injective_nat XcmAssetId)

noncomputable def config : TransactorConfig ℕ ℕ where
  palletAccount := 1
  nativeAssetId := 0
  maxWithdrawalsPerBlock := 2
  toId
    | .polkadex => 0
    | .asset id => id + 1
  decodeLocation _ := none
  decodeAccount _ := none
  convertSibling _ := none
  parachainId := 2040
  substrateNetworkId := 1
  hashAsset := number
  hashNonce _ nonce := nonce
  encodeDeposits _ := []
  fromBytes _ := 7
  convertAccount _ := none
  transactional := false

local instance pallets : AssetPallets ℕ ℕ Unit where
  mintNative b _ _ := some b
  assetExists _ _ := true
  create b _ _ _ := some b
  mintInto b _ _ _ := some b
  burnNative b _ _ := some b
  burnFrom b _ _ _ := some b
  transferNative b _ _ _ := some b
  transfer b _ _ _ _ := some b

def start : Transactor ℕ ℕ Unit Unit Unit Unit config where
  pendingWithdrawals _ := []
  failedWithdrawals _ := []
  parachainAssets _ := none
  assets := ()
  issued := []
  events := []
  whitelistedTokens := []
  randomnessNonce := 0
  thea := .genesis [] ()
  reports := []

def relay : MultiLocation :=
  ⟨1, []⟩

def sibling : MultiLocation :=
  ⟨1, [.parachain 5]⟩

theorem not_isNative_relay : ¬config.isNative (.concrete relay) := by
  simp [TransactorConfig.isNative_iff, TransactorConfig.ownLocation, relay]

-- The beneficiary of the deposit is not understood, but its asset is stored.
def deposit : Call :=
  .depositAsset ⟨.concrete relay, .fungible 1⟩ sibling

noncomputable def insert (location : MultiLocation) : Call :=
  .insertAsset (config.assetIdOf (.concrete relay)) (.concrete location)

theorem parachainAssets_deposit_relay :
    (Run.run dispatch start [deposit]).parachainAssets (config.assetIdOf (.concrete relay)) =
      some (.concrete relay) := by
  have hrun : Run.run dispatch start [deposit] = (start.generateAssetIdForParachain (.concrete relay)).1 := rfl
  rw [hrun, generateAssetIdForParachain_of_eq_none not_isNative_relay rfl]
  exact update_self ..

theorem parachainAssets_insert (location : MultiLocation) :
    (Run.run dispatch start [deposit, insert location]).parachainAssets (config.assetIdOf (.concrete relay)) =
      some (.concrete location) :=
  update_self ..

theorem proper_insert_relay : Run.Along dispatch Proper start [deposit, insert relay] := by
  rw [Run.Along.cons_iff, Run.Along.cons_iff]
  refine ⟨trivial, ⟨fun stored h => ?_, fun location hn hid => ?_⟩, by simp [Run.Along]⟩
  · exact some.inj (parachainAssets_deposit_relay.symm.trans h)
  · exact (TransactorConfig.eq_of_assetIdOf_eq number_injective hn hid.symm)

theorem deposited_and_confirmed : StableBijection start [deposit, insert relay] :=
  (stable_bijection_iff number_injective start (fun _ => rfl) _).1.mpr proper_insert_relay

-- The native asset is not found again, and governance changes what is stored for another one.
theorem locations_lost :
    Injective config.hashAsset ∧ start.goAndBack ⟨0, []⟩ = none ∧
    (Run.run dispatch start [deposit]).parachainAssets (config.assetIdOf (.concrete relay)) =
      some (.concrete relay) ∧
    (Run.run dispatch start [deposit, insert sibling]).parachainAssets (config.assetIdOf (.concrete relay)) =
      some (.concrete sibling) ∧
    (Run.run dispatch start [deposit, insert sibling]).goAndBack relay ≠ some relay := by
  refine ⟨number_injective, rfl, parachainAssets_deposit_relay, parachainAssets_insert sibling, fun h => ?_⟩
  have hfound := (goAndBack_of_not_isNative not_isNative_relay).mp h _ (parachainAssets_insert sibling)
  exact absurd hfound (by decide)

end Transactor.Mock

end XcmHelper
