import PolkadexModel.XcmHelper.Theorems.Mapping

open Function

-- Which deposits are credited or sent on, and which are refused.
namespace XcmHelper

open Ocex (AssetId)

-- What the accounts hold of the currency (`none`) and of the assets. A mint which succeeds credits the whole
-- amount, and the creation of an asset credits nothing.
class Holdings (Acc Id : outParam Type) (B : Type) extends AssetPallets Acc Id B where
  balance : B → Option Id × Acc → ℕ
  mintNative_self {b b' who n} : mintNative b who n = some b' → balance b' (none, who) = balance b (none, who) + n
  mintNative_ne {b b' who n k} : mintNative b who n = some b' → k ≠ (none, who) → balance b' k = balance b k
  create_eq {b b' id who n} : create b id who n = some b' → balance b' = balance b
  mintInto_self {b b' id who n} :
    mintInto b id who n = some b' → balance b' (some id, who) = balance b (some id, who) + n
  mintInto_ne {b b' id who n k} : mintInto b id who n = some b' → k ≠ (some id, who) → balance b' k = balance b k

section

variable {Acc Id B TheaId Sign W : Type} {cfg : TransactorConfig Acc Id}

section Mint

variable [DecidableEq Id]

def Config.holding (cfg : Config Acc Id) (asset : AssetId) : Option Id :=
  if cfg.toId asset = cfg.nativeAssetId then none else some (cfg.toId asset)

-- The pallets can create the asset, if they have to, and mint the amount.
def Mintable [Resolver Acc Id B] (cfg : Config Acc Id) (b : B) (asset : AssetId) (amount : ℕ)
    (who : Acc) : Prop :=
  if cfg.toId asset = cfg.nativeAssetId then ∃ b', Resolver.mintNative b who amount = some b'
  else ∃ b' b'', (if Resolver.assetExists b (cfg.toId asset) then some b
      else Resolver.create b (cfg.toId asset) cfg.palletAccount 1) = some b' ∧
    Resolver.mintInto b' (cfg.toId asset) who amount = some b''

variable [Holdings Acc Id B]

structure Credits (b b' : B) (k : Option Id × Acc) (n : ℕ) : Prop where
  self : Holdings.balance b' k = Holdings.balance b k + n
  others : ∀ k' ≠ k, Holdings.balance b' k' = Holdings.balance b k'

omit [DecidableEq Id] in
theorem balance_of_provide {cfg : Config Acc Id} {b b' : B} {id : Id}
    (h : (if Resolver.assetExists b id then some b else Resolver.create b id cfg.palletAccount 1) = some b') :
    Holdings.balance b' = Holdings.balance b := by
  split_ifs at h
  · rw [Option.some.inj h]
  · exact Holdings.create_eq h

theorem deposit_cases {cfg : Config Acc Id} (s : State Acc Id B cfg) (asset : AssetId) (amount : ℕ)
    (who : Acc) :
    ((s.deposit asset amount who).2 = true ∧ Mintable cfg s.assets asset amount who ∧
      Credits s.assets (s.deposit asset amount who).1.assets (cfg.holding asset, who) amount) ∨
    ((s.deposit asset amount who).2 = false ∧ ¬Mintable cfg s.assets asset amount who ∧
      Holdings.balance (s.deposit asset amount who).1.assets = Holdings.balance s.assets) := by
  by_cases hnative : cfg.toId asset = cfg.nativeAssetId
  case pos =>
    simp only [State.deposit, State.resolveDepositParachain, Mintable, Config.holding, if_pos hnative]
    cases hm : Resolver.mintNative s.assets who amount with
    | none => exact .inr ⟨rfl, by simp, rfl⟩
    | some b => exact .inl ⟨rfl, ⟨b, rfl⟩, Holdings.mintNative_self hm, fun _ hk => Holdings.mintNative_ne hm hk⟩
  case neg =>
    simp only [State.deposit, State.resolveDepositParachain, Mintable, Config.holding, if_neg hnative]
    cases hb : if Resolver.assetExists s.assets (cfg.toId asset) then some s.assets
      else Resolver.create s.assets (cfg.toId asset) cfg.palletAccount 1 with
    | none => exact .inr ⟨rfl, by simp, rfl⟩
    | some b =>
      have hbalance := balance_of_provide hb
      cases hm : Resolver.mintInto b (cfg.toId asset) who amount with
      | none =>
        simp only [hm]
        exact .inr ⟨trivial, by simp [hm], hbalance⟩
      | some b' =>
        simp only [hm]
        refine .inl ⟨trivial, by simp [hm], ?_, fun k hk => ?_⟩
        · rw [Holdings.mintInto_self hm, hbalance]
        · rw [Holdings.mintInto_ne hm hk, hbalance]

end Mint

namespace Transactor

variable {s s' : Transactor Acc Id B TheaId Sign W cfg} {what : MultiAsset} {who : MultiLocation}

def Sends (s s' : Transactor Acc Id B TheaId Sign W cfg) (data : Thea.Bytes) : Prop :=
  ∃ nonce message, s.thea.outgoingMessages (cfg.substrateNetworkId, nonce) = none ∧ message.data = data ∧
    s'.thea.outgoingMessages =
      update s.thea.outgoingMessages (cfg.substrateNetworkId, nonce) (some message)

-- The whole amount is sent on to the beneficiary.
def Queued (s s' : Transactor Acc Id B TheaId Sign W cfg) (what : MultiAsset) (who : MultiLocation) : Prop :=
  ∃ deposit recipient, what.kind = .fungible deposit.amount ∧ deposit.assetId = cfg.assetIdOf what.id ∧
    extractDataFromMultilocation who = some (recipient, deposit.extra) ∧
    deposit.recipient = cfg.fromBytes recipient ∧ Sends s s' (cfg.encodeDeposits [deposit])

variable [DecidableEq Id] [Holdings Acc Id B]

-- The whole amount is credited to the sibling.
def Credited (s s' : Transactor Acc Id B TheaId Sign W cfg) (what : MultiAsset) (who : MultiLocation) : Prop :=
  ∃ account amount, cfg.convertSibling who = some account ∧ what.kind = .fungible amount ∧
    Credits s.assets s'.assets (cfg.holding (cfg.assetIdOf what.id), account) amount

structure Untouched (s s' : Transactor Acc Id B TheaId Sign W cfg) : Prop where
  balances : Holdings.balance s'.assets = Holdings.balance s.assets
  messages : s'.thea.outgoingMessages = s.thea.outgoingMessages

def HonouredOrRefused (s : Transactor Acc Id B TheaId Sign W cfg) (what : MultiAsset)
    (who : MultiLocation) : Prop :=
  match s.depositAsset what who with
  | (s', .ok _)    => Credited s s' what who ∨ Queued s s' what who
  | (s', .error _) => Untouched s s'

omit [DecidableEq Id] [Holdings Acc Id B] in
theorem not_sends_of_eq (h : s'.thea.outgoingMessages = s.thea.outgoingMessages) : ¬Sends s s' data := by
  rintro ⟨nonce, message, hfree, -, hsent⟩
  have hslot := congrFun (h.symm.trans hsent) (cfg.substrateNetworkId, nonce)
  rw [hfree, update_self] at hslot
  cases hslot

omit [DecidableEq Id] [Holdings Acc Id B] in
theorem frame_generate : (s.generateAssetIdForParachain asset).1.assets = s.assets ∧
      (s.generateAssetIdForParachain asset).1.thea = s.thea := by
  obtain h | ⟨-, -, h⟩ := s.generateAssetIdForParachain_cases asset <;> rw [h] <;> exact ⟨rfl, rfl⟩

-- The deposit of a sibling is reported as made, whether it was made or not.
theorem depositSibling_cases (s : Transactor Acc Id B TheaId Sign W cfg) (what : MultiAsset)
    (who : MultiLocation) (assetId : AssetId) (account : Acc) (amount : ℕ) :
    (s.depositSibling what who assetId account amount).thea = s.thea ∧
      ((Mintable cfg.toConfig s.assets assetId amount account ∧
          Credits s.assets (s.depositSibling what who assetId account amount).assets
            (cfg.holding assetId, account) amount) ∨
        (¬Mintable cfg.toConfig s.assets assetId amount account ∧
          Holdings.balance (s.depositSibling what who assetId account amount).assets = Holdings.balance s.assets)) := by
  simp only [depositSibling]
  obtain ⟨hok, hm, h⟩ | ⟨hok, hm, h⟩ := deposit_cases s.toState assetId amount account
  · rw [if_pos hok]
    exact ⟨rfl, .inl ⟨hm, h⟩⟩
  · rw [hok]
    exact ⟨rfl, .inr ⟨hm, h⟩⟩

omit [DecidableEq Id] in
theorem untouched_generate : Untouched s (s.generateAssetIdForParachain asset).1  where
  balances := by rw [frame_generate.1]
  messages := by rw [frame_generate.2]

theorem honouredOrRefused_sibling (hc : cfg.convertSibling who = some account)
    (hk : what.kind = .fungible amount) : HonouredOrRefused s what who ↔
      (0 < amount → Mintable cfg.toConfig s.assets (cfg.assetIdOf what.id) amount account) := by
  have hdeposit : s.depositAsset what who =
      ((s.generateAssetIdForParachain what.id).1.depositSibling what who (cfg.assetIdOf what.id) account amount,
        .ok ()) := by
    simp only [depositAsset, hc, hk, getAmount, snd_generateAssetIdForParachain]
  obtain ⟨hthea, h⟩ := depositSibling_cases (s.generateAssetIdForParachain what.id).1 what who
    (cfg.assetIdOf what.id) account amount
  rw [frame_generate.2] at hthea
  rw [frame_generate.1] at h
  simp only [HonouredOrRefused, hdeposit]
  obtain ⟨hm, hcredits⟩ | ⟨hm, hbalance⟩ := h
  · exact iff_of_true (.inl ⟨account, amount, hc, hk, hcredits⟩) fun _ => hm
  · -- Nothing is credited and nothing is sent: this is right only if there is nothing to credit.
    constructor
    case mp =>
      rintro (⟨account', amount', hc', hk', hcredits⟩ | ⟨_, _, _, _, _, _, hsends⟩) hpos
      · cases hk.symm.trans hk'
        have hself := hcredits.self
        rw [hbalance] at hself
        omega
      · exact absurd hsends (not_sends_of_eq (by rw [hthea]))
    case mpr =>
      intro hmint
      obtain rfl : amount = 0 := Nat.eq_zero_of_not_pos fun hpos => hm (hmint hpos)
      exact .inl ⟨account, 0, hc, hk, by rw [hbalance, add_zero], fun _ _ => by rw [hbalance]⟩

omit [DecidableEq Id] in
theorem queueDeposit_cases (s : Transactor Acc Id B TheaId Sign W cfg) (what : MultiAsset)
    (who : MultiLocation) (recipient : Acc) (extra : ExtraData) (amount : ℕ) :
    (∃ s' id, s.queueDeposit what who recipient extra amount = (s', .ok ()) ∧
      Sends s s' (cfg.encodeDeposits [⟨id, recipient, cfg.assetIdOf what.id, amount, extra⟩])) ∨
    ∃ s', s.queueDeposit what who recipient extra amount = (s', .error (.trap 102)) ∧ Untouched s s' := by
  obtain ⟨hassets, hthea⟩ : (s.generateAssetIdForParachain what.id).1.assets = s.assets ∧
    (s.generateAssetIdForParachain what.id).1.thea = s.thea := frame_generate
  simp only [queueDeposit, newRandomId, snd_generateAssetIdForParachain, hthea, Thea.State.executeWithdrawals]
  split
  case h_1 e he => exact .inr ⟨_, rfl, by rw [hassets], rfl⟩
  case h_2 thea he =>
    split_ifs at he with hslot
    cases he
    exact .inl ⟨_, _, rfl, _, _, Option.not_isSome_iff_eq_none.mp hslot, rfl, rfl⟩

theorem honouredOrRefused_queue (hc : cfg.convertSibling who = none) : HonouredOrRefused s what who := by
  have hgenerate : Untouched s (s.generateAssetIdForParachain what.id).1 := untouched_generate
  simp only [HonouredOrRefused, depositAsset, hc]
  cases hw : extractDataFromMultilocation who with
  | none => exact hgenerate
  | some data =>
    cases hk : what.kind with
    | nonFungible _ => exact hgenerate
    | fungible amount =>
      simp only [getAmount]
      obtain ⟨s', id, h, nonce, message, hfree, hdata, hsent⟩ | ⟨s', h, hbalances, hmessages⟩ :=
        queueDeposit_cases (s.generateAssetIdForParachain what.id).1 what who (cfg.fromBytes data.1) data.2 amount
      · rw [hgenerate.messages] at hfree hsent
        rw [h]
        exact .inr ⟨⟨id, _, _, amount, data.2⟩, data.1, hk, rfl, hw, rfl, nonce, message, hfree, hdata, hsent⟩
      · rw [h]
        exact ⟨hbalances.trans hgenerate.balances, hmessages.trans hgenerate.messages⟩

theorem honouredOrRefused_of_nonFungible
    (hc : cfg.convertSibling who = some account) (hk : what.kind = .nonFungible instanceId) :
    HonouredOrRefused s what who := by
  simp only [HonouredOrRefused, depositAsset, hc, hk, getAmount]
  exact untouched_generate

-- What fails without an error is the mint for a sibling.
theorem honoured_or_refused_iff (s : Transactor Acc Id B TheaId Sign W cfg) (what : MultiAsset)
    (who : MultiLocation) :
    HonouredOrRefused s what who ↔
      ∀ account amount, cfg.convertSibling who = some account → what.kind = .fungible amount → 0 < amount →
        Mintable cfg.toConfig s.assets (cfg.assetIdOf what.id) amount account := by
  cases hc : cfg.convertSibling who with
  | none => exact iff_of_true (honouredOrRefused_queue hc) (by simp)
  | some account =>
    cases hk : what.kind with
    | fungible amount =>
      rw [honouredOrRefused_sibling hc hk]
      simp
    | nonFungible instanceId => exact iff_of_true (honouredOrRefused_of_nonFungible hc hk) (by simp)

end Transactor

end

namespace Transactor.Mock

def credit (b : Option ℕ × ℕ → ℕ) (k : Option ℕ × ℕ) (n : ℕ) : Option ℕ × ℕ → ℕ :=
  update b k (b k + n)

def mint (b : Option ℕ × ℕ → ℕ) (k : Option ℕ × ℕ) (n : ℕ) : Option (Option ℕ × ℕ → ℕ) :=
  if n ≤ 100 then some (credit b k n) else none

section Mint

variable {b b' : Option ℕ × ℕ → ℕ} {k k' : Option ℕ × ℕ} {n : ℕ}

theorem eq_credit_of_mint (h : mint b k n = some b') : b' = credit b k n := by
  rw [mint] at h
  split_ifs at h
  exact (Option.some.inj h).symm

theorem mint_self (h : mint b k n = some b') : b' k = b k + n := by
  rw [eq_credit_of_mint h, credit, update_self]

theorem mint_ne (h : mint b k n = some b') (hk : k' ≠ k) : b' k' = b k' := by
  rw [eq_credit_of_mint h, credit, update_of_ne hk]

theorem create_self (h : some b = some b') : b' = b :=
  (Option.some.inj h).symm

end Mint

local instance holdings : Holdings ℕ ℕ (Option ℕ × ℕ → ℕ) where
  mintNative b who n := mint b (none, who) n
  assetExists _ _ := true
  create b _ _ _ := some b
  mintInto b id who n := mint b (some id, who) n
  burnNative b _ _ := some b
  burnFrom b _ _ _ := some b
  transferNative b _ _ _ := some b
  transfer b _ _ _ _ := some b
  balance b := b
  mintNative_self := mint_self
  mintNative_ne := mint_ne
  create_eq := create_self
  mintInto_self := mint_self
  mintInto_ne := mint_ne

-- Every asset has the id 3. A parachain is a sibling, and its account has its number.
def siblings : TransactorConfig ℕ ℕ where
  palletAccount := 1
  nativeAssetId := 0
  maxWithdrawalsPerBlock := 2
  toId
    | .polkadex => 0
    | .asset id => id
  decodeLocation _ := none
  decodeAccount _ := none
  convertSibling
    | ⟨1, [.parachain id]⟩ => some id
    | _                    => none
  parachainId := 2040
  substrateNetworkId := 1
  hashAsset _ := 3
  hashNonce _ nonce := nonce
  encodeDeposits _ := []
  fromBytes _ := 7
  convertAccount _ := none
  transactional := true

def empty : Transactor ℕ ℕ (Option ℕ × ℕ → ℕ) Unit Unit Unit siblings where
  pendingWithdrawals _ := []
  failedWithdrawals _ := []
  parachainAssets _ := none
  assets _ := 0
  issued := []
  events := []
  whitelistedTokens := []
  randomnessNonce := 0
  thea := .genesis [] ()
  reports := []

def relayAsset (amount : ℕ) : MultiAsset :=
  ⟨.concrete relay, .fungible amount⟩

theorem mintable_iff :
    Mintable siblings.toConfig empty.assets (siblings.assetIdOf (.concrete relay)) amount 5 ↔ amount ≤ 100 := by
  have hid : siblings.toId (siblings.assetIdOf (.concrete relay)) ≠ siblings.nativeAssetId := by decide
  rw [Mintable, if_neg hid]
  constructor
  case mp =>
    rintro ⟨b, b', -, hm⟩
    by_contra hlarge
    exact Option.some_ne_none b' (hm.symm.trans (if_neg hlarge))
  case mpr => exact fun hsmall => ⟨_, _, rfl, if_pos hsmall⟩

theorem small_deposit_honoured : HonouredOrRefused empty (relayAsset 100) sibling := by
  refine (honoured_or_refused_iff empty (relayAsset 100) sibling).mpr fun account amount hc hk _ => ?_
  cases hc
  cases hk
  exact mintable_iff.mpr le_rfl

-- The mint fails, and success is returned.
theorem failed_deposit_accepted :
    (empty.depositAsset (relayAsset 101) sibling).2 = .ok () ∧
      (empty.depositAsset (relayAsset 101) sibling).1.assets = empty.assets ∧
      ¬HonouredOrRefused empty (relayAsset 101) sibling := by
  refine ⟨rfl, rfl, fun h => ?_⟩
  have hm := (honouredOrRefused_sibling rfl rfl).mp h (by decide)
  exact absurd (mintable_iff.mp hm) (by decide)

end Transactor.Mock

end XcmHelper
