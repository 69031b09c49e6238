import PolkadexModel.Ocex.Validator
import PolkadexModel.Ocex.Theorems.Conservation

open List

namespace Ocex

variable {Acc Auth Sign W : Type}

theorem check_eq_ok [Decidable p] : check p message = .ok u ↔ p := by
  simp only [check]
  split_ifs with h <;> simp [h]

-- What an order and a withdrawal request have in common: both name a signer for the encoding of their
-- payload, and accept the signature of the main account on its text.
structure Instruction (Acc Sign : Type) where
  main : Acc
  signer : Acc
  signature : Sign
  encoding : Signed Acc
  text : Signed Acc
  encoding_ne_text : encoding ≠ text

def Order.instruction (o : Order Acc Sign) : Instruction Acc Sign where
  main := o.mainAccount
  signer := o.user
  signature := o.signature
  encoding := .order o.payload
  text := .orderText o.payload
  encoding_ne_text := by simp

def WithdrawalRequest.instruction (r : WithdrawalRequest Acc Sign) :
    Instruction Acc Sign where
  main := r.main
  signer := r.proxy
  signature := r.signature
  encoding := .withdrawal r.payload
  text := .withdrawalText r.payload
  encoding_ne_text := by simp

-- A signature is made by one account on one message.
class UnforgeableVerify (Acc Sign : Type) extends Verify Acc Sign where
  unforgeable : ∀ {signature : Sign} {message message' : Signed Acc}
    {account account' : Acc}, verify signature message account →
      verify signature message' account' → message = message' ∧ account = account'

variable [Ord Acc] {cfg : Config}

-- The main account itself, or one of the proxies which are registered for it.
def State.Registered (chain : State Acc Auth W cfg) (main signer : Acc) : Prop :=
  signer = main ∨ ∃ info, chain.accounts main = some info ∧ signer ∈ info.proxies.toList

namespace Instruction

variable (chain : State Acc Auth W cfg) {i : Instruction Acc Sign}

section

variable [Verify Acc Sign]

def Accepted (i : Instruction Acc Sign) : Prop :=
  Verify.verify i.signature i.encoding i.signer ∨ Verify.verify i.signature i.text i.main

-- The instruction was signed by an account that may act for its main account.
def Backed (i : Instruction Acc Sign) : Prop :=
  ∃ signer, chain.Registered i.main signer ∧
    (Verify.verify i.signature i.encoding signer ∨ Verify.verify i.signature i.text signer)

-- The instruction names a registered signer, unless its main account has signed it.
def Vouched (i : Instruction Acc Sign) : Prop :=
  chain.Registered i.main i.signer ∨ Verify.verify i.signature i.text i.main

end

theorem backed_iff_vouched [UnforgeableVerify Acc Sign] (h : i.Accepted) :
    i.Backed chain ↔ i.Vouched chain := by
  constructor
  · rintro ⟨signer, hr, hs⟩
    cases h with
    | inr ht => exact .inr ht
    | inl he =>
      cases hs with
      | inl hs => exact .inl ((UnforgeableVerify.unforgeable he hs).2 ▸ hr)
      | inr hs => exact absurd (UnforgeableVerify.unforgeable he hs).1 i.encoding_ne_text
  · intro hv
    cases h with
    | inr ht => exact ⟨i.main, .inl rfl, .inr ht⟩
    | inl he =>
      cases hv with
      | inl hr => exact ⟨i.signer, hr, .inl he⟩
      | inr ht => exact ⟨i.main, .inl rfl, .inr ht⟩

end Instruction

-- What decreases the balances of main accounts.
inductive Cause (Acc Sign : Type)
  | trade (t : Trade Acc Sign)
  | withdrawal (request : WithdrawalRequest Acc Sign)

def Cause.instructions : Cause Acc Sign → List (Instruction Acc Sign)
  | .trade t            => [t.maker.instruction, t.taker.instruction]
  | .withdrawal request => [request.instruction]

-- The trades and the withdrawals of a list of actions.
def UserActions.causes : UserActions Acc Sign → List (Cause Acc Sign)
  | .trade ts                                       => ts.map .trade
  | .withdraw request | .withdrawV1 request _       => [.withdrawal request]
  | .blockImport _ _ _ | .reset | .oneMinLMPReport .. => []

section Frame

variable [DecidableEq Acc] [Decimal.Arith] {s s' : OffchainState Acc}
  {account : Acc}

namespace OffchainState

omit [Ord Acc]

theorem getBalance_subBalance (h : s.subBalance main asset' amount isWithdrawal = .ok (s', deducted))
    (ha : account ≠ main ∨ asset ≠ asset') : s'.getBalance account asset = s.getBalance account asset := by
  obtain ⟨_, _, _, hs⟩ := subBalance_eq_ok.mp h
  rw [hs, getBalance, entry_setEntry_of_ne ha]
  rfl

theorem getBalance_post (h : s.post p = .ok s') (ha : account ≠ p.account ∨ asset ≠ p.asset) :
    s'.getBalance account asset = s.getBalance account asset := by
  simp only [post] at h
  split_ifs at h
  · rw [← Except.ok.inj h, addBalance_eq, getBalance, entry_setEntry_of_ne ha]
    rfl
  · simp only [bind_eq_ok, pure_eq_ok, Prod.exists] at h
    obtain ⟨_, _, hsub, ht⟩ := h
    exact ht ▸ getBalance_subBalance hsub ha

theorem getBalance_postAll (h : s.postAll ps = .ok s')
    (ha : ∀ p ∈ ps, account ≠ p.account) (asset : AssetId) :
    s'.getBalance account asset = s.getBalance account asset := by
  induction ps generalizing s with
  | nil => rw [foldlM_nil_eq_ok.mp h]
  | cons p ps hi =>
    obtain ⟨t, ht, h⟩ := foldlM_cons_eq_ok.mp h
    rw [hi h (fun q hq => ha q (by simp [hq])), getBalance_post ht (.inl (ha p (by simp)))]

end OffchainState

end Frame

section Batches

variable [DecidableEq Acc] [PalletAccounts Acc] [Decimal.Arith] [FromText]

-- A cause takes effect when a list of actions is processed, and leads from one state to another.
inductive Occurs [Verify Acc Sign] (chain : State Acc Auth W cfg)
    (b₀ : BatchState Acc) (actions : List (UserActions Acc Sign)) :
    OffchainState Acc → Cause Acc Sign → OffchainState Acc → Prop
  | trade {as₁ as₂ ts₁ t ts₂ b s s'} : actions = as₁ ++ .trade (ts₁ ++ t :: ts₂) :: as₂ →
    as₁.foldlM (processAction chain) b₀ = .ok b → trades chain b.state ts₁ = .ok s →
    settleTrade chain s t = .ok s' → Occurs chain b₀ actions s (.trade t) s'
  | withdraw {as₁ as₂ request b s' withdrawal} : actions = as₁ ++ .withdraw request :: as₂ →
    as₁.foldlM (processAction chain) b₀ = .ok b →
    Ocex.withdraw request b.state 0 = .ok (s', withdrawal) →
    Occurs chain b₀ actions b.state (.withdrawal request) s'
  | withdrawV1 {as₁ as₂ request stid b s' withdrawal} :
    actions = as₁ ++ .withdrawV1 request stid :: as₂ →
    as₁.foldlM (processAction chain) b₀ = .ok b →
    Ocex.withdraw request b.state stid = .ok (s', withdrawal) →
    Occurs chain b₀ actions b.state (.withdrawal request) s'

-- A balance of a user is decreased by a cause in the batch. The pot for the fees is not the account of
-- a user.
def Debited [Verify Acc Sign] (chain : State Acc Auth W cfg)
    (s : OffchainState Acc) (info : StateInfo) (batch : UserActionBatch Acc Sign)
    (cause : Cause Acc Sign) (account : Acc) : Prop :=
  account ≠ PalletAccounts.potAccount ∧ ∃ s₁ s₂ asset,
    Occurs chain { state := s, info := info } batch.actions s₁ cause s₂ ∧
    s₂.getBalance account asset < s₁.getBalance account asset

-- Every account that is debited has an instruction in the cause, and all of its instructions there
-- were signed by an account that may act for it.
def DebitsBacked [Verify Acc Sign] (chain : State Acc Auth W cfg)
    (s : OffchainState Acc) (info : StateInfo) (batch : UserActionBatch Acc Sign) :
    Prop :=
  ∀ cause account, Debited chain s info batch cause account →
    (∃ i ∈ cause.instructions, i.main = account) ∧
    ∀ i ∈ cause.instructions, i.main = account → i.Backed chain

variable {chain : State Acc Auth W cfg} {b₀ b : BatchState Acc}
  {s s' : OffchainState Acc}

section

variable [Verify Acc Sign] {cause : Cause Acc Sign}
  {actions : List (UserActions Acc Sign)}

omit [Ord Acc] [DecidableEq Acc] [PalletAccounts Acc] [FromText] in
theorem Trade.signed_of_verify {t : Trade Acc Sign}
    (h : t.verify config = .ok true) : t.maker.verifySignature ∧ t.taker.verifySignature := by
  simp only [verify] at h
  split_ifs at h with hs
  · simpa using hs
  · simp [pure, Except.pure] at h

omit [Ord Acc] [DecidableEq Acc] [PalletAccounts Acc] [FromText] in
theorem Trade.accepted_of_verify {t : Trade Acc Sign} (h : t.verify config = .ok true) :
    t.maker.instruction.Accepted ∧ t.taker.instruction.Accepted := by
  simpa [Order.verifySignature, Instruction.Accepted, Order.instruction] using signed_of_verify h

omit [Ord Acc] [DecidableEq Acc] [FromText] [Verify Acc Sign] in
theorem Trade.account_of_mem_postings {t : Trade Acc Sign} {volume : Decimal}
    (h : p ∈ t.postings volume makerFees takerFees) : p.account = t.maker.mainAccount ∨
      p.account = t.taker.mainAccount ∨ p.account = PalletAccounts.potAccount := by
  simp only [postings, postingsOf, order, cons_append, nil_append, mem_cons,
    not_mem_nil, or_false] at h
  grind

omit [FromText] in
theorem settleTrade_eq_ok {t : Trade Acc Sign} (h : settleTrade chain s t = .ok s') :
    ∃ config volume, t.verify config = .ok true ∧ t.volume = .ok volume ∧
      s.postAll (t.postings volume {} {}) = .ok s' := by
  simp only [settleTrade] at h
  cases hc : chain.tradingPairs t.maker.pair with
  | none => simp [hc] at h
  | some config =>
    simp only [hc] at h
    obtain ⟨hv, volume, hp⟩ := Trade.postAll_of_processTrade h
    exact ⟨config, volume, hv, hp⟩

omit [Ord Acc] [PalletAccounts Acc] in
theorem withdraw_eq_ok {request : WithdrawalRequest Acc Sign}
    (h : Ocex.withdraw request s stid = .ok (s', withdrawal)) : request.instruction.Accepted ∧
      ∃ amount deducted, s.subBalance request.main request.asset amount true = .ok (s', deducted) := by
  simp only [Ocex.withdraw] at h
  cases ha : request.amount with
  | none => simp [ha] at h
  | some amount =>
    simp only [ha, bind_eq_ok] at h
    obtain ⟨_, hc, ⟨s'', deducted⟩, hs, h⟩ := h
    have hv : request.verify := by
      by_contra hv
      simp [check, hv] at hc
    cases hw : request.convert stid with
    | none => simp [hw] at h
    | some w =>
      simp only [hw, pure_eq_ok, Prod.mk.injEq] at h
      refine ⟨?_, amount, deducted, h.1 ▸ hs⟩
      simpa [WithdrawalRequest.verify, Instruction.Accepted, WithdrawalRequest.instruction] using hv

namespace Occurs

theorem mem_causes (h : Occurs chain b₀ actions s cause s') :
    ∃ action ∈ actions, cause ∈ action.causes := by
  cases h with
  | trade has _ _ _ =>
    exact ⟨_, has ▸ mem_append_cons_self, mem_map_of_mem mem_append_cons_self⟩
  | withdraw has _ _ | withdrawV1 has _ _ =>
    exact ⟨_, has ▸ mem_append_cons_self, mem_cons_self⟩

theorem accepted (h : Occurs chain b₀ actions s cause s') : ∀ i ∈ cause.instructions, i.Accepted := by
  cases h with
  | trade _ _ _ h =>
    obtain ⟨_, _, hv, _⟩ := settleTrade_eq_ok h
    simpa [Cause.instructions] using Trade.accepted_of_verify hv
  | withdraw _ _ h | withdrawV1 _ _ h => simpa [Cause.instructions] using (withdraw_eq_ok h).1

theorem getBalance_eq (h : Occurs chain b₀ actions s cause s')
    (hp : account ≠ PalletAccounts.potAccount) (hi : ∀ i ∈ cause.instructions, i.main ≠ account)
    (asset : AssetId) : s'.getBalance account asset = s.getBalance account asset := by
  cases h with
  | trade _ _ _ h =>
    obtain ⟨_, volume, _, _, hpost⟩ := settleTrade_eq_ok h
    simp only [Cause.instructions, mem_cons, not_mem_nil, or_false, forall_eq_or_imp,
      forall_eq] at hi
    refine OffchainState.getBalance_postAll hpost (fun p hmem ha => ?_) asset
    cases Trade.account_of_mem_postings hmem with
    | inl hm => exact hi.1 (hm.symm.trans ha.symm)
    | inr h =>
      cases h with
      | inl ht => exact hi.2 (ht.symm.trans ha.symm)
      | inr hpot => exact hp (ha.trans hpot)
  | withdraw _ _ h | withdrawV1 _ _ h =>
    obtain ⟨_, _, hs⟩ := (withdraw_eq_ok h).2
    exact OffchainState.getBalance_subBalance hs (.inl (hi _ mem_cons_self).symm)

end Occurs

theorem exists_occurs (h : actions.foldlM (processAction chain) b₀ = .ok b)
 (ha : action ∈ actions) (hc : cause ∈ action.causes) : ∃ s s', Occurs chain b₀ actions s cause s' := by
  obtain ⟨as₁, as₂, has⟩ := append_of_mem ha
  rw [has] at h
  obtain ⟨b₁, h₁, h⟩ := Except.foldlM_append_eq_ok.mp h
  obtain ⟨b₂, h₂, _⟩ := foldlM_cons_eq_ok.mp h
  cases action with
  | trade ts =>
    obtain ⟨t, ht, he⟩ := mem_map.mp hc
    obtain ⟨ts₁, ts₂, hts⟩ := append_of_mem ht
    simp only [processAction, bind_eq_ok] at h₂
    obtain ⟨_, h₂, _⟩ := h₂
    rw [hts] at h₂
    obtain ⟨s, hs, h₂⟩ := Except.foldlM_append_eq_ok.mp h₂
    obtain ⟨s', hs', _⟩ := foldlM_cons_eq_ok.mp h₂
    exact ⟨s, s', he ▸ .trade (hts ▸ has) h₁ hs hs'⟩
  | withdraw request =>
    simp only [processAction, bind_eq_ok] at h₂
    obtain ⟨⟨s', _⟩, h₂, _⟩ := h₂
    exact ⟨b₁.state, s', mem_singleton.mp hc ▸ .withdraw has h₁ h₂⟩
  | withdrawV1 request stid =>
    simp only [processAction, bind_eq_ok] at h₂
    obtain ⟨⟨s', _⟩, h₂, _⟩ := h₂
    exact ⟨b₁.state, s', mem_singleton.mp hc ▸ .withdrawV1 has h₁ h₂⟩
  | blockImport | reset | oneMinLMPReport => simp [UserActions.causes] at hc

end

end Batches

namespace Mock

attribute [local instance] Decimal.HalfEven.arith

instance : UnforgeableVerify Account Sig where
  unforgeable h h' := by
    have h := of_decide_eq_true h
    have h' := of_decide_eq_true h'
    simp_all

def request (signer : Account) : WithdrawalRequest Account Sig where
  id := 0
  signature := (signer, .withdrawal ⟨.polkadex, "1", 0, none⟩)
  payload := ⟨.polkadex, "1", 0, none⟩
  main := 2
  proxy := signer

def withdrawalBatch (signer : Account) : UserActionBatch Account Sig where
  actions := [.withdraw (request signer)]
  stid := 1
  snapshotId := 1
  signature := (0, .withdrawal ⟨.polkadex, "1", 0, none⟩)

def unregistered : State Account ℕ World config :=
  .genesis [] fun _ _ => 0

def oneUnit : OffchainState Account :=
  OffchainState.empty.addBalance 2 .polkadex 1

end Mock

end Ocex
