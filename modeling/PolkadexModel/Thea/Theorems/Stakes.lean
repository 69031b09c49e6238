import Mathlib.Algebra.Order.Pi
import PolkadexModel.Lib.Except
import PolkadexModel.Lib.Updates
import PolkadexModel.Thea.Theorems.Incoming

open Option


open Run

namespace Thea

variable {Acc TheaId Sign W : Type} [DecidableEq Acc]

-- What the native currency holds back as stakes. A release goes as far as the balance that is held,
-- and neither the funds of an account nor the deposits have to do with it.
class HeldBalances (Acc W : Type) [DecidableEq Acc] [Currency Acc W]
    [Executor W] where
  held                 : W → Acc → ℕ
  held_hold            : ∀ {w w' : W} {who : Acc} {amount}, Currency.hold w who amount = .ok w' →
    held w' = held w + Pi.single who amount
  held_release         : ∀ {w w' : W} {who : Acc} {amount},
    Currency.release w who amount = .ok w' →
    held w = held w' + Pi.single who (min amount (held w who))
  held_transfer        : ∀ {w w' : W} {source dest : Acc} {amount},
    Currency.transfer w source dest amount = .ok w' → held w' = held w
  held_burnFrom        : ∀ {w w' : W} {who : Acc} {amount},
    Currency.burnFrom w who amount = .ok w' → held w' = held w
  held_executeDeposits : ∀ {w w' : W} {network data},
    Executor.executeDeposits w network data = .ok w' → held w' = held w

def IncomingMessage.stakes (msg : IncomingMessage Acc) : Acc → ℕ :=
  Pi.single msg.relayer msg.stake

def MisbehaviourReport.stakes (report : MisbehaviourReport Acc) : Acc → ℕ :=
  report.reportedMsg.stakes + Pi.single report.fisherman report.stake

namespace State

-- The stakes of a key: those of its message in the queue, of its reported message and of the report.
def stakes (s : State Acc TheaId Sign W) (k : Network × ℕ) : Acc → ℕ :=
  (s.incomingMessagesQueue k).elim 0 (·.stakes) + (s.misbehaviourReports k).elim 0 (·.stakes)

noncomputable def owed (s : State Acc TheaId Sign W) : Acc → ℕ :=
  ∑ᶠ k, s.stakes k

end State

section Accounts

variable [Currency Acc W] [Executor W] [HeldBalances Acc W]
variable {s s' : State Acc TheaId Sign W} {o : Acc → ℕ} {k : Network × ℕ}

open HeldBalances

-- The balances that are held are the stakes, and what is held on to without a reason.
structure State.Accounts (s : State Acc TheaId Sign W) (o : Acc → ℕ) : Prop where
  finite : s.stakes.support.Finite
  held   : held s.world = s.owed + o

theorem held_release_of_le {w w' : W} {who : Acc}
    (h : Currency.release w who amount = .ok w') (hle : Pi.single who amount ≤ held w) :
    held w = held w' + Pi.single who amount := by
  have hle : amount ≤ held w who := by simpa using hle who
  have he := held_release h
  rwa [min_eq_left hle] at he

namespace State

omit [Currency Acc W] [Executor W] [HeldBalances Acc W] in
theorem owed_add (hf : s.stakes.support.Finite)
    (hq : ∀ k' ≠ k, s'.incomingMessagesQueue k' = s.incomingMessagesQueue k')
    (hr : ∀ k' ≠ k, s'.misbehaviourReports k' = s.misbehaviourReports k') :
    s'.stakes.support.Finite ∧ s'.owed + s.stakes k = s.owed + s'.stakes k := by
  have hs : s'.stakes = Function.update s.stakes k (s'.stakes k) := by
    funext k'
    by_cases hk : k' = k
    · rw [hk, Function.update_self]
    · rw [Function.update_of_ne hk, stakes, stakes, hq k' hk, hr k' hk]
  have hsum := Updates.finsum_update hf k (s'.stakes k)
  rw [← hs] at hsum
  exact ⟨hs ▸ Updates.finite_support_update hf k _, hsum⟩

namespace Accounts

theorem update (h : s.Accounts o) (k : Network × ℕ) (lost : Acc → ℕ)
    (hq : ∀ k' ≠ k, s'.incomingMessagesQueue k' = s.incomingMessagesQueue k')
    (hr : ∀ k' ≠ k, s'.misbehaviourReports k' = s.misbehaviourReports k')
    (heq : HeldBalances.held s'.world + s.stakes k =
      HeldBalances.held s.world + s'.stakes k + lost) : s'.Accounts (o + lost) := by
  obtain ⟨hf, howed⟩ := owed_add h.finite hq hr
  refine ⟨hf, ?_⟩
  funext a
  have h₁ := congrFun h.held a
  have h₂ := congrFun howed a
  have h₃ := congrFun heq a
  simp only [Pi.add_apply] at h₁ h₂ h₃ ⊢
  omega

theorem congr (h : s.Accounts o) (hq : s'.incomingMessagesQueue = s.incomingMessagesQueue)
    (hr : s'.misbehaviourReports = s.misbehaviourReports) (hw : s'.world = s.world) :
    s'.Accounts o := by
  have hs : s'.stakes = s.stakes := by
    funext k
    rw [stakes, stakes, hq, hr]
  refine ⟨hs ▸ h.finite, ?_⟩
  rw [hw, h.held, owed, owed, hs]

theorem stakes_le (h : s.Accounts o) (k : Network × ℕ) : s.stakes k ≤ HeldBalances.held s.world := by
  have hsum := Updates.finsum_update h.finite k 0
  intro a
  change (s.stakes k a : ℕ) ≤ _
  have h₁ := congrFun h.held a
  have h₂ := congrFun hsum a
  simp only [owed, Pi.add_apply, Pi.zero_apply] at h₁ h₂
  omega

variable {signer : Acc} {payload : Message} {stake : ℕ}

omit [DecidableEq Acc] [Executor W] [HeldBalances Acc W] in
theorem submitIncomingMessage_cases (hs : s.submitIncomingMessage signer payload stake = .ok s') :
    s' = s ∨ ∃ existing w w', s.incomingMessagesQueue (payload.network, payload.nonce) = existing ∧
      (existing = none ∧ w = s.world ∨ ∃ msg, existing = some msg ∧
        Currency.release s.world msg.relayer msg.stake = .ok w) ∧
      Currency.hold w signer stake = .ok w' ∧ s' = { s with
        world := w'
        incomingMessagesQueue := Function.update s.incomingMessagesQueue
          (payload.network, payload.nonce)
          (some ⟨payload, signer, stake, s.executeAt (s.networkConfig payload.network)⟩) } := by
  simp only [submitIncomingMessage] at hs
  split_ifs at hs
  split at hs
  case h_1 hq =>
    split at hs <;> cases hs
    case _ w' hw' => exact .inr ⟨none, s.world, w', hq, .inl ⟨rfl, rfl⟩, hw', rfl⟩
  case h_2 msg hq =>
    split_ifs at hs
    case neg => cases hs; exact .inl rfl
    case pos =>
      split at hs
      case h_1 => cases hs
      case h_2 w hw =>
        split at hs <;> cases hs
        case _ w' hw' => exact .inr ⟨some msg, w, w', hq, .inr ⟨msg, rfl, hw⟩, hw', rfl⟩

theorem submitIncomingMessage (h : s.Accounts o)
    (hs : s.submitIncomingMessage signer payload stake = .ok s') : s'.Accounts o := by
  cases submitIncomingMessage_cases hs with
  | inl he => exact he ▸ h
  | inr he =>
    obtain ⟨existing, w, w', hq, hw, hw', hs'⟩ := he
    -- The stake of the message that is replaced is not held any more.
    have hrel : HeldBalances.held s.world = HeldBalances.held w + existing.elim 0 (·.stakes) := by
      cases hw with
      | inl hw => rw [hw.1, hw.2]; rfl
      | inr hw =>
        obtain ⟨msg, he, hw⟩ := hw
        rw [he]
        refine held_release_of_le hw (le_trans ?_ (h.stakes_le (payload.network, payload.nonce)))
        rw [stakes, hq, he]
        exact le_self_add
    subst hs'
    refine h.update (payload.network, payload.nonce) 0 ?_ (fun _ _ => rfl) ?_
    · exact fun k' hk => Function.update_of_ne hk ..
    · simp only [stakes, Function.update_self, held_hold hw', hrel, hq, elim_some,
        IncomingMessage.stakes, add_zero]
      ac_rfl

variable {fisherman : Acc} {n : Network} {nonce : ℕ} {report : MisbehaviourReport Acc}

omit [DecidableEq Acc] [Executor W] [HeldBalances Acc W] in
theorem reportMisbehaviour_eq_ok (hs : s.reportMisbehaviour fisherman n nonce = .ok s') :
    ∃ w msg, Currency.hold s.world fisherman (s.networkConfig n).fishermanStake = .ok w ∧
      s.incomingMessagesQueue (n, nonce) = some msg ∧ s' = depositEvent { s with
        world := w
        incomingMessagesQueue := Function.update s.incomingMessagesQueue (n, nonce) none
        misbehaviourReports := Function.update s.misbehaviourReports (n, nonce)
          (some ⟨msg, fisherman, (s.networkConfig n).fishermanStake⟩) }
        (.misbehaviourReported fisherman n nonce) := by
  simp only [State.reportMisbehaviour] at hs
  repeat' split at hs
  all_goals cases hs
  case _ hw _ msg hq => exact ⟨_, msg, hw, hq, rfl⟩

-- A report which takes the place of another one is the only one that is known from then on.
theorem reportMisbehaviour (h : s.Accounts o)
    (hs : s.reportMisbehaviour fisherman n nonce = .ok s') :
    s'.Accounts (o + (s.misbehaviourReports (n, nonce)).elim 0 (·.stakes)) := by
  obtain ⟨w, msg, hw, hq, hs⟩ := reportMisbehaviour_eq_ok hs
  subst hs
  refine h.update (n, nonce) _ ?_ ?_ ?_
  · exact fun k' hk => Function.update_of_ne hk ..
  · exact fun k' hk => Function.update_of_ne hk ..
  · simp only [stakes, depositEvent, Function.update_self, hq, elim_some, elim_none,
      MisbehaviourReport.stakes, held_hold hw, zero_add]
    ac_rfl

theorem slashRelayer (h : s.Accounts o) (hr : s.misbehaviourReports (n, nonce) = some report)
    (hs : slashRelayer { s with
      misbehaviourReports := Function.update s.misbehaviourReports (n, nonce) none } report = .ok s') :
    s'.Accounts o := by
  simp only [State.slashRelayer] at hs
  split at hs
  case h_1 => cases hs
  case h_2 w₁ h₁ =>
    split at hs
    case h_1 => cases hs
    case h_2 w₂ h₂ =>
      split at hs <;> cases hs
      case _ w₃ h₃ =>
        have hle : report.stakes ≤ HeldBalances.held s.world := by
          refine le_trans ?_ (h.stakes_le (n, nonce))
          rw [stakes, hr]
          exact le_add_self
        have e₁ := held_release_of_le h₁ (le_trans le_self_add hle)
        have e₂ : HeldBalances.held w₂ = HeldBalances.held w₁ := held_transfer h₂
        have e₃ := held_release_of_le h₃ <| by
          rw [e₁, MisbehaviourReport.stakes, IncomingMessage.stakes, add_comm] at hle
          exact e₂ ▸ le_of_add_le_add_right hle
        refine h.update (n, nonce) 0 (fun _ _ => rfl) (fun k' hk => Function.update_of_ne hk ..) ?_
        simp only [stakes, Function.update_self, hr, elim_some, elim_none,
          MisbehaviourReport.stakes, IncomingMessage.stakes, e₁, ← e₂, e₃, add_zero]
        ac_rfl

-- The fisherman loses free balance instead of the stake.
theorem restoreMessage (h : s.Accounts o) (hk : s.Keyed)
    (hr : s.misbehaviourReports (n, nonce) = some report)
    (hs : restoreMessage { s with
      misbehaviourReports := Function.update s.misbehaviourReports (n, nonce) none } report = .ok s') :
    s'.Accounts (o + (Pi.single report.fisherman report.stake +
      (s.incomingMessagesQueue (n, nonce)).elim 0 (·.stakes))) := by
  have hkey := hk.reports hr
  simp only [State.restoreMessage, ← hkey] at hs
  split at hs <;> cases hs
  case _ w hw =>
    refine h.update (n, nonce) _ ?_ ?_ ?_
    · exact fun k' hk => Function.update_of_ne hk ..
    · exact fun k' hk => Function.update_of_ne hk ..
    · simp only [stakes, Function.update_self, hr, elim_some, elim_none,
        MisbehaviourReport.stakes, held_burnFrom hw, add_zero]
      ac_rfl

end Accounts

end State

def deposited (w : W) (msg : IncomingMessage Acc) : W :=
  match Executor.executeDeposits w msg.message.network msg.message.data with
  | .ok w'   => w'
  | .error _ => w

-- The message is due, and its stake can be released after its execution.
def Releases (blk : ℕ) (w : W) (msg : IncomingMessage Acc) : Prop :=
  msg.executeAt ≤ Word.saturatedInto 32 blk ∧
  ∃ w', Currency.release (deposited w msg) msg.relayer msg.stake = .ok w'

open Classical in
-- The stake of a message that is taken out of the queue and is not released.
noncomputable def lostNetwork (blk : ℕ) (s : State Acc TheaId Sign W) (n : Network) :
    Acc → ℕ :=
  (s.incomingMessagesQueue (n, s.nextIncomingNonce n)).elim 0 fun msg =>
    if Releases blk s.world msg then 0 else msg.stakes

omit [DecidableEq Acc] [HeldBalances Acc W] in
theorem executeMessage_world (nonce : ℕ) (msg : IncomingMessage Acc) :
    (s.executeMessage nonce msg).incomingMessagesQueue = s.incomingMessagesQueue ∧
    (s.executeMessage nonce msg).misbehaviourReports = s.misbehaviourReports ∧
    (s.executeMessage nonce msg).world =
      match Currency.release (deposited s.world msg) msg.relayer msg.stake with
      | .ok w    => w
      | .error _ => deposited s.world msg := by
  cases he : Executor.executeDeposits s.world msg.message.network msg.message.data with
  | ok w =>
    simp only [State.executeMessage, deposited, he, State.releaseStake, State.depositEvent]
    cases Currency.release w msg.relayer msg.stake <;> exact ⟨rfl, rfl, rfl⟩
  | error e =>
    simp only [State.executeMessage, deposited, he, State.releaseStake, State.depositEvent]
    cases Currency.release s.world msg.relayer msg.stake <;> exact ⟨rfl, rfl, rfl⟩

theorem held_deposited (w : W) (msg : IncomingMessage Acc) :
    held (deposited w msg) = (held w : Acc → ℕ) := by
  simp only [deposited]
  split
  · exact held_executeDeposits ‹_›
  · rfl

namespace State.Accounts

theorem onInitializeNetwork (h : s.Accounts o) (blk : ℕ) (n : Network) :
    (s.onInitializeNetwork blk n).Accounts (o + lostNetwork blk s n) := by
  simp only [State.onInitializeNetwork, lostNetwork]
  cases hq : s.incomingMessagesQueue (n, s.nextIncomingNonce n) with
  | none => simpa using h
  | some msg =>
    simp only [elim_some]
    set key := (n, s.nextIncomingNonce n)
    -- The message is taken out of the queue in any case.
    have taken {t : State Acc TheaId Sign W} {lost : Acc → ℕ}
        (hq' : t.incomingMessagesQueue = Function.update s.incomingMessagesQueue key none)
        (hr' : t.misbehaviourReports = s.misbehaviourReports)
        (hw : HeldBalances.held t.world + msg.stakes = HeldBalances.held s.world + lost) :
        t.Accounts (o + lost) := by
      refine h.update key lost (fun k' hk => ?_) (fun k' _ => by rw [hr']) ?_
      · rw [hq', Function.update_of_ne hk]
      · rw [stakes, stakes, hq', hr', hq, Function.update_self]
        simp only [elim_some, elim_none, zero_add]
        rw [← add_assoc, hw]
        ac_rfl
    split
    case isFalse hd =>
      rw [if_neg fun hr => hd hr.1]
      exact taken rfl rfl rfl
    case isTrue hd =>
      obtain ⟨hq', hr', hw⟩ := executeMessage_world (s := { s with
        incomingMessagesQueue := Function.update s.incomingMessagesQueue key none })
        (s.nextIncomingNonce n) msg
      refine taken hq' hr' ?_
      rw [hw]
      cases hrel : Currency.release (deposited s.world msg) msg.relayer msg.stake with
      | ok w =>
        have hle : msg.stakes ≤ HeldBalances.held s.world := by
          refine le_trans ?_ (h.stakes_le key)
          rw [stakes, hq]
          exact le_self_add
        rw [if_pos ⟨hd, w, hrel⟩, add_zero, ← held_deposited s.world msg]
        exact (held_release_of_le hrel (held_deposited s.world msg ▸ hle)).symm
      | error e =>
        have hnot : ¬Releases blk s.world msg := by
          rintro ⟨_, w, hw⟩
          cases hrel.symm.trans hw
        rw [if_neg hnot, held_deposited s.world msg]

end State.Accounts

end Accounts

section Run

variable [Currency Acc W] [Executor W] [HeldBalances Acc W] [Authority TheaId Sign]
  [Config TheaId] [DecidableEq TheaId]
variable {s s' : State Acc TheaId Sign W} {o : Acc → ℕ}
  {c : Call Acc TheaId Sign} {cs : List (Call Acc TheaId Sign)}

def visit (blk : ℕ) (s : State Acc TheaId Sign W) (n : Network) :
    Option (State Acc TheaId Sign W) :=
  some (s.onInitializeNetwork blk n)

-- The stakes which are held without a reason after the call.
noncomputable def lost (s : State Acc TheaId Sign W) (c : Call Acc TheaId Sign) :
    Acc → ℕ :=
  match c with
  | .reportMisbehaviour _ n k =>
    if (step s c).isSome then (s.misbehaviourReports (n, k)).elim 0 (·.stakes) else 0
  | .handleMisbehaviour n k false =>
    if (step s c).isSome then
      (s.misbehaviourReports (n, k)).elim 0 fun report =>
        Pi.single report.fisherman report.stake +
          (s.incomingMessagesQueue (n, k)).elim 0 (·.stakes)
    else 0
  | .nextBlock =>
    total (visit (s.currentBlockNumber + 1)) (lostNetwork (s.currentBlockNumber + 1))
      { s with currentBlockNumber := s.currentBlockNumber + 1 } s.activeNetworks.toList
  | _ => 0

-- No report is filed over an open one, no report is rejected, and the stake of every message that is
-- taken out of the queue can be released. Stakes of zero do not matter.
def Settled (s : State Acc TheaId Sign W) (c : Call Acc TheaId Sign) : Prop :=
  match c with
  | .reportMisbehaviour _ n k => (step s c).isSome → ∀ report,
      s.misbehaviourReports (n, k) = some report → report.reportedMsg.stake = 0 ∧ report.stake = 0
  | .handleMisbehaviour n k false => (step s c).isSome → ∀ report,
      s.misbehaviourReports (n, k) = some report → report.stake = 0 ∧
        ∀ msg, s.incomingMessagesQueue (n, k) = some msg → msg.stake = 0
  | .nextBlock => Along (visit (s.currentBlockNumber + 1))
      (fun t n => ∀ msg, t.incomingMessagesQueue (n, t.nextIncomingNonce n) = some msg →
        Releases (s.currentBlockNumber + 1) t.world msg ∨ msg.stake = 0)
      { s with currentBlockNumber := s.currentBlockNumber + 1 } s.activeNetworks.toList
  | _ => True

omit [Executor W] [HeldBalances Acc W] [Currency Acc W] in
theorem IncomingMessage.stakes_eq_zero_iff {msg : IncomingMessage Acc} :
    msg.stakes = 0 ↔ msg.stake = 0 :=
  Pi.single_eq_zero_iff

omit [HeldBalances Acc W] [Authority TheaId Sign] [Config TheaId] [DecidableEq TheaId] in
theorem lostNetwork_eq_zero_iff (blk : ℕ) (n : Network) :
    lostNetwork blk s n = 0 ↔ ∀ msg, s.incomingMessagesQueue (n, s.nextIncomingNonce n) = some msg →
      Releases blk s.world msg ∨ msg.stake = 0 := by
  rw [lostNetwork]
  cases s.incomingMessagesQueue (n, s.nextIncomingNonce n) with
  | none => simp
  | some msg =>
    simp only [elim_some, some.injEq, forall_eq']
    split_ifs with hr
    · simp [hr]
    · simp [hr, IncomingMessage.stakes_eq_zero_iff]

omit [HeldBalances Acc W] in
theorem lost_eq_zero_iff : lost s c = 0 ↔ Settled s c := by
  cases c
  case nextBlock =>
    rw [lost, total_eq_zero_iff, Settled]
    simp only [lostNetwork_eq_zero_iff]
  case reportMisbehaviour fisherman n k =>
    simp only [lost, Settled]
    split_ifs with hs
    · cases s.misbehaviourReports (n, k) with
      | none => simp
      | some report =>
        simp [hs, MisbehaviourReport.stakes, IncomingMessage.stakes_eq_zero_iff,
          Pi.single_eq_zero_iff]
    · simp [hs]
  case handleMisbehaviour n k acceptance =>
    cases acceptance
    case true => exact iff_of_true rfl trivial
    case false =>
      simp only [lost, Settled]
      split_ifs with hs
      · cases s.misbehaviourReports (n, k) with
        | none => simp
        | some report =>
          cases s.incomingMessagesQueue (n, k) <;>
            simp [hs, IncomingMessage.stakes_eq_zero_iff, Pi.single_eq_zero_iff]
      · simp [hs]
  all_goals exact iff_of_true rfl trivial

namespace State.Accounts

omit [Authority TheaId Sign] [Config TheaId] [DecidableEq TheaId] in
theorem onInitialize (h : s.Accounts o) (blk : ℕ) :
    (s.onInitialize blk).Accounts (o + total (visit blk) (lostNetwork blk) s s.activeNetworks.toList) :=
  total_induction (visit blk) (lostNetwork blk) h fun _ n _ h => h.onInitializeNetwork blk n

def staked (s : State Acc TheaId Sign W) :=
  (s.incomingMessagesQueue, s.misbehaviourReports, s.world)

omit [Authority TheaId Sign] [Config TheaId] [DecidableEq TheaId] in
theorem of_staked_eq (h : s.Accounts o) (he : staked s' = staked s) : s'.Accounts (o + 0) := by
  simp only [staked, Prod.mk.injEq] at he
  exact (add_zero o).symm ▸ h.congr he.1 he.2.1 he.2.2

theorem step (h : s.Accounts o) (hk : s.Keyed) (hs : Thea.step s c = some s') :
    s'.Accounts (o + lost s c) := by
  have hd : dispatch s c = .ok s' := toOption_eq_some.mp hs
  cases c
  case submitIncomingMessage => exact (add_zero o).symm ▸ h.submitIncomingMessage hd
  case reportMisbehaviour =>
    rw [lost, if_pos (by rw [hs]; rfl)]
    exact h.reportMisbehaviour hd
  case nextBlock =>
    cases hd
    have h : Accounts { s with currentBlockNumber := s.currentBlockNumber + 1 } o :=
      h.congr rfl rfl rfl
    exact h.onInitialize _
  case handleMisbehaviour n k acceptance =>
    simp only [dispatch, handleMisbehaviour] at hd
    split at hd
    case h_1 hr =>
      cases hd
      have hl : lost s (.handleMisbehaviour n k acceptance) = 0 := by
        cases acceptance <;> simp [lost, hr]
      rw [hl, add_zero]
      exact h
    case h_2 report hr =>
      cases acceptance
      case true => exact (add_zero o).symm ▸ h.slashRelayer hr hd
      case false =>
        rw [lost, if_pos (by rw [hs]; rfl), hr]
        exact h.restoreMessage hk hr hd
  case newSession =>
    cases hd
    exact h.of_staked_eq (onNewSession_frame staked (fun _ _ _ _ _ _ _ _ => rfl) ..)
  case submitSignedOutgoingMessages =>
    simp only [dispatch, submitSignedOutgoingMessages] at hd
    split at hd
    case h_1 => cases hd
    case h_2 =>
      split_ifs at hd
      exact h.of_staked_eq (submitSignatures_frame staked (fun _ _ _ _ => rfl) hd)
  all_goals
    refine h.of_staked_eq ?_
    simp only [dispatch, executeWithdrawals, updateOutgoingNonce, addTheaNetwork] at hd
    repeat' split at hd
    all_goals cases hd
    all_goals rfl

theorem exec (h : s.Keyed ∧ s.Accounts o) (c : Call Acc TheaId Sign) :
    (exec Thea.step s c).Keyed ∧ (exec Thea.step s c).Accounts (o + lost s c) := by
  cases exec_cases Thea.step s c with
  | inl hs => exact ⟨h.1.step hs, h.2.step h.1 hs⟩
  | inr hs =>
    have hl : lost s c = 0 := by
      have hnone : (Thea.step s c).isSome = false := by rw [hs.1]; rfl
      simp only [lost]
      split
      case h_3 => cases hs.1
      all_goals simp [hnone]
    rw [hs.2, hl, add_zero]
    exact h

end State.Accounts

-- Every balance that is held is the sum of the stakes of its account.
def State.StakesAccounted (s : State Acc TheaId Sign W) : Prop :=
  s.stakes.support.Finite ∧ ∀ account, HeldBalances.held s.world account = s.owed account

theorem stakesAccounted_iff_total (authorities : List TheaId)
    (hw : ∀ account : Acc, HeldBalances.held w account = 0) (cs : List (Call Acc TheaId Sign)) :
    (run step (.genesis authorities w) cs : State Acc TheaId Sign W).StakesAccounted ↔
    total step lost (.genesis authorities w) cs = 0 := by
  have init : (State.genesis authorities w : State Acc TheaId Sign W).Keyed ∧
      (State.genesis authorities w : State Acc TheaId Sign W).Accounts 0 := by
    have hstakes : (State.genesis authorities w : State Acc TheaId Sign W).stakes = 0 := rfl
    refine ⟨⟨by simp [State.genesis], by simp [State.genesis]⟩, ?_, ?_⟩
    · simp [hstakes]
    · have howed : (State.genesis authorities w : State Acc TheaId Sign W).owed = 0 := by
        simp [State.owed, hstakes]
      rw [howed, zero_add]
      exact funext hw
  have hacc : State.Accounts _ (0 + total step lost (.genesis authorities w) cs) :=
    (total_induction step lost (motive := fun s o => s.Keyed ∧ s.Accounts o) init
      fun s c o h => State.Accounts.exec h c).2
  rw [zero_add] at hacc
  constructor
  · rintro ⟨_, h⟩
    funext a
    have h₁ := h a
    have h₂ := congrFun hacc.held a
    simp only [Pi.add_apply] at h₂
    rw [Pi.zero_apply]
    omega
  · intro h
    refine ⟨hacc.finite, fun a => ?_⟩
    rw [hacc.held, h, add_zero]

-- The stakes are accounted for after a run if and only if all of its calls settle theirs.
theorem stakes_accounted_iff (authorities : List TheaId) {w : W}
    (hw : ∀ account : Acc, HeldBalances.held w account = 0)
    (cs : List (Call Acc TheaId Sign)) :
    (run step (.genesis authorities w) cs : State Acc TheaId Sign W).StakesAccounted ↔
    Along step Settled (.genesis authorities w) cs := by
  rw [stakesAccounted_iff_total authorities hw, total_eq_zero_iff]
  exact forall₂_congr fun e _ => lost_eq_zero_iff

end Run

namespace Mock

instance : HeldBalances ℕ Mock where
  held := Mock.held
  held_hold {w w' who amount} h := by
    simp only [Currency.hold] at h
    split at h <;> cases h
    funext a
    by_cases ha : a = who <;> simp [ha]
  held_release {w w' who amount} h := by
    cases h
    funext a
    by_cases ha : a = who
    · subst ha
      simp only [Function.update_self, Pi.add_apply, Pi.single_eq_same]
      omega
    · simp [ha]
  held_transfer {w w' source dest amount} h := by
    simp only [Currency.transfer] at h
    split at h <;> cases h
    rfl
  held_burnFrom h := by cases h; rfl
  held_executeDeposits h := by cases h; rfl

end Mock

def exampleFunds : State ℕ ℕ (ℕ × Message) Mock :=
  .genesis [] ⟨fun _ => 100, fun _ => 0⟩

def exampleReport (acceptance : Bool) : List (Call ℕ ℕ (ℕ × Message)) :=
  [.addTheaNetwork 1 false 2 10 10, .submitIncomingMessage 9 exampleDeposit 10,
    .reportMisbehaviour 8 1 1, .handleMisbehaviour 1 1 acceptance, .nextBlock]

theorem stakes_accounted_accepted :
    (run step exampleFunds (exampleReport true)).StakesAccounted := by
  refine (stakes_accounted_iff [] (fun _ => rfl) _).mpr fun e he => ?_
  simp only [exampleReport, trace_cons, trace_nil, List.mem_cons, List.not_mem_nil, or_false] at he
  rcases he with rfl | rfl | rfl | rfl | rfl
  case inr.inr.inl => exact fun _ report hr => by cases hr
  case inr.inr.inr.inr =>
    intro e he
    cases List.mem_singleton.mp (he : e ∈ [(_, 1)])
    exact fun msg hq => by cases hq
  all_goals trivial

-- The stake of the fisherman of a rejected report stays held for good.
theorem rejected_stake_held : ¬∀ cs : List (Call ℕ ℕ (ℕ × Message)),
    (run step exampleFunds cs).StakesAccounted := by
  intro h
  have hlost := (stakesAccounted_iff_total [] (fun _ => rfl) _).mp (h (exampleReport false))
  have hmem : (run step exampleFunds ((exampleReport false).take 3), .handleMisbehaviour 1 1 false) ∈
      trace step exampleFunds (exampleReport false) := by
    simp [exampleReport]
  have hs := lost_eq_zero_iff.mp (total_eq_zero_iff.mp hlost _ hmem)
  exact absurd (hs (by decide) _ rfl).1 (by decide)

end Thea
