import PolkadexModel.XcmHelper.Pallet

open Function List

-- What becomes of the withdrawals that are taken from the queue.
namespace XcmHelper

open Ocex (AssetId)

variable {Acc Id B : Type} {cfg : Config Acc Id}

-- How often a withdrawal is stored as failed, and what is minted for it.
structure Outcome (Acc : Type) where
  failed : List Withdraw
  issued : List (Issue Acc)
deriving DecidableEq

def due (cfg : Config Acc Id) (w : Withdraw) : List (AssetId × ℕ) :=
  (w.assetId, w.amount) ::
    if (cfg.decodeLocation w.destination).any isPolkadexParachainDestination then []
    else w.fee.toList

namespace Outcome

-- It is delivered, with its amount and its fee minted once.
def Delivered (cfg : Config Acc Id) (w : Withdraw) (o : Outcome Acc) : Prop :=
  o.failed = [] ∧ o.issued.map (fun i => (i.asset, i.amount)) = due cfg w

-- It is stored once, and nothing is minted for it.
def Failed (w : Withdraw) (o : Outcome Acc) : Prop :=
  o.failed = [w] ∧ o.issued = []

def Settled (cfg : Config Acc Id) (w : Withdraw) (o : Outcome Acc) : Prop :=
  o.Delivered cfg w ∨ o.Failed w

def append (o o' : Outcome Acc) : Outcome Acc :=
  ⟨o.failed ++ o'.failed, o.issued ++ o'.issued⟩

def ofDeposit (w : Withdraw) (asset : AssetId) (amount : ℕ) (who : Acc) (ok : Bool) : Outcome Acc :=
  if ok then ⟨[], [⟨asset, who, amount⟩]⟩ else ⟨[w], []⟩

variable {w : Withdraw} {asset asset' : AssetId} {amount amount' : ℕ} {who who' : Acc}

theorem settled_failed : (⟨[w], []⟩ : Outcome Acc).Settled cfg w :=
  .inr ⟨rfl, rfl⟩

theorem not_settled_nothing : ¬(⟨[], []⟩ : Outcome Acc).Settled cfg w := by
  simp [Settled, Delivered, Failed, due]

theorem settled_ofDeposit (h : due cfg w = [(asset, amount)]) (ok : Bool) :
    (ofDeposit w asset amount who ok).Settled cfg w := by
  cases ok with
  | false => exact settled_failed
  | true => exact .inl ⟨rfl, h.symm⟩

theorem settled_append_iff (ok ok' : Bool) :
    ((ofDeposit w asset amount who ok).append (ofDeposit w asset' amount' who' ok')).Settled cfg w ↔
      (ok = true ∧ ok' = true) ∧ [(asset, amount), (asset', amount')] = due cfg w := by
  cases ok <;> cases ok' <;> simp [append, ofDeposit, Settled, Delivered, Failed]

end Outcome

-- The withdrawal is sent to another parachain.
structure Leaves (cfg : Config Acc Id) (w : Withdraw) (destination : VersionedMultiLocation) : Prop where
  unblocked : w.isBlocked = false
  decoded   : cfg.decodeLocation w.destination = some destination
  leaves    : isPolkadexParachainDestination destination = false

section Loop

variable [DecidableEq Id] [Resolver Acc Id B]

-- A deposit is reported if and only if it succeeds, and it does not touch the queues.
theorem State.deposit_spec (s : State Acc Id B cfg) (asset : AssetId) (amount : ℕ) (who : Acc) :
    (s.deposit asset amount who).1.issued =
      s.issued ++ (if (s.deposit asset amount who).2 then [⟨asset, who, amount⟩] else []) ∧
    (s.deposit asset amount who).1.pendingWithdrawals = s.pendingWithdrawals ∧
    (s.deposit asset amount who).1.failedWithdrawals = s.failedWithdrawals := by
  simp only [deposit, resolveDepositParachain]
  repeat' split
  all_goals simp_all

namespace Loop

-- What is added to the loop between two states of it.
structure Adds (l l' : Loop Acc Id B cfg) (o : Outcome Acc) : Prop where
  failed  : l'.failed = l.failed ++ o.failed
  issued  : l'.state.issued = l.state.issued ++ o.issued
  pending : l'.state.pendingWithdrawals = l.state.pendingWithdrawals
  stored  : l'.state.failedWithdrawals = l.state.failedWithdrawals

variable {l l' l'' : Loop Acc Id B cfg} {w : Withdraw} {o o' : Outcome Acc}

section Adds

omit [DecidableEq Id] [Resolver Acc Id B]

theorem Adds.refl : Adds l l ⟨[], []⟩ :=
  ⟨(append_nil _).symm, (append_nil _).symm, rfl, rfl⟩

theorem Adds.trans (h : Adds l l' o) (h' : Adds l' l'' o') : Adds l l'' (o.append o') where
  failed := by rw [h'.failed, h.failed, append_assoc]; rfl
  issued := by rw [h'.issued, h.issued, append_assoc]; rfl
  pending := h'.pending.trans h.pending
  stored := h'.stored.trans h.stored

theorem adds_fail (l : Loop Acc Id B cfg) (w : Withdraw) (e : Event) : Adds l (l.fail w e) ⟨[w], []⟩ :=
  ⟨rfl, (append_nil _).symm, rfl, rfl⟩

end Adds

theorem adds_resume (l : Loop Acc Id B cfg) (w : Withdraw) (e : Event) (asset : AssetId) (amount : ℕ)
    (who : Acc) :
    Adds l (l.resume w e (l.state.deposit asset amount who))
      (.ofDeposit w asset amount who (l.state.deposit asset amount who).2) := by
  obtain ⟨hissued, hpending, hstored⟩ := l.state.deposit_spec asset amount who
  rw [resume, Outcome.ofDeposit]
  split_ifs at hissued ⊢
  case pos => exact ⟨(append_nil _).symm, hissued, hpending, hstored⟩
  case neg => exact ⟨rfl, hissued, hpending, hstored⟩

theorem adds_deposit (l : Loop Acc Id B cfg) (w : Withdraw) (asset : AssetId) (amount : ℕ) (who : Acc) :
    Adds l (l.deposit w asset amount who) (.ofDeposit w asset amount who (l.state.deposit asset amount who).2) :=
  adds_resume ..

-- If there is a fee, both assets are mapped and both mints succeed. If there is none, the withdrawal
-- does not bring the native asset to a sibling.
def Sendable (l : Loop Acc Id B cfg) (w : Withdraw) (destination : VersionedMultiLocation) : Prop :=
  match w.fee with
  | some (feeAssetId, feeAmount) =>
    ((l.state.parachainAssets w.assetId).isSome ∧ (l.state.parachainAssets feeAssetId).isSome) ∧
    (l.state.deposit w.assetId w.amount cfg.palletAccount).2 = true ∧
    ((l.state.deposit w.assetId w.amount cfg.palletAccount).1.deposit feeAssetId feeAmount
      cfg.palletAccount).2 = true
  | none => (l.state.parachainAssets w.assetId).isSome → ∀ location, destination = .v3 location →
    sovereignAccount cfg location w.assetId = none

def Deliverable (l : Loop Acc Id B cfg) (w : Withdraw) : Prop :=
  ∀ destination, Leaves cfg w destination → l.Sendable w destination

-- The body of the loop has an outcome, which is one of those wanted if and only if `P` holds.
def Handles (l : Loop Acc Id B cfg) (w : Withdraw) (P : Prop) : Prop :=
  ∃ o, Adds l (l.processWithdrawal w) o ∧ (o.Settled cfg w ↔ P)

theorem handles_of_eq (hl : l.processWithdrawal w = l') (h : Adds l l' o) (hp : o.Settled cfg w ↔ P) :
    l.Handles w P :=
  ⟨o, hl ▸ h, hp⟩

theorem handles_of_failed (h : Adds l (l.processWithdrawal w) ⟨[w], []⟩) (hp : P) : l.Handles w P :=
  ⟨_, h, iff_of_true Outcome.settled_failed hp⟩

theorem handles_of_stays (h : ∀ destination, ¬Leaves cfg w destination) : l.Handles w True := by
  by_cases hb : w.isBlocked
  case pos =>
    refine handles_of_failed ?_ trivial
    rw [processWithdrawal, if_pos hb]
    exact ⟨rfl, (append_nil _).symm, rfl, rfl⟩
  case neg =>
    cases hd : cfg.decodeLocation w.destination with
    | none =>
      refine handles_of_failed ?_ trivial
      rw [processWithdrawal, if_neg hb, hd]
      exact adds_fail ..
    | some destination =>
      have hp : isPolkadexParachainDestination destination = true := by
        by_contra hp
        exact h destination ⟨by simpa using hb, hd, by simpa using hp⟩
      have hprocess : l.processWithdrawal w =
          l.resume w .notAbleToHandleDestination (l.state.handleDeposit w destination) := by
        simp only [processWithdrawal, if_neg hb, hd, if_pos hp]
      cases ha : destination.toLatest.bind (getDestinationAccount cfg) with
      | none =>
        refine handles_of_failed ?_ trivial
        rw [hprocess, State.handleDeposit, ha]
        exact adds_fail ..
      | some account =>
        have hdue : due cfg w = [(w.assetId, w.amount)] := by
          simp [due, hd, hp]
        refine ⟨.ofDeposit w w.assetId w.amount account (l.state.deposit w.assetId w.amount account).2, ?_,
          iff_of_true (Outcome.settled_ofDeposit hdue _) trivial⟩
        rw [hprocess, State.handleDeposit, ha]
        exact adds_resume ..

theorem handles_with_fee (h : Leaves cfg w destination) (hf : w.fee = some (feeAssetId, feeAmount)) :
    l.Handles w (l.Sendable w destination) := by
  have hdue : [(w.assetId, w.amount), (feeAssetId, feeAmount)] = due cfg w := by
    simp [due, h.decoded, h.leaves, hf]
  rw [Sendable, hf]
  cases ha : l.state.parachainAssets w.assetId with
  | none =>
    have hkeep : l.processWithdrawal w = l := by
      simp [processWithdrawal, h.unblocked, h.decoded, h.leaves, hf, ha]
    exact handles_of_eq hkeep .refl (iff_of_false Outcome.not_settled_nothing (by simp))
  | some asset =>
    cases hfa : l.state.parachainAssets feeAssetId with
    | none =>
      have hkeep : l.processWithdrawal w = l := by
        simp [processWithdrawal, h.unblocked, h.decoded, h.leaves, hf, ha, hfa]
      exact handles_of_eq hkeep .refl (iff_of_false Outcome.not_settled_nothing (by simp [hfa]))
    | some feeAsset =>
      have hprocess : l.processWithdrawal w =
          (l.deposit w w.assetId w.amount cfg.palletAccount).deposit w feeAssetId feeAmount
            cfg.palletAccount := by
        simp [processWithdrawal, h.unblocked, h.decoded, h.leaves, hf, ha, hfa]
      refine handles_of_eq hprocess ((adds_deposit ..).trans (adds_deposit ..)) ?_
      rw [Outcome.settled_append_iff, and_iff_left hdue]
      refine ⟨fun hok => ⟨⟨rfl, by simp [hfa]⟩, hok.1, ?_⟩, fun hok => ⟨hok.2.1, ?_⟩⟩
      · simpa [deposit, resume, hok.1] using hok.2
      · simpa [deposit, resume, hok.2.1] using hok.2.2

theorem handles_without_fee (h : Leaves cfg w destination)
    (hf : w.fee = none) : l.Handles w (l.Sendable w destination) := by
  have hdue : due cfg w = [(w.assetId, w.amount)] := by
    simp [due, h.decoded, h.leaves, hf]
  rw [Sendable, hf]
  cases ha : l.state.parachainAssets w.assetId with
  | none =>
    refine handles_of_failed ?_ (by simp)
    simp only [processWithdrawal, h.unblocked, h.decoded, h.leaves, hf, ha]
    exact adds_fail ..
  | some asset =>
    cases destination with
    | v2 =>
      refine handles_of_failed ?_ (by simp)
      simp only [processWithdrawal, h.unblocked, h.decoded, h.leaves, hf, ha]
      exact adds_fail ..
    | v3 location =>
      cases hsov : sovereignAccount cfg location w.assetId with
      | none =>
        have hprocess : l.processWithdrawal w = l.deposit w w.assetId w.amount cfg.palletAccount := by
          simp [processWithdrawal, h.unblocked, h.decoded, h.leaves, hf, ha, hsov]
        refine handles_of_eq hprocess (adds_deposit ..) (iff_of_true (Outcome.settled_ofDeposit hdue _) ?_)
        simp [hsov]
      | some account =>
        have hprocess : l.processWithdrawal w = (l.deposit w w.assetId w.amount account).deposit w w.assetId
            w.amount cfg.palletAccount := by
          simp [processWithdrawal, h.unblocked, h.decoded, h.leaves, hf, ha, hsov]
        -- The amount is minted for the sibling, and once more for the pallet.
        refine handles_of_eq hprocess ((adds_deposit ..).trans (adds_deposit ..)) ?_
        rw [Outcome.settled_append_iff, hdue]
        simp [hsov]

theorem handles (l : Loop Acc Id B cfg) (w : Withdraw) : l.Handles w (l.Deliverable w) := by
  by_cases h : ∃ destination, Leaves cfg w destination
  case neg =>
    have hstays := not_exists.mp h
    obtain ⟨o, ho, hset⟩ := handles_of_stays (l := l) hstays
    exact ⟨o, ho, hset.trans (iff_of_true trivial fun destination hl => absurd hl (hstays destination))⟩
  case pos =>
    obtain ⟨destination, hl⟩ := h
    have hdel : l.Deliverable w ↔ l.Sendable w destination := by
      refine ⟨fun hs => hs destination hl, fun hs destination' hl' => ?_⟩
      cases hl.decoded.symm.trans hl'.decoded
      exact hs
    rw [hdel]
    cases hf : w.fee with
    | none => exact handles_without_fee hl hf
    | some fee => exact handles_with_fee hl hf

def outcome (l : Loop Acc Id B cfg) (w : Withdraw) : Outcome Acc where
  failed := (l.processWithdrawal w).failed.drop l.failed.length
  issued := (l.processWithdrawal w).state.issued.drop l.state.issued.length

theorem outcome_spec (l : Loop Acc Id B cfg) (w : Withdraw) :
    Adds l (l.processWithdrawal w) (l.outcome w) ∧ ((l.outcome w).Settled cfg w ↔ l.Deliverable w) := by
  obtain ⟨o, ho, hset⟩ := l.handles w
  have heq : l.outcome w = o := by
    rw [outcome, ho.failed, ho.issued, drop_left, drop_left]
  exact heq ▸ ⟨ho, hset⟩

def step (l : Loop Acc Id B cfg) (w : Withdraw) : Option (Loop Acc Id B cfg) :=
  some (l.processWithdrawal w)

def outcomes (l : Loop Acc Id B cfg) (ws : List Withdraw) : List (Outcome Acc) :=
  (Run.trace step l ws).map fun e => e.1.outcome e.2

theorem adds_run (l : Loop Acc Id B cfg) (ws : List Withdraw) :
    Adds l (ws.foldl processWithdrawal l)
      ⟨(l.outcomes ws).flatMap Outcome.failed, (l.outcomes ws).flatMap Outcome.issued⟩ := by
  induction ws generalizing l with
  | nil => exact .refl
  | cons w ws hi => exact (l.outcome_spec w).1.trans (hi (l.processWithdrawal w))

end Loop

-- Every withdrawal of the queue is either queued again for the next block, or processed once.
structure Settlement (s s' : State Acc Id B cfg) (n : ℕ) (outcomes : List (Outcome Acc)) : Prop where
  taken    : s.overflow n ++ (s.toProcess n).reverse = s.pendingWithdrawals n
  requeued : ∀ k, s'.pendingWithdrawals k = (if k = n then [] else s.pendingWithdrawals k) ++
    if k = State.nextBlock n then s.overflow n else []
  failed   : s'.failedWithdrawals = if outcomes.flatMap Outcome.failed = [] then s.failedWithdrawals
    else update s.failedWithdrawals n (outcomes.flatMap Outcome.failed)
  issued   : s'.issued = s.issued ++ outcomes.flatMap Outcome.issued

omit [DecidableEq Id] [Resolver Acc Id B] in
theorem pending_requeue (s : State Acc Id B cfg) (n k : ℕ) :
    (s.requeue n).pendingWithdrawals k = (if k = n then [] else s.pendingWithdrawals k) ++
      if k = State.nextBlock n then s.overflow n else [] := by
  simp only [State.requeue]
  by_cases ho : s.overflow n = []
  case pos => simp [ho, update_apply]
  case neg =>
    rw [if_neg ho]
    by_cases hk : k = State.nextBlock n
    case pos => simp [hk, update_apply]
    case neg => simp [hk, update_apply]

theorem settlement (s : State Acc Id B cfg) (n : ℕ) : Settlement s (s.handleNewPendingWithdrawals n) n
    (Loop.outcomes ⟨s.requeue n, []⟩ (s.toProcess n)) := by
  have h := Loop.adds_run ⟨s.requeue n, []⟩ (s.toProcess n)
  have hfailed := h.failed
  rw [nil_append] at hfailed
  constructor
  case taken => rw [State.overflow, State.toProcess, reverse_reverse, take_append_drop]
  case requeued =>
    intro k
    rw [← pending_requeue, ← h.pending, State.handleNewPendingWithdrawals]
    split_ifs <;> rfl
  case failed =>
    rw [State.handleNewPendingWithdrawals, hfailed]
    split_ifs
    · exact h.stored
    · exact congrArg (update · n _) h.stored
  case issued =>
    rw [State.handleNewPendingWithdrawals]
    split_ifs <;> exact h.issued

end Loop

section Queue

variable {blockDiff n first : ℕ} {decode : List UInt8 → Option (List Withdraw)} {s : State Acc Id B cfg}

-- What waits is due from the first block on, and not after the last one that `n` queues for.
def Due (blockDiff first n : ℕ) (s : State Acc Id B cfg) : Prop :=
  ∀ k, s.pendingWithdrawals k ≠ [] → first ≤ k ∧ k ≤ n + blockDiff

theorem due_receive (hb : n + blockDiff < 2 ^ 32) (hf : first ≤ n + blockDiff) (h : Due blockDiff first n s) :
    Due blockDiff first n (s.receive blockDiff decode n messages) := by
  have hblock : Word.saturatingAdd 32 (Word.saturatedInto 32 n) (Word.saturatedInto 32 blockDiff) =
      n + blockDiff := by
    simp only [Word.saturatingAdd, Word.saturatedInto, Word.max]
    omega
  refine Run.Along.invariant (P := fun _ _ => True) (fun _ _ => trivial) h fun s deposits _ h k hk => ?_
  by_cases hkn : k = n + blockDiff
  case pos => omega
  case neg =>
    refine h k fun hnil => hk ?_
    simp only [Run.exec, State.executeDeposits, hblock]
    cases decode deposits with
    | none => exact hnil
    | some ws =>
      dsimp only
      split_ifs
      · exact hnil
      · exact (update_of_ne hkn ..).trans hnil

variable [DecidableEq Id] [Resolver Acc Id B]

-- What overflows is queued again for the next block, which is still to come.
theorem due_handleNewPendingWithdrawals (hb : n + blockDiff < 2 ^ 32) (hd : 0 < blockDiff) (h : Due blockDiff n n s) :
    Due blockDiff (n + 1) n (s.handleNewPendingWithdrawals n) := by
  have hnext : State.nextBlock n = n + 1 := Word.saturatingAdd_eq (by simp only [Word.max]; omega)
  intro k hk
  rw [(settlement s n).requeued, hnext] at hk
  have := h k
  grind

-- Over all blocks, no withdrawal is left in the queue of a block that has passed.
theorem withdrawals_never_stranded (hd : 0 < blockDiff) (hb : n + blocks.length + blockDiff < 2 ^ 32)
    (h : Due blockDiff (n + 1) n s) :
    Due blockDiff (n + blocks.length + 1) (n + blocks.length)
      (Run.run (State.step blockDiff decode) (n, s) blocks).2 := by
  induction blocks generalizing n s with
  | nil => exact h
  | cons b blocks hi =>
    rw [length_cons, Nat.add_comm blocks.length 1, ← Nat.add_assoc] at hb ⊢
    have hlater : Due blockDiff (n + 1) (n + 1) s := fun k hk => by
      have := h k hk
      omega
    refine hi hb (due_receive (by omega) (by omega) ?_)
    exact due_handleNewPendingWithdrawals (by omega) hd (due_receive (by omega) (by omega) hlater)

end Queue

namespace Mock

-- The asset 9 cannot be minted.
instance : Resolver ℕ ℕ Unit where
  mintNative b _ _ := some b
  assetExists _ _ := true
  create b _ _ _ := some b
  mintInto b id _ _ := if id = 9 then none else some b

-- The only destination is the sibling 5, whose account is 55. The account of the pallet is 1.
def config : Config ℕ ℕ where
  palletAccount := 1
  nativeAssetId := 0
  maxWithdrawalsPerBlock := 2
  toId
    | .polkadex => 0
    | .asset id => id
  decodeLocation _ := some (.v3 ⟨1, [.parachain 5]⟩)
  decodeAccount _ := none
  convertSibling _ := some 55

def withdraw (id : ℕ) (asset : AssetId) (feeAsset : Option AssetId) : Withdraw :=
  ⟨id, asset, 100, [], feeAsset, some 3, false⟩

-- The native asset and the assets up to 9 are mapped.
def start (queue : List Withdraw) : State ℕ ℕ Unit config where
  pendingWithdrawals n := if n = 4 then queue else []
  failedWithdrawals _ := []
  parachainAssets
    | .polkadex => some (.abstract [])
    | .asset id => if id ≤ 9 then some (.abstract [UInt8.ofNat id]) else none
  assets := ()
  issued := []
  events := []

def outcomesOf (queue : List Withdraw) : List (Outcome ℕ) :=
  Loop.outcomes ⟨(start queue).requeue 4, []⟩ ((start queue).toProcess 4)

-- Of the three withdrawals that are due in block 4, one is queued again.
theorem overflow_never_stranded : Due 1 6 5 (Run.run (State.step 1 fun _ => some [withdraw 2 .polkadex none])
    (3, start (replicate 3 (withdraw 1 .polkadex none))) [([[]], [[]]), ([], [])]).2 := by
  refine withdrawals_never_stranded (by decide) (by decide) fun k hk => ?_
  have hk : k = 4 := by simpa [start] using hk
  omega

end Mock

end XcmHelper
