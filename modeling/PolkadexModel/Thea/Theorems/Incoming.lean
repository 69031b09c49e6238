import PolkadexModel.Thea.Pallet

open Function

open Run

namespace Thea

variable {Acc TheaId Sign W : Type}
variable [Currency Acc W] [Executor W]
variable {s s' s₀ : State Acc TheaId Sign W} {c : Call Acc TheaId Sign}

-- Every message of the queue, and every reported message, is stored under its own key.
structure State.Keyed (s : State Acc TheaId Sign W) : Prop where
  queue   : ∀ {k msg}, s.incomingMessagesQueue k = some msg → k = (msg.message.network, msg.message.nonce)
  reports : ∀ {k report}, s.misbehaviourReports k = some report →
    k = (report.reportedMsg.message.network, report.reportedMsg.message.nonce)

-- The message was executed: it was due, and it was the next one of its network.
structure Executed (s : State Acc TheaId Sign W) (blk : ℕ)
    (msg : IncomingMessage Acc) (s' : State Acc TheaId Sign W) : Prop where
  due      : msg.executeAt ≤ Word.saturatedInto 32 blk
  next     : msg.message.nonce = s.nextIncomingNonce msg.message.network
  advanced : s'.incomingNonce msg.message.network = msg.message.nonce
  event    : ∃ es, s'.events = s.events ++ es ∧
    (.theaPayloadProcessed msg.message.network msg.message.nonce ∈ es ∨
      ∃ e, .depositExecutionFailed msg.message.network msg.message.nonce e ∈ es)

-- How a message may leave the queue.
inductive Leaves (s : State Acc TheaId Sign W) (k : Network × ℕ)
    (msg : IncomingMessage Acc) (s' : State Acc TheaId Sign W) :
    Call Acc TheaId Sign → Prop
  | executed : Executed s s'.currentBlockNumber msg s' → Leaves s k msg s' .nextBlock
  | replaced {signer payload stake} : k = (payload.network, payload.nonce) → msg.stake < stake →
      s'.incomingMessagesQueue k =
        some ⟨payload, signer, stake, s.executeAt (s.networkConfig payload.network)⟩ →
      Leaves s k msg s' (.submitIncomingMessage signer payload stake)
  | reported {fisherman} : s'.misbehaviourReports k =
        some ⟨msg, fisherman, (s.networkConfig k.1).fishermanStake⟩ →
      Leaves s k msg s' (.reportMisbehaviour fisherman k.1 k.2)

-- No message of the queue is lost by the call.
def Retains (s : State Acc TheaId Sign W) (c : Call Acc TheaId Sign)
    (s' : State Acc TheaId Sign W) : Prop :=
  ∀ k msg, s.incomingMessagesQueue k = some msg →
    s'.incomingMessagesQueue k = some msg ∨ Leaves s k msg s' c

-- The next message of every active network is due whenever a block is initialized, and a report is
-- only rejected while no other message has taken the place of the reported one.
def Safe (s : State Acc TheaId Sign W) : Call Acc TheaId Sign → Prop
  | .nextBlock => ∀ network ∈ s.activeNetworks, ∀ msg,
      s.incomingMessagesQueue (network, s.nextIncomingNonce network) = some msg →
      msg.executeAt ≤ Word.saturatedInto 32 (s.currentBlockNumber + 1)
  | .handleMisbehaviour network nonce false => ∀ report world,
      s.misbehaviourReports (network, nonce) = some report →
      Currency.burnFrom s.world report.fisherman report.stake = .ok world →
      ∀ msg, s.incomingMessagesQueue (network, nonce) = some msg → msg = report.reportedMsg
  | _ => True

namespace State

omit [Executor W] in
theorem releaseStake_eq (s : State Acc TheaId Sign W) (who : Acc) (stake : ℕ) :
    ∃ world es, s.releaseStake who stake = { s with world := world, events := s.events ++ es } := by
  unfold releaseStake
  split
  case h_1 world _ => exact ⟨world, [], by simp⟩
  case h_2 e _   => exact ⟨s.world, [.errorWhileReleasingLock who e], rfl⟩

theorem executeMessage_eq (s : State Acc TheaId Sign W) (nonce : ℕ)
    (msg : IncomingMessage Acc) :
    ∃ world archive es, (s.executeMessage nonce msg = { s with
      world := world
      incomingMessages := archive
      incomingNonce := update s.incomingNonce msg.message.network nonce
      events := s.events ++ es }) ∧
    (.theaPayloadProcessed msg.message.network msg.message.nonce ∈ es ∨
      ∃ e, .depositExecutionFailed msg.message.network msg.message.nonce e ∈ es) := by
  unfold executeMessage
  dsimp only
  split
  all_goals
    generalize ht : depositEvent _ _ = t
    obtain ⟨world, es, h⟩ := releaseStake_eq t msg.relayer msg.stake
    subst ht
    exact ⟨world, _, _ :: es, h.trans (by simp [depositEvent]; exact ⟨rfl, rfl⟩), by simp⟩

end State

-- What the initialization of a block does to the networks that it visits.
structure Initialized (blk : ℕ) (s : State Acc TheaId Sign W) (visited : List Network)
    (s' : State Acc TheaId Sign W) : Prop where
  kept     : ∀ k, (k.1 ∉ visited ∨ k.2 ≠ s.nextIncomingNonce k.1) →
    s'.incomingMessagesQueue k = s.incomingMessagesQueue k
  taken    : ∀ n ∈ visited, s'.incomingMessagesQueue (n, s.nextIncomingNonce n) = none
  executed : ∀ n ∈ visited, ∀ msg,
    s.incomingMessagesQueue (n, s.nextIncomingNonce n) = some msg →
    msg.executeAt ≤ Word.saturatedInto 32 blk → Executed s blk msg s'
  nonce    : ∀ n ∉ visited, s'.incomingNonce n = s.incomingNonce n
  idle     : ∀ n, (∀ msg, s.incomingMessagesQueue (n, s.nextIncomingNonce n) = some msg →
    ¬msg.executeAt ≤ Word.saturatedInto 32 blk) → s'.incomingNonce n = s.incomingNonce n
  reports  : s'.misbehaviourReports = s.misbehaviourReports
  events   : ∃ es, s'.events = s.events ++ es

namespace Initialized

omit [Currency Acc W] [Executor W] in
theorem refl (blk : ℕ) (s : State Acc TheaId Sign W) : Initialized blk s [] s := by
  constructor <;> simp

theorem onInitializeNetwork (hk : s.Keyed) (blk : ℕ) (n : Network) :
    Initialized blk s [n] (s.onInitializeNetwork blk n) := by
  unfold State.onInitializeNetwork
  split
  case h_1 h =>
    constructor <;> simp_all
  case h_2 msg h =>
    have hkey := hk.queue h
    simp only [Prod.mk.injEq] at hkey
    have hne {k : Network × ℕ} (hk : k.1 ∉ [n] ∨ k.2 ≠ s.nextIncomingNonce k.1) :
        k ≠ (n, s.nextIncomingNonce n) := by
      rintro rfl
      simp at hk
    dsimp only
    split
    case isTrue hd =>
      obtain ⟨world, archive, es, heq, hev⟩ := State.executeMessage_eq { s with
        incomingMessagesQueue := update s.incomingMessagesQueue
          (n, s.nextIncomingNonce n) none } (s.nextIncomingNonce n) msg
      rw [heq]
      exact {
        kept     := fun k hk => update_of_ne (hne hk) ..
        taken    := by simp
        executed := by
          intro n' hn' msg' h' _
          cases List.mem_singleton.mp hn'
          cases h.symm.trans h'
          exact ⟨hd, hkey.1 ▸ hkey.2.symm, by simp [hkey.2], es, rfl, hev⟩
        nonce    := fun n' hn' => update_of_ne (by simp_all) ..
        idle     := fun n' hn' => update_of_ne (by
          rintro rfl
          exact hn' msg (hkey.1 ▸ h) hd) ..
        reports  := rfl
        events   := ⟨es, rfl⟩ }
    case isFalse hd =>
      exact {
        kept     := fun k hk => update_of_ne (hne hk) ..
        taken    := by simp
        executed := by simp_all
        nonce    := fun _ _ => rfl
        idle     := fun _ _ => rfl
        reports  := rfl
        events   := ⟨[], by simp⟩ }

omit [Currency Acc W] [Executor W] in
-- The visited networks are distinct, so that no visit changes what another one reads.
theorem trans (h₁ : Initialized blk s l₁ s₁) (h₂ : Initialized blk s₁ l₂ s₂) (hk : s.Keyed)
    (hd : l₁.Disjoint l₂) : Initialized blk s (l₁ ++ l₂) s₂ := by
  have hnext {n} (hn : n ∈ l₂) : s₁.nextIncomingNonce n = s.nextIncomingNonce n := by
    simp [State.nextIncomingNonce, h₁.nonce n (fun h => hd h hn)]
  have hqueue {n} (hn : n ∈ l₂) k : s₁.incomingMessagesQueue (n, k) = s.incomingMessagesQueue (n, k) :=
    h₁.kept _ (.inl fun h => hd h hn)
  obtain ⟨es₁, he₁⟩ := h₁.events
  obtain ⟨es₂, he₂⟩ := h₂.events
  constructor
  case kept =>
    intro k hk
    have hk₁ : k.1 ∉ l₁ ∨ k.2 ≠ s.nextIncomingNonce k.1 := by simp at hk; tauto
    rw [← h₁.kept k hk₁]
    by_cases hn : k.1 ∈ l₂
    case neg => exact h₂.kept k (.inl hn)
    case pos => exact h₂.kept k (.inr <| hnext hn ▸ hk.resolve_left (by simp [hn]))
  case taken =>
    intro n hn
    by_cases hn₂ : n ∈ l₂
    case pos => exact hnext hn₂ ▸ h₂.taken n hn₂
    case neg =>
      rw [h₂.kept _ (.inl hn₂)]
      exact h₁.taken n (by simp_all)
  case executed =>
    intro n hn msg hq hdue
    have hn' : n = msg.message.network := congrArg Prod.fst (hk.queue hq)
    by_cases hn₂ : n ∈ l₂
    case pos =>
      obtain ⟨_, next, advanced, es, he, hev⟩ :=
        h₂.executed n hn₂ msg (by rw [hnext hn₂, hqueue hn₂, hq]) hdue
      exact ⟨hdue, by rw [next, ← hn', hnext hn₂], advanced, es₁ ++ es, by simp [he, he₁], by
        simpa using hev.imp .inr fun h => h.imp fun _ => .inr⟩
    case neg =>
      obtain ⟨_, next, advanced, es, he, hev⟩ := h₁.executed n (by simp_all) msg hq hdue
      exact ⟨hdue, next, hn' ▸ h₂.nonce n hn₂ ▸ hn' ▸ advanced, es ++ es₂, by simp [he, he₂], by
        simpa using hev.imp .inl fun h => h.imp fun _ => .inl⟩
  case nonce => intro n hn; simp_all [h₂.nonce n, h₁.nonce n]
  case idle =>
    intro n hn
    by_cases hn₂ : n ∈ l₂
    case pos =>
      rw [h₂.idle n, h₁.idle n hn]
      rw [hnext hn₂, hqueue hn₂]
      exact hn
    case neg => rw [h₂.nonce n hn₂, h₁.idle n hn]
  case reports => exact h₂.reports.trans h₁.reports
  case events => exact ⟨es₁ ++ es₂, by simp [he₁, he₂]⟩

omit [Currency Acc W] [Executor W] in
theorem keyed (h : Initialized blk s l s') (hk : s.Keyed) : s'.Keyed  where
  queue {k msg} hq := by
    by_cases hk' : k.1 ∉ l ∨ k.2 ≠ s.nextIncomingNonce k.1
    case pos => exact hk.queue (h.kept k hk' ▸ hq)
    case neg =>
      push Not at hk'
      have := h.taken k.1 hk'.1
      rw [← hk'.2, hq] at this
      cases this
  reports hr := hk.reports (h.reports ▸ hr)

theorem foldl (blk : ℕ) (hk : s.Keyed) (hl : l.Nodup) :
    Initialized blk s l (l.foldl (State.onInitializeNetwork blk) s) := by
  induction l generalizing s with
  | nil => exact .refl blk s
  | cons n l hi =>
    have hn := onInitializeNetwork hk blk n
    obtain ⟨hnl, hl⟩ := List.nodup_cons.mp hl
    exact hn.trans (hi (hn.keyed hk) hl) hk (by simpa using hnl)

theorem onInitialize (blk : ℕ) (hk : s.Keyed) :
    Initialized blk s s.activeNetworks.toList
      (State.onInitialize { s with currentBlockNumber := blk } blk) :=
  have h : Initialized blk { s with currentBlockNumber := blk } s.activeNetworks.toList _ :=
    .foldl blk ⟨hk.queue, hk.reports⟩ <| s.activeNetworks.distinct_toList.imp (by simp)
  { h with
    executed := fun n hn msg hq hd =>
      have he := h.executed n hn msg hq hd
      ⟨he.due, he.next, he.advanced, he.event⟩ }

end Initialized

theorem State.onInitialize_frame {β : Type} (g : State Acc TheaId Sign W → β)
    (hg : ∀ (s : State Acc TheaId Sign W) queue archive nonce world events, g { s with
      incomingMessagesQueue := queue, incomingMessages := archive, incomingNonce := nonce,
      world := world, events := events } = g s) (blk : ℕ) : g (s.onInitialize blk) = g s := by
  refine foldl_frame g (fun s n => ?_) s _
  simp only [onInitializeNetwork]
  split
  · rfl
  · split
    · obtain ⟨world, archive, es, h, _⟩ := executeMessage_eq { s with
        incomingMessagesQueue :=
          update s.incomingMessagesQueue (n, s.nextIncomingNonce n) none }
        (s.nextIncomingNonce n) ‹_›
      rw [h]
      exact hg s _ archive _ world _
    · exact hg s _ s.incomingMessages s.incomingNonce s.world s.events

theorem State.onInitialize_currentBlockNumber (blk : ℕ) :
    (s.onInitialize blk).currentBlockNumber = s.currentBlockNumber :=
  onInitialize_frame State.currentBlockNumber (fun _ _ _ _ _ _ => rfl) blk

variable [Authority TheaId Sign] [Config TheaId] [DecidableEq TheaId]

namespace State

def incoming (s : State Acc TheaId Sign W) :=
  (s.incomingMessagesQueue, s.misbehaviourReports)

omit [Currency Acc W] [Executor W] [Authority TheaId Sign] in
theorem onNewSession_frame {β : Type} (g : State Acc TheaId Sign W → β)
    (hg : ∀ (s : State Acc TheaId Sign W) authorities id next messages signed nonce events,
      g { s with
        authorities := authorities, validatorSetId := id, nextAuthorities := next,
        outgoingMessages := messages, signedOutgoingMessages := signed, outgoingNonce := nonce,
        events := events } = g s) (validators queued : List TheaId) :
    g (s.onNewSession validators queued) = g s := by
  have schedule (q id) (s : State Acc TheaId Sign W) n :
      g (s.scheduleRotation q id n) = g s := by
    unfold scheduleRotation
    split <;> exact hg s s.authorities s.validatorSetId s.nextAuthorities _ _ _ _
  have notify (p) (s : State Acc TheaId Sign W) n : g (s.notifyRotated p n) = g s := by
    unfold notifyRotated
    split <;> exact hg s s.authorities s.validatorSetId s.nextAuthorities _ _ _ _
  have reset (id) (s : State Acc TheaId Sign W) n : g (s.resetSigned id n) = g s :=
    hg s s.authorities s.validatorSetId s.nextAuthorities _ _ _ _
  have scheduled (l i q id) : g (s.scheduleRotations l i q id) = g s := by
    simp only [scheduleRotations]
    split
    · exact (hg _ _ _ q _ _ _ _).trans (foldl_frame g (schedule q id) s l)
    · rfl
  simp only [onNewSession, changeAuthorities]
  split
  · exact (foldl_frame g (notify _) ..).trans <| (foldl_frame g (reset _) ..).trans <|
      (hg _ _ _ _ _ _ _ _).trans (scheduled ..)
  · exact scheduled ..

omit [Currency Acc W] [Executor W] [Authority TheaId Sign] [Config TheaId]
  [DecidableEq TheaId] in
theorem submitSignatures_frame {β : Type} (g : State Acc TheaId Sign W → β)
    (hg : ∀ (s : State Acc TheaId Sign W) signed nonce events, g { s with
      signedOutgoingMessages := signed, signedOutgoingNonce := nonce, events := events } = g s)
 {id : ValidatorSetId} (h : submitSignatures authIndex id s signatures = .ok s') : g s' = g s := by
  induction signatures generalizing s with
  | nil => cases h; rfl
  | cons signature signatures hi =>
    simp only [submitSignatures] at h
    split at h
    case h_1 => cases h
    case h_2 s₁ h₁ =>
      refine (hi h).trans ?_
      simp only [submitSignature] at h₁
      split at h₁
      case h_1 => cases h₁
      case h_2 =>
        split at h₁
        case h_1 =>
          cases h₁
          exact hg s _ s.signedOutgoingNonce s.events
        case h_2 =>
          split_ifs at h₁ <;> cases h₁
          · exact hg s _ _ _
          · exact hg s _ s.signedOutgoingNonce _

end State

-- What a call does to the queue and to the reports.
inductive QueueStep (s s' : State Acc TheaId Sign W) :
    Call Acc TheaId Sign → Prop
  | frame {call} : call ≠ .nextBlock → s'.incomingMessagesQueue = s.incomingMessagesQueue →
      s'.misbehaviourReports = s.misbehaviourReports →
      (∀ n k report world, call = .handleMisbehaviour n k false →
        s.misbehaviourReports (n, k) = some report →
        Currency.burnFrom s.world report.fisherman report.stake ≠ .ok world) →
      QueueStep s s' call
  | submit {signer payload stake} :
      (∀ msg, s.incomingMessagesQueue (payload.network, payload.nonce) = some msg →
        msg.stake < stake) →
      s'.incomingMessagesQueue = update s.incomingMessagesQueue
        (payload.network, payload.nonce)
        (some ⟨payload, signer, stake, s.executeAt (s.networkConfig payload.network)⟩) →
      s'.misbehaviourReports = s.misbehaviourReports →
      QueueStep s s' (.submitIncomingMessage signer payload stake)
  | report {fisherman n k msg} : s.incomingMessagesQueue (n, k) = some msg →
      s'.incomingMessagesQueue = update s.incomingMessagesQueue (n, k) none →
      s'.misbehaviourReports = update s.misbehaviourReports (n, k)
        (some ⟨msg, fisherman, (s.networkConfig n).fishermanStake⟩) →
      QueueStep s s' (.reportMisbehaviour fisherman n k)
  | accept {n k} : s'.incomingMessagesQueue = s.incomingMessagesQueue →
      s'.misbehaviourReports = update s.misbehaviourReports (n, k) none →
      QueueStep s s' (.handleMisbehaviour n k true)
  | reject {n k report world} : s.misbehaviourReports (n, k) = some report →
      Currency.burnFrom s.world report.fisherman report.stake = .ok world →
      s'.incomingMessagesQueue = update s.incomingMessagesQueue
        (report.reportedMsg.message.network, report.reportedMsg.message.nonce)
        (some report.reportedMsg) →
      s'.misbehaviourReports = update s.misbehaviourReports (n, k) none →
      QueueStep s s' (.handleMisbehaviour n k false)
  | nextBlock : s'.currentBlockNumber = s.currentBlockNumber + 1 →
      (s.Keyed → Initialized (s.currentBlockNumber + 1) s s.activeNetworks.toList s') →
      QueueStep s s' .nextBlock

omit [Executor W] [Authority TheaId Sign] [Config TheaId] [DecidableEq TheaId] in
theorem QueueStep.of_incoming_eq (h : s'.incoming = s.incoming) (hb : c ≠ .nextBlock)
    (hr : ∀ n k, c ≠ .handleMisbehaviour n k false) : QueueStep s s' c :=
  .frame hb (congrArg Prod.fst h) (congrArg Prod.snd h) fun n k _ _ hc => absurd hc (hr n k)

omit [Executor W] [Authority TheaId Sign] [Config TheaId] [DecidableEq TheaId] in
theorem submitIncomingMessage_queueStep (h : s.submitIncomingMessage signer payload stake = .ok s') :
    QueueStep s s' (.submitIncomingMessage signer payload stake) := by
  unfold State.submitIncomingMessage at h
  dsimp only at h
  split_ifs at h
  split at h
  case h_1 hq =>
    split at h <;> cases h
    exact .submit (by simp [hq]) rfl rfl
  case h_2 existing hq =>
    split_ifs at h with hs
    case neg =>
      cases h
      exact .of_incoming_eq rfl (by simp) (by simp)
    case pos =>
      repeat' split at h
      all_goals cases h
      exact .submit (by simp [hq, hs]) rfl rfl

omit [Executor W] [Authority TheaId Sign] [Config TheaId] [DecidableEq TheaId] in
theorem reportMisbehaviour_queueStep (h : s.reportMisbehaviour fisherman n k = .ok s') :
    QueueStep s s' (.reportMisbehaviour fisherman n k) := by
  unfold State.reportMisbehaviour at h
  dsimp only at h
  repeat' split at h
  all_goals cases h
  case _ hq => exact .report hq rfl rfl

omit [Executor W] [Authority TheaId Sign] [Config TheaId] [DecidableEq TheaId] in
theorem handleMisbehaviour_queueStep (h : s.handleMisbehaviour n k acceptance = .ok s') :
    QueueStep s s' (.handleMisbehaviour n k acceptance) := by
  unfold State.handleMisbehaviour at h
  split at h
  case h_1 hr =>
    cases h
    exact .frame (by simp) rfl rfl fun _ _ _ _ hc hr' => by cases hc; simp [hr] at hr'
  case h_2 report hr =>
    cases acceptance
    case true =>
      simp only [State.slashRelayer, if_true] at h
      repeat' split at h
      all_goals cases h
      exact .accept rfl rfl
    case false =>
      simp only [State.restoreMessage, Bool.false_eq_true, if_false] at h
      split at h <;> cases h
      case _ hb => exact .reject hr hb rfl rfl

theorem step_queueStep (h : step s c = some s') : QueueStep s s' c := by
  have hd : dispatch s c = .ok s' := by
    simp only [step] at h
    cases hc : dispatch s c <;> simp_all [Except.toOption]
  cases c
  case submitIncomingMessage => exact submitIncomingMessage_queueStep hd
  case reportMisbehaviour => exact reportMisbehaviour_queueStep hd
  case handleMisbehaviour => exact handleMisbehaviour_queueStep hd
  case nextBlock =>
    cases hd
    exact .nextBlock (State.onInitialize_currentBlockNumber _) (Initialized.onInitialize _)
  all_goals refine .of_incoming_eq ?_ (by simp) (by simp)
  case newSession =>
    cases hd
    exact State.onNewSession_frame State.incoming (fun _ _ _ _ _ _ _ _ => rfl) ..
  case submitSignedOutgoingMessages =>
    simp only [dispatch, State.submitSignedOutgoingMessages] at hd
    split at hd
    case h_1 => cases hd
    case h_2 =>
      split_ifs at hd
      exact State.submitSignatures_frame State.incoming (fun _ _ _ _ => rfl) hd
  all_goals
    simp only [dispatch, State.executeWithdrawals, State.updateOutgoingNonce,
      State.addTheaNetwork] at hd
    repeat' split at hd
    all_goals cases hd
    all_goals rfl

theorem State.Keyed.step (hk : s.Keyed) (h : Thea.step s c = some s') : s'.Keyed := by
  cases step_queueStep h with
  | frame _ hq hr _ => exact ⟨hq ▸ hk.queue, hr ▸ hk.reports⟩
  | submit _ hq hr =>
    refine ⟨fun {k msg} h => ?_, hr ▸ hk.reports⟩
    rw [hq, update_apply] at h
    split_ifs at h with hkey
    · cases h; exact hkey
    · exact hk.queue h
  | report hm hq hr =>
    refine ⟨fun {k msg} h => ?_, fun {k report} h => ?_⟩
    · rw [hq, update_apply] at h
      split_ifs at h
      exact hk.queue h
    · rw [hr, update_apply] at h
      split_ifs at h with hkey
      · cases h; exact hkey ▸ hk.queue hm
      · exact hk.reports h
  | accept hq hr =>
    refine ⟨hq ▸ hk.queue, fun {k report} h => ?_⟩
    rw [hr, update_apply] at h
    split_ifs at h
    exact hk.reports h
  | reject _ _ hq hr =>
    refine ⟨fun {k msg} h => ?_, fun {k report} h => ?_⟩
    · rw [hq, update_apply] at h
      split_ifs at h with hkey
      · cases h; exact hkey
      · exact hk.queue h
    · rw [hr, update_apply] at h
      split_ifs at h
      exact hk.reports h
  | nextBlock _ hi => exact (hi hk).keyed hk

omit [Executor W] [Authority TheaId Sign] [Config TheaId] [DecidableEq TheaId] in
-- The initialization of a block loses exactly the messages which it takes before they are due.
theorem retains_nextBlock_iff (hi : Initialized (s.currentBlockNumber + 1) s s.activeNetworks.toList s')
    (hb : s'.currentBlockNumber = s.currentBlockNumber + 1) :
    Retains s .nextBlock s' ↔ Safe s .nextBlock := by
  constructor
  case mp =>
    intro hr n hn msg hq
    rcases hr _ msg hq with hq' | hl
    · have := hi.taken n (Std.TreeSet.mem_toList.mpr hn)
      cases hq'.symm.trans this
    · cases hl with | executed he => exact hb ▸ he.due
  case mpr =>
    intro hs k msg hq
    by_cases hv : k.1 ∉ s.activeNetworks ∨ k.2 ≠ s.nextIncomingNonce k.1
    case pos => exact .inl <| hi.kept k (by simpa using hv) ▸ hq
    case neg =>
      push Not at hv
      have hq : s.incomingMessagesQueue (k.1, s.nextIncomingNonce k.1) = some msg := hv.2 ▸ hq
      have hd := hs k.1 hv.1 msg hq
      exact .inr <| .executed <| hb ▸ hi.executed k.1 (Std.TreeSet.mem_toList.mpr hv.1) msg hq hd

omit [Currency Acc W] [Executor W] [Authority TheaId Sign] [Config TheaId]
  [DecidableEq TheaId] in
theorem Retains.of_frame (h : s'.incomingMessagesQueue = s.incomingMessagesQueue) : Retains s c s' :=
  fun _ _ hq => .inl (h ▸ hq)

-- The step lemma. Only the initialization of a block and the rejection of a report can lose a
-- message.
theorem retains_iff_safe (hk : s.Keyed) (h : step s c = some s') : Retains s c s' ↔ Safe s c := by
  cases step_queueStep h with
  | nextBlock hb hi => exact retains_nextBlock_iff (hi hk) hb
  | frame hb hq hr hf =>
    refine iff_of_true (.of_frame hq) ?_
    unfold Safe
    split
    · exact absurd rfl hb
    · exact fun report world hr hb' => absurd hb' (hf _ _ report world rfl hr)
    · trivial
  | accept hq hr => exact iff_of_true (.of_frame hq) trivial
  | @submit signer payload stake hs hq hr =>
    refine iff_of_true (fun k msg hm => ?_) trivial
    by_cases hkey : k = (payload.network, payload.nonce)
    case neg => exact .inl <| by rw [hq, update_of_ne hkey, hm]
    case pos => exact .inr <| .replaced hkey (hs msg (hkey ▸ hm)) (by rw [hq, hkey, update_self])
  | @report fisherman n k msg hm hq hr =>
    refine iff_of_true (fun k' msg' hm' => ?_) trivial
    by_cases hkey : k' = (n, k)
    case neg => exact .inl <| by rw [hq, update_of_ne hkey, hm']
    case pos =>
      subst hkey
      cases hm.symm.trans hm'
      exact .inr <| .reported (by rw [hr, update_self])
  | @reject n k report world hr hb hq hr' =>
    have hkey := hk.reports hr
    constructor
    case mp =>
      intro hret report' world' hr' _ msg hm
      cases hr.symm.trans hr'
      rcases hret _ msg hm with hm' | hl
      · rw [hq, ← hkey, update_self] at hm'
        exact (Option.some.inj hm').symm
      · cases hl
    case mpr =>
      intro hs k' msg hm
      refine .inl ?_
      rw [hq, ← hkey, update_apply]
      split_ifs with hk'
      · rw [hs report world hr hb msg (hk' ▸ hm)]
      · exact hm

theorem safe_of_rejected (h : step s c = none) : Safe s c := by
  unfold Safe
  split
  · simp [step, dispatch, Except.toOption] at h
  · intro report world hr hb
    simp [step, dispatch, State.handleMisbehaviour, State.restoreMessage, hr, hb,
      Except.toOption] at h
  · trivial

-- No deposit is lost in a run, whatever calls are made, if and only if all of its calls are safe.
theorem retains_iff_safe_run (authorities : List TheaId) (world : W)
    (cs : List (Call Acc TheaId Sign)) :
    Along step (fun s c => Retains s c (exec step s c)) (.genesis authorities world) cs ↔
    Along step Safe (.genesis authorities world) cs := by
  refine forall₂_congr fun e he => ?_
  have hk : e.1.Keyed := by
    refine Along.invariant_trace (P := fun _ _ => True) (fun _ _ => trivial) ?_ ?_ he
    · constructor <;> simp [State.genesis]
    · intro s c _ hk
      rcases exec_cases step s c with h | ⟨_, h⟩
      · exact hk.step h
      · exact h.symm ▸ hk
  rcases exec_cases step e.1 e.2 with h | ⟨h, hs⟩
  · exact retains_iff_safe hk h
  · exact iff_of_true (.of_frame (by rw [hs])) (safe_of_rejected h)

def exampleDeposit : Message where
  blockNo := 1
  nonce := 1
  network := 1
  payloadType := .l1Deposit
  data := []

def exampleCalls : List (Call ℕ ℕ (ℕ × Message)) := [
  .addTheaNetwork 1 false 2 10 10, .submitIncomingMessage 9 exampleDeposit 10, .nextBlock]

-- The first block after the submission takes the deposit out of the queue and drops it.
theorem deposit_dropped : ¬∀ cs : List (Call ℕ ℕ (ℕ × Message)),
    Along step (fun s c => Retains s c (exec step s c))
      (.genesis [] ⟨fun _ => 100, fun _ => 0⟩ : State ℕ ℕ (ℕ × Message) Mock) cs := by
  intro h
  have hr := h exampleCalls _ (List.mem_cons_of_mem _ <| List.mem_cons_of_mem _ <| List.mem_cons_self ..)
    (1, 1) ⟨exampleDeposit, 9, 10, 2⟩ (by decide)
  rcases hr with hq | ⟨⟨due, _, _, _⟩⟩
  · exact absurd hq (by decide)
  · exact absurd due (by decide)

end Thea
