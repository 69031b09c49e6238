import PolkadexModel.Ocex.Theorems.Frame

namespace Ocex.State

variable {Acc Auth AuthSign W : Type} [Ord Acc] {cfg : Config}
  {s s' s'' : State Acc Auth W cfg}

-- What the worker reads of the chain, and the accounts that it belongs to.
def core (s : State Acc Auth W cfg) :
    (ℕ → BoundedVec (IngressMessages Acc) cfg.obIngressLimit) ×
    (Acc → Option (AccountInfo Acc)) × (TradingPair → Option TradingPairConfig) :=
  (s.ingressMessages, s.accounts, s.tradingPairs)

section Withdrawals

variable [PalletAccounts Acc] [Assets Acc W] [CrossChainGadget Acc W]
  [Decimal.Arith]

theorem core_settleWithdrawals (s : State Acc Auth W cfg) (id : ℕ)
    (withdrawals : List (Withdrawal Acc)) :
    (s.settleWithdrawals id withdrawals).core = s.core :=
  IgnoresPayments.settleWithdrawals (fun _ _ _ _ => rfl) ..

theorem core_claimWithdraw {id : ℕ} (h : s.claimWithdraw id account = .ok s') : s'.core = s.core :=
  IgnoresPayments.claimWithdraw (fun _ _ _ _ => rfl) h

end Withdrawals

variable [Decimal.Arith]

-- What the calls leave behind: all messages in the queues were sent by calls, and the two assets of a
-- trading pair are different.
structure Sound (s : State Acc Auth W cfg) : Prop where
  sent : ∀ n, ∀ m ∈ (s.ingressMessages n).toList, Sent s m
  pairs : ∀ pair, s.tradingPairs pair ≠ none → pair.base ≠ pair.quote

-- A step of the chain. No main account is removed.
structure Advances (s s' : State Acc Auth W cfg) : Prop where
  sound : s.Sound → s'.Sound
  accounts : ∀ account, (s.accounts account).isSome → (s'.accounts account).isSome

namespace Advances

theorem trans (h : Advances s s') (h' : Advances s' s'') : Advances s s'' :=
  ⟨h'.sound ∘ h.sound, fun account ha => h'.accounts account (h.accounts account ha)⟩

theorem of_core (h : s'.core = s.core) : Advances s s' := by
  have hi : s'.ingressMessages = s.ingressMessages := congrArg Prod.fst h
  have ha : s'.accounts = s.accounts := congrArg (·.2.1) h
  have hp : s'.tradingPairs = s.tradingPairs := congrArg (·.2.2) h
  have hk : ∀ account, (s.accounts account).isSome → (s'.accounts account).isSome :=
    fun account hs => ha ▸ hs
  exact ⟨fun hs => ⟨fun n m hm => (hs.sent n m (hi ▸ hm)).mono hk,
    fun pair hn => hs.pairs pair (hp ▸ hn)⟩, hk⟩

theorem refl (s : State Acc Auth W cfg) : Advances s s :=
  of_core rfl

theorem queues (hq : Queues s ms s') (hms : ∀ m ∈ ms, Sent s' m) : Advances s s' := by
  have hp : s'.tradingPairs = s.tradingPairs := congrArg View.tradingPairs hq.view
  refine ⟨fun h => ⟨fun n m hm => ?_, fun pair hn => h.pairs pair (hp ▸ hn)⟩, hq.accounts⟩
  rw [hq.ingress n] at hm
  cases List.mem_append.mp hm with
  | inl hm => exact (h.sent n m hm).mono hq.accounts
  | inr hm =>
    split_ifs at hm
    · exact hms m hm
    · simp at hm

theorem setPair (h : base ≠ quote) : Advances s (s.setPair base quote config) := by
  have hk : ∀ account, (s.accounts account).isSome →
    ((s.setPair base quote config).accounts account).isSome := fun _ ha => ha
  refine ⟨fun hs => ⟨fun n m hm => (hs.sent n m hm).mono hk, fun pair hn => ?_⟩, hk⟩
  by_cases hp : pair = ⟨base, quote⟩
  · exact hp ▸ h
  · exact hs.pairs pair (by simpa [State.setPair, hp] using hn)

variable [DecidableEq Acc] [PalletAccounts Acc] [Assets Acc W]
  [CrossChainGadget Acc W] [CrowdSourceLiquidityMining Acc W] [Percent]

omit [DecidableEq Acc] [CrowdSourceLiquidityMining Acc W] [Percent] in
theorem executeWithdrawals {id : ℕ} {withdrawals : List (Withdrawal Acc)}
    (h : s.executeWithdrawals id withdrawals = .ok s') : Advances s s' := by
  simp only [State.executeWithdrawals] at h
  split_ifs at h
  · exact Except.ok.inj h ▸ .refl s
  · have hq := (Spends.foldlM .settleWithdrawalFee h).queues
    exact (of_core (core_settleWithdrawals s id withdrawals)).trans (.queues hq (by simp))

theorem submitSnapshot (h : s.submitSnapshot summary = .ok s') : Advances s s' := by
  simp only [State.submitSnapshot, bind_eq_ok, pure_eq_ok] at h
  obtain ⟨s₁, h₁, s₂, h₂, s₃, h₃, s₄, h₄, hs⟩ := h
  have hq := (scores_updateScores h₁).queues.trans (Spends.processEgressMsg h₂).queues
  have ha := (Advances.queues hq (by simp)).trans (.executeWithdrawals h₃)
  have hset : Advances s₃ { s₃ with
    snapshotNonce := summary.snapshotId
    snapshots := Function.update s₃.snapshots summary.snapshotId (some summary) } := of_core rfl
  have hpush := Advances.queues (.pushIngress h₄) (List.forall_mem_singleton.mpr (.setting rfl))
  have hprune : Advances s₄ s' := by
    have hk : ∀ account, (s₄.accounts account).isSome → (s'.accounts account).isSome :=
      fun _ ha => hs ▸ ha
    refine ⟨fun h => ⟨fun n m hm => ?_, hs ▸ h.pairs⟩, hk⟩
    rw [← hs] at hm
    simp only [pruneIngress, depositEvent] at hm
    split_ifs at hm
    · simp at hm
    · exact (h.sent n m hm).mono hk
  exact (ha.trans hset).trans (hpush.trans hprune)

variable [Authority Acc Auth AuthSign]
  {c : Call Acc Auth AuthSign}

omit [DecidableEq Acc] [PalletAccounts Acc] [Assets Acc W]
  [CrossChainGadget Acc W] [CrowdSourceLiquidityMining Acc W] [Percent]
  [Authority Acc Auth AuthSign] in
theorem sets {t : State Acc Auth W cfg} (h : s.Sets t c)
    (hr : ∀ base quote a b d e, c ≠ .registerTradingPair base quote a b d e)
    (hu : ∀ base quote a b d e, c ≠ .updateTradingPair base quote a b d e) : Advances s t := by
  cases c with
  | closeTradingPair base quote | openTradingPair base quote =>
    obtain ⟨config, hc, ht⟩ := h
    subst ht
    refine ⟨fun hs => ?_, fun _ ha => ha⟩
    exact (setPair (hs.pairs ⟨base, quote⟩ (by simp [hc]))).sound hs
  | registerTradingPair => exact (hr _ _ _ _ _ _ rfl).elim
  | updateTradingPair => exact (hu _ _ _ _ _ _ rfl).elim
  | claimWithdraw | submitSnapshot => exact h.elim
  | _ => exact of_core ((congrArg core h).trans rfl)

theorem dispatch (hd : dispatch s c = .ok s') : Advances s s' := by
  cases c with
  | claimWithdraw => exact .of_core (core_claimWithdraw hd)
  | submitSnapshot =>
    simp only [Ocex.dispatch, bind_eq_ok] at hd
    obtain ⟨_, _, hd⟩ := hd
    exact .submitSnapshot hd
  | registerTradingPair base quote =>
    obtain ⟨t, ⟨_, _, ht⟩, ms, hq, hms⟩ := queues_of_dispatch (by simp) (by simp) hd
    simp only [Ocex.dispatch, State.registerTradingPair, bind_eq_ok, ensure_eq_ok] at hd
    obtain ⟨_, _, _, hne, _⟩ := hd
    exact (ht ▸ Advances.setPair hne : Advances s t).trans (.queues hq hms)
  | updateTradingPair base quote =>
    obtain ⟨t, ⟨_, ht⟩, ms, hq, hms⟩ := queues_of_dispatch (by simp) (by simp) hd
    simp only [Ocex.dispatch, State.updateTradingPair, bind_eq_ok, ensure_eq_ok] at hd
    obtain ⟨_, _, _, hne, _⟩ := hd
    exact (ht ▸ Advances.setPair hne : Advances s t).trans (.queues hq hms)
  | _ =>
    obtain ⟨t, ht, ms, hq, hms⟩ := queues_of_dispatch (by simp) (by simp) hd
    exact (sets ht (by simp) (by simp)).trans (.queues hq hms)

theorem run (s : State Acc Auth W cfg)
    (calls : List (Call Acc Auth AuthSign)) :
    Advances s (Run.run step s calls) := by
  induction calls generalizing s with
  | nil => exact .refl s
  | cons c calls hi =>
    rw [Run.run_cons]
    refine Advances.trans ?_ (hi _)
    cases Run.exec_cases step s c with
    | inl he => exact .dispatch (toOption_eq_some.mp he)
    | inr he => exact he.2.symm ▸ .refl s

end Advances

-- Whatever is in the queues after a step was there before, or it is one of the messages of `P`.
def Queued (P : IngressMessages Acc → Prop) (s s' : State Acc Auth W cfg) : Prop :=
  ∀ n, ∀ m ∈ (s'.ingressMessages n).toList, m ∈ (s.ingressMessages n).toList ∨ P m

namespace Queued

variable {P : IngressMessages Acc → Prop}

omit [Decimal.Arith] in
theorem of_eq (h : s'.ingressMessages = s.ingressMessages) : Queued P s s' :=
  fun _ _ hm => .inl (h ▸ hm)

omit [Decimal.Arith] in
theorem trans (h : Queued P s s') (h' : Queued P s' s'') : Queued P s s'' :=
  fun n m hm => (h' n m hm).elim (h n m) .inr

omit [Decimal.Arith] in
theorem queues (hq : Queues s ms s') (hms : ∀ m ∈ ms, P m) : Queued P s s' := by
  intro n m hm
  rw [hq.ingress n] at hm
  cases List.mem_append.mp hm with
  | inl hm => exact .inl hm
  | inr hm =>
    split_ifs at hm
    · exact .inr (hms m hm)
    · simp at hm

omit [Decimal.Arith] in
theorem sets (h : s.Sets t c) : Queued P s t := by
  cases c with
  | closeTradingPair | openTradingPair | registerTradingPair =>
    obtain ⟨_, _, ht⟩ := h
    exact of_eq (ht ▸ rfl)
  | updateTradingPair =>
    obtain ⟨_, ht⟩ := h
    exact of_eq (ht ▸ rfl)
  | claimWithdraw | submitSnapshot => exact h.elim
  | _ => exact of_eq ((congrArg ingressMessages h).trans rfl)

variable [DecidableEq Acc] [PalletAccounts Acc] [Assets Acc W]

theorem doDeposit {id amount : ℕ} (hP : ∀ m : IngressMessages Acc, m.isSetting → P m)
    (hd : ∀ converted, P (.deposit id user asset converted))
    (h : s.doDeposit id user asset amount = .ok s') : Queued P s s' := by
  obtain ⟨_, _, converted, ms, _, hms, hq, _⟩ := Queues.doDeposit h
  refine queues hq fun m hm => ?_
  cases List.mem_append.mp hm with
  | inl hm => exact hP m (IngressMessages.settings_of_subset hms (by simp [IngressMessages.isSetting]) m hm)
  | inr hm => exact List.mem_singleton.mp hm ▸ hd converted

variable [CrossChainGadget Acc W] [CrowdSourceLiquidityMining Acc W] [Percent]

theorem submitSnapshot (hP : P .withdrawTradingFees)
    (h : s.submitSnapshot summary = .ok s') : Queued P s s' := by
  simp only [State.submitSnapshot, State.executeWithdrawals, bind_eq_ok, pure_eq_ok] at h
  obtain ⟨s₁, h₁, s₂, h₂, s₃, h₃, s₄, h₄, hs⟩ := h
  have ha : Queued P s s₂ :=
    queues ((scores_updateScores h₁).queues.trans (Spends.processEgressMsg h₂).queues) (by simp)
  have hb : Queued P s₂ s₃ := by
    split_ifs at h₃
    · exact Except.ok.inj h₃ ▸ of_eq rfl
    · have hq := (Spends.foldlM .settleWithdrawalFee h₃).queues
      have hc := congrArg Prod.fst (core_settleWithdrawals s₂ summary.snapshotId summary.withdrawals)
      exact (of_eq hc).trans (queues hq (by simp))
  have hpush := queues (Queues.pushIngress h₄) (List.forall_mem_singleton.mpr hP)
  have hc : Queued P s₃ s₄ := hpush
  have hprune : Queued P s₄ s' := by
    intro n m hm
    rw [← hs] at hm
    simp only [pruneIngress, depositEvent] at hm
    split_ifs at hm
    · simp at hm
    · exact .inl hm
  exact (ha.trans hb).trans (hc.trans hprune)

variable [Authority Acc Auth AuthSign]

theorem dispatch {c : Call Acc Auth AuthSign}
    (hP : ∀ m : IngressMessages Acc, m.isSetting → P m)
    (hd : ∀ id user asset amount, P (.deposit id user asset amount))
    (hc : movesFunds c = true → ∃ id user asset amount, c = .deposit id user asset amount)
    (h : dispatch s c = .ok s') : Queued P s s' := by
  cases c with
  | claimWithdraw => exact of_eq (congrArg Prod.fst (core_claimWithdraw h))
  | submitSnapshot =>
    simp only [Ocex.dispatch, bind_eq_ok] at h
    obtain ⟨_, _, h⟩ := h
    exact submitSnapshot (hP _ rfl) h
  | deposit => exact doDeposit hP (hd _ _ _) h
  | addLiquidity | removeLiquidity | forceClosePool => simpa using hc rfl
  | _ =>
    obtain ⟨t, ht, ms, hq, hms⟩ := settings_of_dispatch (by simp) (by simp) rfl h
    exact (sets ht).trans (queues hq fun m hm => hP m (hms m hm))

end Queued

variable [DecidableEq Acc] [PalletAccounts Acc] [Assets Acc W]
  [CrossChainGadget Acc W] [CrowdSourceLiquidityMining Acc W] [Percent]

def Reachable (AuthSign : Type) [Authority Acc Auth AuthSign]
    (s : State Acc Auth W cfg) : Prop :=
  ∃ (authorities : List Auth) (world : W)
    (calls : List (Call Acc Auth AuthSign)),
    s = Run.run step (genesis authorities world) calls

theorem Reachable.sound [Authority Acc Auth AuthSign]
    (h : s.Reachable AuthSign) : s.Sound := by
  obtain ⟨authorities, world, calls, hs⟩ := h
  rw [hs]
  exact (Advances.run _ calls).sound ⟨by simp [genesis], by simp [genesis]⟩

end Ocex.State
