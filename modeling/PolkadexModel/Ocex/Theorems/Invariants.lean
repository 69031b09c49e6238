import PolkadexModel.Ocex.Theorems.Queue
import PolkadexModel.Ocex.Theorems.Batches

namespace Ocex

variable {Acc Auth Sign W : Type} [Ord Acc] [DecidableEq Acc]
  [PalletAccounts Acc] [Decimal.Arith] [Verify Acc Sign] {cfg : Config}

def Deposited (amount : Decimal) : Prop :=
  (∃ n, State.inUnits .failedToConvertDecimaltoBalance n = .ok amount) ∨
    ∃ n, State.inPlanck amount = .ok n

-- The steps that the batches consist of. What each of them preserves is preserved by the batches.
structure Preserves (chain : State Acc Auth W cfg)
    (ts : List (Trade Acc Sign)) (P : OffchainState Acc → Prop) : Prop where
  deposit : ∀ {s account asset amount}, (chain.accounts account).isSome → Deposited amount → P s →
    P (s.addBalance account asset amount)
  debit : ∀ {s s' account asset amount isWithdrawal deducted},
    s.subBalance account asset amount isWithdrawal = .ok (s', deducted) → P s → P s'
  epoch : ∀ {s epoch}, P s → P (s.startNewLmpEpoch epoch)
  trade : ∀ {s s' t}, t ∈ ts → settleTrade chain s t = .ok s' → P s → P s'

namespace Preserves

variable {chain : State Acc Auth W cfg} {ts ts' : List (Trade Acc Sign)}
  {P : OffchainState Acc → Prop} {s s' : OffchainState Acc}

theorem mono (h : Preserves chain ts P) (hts : ts' ⊆ ts) : Preserves chain ts' P :=
  ⟨h.deposit, h.debit, h.epoch, fun ht => h.trade (hts ht)⟩

theorem withdrawFees (h : Preserves chain ts P)
 (hs : OffchainState.withdrawFees fees s asset = .ok s') (hp : P s) : P s' := by
  simp only [OffchainState.withdrawFees] at hs
  split at hs
  · exact Except.ok.inj hs ▸ hp
  · simp only [bind_eq_ok, pure_eq_ok, Prod.exists] at hs
    obtain ⟨_, _, _, _, _, _, hsub, ht⟩ := hs
    exact ht ▸ h.debit hsub hp

theorem importTradingFees (h : Preserves chain ts P)
    (hs : s.importTradingFees allowlist message = .ok (s', egress)) (hp : P s) : P s' := by
  simp only [OffchainState.importTradingFees] at hs
  split at hs
  · simp at hs
  · simp only [bind_eq_ok, pure_eq_ok, Prod.mk.injEq] at hs
    obtain ⟨_, hl, ht, _⟩ := hs
    exact ht ▸ Except.foldlM_invariant hl hp fun _ _ _ _ hp hs => h.withdrawFees hs hp
  · simp at hs

theorem importRemoveLiquidity {lp : Acc} (h : Preserves chain ts P)
    (hs : s.importRemoveLiquidity market pool lp burnFrac message = .ok (s', egress)) (hp : P s) : P s' := by
  simp only [OffchainState.importRemoveLiquidity] at hs
  split at hs
  · simp at hs
  · simp only [bind_eq_ok, pure_eq_ok, Prod.exists, Prod.mk.injEq] at hs
    obtain ⟨_, _, _, _, _, _, _, _, _, _, hq, _, _, hb, ht, _⟩ := hs
    exact ht ▸ h.debit hb (h.debit hq hp)
  · simp only [bind_eq_ok, pure_eq_ok, Prod.mk.injEq] at hs
    obtain ⟨_, _, _, _, _, _, _, _, _, _, _, _, _, _, ht, _⟩ := hs
    exact ht ▸ hp
  · simp at hs

theorem importMessage (h : Preserves chain ts P) (hm : chain.Sent message)
    (hs : OffchainState.importMessage allowlist engine acc message = .ok acc') (hp : P acc.1) : P acc'.1 := by
  cases hm with
  | deposit _ hc hu =>
    cases Except.ok.inj hs
    exact h.deposit hu (.inl ⟨_, hc⟩) hp
  | addLiquidity _ hb _ hq hu =>
    simp only [OffchainState.importMessage, OffchainState.importAddLiquidity, bind_eq_ok,
      pure_eq_ok, Prod.exists, Prod.mk.injEq] at hs
    obtain ⟨_, _, ⟨_, _, ht, _⟩, ha⟩ := hs
    rw [← ha, ← ht]
    exact h.deposit hu (.inr ⟨_, hq⟩) (h.deposit hu (.inr ⟨_, hb⟩) hp)
  | removeLiquidity =>
    simp only [OffchainState.importMessage, bind_eq_ok, pure_eq_ok, Prod.exists] at hs
    obtain ⟨_, _, hr, ha⟩ := hs
    exact ha ▸ h.importRemoveLiquidity hr hp
  | forceClosePool =>
    simp only [OffchainState.importMessage, OffchainState.importForceClosePool, bind_eq_ok,
      pure_eq_ok, Prod.exists, Prod.mk.injEq] at hs
    obtain ⟨_, _, ⟨_, _, hb, _, _, hq, ht, _⟩, ha⟩ := hs
    rw [← ha, ← ht]
    exact h.debit hq (h.debit hb hp)
  | setting hset =>
    cases message with
    | deposit | addLiquidity | removeLiquidity | forceClosePool => cases hset
    | withdrawTradingFees =>
      simp only [OffchainState.importMessage, bind_eq_ok, pure_eq_ok, Prod.exists] at hs
      obtain ⟨_, _, hf, ha⟩ := hs
      exact ha ▸ h.importTradingFees hf hp
    | newLMPEpoch epoch =>
      cases Except.ok.inj hs
      exact h.epoch hp
    | _ => exact Except.ok.inj hs ▸ hp

theorem importBlk (h : Preserves chain ts P) (hc : chain.Sound)
    (hs : Ocex.importBlk chain blk s info engine = .ok (s', info', egress)) (hp : P s) : P s' := by
  simp only [Ocex.importBlk, bind_eq_ok, pure_eq_ok, Prod.exists, Prod.mk.injEq] at hs
  obtain ⟨_, _, t, _, hl, ht, _⟩ := hs
  refine ht ▸ Except.foldlM_invariant (motive := fun acc => P acc.1) hl hp ?_
  exact fun m hm _ _ hp hs => h.importMessage (hc.sent blk m hm) hs hp

variable [FromText]

theorem processAction
    (h : Preserves chain ts P) (hc : chain.Sound) (hts : ∀ ts', action = .trade ts' → ts' ⊆ ts)
    (hb : Ocex.processAction chain b action = .ok b') (hp : P b.state) : P b'.state := by
  cases action with
  | trade ts' =>
    simp only [Ocex.processAction, bind_eq_ok, pure_eq_ok] at hb
    obtain ⟨_, hs, hb⟩ := hb
    rw [← hb]
    exact Except.foldlM_invariant hs hp fun t ht _ _ hp hs => h.trade (hts ts' rfl ht) hs hp
  | withdraw | withdrawV1 =>
    simp only [Ocex.processAction, bind_eq_ok, pure_eq_ok, Prod.exists] at hb
    obtain ⟨_, _, hs, hb⟩ := hb
    obtain ⟨_, _, hsub⟩ := (withdraw_eq_ok hs).2
    exact hb ▸ h.debit hsub hp
  | blockImport =>
    simp only [Ocex.processAction, bind_eq_ok, pure_eq_ok, Prod.exists] at hb
    obtain ⟨_, _, _, hs, hb⟩ := hb
    exact hb ▸ h.importBlk hc hs hp
  | reset | oneMinLMPReport => exact Except.ok.inj hb ▸ hp

end Preserves

namespace Worker

variable [FromText] {w : Worker Acc} {i : Input Acc Auth Sign W cfg}
  {is : List (Input Acc Auth Sign W cfg)} {P : OffchainState Acc → Prop}

theorem preserved_result (hc : i.1.Sound)
    (h : Preserves i.1 i.2.trades P) (hr : w.result i = some b) (hw : P w.state) : P b.state := by
  refine Except.foldlM_invariant (motive := fun b => P b.state) (result_eq_some.mp hr).2 hw ?_
  intro action ha b b' hp hb
  refine h.processAction hc (fun ts' hts t hmem => ?_) hb hp
  exact List.mem_flatMap.mpr ⟨action, ha, by simpa [hts] using hmem⟩

theorem preserved_run (hw : P w.state) (hc : ∀ i ∈ is, i.1.Sound)
    (h : ∀ i ∈ is, Preserves i.1 (w.trades is) P) : P (Run.run step w is).state := by
  induction is generalizing w with
  | nil => exact hw
  | cons i is hi =>
    have hc' := fun j hj => hc j (List.mem_cons_of_mem _ hj)
    have h' := fun j hj => h j (List.mem_cons_of_mem i hj)
    have h₀ := h i List.mem_cons_self
    rw [Run.run_cons]
    simp only [trades, collect] at h' h₀
    cases hr : w.result i with
    | none =>
      rw [Run.exec_of_none (by simp [step, hr])]
      simp only [hr] at h'
      exact hi hw hc' h'
    | some b =>
      have hstep : step w i = some (commitBatch b i.2) := by simp [step, hr]
      simp only [hr] at h' h₀
      have hb := preserved_result (hc i List.mem_cons_self) (h₀.mono (List.subset_append_left ..)) hr hw
      rw [Run.exec_of_some hstep]
      exact hi hb hc' fun j hj => (h' j hj).mono (List.subset_append_right ..)

end Worker

end Ocex
