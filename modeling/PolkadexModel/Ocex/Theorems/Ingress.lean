import Mathlib.Algebra.Order.Pi
import PolkadexModel.Ocex.Theorems.Custody
import PolkadexModel.Ocex.Theorems.Imports
import PolkadexModel.Ocex.Theorems.World

open List Ocex.OffchainState

-- What comes into the custody of the exchange on the chain, and what the import credits for it.
namespace Ocex

open Decimal (FaithfulArith OnGrid truncLoss truncRat)

variable {Acc Auth AuthSign W : Type}

theorem Posting.net_append (asset : AssetId) (ps qs : List (Posting Acc)) :
    net asset (ps ++ qs) = net asset ps + net asset qs := by
  simp [net]

namespace IngressMessages

def additions : IngressMessages Acc → List (Posting Acc)
  | .deposit _ main asset amount => [⟨main, asset, amount, true⟩]
  | .addLiquidity market pool _ _ baseDeposited quoteDeposited =>
    [⟨pool, market.baseAsset, baseDeposited, true⟩, ⟨pool, market.quoteAsset, quoteDeposited, true⟩]
  | _ => []

-- The messages for which nothing is taken from the balances.
def isIncoming : IngressMessages Acc → Bool
  | .removeLiquidity .. | .forceClosePool .. | .withdrawTradingFees => false
  | _ => true

theorem isCredit_of_mem_additions {m : IngressMessages Acc} (h : p ∈ m.additions) : p.isCredit := by
  cases m with
  | deposit | addLiquidity => simp only [additions, mem_cons, not_mem_nil, or_false] at h; grind
  | _ => cases h

end IngressMessages

section Import

variable [DecidableEq Acc] [PalletAccounts Acc] [Decimal.Arith]
  {s s' : OffchainState Acc} {allowlist : Std.TreeSet AssetId}
  {engine : IngressMessages Acc → Option (EgressMessages Acc)}
  {m : IngressMessages Acc} {queue : List (IngressMessages Acc)}
  {egress out : List (EgressMessages Acc)}

omit [DecidableEq Acc] in
theorem OffchainState.postings_of_isIncoming (h : m.isIncoming) :
    s.postings allowlist engine m = m.additions := by
  cases m with
  | removeLiquidity | forceClosePool | withdrawTradingFees => cases h
  | _ => rfl

theorem OffchainState.queuePostings_of_isIncoming (hq : ∀ m ∈ queue, m.isIncoming)
    (h : queue.foldlM (importMessage allowlist engine) (s, egress) = .ok (s', out)) :
    queuePostings allowlist engine s queue = queue.flatMap IngressMessages.additions := by
  induction queue generalizing s egress with
  | nil => rfl
  | cons m queue hi =>
    obtain ⟨t, new, _, h, hps⟩ := import_cons h
    have hm := hq m mem_cons_self
    rw [hps, postings_of_isIncoming hm, hi (fun m hm => hq m (mem_cons_of_mem _ hm)) h,
      flatMap_cons]

variable [Ord Acc] {cfg : Config} {chain : State Acc Auth W cfg}
  {imports : List (ℕ × (IngressMessages Acc → Option (EgressMessages Acc)))}
  {info info' : StateInfo}

-- The import of several blocks, each with the messages of the engine for it.
def importBlocks (chain : State Acc Auth W cfg)
    (imports : List (ℕ × (IngressMessages Acc → Option (EgressMessages Acc))))
    (s : OffchainState Acc) (info : StateInfo) :
    Except Fault (OffchainState Acc × StateInfo) :=
  imports.foldlM (fun acc i => do
    let (s, info, _) ← importBlk chain i.1 acc.1 acc.2 i.2
    return (s, info)) (s, info)

def State.queued (chain : State Acc Auth W cfg) (blks : List ℕ) :
    List (IngressMessages Acc) :=
  blks.flatMap fun blk => (chain.ingressMessages blk).toList

theorem postAll_importBlocks (hm : ∀ m ∈ chain.queued (imports.map Prod.fst), m.isIncoming)
    (h : importBlocks chain imports s info = .ok (s', info')) :
    ∃ t, s.postAll ((chain.queued (imports.map Prod.fst)).flatMap IngressMessages.additions) = .ok t ∧
      t.balances = s'.balances := by
  induction imports generalizing s info with
  | nil =>
    cases foldlM_nil_eq_ok.mp h
    exact ⟨_, rfl, rfl⟩
  | cons i imports hi =>
    simp only [State.queued, map_cons, flatMap_cons, flatMap_append,
      forall_mem_append] at hm ⊢
    obtain ⟨acc, hblk, h⟩ := foldlM_cons_eq_ok.mp h
    simp only [importBlk, bind_eq_ok, pure_eq_ok, Prod.exists, Prod.mk.injEq] at hblk
    obtain ⟨_, _, _, ⟨_, _, t, _, hl, ht, _⟩, hacc⟩ := hblk
    subst hacc ht
    obtain ⟨u, hu, hut⟩ := postAll_import hl
    rw [queuePostings_of_isIncoming hm.1 hl] at hu
    obtain ⟨v, hv, hvs⟩ := hi hm.2 h
    obtain ⟨w, hw, hwv⟩ := postAll_congr hut hv
    exact ⟨w, Except.foldlM_append_eq_ok.mpr ⟨u, hu, hw⟩, hwv.trans hvs⟩

end Import

section Truncation

variable [DecidableEq Acc] {s t : OffchainState Acc} {p q : Posting Acc}
  {ps : List (Posting Acc)} {b : Decimal}

-- What is credited to the balance of a posting by others.
def Posting.received (p : Posting Acc) (ps : List (Posting Acc)) : ℚ :=
  (ps.map fun q => if p.account = q.account ∧ p.asset = q.asset then q.amount.toRat else 0).sum

-- A credit to a balance which is there already, or has been credited before, is cut off after nine
-- decimal places. There is nothing to cut off.
def Uncut (s : OffchainState Acc) (ps : List (Posting Acc)) : Prop :=
  ∀ before p after, ps = before ++ p :: after →
    ((s.entry p.account p.asset).isSome ∨ ∃ q ∈ before, p.account = q.account ∧ p.asset = q.asset) →
    OnGrid 9 (p.balance s + p.received before + p.amount.toRat)

theorem balance_add_received (hs : t = s.setEntry p.account p.asset b)
    (hb : b.toRat = p.balance s + p.amount.toRat) (q : Posting Acc)
    (ps : List (Posting Acc)) :
    q.balance t + q.received ps = q.balance s + q.received (p :: ps) := by
  rw [hs, Fits.balance_setEntry, Posting.received, Posting.received, map_cons, sum_cons]
  split_ifs with hq
  · rw [hb, Posting.balance, Posting.balance, hq.1, hq.2]
    ring
  · ring

theorem uncut_cons_iff (hs : t = s.setEntry p.account p.asset b)
    (hb : b.toRat = p.balance s + p.amount.toRat) : Uncut s (p :: ps) ↔
      ((s.entry p.account p.asset).isSome → OnGrid 9 (p.balance s + p.amount.toRat)) ∧ Uncut t ps := by
  have hentry (q : Posting Acc) : (t.entry q.account q.asset).isSome ↔
      (s.entry q.account q.asset).isSome ∨ q.account = p.account ∧ q.asset = p.asset := by
    rw [hs, entry_setEntry]
    split_ifs with hq <;> simp [hq]
  have hsum := balance_add_received hs hb
  constructor
  · intro h
    refine ⟨fun hp => ?first, fun before q after he hq => ?rest⟩
    case first => simpa [Posting.received] using h [] p ps rfl (.inl hp)
    case rest =>
      rw [hsum]
      refine h (p :: before) q after (by rw [he]; rfl) ?_
      rw [hentry, or_assoc] at hq
      simpa using hq
  · rintro ⟨h, ht⟩ before q after he hq
    cases before with
    | nil =>
      cases he
      simpa [Posting.received] using h (by simpa using hq)
    | cons p' before =>
      obtain ⟨hp, htail⟩ := cons.inj he
      subst hp
      rw [← hsum]
      refine ht before q after htail ?_
      rw [hentry, or_assoc]
      simpa using hq

theorem lossAlong_eq_zero_iff [Decimal.Arith]
    (hf : Fits k s ps) (hc : ∀ p ∈ ps, p.isCredit) (hp : s.postAll ps = .ok s') :
    (∀ asset, s.lossAlong asset ps = 0) ↔ Uncut s ps := by
  induction ps generalizing s with
  | nil => simp [lossAlong, Uncut]
  | cons p ps hi =>
    obtain ⟨t, ht, hp⟩ := foldlM_cons_eq_ok.mp hp
    obtain ⟨b, hs, hb⟩ := (hf.exact ht).post ht
    have hchange : p.change = p.amount.toRat := by simp [Posting.change, hc p mem_cons_self]
    rw [hchange] at hb
    have hloss : p.loss s = 0 ↔
        ((s.entry p.account p.asset).isSome → OnGrid 9 (p.balance s + p.amount.toRat)) := by
      rw [Posting.loss, Posting.balance, hchange]
      cases he : s.entry p.account p.asset with
      | none => simp
      | some c => simp [getBalance_eq he, Decimal.truncLoss_eq_zero_iff]
    have hsplit : (∀ asset, s.lossAlong asset (p :: ps) = 0) ↔
        p.loss s = 0 ∧ ∀ asset, t.lossAlong asset ps = 0 := by
      have hadd (asset : AssetId) : s.lossAlong asset (p :: ps) =
          (if p.asset = asset then p.loss s else 0) + t.lossAlong asset ps := by
        rw [lossAlong, ht]
        rfl
      have hnn (asset : AssetId) := lossAlong_nonneg asset t ps
      have hpn := p.loss_nonneg s
      constructor
      · intro h
        have hfirst := h p.asset
        rw [hadd, if_pos rfl] at hfirst
        have hz : p.loss s = 0 := by linarith [hnn p.asset]
        refine ⟨hz, fun asset => ?_⟩
        simpa [hadd, hz] using h asset
      · rintro ⟨hz, h⟩ asset
        simp [hadd, hz, h asset]
    rw [hsplit, hi (hf.tail ht) (fun q hq => hc q (mem_cons_of_mem p hq)) hp]
    constructor
    · rintro ⟨hz, hu⟩
      rw [hz, sub_zero] at hb
      exact (uncut_cons_iff hs hb).mpr ⟨hloss.mp hz, hu⟩
    · intro hu
      have hz : p.loss s = 0 := by
        refine hloss.mpr fun he => ?_
        simpa [Posting.received] using hu [] p ps rfl (.inl he)
      rw [hz, sub_zero] at hb
      exact ⟨hz, ((uncut_cons_iff hs hb).mp hu).2⟩

-- In particular, there is nothing to cut off if all amounts have at most nine decimal places.
theorem uncut_of_onGrid (hb : ∀ p ∈ ps, OnGrid 9 (p.balance s))
    (ha : ∀ p ∈ ps, OnGrid 9 p.amount.toRat) : Uncut s ps := by
  have hreceived (p : Posting Acc) {qs : List (Posting Acc)}
      (hqs : ∀ q ∈ qs, OnGrid 9 q.amount.toRat) : OnGrid 9 (p.received qs) := by
    induction qs with
    | nil => exact ⟨0, by simp [Posting.received]⟩
    | cons q qs hi =>
      rw [Posting.received, map_cons, sum_cons]
      refine OnGrid.add ?_ (hi fun q hq => hqs q (mem_cons_of_mem _ hq))
      split_ifs
      · exact hqs q mem_cons_self
      · exact ⟨0, by simp⟩
  intro before p after he _
  subst he
  exact ((hb p (by simp)).add (hreceived p fun q hq => ha q (by simp [hq]))).add (ha p (by simp))

end Truncation

section Chain

variable [Ord Acc] {cfg : Config} [PalletAccounts Acc] [Assets Acc W]
  [CrowdSourceLiquidityMining Acc W] [Custody Acc W]

namespace State

variable {s s' : State Acc Auth W cfg}

theorem custody_congr (h : s'.world = s.world) : s'.custody = s.custody := by
  funext asset
  rw [custody, custody, h]

theorem custody_doDeposit [DecidableEq Acc] [Decimal.Arith] {id amount : ℕ}
 (h : s.doDeposit id user asset amount = .ok s')
    (hu : user ≠ PalletAccounts.palletAccount) : s'.custody = s.custody + Pi.single asset amount := by
  simp only [doDeposit, transferAsset, bind_eq_ok, pure_eq_ok] at h
  obtain ⟨_, _, _, _, _, _, _, _, _, _, t₁, h₁, t₂, ⟨w, hw, h₂⟩, _, _, t₃, h₃, hs⟩ := h
  have hregister := (frame_registerDepositor h₁).1
  have hpush := (frame_pushIngress h₃).1
  have hworld : s'.world = w := by
    rw [← hs]
    exact hpush.trans (congrArg world h₂).symm
  rw [hregister] at hw
  funext a
  rw [custody, hworld, Custody.transfer_in hw hu]
  rfl

theorem custody_startNewEpoch (s : State Acc Auth W cfg) (n : ℕ) :
    (s.startNewEpoch n).custody = s.custody := by
  simp only [startNewEpoch]
  cases s.expectedLMPConfig with
  | none => rfl
  | some config =>
    funext asset
    simp only [custody]
    rw [(frame_pushEpoch ..).1, enterEpoch, Custody.newEpoch]

theorem custody_onInitialize (s : State Acc Auth W cfg) (n : ℕ) :
    (s.onInitialize n).custody = s.custody := by
  have hstop (t : State Acc Auth W cfg) : State.custody { t with
      world := CrowdSourceLiquidityMining.stopAcceptingLmpWithdrawals Acc t.world t.lmpEpoch } =
      t.custody := by
    funext asset
    rw [custody, custody, Custody.stopAccepting]
  simp only [onInitialize]
  split_ifs
  · exact (hstop _).trans (custody_startNewEpoch s n)
  · exact hstop s
  · exact custody_startNewEpoch s n
  · rfl

def blocksSince (s : State Acc Auth W cfg) (b : ℕ) : List ℕ :=
  List.range' b (s.currentBlockNumber + 1 - b)

omit [PalletAccounts Acc] [Assets Acc W] [CrowdSourceLiquidityMining Acc W]
  [Custody Acc W] in
theorem blocksSince_eq (h : b ≤ s.currentBlockNumber) :
    s.blocksSince b = List.range' b (s.currentBlockNumber - b) ++ [s.currentBlockNumber] := by
  rw [blocksSince, Nat.succ_sub h, range'_concat, Nat.one_mul, Nat.add_sub_cancel' h]

def creditsSince (s : State Acc Auth W cfg) (b : ℕ) : List (Posting Acc) :=
  (s.queued (s.blocksSince b)).flatMap IngressMessages.additions

omit [PalletAccounts Acc] [Assets Acc W] [CrowdSourceLiquidityMining Acc W]
  [Custody Acc W] in
theorem Queues.queued (h : Queues s ms s') (hb : b ≤ s.currentBlockNumber) :
    s'.queued (s'.blocksSince b) = s.queued (s.blocksSince b) ++ ms := by
  have hblk := h.currentBlockNumber
  rw [blocksSince_eq hb, blocksSince_eq (hblk ▸ hb), hblk]
  simp only [State.queued, flatMap_append, flatMap_singleton, h.ingress, if_true,
    append_assoc]
  congr 1
  refine flatMap_congr fun n hn => ?_
  have hlt : n ≠ s.currentBlockNumber := by
    rw [mem_range'_1] at hn
    omega
  rw [if_neg hlt, append_nil]

end State

-- The calls with which assets come in, and the end of a block. The account of the exchange does not
-- make any.
def Call.comesIn : Call Acc Auth AuthSign → Prop
  | .deposit _ user _ _              => user ≠ PalletAccounts.palletAccount
  | .addLiquidity _ _ pool _ _ _ _   => pool ≠ PalletAccounts.palletAccount
  | .nextBlock                       => True
  | _                                => False

-- The invariant of a run from `s₀`: everything that has come into custody since is credited by the
-- messages in the queue, and on top of it the amounts `o`.
structure State.Brought (s₀ : State Acc Auth W cfg) (o : AssetId → ℚ≥0)
    (s : State Acc Auth W cfg) : Prop where
  le       : s₀.currentBlockNumber ≤ s.currentBlockNumber
  ahead    : ∀ n > s.currentBlockNumber, (s.ingressMessages n).toList = []
  incoming : ∀ m ∈ s.queued (s.blocksSince s₀.currentBlockNumber), m.isIncoming
  credited : ∀ asset, Posting.net asset (s.creditsSince s₀.currentBlockNumber) +
    s₀.custody asset / 10 ^ 12 = s.custody asset / 10 ^ 12 + o asset

section Recredited

variable [DecidableEq Acc] [CrossChainGadget Acc W] [Percent]
  [Authority Acc Auth AuthSign] [Decimal.Arith]

-- What an added liquidity credits on top of its two deposits.
def recredited (s : State Acc Auth W cfg) :
    Call Acc Auth AuthSign → AssetId → ℚ≥0
  | .addLiquidity id market pool lp totalShares base quote =>
    if (step s (.addLiquidity id market pool lp totalShares base quote :
      Call Acc Auth AuthSign)).isSome
    then Pi.single market.base base.toRat.toNNRat + Pi.single market.quote quote.toRat.toNNRat
    else 0
  | _ => 0

end Recredited

namespace State.Brought

variable {s₀ s s' : State Acc Auth W cfg} {o u : AssetId → ℚ≥0}
  {ms : List (IngressMessages Acc)}

theorem queues (h : Brought s₀ o s) (hq : Queues s ms s') (hm : ∀ m ∈ ms, m.isIncoming)
    (hn : ∀ asset, Posting.net asset (ms.flatMap IngressMessages.additions) + s.custody asset / 10 ^ 12 =
      s'.custody asset / 10 ^ 12 + u asset) : Brought s₀ (o + u) s' := by
  have hblk := hq.currentBlockNumber
  have hqueue := hq.queued h.le
  refine ⟨hblk ▸ h.le, fun n hgt => ?ahead, fun m hmem => ?incoming, fun asset => ?credited⟩
  case ahead =>
    rw [hblk] at hgt
    rw [hq.ingress, if_neg (Nat.ne_of_gt hgt), append_nil, h.ahead n hgt]
  case incoming =>
    rw [hqueue] at hmem
    exact (mem_append.mp hmem).elim (h.incoming m) (hm m)
  case credited =>
    have hs := h.credited asset
    have hn := hn asset
    rw [creditsSince] at hs ⊢
    rw [hqueue, flatMap_append, Posting.net_append, Pi.add_apply]
    push_cast
    linarith

variable [DecidableEq Acc] [FaithfulArith]

theorem doDeposit {id amount : ℕ} (h : Brought s₀ o s)
    (hd : s.doDeposit id user asset amount = .ok s') (hu : user ≠ PalletAccounts.palletAccount) :
    Brought s₀ o s' := by
  obtain ⟨_, _, converted, ms, hc, hms, hq, _⟩ := Queues.doDeposit hd
  have hregister : ∀ m ∈ ms, m = .registerUser user user := fun m hm => mem_singleton.mp (hms hm)
  have hnone : ms.flatMap IngressMessages.additions = [] :=
    flatMap_eq_nil_iff.mpr fun m hm => hregister m hm ▸ rfl
  have hb := h.queues (u := 0) hq ?incoming ?credited
  case incoming =>
    intro m hm
    cases mem_append.mp hm with
    | inl hm => exact hregister m hm ▸ rfl
    | inr hm => exact mem_singleton.mp hm ▸ rfl
  case credited =>
    intro a
    rw [custody_doDeposit hd hu, flatMap_append, hnone, nil_append, flatMap_singleton]
    simp only [IngressMessages.additions, Posting.net, Posting.change, map_cons, map_nil,
      sum_singleton, if_true, toRat_of_inUnits hc, Pi.add_apply, Pi.single_apply, Pi.zero_apply]
    by_cases ha : asset = a
    · simp only [ha, if_true]
      push_cast
      ring
    · simp only [ha, Ne.symm ha, if_false]
      push_cast
      ring
  rwa [add_zero] at hb

theorem addLiquidity {lp : Acc} {id : ℕ} (h : Brought s₀ o s)
    (hd : s.addLiquidity id market pool lp totalShares base quote = .ok s')
    (hp : pool ≠ PalletAccounts.palletAccount) : Brought s₀
      (o + (Pi.single market.base base.toRat.toNNRat + Pi.single market.quote quote.toRat.toNNRat)) s' := by
  have hworld : ∃ t' : State Acc Auth W cfg, Brought s₀ o t' ∧
      t'.pushIngress (.addLiquidity (.ofPair market.base market.quote) pool lp totalShares base quote) =
        .ok s' := by
    simp only [State.addLiquidity, bind_eq_ok] at hd
    obtain ⟨_, _, t, h₁, _, _, t', h₂, h₃⟩ := hd
    exact ⟨t', (h.doDeposit h₁ hp).doDeposit h₂ hp, h₃⟩
  obtain ⟨b, q, _, _, hb, hq, _⟩ := Queues.addLiquidity hd
  have hb := Decimal.nonneg_iff.mp (nonneg_of_inPlanck hb)
  have hq := Decimal.nonneg_iff.mp (nonneg_of_inPlanck hq)
  obtain ⟨t', ht, hpush⟩ := hworld
  have hcustody := custody_congr (frame_pushIngress hpush).1
  refine ht.queues (.pushIngress hpush) (forall_mem_singleton.mpr rfl) fun a => ?_
  rw [hcustody, flatMap_singleton]
  simp only [IngressMessages.additions, TradingPairConfig.ofPair, Posting.net, Posting.change,
    map_cons, map_nil, sum_cons, sum_nil, if_true, Pi.add_apply, Pi.single_apply,
    @eq_comm _ a]
  push_cast [apply_ite NNRat.cast, Rat.coe_toNNRat _ hb, Rat.coe_toNNRat _ hq]
  ring

omit [DecidableEq Acc] [FaithfulArith] in
theorem nextBlock (h : Brought s₀ o s) : Brought s₀ o
    (State.onInitialize { s with currentBlockNumber := s.currentBlockNumber + 1 }
      (s.currentBlockNumber + 1)) := by
  have hnext : Brought s₀ o { s with currentBlockNumber := s.currentBlockNumber + 1 } := by
    have hqueue : State.queued { s with currentBlockNumber := s.currentBlockNumber + 1 }
        (State.blocksSince { s with currentBlockNumber := s.currentBlockNumber + 1 }
          s₀.currentBlockNumber) = s.queued (s.blocksSince s₀.currentBlockNumber) := by
      rw [blocksSince_eq (Nat.le_succ_of_le h.le), State.queued, flatMap_append,
        flatMap_singleton, h.ahead _ (Nat.lt_succ_self _), append_nil]
      rfl
    refine ⟨Nat.le_succ_of_le h.le, fun n hn => h.ahead n (Nat.lt_of_succ_lt hn), ?_, fun asset => ?_⟩
    · rw [hqueue]
      exact h.incoming
    · rw [creditsSince, hqueue]
      exact h.credited asset
  obtain ⟨epoch, config, ms, hms, hq⟩ := Queues.onInitialize
    { s with currentBlockNumber := s.currentBlockNumber + 1 }
  have hm : ∀ m ∈ ms, m = .newLMPEpoch epoch ∨ m = .lmpConfig config := fun m hm => by
    simpa using hms hm
  have hnone : ms.flatMap IngressMessages.additions = [] := by
    refine flatMap_eq_nil_iff.mpr fun m hmem => ?_
    rcases hm m hmem with hm | hm <;> exact hm ▸ rfl
  have hb := hnext.queues (u := 0) hq (fun m hmem => ?incoming) fun a => ?credited
  case incoming => rcases hm m hmem with hm | hm <;> exact hm ▸ rfl
  case credited =>
    rw [hnone, custody_onInitialize]
    simp [Posting.net]
  rwa [add_zero] at hb

variable [CrossChainGadget Acc W] [Percent] [Authority Acc Auth AuthSign]
  {c : Call Acc Auth AuthSign}

theorem exec (h : Brought s₀ o s) (hc : c.comesIn) :
    Brought s₀ (o + recredited s c) (Run.exec step s c) := by
  rcases Run.exec_cases step s c with hs | ⟨hs, he⟩
  case inr =>
    have hz : recredited s c = 0 := by
      cases c with
      | addLiquidity => simp [recredited, hs]
      | _ => rfl
    rw [hz, he, add_zero]
    exact h
  case inl =>
    have hd := toOption_eq_some.mp hs
    cases c with
    | deposit => exact (add_zero o).symm ▸ h.doDeposit hd hc
    | addLiquidity =>
      rw [recredited, if_pos (by simp [hs])]
      exact h.addLiquidity hd hc
    | nextBlock =>
      rw [← Except.ok.inj hd]
      exact (add_zero o).symm ▸ h.nextBlock
    | _ => exact hc.elim

theorem run (hq : ∀ n ≥ s₀.currentBlockNumber, (s₀.ingressMessages n).toList = [])
    {cs : List (Call Acc Auth AuthSign)} (hcs : ∀ c ∈ cs, c.comesIn) :
    Brought s₀ (Run.total step recredited s₀ cs) (Run.run step s₀ cs) := by
  induction cs using reverseRecOn with
  | nil =>
    have hqueue : s₀.queued (s₀.blocksSince s₀.currentBlockNumber) = [] := by
      simp [blocksSince, State.queued, hq]
    refine ⟨le_rfl, fun n hn => hq n hn.le, by simp [hqueue], fun asset => ?_⟩
    simp [creditsSince, hqueue, Posting.net, Run.total]
  | append_singleton cs c hi =>
    have h := (hi fun c hc => hcs c (by simp [hc])).exec (hcs c (by simp))
    simpa [Run.total] using h

end State.Brought

variable [DecidableEq Acc] [CrossChainGadget Acc W] [Percent]
  [Authority Acc Auth AuthSign] [FaithfulArith]
  {s₀ s₁ chain : State Acc Auth W cfg}
  {cs : List (Call Acc Auth AuthSign)}

-- No liquidity is added, or only with amounts of zero.
def AddsNothing (s : State Acc Auth W cfg) :
    Call Acc Auth AuthSign → Prop
  | .addLiquidity id market pool lp totalShares base quote =>
    (step s (.addLiquidity id market pool lp totalShares base quote :
      Call Acc Auth AuthSign)).isSome → base.toRat = 0 ∧ quote.toRat = 0
  | _ => True

omit [Custody Acc W] in
theorem recredited_eq_zero_iff {s : State Acc Auth W cfg}
    {c : Call Acc Auth AuthSign} : recredited s c = 0 ↔ AddsNothing s c := by
  cases c with
  | addLiquidity id market pool lp totalShares base quote =>
    simp only [recredited, AddsNothing]
    split_ifs with hs
    case neg => simp [hs]
    case pos =>
      obtain ⟨s', hs'⟩ := Option.isSome_iff_exists.mp hs
      obtain ⟨_, _, _, _, hb, hq, _⟩ := State.Queues.addLiquidity (toOption_eq_some.mp hs')
      have hb := Decimal.nonneg_iff.mp (nonneg_of_inPlanck hb)
      have hq := Decimal.nonneg_iff.mp (nonneg_of_inPlanck hq)
      simp only [add_eq_zero, Pi.single_eq_zero_iff, Rat.toNNRat_eq_zero, hs, true_implies]
      exact and_congr ⟨fun h => h.antisymm hb, le_of_eq⟩ ⟨fun h => h.antisymm hq, le_of_eq⟩
  | _ => exact iff_of_true rfl trivial

-- What is credited, and the growth of the balances, are what has come into custody.
structure CreditedOnce (s₀ s₁ : State Acc Auth W cfg) (s s' : OffchainState Acc) :
    Prop where
  credited : ∀ asset, Posting.net asset (s₁.creditsSince s₀.currentBlockNumber) =
    ((s₁.custody asset : ℚ) - s₀.custody asset) / 10 ^ 12
  balances : ∀ asset, s'.total asset - s.total asset =
    ((s₁.custody asset : ℚ) - s₀.custody asset) / 10 ^ 12

theorem credited_iff (hq : ∀ n ≥ s₀.currentBlockNumber, (s₀.ingressMessages n).toList = [])
    (hcs : ∀ c ∈ cs, c.comesIn) (hrun : Run.run step s₀ cs = s₁) :
    (∀ asset, Posting.net asset (s₁.creditsSince s₀.currentBlockNumber) =
      ((s₁.custody asset : ℚ) - s₀.custody asset) / 10 ^ 12) ↔ Run.Along step AddsNothing s₀ cs := by
  have hb := hrun ▸ State.Brought.run hq hcs
  have hz : (∀ asset, Posting.net asset (s₁.creditsSince s₀.currentBlockNumber) =
      ((s₁.custody asset : ℚ) - s₀.custody asset) / 10 ^ 12) ↔
      Run.total step recredited s₀ cs = 0 := by
    rw [funext_iff]
    refine forall_congr' fun asset => ?_
    have h := hb.credited asset
    rw [Pi.zero_apply, ← NNRat.coe_eq_zero]
    constructor
    · intro hn
      rw [hn] at h
      linarith
    · intro ho
      rw [ho] at h
      linarith
  rw [hz, Run.total_eq_zero_iff]
  simp only [recredited_eq_zero_iff]

-- The import of the blocks of a run in which assets come in. They are credited once exactly if no
-- liquidity is added, and nothing is cut off.
theorem credited_once_iff {s s' : OffchainState Acc} {info info' : StateInfo} {k : ℕ}
    {imports : List (ℕ × (IngressMessages Acc → Option (EgressMessages Acc)))}
    (hq : ∀ n ≥ s₀.currentBlockNumber, (s₀.ingressMessages n).toList = [])
    (hcs : ∀ c ∈ cs, c.comesIn) (hrun : Run.run step s₀ cs = s₁)
    (hblks : imports.map Prod.fst = s₁.blocksSince s₀.currentBlockNumber)
    (hchain : ∀ n ∈ s₁.blocksSince s₀.currentBlockNumber,
      chain.ingressMessages n = s₁.ingressMessages n)
    (hi : importBlocks chain imports s info = .ok (s', info'))
    (hf : Fits k s (s₁.creditsSince s₀.currentBlockNumber)) :
    CreditedOnce s₀ s₁ s s' ↔ Run.Along step AddsNothing s₀ cs ∧
      Uncut s (s₁.creditsSince s₀.currentBlockNumber) := by
  have hb := hrun ▸ State.Brought.run hq hcs
  have hqueue : chain.queued (imports.map Prod.fst) =
      s₁.queued (s₁.blocksSince s₀.currentBlockNumber) := by
    rw [hblks]
    exact flatMap_congr fun n hn => congrArg _ (hchain n hn)
  obtain ⟨t, hp, ht⟩ := postAll_importBlocks (hqueue ▸ hb.incoming) hi
  rw [hqueue] at hp
  have hcredit : ∀ p ∈ s₁.creditsSince s₀.currentBlockNumber, p.isCredit := by
    intro p hp
    obtain ⟨m, _, hm⟩ := mem_flatMap.mp hp
    exact IngressMessages.isCredit_of_mem_additions hm
  have htotal (asset : AssetId) : s'.total asset - s.total asset =
      Posting.net asset (s₁.creditsSince s₀.currentBlockNumber) -
        s.lossAlong asset (s₁.creditsSince s₀.currentBlockNumber) := by
    have h : t.total asset = _ := hf.total hp
    rw [total_eq_sum, ht, ← total_eq_sum] at h
    linarith
  rw [← credited_iff hq hcs hrun, ← lossAlong_eq_zero_iff hf hcredit hp]
  constructor
  · intro h
    refine ⟨h.credited, fun asset => ?_⟩
    have hbal := h.balances asset
    rw [htotal, h.credited] at hbal
    linarith
  · rintro ⟨hcred, hloss⟩
    refine ⟨hcred, fun asset => ?_⟩
    rw [htotal, hloss, hcred, sub_zero]

end Chain

namespace Mock

attribute [local instance] Decimal.HalfEven.faithfulArith percent custody

def exchange : State Account ℕ World config :=
  { (State.genesis [] fun _ _ => 10 * unitBalance : State Account ℕ World config) with
    exchangeState := true
    allowlistedToken := ((∅ : Std.TreeSet AssetId).insert pair.base).insert pair.quote }

def twoDeposits : List (Call Account ℕ AuthSig) :=
  [.deposit 0 2 pair.quote unitBalance, .nextBlock, .deposit 1 2 pair.quote unitBalance]

theorem two_deposits_credited_once : ∃ s' info',
    importBlocks (Run.run step exchange twoDeposits) [(0, fun _ => none), (1, fun _ => none)] .empty {} =
      .ok (s', info') ∧
    CreditedOnce exchange (Run.run step exchange twoDeposits) .empty s' := by
  obtain ⟨s', info', hi⟩ : ∃ s' info', importBlocks (Run.run step exchange twoDeposits)
    [(0, fun _ => none), (1, fun _ => none)] .empty {} = .ok (s', info') := ⟨_, _, rfl⟩
  have hin : ∀ c ∈ twoDeposits, c.comesIn := by
    simp [twoDeposits, Call.comesIn, PalletAccounts.palletAccount]
  have hone : ∀ p ∈ (Run.run step exchange twoDeposits).creditsSince exchange.currentBlockNumber,
      p.amount.toRat = 1 := by decide +kernel
  have hsum : Posting.amounts
      ((Run.run step exchange twoDeposits).creditsSince exchange.currentBlockNumber) = 2 := by
    decide +kernel
  have hzero (p : Posting Account) : p.balance .empty = 0 := by
    simp [Posting.balance, getBalance, entry, empty,
      Store.empty]
  have hgrid {k : ℕ} (n : ℤ) : OnGrid k (n : ℚ) := ⟨n * 10 ^ k, by push_cast; field_simp⟩
  have hf : Fits 12 .empty
      ((Run.run step exchange twoDeposits).creditsSince exchange.currentBlockNumber) := by
    refine ⟨by decide, by decide, fun p hp => ?_, fun p hp => ?_, fun p _ => ?_, fun p _ => ?_, fun p _ => ?_⟩
    · rw [hone p hp]; norm_num
    · rw [hone p hp]; exact_mod_cast hgrid 1
    · rw [hzero]
    · rw [hzero]; exact_mod_cast hgrid 0
    · rw [hzero, hsum]; norm_num
  refine ⟨s', info', hi, (credited_once_iff (fun _ _ => rfl) hin rfl rfl (fun _ _ => rfl) hi hf).mpr ⟨?_, ?_⟩⟩
  · simp [Run.Along, twoDeposits, AddsNothing]
  · refine uncut_of_onGrid (fun p _ => ?_) fun p hp => ?_
    · rw [hzero]; exact_mod_cast hgrid 0
    · rw [hone p hp]; exact_mod_cast hgrid 1

def poolDeposit : List (Call Account ℕ AuthSig) :=
  [.addLiquidity 0 pair 2 3 0 1 1]

-- The inventory of the pool is twice as large as what was deposited.
def poolAnswer (_ : IngressMessages Account) : Option (EgressMessages Account) :=
  some (.addLiquidityResult (.ofPair pair.base pair.quote) 2 3 0 1 (two.saturatingAdd two))

-- One unit of each asset is deposited, and two are credited.
theorem pool_deposit_credited_twice : (∀ c ∈ poolDeposit, c.comesIn) ∧ ∃ s' info',
    importBlocks (Run.run step exchange poolDeposit) [(0, poolAnswer)] .empty {} = .ok (s', info') ∧
    ¬CreditedOnce exchange (Run.run step exchange poolDeposit) .empty s' := by
  obtain ⟨s', info', hi⟩ : ∃ s' info', importBlocks (Run.run step exchange poolDeposit)
    [(0, poolAnswer)] .empty {} = .ok (s', info') := ⟨_, _, rfl⟩
  have hin : ∀ c ∈ poolDeposit, c.comesIn := by
    simp [poolDeposit, Call.comesIn, PalletAccounts.palletAccount]
  refine ⟨hin, s', info', hi, fun h => ?_⟩
  have hnothing := (credited_iff (fun _ _ => rfl) hin rfl).mp h.credited
  have hzero := hnothing _ mem_cons_self (by decide +kernel)
  exact absurd hzero.1 (by decide +kernel)

end Mock

end Ocex
