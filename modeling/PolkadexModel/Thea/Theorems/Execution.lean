import PolkadexModel.Thea.Theorems.Stakes
import PolkadexModel.Thea.Theorems.Log

open Function List

open Run

namespace Thea

variable {Acc TheaId Sign W : Type}
variable [Currency Acc W] [Executor W] [Authority TheaId Sign] [Config TheaId]
  [DecidableEq TheaId]
variable {s s' s₀ : State Acc TheaId Sign W} {c : Call Acc TheaId Sign}
  {cs : List (Call Acc TheaId Sign)} {n : Network} {msg : IncomingMessage Acc}

def executedBy (s : State Acc TheaId Sign W) (c : Call Acc TheaId Sign)
    (n : Network) : Option (IncomingMessage Acc) :=
  match c with
  | .nextBlock =>
    if n ∈ s.activeNetworks then
      (s.incomingMessagesQueue (n, s.nextIncomingNonce n)).filter
        (·.executeAt ≤ Word.saturatedInto 32 (s.currentBlockNumber + 1))
    else none
  | _ => none

def executions (s : State Acc TheaId Sign W) (cs : List (Call Acc TheaId Sign))
    (n : Network) : List (IncomingMessage Acc) :=
  (trace step s cs).filterMap fun e => executedBy e.1 e.2 n

omit [Currency Acc W] [Executor W] [Authority TheaId Sign] [Config TheaId]
  [DecidableEq TheaId] in
theorem executedBy_eq_some : executedBy s c n = some msg ↔ c = .nextBlock ∧ n ∈ s.activeNetworks ∧
    s.incomingMessagesQueue (n, s.nextIncomingNonce n) = some msg ∧
    msg.executeAt ≤ Word.saturatedInto 32 (s.currentBlockNumber + 1) := by
  cases c <;> simp [executedBy, Option.filter_eq_some_iff]

theorem executions_append : executions s (cs ++ [c]) n =
    executions s cs n ++ (executedBy (run step s cs) c n).toList := by
  simp only [executions, trace_append, filterMap_append, trace_cons, trace_nil]
  cases h : executedBy (run step s cs) c n <;> simp [filterMap, h]

theorem executed_of_executedBy (hk : s.Keyed) (h : executedBy s c n = some msg) :
    msg.message.network = n ∧
    Executed s (s.currentBlockNumber + 1) msg (exec step s c) := by
  obtain ⟨hc, hn, hq, hd⟩ := executedBy_eq_some.mp h
  subst hc
  have hi := Initialized.onInitialize (s.currentBlockNumber + 1) hk
  exact ⟨(congrArg Prod.fst (hk.queue hq)).symm,
    hi.executed n (Std.TreeSet.mem_toList.mpr hn) msg hq hd⟩

theorem incomingNonce_exec (hk : s.Keyed) (hc : ∀ k n, c ≠ .updateIncomingNonce k n) (n : Network) :
    (exec step s c).incomingNonce n =
      if (executedBy s c n).isSome then s.nextIncomingNonce n else s.incomingNonce n := by
  by_cases hb : c = .nextBlock
  case pos =>
    cases he : executedBy s c n with
    | some msg =>
      obtain ⟨hn, hex⟩ := executed_of_executedBy hk he
      rw [Option.isSome_some, if_pos rfl, ← hn, hex.advanced, hex.next]
    | none =>
      subst hb
      have hi := Initialized.onInitialize (s.currentBlockNumber + 1) hk
      rw [if_neg (by simp)]
      by_cases hn : n ∈ s.activeNetworks
      case pos =>
        refine hi.idle n fun msg hq hd => ?_
        have := executedBy_eq_some.mpr ⟨rfl, hn, hq, hd⟩
        rw [he] at this
        cases this
      case neg => exact hi.nonce n (by simpa using hn)
  case neg =>
    have he : executedBy s c n = none := by
      cases c
      case nextBlock => exact absurd rfl hb
      all_goals rfl
    rw [he, if_neg (by simp)]
    cases exec_cases step s c with
    | inr hs => rw [hs.2]
    | inl hs =>
      generalize exec step s c = s' at hs ⊢
      have hd : dispatch s c = .ok s' := toOption_eq_some.mp hs
      cases c
      case nextBlock => exact absurd rfl hb
      case updateIncomingNonce k n => exact absurd rfl (hc k n)
      case newSession =>
        cases hd
        rw [State.onNewSession_frame State.incomingNonce (fun _ _ _ _ _ _ _ _ => rfl)]
      case submitSignedOutgoingMessages =>
        obtain ⟨_, _, _, _, hsub⟩ := submitSignatures_of_dispatch hd
        rw [State.submitSignatures_frame State.incomingNonce (fun _ _ _ _ => rfl) hsub]
      all_goals
        simp only [dispatch, State.submitIncomingMessage, State.executeWithdrawals,
          State.updateOutgoingNonce, State.addTheaNetwork, State.reportMisbehaviour,
          State.handleMisbehaviour, State.slashRelayer, State.restoreMessage] at hd
        repeat' split at hd
        all_goals cases hd
        all_goals rfl

-- The message was submitted, in the form in which it is queued, by a call which staked as much as
-- the network asked for, and the fork period that the network had by then is over at the block.
def Submitted (s₀ : State Acc TheaId Sign W) (cs : List (Call Acc TheaId Sign))
    (msg : IncomingMessage Acc) (blk : ℕ) : Prop :=
  ∃ e ∈ trace step s₀ cs,
    e.2 = .submitIncomingMessage msg.relayer msg.message msg.stake ∧
    (exec step e.1 e.2).incomingMessagesQueue (msg.message.network, msg.message.nonce) = some msg ∧
    (e.1.networkConfig msg.message.network).minStake ≤ msg.stake ∧
    2 ≤ (e.1.networkConfig msg.message.network).forkPeriod ∧
    e.1.currentBlockNumber + (e.1.networkConfig msg.message.network).forkPeriod ≤ blk

-- The executions of a run: they take the nonces of a network one after another, and only of
-- messages whose fork period is over.
structure ExecutedInOrder (s₀ : State Acc TheaId Sign W)
    (cs : List (Call Acc TheaId Sign)) : Prop where
  consecutive : ∀ n, (executions s₀ cs n).map (·.message.nonce) =
    List.range' 1 (executions s₀ cs n).length
  submitted   : ∀ cs₁ c cs₂, cs = cs₁ ++ c :: cs₂ → ∀ n msg,
    executedBy (run step s₀ cs₁) c n = some msg →
    Submitted s₀ cs₁ msg ((run step s₀ cs₁).currentBlockNumber + 1)

-- The block in which a submitted message can be executed is a word of 32 bits, and there is a next
-- nonce of 64 bits for every active network.
def Representable (s : State Acc TheaId Sign W) : Call Acc TheaId Sign → Prop
  | .submitIncomingMessage _ payload _ =>
      s.currentBlockNumber + (s.networkConfig payload.network).forkPeriod ≤ Word.max 32
  | .nextBlock => ∀ n ∈ s.activeNetworks, s.incomingNonce n < Word.max 64
  | _ => True

theorem Submitted.mono (h : Submitted s₀ cs msg blk) (hb : blk ≤ blk')
    (c : Call Acc TheaId Sign) : Submitted s₀ (cs ++ [c]) msg blk' := by
  obtain ⟨e, he, hc, hq, hs, hf, hd⟩ := h
  exact ⟨e, by simp [he], hc, hq, hs, hf, hd.trans hb⟩

-- A network has a fork period of two blocks at least, however often it is added.
theorem forkPeriod_step (h : step s c = some s') (hf : ∀ n, 2 ≤ (s.networkConfig n).forkPeriod)
    (n : Network) : 2 ≤ (s'.networkConfig n).forkPeriod := by
  cases step_logStep h with
  | frame _ hl =>
    have hc : s'.networkConfig = s.networkConfig := congrArg (·.2.2.2.1) hl
    exact hc ▸ hf n
  | issue _ hs => exact hs ▸ hf n
  | renumber _ hs => exact hs ▸ hf n
  | removeNetwork hs => exact hs ▸ hf n
  | session hs =>
    rw [hs, State.onNewSession_frame State.networkConfig (fun _ _ _ _ _ _ _ _ => rfl)]
    exact hf n
  | @addNetwork n' _ forkPeriod _ _ hs =>
    have hd : dispatch s _ = .ok s' := toOption_eq_some.mp h
    simp only [dispatch, State.addTheaNetwork] at hd
    split_ifs at hd with hlt
    rw [hs]
    by_cases hn : n = n'
    case pos =>
      subst hn
      simp only [update_self, NetworkConfig.new]
      exact Nat.not_lt.mp hlt
    case neg => simpa [update_of_ne hn] using hf n

omit [Executor W] [Authority TheaId Sign] [Config TheaId] [DecidableEq TheaId] in
theorem minStake_le_of_submitIncomingMessage (h : s.submitIncomingMessage signer payload stake = .ok s') :
    (s.networkConfig payload.network).minStake ≤ stake := by
  simp only [State.submitIncomingMessage] at h
  split_ifs at h with hs
  exact Nat.le_of_not_lt hs

-- A property of all messages that are in the queue or were taken out of it by a report.
structure State.Every (P : IncomingMessage Acc → Prop)
    (s : State Acc TheaId Sign W) : Prop where
  queue   : ∀ k msg, s.incomingMessagesQueue k = some msg → P msg
  reports : ∀ k report, s.misbehaviourReports k = some report → P report.reportedMsg

namespace State.Every

variable {P Q : IncomingMessage Acc → Prop}

omit [Currency Acc W] [Executor W] [Authority TheaId Sign] [Config TheaId]
  [DecidableEq TheaId] in
theorem genesis (authorities : List TheaId) (world : W) :
    (State.genesis authorities world : State Acc TheaId Sign W).Every P := by
  constructor <;> simp [State.genesis]

omit [Currency Acc W] [Executor W] [Authority TheaId Sign] [Config TheaId]
  [DecidableEq TheaId] in
theorem imp (h : s.Every P) (hpq : ∀ msg, P msg → Q msg) : s.Every Q :=
  ⟨fun k msg hm => hpq msg (h.queue k msg hm), fun k report hm => hpq _ (h.reports k report hm)⟩

theorem step (h : s.Every P) (hk : s.Keyed) (hs : Thea.step s c = some s')
    (submit : ∀ signer payload stake, c = .submitIncomingMessage signer payload stake →
      s'.incomingMessagesQueue (payload.network, payload.nonce) =
        some ⟨payload, signer, stake, s.executeAt (s.networkConfig payload.network)⟩ →
      P ⟨payload, signer, stake, s.executeAt (s.networkConfig payload.network)⟩) : s'.Every P := by
  cases step_queueStep hs with
  | frame _ hq hr _ => exact ⟨hq ▸ h.queue, hr ▸ h.reports⟩
  | accept hq hr =>
    refine ⟨hq ▸ h.queue, fun k report hm => ?_⟩
    rw [hr, update_apply] at hm
    split_ifs at hm
    exact h.reports k report hm
  | submit _ hq hr =>
    refine ⟨fun k msg hm => ?_, hr ▸ h.reports⟩
    rw [hq, update_apply] at hm
    split_ifs at hm
    case neg => exact h.queue k msg hm
    case pos =>
      cases hm
      exact submit _ _ _ rfl (by rw [hq, update_self])
  | report hm hq hr =>
    refine ⟨fun k msg hm' => ?_, fun k report hm' => ?_⟩
    · rw [hq, update_apply] at hm'
      split_ifs at hm'
      exact h.queue k msg hm'
    · rw [hr, update_apply] at hm'
      split_ifs at hm'
      · cases hm'
        exact h.queue _ _ hm
      · exact h.reports k report hm'
  | reject hm _ hq hr =>
    refine ⟨fun k msg hm' => ?_, fun k report hm' => ?_⟩
    · rw [hq, update_apply] at hm'
      split_ifs at hm'
      · cases hm'
        exact h.reports _ _ hm
      · exact h.queue k msg hm'
    · rw [hr, update_apply] at hm'
      split_ifs at hm'
      exact h.reports k report hm'
  | nextBlock _ hi =>
    have hi := hi hk
    refine ⟨fun k msg hm => ?_, hi.reports ▸ h.reports⟩
    by_cases hv : k.1 ∉ s.activeNetworks.toList ∨ k.2 ≠ s.nextIncomingNonce k.1
    case pos => exact h.queue k msg (hi.kept k hv ▸ hm)
    case neg =>
      push Not at hv
      have := hi.taken k.1 hv.1
      rw [← hv.2, hm] at this
      cases this

end State.Every

-- The invariant of the runs: every message was submitted by a call of the run, and the executed
-- ones have taken the nonces up to the incoming nonce.
structure State.Ordered (s₀ : State Acc TheaId Sign W)
    (cs : List (Call Acc TheaId Sign)) (s : State Acc TheaId Sign W) :
    Prop where
  keyed      : s.Keyed
  forkPeriod : ∀ n, 2 ≤ (s.networkConfig n).forkPeriod
  messages   : s.Every fun msg => Submitted s₀ cs msg msg.executeAt
  nonces     : ∀ n, (executions s₀ cs n).map (·.message.nonce) = List.range' 1 (s.incomingNonce n)

namespace State.Ordered

theorem genesis (authorities : List TheaId) (world : W) :
    State.Ordered (.genesis authorities world) [] (.genesis authorities world :
      State Acc TheaId Sign W) where
  keyed      := by constructor <;> simp [State.genesis]
  forkPeriod _ := by simp [State.genesis, default]
  messages   := .genesis authorities world
  nonces _   := by simp [State.genesis, executions]

theorem submitted_step (h : State.Ordered s₀ cs (run step s₀ cs))
    (hr : Representable (run step s₀ cs) c) (hs : step (run step s₀ cs) c = some s') :
    s'.Every fun msg => Submitted s₀ (cs ++ [c]) msg msg.executeAt := by
  refine (h.messages.imp fun msg hm => hm.mono le_rfl c).step h.keyed hs fun signer payload stake hc hq => ?_
  subst hc
  have hb : (run step s₀ cs).currentBlockNumber +
    ((run step s₀ cs).networkConfig payload.network).forkPeriod ≤ Word.max 32 := hr
  refine ⟨(run step s₀ cs, _), by simp, rfl, by rwa [exec_of_some hs],
    minStake_le_of_submitIncomingMessage (toOption_eq_some.mp hs), h.forkPeriod _, ?_⟩
  simp only [State.executeAt, Word.saturatedInto, Word.saturatingAdd]
  omega

theorem nonces_step (h : State.Ordered s₀ cs (run step s₀ cs))
    (hr : Representable (run step s₀ cs) c) (hc : ∀ k n, c ≠ .updateIncomingNonce k n)
    (n : Network) : (executions s₀ (cs ++ [c]) n).map (·.message.nonce) =
      List.range' 1 ((exec step (run step s₀ cs) c).incomingNonce n) := by
  rw [executions_append, map_append, h.nonces, incomingNonce_exec h.keyed hc]
  cases he : executedBy (run step s₀ cs) c n with
  | none => simp
  | some msg =>
    obtain ⟨hb, hn, _, _⟩ := executedBy_eq_some.mp he
    have hex := executed_of_executedBy h.keyed he
    subst hb
    have hlt : (run step s₀ cs).incomingNonce n < Word.max 64 := hr n hn
    have hnext : (run step s₀ cs).nextIncomingNonce n = (run step s₀ cs).incomingNonce n + 1 :=
      Word.lt_saturatingAdd_one hlt
    have hm : msg.message.nonce = (run step s₀ cs).incomingNonce n + 1 := by
      rw [← hnext, hex.2.next, hex.1]
    rw [Option.isSome_some, if_pos rfl, hnext, range'_1_concat]
    simp [hm, Nat.add_comm]

theorem step (h : State.Ordered s₀ cs (run step s₀ cs))
    (hr : Representable (run Thea.step s₀ cs) c) (hc : ∀ k n, c ≠ .updateIncomingNonce k n) :
    State.Ordered s₀ (cs ++ [c]) (exec Thea.step (run Thea.step s₀ cs) c) := by
  have nonces := h.nonces_step hr hc
  cases exec_cases Thea.step (run Thea.step s₀ cs) c with
  | inl hs =>
    exact ⟨h.keyed.step hs, forkPeriod_step hs h.forkPeriod, h.submitted_step hr hs, nonces⟩
  | inr hs =>
    rw [hs.2] at nonces ⊢
    exact ⟨h.keyed, h.forkPeriod, h.messages.imp fun msg hm => hm.mono le_rfl c, nonces⟩

theorem run (authorities : List TheaId) (world : W)
    (hc : ∀ k n, .updateIncomingNonce k n ∉ cs)
    (h : Along Thea.step Representable
      (.genesis authorities world : State Acc TheaId Sign W) cs) :
    State.Ordered (.genesis authorities world) cs
      (Run.run Thea.step (.genesis authorities world : State Acc TheaId Sign W) cs) := by
  induction cs using reverseRecOn with
  | nil => exact genesis authorities world
  | append_singleton cs c hi =>
    rw [run_append]
    refine (hi (fun k n hm => hc k n (by simp [hm])) h.of_append).step h.last fun k n hk => ?_
    exact hc k n (by simp [hk])

end State.Ordered

-- In every run without an update of the incoming nonce, the messages of a network are executed in
-- the order of their nonces, and not before their fork period is over, as long as the saturating
-- arithmetic of the pallet does not saturate.
theorem executed_in_order (authorities : List TheaId) (world : W)
    (cs : List (Call Acc TheaId Sign)) (hc : ∀ k n, .updateIncomingNonce k n ∉ cs)
    (h : Along step Representable
      (.genesis authorities world : State Acc TheaId Sign W) cs) :
    ExecutedInOrder (.genesis authorities world : State Acc TheaId Sign W) cs where
  consecutive n := by
    have hn := (State.Ordered.run authorities world hc h).nonces n
    rw [hn]
    have hl := congrArg length hn
    rw [length_map, length_range'] at hl
    rw [hl]
  submitted := by
    rintro cs₁ c cs₂ rfl n msg he
    have ho := State.Ordered.run authorities world (fun k n hm => hc k n (by simp [hm])) h.of_append
    obtain ⟨_, _, hq, hd⟩ := executedBy_eq_some.mp he
    obtain ⟨e, hm, hs, hq', hmin, hf, hb⟩ := ho.messages.queue _ msg hq
    exact ⟨e, hm, hs, hq', hmin, hf, hb.trans (hd.trans (Nat.min_le_left ..))⟩

-- The network is suspended until the fork period of the deposit is over: the blocks in between would
-- take the deposit out of the queue.
def exampleSuspension : List (Call ℕ ℕ (ℕ × Message)) :=
  [.addTheaNetwork 1 false 2 10 10, .submitIncomingMessage 9 exampleDeposit 10, .removeTheaNetwork 1,
    .nextBlock, .addTheaNetwork 1 false 2 10 10, .nextBlock]

theorem executed_in_order_suspension :
    executions exampleFunds exampleSuspension 1 = [⟨exampleDeposit, 9, 10, 2⟩] ∧
    ExecutedInOrder exampleFunds exampleSuspension := by
  refine ⟨by decide, executed_in_order [] _ _ (by simp [exampleSuspension]) fun e he => ?_⟩
  simp only [exampleSuspension, trace_cons, trace_nil, mem_cons, not_mem_nil, or_false] at he
  rcases he with rfl | rfl | rfl | rfl | rfl | rfl
  case inr.inl => exact (by decide : 0 + 2 ≤ Word.max 32)
  case inr.inr.inr.inl =>
    intro n hn
    have hn : n ∈ ([] : List Network) := Std.TreeSet.mem_toList.mpr hn
    cases hn
  case inr.inr.inr.inr.inr =>
    intro n hn
    have hn : n ∈ [1] := Std.TreeSet.mem_toList.mpr hn
    cases mem_singleton.mp hn
    decide
  all_goals trivial

theorem run_nextBlocks (hs : s.activeNetworks.toList = []) (m : ℕ) :
    run step s (List.replicate m .nextBlock) =
      { s with currentBlockNumber := s.currentBlockNumber + m } := by
  induction m generalizing s with
  | zero => rfl
  | succ m hi =>
    have he : exec step s .nextBlock = { s with currentBlockNumber := s.currentBlockNumber + 1 } := by
      simp [exec, step, dispatch, State.onInitialize, hs, Except.toOption]
    rw [replicate_succ, run_cons, he]
    refine (hi (s := { s with currentBlockNumber := s.currentBlockNumber + 1 }) hs).trans ?_
    simp [Nat.add_comm 1 m, Nat.add_assoc]

-- A deposit which is submitted in the last but one block that has a number of 32 bits is executed
-- in the last one, although its network asks for a fork period of two blocks.
theorem executed_before_fork_period : ¬∀ cs : List (Call ℕ ℕ (ℕ × Message)),
    (∀ k n, .updateIncomingNonce k n ∉ cs) → ExecutedInOrder exampleFunds cs := by
  intro h
  obtain ⟨m, hm⟩ : ∃ m, m + 1 = Word.max 32 := ⟨2 ^ 32 - 2, by decide⟩
  have hrun := run_nextBlocks (s := exampleFunds) rfl m
  have hx : Word.saturatingAdd 32 (Word.saturatedInto 32 (0 + m)) 2 = m + 1 := by
    simp only [Word.saturatingAdd, Word.saturatedInto]
    omega
  obtain ⟨e, he, hc, _, _, _, hd⟩ := (h (replicate m .nextBlock ++ exampleSuspension.take 2 ++
    [.nextBlock]) (by simp [exampleSuspension])).submitted _ .nextBlock [] rfl 1
      ⟨exampleDeposit, 9, 10, m + 1⟩ <| by
    rw [run_append, hrun]
    refine executedBy_eq_some.mpr ⟨rfl, ?_, ?_, ?_⟩
    · exact Std.TreeSet.mem_toList.mp (mem_singleton.mpr rfl : 1 ∈ [1])
    · exact congrArg (fun x => some (⟨exampleDeposit, 9, 10, x⟩ : IncomingMessage ℕ)) hx
    · exact Nat.le_min.mpr ⟨(by omega : m + 1 ≤ 0 + m + 1), hm.le⟩
  -- The deposit is submitted only once.
  rw [trace_append, mem_append, hrun] at he
  rcases he with he | he
  case inl =>
    obtain ⟨cs₁, cs₂, hcs, _⟩ := mem_trace_split he
    have hmem : e.2 ∈ replicate m Call.nextBlock := by simp [hcs]
    rw [eq_of_mem_replicate hmem] at hc
    cases hc
  case inr =>
    simp only [exampleSuspension, take, trace_cons, trace_nil, mem_cons, not_mem_nil,
      or_false] at he
    rcases he with rfl | rfl
    case inl => cases hc
    case inr =>
      rw [run_append, hrun] at hd
      have hd : 0 + m + 2 ≤ 0 + m + 1 := hd
      omega

section Rejection

variable {s s' : State Acc TheaId Sign W} {c : Call Acc TheaId Sign}
  {cs : List (Call Acc TheaId Sign)} {n : Network} {k : ℕ}
  {msg : IncomingMessage Acc}

-- There are calls, none of which is an update of the incoming nonce, after which the next block
-- executes the message.
def CanExecute (s : State Acc TheaId Sign W) (n : Network)
    (msg : IncomingMessage Acc) : Prop :=
  ∃ cs : List (Call Acc TheaId Sign),
    (∀ k n, .updateIncomingNonce k n ∉ cs) ∧ executedBy (run step s cs) .nextBlock n = some msg

-- What is expected of the rejection of a report. Of a message that was submitted by another relayer
-- while the report was open, this says that it keeps its place in the queue, where it is the only
-- thing that entitles its relayer to the stake.
structure Restored (s : State Acc TheaId Sign W) (n : Network) (k : ℕ)
    (report : MisbehaviourReport Acc) (s' : State Acc TheaId Sign W) : Prop where
  queued     : s'.incomingMessagesQueue (n, k) = some report.reportedMsg
  once       : ∀ key, s'.incomingMessagesQueue key = some report.reportedMsg → key = (n, k)
  closed     : s'.misbehaviourReports (n, k) = none
  executable : CanExecute s' n report.reportedMsg
  others     : ∀ msg, s.incomingMessagesQueue (n, k) = some msg →
    msg.relayer ≠ report.reportedMsg.relayer → s'.incomingMessagesQueue (n, k) = some msg

section Passed

theorem keyed_run (hk : s.Keyed) (cs : List (Call Acc TheaId Sign)) :
    (run step s cs).Keyed := by
  refine Along.invariant (P := fun _ _ => True) (fun _ _ => trivial) hk fun s c _ hk => ?_
  cases exec_cases step s c with
  | inl hs => exact hk.step hs
  | inr hs => exact hs.2.symm ▸ hk

theorem nextIncomingNonce_mono (hk : s.Keyed) (hcs : ∀ k n, .updateIncomingNonce k n ∉ cs)
    (n : Network) : s.nextIncomingNonce n ≤ (run step s cs).nextIncomingNonce n := by
  induction cs using List.reverseRecOn with
  | nil => exact le_rfl
  | append_singleton cs c hi =>
    refine (hi fun k n hm => hcs k n (by simp [hm])).trans ?_
    have hc : ∀ k n, c ≠ .updateIncomingNonce k n := fun k n he => hcs k n (by simp [he])
    have he := incomingNonce_exec (keyed_run hk cs) hc n
    rw [run_append, run_cons, run_nil]
    generalize run step s cs = t at he ⊢
    simp only [State.nextIncomingNonce, Word.saturatingAdd] at he ⊢
    split_ifs at he <;> omega

theorem next_le_of_canExecute (hk : s.Keyed) (hq : s.incomingMessagesQueue (n, k) = some msg)
    (h : CanExecute s n msg) : s.nextIncomingNonce n ≤ k := by
  obtain ⟨cs, hcs, he⟩ := h
  obtain ⟨hn, hex⟩ := executed_of_executedBy (keyed_run hk cs) he
  have hmono := nextIncomingNonce_mono hk hcs n
  have hkey : k = msg.message.nonce := congrArg Prod.snd (hk.queue hq)
  rwa [hkey, hex.next, hn]

end Passed

section Waiting

-- The message waits for its turn, and no message is due later than the last block with a number of
-- 32 bits.
structure Waiting (n : Network) (k : ℕ) (msg : IncomingMessage Acc)
    (s : State Acc TheaId Sign W) : Prop where
  keyed  : s.Keyed
  due    : s.Every (·.executeAt ≤ Word.max 32)
  queued : s.incomingMessagesQueue (n, k) = some msg

def Leads (s s' : State Acc TheaId Sign W) : Prop :=
  ∃ cs : List (Call Acc TheaId Sign),
    (∀ k n, .updateIncomingNonce k n ∉ cs) ∧ run step s cs = s'

omit [Currency Acc W] [Executor W] [Authority TheaId Sign] [Config TheaId]
  [DecidableEq TheaId] in
theorem executeAt_le (config : NetworkConfig) : s.executeAt config ≤ Word.max 32 :=
  Word.saturatingAdd_le_max ..

theorem due_step (h : s.Every (·.executeAt ≤ Word.max 32)) (hk : s.Keyed)
    (hs : step s c = some s') : s'.Every (·.executeAt ≤ Word.max 32) :=
  h.step hk hs fun _ _ _ _ _ => executeAt_le _

namespace Leads

theorem refl (s : State Acc TheaId Sign W) : Leads s s :=
  ⟨[], by simp, rfl⟩

theorem trans (h₁ : Leads s s₁) (h₂ : Leads s₁ s₂) : Leads s s₂ := by
  obtain ⟨cs₁, hc₁, hr₁⟩ := h₁
  obtain ⟨cs₂, hc₂, hr₂⟩ := h₂
  exact ⟨cs₁ ++ cs₂, by simp [hc₁, hc₂], by rw [run_append, hr₁, hr₂]⟩

theorem of_step (hc : ∀ k n, c ≠ .updateIncomingNonce k n) (h : step s c = some s') : Leads s s' :=
  ⟨[c], fun k n hm => hc k n (List.mem_singleton.mp hm).symm, by simp [exec_of_some h]⟩

end Leads

namespace Waiting

theorem step (h : Waiting n k msg s) (hs : Thea.step s c = some s')
    (hq : s'.incomingMessagesQueue (n, k) = s.incomingMessagesQueue (n, k)) :
    Waiting n k msg s' :=
  ⟨h.keyed.step hs, due_step h.due h.keyed hs, hq.trans h.queued⟩

theorem suspend (h : Waiting n k msg s) (m : ℕ) :
    ∃ s', Leads s s' ∧ Waiting n k msg s' ∧ s'.incomingNonce n = s.incomingNonce n ∧
      m ≤ s'.currentBlockNumber := by
  suffices hs : ∀ m, ∃ s', Leads s s' ∧ Waiting n k msg s' ∧
      s'.incomingNonce n = s.incomingNonce n ∧ m ≤ s'.currentBlockNumber ∧ n ∉ s'.activeNetworks by
    obtain ⟨s', hl, hw, hn, hm, _⟩ := hs m
    exact ⟨s', hl, hw, hn, hm⟩
  intro m
  induction m with
  | zero =>
    have hs : Thea.step s (.removeTheaNetwork n) = some (s.removeTheaNetwork n) := rfl
    exact ⟨_, .of_step (by simp) hs, h.step hs rfl, rfl, Nat.zero_le _,
      by simp [State.removeTheaNetwork]⟩
  | succ m hi =>
    obtain ⟨t, hl, hw, hn, hm, ha⟩ := hi
    have hs : Thea.step t .nextBlock = some (State.onInitialize
      { t with currentBlockNumber := t.currentBlockNumber + 1 } (t.currentBlockNumber + 1)) := rfl
    have hi := Initialized.onInitialize (t.currentBlockNumber + 1) hw.keyed
    have hv : n ∉ t.activeNetworks.toList := by simpa using ha
    refine ⟨_, hl.trans (.of_step (by simp) hs), hw.step hs (hi.kept _ (.inl hv)),
      (hi.nonce n hv).trans hn, ?_, ?_⟩
    · rw [State.onInitialize_currentBlockNumber]
      exact Nat.succ_le_succ hm
    · rw [State.onInitialize_frame State.activeNetworks (fun _ _ _ _ _ _ => rfl)]
      exact ha

theorem resume (h : Waiting n k msg s) : ∃ s', Leads s s' ∧ Waiting n k msg s' ∧
    s'.incomingNonce = s.incomingNonce ∧ s'.currentBlockNumber = s.currentBlockNumber ∧
    n ∈ s'.activeNetworks ∧ (s'.networkConfig n).minStake = 0 := by
  have hs : Thea.step s (.addTheaNetwork n false 2 0 0) = some { s with
      networkConfig := update s.networkConfig n (.new 2 0 0 false)
      activeNetworks := s.activeNetworks.insert n } := rfl
  exact ⟨_, .of_step (by simp) hs, h.step hs rfl, rfl, rfl, by simp, by simp [NetworkConfig.new]⟩

-- The place of a nonce before that of the message can then be filled by anyone who can make a hold
-- of zero.
theorem fill (h : Waiting n k msg s) (hz : ∀ w : W, ∃ (who : Acc) (w' : W),
      Currency.hold w who 0 = .ok w') (hmin : (s.networkConfig n).minStake = 0)
    (hlt : s.nextIncomingNonce n < k) (hinc : s.incomingNonce n < s.nextIncomingNonce n) :
    ∃ s', Leads s s' ∧ Waiting n k msg s' ∧ s'.incomingNonce = s.incomingNonce ∧
      s'.currentBlockNumber = s.currentBlockNumber ∧ s'.activeNetworks = s.activeNetworks ∧
      ∃ m, s'.incomingMessagesQueue (n, s.nextIncomingNonce n) = some m := by
  cases hq : s.incomingMessagesQueue (n, s.nextIncomingNonce n) with
  | some m => exact ⟨s, .refl s, h, rfl, rfl, rfl, m, hq⟩
  | none =>
    obtain ⟨who, w', hw⟩ := hz s.world
    let payload : Message := ⟨0, s.nextIncomingNonce n, n, .l1Deposit, []⟩
    have hs : Thea.step s (.submitIncomingMessage who payload 0) = some { s with
        world := w'
        incomingMessagesQueue := update s.incomingMessagesQueue
          (n, s.nextIncomingNonce n) (some ⟨payload, who, 0, s.executeAt (s.networkConfig n)⟩) } := by
      simp [Thea.step, dispatch, State.submitIncomingMessage, payload, hmin, hq, hw,
        Nat.not_le.mpr hinc, Except.toOption]
    refine ⟨_, .of_step (by simp) hs, h.step hs (update_of_ne ?_ ..), rfl, rfl, rfl, _,
      update_self ..⟩
    simp [Nat.ne_of_gt hlt]

theorem advance (h : Waiting n k msg s) (hz : ∀ w : W, ∃ (who : Acc) (w' : W),
      Currency.hold w who 0 = .ok w') (hlate : Word.max 32 ≤ s.currentBlockNumber)
    (hlt : s.nextIncomingNonce n < k) (hk : k ≤ Word.max 64) :
    ∃ s', Leads s s' ∧ Waiting n k msg s' ∧ Word.max 32 ≤ s'.currentBlockNumber ∧
      s'.nextIncomingNonce n = s.nextIncomingNonce n + 1 := by
  have hnext : s.nextIncomingNonce n = s.incomingNonce n + 1 := by
    simp only [State.nextIncomingNonce, Word.saturatingAdd] at hlt ⊢
    omega
  obtain ⟨s₁, hl₁, hw₁, hn₁, hb₁, ha₁, hmin⟩ := h.resume
  have hnext₁ : s₁.nextIncomingNonce n = s.nextIncomingNonce n := by
    simp only [State.nextIncomingNonce, hn₁]
  obtain ⟨s₂, hl₂, hw₂, hn₂, hb₂, ha₂, m, hm⟩ :=
    hw₁.fill hz hmin (hnext₁ ▸ hlt) (by rw [hnext₁, hn₁]; omega)
  have hnext₂ : s₂.nextIncomingNonce n = s₁.nextIncomingNonce n := by
    simp only [State.nextIncomingNonce, hn₂]
  have hs : Thea.step s₂ .nextBlock = some (State.onInitialize
    { s₂ with currentBlockNumber := s₂.currentBlockNumber + 1 } (s₂.currentBlockNumber + 1)) := rfl
  have hi := Initialized.onInitialize (s₂.currentBlockNumber + 1) hw₂.keyed
  have hv : n ∈ s₂.activeNetworks.toList := Std.TreeSet.mem_toList.mpr (ha₂ ▸ ha₁)
  rw [← hnext₂] at hm
  have hex := hi.executed n hv m hm <|
    (hw₂.due.queue _ m hm).trans (Nat.le_min.mpr ⟨by omega, le_rfl⟩)
  have hnet : m.message.network = n := (congrArg Prod.fst (hw₂.keyed.queue hm)).symm
  refine ⟨_, hl₁.trans (hl₂.trans (.of_step (by simp) hs)),
    hw₂.step hs (hi.kept _ (.inr (Nat.ne_of_gt (by omega : s₂.nextIncomingNonce n < k)))), ?_, ?_⟩
  · rw [State.onInitialize_currentBlockNumber]
    exact (hlate.trans (hb₁ ▸ hb₂.ge)).trans (Nat.le_succ _)
  · have hadv := hex.advanced
    rw [hex.next, hnet] at hadv
    rw [State.nextIncomingNonce, hadv, hnext₂, hnext₁]
    exact Word.lt_saturatingAdd_one (by omega)

-- The run lemma: the turn of the message itself can be brought about.
theorem reach (h : Waiting n k msg s) (hz : ∀ w : W, ∃ (who : Acc) (w' : W),
      Currency.hold w who 0 = .ok w') (hlate : Word.max 32 ≤ s.currentBlockNumber)
    (hle : s.nextIncomingNonce n ≤ k) (hk : k ≤ Word.max 64) :
    ∃ s', Leads s s' ∧ Waiting n k msg s' ∧ Word.max 32 ≤ s'.currentBlockNumber ∧
      s'.nextIncomingNonce n = k := by
  induction hd : k - s.nextIncomingNonce n generalizing s with
  | zero => exact ⟨s, .refl s, h, hlate, by omega⟩
  | succ d hi =>
    obtain ⟨s₁, hl₁, hw₁, hlate₁, hn₁⟩ := h.advance hz hlate (by omega) hk
    obtain ⟨s₂, hl₂, hw₂⟩ := hi hw₁ hlate₁ (by omega) (by omega)
    exact ⟨s₂, hl₁.trans hl₂, hw₂⟩

theorem canExecute (h : Waiting n k msg s) (hz : ∀ w : W, ∃ (who : Acc) (w' : W),
      Currency.hold w who 0 = .ok w') (hle : s.nextIncomingNonce n ≤ k) (hk : k ≤ Word.max 64) :
    CanExecute s n msg := by
  obtain ⟨s₁, hl₁, hw₁, hn₁, hlate₁⟩ := h.suspend (Word.max 32)
  have hle₁ : s₁.nextIncomingNonce n ≤ k := by
    rwa [State.nextIncomingNonce, hn₁]
  obtain ⟨s₂, hl₂, hw₂, hlate₂, hn₂⟩ := hw₁.reach hz hlate₁ hle₁ hk
  obtain ⟨s₃, hl₃, hw₃, hn₃, hb₃, ha₃, _⟩ := hw₂.resume
  obtain ⟨cs, hcs, hr⟩ := hl₁.trans (hl₂.trans hl₃)
  refine ⟨cs, hcs, executedBy_eq_some.mpr ⟨rfl, hr ▸ ha₃, ?_, ?_⟩⟩
  · have hn₃ : s₃.nextIncomingNonce n = k := by rwa [State.nextIncomingNonce, hn₃]
    rw [hr, hn₃, hw₃.queued]
  · rw [hr, hb₃]
    exact (hw₃.due.queue _ msg hw₃.queued).trans (Nat.le_min.mpr ⟨by omega, le_rfl⟩)

end Waiting

end Waiting

theorem dispatch_reject (hk : s.Keyed) (hr : s.misbehaviourReports (n, k) = some report)
    (hs : step s (.handleMisbehaviour n k false) = some s') : ∃ world, s' = { s with
      misbehaviourReports := update s.misbehaviourReports (n, k) none
      world := world
      incomingMessagesQueue :=
        update s.incomingMessagesQueue (n, k) (some report.reportedMsg) } := by
  have hd : dispatch s _ = .ok s' := toOption_eq_some.mp hs
  simp only [dispatch, State.handleMisbehaviour, hr, State.restoreMessage, Bool.false_eq_true,
    if_false] at hd
  split at hd <;> cases hd
  rw [← hk.reports hr]
  exact ⟨_, rfl⟩

-- In every reachable state, the rejection of a report restores the reported message as expected if
-- and only if the turn of its nonce has not passed, and no other relayer has taken its place. That an
-- account can make a hold of zero is all that is asked of the currency.
theorem rejection_restores_iff (hz : ∀ w : W, ∃ (who : Acc) (w' : W),
      Currency.hold w who 0 = .ok w') (authorities : List TheaId) (world : W)
    (cs : List (Call Acc TheaId Sign)) {report : MisbehaviourReport Acc}
    (hk : k ≤ Word.max 64) (hrun : run step (.genesis authorities world) cs = s)
    (hr : s.misbehaviourReports (n, k) = some report)
    (hs : step s (.handleMisbehaviour n k false) = some s') :
    Restored s n k report s' ↔ s.nextIncomingNonce n ≤ k ∧
      ∀ msg, s.incomingMessagesQueue (n, k) = some msg → msg.relayer = report.reportedMsg.relayer := by
  obtain ⟨hkeyed, hdue⟩ : s.Keyed ∧ s.Every (·.executeAt ≤ Word.max 32) := by
    rw [← hrun]
    refine Along.invariant
      (motive := fun s : State Acc TheaId Sign W =>
        s.Keyed ∧ s.Every (·.executeAt ≤ Word.max 32)) (P := fun _ _ => True)
      (fun _ _ => trivial) ⟨by constructor <;> simp [State.genesis], .genesis authorities world⟩
      fun s c _ h => ?_
    obtain ⟨hk, hd⟩ := h
    cases exec_cases step s c with
    | inl hs => exact ⟨hk.step hs, due_step hd hk hs⟩
    | inr hs => exact hs.2.symm ▸ ⟨hk, hd⟩
  obtain ⟨world, hs'⟩ := dispatch_reject hkeyed hr hs
  have hq : s'.incomingMessagesQueue (n, k) = some report.reportedMsg := by simp [hs']
  have hnext : s'.nextIncomingNonce n = s.nextIncomingNonce n := by simp [hs', State.nextIncomingNonce]
  constructor
  case mp =>
    intro h
    refine ⟨hnext ▸ next_le_of_canExecute (hkeyed.step hs) hq h.executable, fun msg hm => ?_⟩
    by_contra hne
    have := h.others msg hm hne
    rw [hq] at this
    cases this
    exact hne rfl
  case mpr =>
    rintro ⟨hle, hothers⟩
    have hw : Waiting n k report.reportedMsg s' := ⟨hkeyed.step hs, due_step hdue hkeyed hs, hq⟩
    exact {
      queued     := hq
      once       := fun key hkey => (hw.keyed.queue hkey).trans (hw.keyed.queue hq).symm
      closed     := by simp [hs']
      executable := hw.canExecute hz (hnext ▸ hle) hk
      others     := fun msg hm hne => absurd (hothers msg hm) hne }

-- A report which is rejected while the place of the message is free.
theorem rejection_restores_free :
    Restored (run step exampleFunds ((exampleReport false).take 3)) 1 1
      ⟨⟨exampleDeposit, 9, 10, 2⟩, 8, 10⟩ (run step exampleFunds ((exampleReport false).take 4)) := by
  refine (rejection_restores_iff (fun w => ⟨0, _, if_pos (Nat.zero_le _)⟩) [] _ _ (by decide) rfl
    rfl rfl).mpr ⟨by decide, fun msg hm => ?_⟩
  cases hm

def exampleCompetition : List (Call ℕ ℕ (ℕ × Message)) :=
  (exampleReport false).take 3 ++ [.submitIncomingMessage 7 exampleDeposit 10]

-- The rejection of the report overwrites the message of account 7.
theorem rejection_overwrites : ¬∀ (cs : List (Call ℕ ℕ (ℕ × Message))) n k report s',
    (run step exampleFunds cs).misbehaviourReports (n, k) = some report →
    step (run step exampleFunds cs) (.handleMisbehaviour n k false) = some s' →
    Restored (run step exampleFunds cs) n k report s' := by
  intro h
  have hr := h exampleCompetition 1 1 ⟨⟨exampleDeposit, 9, 10, 2⟩, 8, 10⟩ _ rfl rfl
  exact absurd (hr.others ⟨exampleDeposit, 7, 10, 2⟩ rfl (by decide)) (by decide)

end Rejection

end Thea
