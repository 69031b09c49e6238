import PolkadexModel.PdexMigration.Pallet

open Function List

open Run

namespace PdexMigration

variable {Acc Hash B : Type} {cfg : Config}
variable [DecidableEq Acc] [DecidableEq Hash] [Inhabited Hash] [Balances Acc B]
variable {s s' s₀ : State Acc Hash B cfg} {c : Call Acc Hash}
variable {cs : List (Call Acc Hash)}

-- What a successful `mint` call checked, and what it did to the record of its hash.
structure Approval (s : State Acc Hash B cfg) (relayer beneficiary : Acc) (amount : ℕ)
    (ethTx : Hash) (s' : State Acc Hash B cfg) : Prop where
  registered : s.relayers relayer = true
  fresh      : relayer ∉ (s.ethTxns ethTx).approvers.toList
  approvals  : (s'.ethTxns ethTx).approvals = Word.wrappingAdd 16 (s.ethTxns ethTx).approvals 1
  approvers  : (s'.ethTxns ethTx).approvers.toList =
    (s.ethTxns ethTx).approvers.toList ++ [relayer]
  frame      : ∀ h ≠ ethTx, s'.ethTxns h = s.ethTxns h
  events     : s'.events = s.events ++ [
    if (s'.ethTxns ethTx).approvals = 3
    then .nativePDEXMintedAndLocked relayer beneficiary amount
    else .tokenBurnDetected ethTx relayer]

theorem State.mint_approval (h : s.mint relayer beneficiary amount ethTx = .ok s') :
    Approval s relayer beneficiary amount ethTx s' := by
  unfold mint processMigration at h
  split_ifs at h with _ _ hf hr
  split at h
  case h_1 => simp at h
  case h_2 approvers hp =>
    have hp := BoundedVec.tryPush_eq_some.mp hp
    dsimp only at h
    split_ifs at h <;> cases h
    all_goals
      constructor <;> simp_all [depositEvent, mintAndLock, update_of_ne]

theorem step_mint_approval (h : step s (.mint r b a ethTx) = some s') : Approval s r b a ethTx s' := by
  simp only [step, dispatch] at h
  cases hm : s.mint r b a ethTx <;> simp [hm, Except.toOption] at h
  exact h ▸ State.mint_approval hm

theorem step_cases (h : step s c = some s') :
    (∃ r b a ethTx, c = .mint r b a ethTx ∧ Approval s r b a ethTx s') ∨
    (s'.ethTxns = s.ethTxns) := by
  cases c
  case mint r b a ethTx => exact .inl ⟨r, b, a, ethTx, rfl, step_mint_approval h⟩
  all_goals
    refine .inr ?_
    simp only [step, dispatch, State.unlock, State.processUnlock, State.removeFradulentTokens] at h
    repeat' split at h
    all_goals simp_all [Except.toOption]
    all_goals subst h; rfl

def Mints (s : State Acc Hash B cfg) (c : Call Acc Hash) (ethTx : Hash)
    (beneficiary : Acc) (amount : ℕ) : Prop :=
  ∃ relayer s', c = .mint relayer beneficiary amount ethTx ∧ step s c = some s' ∧
    s'.events = s.events ++ [.nativePDEXMintedAndLocked relayer beneficiary amount]

def Approves (s : State Acc Hash B cfg) (c : Call Acc Hash) (relayer : Acc)
    (ethTx : Hash) (beneficiary : Acc) (amount : ℕ) : Prop :=
  c = .mint relayer beneficiary amount ethTx ∧ s.relayers relayer = true ∧ (step s c).isSome

theorem Mints.approval (h : Mints s c ethTx b a) :
    ∃ r s', c = .mint r b a ethTx ∧ step s c = some s' ∧ Approval s r b a ethTx s' ∧
      (s'.ethTxns ethTx).approvals = 3 := by
  obtain ⟨r, s', hc, hs, he⟩ := h
  have ha := step_mint_approval (hc ▸ hs)
  refine ⟨r, s', hc, hs, ha, ?_⟩
  by_contra h3
  simpa [h3, he] using ha.events

-- The record of a hash along a run: the approvers are distinct, each of them made an approval of
-- the hash, the counter is their number, and the hash has been minted for only if there are at
-- least three of them.
structure Recorded (tr : List (State Acc Hash B cfg × Call Acc Hash))
    (s : State Acc Hash B cfg) (ethTx : Hash) : Prop where
  approvals : (s.ethTxns ethTx).approvals = (s.ethTxns ethTx).approvers.toList.length % 2 ^ 16
  nodup     : (s.ethTxns ethTx).approvers.toList.Nodup
  approved  : ∀ r ∈ (s.ethTxns ethTx).approvers.toList, ∃ e ∈ tr, ∃ b a, Approves e.1 e.2 r ethTx b a
  minted    : ∀ e ∈ tr, ∀ b a, Mints e.1 e.2 ethTx b a → 3 ≤ (s.ethTxns ethTx).approvers.toList.length

namespace Recorded

variable {tr : List (State Acc Hash B cfg × Call Acc Hash)} {ethTx : Hash}

-- The counter is a `u16`, so it tells three approvals from later ones only as long as the number
-- of relayers does not let it wrap around to three once more.
theorem length_eq_two_of_mints (h : Recorded tr s ethTx) (hm : cfg.maxRelayers < 2 ^ 16 + 3)
 (m : Mints s c ethTx b a) : (s.ethTxns ethTx).approvers.toList.length = 2 := by
  obtain ⟨_, s', _, _, ha, h3⟩ := m.approval
  have hl := (s'.ethTxns ethTx).approvers.length_le
  rw [ha.approvals, h.approvals, Word.wrappingAdd] at h3
  simp only [ha.approvers, length_append, length_singleton] at hl
  omega

theorem of_approval (h : Recorded tr s ethTx)
    (hs : step s (.mint r b a ethTx) = some s') (ha : Approval s r b a ethTx s') :
    Recorded (tr ++ [(s, .mint r b a ethTx)]) s' ethTx  where
  approvals := by
    rw [ha.approvals, ha.approvers, h.approvals]
    simp [Word.wrappingAdd]
  nodup := by
    rw [ha.approvers]
    refine nodup_append.mpr ⟨h.nodup, by simp, fun r' hr' r'' hr'' hrr => ?_⟩
    cases mem_singleton.mp hr''
    exact ha.fresh (hrr ▸ hr')
  approved := by
    rw [ha.approvers]
    intro r' hr'
    rcases mem_append.mp hr' with hr' | hr'
    · obtain ⟨e, he, b, a, happ⟩ := h.approved r' hr'
      exact ⟨e, by simp [he], b, a, happ⟩
    · cases mem_singleton.mp hr'
      exact ⟨(s, .mint r b a ethTx), by simp, b, a, rfl, ha.registered, by simp [hs]⟩
  minted := by
    rw [ha.approvers]
    intro e he b' a' m
    rcases mem_append.mp he with he | he
    · have := h.minted e he b' a' m
      simp; omega
    · cases mem_singleton.mp he
      obtain ⟨_, _, _, hs', _, h3⟩ := m.approval
      cases hs.symm.trans hs'
      rw [ha.approvals, h.approvals, Word.wrappingAdd] at h3
      simp; omega

-- The step lemma: a call extends the record of the hash that it approves, if it is accepted, and
-- leaves all other records alone.
theorem snoc (h : Recorded tr s ethTx) (c : Call Acc Hash) :
    Recorded (tr ++ [(s, c)]) (exec step s c) ethTx := by
  have unchanged {s' : State Acc Hash B cfg} (he : s'.ethTxns ethTx = s.ethTxns ethTx)
      (hm : ∀ b a, ¬Mints s c ethTx b a) : Recorded (tr ++ [(s, c)]) s' ethTx := by
    refine ⟨he ▸ h.approvals, he ▸ h.nodup, fun r hr => ?_, fun e he' b a m => ?_⟩
    · obtain ⟨e, he', h'⟩ := h.approved r (he ▸ hr)
      exact ⟨e, by simp [he'], h'⟩
    · rcases mem_append.mp he' with he' | he'
      · exact he ▸ h.minted e he' b a m
      · cases mem_singleton.mp he'
        exact absurd m (hm b a)
  rcases exec_cases step s c with hs | ⟨hs, he⟩
  case inr =>
    refine unchanged (by rw [he]) fun _ _ hm => ?_
    obtain ⟨_, _, _, hs', _⟩ := hm
    simp [hs] at hs'
  case inl =>
    rcases step_cases hs with ⟨r, b, a, t, rfl, ha⟩ | hn
    case inr =>
      refine unchanged (by rw [hn]) fun b a m => ?_
      obtain ⟨_, _, _, hs', ha, _⟩ := m.approval
      cases hs.symm.trans hs'
      simpa [hn] using ha.approvers
    case inl =>
      by_cases ht : ethTx = t
      case pos => subst ht; exact h.of_approval hs ha
      case neg =>
        refine unchanged (ha.frame _ ht) fun _ _ hm => ?_
        obtain ⟨_, _, hc, _⟩ := hm
        cases hc
        exact ht rfl

theorem init (h : s₀.ethTxns = fun _ => default) : Recorded [] s₀ ethTx := by
  constructor <;> simp [h, default]

theorem run (h : s₀.ethTxns = fun _ => default) (cs : List (Call Acc Hash)) (ethTx : Hash) :
    Recorded (trace step s₀ cs) (Run.run step s₀ cs) ethTx := by
  induction cs using reverseRecOn with
  | nil => exact init h
  | append_singleton cs c hi => simpa using hi.snoc c

end Recorded

-- Every mint of the run was approved by three distinct relayers, each of them registered when they
-- approved, for exactly its hash, its beneficiary and its amount.
def MintsAgreed (s₀ : State Acc Hash B cfg) (cs : List (Call Acc Hash)) : Prop :=
  ∀ cs₁ c cs₂, cs = cs₁ ++ c :: cs₂ → ∀ ethTx b a, Mints (run step s₀ cs₁) c ethTx b a →
    ∃ r₁ r₂ r₃, r₁ ≠ r₂ ∧ r₁ ≠ r₃ ∧ r₂ ≠ r₃ ∧
      ∀ r ∈ [r₁, r₂, r₃], ∃ e ∈ trace step s₀ (cs₁ ++ [c]), Approves e.1 e.2 r ethTx b a

def MintsOnce (s₀ : State Acc Hash B cfg) (cs : List (Call Acc Hash)) : Prop :=
  (trace step s₀ cs).Pairwise fun e₁ e₂ =>
    ∀ ethTx b₁ a₁ b₂ a₂, Mints e₁.1 e₁.2 ethTx b₁ a₁ → ¬Mints e₂.1 e₂.2 ethTx b₂ a₂

-- The registered relayers call `mint` for a hash with one beneficiary and one amount only.
def RelayersAgree (s₀ : State Acc Hash B cfg) (cs : List (Call Acc Hash)) : Prop :=
  ∀ e₁ ∈ trace step s₀ cs, ∀ e₂ ∈ trace step s₀ cs, ∀ ethTx r₁ b₁ a₁ r₂ b₂ a₂,
    e₁.2 = .mint r₁ b₁ a₁ ethTx → e₁.1.relayers r₁ = true →
    e₂.2 = .mint r₂ b₂ a₂ ethTx → e₂.1.relayers r₂ = true → b₁ = b₂ ∧ a₁ = a₂

theorem mintsOnce (h : s₀.ethTxns = fun _ => default) (hm : cfg.maxRelayers < 2 ^ 16 + 3)
    (cs : List (Call Acc Hash)) : MintsOnce s₀ cs := by
  unfold MintsOnce
  induction cs using reverseRecOn with
  | nil => simp
  | append_singleton cs c hi =>
    rw [trace_append, pairwise_append]
    refine ⟨hi, by simp, fun e he e' he' ethTx b₁ a₁ b₂ a₂ m₁ m₂ => ?_⟩
    cases mem_singleton.mp he'
    have hr := Recorded.run h cs ethTx
    have := hr.minted e he b₁ a₁ m₁
    have := hr.length_eq_two_of_mints hm m₂
    omega

theorem mintsAgreed (h : s₀.ethTxns = fun _ => default) (hm : cfg.maxRelayers < 2 ^ 16 + 3)
    (ha : RelayersAgree s₀ cs) : MintsAgreed s₀ cs := by
  intro cs₁ c cs₂ hcs ethTx b a m
  have hr := Recorded.run h cs₁ ethTx
  obtain ⟨r₃, s', hc, hs, happ, _⟩ := m.approval
  obtain ⟨r₁, r₂, hl⟩ := length_eq_two.mp <| hr.length_eq_two_of_mints hm m
  have hn := hr.nodup
  have hf := happ.fresh
  simp only [hl, nodup_cons, mem_cons, not_mem_nil, or_false, not_or] at hn hf
  have hlast : (Run.run step s₀ cs₁, c) ∈ trace step s₀ cs := by simp [hcs]
  -- The earlier approvals were made by registered relayers, so they agree with the last one.
  have agree {r} (hr' : r ∈ [r₁, r₂]) :
      ∃ e ∈ trace step s₀ cs₁, Approves e.1 e.2 r ethTx b a := by
    obtain ⟨e, he, b', a', hc', hreg, hok⟩ := hr.approved r (hl ▸ hr')
    obtain ⟨hb, ha⟩ := ha e (by simp [hcs, he]) _ hlast ethTx r b' a' r₃ b a hc' hreg hc happ.registered
    exact ⟨e, he, hb ▸ ha ▸ hc', hreg, hok⟩
  refine ⟨r₁, r₂, r₃, hn.1, Ne.symm hf.1, Ne.symm hf.2, fun r hr' => ?_⟩
  by_cases hr₃ : r = r₃
  case pos =>
    subst hr₃
    exact ⟨(Run.run step s₀ cs₁, c), by simp, hc, happ.registered, by simp [hs]⟩
  case neg =>
    obtain ⟨e, he, h'⟩ := agree (r := r) (by simp_all)
    exact ⟨e, by simp [he], h'⟩

-- Three relayers have to agree on a burn transaction before it is minted for, and it is minted for
-- once. The record of a hash holds no beneficiary and no amount, so the agreement on these is up to
-- the relayers.
theorem mint_approved_by_three (operational : Bool) (maxTokens : ℕ) (balances : B)
    (hm : cfg.maxRelayers < 2 ^ 16 + 3) (cs : List (Call Acc Hash))
    (ha : RelayersAgree (.genesis operational maxTokens balances : State _ _ _ cfg) cs) :
    MintsAgreed (.genesis operational maxTokens balances : State _ _ _ cfg) cs ∧
    MintsOnce (.genesis operational maxTokens balances : State _ _ _ cfg) cs :=
  ⟨mintsAgreed rfl hm ha, mintsOnce rfl hm cs⟩

-- A balances pallet for concrete runs.
structure SimpleBalances where
  free : ℕ → ℕ
  locks : ℕ → List BalanceLock

instance : Balances ℕ SimpleBalances where
  locks := SimpleBalances.locks
  depositCreating b who amount := { b with free := update b.free who (b.free who + amount) }
  setLock b id who amount :=
    { b with
      locks := update b.locks who <|
        (b.locks who).filter (·.id ≠ id) ++ [⟨id, amount⟩] }
  removeLock b id who :=
    { b with locks := update b.locks who <| (b.locks who).filter (·.id ≠ id) }
  burnFrom b who amount :=
    if amount ≤ b.free who
    then some { b with free := update b.free who (b.free who - amount) }
    else none

def approvals (b₁ a₁ b₂ a₂ b₃ a₃ : ℕ) : List (Call ℕ ℕ) := [
  .setRelayerStatus 1 true, .setRelayerStatus 2 true, .setRelayerStatus 3 true,
  .mint 1 b₁ a₁ 7, .mint 2 b₂ a₂ 7, .mint 3 b₃ a₃ 7]

def exampleGenesis : State ℕ ℕ SimpleBalances ⟨3, 10⟩ :=
  .genesis true 1000 ⟨fun _ => 0, fun _ => []⟩

theorem mint_approved_by_three_agreeing :
    MintsAgreed exampleGenesis (approvals 10 100 10 100 10 100) ∧
    MintsOnce exampleGenesis (approvals 10 100 10 100 10 100) :=
  mint_approved_by_three true 1000 _ (by decide) _ <| by
    intro e₁ h₁ e₂ h₂ ethTx r₁ b₁ a₁ r₂ b₂ a₂ hc₁ _ hc₂ _
    simp only [approvals, trace, mem_cons, not_mem_nil, or_false] at h₁ h₂
    rcases h₁ with rfl | rfl | rfl | rfl | rfl | rfl <;>
      rcases h₂ with rfl | rfl | rfl | rfl | rfl | rfl <;> simp_all

-- The third relayer chooses who is paid and how much, whatever the other two have approved.
theorem third_relayer_decides : ¬∀ cs, MintsAgreed exampleGenesis cs := by
  intro h
  have m : Mints (run step exampleGenesis (approvals 10 100 11 5 12 900).dropLast)
      (.mint 3 12 900 7) 7 12 900 := ⟨3, _, rfl, rfl, rfl⟩
  obtain ⟨r₁, r₂, r₃, h₁₂, _, _, happ⟩ := h _ _ _ [] rfl 7 12 900 m
  have only_third {r} (hr : r ∈ [r₁, r₂, r₃]) : r = 3 := by
    obtain ⟨e, he, hc, _⟩ := happ r hr
    simp only [approvals, dropLast, trace, mem_cons, cons_append, nil_append,
      not_mem_nil, or_false] at he
    rcases he with rfl | rfl | rfl | rfl | rfl | rfl <;> simp_all
  exact h₁₂ <| (only_third (by simp)).trans (only_third (by simp)).symm

end PdexMigration
