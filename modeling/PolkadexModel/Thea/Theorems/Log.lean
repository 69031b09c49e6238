import PolkadexModel.Lib.Except
import PolkadexModel.Thea.Theorems.Outgoing

open Function List

open Run

namespace Thea

variable {Acc TheaId Sign W : Type} {s s' s₁ s₂ : State Acc TheaId Sign W}

-- One message was issued to each of the networks for which there is one.
structure Issued (p : Network → Option (PayloadType × Bytes)) (networks : List Network)
    (s s' : State Acc TheaId Sign W) : Prop where
  block  : s'.currentBlockNumber = s.currentBlockNumber
  config : s'.networkConfig = s.networkConfig
  nonce  : ∀ n, s'.outgoingNonce n =
    s.outgoingNonce n + if n ∈ networks ∧ (p n).isSome then 1 else 0
  kept   : ∀ k, ¬(k.1 ∈ networks ∧ (p k.1).isSome ∧ k.2 = s.outgoingNonce k.1 + 1) →
    s'.outgoingMessages k = s.outgoingMessages k
  issued : ∀ {n ty data}, n ∈ networks → p n = some (ty, data) →
    s'.outgoingMessages (n, s.outgoingNonce n + 1) = some (s.generatePayload ty n data)

namespace Issued

variable {p : Network → Option (PayloadType × Bytes)} {n : Network} {l₁ l₂ : List Network}

theorem refl (p : Network → Option (PayloadType × Bytes)) (s : State Acc TheaId Sign W) :
    Issued p [] s s := by
  constructor <;> simp

theorem of_none (h : p n = none) (hl : s'.currentBlockNumber = s.currentBlockNumber)
    (hc : s'.networkConfig = s.networkConfig) (hn : s'.outgoingNonce = s.outgoingNonce)
    (hm : s'.outgoingMessages = s.outgoingMessages) : Issued p [n] s s' := by
  refine ⟨hl, hc, fun n' => ?_, fun k _ => by rw [hm], fun hn' hp => ?_⟩
  · have : ¬(n' ∈ [n] ∧ (p n').isSome) := by
      rintro ⟨hn', hp⟩
      simp_all
    rw [hn, if_neg this, Nat.add_zero]
  · simp_all

theorem insertOutgoing (h : p n = some (ty, data)) (hn : s.outgoingNonce n < Word.max 64) :
    Issued p [n] s (s.insertOutgoing (s.generatePayload ty n data)) := by
  have hnonce : (s.generatePayload ty n data).nonce = s.outgoingNonce n + 1 :=
    Word.lt_saturatingAdd_one hn
  constructor
  case block => rfl
  case config => rfl
  case nonce =>
    intro n'
    simp only [State.insertOutgoing, update_apply, hnonce, mem_singleton]
    by_cases he : n' = n
    · subst he
      simp [State.generatePayload, h]
    · simp [State.generatePayload, he]
  case kept =>
    intro k hk
    refine update_of_ne (fun he => hk ?_) ..
    rw [he, hnonce]
    exact ⟨mem_singleton_self _, by simp [State.generatePayload, h], rfl⟩
  case issued =>
    intro n' ty' data' hn' hp
    cases mem_singleton.mp hn'
    cases h.symm.trans hp
    simp only [State.insertOutgoing, ← hnonce]
    exact update_self ..

theorem congr_left (h : Issued p l₁ s₁ s') (hl : s₁.currentBlockNumber = s.currentBlockNumber)
    (hc : s₁.networkConfig = s.networkConfig) (hn : s₁.outgoingNonce = s.outgoingNonce)
    (hm : s₁.outgoingMessages = s.outgoingMessages) : Issued p l₁ s s' where
  block := h.block.trans hl
  config := h.config.trans hc
  nonce := hn ▸ h.nonce
  kept := hn ▸ hm ▸ h.kept
  issued hn' hp := by
    rw [← hn, h.issued hn' hp]
    simp only [State.generatePayload, hl, hn]

theorem trans (h₁ : Issued p l₁ s s₁) (h₂ : Issued p l₂ s₁ s₂) (hd : l₁.Disjoint l₂) :
    Issued p (l₁ ++ l₂) s s₂ := by
  have hnonce {n} (hn : n ∈ l₂) : s₁.outgoingNonce n = s.outgoingNonce n := by
    rw [h₁.nonce, if_neg fun h => hd h.1 hn, Nat.add_zero]
  constructor
  case block => exact h₂.block.trans h₁.block
  case config => exact h₂.config.trans h₁.config
  case nonce =>
    intro n
    rw [h₂.nonce, h₁.nonce, Nat.add_assoc]
    by_cases hn₂ : n ∈ l₂
    · have hn₁ : n ∉ l₁ := fun h => hd h hn₂
      simp [hn₁, hn₂]
    · simp [hn₂]
  case kept =>
    intro k hk
    rw [h₂.kept k fun h => hk ⟨mem_append_right _ h.1, h.2.1, hnonce h.1 ▸ h.2.2⟩]
    exact h₁.kept k fun h => hk ⟨mem_append_left _ h.1, h.2⟩
  case issued =>
    intro n ty data hn hp
    by_cases hn₂ : n ∈ l₂
    case pos =>
      rw [← hnonce hn₂, h₂.issued hn₂ hp]
      simp only [State.generatePayload, hnonce hn₂, h₁.block]
    case neg =>
      rw [h₂.kept _ fun h => hn₂ h.1]
      exact h₁.issued ((mem_append.mp hn).resolve_right hn₂) hp

theorem foldl {config : Network → NetworkConfig}
    (hf : ∀ {s n}, s.networkConfig = config → s.outgoingNonce n < Word.max 64 → Issued p [n] s (f s n))
 (hc : s.networkConfig = config) (hl : l.Nodup)
    (hn : ∀ n ∈ l, s.outgoingNonce n < Word.max 64) : Issued p l s (l.foldl f s) := by
  induction l generalizing s with
  | nil => exact .refl p s
  | cons n l hi =>
    obtain ⟨hnl, hl⟩ := nodup_cons.mp hl
    have h₁ : Issued p [n] s (f s n) := hf hc (hn n mem_cons_self)
    refine h₁.trans (hi (h₁.config.trans hc) hl fun n' hn' => ?_) (by simpa using hnl)
    have hne : n' ∉ [n] := fun h => hnl (mem_singleton.mp h ▸ hn')
    rw [h₁.nonce, if_neg fun h => hne h.1]
    exact hn n' (mem_cons_of_mem _ hn')

end Issued

-- The messages of each network have the nonces from 1 to the outgoing nonce, and are stored under
-- them.
structure State.Dense (s : State Acc TheaId Sign W) : Prop where
  word   : ∀ n, s.outgoingNonce n ≤ Word.max 64
  stored : ∀ n k, (s.outgoingMessages (n, k)).isSome ↔ 1 ≤ k ∧ k ≤ s.outgoingNonce n
  keyed  : ∀ {n k m}, s.outgoingMessages (n, k) = some m → m.network = n ∧ m.nonce = k

def Preserves (s s' : State Acc TheaId Sign W) : Prop :=
  ∀ k m, s.outgoingMessages k = some m → s'.outgoingMessages k = some m

namespace State.Dense

theorem congr (h : s.Dense) (hn : s'.outgoingNonce = s.outgoingNonce)
    (hm : s'.outgoingMessages = s.outgoingMessages) : s'.Dense :=
  ⟨hn ▸ h.word, hm ▸ hn ▸ h.stored, hm ▸ h.keyed⟩

theorem genesis (authorities : List TheaId) (w : W) :
    (State.genesis authorities w : State Acc TheaId Sign W).Dense := by
  constructor
  case word => simp [State.genesis]
  case stored => simp [State.genesis]; omega
  case keyed => simp [State.genesis]

variable {p : Network → Option (PayloadType × Bytes)} {l : List Network}

theorem preserves_of_issued (h : s.Dense) (hi : Issued p l s s') : Preserves s s' := by
  intro k m hk
  rw [hi.kept k fun hk' => ?_, hk]
  have := ((h.stored k.1 k.2).mp (by simp [hk])).2
  omega

theorem of_issued (h : s.Dense) (hi : Issued p l s s')
    (hl : ∀ n ∈ l, s.outgoingNonce n < Word.max 64) : s'.Dense := by
  have hnew {n k} (hk : n ∈ l ∧ (p n).isSome ∧ k = s.outgoingNonce n + 1) :
      ∃ ty data, s'.outgoingMessages (n, k) = some (s.generatePayload ty n data) := by
    obtain ⟨⟨ty, data⟩, hp⟩ := Option.isSome_iff_exists.mp hk.2.1
    exact ⟨ty, data, hk.2.2 ▸ hi.issued hk.1 hp⟩
  constructor
  case word =>
    intro n
    rw [hi.nonce]
    split_ifs with hn
    · exact hl n hn.1
    · exact h.word n
  case stored =>
    intro n k
    rw [hi.nonce]
    by_cases hk : n ∈ l ∧ (p n).isSome ∧ k = s.outgoingNonce n + 1
    case pos =>
      obtain ⟨_, _, hm⟩ := hnew hk
      rw [hm, if_pos ⟨hk.1, hk.2.1⟩, hk.2.2]
      simp
    case neg =>
      rw [hi.kept (n, k) hk, h.stored]
      split_ifs with hn
      · have : k ≠ s.outgoingNonce n + 1 := fun he => hk ⟨hn.1, hn.2, he⟩
        omega
      · rfl
  case keyed =>
    intro n k m hm
    by_cases hk : n ∈ l ∧ (p n).isSome ∧ k = s.outgoingNonce n + 1
    case pos =>
      obtain ⟨ty, data, hm'⟩ := hnew hk
      cases hm'.symm.trans hm
      exact ⟨rfl, (Word.lt_saturatingAdd_one (hl n hk.1)).trans hk.2.2.symm⟩
    case neg => exact h.keyed (hi.kept (n, k) hk ▸ hm)

end State.Dense

section Rotation

variable [Config TheaId]

-- The message about the queued set, and the one about the new set, for each of the networks.
def State.announcement [DecidableEq TheaId] (s : State Acc TheaId Sign W)
    (incoming queued : List TheaId) (newId : ValidatorSetId) (n : Network) :
    Option (PayloadType × Bytes) :=
  if incoming.toFinset ≠ queued.toFinset
  then (s.rotationPayload queued newId n).map (Prod.mk .scheduledRotateValidators)
  else none

def notice (notified : Network → Bool) (n : Network) : Option (PayloadType × Bytes) :=
  if notified n then some (.validatorsRotated, []) else none

theorem issued_scheduleRotation (s₀ : State Acc TheaId Sign W) (queued : List TheaId)
    (newId : ValidatorSetId) (hc : s.networkConfig = s₀.networkConfig)
    (hn : s.outgoingNonce n < Word.max 64) :
    Issued (fun n => (s₀.rotationPayload queued newId n).map (Prod.mk .scheduledRotateValidators))
      [n] s (s.scheduleRotation queued newId n) := by
  have hp : s.rotationPayload queued newId n = s₀.rotationPayload queued newId n := by
    simp only [State.rotationPayload, hc]
  simp only [State.scheduleRotation, hp]
  cases hr : s₀.rotationPayload queued newId n with
  | none => exact .of_none (by simp [hr]) rfl rfl rfl rfl
  | some payload => exact .insertOutgoing (by simp [hr]) hn

omit [Config TheaId] in
theorem issued_notifyRotated (notified : Network → Bool) (hn : s.outgoingNonce n < Word.max 64) :
    Issued (notice notified) [n] s (s.notifyRotated notified n) := by
  simp only [State.notifyRotated]
  split
  case isTrue h => exact .insertOutgoing (by simp [notice, h]) hn
  case isFalse h => exact .of_none (by simp [notice, h]) rfl rfl rfl rfl

variable {networks : List Network}

omit [Config TheaId] in
theorem issued_rotateAuthorities (incoming : List TheaId) (newId : ValidatorSetId)
    (notified : Network → Bool) (hl : networks.Nodup)
    (hn : ∀ n ∈ networks, s.outgoingNonce n < Word.max 64) :
    Issued (notice notified) networks s (s.rotateAuthorities networks incoming newId notified) := by
  simp only [State.rotateAuthorities, foldl_resetSigned]
  refine .congr_left (.foldl ?_ rfl hl ?_) rfl rfl rfl rfl
  · intro s n _ hn
    exact issued_notifyRotated notified hn
  · exact hn

variable [DecidableEq TheaId]

theorem issued_announcement (incoming queued : List TheaId) (newId : ValidatorSetId)
    (hl : networks.Nodup) (hn : ∀ n ∈ networks, s.outgoingNonce n < Word.max 64) :
    Issued (s.announcement incoming queued newId) networks s
      (s.scheduleRotations networks incoming queued newId) := by
  simp only [State.scheduleRotations]
  split
  case isTrue hne =>
    have hp : s.announcement incoming queued newId =
        fun n => (s.rotationPayload queued newId n).map (Prod.mk .scheduledRotateValidators) :=
      funext fun _ => if_pos hne
    have h := Issued.foldl (issued_scheduleRotation s queued newId) rfl hl hn
    rw [hp]
    exact ⟨h.block, h.config, h.nonce, h.kept, h.issued⟩
  case isFalse heq =>
    have hp : s.announcement incoming queued newId = fun _ => none := funext fun _ => if_neg heq
    rw [hp]
    constructor <;> simp

omit [Config TheaId] [DecidableEq TheaId] in
theorem nodup_activeNetworks (s : State Acc TheaId Sign W) :
    s.activeNetworks.toList.Nodup :=
  s.activeNetworks.distinct_toList.imp (by simp)

theorem State.Dense.onNewSession (h : s.Dense)
    (hn : ∀ n ∈ s.activeNetworks, s.outgoingNonce n + 2 ≤ Word.max 64)
    (validators queued : List TheaId) :
    (s.onNewSession validators queued).Dense ∧ Preserves s (s.onNewSession validators queued) := by
  have hroom n (hn' : n ∈ s.activeNetworks.toList) : s.outgoingNonce n + 2 ≤ Word.max 64 :=
    hn n (Std.TreeSet.mem_toList.mp hn')
  simp only [State.onNewSession, State.changeAuthorities]
  generalize validators.take (Config.maxAuthorities TheaId) = incoming
  generalize queued.take (Config.maxAuthorities TheaId) = queued
  have hi := issued_announcement incoming queued (Word.wrappingAdd 64 s.validatorSetId 1)
    (nodup_activeNetworks s) fun n hn' => Nat.lt_of_succ_lt (hroom n hn')
  have h₁ := h.of_issued hi fun n hn' => Nat.lt_of_succ_lt (hroom n hn')
  split
  case isFalse => exact ⟨h₁, h.preserves_of_issued hi⟩
  case isTrue =>
    have hroom₁ n (hn' : n ∈ s.activeNetworks.toList) :
        (s.scheduleRotations s.activeNetworks.toList incoming queued
          (Word.wrappingAdd 64 s.validatorSetId 1)).outgoingNonce n < Word.max 64 := by
      have := hroom n hn'
      rw [hi.nonce]
      split_ifs <;> omega
    have hi₁ notified := issued_rotateAuthorities incoming (Word.wrappingAdd 64 s.validatorSetId 1)
      notified (nodup_activeNetworks s) hroom₁
    refine ⟨h₁.of_issued (hi₁ _) hroom₁, fun k m hk => ?_⟩
    exact h₁.preserves_of_issued (hi₁ _) k m (h.preserves_of_issued hi k m hk)

end Rotation

section Run

variable [Currency Acc W] [Executor W] [Authority TheaId Sign] [Config TheaId]
  [DecidableEq TheaId]
variable {c : Call Acc TheaId Sign} {cs : List (Call Acc TheaId Sign)}

-- The storage which the log and the rotations depend on.
def State.log (s : State Acc TheaId Sign W) :=
  (s.outgoingNonce, s.outgoingMessages, s.activeNetworks, s.networkConfig, s.nextAuthorities,
    s.authorities, s.validatorSetId)

-- What a call does to it.
inductive LogStep (s s' : State Acc TheaId Sign W) :
    Call Acc TheaId Sign → Prop
  | frame {call} : (∀ k n, call ≠ .updateOutgoingNonce k n) → s'.log = s.log → LogStep s s' call
  | issue {data n} : s.outgoingMessages (n, (s.generatePayload .l1Deposit n data).nonce) = none →
      s' = s.insertOutgoing (s.generatePayload .l1Deposit n data) →
      LogStep s s' (.sendTheaMessage data n)
  | renumber {k : Fin (2 ^ 64)} {n} : s.outgoingNonce n ≤ k →
      s' = { s with outgoingNonce := update s.outgoingNonce n k } →
      LogStep s s' (.updateOutgoingNonce k n)
  | addNetwork {n isEvm forkPeriod minStake fishermanStake} :
      s' = { s with
        networkConfig := update s.networkConfig n
          (.new forkPeriod minStake fishermanStake isEvm)
        activeNetworks := s.activeNetworks.insert n } →
      LogStep s s' (.addTheaNetwork n isEvm forkPeriod minStake fishermanStake)
  | removeNetwork {n} : s' = { s with activeNetworks := s.activeNetworks.erase n } →
      LogStep s s' (.removeTheaNetwork n)
  | session {validators queued} : s' = s.onNewSession validators queued →
      LogStep s s' (.newSession validators queued)

theorem step_logStep (h : step s c = some s') : LogStep s s' c := by
  have hd : dispatch s c = .ok s' := toOption_eq_some.mp h
  cases c
  case newSession => cases hd; exact .session rfl
  case removeTheaNetwork => cases hd; exact .removeNetwork rfl
  case sendTheaMessage data n =>
    simp only [dispatch, State.executeWithdrawals] at hd
    split_ifs at hd with hfree
    cases hd
    exact .issue (by simpa using hfree) rfl
  case updateOutgoingNonce k n =>
    simp only [dispatch, State.updateOutgoingNonce] at hd
    split_ifs at hd with hk
    cases hd
    exact .renumber (Nat.le_of_not_lt hk) rfl
  case addTheaNetwork =>
    simp only [dispatch, State.addTheaNetwork] at hd
    split_ifs at hd
    cases hd
    exact .addNetwork rfl
  all_goals refine .frame (by simp) ?_
  case nextBlock =>
    cases hd
    exact State.onInitialize_frame State.log (fun _ _ _ _ _ _ => rfl) _
  case submitSignedOutgoingMessages =>
    simp only [dispatch, State.submitSignedOutgoingMessages] at hd
    split at hd
    case h_1 => cases hd
    case h_2 =>
      split_ifs at hd
      exact State.submitSignatures_frame State.log (fun _ _ _ _ => rfl) hd
  all_goals
    simp only [dispatch, State.submitIncomingMessage, State.reportMisbehaviour,
      State.handleMisbehaviour, State.slashRelayer, State.restoreMessage] at hd
    repeat' split at hd
    all_goals cases hd
    all_goals rfl

-- A message which is not yet signed by a quorum is there to be signed: in its turn, the signature of
-- an active authority that has not signed it passes the validation.
def State.Signable (s : State Acc TheaId Sign W) : Prop :=
  ∀ n k, s.signedOutgoingNonce n < k → k ≤ s.outgoingNonce n → ∃ message,
    s.outgoingMessages (n, k) = some message ∧
    (k = s.nextSignedNonce n → ∀ i a sig, s.activeAuthorities[i]? = some a →
      Authority.verify sig message a = true →
      (∀ m, s.signedOutgoingMessages (n, k) = some m → m.containsSignature i = false) →
      s.validateSignedOutgoingMessage i s.validatorSetId [(n, k, sig)] = .ok ())

omit [Currency Acc W] [Executor W] [Config TheaId] [DecidableEq TheaId] in
theorem State.validateSignedOutgoingMessage_eq_ok (hk : k = s.nextSignedNonce n)
    (ha : s.activeAuthorities[i]? = some a) (hm : s.outgoingMessages (n, k) = some message)
    (hv : Authority.verify sig message a = true)
    (hs : ∀ m, s.signedOutgoingMessages (n, k) = some m → m.containsSignature i = false) :
    s.validateSignedOutgoingMessage i s.validatorSetId [(n, k, sig)] = .ok () := by
  have hne : s.activeAuthorities ≠ [] := by
    intro he
    simp [he] at ha
  have hany : ¬(s.signedOutgoingMessages (n, k)).any (·.containsSignature i) := by
    cases hsm : s.signedOutgoingMessages (n, k) with
    | none => simp
    | some m => simp [hs m hsm]
  have hsig : s.validateSignature i a n k sig = .ok () := by
    simp only [validateSignature, hk, ne_eq, not_true_eq_false, if_false]
    rw [← hk, if_neg hany, hm]
    exact if_pos hv
  simp only [validateSignedOutgoingMessage, ne_eq, not_true_eq_false, if_false, hne, ha, List.forM,
    hsig]
  rfl

omit [Currency Acc W] [Executor W] [Config TheaId] [DecidableEq TheaId] in
theorem State.Dense.signable (h : s.Dense) : s.Signable := by
  intro n k hs hk
  obtain ⟨message, hm⟩ := Option.isSome_iff_exists.mp <| (h.stored n k).mpr ⟨Nat.one_le_of_lt hs, hk⟩
  exact ⟨message, hm, fun hn _ _ _ ha hv hc => validateSignedOutgoingMessage_eq_ok hn ha hm hv hc⟩

-- What a call has to keep up.
structure LogKept (s s' : State Acc TheaId Sign W) : Prop where
  preserves : Preserves s s'
  dense     : s'.Dense
  signable  : s'.Signable

def Room (s : State Acc TheaId Sign W) : Call Acc TheaId Sign → Prop
  | .newSession _ _ => ∀ n ∈ s.activeNetworks, s.outgoingNonce n + 2 ≤ Word.max 64
  | _ => True

def KeepsNonce (s : State Acc TheaId Sign W) : Call Acc TheaId Sign → Prop
  | .updateOutgoingNonce nonce n => nonce ≤ s.outgoingNonce n
  | _ => True

omit [Authority TheaId Sign] [Config TheaId] [DecidableEq TheaId] [Currency Acc W]
  [Executor W] in
-- A withdrawal is refused once the nonce is exhausted, since the last slot is then occupied.
theorem State.Dense.insertOutgoing (h : s.Dense)
    (hfree : s.outgoingMessages (n, (s.generatePayload .l1Deposit n data).nonce) = none) :
    (s.insertOutgoing (s.generatePayload .l1Deposit n data)).Dense ∧
    Preserves s (s.insertOutgoing (s.generatePayload .l1Deposit n data)) := by
  have hn : s.outgoingNonce n < Word.max 64 := by
    by_contra hn
    have hmax : s.outgoingNonce n = Word.max 64 := Nat.le_antisymm (h.word n) (Nat.le_of_not_lt hn)
    have hocc := (h.stored n (s.outgoingNonce n)).mpr ⟨hmax ▸ by decide, le_rfl⟩
    have hnonce : (s.generatePayload .l1Deposit n data).nonce = s.outgoingNonce n := by
      simp [generatePayload, Word.saturatingAdd, hmax]
    rw [← hnonce, hfree] at hocc
    cases hocc
  have hi : Issued (fun _ => some (.l1Deposit, data)) [n] s _ := .insertOutgoing rfl hn
  refine ⟨h.of_issued hi fun n' hn' => ?_, h.preserves_of_issued hi⟩
  exact mem_singleton.mp hn' ▸ hn

-- The step lemma. A nonce which is moved up leaves a gap.
theorem State.Dense.step_iff (h : s.Dense) (hroom : Room s c) (hs : step s c = some s') :
    LogKept s s' ↔ KeepsNonce s c := by
  have kept (hd : s'.Dense) (hp : Preserves s s') : LogKept s s' := ⟨hp, hd, hd.signable⟩
  cases step_logStep hs with
  | frame hc he =>
    simp only [log, Prod.mk.injEq] at he
    refine iff_of_true (kept (h.congr he.1 he.2.1) fun k m hm => he.2.1 ▸ hm) ?_
    cases c
    case updateOutgoingNonce k n => exact absurd rfl (hc k n)
    all_goals trivial
  | issue hfree he =>
    obtain ⟨hd, hp⟩ := h.insertOutgoing hfree
    exact iff_of_true (kept (he ▸ hd) (he ▸ hp)) trivial
  | addNetwork he | removeNetwork he =>
    subst he
    exact iff_of_true (kept (h.congr rfl rfl) fun _ _ => id) trivial
  | @session validators queued he =>
    obtain ⟨hd, hp⟩ := h.onNewSession hroom validators queued
    exact iff_of_true (kept (he ▸ hd) (he ▸ hp)) trivial
  | @renumber k n hle he =>
    subst he
    constructor
    · intro hk
      by_contra hlt
      have hlt : s.outgoingNonce n < k := Nat.lt_of_not_le hlt
      have hocc := (hk.dense.stored n k).mpr ⟨Nat.one_le_of_lt hlt, by simp⟩
      have := ((h.stored n k).mp hocc).2
      omega
    · intro hk
      have hk : (k : ℕ) = s.outgoingNonce n := Nat.le_antisymm hk hle
      refine kept (h.congr ?_ rfl) fun _ _ => id
      rw [hk]
      exact update_eq_self ..

end Run

def exampleSession : List (Call ℕ ℕ (ℕ × Message)) :=
  [.addTheaNetwork 1 false 20 10 10, .sendTheaMessage [] 1, .newSession [5, 6] [7, 8],
    .updateOutgoingNonce 3 1]

end Thea
