import PolkadexModel.Lib.Quorum
import PolkadexModel.Thea.Theorems.Incoming

open Function List Std.TreeMap

open Run

namespace Thea

variable {Acc TheaId Sign W : Type} {s s' s₀ s₁ s₂ : State Acc TheaId Sign W}

namespace SignedMessage

variable {m : SignedMessage Sign} {message : Message} {id i j : ℕ} {sig sig' : Sign}

theorem getElem?_new_signatures (h : (new message id i sig).signatures[j]? = some sig') :
    j = i ∧ sig' = sig := by
  simp only [new, Std.TreeMap.getElem?_insert, Std.compare_eq_iff_eq] at h
  split at h <;> simp_all

theorem addSignature_cases (m : SignedMessage Sign) (message : Message) (id i : ℕ)
    (sig : Sign) :
    m.addSignature message id i sig = m ∨
    m.message = message ∧ m.validatorSetId = id ∧
      m.addSignature message id i sig = { m with signatures := m.signatures.insert i sig } := by
  simp only [addSignature]
  split_ifs <;> simp_all

theorem thresholdReached_addSignature (h : m.thresholdReached n) :
    (m.addSignature message id i sig).thresholdReached n := by
  cases addSignature_cases m message id i sig with
  | inl he => rwa [he]
  | inr he =>
    simp only [he.2.2, thresholdReached, Bool.and_eq_true, decide_eq_true_eq] at h ⊢
    exact ⟨h.1, h.2.trans size_le_size_insert⟩

end SignedMessage

section Signed

variable [Authority TheaId Sign]

-- The message waits for signatures of the active set, and those it has are valid ones.
structure State.Signed (s : State Acc TheaId Sign W) (k : Network × ℕ)
    (m : SignedMessage Sign) : Prop where
  setId   : m.validatorSetId = s.validatorSetId
  message : s.outgoingMessages k = some m.message
  valid   : ∀ {i : ℕ} {sig}, m.signatures[i]? = some sig →
    ∃ a, s.activeAuthorities[i]? = some a ∧ Authority.verify sig m.message a = true

-- The authority is one of the active set, and it has contributed a valid signature on the stored
-- message.
def Contributed (s : State Acc TheaId Sign W) (k : Network × ℕ) (a : TheaId) : Prop :=
  ∃ (message : Message) (m : SignedMessage Sign) (i : ℕ) (sig : Sign),
    s.outgoingMessages k = some message ∧ s.signedOutgoingMessages k = some m ∧
    m.signatures[i]? = some sig ∧ s.activeAuthorities[i]? = some a ∧
    Authority.verify sig message a = true

def SignedByQuorum (s : State Acc TheaId Sign W) (k : Network × ℕ) : Prop :=
  ∃ signers : Finset TheaId, 2 * s.activeAuthorities.length < 3 * signers.card ∧
    ∀ a ∈ signers, Contributed s k a

theorem State.Signed.quorum [DecidableEq TheaId] (h : s.Signed k m) (hm : s.signedOutgoingMessages k = some m)
    (ht : m.thresholdReached s.activeAuthorities.length) (hn : s.activeAuthorities.Nodup) :
    SignedByQuorum s k := by
  have hkeys : m.signatures.keys.Nodup := m.signatures.distinct_keys.imp (by simp)
  have hsig {i : ℕ} (hi : i ∈ m.signatures.keys) : ∃ sig, m.signatures[i]? = some sig := by
    exact Option.isSome_iff_exists.mp <| mem_iff_isSome_getElem?.mp <|
      mem_keys.mp hi
  have hlt {i : ℕ} (hi : i ∈ m.signatures.keys) : i < s.activeAuthorities.length := by
    obtain ⟨_, hs⟩ := hsig hi
    obtain ⟨_, ha, _⟩ := h.valid hs
    exact (List.getElem?_eq_some_iff.mp ha).1
  obtain ⟨signers, hc, hs⟩ := Quorum.exists_finset_of_indices hn hkeys (fun _ => hlt)
  refine ⟨signers, ?_, fun a ha => ?_⟩
  · simp only [SignedMessage.thresholdReached, Bool.and_eq_true, decide_eq_true_eq] at ht
    rw [hc, length_keys]
    omega
  · obtain ⟨i, hi, ha⟩ := hs a ha
    obtain ⟨sig, hsig⟩ := hsig hi
    obtain ⟨a', ha', hv⟩ := h.valid hsig
    cases ha.symm.trans ha'
    exact ⟨m.message, m, i, sig, h.message, hm, hsig, ha, hv⟩

theorem State.Signed.congr (h : s.Signed k m)
    (hi : s'.validatorSetId = s.validatorSetId) (ha : s'.authorities = s.authorities)
    (hm : s'.outgoingMessages = s.outgoingMessages) : s'.Signed k m  where
  setId := hi ▸ h.setId
  message := hm ▸ h.message
  valid hs := by
    rw [activeAuthorities, ha, hi]
    exact h.valid hs

theorem State.Signed.addSignature {message : Message} (h : s.Signed k m)
    (ha : s.activeAuthorities[i]? = some a) (hv : Authority.verify sig message a = true) :
    s.Signed k (m.addSignature message s.validatorSetId i sig) := by
  cases m.addSignature_cases message s.validatorSetId i sig with
  | inl he => rwa [he]
  | inr he =>
    obtain ⟨hm, hid, he⟩ := he
    rw [he]
    refine ⟨h.setId, h.message, fun {j sig'} hs => ?_⟩
    simp only [Std.TreeMap.getElem?_insert, Std.compare_eq_iff_eq] at hs
    split at hs
    case isTrue hij =>
      cases hs
      exact ⟨a, hij ▸ ha, hm ▸ hv⟩
    case isFalse => exact h.valid hs

-- The state in the middle of the loop over the submitted signatures, which started in `s₀`.
structure Submitting (s₀ s : State Acc TheaId Sign W) : Prop where
  setId       : s.validatorSetId = s₀.validatorSetId
  authorities : s.authorities = s₀.authorities
  messages    : s.outgoingMessages = s₀.outgoingMessages
  nonces      : s.outgoingNonce = s₀.outgoingNonce
  signed      : ∀ {k m}, s.signedOutgoingMessages k = some m → s₀.nextSignedNonce k.1 ≤ k.2 →
    s₀.Signed k m
  finalized   : ∀ n, s.signedOutgoingNonce n = s₀.signedOutgoingNonce n ∨
    s.signedOutgoingNonce n = s₀.nextSignedNonce n ∧
      ∃ m, s.signedOutgoingMessages (n, s₀.nextSignedNonce n) = some m ∧
        m.thresholdReached s₀.activeAuthorities.length

-- What the validation of the transaction has found out about one of its signatures.
structure Validated (s₀ : State Acc TheaId Sign W) (signer : TheaId)
    (entry : Network × ℕ × Sign) : Prop where
  nonce  : entry.2.1 = s₀.nextSignedNonce entry.1
  verify : ∀ {message}, s₀.outgoingMessages (entry.1, entry.2.1) = some message →
    Authority.verify entry.2.2 message signer = true

theorem Submitting.submitSignature (h : Submitting s₀ s) (ha : s₀.activeAuthorities[i]? = some a)
    (hv : Validated s₀ a (n, k, sig))
    (hs : s.submitSignature i s₀.validatorSetId n k sig = .ok s') : Submitting s₀ s' := by
  have hk : k = s₀.nextSignedNonce n := hv.nonce
  simp only [State.submitSignature] at hs
  split at hs
  case h_1 => cases hs
  case h_2 message hm =>
    rw [h.messages] at hm
    have hverify := hv.verify hm
    -- The entry of the map which is written, and the ones that are not.
    have signed {m} (hsm : s₀.Signed (n, k) m) {k' m'}
        (hk' : update s.signedOutgoingMessages (n, k) (some m) k' = some m')
        (hle : s₀.nextSignedNonce k'.1 ≤ k'.2) : s₀.Signed k' m' := by
      rw [update_apply] at hk'
      split_ifs at hk' with he
      · cases hk'; exact he ▸ hsm
      · exact h.signed hk' hle
    have finalized {m} (hm : ∀ m', s.signedOutgoingMessages (n, k) = some m' →
        m'.thresholdReached s₀.activeAuthorities.length → m.thresholdReached s₀.activeAuthorities.length)
        n' : s.signedOutgoingNonce n' = s₀.signedOutgoingNonce n' ∨
        s.signedOutgoingNonce n' = s₀.nextSignedNonce n' ∧
          ∃ m', update s.signedOutgoingMessages (n, k) (some m)
            (n', s₀.nextSignedNonce n') = some m' ∧
            m'.thresholdReached s₀.activeAuthorities.length := by
      refine (h.finalized n').imp_right fun hf => ?_
      obtain ⟨he, m', hm', ht⟩ := hf
      refine ⟨he, ?_⟩
      by_cases hn : n' = n
      case pos =>
        subst hn hk
        exact ⟨m, update_self .., hm m' hm' ht⟩
      case neg => exact ⟨m', by rwa [update_of_ne (by simp [hn])], ht⟩
    split at hs
    case h_1 hnone =>
      cases hs
      have hsm : s₀.Signed (n, k) (.new message s₀.validatorSetId i sig) := by
        refine ⟨rfl, hm, fun hj => ?_⟩
        obtain ⟨hj, hsig⟩ := SignedMessage.getElem?_new_signatures hj
        exact ⟨a, hj ▸ ha, hsig ▸ hverify⟩
      exact ⟨h.setId, h.authorities, h.messages, h.nonces, signed hsm, finalized (by simp [hnone])⟩
    case h_2 m hsome =>
      have hsm := (h.signed hsome hk.ge).addSignature ha hverify
      have hfin := finalized (m := m.addSignature message s₀.validatorSetId i sig) fun m' hm' ht => by
        cases hsome.symm.trans hm'
        exact SignedMessage.thresholdReached_addSignature ht
      have hact : s.activeAuthorities = s₀.activeAuthorities := by
        rw [State.activeAuthorities, h.authorities, h.setId, State.activeAuthorities]
      split_ifs at hs with ht <;> cases hs
      case neg => exact ⟨h.setId, h.authorities, h.messages, h.nonces, signed hsm, hfin⟩
      case pos =>
        refine ⟨h.setId, h.authorities, h.messages, h.nonces, signed hsm, fun n' => ?_⟩
        by_cases hn : n' = n
        case pos =>
          subst hn hk
          exact .inr ⟨update_self .., _, update_self .., hact ▸ ht⟩
        case neg =>
          simp only [State.depositEvent, update_of_ne hn]
          exact hfin n'

theorem Submitting.submitSignatures (ha : s₀.activeAuthorities[i]? = some a)
 (hv : ∀ e ∈ entries, Validated s₀ a e)
    (h : Submitting s₀ s) (hs : State.submitSignatures i s₀.validatorSetId s entries = .ok s') :
    Submitting s₀ s' := by
  induction entries generalizing s with
  | nil => cases hs; exact h
  | cons e entries hi =>
    simp only [State.submitSignatures] at hs
    split at hs
    case h_1 => cases hs
    case h_2 h₁ =>
      exact hi (fun e he => hv e (by simp [he])) (h.submitSignature ha (hv e (by simp)) h₁) hs

theorem validated_of_validateSignature
    (h : s.validateSignature i a e.1 e.2.1 e.2.2 = .ok ()) : Validated s a e := by
  simp only [State.validateSignature] at h
  split_ifs at h with hn hc
  split at h
  case h_1 => cases h
  case h_2 message hm =>
    split_ifs at h with hv
    exact ⟨not_not.mp hn, fun hm' => by cases hm.symm.trans hm'; exact hv⟩

theorem validated_of_forM {i : ℕ} {a : TheaId} {entries : List (Network × ℕ × Sign)}
    (h : (entries.forM fun (n, k, sig) => s.validateSignature i a n k sig) = .ok ()) :
    ∀ e ∈ entries, Validated s a e := by
  induction entries with
  | nil => simp
  | cons e entries hi =>
    simp only [List.forM] at h
    cases he : s.validateSignature i a e.1 e.2.1 e.2.2
    case error => simp [he, bind, Except.bind] at h
    case ok =>
      simp only [he, bind, Except.bind] at h
      simpa using ⟨validated_of_validateSignature he, fun n k sig => hi h (n, k, sig)⟩

end Signed

section Extends

-- The outgoing nonce of a network is the last one which is in use.
structure State.Numbered (s : State Acc TheaId Sign W) : Prop where
  bound : ∀ {k m}, s.outgoingMessages k = some m → k.2 ≤ s.outgoingNonce k.1
  word  : ∀ n, s.outgoingNonce n ≤ Word.max 64

-- New messages were issued. No message was overwritten.
structure Extends (s s' : State Acc TheaId Sign W) : Prop where
  setId       : s'.validatorSetId = s.validatorSetId
  authorities : s'.authorities = s.authorities
  signed      : s'.signedOutgoingMessages = s.signedOutgoingMessages
  signedNonce : s'.signedOutgoingNonce = s.signedOutgoingNonce
  messages    : ∀ {k m}, s.outgoingMessages k = some m → s'.outgoingMessages k = some m
  numbered    : s'.Numbered

-- The new messages are for the given networks, at most one for each occurrence.
structure Issues (networks : List Network) (s s' : State Acc TheaId Sign W) : Prop
    extends Extends s s' where
  nonce_le : ∀ n, s'.outgoingNonce n ≤ s.outgoingNonce n + networks.count n

namespace Issues

theorem refl (h : s.Numbered) (networks : List Network) : Issues networks s s :=
  ⟨⟨rfl, rfl, rfl, rfl, id, h⟩, fun _ => Nat.le_add_right ..⟩

theorem trans (h₁ : Issues l₁ s s₁) (h₂ : Issues l₂ s₁ s₂) : Issues (l₁ ++ l₂) s s₂  where
  setId := h₂.setId.trans h₁.setId
  authorities := h₂.authorities.trans h₁.authorities
  signed := h₂.signed.trans h₁.signed
  signedNonce := h₂.signedNonce.trans h₁.signedNonce
  messages := h₂.messages ∘ h₁.messages
  numbered := h₂.numbered
  nonce_le n := by
    have := h₁.nonce_le n
    have := h₂.nonce_le n
    rw [count_append]
    omega

theorem insertOutgoing (h : s.Numbered)
    (hfree : s.outgoingMessages (n, (s.generatePayload ty n data).nonce) = none) :
    Issues [n] s (s.insertOutgoing (s.generatePayload ty n data)) := by
  have hle : s.outgoingNonce n ≤ (s.generatePayload ty n data).nonce :=
    Word.le_saturatingAdd (h.word n)
  refine ⟨⟨rfl, rfl, rfl, rfl, ?messages, ?numbered⟩, ?nonce_le⟩
  case messages =>
    intro k m hk
    have hne : k ≠ (n, (s.generatePayload ty n data).nonce) := by
      rintro rfl
      simp [hfree] at hk
    exact (update_of_ne hne ..).trans hk
  case nonce_le =>
    intro n'
    simp only [State.insertOutgoing, update_apply]
    split_ifs with hn
    · subst hn
      exact Word.saturatingAdd_le.trans (by simp)
    · omega
  case numbered =>
    refine ⟨fun {k m} hk => ?_, fun n' => ?_⟩
    · simp only [State.insertOutgoing, update_apply] at hk ⊢
      by_cases hn : k.1 = n
      case neg =>
        have := h.bound (k := k) (m := m)
        simp_all [State.generatePayload, Prod.ext_iff]
      case pos =>
        split_ifs at hk with he
        · simp [he, State.generatePayload]
        · have := h.bound hk
          simp only [State.generatePayload, hn, if_true] at hle this ⊢
          omega
    · simp only [State.insertOutgoing, update_apply]
      split_ifs
      · exact Word.saturatingAdd_le_max ..
      · exact h.word n'

theorem insertOutgoing_of_lt (h : s.Numbered) (hn : s.outgoingNonce n < Word.max 64) :
    Issues [n] s (s.insertOutgoing (s.generatePayload ty n data)) := by
  refine insertOutgoing h <| Option.eq_none_iff_forall_ne_some.mpr fun m hm => ?_
  have := h.bound hm
  simp only [State.generatePayload, Word.lt_saturatingAdd_one hn] at this
  omega

theorem foldl (hf : ∀ {s n}, s.Numbered → s.outgoingNonce n < Word.max 64 → Issues [n] s (f s n))
 (h : s.Numbered) (hl : ∀ n, s.outgoingNonce n + l.count n ≤ Word.max 64) : Issues l s (l.foldl f s) := by
  induction l generalizing s with
  | nil => exact .refl h []
  | cons n l hi =>
    have hn : Issues [n] s (f s n) := hf h <| by
      have := hl n
      simp only [count_cons_self] at this
      omega
    refine hn.trans (hi hn.numbered fun n' => ?_)
    have := hn.nonce_le n'
    have := hl n'
    simp only [count_cons, count_nil] at *
    omega

end Issues

end Extends

section Rotation

variable [Config TheaId]

omit [Config TheaId] in
-- The networks are reset independently of each other.
theorem foldl_resetSigned (id : ValidatorSetId) (s : State Acc TheaId Sign W)
    (l : List Network) :
    l.foldl (State.resetSigned id) s = { s with
      signedOutgoingMessages := fun k =>
        if k.1 ∈ l ∧ s.nextSignedNonce k.1 ≤ k.2 ∧ k.2 ≤ s.outgoingNonce k.1
        then (s.signedOutgoingMessages k).map ({ · with validatorSetId := id, signatures := ∅ })
        else s.signedOutgoingMessages k } := by
  induction l generalizing s with
  | nil => simp
  | cons n l hi =>
    simp only [foldl_cons, hi, State.resetSigned, State.nextSignedNonce, mem_cons]
    congr 1
    funext k
    by_cases hn : k.1 = n <;> by_cases hl : k.1 ∈ l <;> split_ifs <;>
      simp_all [Option.map_map, comp_def]

theorem issues_scheduleRotation (queued : List TheaId) (id : ValidatorSetId)
 (h : s.Numbered) (hn : s.outgoingNonce n < Word.max 64) : Issues [n] s (s.scheduleRotation queued id n) := by
  simp only [State.scheduleRotation]
  split
  · exact { Issues.refl h [n] with numbered := ⟨h.bound, h.word⟩ }
  · exact .insertOutgoing_of_lt h hn

omit [Config TheaId] in
theorem issues_notifyRotated (notified : Network → Bool)
 (h : s.Numbered) (hn : s.outgoingNonce n < Word.max 64) : Issues [n] s (s.notifyRotated notified n) := by
  simp only [State.notifyRotated]
  split
  · exact .insertOutgoing_of_lt h hn
  · exact { Issues.refl h [n] with numbered := ⟨h.bound, h.word⟩ }

variable [Authority TheaId Sign] [DecidableEq TheaId]

-- The outgoing side is in order: the messages which wait for signatures have been signed by the
-- active set only.
structure State.Outgoing (s : State Acc TheaId Sign W) : Prop extends s.Numbered where
  signed : ∀ {k m}, s.signedOutgoingMessages k = some m → s.nextSignedNonce k.1 ≤ k.2 → s.Signed k m
  nodup  : s.activeAuthorities.Nodup

omit [Config TheaId] [DecidableEq TheaId] in
theorem State.Outgoing.extends (h : s.Outgoing) (he : Extends s s') : s'.Outgoing where
  bound := he.numbered.bound
  word := he.numbered.word
  nodup := by
    rw [activeAuthorities, he.authorities, he.setId]
    exact h.nodup
  signed {k m} hm hk := by
    rw [nextSignedNonce, he.signedNonce] at hk
    have hs := h.signed (he.signed ▸ hm) hk
    refine ⟨he.setId ▸ hs.setId, he.messages hs.message, fun hsig => ?_⟩
    rw [activeAuthorities, he.authorities, he.setId]
    exact hs.valid hsig

-- A rotation of the validator set is safe if no network which is not active any more has a message
-- that waits for signatures. The keys of the validators are distinct, and no nonce is exhausted.
def RotationSafe (s : State Acc TheaId Sign W) : Call Acc TheaId Sign → Prop
  | .newSession validators _ => validators.Nodup ∧
      (∀ n ∈ s.activeNetworks, s.outgoingNonce n + 2 ≤ Word.max 64) ∧
      ((validators.take (Config.maxAuthorities TheaId)).toFinset ≠ s.activeAuthorities.toFinset →
        ∀ k, (s.signedOutgoingMessages k).isSome → s.nextSignedNonce k.1 ≤ k.2 →
          k.1 ∈ s.activeNetworks)
  | _ => True

omit [Config TheaId] [Authority TheaId Sign] [DecidableEq TheaId] in
theorem Extends.pending_mem (he : Extends s s')
    (hp : ∀ k, (s.signedOutgoingMessages k).isSome → s.nextSignedNonce k.1 ≤ k.2 →
      k.1 ∈ s.activeNetworks) :
    ∀ k, (s'.signedOutgoingMessages k).isSome → s'.nextSignedNonce k.1 ≤ k.2 →
      k.1 ∈ s.activeNetworks.toList := by
  intro k hk hle
  rw [he.signed] at hk
  rw [State.nextSignedNonce, he.signedNonce] at hle
  exact Std.TreeSet.mem_toList.mpr (hp k hk hle)

omit [Config TheaId] [DecidableEq TheaId] in
theorem State.Outgoing.resetSigned (h : s.Outgoing) {networks : List Network} {id : ValidatorSetId}
    {authorities : ValidatorSetId → List TheaId} (ha : (authorities id).Nodup)
    (hp : ∀ k, (s.signedOutgoingMessages k).isSome → s.nextSignedNonce k.1 ≤ k.2 → k.1 ∈ networks) :
    (networks.foldl (State.resetSigned id)
      { s with authorities := authorities, validatorSetId := id }).Outgoing := by
  rw [foldl_resetSigned]
  refine { bound := h.bound, word := h.word, nodup := ha, signed := fun {k m} hm hk => ?_ }
  dsimp only at hm
  cases hs : s.signedOutgoingMessages k with
  | none => simp [hs] at hm
  | some m₀ =>
    have hsigned := h.signed hs hk
    have hreset : k.1 ∈ networks ∧ s.nextSignedNonce k.1 ≤ k.2 ∧ k.2 ≤ s.outgoingNonce k.1 :=
      ⟨hp k (by simp [hs]) hk, hk, h.bound hsigned.message⟩
    have hm := (if_pos hreset).symm.trans hm
    rw [hs] at hm
    cases hm
    exact ⟨rfl, hsigned.message, fun {i sig} hi => by simp at hi⟩

omit [Authority TheaId Sign] in
theorem issues_scheduleRotations (h : s.Numbered)
    (hn : ∀ n, s.outgoingNonce n + networks.count n ≤ Word.max 64) (incoming queued : List TheaId)
    (id : ValidatorSetId) : Issues networks s (s.scheduleRotations networks incoming queued id) := by
  simp only [State.scheduleRotations]
  split
  case isFalse => exact .refl h networks
  case isTrue =>
    have h := Issues.foldl (issues_scheduleRotation queued id) h hn
    exact { h with numbered := ⟨h.numbered.bound, h.numbered.word⟩ }

-- What a session does: it announces the queued set, and it may then replace the active one, with
-- which the messages that wait for signatures start anew.
inductive SessionStep (s s' : State Acc TheaId Sign W) (networks : List Network)
    (incoming : List TheaId) : Prop
  | announce : Extends s s' → SessionStep s s' networks incoming
  | rotate {s₁ id} : incoming.toFinset ≠ s.activeAuthorities.toFinset → Extends s s₁ →
      Extends (networks.foldl (State.resetSigned id) { s₁ with
        authorities := update (update s₁.authorities id incoming) (id - 2) []
        validatorSetId := id }) s' →
      SessionStep s s' networks incoming

omit [Authority TheaId Sign] in
theorem sessionStep_onNewSession (h : s.Numbered)
    (hn : ∀ n ∈ s.activeNetworks, s.outgoingNonce n + 2 ≤ Word.max 64)
    (validators queued : List TheaId) :
    SessionStep s (s.onNewSession validators queued) s.activeNetworks.toList
      (validators.take (Config.maxAuthorities TheaId)) := by
  have hnodup : s.activeNetworks.toList.Nodup := s.activeNetworks.distinct_toList.imp (by simp)
  -- Each active network is sent at most two messages.
  have hcount n : s.outgoingNonce n + 2 * s.activeNetworks.toList.count n ≤ Word.max 64 := by
    by_cases hn' : n ∈ s.activeNetworks
    case pos =>
      have := hn n hn'
      have := nodup_iff_count_le_one.mp hnodup n
      omega
    case neg =>
      rw [count_eq_zero.mpr (by simpa using hn')]
      exact h.word n
  have hone n : s.outgoingNonce n + s.activeNetworks.toList.count n ≤ Word.max 64 :=
    (Nat.add_le_add_left (Nat.le_mul_of_pos_left _ Nat.two_pos) _).trans (hcount n)
  have he := issues_scheduleRotations h hone (validators.take (Config.maxAuthorities TheaId))
    (queued.take (Config.maxAuthorities TheaId)) (Word.wrappingAdd 64 s.validatorSetId 1)
  simp only [State.onNewSession, State.changeAuthorities]
  split
  case isFalse => exact .announce he.toExtends
  case isTrue hne =>
    refine .rotate hne he.toExtends (Issues.foldl (issues_notifyRotated _) ?_ fun n => ?_).toExtends
    · rw [foldl_resetSigned]
      exact ⟨he.numbered.bound, he.numbered.word⟩
    · have := he.nonce_le n
      have := hcount n
      rw [foldl_resetSigned]
      dsimp only
      omega

theorem State.Outgoing.onNewSession (h : s.Outgoing) (hs : RotationSafe s (.newSession validators queued)) :
    (s.onNewSession validators queued).Outgoing ∧
    (s.onNewSession validators queued).signedOutgoingNonce = s.signedOutgoingNonce := by
  obtain ⟨hv, hn, hp⟩ := hs
  cases sessionStep_onNewSession h.toNumbered hn validators queued with
  | announce he => exact ⟨h.extends he, he.signedNonce⟩
  | @rotate s₁ id hne he₁ he =>
    have hnodup : (update (update s₁.authorities id
        (validators.take (Config.maxAuthorities TheaId))) (id - 2) [] id).Nodup := by
      rw [update_apply, update_self]
      split
      · exact nodup_nil
      · exact hv.sublist (take_sublist ..)
    have hr := (h.extends he₁).resetSigned hnodup (he₁.pending_mem (hp hne))
    refine ⟨hr.extends he, he.signedNonce.trans ?_⟩
    rw [foldl_resetSigned]
    exact he₁.signedNonce

end Rotation

section Run

variable [Currency Acc W] [Executor W] [Authority TheaId Sign] [Config TheaId]
  [DecidableEq TheaId]
variable {c : Call Acc TheaId Sign} {cs : List (Call Acc TheaId Sign)}

def State.outgoing (s : State Acc TheaId Sign W) :=
  (s.authorities, s.validatorSetId, s.outgoingMessages, s.signedOutgoingMessages, s.outgoingNonce,
    s.signedOutgoingNonce)

omit [Currency Acc W] [Executor W] [Config TheaId] [DecidableEq TheaId] in
theorem State.Outgoing.congr (h : s.Outgoing) (he : s'.outgoing = s.outgoing) : s'.Outgoing := by
  simp only [outgoing, Prod.mk.injEq] at he
  obtain ⟨ha, hi, hm, hs, hn, hsn⟩ := he
  constructor
  case toNumbered => exact ⟨hm ▸ hn ▸ h.bound, hn ▸ h.word⟩
  case nodup =>
    rw [activeAuthorities, ha, hi]
    exact h.nodup
  case signed =>
    intro k m hk hle
    rw [nextSignedNonce, hsn] at hle
    exact (h.signed (hs ▸ hk) hle).congr hi ha hm

omit [Authority TheaId Sign] [Config TheaId] [DecidableEq TheaId] in
theorem State.onInitialize_outgoing (blk : ℕ) : (s.onInitialize blk).outgoing = s.outgoing :=
  onInitialize_frame State.outgoing (fun _ _ _ _ _ _ => rfl) blk

-- What a call does to the outgoing side.
inductive OutgoingStep (s s' : State Acc TheaId Sign W) :
    Call Acc TheaId Sign → Prop
  | frame {call} : s'.outgoing = s.outgoing → OutgoingStep s s' call
  | extend {call} : (s.Numbered → Extends s s') → OutgoingStep s s' call
  | submit {i id entries a} : s.activeAuthorities[i]? = some a → id = s.validatorSetId →
      (∀ e ∈ entries, Validated s a e) → State.submitSignatures i id s entries = .ok s' →
      OutgoingStep s s' (.submitSignedOutgoingMessages i id entries)
  | session {validators queued} : s' = s.onNewSession validators queued →
      OutgoingStep s s' (.newSession validators queued)

-- A transaction which is accepted was validated in the state in which it is dispatched.
theorem submitSignatures_of_dispatch {i id : ℕ}
    (h : dispatch s (.submitSignedOutgoingMessages i id entries) = .ok s') :
    ∃ a, s.activeAuthorities[i]? = some a ∧ id = s.validatorSetId ∧
      (∀ e ∈ entries, Validated s a e) ∧ State.submitSignatures i id s entries = .ok s' := by
  simp only [dispatch, State.validateSignedOutgoingMessage, State.submitSignedOutgoingMessages] at h
  split at h
  case h_1 => cases h
  case h_2 hv =>
    split_ifs at h hv with hid
    split at hv
    case h_1 => cases hv
    case h_2 a ha => exact ⟨a, ha, not_not.mp hid, validated_of_forM hv, h⟩

theorem step_outgoingStep (h : step s c = some s') : OutgoingStep s s' c := by
  have hd : dispatch s c = .ok s' := by
    simp only [step] at h
    cases hc : dispatch s c <;> simp_all [Except.toOption]
  cases c
  case submitSignedOutgoingMessages =>
    obtain ⟨_, ha, hid, hv, hsub⟩ := submitSignatures_of_dispatch hd
    exact .submit ha hid hv hsub
  case newSession => cases hd; exact .session rfl
  case nextBlock => cases hd; exact .frame (State.onInitialize_outgoing _)
  case sendTheaMessage data n =>
    simp only [dispatch, State.executeWithdrawals] at hd
    split_ifs at hd with hfree
    cases hd
    exact .extend fun h => (Issues.insertOutgoing h (by simpa using hfree)).toExtends
  case updateOutgoingNonce k n =>
    simp only [dispatch, State.updateOutgoingNonce] at hd
    split_ifs at hd with hk
    cases hd
    refine .extend fun h => ⟨rfl, rfl, rfl, rfl, id, fun {k' m} hm => ?_, fun n' => ?_⟩
    · have := h.bound hm
      simp only [update_apply]
      split_ifs with hn
      · subst hn; omega
      · exact this
    · simp only [update_apply]
      split_ifs
      · exact Word.lt_two_pow_iff.mp k.isLt
      · exact h.word n'
  all_goals
    refine .frame ?_
    simp only [dispatch, State.submitIncomingMessage, State.addTheaNetwork,
      State.reportMisbehaviour, State.handleMisbehaviour, State.slashRelayer,
      State.restoreMessage] at hd
    repeat' split at hd
    all_goals cases hd
    all_goals rfl

-- What the step achieves: the nonce up to which the messages of a network have been signed only
-- moves to a message that a quorum of the active set has signed.
def Finalizes (s s' : State Acc TheaId Sign W) : Prop :=
  ∀ n, s'.signedOutgoingNonce n ≠ s.signedOutgoingNonce n →
    SignedByQuorum s' (n, s'.signedOutgoingNonce n)

omit [Currency Acc W] [Executor W] [Config TheaId] in
theorem Submitting.outgoing (h : s₀.Outgoing) (hs : Submitting s₀ s) : s.Outgoing ∧ Finalizes s₀ s := by
  have hact : s.activeAuthorities = s₀.activeAuthorities := by
    rw [State.activeAuthorities, hs.authorities, hs.setId, State.activeAuthorities]
  have signed {k m} (hm : s.signedOutgoingMessages k = some m) (hk : s₀.nextSignedNonce k.1 ≤ k.2) :
      s.Signed k m :=
    (hs.signed hm hk).congr hs.setId hs.authorities hs.messages
  refine ⟨?_, fun n hn => ?_⟩
  · constructor
    case toNumbered => exact ⟨hs.messages ▸ hs.nonces ▸ h.bound, hs.nonces ▸ h.word⟩
    case nodup => exact hact ▸ h.nodup
    case signed =>
      intro k m hm hk
      refine signed hm (le_trans ?_ hk)
      simp only [State.nextSignedNonce, Word.saturatingAdd]
      cases hs.finalized k.1 with
      | inl he => rw [he]
      | inr he =>
        rw [he.1, State.nextSignedNonce, Word.saturatingAdd]
        omega
  · obtain ⟨he, m, hm, ht⟩ := (hs.finalized n).resolve_left hn
    rw [he]
    exact (signed hm le_rfl).quorum hm (hact ▸ ht) (hact ▸ h.nodup)

theorem State.Outgoing.step (h : s.Outgoing) (hsafe : RotationSafe s c)
    (hs : Thea.step s c = some s') : s'.Outgoing ∧ Finalizes s s' := by
  have unchanged (he : s'.signedOutgoingNonce = s.signedOutgoingNonce) : Finalizes s s' :=
    fun n hn => absurd (congrFun he n) hn
  cases step_outgoingStep hs with
  | frame he =>
    refine ⟨h.congr he, unchanged ?_⟩
    simp only [outgoing, Prod.mk.injEq] at he
    exact he.2.2.2.2.2
  | extend he => exact ⟨h.extends (he h.toNumbered), unchanged (he h.toNumbered).signedNonce⟩
  | session he =>
    subst he
    exact (h.onNewSession hsafe).imp_right unchanged
  | submit ha hid hv hsub =>
    subst hid
    refine Submitting.outgoing h (.submitSignatures ha hv ?_ hsub)
    exact ⟨rfl, rfl, rfl, rfl, h.signed, fun _ => .inl rfl⟩

theorem State.Outgoing.exec (h : s.Outgoing) (hsafe : RotationSafe s c) :
    (exec Thea.step s c).Outgoing ∧ Finalizes s (exec Thea.step s c) := by
  cases exec_cases Thea.step s c with
  | inl hs => exact h.step hsafe hs
  | inr hs => exact hs.2.symm ▸ ⟨h, fun _ hn => absurd rfl hn⟩

omit [Currency Acc W] [Executor W] [Config TheaId] [DecidableEq TheaId] in
theorem State.Outgoing.genesis {authorities : List TheaId} (h : authorities.Nodup) (w : W) :
    (genesis authorities w : State Acc TheaId Sign W).Outgoing := by
  constructor
  case toNumbered => exact ⟨by simp [State.genesis], by simp [State.genesis]⟩
  case signed => simp [State.genesis]
  case nodup => simpa [State.genesis, activeAuthorities] using h

-- Whenever the signed nonce of a network reaches a message, more than two thirds of the authorities
-- which are active at that moment have signed exactly this message.
def Finality (s₀ : State Acc TheaId Sign W) (cs : List (Call Acc TheaId Sign)) :
    Prop :=
  Along Thea.step (fun s c => Finalizes s (exec Thea.step s c)) s₀ cs

def PendingCurrent (s : State Acc TheaId Sign W) : Prop :=
  ∀ k m, s.signedOutgoingMessages k = some m → s.signedOutgoingNonce k.1 < k.2 →
    m.validatorSetId = s.validatorSetId

theorem outgoing_finality {authorities : List TheaId} (ha : authorities.Nodup) (w : W)
    (h : Along Thea.step RotationSafe (.genesis authorities w) cs) :
    Finality (.genesis authorities w) cs ∧ PendingCurrent (run Thea.step (.genesis authorities w) cs) := by
  have init : (State.genesis authorities w : State Acc TheaId Sign W).Outgoing :=
    .genesis ha w
  constructor
  · intro e he
    have hinv := h.invariant_trace init (fun s c hc hs => (hs.exec hc).1) he
    exact (hinv.exec (h e he)).2
  · intro k m hm hk
    have hinv := h.invariant init (fun s c hc hs => (hs.exec hc).1)
    exact (hinv.signed hm (Word.saturatingAdd_le.trans hk)).setId

end Run

-- A message to network 1 is signed by the last two of four authorities, before the network is
-- removed and the set is replaced by a set of two.
def exampleMessage : Message where
  blockNo := 0
  nonce := 1
  network := 1
  payloadType := .l1Deposit
  data := []

def exampleSubmit (authIndex : ℕ) (id : ValidatorSetId) (signer : ℕ) : Call ℕ ℕ (ℕ × Message) :=
  .submitSignedOutgoingMessages authIndex id [(1, 1, (signer, exampleMessage))]

def exampleRun (rotation : List (Call ℕ ℕ (ℕ × Message))) : List (Call ℕ ℕ (ℕ × Message)) :=
  [.addTheaNetwork 1 false 20 10 10, .sendTheaMessage [] 1, exampleSubmit 2 0 3, exampleSubmit 3 0 4]
    ++ rotation

def exampleGenesis : State ℕ ℕ (ℕ × Message) Mock :=
  .genesis [1, 2, 3, 4] ⟨fun _ => 100, fun _ => 0⟩

theorem outgoing_finality_third_signature :
    Finality exampleGenesis (exampleRun [exampleSubmit 0 0 1]) ∧
    PendingCurrent (run step exampleGenesis (exampleRun [exampleSubmit 0 0 1])) :=
  outgoing_finality (by decide) _ <| by
    intro e he
    simp only [exampleRun, cons_append, nil_append, trace_cons, trace_nil, mem_cons,
      not_mem_nil, or_false] at he
    rcases he with rfl | rfl | rfl | rfl | rfl <;> trivial

def exampleRotated : State ℕ ℕ (ℕ × Message) Mock :=
  run step exampleGenesis (exampleRun [.removeTheaNetwork 1, .newSession [5, 6] [5, 6]])

def exampleFinalized : State ℕ ℕ (ℕ × Message) Mock :=
  exec step exampleRotated (exampleSubmit 0 1 5)

-- The signatures of the retired set are counted against the size of the new one.
theorem retired_signatures_finalize : ¬∀ cs, Finality exampleGenesis cs := by
  intro h
  have hmem : (exampleRotated, exampleSubmit 0 1 5) ∈ trace step exampleGenesis
      (exampleRun [.removeTheaNetwork 1, .newSession [5, 6] [5, 6], exampleSubmit 0 1 5]) := by
    simp [exampleRun, exampleRotated]
  have hn : exampleFinalized.signedOutgoingNonce 1 ≠ exampleRotated.signedOutgoingNonce 1 := by decide
  have hq : SignedByQuorum exampleFinalized (1, exampleFinalized.signedOutgoingNonce 1) :=
    h _ _ hmem 1 hn
  obtain ⟨signers, hc, hs⟩ := hq
  have hact : exampleFinalized.activeAuthorities = [5, 6] := by decide
  have hsig : (exampleFinalized.signedOutgoingMessages
      (1, exampleFinalized.signedOutgoingNonce 1)).map
        (fun m => (m.signatures[0]?, m.signatures[1]?)) = some (none, none) := by decide
  rw [hact] at hc
  obtain ⟨a, ha⟩ : signers.Nonempty := Finset.card_pos.mp (by simp at hc; omega)
  obtain ⟨_, m, i, sig, _, hm, hi, ha, _⟩ := hs a ha
  rw [hact] at ha
  simp only [hm, Option.map_some, Option.some.injEq, Prod.mk.injEq] at hsig
  match i, hi, ha with
  | 0, hi, _     => simp [hsig.1] at hi
  | 1, hi, _     => simp [hsig.2] at hi
  | _ + 2, _, ha => simp at ha

end Thea
