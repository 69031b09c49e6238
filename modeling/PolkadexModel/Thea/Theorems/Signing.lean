import PolkadexModel.Thea.Theorems.Log

open Function List

open Run

namespace Thea

variable {Acc TheaId Sign W : Type} {s s' s₀ : State Acc TheaId Sign W}

namespace SignedMessage

variable {m : SignedMessage Sign} {message : Message} {id i j : ℕ} {sig : Sign}

theorem containsSignature_new : (new message id i sig).containsSignature i := by
  simp [containsSignature, new]

theorem containsSignature_addSignature (h : m.containsSignature j) :
    (m.addSignature message id i sig).containsSignature j := by
  cases addSignature_cases m message id i sig with
  | inl he => rwa [he]
  | inr he =>
    rw [he.2.2, containsSignature, Std.TreeMap.contains_insert]
    exact Bool.or_eq_true_iff.mpr (.inr h)

theorem containsSignature_addSignature_self (hm : m.message = message)
    (hid : m.validatorSetId = id) : (m.addSignature message id i sig).containsSignature i := by
  simp [addSignature, hm, hid, containsSignature]

theorem not_thresholdReached_new (hn : n ≠ 1) : (new message id i sig).thresholdReached n = false := by
  have hsize : (new message id i sig).signatures.size = 1 := by
    simp [new, Std.TreeMap.size_insert]
  simp only [thresholdReached, hsize, Bool.and_eq_false_iff, decide_eq_false_iff_not]
  omega

theorem not_thresholdReached_empty :
    ({ m with validatorSetId := id, signatures := ∅ } : SignedMessage Sign).thresholdReached n =
      false := by
  simp [thresholdReached]

theorem thresholdReached_of_all (hn : n ≠ 0) (h : ∀ i < n, m.containsSignature i) : m.thresholdReached n := by
  have hsub : range n ⊆ m.signatures.keys := fun i hi =>
    Std.TreeMap.mem_keys.mpr (h i (mem_range.mp hi))
  have hle := (nodup_range.subperm hsub).length_le
  rw [length_range, Std.TreeMap.length_keys] at hle
  simp only [thresholdReached, Bool.and_eq_true, decide_eq_true_eq]
  omega

end SignedMessage

-- The result of the submission of one signature.
inductive SignatureStep (i id : ℕ) (n : Network) (k : ℕ) (sig : Sign)
    (s s' : State Acc TheaId Sign W) : Prop
  | first {message} : s.outgoingMessages (n, k) = some message →
      s.signedOutgoingMessages (n, k) = none →
      s'.signedOutgoingMessages =
        update s.signedOutgoingMessages (n, k) (some (.new message id i sig)) →
      s'.signedOutgoingNonce = s.signedOutgoingNonce → SignatureStep i id n k sig s s'
  | added {message m} : s.outgoingMessages (n, k) = some message →
      s.signedOutgoingMessages (n, k) = some m →
      s'.signedOutgoingMessages = update s.signedOutgoingMessages (n, k)
        (some (m.addSignature message id i sig)) →
      s'.signedOutgoingNonce =
        (if (m.addSignature message id i sig).thresholdReached s.activeAuthorities.length
        then update s.signedOutgoingNonce n k else s.signedOutgoingNonce) →
      SignatureStep i id n k sig s s'

theorem signatureStep_of_submitSignature {i id : ℕ}
    (h : s.submitSignature i id n k sig = .ok s') : SignatureStep i id n k sig s s' := by
  simp only [State.submitSignature] at h
  split at h
  case h_1 => cases h
  case h_2 message hm =>
    split at h
    case h_1 hs =>
      cases h
      exact .first hm hs rfl rfl
    case h_2 m hs =>
      split_ifs at h with ht <;> cases h
      · exact .added hm hs rfl (if_pos ht).symm
      · exact .added hm hs rfl (if_neg ht).symm

def State.SignedBy (s : State Acc TheaId Sign W) (n : Network) (k i : ℕ) : Prop :=
  ∃ m, s.signedOutgoingMessages (n, k) = some m ∧ m.containsSignature i

section Loop

variable {i j id : ℕ} {n n' : Network} {k k' : ℕ} {sig : Sign}
  {entries : List (Network × ℕ × Sign)}

theorem State.SignedBy.submitSignature (h : s.SignedBy n k j)
    (hs : s.submitSignature i id n' k' sig = .ok s') : s'.SignedBy n k j := by
  obtain ⟨m, hm, hc⟩ := h
  by_cases hk : (n, k) = (n', k')
  case neg =>
    refine ⟨m, ?_, hc⟩
    cases signatureStep_of_submitSignature hs with
    | first _ _ he _ | added _ _ he _ => rw [he, update_of_ne hk, hm]
  case pos =>
    rw [hk] at hm
    simp only [SignedBy, hk]
    cases signatureStep_of_submitSignature hs with
    | first _ hn _ _ => cases hn.symm.trans hm
    | added _ hm' he _ =>
      cases hm'.symm.trans hm
      exact ⟨_, by rw [he, update_self], SignedMessage.containsSignature_addSignature hc⟩

theorem State.SignedBy.submitSignatures (h : s.SignedBy n k j)
    (hs : State.submitSignatures i id s entries = .ok s') : s'.SignedBy n k j := by
  induction entries generalizing s with
  | nil => cases hs; exact h
  | cons e entries hi =>
    simp only [State.submitSignatures] at hs
    split at hs
    case h_1 => cases hs
    case h_2 h₁ => exact hi (h.submitSignature h₁) hs

variable [Authority TheaId Sign] {a : TheaId}

theorem Submitting.signedBy (h : Submitting s₀ s) (hk : k = s₀.nextSignedNonce n)
    (hs : s.submitSignature i s₀.validatorSetId n k sig = .ok s') : s'.SignedBy n k i := by
  cases signatureStep_of_submitSignature hs with
  | first _ _ he _ =>
    exact ⟨_, by rw [he, update_self], SignedMessage.containsSignature_new⟩
  | added hm hsome he _ =>
    have hsigned := h.signed hsome hk.ge
    have hmessage := Option.some.inj <| hsigned.message.symm.trans (h.messages ▸ hm)
    exact ⟨_, by rw [he, update_self],
      SignedMessage.containsSignature_addSignature_self hmessage hsigned.setId⟩

theorem Submitting.signedBy_of_mem (ha : s₀.activeAuthorities[i]? = some a)
    (hv : ∀ e ∈ entries, Validated s₀ a e) (h : Submitting s₀ s)
    (hs : State.submitSignatures i s₀.validatorSetId s entries = .ok s')
    (hmem : (n, k, sig) ∈ entries) : s'.SignedBy n k i := by
  induction entries generalizing s with
  | nil => simp at hmem
  | cons e entries hi =>
    obtain ⟨hve, hv⟩ := forall_mem_cons.mp hv
    simp only [State.submitSignatures] at hs
    split at hs
    case h_1 => cases hs
    case h_2 s₁ h₁ =>
      cases mem_cons.mp hmem with
      | inl he =>
        subst he
        exact (h.signedBy hve.nonce h₁).submitSignatures hs
      | inr hmem => exact hi hv (h.submitSignature ha hve h₁) hs hmem

-- The messages whose signatures are enough are the ones that have been finalized.
def Detecting (s₀ s : State Acc TheaId Sign W) : Prop :=
  ∀ n k m, s.signedOutgoingMessages (n, k) = some m → s₀.signedOutgoingNonce n < k →
    m.thresholdReached s₀.activeAuthorities.length → s.signedOutgoingNonce n = k

-- The first signature on a message is not compared with the threshold.
theorem Detecting.submitSignature (h : Detecting s₀ s) (hsub : Submitting s₀ s)
    (hk : k = s₀.nextSignedNonce n)
    (hfirst : s₀.activeAuthorities.length ≠ 1 ∨ (s.signedOutgoingMessages (n, k)).isSome)
    (hs : s.submitSignature i s₀.validatorSetId n k sig = .ok s') : Detecting s₀ s' := by
  have hact : s.activeAuthorities = s₀.activeAuthorities := by
    rw [State.activeAuthorities, hsub.authorities, hsub.setId, State.activeAuthorities]
  intro n' k' m' hm' hk' ht
  cases signatureStep_of_submitSignature hs with
  | first _ hn he hnonce =>
    rw [hnonce]
    rw [he, update_apply] at hm'
    split_ifs at hm' with hkey
    · have hlen := hfirst.resolve_right (by simp [hn])
      cases hm'
      rw [SignedMessage.not_thresholdReached_new hlen] at ht
      cases ht
    · exact h n' k' m' hm' hk' ht
  | added _ _ he hnonce =>
    rw [hnonce, hact]
    rw [he, update_apply] at hm'
    split_ifs at hm' with hkey
    · cases hm'
      cases hkey
      rw [if_pos ht, update_self]
    · have hold := h n' k' m' hm' hk' ht
      have hne : n' ≠ n := by
        rintro rfl
        cases hsub.finalized n' with
        | inl hu => omega
        | inr hf => exact hkey (by rw [← hold, hf.1, hk])
      rw [← hold]
      split_ifs
      · exact update_of_ne hne ..
      · rfl

theorem Detecting.submitSignatures (ha : s₀.activeAuthorities[i]? = some a)
    (hv : ∀ e ∈ entries, Validated s₀ a e) (h : Detecting s₀ s) (hsub : Submitting s₀ s)
    (hfirst : s₀.activeAuthorities.length ≠ 1 ∨
      ∀ e ∈ entries, (s.signedOutgoingMessages (e.1, e.2.1)).isSome)
    (hs : State.submitSignatures i s₀.validatorSetId s entries = .ok s') : Detecting s₀ s' := by
  induction entries generalizing s with
  | nil => cases hs; exact h
  | cons e entries hi =>
    obtain ⟨hve, hv⟩ := forall_mem_cons.mp hv
    simp only [State.submitSignatures] at hs
    split at hs
    case h_1 => cases hs
    case h_2 s₁ h₁ =>
      have hfirst₁ := hfirst.imp_right fun hf => hf e mem_cons_self
      refine hi hv (h.submitSignature hsub hve.nonce hfirst₁ h₁) (hsub.submitSignature ha hve h₁) ?_ hs
      -- No entry of the map is taken away.
      refine hfirst.imp_right fun hf e' he' => ?_
      obtain ⟨m, hm⟩ := Option.isSome_iff_exists.mp (hf e' (mem_cons_of_mem _ he'))
      cases signatureStep_of_submitSignature h₁ with
      | first _ _ he _ | added _ _ he _ =>
        rw [he, update_apply]
        split_ifs
        · rfl
        · simp [hm]

end Loop

section Run

variable [Authority TheaId Sign]

-- No message which still waits for its turn has enough signatures.
structure State.Awaiting (s : State Acc TheaId Sign W) : Prop where
  word    : ∀ n, s.signedOutgoingNonce n ≤ Word.max 64
  waiting : ∀ {n k m}, s.signedOutgoingMessages (n, k) = some m → s.signedOutgoingNonce n < k →
    m.thresholdReached s.activeAuthorities.length = false

-- As soon as the signatures on the next message are enough, it is finalized.
def State.Detected (s : State Acc TheaId Sign W) : Prop :=
  ∀ n m, s.signedOutgoingMessages (n, s.nextSignedNonce n) = some m →
    m.thresholdReached s.activeAuthorities.length → s.signedOutgoingNonce n = s.nextSignedNonce n

omit [Authority TheaId Sign] in
theorem State.Awaiting.detected (h : s.Awaiting) : s.Detected := by
  intro n m hm ht
  by_contra hne
  have hlt : s.signedOutgoingNonce n < s.nextSignedNonce n :=
    lt_of_le_of_ne (Word.le_saturatingAdd (h.word n)) hne
  rw [h.waiting hm hlt] at ht
  cases ht

theorem State.Awaiting.submit (h : s.Awaiting) (ho : s.Outgoing) (ha : s.activeAuthorities[i]? = some a)
    (hv : ∀ e ∈ entries, Validated s a e) (hfirst : s.activeAuthorities.length ≠ 1 ∨
      ∀ e ∈ entries, (s.signedOutgoingMessages (e.1, e.2.1)).isSome)
    (hs : State.submitSignatures i s.validatorSetId s entries = .ok s') : s'.Awaiting := by
  have init : Submitting s s := ⟨rfl, rfl, rfl, rfl, ho.signed, fun _ => .inl rfl⟩
  have hsub : Submitting s s' := .submitSignatures ha hv init hs
  have hdet : Detecting s s' := by
    refine .submitSignatures ha hv (fun n k m hm hk ht => ?_) init hfirst hs
    rw [h.waiting hm hk] at ht
    cases ht
  have hact : s'.activeAuthorities = s.activeAuthorities := by
    rw [State.activeAuthorities, hsub.authorities, hsub.setId, State.activeAuthorities]
  constructor
  case word =>
    intro n
    cases hsub.finalized n with
    | inl he => exact he ▸ h.word n
    | inr he => exact he.1 ▸ Word.saturatingAdd_le_max ..
  case waiting =>
    intro n k m hm hk
    have hle : s.signedOutgoingNonce n ≤ s'.signedOutgoingNonce n := by
      cases hsub.finalized n with
      | inl he => exact he.ge
      | inr he => exact he.1 ▸ Word.le_saturatingAdd (h.word n)
    rw [hact, Bool.eq_false_iff]
    intro ht
    exact hk.ne (hdet n k m hm (hle.trans_lt hk) ht)

omit [Authority TheaId Sign] in
theorem State.Awaiting.extends (h : s.Awaiting) (he : Extends s s') : s'.Awaiting := by
  refine ⟨he.signedNonce ▸ h.word, fun {n k m} hm hk => ?_⟩
  rw [activeAuthorities, he.authorities, he.setId]
  exact h.waiting (he.signed ▸ hm) (he.signedNonce ▸ hk)

theorem State.Awaiting.resetSigned (h : s.Awaiting) (ho : s.Outgoing) {networks : List Network}
    {id : ValidatorSetId} {authorities : ValidatorSetId → List TheaId}
    (hp : ∀ k, (s.signedOutgoingMessages k).isSome → s.nextSignedNonce k.1 ≤ k.2 → k.1 ∈ networks) :
    (networks.foldl (State.resetSigned id)
      { s with authorities := authorities, validatorSetId := id }).Awaiting := by
  rw [foldl_resetSigned]
  refine ⟨h.word, fun {n k m} hm hk => ?_⟩
  cases hs : s.signedOutgoingMessages (n, k) with
  | none => simp [hs] at hm
  | some m₀ =>
    have hnext : s.nextSignedNonce n ≤ k := Word.saturatingAdd_le.trans hk
    have hreset : n ∈ networks ∧ s.nextSignedNonce n ≤ k ∧ k ≤ s.outgoingNonce n :=
      ⟨hp (n, k) (by simp [hs]) hnext, hnext, ho.bound (ho.signed hs hnext).message⟩
    have hm := (if_pos hreset).symm.trans hm
    rw [hs] at hm
    cases hm
    exact SignedMessage.not_thresholdReached_empty

variable [Config TheaId] [DecidableEq TheaId]

theorem State.Awaiting.onNewSession (h : s.Awaiting) (ho : s.Outgoing)
 (hs : RotationSafe s (.newSession validators queued)) : (s.onNewSession validators queued).Awaiting := by
  obtain ⟨_, hn, hp⟩ := hs
  cases sessionStep_onNewSession ho.toNumbered hn validators queued with
  | announce he => exact h.extends he
  | rotate hne he₁ he =>
    exact ((h.extends he₁).resetSigned (ho.extends he₁) (he₁.pending_mem (hp hne))).extends he

variable [Currency Acc W] [Executor W]
variable {c : Call Acc TheaId Sign} {cs : List (Call Acc TheaId Sign)}

-- The first signature on a message is not the only one that is needed. A rotation is safe.
def Completable (s : State Acc TheaId Sign W) (c : Call Acc TheaId Sign) : Prop :=
  RotationSafe s c ∧
  match c with
  | .submitSignedOutgoingMessages _ _ entries => s.activeAuthorities.length ≠ 1 ∨
      ∀ e ∈ entries, (s.signedOutgoingMessages (e.1, e.2.1)).isSome
  | _ => True

theorem State.Awaiting.step (h : s.Awaiting) (ho : s.Outgoing) (hc : Completable s c)
    (hs : step s c = some s') : s'.Awaiting := by
  cases step_outgoingStep hs with
  | frame he =>
    simp only [outgoing, Prod.mk.injEq] at he
    obtain ⟨ha, hid, _, hsig, _, hn⟩ := he
    refine ⟨hn ▸ h.word, fun {n k m} hm hk => ?_⟩
    rw [activeAuthorities, ha, hid]
    exact h.waiting (hsig ▸ hm) (hn ▸ hk)
  | extend he => exact h.extends (he ho.toNumbered)
  | session he => exact he ▸ h.onNewSession ho hc.1
  | submit ha hid hv hsub =>
    subst hid
    exact h.submit ho ha hv hc.2 hsub

theorem State.Awaiting.exec (h : s.Outgoing ∧ s.Awaiting) (hc : Completable s c) :
    (exec Thea.step s c).Outgoing ∧ (exec Thea.step s c).Awaiting := by
  refine ⟨(h.1.exec hc.1).1, ?_⟩
  cases exec_cases Thea.step s c with
  | inl hs => exact h.2.step h.1 hc hs
  | inr hs => exact hs.2.symm ▸ h.2

-- The call is a transaction with the signature of the authority on the message, and is accepted.
def Accepted (s : State Acc TheaId Sign W) (c : Call Acc TheaId Sign) (i : ℕ)
    (n : Network) (k : ℕ) : Prop :=
  (step s c).isSome ∧ ∃ id entries sig,
    c = .submitSignedOutgoingMessages i id entries ∧ (n, k, sig) ∈ entries

variable {i k : ℕ} {n : Network}

theorem Accepted.signedBy (h : Accepted s c i n k) (ho : s.Outgoing) :
    (exec step s c).SignedBy n k i := by
  obtain ⟨hs, id, entries, sig, hc, hmem⟩ := h
  obtain ⟨s', hs⟩ := Option.isSome_iff_exists.mp hs
  subst hc
  obtain ⟨a, ha, hid, hv, hsub⟩ := submitSignatures_of_dispatch (toOption_eq_some.mp hs)
  subst hid
  rw [exec_of_some hs]
  have init : Submitting s s := ⟨rfl, rfl, rfl, rfl, ho.signed, fun _ => .inl rfl⟩
  exact init.signedBy_of_mem ha hv hsub hmem

theorem activeAuthorities_exec (hc : ∀ v q, c ≠ .newSession v q) :
    (exec step s c).activeAuthorities = s.activeAuthorities := by
  cases exec_cases step s c with
  | inr hs => rw [hs.2]
  | inl hs =>
    generalize exec step s c = s' at hs ⊢
    cases step_logStep hs with
    | frame _ he =>
      simp only [State.log, Prod.mk.injEq] at he
      simp only [State.activeAuthorities, he]
    | issue _ he | renumber _ he | addNetwork he | removeNetwork he =>
      subst he
      rfl
    | session he => exact absurd rfl (hc _ _)

theorem State.SignedBy.exec (h : s.SignedBy n k i) (ho : s.Outgoing)
    (hc : ∀ v q, c ≠ .newSession v q) : (exec Thea.step s c).SignedBy n k i := by
  cases exec_cases Thea.step s c with
  | inr hs => exact hs.2.symm ▸ h
  | inl hs =>
    generalize Run.exec Thea.step s c = s' at hs ⊢
    have keep (he : s'.signedOutgoingMessages = s.signedOutgoingMessages) : s'.SignedBy n k i := by
      simpa only [SignedBy, he] using h
    cases step_outgoingStep hs with
    | frame he =>
      simp only [outgoing, Prod.mk.injEq] at he
      exact keep he.2.2.2.1
    | extend he => exact keep (he ho.toNumbered).signed
    | session he => exact absurd rfl (hc _ _)
    | submit _ _ _ hsub => exact h.submitSignatures hsub

-- The run lemma. Every signature that is accepted in a part of the run without sessions is stored at
-- its end.
theorem signedBy_run (ho : s.Outgoing ∧ s.Awaiting) (h : Along step Completable s cs)
    (hcs : ∀ v q, .newSession v q ∉ cs)
    (hi : s.SignedBy n k i ∨ ∃ e ∈ trace step s cs, Accepted e.1 e.2 i n k) :
    (run step s cs).SignedBy n k i := by
  induction cs generalizing s with
  | nil => simpa using hi
  | cons c cs ih =>
    obtain ⟨hc, h⟩ := Along.cons_iff.mp h
    have hne v q : c ≠ .newSession v q := fun he => hcs v q (he ▸ mem_cons_self)
    refine ih (State.Awaiting.exec ho hc) h (fun v q hm => hcs v q (mem_cons_of_mem _ hm)) ?_
    cases hi with
    | inl hi => exact .inl (hi.exec ho.1 hne)
    | inr hi =>
      obtain ⟨e, he, hacc⟩ := hi
      cases mem_cons.mp he with
      | inl he =>
        subst he
        exact .inl (hacc.signedBy ho.1)
      | inr he => exact .inr ⟨e, he, hacc⟩

theorem activeAuthorities_run (hcs : ∀ v q, .newSession v q ∉ cs) :
    (run step s cs).activeAuthorities = s.activeAuthorities := by
  induction cs generalizing s with
  | nil => rfl
  | cons c cs ih =>
    have hne v q : c ≠ .newSession v q := fun he => hcs v q (he ▸ mem_cons_self)
    rw [run_cons, ih fun v q hm => hcs v q (mem_cons_of_mem _ hm), activeAuthorities_exec hne]

omit [Currency Acc W] [Executor W] [Authority TheaId Sign] [Config TheaId]
  [DecidableEq TheaId] in
theorem State.Awaiting.le_of_all (h : s.Awaiting) (hne : s.activeAuthorities ≠ [])
    (hall : ∀ i < s.activeAuthorities.length, s.SignedBy n k i) : k ≤ s.signedOutgoingNonce n := by
  by_contra hlt
  have hpos : 0 < s.activeAuthorities.length := length_pos_iff.mpr hne
  obtain ⟨m, hm, _⟩ := hall 0 hpos
  have hcontains i (hi : i < s.activeAuthorities.length) : m.containsSignature i := by
    obtain ⟨m', hm', hc⟩ := hall i hi
    cases hm.symm.trans hm'
    exact hc
  have ht := SignedMessage.thresholdReached_of_all hpos.ne' hcontains
  rw [h.waiting hm (Nat.lt_of_not_le hlt)] at ht
  cases ht

theorem accepted_of_not_signedBy (hm : s.outgoingMessages (n, s.nextSignedNonce n) = some message)
    (ha : s.activeAuthorities[i]? = some a) (hv : Authority.verify sig message a = true)
    (hs : ¬s.SignedBy n (s.nextSignedNonce n) i) :
    Accepted s (.submitSignedOutgoingMessages i s.validatorSetId [(n, s.nextSignedNonce n, sig)]) i n
      (s.nextSignedNonce n) := by
  refine ⟨?_, _, _, sig, rfl, mem_singleton_self _⟩
  have hvalid := State.validateSignedOutgoingMessage_eq_ok rfl ha hm hv fun m hm' =>
    Bool.eq_false_iff.mpr fun hc => hs ⟨m, hm', hc⟩
  have hne : s.activeAuthorities ≠ [] := by
    intro he
    simp [he] at ha
  obtain ⟨s', hs'⟩ : ∃ s', s.submitSignature i s.validatorSetId n (s.nextSignedNonce n) sig = .ok s' := by
    simp only [State.submitSignature, hm]
    split
    · exact ⟨_, rfl⟩
    · split <;> exact ⟨_, rfl⟩
  simp [step, dispatch, hvalid, State.submitSignedOutgoingMessages, hne, State.submitSignatures, hs',
    Except.toOption]

-- What the signing of messages has to achieve.
structure FinalizationComplete (s₀ : State Acc TheaId Sign W)
    (cs : List (Call Acc TheaId Sign)) : Prop where
  detected  : (run step s₀ cs).Detected
  -- What all authorities of a set have signed while it did not change is finalized.
  finalized : ∀ {cs₁ cs₂ n k}, cs = cs₁ ++ cs₂ → (∀ v q, .newSession v q ∉ cs₂) →
    (run step s₀ cs₁).activeAuthorities ≠ [] →
    (∀ i < (run step s₀ cs₁).activeAuthorities.length,
      ∃ e ∈ trace step (run step s₀ cs₁) cs₂, Accepted e.1 e.2 i n k) →
    k ≤ (run step s₀ cs).signedOutgoingNonce n
  -- Until then, the signatures which are missing are accepted.
  accepted  : ∀ {n i a message sig},
    (run step s₀ cs).outgoingMessages (n, (run step s₀ cs).nextSignedNonce n) = some message →
    (run step s₀ cs).activeAuthorities[i]? = some a → Authority.verify sig message a = true →
    ¬(run step s₀ cs).SignedBy n ((run step s₀ cs).nextSignedNonce n) i →
    Accepted (run step s₀ cs) (.submitSignedOutgoingMessages i (run step s₀ cs).validatorSetId
      [(n, (run step s₀ cs).nextSignedNonce n, sig)]) i n ((run step s₀ cs).nextSignedNonce n)

theorem finalization_complete {authorities : List TheaId} (ha : authorities.Nodup) (w : W)
    (h : Along step Completable (.genesis authorities w) cs) :
    FinalizationComplete (.genesis authorities w) cs := by
  have hinv {cs' : List (Call Acc TheaId Sign)}
      (h : Along step Completable (.genesis authorities w) cs') :
      (run step (.genesis authorities w) cs').Outgoing ∧
      (run step (.genesis authorities w) cs' : State Acc TheaId Sign W).Awaiting := by
    refine h.invariant (motive := fun s => s.Outgoing ∧ s.Awaiting) ⟨.genesis ha w, ?_⟩
      fun s c hc hs => State.Awaiting.exec hs hc
    constructor <;> simp [State.genesis]
  refine ⟨(hinv h).2.detected, ?_, accepted_of_not_signedBy⟩
  intro cs₁ cs₂ n k he hcs hne hall
  subst he
  have ho := hinv h.of_append
  have hact := activeAuthorities_run (s := run step (.genesis authorities w) cs₁) hcs
  have hend := (hinv h).2
  rw [run_append] at hend ⊢
  refine hend.le_of_all (hact ▸ hne) fun i hi => ?_
  refine signedBy_run ho ?_ hcs (.inr (hall i (hact ▸ hi)))
  exact fun e he => h e (by simp [he])

end Run

theorem finalization_complete_third_signature :
    FinalizationComplete exampleGenesis (exampleRun [exampleSubmit 0 0 1]) :=
  finalization_complete (by decide) _ <| by
    intro e he
    simp only [exampleRun, cons_append, nil_append, trace_cons, trace_nil, mem_cons,
      not_mem_nil, or_false] at he
    rcases he with rfl | rfl | rfl | rfl | rfl
    case inr.inr.inl | inr.inr.inr.inl | inr.inr.inr.inr => exact ⟨trivial, .inl (by decide)⟩
    all_goals exact ⟨trivial, trivial⟩

def exampleSole : State ℕ ℕ (ℕ × Message) Mock :=
  .genesis [1] ⟨fun _ => 100, fun _ => 0⟩

def exampleSoleSigned : State ℕ ℕ (ℕ × Message) Mock :=
  run step exampleSole [.sendTheaMessage [] 1, exampleSubmit 0 0 1]

-- The only signature which is needed is stored, but the message is not finalized.
theorem sole_signature_not_detected : ¬∀ cs, FinalizationComplete exampleSole cs := by
  intro h
  have hd : exampleSoleSigned.Detected := (h _).detected
  obtain ⟨m, hm⟩ : ∃ m, exampleSoleSigned.signedOutgoingMessages
      (1, exampleSoleSigned.nextSignedNonce 1) = some m := ⟨_, rfl⟩
  have ht : (exampleSoleSigned.signedOutgoingMessages (1, exampleSoleSigned.nextSignedNonce 1)).any
      (·.thresholdReached exampleSoleSigned.activeAuthorities.length) := by decide
  rw [hm, Option.any_some] at ht
  exact absurd (hd 1 m hm ht) (by decide)

end Thea
