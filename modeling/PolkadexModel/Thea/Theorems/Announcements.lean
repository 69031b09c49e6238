import PolkadexModel.Thea.Theorems.Log

open Function

open Run

namespace Thea

variable {Acc TheaId Sign W : Type} {s s' : State Acc TheaId Sign W}

def Latest (s : State Acc TheaId Sign W) (n : Network) (data : Bytes) : Prop :=
  ∃ j m, s.outgoingMessages (n, j) = some m ∧ m.payloadType = .scheduledRotateValidators ∧
    m.data = data ∧ ∀ i m', j < i → s.outgoingMessages (n, i) = some m' →
      m'.payloadType ≠ .scheduledRotateValidators

section Issued

variable {p : Network → Option (PayloadType × Bytes)} {l : List Network} {n : Network} {data : Bytes}

theorem State.Numbered.of_issued (h : s.Numbered) (hi : Issued p l s s')
    (hl : ∀ n ∈ l, s.outgoingNonce n < Word.max 64) : s'.Numbered := by
  constructor
  case bound =>
    intro k m hk
    rw [hi.nonce]
    by_cases hn : k.1 ∈ l ∧ (p k.1).isSome ∧ k.2 = s.outgoingNonce k.1 + 1
    case pos => rw [if_pos ⟨hn.1, hn.2.1⟩, hn.2.2]
    case neg => exact (h.bound (hi.kept k hn ▸ hk)).trans (Nat.le_add_right ..)
  case word =>
    intro n
    rw [hi.nonce]
    split_ifs with hn
    · exact hl n hn.1
    · exact h.word n

theorem Issued.cases (hi : Issued p l s s') (hm : s'.outgoingMessages (n, k) = some m) :
    s.outgoingMessages (n, k) = some m ∨
    n ∈ l ∧ k = s.outgoingNonce n + 1 ∧ p n = some (m.payloadType, m.data) := by
  by_cases hn : n ∈ l ∧ (p n).isSome ∧ k = s.outgoingNonce n + 1
  case neg => exact .inl (hi.kept (n, k) hn ▸ hm)
  case pos =>
    obtain ⟨⟨ty, data⟩, hp⟩ := Option.isSome_iff_exists.mp hn.2.1
    cases (hn.2.2 ▸ hi.issued hn.1 hp).symm.trans hm
    exact .inr ⟨hn.1, hn.2.2, hp⟩

theorem State.Numbered.preserves_of_issued (h : s.Numbered) (hi : Issued p l s s') :
    Preserves s s' := by
  intro k m hk
  rw [hi.kept k fun hk' => ?_, hk]
  have := h.bound hk
  omega

theorem latest_of_issued (hb : s.Numbered) (hi : Issued p l s s') (hn : n ∈ l)
    (hp : p n = some (.scheduledRotateValidators, data)) : Latest s' n data := by
  refine ⟨_, _, hi.issued hn hp, rfl, rfl, fun i m' hij hm' => ?_⟩
  cases hi.cases hm' with
  | inl hm' =>
    have : i ≤ s.outgoingNonce n := hb.bound hm'
    omega
  | inr hm' => omega

end Issued

section Session

variable [Config TheaId] [DecidableEq TheaId] {validators queued : List TheaId}

def authoritiesOf (validators : List TheaId) : List TheaId :=
  validators.take (Config.maxAuthorities TheaId)

def State.newId (s : State Acc TheaId Sign W) : ValidatorSetId :=
  Word.wrappingAdd 64 s.validatorSetId 1

theorem State.onNewSession_of_eq
    (h : (authoritiesOf validators).toFinset = s.activeAuthorities.toFinset) :
    s.onNewSession validators queued = s.scheduleRotations s.activeNetworks.toList
      (authoritiesOf validators) (authoritiesOf queued) s.newId := by
  simp only [onNewSession, changeAuthorities, ← authoritiesOf.eq_1, ← newId.eq_1, h, ne_eq,
    not_true_eq_false, if_false]

-- No other set is announced in the session, so that all networks are told about the activation.
theorem State.onNewSession_of_ne
    (h : (authoritiesOf validators).toFinset ≠ s.activeAuthorities.toFinset)
    (hq : (authoritiesOf validators).toFinset = (authoritiesOf queued).toFinset) :
    s.onNewSession validators queued = s.rotateAuthorities s.activeNetworks.toList
      (authoritiesOf validators) s.newId fun _ => true := by
  simp only [onNewSession, changeAuthorities, ← authoritiesOf.eq_1, ← newId.eq_1, scheduleRotations,
    hq, ne_eq, not_true_eq_false, if_false, decide_true, Bool.true_or]
  exact if_pos (hq ▸ h)

def State.sets (s : State Acc TheaId Sign W) :=
  (s.authorities, s.validatorSetId)

theorem State.sets_scheduleRotations (networks : List Network) (incoming queued : List TheaId)
    (newId : ValidatorSetId) : (s.scheduleRotations networks incoming queued newId).sets = s.sets := by
  have schedule (s : State Acc TheaId Sign W) n :
      (s.scheduleRotation queued newId n).sets = s.sets := by
    unfold scheduleRotation
    split <;> rfl
  simp only [scheduleRotations]
  split
  · exact foldl_frame sets schedule s networks
  · rfl

omit [Config TheaId] [DecidableEq TheaId] in
theorem State.rotateAuthorities_eq (networks : List Network) (incoming : List TheaId)
    (newId : ValidatorSetId) (notified : Network → Bool) :
    (s.rotateAuthorities networks incoming newId notified).sets =
      (update (update s.authorities newId incoming) (newId - 2) [], newId) ∧
    (s.rotateAuthorities networks incoming newId notified).nextAuthorities = s.nextAuthorities := by
  have notify {β : Type} (g : State Acc TheaId Sign W → β)
      (hg : ∀ (s : State Acc TheaId Sign W) messages nonce events, g { s with
        outgoingMessages := messages, outgoingNonce := nonce, events := events } = g s)
      (s : State Acc TheaId Sign W) n : g (s.notifyRotated notified n) = g s := by
    unfold notifyRotated
    split <;> exact hg s _ _ _
  simp only [rotateAuthorities, foldl_resetSigned]
  exact ⟨foldl_frame sets (notify sets fun _ _ _ _ => rfl) ..,
    foldl_frame nextAuthorities (notify nextAuthorities fun _ _ _ _ => rfl) ..⟩

-- The message at this nonce comes after one which announced the active set under its own number, and
-- no other set was announced in between.
def Preceded (s : State Acc TheaId Sign W) (n : Network) (k : ℕ) : Prop :=
  ∃ j m, j < k ∧ s.outgoingMessages (n, j) = some m ∧
    m.payloadType = .scheduledRotateValidators ∧
    m.data = Config.encodeValidatorSet s.activeAuthorities s.validatorSetId ∧
    ∀ i m', j < i → i < k → s.outgoingMessages (n, i) = some m' →
      m'.payloadType = .scheduledRotateValidators → m'.data = m.data

structure RotationAnnounced (s s' : State Acc TheaId Sign W) : Prop where
  -- A network is told about an activation together with it, and after the announcement.
  message   : ∀ {n k m}, s'.outgoingMessages (n, k) = some m → m.payloadType = .validatorsRotated →
    s.outgoingMessages (n, k) ≠ some m → s'.validatorSetId = s.newId ∧ Preceded s' n k
  -- Every active network is told about every activation.
  activated : s'.sets ≠ s.sets → ∀ n ∈ s'.activeNetworks, ∃ k m,
    s.outgoingMessages (n, k) = none ∧ s'.outgoingMessages (n, k) = some m ∧
    m.payloadType = .validatorsRotated ∧ Preceded s' n k

-- A set is only activated in a session which does not queue another one, and after it was announced
-- last. All networks have been told about it: there are only parachains, none of them is added while
-- an announcement is pending, and the announced sets are not empty.
def Orderly (s : State Acc TheaId Sign W) : Call Acc TheaId Sign → Prop
  | .newSession validators queued =>
      (∀ n ∈ s.activeNetworks, s.outgoingNonce n < Word.max 64) ∧
      authoritiesOf queued ≠ [] ∧
      ((authoritiesOf validators).toFinset ≠ s.activeAuthorities.toFinset →
        authoritiesOf validators = s.nextAuthorities ∧
        (authoritiesOf validators).toFinset = (authoritiesOf queued).toFinset ∧
        s.validatorSetId < Word.max 64)
  | .addTheaNetwork n isEvm _ _ _ => isEvm = false ∧ (n ∈ s.activeNetworks ∨
      s.nextAuthorities = [] ∨ s.nextAuthorities.toFinset = s.activeAuthorities.toFinset)
  | _ => True

-- What was announced last is the set that may be activated next.
structure State.Announcing (s : State Acc TheaId Sign W) : Prop extends s.Numbered where
  parachain : ∀ n ∈ s.activeNetworks, (s.networkConfig n).networkType = .parachain
  pending   : ∀ n ∈ s.activeNetworks, s.nextAuthorities ≠ [] →
    s.nextAuthorities.toFinset ≠ s.activeAuthorities.toFinset →
    Latest s n (Config.encodeValidatorSet s.nextAuthorities s.newId)

namespace State.Announcing

theorem genesis (authorities : List TheaId) (w : W) :
    (State.genesis authorities w : State Acc TheaId Sign W).Announcing := by
  constructor
  case toNumbered => exact ⟨by simp [State.genesis], by simp [State.genesis]⟩
  case parachain => simp [State.genesis]
  case pending => simp [State.genesis]

theorem schedule (h : s.Announcing)
    (hn : ∀ n ∈ s.activeNetworks, s.outgoingNonce n < Word.max 64)
    (heq : (authoritiesOf validators).toFinset = s.activeAuthorities.toFinset)
    (hq : authoritiesOf queued ≠ []) :
    (s.onNewSession validators queued).Announcing ∧
    RotationAnnounced s (s.onNewSession validators queued) := by
  have hactive : (s.onNewSession validators queued).activeNetworks = s.activeNetworks :=
    onNewSession_frame activeNetworks (fun _ _ _ _ _ _ _ _ => rfl) ..
  have hconfig : (s.onNewSession validators queued).networkConfig = s.networkConfig :=
    onNewSession_frame networkConfig (fun _ _ _ _ _ _ _ _ => rfl) ..
  rw [onNewSession_of_eq heq] at hactive hconfig ⊢
  have hroom n (hn' : n ∈ s.activeNetworks.toList) := hn n (Std.TreeSet.mem_toList.mp hn')
  have hi := issued_announcement (authoritiesOf validators) (authoritiesOf queued) s.newId
    (nodup_activeNetworks s) hroom
  have hsets := sets_scheduleRotations (s := s) s.activeNetworks.toList (authoritiesOf validators)
    (authoritiesOf queued) s.newId
  generalize ht : s.scheduleRotations _ _ _ _ = t at hactive hconfig hi hsets ⊢
  have hid : t.validatorSetId = s.validatorSetId := congrArg Prod.snd hsets
  have hauth : t.activeAuthorities = s.activeAuthorities := by
    simp only [activeAuthorities, hid, show t.authorities = s.authorities from congrArg Prod.fst hsets]
  refine ⟨⟨h.toNumbered.of_issued hi hroom, ?parachain, ?pending⟩, ⟨?message, ?activated⟩⟩
  case parachain => rw [hactive, hconfig]; exact h.parachain
  case pending =>
    intro n hn' hne hne'
    rw [hactive] at hn'
    simp only [newId, hid, hauth] at hne' ⊢
    by_cases hset : (authoritiesOf validators).toFinset = (authoritiesOf queued).toFinset
    case pos =>
      have ht : s = t := (if_neg (not_not.mpr hset)).symm.trans ht
      exact ht ▸ h.pending n hn' (ht ▸ hne) (ht ▸ hne')
    case neg =>
      have hnext : t.nextAuthorities = authoritiesOf queued := by
        rw [← ht, scheduleRotations, if_pos hset]
      refine latest_of_issued h.toNumbered hi (Std.TreeSet.mem_toList.mpr hn') ?_
      simp only [announcement, hset, hnext, rotationPayload, h.parachain n hn', hq, ne_eq,
        not_false_eq_true, if_true, if_false, newId, Option.map_some]
  case message =>
    intro n k m hm hty hold
    cases hi.cases hm with
    | inl hm => exact absurd hm hold
    | inr hm =>
      have hp := hm.2.2
      simp only [announcement] at hp
      split_ifs at hp
      obtain ⟨_, _, hp⟩ := Option.map_eq_some_iff.mp hp
      cases (Prod.mk.inj hp).1.trans hty
  case activated => exact fun hne => absurd hsets hne

theorem activate (h : s.Announcing)
    (hn : ∀ n ∈ s.activeNetworks, s.outgoingNonce n < Word.max 64)
    (hne : (authoritiesOf validators).toFinset ≠ s.activeAuthorities.toFinset)
    (hnext : authoritiesOf validators = s.nextAuthorities)
    (hset : (authoritiesOf validators).toFinset = (authoritiesOf queued).toFinset)
    (hq : authoritiesOf queued ≠ []) (hid : s.validatorSetId < Word.max 64) :
    (s.onNewSession validators queued).Announcing ∧
    RotationAnnounced s (s.onNewSession validators queued) := by
  have hactive : (s.onNewSession validators queued).activeNetworks = s.activeNetworks :=
    onNewSession_frame activeNetworks (fun _ _ _ _ _ _ _ _ => rfl) ..
  have hconfig : (s.onNewSession validators queued).networkConfig = s.networkConfig :=
    onNewSession_frame networkConfig (fun _ _ _ _ _ _ _ _ => rfl) ..
  rw [onNewSession_of_ne hne hset] at hactive hconfig ⊢
  have hroom n (hn' : n ∈ s.activeNetworks.toList) := hn n (Std.TreeSet.mem_toList.mp hn')
  have hi := issued_rotateAuthorities (authoritiesOf validators) s.newId (fun _ => true)
    (nodup_activeNetworks s) hroom
  obtain ⟨hsets, hnext'⟩ := rotateAuthorities_eq (s := s) s.activeNetworks.toList
    (authoritiesOf validators) s.newId fun _ => true
  generalize s.rotateAuthorities _ _ _ _ = t at hactive hconfig hi hsets hnext' ⊢
  have hid' : t.validatorSetId = s.newId := congrArg Prod.snd hsets
  have hauth : t.activeAuthorities = authoritiesOf validators := by
    have hnew : s.newId = s.validatorSetId + 1 := Nat.mod_eq_of_lt (Word.lt_two_pow_iff.mpr hid)
    have hprune : s.newId - 2 < s.newId := Nat.sub_lt (hnew ▸ Nat.succ_pos _) Nat.two_pos
    rw [activeAuthorities, hid', show t.authorities = _ from congrArg Prod.fst hsets]
    exact (update_of_ne hprune.ne' ..).trans (update_self ..)
  -- The announcement which is pending is the one of the set.
  have hlatest n (hn' : n ∈ s.activeNetworks) :
      Latest s n (Config.encodeValidatorSet (authoritiesOf validators) s.newId) := by
    have hne' : s.nextAuthorities ≠ [] := by
      intro he
      rw [hnext, he, List.toFinset_nil, eq_comm, List.toFinset_eq_empty_iff] at hset
      exact hq hset
    exact hnext ▸ h.pending n hn' hne' (hnext ▸ hne)
  have hpreceded n (hn' : n ∈ s.activeNetworks) : Preceded t n (s.outgoingNonce n + 1) := by
    obtain ⟨j, m, hm, hty, hd, hlast⟩ := hlatest n hn'
    have hj : j ≤ s.outgoingNonce n := h.bound hm
    refine ⟨j, m, by omega, h.toNumbered.preserves_of_issued hi _ m hm, hty, ?_, ?_⟩
    · rw [hd, hauth, hid']
    · intro i m' hij hik hm' hty'
      cases hi.cases hm' with
      | inl hm' => exact absurd hty' (hlast i m' hij hm')
      | inr hm' => omega
  refine ⟨⟨h.toNumbered.of_issued hi hroom, ?parachain, ?pending⟩, ⟨?message, ?activated⟩⟩
  case parachain => rw [hactive, hconfig]; exact h.parachain
  case pending =>
    intro n _ _ hne'
    rw [hnext', hauth, hnext] at hne'
    exact absurd rfl hne'
  case message =>
    intro n k m hm _ hold
    obtain ⟨hn', hk, _⟩ := (hi.cases hm).resolve_left hold
    exact ⟨hid', hk ▸ hpreceded n (Std.TreeSet.mem_toList.mp hn')⟩
  case activated =>
    intro _ n hn'
    rw [hactive] at hn'
    have hfree : s.outgoingMessages (n, s.outgoingNonce n + 1) = none := by
      refine Option.eq_none_iff_forall_ne_some.mpr fun m hm => ?_
      have : s.outgoingNonce n + 1 ≤ s.outgoingNonce n := h.bound hm
      omega
    exact ⟨_, _, hfree, hi.issued (Std.TreeSet.mem_toList.mpr hn') rfl, rfl, hpreceded n hn'⟩

theorem onNewSession (h : s.Announcing)
    (ho : Orderly s (.newSession validators queued)) :
    (s.onNewSession validators queued).Announcing ∧
    RotationAnnounced s (s.onNewSession validators queued) := by
  obtain ⟨hn, hq, hact⟩ := ho
  by_cases heq : (authoritiesOf validators).toFinset = s.activeAuthorities.toFinset
  case pos => exact h.schedule hn heq hq
  case neg =>
    obtain ⟨hnext, hset, hid⟩ := hact heq
    exact h.activate hn heq hnext hset hq hid

end State.Announcing

end Session

section Run

variable [Currency Acc W] [Executor W] [Authority TheaId Sign] [Config TheaId]
  [DecidableEq TheaId]
variable {c : Call Acc TheaId Sign} {cs : List (Call Acc TheaId Sign)}

omit [Currency Acc W] [Executor W] [Authority TheaId Sign] [DecidableEq TheaId] in
theorem RotationAnnounced.of_sets (hs : s'.sets = s.sets)
    (hm : ∀ {n k m}, s'.outgoingMessages (n, k) = some m → m.payloadType = .validatorsRotated →
      s.outgoingMessages (n, k) = some m) : RotationAnnounced s s' :=
  ⟨fun hk hty hold => absurd (hm hk hty) hold, fun hne => absurd hs hne⟩

omit [Currency Acc W] [Executor W] [Authority TheaId Sign] [Config TheaId]
  [DecidableEq TheaId] in
theorem Latest.congr (h : Latest s n data)
    (hm : s'.outgoingMessages = s.outgoingMessages) : Latest s' n data := by
  simpa only [Latest, hm] using h

theorem State.Announcing.step (h : s.Announcing) (ho : Orderly s c) (hs : step s c = some s') :
    s'.Announcing ∧ RotationAnnounced s s' := by
  cases step_logStep hs with
  | session he => exact he ▸ h.onNewSession ho
  | frame _ he =>
    simp only [log, Prod.mk.injEq] at he
    obtain ⟨hn, hm, ha, hc, hx, hau, hid⟩ := he
    refine ⟨⟨⟨hm ▸ hn ▸ h.bound, hn ▸ h.word⟩, ?_, fun n hn' hne hne' => ?_⟩, .of_sets ?_ ?_⟩
    · rw [ha, hc]
      exact h.parachain
    · simp only [activeAuthorities, newId, hx, hau, hid] at hne hne' ⊢
      exact (h.pending n (ha ▸ hn') hne hne').congr hm
    · simp only [sets, hau, hid]
    · intro n k m hk _
      exact hm ▸ hk
  | @issue data n hfree he =>
    have hext := (Issues.insertOutgoing h.toNumbered hfree).toExtends
    subst he
    -- The new message is neither an announcement nor about an activation.
    have hcases {n' k m} (hm : (s.insertOutgoing (s.generatePayload .l1Deposit n data)).outgoingMessages
        (n', k) = some m) : s.outgoingMessages (n', k) = some m ∨ m.payloadType = .l1Deposit := by
      simp only [insertOutgoing, update_apply] at hm
      split_ifs at hm
      · exact .inr (by cases hm; rfl)
      · exact .inl hm
    refine ⟨⟨hext.numbered, h.parachain, fun n' hn' hne hne' => ?_⟩, .of_sets rfl ?_⟩
    · obtain ⟨j, m, hm, hty, hd, hlast⟩ := h.pending n' hn' hne hne'
      refine ⟨j, m, hext.messages hm, hty, hd, fun i m' hij hm' => ?_⟩
      cases hcases hm' with
      | inl hm' => exact hlast i m' hij hm'
      | inr hty' => simp [hty']
    · intro n' k m hm hty
      refine (hcases hm).resolve_right fun hty' => ?_
      cases hty.symm.trans hty'
  | @renumber k n hle he =>
    subst he
    refine ⟨⟨⟨fun {k' m} hm => ?_, fun n' => ?_⟩, h.parachain, h.pending⟩, .of_sets rfl fun hk _ => hk⟩
    · have := h.bound hm
      simp only [update_apply]
      split_ifs with hn
      · exact hn ▸ this |>.trans hle
      · exact this
    · simp only [update_apply]
      split_ifs
      · exact Word.lt_two_pow_iff.mp k.isLt
      · exact h.word n'
  | @addNetwork n isEvm _ _ _ he =>
    subst he
    obtain ⟨hevm, hadd⟩ := ho
    have hmem {n'} (hn' : n' ∈ s.activeNetworks.insert n) : n' = n ∨ n' ∈ s.activeNetworks :=
      (Std.TreeSet.mem_insert.mp hn').imp_left fun he => (Std.compare_eq_iff_eq.mp he).symm
    refine ⟨⟨⟨h.bound, h.word⟩, fun n' hn' => ?_, fun n' hn' hne hne' => ?_⟩,
      .of_sets rfl fun hk _ => hk⟩
    · simp only [update_apply]
      split_ifs with hn
      · simp [NetworkConfig.new, hevm]
      · exact h.parachain n' ((hmem hn').resolve_left hn)
    · refine (h.pending n' ?_ hne hne' :)
      cases hmem hn' with
      | inr hn' => exact hn'
      | inl hn' =>
        cases hadd with
        | inl ha => exact hn' ▸ ha
        | inr ha => exact absurd ha (not_or.mpr ⟨hne, hne'⟩)
  | @removeNetwork n he =>
    subst he
    have hmem {n'} (hn' : n' ∈ s.activeNetworks.erase n) : n' ∈ s.activeNetworks :=
      Std.TreeSet.mem_of_mem_erase hn'
    exact ⟨⟨⟨h.bound, h.word⟩, fun n' hn' => h.parachain n' (hmem hn'),
      fun n' hn' => h.pending n' (hmem hn')⟩, .of_sets rfl fun hk _ => hk⟩

-- In a run of orderly sessions, every activation is announced to all active networks.
theorem rotations_announced (authorities : List TheaId) (w : W)
    (h : Along step Orderly (.genesis authorities w) cs) :
    Along step (fun s c => RotationAnnounced s (exec step s c)) (.genesis authorities w) cs := by
  have hstep (s : State Acc TheaId Sign W) c (ho : Orderly s c) (hs : s.Announcing) :
      (exec step s c).Announcing ∧ RotationAnnounced s (exec step s c) := by
    cases exec_cases step s c with
    | inl he => exact hs.step ho he
    | inr he =>
      rw [he.2]
      exact ⟨hs, .of_sets rfl fun hk _ => hk⟩
  intro e he
  have hinv := h.invariant_trace (.genesis authorities w) (fun s c ho hs => (hstep s c ho hs).1) he
  exact (hstep e.1 e.2 (h e he) hinv).2

end Run

def exampleRotations (queued : List ℕ) : List (Call ℕ ℕ (ℕ × Message)) :=
  [.addTheaNetwork 1 false 20 10 10, .newSession [1, 2, 3, 4] [5, 6], .newSession [5, 6] queued]

theorem rotations_announced_once :
    Along step (fun s c => RotationAnnounced s (exec step s c)) exampleGenesis
      (exampleRotations [5, 6]) := by
  refine rotations_announced [1, 2, 3, 4] _ fun e he => ?_
  simp only [exampleRotations, trace_cons, trace_nil, List.mem_cons, List.not_mem_nil, or_false] at he
  rcases he with rfl | rfl | rfl
  case inl => exact ⟨rfl, .inr (.inl rfl)⟩
  all_goals
    refine ⟨fun n hn => ?_, by decide, by decide⟩
    have hn : n ∈ [1] := Std.TreeSet.mem_toList.mpr hn
    cases List.mem_singleton.mp hn
    decide

def exampleAnnounced : State ℕ ℕ (ℕ × Message) Mock :=
  run step exampleGenesis ((exampleRotations []).take 2)

def exampleOverlap : State ℕ ℕ (ℕ × Message) Mock :=
  exec step exampleAnnounced (.newSession [5, 6] [7, 8])

-- The session which activates a set announces the one after it first, with the same number.
theorem rotations_overlap : ¬∀ cs : List (Call ℕ ℕ (ℕ × Message)),
    Along step (fun s c => RotationAnnounced s (exec step s c)) exampleGenesis cs := by
  intro h
  have hmem : (exampleAnnounced, .newSession [5, 6] [7, 8]) ∈
      trace step exampleGenesis (exampleRotations [7, 8]) := by
    simp [exampleRotations, exampleAnnounced]
  have hr : RotationAnnounced exampleAnnounced exampleOverlap := h _ _ hmem
  have hactive : 1 ∈ exampleOverlap.activeNetworks := Std.TreeSet.mem_toList.mp (by decide)
  obtain ⟨k, m, _, hm, hty, j, m', hjk, hm', _, hd, hbetween⟩ :=
    hr.activated (fun he => absurd (congrArg Prod.snd he) (by decide)) 1 hactive
  -- Only the third message is about an activation, and only the first one announces the set.
  have hnone {i} (hi : 3 < i) : exampleOverlap.outgoingMessages (1, i) = none := by
    have hlog : exampleOverlap.outgoingMessages = update (update (update
      (fun _ => none) (1, 1) _) (1, 2) _) (1, 3) _ := rfl
    rw [hlog]
    simp only [update_apply, Prod.mk.injEq, true_and]
    rw [if_neg (by omega), if_neg (by omega), if_neg (by omega)]
  have hty : (exampleOverlap.outgoingMessages (1, k)).map Message.payloadType =
      some .validatorsRotated := by
    rw [hm, Option.map_some, hty]
  have hd : (exampleOverlap.outgoingMessages (1, j)).map Message.data = some [1, 5, 6] := by
    rw [hm', Option.map_some, hd]
    rfl
  match k, hjk, hbetween with
  | 0, hjk, _ => simp at hjk
  | 1, _, _ => exact absurd hty (by decide)
  | 2, _, _ => exact absurd hty (by decide)
  | k + 4, _, _ => simp [hnone (show 3 < k + 4 by omega)] at hty
  | 3, hjk, hbetween =>
    match j, hjk, hbetween, hm' with
    | 0, _, _, _ => exact absurd hd (by decide)
    | 2, _, _, _ => exact absurd hd (by decide)
    | j + 3, hjk, _, _ => omega
    | 1, _, hbetween, hm' =>
      have hsame := hbetween 2 _ Nat.one_lt_two (Nat.lt_succ_self 2) rfl rfl
      cases hm'
      exact absurd hsame (by decide)

end Thea
