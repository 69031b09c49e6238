import PolkadexModel.Lib.Quorum
import PolkadexModel.Ocex.Pallet

open List

namespace Ocex.State

variable {Acc Auth AuthSign W : Type} [Ord Acc] {cfg : Config}
  [Authority Acc Auth AuthSign]
  {s : State Acc Auth W cfg} {summary summary' : SnapshotSummary Acc}
  {signatures signatures' : List (ℕ × AuthSign)} {authorities : List Auth}
  {seen : List ℕ}

-- A signature of the authority at its index.
def ValidSignature (authorities : List Auth) (summary : SnapshotSummary Acc)
    (signature : ℕ × AuthSign) : Prop :=
  ∃ auth, authorities[signature.1]? = some auth ∧ Authority.verify signature.2 summary auth

theorem validateSignature_eq_ok {signature : ℕ × AuthSign} :
    validateSignature authorities summary seen signature = .ok seen' ↔
    signature.1 ∉ seen ∧ ValidSignature authorities summary signature ∧
      seen' = signature.1 :: seen := by
  simp only [validateSignature, ValidSignature]
  split_ifs with hs
  · simp [hs]
  · cases ha : authorities[signature.1]? with
    | none => simp
    | some auth =>
      by_cases hv : Authority.verify signature.2 summary auth
      case pos => simpa [hs, hv] using eq_comm
      case neg => simp [hv]

theorem validateSignatures_isOk :
    (∃ seen', signatures.foldlM (validateSignature authorities summary) seen = .ok seen') ↔
    (signatures.map Prod.fst).Nodup ∧ (∀ signature ∈ signatures, signature.1 ∉ seen) ∧
      ∀ signature ∈ signatures, ValidSignature authorities summary signature := by
  induction signatures generalizing seen with
  | nil => simp [pure_eq_ok]
  | cons signature signatures hi =>
    simp only [foldlM_cons_eq_ok, validateSignature_eq_ok]
    constructor
    · rintro ⟨seen', _, ⟨hs, hv, ht⟩, h⟩
      subst ht
      obtain ⟨hn, hd, hv'⟩ := hi.mp ⟨seen', h⟩
      simp only [mem_cons, not_or] at hd
      refine ⟨?_, ?_, ?_⟩
      · rw [map_cons, nodup_cons]
        refine ⟨fun hm => ?_, hn⟩
        obtain ⟨sig, hsig, he⟩ := mem_map.mp hm
        exact (hd sig hsig).1 he
      · simpa [hs] using fun i sig h => (hd (i, sig) h).2
      · simpa [hv] using fun i sig h => hv' (i, sig) h
    · rintro ⟨hn, hd, hv⟩
      rw [map_cons, nodup_cons] at hn
      simp only [mem_cons, forall_eq_or_imp] at hd hv
      have hd' : ∀ sig ∈ signatures, sig.1 ∉ signature.1 :: seen := by
        intro sig hsig hm
        cases mem_cons.mp hm with
        | inl he => exact hn.1 (he ▸ mem_map_of_mem hsig)
        | inr hm => exact hd.2 sig hsig hm
      obtain ⟨seen', h⟩ := hi.mpr ⟨hn.2, hd', hv.2⟩
      exact ⟨seen', _, ⟨hd.1, hv.1, rfl⟩, h⟩

variable [Percent]

-- What is checked before a snapshot is executed.
structure Accepts (s : State Acc Auth W cfg) (summary : SnapshotSummary Acc)
    (signatures : List (ℕ × AuthSign)) : Prop where
  snapshotId : summary.snapshotId = Word.saturatingAdd 64 s.snapshotNonce 1
  limit : summary.withdrawals.length % 2 ^ 32 ≤ cfg.obWithdrawalLimit
  validatorSetId : summary.validatorSetId = s.validatorSetId
  nonempty : s.activeAuthorities ≠ []
  required : requiredSignatures s.activeAuthorities ≤ signatures.length
  nodup : (signatures.map Prod.fst).Nodup
  valid : ∀ signature ∈ signatures, ValidSignature s.activeAuthorities summary signature

theorem accepts_iff : s.validateSnapshot summary signatures = .ok () ↔ s.Accepts summary signatures := by
  have hloop : (∃ seen, signatures.foldlM (validateSignature s.activeAuthorities summary) [] =
      .ok seen) ↔ _ := validateSignatures_isOk
  simp only [validateSnapshot]
  split_ifs with h₁ h₂ h₃ h₄ h₅
  · simpa using fun h : s.Accepts summary signatures => h₁ h.snapshotId.symm
  · simpa using fun h : s.Accepts summary signatures => absurd h.limit (not_le.mpr h₂)
  · simpa using fun h : s.Accepts summary signatures => h₃ h.validatorSetId
  · simpa using fun h : s.Accepts summary signatures => h.nonempty h₄
  · simpa using fun h : s.Accepts summary signatures => absurd h.required (not_le.mpr h₅)
  · cases hf : signatures.foldlM (validateSignature s.activeAuthorities summary) [] with
    | ok seen =>
      obtain ⟨hn, _, hv⟩ := hloop.mp ⟨seen, hf⟩
      simp only [Except.map, true_iff]
      exact ⟨(not_not.mp h₁).symm, not_lt.mp h₂, not_not.mp h₃, h₄, not_lt.mp h₅, hn, hv⟩
    | error e =>
      simp only [Except.map, reduceCtorEq, false_iff]
      intro h
      obtain ⟨seen, hs⟩ := hloop.mpr ⟨h.nodup, by simp, h.valid⟩
      simp [hf] at hs

omit [Percent] in
open Classical in
-- The authorities who signed a summary.
noncomputable def signers (authorities : List Auth) (summary : SnapshotSummary Acc)
    (signatures : List (ℕ × AuthSign)) : Finset Auth :=
  authorities.toFinset.filter fun auth => ∃ signature ∈ signatures,
    authorities[signature.1]? = some auth ∧ Authority.verify signature.2 summary auth

-- Every accepted snapshot is signed by more than half of the authorities, and every two of them have
-- a common signer.
structure MajorityRule (s : State Acc Auth W cfg) (AuthSign : Type)
    [Authority Acc Auth AuthSign] : Prop where
  majority : ∀ {summary : SnapshotSummary Acc} {signatures : List (ℕ × AuthSign)},
    s.validateSnapshot summary signatures = .ok () →
      s.activeAuthorities.length < 2 * (signers s.activeAuthorities summary signatures).card
  intersection : ∀ {summary summary' : SnapshotSummary Acc}
    {signatures signatures' : List (ℕ × AuthSign)},
    s.validateSnapshot summary signatures = .ok () →
    s.validateSnapshot summary' signatures' = .ok () →
      ∃ auth, auth ∈ signers s.activeAuthorities summary signatures ∧
        auth ∈ signers s.activeAuthorities summary' signatures'

omit [Percent] in
theorem mem_signers : auth ∈ signers authorities summary signatures ↔ ∃ signature ∈ signatures,
      authorities[signature.1]? = some auth ∧ Authority.verify signature.2 summary auth := by
  simp only [signers, Finset.mem_filter, mem_toFinset, and_iff_right_iff_imp]
  rintro ⟨_, _, h, _⟩
  exact mem_of_getElem? h

omit [Percent] in
theorem card_signers_ge (hn : authorities.Nodup) (hs : (signatures.map Prod.fst).Nodup)
    (hv : ∀ signature ∈ signatures, ValidSignature authorities summary signature) :
    signatures.length ≤ (signers authorities summary signatures).card := by
  classical
  have hlt : ∀ i ∈ signatures.map Prod.fst, i < authorities.length := by
    intro i hi
    obtain ⟨signature, hm, he⟩ := mem_map.mp hi
    obtain ⟨auth, ha, _⟩ := hv signature hm
    exact he ▸ (List.getElem?_eq_some_iff.mp ha).1
  obtain ⟨A, hc, hA⟩ := Quorum.exists_finset_of_indices hn hs hlt
  rw [← length_map Prod.fst, ← hc]
  refine Finset.card_le_card fun auth ha => mem_signers.mpr ?_
  obtain ⟨i, hi, he⟩ := hA auth ha
  obtain ⟨signature, hm, hi⟩ := mem_map.mp hi
  obtain ⟨auth', ha', hverify⟩ := hv signature hm
  have : auth' = auth := Option.some.inj (ha'.symm.trans (hi ▸ he))
  exact ⟨signature, hm, hi ▸ he, this ▸ hverify⟩

omit [Percent] in
theorem card_signers_le : (signers authorities summary signatures).card ≤ signatures.length := by
  classical
  calc (signers authorities summary signatures).card
    _ ≤ (signatures.filterMap (authorities[·.1]?)).toFinset.card := by
        refine Finset.card_le_card fun auth ha => ?_
        obtain ⟨signature, hm, he, _⟩ := mem_signers.mp ha
        exact mem_toFinset.mpr (mem_filterMap.mpr ⟨signature, hm, he⟩)
    _ ≤ (signatures.filterMap (authorities[·.1]?)).length := toFinset_card_le _
    _ ≤ signatures.length := length_filterMap_le ..

-- The required signatures are a majority, except for even numbers of up to fifty authorities, of
-- which only one half is required.
theorem required_iff (authorities : List Auth) :
    authorities.length < 2 * requiredSignatures authorities ↔
      authorities = [] ∨ authorities.length % 2 = 1 ∨ 50 < authorities.length := by
  obtain ⟨hle, hlt⟩ := Percent.mul_nearest 51 authorities.length
  rw [← length_eq_zero_iff, requiredSignatures]
  omega

def emptySummary (s : State Acc Auth W cfg) : SnapshotSummary Acc where
  validatorSetId := s.validatorSetId
  snapshotId := Word.saturatingAdd 64 s.snapshotNonce 1
  stateHash := 0
  stateChangeId := 0
  lastProcessedBlk := 0
  withdrawals := []
  egressMessages := []
  traderMetrics := none

theorem exists_accepted (hne : s.activeAuthorities ≠ [])
    (hle : requiredSignatures s.activeAuthorities ≤ s.activeAuthorities.length)
    (hsign : ∀ (auth : Auth) (summary : SnapshotSummary Acc),
      ∃ signature : AuthSign, Authority.verify signature summary auth) :
    ∃ signatures : List (ℕ × AuthSign),
      s.validateSnapshot s.emptySummary signatures = .ok () ∧
      signatures.length = requiredSignatures s.activeAuthorities := by
  obtain ⟨auth, _⟩ := exists_mem_of_ne_nil _ hne
  have hex : ∀ i : ℕ, ∃ signature : AuthSign, ∀ auth, s.activeAuthorities[i]? = some auth →
      Authority.verify signature s.emptySummary auth := by
    intro i
    cases hi : s.activeAuthorities[i]? with
    | none      => exact ⟨(hsign auth s.emptySummary).choose, by simp⟩
    | some auth =>
      obtain ⟨signature, h⟩ := hsign auth s.emptySummary
      exact ⟨signature, fun _ he => Option.some.inj he ▸ h⟩
  choose sign hverify using hex
  refine ⟨(range (requiredSignatures s.activeAuthorities)).map fun i => (i, sign i),
    accepts_iff.mpr ?_, by simp⟩
  exact {
    snapshotId := rfl
    limit := Nat.zero_le _
    validatorSetId := rfl
    nonempty := hne
    required := by simp
    nodup := by simpa [Function.comp_def] using nodup_range
    valid := by
      intro signature hm
      obtain ⟨i, hi, he⟩ := mem_map.mp hm
      have hlt : i < s.activeAuthorities.length := (mem_range.mp hi).trans_le hle
      have hget := getElem?_eq_getElem hlt
      exact he ▸ ⟨_, hget, hverify i _ hget⟩ }

-- The threshold of 51% is rounded to the nearest number, and therefore is only a half of an even
-- number of up to fifty authorities. For all other numbers of authorities it is a majority.
theorem majorityRule_iff (hn : s.activeAuthorities.Nodup)
    (hsign : ∀ (auth : Auth) (summary : SnapshotSummary Acc),
      ∃ signature : AuthSign, Authority.verify signature summary auth) :
    s.MajorityRule AuthSign ↔ s.activeAuthorities = [] ∨
      s.activeAuthorities.length % 2 = 1 ∨ 50 < s.activeAuthorities.length := by
  rw [← required_iff]
  constructor
  · intro h
    by_contra hlt
    have hne : s.activeAuthorities ≠ [] := fun he => by simp [he, requiredSignatures] at hlt
    obtain ⟨signatures, hok, hlen⟩ := exists_accepted hne (by omega) hsign
    have := h.majority hok
    have : (signers s.activeAuthorities s.emptySummary signatures).card ≤ signatures.length :=
      card_signers_le
    omega
  · intro hlt
    have majority {summary : SnapshotSummary Acc} {signatures : List (ℕ × AuthSign)}
        (hok : s.validateSnapshot summary signatures = .ok ()) :
        s.activeAuthorities.length < 2 * (signers s.activeAuthorities summary signatures).card := by
      have h := accepts_iff.mp hok
      have := h.required
      have := card_signers_ge hn h.nodup h.valid
      omega
    refine ⟨majority, fun {summary summary' signatures signatures'} hok hok' => ?_⟩
    classical
    have hsub (summary : SnapshotSummary Acc) (signatures : List (ℕ × AuthSign)) :
        signers s.activeAuthorities summary signatures ⊆ s.activeAuthorities.toFinset := by
      intro auth ha
      obtain ⟨_, _, he, _⟩ := mem_signers.mp ha
      exact mem_toFinset.mpr (mem_of_getElem? he)
    have hcard := toFinset_card_of_nodup hn
    obtain ⟨auth, ha⟩ := Finset.inter_nonempty_of_card_lt_card_add_card (hsub summary signatures)
      (hsub summary' signatures') (by have := majority hok; have := majority hok'; omega)
    exact ⟨auth, Finset.mem_inter.mp ha⟩

end Ocex.State

namespace Ocex.Mock

attribute [local instance] percent

def guarded (n : ℕ) : State Account ℕ Unit config :=
  .genesis (List.range n) ()

def sign (auth : ℕ) (summary : SnapshotSummary Account) : AuthSig :=
  (auth, summary.snapshotId, summary.stateHash)

theorem guarded_by_three : (guarded 3).MajorityRule AuthSig :=
  (State.majorityRule_iff (by decide) fun auth summary => ⟨sign auth summary, by simp [Authority.verify, sign]⟩).mpr
    (.inr (.inl rfl))

-- Of four authorities, the first two and the last two can sign different snapshots.
theorem guarded_by_four : ∃ signatures signatures' : List (ℕ × AuthSig),
    (guarded 4).validateSnapshot (guarded 4).emptySummary signatures = .ok () ∧
    (guarded 4).validateSnapshot { (guarded 4).emptySummary with stateHash := 1 } signatures' = .ok () ∧
    ¬∃ auth,
      auth ∈ State.signers (guarded 4).activeAuthorities (guarded 4).emptySummary signatures ∧
      auth ∈ State.signers (guarded 4).activeAuthorities
        { (guarded 4).emptySummary with stateHash := 1 } signatures' := by
  refine ⟨[(0, 0, 1, 0), (1, 1, 1, 0)], [(2, 2, 1, 1), (3, 3, 1, 1)], rfl, rfl, ?_⟩
  rintro ⟨auth, h, h'⟩
  rw [State.mem_signers] at h h'
  simp [State.activeAuthorities, guarded, State.genesis] at h h'
  omega

end Ocex.Mock
