import PolkadexModel.Ocex.Theorems.ExactlyOnce

open Function

namespace Ocex

open State

section Runs

variable {Acc Auth AuthSign W : Type} [Ord Acc] [DecidableEq Acc]
  {cfg : Config} [PalletAccounts Acc] [Assets Acc W] [CrossChainGadget Acc W]
  [CrowdSourceLiquidityMining Acc W] [Percent]
  [Authority Acc Auth AuthSign] [Decimal.Arith]

namespace State

-- No number of a snapshot is accepted twice, and nothing is pending under a number when it is
-- accepted.
structure SingleUse (s : State Acc Auth W cfg)
    (calls : List (Call Acc Auth AuthSign)) : Prop where
  once : ((accepted s calls).map (·.snapshotId)).Nodup
  kept : ∀ e ∈ Run.trace step s calls, ∀ summary ∈ acceptedBy e.1 e.2,
    e.1.withdrawals summary.snapshotId = none

-- When a summary is submitted, no snapshot is recorded under the next number.
def Unrecorded (s : State Acc Auth W cfg) :
    Call Acc Auth AuthSign → Prop
  | .submitSnapshot _ _ => s.snapshots (Word.saturatingAdd 64 s.snapshotNonce 1) = none
  | _ => True

-- Governance does not move the number of the last snapshot below a snapshot that is recorded, and no
-- snapshot is submitted after the last number.
def Forward (s : State Acc Auth W cfg) :
    Call Acc Auth AuthSign → Prop
  | .submitSnapshot _ _ => s.snapshotNonce < Word.max 64
  | .setSnapshot id => ∀ id' > id, s.snapshots id' = none
  | .forceSubmitSnapshot summary => ∀ id > summary.snapshotId, s.snapshots id = none
  | _ => True

-- What is pending is recorded, and so are the summaries that were accepted.
structure Recorded (summaries : List (SnapshotSummary Acc))
    (s : State Acc Auth W cfg) : Prop where
  nodup : (summaries.map (·.snapshotId)).Nodup
  accepted : ∀ summary ∈ summaries, s.snapshots summary.snapshotId ≠ none
  pending : ∀ id, s.snapshots id = none → s.withdrawals id = none

variable {s s' : State Acc Auth W cfg}
  {c : Call Acc Auth AuthSign}

omit [DecidableEq Acc] [PalletAccounts Acc] [Assets Acc W]
  [CrossChainGadget Acc W] [CrowdSourceLiquidityMining Acc W] [Percent]
  [Authority Acc Auth AuthSign] [Decimal.Arith] in
theorem Sets.recorded {t : State Acc Auth W cfg} (h : s.Sets t c) :
    t.withdrawals = s.withdrawals ∧ ∀ id, t.snapshots id = none → s.snapshots id = none := by
  by_cases hset : ∃ id, c = .setSnapshot id
  · obtain ⟨id, hc⟩ := hset
    subst hc
    exact h ▸ ⟨rfl, fun _ hn => hn⟩
  by_cases hforce : ∃ summary, c = .forceSubmitSnapshot summary
  · obtain ⟨summary, hc⟩ := hforce
    subst hc
    refine h ▸ ⟨rfl, fun id hn => ?_⟩
    by_cases hid : id = summary.snapshotId
    · simp [hid] at hn
    · simpa [hid] using hn
  · obtain ⟨hl, hs⟩ := h.history (fun id hc => hset ⟨id, hc⟩) (fun summary hc => hforce ⟨summary, hc⟩)
    exact ⟨congrArg Ledger.withdrawals hl, fun id hn => hs ▸ hn⟩

variable [Std.TransOrd Acc] [Std.LawfulEqOrd Acc]

theorem Recorded.dispatch {summaries : List (SnapshotSummary Acc)} (h : Recorded summaries s)
    (hc : Unrecorded s c) (hd : dispatch s c = .ok s') :
    Recorded (summaries ++ (acceptedBy s c).toList) s' := by
  cases c with
  | claimWithdraw id account =>
    obtain ⟨map, _, _, _, hm, _, _, hv, _⟩ := claimWithdraw_eq_ok hd
    have hs : s'.snapshots = s.snapshots := congrArg View.snapshots hv
    have hw : s'.withdrawals = (s.ledger.put id _ _).withdrawals := congrArg (·.withdrawals) hv
    refine ⟨by simpa [acceptedBy] using h.nodup, by simpa [acceptedBy, hs] using h.accepted, ?_⟩
    intro id' hn
    rw [hs] at hn
    have hne : id' ≠ id := by
      intro he
      rw [← he, h.pending id' hn] at hm
      cases hm
    rw [hw, Ledger.withdrawals_put_of_ne hne]
    exact h.pending id' hn
  | submitSnapshot summary signatures =>
    have hacc : acceptedBy s (.submitSnapshot summary signatures) = some summary := by
      simp [acceptedBy, step, hd, Except.toOption]
    simp only [Ocex.dispatch, bind_eq_ok] at hd
    obtain ⟨_, hvalid, hd⟩ := hd
    have hc : s.snapshots summary.snapshotId = none := snapshotId_of_validateSnapshot hvalid ▸ hc
    obtain ⟨claims, map, _, hv, _⟩ := submitSnapshot_eq_ok hd
    have hs : s'.snapshots = update s.snapshots summary.snapshotId (some summary) :=
      congrArg View.snapshots hv
    have hw : s'.withdrawals = (s.ledger.accept summary.snapshotId map claims).withdrawals :=
      congrArg (·.withdrawals) hv
    have hnew : summary.snapshotId ∉ summaries.map (·.snapshotId) := by
      intro hmem
      obtain ⟨old, hold, he⟩ := List.mem_map.mp hmem
      exact h.accepted old hold (he ▸ hc)
    rw [hacc]
    refine ⟨?nodup, fun old hold => ?accepted, fun id hn => ?pending⟩
    case nodup =>
      rw [Option.toList_some, List.map_append, List.nodup_append_comm]
      exact List.nodup_cons.mpr ⟨hnew, h.nodup⟩
    case accepted =>
      rw [hs]
      by_cases hid : old.snapshotId = summary.snapshotId
      · simp [hid]
      · rw [update_of_ne hid]
        cases List.mem_append.mp hold with
        | inl hold => exact h.accepted old hold
        | inr hold => exact absurd (congrArg (·.snapshotId) (List.mem_singleton.mp hold)) hid
    case pending =>
      have hid : id ≠ summary.snapshotId := by
        intro he
        simp [hs, he] at hn
      rw [hs, update_of_ne hid] at hn
      rw [hw, Ledger.withdrawals_accept_of_ne hid]
      exact h.pending id hn
  | _ =>
    obtain ⟨t, ht, hf⟩ := sets_of_dispatch (by simp) (by simp) hd
    obtain ⟨hw, hs⟩ := ht.recorded
    have hw' : s'.withdrawals = s.withdrawals :=
      (congrArg (·.withdrawals) hf.view : s'.withdrawals = t.withdrawals).trans hw
    have hs' : s'.snapshots = t.snapshots := congrArg View.snapshots hf.view
    refine ⟨by simpa [acceptedBy] using h.nodup, fun summary hsum hn => ?_, fun id hn => ?_⟩
    · exact h.accepted summary (by simpa [acceptedBy] using hsum) (hs _ (hs' ▸ hn))
    · rw [hw']
      exact h.pending id (hs id (hs' ▸ hn))

theorem recorded_run {calls : List (Call Acc Auth AuthSign)}
    (hp : ∀ id, s.snapshots id = none → s.withdrawals id = none)
    (h : Run.Along step Unrecorded s calls) : Recorded (accepted s calls) (Run.run step s calls) := by
  refine h.induction (motive := fun calls => Recorded (accepted s calls))
    ⟨List.nodup_nil, by simp [accepted], hp⟩ fun calls c h hi => ?_
  rw [accepted_append]
  cases hd : dispatch (Run.run step s calls) c with
  | ok s' =>
    have hstep : step (Run.run step s calls) c = some s' := by simp [step, hd, Except.toOption]
    rw [Run.exec_of_some hstep]
    exact hi.dispatch h.last hd
  | error e =>
    rw [Run.exec_of_none (by simp [step, hd, Except.toOption]), acceptedBy_of_error hd]
    simpa using hi

omit [Std.TransOrd Acc] [Std.LawfulEqOrd Acc] in
theorem Unrecorded.snapshots_eq_none (hc : Unrecorded s c)
    (h : acceptedBy s c = some summary) : s.snapshots summary.snapshotId = none := by
  cases c with
  | submitSnapshot summary' signatures =>
    simp only [acceptedBy] at h
    split_ifs at h with hsome
    cases h
    obtain ⟨s', hstep⟩ := Option.isSome_iff_exists.mp hsome
    have hd := toOption_eq_some.mp hstep
    simp only [Ocex.dispatch, bind_eq_ok] at hd
    obtain ⟨_, hvalid, _⟩ := hd
    exact snapshotId_of_validateSnapshot hvalid ▸ hc
  | _ => cases h

-- Every summary is used once as long as none is submitted under a number that has a snapshot.
theorem singleUse_of_unrecorded (s : State Acc Auth W cfg)
    (hp : ∀ id, s.snapshots id = none → s.withdrawals id = none)
    (calls : List (Call Acc Auth AuthSign))
    (h : Run.Along step Unrecorded s calls) : SingleUse s calls := by
  refine ⟨(recorded_run hp h).nodup, fun e he summary hs => ?_⟩
  obtain ⟨calls₁, calls₂, hc, he₁⟩ := Run.mem_trace_split he
  have hr := recorded_run hp (hc ▸ h).of_append
  rw [← he₁] at hr
  exact hr.pending _ ((h e he).snapshots_eq_none hs)

-- Nothing is recorded after the last number.
def Current (s : State Acc Auth W cfg) : Prop :=
  ∀ id > s.snapshotNonce, s.snapshots id = none

theorem Current.dispatch (h : s.Current) (hc : Forward s c) (hd : dispatch s c = .ok s') :
    s'.Current := by
  cases c with
  | claimWithdraw id account =>
    obtain ⟨_, _, _, _, _, _, _, hv, _⟩ := claimWithdraw_eq_ok hd
    have hs : s'.snapshots = s.snapshots := congrArg View.snapshots hv
    have hn : s'.snapshotNonce = s.snapshotNonce := congrArg (·.snapshotNonce) hv
    rw [Current, hs, hn]
    exact h
  | submitSnapshot summary signatures =>
    simp only [Ocex.dispatch, bind_eq_ok] at hd
    obtain ⟨_, hvalid, hd⟩ := hd
    have hid := snapshotId_of_validateSnapshot hvalid
    rw [Word.lt_saturatingAdd_one hc] at hid
    obtain ⟨_, _, _, hv, _⟩ := submitSnapshot_eq_ok hd
    have hs : s'.snapshots = update s.snapshots summary.snapshotId (some summary) :=
      congrArg View.snapshots hv
    have hn : s'.snapshotNonce = summary.snapshotId := congrArg (·.snapshotNonce) hv
    intro id hlt
    rw [hn] at hlt
    rw [hs, update_of_ne hlt.ne']
    exact h id (by omega)
  | setSnapshot id => exact Except.ok.inj hd ▸ hc
  | forceSubmitSnapshot summary =>
    rw [← Except.ok.inj hd]
    intro id hlt
    exact (update_of_ne (ne_of_gt hlt) ..).trans (hc id hlt)
  | _ =>
    obtain ⟨t, ht, hf⟩ := sets_of_dispatch (by simp) (by simp) hd
    obtain ⟨hl, hs⟩ := ht.history (by simp) (by simp)
    have hs' : s'.snapshots = s.snapshots := (congrArg View.snapshots hf.view).trans hs
    have hn : s'.snapshotNonce = s.snapshotNonce :=
      (congrArg (·.snapshotNonce) hf.view).trans (congrArg Ledger.snapshotNonce hl)
    rw [Current, hs', hn]
    exact h

-- Only governance or the end of the numbers can lead to a replay.
theorem unrecorded_of_forward {calls : List (Call Acc Auth AuthSign)}
    (hs : s.Current) (h : Run.Along step Forward s calls) : Run.Along step Unrecorded s calls := by
  have hpres (s : State Acc Auth W cfg)
      (c : Call Acc Auth AuthSign) (hc : Forward s c) (hs : s.Current) :
      (Run.exec step s c).Current := by
    cases Run.exec_cases step s c with
    | inl hstep => exact hs.dispatch hc (toOption_eq_some.mp hstep)
    | inr hstep => exact hstep.2.symm ▸ hs
  intro (t, c) he
  have hcur : t.Current := h.invariant_trace hs hpres he
  have hf : Forward t c := h (t, c) he
  cases c with
  | submitSnapshot =>
    refine hcur _ ?_
    rw [Word.lt_saturatingAdd_one hf]
    exact Nat.lt_succ_self _
  | _ => trivial

end State

end Runs

namespace Mock

attribute [local instance] Decimal.HalfEven.arith percent

def skipped : List (Call Account ℕ AuthSig) :=
  [submit 1 [withdrawal 0], .forceSubmitSnapshot (summary 3 []), .newSession [7] [7],
    .setSnapshot 4]

theorem skipped_single_use : (State.accepted (start 0 1) skipped).length = 1 ∧
    (start 0 1).SingleUse skipped := by
  refine ⟨by decide +kernel, singleUse_of_unrecorded (start 0 1) (fun _ _ => rfl) _ ?_⟩
  intro e he
  simp only [skipped, Run.trace_cons, Run.trace_nil, List.mem_cons, List.not_mem_nil, or_false] at he
  rcases he with rfl | rfl | rfl | rfl
  · exact rfl
  all_goals exact trivial

theorem raised_unrecorded : Run.Along step State.Unrecorded (start 0 2) [.setSnapshot 4, submit 5 [withdrawal 0]] := by
  refine State.unrecorded_of_forward (fun _ _ => rfl) (Run.Along.cons_iff.mpr ⟨fun _ _ => rfl, ?_⟩)
  refine Run.Along.cons_iff.mpr ⟨?_, by simp [Run.Along]⟩
  exact show 4 < Word.max 64 by decide

-- Governance takes back the number of a snapshot, and its withdrawal is paid a second time.
def replayed : List (Call Account ℕ AuthSig) :=
  [submit 1 [withdrawal 0], .setSnapshot 0, submit 1 [withdrawal 0]]

theorem paid_twice_after_set_snapshot :
    (State.accepted (start 0 2) replayed).map (·.withdrawals) = [[withdrawal 0], [withdrawal 0]] ∧
    (Run.run step (start 0 2) replayed).world 2 .polkadex = 2 * unitBalance ∧
    ¬(start 0 2).SingleUse replayed := by
  refine ⟨by decide +kernel, by decide +kernel, fun h => ?_⟩
  have := h.once
  revert this
  decide +kernel

end Mock

end Ocex
