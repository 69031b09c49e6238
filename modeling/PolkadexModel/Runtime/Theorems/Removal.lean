import PolkadexModel.Lib.Trees
import PolkadexModel.Runtime.Migrations

namespace Runtime

open PdexMigration (LockIdentifier BalanceLock)

theorem foldl_max_le_iff {l : List ℕ} : l.foldl max b ≤ n ↔ b ≤ n ∧ ∀ a ∈ l, a ≤ n := by
  induction l generalizing b with
  | nil => simp
  | cons a l hi => rw [List.foldl_cons, hi, Nat.max_le, List.forall_mem_cons, and_assoc]

theorem largest_le_iff : largest l ≤ n ↔ ∀ a ∈ l, a ≤ n :=
  foldl_max_le_iff.trans (and_iff_right (Nat.zero_le n))

theorem largest_eq_zero_iff : largest l = 0 ↔ ∀ a ∈ l, a = 0 := by
  rw [← Nat.le_zero, largest_le_iff]
  simp only [Nat.le_zero]

-- The data with which an account is left if its balance keeps them alive.
def AccountData.kept (c : Constants) (data : AccountData) : AccountData :=
  if data.free < c.existentialDeposit ∧ data.reserved = 0 then {} else data

def AccountData.freeze (frozen : ℕ) (data : AccountData) : AccountData :=
  { data with frozen }

def AccountData.upgrade (data : AccountData) : AccountData :=
  { data with isNewLogic := true }

-- The ways in which a mutation of the frozen amount can end for an account of the new logic.
inductive Mutated (c : Constants) (frozen : ℕ) (a : AccountInfo) : AccountInfo → Prop
  | refused (does : (a.data.freeze frozen).Consumes) (did : ¬a.data.Consumes ∨ a.consumers = 0)
      (h : a.providers = 0 ∨ c.maxConsumers ≤ a.consumers) : Mutated c frozen a a
  | gained (does : (a.data.freeze frozen).Consumes) (did : ¬a.data.Consumes ∨ a.consumers = 0)
      (hp : 0 < a.providers) (hl : a.consumers < c.maxConsumers) :
      Mutated c frozen a
        ({ a with consumers := a.consumers + 1 }.store ((a.data.freeze frozen).kept c))
  | released (does : ¬(a.data.freeze frozen).Consumes) (did : a.data.Consumes) :
      Mutated c frozen a
        ({ a with consumers := a.consumers - 1 }.store ((a.data.freeze frozen).kept c))
  | kept (does : (a.data.freeze frozen).Consumes ↔ a.data.Consumes)
      (did : a.data.Consumes → 0 < a.consumers) :
      Mutated c frozen a (a.store ((a.data.freeze frozen).kept c))

theorem incConsumers_cases (c : Constants) (a : AccountInfo) :
    (∃ error, a.incConsumers c = .error error ∧ (a.providers = 0 ∨ c.maxConsumers ≤ a.consumers)) ∨
    (a.incConsumers c = .ok { a with consumers := a.consumers + 1 } ∧ 0 < a.providers ∧
      a.consumers < c.maxConsumers) := by
  simp only [AccountInfo.incConsumers]
  split
  case isTrue hp =>
    split
    case isTrue hl  => exact .inr ⟨rfl, hp, hl⟩
    case isFalse hl => exact .inl ⟨_, rfl, .inr (Nat.le_of_not_lt hl)⟩
  case isFalse hp => exact .inl ⟨_, rfl, .inl (Nat.eq_zero_of_not_pos hp)⟩

namespace Entry

variable {c : Constants} {e : Entry} {frozen : ℕ}

theorem account_decConsumers :
    e.decConsumers.account = { e.account with consumers := e.account.consumers - 1 } := by
  simp only [decConsumers]
  split
  case isTrue => rfl
  case isFalse h =>
    have hsub : e.account.consumers = e.account.consumers - 1 := by omega
    exact congrArg (fun consumers => { e.account with consumers }) hsub

theorem freezes_mutateFrozen : (e.mutateFrozen c frozen).freezes = e.freezes := by
  have hdec (e : Entry) : e.decConsumers.freezes = e.freezes := by
    simp only [decConsumers]
    split <;> rfl
  simp only [mutateFrozen]
  split
  · split
    · rfl
    · split
      · split <;> rfl
      · rfl
  · split
    · exact hdec _
    · rfl

theorem mutated_mutateFrozen :
    Mutated c frozen (e.account.ensureUpgraded c) (e.mutateFrozen c frozen).account := by
  generalize ha : e.account.ensureUpgraded c = a
  -- New data do not consume, so that the first condition of `didConsume` is redundant.
  have hnew : (¬a.data = {} ∧ a.data.Consumes) ↔ a.data.Consumes := by
    refine and_iff_right_of_imp fun h he => ?_
    rw [he] at h
    exact h.elim (· rfl) (· rfl)
  simp only [mutateFrozen, data, ha, hnew]
  split
  case isTrue hdoes =>
    by_cases hdid : a.data.Consumes
    · rw [if_pos hdid]
      dsimp only
      split
      case isTrue hzero =>
        cases incConsumers_cases c a with
        | inl h =>
          obtain ⟨_, herr, h⟩ := h
          rw [herr]
          exact .refused hdoes (.inr hzero) h
        | inr h =>
          rw [h.1]
          exact .gained hdoes (.inr hzero) h.2.1 h.2.2
      case isFalse hpos =>
        exact .kept ⟨fun _ => hdid, fun _ => hdoes⟩ fun _ => Nat.pos_of_ne_zero hpos
    · rw [if_neg hdid]
      cases incConsumers_cases c a with
      | inl h =>
        obtain ⟨_, herr, h⟩ := h
        rw [herr]
        exact .refused hdoes (.inl hdid) h
      | inr h =>
        rw [h.1]
        dsimp only
        rw [if_neg (Nat.succ_ne_zero _)]
        exact .gained hdoes (.inl hdid) h.2.1 h.2.2
  case isFalse hdoes =>
    by_cases hdid : a.data.Consumes
    · rw [if_pos hdid]
      simp only [store, account_decConsumers]
      exact .released hdoes hdid
    · rw [if_neg hdid]
      exact .kept ⟨fun h => absurd h hdoes, fun h => absurd h hdid⟩ fun h => absurd h hdid

theorem mutated_removeLock {id : LockIdentifier} :
    Mutated c (e.removeLock c id).required (e.account.ensureUpgraded c)
      (e.removeLock c id).account := by
  have hr : (e.removeLock c id).required = { e with locks := e.locks.filter (·.id ≠ id) }.required := by
    simp only [required, removeLock, updateLocks, freezes_mutateFrozen]
  rw [hr]
  exact mutated_mutateFrozen

theorem locks_removeLock {id : LockIdentifier} :
    (e.removeLock c id).locks = e.locks.filter (·.id ≠ id) :=
  rfl

theorem freezes_removeLock {id : LockIdentifier} : (e.removeLock c id).freezes = e.freezes :=
  freezes_mutateFrozen

theorem required_le_iff :
    e.required ≤ n ↔ (∀ lock ∈ e.locks, lock.amount ≤ n) ∧ ∀ amount ∈ e.freezes, amount ≤ n := by
  simp only [required, largest_le_iff, List.mem_append, or_imp, forall_and, List.mem_map,
    forall_exists_index, and_imp, forall_apply_eq_imp_iff₂]

theorem required_removeLock_le {id : LockIdentifier} : (e.removeLock c id).required ≤ e.required := by
  obtain ⟨hl, hf⟩ := required_le_iff.mp (Nat.le_refl e.required)
  rw [required_le_iff, locks_removeLock, freezes_removeLock]
  exact ⟨fun lock h => hl lock (List.mem_of_mem_filter h), hf⟩

end Entry

section Repair

variable {c : Constants} {e : Entry} {id : LockIdentifier}

open ClearRewardsAndMigrationLocks

theorem addConsumerRefIfMissing_cases (e : Entry) :
    ((e.data.Consumes → 0 < e.account.consumers) ∧ addConsumerRefIfMissing e = e) ∨
    (e.data.Consumes ∧ e.account.consumers = 0 ∧
      addConsumerRefIfMissing e = { e with account := { e.account with consumers := 1 } }) := by
  simp only [addConsumerRefIfMissing]
  split
  case isTrue h =>
    exact .inl ⟨fun hc => h.resolve_right fun ⟨hf, hr⟩ => hc.elim (· hr) (· hf), rfl⟩
  case isFalse h =>
    have hz : e.account.consumers = 0 := Nat.eq_zero_of_not_pos fun hpos => h (.inl hpos)
    have hc : e.data.Consumes := by
      by_contra hc
      exact h (.inr ⟨not_not.mp fun hf => hc (.inr hf), not_not.mp fun hr => hc (.inl hr)⟩)
    refine .inr ⟨hc, hz, ?_⟩
    simp only [AccountInfo.incConsumersWithoutLimit, hz]
    split
    case h_1 heq =>
      split at heq <;> cases heq
      rfl
    case h_2 => rfl

@[simp]
theorem locks_addConsumerRefIfMissing : (addConsumerRefIfMissing e).locks = e.locks := by
  cases addConsumerRefIfMissing_cases e with
  | inl h => rw [h.2]
  | inr h => rw [h.2.2]

@[simp]
theorem freezes_addConsumerRefIfMissing : (addConsumerRefIfMissing e).freezes = e.freezes := by
  cases addConsumerRefIfMissing_cases e with
  | inl h => rw [h.2]
  | inr h => rw [h.2.2]

theorem locks_remove : (remove c id e).locks = e.locks.filter (·.id ≠ id) := by
  rw [remove, Entry.locks_removeLock, locks_addConsumerRefIfMissing]

theorem freezes_remove : (remove c id e).freezes = e.freezes := by
  rw [remove, Entry.freezes_removeLock, freezes_addConsumerRefIfMissing]

theorem required_remove_le : (remove c id e).required ≤ e.required := by
  have hr : (addConsumerRefIfMissing e).required = e.required := by simp [Entry.required]
  exact hr ▸ Entry.required_removeLock_le

end Repair

section Loops

variable {Acc : Type} [Ord Acc] [DecidableEq Acc] [Std.TransOrd Acc]
  [Std.LawfulEqOrd Acc] {c : Constants} {s : State Acc} {who : Acc}

namespace ClearRewardsAndMigrationLocks

theorem mem_rewards_iff : who ∈ (releasable s now).rewards ↔
    (∃ rewardId record, (rewardId, who, record) ∈ s.legacyLocks.distributor ∧
      record.isInitialized ∧ record.lockId = rewardsLockId ∧
      rewardId ∈ s.legacyLocks.initializeRewards) ∧ hasLock s who rewardsLockId := by
  simp only [releasable, Std.TreeSet.mem_ofList, List.contains_iff_mem, List.mem_map, List.mem_filter,
    Bool.and_eq_true, decide_eq_true_eq, Prod.exists]
  constructor
  · rintro ⟨rewardId, _, record, ⟨hm, ⟨⟨hi, hl⟩, hc⟩, hw⟩, heq⟩
    exact heq ▸ ⟨⟨rewardId, record, hm, hi, hl, hc⟩, hw⟩
  · rintro ⟨⟨rewardId, record, hm, hi, hl, hc⟩, hw⟩
    exact ⟨rewardId, who, record, ⟨hm, ⟨⟨hi, hl⟩, hc⟩, hw⟩, rfl⟩

theorem mem_pdexMigration_iff : who ∈ (releasable s now).pdexMigration ↔
    (s.legacyLocks.operational ∧ ∃ mintedAt, s.legacyLocks.lockedTokenHolders[who]? = some mintedAt ∧
      Word.saturatingAdd 32 mintedAt pdexMigrationLockPeriod ≤ now) ∧ hasLock s who pdexMigrationLockId := by
  simp only [releasable]
  split
  case isTrue ho =>
    simp only [Std.TreeSet.mem_ofList, List.contains_iff_mem, List.mem_map, List.mem_filter,
      Bool.and_eq_true, decide_eq_true_eq, Std.TreeMap.mem_toList_iff_getElem?_eq_some, Prod.exists]
    constructor
    · rintro ⟨_, mintedAt, ⟨hm, hn, hw⟩, heq⟩
      exact heq ▸ ⟨⟨ho, mintedAt, hm, hn⟩, hw⟩
    · rintro ⟨⟨_, mintedAt, hm, hn⟩, hw⟩
      exact ⟨who, mintedAt, ⟨hm, hn, hw⟩, rfl⟩
  case isFalse ho => simp [ho]

def released (s : State Acc) (who : Acc) : List LockIdentifier :=
  let found := releasable s s.blockNumber
  (if who ∈ found.rewards then [rewardsLockId] else []) ++
    (if who ∈ found.pdexMigration then [pdexMigrationLockId] else [])

theorem entries_onRuntimeUpgrade (hs : s.lastRuntimeUpgradeSpecVersion ≤ fromSpec) (who : Acc) :
    (onRuntimeUpgrade c s).entries who =
      (released s who).foldl (fun e id => remove c id e) (s.entries who) := by
  rw [onRuntimeUpgrade, if_neg (Nat.not_lt.mpr hs)]
  simp only [State.modifyAll, released]
  rw [Updates.foldl_modify_of_nodup _ (Trees.nodup_toList _),
    Updates.foldl_modify_of_nodup _ (Trees.nodup_toList _)]
  simp only [Std.TreeSet.mem_toList]
  split <;> split <;> rfl

end ClearRewardsAndMigrationLocks

end Loops

end Runtime
