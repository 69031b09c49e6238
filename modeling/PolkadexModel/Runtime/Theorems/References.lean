import PolkadexModel.Runtime.Theorems.Removal

open List

namespace Runtime

open PdexMigration (LockIdentifier BalanceLock)
open ClearRewardsAndMigrationLocks FixBalancesFrozen ClearOrmlVestingLocks

variable {c : Constants} {a a' : AccountInfo} {e : Entry} {others frozen : ℕ} {id : LockIdentifier}

-- The references that other pallets have put on an account are there, and the one of the balances
-- pallet if the balance consumes.
structure AccountInfo.Holds (others : ℕ) (a : AccountInfo) : Prop where
  others_le : others ≤ a.consumers
  own : a.data.Consumes → others < a.consumers
  provided : 0 < others → 0 < a.providers

theorem AccountData.consumes_of_kept {data : AccountData} (h : (data.kept c).Consumes) :
    data.Consumes := by
  simp only [kept] at h
  split at h
  · exact h.elim (absurd rfl) (absurd rfl)
  · exact h

namespace AccountInfo.Holds

theorem iff : a.Holds others ↔ others ≤ a.consumers ∧ (a.data.Consumes → others < a.consumers) ∧
    (0 < others → 0 < a.providers) where
  mp h  := ⟨h.others_le, h.own, h.provided⟩
  mpr h := ⟨h.1, h.2.1, h.2.2⟩

instance : Decidable (a.Holds others) :=
  decidable_of_iff' _ iff

theorem store {data : AccountData} (ho : others ≤ a.consumers)
    (hd : data.Consumes → others < a.consumers) (hp : 0 < others → 0 < a.providers) :
    (a.store data).Holds others := by
  simp only [AccountInfo.store]
  split
  case isTrue => exact ⟨ho, hd, hp⟩
  case isFalse h =>
    have hz : others = 0 := Nat.eq_zero_of_not_pos fun hpos => h (.inl (hp hpos))
    exact ⟨Nat.le_of_eq hz, fun hc => hc.elim (absurd rfl) (absurd rfl), fun hpos => absurd hz hpos.ne'⟩

theorem ensureUpgraded (h : a.Holds others) : (a.ensureUpgraded c).Holds others := by
  have hle : others ≤ a.consumers + 1 := Nat.le_succ_of_le h.others_le
  simp only [AccountInfo.ensureUpgraded]
  split
  · exact h
  · split
    · split
      · exact store hle (fun _ => Nat.lt_succ_of_le h.others_le) fun _ => Nat.one_pos
      · exact store hle (fun _ => Nat.lt_succ_of_le h.others_le) h.provided
    · exact store h.others_le h.own h.provided

theorem mutated (h : a.Holds others) (hm : Mutated c frozen a a') : a'.Holds others := by
  cases hm with
  | refused does did hr => exact h
  | gained does did hp hl =>
    exact store (Nat.le_succ_of_le h.others_le) (fun _ => Nat.lt_succ_of_le h.others_le) h.provided
  | released does did =>
    exact store (Nat.le_sub_one_of_lt (h.own did)) (fun hk => absurd (AccountData.consumes_of_kept hk) does)
      h.provided
  | kept does did =>
    exact store h.others_le (fun hk => h.own (does.mp (AccountData.consumes_of_kept hk))) h.provided

theorem removeLock (h : e.account.Holds others) : (e.removeLock c id).account.Holds others :=
  h.ensureUpgraded.mutated Entry.mutated_removeLock

end AccountInfo.Holds

theorem addConsumerRefIfMissing_eq (h : e.data.Consumes → 0 < e.account.consumers) :
    addConsumerRefIfMissing e = e :=
  ((addConsumerRefIfMissing_cases e).resolve_right fun hr => (h hr.1).ne' hr.2.1).2

-- The removal of a lock by one of the migrations. Only the later one repairs the counter before.
def Entry.release (c : Constants) (e : Entry) (id : LockIdentifier) : Entry :=
  if id = vestingLockId then e.removeLock c id else remove c id e

theorem Entry.release_eq (h : e.data.Consumes → 0 < e.account.consumers) :
    e.release c id = e.removeLock c id := by
  simp only [release, remove, addConsumerRefIfMissing_eq h, ite_self]

theorem AccountInfo.Holds.release (h : e.account.Holds others) : (e.release c id).account.Holds others := by
  rw [Entry.release_eq fun hc => Nat.zero_lt_of_lt (h.own hc)]
  exact h.removeLock

theorem Entry.required_release_le : (e.release c id).required ≤ e.required := by
  rw [release]
  split
  · exact required_removeLock_le
  · exact required_remove_le

theorem Entry.freezes_release : (e.release c id).freezes = e.freezes := by
  rw [release, apply_ite Entry.freezes, freezes_remove, freezes_removeLock, ite_self]

-- What the migrations should leave behind.
structure Entry.Referenced (others : ℕ) (e : Entry) : Prop where
  own : e.data.Consumes → 0 < e.account.providers → 0 < e.account.consumers
  others_le : others ≤ e.account.consumers

theorem AccountInfo.Holds.referenced (h : e.account.Holds others) : e.Referenced others :=
  ⟨fun hc _ => Nat.zero_lt_of_lt (h.own hc), h.others_le⟩

theorem Mutated.own (hl : 0 < c.maxConsumers) (hm : Mutated c frozen a a') (hc : a'.data.Consumes)
    (hp : 0 < a'.providers) : 0 < a'.consumers := by
  cases hm with
  | refused does did hr =>
    cases did with
    | inl h => exact absurd hc h
    | inr h => omega
  | gained does did hp' hl' =>
    rw [AccountInfo.store, if_pos (.inl hp')]
    exact Nat.succ_pos _
  | released does did =>
    simp only [AccountInfo.store] at hc
    split at hc
    · exact absurd (AccountData.consumes_of_kept hc) does
    · exact hc.elim (absurd rfl) (absurd rfl)
  | kept does did =>
    simp only [AccountInfo.store] at hc ⊢
    split
    case isTrue h =>
      rw [if_pos h] at hc
      exact did (does.mp (AccountData.consumes_of_kept hc))
    case isFalse h =>
      rw [if_neg h] at hc
      exact hc.elim (absurd rfl) (absurd rfl)

theorem Entry.own_release (hl : 0 < c.maxConsumers) (hc : (e.release c id).data.Consumes)
    (hp : 0 < (e.release c id).account.providers) : 0 < (e.release c id).account.consumers := by
  simp only [release] at hc hp ⊢
  split
  case isTrue h =>
    rw [if_pos h] at hc hp
    exact mutated_removeLock.own hl hc hp
  case isFalse h =>
    rw [if_neg h] at hc hp
    exact mutated_removeLock.own hl hc hp

theorem Entry.locks_foldl_release {ids : List LockIdentifier} :
    (ids.foldl (release c) e).locks = e.locks.filter (·.id ∉ ids) := by
  induction ids generalizing e with
  | nil => simp
  | cons id ids hi =>
    have hlocks : (e.release c id).locks = e.locks.filter (·.id ≠ id) := by
      rw [release, apply_ite Entry.locks, locks_remove, locks_removeLock, ite_self]
    rw [foldl_cons, hi, hlocks, filter_filter]
    refine filter_congr fun lock _ => ?_
    simp [Bool.and_comm]

theorem AccountInfo.ensureUpgraded_of_unreserved (hr : a.data.reserved = 0) (hp : 0 < a.providers) :
    a.ensureUpgraded c = { a with data := a.data.upgrade } := by
  simp only [ensureUpgraded]
  split
  case isTrue hn => rw [AccountData.upgrade, ← hn]
  case isFalse   => rw [if_neg fun h => h.1 hr, store, if_pos (.inl hp), AccountData.upgrade]

theorem AccountData.consumes_iff {data : AccountData} (hr : data.reserved = 0) :
    data.Consumes ↔ data.frozen ≠ 0 :=
  or_iff_right (not_not.mpr hr)

theorem Mutated.of_le (hm : Mutated c frozen a a') (hr : a.data.reserved = 0) (hp : 0 < a.providers)
    (hown : a.data.frozen ≠ 0 → 0 < a.consumers) (hle : frozen ≤ a.data.frozen) :
    a' = { a with
      data := (a.data.freeze frozen).kept c
      consumers := if frozen = 0 ∧ a.data.frozen ≠ 0 then a.consumers - 1 else a.consumers } := by
  have hdid := AccountData.consumes_iff hr
  have hdoes : (a.data.freeze frozen).Consumes ↔ frozen ≠ 0 := AccountData.consumes_iff hr
  -- The mutation neither gains a reference nor needs one that it does not get.
  have hkept (does : (a.data.freeze frozen).Consumes) : ¬(¬a.data.Consumes ∨ a.consumers = 0) := by
    have hpos : a.data.frozen ≠ 0 := fun h => hdoes.mp does (Nat.le_zero.mp (h ▸ hle))
    exact not_or_intro (not_not.mpr (hdid.mpr hpos)) (hown hpos).ne'
  cases hm with
  | refused does did hr   => exact absurd did (hkept does)
  | gained does did hp hl => exact absurd did (hkept does)
  | released does did =>
    rw [AccountInfo.store, if_pos (.inl hp),
      if_pos ⟨not_not.mp fun h => does (hdoes.mpr h), hdid.mp did⟩]
  | kept does did =>
    have hneg : ¬(frozen = 0 ∧ a.data.frozen ≠ 0) := fun h => hdoes.mp (does.mpr (hdid.mpr h.2)) h.1
    rw [AccountInfo.store, if_pos (.inl hp), if_neg hneg]

-- An account with nothing reserved that holds `n` references as long as something is frozen.
structure Entry.Tight (c : Constants) (n : ℕ) (e : Entry) : Prop where
  unreserved : e.data.reserved = 0
  alive : c.existentialDeposit ≤ e.data.free
  provided : 0 < e.account.providers
  frozen : e.data.frozen = e.required
  consumers : e.account.consumers = if e.data.frozen = 0 then n - 1 else n

namespace Entry.Tight

variable {n : ℕ}

theorem own (hn : 0 < n) (h : e.Tight c n) (hf : e.data.frozen ≠ 0) : 0 < e.account.consumers := by
  rwa [h.consumers, if_neg hf]

theorem release (hn : 0 < n) (h : e.Tight c n) : (e.release c id).Tight c n := by
  have hm : Mutated c _ _ (e.removeLock c id).account := mutated_removeLock
  have hle : (e.removeLock c id).required ≤ e.data.frozen := h.frozen ▸ required_removeLock_le
  rw [AccountInfo.ensureUpgraded_of_unreserved h.unreserved h.provided] at hm
  have ha := hm.of_le h.unreserved h.provided (h.own hn) hle
  have hk (frozen : ℕ) : (e.data.upgrade.freeze frozen).kept c = e.data.upgrade.freeze frozen :=
    if_neg fun hd => absurd hd.1 (Nat.not_lt.mpr h.alive)
  rw [hk] at ha
  have hfrozen : (e.removeLock c id).data.frozen = (e.removeLock c id).required :=
    congrArg (·.data.frozen) ha
  rw [release_eq fun hc => h.own hn ((AccountData.consumes_iff h.unreserved).mp hc)]
  refine ⟨?unreserved, ?alive, ?provided, hfrozen, ?consumers⟩
  case unreserved => exact (congrArg (·.data.reserved) ha).trans h.unreserved
  case alive      => exact h.alive.trans_eq (congrArg (·.data.free) ha).symm
  case provided   => exact h.provided.trans_eq (congrArg (·.providers) ha).symm
  case consumers =>
    have hc : (e.removeLock c id).account.consumers =
        if (e.removeLock c id).required = 0 ∧ e.data.frozen ≠ 0 then e.account.consumers - 1
        else e.account.consumers := congrArg (·.consumers) ha
    rw [hc, hfrozen, h.consumers]
    by_cases hz : e.data.frozen = 0
    · rw [if_neg fun hd => hd.2 hz, if_pos hz, if_pos (Nat.le_zero.mp (hz ▸ hle))]
    · simp only [hz, ne_eq, not_false_eq_true, and_true, if_false]

theorem foldl_release (hn : 0 < n) (h : e.Tight c n) (ids : List LockIdentifier) :
    (ids.foldl (Entry.release c) e).Tight c n := by
  induction ids generalizing e with
  | nil          => exact h
  | cons _ _ hi  => exact hi (h.release hn)

theorem referenced_iff (hn : 0 < n) (h : e.Tight c n) : e.Referenced n ↔ e.required ≠ 0 := by
  rw [← h.frozen]
  constructor
  · intro hr hz
    have hle := hr.others_le
    rw [h.consumers, if_pos hz] at hle
    omega
  · intro hf
    exact ⟨fun _ _ => h.own hn hf, by rw [h.consumers, if_neg hf]⟩

end Entry.Tight

theorem Mutated.of_new (hm : Mutated c frozen a a') (he : 0 < c.existentialDeposit) (hd : a.data = {})
    (hp : 0 < a.providers) : a'.data = {} ∧ 0 < a'.providers ∧ a.consumers ≤ a'.consumers ∧
      (frozen = 0 → a'.consumers = a.consumers) := by
  have hk : (a.data.freeze frozen).kept c = {} := by
    rw [hd]
    exact if_pos ⟨he, rfl⟩
  have hdoes : (a.data.freeze frozen).Consumes ↔ frozen ≠ 0 := by
    rw [hd]
    exact AccountData.consumes_iff rfl
  cases hm with
  | refused does did hr => exact ⟨hd, hp, Nat.le_refl _, fun _ => rfl⟩
  | gained does did _ hl =>
    rw [hk, AccountInfo.store, if_pos (.inl hp)]
    exact ⟨rfl, hp, Nat.le_succ _, fun hz => absurd hz (hdoes.mp does)⟩
  | released does did =>
    rw [hd] at did
    exact did.elim (absurd rfl) (absurd rfl)
  | kept does did =>
    rw [hk, AccountInfo.store, if_pos (.inl hp)]
    exact ⟨rfl, hp, Nat.le_refl _, fun _ => rfl⟩

-- An account whose data were dropped, because its balance does not keep them alive.
structure Entry.Dropped (e : Entry) : Prop where
  data : e.data = {}
  provided : 0 < e.account.providers

namespace Entry.Dropped

theorem release (he : 0 < c.existentialDeposit) (h : e.Dropped) (id : LockIdentifier) :
    (e.release c id).Dropped ∧
    e.account.consumers ≤ (e.release c id).account.consumers ∧
    ((e.release c id).required = 0 →
      (e.release c id).account.consumers = e.account.consumers) := by
  have hnot : ¬e.data.Consumes := h.data ▸ fun hc => hc.elim (absurd rfl) (absurd rfl)
  have hu : e.account.ensureUpgraded c = e.account := by
    rw [AccountInfo.ensureUpgraded, if_pos (congrArg (·.isNewLogic) h.data)]
  have hm : Mutated c _ _ (e.removeLock c id).account := mutated_removeLock
  rw [hu] at hm
  rw [release_eq fun hc => absurd hc hnot]
  obtain ⟨hd, hp, hle, hz⟩ := hm.of_new he h.data h.provided
  exact ⟨⟨hd, hp⟩, hle, hz⟩

theorem foldl_release (he : 0 < c.existentialDeposit) (h : e.Dropped) (ids : List LockIdentifier) :
    (ids.foldl (Entry.release c) e).Dropped ∧
    e.account.consumers ≤ (ids.foldl (Entry.release c) e).account.consumers ∧
    (e.required = 0 →
      (ids.foldl (Entry.release c) e).account.consumers = e.account.consumers) := by
  induction ids generalizing e with
  | nil => exact ⟨h, Nat.le_refl _, fun _ => rfl⟩
  | cons id ids hi =>
    obtain ⟨h', hle', hz'⟩ := h.release he id
    obtain ⟨h'', hle'', hz''⟩ := hi h'
    refine ⟨h'', hle'.trans hle'', fun hz => ?_⟩
    have hr : (e.release c id).required = 0 := Nat.le_zero.mp (hz ▸ required_release_le)
    exact (hz'' hr).trans (hz' hr)

end Entry.Dropped

def Entry.freeze (frozen : ℕ) (e : Entry) : Entry :=
  { e with account := { e.account with data := e.data.freeze frozen } }

-- An account with a lock which the balances pallet has not counted a reference for.
def Entry.Stale (e : Entry) : Prop :=
  ¬e.data.Consumes ∧ ∃ lock ∈ e.locks, lock.amount ≠ 0

instance : Decidable e.Stale :=
  inferInstanceAs (Decidable (_ ∧ _))

-- If there is no reference on the account, it gets one when a lock is removed. If there are some, they
-- stay as long as a lock does. A balance which does not keep the data alive only gets to the first removal.
def Entry.Covered (c : Constants) (ids : List LockIdentifier) (e : Entry) : Prop :=
  if e.account.consumers = 0 then ids ≠ [] ∨ e.account.providers = 0
  else ∃ lock ∈ e.locks, lock.amount ≠ 0 ∧
    lock.id ∉ if c.existentialDeposit ≤ e.data.free then ids else ids.take 1

instance {ids : List LockIdentifier} : Decidable (e.Covered c ids) :=
  inferInstanceAs (Decidable (ite ..))

theorem AccountInfo.Holds.foldl_release (h : e.account.Holds others) (ids : List LockIdentifier) :
    (ids.foldl (Entry.release c) e).account.Holds others := by
  induction ids generalizing e with
  | nil         => exact h
  | cons _ _ hi => exact hi h.release

theorem Entry.freezes_foldl_release {ids : List LockIdentifier} :
    (ids.foldl (release c) e).freezes = e.freezes := by
  induction ids generalizing e with
  | nil         => rfl
  | cons _ _ hi => rw [foldl_cons, hi, freezes_release]

theorem Entry.required_ne_zero_iff (hf : ∀ amount ∈ e.freezes, amount = 0) :
    e.required ≠ 0 ↔ ∃ lock ∈ e.locks, lock.amount ≠ 0 := by
  rw [← Nat.pos_iff_ne_zero, ← Nat.not_le, required_le_iff]
  simp only [Nat.le_zero]
  constructor
  · intro h
    by_contra hn
    exact h ⟨fun lock hl => by_contra fun ha => hn ⟨lock, hl, ha⟩, hf⟩
  · rintro ⟨lock, hl, ha⟩ h
    exact ha (h.1 lock hl)

theorem Entry.required_eq_largest (hf : ∀ amount ∈ e.freezes, amount = 0) :
    e.required = largest (e.locks.map (·.amount)) := by
  have hle := largest_le_iff.mp (Nat.le_refl (largest (e.locks.map (·.amount))))
  obtain ⟨hl, _⟩ := required_le_iff.mp (Nat.le_refl e.required)
  refine Nat.le_antisymm (required_le_iff.mpr ⟨?_, ?_⟩) (largest_le_iff.mpr ?_)
  · exact fun lock h => hle lock.amount (mem_map_of_mem h)
  · exact fun amount h => hf amount h ▸ Nat.zero_le _
  · intro amount h
    obtain ⟨lock, hm, ha⟩ := mem_map.mp h
    exact ha ▸ hl lock hm

namespace Entry.Stale

theorem freezes (h : e.Stale) (hf : ∀ amount ∈ e.freezes, amount ≤ e.data.frozen) :
    ∀ amount ∈ e.freezes, amount = 0 := by
  have hz : e.data.frozen = 0 := not_not.mp fun hne => h.1 (.inr hne)
  exact fun amount ha => Nat.le_zero.mp (hz ▸ hf amount ha)

theorem fixFrozen (h : e.Stale) (hf : ∀ amount ∈ e.freezes, amount ≤ e.data.frozen) :
    fixFrozen e = e.freeze e.required := by
  have hz : e.data.frozen = 0 := not_not.mp fun hne => h.1 (.inr hne)
  have hr := (required_ne_zero_iff (h.freezes hf)).mpr h.2
  simp only [FixBalancesFrozen.fixFrozen, ← required_eq_largest (h.freezes hf)]
  rw [if_neg hr, if_pos (hz ▸ Nat.pos_of_ne_zero hr)]
  rfl

end Entry.Stale

theorem Entry.consumes_of_fixFrozen (hc : (fixFrozen e).data.Consumes) :
    e.data.Consumes ∨ e.Stale := by
  by_cases h : e.data.Consumes
  · exact .inl h
  · refine .inr ⟨h, ?_⟩
    by_contra hn
    have hz : largest (e.locks.map (·.amount)) = 0 := largest_eq_zero_iff.mpr fun amount ha => by
      obtain ⟨lock, hm, ha⟩ := mem_map.mp ha
      exact not_not.mp fun hne => hn ⟨lock, hm, ha ▸ hne⟩
    simp only [fixFrozen, hz, if_true] at hc
    exact h hc

theorem Entry.account_fixFrozen : (fixFrozen e).account.consumers = e.account.consumers ∧
    (fixFrozen e).account.providers = e.account.providers := by
  simp only [fixFrozen]
  split
  · exact ⟨rfl, rfl⟩
  · split <;> exact ⟨rfl, rfl⟩

-- The first removal from an account whose balance does not keep its data alive.
theorem Entry.release_of_dead (e : Entry) (hr : e.data.reserved = 0) (hp : 0 < e.account.providers)
    (hc : 0 < e.account.consumers) (hq : e.data.frozen = e.required)
    (hd : e.data.free < c.existentialDeposit) (id : LockIdentifier) : (e.release c id).Dropped ∧
      (e.release c id).account.consumers =
        if (e.release c id).required = 0 ∧ e.data.frozen ≠ 0 then e.account.consumers - 1
        else e.account.consumers := by
  have hm : Mutated c _ _ (e.removeLock c id).account := mutated_removeLock
  rw [AccountInfo.ensureUpgraded_of_unreserved hr hp] at hm
  have ha := hm.of_le hr hp (fun _ => hc) (hq ▸ required_removeLock_le)
  have hk (frozen : ℕ) : (e.data.upgrade.freeze frozen).kept c = {} := if_pos ⟨hd, hr⟩
  rw [release_eq fun _ => hc]
  refine ⟨⟨(congrArg (·.data) ha).trans (hk _), ?_⟩, congrArg (·.consumers) ha⟩
  exact hp.trans_eq (congrArg (·.providers) ha).symm

theorem Entry.required_foldl_release_ne_zero_iff (hf : ∀ amount ∈ e.freezes, amount = 0)
    (ids : List LockIdentifier) : (ids.foldl (release c) e).required ≠ 0 ↔
      ∃ lock ∈ e.locks, lock.amount ≠ 0 ∧ lock.id ∉ ids := by
  have hf' : ∀ amount ∈ (ids.foldl (release c) e).freezes, amount = 0 := by rwa [freezes_foldl_release]
  rw [required_ne_zero_iff hf', locks_foldl_release]
  simp only [mem_filter, decide_eq_true_eq]
  exact exists_congr fun lock => ⟨fun h => ⟨h.1.1, h.2, h.1.2⟩, fun h => ⟨⟨h.1, h.2.2⟩, h.2.1⟩⟩

namespace Entry.Stale

variable {ids : List LockIdentifier}

theorem referenced_of_unreferenced (hl : 0 < c.maxConsumers) (h : e.Stale)
    (hf : ∀ amount ∈ e.freezes, amount ≤ e.data.frozen) (hz : e.account.consumers = 0) :
    (ids.foldl (Entry.release c) (FixBalancesFrozen.fixFrozen e)).Referenced e.account.consumers ↔
      ids ≠ [] ∨ e.account.providers = 0 := by
  rw [hz]
  cases eq_nil_or_concat ids with
  | inl hnil =>
    have hreq := (required_ne_zero_iff (h.freezes hf)).mpr h.2
    rw [hnil, foldl_nil, h.fixFrozen hf]
    constructor
    · intro hr
      refine .inr (Nat.eq_zero_of_not_pos fun hp => ?_)
      exact (hr.own (.inr hreq) hp).ne' hz
    · intro hor
      have hp := hor.resolve_left (not_not.mpr rfl)
      exact ⟨fun _ hpos => absurd hp hpos.ne', Nat.zero_le _⟩
  | inr hconcat =>
    obtain ⟨l, id, hl'⟩ := hconcat
    rw [hl', concat_eq_append, foldl_append]
    exact iff_of_true ⟨own_release hl, Nat.zero_le _⟩ (.inl (by simp))

theorem referenced_of_alive (h : e.Stale) (hf : ∀ amount ∈ e.freezes, amount ≤ e.data.frozen)
    (hc : 0 < e.account.consumers) (hp : 0 < e.account.providers)
    (ha : c.existentialDeposit ≤ e.data.free) :
    (ids.foldl (Entry.release c) (FixBalancesFrozen.fixFrozen e)).Referenced e.account.consumers ↔
      ∃ lock ∈ e.locks, lock.amount ≠ 0 ∧ lock.id ∉ ids := by
  have hreq := (required_ne_zero_iff (h.freezes hf)).mpr h.2
  rw [h.fixFrozen hf]
  have ht : (e.freeze e.required).Tight c e.account.consumers :=
    ⟨not_not.mp fun hne => h.1 (.inl hne), ha, hp, rfl, (if_neg hreq).symm⟩
  rw [(ht.foldl_release hc ids).referenced_iff hc]
  exact required_foldl_release_ne_zero_iff (e := e.freeze e.required) (h.freezes hf) ids

theorem referenced_of_dropped (h : e.Stale) (hf : ∀ amount ∈ e.freezes, amount ≤ e.data.frozen)
    (hc : 0 < e.account.consumers) (hp : 0 < e.account.providers)
    (hd : e.data.free < c.existentialDeposit) :
    (ids.foldl (Entry.release c) (FixBalancesFrozen.fixFrozen e)).Referenced e.account.consumers ↔
      ∃ lock ∈ e.locks, lock.amount ≠ 0 ∧ lock.id ∉ ids.take 1 := by
  have hreq := (required_ne_zero_iff (h.freezes hf)).mpr h.2
  have hr : e.data.reserved = 0 := not_not.mp fun hne => h.1 (.inl hne)
  rw [h.fixFrozen hf]
  cases ids with
  | nil =>
    obtain ⟨lock, hm, ha⟩ := h.2
    exact iff_of_true ⟨fun _ _ => hc, Nat.le_refl _⟩ ⟨lock, hm, ha, not_mem_nil⟩
  | cons id ids =>
    obtain ⟨hdropped, hcons⟩ := (e.freeze e.required).release_of_dead hr hp hc rfl hd id
    obtain ⟨hdrop, hle, hz⟩ := hdropped.foldl_release (Nat.zero_lt_of_lt hd) ids
    have hlocks := required_foldl_release_ne_zero_iff (c := c) (e := e.freeze e.required)
      (h.freezes hf) [id]
    rw [take_succ_cons, take_zero]
    refine Iff.trans ?_ hlocks
    constructor
    · intro href hzero
      have hlast := href.others_le
      rw [foldl_cons, hz hzero, hcons, if_pos ⟨hzero, hreq⟩] at hlast
      exact absurd hlast (Nat.not_le.mpr (Nat.sub_one_lt hc.ne'))
    · intro hne
      refine ⟨fun hcs => ?_, Nat.le_trans (Nat.le_of_eq ?_) hle⟩
      · exact absurd hcs (hdrop.data ▸ fun hcs => hcs.elim (absurd rfl) (absurd rfl))
      · rw [hcons, if_neg fun hzero => hne hzero.1]
        rfl

end Entry.Stale

theorem Entry.locks_fixFrozen : (fixFrozen e).locks = e.locks := by
  simp only [fixFrozen]
  split
  · rfl
  · split <;> rfl

theorem Entry.referenced_iff (hl : 0 < c.maxConsumers)
    (h : e.account.Holds others) (hf : ∀ amount ∈ e.freezes, amount ≤ e.data.frozen)
    (ids : List LockIdentifier) : (ids.foldl (release c) (fixFrozen e)).Referenced others ↔
      (e.Stale → others = e.account.consumers → e.Covered c ids) := by
  obtain ⟨hcons, hprov⟩ := e.account_fixFrozen
  by_cases hs : e.Stale ∧ others = e.account.consumers
  case neg =>
    have hfix : (fixFrozen e).account.Holds others := by
      refine ⟨hcons ▸ h.others_le, fun hc => ?_, hprov ▸ h.provided⟩
      rw [hcons]
      cases consumes_of_fixFrozen hc with
      | inl hc    => exact h.own hc
      | inr stale => exact Nat.lt_of_le_of_ne h.others_le fun heq => hs ⟨stale, heq⟩
    exact iff_of_true (hfix.foldl_release ids).referenced fun stale heq => absurd ⟨stale, heq⟩ hs
  case pos =>
    obtain ⟨stale, heq⟩ := hs
    simp only [stale, heq, true_imp_iff]
    rw [Covered]
    split
    case isTrue hz => exact stale.referenced_of_unreferenced hl hf hz
    case isFalse hpos =>
      have hc : 0 < e.account.consumers := Nat.pos_of_ne_zero hpos
      have hp : 0 < e.account.providers := h.provided (heq ▸ hc)
      split
      case isTrue ha  => exact stale.referenced_of_alive hf hc hp ha
      case isFalse hd => exact stale.referenced_of_dropped hf hc hp (Nat.lt_of_not_le hd)

section Sequence

variable {Acc : Type} [Ord Acc] [DecidableEq Acc] [Decode Acc]
  {s : State Acc} {who : Acc}

omit [Decode Acc] in
theorem entries_fixBalancesFrozen (hs : s.lastRuntimeUpgradeSpecVersion ≤ fromSpec) (keys : LockKeys s)
    (who : Acc) :
    (FixBalancesFrozen.onRuntimeUpgrade s keys).entries who = fixFrozen (s.entries who) := by
  rw [FixBalancesFrozen.onRuntimeUpgrade, if_neg (Nat.not_lt.mpr hs)]
  simp only [State.modifyAll]
  rw [Updates.foldl_modify_of_nodup _ keys.nodup]
  split
  case isTrue => rfl
  case isFalse h =>
    have hnil : (s.entries who).locks = [] := not_not.mp fun hne => h ((keys.mem_toList who).mpr hne)
    simp only [fixFrozen, hnil, map_nil]
    rfl

theorem entries_clearOrmlVestingLocks (hs : s.lastRuntimeUpgradeSpecVersion ≤ fromSpec)
    (who : Acc) : (ClearOrmlVestingLocks.onRuntimeUpgrade c s).entries who =
      (List.replicate ((accounts s).count who) vestingLockId).foldl (Entry.release c)
        (s.entries who) := by
  rw [ClearOrmlVestingLocks.onRuntimeUpgrade, if_neg (Nat.not_lt.mpr hs)]
  simp only [State.modifyAll]
  rw [Updates.foldl_modify_apply]
  generalize (accounts s).count who = n
  generalize s.entries who = e
  induction n generalizing e with
  | zero => rfl
  | succ n hi => rw [Function.iterate_succ_apply, hi, replicate_succ, foldl_cons,
      Entry.release, if_pos rfl]

-- The locks that the migrations remove from an account, in their order.
def releases (s : State Acc) (who : Acc) : List LockIdentifier :=
  List.replicate ((accounts s).count who) vestingLockId ++ released s who

variable [Std.TransOrd Acc] [Std.LawfulEqOrd Acc]

omit [Decode Acc] in
theorem released_congr (hl : s'.legacyLocks = s.legacyLocks) (hn : s'.blockNumber = s.blockNumber)
    (hw : ∀ id, id ≠ vestingLockId → hasLock s' who id = hasLock s who id) :
    released s' who = released s who := by
  have hr : who ∈ (releasable s' s'.blockNumber).rewards ↔ who ∈ (releasable s s.blockNumber).rewards := by
    rw [mem_rewards_iff, mem_rewards_iff, hl, hw _ (by decide)]
  have hp : who ∈ (releasable s' s'.blockNumber).pdexMigration ↔
      who ∈ (releasable s s.blockNumber).pdexMigration := by
    rw [mem_pdexMigration_iff, mem_pdexMigration_iff, hl, hn, hw _ (by decide)]
  simp only [released, hr, hp]

omit [DecidableEq Acc] [Decode Acc] [Std.TransOrd Acc]
  [Std.LawfulEqOrd Acc] in
theorem foldl_remove_released : (released s who).foldl (fun e id => remove c id e) e =
    (released s who).foldl (Entry.release c) e := by
  refine foldl_ext _ _ _ fun e id h => ?_
  have hne : id ≠ vestingLockId := by
    simp only [released, mem_append] at h
    cases h with
    | inl h =>
      split at h
      · rw [mem_singleton.mp h]
        decide
      · cases h
    | inr h =>
      split at h
      · rw [mem_singleton.mp h]
        decide
      · cases h
  rw [Entry.release, if_neg hne]

theorem entries_migrate (hs : s.lastRuntimeUpgradeSpecVersion ≤ fromSpec) (keys : LockKeys s)
    (who : Acc) : (migrate c s keys).entries who =
      (releases s who).foldl (Entry.release c) (fixFrozen (s.entries who)) := by
  have hfix : FixBalancesFrozen.onRuntimeUpgrade s keys = s.modifyAll fixFrozen keys.toList :=
    if_neg (Nat.not_lt.mpr hs)
  have hfixed := entries_fixBalancesFrozen hs keys who
  have hvested := entries_clearOrmlVestingLocks (c := c) (s := s.modifyAll fixFrozen keys.toList) hs who
  have hclear : ClearOrmlVestingLocks.onRuntimeUpgrade c (s.modifyAll fixFrozen keys.toList) = _ :=
    if_neg (Nat.not_lt.mpr hs)
  rw [hfix] at hfixed
  have hlocks (id : LockIdentifier) (hne : id ≠ vestingLockId) :
      hasLock (ClearOrmlVestingLocks.onRuntimeUpgrade c (s.modifyAll fixFrozen keys.toList)) who id =
        hasLock s who id := by
    simp only [hasLock, hvested, hfixed, Entry.locks_foldl_release, Entry.locks_fixFrozen,
      any_filter]
    refine congrArg ((s.entries who).locks.any ·) (funext fun lock => ?_)
    by_cases heq : lock.id = id
    · have hn : lock.id ∉ replicate ((accounts (s.modifyAll fixFrozen keys.toList)).count who)
          vestingLockId := fun hm => hne (heq ▸ eq_of_mem_replicate hm)
      rw [decide_eq_true hn, Bool.true_and]
    · rw [decide_eq_false heq, Bool.and_false]
  rw [migrate, hfix, entries_onRuntimeUpgrade (hclear ▸ hs), foldl_remove_released, hvested, hfixed,
    releases, foldl_append, released_congr (s := s) (by rw [hclear]; rfl) (by rw [hclear]; rfl) hlocks]
  rfl

-- What the balances pallet keeps true about its accounts, except that locks may not be frozen. The first
-- parameter says how many references other pallets have put on an account.
structure State.Sound (others : Acc → ℕ) (s : State Acc) : Prop where
  freezes : ∀ who, ∀ amount ∈ (s.entries who).freezes, amount ≤ (s.entries who).data.frozen
  references : ∀ who, (s.entries who).account.Holds (others who)

end Sequence

namespace Mock

abbrev Account := Fin 4

instance : Decode Account where
  decode bytes := bytes.head?.bind fun byte => if h : byte.toNat < 4 then some ⟨_, h⟩ else none

def pdex (n : ℕ) : ℕ :=
  n * 10 ^ 12

def stakingLockId : LockIdentifier :=
  "staking "

def locked (id : LockIdentifier) (frozen consumers : ℕ) : Entry where
  account := { consumers, providers := 1, data := { free := pdex 5, frozen } }
  locks := [⟨id, pdex 1⟩]

-- Account 3 was reaped, and only its lock is left.
def reaped : Entry where
  locks := [⟨pdexMigrationLockId, pdex 1⟩]

-- The first account has a vesting schedule, and the third one a record of the token migration.
def stateOf (entries : Account → Entry) : State Account where
  entries := entries
  totalIssuance := pdex 20
  blockNumber := 13204429
  lastRuntimeUpgradeSpecVersion := 373
  legacyLocks :=
    { initializeRewards := []
      distributor := []
      operational := true
      lockedTokenHolders := .ofList [((3 : Account), (624538 : BlockNumber))] }
  ormlVesting := [schedulesPrefix ++ List.replicate 48 0]

-- The session pallet has put a reference on the first account.
def session : Account → ℕ
  | 0 => 1
  | _ => 0

def frozenLocks : State Account :=
  stateOf fun
    | 0 => locked vestingLockId (pdex 1) 2
    | 1 => locked stakingLockId (pdex 1) 1
    | 2 => {}
    | 3 => reaped

def staleLocks : State Account :=
  stateOf fun
    | 0 => locked vestingLockId 0 1
    | 1 => locked stakingLockId 0 0
    | 2 => {}
    | 3 => reaped

def frozenKeys : LockKeys frozenLocks :=
  ⟨[1, 3, 0], by decide, by decide⟩

def staleKeys : LockKeys staleLocks :=
  ⟨[1, 3, 0], by decide, by decide⟩

theorem sound_frozenLocks : frozenLocks.Sound session :=
  ⟨by decide, by decide⟩

theorem sound_staleLocks : staleLocks.Sound session :=
  ⟨by decide, by decide⟩

end Mock

end Runtime
