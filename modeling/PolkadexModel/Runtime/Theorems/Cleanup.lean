import PolkadexModel.Runtime.RawStorage
import PolkadexModel.Runtime.Theorems.Release
import Mathlib.Data.UInt

open Function

namespace Runtime

open PdexMigration (LockIdentifier BalanceLock)

section Entries

variable {c : Constants} {a a' : AccountInfo} {e e' e'' : Entry} {frozen : ℕ} {id : LockIdentifier}

theorem AccountInfo.isNewLogic_store {data : AccountData} (h : data.isNewLogic = true) :
    (a.store data).data.isNewLogic = true := by
  simp only [AccountInfo.store]
  split
  case isTrue  => exact h
  case isFalse => rfl

theorem AccountInfo.isNewLogic_ensureUpgraded : (a.ensureUpgraded c).data.isNewLogic = true := by
  simp only [AccountInfo.ensureUpgraded]
  split
  case isTrue h => exact h
  case isFalse =>
    split
    case isFalse => exact isNewLogic_store rfl
    case isTrue  => split <;> exact isNewLogic_store rfl

theorem AccountData.isNewLogic_kept {data : AccountData} (h : data.isNewLogic = true) :
    (data.kept c).isNewLogic = true := by
  simp only [AccountData.kept]
  split
  case isTrue  => rfl
  case isFalse => exact h

theorem Mutated.isNewLogic (h : Mutated c frozen a a') (hn : a.data.isNewLogic = true) :
    a'.data.isNewLogic = true := by
  cases h with
  | refused  => exact hn
  | gained   => exact AccountInfo.isNewLogic_store (AccountData.isNewLogic_kept hn)
  | released => exact AccountInfo.isNewLogic_store (AccountData.isNewLogic_kept hn)
  | kept     => exact AccountInfo.isNewLogic_store (AccountData.isNewLogic_kept hn)

namespace Entry

def unlock (c : Constants) (id : LockIdentifier) (e : Entry) : Entry :=
  { e.removeLock c id with log := [] }

structure SameBalances (e e' : Entry) : Prop where
  free : e'.data.free = e.data.free
  reserved : e'.data.reserved = e.data.reserved

theorem SameBalances.trans (h : e.SameBalances e') (h' : e'.SameBalances e'') : e.SameBalances e'' where
  free := h'.free.trans h.free
  reserved := h'.reserved.trans h.reserved

-- The accounts whose balances are left by the removal of a lock.
def Safe (c : Constants) (id : LockIdentifier) (e : Entry) : Prop :=
  (e.account.Lacks → e.data.free ≠ 0) ∧
  (¬e.account.Lacks → e.account.Alive ∨ (e.data.free = 0 ∧ e.data.reserved = 0) ∨ e.Refuses c id)

instance : Decidable (e.Safe c id) :=
  inferInstanceAs (Decidable (_ ∧ _))

theorem isNewLogic_removeLock : (e.removeLock c id).data.isNewLogic = true :=
  mutated_removeLock.isNewLogic AccountInfo.isNewLogic_ensureUpgraded

theorem sameBalances_removeLock_of_alive (hd : e.data.free = 0 ∨ c.existentialDeposit ≤ e.data.free)
    (h : e.account.Alive) (hn : ¬e.account.Lacks) (id : LockIdentifier) :
    e.SameBalances (e.removeLock c id) := by
  cases account_removeLock_of_alive (c := c) h hn id with
  | inl hs =>
    obtain ⟨n, ha, -⟩ := hs
    have hdata := congrArg (·.data) ha
    by_cases hdrop : e.data.free < c.existentialDeposit ∧ e.data.reserved = 0
    case pos =>
      have hdata : (e.removeLock c id).data = {} := hdata.trans (if_pos hdrop)
      have hfree : e.data.free = 0 := hd.resolve_right (Nat.not_le.mpr hdrop.1)
      exact ⟨by rw [hdata, hfree], by rw [hdata, hdrop.2]⟩
    case neg =>
      have hdata : (e.removeLock c id).data = _ := hdata.trans (if_neg hdrop)
      exact ⟨by rw [hdata]; rfl, by rw [hdata]; rfl⟩
  | inr hr =>
    obtain ⟨-, -, -, ha⟩ := hr
    have hdata : (e.removeLock c id).data = e.data.upgrade := congrArg (·.data) ha
    exact ⟨by rw [hdata]; rfl, by rw [hdata]; rfl⟩

theorem sameBalances_unlock_iff (he : 0 < c.existentialDeposit)
    (hd : e.data.free = 0 ∨ c.existentialDeposit ≤ e.data.free) :
    e.SameBalances (e.unlock c id) ↔ e.Safe c id := by
  have hdata : (e.unlock c id).data = (e.removeLock c id).data := rfl
  by_cases hl : e.account.Lacks
  case pos =>
    rw [Safe, and_iff_left fun hn => absurd hl hn, imp_iff_right hl]
    have ha := account_removeLock_of_lacks (c := c) hl id
    have hfree : (e.unlock c id).data.free = max e.data.free c.existentialDeposit :=
      congrArg (·.data.free) ha
    have hreserved : (e.unlock c id).data.reserved = e.data.reserved := congrArg (·.data.reserved) ha
    constructor
    case mp =>
      intro hs hz
      have hmax := hfree.symm.trans hs.free
      omega
    case mpr =>
      intro hne
      exact ⟨hfree.trans (Nat.max_eq_left (hd.resolve_left hne)), hreserved⟩
  case neg =>
    rw [Safe, and_iff_right fun hn => absurd hn hl, imp_iff_right hl]
    by_cases halive : e.account.Alive
    case pos =>
      have hs := sameBalances_removeLock_of_alive hd halive hl id
      exact iff_of_true ⟨hs.free, hs.reserved⟩ (.inl halive)
    case neg =>
      rw [or_iff_right halive]
      by_cases hr : e.Refuses c id
      case pos =>
        have ha : (e.removeLock c id).data = e.data := congrArg (·.data) (account_removeLock_of_refuses hr)
        exact iff_of_true ⟨by rw [hdata, ha], by rw [hdata, ha]⟩ (.inr hr)
      case neg =>
        have ha : (e.removeLock c id).data = {} :=
          congrArg (·.data) (account_removeLock_of_not_alive halive hl hr)
        rw [or_iff_left hr]
        constructor
        case mp =>
          intro hs
          exact ⟨hs.free.symm.trans (by rw [hdata, ha]), hs.reserved.symm.trans (by rw [hdata, ha])⟩
        case mpr =>
          rintro ⟨hfree, hreserved⟩
          exact ⟨by rw [hdata, ha, hfree], by rw [hdata, ha, hreserved]⟩

theorem locks_unlock : (e.unlock c id).locks = e.locks.filter (·.id ≠ id) :=
  rfl

theorem freezes_unlock : (e.unlock c id).freezes = e.freezes :=
  freezes_removeLock

theorem required_removeLock_unlock :
    ((e.unlock c id).removeLock c id).required = (e.removeLock c id).required := by
  simp only [required, locks_removeLock, freezes_removeLock, locks_unlock, freezes_unlock,
    List.filter_filter, Bool.and_self]

theorem safe_unlock (hd : e.data.free = 0 ∨ c.existentialDeposit ≤ e.data.free) (id : LockIdentifier) :
    (e.unlock c id).Safe c id ∧
      ((e.unlock c id).data.free = 0 ∨ c.existentialDeposit ≤ (e.unlock c id).data.free) := by
  have hnew : (e.unlock c id).data.isNewLogic = true := isNewLogic_removeLock
  have hnot : ¬(e.unlock c id).account.Lacks := fun hl => Bool.false_ne_true (hl.1.symm.trans hnew)
  rw [Safe, and_iff_right fun hn => absurd hn hnot, imp_iff_right hnot]
  by_cases hl : e.account.Lacks
  case pos =>
    have ha := account_removeLock_of_lacks (c := c) hl id
    have hproviders : (e.unlock c id).account.providers = 1 := congrArg (·.providers) ha
    have hfree : (e.unlock c id).data.free = max e.data.free c.existentialDeposit :=
      congrArg (·.data.free) ha
    exact ⟨.inl (.inl (hproviders ▸ Nat.one_pos)), .inr (hfree ▸ Nat.le_max_right ..)⟩
  case neg =>
    by_cases halive : e.account.Alive
    case pos =>
      have hs := sameBalances_removeLock_of_alive hd halive hl id
      refine ⟨.inl ?_, hs.free ▸ hd⟩
      cases account_removeLock_of_alive (c := c) halive hl id with
      | inl h =>
        obtain ⟨n, ha, -⟩ := h
        rw [unlock, ha]
        exact halive
      | inr h =>
        obtain ⟨-, -, -, ha⟩ := h
        rw [unlock, ha]
        exact halive
    case neg =>
      by_cases hr : e.Refuses c id
      case pos =>
        have ha : (e.unlock c id).account = e.account := account_removeLock_of_refuses hr
        have hdata : (e.unlock c id).data = e.data := congrArg (·.data) ha
        refine ⟨.inr (.inr ?_), by rwa [hdata]⟩
        obtain ⟨-, does, did, -⟩ := hr
        have hp : e.account.providers = 0 := Nat.eq_zero_of_not_pos fun hp => halive (.inl hp)
        refine ⟨hnew, ?_, ?_, .inl (by rw [ha]; exact hp)⟩
        · rwa [required_removeLock_unlock, hdata]
        · rwa [hdata, ha]
      case neg =>
        have hdata : (e.unlock c id).data = {} :=
          congrArg (·.data) (account_removeLock_of_not_alive halive hl hr)
        exact ⟨.inr (.inl ⟨by rw [hdata], by rw [hdata]⟩), .inl (by rw [hdata])⟩

-- The loop gets to an account once for every key that names it.
theorem sameBalances_iterate_iff (he : 0 < c.existentialDeposit)
    (hd : e.data.free = 0 ∨ c.existentialDeposit ≤ e.data.free) (n : ℕ) :
    e.SameBalances ((unlock c id)^[n + 1] e) ↔ e.Safe c id := by
  induction n generalizing e with
  | zero => exact sameBalances_unlock_iff he hd
  | succ n hi =>
    obtain ⟨hsafe, hd'⟩ := safe_unlock hd id
    have hrest := (hi hd').mpr hsafe
    rw [iterate_succ_apply, ← sameBalances_unlock_iff he hd]
    constructor
    case mp  => exact fun h => ⟨hrest.free.symm.trans h.free, hrest.reserved.symm.trans h.reserved⟩
    case mpr => exact fun h => h.trans hrest

theorem account_eq_default (hr : ¬e.Refuses c id) (hn : ¬(e.removeLock c id).account.Alive) :
    (e.removeLock c id).account = {} := by
  by_cases hl : e.account.Lacks
  case pos =>
    rw [account_removeLock_of_lacks hl] at hn
    exact absurd (.inl Nat.one_pos) hn
  case neg =>
    by_cases halive : e.account.Alive
    case pos =>
      cases account_removeLock_of_alive (c := c) halive hl id with
      | inl hs =>
        obtain ⟨n, ha, -⟩ := hs
        rw [ha] at hn
        exact absurd halive hn
      | inr hs =>
        obtain ⟨-, -, -, ha⟩ := hs
        rw [ha] at hn
        exact absurd halive hn
    case neg => exact account_removeLock_of_not_alive halive hl hr

theorem locks_iterate (n : ℕ) : ((unlock c id)^[n + 1] e).locks = e.locks.filter (·.id ≠ id) := by
  induction n generalizing e with
  | zero => rfl
  | succ n hi =>
    rw [iterate_succ_apply, hi, locks_unlock]
    simp only [List.filter_filter, Bool.and_self]

end Entry

end Entries

namespace RawStorage

attribute [local instance] byteOrder

open ClearOrmlVestingLocks (palletPrefix schedulesPrefix vestingLockId account)

variable {Acc V : Type} [Decode Acc] {L : Layout Acc V} {c : Constants} {s s' : KeyStore Key V}
  {who who' : Acc} {id : LockIdentifier} {key key' : Key}

theorem append_ne (hlen : p.length = q.length) (hne : p ≠ q) (t u : Key) : p ++ t ≠ q ++ u :=
  fun h => hne (List.append_inj_left h hlen)

theorem mapKey_inj (hlen : map.length = map'.length)
    (h : mapKey L map who = mapKey L map' who') : map = map' ∧ who = who' := by
  obtain ⟨hmap, hrest⟩ := List.append_inj h hlen
  obtain ⟨-, hcode⟩ := List.append_inj hrest ((L.length_blake2 _).trans (L.length_blake2 _).symm)
  have hdecode := L.decode_encode who
  rw [hcode, L.decode_encode] at hdecode
  exact ⟨hmap, (Option.some.inj hdecode).symm⟩

-- The keys that the removal of a lock writes.
def Written (L : Layout Acc V) (who : Acc) (key : Key) : Prop :=
  key = accountKey L who ∨ key = locksKey L who ∨ key ∈ eventKeys L

theorem accountKey_ne_locksKey : accountKey L who ≠ locksKey L who' := by
  have hlen : (systemPrefix ++ accountItem).length = (balancesPrefix ++ locksItem).length := rfl
  exact fun h => absurd (mapKey_inj hlen h).1 (by decide)

theorem freezesKey_ne_locksKey : freezesKey L who ≠ locksKey L who' := by
  have hlen : (balancesPrefix ++ L.freezesItem).length = (balancesPrefix ++ locksItem).length := by
    rw [List.length_append, L.length_freezesItem]
    rfl
  exact fun h => L.freezesItem_ne (List.append_cancel_left (mapKey_inj hlen h).1)

theorem freezesKey_ne_accountKey : freezesKey L who ≠ accountKey L who' := by
  rw [freezesKey, accountKey, mapKey, mapKey, List.append_assoc, List.append_assoc]
  exact append_ne (p := balancesPrefix) (q := systemPrefix) rfl (by decide) _ _

theorem accountKey_not_mem_eventKeys : accountKey L who ∉ eventKeys L := by
  intro h
  obtain ⟨item, hitem, heq⟩ := List.mem_map.mp h
  rw [accountKey, mapKey, List.append_assoc] at heq
  obtain ⟨-, heq⟩ := List.append_inj heq rfl
  rw [← List.append_nil item] at heq
  exact append_ne (L.length_eventItem item hitem) (L.eventItem_ne item hitem) _ _ heq

theorem mapKey_not_mem_eventKeys (item : Key) : mapKey L (balancesPrefix ++ item) who ∉ eventKeys L := by
  intro h
  obtain ⟨item, -, heq⟩ := List.mem_map.mp h
  rw [mapKey, List.append_assoc] at heq
  exact append_ne (p := systemPrefix) (q := balancesPrefix) rfl (by decide) _ _ heq

theorem not_isPrefix_append (hlen : palletPrefix.length = q.length) (hne : palletPrefix ≠ q)
    (t : Key) : ¬palletPrefix <+: q ++ t := by
  rintro ⟨u, h⟩
  exact append_ne hlen hne u t h

theorem not_isPrefix_of_written (h : Written L who key) : ¬palletPrefix <+: key := by
  obtain rfl | rfl | h := h
  · rw [accountKey, mapKey, List.append_assoc]
    exact not_isPrefix_append (q := systemPrefix) rfl (by decide) _
  · rw [locksKey, mapKey, List.append_assoc]
    exact not_isPrefix_append (q := balancesPrefix) rfl (by decide) _
  · obtain ⟨item, -, rfl⟩ := List.mem_map.mp h
    exact not_isPrefix_append (q := systemPrefix) rfl (by decide) _

theorem get_removeLock_of_not_written (h : ¬Written L who key) :
    (removeLock L c id s who).get key = s.get key := by
  obtain ⟨haccount, hlocks, hevents⟩ : key ≠ accountKey L who ∧ key ≠ locksKey L who ∧ key ∉ eventKeys L := by
    simpa only [Written, not_or] using h
  rw [removeLock, putEvents, KeyStore.get_foldl_set hevents, putLocks, KeyStore.get_set_of_ne hlocks]
  split
  case isTrue  => rfl
  case isFalse => exact KeyStore.get_set_of_ne haccount ..

theorem locksKey_not_mem_eventKeys : locksKey L who ∉ eventKeys L :=
  mapKey_not_mem_eventKeys locksItem

theorem not_written_freezesKey : ¬Written L who (freezesKey L who') := by
  rintro (h | h | h)
  · exact freezesKey_ne_accountKey h
  · exact freezesKey_ne_locksKey h
  · exact mapKey_not_mem_eventKeys _ h

theorem entry_removeLock_of_ne (h : who' ≠ who) : entry L (removeLock L c id s who) who' = entry L s who' := by
  have haccount : ¬Written L who (accountKey L who') := by
    rintro (heq | heq | heq)
    · exact h (mapKey_inj rfl heq).2
    · exact accountKey_ne_locksKey heq
    · exact accountKey_not_mem_eventKeys heq
  have hlocks : ¬Written L who (locksKey L who') := by
    rintro (heq | heq | heq)
    · exact accountKey_ne_locksKey heq.symm
    · exact h (mapKey_inj rfl heq).2
    · exact locksKey_not_mem_eventKeys heq
  rw [entry, get_removeLock_of_not_written haccount, get_removeLock_of_not_written hlocks,
    get_removeLock_of_not_written not_written_freezesKey]
  rfl

theorem account_entry_removeLock :
    (entry L (removeLock L c id s who) who).account = ((entry L s who).removeLock c id).account := by
  by_cases hr : (entry L s who).Refuses c id
  case pos =>
    have hget : (removeLock L c id s who).get (accountKey L who) = s.get (accountKey L who) := by
      rw [removeLock, if_pos hr, putEvents, KeyStore.get_foldl_set accountKey_not_mem_eventKeys, putLocks,
        KeyStore.get_set_of_ne accountKey_ne_locksKey]
    rw [Entry.account_removeLock_of_refuses hr, entry, hget]
    rfl
  case neg =>
    have hget : (removeLock L c id s who).get (accountKey L who) =
        if ((entry L s who).removeLock c id).account.Alive then
          some (L.putAccount (s.get (accountKey L who)) ((entry L s who).removeLock c id).account)
        else none := by
      rw [removeLock, if_neg hr, putEvents, KeyStore.get_foldl_set accountKey_not_mem_eventKeys, putLocks,
        KeyStore.get_set_of_ne accountKey_ne_locksKey, putAccount, KeyStore.get_set_self]
      rfl
    rw [entry, hget]
    split
    case isTrue => rw [Option.bind_some, L.account_putAccount, Option.getD_some]
    case isFalse halive => exact (Entry.account_eq_default hr halive).symm

theorem locks_entry_removeLock :
    (entry L (removeLock L c id s who) who).locks = ((entry L s who).removeLock c id).locks := by
  have hget : (removeLock L c id s who).get (locksKey L who) =
      if ((entry L s who).removeLock c id).locks = [] then none
      else some (L.putLocks ((entry L s who).removeLock c id).locks) := by
    rw [removeLock, putEvents, KeyStore.get_foldl_set locksKey_not_mem_eventKeys, putLocks,
      KeyStore.get_set_self]
  rw [entry, hget]
  split
  case isTrue hnil => exact hnil.symm
  case isFalse => rw [Option.bind_some, L.locks_putLocks, Option.getD_some]

theorem entry_removeLock : entry L (removeLock L c id s who) who = (entry L s who).unlock c id := by
  have hfreezes : (entry L (removeLock L c id s who) who).freezes =
      ((entry L s who).removeLock c id).freezes := by
    rw [Entry.freezes_removeLock, entry, get_removeLock_of_not_written not_written_freezesKey]
    rfl
  rw [Entry.unlock, ← account_entry_removeLock, ← locks_entry_removeLock, ← hfreezes]
  rfl

section Loop

theorem get_visit (h : ∀ who, account key = some who → ¬Written L who key') :
    (visit L c s key).get key' = s.get key' := by
  rw [visit]
  cases ha : (account key : Option Acc) with
  | none => rfl
  | some who => exact get_removeLock_of_not_written (h who ha)

theorem walks : KeyStore.Walks (schedulesPrefix.isPrefixOf ·) (visit L c) schedulesPrefix where
  interval a b ha hab hb := by
    rw [List.isPrefixOf_iff_prefix] at hb ⊢
    exact KeyStore.isPrefix_of_le_of_le ha hab hb
  keeps s key key' h := by
    have hpallet : palletPrefix <+: key' :=
      (List.prefix_append ..).trans (List.isPrefixOf_iff_prefix.mp h)
    rw [KeyStore.mem_keys, KeyStore.mem_keys, get_visit fun _ _ hw => not_isPrefix_of_written hw hpallet]

def rounds (s : KeyStore Key V) : List Key :=
  (s.pending (schedulesPrefix.isPrefixOf ·) schedulesPrefix).sort (· ≤ ·)

theorem mem_rounds : key ∈ rounds s ↔ key ∈ s.keys ∧ schedulesPrefix <+: key ∧ schedulesPrefix < key := by
  rw [rounds, Finset.mem_sort, KeyStore.mem_pending, List.isPrefixOf_iff_prefix]

theorem onRuntimeUpgrade_eq (hs : lastRuntimeUpgradeSpecVersion L s ≤ fromSpec) {fuel : ℕ}
    (hfuel : (rounds s).length < fuel) : onRuntimeUpgrade L c fuel s =
      some (((rounds s).foldl (visit L c) s).clear (palletPrefix.isPrefixOf ·)) := by
  rw [rounds, Finset.length_sort] at hfuel
  rw [onRuntimeUpgrade, if_neg (Nat.not_lt.mpr hs), walks.walk_eq fuel s schedulesPrefix le_rfl hfuel]
  rfl

theorem get_foldl_visit {keys : List Key}
    (h : ∀ k ∈ keys, ∀ who, account k = some who → ¬Written L who key) :
    (keys.foldl (visit L c) s).get key = s.get key := by
  induction keys generalizing s with
  | nil => rfl
  | cons k keys hi =>
    obtain ⟨hk, hkeys⟩ := List.forall_mem_cons.mp h
    rw [List.foldl_cons, hi hkeys, get_visit hk]

variable [DecidableEq Acc]

theorem entry_visit : entry L (visit L c s key) who =
    if account key = some who then (entry L s who).unlock c vestingLockId else entry L s who := by
  rw [visit]
  cases (account key : Option Acc) with
  | none => rfl
  | some who' =>
    by_cases hw : who' = who
    case pos =>
      subst hw
      rw [if_pos rfl]
      exact entry_removeLock
    case neg =>
      rw [if_neg fun h => hw (Option.some.inj h)]
      exact entry_removeLock_of_ne (Ne.symm hw)

theorem entry_foldl_visit (keys : List Key) :
    entry L (keys.foldl (visit L c) s) who =
      (Entry.unlock c vestingLockId)^[keys.countP (account · = some who)] (entry L s who) := by
  induction keys generalizing s with
  | nil => rfl
  | cons key keys hi =>
    rw [List.foldl_cons, hi, entry_visit, List.countP_cons]
    by_cases hk : account key = some who
    · rw [if_pos hk, if_pos (decide_eq_true hk), iterate_succ_apply]
    · rw [if_neg hk, if_neg (by simpa using hk), Nat.add_zero]

end Loop

-- There is a key of a schedule with the bytes of the account.
def Named (s : KeyStore Key V) (who : Acc) : Prop :=
  ∃ key, (s.get key).isSome ∧ schedulesPrefix <+: key ∧ 80 ≤ key.length ∧
    Decode.decode ((key.drop 48).take 32) = some who

-- What the migration should do to the storage.
structure Cleaned (L : Layout Acc V) (s s' : KeyStore Key V) : Prop where
  removed : ∀ who, Named s who →
    (entry L s' who).locks = (entry L s who).locks.filter (·.id ≠ vestingLockId)
  kept : ∀ who : Acc, ¬Named s who → (entry L s' who).locks = (entry L s who).locks
  free : ∀ who, (entry L s' who).data.free = (entry L s who).data.free
  reserved : ∀ who, (entry L s' who).data.reserved = (entry L s who).data.reserved
  gone : ∀ key, palletPrefix <+: key → s'.get key = none
  untouched : ∀ key, ¬palletPrefix <+: key → key ∉ eventKeys L →
    (∀ who, Named s who → key ≠ accountKey L who ∧ key ≠ locksKey L who) → s'.get key = s.get key

theorem account_eq_some : account key = some who ↔
    80 ≤ key.length ∧ Decode.decode ((key.drop 48).take 32) = some who := by
  rw [account]
  split <;> simp [*]

theorem named_iff : Named s who ↔ ∃ key ∈ rounds s, account key = some who := by
  constructor
  case mp =>
    rintro ⟨key, hkey, hprefix, hlen, hdecode⟩
    have hne : schedulesPrefix ≠ key := by
      rintro rfl
      exact absurd hlen (by decide)
    have hlt : schedulesPrefix < key := lt_of_le_of_ne (KeyStore.le_of_isPrefix hprefix) hne
    exact ⟨key, mem_rounds.mpr ⟨(s.mem_keys key).mpr hkey, hprefix, hlt⟩,
      account_eq_some.mpr ⟨hlen, hdecode⟩⟩
  case mpr =>
    rintro ⟨key, hkey, haccount⟩
    obtain ⟨hmem, hprefix, -⟩ := mem_rounds.mp hkey
    exact ⟨key, (s.mem_keys key).mp hmem, hprefix, account_eq_some.mp haccount⟩

def cleanup (L : Layout Acc V) (c : Constants) (s : KeyStore Key V) : KeyStore Key V :=
  ((rounds s).foldl (visit L c) s).clear (palletPrefix.isPrefixOf ·)

theorem get_cleanup_of_isPrefix (h : palletPrefix <+: key) : (cleanup L c s).get key = none :=
  if_pos (List.isPrefixOf_iff_prefix.mpr h)

theorem get_cleanup_of_not_isPrefix (h : ¬palletPrefix <+: key) :
    (cleanup L c s).get key = ((rounds s).foldl (visit L c) s).get key :=
  if_neg (mt List.isPrefixOf_iff_prefix.mp h)

theorem entry_cleanup_eq_foldl : entry L (cleanup L c s) who = entry L ((rounds s).foldl (visit L c) s) who := by
  have hfreezes : ¬palletPrefix <+: freezesKey L who := by
    rw [freezesKey, mapKey, List.append_assoc]
    exact not_isPrefix_append (q := balancesPrefix) rfl (by decide) _
  rw [entry, get_cleanup_of_not_isPrefix (not_isPrefix_of_written (.inl rfl)),
    get_cleanup_of_not_isPrefix (not_isPrefix_of_written (.inr (.inl rfl))),
    get_cleanup_of_not_isPrefix hfreezes]
  rfl

theorem get_cleanup_of_untouched (hpallet : ¬palletPrefix <+: key) (hevents : key ∉ eventKeys L)
    (h : ∀ who, Named s who → key ≠ accountKey L who ∧ key ≠ locksKey L who) :
    (cleanup L c s).get key = s.get key := by
  rw [get_cleanup_of_not_isPrefix hpallet]
  refine get_foldl_visit fun k hk who ha => ?_
  obtain ⟨haccount, hlocks⟩ := h who (named_iff.mpr ⟨k, hk, ha⟩)
  rintro (heq | heq | heq)
  · exact haccount heq
  · exact hlocks heq
  · exact hevents heq

section Effect

variable [DecidableEq Acc]

theorem entry_cleanup_of_named (h : Named s who) : ∃ n,
    entry L (cleanup L c s) who = (Entry.unlock c vestingLockId)^[n + 1] (entry L s who) := by
  obtain ⟨key, hkey, haccount⟩ := named_iff.mp h
  have hpos : 0 < (rounds s).countP (account · = some who) :=
    List.countP_pos_iff.mpr ⟨key, hkey, decide_eq_true haccount⟩
  refine ⟨(rounds s).countP (account · = some who) - 1, ?_⟩
  rw [Nat.sub_add_cancel hpos, entry_cleanup_eq_foldl, entry_foldl_visit]

theorem entry_cleanup_of_not_named (h : ¬Named s who) :
    entry L (cleanup L c s) who = entry L s who := by
  have hzero : (rounds s).countP (account · = some who) = 0 :=
    List.countP_eq_zero.mpr fun key hkey haccount => h (named_iff.mpr ⟨key, hkey, of_decide_eq_true haccount⟩)
  rw [entry_cleanup_eq_foldl, entry_foldl_visit, hzero]
  rfl

theorem cleaned_cleanup_iff : Cleaned L s (cleanup L c s) ↔
      ∀ who, Named s who → (entry L s who).SameBalances (entry L (cleanup L c s) who) := by
  constructor
  case mp => exact fun h who _ => ⟨h.free who, h.reserved who⟩
  case mpr =>
    intro h
    have hbalances (who : Acc) : (entry L s who).SameBalances (entry L (cleanup L c s) who) := by
      by_cases hnamed : Named s who
      case pos => exact h who hnamed
      case neg =>
        rw [entry_cleanup_of_not_named hnamed]
        exact ⟨rfl, rfl⟩
    refine ⟨fun who hnamed => ?removed, fun who hnamed => ?kept, fun who => (hbalances who).free,
      fun who => (hbalances who).reserved, fun _ => get_cleanup_of_isPrefix, fun _ => get_cleanup_of_untouched⟩
    case removed =>
      obtain ⟨n, hn⟩ := entry_cleanup_of_named (L := L) (c := c) hnamed
      rw [hn, Entry.locks_iterate]
    case kept => rw [entry_cleanup_of_not_named hnamed]

end Effect

namespace Mock

open Runtime.Mock (Account pdex stakingLockId)

-- The values of the storage, as they are read.
inductive Value
  | account (a : AccountInfo)
  | locks (l : List BalanceLock)
  | number (n : ℕ)

def Value.account? : Value → Option AccountInfo
  | .account a => some a
  | _          => none

def Value.locks? : Value → Option (List BalanceLock)
  | .locks l => some l
  | _        => none

def Value.number? : Value → Option ℕ
  | .number n => some n
  | _         => none

def layout : Layout Account Value where
  encode who := UInt8.ofNat who.val :: List.replicate 31 0
  blake2 _ := List.replicate 16 0
  freezesItem := List.replicate 16 0
  eventItems := [List.replicate 16 0]
  specVersion := Value.number?
  account := Value.account?
  putAccount _ := .account
  locks := Value.locks?
  putLocks := .locks
  freezes _ := none
  events _ _ _ := none
  decode_encode := by decide
  length_blake2 _ := rfl
  length_freezesItem := rfl
  freezesItem_ne := by decide
  length_eventItem := by decide
  eventItem_ne := by decide
  account_putAccount _ _ := rfl
  locks_putLocks _ := rfl

def empty : KeyStore Key Value where
  get _ := none
  keys := ∅
  mem_keys := by simp

theorem first_lt : 0 < 4 := by
  decide

def first : Account :=
  ⟨0, first_lt⟩

-- A key names the first account, on which there are a vesting lock and a staking lock.
def storageOf (a : AccountInfo) : KeyStore Key Value :=
  (((empty.set (schedulesPrefix ++ List.replicate 48 0) (some (.number 0))).set (accountKey layout first)
    (some (.account a))).set (locksKey layout first)
    (some (.locks [⟨vestingLockId, pdex 2⟩, ⟨stakingLockId, pdex 1⟩]))).set
    (systemPrefix ++ lastRuntimeUpgradeItem) (some (.number 373))

def provided : KeyStore Key Value :=
  storageOf { consumers := 1, providers := 1, data := { free := pdex 5, frozen := pdex 2 } }

-- The account has a balance, but neither a provider nor a sufficient reference.
def unprovided : KeyStore Key Value :=
  storageOf { consumers := 1, data := { free := pdex 5, frozen := pdex 2 } }

theorem named_provided : Named provided (0 : Account) :=
  ⟨schedulesPrefix ++ List.replicate 48 0, by decide +kernel, by decide +kernel, by decide, by decide +kernel⟩

end Mock

end RawStorage

end Runtime
