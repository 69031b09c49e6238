import PolkadexModel.Runtime.Theorems.References

open List

namespace Runtime

open PdexMigration (LockIdentifier BalanceLock)
open ClearRewardsAndMigrationLocks

variable {c : Constants} {a a' : AccountInfo} {e : Entry} {frozen : ℕ} {id : LockIdentifier}

theorem holds_addConsumerRefIfMissing : (addConsumerRefIfMissing e).account.Holds 0 := by
  refine ⟨Nat.zero_le _, ?_, fun h => absurd h (Nat.lt_irrefl 0)⟩
  cases addConsumerRefIfMissing_cases e with
  | inl h =>
    rw [h.2]
    exact h.1
  | inr h =>
    rw [h.2.2]
    exact fun _ => Nat.one_pos

theorem Entry.log_mutateFrozen (h : e.account.Holds 0) : (e.mutateFrozen c frozen).log = e.log := by
  have hown := (h.ensureUpgraded (c := c)).own
  generalize ha : e.account.ensureUpgraded c = a at hown
  simp only [mutateFrozen, data, ha]
  split
  case isTrue =>
    split
    case h_1 => rfl
    case h_2 account hinc =>
      split
      case isFalse => rfl
      case isTrue hz =>
        split at hinc
        case isTrue hdid =>
          cases hinc
          exact absurd hz (hown hdid.2).ne'
        case isFalse =>
          cases incConsumers_cases c a with
          | inl herr =>
            obtain ⟨_, herr, _⟩ := herr
            rw [herr] at hinc
            cases hinc
          | inr hok =>
            rw [hok.1] at hinc
            cases hinc
            exact absurd hz (Nat.succ_ne_zero _)
  case isFalse =>
    split
    case isTrue hdid =>
      rw [decConsumers, if_pos (hown hdid.2)]
      rfl
    case isFalse => rfl

-- The repair of the counter is enough for the removal: no reference is released at zero.
theorem log_remove : (remove c id e).log = e.log := by
  have hlog : (remove c id e).log = (addConsumerRefIfMissing e).log :=
    Entry.log_mutateFrozen holds_addConsumerRefIfMissing
  rw [hlog]
  cases addConsumerRefIfMissing_cases e with
  | inl h => rw [h.2]
  | inr h => rw [h.2.2]

namespace AccountInfo

def Alive (a : AccountInfo) : Prop :=
  0 < a.providers ∨ 0 < a.sufficients

-- An account of the old logic with a reserved balance that nothing provides for. It gets the existential
-- deposit when it is upgraded.
def Lacks (a : AccountInfo) : Prop :=
  a.data.isNewLogic = false ∧ a.data.reserved ≠ 0 ∧ a.data.frozen = 0 ∧ a.providers = 0

instance : Decidable a.Alive :=
  inferInstanceAs (Decidable (_ ∨ _))

instance : Decidable a.Lacks :=
  inferInstanceAs (Decidable (_ ∧ _))

theorem ensureUpgraded_of_alive (h : a.Alive) (hn : ¬a.Lacks) : ∃ n,
    a.ensureUpgraded c = { a with consumers := n, data := a.data.upgrade } ∧
    a.consumers ≤ n ∧ (¬a.data.Consumes → n = a.consumers) := by
  simp only [ensureUpgraded]
  split
  case isTrue hnew =>
    refine ⟨a.consumers, ?_, Nat.le_refl _, fun _ => rfl⟩
    rw [AccountData.upgrade, ← hnew]
  case isFalse hold =>
    split
    case isTrue hr =>
      have hp : a.providers ≠ 0 := fun hp => hn ⟨eq_false_of_ne_true hold, hr.1, hr.2, hp⟩
      rw [if_neg hp]
      exact ⟨a.consumers + 1, if_pos h, Nat.le_succ _, fun hc => absurd (.inl hr.1) hc⟩
    case isFalse =>
      exact ⟨a.consumers, if_pos h, Nat.le_refl _, fun _ => rfl⟩

end AccountInfo

theorem account_addConsumerRefIfMissing : ∃ n,
    (addConsumerRefIfMissing e).account = { e.account with consumers := n } ∧
    (e.data.Consumes → 0 < n) ∧ (¬e.data.Consumes → n = e.account.consumers) := by
  cases addConsumerRefIfMissing_cases e with
  | inl h =>
    rw [h.2]
    exact ⟨e.account.consumers, rfl, h.1, fun _ => rfl⟩
  | inr h =>
    rw [h.2.2]
    exact ⟨1, rfl, fun _ => Nat.one_pos, fun hn => absurd h.1 hn⟩

namespace Entry

-- The removal from an account that something provides for. It is refused if there would have to be a
-- new reference, and there cannot be one.
theorem account_removeLock_of_alive (h : e.account.Alive) (hn : ¬e.account.Lacks)
    (id : LockIdentifier) :
    (∃ n, (e.removeLock c id).account =
        { e.account with
          consumers := n, data := (e.data.upgrade.freeze (e.removeLock c id).required).kept c } ∧
      (¬e.data.Consumes → (e.removeLock c id).required ≠ 0 →
        0 < e.account.providers ∧ e.account.consumers < c.maxConsumers)) ∨
    ((e.data.reserved ≠ 0 ∨ (e.removeLock c id).required ≠ 0) ∧
      (¬e.data.Consumes ∨ e.account.consumers = 0) ∧
      (e.account.providers = 0 ∨ c.maxConsumers ≤ e.account.consumers) ∧
      (e.removeLock c id).account = { e.account with data := e.data.upgrade }) := by
  have hmut : Mutated c (e.removeLock c id).required _ (e.removeLock c id).account := mutated_removeLock
  obtain ⟨n, hu, hle, hsame⟩ := AccountInfo.ensureUpgraded_of_alive (c := c) h hn
  rw [hu] at hmut
  have heq (did : ¬e.data.Consumes ∨ n = 0) : n = e.account.consumers :=
    did.elim hsame fun hz => by omega
  generalize (e.removeLock c id).account = a' at hmut ⊢
  generalize (e.removeLock c id).required = r at hmut ⊢
  cases hmut with
  | refused does did hr =>
    have hn := heq did
    subst hn
    exact .inr ⟨does, did, hr, rfl⟩
  | gained does did hp hl =>
    have hn := heq did
    exact .inl ⟨n + 1, if_pos h, fun _ _ => ⟨hp, hn ▸ hl⟩⟩
  | released does did => exact .inl ⟨n - 1, if_pos h, fun hc => absurd did hc⟩
  | kept does did => exact .inl ⟨n, if_pos h, fun hc hr => absurd (does.mp (.inr hr)) hc⟩

theorem account_removeLock_of_refuses (h : e.Refuses c id) : (e.removeLock c id).account = e.account := by
  obtain ⟨hnew, hdoes, hdid, hroom⟩ := h
  have hmut : Mutated c (e.removeLock c id).required _ (e.removeLock c id).account := mutated_removeLock
  have hu : e.account.ensureUpgraded c = e.account := if_pos hnew
  rw [hu] at hmut
  generalize (e.removeLock c id).account = a' at hmut ⊢
  cases hmut with
  | refused => rfl
  | gained does did hp hl => exact absurd hroom (by omega)
  | released does did => exact absurd hdoes does
  | kept does did => exact hdid.elim (absurd (does.mp hdoes)) fun hz => absurd hz (did (does.mp hdoes)).ne'

-- An account that nothing provides for is removed, unless the removal of the lock is refused.
theorem account_removeLock_of_not_alive (h : ¬e.account.Alive) (hn : ¬e.account.Lacks)
    (hr : ¬e.Refuses c id) : (e.removeLock c id).account = {} := by
  have hp : e.account.providers = 0 := Nat.eq_zero_of_not_pos fun hp => h (.inl hp)
  have hmut : Mutated c (e.removeLock c id).required _ (e.removeLock c id).account := mutated_removeLock
  by_cases hnew : e.data.isNewLogic = true
  case pos =>
    have hu : e.account.ensureUpgraded c = e.account := if_pos hnew
    rw [hu] at hmut
    generalize (e.removeLock c id).account = a' at hmut ⊢
    cases hmut with
    | refused does did hroom => exact absurd ⟨hnew, does, did, hroom⟩ hr
    | gained does did hp' hl => exact absurd hp hp'.ne'
    | released does did => exact if_neg h
    | kept does did => exact if_neg h
  case neg =>
    have hu : e.account.ensureUpgraded c = {} := by
      rw [AccountInfo.ensureUpgraded, if_neg hnew]
      dsimp only
      rw [if_neg fun hr => hn ⟨eq_false_of_ne_true hnew, hr.1, hr.2, hp⟩]
      exact if_neg h
    rw [hu] at hmut
    generalize (e.removeLock c id).account = a' at hmut ⊢
    cases hmut with
    | refused does did hr => rfl
    | gained does did hp' hl => exact absurd rfl hp'.ne'
    | released does did => exact did.elim (absurd rfl) (absurd rfl)
    | kept does did => rfl

theorem account_removeLock_of_lacks (h : e.account.Lacks) (id : LockIdentifier) :
    (e.removeLock c id).account =
      { e.account with
        providers := 1
        consumers := e.account.consumers + 1
        data :=
          { free := max e.data.free c.existentialDeposit
            reserved := e.data.reserved
            frozen := (e.removeLock c id).required } } := by
  obtain ⟨hold, hr, hf, hp⟩ := h
  have hmut : Mutated c (e.removeLock c id).required _ (e.removeLock c id).account := mutated_removeLock
  rw [AccountInfo.ensureUpgraded, if_neg (by simp [hold])] at hmut
  dsimp only at hmut
  rw [if_pos ⟨hr, hf⟩, if_pos hp, AccountInfo.store, if_pos (.inl Nat.one_pos)] at hmut
  generalize (e.removeLock c id).account = a' at hmut ⊢
  cases hmut with
  | refused does did _ => exact absurd (.inl hr) (did.resolve_right (Nat.succ_ne_zero _))
  | gained does did _ _ => exact absurd (.inl hr) (did.resolve_right (Nat.succ_ne_zero _))
  | released does did => exact absurd (.inl hr) does
  | kept does did =>
    rw [AccountInfo.store, if_pos (.inl Nat.one_pos), AccountData.kept, if_neg fun hd => hr hd.2]
    rfl

end Entry

theorem account_remove_of_alive (h : e.account.Alive) (hn : ¬e.account.Lacks) (id : LockIdentifier) :
    (∃ n, (remove c id e).account =
        { e.account with
          consumers := n, data := (e.data.upgrade.freeze (remove c id e).required).kept c } ∧
      (¬e.data.Consumes → (remove c id e).required ≠ 0 →
        0 < e.account.providers ∧ e.account.consumers < c.maxConsumers)) ∨
    (¬e.data.Consumes ∧ (remove c id e).required ≠ 0 ∧
      (e.account.providers = 0 ∨ c.maxConsumers ≤ e.account.consumers) ∧
      (remove c id e).account = { e.account with data := e.data.upgrade }) := by
  obtain ⟨m, hm, hpos, hsame⟩ := account_addConsumerRefIfMissing (e := e)
  have hcases := Entry.account_removeLock_of_alive (c := c) (e := addConsumerRefIfMissing e)
    (by rwa [hm]) (by rwa [hm]) id
  rw [Entry.data, hm] at hcases
  cases hcases with
  | inl hs =>
    obtain ⟨n, ha, hroom⟩ := hs
    refine .inl ⟨n, ha, fun hc hr => ?_⟩
    rw [← hsame hc]
    exact hroom hc hr
  | inr hs =>
    obtain ⟨does, did, hroom, ha⟩ := hs
    have hc : ¬e.data.Consumes := fun hc => did.elim (absurd hc) (hpos hc).ne'
    have hm := hsame hc
    subst hm
    exact .inr ⟨hc, does.resolve_left fun hr => hc (.inl hr), hroom, ha⟩

-- There is a balance that keeps the data alive, and a reference for what is frozen or room for one.
def Entry.Solid (c : Constants) (e : Entry) : Prop :=
  e.data.reserved ≠ 0 ∨ (e.data.free ≠ 0 ∧
    (e.data.frozen ≠ 0 ∨ (0 < e.account.providers ∧ e.account.consumers < c.maxConsumers)))

instance : Decidable (e.Solid c) :=
  inferInstanceAs (Decidable (_ ∨ _))

-- The accounts whose balances a removal does not touch, with what it freezes.
structure Entry.Keeps (c : Constants) (e e' : Entry) : Prop where
  alive : e'.account.Alive
  isNewLogic : e'.data.isNewLogic = true
  free : e'.data.free = e.data.free
  reserved : e'.data.reserved = e.data.reserved
  frozen : e'.data.frozen = if e.Solid c then e'.required else 0
  solid : e'.required ≠ 0 → (e'.Solid c ↔ e.Solid c)

theorem keeps_remove (he : 0 < c.existentialDeposit)
    (hd : e.data.free = 0 ∨ c.existentialDeposit ≤ e.data.free) (h : e.account.Alive)
    (hn : ¬e.account.Lacks) (id : LockIdentifier) : e.Keeps c (remove c id e) := by
  cases account_remove_of_alive (c := c) h hn id with
  | inl hs =>
    obtain ⟨_, ha, hroom⟩ := hs
    have hdata := congrArg (·.data) ha
    have halive : (remove c id e).account.Alive := by rwa [ha]
    by_cases hdrop : e.data.free < c.existentialDeposit ∧ e.data.reserved = 0
    case pos =>
      have hfree : e.data.free = 0 := hd.resolve_right (Nat.not_le.mpr hdrop.1)
      have hsolid : ¬e.Solid c := fun hs => hs.elim (· hdrop.2) (·.1 hfree)
      have hdata : (remove c id e).data = {} := hdata.trans (if_pos hdrop)
      refine ⟨halive, ?_, ?_, ?_, ?_, fun _ => iff_of_false ?_ hsolid⟩
      · rw [hdata]
      · rw [hdata, hfree]
      · rw [hdata, hdrop.2]
      · rw [hdata, if_neg hsolid]
      · rw [Entry.Solid, hdata]
        exact fun hs => hs.elim (· rfl) (·.1 rfl)
    case neg =>
      have hdata : (remove c id e).data = e.data.upgrade.freeze (remove c id e).required :=
        hdata.trans (if_neg hdrop)
      -- A balance is left which is not solid only if there is no room for a reference.
      have hsolid (hreq : (remove c id e).required ≠ 0) : e.Solid c := by
        by_cases hr : e.data.reserved = 0
        case neg => exact .inl hr
        case pos =>
          refine .inr ⟨fun hz => hdrop ⟨hz ▸ he, hr⟩, ?_⟩
          by_cases hf : e.data.frozen = 0
          case neg => exact .inl hf
          case pos => exact .inr (hroom (fun hc => hc.elim (· hr) (· hf)) hreq)
      refine ⟨halive, ?_, ?_, ?_, ?_, fun hreq => iff_of_true ?_ (hsolid hreq)⟩
      · rw [hdata]; rfl
      · rw [hdata]; rfl
      · rw [hdata]; rfl
      · split
        case isTrue => rw [hdata]; rfl
        case isFalse hns =>
          rw [hdata]
          exact not_not.mp fun hreq => hns (hsolid hreq)
      · rw [Entry.Solid, hdata]
        exact (hsolid hreq).imp_right fun hs => ⟨hs.1, .inl hreq⟩
  | inr hr =>
    obtain ⟨hc, hreq, hroom, ha⟩ := hr
    have hdata : (remove c id e).data = e.data.upgrade := congrArg (·.data) ha
    have hreserved : e.data.reserved = 0 := not_not.mp fun hne => hc (.inl hne)
    have hfrozen : e.data.frozen = 0 := not_not.mp fun hne => hc (.inr hne)
    have hsolid : ¬e.Solid c := fun hs => by
      cases hs with
      | inl hs => exact hs hreserved
      | inr hs =>
        have hs := hs.2.resolve_left (not_not.mpr hfrozen)
        omega
    refine ⟨?_, ?_, ?_, ?_, ?_, fun _ => ?_⟩
    · rwa [ha]
    · rw [hdata]; rfl
    · rw [hdata]; rfl
    · rw [hdata]; rfl
    · rw [hdata, if_neg hsolid]
      exact hfrozen
    · rw [Entry.Solid, Entry.data, ha]
      rfl

theorem required_foldl_remove_le (ids : List LockIdentifier) :
    (ids.foldl (fun e id => remove c id e) e).required ≤ e.required := by
  induction ids generalizing e with
  | nil => exact Nat.le_refl _
  | cons id ids hi => exact hi.trans required_remove_le

theorem Entry.Keeps.trans (h : e.Keeps c e') (h' : e'.Keeps c e'')
    (hle : e''.required ≤ e'.required) : e.Keeps c e'' := by
  have hs (hreq : e''.required ≠ 0) : e'.Solid c ↔ e.Solid c :=
    h.solid fun hz => hreq (Nat.le_zero.mp (hz ▸ hle))
  refine ⟨h'.alive, h'.isNewLogic, h'.free.trans h.free, h'.reserved.trans h.reserved, ?_, ?_⟩
  · by_cases hreq : e''.required = 0
    · rw [h'.frozen, hreq, ite_self, ite_self]
    · rw [h'.frozen, if_congr (hs hreq) rfl rfl]
  · exact fun hreq => (h'.solid hreq).trans (hs hreq)

theorem keeps_foldl_remove (he : 0 < c.existentialDeposit)
    (hd : e.data.free = 0 ∨ c.existentialDeposit ≤ e.data.free) (h : e.account.Alive)
    (hn : ¬e.account.Lacks) (id : LockIdentifier) (ids : List LockIdentifier) :
    e.Keeps c (ids.foldl (fun e id => remove c id e) (remove c id e)) := by
  have hk := keeps_remove he hd h hn id
  induction ids generalizing e id with
  | nil => exact hk
  | cons id' ids hi =>
    have hn' : ¬(remove c id e).account.Lacks := fun hl =>
      Bool.false_ne_true (hl.1.symm.trans hk.isNewLogic)
    have hk' := keeps_remove he (hk.free ▸ hd) hk.alive hn' id'
    exact hk.trans (hi (hk.free ▸ hd) hk.alive hn' id' hk') (required_foldl_remove_le _)

theorem account_remove_of_not_alive (h : ¬e.account.Alive) (hn : ¬e.account.Lacks)
    (id : LockIdentifier) : (remove c id e).account = {} ∨
      (¬e.data.Consumes ∧ (remove c id e).required ≠ 0 ∧ (remove c id e).account = e.account) := by
  obtain ⟨m, hm, hpos, hsame⟩ := account_addConsumerRefIfMissing (e := e)
  by_cases hr : (addConsumerRefIfMissing e).Refuses c id
  case neg => exact .inl (Entry.account_removeLock_of_not_alive (by rwa [hm]) (by rwa [hm]) hr)
  case pos =>
    have ha : (remove c id e).account = _ := Entry.account_removeLock_of_refuses hr
    rw [hm] at ha
    obtain ⟨-, does, did, -⟩ := hr
    rw [Entry.data, hm] at does did
    have hc : ¬e.data.Consumes := fun hc => did.elim (absurd hc) (hpos hc).ne'
    exact .inr ⟨hc, does.resolve_left fun hr => hc (.inl hr), by rw [ha, hsame hc]⟩

theorem account_foldl_remove_of_not_alive (h : ¬e.account.Alive) (hn : ¬e.account.Lacks)
    (id : LockIdentifier) (ids : List LockIdentifier) :
    (ids.foldl (fun e id => remove c id e) (remove c id e)).account = {} ∨
    (¬e.data.Consumes ∧ (ids.foldl (fun e id => remove c id e) (remove c id e)).required ≠ 0 ∧
      (ids.foldl (fun e id => remove c id e) (remove c id e)).account = e.account) := by
  induction ids generalizing e id with
  | nil => exact account_remove_of_not_alive h hn id
  | cons id' ids hi =>
    rw [foldl_cons]
    cases account_remove_of_not_alive (c := c) h hn id with
    | inl hnew =>
      have hi := hi (e := remove c id e) (by rw [hnew]; decide) (by rw [hnew]; decide) id'
      exact .inl (hi.elim (fun hz => hz) fun hz => hz.2.2.trans hnew)
    | inr hsame =>
      obtain ⟨hc, _, ha⟩ := hsame
      have hi := hi (e := remove c id e) (by rwa [ha]) (by rwa [ha]) id'
      exact hi.imp_right fun hz => ⟨hc, hz.2.1, hz.2.2.trans ha⟩

theorem account_remove_of_lacks (h : e.account.Lacks) (id : LockIdentifier) : ∃ n,
    (remove c id e).account =
      { e.account with
        providers := 1
        consumers := n
        data :=
          { free := max e.data.free c.existentialDeposit
            reserved := e.data.reserved
            frozen := (remove c id e).required } } := by
  obtain ⟨m, hm, _⟩ := account_addConsumerRefIfMissing (e := e)
  have ha := Entry.account_removeLock_of_lacks (c := c) (e := addConsumerRefIfMissing e) (by rwa [hm]) id
  rw [Entry.data, hm] at ha
  exact ⟨m + 1, ha⟩

theorem keeps_foldl_remove_of_lacks (he : 0 < c.existentialDeposit) (h : e.account.Lacks)
    (id : LockIdentifier) (ids : List LockIdentifier) :
    (remove c id e).Keeps c (ids.foldl (fun e id => remove c id e) (remove c id e)) ∧
    (remove c id e).data.free = max e.data.free c.existentialDeposit ∧
    (remove c id e).data.reserved = e.data.reserved := by
  obtain ⟨_, ha⟩ := account_remove_of_lacks (c := c) h id
  have hfree : (remove c id e).data.free = max e.data.free c.existentialDeposit :=
    congrArg (·.data.free) ha
  have hreserved : (remove c id e).data.reserved = e.data.reserved := congrArg (·.data.reserved) ha
  have hnew : (remove c id e).data.isNewLogic = true := congrArg (·.data.isNewLogic) ha
  have halive : (remove c id e).account.Alive := by
    rw [ha]
    exact .inl Nat.one_pos
  refine ⟨?_, hfree, hreserved⟩
  cases ids with
  | nil =>
    have hsolid : (remove c id e).Solid c := .inl (hreserved ▸ h.2.1)
    refine ⟨halive, hnew, rfl, rfl, ?_, fun _ => Iff.rfl⟩
    exact (congrArg (·.data.frozen) ha).trans (if_pos hsolid).symm
  | cons id' ids =>
    have hn : ¬(remove c id e).account.Lacks := fun hl =>
      Bool.false_ne_true (hl.1.symm.trans hnew)
    exact keeps_foldl_remove he (.inr (hfree ▸ Nat.le_max_right ..)) halive hn id' ids

-- The balances are unchanged, and exactly what is still required is frozen.
structure Entry.Settled (e e' : Entry) : Prop where
  free : e'.data.free = e.data.free
  reserved : e'.data.reserved = e.data.reserved
  frozen : e'.data.frozen = e'.required

def Entry.Retained (c : Constants) (required : ℕ) (e : Entry) : Prop :=
  if e.account.Lacks then e.data.free ≠ 0
  else if e.account.Alive then required = 0 ∨ e.Solid c
  else e.data.free = 0 ∧ e.data.reserved = 0 ∧ required = 0

instance {required : ℕ} : Decidable (e.Retained c required) :=
  inferInstanceAs (Decidable (ite ..))

theorem settled_foldl_remove_iff (he : 0 < c.existentialDeposit)
    (hd : e.data.free = 0 ∨ c.existentialDeposit ≤ e.data.free) (id : LockIdentifier)
    (ids : List LockIdentifier) :
    e.Settled (ids.foldl (fun e id => remove c id e) (remove c id e)) ↔
      e.Retained c (ids.foldl (fun e id => remove c id e) (remove c id e)).required := by
  simp only [Entry.Retained]
  split
  case isTrue hl =>
    obtain ⟨hk, hfree, hreserved⟩ := keeps_foldl_remove_of_lacks he hl id ids
    generalize ids.foldl (fun e id => remove c id e) (remove c id e) = e' at hk ⊢
    have hsolid : (remove c id e).Solid c := .inl (hreserved ▸ hl.2.1)
    constructor
    · intro hs hz
      have hmax := (hk.free.symm.trans hs.free).symm.trans hfree
      omega
    · intro hne
      have hmax : max e.data.free c.existentialDeposit = e.data.free :=
        Nat.max_eq_left (hd.resolve_left hne)
      exact ⟨hk.free.trans (hfree.trans hmax), hk.reserved.trans hreserved,
        hk.frozen.trans (if_pos hsolid)⟩
  case isFalse hl =>
    split
    case isTrue ha =>
      have hk := keeps_foldl_remove he hd ha hl id ids
      generalize ids.foldl (fun e id => remove c id e) (remove c id e) = e' at hk ⊢
      constructor
      · intro hs
        by_contra hn
        obtain ⟨hreq, hsolid⟩ := not_or.mp hn
        exact hreq (hs.frozen.symm.trans (hk.frozen.trans (if_neg hsolid)))
      · intro hs
        refine ⟨hk.free, hk.reserved, hk.frozen.trans ?_⟩
        cases hs with
        | inl hz => rw [hz, ite_self]
        | inr hs => exact if_pos hs
    case isFalse ha =>
      have hg := account_foldl_remove_of_not_alive (c := c) ha hl id ids
      generalize ids.foldl (fun e id => remove c id e) (remove c id e) = e' at hg ⊢
      have hfrozen : e'.data.frozen = 0 := by
        cases hg with
        | inl hz => rw [Entry.data, hz]
        | inr hz => exact not_not.mp fun hne => hz.1 (.inr (by rwa [Entry.data, ← hz.2.2]))
      constructor
      · intro hs
        have hreq : e'.required = 0 := hs.frozen.symm.trans hfrozen
        have hz := hg.resolve_right fun hz => hz.2.1 hreq
        exact ⟨hs.free.symm.trans (congrArg (·.data.free) hz),
          hs.reserved.symm.trans (congrArg (·.data.reserved) hz), hreq⟩
      · rintro ⟨hf, hr, hreq⟩
        have hz := hg.resolve_right fun hz => hz.2.1 hreq
        exact ⟨(congrArg (·.data.free) hz).trans hf.symm,
          (congrArg (·.data.reserved) hz).trans hr.symm, hfrozen.trans hreq.symm⟩

section Rules

variable {Acc : Type} [Ord Acc] [DecidableEq Acc]

-- The account has an initialised record of the lock under a registered reward id.
def Claimable (s : State Acc) (who : Acc) : Prop :=
  ∃ entry ∈ s.legacyLocks.distributor, entry.2.1 = who ∧ entry.2.2.isInitialized = true ∧
    entry.2.2.lockId = rewardsLockId ∧ entry.1 ∈ s.legacyLocks.initializeRewards

-- The lock period is over since the block in which the account was minted to.
def Unlockable (s : State Acc) (who : Acc) : Prop :=
  s.legacyLocks.operational = true ∧ ∃ mintedAt ∈ s.legacyLocks.lockedTokenHolders[who]?,
    mintedAt.val + pdexMigrationLockPeriod ≤ s.blockNumber

instance (s : State Acc) (who : Acc) : Decidable (Claimable s who) :=
  inferInstanceAs (Decidable (∃ entry ∈ s.legacyLocks.distributor, _))

instance (s : State Acc) (who : Acc) : Decidable (Unlockable s who) :=
  decidable_of_iff (s.legacyLocks.operational = true ∧ s.legacyLocks.lockedTokenHolders[who]?.any
      fun mintedAt => mintedAt.val + pdexMigrationLockPeriod ≤ s.blockNumber) <| by
    simp [Unlockable, Option.any_eq_true]

-- The rule under which the removed pallet would release the lock.
def Met (s : State Acc) (who : Acc) (id : LockIdentifier) : Prop :=
  (id = rewardsLockId ∧ Claimable s who) ∨ (id = pdexMigrationLockId ∧ Unlockable s who)

instance (s : State Acc) (who : Acc) (id : LockIdentifier) : Decidable (Met s who id) :=
  inferInstanceAs (Decidable (_ ∨ _))

-- What the migration should do to the state.
structure Effect (c : Constants) (s s' : State Acc) : Prop where
  locks : ∀ who, (s'.entries who).locks =
    (s.entries who).locks.filter fun lock => ¬Met s who lock.id
  free : ∀ who, (s'.entries who).data.free = (s.entries who).data.free
  reserved : ∀ who, (s'.entries who).data.reserved = (s.entries who).data.reserved
  freezes : ∀ who, (s'.entries who).freezes = (s.entries who).freezes
  totalIssuance : s'.totalIssuance = s.totalIssuance
  legacyLocks : s'.legacyLocks = s.legacyLocks
  frozen : ∀ who, (s'.entries who).locks ≠ (s.entries who).locks →
    (s'.entries who).data.frozen = (s'.entries who).required
  log : ∀ who, (s'.entries who).log = (s.entries who).log
  again : onRuntimeUpgrade c s' = s'

-- What has to be frozen for an account when its locks are released.
def remainder (s : State Acc) (who : Acc) : ℕ :=
  { s.entries who with
    locks := (s.entries who).locks.filter fun lock => ¬Met s who lock.id }.required

-- The sum of the block and the period does not saturate at the last block for a lock.
def Unsaturated (s : State Acc) : Prop :=
  s.legacyLocks.operational = true → s.blockNumber.val = Word.max 32 → ∀ who mintedAt,
    s.legacyLocks.lockedTokenHolders[who]? = some mintedAt → hasLock s who pdexMigrationLockId →
    mintedAt.val + pdexMigrationLockPeriod ≤ Word.max 32

variable [Std.TransOrd Acc] [Std.LawfulEqOrd Acc] {s : State Acc} {who : Acc}

omit [DecidableEq Acc] [Std.TransOrd Acc] [Std.LawfulEqOrd Acc] in
theorem mem_released_iff : id ∈ released s who ↔
    (id = rewardsLockId ∧ who ∈ (releasable s s.blockNumber).rewards) ∨
    (id = pdexMigrationLockId ∧ who ∈ (releasable s s.blockNumber).pdexMigration) := by
  have hmem (p : Prop) [Decidable p] (id' : LockIdentifier) :
      id ∈ (if p then [id'] else []) ↔ id = id' ∧ p := by
    split <;> simp [*]
  simp only [released, mem_append, hmem]

omit [DecidableEq Acc] [Std.TransOrd Acc] [Std.LawfulEqOrd Acc] in
theorem hasLock_iff : hasLock s who id ↔ ∃ lock ∈ (s.entries who).locks, lock.id = id := by
  simp [hasLock]

theorem mem_rewards_iff_claimable : who ∈ (releasable s now).rewards ↔
    Claimable s who ∧ hasLock s who rewardsLockId := by
  rw [mem_rewards_iff]
  refine and_congr_left fun _ => ?_
  constructor
  · rintro ⟨rewardId, record, hm, hi, hl, hc⟩
    exact ⟨_, hm, rfl, hi, hl, hc⟩
  · rintro ⟨⟨rewardId, _, record⟩, hm, hw, hi, hl, hc⟩
    exact hw ▸ ⟨rewardId, record, hm, hi, hl, hc⟩

theorem saturatingAdd_le_iff {mintedAt now : BlockNumber} :
    Word.saturatingAdd 32 mintedAt period ≤ now ↔ mintedAt.val + period ≤ now.val ∨
      (now.val = Word.max 32 ∧ Word.max 32 < mintedAt.val + period) := by
  have hnow : now.val ≤ Word.max 32 := Nat.le_sub_one_of_lt now.isLt
  simp only [Word.saturatingAdd]
  omega

-- Where the sum does not saturate, exactly those locks are released whose rule is met.
theorem mem_released_iff_met (h : Unsaturated s)
    (hm : lock ∈ (s.entries who).locks) : lock.id ∈ released s who ↔ Met s who lock.id := by
  rw [mem_released_iff, Met, mem_rewards_iff_claimable, mem_pdexMigration_iff]
  have hhas : hasLock s who lock.id := hasLock_iff.mpr ⟨lock, hm, rfl⟩
  refine or_congr (and_congr_right fun he => ?_) (and_congr_right fun he => ?_)
  · exact and_iff_left (he ▸ hhas)
  · rw [he] at hhas
    rw [and_iff_left hhas, Unlockable]
    refine and_congr_right fun ho => exists_congr fun mintedAt => and_congr_right fun hh => ?_
    rw [saturatingAdd_le_iff]
    refine or_iff_left fun hsat => ?_
    exact absurd (h ho hsat.1 who mintedAt hh hhas) (Nat.not_le.mpr hsat.2)

theorem locks_onRuntimeUpgrade (hs : s.lastRuntimeUpgradeSpecVersion ≤ fromSpec) :
    ((onRuntimeUpgrade c s).entries who).locks =
      (s.entries who).locks.filter (·.id ∉ released s who) := by
  rw [entries_onRuntimeUpgrade hs, foldl_remove_released, Entry.locks_foldl_release]

theorem locks_eq_of_unsaturated (hs : s.lastRuntimeUpgradeSpecVersion ≤ fromSpec)
    (h : Unsaturated s) (c : Constants) (who : Acc) :
    ((onRuntimeUpgrade c s).entries who).locks =
      (s.entries who).locks.filter fun lock => ¬Met s who lock.id := by
  rw [locks_onRuntimeUpgrade hs]
  refine filter_congr fun lock hm => ?_
  simp only [mem_released_iff_met h hm]

theorem freezes_onRuntimeUpgrade (hs : s.lastRuntimeUpgradeSpecVersion ≤ fromSpec) :
    ((onRuntimeUpgrade c s).entries who).freezes = (s.entries who).freezes := by
  rw [entries_onRuntimeUpgrade hs, foldl_remove_released, Entry.freezes_foldl_release]

theorem log_onRuntimeUpgrade (hs : s.lastRuntimeUpgradeSpecVersion ≤ fromSpec) :
    ((onRuntimeUpgrade c s).entries who).log = (s.entries who).log := by
  rw [entries_onRuntimeUpgrade hs]
  generalize released s who = ids
  generalize s.entries who = e
  induction ids generalizing e with
  | nil => rfl
  | cons id ids hi => exact (hi _).trans log_remove

theorem required_onRuntimeUpgrade (hs : s.lastRuntimeUpgradeSpecVersion ≤ fromSpec)
    (h : Unsaturated s) : ((onRuntimeUpgrade c s).entries who).required = remainder s who := by
  simp only [remainder, Entry.required, freezes_onRuntimeUpgrade hs, locks_eq_of_unsaturated hs h]

theorem unsaturated_of_locks (hs : s.lastRuntimeUpgradeSpecVersion ≤ fromSpec)
    (h : ∀ who, ((onRuntimeUpgrade c s).entries who).locks =
      (s.entries who).locks.filter fun lock => ¬Met s who lock.id) : Unsaturated s := by
  intro ho hmax who mintedAt hh hhas
  by_contra hsat
  obtain ⟨lock, hm, hid⟩ := hasLock_iff.mp hhas
  have hreleased : lock.id ∈ released s who := by
    rw [mem_released_iff, mem_pdexMigration_iff]
    exact .inr ⟨hid, ⟨ho, mintedAt, hh, saturatingAdd_le_iff.mpr (.inr ⟨hmax, Nat.lt_of_not_le hsat⟩)⟩,
      hhas⟩
  have hnot : ¬Met s who lock.id := by
    intro hmet
    cases hmet with
    | inl hr => exact absurd (hid.symm.trans hr.1) (by decide)
    | inr hu =>
      obtain ⟨_, _, m, hm, hle⟩ := hu
      rw [hh] at hm
      cases hm
      exact hsat (hmax ▸ hle)
  have hkept : lock ∈ ((onRuntimeUpgrade c s).entries who).locks := by
    rw [h who]
    exact mem_filter.mpr ⟨hm, decide_eq_true hnot⟩
  rw [locks_onRuntimeUpgrade hs] at hkept
  exact of_decide_eq_true (mem_filter.mp hkept).2 hreleased

theorem onRuntimeUpgrade_again (hs : s.lastRuntimeUpgradeSpecVersion ≤ fromSpec) :
    onRuntimeUpgrade c (onRuntimeUpgrade c s) = onRuntimeUpgrade c s := by
  have hrun : onRuntimeUpgrade c s = _ := if_neg (Nat.not_lt.mpr hs)
  have hgone (who : Acc) (id : LockIdentifier) (hr : id ∈ released s who) :
      ¬hasLock (onRuntimeUpgrade c s) who id := by
    rw [hasLock_iff, locks_onRuntimeUpgrade hs]
    rintro ⟨lock, hm, hid⟩
    exact of_decide_eq_true (mem_filter.mp hm).2 (hid ▸ hr)
  have hhas (who : Acc) (id : LockIdentifier) (h : hasLock (onRuntimeUpgrade c s) who id) :
      hasLock s who id := by
    rw [hasLock_iff, locks_onRuntimeUpgrade hs] at h
    obtain ⟨lock, hm, hid⟩ := h
    exact hasLock_iff.mpr ⟨lock, mem_of_mem_filter hm, hid⟩
  have hlegacy : (onRuntimeUpgrade c s).legacyLocks = s.legacyLocks := by rw [hrun]; rfl
  have hblock : (onRuntimeUpgrade c s).blockNumber = s.blockNumber := by rw [hrun]; rfl
  have hspec : (onRuntimeUpgrade c s).lastRuntimeUpgradeSpecVersion ≤ fromSpec := by rwa [hrun]
  generalize onRuntimeUpgrade c s = s' at hgone hhas hlegacy hblock hspec
  have hrewards : (releasable s' s'.blockNumber).rewards.toList = [] := by
    refine eq_nil_iff_forall_not_mem.mpr fun who hm => ?_
    rw [Std.TreeSet.mem_toList, mem_rewards_iff, hlegacy] at hm
    refine hgone who _ (mem_released_iff.mpr (.inl ⟨rfl, ?_⟩)) hm.2
    exact mem_rewards_iff.mpr ⟨hm.1, hhas who _ hm.2⟩
  have hmigration : (releasable s' s'.blockNumber).pdexMigration.toList = [] := by
    refine eq_nil_iff_forall_not_mem.mpr fun who hm => ?_
    rw [Std.TreeSet.mem_toList, mem_pdexMigration_iff, hlegacy, hblock] at hm
    refine hgone who _ (mem_released_iff.mpr (.inr ⟨rfl, ?_⟩)) hm.2
    exact mem_pdexMigration_iff.mpr ⟨hm.1, hhas who _ hm.2⟩
  rw [onRuntimeUpgrade, if_neg (Nat.not_lt.mpr hspec)]
  simp only [hrewards, hmigration]
  rfl

theorem released_ne_nil_iff (h : Unsaturated s) :
    released s who ≠ [] ↔ ∃ lock ∈ (s.entries who).locks, Met s who lock.id := by
  constructor
  · intro hne
    obtain ⟨id, hid⟩ := exists_mem_of_ne_nil _ hne
    have hhas : hasLock s who id := by
      cases mem_released_iff.mp hid with
      | inl hr => exact hr.1 ▸ (mem_rewards_iff.mp hr.2).2
      | inr hp => exact hp.1 ▸ (mem_pdexMigration_iff.mp hp.2).2
    obtain ⟨lock, hm, heq⟩ := hasLock_iff.mp hhas
    exact ⟨lock, hm, (mem_released_iff_met h hm).mp (heq ▸ hid)⟩
  · rintro ⟨lock, hm, hmet⟩
    exact ne_nil_of_mem ((mem_released_iff_met h hm).mpr hmet)

theorem settled_onRuntimeUpgrade_iff (he : 0 < c.existentialDeposit)
    (hs : s.lastRuntimeUpgradeSpecVersion ≤ fromSpec)
    (hd : (s.entries who).data.free = 0 ∨ c.existentialDeposit ≤ (s.entries who).data.free)
    (h : Unsaturated s) (hmet : ∃ lock ∈ (s.entries who).locks, Met s who lock.id) :
    (s.entries who).Settled ((onRuntimeUpgrade c s).entries who) ↔
      (s.entries who).Retained c (remainder s who) := by
  obtain ⟨id, ids, hids⟩ := exists_cons_of_ne_nil ((released_ne_nil_iff h).mpr hmet)
  rw [← required_onRuntimeUpgrade (c := c) hs h, entries_onRuntimeUpgrade hs, hids, foldl_cons]
  exact settled_foldl_remove_iff he hd id ids

end Rules

namespace Mock

def migrationAndStaking (account : AccountInfo) : Entry where
  account := account
  locks := [⟨pdexMigrationLockId, pdex 1⟩, ⟨stakingLockId, pdex 1⟩]

def fundedLocks : State Account :=
  stateOf fun
    | 3 => migrationAndStaking
        { consumers := 1, providers := 1, data := { free := pdex 5, frozen := pdex 1 } }
    | _ => {}

-- The account of the token migration only exists because of an asset that it has.
def unfundedLocks : State Account :=
  stateOf fun
    | 3 => migrationAndStaking { sufficients := 1, data := { frozen := pdex 1 } }
    | _ => {}

end Mock

end Runtime
