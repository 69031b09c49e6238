import PolkadexModel.PdexMigration.Pallet
import PolkadexModel.Lib.Except
import Mathlib.Data.List.AList

open Function List

-- The lock on the minted tokens, over whole runs.
namespace PdexMigration

variable {Acc Hash B : Type} {cfg : Config}

section Currency

variable [Balances Acc B]

def lockUnder (b : B) (id : LockIdentifier) (who : Acc) : Option ℕ :=
  ((Balances.locks b who).find? (·.id = id)).map BalanceLock.amount

-- A lock without an amount is not set.
class LawfulLocks (Acc : outParam Type) (B : Type) [Balances Acc B] : Prop where
  nodup (b : B) (who : Acc) : ((Balances.locks b who).map BalanceLock.id).Nodup
  depositCreating (b : B) (payee : Acc) (amount : ℕ) (id : LockIdentifier) (who : Acc) :
    lockUnder (Balances.depositCreating b payee amount) id who = lockUnder b id who
  burnFrom {b b' : B} {payer : Acc} {amount : ℕ} (id : LockIdentifier) (who : Acc) :
    Balances.burnFrom b payer amount = some b' → lockUnder b' id who = lockUnder b id who
  setLock_zero (b : B) (id : LockIdentifier) (who : Acc) : Balances.setLock b id who 0 = b
  setLock_self (b : B) (id : LockIdentifier) (who : Acc) {amount : ℕ} :
    amount ≠ 0 → lockUnder (Balances.setLock b id who amount) id who = some amount
  setLock_of_ne (b : B) {id id' : LockIdentifier} {who who' : Acc} (amount : ℕ) :
    (id', who') ≠ (id, who) → lockUnder (Balances.setLock b id who amount) id' who' = lockUnder b id' who'
  removeLock_self (b : B) (id : LockIdentifier) (who : Acc) :
    lockUnder (Balances.removeLock b id who) id who = none
  removeLock_of_ne (b : B) {id id' : LockIdentifier} {who who' : Acc} :
    (id', who') ≠ (id, who) → lockUnder (Balances.removeLock b id who) id' who' = lockUnder b id' who'

theorem LawfulLocks.getD_setLock [LawfulLocks Acc B] (b : B) (id : LockIdentifier)
    (who : Acc) (h : (lockUnder b id who).getD 0 ≤ amount) :
    (lockUnder (Balances.setLock b id who amount) id who).getD 0 = amount := by
  cases amount with
  | zero => rw [setLock_zero, Nat.le_zero.mp h]
  | succ amount => rw [setLock_self _ _ _ (Nat.succ_ne_zero _), Option.getD_some]

end Currency

theorem foldl_lock_eq {id : LockIdentifier} {locks : List BalanceLock} {amount : ℕ}
    (h : (locks.map BalanceLock.id).Nodup) :
    locks.foldl (fun amount lock => if lock.id = id then lock.amount else amount) amount =
      ((locks.find? (·.id = id)).map BalanceLock.amount).getD amount := by
  induction locks generalizing amount with
  | nil => rfl
  | cons lock locks hi =>
    obtain ⟨hn, hl⟩ := nodup_cons.mp h
    rw [foldl_cons, hi hl]
    by_cases hid : lock.id = id
    case pos =>
      have hnone : locks.find? (·.id = id) = none := by
        refine find?_eq_none.mpr fun l hm he => hn ?_
        rw [hid, ← of_decide_eq_true he]
        exact mem_map_of_mem hm
      rw [find?_cons_of_pos (by simpa using hid), hnone, if_pos hid]
      rfl
    case neg =>
      rw [find?_cons_of_neg (by simpa using hid), if_neg hid]

-- Tokens that were minted in a block.
structure Mint (Acc : Type) where
  beneficiary : Acc
  amount : ℕ
  block : ℕ
deriving DecidableEq

-- A call of the pallet, or a change of the balances by the rest of the chain.
inductive Move (Acc Hash B : Type)
  | call (c : Call Acc Hash)
  | others (balances : B)

-- What the calls of the pallet are about, apart from the approvals.
structure Ledger (Acc B : Type) where
  mintableTokens : ℕ
  lockedTokenHolders : Acc → Option ℕ
  currentBlockNumber : ℕ
  balances : B

namespace State

abbrev ledger (s : State Acc Hash B cfg) : Ledger Acc B :=
  ⟨s.mintableTokens, s.lockedTokenHolders, s.currentBlockNumber, s.balances⟩

end State

section Moves

variable [DecidableEq Acc] [DecidableEq Hash] [Inhabited Hash] [Balances Acc B]

def Event.toMint (block : ℕ) : Event Acc Hash → Option (Mint Acc)
  | .nativePDEXMintedAndLocked _ beneficiary amount => some ⟨beneficiary, amount, block⟩
  | _ => none

def minted (s : State Acc Hash B cfg) (c : Call Acc Hash) : List (Mint Acc) :=
  ((Run.exec step s c).events.drop s.events.length).filterMap (Event.toMint s.currentBlockNumber)

def Call.releases : Call Acc Hash → Option Acc
  | .unlock beneficiary | .removeMintedTokens beneficiary => some beneficiary
  | _ => none

def released (s : State Acc Hash B cfg) (c : Call Acc Hash) : Option Acc :=
  if (step s c).isSome then c.releases else none

namespace Move

def step (s : State Acc Hash B cfg) : Move Acc Hash B → Option (State Acc Hash B cfg)
  | .call c          => PdexMigration.step s c
  | .others balances => some { s with balances }

-- Nobody else uses the identifier of the migration lock.
def KeepsLocks (s : State Acc Hash B cfg) : Move Acc Hash B → Prop
  | .call _          => True
  | .others balances => ∀ who, lockUnder balances migrationLock who = lockUnder s.balances migrationLock who

-- The mints whose tokens have neither been unlocked nor removed since.
def record (mints : List (Mint Acc)) (e : State Acc Hash B cfg × Move Acc Hash B) :
    List (Mint Acc) :=
  match e.2 with
  | .call c   => mints.filter (fun m => released e.1 c ≠ some m.beneficiary) ++ minted e.1 c
  | .others _ => mints

def openMints (s : State Acc Hash B cfg) (ms : List (Move Acc Hash B)) : List (Mint Acc) :=
  (Run.trace step s ms).foldl record []

end Move

-- What a call does to the ledger.
inductive Effect (s : State Acc Hash B cfg) (c : Call Acc Hash) : Ledger Acc B → Prop
  | mint {m : Mint Acc} (hm : minted s c = [m]) (hr : released s c = none)
      (hb : m.block = s.currentBlockNumber) (ha : m.amount ≤ s.mintableTokens) :
      Effect s c (s.mintAndLock m.beneficiary m.amount).ledger
  | unlock {who : Acc} (hm : minted s c = []) (hr : released s c = some who) (hc : c = .unlock who) :
      Effect s c { s.ledger with
        lockedTokenHolders := update s.lockedTokenHolders who none
        balances := Balances.removeLock s.balances migrationLock who }
  | remove {who : Acc} {balances : B} (hm : minted s c = []) (hr : released s c = some who)
      (hc : c = .removeMintedTokens who)
      (hb : Balances.burnFrom (Balances.removeLock s.balances migrationLock who) who
        ((lockUnder s.balances migrationLock who).getD 0) = some balances) :
      Effect s c { s.ledger with
        mintableTokens :=
          Word.wrappingAdd 128 s.mintableTokens ((lockUnder s.balances migrationLock who).getD 0)
        lockedTokenHolders := update s.lockedTokenHolders who none
        balances := balances }
  | tick (hm : minted s c = []) (hr : released s c = none) :
      Effect s c { s.ledger with currentBlockNumber := s.currentBlockNumber + 1 }
  | keep (hm : minted s c = []) (hr : released s c = none) : Effect s c s.ledger

variable {s s' : State Acc Hash B cfg} {c : Call Acc Hash}

theorem minted_of_events (h : step s c = some s')
    (he : s'.events = s.events ++ e) : minted s c = e.filterMap (Event.toMint s.currentBlockNumber) := by
  rw [minted, Run.exec_of_some h, he, drop_left]

theorem released_of_step (h : step s c = some s') : released s c = c.releases := by
  rw [released, h, if_pos Option.isSome_some]

theorem effect_of_none (h : step s c = none) : Effect s c s.ledger := by
  refine .keep ?minted ?released
  case minted => rw [minted, Run.exec_of_none h, drop_length, filterMap_nil]
  case released => rw [released, h, if_neg (by simp)]

theorem effect_of_mint (h : step s (.mint relayer beneficiary amount ethTx) = some s') :
    Effect s (.mint relayer beneficiary amount ethTx) s'.ledger := by
  have hr := released_of_step h
  have hm {e} := minted_of_events h (e := e)
  simp only [step, dispatch, toOption_eq_some, State.mint, State.processMigration] at h
  split_ifs at h with _ _ _ _ hle h₃
  case pos =>
    split at h
    case h_1 => cases h
    case h_2 =>
      cases h
      exact .mint (m := ⟨beneficiary, amount, s.currentBlockNumber⟩) (hm rfl) hr rfl hle
  case neg =>
    split at h
    case h_1 => cases h
    case h_2 =>
      cases h
      exact .keep (hm rfl) hr

theorem effect_of_unlock (h : step s (.unlock who) = some s') : Effect s (.unlock who) s'.ledger := by
  have hr := released_of_step h
  have hm {e} := minted_of_events h (e := e)
  simp only [step, dispatch, toOption_eq_some, State.unlock, State.processUnlock] at h
  split_ifs at h
  split at h
  case h_1 => cases h
  case h_2 =>
    split_ifs at h
    cases h
    exact .unlock (hm (append_nil _).symm) hr rfl

theorem effect_of_remove (h : step s (.removeMintedTokens who) = some s') :
    Effect s (.removeMintedTokens who) s'.ledger := by
  have hr := released_of_step h
  have hm {e} := minted_of_events h (e := e)
  have hlock : ((Balances.locks s.balances who).find? (·.id = migrationLock)).elim 0 BalanceLock.amount =
      (lockUnder s.balances migrationLock who).getD 0 := by
    rw [lockUnder]
    cases (Balances.locks s.balances who).find? (·.id = migrationLock) <;> rfl
  simp only [step, dispatch, toOption_eq_some, State.removeFradulentTokens, hlock] at h
  split at h
  case h_1 => cases h
  case h_2 hb =>
    cases h
    exact .remove (hm rfl) hr rfl hb

theorem effect (s : State Acc Hash B cfg) (c : Call Acc Hash) :
    Effect s c (Run.exec step s c).ledger := by
  rcases Run.exec_cases step s c with hs | ⟨hs, he⟩
  case inr => rw [he]; exact effect_of_none hs
  case inl =>
    cases c with
    | mint => exact effect_of_mint hs
    | unlock => exact effect_of_unlock hs
    | removeMintedTokens => exact effect_of_remove hs
    | setRelayerStatus relayer status =>
      exact .keep (minted_of_events hs (e := [.relayerStatusUpdated relayer status]) rfl)
        (released_of_step hs)
    | nextBlock => exact .tick (minted_of_events hs (e := []) (append_nil _).symm) (released_of_step hs)
    | setMigrationOperationalStatus =>
      exact .keep (minted_of_events hs (e := []) (append_nil _).symm) (released_of_step hs)

end Moves

section Mints

variable [DecidableEq Acc] {mints : List (Mint Acc)} {who who' : Acc} {m : Mint Acc}

def mintsTo (who : Acc) (mints : List (Mint Acc)) : List (Mint Acc) :=
  mints.filter (·.beneficiary = who)

def totalMinted (mints : List (Mint Acc)) : ℕ :=
  (mints.map Mint.amount).sum

def withoutMintsTo (who : Option Acc) (mints : List (Mint Acc)) : List (Mint Acc) :=
  mints.filter (fun m => who ≠ some m.beneficiary)

theorem mintsTo_snoc_self : mintsTo m.beneficiary (mints ++ [m]) = mintsTo m.beneficiary mints ++ [m] := by
  simp [mintsTo]

theorem mintsTo_snoc_of_ne (h : who ≠ m.beneficiary) : mintsTo who (mints ++ [m]) = mintsTo who mints := by
  simp [mintsTo, h.symm]

theorem withoutMintsTo_none : withoutMintsTo none mints = mints := by
  simp [withoutMintsTo]

theorem mintsTo_withoutMintsTo_self : mintsTo who (withoutMintsTo (some who) mints) = [] := by
  simp only [mintsTo, withoutMintsTo, filter_filter, filter_eq_nil_iff]
  simp +contextual

theorem mintsTo_withoutMintsTo_of_ne (h : who' ≠ who) :
    mintsTo who' (withoutMintsTo (some who) mints) = mintsTo who' mints := by
  simp only [mintsTo, withoutMintsTo, filter_filter]
  refine filter_congr fun m _ => ?_
  by_cases hm : m.beneficiary = who' <;> simp [hm, h.symm]

omit [DecidableEq Acc] in
theorem totalMinted_snoc : totalMinted (mints ++ [m]) = totalMinted mints + m.amount := by
  simp [totalMinted]

theorem totalMinted_split (who : Acc) (mints : List (Mint Acc)) :
    totalMinted (withoutMintsTo (some who) mints) + totalMinted (mintsTo who mints) = totalMinted mints := by
  have hwithout : withoutMintsTo (some who) mints = mints.filter (fun m => !decide (m.beneficiary = who)) :=
    filter_congr fun m _ => by simp [eq_comm]
  rw [hwithout, add_comm, totalMinted, totalMinted, totalMinted, ← sum_append, ← map_append]
  exact ((filter_append_perm _ mints).map _).sum_eq

end Mints

section Invariant

variable [DecidableEq Acc] [Balances Acc B]

-- What the ledger says about the mints whose tokens are locked.
structure Tracked (maxTokens : ℕ) (mints : List (Mint Acc)) (l : Ledger Acc B) : Prop where
  lock   : ∀ who, (lockUnder l.balances migrationLock who).getD 0 = totalMinted (mintsTo who mints)
  locked : ∀ who, (lockUnder l.balances migrationLock who).isSome → (l.lockedTokenHolders who).isSome
  holder : ∀ who, l.lockedTokenHolders who = (mintsTo who mints).getLast?.map Mint.block
  blocks : ∀ m ∈ mints, m.block ≤ l.currentBlockNumber
  sorted : mints.Pairwise (·.block ≤ ·.block)
  budget : l.mintableTokens + totalMinted mints ≤ maxTokens

namespace Tracked

variable {maxTokens : ℕ} {mints : List (Mint Acc)} {l l' : Ledger Acc B}

theorem tick (h : Tracked maxTokens mints l) :
    Tracked maxTokens mints { l with currentBlockNumber := l.currentBlockNumber + 1 } :=
  { h with blocks := fun m hm => (h.blocks m hm).trans (Nat.le_succ _) }

theorem others (h : Tracked maxTokens mints l) {balances : B}
    (hk : ∀ who, lockUnder balances migrationLock who = lockUnder l.balances migrationLock who) :
    Tracked maxTokens mints { l with balances } :=
  { h with
    lock := fun who => hk who ▸ h.lock who
    locked := fun who => hk who ▸ h.locked who }

theorem lock_le (h : Tracked maxTokens mints l) (who : Acc) :
    l.mintableTokens + (lockUnder l.balances migrationLock who).getD 0 ≤ maxTokens := by
  have hbudget := h.budget
  have hsplit := totalMinted_split who mints
  rw [h.lock]
  omega

-- The tokens of an account are released. What is not removed is not mintable again.
theorem release (h : Tracked maxTokens mints l) (hs : lockUnder l'.balances migrationLock who = none)
    (ho : ∀ who' ≠ who, lockUnder l'.balances migrationLock who' = lockUnder l.balances migrationLock who')
    (hh : l'.lockedTokenHolders = update l.lockedTokenHolders who none)
    (hb : l'.currentBlockNumber = l.currentBlockNumber)
    (hm : l'.mintableTokens ≤ l.mintableTokens + (lockUnder l.balances migrationLock who).getD 0) :
    Tracked maxTokens (withoutMintsTo (some who) mints) l'  where
  lock who' := by
    by_cases hw : who' = who
    case pos => rw [hw, hs, mintsTo_withoutMintsTo_self]; rfl
    case neg => rw [ho who' hw, mintsTo_withoutMintsTo_of_ne hw, h.lock]
  locked who' hsome := by
    by_cases hw : who' = who
    case pos => simp [hw, hs] at hsome
    case neg =>
      rw [ho who' hw] at hsome
      rw [hh, update_of_ne hw]
      exact h.locked who' hsome
  holder who' := by
    by_cases hw : who' = who
    case pos => rw [hw, hh, update_self, mintsTo_withoutMintsTo_self]; rfl
    case neg => rw [hh, update_of_ne hw, mintsTo_withoutMintsTo_of_ne hw, h.holder]
  blocks m hmem := hb ▸ h.blocks m (mem_of_mem_filter hmem)
  sorted := h.sorted.filter _
  budget := by
    have hbudget := h.budget
    have hsplit := totalMinted_split who mints
    rw [h.lock] at hm
    omega

end Tracked

variable [DecidableEq Hash] [Inhabited Hash] [LawfulLocks Acc B]
  {s s' : State Acc Hash B cfg} {c : Call Acc Hash} {maxTokens : ℕ}
  {mints : List (Mint Acc)} {l : Ledger Acc B}

omit [DecidableEq Hash] [Inhabited Hash] [DecidableEq Acc] in
theorem previousLockedBalance_eq (s : State Acc Hash B cfg) (who : Acc) :
    s.previousLockedBalance who = (lockUnder s.balances migrationLock who).getD 0 :=
  foldl_lock_eq (LawfulLocks.nodup s.balances who)

namespace Tracked

omit [DecidableEq Hash] [Inhabited Hash] in
theorem mint (h : Tracked maxTokens mints s.ledger) (hmax : maxTokens < 2 ^ 128)
 (hb : m.block = s.currentBlockNumber) (ha : m.amount ≤ s.mintableTokens) :
    Tracked maxTokens (mints ++ [m]) (s.mintAndLock m.beneficiary m.amount).ledger := by
  have hbalance := h.lock_le m.beneficiary
  have hadd : Word.saturatingAdd 128 m.amount
      ((lockUnder s.balances migrationLock m.beneficiary).getD 0) =
      m.amount + (lockUnder s.balances migrationLock m.beneficiary).getD 0 := by
    refine Word.saturatingAdd_eq (Word.lt_two_pow_iff.mp ?_)
    simp only at hbalance
    omega
  have hself : (lockUnder (s.mintAndLock m.beneficiary m.amount).balances migrationLock
      m.beneficiary).getD 0 = m.amount + (lockUnder s.balances migrationLock m.beneficiary).getD 0 := by
    simp only [State.mintAndLock, previousLockedBalance_eq, LawfulLocks.depositCreating, hadd]
    refine LawfulLocks.getD_setLock _ _ _ ?_
    rw [LawfulLocks.depositCreating]
    omega
  have hother (who : Acc) (hw : who ≠ m.beneficiary) :
      lockUnder (s.mintAndLock m.beneficiary m.amount).balances migrationLock who =
        lockUnder s.balances migrationLock who := by
    simp only [State.mintAndLock]
    rw [LawfulLocks.setLock_of_ne _ _ (by simp [hw]), LawfulLocks.depositCreating]
  have hholders : (s.mintAndLock m.beneficiary m.amount).ledger.lockedTokenHolders =
      update s.lockedTokenHolders m.beneficiary (some s.currentBlockNumber) := rfl
  refine ⟨fun who => ?lock, fun who hsome => ?locked, fun who => ?holder, ?blocks, ?sorted, ?budget⟩
  case lock =>
    by_cases hw : who = m.beneficiary
    case pos => rw [hw, hself, h.lock, mintsTo_snoc_self, totalMinted_snoc, add_comm]
    case neg => rw [hother who hw, mintsTo_snoc_of_ne hw, h.lock]
  case locked =>
    by_cases hw : who = m.beneficiary
    case pos => rw [hw, hholders, update_self]; rfl
    case neg =>
      rw [hother who hw] at hsome
      rw [hholders, update_of_ne hw]
      exact h.locked who hsome
  case holder =>
    by_cases hw : who = m.beneficiary
    case pos => rw [hw, hholders, update_self, mintsTo_snoc_self, getLast?_concat, ← hb]; rfl
    case neg =>
      rw [hholders, update_of_ne hw, mintsTo_snoc_of_ne hw]
      exact h.holder who
  case blocks =>
    intro m' hm'
    rcases mem_append.mp hm' with hm' | hm'
    · exact h.blocks m' hm'
    · exact mem_singleton.mp hm' ▸ hb.le
  case sorted =>
    refine pairwise_append.mpr ⟨h.sorted, pairwise_singleton .., fun m₁ h₁ m₂ h₂ => ?_⟩
    rw [mem_singleton.mp h₂, hb]
    exact h.blocks m₁ h₁
  case budget =>
    have hbudget := h.budget
    have hmintable : (s.mintAndLock m.beneficiary m.amount).ledger.mintableTokens =
        s.mintableTokens - m.amount := rfl
    rw [hmintable, totalMinted_snoc]
    simp only at hbudget
    omega

theorem effect (h : Tracked maxTokens mints s.ledger) (hmax : maxTokens < 2 ^ 128)
    (he : Effect s c l) :
    Tracked maxTokens (Move.record mints (s, .call c)) l := by
  have hrecord : Move.record mints (s, .call c) = withoutMintsTo (released s c) mints ++ minted s c := rfl
  rw [hrecord]
  have hbalance := h.lock_le
  cases he with
  | mint hm hr hb ha =>
    rw [hm, hr, withoutMintsTo_none]
    exact h.mint hmax hb ha
  | tick hm hr =>
    rw [hm, hr, withoutMintsTo_none, append_nil]
    exact h.tick
  | keep hm hr =>
    rw [hm, hr, withoutMintsTo_none, append_nil]
    exact h
  | @unlock who hm hr =>
    rw [hm, hr, append_nil]
    exact h.release (LawfulLocks.removeLock_self ..)
      (fun who' hw => LawfulLocks.removeLock_of_ne _ (by simp [hw])) rfl rfl (Nat.le_add_right ..)
  | @remove who balances hm hr _ hburn =>
    rw [hm, hr, append_nil]
    refine h.release ?_ (fun who' hw => ?_) rfl rfl ?_
    · rw [LawfulLocks.burnFrom _ _ hburn, LawfulLocks.removeLock_self]
    · rw [LawfulLocks.burnFrom _ _ hburn, LawfulLocks.removeLock_of_ne _ (by simp [hw])]
    · exact Nat.mod_le ..

omit [DecidableEq Hash] [Inhabited Hash] [LawfulLocks Acc B] in
theorem init (balances : B) (h : ∀ who, lockUnder balances migrationLock who = none) :
    Tracked maxTokens ([] : List (Mint Acc)) ⟨maxTokens, fun _ => none, 0, balances⟩ where
  lock who := by rw [h]; rfl
  locked who hsome := by rw [h] at hsome; cases hsome
  holder _ := rfl
  blocks := by simp
  sorted := .nil
  budget := le_rfl

theorem step (h : Tracked maxTokens mints s.ledger) (hmax : maxTokens < 2 ^ 128) (hk : m.KeepsLocks s) :
    Tracked maxTokens (Move.record mints (s, m)) (Run.exec Move.step s m).ledger := by
  cases m with
  | others balances => exact h.others hk
  | call c => exact h.effect hmax (PdexMigration.effect s c)

omit [DecidableEq Hash] [Inhabited Hash] [LawfulLocks Acc B] in
theorem old_iff (h : Tracked maxTokens mints l)
    (hh : l.lockedTokenHolders who = some block) (period now : ℕ) :
    (∀ m ∈ mintsTo who mints, m.block + period ≤ now) ↔ block + period ≤ now := by
  obtain ⟨last, hlast, rfl⟩ := Option.map_eq_some_iff.mp ((h.holder who).symm.trans hh)
  obtain ⟨earlier, heq⟩ := getLast?_eq_some_iff.mp hlast
  have hsorted : (earlier ++ [last]).Pairwise (·.block ≤ ·.block) := heq ▸ h.sorted.filter _
  rw [heq]
  refine ⟨fun hall => hall last (by simp), fun hle m hm => ?_⟩
  rcases mem_append.mp hm with hm | hm
  · have := (pairwise_append.mp hsorted).2.2 m hm last (mem_singleton_self _)
    omega
  · exact mem_singleton.mp hm ▸ hle

end Tracked

theorem tracked_run (operational : Bool) (hmax : maxTokens < 2 ^ 128) (balances : B)
    (hlocks : ∀ who, lockUnder balances migrationLock who = none)
    (hk : Run.Along Move.step (fun s m => m.KeepsLocks s)
      (.genesis operational maxTokens balances : State Acc Hash B cfg) ms) : Tracked maxTokens
      (Move.openMints (.genesis operational maxTokens balances : State Acc Hash B cfg) ms)
      (Run.run Move.step (.genesis operational maxTokens balances : State Acc Hash B cfg) ms).ledger := by
  refine hk.induction (motive := fun ms s => Tracked maxTokens (Move.openMints _ ms) s.ledger)
    (.init balances hlocks) fun ms m h hi => ?_
  rw [Move.openMints, Run.trace_append, foldl_append]
  exact hi.step hmax h.last

omit [LawfulLocks Acc B] in
theorem isSome_unlock_iff : (step s (.unlock who)).isSome ↔ s.operational = true ∧
    ∃ block, s.lockedTokenHolders who = some block ∧
      Word.wrappingAdd 32 block cfg.lockPeriod ≤ s.currentBlockNumber := by
  simp only [step, dispatch, State.unlock, State.processUnlock]
  cases s.lockedTokenHolders who with
  | none => split_ifs <;> simp [Except.toOption]
  | some block =>
    by_cases hle : Word.wrappingAdd 32 block cfg.lockPeriod ≤ s.currentBlockNumber
    case pos => simp only [if_pos hle]; split_ifs with ho <;> simp [Except.toOption, ho, hle]
    case neg => simp only [if_neg hle]; split_ifs with ho <;> simp [Except.toOption, hle]

-- The lock is on what was minted since the last release, and it can be released once all of that is
-- old enough.
structure LockHolds (mints : List (Mint Acc)) (s : State Acc Hash B cfg) (who : Acc) :
    Prop where
  lock   : (lockUnder s.balances migrationLock who).getD 0 = totalMinted (mintsTo who mints)
  holder : (lockUnder s.balances migrationLock who).isSome → (s.lockedTokenHolders who).isSome
  unlock : s.operational = true → ((step s (.unlock who)).isSome ↔ (s.lockedTokenHolders who).isSome ∧
    ∀ m ∈ mintsTo who mints, m.block + cfg.lockPeriod ≤ s.currentBlockNumber)

-- The block from which on the tokens can be unlocked is computed in 32 bits.
theorem lock_holds_iff (operational : Bool) (hmax : maxTokens < 2 ^ 128) (balances : B)
    (hlocks : ∀ who, lockUnder balances migrationLock who = none) (ms : List (Move Acc Hash B))
    (hk : Run.Along Move.step (fun s m => m.KeepsLocks s)
      (.genesis operational maxTokens balances : State Acc Hash B cfg) ms)
    (hs : Run.run Move.step (.genesis operational maxTokens balances) ms = s)
    (hperiod : cfg.lockPeriod < 2 ^ 32) (hblock : s.currentBlockNumber < 2 ^ 32) (who : Acc) :
    LockHolds (Move.openMints (.genesis operational maxTokens balances : State Acc Hash B cfg) ms) s who ↔
    (s.operational = true → ∀ block, s.lockedTokenHolders who = some block →
      block + cfg.lockPeriod < 2 ^ 32) := by
  have h := tracked_run operational hmax balances hlocks hk
  rw [hs] at h
  have hold (block : ℕ) (hh : s.lockedTokenHolders who = some block) : block ≤ s.currentBlockNumber := by
    obtain ⟨last, hlast, rfl⟩ := Option.map_eq_some_iff.mp ((h.holder who).symm.trans hh)
    exact h.blocks last (mem_of_mem_filter (mem_of_getLast? hlast))
  constructor
  case mp =>
    intro hl ho block hh
    by_contra hlt
    -- The sum wraps around, so that the tokens can be unlocked at once.
    have hle := hold block hh
    have hwrap : Word.wrappingAdd 32 block cfg.lockPeriod ≤ s.currentBlockNumber := by
      rw [Word.wrappingAdd]
      omega
    obtain ⟨_, hall⟩ := (hl.unlock ho).mp (isSome_unlock_iff.mpr ⟨ho, block, hh, hwrap⟩)
    have := (h.old_iff hh cfg.lockPeriod s.currentBlockNumber).mp hall
    omega
  case mpr =>
    intro hlt
    refine ⟨h.lock who, h.locked who, fun ho => ?_⟩
    rw [isSome_unlock_iff]
    cases hh : s.lockedTokenHolders who with
    | none => simp
    | some block =>
      have hlt := hlt ho block hh
      have hwrap : Word.wrappingAdd 32 block cfg.lockPeriod = block + cfg.lockPeriod :=
        Nat.mod_eq_of_lt hlt
      rw [h.old_iff hh]
      simp [ho, hwrap]

end Invariant

namespace Mock

def existentialDeposit : ℕ :=
  10

-- A balances pallet for concrete runs.
structure Bank where
  free : ℕ → ℕ
  issuance : ℕ
  locks : ℕ → AList fun _ : LockIdentifier => ℕ

namespace Bank

def depositCreating (b : Bank) (who amount : ℕ) : Bank :=
  if amount ≠ 0 ∧ (existentialDeposit ≤ amount ∨ b.free who ≠ 0) ∧ b.free who + amount < 2 ^ 128 then
    { b with
      free := update b.free who (b.free who + amount)
      issuance := Word.saturatingAdd 128 b.issuance amount }
  else b

def dust (rest : ℕ) : ℕ :=
  if rest < existentialDeposit then rest else 0

def burnFrom (b : Bank) (who amount : ℕ) : Option Bank :=
  if amount ≤ b.free who ∧ amount + dust (b.free who - amount) ≤ b.issuance then
    some { b with
      free := update b.free who (b.free who - amount - dust (b.free who - amount))
      issuance := b.issuance - (amount + dust (b.free who - amount)) }
  else none

def setLock (b : Bank) (id : LockIdentifier) (who amount : ℕ) : Bank :=
  if amount = 0 then b
  else { b with locks := update b.locks who ((b.locks who).insert id amount) }

def removeLock (b : Bank) (id : LockIdentifier) (who : ℕ) : Bank :=
  { b with locks := update b.locks who ((b.locks who).erase id) }

end Bank

instance : Balances ℕ Bank where
  locks b who := (b.locks who).entries.map fun entry => ⟨entry.1, entry.2⟩
  depositCreating := Bank.depositCreating
  setLock := Bank.setLock
  removeLock := Bank.removeLock
  burnFrom := Bank.burnFrom

theorem find?_lock_eq (id : LockIdentifier) (entries : List (Σ _ : LockIdentifier, ℕ)) :
    ((entries.map fun entry => (⟨entry.1, entry.2⟩ : BalanceLock)).find? (·.id = id)).map BalanceLock.amount =
      entries.dlookup id := by
  induction entries with
  | nil => rfl
  | cons entry entries hi =>
    obtain ⟨id', amount⟩ := entry
    by_cases h : id' = id
    case pos => subst h; simp
    case neg => rw [map_cons, find?_cons_of_neg (by simpa using h), hi, dlookup_cons_ne _ _ (Ne.symm h)]

theorem lockUnder_eq (b : Bank) (id : LockIdentifier) (who : ℕ) :
    lockUnder b id who = (b.locks who).lookup id :=
  find?_lock_eq id (b.locks who).entries

theorem nodup_locks (b : Bank) (who : ℕ) : ((Balances.locks b who).map BalanceLock.id).Nodup := by
  simp only [Balances.locks, map_map]
  exact (b.locks who).nodupKeys

theorem lockUnder_depositCreating (b : Bank) (payee amount : ℕ) (id : LockIdentifier) (who : ℕ) :
    lockUnder (b.depositCreating payee amount) id who = lockUnder b id who := by
  rw [lockUnder_eq, lockUnder_eq, Bank.depositCreating]
  split_ifs <;> rfl

theorem lockUnder_burnFrom {b b' : Bank} (id : LockIdentifier) (who : ℕ)
    (h : b.burnFrom payer amount = some b') : lockUnder b' id who = lockUnder b id who := by
  simp only [Bank.burnFrom, Option.ite_none_right_eq_some, Option.some.injEq] at h
  rw [lockUnder_eq, lockUnder_eq, ← h.2]

theorem lockUnder_setLock_self (b : Bank) (id : LockIdentifier) (who : ℕ) {amount : ℕ} (h : amount ≠ 0) :
    lockUnder (b.setLock id who amount) id who = some amount := by
  rw [lockUnder_eq, Bank.setLock, if_neg h]
  simp only [update_self, AList.lookup_insert]

theorem lookup_update_of_ne {b : Bank} {id id' : LockIdentifier} {who who' : ℕ}
    {locks : AList fun _ : LockIdentifier => ℕ} (h : (id', who') ≠ (id, who))
    (hl : id' ≠ id → locks.lookup id' = (b.locks who).lookup id') :
    (update b.locks who locks who').lookup id' = (b.locks who').lookup id' := by
  by_cases hw : who' = who
  case pos =>
    subst hw
    rw [update_self, hl (by simpa using h)]
  case neg => rw [update_of_ne hw]

theorem lockUnder_setLock_of_ne (b : Bank) {id id' : LockIdentifier} {who who' : ℕ} (amount : ℕ)
    (h : (id', who') ≠ (id, who)) : lockUnder (b.setLock id who amount) id' who' = lockUnder b id' who' := by
  rw [lockUnder_eq, lockUnder_eq, Bank.setLock]
  split_ifs
  case pos => rfl
  case neg => exact lookup_update_of_ne h fun hid => AList.lookup_insert_ne hid

theorem lockUnder_removeLock_self (b : Bank) (id : LockIdentifier) (who : ℕ) :
    lockUnder (b.removeLock id who) id who = none := by
  rw [lockUnder_eq, Bank.removeLock]
  simp only [update_self, AList.lookup_erase]

theorem lockUnder_removeLock_of_ne (b : Bank) {id id' : LockIdentifier} {who who' : ℕ}
    (h : (id', who') ≠ (id, who)) : lockUnder (b.removeLock id who) id' who' = lockUnder b id' who' := by
  rw [lockUnder_eq, lockUnder_eq, Bank.removeLock]
  exact lookup_update_of_ne h fun hid => AList.lookup_erase_ne hid

instance : LawfulLocks ℕ Bank where
  nodup := nodup_locks
  depositCreating := lockUnder_depositCreating
  burnFrom := lockUnder_burnFrom
  setLock_zero _ _ _ := rfl
  setLock_self := lockUnder_setLock_self
  setLock_of_ne := lockUnder_setLock_of_ne
  removeLock_self := lockUnder_removeLock_self
  removeLock_of_ne := lockUnder_removeLock_of_ne

def bank (free : ℕ → ℕ) (issuance : ℕ) : Bank where
  free := free
  issuance := issuance
  locks _ := ∅

def start : State ℕ ℕ Bank ⟨3, 201600⟩ :=
  .genesis true 1000 (bank (fun _ => 0) 5000)

def relayers : List (Move ℕ ℕ Bank) :=
  [.call (.setRelayerStatus 1 true), .call (.setRelayerStatus 2 true), .call (.setRelayerStatus 3 true)]

def approvals (beneficiary amount : ℕ) : List (Move ℕ ℕ Bank) :=
  [1, 2, 3].map fun relayer => .call (.mint relayer beneficiary amount 7)

def mintAt (block amount : ℕ) : List (Move ℕ ℕ Bank) :=
  relayers ++ (List.replicate block (.call .nextBlock) ++ approvals 10 amount)

theorem keepsLocks_mintAt (block amount : ℕ) :
    Run.Along Move.step (fun s m => m.KeepsLocks s) start (mintAt block amount) := by
  intro e he
  obtain ⟨before, after, hsplit, _⟩ := Run.mem_trace_split he
  have hmem : e.2 ∈ mintAt block amount := by simp [hsplit]
  cases hm : e.2 with
  | call => trivial
  | others => simp [hm, mintAt, relayers, approvals, mem_replicate] at hmem

theorem run_nextBlocks (s : State ℕ ℕ Bank ⟨3, 201600⟩) (n : ℕ) :
    Run.run Move.step s (List.replicate n (.call .nextBlock)) =
      { s with currentBlockNumber := s.currentBlockNumber + n } := by
  induction n generalizing s with
  | zero => rfl
  | succ n hi =>
    rw [replicate_succ, Run.run_cons, hi]
    simp only [Run.exec, Move.step, PdexMigration.step, dispatch, Except.toOption, Option.getD_some]
    congr 1
    omega

theorem run_mintAt (block amount : ℕ) : Run.run Move.step start (mintAt block amount) =
    Run.run Move.step
      { Run.run Move.step start relayers with currentBlockNumber := block } (approvals 10 amount) := by
  have hblock : (Run.run Move.step start relayers).currentBlockNumber = 0 := rfl
  rw [mintAt, Run.run_append, Run.run_append, run_nextBlocks, hblock, Nat.zero_add]

theorem minted_lock_holds :
    lockUnder (Run.run Move.step start (mintAt 5 100)).balances migrationLock 10 = some 100 ∧
    LockHolds (Move.openMints start (mintAt 5 100)) (Run.run Move.step start (mintAt 5 100)) 10 := by
  refine ⟨by decide +kernel, ?_⟩
  refine (lock_holds_iff true (by decide) _ (fun _ => rfl) (mintAt 5 100) (keepsLocks_mintAt 5 100) rfl
    (by decide) (by decide +kernel) 10).mpr fun _ block hb => ?_
  have hholder : (Run.run Move.step start (mintAt 5 100)).lockedTokenHolders 10 = some 5 := by
    decide +kernel
  rw [← Option.some.inj (hholder.symm.trans hb)]
  decide

-- Tokens that are minted in the last block can be unlocked at once.
theorem unlocked_at_once :
    (Run.run Move.step start (mintAt (2 ^ 32 - 1) 100)).currentBlockNumber = 2 ^ 32 - 1 ∧
    (Run.run Move.step start (mintAt (2 ^ 32 - 1) 100)).lockedTokenHolders 10 = some (2 ^ 32 - 1) ∧
    lockUnder (Run.run Move.step start (mintAt (2 ^ 32 - 1) 100)).balances migrationLock 10 = some 100 ∧
    (step (Run.run Move.step start (mintAt (2 ^ 32 - 1) 100)) (.unlock 10)).isSome := by
  rw [run_mintAt]
  decide +kernel

end Mock

end PdexMigration
