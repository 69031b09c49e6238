import PolkadexModel.PdexMigration.Theorems.Locks
import PolkadexModel.Runtime.Balances

open List

-- The tokens that are left to be minted, against those that have been issued.
namespace PdexMigration

open Runtime (AccountData)

variable {Acc Hash B : Type} {cfg : Config}

-- What the balances pallet stores besides the locks.
class Issuance (Acc : outParam Type) (B : Type) where
  existentialDeposit : ℕ
  totalIssuance : B → ℕ
  account : B → Acc → AccountData

section Currency

variable [Issuance Acc B]

def Creditable (b : B) (who : Acc) (amount : ℕ) : Prop :=
  (Issuance.existentialDeposit B ≤ amount ∨ Issuance.account b who ≠ {}) ∧
    (Issuance.account b who).free + amount < 2 ^ 128

-- What is lost if an account is left with less than the existential deposit.
def dust (b : B) (who : Acc) (amount : ℕ) : ℕ :=
  if (Issuance.account b who).reserved = 0 ∧
      (Issuance.account b who).free - amount < Issuance.existentialDeposit B
  then (Issuance.account b who).free - amount
  else 0

instance (b : B) (who : Acc) (amount : ℕ) : Decidable (Creditable b who amount) :=
  inferInstanceAs (Decidable (_ ∧ _))

class LawfulIssuance (Acc : outParam Type) (B : Type) [Balances Acc B] [Issuance Acc B] :
    Prop where
  depositCreating (b : B) (who : Acc) (amount : ℕ) :
    Issuance.totalIssuance (Balances.depositCreating b who amount) =
      if amount ≠ 0 ∧ Creditable b who amount then Word.saturatingAdd 128 (Issuance.totalIssuance b) amount
      else Issuance.totalIssuance b
  setLock (b : B) (id : LockIdentifier) (who : Acc) (amount : ℕ) :
    Issuance.totalIssuance (Balances.setLock b id who amount) = Issuance.totalIssuance b
  removeLock (b : B) (id : LockIdentifier) (who : Acc) :
    Issuance.totalIssuance (Balances.removeLock b id who) = Issuance.totalIssuance b
  dust_removeLock (b : B) (id : LockIdentifier) (who : Acc) (amount : ℕ) :
    dust (Balances.removeLock b id who) who amount = dust b who amount
  burnFrom {b b' : B} {who : Acc} {amount : ℕ} : Balances.burnFrom b who amount = some b' →
    Issuance.totalIssuance b' + amount + dust b who amount = Issuance.totalIssuance b

def Issues (b : B) (m : Mint Acc) : Prop :=
  m.amount = 0 ∨ Creditable b m.beneficiary m.amount ∧ Issuance.totalIssuance b + m.amount < 2 ^ 128

variable [Balances Acc B]

def shortfall (b : B) (m : Mint Acc) : ℕ :=
  Issuance.totalIssuance b + m.amount -
    Issuance.totalIssuance (Balances.depositCreating b m.beneficiary m.amount)

variable [LawfulIssuance Acc B]

theorem issuance_add_shortfall (b : B) (m : Mint Acc) :
    Issuance.totalIssuance (Balances.depositCreating b m.beneficiary m.amount) + shortfall b m =
      Issuance.totalIssuance b + m.amount := by
  refine Nat.add_sub_cancel' ?_
  rw [LawfulIssuance.depositCreating]
  split_ifs
  case pos => exact Word.saturatingAdd_le
  case neg => exact Nat.le_add_right ..

theorem shortfall_eq_zero_iff (b : B) (m : Mint Acc) : shortfall b m = 0 ↔ Issues b m := by
  rw [shortfall, Nat.sub_eq_zero_iff_le, LawfulIssuance.depositCreating, Issues]
  split_ifs with h
  case pos =>
    rw [Word.saturatingAdd, Nat.le_min, ← Word.lt_two_pow_iff]
    exact ⟨fun hle => .inr ⟨h.2, hle.2⟩, fun hi => ⟨le_rfl, (hi.resolve_left h.1).2⟩⟩
  case neg =>
    refine ⟨fun hle => .inl (by omega), fun hi => ?_⟩
    by_cases hz : m.amount = 0
    case pos => omega
    case neg => exact absurd ⟨hz, (hi.resolve_left hz).1⟩ h

end Currency

section Moves

variable [DecidableEq Acc] [DecidableEq Hash] [Inhabited Hash] [Balances Acc B]

def removed (s : State Acc Hash B cfg) (c : Call Acc Hash) : Option Acc :=
  match c with
  | .removeMintedTokens _ => released s c
  | _ => none

variable [Issuance Acc B]

namespace Move

def issued (s : State Acc Hash B cfg) : Move Acc Hash B → ℤ
  | .call c => Issuance.totalIssuance (Run.exec PdexMigration.step s c).balances -
    Issuance.totalIssuance s.balances
  | .others _ => 0

def lost (s : State Acc Hash B cfg) : Move Acc Hash B → ℕ
  | .call c => ((minted s c).map (shortfall s.balances)).sum +
    (removed s c).elim 0 fun who => dust s.balances who ((lockUnder s.balances migrationLock who).getD 0)
  | .others _ => 0

-- What is minted is issued, and a removal leaves no dust.
def Exact (s : State Acc Hash B cfg) : Move Acc Hash B → Prop
  | .call c => (∀ m ∈ minted s c, Issues s.balances m) ∧
    ∀ who ∈ removed s c, dust s.balances who ((lockUnder s.balances migrationLock who).getD 0) = 0
  | .others _ => True

end Move

variable [LawfulIssuance Acc B]
  {s : State Acc Hash B cfg} {c : Call Acc Hash} {maxTokens : ℕ} {mints : List (Mint Acc)}
  {l : Ledger Acc B}

theorem Move.lost_eq_zero_iff (m : Move Acc Hash B) : m.lost s = 0 ↔ m.Exact s := by
  cases m with
  | others => simp [lost, Exact]
  | call c =>
    simp only [lost, Exact, Nat.add_eq_zero_iff, sum_eq_zero_iff, forall_mem_map,
      shortfall_eq_zero_iff]
    refine and_congr_right fun _ => ?_
    cases removed s c <;> simp

omit [Issuance Acc B] [LawfulIssuance Acc B] in
theorem removed_of_released (h : released s c = none) : removed s c = none := by
  cases c with
  | removeMintedTokens => exact h
  | _ => rfl

theorem Effect.balance (he : Effect s c l) (h : Tracked maxTokens mints s.ledger) (hmax : maxTokens < 2 ^ 128) :
    l.mintableTokens + Issuance.totalIssuance l.balances + (Move.call c : Move Acc Hash B).lost s =
      s.mintableTokens + Issuance.totalIssuance s.balances := by
  cases he with
  | @mint m hm hr _ ha =>
    have hshort := issuance_add_shortfall s.balances m
    simp only [State.mintAndLock, LawfulIssuance.setLock, Move.lost, hm, removed_of_released hr,
      map_singleton, sum_singleton, Option.elim_none]
    omega
  | tick hm hr | keep hm hr =>
    simp [Move.lost, hm, removed_of_released hr]
  | unlock hm hr hc =>
    subst hc
    simp [Move.lost, hm, removed, LawfulIssuance.removeLock]
  | @remove who balances hm hr hc hb =>
    subst hc
    have hburn := LawfulIssuance.burnFrom hb
    have hle := h.lock_le who
    rw [LawfulIssuance.removeLock, LawfulIssuance.dust_removeLock] at hburn
    have hadd : Word.wrappingAdd 128 s.mintableTokens ((lockUnder s.balances migrationLock who).getD 0) =
        s.mintableTokens + (lockUnder s.balances migrationLock who).getD 0 :=
      Nat.mod_eq_of_lt (hle.trans_lt hmax)
    simp only [Move.lost, hm, removed, hr, hadd, map_nil, sum_nil, Option.elim_some]
    omega

theorem balance_step (h : Tracked maxTokens mints s.ledger) (hmax : maxTokens < 2 ^ 128)
    (m : Move Acc Hash B) :
    (Run.exec Move.step s m).mintableTokens + m.issued s + m.lost s = s.mintableTokens := by
  cases m with
  | others balances => simp [Move.issued, Move.lost, Run.exec, Move.step]
  | call c =>
    have hb := (effect s c).balance h hmax
    simp only [Move.issued]
    change ((Run.exec step s c).mintableTokens : ℤ) + _ + _ = _
    simp only at hb
    omega

variable [LawfulLocks Acc B]

-- The run lemma. What is lost in a run is missing from the initial cap.
theorem balance_run (operational : Bool) (hmax : maxTokens < 2 ^ 128) (balances : B)
    (hlocks : ∀ who, lockUnder balances migrationLock who = none)
    (hk : Run.Along Move.step (fun s m => m.KeepsLocks s)
      (.genesis operational maxTokens balances : State Acc Hash B cfg) ms) :
    ((Run.run Move.step (.genesis operational maxTokens balances : State Acc Hash B cfg)
      ms).mintableTokens : ℤ) +
      Run.total Move.step (fun s m => m.issued s)
        (.genesis operational maxTokens balances : State Acc Hash B cfg) ms +
      Run.total Move.step (fun s m => m.lost s)
        (.genesis operational maxTokens balances : State Acc Hash B cfg) ms = maxTokens := by
  refine hk.induction (motive := fun ms s => (s.mintableTokens : ℤ) +
    Run.total Move.step (fun s m => m.issued s) _ ms + Run.total Move.step (fun s m => m.lost s) _ ms =
      maxTokens) (by simp [Run.total, State.genesis]) fun ms m h hi => ?_
  have hstep := balance_step (tracked_run operational hmax balances hlocks h.of_append) hmax m
  simp only [Run.total, Run.trace_append, Run.trace_cons, Run.trace_nil, map_append, map_cons,
    map_nil, sum_append, sum_cons, sum_nil] at hi ⊢
  omega

-- What is left to be minted and what has been issued and not removed never exceed the cap. They make
-- it up as long as every mint is issued, and every removal leaves no dust.
theorem supply_capped_iff (operational : Bool) (hmax : maxTokens < 2 ^ 128) (balances : B)
    (hlocks : ∀ who, lockUnder balances migrationLock who = none) (ms : List (Move Acc Hash B))
    (hk : Run.Along Move.step (fun s m => m.KeepsLocks s)
      (.genesis operational maxTokens balances : State Acc Hash B cfg) ms)
    (hs : Run.run Move.step (.genesis operational maxTokens balances) ms = s) :
    s.mintableTokens + Run.total Move.step (fun s m => m.issued s)
        (.genesis operational maxTokens balances : State Acc Hash B cfg) ms ≤ maxTokens ∧
    (s.mintableTokens + Run.total Move.step (fun s m => m.issued s)
        (.genesis operational maxTokens balances : State Acc Hash B cfg) ms = maxTokens ↔
      Run.Along Move.step (fun s m => m.Exact s)
        (.genesis operational maxTokens balances : State Acc Hash B cfg) ms) := by
  have hrun := balance_run operational hmax balances hlocks hk
  rw [hs] at hrun
  have hexact : Run.total Move.step (fun s m => m.lost s)
        (.genesis operational maxTokens balances : State Acc Hash B cfg) ms = 0 ↔
      Run.Along Move.step (fun s m => m.lost s = 0)
        (.genesis operational maxTokens balances : State Acc Hash B cfg) ms :=
    Run.total_eq_zero_iff
  simp only [Move.lost_eq_zero_iff] at hexact
  rw [← hexact]
  omega

end Moves

namespace Mock

instance : Issuance ℕ Bank where
  existentialDeposit := existentialDeposit
  totalIssuance := Bank.issuance
  account b who := { free := b.free who }

theorem account_ne_iff (b : Bank) (who : ℕ) : Issuance.account b who ≠ {} ↔ b.free who ≠ 0 := by
  simp [Issuance.account]

theorem issuance_depositCreating (b : Bank) (who amount : ℕ) :
    (b.depositCreating who amount).issuance =
      if amount ≠ 0 ∧ Creditable b who amount then Word.saturatingAdd 128 b.issuance amount
      else b.issuance := by
  simp only [Bank.depositCreating, Creditable, account_ne_iff]
  exact apply_ite Bank.issuance ..

theorem dust_eq (b : Bank) (who amount : ℕ) : PdexMigration.dust b who amount = Bank.dust (b.free who - amount) := by
  simp [PdexMigration.dust, Bank.dust, Issuance.account, Issuance.existentialDeposit]

theorem issuance_setLock (b : Bank) (id : LockIdentifier) (who amount : ℕ) :
    (b.setLock id who amount).issuance = b.issuance := by
  rw [Bank.setLock]
  split_ifs <;> rfl

theorem issuance_burnFrom {b b' : Bank} (h : b.burnFrom who amount = some b') :
    b'.issuance + amount + PdexMigration.dust b who amount = b.issuance := by
  simp only [Bank.burnFrom, Option.ite_none_right_eq_some, Option.some.injEq] at h
  obtain ⟨⟨_, hle⟩, hb⟩ := h
  rw [← hb, dust_eq, add_assoc, Nat.sub_add_cancel hle]

instance : LawfulIssuance ℕ Bank where
  depositCreating := issuance_depositCreating
  setLock := issuance_setLock
  removeLock _ _ _ := rfl
  dust_removeLock _ _ _ _ := rfl
  burnFrom := issuance_burnFrom

theorem minted_supply :
    (Run.run Move.step start (mintAt 5 100)).mintableTokens = 900 ∧
    ((Run.run Move.step start (mintAt 5 100)).mintableTokens + Run.total Move.step (fun s m => m.issued s) start
        (mintAt 5 100) = ((1000 : ℕ) : ℤ) ↔
      Run.Along Move.step (fun s m => m.Exact s) start (mintAt 5 100)) :=
  ⟨by decide +kernel, (supply_capped_iff true (by decide) _ (fun _ => rfl) (mintAt 5 100)
    (keepsLocks_mintAt 5 100) rfl).2⟩

-- The account 10 does not exist, and nine planck are not enough to create it. They are not issued.
theorem small_mint_not_issued :
    (Run.run Move.step start (mintAt 0 9)).mintableTokens = 991 ∧
    (Run.run Move.step start (mintAt 0 9)).balances.issuance = start.balances.issuance ∧
    (Run.run Move.step start (mintAt 0 9)).mintableTokens +
      Run.total Move.step (fun s m => m.issued s) start (mintAt 0 9) ≠ ((1000 : ℕ) : ℤ) := by
  decide +kernel

end Mock

end PdexMigration
