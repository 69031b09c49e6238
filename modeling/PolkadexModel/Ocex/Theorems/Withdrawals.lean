import PolkadexModel.Ocex.Theorems.Frame

open Function

namespace Ocex

open State

variable {Acc Auth AuthSign W : Type} [Ord Acc] {cfg : Config}

section Definitions

variable [DecidableEq Acc]

def gathered (entries : List (Acc × List (Withdrawal Acc))) (account : Acc) :
    List (Withdrawal Acc) :=
  entries.flatMap fun entry => if entry.1 = account then entry.2 else []

-- The withdrawals of a snapshot and an account in the record of those that were paid.
def paid (claims : List (ℕ × Acc × List (Withdrawal Acc))) (id : ℕ)
    (account : Acc) : List (Withdrawal Acc) :=
  gathered ((claims.filter fun claim => claim.1 = id).map Prod.snd) account

def WithdrawalsMap.due (map : WithdrawalsMap Acc) (account : Acc) :
    List (Withdrawal Acc) :=
  map[account]?.getD []

def WithdrawalsMap.Proper (map : WithdrawalsMap Acc) : Prop :=
  ∀ account : Acc, map[account]? ≠ some []

end Definitions

def claim (id : ℕ) (account : Acc) (processed : List (Withdrawal Acc)) :
    List (ℕ × Acc × List (Withdrawal Acc)) :=
  if processed.isEmpty then [] else [(id, account, processed)]

section Lists

variable [DecidableEq Acc]

omit [Ord Acc]

@[simp]
theorem gathered_nil (account : Acc) : gathered [] account = [] :=
  rfl

@[simp]
theorem gathered_cons (entry : Acc × List (Withdrawal Acc)) (entries account) :
    gathered (entry :: entries) account =
      (if entry.1 = account then entry.2 else []) ++ gathered entries account :=
  rfl

@[simp]
theorem gathered_append (es es' : List (Acc × List (Withdrawal Acc))) (account) :
    gathered (es ++ es') account = gathered es account ++ gathered es' account :=
  List.flatMap_append

theorem gathered_of_not_mem
    {account : Acc} (h : ∀ ws, (account, ws) ∉ entries) : gathered entries account = [] := by
  simp only [gathered, List.flatMap_eq_nil_iff]
  intro e he
  have hne : e.1 ≠ account := fun ha => h e.2 (ha ▸ he)
  exact if_neg hne

theorem gathered_of_mem {account : Acc}
    (hd : entries.Pairwise fun e e' => e.1 ≠ e'.1) (h : (account, ws) ∈ entries) :
    gathered entries account = ws := by
  induction entries with
  | nil => simp at h
  | cons e es hi =>
    obtain ⟨he, hd⟩ := List.pairwise_cons.mp hd
    cases List.mem_cons.mp h with
    | inl h =>
      have hes : gathered es account = [] := gathered_of_not_mem fun ws' hm => he _ hm (by rw [← h])
      simp [← h, hes]
    | inr h => simp [he _ h, hi hd h]

@[simp]
theorem paid_nil (id : ℕ) (account : Acc) : paid [] id account = [] :=
  rfl

@[simp]
theorem paid_append (cs cs' : List (ℕ × Acc × List (Withdrawal Acc))) (id account) :
    paid (cs ++ cs') id account = paid cs id account ++ paid cs' id account := by
  simp [paid]

theorem paid_claim (id : ℕ) (account : Acc) (processed : List (Withdrawal Acc))
    (id' : ℕ) (account' : Acc) : paid (claim id account processed) id' account' =
      if id = id' ∧ account = account' then processed else [] := by
  by_cases hp : processed = [] <;> by_cases hi : id = id' <;> simp [claim, paid, hp, hi]

end Lists

section Maps

variable [DecidableEq Acc] [Std.TransOrd Acc] [Std.LawfulEqOrd Acc]

theorem WithdrawalsMap.gathered_toList (map : WithdrawalsMap Acc) (account : Acc) :
    gathered map.toList account = WithdrawalsMap.due map account := by
  simp only [WithdrawalsMap.due]
  cases h : map[account]? with
  | none =>
    refine gathered_of_not_mem fun ws hm => ?_
    simp [Std.TreeMap.mem_toList_iff_getElem?_eq_some.mp hm] at h
  | some ws =>
    refine gathered_of_mem (map.distinct_keys_toList.imp fun he ha => he ?_)
      (Std.TreeMap.mem_toList_iff_getElem?_eq_some.mpr h)
    exact Std.compare_eq_iff_eq.mpr ha

theorem getElem?_keepFailed (map : WithdrawalsMap Acc) (account : Acc)
    (failed : List (Withdrawal Acc)) (other : Acc) :
    (keepFailed map account failed)[other]? =
      if account = other ∧ failed ≠ [] then some failed else map[other]? := by
  simp only [keepFailed]
  split_ifs with h₁ h₂ h₂
  · simp_all
  · rfl
  · simp [h₂.1]
  · have hne : account ≠ other := fun ha => h₂ ⟨ha, by simpa using h₁⟩
    simp [Std.TreeMap.getElem?_insert, hne]

theorem due_keepFailed (h : map[account]? = none) (failed : List (Withdrawal Acc)) (other : Acc) :
    WithdrawalsMap.due (keepFailed map account failed) other =
      if account = other then failed else WithdrawalsMap.due map other := by
  simp only [WithdrawalsMap.due, getElem?_keepFailed]
  by_cases ha : account = other <;> by_cases hf : failed = [] <;> simp_all

theorem WithdrawalsMap.Proper.keepFailed {map : WithdrawalsMap Acc}
    (h : WithdrawalsMap.Proper map) (account : Acc) (failed : List (Withdrawal Acc)) :
    WithdrawalsMap.Proper (keepFailed map account failed) := by
  intro other
  rw [getElem?_keepFailed]
  split_ifs with hf
  · simpa using hf.2
  · exact h other

theorem due_addPending (map : WithdrawalsMap Acc) (withdrawal : Withdrawal Acc)
    (account : Acc) : WithdrawalsMap.due (addPending map withdrawal) account =
      WithdrawalsMap.due map account ++ if withdrawal.mainAccount = account then [withdrawal] else [] := by
  simp only [addPending, WithdrawalsMap.due]
  split <;> rename_i h <;> simp only [Std.TreeMap.getElem?_insert, Std.compare_eq_iff_eq] <;>
    split_ifs with ha <;> simp_all

theorem due_createWithdrawalTree (withdrawals : List (Withdrawal Acc)) (account : Acc) :
    WithdrawalsMap.due (createWithdrawalTree withdrawals) account =
      withdrawals.filter fun withdrawal => withdrawal.mainAccount = account := by
  have h : ∀ map : WithdrawalsMap Acc,
      WithdrawalsMap.due (withdrawals.foldl addPending map) account = WithdrawalsMap.due map account ++
        withdrawals.filter fun withdrawal => withdrawal.mainAccount = account := by
    induction withdrawals with
    | nil => simp
    | cons w ws hi =>
      intro map
      rw [List.foldl_cons, hi, due_addPending, List.filter_cons, List.append_assoc]
      split_ifs <;> simp_all
  simpa [WithdrawalsMap.due, createWithdrawalTree] using h ∅

end Maps

section Payments

variable [PalletAccounts Acc] [Assets Acc W] [CrossChainGadget Acc W]
  [Decimal.Arith]

-- The storage of the other pallets, before and after a list of withdrawals was paid one by one.
inductive Pays : W → List (Withdrawal Acc) → W → Prop
  | nil (world : W) : Pays world [] world
  | cons {world world' world'' : W} {withdrawal : Withdrawal Acc} {withdrawals} :
    onIdleWithdrawalProcessor world withdrawal = .ok world' → Pays world' withdrawals world'' →
    Pays world (withdrawal :: withdrawals) world''

-- The withdrawals `withdrawals` were tried.
structure Attempt (s s' : State Acc Auth W cfg)
    (withdrawals failed processed : List (Withdrawal Acc)) : Prop where
  frame : Frame s s'
  split : (processed ++ failed).Perm withdrawals
  pays : Pays s.world processed s'.world

-- The claims `claims` were paid and recorded.
structure Payout (s s' : State Acc Auth W cfg)
    (claims : List (ℕ × Acc × List (Withdrawal Acc))) : Prop where
  view : s'.view = { s.view with claimed := s.view.claimed ++ claims }
  ingress : ∀ n ≠ s.currentBlockNumber, s'.ingressMessages n = s.ingressMessages n
  pays : Pays s.world (claims.flatMap fun claim => claim.2.2) s'.world

variable {s s' s'' : State Acc Auth W cfg}

omit [Ord Acc] in
theorem Pays.append {world world' world'' : W} {ws ws' : List (Withdrawal Acc)}
    (h : Pays world ws world') (h' : Pays world' ws' world'') : Pays world (ws ++ ws') world'' := by
  induction h with
  | nil => exact h'
  | cons hp _ hi => exact .cons hp (hi h')

namespace Attempt

theorem tryWithdrawal {withdrawals failed processed : List (Withdrawal Acc)}
    (h : Attempt s s' withdrawals failed processed) (id : ℕ) (withdrawal : Withdrawal Acc) :
    let r := State.tryWithdrawal id (s', failed, processed) withdrawal
    Attempt s r.1 (withdrawals ++ [withdrawal]) r.2.1 r.2.2 := by
  simp only [State.tryWithdrawal]
  cases hp : onIdleWithdrawalProcessor s'.world withdrawal with
  | ok world =>
    have hs : (processed ++ [withdrawal] ++ failed).Perm (processed ++ failed ++ [withdrawal]) := by
      simpa using (List.perm_append_singleton withdrawal failed).symm.append_left processed
    exact ⟨⟨h.frame.view, h.frame.ingress⟩, hs.trans (h.split.append_right _),
      h.pays.append (.cons hp (.nil _))⟩
  | error e =>
    have hs := h.split.append_right [withdrawal]
    rw [List.append_assoc] at hs
    exact ⟨.depositEvent rfl h.frame.view h.frame.ingress, hs, h.pays⟩

theorem foldl {withdrawals failed processed : List (Withdrawal Acc)}
    (h : Attempt s s' withdrawals failed processed) (id : ℕ) (ws : List (Withdrawal Acc)) :
    let r := ws.foldl (State.tryWithdrawal id) (s', failed, processed)
    Attempt s r.1 (withdrawals ++ ws) r.2.1 r.2.2 := by
  induction ws generalizing s' withdrawals failed processed with
  | nil => simpa using h
  | cons w ws hi => simpa using hi (h.tryWithdrawal id w)

theorem doWithdraw (s : State Acc Auth W cfg) (id : ℕ)
    (withdrawals : List (Withdrawal Acc)) :
    let r := s.doWithdraw id withdrawals
    Attempt s r.1 withdrawals r.2.1 r.2.2 := by
  have h₀ : Attempt s s [] [] [] := ⟨.refl s, .nil, .nil _⟩
  have h := h₀.foldl id withdrawals.reverse
  exact ⟨h.frame, h.split.trans (List.reverse_perm withdrawals), h.pays⟩

end Attempt

namespace Payout

theorem refl (s : State Acc Auth W cfg) : Payout s s [] :=
  ⟨by simp, fun _ _ => rfl, .nil _⟩

theorem trans (h : Payout s s' claims) (h' : Payout s' s'' claims') : Payout s s'' (claims ++ claims') := by
  have hb : s'.currentBlockNumber = s.currentBlockNumber := congrArg View.currentBlockNumber h.view
  refine ⟨?view, fun n hn => (h'.ingress n (hb ▸ hn)).trans (h.ingress n hn), ?pays⟩
  case view => simp [h'.view, h.view]
  case pays => simpa using h.pays.append h'.pays

theorem depositClaimed {processed : List (Withdrawal Acc)} (h : Attempt s s' ws failed processed) (id : ℕ) (account : Acc) :
    Payout s (s'.depositClaimed id account processed) (claim id account processed) := by
  have hv := h.frame.view
  simp only [State.depositClaimed, claim]
  split_ifs with hp
  · have hp := List.isEmpty_iff.mp hp
    exact ⟨by simpa using hv, h.frame.ingress, by simpa [hp] using h.pays⟩
  · refine ⟨?view, h.frame.ingress, by simpa [State.depositEvent] using h.pays⟩
    have he : (s'.depositEvent (.withdrawalClaimed id account processed)).view =
        { s'.view with claimed := s'.view.claimed ++ [(id, account, processed)] } := by
      simp [State.view, State.depositEvent, Event.claimed]
    rw [he, hv]

theorem view_update {claims : List (ℕ × Acc × List (Withdrawal Acc))}
    (h : Payout s s' claims) (id : ℕ) (map : Option (WithdrawalsMap Acc)) :
    ({ s' with withdrawals := update s'.withdrawals id map } : State _ _ _ _).view =
      { s.view with
        withdrawals := update s.view.withdrawals id map
        claimed := s.view.claimed ++ claims } := by
  calc
    _ = { s'.view with withdrawals := update s'.view.withdrawals id map } := rfl
    _ = _ := by rw [h.view]

end Payout

variable [DecidableEq Acc] [Std.TransOrd Acc] [Std.LawfulEqOrd Acc]

-- The loop over the accounts of a snapshot. For every account, what is paid and what is kept are
-- together what was kept before and what the account has in the entries.
theorem payout_foldl_settleAccount (id : ℕ) (entries : List (Acc × List (Withdrawal Acc)))
    (hd : entries.Pairwise fun e e' => e.1 ≠ e'.1) (map : WithdrawalsMap Acc)
    (hm : ∀ e ∈ entries, map[e.1]? = none) (hp : map.Proper) :
    let r := entries.foldl (settleAccount id) (s, map)
    WithdrawalsMap.Proper r.2 ∧ ∃ claims, Payout s r.1 claims ∧
      (∀ id' account, id' ≠ id → paid claims id' account = []) ∧
      ∀ account, (paid claims id account ++ WithdrawalsMap.due r.2 account).Perm
        (map.due account ++ gathered entries account) := by
  induction entries generalizing s map with
  | nil => exact ⟨hp, [], .refl s, by simp, by simp⟩
  | cons e es hi =>
    obtain ⟨he, hd⟩ := List.pairwise_cons.mp hd
    have ha := Attempt.doWithdraw s id e.2
    have hpay := Payout.depositClaimed ha id e.1
    have hme : map[e.1]? = none := hm e List.mem_cons_self
    have hm' : ∀ e' ∈ es, (keepFailed map e.1 (s.doWithdraw id e.2).2.1)[e'.1]? = none := by
      intro e' he'
      rw [getElem?_keepFailed, if_neg (fun h => he e' he' h.1)]
      exact hm e' (List.mem_cons_of_mem _ he')
    obtain ⟨hp', claims, hc, hother, hsame⟩ := hi
      (s := (s.doWithdraw id e.2).1.depositClaimed id e.1 (s.doWithdraw id e.2).2.2)
      hd _ hm' (hp.keepFailed e.1 _)
    refine ⟨hp', _, hpay.trans hc, ?rest, ?same⟩
    case rest =>
      intro id' account hne
      simp [paid_claim, hother id' account hne, hne.symm]
    case same =>
      intro account
      have hs := hsame account
      rw [due_keepFailed hme] at hs
      rw [paid_append, paid_claim, gathered_cons]
      by_cases hea : e.1 = account
      · have hdue : map.due account = [] := by simp [WithdrawalsMap.due, ← hea, hme]
        have hsplit := ha.split.append_right (gathered es account)
        rw [List.append_assoc] at hsplit
        rw [if_pos hea] at hs
        simpa [settleAccount, hea, hdue] using (hs.append_left (s.doWithdraw id e.2).2.2).trans hsplit
      · simpa [settleAccount, hea] using hs

-- The withdrawals of a snapshot are either paid or kept.
structure Settlement (id : ℕ) (withdrawals : List (Withdrawal Acc))
    (claims : List (ℕ × Acc × List (Withdrawal Acc))) (map : WithdrawalsMap Acc) :
    Prop where
  proper : map.Proper
  rest : ∀ id' account, id' ≠ id → paid claims id' account = []
  split : ∀ account, (paid claims id account ++ map.due account).Perm
    (withdrawals.filter fun withdrawal => withdrawal.mainAccount = account)

theorem settlement_settleWithdrawals (s : State Acc Auth W cfg) (id : ℕ)
    (withdrawals : List (Withdrawal Acc)) : ∃ t claims map, Payout s t claims ∧
      Settlement id withdrawals claims map ∧ s.settleWithdrawals id withdrawals =
        (if map.isEmpty then t
          else { t with withdrawals := update t.withdrawals id (some map) }) := by
  have hd := (createWithdrawalTree withdrawals).distinct_keys_toList.imp
    fun he ha => he (Std.compare_eq_iff_eq.mpr ha)
  obtain ⟨hp, claims, hc, hrest, hsame⟩ := payout_foldl_settleAccount (s := s) id _ hd ∅ (by simp)
    (fun account => by simp)
  refine ⟨_, claims, _, hc, ⟨hp, hrest, fun account => ?_⟩, rfl⟩
  have hs := hsame account
  rw [WithdrawalsMap.gathered_toList, due_createWithdrawalTree] at hs
  simpa [WithdrawalsMap.due] using hs

end Payments

end Ocex
