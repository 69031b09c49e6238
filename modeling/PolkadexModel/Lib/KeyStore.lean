import Mathlib.Data.Finset.Sort
import Mathlib.Data.List.Lex

open Function Finset

-- A storage with ordered keys, and loops which go from a key to the next one while the storage changes.
structure KeyStore (κ υ : Type*) where
  get : κ → Option υ
  keys : Finset κ
  mem_keys : ∀ k, k ∈ keys ↔ (get k).isSome

namespace KeyStore

variable {κ υ : Type*} [LinearOrder κ]

theorem mem_keys_set (s : KeyStore κ υ) (k : κ) (v : Option υ) (k' : κ) :
    k' ∈ (if v.isSome then insert k s.keys else s.keys.erase k) ↔ (update s.get k v k').isSome := by
  by_cases hk : k' = k
  case pos =>
    subst hk
    rw [update_self]
    split_ifs with hv <;> simp [hv]
  case neg =>
    rw [update_of_ne hk, ← s.mem_keys]
    split_ifs <;> simp [hk]

-- Without a value, the key is removed.
def set (s : KeyStore κ υ) (k : κ) (v : Option υ) : KeyStore κ υ where
  get := update s.get k v
  keys := if v.isSome then insert k s.keys else s.keys.erase k
  mem_keys := mem_keys_set s k v

@[simp]
theorem get_set_self (s : KeyStore κ υ) (k : κ) (v : Option υ) : (s.set k v).get k = v :=
  update_self ..

theorem get_set_of_ne (h : k' ≠ k) (s : KeyStore κ υ) (v : Option υ) : (s.set k v).get k' = s.get k' :=
  update_of_ne h ..

theorem get_foldl_set {keys : List κ} (h : k ∉ keys) (f : κ → Option υ) (s : KeyStore κ υ) :
    (keys.foldl (fun s k => s.set k (f k)) s).get k = s.get k := by
  induction keys generalizing s with
  | nil => rfl
  | cons k' keys hi =>
    obtain ⟨hne, hnot⟩ := not_or.mp (mt List.mem_cons.mpr h)
    rw [List.foldl_cons, hi hnot, get_set_of_ne hne]

omit [LinearOrder κ] in
theorem mem_keys_clear (s : KeyStore κ υ) (p : κ → Bool) (k : κ) :
    k ∈ s.keys.filter (fun k => !p k) ↔ (if p k then none else s.get k).isSome := by
  rw [mem_filter, s.mem_keys]
  cases p k <;> simp

def clear (s : KeyStore κ υ) (p : κ → Bool) : KeyStore κ υ where
  get k := if p k then none else s.get k
  keys := s.keys.filter fun k => !p k
  mem_keys := mem_keys_clear s p

def nextKey (s : KeyStore κ υ) (k : κ) : Option κ :=
  if h : (s.keys.filter (k < ·)).Nonempty then some ((s.keys.filter (k < ·)).min' h) else none

variable {s s' : KeyStore κ υ} {k k' : κ}

theorem lt_of_nextKey (h : s.nextKey k = some k') :
    k' ∈ s.keys ∧ k < k' ∧ ∀ j ∈ s.keys, k < j → k' ≤ j := by
  rw [nextKey] at h
  split_ifs at h with hne
  cases h
  obtain ⟨hmem, hlt⟩ := mem_filter.mp (min'_mem _ hne)
  exact ⟨hmem, hlt, fun j hj hlt => min'_le _ _ (mem_filter.mpr ⟨hj, hlt⟩)⟩

theorem not_lt_of_nextKey (h : s.nextKey k = none) (hj : j ∈ s.keys) : ¬k < j := by
  rw [nextKey] at h
  split_ifs at h with hne
  exact fun hlt => hne ⟨j, mem_filter.mpr ⟨hj, hlt⟩⟩

-- In the order of lists, those with a common beginning follow each other.
section Lists

variable {α : Type*} [LinearOrder α]

theorem cons_le_cons_iff {x y : α} : x :: l ≤ y :: a ↔ x < y ∨ x = y ∧ l ≤ a := by
  rw [← not_lt, List.cons_lt_cons_iff, ← not_lt]
  obtain h | rfl | h := lt_trichotomy x y
  · simp [h, h.ne', h.not_gt]
  · simp
  · simp [h, h.ne', h.not_gt]

theorem le_of_isPrefix {l a : List α} (h : l <+: a) : l ≤ a := by
  obtain ⟨t, rfl⟩ := h
  induction l with
  | nil => exact not_lt.mp (List.not_lt_nil t)
  | cons x l hi => exact cons_le_cons_iff.mpr (.inr ⟨rfl, hi⟩)

theorem isPrefix_of_le_of_le {l a b : List α} (hl : l ≤ a) (hab : a ≤ b) (hb : l <+: b) : l <+: a := by
  induction l generalizing a b with
  | nil => exact List.nil_prefix
  | cons x l hi =>
    obtain ⟨t, rfl⟩ := hb
    cases a with
    | nil => exact absurd (List.nil_lt_cons x l) hl.not_gt
    | cons y a =>
      rw [List.cons_append] at hab
      obtain hyx | ⟨rfl, hat⟩ := cons_le_cons_iff.mp hab
      · obtain hxy | ⟨rfl, -⟩ := cons_le_cons_iff.mp hl
        · exact absurd hxy hyx.asymm
        · exact absurd hyx (lt_irrefl _)
      · obtain hxy | ⟨-, hlt⟩ := cons_le_cons_iff.mp hl
        · exact absurd hxy (lt_irrefl _)
        · exact List.cons_prefix_cons.mpr ⟨rfl, hi hlt hat ⟨t, rfl⟩⟩

end Lists

-- The loop from a key on, for as long as the next key meets `p`. Without fuel it has not ended.
def walk (p : κ → Bool) (f : KeyStore κ υ → κ → KeyStore κ υ) : ℕ → KeyStore κ υ → κ → Option (KeyStore κ υ)
  | 0, _, _        => none
  | fuel + 1, s, k =>
    match s.nextKey k with
    | none    => some s
    | some k' => if p k' then walk p f fuel (f s k') k' else some s

-- The keys which are still to come.
def pending (s : KeyStore κ υ) (p : κ → Bool) (k : κ) : Finset κ :=
  s.keys.filter fun j => p j ∧ k < j

theorem mem_pending : j ∈ s.pending p k ↔ j ∈ s.keys ∧ p j ∧ k < j :=
  mem_filter

-- The keys from `start` on that meet `p` follow each other, and the steps of the loop neither add nor remove
-- such a key.
structure Walks (p : κ → Bool) (f : KeyStore κ υ → κ → KeyStore κ υ) (start : κ) : Prop where
  interval : ∀ a b, start ≤ a → a ≤ b → p b → p a
  keeps : ∀ s k j, p j → (j ∈ (f s k).keys ↔ j ∈ s.keys)

namespace Walks

variable {p : κ → Bool} {f : KeyStore κ υ → κ → KeyStore κ υ} {start : κ}

theorem pending_eq_empty (h : Walks p f start) (hk : start ≤ k)
    (hnext : ∀ k', s.nextKey k = some k' → ¬p k') : s.pending p k = ∅ := by
  refine eq_empty_of_forall_notMem fun j hj => ?_
  obtain ⟨hmem, hp, hlt⟩ := mem_pending.mp hj
  cases hn : s.nextKey k with
  | none => exact not_lt_of_nextKey hn hmem hlt
  | some k' =>
    obtain ⟨-, hlt', hleast⟩ := lt_of_nextKey hn
    exact hnext k' hn (h.interval k' j (hk.trans hlt'.le) (hleast j hmem hlt) hp)

theorem pending_eq_insert (h : Walks p f start) (hn : s.nextKey k = some k') (hp : p k') :
    s.pending p k = insert k' ((f s k').pending p k') ∧ k' ∉ (f s k').pending p k' := by
  obtain ⟨hmem, hlt, hleast⟩ := lt_of_nextKey hn
  constructor
  case left =>
    ext j
    rw [mem_insert, mem_pending, mem_pending]
    constructor
    case mp =>
      rintro ⟨hj, hpj, hltj⟩
      exact (hleast j hj hltj).eq_or_lt.imp Eq.symm fun hlt' => ⟨(h.keeps s k' j hpj).mpr hj, hpj, hlt'⟩
    case mpr =>
      rintro (rfl | ⟨hj, hpj, hltj⟩)
      · exact ⟨hmem, hp, hlt⟩
      · exact ⟨(h.keeps s k' j hpj).mp hj, hpj, hlt.trans hltj⟩
  case right => exact fun hself => lt_irrefl k' (mem_pending.mp hself).2.2

-- With enough fuel the loop ends, and it has been at every key in turn.
theorem walk_eq (h : Walks p f start) (fuel : ℕ) (s : KeyStore κ υ) (k : κ) (hk : start ≤ k)
    (hfuel : (s.pending p k).card < fuel) :
    walk p f fuel s k = some (((s.pending p k).sort (· ≤ ·)).foldl f s) := by
  induction fuel generalizing s k with
  | zero => exact absurd hfuel (Nat.not_lt_zero _)
  | succ fuel hi =>
    rw [walk]
    cases hn : s.nextKey k with
    | none =>
      rw [h.pending_eq_empty hk fun k' hk' => by simp [hn] at hk']
      simp
    | some k' =>
      by_cases hp : p k'
      case pos =>
        obtain ⟨hpending, hself⟩ := h.pending_eq_insert hn hp
        have hleast : ∀ j ∈ (f s k').pending p k', k' ≤ j := fun j hj => (mem_pending.mp hj).2.2.le
        rw [hpending, card_insert_of_notMem hself] at hfuel
        rw [hpending, sort_insert _ hleast hself, List.foldl_cons]
        simp only [if_pos hp]
        exact hi (f s k') k' (hk.trans (lt_of_nextKey hn).2.1.le) (Nat.lt_of_succ_lt_succ hfuel)
      case neg =>
        rw [h.pending_eq_empty hk fun j hj => by rw [hn] at hj; cases hj; exact hp]
        simp [hp]

end Walks

end KeyStore
