import Mathlib.Data.List.FinRange
import Mathlib.Algebra.GroupWithZero.Nat
import Mathlib.Algebra.Order.BigOperators.Group.List
import Mathlib.Algebra.Order.Group.Nat

open List

-- A radix tree over the digits below `n`: a node stands for the digits of its path, after those that lead to it.
inductive RadixTree (n : ℕ) (α : Type)
  | empty
  | leaf (path : List (Fin n)) (value : α)
  | branch (path : List (Fin n)) (value : Option α) (children : Fin n → RadixTree n α)

namespace RadixTree

variable {n : ℕ} {α : Type}

def isEmpty : RadixTree n α → Bool
  | empty => true
  | _ => false

-- The entries in the order of a walk: a node before its children.
def entries : RadixTree n α → List (List (Fin n) × α)
  | empty => []
  | leaf path value => [(path, value)]
  | branch path value children =>
    value.toList.map (fun v => (path, v)) ++
      (List.finRange n).flatMap fun i => (children i).entries.map fun e => (path ++ i :: e.1, e.2)

section Shared

variable {ι : Type} [DecidableEq ι]

-- The longest start which two lists share.
def shared : List ι → List ι → List ι
  | a :: l, b :: l' => if a = b then a :: shared l l' else []
  | _, _ => []

theorem shared_prefix_left (l l' : List ι) : shared l l' <+: l := by
  induction l generalizing l' with
  | nil => simp [shared]
  | cons a l ih =>
    cases l' with
    | nil => simp [shared]
    | cons b l' =>
      rw [shared]
      split_ifs
      · exact prefix_cons_inj a |>.2 (ih l')
      · exact nil_prefix

theorem shared_prefix_right (l l' : List ι) : shared l l' <+: l' := by
  induction l generalizing l' with
  | nil => simp [shared]
  | cons a l ih =>
    cases l' with
    | nil => simp [shared]
    | cons b l' =>
      rw [shared]
      split_ifs with hab
      · rw [hab]
        exact prefix_cons_inj b |>.2 (ih l')
      · exact nil_prefix

def sharedAll : List (List ι) → List ι
  | [] => []
  | [l] => l
  | l :: ls => shared l (sharedAll ls)

theorem sharedAll_prefix (ls : List (List ι)) (hl : l ∈ ls) : sharedAll ls <+: l := by
  induction ls with
  | nil => simp at hl
  | cons l₁ ls ih =>
    cases ls with
    | nil =>
      rw [mem_singleton.1 hl]
      exact prefix_rfl
    | cons l₂ ls =>
      rw [sharedAll.eq_3 _ _ (by simp)]
      rcases mem_cons.1 hl with rfl | hl
      · exact shared_prefix_left ..
      · exact (shared_prefix_right ..).trans (ih hl)

end Shared

-- The digit after the path, if there is one.
def digit (path : List (Fin n)) (e : List (Fin n) × α) : Option (Fin n) :=
  (e.1.drop path.length).head?

-- The entries that continue with a digit, without what comes up to it.
def under (path : List (Fin n)) (i : Fin n) (l : List (List (Fin n) × α)) : List (List (Fin n) × α) :=
  (l.filter fun e => digit path e = some i).map fun e => (e.1.drop (path.length + 1), e.2)

-- The tree of some entries with different keys, whose keys are shorter than the fuel.
def build : ℕ → List (List (Fin n) × α) → RadixTree n α
  | _, [] => empty
  | _, [e] => leaf e.1 e.2
  | 0, _ :: _ :: _ => empty
  | fuel + 1, e :: e' :: l =>
    let path := sharedAll ((e :: e' :: l).map Prod.fst)
    branch path (((e :: e' :: l).find? fun e => digit path e = none).map Prod.snd) fun i =>
      build fuel (under path i (e :: e' :: l))

def ofEntries (l : List (List (Fin n) × α)) : RadixTree n α :=
  build ((l.map fun e => e.1.length).sum + 1) l

section Perm

variable {l : List (List (Fin n) × α)} {path : List (Fin n)}

theorem flatMap_bucket_perm {β : Type} {L : List (Fin n)} (hL : L.Nodup) (hj : j ∈ L) (b : β)
    (g g' : Fin n → List β) (hg : g' j = b :: g j) (hg' : ∀ i, i ≠ j → g' i = g i) :
    (L.flatMap g').Perm (b :: L.flatMap g) := by
  obtain ⟨L₁, L₂, rfl⟩ := append_of_mem hj
  have hne : ∀ i, i ∈ L₁ ∨ i ∈ L₂ → g' i = g i := by
    intro i hi
    refine hg' i fun heq => ?_
    subst heq
    have hnodup := hL
    rw [nodup_append, nodup_cons] at hnodup
    rcases hi with hi | hi
    · exact hnodup.2.2 i hi i mem_cons_self rfl
    · exact hnodup.2.1.1 hi
  rw [flatMap_append, flatMap_append, flatMap_cons, flatMap_cons, hg,
    flatMap_congr fun i hi => hne i (.inl hi), flatMap_congr fun i hi => hne i (.inr hi)]
  exact perm_middle

-- A list is made of the elements without a bucket and the buckets.
theorem buckets_perm {β : Type} (f : β → Option (Fin n)) (l : List β) :
    ((l.filter fun b => f b = none) ++ (List.finRange n).flatMap fun i => l.filter fun b => f b = some i).Perm l := by
  induction l with
  | nil => simp
  | cons b l ih =>
    cases hf : f b with
    | none => 
      simp only [hf, filter_cons, decide_true, if_true, reduceCtorEq, decide_false, Bool.false_eq_true, if_false,
        cons_append]
      exact ih.cons b
    | some j =>
      have hbucket := flatMap_bucket_perm (nodup_finRange n) (mem_finRange j) b
        (fun i => l.filter fun b => f b = some i) (fun i => (b :: l).filter fun b => f b = some i)
        (by simp [hf]) (fun i hi => by simp [hf, Ne.symm hi])
      refine ((hbucket.append_left _).trans ?_)
      simp only [hf, filter_cons, reduceCtorEq, decide_false, Bool.false_eq_true, if_false]
      exact perm_middle.trans (ih.cons b)

theorem filter_eq_find (h : (l.map Prod.fst).Nodup) (P : List (Fin n) × α → Bool)
    (hP : ∀ e ∈ l, P e → e.1 = path) :
    ((l.find? P).map Prod.snd).toList.map (fun v => (path, v)) = l.filter P := by
  induction l with
  | nil => rfl
  | cons e l ih =>
    rw [map_cons, nodup_cons] at h
    by_cases he : P e
    case neg =>
      rw [find?_cons_of_neg (by simpa using he), filter_cons_of_neg (by simpa using he)]
      exact ih h.2 fun e' he' => hP e' (mem_cons_of_mem _ he')
    case pos =>
      have hpath := hP e mem_cons_self he
      have hnone : l.filter P = [] := by
        rw [filter_eq_nil_iff]
        intro e' he' hPe'
        have hpath' := hP e' (mem_cons_of_mem _ he') hPe'
        exact h.1 (mem_map.2 ⟨e', he', hpath'.trans hpath.symm⟩)
      rw [find?_cons_of_pos he, filter_cons_of_pos he, hnone]
      simp [← hpath]

theorem key_of_digit_none {e : List (Fin n) × α} (he : path <+: e.1) (h : digit path e = none) : e.1 = path := by
  obtain ⟨rest, hrest⟩ := he
  rw [digit, ← hrest, drop_left, head?_eq_none_iff] at h
  rw [← hrest, h, append_nil]

theorem key_of_digit_some {e : List (Fin n) × α} (he : path <+: e.1) (h : digit path e = some i) :
    path ++ i :: e.1.drop (path.length + 1) = e.1 := by
  obtain ⟨rest, hrest⟩ := he
  rw [digit, ← hrest, drop_left] at h
  cases rest with
  | nil => simp at h
  | cons j rest =>
    cases h
    rw [← hrest, ← drop_drop, drop_left]
    rfl

-- What is under a digit, with the digits up to it put back.
theorem map_under (hpath : ∀ e ∈ l, path <+: e.1) (i : Fin n) :
    (under path i l).map (fun e => (path ++ i :: e.1, e.2)) = l.filter fun e => digit path e = some i := by
  rw [under, map_map]
  refine (map_congr_left fun e he => ?_).trans (map_id _)
  rw [mem_filter, decide_eq_true_eq] at he
  exact Prod.ext (key_of_digit_some (hpath e he.1) he.2) rfl

theorem nodup_under (h : (l.map Prod.fst).Nodup) (hpath : ∀ e ∈ l, path <+: e.1) (i : Fin n) :
    ((under path i l).map Prod.fst).Nodup := by
  have hnodup : (((under path i l).map fun e => (path ++ i :: e.1, e.2)).map Prod.fst).Nodup := by
    rw [map_under hpath]
    exact h.sublist (filter_sublist.map _)
  rw [map_map] at hnodup
  refine List.Nodup.of_map (fun k => path ++ i :: k) ?_
  rwa [map_map]

theorem length_under (h : ∀ e ∈ l, e.1.length < fuel + 1) (hpath : ∀ e ∈ l, path <+: e.1) (i : Fin n) :
    ∀ e ∈ under path i l, e.1.length < fuel := by
  intro e he
  have hmem := mem_map_of_mem (f := fun e => (path ++ i :: e.1, e.2)) he
  rw [map_under hpath, mem_filter] at hmem
  have hlength := h _ hmem.1
  simp only [length_append, length_cons] at hlength
  omega

-- The tree has the entries it is built from.
theorem entries_build_perm (fuel : ℕ) (l : List (List (Fin n) × α)) (h : (l.map Prod.fst).Nodup)
    (hlength : ∀ e ∈ l, e.1.length < fuel) : (build fuel l).entries.Perm l := by
  induction fuel generalizing l with
  | zero =>
    cases l with
    | nil => simp [build, entries]
    | cons e l => exact absurd (hlength e mem_cons_self) (Nat.not_lt_zero _)
  | succ fuel ih =>
    rcases l with _ | ⟨e, _ | ⟨e', l⟩⟩
    · simp [build, entries]
    · simp [build, entries]
    · rw [build, entries]
      generalize hl : e :: e' :: l = l at h hlength ⊢
      generalize hpath : sharedAll (l.map Prod.fst) = path
      have hshared : ∀ e ∈ l, path <+: e.1 := fun e he => hpath ▸ sharedAll_prefix _ (mem_map_of_mem he)
      rw [filter_eq_find h _ fun e he hdigit => key_of_digit_none (hshared e he) (of_decide_eq_true hdigit)]
      refine .trans (.append_left _ (.flatMap_left _ fun i _ => ?_)) (buckets_perm (digit path) l)
      rw [← map_under hshared i]
      exact (ih _ (nodup_under h hshared i) (length_under hlength hshared i)).map _

theorem entries_ofEntries_perm (h : (l.map Prod.fst).Nodup) : (ofEntries l).entries.Perm l := by
  refine entries_build_perm _ l h fun e he => Nat.lt_succ_of_le ?_
  exact single_le_sum (fun _ _ => Nat.zero_le _) _ (mem_map_of_mem he)

end Perm

end RadixTree
