import Mathlib.Algebra.BigOperators.Group.List.Basic
import Mathlib.Algebra.Order.Ring.Nat

open List

-- The contents of maps and sets as lists.
namespace Trees

variable {α β : Type} [Ord α] [Std.TransOrd α] [Std.LawfulEqOrd α]

theorem nodup_toList (t : Std.TreeSet α) : t.toList.Nodup :=
  t.distinct_toList.imp fun hne he => hne (Std.LawfulEqOrd.compare_eq_iff_eq.mpr he)

-- The elements of two sets which agree on a predicate come in the same order.
theorem filter_toList_congr {t t' : Std.TreeSet α} (h : ∀ a, p a → (a ∈ t' ↔ a ∈ t)) :
    t'.toList.filter p = t.toList.filter p := by
  have ordered (t : Std.TreeSet α) :
      (t.toList.filter p).Pairwise fun a b => compare a b = .lt := t.ordered_toList.filter p
  refine List.Perm.eq_of_pairwise (fun a b _ _ hlt hgt => ?_) (ordered t') (ordered t) ?_
  · exact absurd hgt (Std.OrientedCmp.not_lt_of_lt hlt)
  · refine (perm_ext_iff_of_nodup ((nodup_toList t').filter p) ((nodup_toList t).filter p)).mpr
      fun a => ?_
    simp only [mem_filter, Std.TreeSet.mem_toList]
    exact and_congr_left (h a)

omit [Ord α] [Std.TransOrd α] [Std.LawfulEqOrd α] in
-- In a list with different keys, at most one entry counts for a key.
theorem sum_ite_of_mem [DecidableEq α] {M : Type} [AddMonoid M] {l : List (α × β)}
    (h : l.Pairwise fun x y => x.1 ≠ y.1) (f : β → M) (hm : (a, b) ∈ l) :
    (l.map fun e => if e.1 = a then f e.2 else 0).sum = f b := by
  induction l with
  | nil => simp at hm
  | cons e l hi =>
    obtain ⟨he, h⟩ := pairwise_cons.mp h
    rw [map_cons, sum_cons]
    cases mem_cons.mp hm with
    | inl heq =>
      have hzero : (l.map fun e => if e.1 = a then f e.2 else 0).sum = 0 := by
        refine sum_eq_zero fun n hn => ?_
        obtain ⟨e', he', hn⟩ := mem_map.mp hn
        rw [← hn, if_neg fun hk => he e' he' (heq ▸ hk.symm)]
      rw [hzero, ← heq, if_pos rfl, add_zero]
    | inr hmem => rw [if_neg fun hk => he _ hmem hk, zero_add, hi h hmem]

theorem distinct_toList (t : Std.TreeMap α β) : t.toList.Pairwise fun x y => x.1 ≠ y.1 :=
  t.distinct_keys_toList.imp fun hne he => hne (Std.LawfulEqOrd.compare_eq_iff_eq.mpr he)

omit [Ord α] [Std.TransOrd α] [Std.LawfulEqOrd α] in
theorem sum_ite [DecidableEq α] {M : Type} [AddMonoid M] {l : List (α × β)}
    (h : l.Pairwise fun x y => x.1 ≠ y.1) (f : β → M) (ho : ∀ b, (a, b) ∈ l ↔ o = some b) :
    (l.map fun e => if e.1 = a then f e.2 else 0).sum = o.elim 0 f := by
  cases hb : o with
  | some b => exact sum_ite_of_mem h f ((ho b).mpr hb)
  | none =>
    refine sum_eq_zero fun n hn => ?_
    obtain ⟨e, he, hn⟩ := mem_map.mp hn
    have hne : e.1 ≠ a := fun hk => by simpa [hb] using (ho e.2).mp (hk ▸ he)
    rw [← hn, if_neg hne]

-- The entry of a key, and those of the other keys.
theorem toList_perm_cons [DecidableEq α] {t t' : Std.TreeMap α β} {a : α} {b : β}
    (h : ∀ k, k ≠ a → t'[k]? = t[k]?) (ha : t'[a]? = some b) :
    t'.toList.Perm ((a, b) :: t.toList.filter (·.1 ≠ a)) := by
  have nodup (t : Std.TreeMap α β) : t.toList.Nodup := by
    have hd := distinct_toList t
    exact hd.imp fun hne he => hne (congrArg Prod.fst he)
  refine (perm_ext_iff_of_nodup (nodup t') ?_).mpr fun e => ?_
  · exact nodup_cons.mpr ⟨by simp, (nodup t).filter _⟩
  · obtain ⟨k, v⟩ := e
    simp only [mem_cons, mem_filter, Std.TreeMap.mem_toList_iff_getElem?_eq_some]
    by_cases hk : k = a
    · simp [hk, ha, eq_comm]
    · simp [hk, h k hk]

-- A sum over the entries changes by that of the key.
theorem sum_insert [DecidableEq α] {t : Std.TreeMap α β} (f : α × β → ℕ) (b' : β) (h : t[a]? = some b) :
    ((t.insert a b').toList.map f).sum + f (a, b) = (t.toList.map f).sum + f (a, b') := by
  have hnew : (t.insert a b').toList.Perm ((a, b') :: t.toList.filter (·.1 ≠ a)) :=
    toList_perm_cons (fun k hk => by simp [Std.TreeMap.getElem?_insert, Ne.symm hk]) (by simp)
  have hold : t.toList.Perm ((a, b) :: t.toList.filter (·.1 ≠ a)) :=
    toList_perm_cons (fun _ _ => rfl) h
  rw [(hnew.map f).sum_eq, (hold.map f).sum_eq]
  simp only [map_cons, sum_cons]
  omega

-- A map that is filled with the values of a function.
theorem getElem?_foldl_insert [DecidableEq α] (f : α → β) (l : List α) (t : Std.TreeMap α β) (a : α) :
    (l.foldl (fun t a => t.insert a (f a)) t)[a]? = if a ∈ l then some (f a) else t[a]? := by
  induction l generalizing t with
  | nil => simp
  | cons b l hi =>
    rw [foldl_cons, hi, Std.TreeMap.getElem?_insert]
    by_cases hb : b = a
    · simp [hb]
    · simp [hb, Ne.symm hb]

end Trees
