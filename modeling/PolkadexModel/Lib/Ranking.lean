import Mathlib.Algebra.Order.Group.Nat
import Mathlib.Data.List.Dedup
import Mathlib.Data.List.Induction
import Mathlib.Data.List.Perm.Subperm

open List Std.TreeMap

-- The selection of those with the highest scores.
namespace Ranking

section Selection

variable {α κ : Type} [LinearOrder κ] (score : α → κ)

-- The `k` highest of a list, in decreasing order.
structure Selects (l : List α) (k : ℕ) (r : List α) : Prop where
  length_eq : r.length = min k l.length
  nodup : r.Nodup
  subset : r ⊆ l
  decreasing : r.Pairwise fun a b => score b ≤ score a
  left_out : ∀ a ∈ l, a ∉ r → ∀ b ∈ r, score a ≤ score b

-- One for each score, in decreasing order.
structure Representatives (l top : List α) : Prop where
  decreasing : top.Pairwise fun a b => score b < score a
  subset : top ⊆ l
  complete : ∀ a ∈ l, ∃ b ∈ top, score b = score a

-- The number of different scores that are not below a score.
def rank (l : List α) (v : κ) : ℕ :=
  ((l.map score).dedup.filter (v ≤ ·)).length

variable {score} {l top : List α} {k : ℕ}

theorem length_filter_eq_zero {S : List κ} {v : κ} (h : ∀ s ∈ S, s < v) : (S.filter (v ≤ ·)).length = 0 := by
  rw [length_eq_zero_iff, filter_eq_nil_iff]
  exact fun s hs => by simpa using h s hs

-- A score is among the first ones exactly if there are not too many above it.
theorem mem_take_iff {S : List κ} (hS : S.Pairwise (· > ·)) {v : κ} (hv : v ∈ S) :
    v ∈ S.take k ↔ (S.filter (v ≤ ·)).length ≤ k := by
  induction S generalizing k with
  | nil => cases hv
  | cons s S ih =>
    obtain ⟨hs, hS⟩ := pairwise_cons.1 hS
    have hle : v ≤ s := (mem_cons.1 hv).elim le_of_eq fun h => (hs v h).le
    rw [filter_cons_of_pos (by simpa using hle), length_cons]
    cases k with
    | zero => simp
    | succ k =>
      rw [take_succ_cons, mem_cons, Nat.add_le_add_iff_right]
      cases mem_cons.1 hv with
      | inl heq =>
        subst heq
        simp [length_filter_eq_zero hs]
      | inr hmem => rw [← ih hS hmem, or_iff_right (hs v hmem).ne]

namespace Representatives

variable (h : Representatives score l top)
include h

theorem decreasing_scores : (top.map score).Pairwise (· > ·) :=
  pairwise_map.2 h.decreasing

theorem nodup_scores : (top.map score).Nodup :=
  h.decreasing_scores.imp ne_of_gt

theorem nodup : top.Nodup :=
  h.nodup_scores.of_map score

theorem eq_of_score_eq (ha : a ∈ top) (hb : b ∈ top) (heq : score a = score b) : a = b :=
  inj_on_of_nodup_map h.nodup_scores ha hb heq

theorem scores_perm : (top.map score).Perm (l.map score).dedup := by
  refine (perm_ext_iff_of_nodup h.nodup_scores (nodup_dedup _)).2 fun v => ?_
  rw [mem_dedup, mem_map, mem_map]
  constructor
  · rintro ⟨a, ha, rfl⟩
    exact ⟨a, h.subset ha, rfl⟩
  · rintro ⟨a, ha, rfl⟩
    exact h.complete a ha

theorem rank_eq (v : κ) : rank score l v = ((top.map score).filter (v ≤ ·)).length :=
  ((h.scores_perm.filter _).length_eq).symm

theorem rank_le_length (v : κ) : rank score l v ≤ top.length := by
  rw [h.rank_eq, ← length_map score]
  exact length_filter_le ..

theorem mem_take_iff (ha : a ∈ top) : a ∈ top.take k ↔ rank score l (score a) ≤ k := by
  rw [h.rank_eq, ← Ranking.mem_take_iff h.decreasing_scores (mem_map_of_mem ha), ← map_take,
    mem_map]
  constructor
  · exact fun hmem => ⟨a, hmem, rfl⟩
  · rintro ⟨b, hb, heq⟩
    rwa [← h.eq_of_score_eq (mem_of_mem_take hb) ha heq]

end Representatives

theorem rank_lt_rank (hlt : w < v) (hw : w ∈ l.map score) : rank score l v < rank score l w := by
  have hsub : ((l.map score).dedup.filter (v ≤ ·)).Sublist ((l.map score).dedup.filter (w ≤ ·)) :=
    monotone_filter_right _ fun s hs => by
      simp only [decide_eq_true_eq] at hs ⊢
      exact hlt.le.trans hs
  refine lt_of_le_of_ne hsub.length_le fun heq => ?_
  have hmem : w ∈ (l.map score).dedup.filter (w ≤ ·) :=
    mem_filter.2 ⟨mem_dedup.2 hw, decide_eq_true le_rfl⟩
  rw [← hsub.eq_of_length heq, mem_filter] at hmem
  exact absurd (of_decide_eq_true hmem.2) hlt.not_ge

namespace Representatives

-- The scores from the first ones are below none of the others.
theorem left_out (h : Representatives score l top)
    (hties : ∀ a ∈ l, ∀ b ∈ l, a ≠ b → score a = score b → k ≤ rank score l (score a)) :
    ∀ a ∈ l, a ∉ top.take k → ∀ b ∈ top.take k, score a ≤ score b := by
  intro a ha hnot b hb
  have hbtop := mem_of_mem_take hb
  by_contra hlt
  have hrank := rank_lt_rank (not_le.1 hlt) (mem_map_of_mem (h.subset hbtop))
  have hbk := (h.mem_take_iff hbtop).1 hb
  obtain ⟨c, hc, hscore⟩ := h.complete a ha
  have hck : c ∈ top.take k := (h.mem_take_iff hc).2 (by rw [hscore]; omega)
  have hne : a ≠ c := fun heq => hnot (heq ▸ hck)
  have hle := hties a ha c (h.subset hc) hne hscore.symm
  omega

theorem length_le (h : Representatives score l top) : top.length ≤ l.length :=
  (subperm_of_subset h.nodup h.subset).length_le

-- Without two of the same score, all are there.
theorem exists_tie (h : Representatives score l top) (hl : l.Nodup) (hlt : top.length < l.length) :
    ∃ a ∈ l, ∃ b ∈ l, a ≠ b ∧ score a = score b := by
  have hnot : ¬l ⊆ top := fun hsub => hlt.not_ge (subperm_of_subset hl hsub).length_le
  obtain ⟨a, ha, hatop⟩ : ∃ a ∈ l, a ∉ top := by
    simpa [subset_def] using hnot
  obtain ⟨b, hb, hscore⟩ := h.complete a ha
  exact ⟨a, ha, b, h.subset hb, fun heq => hatop (heq ▸ hb), hscore.symm⟩

-- A score with fewer than `k` above it is not the lowest of the first `k`.
theorem exists_lower (h : Representatives score l top) (hk : k ≤ top.length)
    (hlt : rank score l (score c) < k) : ∃ d ∈ top.take k, score d < score c := by
  by_contra hnone
  push Not at hnone
  have hall : ((top.take k).map score).filter (score c ≤ ·) = (top.take k).map score := by
    refine filter_eq_self.2 fun v hv => ?_
    obtain ⟨d, hd, rfl⟩ := mem_map.1 hv
    exact decide_eq_true (hnone d hd)
  have hsub := (((take_sublist k top).map score).filter (score c ≤ ·)).length_le
  rw [hall, ← h.rank_eq, length_map, length_take] at hsub
  omega

-- The first ones of the representatives are a selection exactly if only the last of the selected scores, or a lower
-- one, is that of more than one.
theorem selects_take_iff (h : Representatives score l top) (hl : l.Nodup) : Selects score l k (top.take k) ↔
    ∀ a ∈ l, ∀ b ∈ l, a ≠ b → score a = score b → k ≤ rank score l (score a) := by
  constructor
  · intro hsel a ha b hb hne heq
    by_contra hlt
    obtain ⟨c, hc, hscore⟩ := h.complete a ha
    have hck : c ∈ top.take k := (h.mem_take_iff hc).2 (by rw [hscore]; omega)
    -- One of the two is not the one that stands for their score.
    obtain ⟨x, hx, hxc, hxs⟩ : ∃ x ∈ l, x ≠ c ∧ score x = score c := by
      by_cases hac : a = c
      · exact ⟨b, hb, fun hbc => hne (hac.trans hbc.symm), heq.symm.trans hscore.symm⟩
      · exact ⟨a, ha, hac, hscore.symm⟩
    have hxtop : x ∉ top := fun hmem => hxc (h.eq_of_score_eq hmem hc hxs)
    have hlonger : top.length < l.length := by
      have hnodup : (x :: top).Nodup := nodup_cons.2 ⟨hxtop, h.nodup⟩
      have hsub : x :: top ⊆ l := cons_subset.2 ⟨hx, h.subset⟩
      exact (subperm_of_subset hnodup hsub).length_le
    have hlen := hsel.length_eq
    rw [length_take] at hlen
    obtain ⟨d, hd, hlower⟩ := h.exists_lower (c := c) (k := k) (by omega) (by rw [hscore]; omega)
    have hle := hsel.left_out x hx (fun hmem => hxtop (mem_of_mem_take hmem)) d hd
    exact absurd (hxs ▸ hle) hlower.not_ge
  · intro hties
    refine ⟨?_, h.nodup.sublist (take_sublist ..), fun a ha => h.subset (mem_of_mem_take ha),
      (h.decreasing.sublist (take_sublist ..)).imp le_of_lt, h.left_out hties⟩
    rw [length_take]
    rcases h.length_le.lt_or_eq with hlt | heq
    · obtain ⟨a, ha, b, hb, hne, hscore⟩ := h.exists_tie hl hlt
      have hk := (hties a ha b hb hne hscore).trans (h.rank_le_length (score a))
      omega
    · rw [heq]

end Representatives

end Selection

-- A table from the keys of a list to its elements, in which a later element replaces an earlier one of the same key.
section Table

variable {α κ σ : Type} [Ord κ] [LinearOrder σ] {key : α → κ} {score : α → σ}

def table (key : α → κ) (l : List α) : Std.TreeMap κ α :=
  l.foldl (fun t a => t.insert (key a) a) ∅

variable [Std.TransOrd κ]

theorem getElem?_table (l : List α) (k : κ) :
    (table key l)[k]? = l.reverse.find? fun a => compare (key a) k = .eq := by
  induction l using reverseRecOn with
  | nil => simp [table]
  | append_singleton l a ih =>
    rw [table, List.foldl_append, List.foldl_cons, List.foldl_nil, Std.TreeMap.getElem?_insert,
      reverse_append, reverse_singleton, singleton_append, find?_cons]
    split_ifs with heq
    · simp [heq]
    · simpa [heq, table] using ih

-- The elements of the table, with the highest keys first.
theorem representatives_table (hkey : ∀ a b, compare (key a) (key b) = compare (score a) (score b)) (l : List α) :
    Representatives score l ((table key l).toList.map Prod.snd).reverse := by
  have hmem {k : κ} {a : α} (hk : (k, a) ∈ (table key l).toList) : a ∈ l ∧ compare (key a) k = .eq := by
    have hget := (mem_toList_iff_getKey?_eq_some_and_getElem?_eq_some.1 hk).2
    rw [getElem?_table] at hget
    exact ⟨mem_reverse.1 (mem_of_find?_eq_some hget), by simpa using find?_some hget⟩
  refine ⟨?_, fun a ha => ?_, fun a ha => ?_⟩
  · rw [pairwise_reverse, pairwise_map]
    refine (ordered_keys_toList (t := table key l)).imp_of_mem fun {x y} hx hy hlt => ?_
    rw [← compare_lt_iff_lt, ← hkey, Std.TransCmp.congr_left (hmem hx).2, Std.TransCmp.congr_right (hmem hy).2]
    exact hlt
  · obtain ⟨e, he, rfl⟩ := mem_map.1 (mem_reverse.1 ha)
    exact (hmem he).1
  · have hsome : (table key l)[key a]?.isSome := by
      rw [getElem?_table, find?_isSome]
      exact ⟨a, mem_reverse.2 ha, by simp⟩
    obtain ⟨b, hb⟩ := Option.isSome_iff_exists.1 hsome
    have hin : key a ∈ table key l := mem_iff_isSome_getElem?.2 hsome
    have hentry := find?_toList_eq_some_iff_getKey?_eq_some_and_getElem?_eq_some.2
      ⟨getKey?_eq_some_getKey hin, hb⟩
    refine ⟨b, mem_reverse.2 (mem_map.2 ⟨_, mem_of_find?_eq_some hentry, rfl⟩), ?_⟩
    rw [getElem?_table] at hb
    have heq : compare (key b) (key a) = .eq := by simpa using find?_some hb
    exact compare_eq_iff_eq.1 ((hkey b a).symm.trans heq)

end Table

end Ranking
