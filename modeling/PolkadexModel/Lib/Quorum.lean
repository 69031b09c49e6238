import Mathlib.Data.Finset.Card

namespace Quorum

variable {α : Type*}

-- Distinct positions of a list without duplicates select as many elements.
theorem exists_finset_of_indices [DecidableEq α] {l : List α} (hl : l.Nodup) {is : List ℕ}
    (hi : is.Nodup) (h : ∀ i ∈ is, i < l.length) :
    ∃ A : Finset α, A.card = is.length ∧ ∀ a ∈ A, ∃ i ∈ is, l[i]? = some a := by
  induction is with
  | nil => exact ⟨∅, rfl, by simp⟩
  | cons i is ih =>
    obtain ⟨hni, hi⟩ := List.nodup_cons.mp hi
    obtain ⟨A, hc, hA⟩ := ih hi (fun j hj => h j (by simp [hj]))
    have hlt := h i (by simp)
    refine ⟨insert l[i] A, ?_, fun a ha => ?_⟩
    · rw [Finset.card_insert_of_notMem, hc, List.length_cons]
      intro hm
      obtain ⟨j, hj, hj'⟩ := hA _ hm
      have hlt' : j < l.length := h j (by simp [hj])
      have : j = i := hl.getElem_inj_iff.mp (by simpa [List.getElem?_eq_getElem hlt'] using hj')
      exact hni (this ▸ hj)
    · cases Finset.mem_insert.mp ha with
      | inl ha => exact ⟨i, by simp, by simp [ha]⟩
      | inr ha =>
        obtain ⟨j, hj, hj'⟩ := hA a ha
        exact ⟨j, by simp [hj], hj'⟩

end Quorum
