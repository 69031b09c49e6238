import Mathlib.Data.List.Basic

-- An encoding whose end can be told, whatever follows it.
def PrefixCode {α β : Type} (encode : α → List β) : Prop :=
  ∀ ⦃a b : α⦄ ⦃x y : List β⦄, encode a ++ x = encode b ++ y → a = b ∧ x = y

namespace PrefixCode

variable {α β γ : Type} {encode : α → List β} {encode' : γ → List β}

-- The encodings have all the same length.
theorem of_length (hlength : ∀ a, (encode a).length = n) (hinj : Function.Injective encode) :
    PrefixCode encode := by
  intro a b x y h
  obtain ⟨hencode, hrest⟩ := List.append_inj h ((hlength a).trans (hlength b).symm)
  exact ⟨hinj hencode, hrest⟩

theorem append (h : PrefixCode encode) (h' : PrefixCode encode') :
    PrefixCode fun p : α × γ => encode p.1 ++ encode' p.2 := by
  intro p q x y he
  rw [List.append_assoc, List.append_assoc] at he
  obtain ⟨hfst, he⟩ := h he
  obtain ⟨hsnd, hrest⟩ := h' he
  exact ⟨Prod.ext hfst hsnd, hrest⟩

end PrefixCode
