import Mathlib.Logic.Basic

open List

-- Computations that can fail, and loops over them.
namespace Except

universe u v

variable {ε : Type u} {α β σ : Type v}

theorem bind_eq_ok {x : Except ε α} {f : α → Except ε β} {b : β} :
    x >>= f = .ok b ↔ ∃ a, x = .ok a ∧ f a = .ok b := by
  cases x <;> simp [bind, Except.bind]

theorem pure_eq_ok {a b : α} : (pure a : Except ε α) = .ok b ↔ a = b := by
  simp [pure, Except.pure]

theorem map_eq_ok {x : Except ε α} {f : α → β} {b : β} : x.map f = .ok b ↔ ∃ a, x = .ok a ∧ f a = b := by
  cases x <;> simp [Except.map]

theorem toOption_eq_some {e : Except ε α} {a : α} : e.toOption = some a ↔ e = .ok a := by
  cases e <;> simp [Except.toOption]

-- The rules for a loop which carries a state through a list: it ends in a state that every step
-- leads to from the one before.
theorem foldlM_nil_eq_ok {f : σ → α → Except ε σ} {s s' : σ} :
    [].foldlM f s = .ok s' ↔ s = s' := by
  simp [pure_eq_ok]

theorem foldlM_cons_eq_ok {f : σ → α → Except ε σ} {a : α} {l : List α} {s s' : σ} :
    (a :: l).foldlM f s = .ok s' ↔ ∃ t, f s a = .ok t ∧ l.foldlM f t = .ok s' := by
  rw [foldlM_cons, bind_eq_ok]

theorem foldlM_append_eq_ok {f : σ → α → Except ε σ} {l₁ l₂ : List α} {s s' : σ} :
    (l₁ ++ l₂).foldlM f s = .ok s' ↔ ∃ t, l₁.foldlM f s = .ok t ∧ l₂.foldlM f t = .ok s' := by
  rw [foldlM_append, bind_eq_ok]

-- The invariant rule for a loop.
theorem foldlM_invariant {motive : σ → Prop} {f : σ → α → Except ε σ} {l : List α} {s s' : σ}
    (h : l.foldlM f s = .ok s') (init : motive s)
    (pres : ∀ a ∈ l, ∀ s s', motive s → f s a = .ok s' → motive s') : motive s' := by
  induction l generalizing s with
  | nil => exact foldlM_nil_eq_ok.mp h ▸ init
  | cons a l hi =>
    obtain ⟨t, ht, h⟩ := foldlM_cons_eq_ok.mp h
    exact hi h (pres a mem_cons_self s t init ht) fun b hb => pres b (mem_cons_of_mem _ hb)

-- Two loops agree if their steps do.
theorem foldlM_congr {f g : σ → α → Except ε σ} {l : List α} (h : ∀ a ∈ l, ∀ s, f s a = g s a)
    (s : σ) : l.foldlM f s = l.foldlM g s := by
  induction l generalizing s with
  | nil => rfl
  | cons a l hi =>
    rw [foldlM_cons, foldlM_cons, h a mem_cons_self]
    exact congrArg _ (funext fun t => hi (fun b hb => h b (mem_cons_of_mem _ hb)) t)

-- A loop whose steps all succeed.
theorem foldlM_eq_ok {f : σ → α → Except ε σ} {g : σ → α → σ} {l : List α}
    (h : ∀ a ∈ l, ∀ s, f s a = .ok (g s a)) (s : σ) : l.foldlM f s = .ok (l.foldl g s) := by
  rw [foldlM_congr h]
  exact foldlM_pure

-- The elements that a loop passes over can be left out.
theorem foldlM_filter {f : σ → α → Except ε σ} {p : α → Bool} {l : List α}
    (h : ∀ a ∈ l, p a = false → ∀ s, f s a = .ok s) (s : σ) :
    (l.filter p).foldlM f s = l.foldlM f s := by
  induction l generalizing s with
  | nil => rfl
  | cons a l hi =>
    have hl := hi fun b hb => h b (mem_cons_of_mem _ hb)
    cases hp : p a with
    | true =>
      rw [filter_cons_of_pos hp, foldlM_cons, foldlM_cons]
      exact congrArg _ (funext hl)
    | false =>
      rw [filter_cons_of_neg (by simp [hp]), hl, foldlM_cons,
        h a mem_cons_self hp]
      rfl

-- The computation does not end with one of the errors of `P`.
def Avoids (P : ε → Prop) : Except ε α → Prop
  | .ok _    => True
  | .error e => ¬P e

section Avoids

variable {P : ε → Prop}

@[simp]
theorem avoids_ok {a : α} : (.ok a : Except ε α).Avoids P :=
  trivial

@[simp]
theorem avoids_pure {a : α} : (pure a : Except ε α).Avoids P :=
  trivial

@[simp]
theorem avoids_error {e : ε} : (.error e : Except ε α).Avoids P ↔ ¬P e :=
  Iff.rfl

theorem avoids_iff {x : Except ε α} : x.Avoids P ↔ ∀ e, P e → x ≠ .error e := by
  cases x with
  | ok a => simp
  | error e =>
    rw [avoids_error]
    exact ⟨fun h e' he' he => h (Except.error.inj he ▸ he'), fun h he => h e he rfl⟩

theorem avoids_bind {x : Except ε α} {f : α → Except ε β} :
    (x >>= f).Avoids P ↔ x.Avoids P ∧ ∀ a, x = .ok a → (f a).Avoids P := by
  cases x <;> simp [bind, Except.bind]

@[simp]
theorem avoids_map {x : Except ε α} {f : α → β} : (f <$> x).Avoids P ↔ x.Avoids P := by
  cases x <;> rfl

-- A loop avoids the errors if every step of it does that is reached.
theorem avoids_foldlM {f : σ → α → Except ε σ} {l : List α} {s : σ} :
    (l.foldlM f s).Avoids P ↔ ∀ before a after t, before ++ a :: after = l →
      before.foldlM f s = .ok t → (f t a).Avoids P := by
  induction l generalizing s with
  | nil => simp
  | cons b l hi =>
    rw [foldlM_cons, avoids_bind]
    constructor
    case mp =>
      rintro ⟨hb, hl⟩ before a after t hsplit ht
      cases before with
      | nil =>
        obtain ⟨rfl, rfl⟩ := cons.inj hsplit
        exact foldlM_nil_eq_ok.mp ht ▸ hb
      | cons c before =>
        obtain ⟨rfl, htail⟩ := cons.inj hsplit
        obtain ⟨u, hu, ht⟩ := foldlM_cons_eq_ok.mp ht
        exact hi.mp (hl u hu) before a after t htail ht
    case mpr =>
      intro h
      refine ⟨h [] b l s rfl rfl, fun u hu => hi.mpr fun before a after t hsplit ht => ?_⟩
      exact h (b :: before) a after t (congrArg (b :: ·) hsplit) (foldlM_cons_eq_ok.mpr ⟨u, hu, ht⟩)

end Avoids

end Except

export Except (bind_eq_ok pure_eq_ok toOption_eq_some foldlM_cons_eq_ok foldlM_nil_eq_ok)
