import Mathlib.Order.RelClasses

-- A program over a state which may stop before it returns. The state is kept when it stops.
abbrev Prog (σ ε α : Type) := ExceptT ε (StateM σ) α

namespace Prog

variable {σ ε α β : Type}

def exec (m : Prog σ ε α) (s : σ) : Except ε α × σ :=
  m s

def final (m : Prog σ ε α) (s : σ) : σ :=
  (m.exec s).2

-- A loop which ends at the first `.inr`. It gives up with `stop` after `fuel` rounds.
def iterate (stop : ε) (body : α → Prog σ ε (α ⊕ β)) : ℕ → α → Prog σ ε β
  | 0, _ => throw stop
  | fuel + 1, a => do
    match ← body a with
    | .inl a => iterate stop body fuel a
    | .inr b => return b

theorem exec_bind {m : Prog σ ε α} {f : α → Prog σ ε β} {s : σ} : (m >>= f).exec s =
    match m.exec s with
    | (.ok a, s') => (f a).exec s'
    | (.error e, s') => (.error e, s') := by
  change (ExceptT.bind m f) s = _
  rcases h : m s with ⟨e | a, s'⟩
  · simp only [ExceptT.bind, ExceptT.mk, exec, bind, StateT.bind, h]
    rfl
  · simp only [ExceptT.bind, ExceptT.mk, exec, bind, StateT.bind, h]
    rfl

-- What a program guarantees: `Q` of what it returns and the state then, `E` of the state in which it stops.
structure Meets (P : σ → Prop) (m : Prog σ ε α) (Q : α → σ → Prop) (E : σ → Prop) : Prop where
  returns {s a s'} : P s → m.exec s = (.ok a, s') → Q a s'
  stops {s e s'} : P s → m.exec s = (.error e, s') → E s'

namespace Meets

variable {P P' : σ → Prop} {Q Q' : α → σ → Prop} {R : β → σ → Prop} {E E' : σ → Prop}
variable {m : Prog σ ε α} {f : α → Prog σ ε β}

theorem ret (h : ∀ s, P s → Q a s) : Meets P (pure a : Prog σ ε α) Q E  where
  returns hp he := by cases he; exact h _ hp
  stops _ he := by cases he

theorem stop (h : ∀ s, P s → E s) : Meets P (throw e : Prog σ ε α) Q E  where
  returns _ he := by cases he
  stops hp he := by cases he; exact h _ hp

theorem read {Q : σ → σ → Prop} (h : ∀ s, P s → Q s s) : Meets P (get : Prog σ ε σ) Q E where
  returns hp he := by cases he; exact h _ hp
  stops _ he := by cases he

theorem write {Q : PUnit → σ → Prop} (h : ∀ s, P s → Q ⟨⟩ (g s)) :
    Meets P (modify g : Prog σ ε PUnit) Q E  where
  returns hp he := by cases he; exact h _ hp
  stops _ he := by cases he

theorem andThen (hm : Meets P m Q E) (hf : ∀ a, Meets (Q a) (f a) R E) : Meets P (m >>= f) R E where
  returns {s _ _} hp he := by
    rw [exec_bind] at he
    cases h : m.exec s with
    | mk r s' =>
      rw [h] at he
      cases r with
      | ok a => exact (hf a).returns (hm.returns hp h) he
      | error => cases he
  stops {s _ _} hp he := by
    rw [exec_bind] at he
    cases h : m.exec s with
    | mk r s' =>
      rw [h] at he
      cases r with
      | ok a => exact (hf a).stops (hm.returns hp h) he
      | error => cases he; exact hm.stops hp h

theorem readThen {f : σ → Prog σ ε β} (hf : ∀ s₀, Meets (fun s => s = s₀ ∧ P s) (f s₀) R E) :
    Meets P (get >>= f) R E where
  returns {s _ _} hp he := (hf s).returns ⟨rfl, hp⟩ he
  stops {s _ _} hp he := (hf s).stops ⟨rfl, hp⟩ he

theorem weaken (hm : Meets P m Q E) (hp : ∀ s, P' s → P s) (hq : ∀ a s, Q a s → Q' a s)
    (he : ∀ s, E s → E' s) : Meets P' m Q' E' where
  returns hp' h := hq _ _ (hm.returns (hp _ hp') h)
  stops hp' h := he _ (hm.stops (hp _ hp') h)

theorem some {γ : Type} {P : γ → σ → Prop} (h : ∀ c, Meets (P c) m Q E) : Meets (fun s => ∃ c, P c s) m Q E where
  returns hp he := hp.elim fun c hc => (h c).returns hc he
  stops hp he := hp.elim fun c hc => (h c).stops hc he

theorem given (h : φ → Meets P m Q E) : Meets (fun s => φ ∧ P s) m Q E  where
  returns hp he := (h hp.1).returns hp.2 he
  stops hp he := (h hp.1).stops hp.2 he

theorem branch [Decidable c] (h₁ : c → Meets P m₁ Q E)
    (h₂ : ¬c → Meets P m₂ Q E) : Meets P (if c then m₁ else m₂) Q E := by
  split_ifs with h
  · exact h₁ h
  · exact h₂ h

-- What holds when the program is over.
theorem final {P E : σ → Prop} (hm : Meets P m (fun _ => E) E) {s : σ} (hp : P s) : E (m.final s) := by
  cases h : m.exec s with
  | mk r s' =>
    rw [Prog.final, h]
    cases r with
    | ok a => exact hm.returns hp h
    | error e => exact hm.stops hp h

-- The invariant rule of the loop.
theorem loop {stop : ε}
    (hbody : ∀ a, Meets (I a) (body a) (fun r => r.elim I R) E) (hstop : ∀ a s, I a s → E s) (fuel : ℕ) (a : α) :
    Meets (I a) (iterate stop body fuel a) R E := by
  induction fuel generalizing a with
  | zero => exact .stop (hstop a)
  | succ fuel ih =>
    refine (hbody a).andThen fun r => ?_
    cases r with
    | inl a => exact ih a
    | inr b => exact .ret fun _ h => h

-- The invariant rule of a loop over a list.
theorem each {γ : Type} {I : List γ → σ → Prop} {g : γ → Prog σ ε PUnit}
    (hbody : ∀ c cs, Meets (I (c :: cs)) (g c) (fun _ => I cs) E) (cs : List γ) :
    Meets (I cs) (cs.forM g) (fun _ => I []) E := by
  induction cs with
  | nil => exact .ret fun _ h => h
  | cons c cs ih => exact (hbody c cs).andThen fun _ => ih

end Meets

-- A program whose states stay related to the one it starts in.
structure Keeps (R : σ → σ → Prop) (m : Prog σ ε α) : Prop where
  meets (s₀ : σ) : Meets (R s₀) m (fun _ => R s₀) (R s₀)

namespace Keeps

variable {R : σ → σ → Prop} {m : Prog σ ε α} {f : α → Prog σ ε β}

theorem ret (a : α) : Keeps R (pure a : Prog σ ε α) :=
  ⟨fun _ => .ret fun _ h => h⟩

theorem stop (e : ε) : Keeps R (throw e : Prog σ ε α) :=
  ⟨fun _ => .stop fun _ h => h⟩

theorem read : Keeps R (get : Prog σ ε σ) :=
  ⟨fun _ => .read fun _ h => h⟩

theorem write [IsTrans σ R] (h : ∀ s, R s (g s)) : Keeps R (modify g : Prog σ ε PUnit) :=
  ⟨fun _ => .write fun s hs => Trans.trans hs (h s)⟩

theorem andThen (hm : Keeps R m) (hf : ∀ a, Keeps R (f a)) : Keeps R (m >>= f) :=
  ⟨fun s₀ => (hm.meets s₀).andThen fun a => (hf a).meets s₀⟩

theorem branch [Decidable c] (h₁ : Keeps R m₁) (h₂ : Keeps R m₂) : Keeps R (if c then m₁ else m₂) :=
  ⟨fun s₀ => .branch (fun _ => h₁.meets s₀) fun _ => h₂.meets s₀⟩

-- A program keeps what the relation keeps.
theorem stays [Std.Refl R] {P Q E : σ → Prop} (hm : Keeps R m) (hP : ∀ s s', P s → R s s' → Q s')
    (hE : ∀ s, Q s → E s) : Meets P m (fun _ => Q) E where
  returns hp he := hP _ _ hp ((hm.meets _).returns (refl _) he)
  stops hp he := hE _ (hP _ _ hp ((hm.meets _).stops (refl _) he))

theorem mono [Std.Refl R] [IsTrans σ R'] (hm : Keeps R m) (h : ∀ s s', R s s' → R' s s') : Keeps R' m  where
  meets _ := hm.stays (fun s s' hs hs' => Trans.trans hs (h s s' hs')) fun _ h => h

theorem loop {stop : ε} (hbody : ∀ a, Keeps R (body a)) (fuel : ℕ) (a : α) :
    Keeps R (iterate stop body fuel a)  where
  meets s₀ := Meets.loop (I := fun _ => R s₀)
    (fun a => ((hbody a).meets s₀).weaken (fun _ h => h) (fun r _ h => by cases r <;> exact h)
      fun _ h => h) (fun _ _ h => h)
    fuel a

theorem each {γ : Type} {g : γ → Prog σ ε PUnit} (h : ∀ c, Keeps R (g c)) (cs : List γ) : Keeps R (cs.forM g) where
  meets s₀ := Meets.each (I := fun _ => R s₀) (fun c _ => (h c).meets s₀) cs

end Keeps

end Prog
