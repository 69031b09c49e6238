import PolkadexModel.Ocex.Lock

open Function

open Run

namespace Ocex.Lock

variable {Id Auth : Type} [DecidableEq Id] {inv : Id → Invocation Auth}
  {s s' : State Id} {i j : Id}

-- At most one invocation is between its acquisition of the lock and its release, and whoever is about
-- to release the lock has acquired it.
structure State.Exclusive (s : State Id) : Prop where
  unique   : ∀ i j, s.holding i → s.holding j → i = j
  acquired : ∀ i, s.position i = .exiting → s.holding i

-- A validator without an active key, which returns an error before it gets to the lock.
def Invocation.Keyless (inv : Invocation Auth) : Prop :=
  inv.availableKeys = [] ∧ inv.isValidator

-- The invariant. A status is only swapped if it was not that of a worker which is online.
structure State.Locked (s : State Id) : Prop extends s.Exclusive where
  online  : ∀ i, s.holding i → s.status = .online true
  working : ∀ i, s.position i = .working → s.holding i
  waiting : ∀ i, s.holding i → s.position i = .working ∨ s.position i = .exiting
  offline : ∀ i tries old, s.position i = .swapping tries old → old ≠ .online true

namespace State.Locked

omit [DecidableEq Id] in
theorem initial (status : Status) : (State.initial status : State Id).Locked := by
  constructor <;> simp [State.initial]
  constructor <;> simp

theorem goto (h : s.Locked) (hi : s.holding i = false)
    (hw : p ≠ .working) (he : p ≠ .exiting) (hs : ∀ tries old, p = .swapping tries old →
      old ≠ .online true) : (s.goto i p).Locked := by
  have hne {k} (hk : s.holding k = true) : k ≠ i := by
    rintro rfl
    simp [hi] at hk
  have hpos {k q} (hk : (s.goto i p).position k = q) : k = i ∧ p = q ∨ s.position k = q := by
    by_cases hki : k = i
    · exact .inl ⟨hki, by simpa [State.goto, hki] using hk⟩
    · exact .inr (by simpa [State.goto, hki] using hk)
  exact {
    unique   := h.unique
    online   := h.online
    acquired := fun k hk => h.acquired k ((hpos hk).resolve_left fun hp => he hp.2)
    working  := fun k hk => h.working k ((hpos hk).resolve_left fun hp => hw hp.2)
    waiting  := fun k hk => by
      simpa [State.goto, update_of_ne (hne hk)] using h.waiting k hk
    offline  := fun k tries old hk =>
      (hpos hk).elim (fun hp => hs tries old hp.2) (h.offline k tries old) }

-- The status is still the one that was read, so that nobody holds the lock.
theorem acquire {tries : ℕ} (h : s.Locked) (hp : s.position i = .swapping tries s.status) :
    { s.goto i .working with
      status := .online true
      holding := update s.holding i true }.Locked := by
  have hfree k : ¬s.holding k := fun hk => h.offline i tries s.status hp (h.online k hk)
  have hheld {k} (hk : update s.holding i true k) : k = i := by
    by_contra hne
    exact hfree k (by simpa [update_of_ne hne] using hk)
  have hne {k q} (hq : q ≠ .working) (hk : update s.position i .working k = q) : k ≠ i := by
    rintro rfl
    exact hq (by simpa using hk.symm)
  exact {
    unique   := fun k l hk hl => (hheld hk).trans (hheld hl).symm
    online   := fun _ _ => rfl
    acquired := fun k hk => by
      have := hne (by simp) hk
      exact absurd (h.acquired k (by simpa [State.goto, this] using hk)) (hfree k)
    working  := fun k hk => by
      by_cases hki : k = i
      · simp [hki]
      · exact absurd (h.working k (by simpa [State.goto, hki] using hk)) (hfree k)
    waiting  := fun k hk => .inl (by simp [State.goto, hheld hk])
    offline  := fun k tries old hk => by
      have := hne (by simp) hk
      exact h.offline k tries old (by simpa [State.goto, this] using hk) }

theorem exit (h : s.Locked) (hp : s.position i = .working) : (s.goto i .exiting).Locked := by
  have hi := h.working i hp
  have hpos {k q} (hq : q ≠ .exiting) (hk : (s.goto i .exiting).position k = q) :
      s.position k = q := by
    by_cases hki : k = i
    · exact absurd (by simpa [State.goto, hki] using hk.symm) hq
    · simpa [State.goto, hki] using hk
  exact {
    unique   := h.unique
    online   := h.online
    acquired := fun k hk => by
      by_cases hki : k = i
      · exact hki ▸ hi
      · exact h.acquired k (by simpa [State.goto, hki] using hk)
    working  := fun k hk => h.working k (hpos (by simp) hk)
    waiting  := fun k hk => .inr (by simp [State.goto, h.unique k i hk hi])
    offline  := fun k tries old hk => h.offline k tries old (hpos (by simp) hk) }

theorem release (h : s.Locked) (hp : s.position i = .exiting) :
    { s.goto i .done with
      status := .online false
      holding := update s.holding i false }.Locked := by
  have hi := h.acquired i hp
  have hfree k : ¬update s.holding i false k := fun hk => by
    by_cases hki : k = i
    · simp [hki] at hk
    · exact hki (h.unique k i (by simpa [hki] using hk) hi)
  have hpos {k q} (hq : q ≠ .done) (hk : update s.position i .done k = q) :
      k ≠ i ∧ s.position k = q := by
    by_cases hki : k = i
    · exact absurd (by simpa [hki] using hk.symm) hq
    · exact ⟨hki, by simpa [hki] using hk⟩
  exact {
    unique   := fun k l hk => absurd hk (hfree k)
    online   := fun k hk => absurd hk (hfree k)
    acquired := fun k hk => by
      obtain ⟨hki, hk⟩ := hpos (by simp) hk
      exact absurd (h.unique k i (h.acquired k hk) hi) hki
    working  := fun k hk => by
      obtain ⟨hki, hk⟩ := hpos (by simp) hk
      exact absurd (h.unique k i (h.working k hk) hi) hki
    waiting  := fun k hk => absurd hk (hfree k)
    offline  := fun k tries old hk => h.offline k tries old (hpos (by simp) hk).2 }

theorem step (h : s.Locked) (hk : ¬(inv i).Keyless) (hs : Lock.step inv s i = some s') :
    s'.Locked := by
  have hfree (hw : s.position i ≠ .working) (he : s.position i ≠ .exiting) : s.holding i = false := by
    by_contra hi
    exact (h.waiting i (by simpa using hi)).elim hw he
  simp only [Lock.step] at hs
  split at hs
  case h_1 hp =>
    have hne : ¬((inv i).availableKeys.isEmpty && (inv i).isValidator) := by
      simpa [Invocation.Keyless] using hk
    rw [if_neg hne] at hs
    cases hs
    exact h.goto (hfree (by simp [hp]) (by simp [hp])) (by simp) (by simp) (by simp)
  case h_2 hp =>
    cases hs
    exact h.goto (hfree (by simp [hp]) (by simp [hp])) (by simp) (by simp) (by simp)
  case h_3 hp =>
    have hi := hfree (by simp [hp]) (by simp [hp])
    split at hs
    case h_3 old hne _ =>
      cases hs
      refine h.goto hi (by simp) (by simp) fun tries' old' ho => ?_
      cases ho
      exact hne
    all_goals
      cases hs
      exact h.goto hi (by simp) (by simp) (by simp)
  case h_4 tries old hp =>
    split_ifs at hs with hold
    · cases hs
      exact h.acquire (hold ▸ hp)
    · cases hs
      exact h.goto (hfree (by simp [hp]) (by simp [hp])) (by simp) (by simp) (by simp)
  case h_5 hp =>
    cases hs
    exact h.exit hp
  case h_6 hp =>
    cases hs
    exact h.release hp
  case h_7 => cases hs

end State.Locked

-- The lock is exclusive in all interleavings of the invocations if and only if every validator among
-- them has an active key.
theorem lock_exclusive_iff (inv : Id → Invocation Auth) (status : Status) :
    (∀ schedule, (run (step inv) (.initial status) schedule).Exclusive) ↔ ∀ i, ¬(inv i).Keyless := by
  constructor
  case mp =>
    intro h i hk
    have hs : step inv (.initial status) i = some (State.goto (.initial status) i .exiting) := by
      simp [step, State.initial, hk.1, hk.2]
    have hr : run (step inv) (.initial status) [i] = State.goto (.initial status) i .exiting :=
      exec_of_some hs
    have ha := (hr ▸ h [i]).acquired i (by simp [State.goto])
    simp [State.goto, State.initial] at ha
  case mpr =>
    intro hk schedule
    refine (Along.invariant (motive := State.Locked) (P := fun _ _ => True) (fun _ _ => trivial)
      (.initial status) fun s i _ h => ?_).toExclusive
    cases exec_cases (step inv) s i with
    | inl hs => exact h.step (hk i) hs
    | inr hs => exact hs.2.symm ▸ h

def exampleInvocations (i : ℕ) : Invocation ℕ where
  authorities := if i = 1 then [6] else [5]
  localKeys := [5]
  binarySearch authority := if authority = 5 then some 0 else none
  isValidator := true

-- Worker 1 releases the lock of worker 0, so that worker 2 acquires it as well.
theorem lock_shared :
    ¬∀ schedule, (run (step exampleInvocations) (.initial .absent) schedule).Exclusive := by
  intro h
  have := (h [0, 0, 0, 1, 1, 2, 2, 2]).unique 0 2 (by decide) (by decide)
  exact absurd this (by decide)

end Ocex.Lock
