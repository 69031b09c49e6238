import Mathlib.Algebra.Ring.Int.Defs
import Mathlib.Data.List.Count

open Function List

-- A store in which every value has a reference count. A value whose count is not positive is still in
-- the store, but it cannot be read.
namespace RefCount

variable {K V : Type*}

abbrev Store (K V : Type*) :=
  K → Option (V × ℤ)

def get (s : Store K V) (k : K) : Option V :=
  match s k with
  | some (v, rc) => if 0 < rc then some v else none
  | none         => none

def count (s : Store K V) (k : K) : ℤ :=
  (s k).elim 0 Prod.snd

-- What can be read under the key can only be this value.
def Holds (s : Store K V) (k : K) (v : V) : Prop :=
  ∀ v' rc, s k = some (v', rc) → 0 < rc → v' = v

theorem get_of_holds {k : K} {v : V} (h : Holds s k v) (hc : 0 < count s k) : get s k = some v := by
  simp only [get, count] at hc ⊢
  cases hs : s k with
  | none => simp [hs] at hc
  | some e =>
    have hpos : 0 < e.2 := by simpa [hs] using hc
    simp [hpos, h e.1 e.2 hs hpos]

theorem get_eq_none {s : Store K V} (hc : count s k ≤ 0) : get s k = none := by
  simp only [get, count] at hc ⊢
  cases hs : s k with
  | none => rfl
  | some e =>
    have hle : e.2 ≤ 0 := by simpa [hs] using hc
    simp [Int.not_lt.mpr hle]

theorem holds_of_count_le {k : K} {v : V} (hc : count s k ≤ 0) : Holds s k v := by
  intro v' rc hs hpos
  simp only [count, hs, Option.elim_some] at hc
  omega

variable [DecidableEq K]

-- A value is only stored anew if it could not be read before.
def emplace (s : Store K V) (k : K) (v : V) : Store K V :=
  update s k <| some <|
    match s k with
    | some (old, rc) => (if rc ≤ 0 then v else old, rc + 1)
    | none           => (v, 1)

def remove [Inhabited V] (s : Store K V) (k : K) : Store K V :=
  update s k <| some <|
    match s k with
    | some (v, rc) => (v, rc - 1)
    | none         => (default, -1)

section Step

variable {s : Store K V} {k k' : K} {v v' : V}

theorem count_emplace : count (emplace s k' v) k = count s k + if k' = k then 1 else 0 := by
  by_cases hk : k' = k
  · subst hk
    cases hs : s k' <;> simp [emplace, count, hs]
  · simp [emplace, count, update_of_ne (Ne.symm hk), hk]

theorem count_remove [Inhabited V] : count (remove s k') k = count s k - if k' = k then 1 else 0 := by
  by_cases hk : k' = k
  · subst hk
    cases hs : s k' <;> simp [remove, count, hs]
  · simp [remove, count, update_of_ne (Ne.symm hk), hk]

theorem Holds.emplace (h : Holds s k v) (hv : k' = k → v' = v) : Holds (emplace s k' v') k v := by
  intro u rc hs hpos
  by_cases hk : k' = k
  case neg => exact h u rc (by simpa [RefCount.emplace, update_of_ne (Ne.symm hk)] using hs) hpos
  case pos =>
    subst hk
    have hv := hv rfl
    simp only [RefCount.emplace, update_self, Option.some.injEq] at hs
    cases hk : s k' with
    | none =>
      rw [hk] at hs
      cases hs
      exact hv
    | some e =>
      rw [hk] at hs
      cases hs
      split_ifs with hle
      · exact hv
      · exact h e.1 e.2 hk (Int.not_le.mp hle)

theorem Holds.remove [Inhabited V] (h : Holds s k v) : Holds (remove s k') k v := by
  intro u rc hs hpos
  by_cases hk : k' = k
  case neg => exact h u rc (by simpa [RefCount.remove, update_of_ne (Ne.symm hk)] using hs) hpos
  case pos =>
    subst hk
    simp only [RefCount.remove, update_self, Option.some.injEq] at hs
    cases hk : s k' with
    | none =>
      rw [hk] at hs
      cases hs
      omega
    | some e =>
      rw [hk] at hs
      cases hs
      exact h e.1 e.2 hk (by omega)

end Step

-- Any calls, in any order.
section Calls

inductive Call (K V : Type*)
  | emplace (k : K) (v : V)
  | remove (k : K)

namespace Call

def key : Call K V → K
  | emplace k _ => k
  | remove k    => k

def stores (k : K) : Call K V → Bool
  | emplace k' _ => k' = k
  | remove _     => false

def removes (k : K) : Call K V → Bool
  | emplace _ _ => false
  | remove k'   => k' = k

end Call

variable [Inhabited V]

def apply (s : Store K V) : Call K V → Store K V
  | .emplace k v => emplace s k v
  | .remove k    => remove s k

variable {s : Store K V} {k : K} {v : V}

theorem count_apply (c : Call K V) :
    count (apply s c) k = count s k + (if c.stores k then 1 else 0) - if c.removes k then 1 else 0 := by
  cases c with
  | emplace k' v => simp [apply, count_emplace, Call.stores, Call.removes]
  | remove k' => simp [apply, count_remove, Call.stores, Call.removes]

theorem count_apply_of_ne (h : c.key ≠ k) : count (apply s c) k = count s k := by
  cases c with
  | emplace k' v =>
    have h : k' ≠ k := h
    rw [apply, count_emplace, if_neg h, Int.add_zero]
  | remove k' =>
    have h : k' ≠ k := h
    rw [apply, count_remove, if_neg h, Int.sub_zero]

theorem count_apply_near (c : Call K V) :
    count s k - 1 ≤ count (apply s c) k ∧ count (apply s c) k ≤ count s k + 1 := by
  rw [count_apply]
  split_ifs <;> omega

theorem count_applyAll (cs : List (Call K V)) (s : Store K V) :
    count (cs.foldl apply s) k = count s k + cs.countP (·.stores k) - cs.countP (·.removes k) := by
  induction cs generalizing s with
  | nil => simp
  | cons c cs hi =>
    rw [foldl_cons, hi, count_apply, countP_cons, countP_cons]
    split_ifs <;> omega

theorem Holds.apply (h : Holds s k v) (hv : ∀ v', c = .emplace k v' → v' = v) :
    Holds (RefCount.apply s c) k v := by
  cases c with
  | emplace k' v' =>
    refine h.emplace fun hk => ?_
    subst hk
    exact hv v' rfl
  | remove k' => exact h.remove

theorem Holds.applyAll {cs : List (Call K V)} (h : Holds s k v) (hv : ∀ v', .emplace k v' ∈ cs → v' = v) :
    Holds (cs.foldl RefCount.apply s) k v := by
  induction cs generalizing s with
  | nil => exact h
  | cons c cs hi =>
    refine hi (h.apply fun v' hc => hv v' ?_) fun v' hmem => hv v' (mem_cons_of_mem _ hmem)
    exact hc ▸ mem_cons_self

end Calls

-- Any number of removals, and of values that are stored.
section Loop

variable [Inhabited V] {k : K} {v : V}

theorem removeAll_eq (ks : List K) (s : Store K V) : ks.foldl remove s = (ks.map .remove).foldl apply s := by
  rw [foldl_map]
  rfl

theorem emplaceAll_eq (es : List (K × V)) (s : Store K V) :
    es.foldl (fun s e => emplace s e.1 e.2) s = (es.map fun e => .emplace e.1 e.2).foldl apply s := by
  rw [foldl_map]
  rfl

theorem count_removeAll (ks : List K) (s : Store K V) :
    count (ks.foldl remove s) k = count s k - ks.countP (· = k) := by
  rw [removeAll_eq, count_applyAll, countP_map, countP_map]
  simp [comp_def, Call.stores, Call.removes]

theorem count_emplaceAll (es : List (K × V)) (s : Store K V) :
    count (es.foldl (fun s e => emplace s e.1 e.2) s) k = count s k + es.countP (·.1 = k) := by
  rw [emplaceAll_eq, count_applyAll, countP_map, countP_map]
  simp [comp_def, Call.stores, Call.removes]

theorem Holds.removeAll (h : Holds s k v) (ks : List K) : Holds (ks.foldl RefCount.remove s) k v := by
  rw [removeAll_eq]
  exact h.applyAll fun v' hmem => by simp at hmem

theorem Holds.emplaceAll (h : Holds s k v) {es : List (K × V)} (hv : ∀ e ∈ es, e.1 = k → e.2 = v) :
    Holds (es.foldl (fun s e => RefCount.emplace s e.1 e.2) s) k v := by
  rw [emplaceAll_eq]
  refine h.applyAll fun v' hmem => ?_
  obtain ⟨e, he, heq⟩ := mem_map.mp hmem
  cases heq
  exact hv e he rfl

end Loop

-- The counts are machine integers, which wrap around.
namespace Machine

abbrev Store (K V : Type*) :=
  K → Option (V × Int32)

def emplace (s : Store K V) (k : K) (v : V) : Store K V :=
  update s k <| some <|
    match s k with
    | some (old, rc) => (if rc ≤ 0 then v else old, rc + 1)
    | none           => (v, 1)

def remove [Inhabited V] (s : Store K V) (k : K) : Store K V :=
  update s k <| some <|
    match s k with
    | some (v, rc) => (v, rc - 1)
    | none         => (default, -1)

def apply [Inhabited V] (s : Store K V) : Call K V → Store K V
  | .emplace k v => emplace s k v
  | .remove k    => remove s k

def widen (s : Store K V) : RefCount.Store K V :=
  fun k => (s k).map (Prod.map id Int32.toInt)

section Widen

variable {s : Store K V} {k : K} {v : V}

theorem widen_update (e : V × Int32) :
    widen (update s k (some e)) = update (widen s) k (some (e.1, e.2.toInt)) := by
  funext k'
  by_cases hk : k' = k
  · subst hk
    rw [widen, update_self, update_self]
    rfl
  · simp [widen, update_of_ne hk]

theorem toInt_add_one {n : Int32} (h : n.toInt < 2 ^ 31 - 1) : (n + 1).toInt = n.toInt + 1 := by
  have hle := n.le_toInt
  rw [Int32.toInt_add, Int32.toInt_one, Int.bmod_eq_of_le]
  · omega
  · omega

theorem toInt_sub_one {n : Int32} (h : -2 ^ 31 < n.toInt) : (n - 1).toInt = n.toInt - 1 := by
  have hlt := n.toInt_lt
  rw [Int32.toInt_sub, Int32.toInt_one, Int.bmod_eq_of_le]
  · omega
  · omega

theorem widen_emplace (h : count (widen s) k < 2 ^ 31 - 1) :
    widen (emplace s k v) = RefCount.emplace (widen s) k v := by
  rw [emplace, widen_update, RefCount.emplace]
  cases hs : s k with
  | none => simp [widen, hs]
  | some e =>
    have hlt : e.2.toInt < 2 ^ 31 - 1 := by simpa [count, widen, hs] using h
    simp [widen, hs, toInt_add_one hlt, Int32.le_iff_toInt_le]

theorem widen_remove [Inhabited V] (h : -2 ^ 31 < count (widen s) k) :
    widen (remove s k) = RefCount.remove (widen s) k := by
  rw [remove, widen_update, RefCount.remove]
  cases hs : s k with
  | none => simp [widen, hs]
  | some e =>
    have hlt : -2 ^ 31 < e.2.toInt := by simpa [count, widen, hs] using h
    simp [widen, hs, toInt_sub_one hlt]

-- The counts do not wrap around if there are few calls for each key.
theorem widen_applyAll [Inhabited V] {cs : List (Call K V)}
    (h : ∀ k, -2 ^ 31 ≤ count (widen s) k - cs.countP (·.key = k) ∧
      count (widen s) k + cs.countP (·.key = k) < 2 ^ 31) :
    widen (cs.foldl apply s) = cs.foldl RefCount.apply (widen s) := by
  induction cs generalizing s with
  | nil => rfl
  | cons c cs hi =>
    have hstep : widen (apply s c) = RefCount.apply (widen s) c := by
      obtain ⟨hlow, hhigh⟩ := h c.key
      rw [countP_cons_of_pos (by simp)] at hlow hhigh
      cases c with
      | emplace k v => exact widen_emplace (by simp only [Call.key] at hhigh; omega)
      | remove k => exact widen_remove (by simp only [Call.key] at hlow; omega)
    rw [foldl_cons, foldl_cons, ← hstep]
    refine hi fun k => ?_
    obtain ⟨hlow, hhigh⟩ := h k
    rw [hstep]
    by_cases hk : c.key = k
    case pos =>
      obtain ⟨hle, hge⟩ := count_apply_near (s := widen s) (k := k) c
      rw [countP_cons_of_pos (by simpa using hk)] at hlow hhigh
      omega
    case neg =>
      rw [count_apply_of_ne hk]
      rw [countP_cons_of_neg (by simpa using hk)] at hlow hhigh
      exact ⟨hlow, hhigh⟩

end Widen

end Machine

end RefCount
