import PolkadexModel.Ocex.Storage

open Function

namespace Ocex.Storage

section Refinement

variable {τ : Type} [LawfulTrieMut τ]

open LawfulTrieMut

theorem contents_insertAll (l : List (Bytes × Bytes)) (hl : l.Pairwise fun a b => a.1 ≠ b.1) (t : τ) :
    ∃ t', l.foldlM (fun t entry => TrieMut.insert t entry.1 entry.2) t = .ok t' ∧
      (∀ entry ∈ l, contents t' entry.1 = some entry.2) ∧
      ∀ key, (∀ entry ∈ l, entry.1 ≠ key) → contents t' key = contents t key := by
  induction l generalizing t with
  | nil => exact ⟨t, rfl, by simp, fun _ _ => rfl⟩
  | cons entry l hi =>
    obtain ⟨hne, hl⟩ := List.pairwise_cons.mp hl
    obtain ⟨t₁, h₁, hc₁⟩ := insert_eq t entry.1 entry.2
    obtain ⟨t', h', hmem, hother⟩ := hi hl t₁
    refine ⟨t', foldlM_cons_eq_ok.mpr ⟨t₁, h₁, h'⟩, fun e he => ?_, fun key hk => ?_⟩
    · cases List.mem_cons.mp he with
      | inl he => rw [he, hother _ fun e he => (hne e he).symm, hc₁, update_self]
      | inr he => exact hmem e he
    · have hkey : key ≠ entry.1 := (hk entry List.mem_cons_self).symm
      rw [hother key fun e he => hk e (List.mem_cons_of_mem _ he), hc₁, update_of_ne hkey]

theorem contents_removeAll (l : List Bytes) (t : τ) :
    ∃ t', l.foldlM TrieMut.remove t = .ok t' ∧
      ∀ key, contents t' key = if key ∈ l then none else contents t key := by
  induction l generalizing t with
  | nil => exact ⟨t, rfl, by simp⟩
  | cons k l hi =>
    obtain ⟨t₁, h₁, hc₁⟩ := remove_eq t k
    obtain ⟨t', h', hc'⟩ := hi t₁
    refine ⟨t', foldlM_cons_eq_ok.mpr ⟨t₁, h₁, h'⟩, fun key => ?_⟩
    rw [hc', hc₁]
    by_cases hk : key = k <;> simp [hk]

namespace OffchainState

variable {s : OffchainState τ} {m : Bytes → Option Bytes}

def lookup (s : OffchainState τ) (key : Bytes) : Option Bytes :=
  s.cache[key]?.or (contents s.trie key)

-- The map which the state stands for. What is removed is not in it, although the trie may still have
-- it.
structure Represents (s : OffchainState τ) (m : Bytes → Option Bytes) : Prop where
  removed : ∀ key ∈ s.keysToRemove, m key = none
  kept : ∀ key, key ∉ s.keysToRemove → m key = s.lookup key
  -- A removed key only gets back into the cache from the trie.
  stale : ∀ key ∈ s.keysToRemove, s.lookup key = contents s.trie key

theorem represents_load (t : τ) : (load t).Represents (contents t) := by
  refine ⟨fun key hk => ?_, fun key _ => ?_, fun key _ => ?_⟩
  · simp [load] at hk
  · simp [lookup, load]
  · simp [lookup, load]

theorem get_eq_ok (s : OffchainState τ) (key : Bytes) :
    ∃ s', s.get key = .ok (s', s.lookup key) ∧ s'.trie = s.trie ∧
      s'.keysToRemove = s.keysToRemove ∧ ∀ k, s'.lookup k = s.lookup k := by
  simp only [get]
  cases hc : s.cache[key]? with
  | some value => exact ⟨s, by simp [lookup, hc], rfl, rfl, fun _ => rfl⟩
  | none =>
    have hg : TrieMut.get s.trie key = .ok (contents s.trie key) := LawfulTrieMut.get_eq s.trie key
    cases ht : contents s.trie key with
    | none =>
      refine ⟨s, ?_, rfl, rfl, fun _ => rfl⟩
      simp [hg, ht, lookup, hc, bind, Except.bind, pure, Except.pure]
    | some value =>
      refine ⟨{ s with cache := s.cache.insert key value }, ?_, rfl, rfl, fun k => ?_⟩
      · simp [hg, ht, lookup, hc, bind, Except.bind, pure, Except.pure]
      · by_cases hk : key = k
        · subst hk
          simp [lookup, hc, ht]
        · simp [lookup, Std.TreeMap.getElem?_insert, hk]

theorem Represents.get {s' : OffchainState τ} (h : s.Represents m) (ht : s'.trie = s.trie)
    (hk : s'.keysToRemove = s.keysToRemove) (hl : ∀ k, s'.lookup k = s.lookup k) :
    s'.Represents m where
  removed := hk ▸ h.removed
  kept key := by rw [hk, hl]; exact h.kept key
  stale key := by rw [hk, hl, ht]; exact h.stale key

theorem Represents.insert (h : s.Represents m) (key value : Bytes) :
    (s.insert key value).Represents (update m key (some value)) := by
  have hmem k : k ∈ (s.insert key value).keysToRemove ↔ key ≠ k ∧ k ∈ s.keysToRemove := by
    simp [OffchainState.insert, Std.TreeSet.mem_erase]
  have hlookup k : (s.insert key value).lookup k = if key = k then some value else s.lookup k := by
    by_cases hk : key = k <;> simp [OffchainState.insert, lookup, Std.TreeMap.getElem?_insert, hk]
  refine ⟨fun k hk => ?_, fun k hk => ?_, fun k hk => ?_⟩
  · obtain ⟨hne, hk⟩ := (hmem k).mp hk
    rw [update_of_ne hne.symm, h.removed k hk]
  · rw [hlookup]
    by_cases hne : key = k
    · simp [hne]
    · have hk : k ∉ s.keysToRemove := fun hr => hk ((hmem k).mpr ⟨hne, hr⟩)
      rw [update_of_ne (Ne.symm hne), if_neg hne, h.kept k hk]
  · obtain ⟨hne, hk⟩ := (hmem k).mp hk
    rw [hlookup, if_neg hne]
    exact h.stale k hk

theorem Represents.remove (h : s.Represents m) (key : Bytes) :
    (s.remove key).Represents (update m key none) := by
  have hmem k : k ∈ (s.remove key).keysToRemove ↔ key = k ∨ k ∈ s.keysToRemove := by
    simp [OffchainState.remove, Std.TreeSet.mem_insert]
  have hlookup k : (s.remove key).lookup k =
      if key = k then contents s.trie k else s.lookup k := by
    by_cases hk : key = k <;> simp [OffchainState.remove, lookup, Std.TreeMap.getElem?_erase, hk]
  refine ⟨fun k hk => ?_, fun k hk => ?_, fun k hk => ?_⟩
  · by_cases hne : key = k
    · simp [hne]
    · rw [update_of_ne (Ne.symm hne)]
      exact h.removed k (((hmem k).mp hk).resolve_left hne)
  · have hne : key ≠ k := fun he => hk ((hmem k).mpr (.inl he))
    have hk : k ∉ s.keysToRemove := fun hr => hk ((hmem k).mpr (.inr hr))
    rw [update_of_ne hne.symm, hlookup, if_neg hne, h.kept k hk]
  · rw [hlookup]
    split_ifs with hne
    · rfl
    · exact h.stale k (((hmem k).mp hk).resolve_left hne)

theorem commit_eq_ok (h : s.Represents m) :
    ∃ t root, s.commit = .ok (load t, root) ∧ contents t = m := by
  have hl : s.cache.toList.Pairwise fun a b => a.1 ≠ b.1 :=
    s.cache.distinct_keys_toList.imp fun hne he => hne (Std.LawfulEqOrd.compare_eq_iff_eq.mpr he)
  obtain ⟨t₁, h₁, hmem, hother⟩ := contents_insertAll s.cache.toList hl s.trie
  obtain ⟨t₂, h₂, hc₂⟩ := contents_removeAll s.keysToRemove.toList t₁
  refine ⟨TrieMut.commit t₂, TrieMut.root (TrieMut.commit t₂), ?ok, ?contents⟩
  case ok =>
    simp only [commit, bind_eq_ok, pure_eq_ok]
    exact ⟨t₁, h₁, t₂, h₂, rfl⟩
  case contents =>
    have hlookup key : contents t₁ key = s.lookup key := by
      cases hc : s.cache[key]? with
      | some value =>
        rw [hmem (key, value) (Std.TreeMap.mem_toList_iff_getElem?_eq_some.mpr hc)]
        simp [lookup, hc]
      | none =>
        rw [hother key]
        · simp [lookup, hc]
        · intro entry he hk
          have he := Std.TreeMap.mem_toList_iff_getElem?_eq_some.mp he
          rw [hk, hc] at he
          cases he
    funext key
    rw [LawfulTrieMut.commit_eq, hc₂, hlookup]
    split_ifs with hk
    · exact (h.removed key (Std.TreeSet.mem_toList.mp hk)).symm
    · exact (h.kept key fun hr => hk (Std.TreeSet.mem_toList.mpr hr)).symm

theorem Represents.step (h : s.Represents m) (op : Operation) :
    ∃ s' m', s.step op = some s' ∧ Map.step m op = some m' ∧ s'.Represents m' := by
  cases op with
  | get key =>
    obtain ⟨s', hg, ht, hk, hl⟩ := s.get_eq_ok key
    exact ⟨s', m, by simp [OffchainState.step, hg, Except.toOption], rfl, h.get ht hk hl⟩
  | insert key value => exact ⟨_, _, rfl, rfl, h.insert key value⟩
  | remove key => exact ⟨_, _, rfl, rfl, h.remove key⟩
  | commit =>
    obtain ⟨t, root, hc, ht⟩ := commit_eq_ok h
    refine ⟨load t, m, by simp [OffchainState.step, hc, Except.toOption], rfl, ?_⟩
    exact ht ▸ represents_load t

-- A key is not read between its removal and the next commit, if the trie has a value for it.
def Undisturbed (s : OffchainState τ) : Operation → Prop
  | .get key => key ∈ s.keysToRemove → contents s.trie key = none
  | _        => True

theorem Represents.reply_eq_iff (h : s.Represents m) (op : Operation) :
    s.reply op = Map.reply m op ↔ s.Undisturbed op := by
  cases op with
  | get key =>
    obtain ⟨s', hg, _⟩ := s.get_eq_ok key
    simp only [reply, Map.reply, hg, Except.toOption, Option.map_some, Option.some.injEq, Undisturbed]
    by_cases hk : key ∈ s.keysToRemove
    · rw [h.removed key hk, h.stale key hk]
      simp [hk]
    · rw [h.kept key hk]
      simp [hk]
  | insert | remove | commit => simp [reply, Map.reply, Undisturbed]

def replies (s : OffchainState τ) (ops : List Operation) : List (Option (Option Bytes)) :=
  (Run.trace step s ops).map fun e => e.1.reply e.2

end OffchainState

def Map.replies (m : Bytes → Option Bytes) (ops : List Operation) : List (Option (Option Bytes)) :=
  (Run.trace step m ops).map fun e => reply e.1 e.2

namespace OffchainState

variable {s : OffchainState τ} {m : Bytes → Option Bytes}

theorem Represents.run (h : s.Represents m) (ops : List Operation) :
    (Run.run OffchainState.step s ops).Represents (Run.run Map.step m ops) := by
  induction ops generalizing s m with
  | nil => exact h
  | cons op ops hi =>
    obtain ⟨s', m', hs, hm, h'⟩ := h.step op
    rw [Run.run_cons, Run.run_cons, Run.exec_of_some hs, Run.exec_of_some hm]
    exact hi h'

theorem Represents.replies_eq_iff (h : s.Represents m) (ops : List Operation) :
    s.replies ops = Map.replies m ops ↔ Run.Along OffchainState.step Undisturbed s ops := by
  induction ops generalizing s m with
  | nil => simp [replies, Map.replies, Run.Along]
  | cons op ops hi =>
    obtain ⟨s', m', hs, hm, h'⟩ := h.step op
    have hi := hi h'
    simp only [replies, Map.replies, Run.Along] at hi ⊢
    simp only [Run.trace_cons, List.map_cons, List.cons.injEq, List.mem_cons, forall_eq_or_imp,
      Run.exec_of_some hs, Run.exec_of_some hm, hi, h.reply_eq_iff op]

-- The reads return what the map has if and only if no key is read while its removal is pending. A
-- commit stores the map in any case.
theorem replies_eq_iff_undisturbed (t : τ) (ops : List Operation) :
    ((load t).replies ops = Map.replies (contents t) ops ↔
      Run.Along step Undisturbed (load t) ops) ∧
    ∃ t' root, (Run.run step (load t) ops).commit = .ok (load t', root) ∧
      contents t' = Run.run Map.step (contents t) ops :=
  ⟨(represents_load t).replies_eq_iff ops, commit_eq_ok ((represents_load t).run ops)⟩

end OffchainState

end Refinement

namespace Mock

-- A trie which is a map.
instance : LawfulTrieMut (Bytes → Option Bytes) where
  get t key := .ok (t key)
  insert t key value := .ok (update t key (some value))
  remove t key := .ok (update t key none)
  commit t := t
  root _ := 0
  contents t := t
  get_eq _ _ := rfl
  insert_eq _ _ _ := ⟨_, rfl, rfl⟩
  remove_eq _ _ := ⟨_, rfl, rfl⟩
  commit_eq _ := rfl

def committed : Bytes → Option Bytes :=
  update (fun _ => none) [1] (some [97])

-- The value that was committed is read after its removal.
theorem removed_key_is_read :
    (OffchainState.load committed).replies [.remove [1], .get [1]] = [none, some (some [97])] ∧
    Map.replies committed [.remove [1], .get [1]] = [none, some none] := by
  decide +kernel

end Mock

end Ocex.Storage
