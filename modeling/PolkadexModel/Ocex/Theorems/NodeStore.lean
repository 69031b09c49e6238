import PolkadexModel.Ocex.HashDb

open Function List Option

-- What the database reports about a node, after any calls.
namespace Ocex.Storage

open LocalStorage (dbKey)

variable {H : Type} [Hasher H]

namespace HashDbCall

def key : HashDbCall H → H
  | .insert _ value  => Hasher.hash value
  | .emplace key _ _ => key
  | .remove key _    => key

def path : HashDbCall H → Path
  | .insert path _ | .emplace _ path _ | .remove _ path => path

def value : HashDbCall H → Option Bytes
  | .insert _ value | .emplace _ _ value => some value
  | .remove _ _                          => none

def touches (k : Bytes) (c : HashDbCall H) : Bool :=
  dbKey c.key c.path = k

def stores (k : Bytes) (c : HashDbCall H) : Bool :=
  c.touches k && c.value.isSome

def removes (k : Bytes) (c : HashDbCall H) : Bool :=
  c.touches k && c.value.isNone

def counted (c : HashDbCall H) : RefCount.Call Bytes Bytes :=
  c.value.elim (.remove (dbKey c.key c.path)) (.emplace (dbKey c.key c.path))

end HashDbCall

-- Each key is given the value that hashes to it. The null node has a value from the beginning.
structure Keyed (calls : List (HashDbCall H)) : Prop where
  hashed : ∀ c ∈ calls, ∀ value ∈ c.value, c.key = Hasher.hash value
  null   : ∀ c ∈ calls, ∀ value ∈ c.value, c.key = Hasher.hash [0] → value = [0]
  unique : ∀ c ∈ calls, ∀ c' ∈ calls, ∀ value ∈ c.value, ∀ value' ∈ c'.value, c.key = c'.key → value = value'

-- The counters are integers of 32 bits.
def Few (calls : List (HashDbCall H)) : Prop :=
  ∀ k, calls.countP (·.touches k) < 2 ^ 31

namespace NodeStore

variable [DecidableEq H]

structure Reports (s : NodeStore H) (calls : List (HashDbCall H)) (key : H) (path : Path) : Prop where
  present : s.contains key path = true ↔
    calls.countP (·.removes (dbKey key path)) < calls.countP (·.stores (dbKey key path))
  stored  : s.contains key path = true → ∃ value, s.get key path = some value ∧
    ∀ c ∈ calls, c.touches (dbKey key path) → ∀ value' ∈ c.value, value' = value
  absent  : s.contains key path = false → s.get key path = none

def run (calls : List (HashDbCall H)) : NodeStore H :=
  calls.foldl call empty

-- The keys of the null node are read at their defaults.
structure Plain (s : NodeStore H) : Prop where
  hashedNullNode : s.hashedNullNodeValue = none
  nullNodeData   : s.nullNodeDataValue = none

variable {s : NodeStore H} {c : HashDbCall H} {calls : List (HashDbCall H)} {key : H} {path : Path}

omit [DecidableEq H] in
theorem insert_fst : (s.insert path value).1 = s.emplace (Hasher.hash value) path value := by
  rw [insert, emplace]
  split_ifs <;> rfl

namespace Plain

omit [DecidableEq H] in
theorem hashedNullNode_eq (h : s.Plain) : s.hashedNullNode = Hasher.hash [0] := by
  rw [NodeStore.hashedNullNode, h.hashedNullNode, getD_none]

omit [Hasher H] [DecidableEq H] in
theorem nullNodeData_eq (h : s.Plain) : s.nullNodeData = [0] := by
  rw [NodeStore.nullNodeData, h.nullNodeData, getD_none]

theorem emplace_eq (h : s.Plain) {value : Bytes} (hv : key = Hasher.hash [0] ↔ value = [0]) :
    s.emplace key path value = if key = Hasher.hash [0] then s
      else { s with nodes := RefCount.Machine.emplace s.nodes (dbKey key path) value } := by
  simp only [NodeStore.emplace, h.nullNodeData_eq, hv]

theorem call_eq (h : s.Plain) (hv : ∀ value ∈ c.value, c.key = Hasher.hash [0] ↔ value = [0]) :
    s.call c = if c.key = Hasher.hash [0] then s
      else { s with nodes := RefCount.Machine.apply s.nodes c.counted } := by
  cases c with
  | insert path value => exact insert_fst.trans (h.emplace_eq (hv value rfl))
  | emplace key path value => exact h.emplace_eq (hv value rfl)
  | remove key path =>
    rw [NodeStore.call, NodeStore.remove, h.hashedNullNode_eq]
    rfl

theorem foldl_call (h : s.Plain)
    (hv : ∀ c ∈ calls, ∀ value ∈ c.value, c.key = Hasher.hash [0] ↔ value = [0]) :
    calls.foldl call s = { s with
      nodes := ((calls.filter (·.key ≠ Hasher.hash [0])).map HashDbCall.counted).foldl
        RefCount.Machine.apply s.nodes } := by
  induction calls generalizing s with
  | nil => rfl
  | cons c calls hi =>
    have hv' := fun c hc => hv c (mem_cons_of_mem _ hc)
    rw [foldl_cons, h.call_eq (hv c mem_cons_self)]
    split_ifs with hnull
    case pos => rw [hi h hv', filter_cons_of_neg (by simpa using hnull)]
    case neg =>
      have hp : Plain { s with nodes := RefCount.Machine.apply s.nodes c.counted } :=
        ⟨h.hashedNullNode, h.nullNodeData⟩
      rw [hi hp hv', filter_cons_of_pos (by simpa using hnull)]
      rfl

end Plain

omit [Hasher H] [DecidableEq H] in
theorem plain_empty : (empty : NodeStore H).Plain :=
  ⟨rfl, rfl⟩

theorem get_eq (h : s.Plain) (hne : key ≠ Hasher.hash [0]) :
    s.get key path = RefCount.get (RefCount.Machine.widen s.nodes) (dbKey key path) := by
  rw [get, if_neg (h.hashedNullNode_eq ▸ hne), RefCount.get, RefCount.Machine.widen]
  cases s.nodes (dbKey key path) with
  | none => rfl
  | some e => simp [Int32.lt_iff_toInt_lt]

theorem contains_eq : s.contains key path = (s.get key path).isSome := by
  rw [contains, get]
  split_ifs
  · rfl
  · cases s.nodes (dbKey key path) with
    | none => rfl
    | some e => simp only []; split_ifs with hpos <;> simp [hpos]

end NodeStore

section Calls

theorem LocalStorage.eq_of_dbKey_eq (hinj : Injective (Hasher.asRef : H → Bytes)) {key key' : H}
 (h : dbKey key path = dbKey key' path') : key = key' := by
  have h : prefixedKey key path = prefixedKey key' path' := append_cancel_left h
  have hlen : (Hasher.asRef key).length = (Hasher.asRef key').length := by
    rw [Hasher.length_asRef, Hasher.length_asRef]
  exact hinj (append_inj' h hlen).2

namespace HashDbCall

variable {c : HashDbCall H} {k : Bytes}

theorem key_counted : c.counted.key = dbKey c.key c.path := by
  cases c <;> rfl

theorem stores_counted : c.counted.stores k = c.stores k := by
  cases c with
  | insert | emplace => exact (Bool.and_true _).symm
  | remove => exact (Bool.and_false _).symm

theorem removes_counted : c.counted.removes k = c.removes k := by
  cases c with
  | insert | emplace => exact (Bool.and_false _).symm
  | remove => exact (Bool.and_true _).symm

theorem counted_eq_emplace {value : Bytes} (h : c.counted = .emplace k value) :
    c.touches k ∧ c.value = some value := by
  cases c with
  | insert path v | emplace key path v =>
    cases h
    simp [touches, HashDbCall.key, HashDbCall.path, HashDbCall.value]
  | remove key path => cases h

end HashDbCall

variable {calls : List (HashDbCall H)}

theorem Keyed.null_iff (h : Keyed calls) (hc : c ∈ calls) (hv : value ∈ c.value) :
    c.key = Hasher.hash [0] ↔ value = [0] := by
  refine ⟨h.null c hc value hv, fun hnull => ?_⟩
  rw [h.hashed c hc value hv, hnull]

variable [DecidableEq H] {key : H} {path : Path}

def counted (calls : List (HashDbCall H)) : List (RefCount.Call Bytes Bytes) :=
  (calls.filter (·.key ≠ Hasher.hash [0])).map HashDbCall.counted

theorem countP_counted (hinj : Injective (Hasher.asRef : H → Bytes)) (hne : key ≠ Hasher.hash [0])
 (hp : ∀ c, p (HashDbCall.counted c) = q c)
    (hq : ∀ c, q c → c.touches (dbKey key path)) : (counted calls).countP p = calls.countP q := by
  rw [counted, countP_map, countP_filter]
  refine countP_congr fun c _ => ?_
  simp only [comp_apply, hp, Bool.and_eq_true, decide_eq_true_eq, and_iff_left_iff_imp]
  intro hc hnull
  have hkey : c.key = key := LocalStorage.eq_of_dbKey_eq hinj (of_decide_eq_true (hq c hc))
  exact hne (hkey.symm.trans hnull)

theorem Few.counted (h : Few calls) (k : Bytes) : (counted calls).countP (·.key = k) < 2 ^ 31 := by
  refine lt_of_le_of_lt ?_ (h k)
  rw [Storage.counted, countP_map]
  refine (List.Sublist.countP_le filter_sublist).trans (le_of_eq (countP_congr fun c _ => ?_))
  simp [HashDbCall.key_counted, HashDbCall.touches]

end Calls

namespace NodeStore

variable [DecidableEq H] {calls : List (HashDbCall H)} {key : H} {path : Path}

theorem widen_nodes_run (hk : Keyed calls) (hf : Few calls) :
    RefCount.Machine.widen (run calls).nodes = (counted calls).foldl RefCount.apply fun _ => none := by
  rw [run, plain_empty.foldl_call fun c hc value hv => hk.null_iff hc hv]
  refine RefCount.Machine.widen_applyAll fun k => ?_
  have hlt := hf.counted k
  simp only [counted] at hlt
  simp only [RefCount.count, RefCount.Machine.widen, empty, map_none, elim_none]
  omega

theorem plain_run (hk : Keyed calls) : (run calls).Plain := by
  rw [run, plain_empty.foldl_call fun c hc value hv => hk.null_iff hc hv]
  exact ⟨rfl, rfl⟩

theorem count_nodes_run (hinj : Injective (Hasher.asRef : H → Bytes)) (hk : Keyed calls) (hf : Few calls)
    (hne : key ≠ Hasher.hash [0]) :
    RefCount.count (RefCount.Machine.widen (run calls).nodes) (dbKey key path) =
      calls.countP (·.stores (dbKey key path)) - calls.countP (·.removes (dbKey key path)) := by
  have hstores : (counted calls).countP (·.stores (dbKey key path)) = calls.countP (·.stores (dbKey key path)) :=
    countP_counted hinj hne (fun _ => HashDbCall.stores_counted) fun _ hc => (Bool.and_eq_true_iff.mp hc).1
  have hremoves : (counted calls).countP (·.removes (dbKey key path)) = calls.countP (·.removes (dbKey key path)) :=
    countP_counted hinj hne (fun _ => HashDbCall.removes_counted) fun _ hc => (Bool.and_eq_true_iff.mp hc).1
  rw [widen_nodes_run hk hf, RefCount.count_applyAll, hstores, hremoves, RefCount.count, elim_none, Int.zero_add]

theorem holds_nodes_run (hinj : Injective (Hasher.asRef : H → Bytes)) (hk : Keyed calls) (hf : Few calls)
 (hc : c ∈ calls) (hv : value ∈ c.value) (ht : c.touches (dbKey key path)) :
    RefCount.Holds (RefCount.Machine.widen (run calls).nodes) (dbKey key path) value := by
  rw [widen_nodes_run hk hf]
  refine RefCount.Holds.applyAll (RefCount.holds_of_count_le le_rfl) fun value' hmem => ?_
  obtain ⟨c', hc', heq⟩ := mem_map.mp hmem
  obtain ⟨ht', hv'⟩ := HashDbCall.counted_eq_emplace heq
  refine hk.unique c' (mem_of_mem_filter hc') c hc value' hv' value hv ?_
  exact LocalStorage.eq_of_dbKey_eq hinj ((of_decide_eq_true ht').trans (of_decide_eq_true ht).symm)

theorem reports_of_ne (hinj : Injective (Hasher.asRef : H → Bytes)) (hk : Keyed calls) (hf : Few calls)
    (hne : key ≠ Hasher.hash [0]) : (run calls).Reports calls key path := by
  have hget : (run calls).get key path =
      RefCount.get (RefCount.Machine.widen (run calls).nodes) (dbKey key path) := get_eq (plain_run hk) hne
  have hcount : RefCount.count (RefCount.Machine.widen (run calls).nodes) (dbKey key path) =
      calls.countP (·.stores (dbKey key path)) - calls.countP (·.removes (dbKey key path)) :=
    count_nodes_run hinj hk hf hne
  by_cases hlt : calls.countP (·.removes (dbKey key path)) < calls.countP (·.stores (dbKey key path))
  case pos =>
    obtain ⟨c, hc, hs⟩ := countP_pos_iff.mp (Nat.zero_lt_of_lt hlt)
    obtain ⟨ht, hsome⟩ := Bool.and_eq_true_iff.mp hs
    obtain ⟨value, hv⟩ := isSome_iff_exists.mp hsome
    have hholds := holds_nodes_run hinj hk hf hc hv ht
    have hvalue : (run calls).get key path = some value :=
      hget.trans (RefCount.get_of_holds hholds (by omega))
    refine ⟨iff_of_true ?_ hlt, fun _ => ⟨value, hvalue, fun c' hc' ht' value' hv' => ?_⟩, fun hnone => ?_⟩
    · rw [contains_eq, hvalue, isSome_some]
    · refine hk.unique c' hc' c hc value' hv' value hv ?_
      exact LocalStorage.eq_of_dbKey_eq hinj ((of_decide_eq_true ht').trans (of_decide_eq_true ht).symm)
    · rw [contains_eq, hvalue] at hnone
      cases hnone
  case neg =>
    have hnone : (run calls).get key path = none := hget.trans (RefCount.get_eq_none (by omega))
    have hfalse : (run calls).contains key path = false := by rw [contains_eq, hnone, isSome_none]
    refine ⟨iff_of_false (by simp [hfalse]) hlt, fun htrue => ?_, fun _ => hnone⟩
    rw [hfalse] at htrue
    cases htrue

-- A node is there if and only if it was inserted more often than it was removed, and it has the value
-- that was inserted. The null node is always there.
theorem reports_run (hinj : Injective (Hasher.asRef : H → Bytes)) (hk : Keyed calls) (hf : Few calls)
    (path : Path) :
    (∀ key : H, key ≠ Hasher.hash [0] → (run calls).Reports calls key path) ∧
    (run calls).contains (Hasher.hash [0]) path = true ∧ (run calls).get (Hasher.hash [0]) path = some [0] := by
  have hp := plain_run hk
  have hnull : (run calls).get (Hasher.hash [0]) path = some [0] := by
    rw [get, hp.hashedNullNode_eq, if_pos rfl, hp.nullNodeData_eq]
  refine ⟨fun key hne => reports_of_ne hinj hk hf hne, ?_, hnull⟩
  rw [contains_eq, hnull, isSome_some]

end NodeStore

namespace Mock

-- Hashes of 32 bytes.
abbrev H256 := { bytes : Bytes // bytes.length = 32 }

theorem length_padded (bytes : Bytes) : ((bytes ++ List.replicate 32 0).take 32).length = 32 := by
  simp

instance paddingHasher : Hasher H256 where
  hash bytes := ⟨(bytes ++ List.replicate 32 0).take 32, length_padded bytes⟩
  asRef := Subtype.val
  length_asRef := Subtype.property
  zero := ⟨List.replicate 32 0, List.length_replicate⟩

def early : List (HashDbCall H256) :=
  [.remove (Hasher.hash [1, 2]) .root, .insert .root [1, 2], .emplace (Hasher.hash [1, 2]) .root [1, 2],
    .insert .root [0], .remove (Hasher.hash [1, 2]) .root, .insert .root [1, 2]]

theorem keyed_early : Keyed early where
  hashed := by decide +kernel
  null := by decide +kernel
  unique := by decide +kernel

theorem few_early : Few early :=
  fun _ => countP_le_length.trans_lt (by decide)

theorem early_removed_node_reported : Keyed early ∧ Few early ∧
    (NodeStore.run early).Reports early (Hasher.hash [1, 2]) .root ∧
    (NodeStore.run early).get (Hasher.hash [1, 2]) .root = some [1, 2] :=
  ⟨keyed_early, few_early,
    (NodeStore.reports_run Subtype.val_injective keyed_early few_early .root).1 _ (by decide +kernel), by decide +kernel⟩

end Mock

end Ocex.Storage
