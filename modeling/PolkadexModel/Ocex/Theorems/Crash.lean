import Mathlib.Data.Countable.Basic
import Mathlib.Logic.Equiv.List
import PolkadexModel.Ocex.HashDb

open Function List

namespace Ocex.Storage

variable {H : Type} [Hasher H]

def Node.key (H : Type) [Hasher H] (node : Node) : Bytes :=
  LocalStorage.dbKey (Hasher.hash node.value : H) node.path

-- What is expected of the hash function and of the tries: the root of a trie is the hash of its first
-- node, which is replaced by every change. Neither the roots nor the nodes of a trie collide.
class LawfulTrieDb (H : Type) [Hasher H] extends TrieDb H where
  root_injective : Injective root
  root_ne_zero   : ∀ m, root m ≠ Hasher.zero
  nodes_empty    : nodes .empty = []
  nodes_of_ne    : ∀ {m}, m ≠ .empty → ∃ value rest, nodes m = ⟨.root, value⟩ :: rest ∧
    root m = Hasher.hash value ∧ ∀ node ∈ rest, node.path ≠ .root
  not_null       : ∀ {m node}, node ∈ nodes m →
    node.value ≠ [0] ∧ (Hasher.hash node.value : H) ≠ Hasher.hash [0]
  no_collision   : ∀ {m a b}, a ∈ nodes m → b ∈ nodes m → a.key H = b.key H → a.value = b.value
  before         : ∀ m c, (nodes m).Perm (replaced m c ++ kept m c)
  after          : ∀ m c, (nodes (c.apply m)).Perm (kept m c ++ created m c)
  root_replaced  : ∀ {m c}, m ≠ .empty → c.apply m ≠ m → ∃ node ∈ replaced m c, node.path = .root

variable [LawfulTrieDb H] [DecidableEq H]

-- The root in the storage is that of the contents, and all of their nodes can be read.
structure Resolves (s : LocalStorage H) (m : Store Bytes Bytes) : Prop where
  root  : s.loadTrieRoot = TrieDb.root m ∨ s.loadTrieRoot = Hasher.zero ∧ m = .empty
  nodes : ∀ node ∈ TrieDb.nodes H m, s.get (Hasher.hash node.value) node.path = some node.value

-- The changes of a batch. At least the state info is another one, since every batch brings a larger
-- number of the last state change.
structure Batch (m : Store Bytes Bytes) extends Changes where
  stateInfo_ne : (toChanges.apply m).get stateInfoKey ≠ m.get stateInfoKey

-- What the storage is after any number of batches.
inductive Reached : LocalStorage H → Store Bytes Bytes → Prop
  | empty : Reached .empty .empty
  | batch {s m} : Reached s m → (b : Batch m) →
      Reached ((batchWrites m b.toChanges).foldl LocalStorage.write s) (b.apply m)

-- The invariant: nodes are counted as often as the trie has them.
structure Exact (s : LocalStorage H) (m : Store Bytes Bytes) : Prop where
  hashedNullNode : s.hashedNullNodeValue = none
  nullNodeData   : s.nullNodeDataValue = none
  root           : s.loadTrieRoot = TrieDb.root m ∨ s.loadTrieRoot = Hasher.zero ∧ m = .empty
  count          : ∀ key, RefCount.count s.nodes key =
    (TrieDb.nodes H m).countP (Node.key H · = key)
  holds          : ∀ node ∈ TrieDb.nodes H m, RefCount.Holds s.nodes (node.key H) node.value

variable {s : LocalStorage H} {m m' : Store Bytes Bytes} {c : Changes}

section Writes

-- The values of the null node are never stored.
variable (hh : s.hashedNullNodeValue = none) (hd : s.nullNodeDataValue = none)

include hh in
omit [LawfulTrieDb H] in
theorem get_eq {node : Node} (hn : (Hasher.hash node.value : H) ≠ Hasher.hash [0]) :
    s.get (Hasher.hash node.value) node.path = RefCount.get s.nodes (node.key H) := by
  have hne : (Hasher.hash node.value : H) ≠ s.hashedNullNode := by
    rwa [LocalStorage.hashedNullNode, hh]
  rw [LocalStorage.get, if_neg hne, Node.key]

include hh in
omit [LawfulTrieDb H] in
theorem write_removes {l : List Node}
    (hl : ∀ node ∈ l, (Hasher.hash node.value : H) ≠ Hasher.hash [0]) :
    (l.map fun node => Write.remove (Hasher.hash node.value) node.path).foldl LocalStorage.write s =
      { s with nodes := (l.map (Node.key H)).foldl RefCount.remove s.nodes } := by
  induction l generalizing s with
  | nil => rfl
  | cons node l hi =>
    have hn : (Hasher.hash node.value : H) ≠ s.hashedNullNode := by
      rw [LocalStorage.hashedNullNode, hh]
      exact hl node mem_cons_self
    have hw : s.write (.remove (Hasher.hash node.value) node.path) =
        { s with nodes := RefCount.remove s.nodes (node.key H) } := by
      rw [LocalStorage.write, LocalStorage.remove, if_neg hn]
      rfl
    rw [map_cons, foldl_cons, hw]
    exact hi (s := { s with nodes := _ }) hh fun node h => hl node (mem_cons_of_mem _ h)

include hd in
omit [LawfulTrieDb H] in
theorem write_inserts {l : List Node} (hl : ∀ node ∈ l, node.value ≠ [0]) :
    (l.map fun node => Write.insert node.path node.value).foldl LocalStorage.write s =
      { s with
        nodes := (l.map fun node => (node.key H, node.value)).foldl
          (fun nodes e => RefCount.emplace nodes e.1 e.2) s.nodes } := by
  induction l generalizing s with
  | nil => rfl
  | cons node l hi =>
    have hn : node.value ≠ s.nullNodeData := by
      rw [LocalStorage.nullNodeData, hd]
      exact hl node mem_cons_self
    have hw : s.write (.insert node.path node.value) =
        { s with nodes := RefCount.emplace s.nodes (node.key H) node.value } := by
      rw [LocalStorage.write, LocalStorage.insert, if_neg hn, LocalStorage.emplace, if_neg hn]
      rfl
    rw [map_cons, foldl_cons, hw]
    exact hi (s := { s with nodes := _ }) hd fun node h => hl node (mem_cons_of_mem _ h)

end Writes

open LawfulTrieDb

omit [DecidableEq H] in
theorem mem_of_mem_replaced (h : node ∈ TrieDb.replaced H m c) : node ∈ TrieDb.nodes H m :=
  (before m c).symm.subset (mem_append_left _ h)

omit [DecidableEq H] in
theorem mem_of_mem_kept (h : node ∈ TrieDb.kept H m c) :
    node ∈ TrieDb.nodes H m ∧ node ∈ TrieDb.nodes H (c.apply m) :=
  ⟨(before m c).symm.subset (mem_append_right _ h),
    (LawfulTrieDb.after m c).symm.subset (mem_append_left _ h)⟩

omit [DecidableEq H] in
theorem mem_of_mem_created (h : node ∈ TrieDb.created H m c) : node ∈ TrieDb.nodes H (c.apply m) :=
  (LawfulTrieDb.after m c).symm.subset (mem_append_right _ h)

namespace Exact

omit [DecidableEq H] in
theorem empty : Exact (.empty : LocalStorage H) .empty where
  hashedNullNode := rfl
  nullNodeData   := rfl
  root           := .inr ⟨rfl, rfl⟩
  count key      := by simp [LawfulTrieDb.nodes_empty, RefCount.count, LocalStorage.empty]
  holds          := by simp [LawfulTrieDb.nodes_empty]

theorem removes (h : Exact s m) {l : List Node} (hl : ∀ node ∈ l, node ∈ TrieDb.nodes H m) :
    (l.map fun node => Write.remove (Hasher.hash node.value) node.path).foldl LocalStorage.write s =
      { s with nodes := (l.map (Node.key H)).foldl RefCount.remove s.nodes } :=
  write_removes h.hashedNullNode fun node hn => (not_null (hl node hn)).2

omit [DecidableEq H] in
theorem holds_removes (h : Exact s m) (hn : node ∈ TrieDb.nodes H (c.apply m)) :
    RefCount.Holds (((TrieDb.replaced H m c).map (Node.key H)).foldl RefCount.remove s.nodes)
      (node.key H) node.value := by
  by_cases hk : node.key H ∈ (TrieDb.kept H m c).map (Node.key H)
  case pos =>
    obtain ⟨node', hmem, hkey⟩ := mem_map.mp hk
    obtain ⟨hb, ha⟩ := mem_of_mem_kept hmem
    have hv : node'.value = node.value := no_collision ha hn hkey
    exact (hv ▸ hkey ▸ h.holds node' hb).removeAll _
  case neg =>
    refine RefCount.holds_of_count_le ?_
    have hkept : (TrieDb.kept H m c).countP (Node.key H · = node.key H) = 0 := by
      simpa [countP_eq_zero] using hk
    rw [RefCount.count_removeAll, h.count, (before m c).countP_eq, countP_append, hkept,
      countP_map]
    simp [comp_def]

theorem batch (h : Exact s m) (c : Changes) :
    Exact ((batchWrites m c).foldl LocalStorage.write s) (c.apply m) := by
  have hw : (batchWrites m c).foldl LocalStorage.write s = { s with
      nodes := foldl (fun nodes e => RefCount.emplace nodes e.1 e.2)
        (((TrieDb.replaced H m c).map (Node.key H)).foldl RefCount.remove s.nodes)
        ((TrieDb.created H m c).map fun node => (node.key H, node.value))
      trieRoot := some (TrieDb.root (c.apply m)) } := by
    have hi := write_inserts (s := { s with
      nodes := ((TrieDb.replaced H m c).map (Node.key H)).foldl RefCount.remove s.nodes })
      h.nullNodeData fun node (hn : node ∈ TrieDb.created H m c) => (not_null (mem_of_mem_created hn)).1
    rw [batchWrites, commitWrites, foldl_append, foldl_append,
      h.removes fun node => mem_of_mem_replaced, hi]
    rfl
  rw [hw]
  refine ⟨h.hashedNullNode, h.nullNodeData, .inl rfl, fun key => ?count, fun node hn => ?holds⟩
  case count =>
    rw [RefCount.count_emplaceAll, RefCount.count_removeAll, h.count, countP_map, countP_map,
      (before m c).countP_eq, (LawfulTrieDb.after m c).countP_eq, countP_append, countP_append]
    simp only [comp_def]
    omega
  case holds =>
    refine (h.holds_removes hn).emplaceAll fun e he hkey => ?_
    obtain ⟨node', hmem, he⟩ := mem_map.mp he
    subst he
    exact no_collision (mem_of_mem_created hmem) hn hkey

theorem resolves (h : Exact s m) : Resolves s m := by
  refine ⟨h.root, fun node hn => ?_⟩
  rw [get_eq h.hashedNullNode (not_null hn).2]
  refine RefCount.get_of_holds (h.holds node hn) ?_
  have hpos : 0 < (TrieDb.nodes H m).countP (Node.key H · = node.key H) :=
    countP_pos_iff.mpr ⟨node, hn, by simp⟩
  exact (Int.natCast_pos.mpr hpos).trans_eq (h.count (node.key H)).symm

end Exact

theorem Reached.exact (h : Reached s m) : Exact s m := by
  induction h with
  | empty => exact .empty
  | batch _ b h => exact h.batch b.toChanges

omit [LawfulTrieDb H] [DecidableEq H] in
theorem path_of_key_eq {node : Node}
    (h : node.key H = (⟨.root, value⟩ : Node).key H) : node.path = .root := by
  have hlen := congrArg length h
  simp only [Node.key, LocalStorage.dbKey, LocalStorage.deriveStorageKey, LocalStorage.prefixedKey,
    Path.root, length_append, Hasher.length_asRef, Option.toList_none, length_nil] at hlen
  have hpath : node.path.1.length = 0 ∧ node.path.2.toList.length = 0 := by omega
  have hnibble : node.path.2 = none := by simpa using hpath.2
  exact Prod.ext (length_eq_zero_iff.mp hpath.1) hnibble

omit [DecidableEq H] in
theorem Exact.count_root_le (h : Exact s m) (hm : m ≠ .empty) (hc : c.apply m ≠ m)
    (hn : node ∈ TrieDb.nodes H m) (hpath : node.path = .root) :
    RefCount.count (((TrieDb.replaced H m c).map (Node.key H)).foldl RefCount.remove s.nodes)
      (node.key H) ≤ 0 := by
  obtain ⟨value, rest, hnodes, _, hrest⟩ := nodes_of_ne (H := H) hm
  have heq {a : Node} (ha : a ∈ TrieDb.nodes H m) (hp : a.path = .root) : a = ⟨.root, value⟩ := by
    rw [hnodes] at ha
    exact (mem_cons.mp ha).resolve_right fun ha => hrest a ha hp
  cases heq hn hpath
  have hone : (TrieDb.nodes H m).countP (Node.key H · = (⟨.root, value⟩ : Node).key H) = 1 := by
    have hothers : rest.countP (Node.key H · = (⟨.root, value⟩ : Node).key H) = 0 :=
      countP_eq_zero.mpr fun a ha hkey => hrest a ha (path_of_key_eq (of_decide_eq_true hkey))
    simp [hnodes, hothers]
  have hsome : 0 < (TrieDb.replaced H m c).countP (Node.key H · = (⟨.root, value⟩ : Node).key H) := by
    obtain ⟨a, ha, hp⟩ := root_replaced (H := H) hm hc
    exact countP_pos_iff.mpr ⟨a, ha, decide_eq_true (heq (mem_of_mem_replaced ha) hp ▸ rfl)⟩
  rw [RefCount.count_removeAll, h.count, hone, countP_map]
  simp only [comp_def]
  omega

-- Once the replaced nodes are removed, the stored root does not resolve any more.
theorem Exact.not_resolves (h : Exact s m) (hm : m ≠ .empty) (hc : c.apply m ≠ m) :
    ¬Resolves (((batchWrites m c).take (TrieDb.replaced H m c).length).foldl LocalStorage.write s) m ∧
    ¬Resolves (((batchWrites m c).take (TrieDb.replaced H m c).length).foldl LocalStorage.write s)
      (c.apply m) := by
  have htake : (batchWrites m c).take (TrieDb.replaced H m c).length =
      (TrieDb.replaced H m c).map fun node => .remove (Hasher.hash node.value : H) node.path := by
    rw [batchWrites, commitWrites, append_assoc]
    exact take_left' (by simp)
  rw [htake, h.removes fun node => mem_of_mem_replaced]
  have hptr : s.loadTrieRoot = TrieDb.root m := h.root.resolve_right fun hz => hm hz.2
  refine ⟨fun hr => ?previous, fun hr => ?current⟩
  case previous =>
    obtain ⟨value, rest, hnodes, _, _⟩ := nodes_of_ne (H := H) hm
    have hn : (⟨.root, value⟩ : Node) ∈ TrieDb.nodes H m := by simp [hnodes]
    have hread := hr.nodes _ hn
    rw [get_eq (by exact h.hashedNullNode) (not_null hn).2,
      RefCount.get_eq_none (h.count_root_le hm hc hn rfl)] at hread
    cases hread
  case current =>
    cases hr.root with
    | inl he => exact hc (root_injective (hptr.symm.trans he)).symm
    | inr he => exact root_ne_zero m (hptr.symm.trans he.1)

omit [LawfulTrieDb H] [DecidableEq H] in
theorem Batch.apply_ne (b : Batch m) : b.apply m ≠ m :=
  fun he => b.stateInfo_ne (congrArg (Store.get · stateInfoKey) he)

-- The first batch has no nodes to replace, so that the empty trie is there until its root is stored.
theorem Exact.resolves_first (h : Exact s .empty) (c : Changes) (k : ℕ) :
    Resolves (((batchWrites .empty c).take k).foldl LocalStorage.write s) .empty ∨
    Resolves (((batchWrites .empty c).take k).foldl LocalStorage.write s) (c.apply .empty) := by
  have hnone : TrieDb.replaced H .empty c = [] := by
    have hp := before (H := H) .empty c
    rw [LawfulTrieDb.nodes_empty] at hp
    exact (append_eq_nil_iff.mp hp.nil_eq.symm).1
  have hwrites : (batchWrites .empty c : List (Write H)) = (TrieDb.created H .empty c).map
      (fun node => .insert node.path node.value) ++ [.storeTrieRoot (TrieDb.root (c.apply .empty))] := by
    rw [batchWrites, commitWrites, hnone, map_nil, nil_append]
  by_cases hk : k ≤ (TrieDb.created H .empty c).length
  case pos =>
    refine .inl ?_
    rw [hwrites, take_append_of_le_length (by simpa using hk), ← map_take,
      write_inserts h.nullNodeData fun node hn =>
        (not_null (mem_of_mem_created (mem_of_mem_take hn))).1]
    exact ⟨h.root, by simp [LawfulTrieDb.nodes_empty]⟩
  case neg =>
    refine .inr ?_
    rw [take_of_length_le (by simp [hwrites]; omega)]
    exact (h.batch c).resolves

-- Tries with a single node, which holds all contents.
namespace Mock

open Classical in
theorem countable_store : Countable (Store Bytes Bytes) := by
  let graph (m : Store Bytes Bytes) : Finset (Bytes × Option Bytes) :=
    m.finite.toFinset.image fun key => (key, m.get key)
  have hmem {m : Store Bytes Bytes} {key value} :
      (key, some value) ∈ graph m ↔ m.get key = some value := by
    simp only [graph, Finset.mem_image, Set.Finite.mem_toFinset, Set.mem_ofPred_eq, Prod.mk.injEq]
    constructor
    · rintro ⟨_, _, rfl, hv⟩
      exact hv
    · exact fun hv => ⟨key, by simp [hv], rfl, hv⟩
  have : Countable UInt8 := Injective.countable (f := UInt8.toNat) fun _ _ => UInt8.toNat_inj.mp
  refine Injective.countable (f := graph) fun m m' h => Store.ext fun key => ?_
  refine Option.ext fun value => ?_
  exact hmem.symm.trans (h ▸ hmem)

noncomputable def encode (m : Store Bytes Bytes) : Bytes :=
  List.replicate (Classical.choose (@exists_injective_nat _ countable_store) m + 2) 1

theorem encode_injective : Injective encode := by
  intro m m' h
  have hlen := congrArg length h
  simp only [encode, length_replicate, Nat.add_right_cancel_iff] at hlen
  exact Classical.choose_spec (@exists_injective_nat _ countable_store) hlen

theorem encode_ne (m : Store Bytes Bytes) : encode m ≠ [0] := by
  intro h
  have hlen := congrArg length h
  simp [encode] at hlen

instance hasher : Hasher Bytes where
  hash := id
  asRef h := (h ++ List.replicate 32 0).take 32
  length_asRef := by simp
  zero := []

open Classical in
noncomputable instance trieDb : TrieDb Bytes where
  root m := if m = .empty then [0] else encode m
  nodes m := if m = .empty then [] else [⟨.root, encode m⟩]
  replaced m c := if c.apply m = m ∨ m = .empty then [] else [⟨.root, encode m⟩]
  kept m c := if c.apply m = m ∧ m ≠ .empty then [⟨.root, encode m⟩] else []
  created m c := if c.apply m = m ∨ c.apply m = .empty then [] else [⟨.root, encode (c.apply m)⟩]

noncomputable instance : LawfulTrieDb Bytes where
  root_injective m m' h := by
    simp only [TrieDb.root] at h
    split_ifs at h with hm hm'
    · rw [hm, hm']
    · exact absurd h.symm (encode_ne m')
    · exact absurd h (encode_ne m)
    · exact encode_injective h
  root_ne_zero m h := by
    simp only [TrieDb.root, Hasher.zero] at h
    split_ifs at h
    simp [encode] at h
  nodes_empty := by simp [TrieDb.nodes]
  nodes_of_ne {m} hm :=
    ⟨encode m, [], by simp [TrieDb.nodes, hm], by simp [TrieDb.root, Hasher.hash, hm], by simp⟩
  not_null {m node} h := by
    simp only [TrieDb.nodes] at h
    split_ifs at h
    · cases h
    · cases List.mem_singleton.mp h
      exact ⟨encode_ne m, encode_ne m⟩
  no_collision {m a b} ha hb _ := by
    simp only [TrieDb.nodes] at ha hb
    split_ifs at ha hb
    · cases ha
    · rw [List.mem_singleton.mp ha, List.mem_singleton.mp hb]
  before m c := by
    simp only [TrieDb.nodes, TrieDb.replaced, TrieDb.kept]
    by_cases hm : m = .empty <;> by_cases hc : c.apply m = m <;> simp [hm, hc]
  after m c := by
    simp only [TrieDb.nodes, TrieDb.kept, TrieDb.created]
    by_cases hc : c.apply m = m <;> by_cases hm : c.apply m = .empty <;> simp_all
  root_replaced {m c} hm hc := ⟨⟨.root, encode m⟩, by simp [TrieDb.replaced, hm, hc], rfl⟩

def firstBatch : Batch .empty where
  cache := [(stateInfoKey, [1])]
  keysToRemove := []
  stateInfo_ne := by simp [Changes.apply, Store.empty]

def secondBatch : Batch (firstBatch.apply .empty) where
  cache := [(stateInfoKey, [2])]
  keysToRemove := []
  stateInfo_ne := by simp [Changes.apply, firstBatch]

end Mock

end Ocex.Storage
