import PolkadexModel.OcexLedger.Theorems.Codec

open List

namespace OcexLedger

section Visit

def ownPath : Trie → Path
  | .empty => []
  | .leaf path _ => path
  | .branch path _ _ => path

def ownValue : Trie → Option Bytes
  | .empty => none
  | .leaf _ v => some v
  | .branch _ v _ => v

def rowsOf (t : Trie) (path : Path) : List (Bytes × Bytes) :=
  t.entries.map fun e => (pack (path ++ e.1), e.2)

def Even (t : Trie) (path : Path) : Prop :=
  ∀ e ∈ t.entries, (path ++ e.1).length % 2 = 0

theorem mem_entries_ownValue (hv : ownValue t = some v) : (ownPath t, v) ∈ t.entries := by
  cases t with
  | empty => cases hv
  | leaf path v' =>
    cases hv
    exact mem_singleton_self _
  | branch path v' children =>
    change v' = some v at hv
    subst hv
    exact mem_append_left _ (mem_singleton_self _)

theorem Even.own (h : Even t path) (hv : ownValue t = some v) : (path ++ ownPath t).length % 2 = 0 :=
  h _ (mem_entries_ownValue hv)

theorem Even.child {p path : Path} {children : Nibble → Trie} (h : Even (.branch p v children) path)
    (i : Nibble) : Even (children i) (path ++ p ++ [i]) := by
  intro e he
  have hmem : (p ++ i :: e.1, e.2) ∈ (RadixTree.branch p v children).entries := by
    rw [RadixTree.entries]
    exact mem_append_right _ (mem_flatMap.2 ⟨i, mem_finRange i, mem_map_of_mem he⟩)
  simpa [append_assoc] using h _ hmem

variable (blake2 : Digest) (nodes : Bytes → Option Bytes)

-- The children of a node, as they are put on the stack.
def nextOf (children : Nibble → Trie) (full : Path) (is : List Nibble) : List (Ref × Path) :=
  (childRefs blake2 children is).map fun c => (c.2, full ++ [c.1])

def visited (t : Trie) (path : Path) : List (Bytes × Bytes) × List (Ref × Path) :=
  ((ownValue t).toList.map fun v => (pack (path ++ ownPath t), v),
    (nodeOf blake2 t).children.map fun c => (c.2, path ++ ownPath t ++ [c.1]))

theorem nodeOf_eq (t : Trie) :
    nodeOf blake2 t = ⟨ownPath t, (ownValue t).map (valueRef blake2), (nodeOf blake2 t).children⟩ := by
  cases t <;> rfl

theorem visit_eq_ok (hnode : load blake2 nodes true .nodeNotFound .nodeMismatch ref = .ok (encode blake2 t))
    (hvalue : ∀ v, ownValue t = some v →
      load blake2 nodes true .valueNotFound .valueMismatch (valueRef blake2 v) = .ok v)
    (heven : Even t path) : visit blake2 nodes true ref path = .ok (visited blake2 t path) := by
  refine bind_eq_ok.2 ⟨_, hnode, bind_eq_ok.2 ⟨_, decodeNode_encode blake2 t, ?_⟩⟩
  rw [visited, nodeOf_eq]
  dsimp only
  cases hv : ownValue t with
  | none => rfl
  | some v =>
    refine bind_eq_ok.2 ⟨v, hvalue v hv, ?_⟩
    rw [if_neg (by rw [heven.own hv]; decide)]
    rfl

-- A visit that gets through has found the data of the trie, if nothing else has their hashes.
theorem visit_sound
    (hnode : ∀ data, load blake2 nodes true .nodeNotFound .nodeMismatch ref = .ok data → data = encode blake2 t)
    (hvalue : ∀ v, ownValue t = some v → ∀ data,
      load blake2 nodes true .valueNotFound .valueMismatch (valueRef blake2 v) = .ok data → data = v)
    (heven : Even t path) (h : visit blake2 nodes true ref path = .ok r) : r = visited blake2 t path := by
  obtain ⟨data, hdata, hrest⟩ := bind_eq_ok.1 h
  obtain ⟨node, hdecode, hrest⟩ := bind_eq_ok.1 hrest
  have hload := hnode data hdata
  subst hload
  have hloaded : ∀ v, ownValue t = some v →
      load blake2 nodes true .valueNotFound .valueMismatch (valueRef blake2 v) = .ok v := by
    intro v hv
    rw [decodeNode_encode, nodeOf_eq] at hdecode
    cases hdecode
    rw [hv] at hrest
    obtain ⟨vbytes, hvbytes, -⟩ := bind_eq_ok.1 hrest
    rw [hvbytes, hvalue v hv vbytes hvbytes]
  have hok := visit_eq_ok blake2 nodes hdata hloaded heven
  rw [h] at hok
  cases hok
  rfl

end Visit

section Load

variable {blake2 : Digest} {nodes : Bytes → Option Bytes} {b : Bytes} {notFound mismatch : Bytes → Failure}

theorem load_of_holds (h : nodes (blake2.hash b) = some b) :
    load blake2 nodes true notFound mismatch (.hash (blake2.hash b)) = .ok b := by
  simp [load, h]

-- The bytes in question have different hashes.
def CollisionFree (blake2 : Digest) (nodes : Bytes → Option Bytes) (bs : List Bytes) : Prop :=
  Set.InjOn blake2.hash {b | b ∈ bs ∨ ∃ h, nodes h = some b}

theorem eq_of_load (h : CollisionFree blake2 nodes bs) (hb : b ∈ bs)
    (hload : load blake2 nodes true notFound mismatch (.hash (blake2.hash b)) = .ok data) : data = b := by
  simp only [load] at hload
  cases hdata : nodes (blake2.hash b) with
  | none => rw [hdata] at hload; cases hload
  | some data' =>
    rw [hdata] at hload
    dsimp only at hload
    split_ifs at hload with hverify
    cases hload
    have hhash : blake2.hash data = blake2.hash b := by
      by_contra hne
      exact hverify ⟨trivial, hne⟩
    exact h (.inr ⟨_, hdata⟩) (.inl hb) hhash

end Load

section Subtree

theorem prepend_nil (r : Option (Except Failure (List (Bytes × Bytes)))) : prepend [] r = r := by
  cases r with
  | none => rfl
  | some r => cases r <;> rfl

theorem prepend_prepend (rows rows' : List (Bytes × Bytes)) (r : Option (Except Failure (List (Bytes × Bytes)))) :
    prepend rows (prepend rows' r) = prepend (rows ++ rows') r := by
  cases r with
  | none => rfl
  | some r => cases r <;> simp [prepend, Except.map]

theorem prepend_eq_ok :
    prepend rows r = some (.ok rows') ↔ ∃ rows'', r = some (.ok rows'') ∧ rows' = rows ++ rows'' := by
  cases r with
  | none => simp [prepend]
  | some r => cases r <;> simp [prepend, Except.map, eq_comm]

variable {blake2 : Digest} {nodes : Bytes → Option Bytes}

def visits : Trie → ℕ
  | .empty => 1
  | .leaf _ _ => 1
  | .branch _ _ children =>
    ((List.finRange 16).map fun i => if (children i).isEmpty then 0 else visits (children i)).sum + 1

theorem rowsOf_branch (p path : Path) (v : Option Bytes) (children : Nibble → Trie) :
    rowsOf (.branch p v children) path = v.toList.map (fun v => (pack (path ++ p), v)) ++
      (List.finRange 16).flatMap fun i => rowsOf (children i) (path ++ p ++ [i]) := by
  simp only [rowsOf, RadixTree.entries, map_append, map_map, map_flatMap]
  congr 1
  simp [Function.comp_def, append_assoc]

theorem nextOf_cons_empty
    (h : (children i).isEmpty) : nextOf blake2 children full (i :: is) = nextOf blake2 children full is := by
  simp [nextOf, childRefs, h]

theorem nextOf_cons (h : ¬(children i).isEmpty) : nextOf blake2 children full (i :: is) =
      (childRef blake2 (encode blake2 (children i)), full ++ [i]) :: nextOf blake2 children full is := by
  simp [nextOf, childRefs, h]

theorem rowsOf_isEmpty (h : t.isEmpty) (path : Path) : rowsOf t path = [] := by
  cases t with
  | empty => rfl
  | leaf => cases h
  | branch => cases h

theorem storedValue_subset (hv : ownValue t = some v) : storedValue v ⊆ storedBelow blake2 t := by
  cases t with
  | empty => cases hv
  | leaf path v' =>
    cases hv
    exact fun _ h => h
  | branch path v' children =>
    change v' = some v at hv
    subst hv
    exact subset_append_left _ _

theorem stored_child_subset {p : Path} {children : Nibble → Trie} (h : ¬(children i).isEmpty) :
    (if (encode blake2 (children i)).length < 32 then [] else [encode blake2 (children i)]) ++
      storedBelow blake2 (children i) ⊆ storedBelow blake2 (.branch p v children) := by
  intro b hb
  rw [storedBelow]
  refine mem_append_right _ (mem_flatMap.2 ⟨i, mem_finRange i, ?_⟩)
  rwa [if_neg h]

section Complete

-- The table holds the bytes under their hashes.
def HoldsAll (blake2 : Digest) (nodes : Bytes → Option Bytes) (bs : List Bytes) : Prop :=
  ∀ b ∈ bs, nodes (blake2.hash b) = some b

instance (blake2 : Digest) (nodes : Bytes → Option Bytes) (bs : List Bytes) : Decidable (HoldsAll blake2 nodes bs) :=
  inferInstanceAs (Decidable (∀ b ∈ bs, _ = _))

theorem HoldsAll.mono (h : HoldsAll blake2 nodes bs) (hsub : bs' ⊆ bs) : HoldsAll blake2 nodes bs' :=
  fun b hb => h b (hsub hb)

theorem load_valueRef (h : HoldsAll blake2 nodes (storedValue v)) :
    load blake2 nodes true .valueNotFound .valueMismatch (valueRef blake2 v) = .ok v := by
  rw [valueRef]
  rw [storedValue] at h
  split_ifs at h ⊢
  · rfl
  · exact load_of_holds (h v (mem_singleton_self v))

theorem load_childRef (h : HoldsAll blake2 nodes (if b.length < 32 then [] else [b])) :
    load blake2 nodes true .nodeNotFound .nodeMismatch (childRef blake2 b) = .ok b := by
  rw [childRef]
  split_ifs at h ⊢
  · rfl
  · exact load_of_holds (h b (mem_singleton_self b))

theorem walk_children {children : Nibble → Trie} (ih : ∀ i, ¬(children i).isEmpty → ∀ stack k,
      walk blake2 nodes true (visits (children i) + k)
          ((childRef blake2 (encode blake2 (children i)), full ++ [i]) :: stack) =
        prepend (rowsOf (children i) (full ++ [i])) (walk blake2 nodes true k stack))
    (is : List Nibble) (stack : List (Ref × Path)) (k : ℕ) :
    walk blake2 nodes true ((is.map fun i => if (children i).isEmpty then 0 else visits (children i)).sum + k)
        (nextOf blake2 children full is ++ stack) =
      prepend (is.flatMap fun i => rowsOf (children i) (full ++ [i])) (walk blake2 nodes true k stack) := by
  induction is with
  | nil =>
    rw [map_nil, sum_nil, Nat.zero_add]
    exact (prepend_nil _).symm
  | cons i is hi =>
    by_cases hempty : (children i).isEmpty
    case pos =>
      rw [nextOf_cons_empty hempty, map_cons, sum_cons, if_pos hempty, Nat.zero_add, hi, flatMap_cons,
        rowsOf_isEmpty hempty, nil_append]
    case neg =>
      rw [nextOf_cons hempty, map_cons, sum_cons, if_neg hempty, Nat.add_assoc, cons_append,
        ih i hempty, hi, flatMap_cons, prepend_prepend]

theorem walk_cons (hnode : load blake2 nodes true .nodeNotFound .nodeMismatch ref = .ok (encode blake2 t))
    (hstored : HoldsAll blake2 nodes (storedBelow blake2 t)) (heven : Even t path) (stack : List (Ref × Path)) (k : ℕ) :
    walk blake2 nodes true (k + 1) ((ref, path) :: stack) =
      prepend (visited blake2 t path).1 (walk blake2 nodes true k ((visited blake2 t path).2 ++ stack)) := by
  rw [walk, visit_eq_ok blake2 nodes hnode (fun v hv => load_valueRef (hstored.mono (storedValue_subset hv))) heven]

-- With all that is stored for it, a trie is walked to its end.
theorem walk_subtree (t : Trie)
    (hnode : load blake2 nodes true .nodeNotFound .nodeMismatch ref = .ok (encode blake2 t))
    (hstored : HoldsAll blake2 nodes (storedBelow blake2 t)) (heven : Even t path) (stack : List (Ref × Path)) (k : ℕ) :
    walk blake2 nodes true (visits t + k) ((ref, path) :: stack) =
      prepend (rowsOf t path) (walk blake2 nodes true k stack) := by
  induction t generalizing ref path stack k with
  | empty =>
    rw [visits, Nat.add_comm, walk_cons hnode hstored heven]
    rfl
  | leaf p v =>
    rw [visits, Nat.add_comm, walk_cons hnode hstored heven]
    rfl
  | branch p v children ih =>
    rw [visits, Nat.add_right_comm, walk_cons hnode hstored heven]
    change prepend _ (walk _ _ _ _ (nextOf blake2 children (path ++ p) (finRange 16) ++ stack)) = _
    rw [walk_children, rowsOf_branch, prepend_prepend]
    · rfl
    · intro i hi stack k
      have hchild := hstored.mono (stored_child_subset (p := p) (v := v) hi)
      exact ih i (load_childRef (hchild.mono (subset_append_left _ _)))
        (hchild.mono (subset_append_right _ _)) (heven.child i) stack k

end Complete

section Sound

theorem CollisionFree.mono (h : CollisionFree blake2 nodes bs) (hsub : bs' ⊆ bs) :
    CollisionFree blake2 nodes bs' :=
  Set.InjOn.mono (fun _ hb => hb.imp (@hsub _) id) h

theorem eq_of_load_valueRef (h : CollisionFree blake2 nodes (storedValue v))
    (hload : load blake2 nodes true .valueNotFound .valueMismatch (valueRef blake2 v) = .ok data) : data = v := by
  rw [valueRef] at hload
  rw [storedValue] at h
  split_ifs at h hload
  · cases hload
    rfl
  · exact eq_of_load h (mem_singleton_self v) hload

theorem eq_of_load_childRef (h : CollisionFree blake2 nodes (if b.length < 32 then [] else [b]))
    (hload : load blake2 nodes true .nodeNotFound .nodeMismatch (childRef blake2 b) = .ok data) : data = b := by
  rw [childRef] at hload
  split_ifs at h hload
  · cases hload
    rfl
  · exact eq_of_load h (mem_singleton_self b) hload

theorem walk_cons_sound
    (hnode : ∀ data, load blake2 nodes true .nodeNotFound .nodeMismatch ref = .ok data → data = encode blake2 t)
    (hfree : CollisionFree blake2 nodes (storedBelow blake2 t)) (heven : Even t path)
    (h : walk blake2 nodes true k ((ref, path) :: stack) = some (.ok rows)) :
    ∃ k' rows', walk blake2 nodes true k' ((visited blake2 t path).2 ++ stack) = some (.ok rows') ∧
      rows = (visited blake2 t path).1 ++ rows' := by
  cases k with
  | zero => cases h
  | succ k =>
    rw [walk] at h
    cases hvisit : visit blake2 nodes true ref path with
    | error e =>
      rw [hvisit] at h
      cases h
    | ok r =>
      have hr := visit_sound blake2 nodes hnode
        (fun v hv data => eq_of_load_valueRef (hfree.mono (storedValue_subset hv))) heven hvisit
      rw [hvisit, hr] at h
      exact ⟨k, prepend_eq_ok.1 h⟩

theorem walk_children_sound (ih : ∀ i, ¬(children i).isEmpty → ∀ stack k rows,
      walk blake2 nodes true k ((childRef blake2 (encode blake2 (children i)), full ++ [i]) :: stack) = some (.ok rows) →
        ∃ k' rows', walk blake2 nodes true k' stack = some (.ok rows') ∧
          rows = rowsOf (children i) (full ++ [i]) ++ rows') (is : List Nibble)
    (h : walk blake2 nodes true k (nextOf blake2 children full is ++ stack) = some (.ok rows)) :
    ∃ k' rows', walk blake2 nodes true k' stack = some (.ok rows') ∧
      rows = (is.flatMap fun i => rowsOf (children i) (full ++ [i])) ++ rows' := by
  induction is generalizing k rows with
  | nil => exact ⟨k, rows, h, rfl⟩
  | cons i is hi =>
    by_cases hempty : (children i).isEmpty
    case pos =>
      rw [nextOf_cons_empty hempty] at h
      rw [flatMap_cons, rowsOf_isEmpty hempty]
      exact hi h
    case neg =>
      rw [nextOf_cons hempty] at h
      obtain ⟨k', rows', h', hrows⟩ := ih i hempty _ _ _ h
      obtain ⟨k'', rows'', h'', hrows'⟩ := hi h'
      refine ⟨k'', rows'', h'', ?_⟩
      rw [hrows, hrows', flatMap_cons, append_assoc]

-- A walk over a trie that gets through has the rows of the trie, whatever the table holds.
theorem walk_subtree_sound (t : Trie)
    (hnode : ∀ data, load blake2 nodes true .nodeNotFound .nodeMismatch ref = .ok data → data = encode blake2 t)
    (hfree : CollisionFree blake2 nodes (storedBelow blake2 t)) (heven : Even t path)
    (h : walk blake2 nodes true k ((ref, path) :: stack) = some (.ok rows)) :
    ∃ k' rows', walk blake2 nodes true k' stack = some (.ok rows') ∧ rows = rowsOf t path ++ rows' := by
  induction t generalizing ref path stack k rows with
  | empty => exact walk_cons_sound hnode hfree heven h
  | leaf p v => exact walk_cons_sound hnode hfree heven h
  | branch p v children ih =>
    obtain ⟨k', rows', h', hrows⟩ := walk_cons_sound hnode hfree heven h
    obtain ⟨k'', rows'', h'', hrows'⟩ := walk_children_sound (fun i hi stack k rows h => by
      have hchild := hfree.mono (stored_child_subset (p := p) (v := v) hi)
      exact ih i (fun data => eq_of_load_childRef (hchild.mono (subset_append_left _ _)))
        (hchild.mono (subset_append_right _ _)) (heven.child i) h) (finRange 16) h'
    refine ⟨k'', rows'', h'', ?_⟩
    rw [hrows, hrows', rowsOf_branch, append_assoc]
    rfl

end Sound

end Subtree

section Map

variable (m : AList fun _ : Bytes => Bytes)

theorem entries_trieOf_perm : (trieOf m).entries.Perm (m.entries.map fun e => (nibblesOf e.1, e.2)) := by
  refine RadixTree.entries_ofEntries_perm ?_
  rw [map_map]
  have hnodup : (m.entries.map fun e => nibblesOf e.1).Nodup := by
    refine List.Nodup.of_map pack ?_
    rw [map_map]
    have hkeys : (pack ∘ fun e : (_ : Bytes) × Bytes => nibblesOf e.1) = Sigma.fst := funext fun e => pack_nibblesOf e.1
    rw [hkeys]
    exact m.nodupKeys
  exact hnodup

theorem even_trieOf : Even (trieOf m) [] := by
  intro e he
  obtain ⟨e', -, rfl⟩ := mem_map.1 ((entries_trieOf_perm m).mem_iff.1 he)
  rw [nil_append, length_nibblesOf]
  omega

theorem rowsOf_trieOf_perm : (rowsOf (trieOf m) []).Perm (m.entries.map fun e => (e.1, e.2)) := by
  refine ((entries_trieOf_perm m).map _).trans ?_
  rw [map_map]
  refine List.Perm.of_eq (map_congr_left fun e _ => ?_)
  simp only [Function.comp_apply, nil_append, pack_nibblesOf]

-- The walk from the root of the trie of a map gives the map: it gets through with a table that has what is stored
-- for the trie, and with any other table it does not give anything else.
theorem walk_yields_map (blake2 : Digest) :
    ∃ rows, rows.Perm (m.entries.map fun e => (e.1, e.2)) ∧ ∀ nodes,
      (HoldsAll blake2 nodes (stored blake2 (trieOf m)) → ∃ fuel₀, ∀ fuel, fuel₀ ≤ fuel →
        walk blake2 nodes true fuel [(.hash (root blake2 (trieOf m)), [])] = some (.ok rows)) ∧
      (CollisionFree blake2 nodes (stored blake2 (trieOf m)) → ∀ fuel rows',
        walk blake2 nodes true fuel [(.hash (root blake2 (trieOf m)), [])] = some (.ok rows') → rows' = rows) := by
  refine ⟨rowsOf (trieOf m) [], rowsOf_trieOf_perm m, fun nodes => ⟨fun hstored => ?_, fun hfree fuel rows' h => ?_⟩⟩
  · refine ⟨visits (trieOf m), fun fuel hfuel => ?_⟩
    obtain ⟨k, rfl⟩ := Nat.exists_eq_add_of_le hfuel
    have hroot : load blake2 nodes true .nodeNotFound .nodeMismatch (.hash (root blake2 (trieOf m))) =
        .ok (encode blake2 (trieOf m)) := load_of_holds (hstored _ mem_cons_self)
    rw [walk_subtree _ hroot (hstored.mono (subset_cons_self ..)) (even_trieOf m)]
    simp [walk, prepend, Except.map]
  · obtain ⟨k', rows'', h', hrows⟩ := walk_subtree_sound _ (fun data => eq_of_load hfree mem_cons_self)
      (hfree.mono (subset_cons_self ..)) (even_trieOf m) h
    rw [walk] at h'
    cases h'
    rw [hrows, append_nil]

end Map

namespace Mock

def digest : Digest where
  hash b := leBytes 32 (b.foldl (fun n x => 257 * n + (x.toNat + 1)) 0)
  length_hash _ := length_leBytes ..

def ledger : AList fun _ : Bytes => Bytes :=
  ((AList.singleton [0x12, 0x34] (List.replicate 40 7)).insert [0x12, 0x35] [1, 2]).insert [0x12] []

def table (h : Bytes) : Option Bytes :=
  (stored digest (trieOf ledger)).find? fun b => digest.hash b = h

example : walk digest table true 5 [(.hash (root digest (trieOf ledger)), [])] =
    some (.ok [([0x12], []), ([0x12, 0x34], List.replicate 40 7), ([0x12, 0x35], [1, 2])]) := by
  decide +kernel

theorem holdsAll_table : HoldsAll digest table (stored digest (trieOf ledger)) := by
  decide +kernel

theorem collisionFree_table : CollisionFree digest table (stored digest (trieOf ledger)) := by
  have hstored : ∀ b ∈ {b | b ∈ stored digest (trieOf ledger) ∨ ∃ h, table h = some b},
      b ∈ stored digest (trieOf ledger) :=
    fun b hb => hb.elim id fun h => h.elim fun _ h => mem_of_find?_eq_some h
  have hinj : ∀ a ∈ stored digest (trieOf ledger), ∀ b ∈ stored digest (trieOf ledger),
      digest.hash a = digest.hash b → a = b := by
    decide +kernel
  exact fun a ha b hb => hinj a (hstored a ha) b (hstored b hb)

theorem ledger_walked :
    (∃ fuel rows, walk digest table true fuel [(.hash (root digest (trieOf ledger)), [])] = some (.ok rows) ∧
      rows.Perm [([0x12], []), ([0x12, 0x35], [1, 2]), ([0x12, 0x34], List.replicate 40 7)]) ∧
    ∀ fuel rows, walk digest table true fuel [(.hash (root digest (trieOf ledger)), [])] = some (.ok rows) →
      rows.Perm [([0x12], []), ([0x12, 0x35], [1, 2]), ([0x12, 0x34], List.replicate 40 7)] := by
  obtain ⟨rows, hrows, h⟩ := walk_yields_map ledger digest
  obtain ⟨fuel, hwalk⟩ := (h table).1 holdsAll_table
  refine ⟨⟨fuel, rows, hwalk fuel le_rfl, hrows⟩, fun fuel rows' hwalk' => ?_⟩
  rw [(h table).2 collisionFree_table fuel rows' hwalk']
  exact hrows

end Mock

end OcexLedger
