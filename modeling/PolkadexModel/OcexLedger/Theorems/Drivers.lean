import PolkadexModel.OcexLedger.Drivers
import PolkadexModel.OcexLedger.Theorems.Walk

open Function List

namespace OcexLedger

-- Which copy of a node each driver takes.
section Copies

-- The copies of a node in the order of the keys.
def copy (h : Bytes) (kv : Bytes × Bytes) : Option (Bytes × Option ℤ) :=
  if isNode kv.1 ∧ hashOf kv.1 = h then some (entryOf kv.2) else none

def copies (db : Database) (h : Bytes) : List (Bytes × Option ℤ) :=
  (db.columns.flatMap Column.scan).filterMap (copy h)

def highest (cs : List (Bytes × Option ℤ)) : Option (Bytes × Option ℤ) :=
  cs.foldl (fun p e => some (keep p e)) none

theorem foldl_loadEntry (l : List (Bytes × Bytes)) (nodes : Bytes → Option (Bytes × Option ℤ)) (h : Bytes) :
    l.foldl loadEntry nodes h = (l.filterMap (copy h)).foldl (fun p e => some (keep p e)) (nodes h) := by
  induction l generalizing nodes with
  | nil => rfl
  | cons kv l ih =>
    rw [foldl_cons, ih, filterMap_cons, copy, loadEntry]
    by_cases hnode : isNode kv.1
    case neg => simp [hnode]
    case pos =>
      by_cases hh : hashOf kv.1 = h
      case pos => simp [hnode, hh]
      case neg => simp [hnode, hh, update_of_ne (Ne.symm hh)]

theorem loadOcexKeys_eq (db : Database) (h : Bytes) : loadOcexKeys db h = highest (copies db h) := by
  rw [loadOcexKeys, ← foldl_flatMap, foldl_loadEntry]
  rfl

def located (db : Database) : List (String × Bytes × Bytes) :=
  db.columns.flatMap fun col => col.scan.map fun kv => (col.name, kv)

theorem foldl_indexEntry (l : List (String × Bytes × Bytes)) (idx : Bytes → Option (String × Bytes)) (h : Bytes) :
    l.foldl (fun idx e => indexEntry e.1 idx e.2) idx h =
      (idx h).or ((l.find? fun e => (copy h e.2).isSome).map fun e => (e.1, e.2.1)) := by
  induction l generalizing idx with
  | nil => simp
  | cons e l ih =>
    rw [foldl_cons, ih, find?_cons, copy, indexEntry]
    by_cases hnode : isNode e.2.1
    case neg => simp [hnode]
    case pos =>
      by_cases hh : hashOf e.2.1 = h
      case pos =>
        subst hh
        cases hidx : idx (hashOf e.2.1) <;> simp [hnode, hidx]
      case neg =>
        cases hidx : idx (hashOf e.2.1) <;> simp [hnode, hh, update_of_ne (Ne.symm hh)]

theorem buildIndex_eq (db : Database) (h : Bytes) :
    buildIndex db h = ((located db).find? fun e => (copy h e.2).isSome).map fun e => (e.1, e.2.1) := by
  have hfold := foldl_indexEntry (located db) (fun _ => none) h
  rw [located, foldl_flatMap] at hfold
  simp only [foldl_map] at hfold
  rw [buildIndex, hfold, Option.none_or, located]

theorem Column.get_of_mem {col : Column} (h : kv ∈ col.entries) : col.get kv.1 = some kv.2 := by
  have hnodup : (col.entries.map Prod.fst).Nodup := col.sorted.imp fun {a b} hlt heq => by
    subst heq
    exact List.lt_irrefl a hlt
  rw [Column.get]
  cases hfind : col.entries.find? fun e => e.1 = kv.1 with
  | none =>
    rw [find?_eq_none] at hfind
    exact absurd (hfind kv h) (by simp)
  | some e =>
    have hkey : e.1 = kv.1 := by simpa using find?_some hfind
    have heq := inj_on_of_nodup_map hnodup (mem_of_find?_eq_some hfind) h hkey
    rw [heq]
    rfl

theorem Database.find_of_mem {db : Database} (h : col ∈ db.columns) :
    (db.columns.find? fun c => c.name = col.name) = some col := by
  cases hfind : db.columns.find? fun c => c.name = col.name with
  | none =>
    rw [find?_eq_none] at hfind
    exact absurd (hfind col h) (by simp)
  | some c =>
    have hname : c.name = col.name := by simpa using find?_some hfind
    rw [inj_on_of_nodup_map db.nodup (mem_of_find?_eq_some hfind) h hname]

theorem copies_eq_located (db : Database) (h : Bytes) :
    copies db h = (located db).filterMap fun e => copy h e.2 := by
  rw [copies, located, filterMap_flatMap, filterMap_flatMap]
  simp only [filterMap_map, comp_def]

theorem findSome_eq_find {α β : Type} (f : α → Option β) (l : List α) :
    l.findSome? f = (l.find? fun a => (f a).isSome).bind f := by
  induction l with
  | nil => rfl
  | cons a l ih =>
    rw [findSome?_cons, find?_cons, ih]
    cases h : f a <;> simp [h]

theorem lazyNodes_get_eq (db : Database) (h : Bytes) : LazyNodes.get db h = (copies db h).head? := by
  rw [LazyNodes.get, buildIndex_eq, copies_eq_located, head?_filterMap, findSome_eq_find]
  cases hfind : (located db).find? fun e => (copy h e.2).isSome with
  | none => rfl
  | some e =>
    obtain ⟨col, hcol, hmem⟩ := mem_flatMap.1 (mem_of_find?_eq_some hfind)
    obtain ⟨kv, hkv, rfl⟩ := mem_map.1 hmem
    have hentry : kv ∈ col.entries :=
      (dropWhile_sublist _).subset ((takeWhile_sublist _).subset hkv)
    have hcopy : (copy h kv).isSome := by simpa using find?_some hfind
    have hsome : copy h kv = some (entryOf kv.2) := by
      rw [copy] at hcopy ⊢
      split_ifs at hcopy ⊢
      · rfl
      · cases hcopy
    simp [Database.find_of_mem hcol, Column.get_of_mem hentry, hsome]

end Copies

-- Which hashes a walk looks up, and what follows if two tables agree on them.
section Reads

def Ref.reads : Ref → List Bytes
  | .hash h => [h]
  | .inline _ => []

variable (blake2 : Digest) (nodes : Bytes → Option Bytes)

def visitReads (ref : Ref) : List Bytes :=
  ref.reads ++
    match load blake2 nodes true .nodeNotFound .nodeMismatch ref >>= decodeNode with
    | .ok node => node.value.elim [] Ref.reads
    | .error _ => []

def reads : ℕ → List (Ref × Path) → List Bytes
  | fuel + 1, (ref, path) :: stack =>
    visitReads blake2 nodes ref ++
      match visit blake2 nodes true ref path with
      | .ok r => reads fuel (r.2 ++ stack)
      | .error _ => []
  | _, _ => []

variable {blake2 nodes} {nodes' : Bytes → Option Bytes} {notFound mismatch : Bytes → Failure} {ref : Ref} {data data' : Bytes}

theorem load_congr (hload : load blake2 nodes true notFound mismatch ref = .ok data)
    (h : ∀ h ∈ ref.reads, nodes' h = nodes h) : load blake2 nodes' true notFound mismatch ref = .ok data := by
  cases ref with
  | hash hash =>
    rw [load] at hload ⊢
    rw [h hash (mem_singleton_self hash), hload]
  | inline b => exact hload

-- The bytes that two tables hold have different hashes.
def CollisionFreeBoth (blake2 : Digest) (nodes nodes' : Bytes → Option Bytes) : Prop :=
  Set.InjOn blake2.hash {b | ∃ h, nodes h = some b ∨ nodes' h = some b}

theorem load_hash_eq_ok (hload : load blake2 nodes true notFound mismatch (.hash h) = .ok data) :
    nodes h = some data ∧ blake2.hash data = h := by
  rw [load] at hload
  cases hdata : nodes h with
  | none => rw [hdata] at hload; cases hload
  | some data' =>
    rw [hdata] at hload
    dsimp only at hload
    split_ifs at hload with hverify
    cases hload
    refine ⟨rfl, ?_⟩
    by_contra hne
    exact hverify ⟨rfl, hne⟩

theorem load_agree (hfree : CollisionFreeBoth blake2 nodes nodes')
    (h : load blake2 nodes true notFound mismatch ref = .ok data)
    (h' : load blake2 nodes' true notFound mismatch ref = .ok data') :
    data' = data ∧ ∀ h ∈ ref.reads, nodes' h = nodes h := by
  cases ref with
  | inline b =>
    cases h
    cases h'
    exact ⟨rfl, fun h hmem => by cases hmem⟩
  | hash hash =>
    obtain ⟨hget, hhash⟩ := load_hash_eq_ok h
    obtain ⟨hget', hhash'⟩ := load_hash_eq_ok h'
    have heq : data' = data := hfree ⟨hash, .inr hget'⟩ ⟨hash, .inl hget⟩ (hhash'.trans hhash.symm)
    refine ⟨heq, fun h hmem => ?_⟩
    rw [mem_singleton.1 hmem, hget, hget', heq]

theorem visitReads_eq (hdata : load blake2 nodes true .nodeNotFound .nodeMismatch ref = .ok data)
    (hnode : decodeNode data = .ok node) :
    visitReads blake2 nodes ref = ref.reads ++ node.value.elim [] Ref.reads := by
  have hbind : load blake2 nodes true .nodeNotFound .nodeMismatch ref >>= decodeNode = .ok node :=
    bind_eq_ok.2 ⟨data, hdata, hnode⟩
  rw [visitReads, hbind]

theorem visit_congr (h : visit blake2 nodes true ref path = .ok r)
    (hreads : ∀ h ∈ visitReads blake2 nodes ref, nodes' h = nodes h) :
    visit blake2 nodes' true ref path = .ok r := by
  obtain ⟨data, hdata, hrest⟩ := bind_eq_ok.1 h
  obtain ⟨node, hnode, hrest⟩ := bind_eq_ok.1 hrest
  rw [visitReads_eq hdata hnode] at hreads
  have hload := load_congr hdata fun h hmem => hreads h (mem_append_left _ hmem)
  refine bind_eq_ok.2 ⟨data, hload, bind_eq_ok.2 ⟨node, hnode, ?_⟩⟩
  cases hvalue : node.value with
  | none =>
    rw [hvalue] at hrest
    exact hrest
  | some value =>
    rw [hvalue] at hrest hreads
    obtain ⟨vbytes, hvbytes, hrest⟩ := bind_eq_ok.1 hrest
    have hload := load_congr hvbytes fun h hmem => hreads h (mem_append_right _ hmem)
    exact bind_eq_ok.2 ⟨vbytes, hload, hrest⟩

theorem visit_agree
    (hfree : CollisionFreeBoth blake2 nodes nodes') (h : visit blake2 nodes true ref path = .ok r)
    (h' : visit blake2 nodes' true ref path = .ok r') :
    r' = r ∧ ∀ h ∈ visitReads blake2 nodes ref, nodes' h = nodes h := by
  obtain ⟨data, hdata, hrest⟩ := bind_eq_ok.1 h
  obtain ⟨node, hnode, htail⟩ := bind_eq_ok.1 hrest
  obtain ⟨data', hdata', hrest'⟩ := bind_eq_ok.1 h'
  obtain ⟨node', hnode', htail'⟩ := bind_eq_ok.1 hrest'
  obtain ⟨rfl, hreads⟩ := load_agree hfree hdata hdata'
  cases hnode.symm.trans hnode'
  rw [visitReads_eq hdata hnode]
  cases hvalue : node.value with
  | none =>
    rw [hvalue] at htail htail'
    cases htail.symm.trans htail'
    exact ⟨rfl, fun h hmem => hreads h (by simpa using hmem)⟩
  | some value =>
    rw [hvalue] at htail htail'
    obtain ⟨vbytes, hvbytes, hend⟩ := bind_eq_ok.1 htail
    obtain ⟨vbytes', hvbytes', hend'⟩ := bind_eq_ok.1 htail'
    obtain ⟨rfl, hreads'⟩ := load_agree hfree hvbytes hvbytes'
    cases hend.symm.trans hend'
    exact ⟨rfl, fun h hmem => (mem_append.1 hmem).elim (hreads h) (hreads' h)⟩

theorem walk_congr (h : walk blake2 nodes true fuel stack = some (.ok rows))
    (hreads : ∀ h ∈ reads blake2 nodes fuel stack, nodes' h = nodes h) :
    walk blake2 nodes' true fuel stack = some (.ok rows) := by
  induction fuel generalizing stack rows with
  | zero =>
    cases stack with
    | nil => exact h
    | cons => cases h
  | succ fuel ih =>
    rcases stack with _ | ⟨⟨ref, path⟩, stack⟩
    · exact h
    · rw [walk] at h ⊢
      rw [reads] at hreads
      cases hvisit : visit blake2 nodes true ref path with
      | error e => rw [hvisit] at h; cases h
      | ok r =>
        rw [hvisit] at h hreads
        rw [visit_congr hvisit fun h hmem => hreads h (mem_append_left _ hmem)]
        obtain ⟨rows', hrows', heq⟩ := prepend_eq_ok.1 h
        exact prepend_eq_ok.2 ⟨rows', ih hrows' fun h hmem => hreads h (mem_append_right _ hmem), heq⟩

theorem walk_agree (hfree : CollisionFreeBoth blake2 nodes nodes')
 (h : walk blake2 nodes true fuel stack = some (.ok rows))
    (h' : walk blake2 nodes' true fuel' stack = some (.ok rows')) :
    ∀ h ∈ reads blake2 nodes fuel stack, nodes' h = nodes h := by
  induction fuel generalizing stack rows fuel' rows' with
  | zero => intro _ hmem; simp [reads] at hmem
  | succ fuel ih =>
    rcases stack with _ | ⟨⟨ref, path⟩, stack⟩
    · intro _ hmem; simp [reads] at hmem
    · cases fuel' with
      | zero => cases h'
      | succ fuel' =>
        rw [walk] at h h'
        rw [reads]
        cases hvisit : visit blake2 nodes true ref path with
        | error e => rw [hvisit] at h; cases h
        | ok r =>
          cases hvisit' : visit blake2 nodes' true ref path with
          | error e => rw [hvisit'] at h'; cases h'
          | ok r' =>
            obtain ⟨rfl, hreads⟩ := visit_agree hfree hvisit hvisit'
            rw [hvisit] at h
            rw [hvisit'] at h'
            obtain ⟨_, hrows, -⟩ := prepend_eq_ok.1 h
            obtain ⟨_, hrows', -⟩ := prepend_eq_ok.1 h'
            exact fun h hmem => (mem_append.1 hmem).elim (hreads h) (ih hrows hrows' h)

end Reads

section Agreement

variable {blake2 : Digest} {nodes nodes' : Bytes → Option Bytes} {root : Bytes}

theorem extract_eq_ok : extract blake2 nodes root fuel = some (.ok csv) ↔
      ∃ rows, walk blake2 nodes true fuel [(.hash root, [])] = some (.ok rows) ∧ exportRows rows = .ok csv := by
  rw [extract]
  rcases walk blake2 nodes true fuel [(.hash root, [])] with _ | _ | rows
  · simp
  · simp
  · simp

def Writes (blake2 : Digest) (nodes : Bytes → Option Bytes) (root : Bytes) (csv : List CsvRow) : Prop :=
  ∃ fuel, extract blake2 nodes root fuel = some (.ok csv)

-- The hashes that a driver looks up on its way to the lines that it writes.
def lookedUp (blake2 : Digest) (nodes : Bytes → Option Bytes) (root : Bytes) : Set Bytes :=
  {h | ∃ fuel csv, extract blake2 nodes root fuel = some (.ok csv) ∧ h ∈ reads blake2 nodes fuel [(.hash root, [])]}

theorem Writes.congr (hagree : ∀ h ∈ lookedUp blake2 nodes root, nodes' h = nodes h)
    (hw : Writes blake2 nodes root csv) : Writes blake2 nodes' root csv := by
  obtain ⟨fuel, hfuel⟩ := hw
  obtain ⟨rows, hrows, hcsv⟩ := extract_eq_ok.1 hfuel
  exact ⟨fuel, extract_eq_ok.2 ⟨rows, walk_congr hrows fun h hmem => hagree h ⟨fuel, csv, hfuel, hmem⟩, hcsv⟩⟩

theorem eq_of_lookedUp (hfree : CollisionFreeBoth blake2 nodes nodes')
    (hwrites : ∀ csv, Writes blake2 nodes root csv → Writes blake2 nodes' root csv) :
    ∀ h ∈ lookedUp blake2 nodes root, nodes' h = nodes h := by
  rintro h ⟨fuel, csv, hfuel, hmem⟩
  obtain ⟨fuel', hfuel'⟩ := hwrites csv ⟨fuel, hfuel⟩
  obtain ⟨rows, hrows, -⟩ := extract_eq_ok.1 hfuel
  obtain ⟨rows', hrows', -⟩ := extract_eq_ok.1 hfuel'
  exact walk_agree hfree hrows hrows' h hmem

theorem CollisionFreeBoth.symm (h : CollisionFreeBoth blake2 nodes nodes') : CollisionFreeBoth blake2 nodes' nodes :=
  h.mono fun _ hb => hb.imp fun _ => Or.symm

-- The first copy and the first one with the highest count hold the same bytes.
def SameBytes (cs : List (Bytes × Option ℤ)) : Prop :=
  cs.head?.map Prod.fst = (highest cs).map Prod.fst

theorem sameBytes_copies : SameBytes (copies db h) ↔ lowMemory db h = inMemory db h := by
  rw [SameBytes, lowMemory, inMemory, lazyNodes_get_eq, loadOcexKeys_eq]

-- The drivers write the same lines exactly if the nodes that they need have the same bytes in the copies they take.
theorem drivers_agree_iff {db : Database} (hfree : CollisionFreeBoth blake2 (inMemory db) (lowMemory db)) :
    (∀ csv, Writes blake2 (inMemory db) root csv ↔ Writes blake2 (lowMemory db) root csv) ↔
      ∀ h ∈ lookedUp blake2 (inMemory db) root ∪ lookedUp blake2 (lowMemory db) root, SameBytes (copies db h) := by
  constructor
  · intro hwrites h hmem
    refine sameBytes_copies.2 (hmem.elim ?_ ?_)
    · exact eq_of_lookedUp hfree (fun csv => (hwrites csv).1) h
    · exact fun hlow => (eq_of_lookedUp hfree.symm (fun csv => (hwrites csv).2) h hlow).symm
  · intro hsame csv
    have heq : ∀ h ∈ lookedUp blake2 (inMemory db) root ∪ lookedUp blake2 (lowMemory db) root,
        lowMemory db h = inMemory db h := fun h hmem => sameBytes_copies.1 (hsame h hmem)
    exact ⟨Writes.congr fun h hmem => heq h (.inl hmem), Writes.congr fun h hmem => (heq h (.inr hmem)).symm⟩

end Agreement

-- What the node has written, as the drivers find it.
section Written

open Ocex.Storage (LocalStorage Hasher Write bytesOf)

variable {H : Type} {s : LocalStorage H} {keys : List Bytes} {col : Column}

def dbValue (e : Bytes × ℤ) : Bytes :=
  scaleBytes e.1 ++ leBytes 4 (e.2 % 2 ^ 32).toNat

def Column.Holds (col : Column) (s : LocalStorage H) : Prop :=
  ∀ key, col.get (bytesOf "storage" ++ key) = (s.nodes key).map dbValue

def dump (s : LocalStorage H) (keys : List Bytes) : List (Bytes × Bytes) :=
  keys.filterMap fun key => (s.nodes key).map fun e => (bytesOf "storage" ++ key, dbValue e)

theorem mem_dump :
    kv ∈ dump s keys ↔ ∃ key ∈ keys, ∃ e, s.nodes key = some e ∧ (bytesOf "storage" ++ key, dbValue e) = kv := by
  simp [dump]

theorem Column.holds_of_dump (hentries : col.entries = dump s keys) (hkeys : ∀ key, s.nodes key ≠ none → key ∈ keys) :
    col.Holds s := by
  intro key
  cases hnode : s.nodes key with
  | none =>
    refine Option.map_eq_none_iff.2 (find?_eq_none.2 fun kv hkv => ?_)
    obtain ⟨key', -, e, he, rfl⟩ := mem_dump.1 (hentries ▸ hkv)
    intro heq
    rw [append_cancel_left (of_decide_eq_true heq), hnode] at he
    cases he
  | some e =>
    have hmem : (bytesOf "storage" ++ key, dbValue e) ∈ col.entries :=
      hentries ▸ mem_dump.2 ⟨key, hkeys key (by simp [hnode]), e, hnode, rfl⟩
    exact Column.get_of_mem hmem

variable [Hasher H] [DecidableEq H]

def touched : Write H → List Bytes
  | .remove key path => [LocalStorage.dbKey key path]
  | .insert path value => [LocalStorage.dbKey (Hasher.hash value : H) path]
  | .storeTrieRoot _ => []

theorem nodes_write (h : key ∉ touched w) : (s.write w).nodes key = s.nodes key := by
  cases w with
  | remove k path =>
    rw [LocalStorage.write, LocalStorage.remove]
    split_ifs
    · rfl
    · exact update_of_ne (ne_of_not_mem_cons h) _ _
  | insert path value =>
    rw [LocalStorage.write, LocalStorage.insert]
    split_ifs with hnull
    · rfl
    · rw [LocalStorage.emplace, if_neg hnull]
      exact update_of_ne (ne_of_not_mem_cons h) _ _
  | storeTrieRoot root => rfl

theorem nodes_writes (writes : List (Write H)) (h : ∀ w ∈ writes, key ∉ touched w) :
    (writes.foldl LocalStorage.write s).nodes key = s.nodes key := by
  induction writes generalizing s with
  | nil => rfl
  | cons w writes ih =>
    rw [foldl_cons, ih fun w' hw' => h w' (mem_cons_of_mem _ hw'), nodes_write (h w mem_cons_self)]

theorem Column.holds_of_writes {writes : List (Write H)}
    (hentries : col.entries = dump (writes.foldl LocalStorage.write .empty) keys)
    (hkeys : ∀ w ∈ writes, touched w ⊆ keys) : col.Holds (writes.foldl LocalStorage.write .empty) := by
  refine Column.holds_of_dump hentries fun key hkey => ?_
  by_contra hnot
  exact hkey (nodes_writes writes fun w hw hmem => hnot (hkeys w hw hmem))

end Written

namespace Mock

open Ocex.Storage (LocalStorage Hasher Write)

instance hasher : Hasher ℕ where
  hash b := b.foldl (fun n x => 257 * n + (x.toNat + 1)) 0
  asRef := leBytes 32
  length_asRef _ := length_leBytes ..
  zero := 0

def account : Bytes :=
  List.replicate 32 7

def node : Bytes :=
  encode digest (trieOf (AList.singleton account ([4, 1, 0, 0, 2, 0, 0, 0, 0, 0, 5] ++ List.replicate 7 0)))

def written (writes : List (Write ℕ)) : LocalStorage ℕ :=
  writes.foldl LocalStorage.write LocalStorage.empty

-- The node is removed where it is not, and inserted at the root.
def placeholderFirst : List (Write ℕ) :=
  [.remove (Hasher.hash node) ([0], none), .insert ([], none) node]

-- The node is inserted in two places, and removed where it is not.
def placeholderLast : List (Write ℕ) :=
  [.insert ([], none) node, .insert ([0], none) node, .remove (Hasher.hash node) ([255], none)]

def keys : List Bytes :=
  [([0], none), ([], none), ([255], none)].map (LocalStorage.dbKey (Hasher.hash node : ℕ))

def database (writes : List (Write ℕ)) (h : ((dump (written writes) keys).map Prod.fst).Pairwise (· < ·)) : Database where
  columns := [{ name := "col7", entries := dump (written writes) keys, sorted := h }]
  nodup := List.nodup_singleton _

def first : Database :=
  database placeholderFirst (by decide +kernel)

def last : Database :=
  database placeholderLast (by decide +kernel)

-- The copy at the root is there with a count of one, but the driver with the index takes the placeholder.
theorem placeholder_taken :
    (∃ col, first.columns = [col] ∧ col.Holds (written placeholderFirst)) ∧
    Writes digest (inMemory first) (digest.hash node) [⟨account, .pdex, ⟨false, 5, 2⟩⟩] ∧
    ¬ ∃ csv, Writes digest (lowMemory first) (digest.hash node) csv := by
  refine ⟨⟨_, rfl, Column.holds_of_writes rfl (by decide +kernel)⟩, ⟨2, by decide +kernel⟩, ?_⟩
  rintro ⟨csv, fuel, hfuel⟩
  obtain ⟨rows, hrows, -⟩ := extract_eq_ok.1 hfuel
  have hvisit : visit digest (lowMemory first) true (.hash (digest.hash node)) [] =
      .error (.nodeMismatch (digest.hash node)) := by
    decide +kernel
  cases fuel with
  | zero => cases hrows
  | succ fuel =>
    rw [walk, hvisit] at hrows
    cases hrows

theorem copies_last (h : Bytes) :
    copies last h = if digest.hash node = h then [(node, some 1), (node, some 1), ([], some (-1))] else [] := by
  have hscan : last.columns.flatMap Column.scan = dump (written placeholderLast) keys := by
    decide +kernel
  have hentries : (dump (written placeholderLast) keys).map (fun kv => (isNode kv.1, hashOf kv.1, entryOf kv.2)) =
      [(true, digest.hash node, node, some 1), (true, digest.hash node, node, some 1),
        (true, digest.hash node, [], some (-1))] := by
    decide +kernel
  have hcopy : copy h = (fun e : Bool × Bytes × Bytes × Option ℤ => if e.1 ∧ e.2.1 = h then some e.2.2 else none) ∘
      fun kv => (isNode kv.1, hashOf kv.1, entryOf kv.2) := rfl
  rw [copies, hscan, hcopy, ← filterMap_map, hentries]
  by_cases hh : digest.hash node = h
  · simp [hh]
  · simp [hh]

theorem sameBytes_last (h : Bytes) : SameBytes (copies last h) := by
  rw [copies_last]
  split_ifs
  · rfl
  · rfl

theorem collisionFree_last : CollisionFreeBoth digest (inMemory last) (lowMemory last) := by
  have hnode : ∀ b h, lowMemory last h = some b → b = node := by
    intro b h hb
    rw [lowMemory, lazyNodes_get_eq, copies_last] at hb
    split_ifs at hb
    · simpa [eq_comm] using hb
    · cases hb
  have honly : ∀ b, (∃ h, inMemory last h = some b ∨ lowMemory last h = some b) → b = node := by
    rintro b ⟨h, hb | hb⟩
    · exact hnode b h ((sameBytes_copies.1 (sameBytes_last h)).trans hb)
    · exact hnode b h hb
  exact fun a ha b hb _ => (honly a ha).trans (honly b hb).symm

theorem placeholder_passed :
    (∃ col, last.columns = [col] ∧ col.Holds (written placeholderLast)) ∧
    Writes digest (inMemory last) (digest.hash node) [⟨account, .pdex, ⟨false, 5, 2⟩⟩] ∧
    ∀ csv, Writes digest (inMemory last) (digest.hash node) csv ↔ Writes digest (lowMemory last) (digest.hash node) csv :=
  ⟨⟨_, rfl, Column.holds_of_writes rfl (by decide +kernel)⟩, ⟨2, by decide +kernel⟩,
    (drivers_agree_iff collisionFree_last).2 fun h _ => sameBytes_last h⟩

end Mock

end OcexLedger
