import PolkadexModel.Lib.Except
import PolkadexModel.OcexLedger.Extract

open List

namespace OcexLedger

section Bytes

theorem length_leBytes (k n : ℕ) : (leBytes k n).length = k := by
  induction k generalizing n with
  | zero => rfl
  | succ k ih => rw [leBytes, length_cons, ih]

theorem leNat_leBytes (k n : ℕ) : leNat (leBytes k n) = n % 256 ^ k := by
  induction k generalizing n with
  | zero => simp [leBytes, leNat, Nat.mod_one]
  | succ k ih =>
    rw [leBytes, leNat, ih, UInt8.toNat_ofNat', pow_succ' 256 k, Nat.mod_mul (b := 256 ^ k)]

theorem unpack_leBytes (h : n < 256 ^ k) (rest : Bytes) : unpack k (leBytes k n ++ rest) = .ok n := by
  have htake : (leBytes k n ++ rest).take k = leBytes k n := take_left' (length_leBytes k n)
  rw [unpack, if_neg (by simp [length_leBytes]), htake, leNat_leBytes, Nat.mod_eq_of_lt h]

theorem hi_byte (h l : Nibble) : hi (byte h l) = h := by
  ext
  simp only [hi, byte, UInt8.toNat_ofNat', Fin.val_ofNat]
  omega

theorem lo_byte (h l : Nibble) : lo (byte h l) = l := by
  ext
  simp only [lo, byte, UInt8.toNat_ofNat', Fin.val_ofNat]
  omega

theorem byte_hi_lo (b : UInt8) : byte (hi b) (lo b) = b := by
  apply UInt8.toNat_inj.1
  have := b.toNat_lt
  simp only [hi, lo, byte, UInt8.toNat_ofNat', Fin.val_ofNat]
  omega

theorem length_nibblesOf (key : Bytes) : (nibblesOf key).length = 2 * key.length := by
  induction key with
  | nil => rfl
  | cons b key ih => simp only [nibblesOf, flatMap_cons, length_append] at ih ⊢; simp [ih]; omega

theorem pack_nibblesOf (key : Bytes) : pack (nibblesOf key) = key := by
  induction key with
  | nil => rfl
  | cons b key ih =>
    change byte (hi b) (lo b) :: pack (nibblesOf key) = _
    rw [byte_hi_lo, ih]

theorem nibblesOf_pack (path : Path) (h : path.length % 2 = 0) :
    nibblesOf (pack path) = path ∧ (pack path).length = path.length / 2 := by
  induction path using pack.induct with
  | case1 a b path ih =>
    have heven : path.length % 2 = 0 := by
      simp only [length_cons] at h
      omega
    obtain ⟨hnibbles, hlength⟩ := ih heven
    constructor
    case left =>
      change hi (byte a b) :: lo (byte a b) :: nibblesOf (pack path) = _
      rw [hi_byte, lo_byte, hnibbles]
    case right =>
      simp only [pack, length_cons, hlength]
      omega
  | case2 path hshort =>
    rcases path with _ | ⟨a, _ | ⟨b, path⟩⟩
    · exact ⟨rfl, rfl⟩
    · simp at h
    · exact absurd rfl (hshort a b path)

end Bytes

section Header

theorem compact_scaleCompact (h : n < 2 ^ 32) (rest : Bytes) :
    compact (scaleCompact n ++ rest) = .ok (n, rest) := by
  rw [scaleCompact]
  split_ifs with h₁ h₂ h₃
  · have hmode : (UInt8.ofNat (4 * n)).toNat % 4 = 0 := by rw [UInt8.toNat_ofNat']; omega
    have hvalue : (UInt8.ofNat (4 * n)).toNat / 4 = n := by rw [UInt8.toNat_ofNat']; omega
    simp only [leBytes, cons_append, nil_append, compact, hmode, hvalue]
  · have hmode : (UInt8.ofNat (4 * n + 1)).toNat % 4 = 1 := by rw [UInt8.toNat_ofNat']; omega
    have hvalue := unpack_leBytes (k := 2) (n := 4 * n + 1) (by omega) rest
    simp only [leBytes, cons_append, nil_append] at hvalue ⊢
    simp only [compact, hmode, hvalue]
    change Except.ok _ = _
    congr 2
    omega
  · have hmode : (UInt8.ofNat (4 * n + 2)).toNat % 4 = 2 := by rw [UInt8.toNat_ofNat']; omega
    have hvalue := unpack_leBytes (k := 4) (n := 4 * n + 2) (by omega) rest
    simp only [leBytes, cons_append, nil_append] at hvalue ⊢
    simp only [compact, hmode, hvalue]
    change Except.ok _ = _
    congr 2
    omega
  · have hnumber := leNat_leBytes 4 n
    have hlength := length_leBytes 4 n
    rw [cons_append, compact]
    change Except.ok (leNat ((leBytes 4 n ++ rest).take 4), (leBytes 4 n ++ rest).drop 4) = _
    rw [take_left' hlength, drop_left' hlength, hnumber, Nat.mod_eq_of_lt (by omega)]

theorem sizeRest_replicate (n k : ℕ) (hx : x < 255) (rest : Bytes) :
    sizeRest n (List.replicate k 255 ++ x :: rest) = .ok (n + 255 * k + (x.toNat + 1), rest) := by
  induction k generalizing n with
  | zero => simp [sizeRest, hx]
  | succ k ih =>
    rw [replicate_succ, cons_append, sizeRest, if_neg (by decide), ih]
    congr 2
    omega

theorem sizeRest_sizeBytes (n : ℕ) (hrem : 0 < rem) (rest : Bytes) :
    sizeRest n (sizeBytes rem ++ rest) = .ok (n + rem, rest) := by
  have hmod : (rem - 1) % 255 < 255 := Nat.mod_lt _ (by decide)
  have hlast : (UInt8.ofNat ((rem - 1) % 255)).toNat = (rem - 1) % 255 := by rw [UInt8.toNat_ofNat']; omega
  rw [sizeBytes, append_assoc, singleton_append, sizeRest_replicate, hlast]
  · congr 2
    omega
  · rw [UInt8.lt_iff_toNat_lt, hlast]
    exact hmod

theorem kindOf_mark (hkind : kind ≠ .empty) (hn : n < 2 ^ kind.bits) :
    kindOf (UInt8.ofNat (kind.mark + n)) = .ok kind ∧ UInt8.ofNat (kind.mark + n) ≠ 0 ∧
      (UInt8.ofNat (kind.mark + n)).toNat % 2 ^ kind.bits = n := by
  have hzero : ∀ b : UInt8, b.toNat ≠ 0 → b ≠ 0 := fun b hb heq => hb (by rw [heq]; rfl)
  cases kind <;> simp only [Kind.bits, Kind.mark, kindOf, UInt8.toNat_ofNat', ne_eq, reduceCtorEq,
    not_true_eq_false, not_false_eq_true] at hkind hn ⊢
  all_goals refine ⟨?_, hzero _ (by rw [UInt8.toNat_ofNat']; omega), by omega⟩
  all_goals repeat' first | rw [if_pos (by omega)] | rw [if_neg (by omega)]

theorem decodeHeader_header (hkind : kind ≠ .empty) (n : ℕ) (rest : Bytes) :
    decodeHeader (header kind n ++ rest) = .ok ((kind, n), rest) := by
  have hbits : 2 ≤ 2 ^ kind.bits := by cases kind <;> decide
  rw [header]
  split_ifs with hn
  · obtain ⟨hmark, hzero, hmod⟩ := kindOf_mark hkind (n := n) (by omega)
    rw [singleton_append, decodeHeader, if_neg hzero]
    refine bind_eq_ok.2 ⟨kind, hmark, ?_⟩
    rw [hmod, if_neg (by omega)]
    rfl
  · obtain ⟨hmark, hzero, hmod⟩ := kindOf_mark hkind (n := 2 ^ kind.bits - 1) (by omega)
    rw [cons_append, decodeHeader, if_neg hzero]
    refine bind_eq_ok.2 ⟨kind, hmark, ?_⟩
    rw [hmod, if_pos rfl]
    refine bind_eq_ok.2 ⟨(n, rest), ?_, rfl⟩
    rw [sizeRest_sizeBytes _ (by omega)]
    congr 2
    omega

end Header

section Node

theorem decodePartial_pathBytes (path : Path) (rest : Bytes) :
    decodePartial path.length (pathBytes path ++ rest) = .ok (path, rest) := by
  rw [pathBytes, decodePartial]
  by_cases heven : path.length % 2 = 0
  case pos =>
    obtain ⟨hnibbles, hlength⟩ := nibblesOf_pack path heven
    have hbytes : (pack path).length = (path.length + 1) / 2 := by omega
    rw [if_pos heven, if_neg (by omega), take_left' hbytes, drop_left' hbytes, hnibbles]
  case neg =>
    cases path with
    | nil => exact absurd rfl heven
    | cons a path =>
      have hodd : (a :: path).length % 2 = 1 := by omega
      obtain ⟨hnibbles, hlength⟩ := nibblesOf_pack path (by simp only [length_cons] at hodd; omega)
      have hpack : pack (0 :: a :: path) = byte 0 a :: pack path := rfl
      have hbytes : (byte 0 a :: pack path).length = ((a :: path).length + 1) / 2 := by
        simp only [length_cons, hlength] at hodd ⊢
        omega
      rw [if_neg heven, if_pos hodd, hpack, take_left' hbytes, drop_left' hbytes]
      simp only [lo_byte, hnibbles]

theorem inlineBytes_scaleBytes (h : v.length < 2 ^ 32) (rest : Bytes) :
    inlineBytes (scaleBytes v ++ rest) = .ok (.inline v, rest) := by
  rw [inlineBytes, scaleBytes, append_assoc, compact_scaleCompact h]
  change Except.ok _ = _
  rw [take_left' rfl, drop_left' rfl]

variable (blake2 : Digest)

-- How a value and a child are referred to in their node.
def valueRef (v : Bytes) : Ref :=
  if v.length < valueThreshold then .inline v else .hash (blake2.hash v)

def childRef (b : Bytes) : Ref :=
  if b.length < 32 then .inline b else .hash (blake2.hash b)

def childRefs (children : Nibble → Trie) (is : List Nibble) : List (Nibble × Ref) :=
  is.filterMap fun i =>
    if (children i).isEmpty then none else some (i, childRef blake2 (encode blake2 (children i)))

theorem decodeChild_childBytes (b rest : Bytes) :
    decodeChild (childBytes blake2 b ++ rest) = .ok (childRef blake2 b, rest) := by
  rw [childBytes, childRef, decodeChild]
  split_ifs with h
  · rw [scaleBytes, append_assoc, compact_scaleCompact (by omega)]
    change Except.ok _ = _
    rw [take_left' rfl, drop_left' rfl, if_neg (by omega)]
  · have hlength := blake2.length_hash b
    rw [scaleBytes, append_assoc, hlength, compact_scaleCompact (by decide)]
    change Except.ok _ = _
    rw [take_left' hlength, drop_left' hlength, if_pos rfl]

theorem testBit_bitmap (children : Nibble → Trie) (i : Nibble) :
    (bitmap children).testBit i = !(children i).isEmpty :=
  Nat.testBit_ofBits_lt _ _ i.isLt

theorem decodeChildren_encode (children : Nibble → Trie) (is : List Nibble) :
    decodeChildren (bitmap children) is (is.flatMap fun i =>
      if (children i).isEmpty then [] else childBytes blake2 (encode blake2 (children i))) =
      .ok (childRefs blake2 children is) := by
  induction is with
  | nil => rfl
  | cons i is ih =>
    rw [decodeChildren, testBit_bitmap, childRefs, filterMap_cons, flatMap_cons]
    by_cases hempty : (children i).isEmpty
    case pos =>
      simp only [hempty, Bool.not_true, Bool.false_eq_true, if_false, if_true, nil_append]
      exact ih
    case neg =>
      simp only [hempty, Bool.not_false, Bool.false_eq_true, if_false, if_true]
      rw [decodeChild_childBytes]
      change (decodeChildren _ _ _ >>= _) = _
      rw [ih]
      rfl

def nodeOf : Trie → DecodedNode
  | .empty => { nibbles := [], value := none, children := [] }
  | .leaf path v => { nibbles := path, value := some (valueRef blake2 v), children := [] }
  | .branch path v children =>
    { nibbles := path, value := v.map (valueRef blake2), children := childRefs blake2 children (List.finRange 16) }

theorem decodeValue_valueBytes (v : Option Bytes) (rest : Bytes) :
    decodeValue (branchKind v) (v.elim [] (valueBytes blake2) ++ rest) = .ok (v.map (valueRef blake2), rest) := by
  cases v with
  | none => rfl
  | some v =>
    simp only [branchKind, Option.elim_some, valueBytes, Option.map_some, valueRef]
    split_ifs with h
    · have hlength : v.length < 2 ^ 32 := h.trans (by decide)
      rw [decodeValue, if_pos rfl, inlineBytes_scaleBytes hlength]
      rfl
    · have hlength := blake2.length_hash v
      rw [decodeValue, if_neg (by decide), if_pos rfl, take_left' hlength, drop_left' hlength]

-- The decoder inverts the encoding, for tries of every shape.
theorem decodeNode_encode (t : Trie) : decodeNode (encode blake2 t) = .ok (nodeOf blake2 t) := by
  cases t with
  | empty => rfl
  | leaf path v =>
    have hkind : leafKind v ≠ .empty := by rw [leafKind]; split_ifs <;> decide
    rw [encode, append_assoc]
    refine bind_eq_ok.2 ⟨_, decodeHeader_header hkind path.length _, ?_⟩
    dsimp only
    rw [if_neg hkind]
    refine bind_eq_ok.2 ⟨_, decodePartial_pathBytes path _, ?_⟩
    dsimp only
    by_cases h : v.length < valueThreshold
    case pos =>
      have hvalue := inlineBytes_scaleBytes (h.trans (by decide)) []
      rw [append_nil] at hvalue
      rw [leafKind, nodeOf, valueBytes, valueRef, if_pos h, if_pos h, if_pos h, if_pos rfl]
      exact bind_eq_ok.2 ⟨_, hvalue, rfl⟩
    case neg =>
      rw [leafKind, nodeOf, valueBytes, valueRef, if_neg h, if_neg h, if_neg h, if_neg (by decide), if_pos rfl,
        take_of_length_le (blake2.length_hash v).le]
      rfl
  | branch path v children =>
    have hkind : branchKind v ≠ .empty ∧ branchKind v ≠ .leaf ∧ branchKind v ≠ .leafHashed := by
      cases v with
      | none => decide
      | some v => rw [branchKind]; split_ifs <;> decide
    have hbitmap : bitmap children < 256 ^ 2 := Nat.ofBits_lt_two_pow _
    rw [encode, append_assoc, append_assoc, append_assoc]
    refine bind_eq_ok.2 ⟨_, decodeHeader_header hkind.1 path.length _, ?_⟩
    dsimp only
    rw [if_neg hkind.1]
    refine bind_eq_ok.2 ⟨_, decodePartial_pathBytes path _, ?_⟩
    dsimp only
    rw [if_neg hkind.2.1, if_neg hkind.2.2]
    refine bind_eq_ok.2 ⟨_, unpack_leBytes hbitmap _, ?_⟩
    rw [drop_left' (length_leBytes ..)]
    refine bind_eq_ok.2 ⟨_, decodeValue_valueBytes blake2 v _, ?_⟩
    exact bind_eq_ok.2 ⟨_, decodeChildren_encode blake2 children _, rfl⟩

end Node

end OcexLedger
