import PolkadexModel.CrowdloanVerifier.Main
import PolkadexModel.Lib.Except
import PolkadexModel.Lib.Rounding

open List

-- When the message that the sheet and the table match can be relied on.
namespace CrowdloanVerifier

open Ocex (FromText)

section

variable {Acc : Type} [AccountText Acc] [FromText] [Decimal.Arith]

-- The lines of the sheet as the first pass reads them.
def Reads (reader : Reader) (rows : List (Row Acc)) : Prop :=
  List.Forall₂ (fun line row => ∃ record, line = some record ∧ readRow record = .ok row) reader rows

namespace Reads

variable {reader : Reader} {rows rows' : List (Row Acc)}

theorem unique (h : Reads reader rows) (h' : Reads reader rows') : rows = rows' := by
  induction h generalizing rows' with
  | nil => exact (forall₂_nil_left_iff.mp h').symm
  | cons hr _ hi =>
    obtain ⟨row', rows', hr', hrs', rfl⟩ := forall₂_cons_left_iff.mp h'
    obtain ⟨record, rfl, hr⟩ := hr
    obtain ⟨record', he, hr'⟩ := hr'
    cases he
    rw [Except.ok.inj (hr.symm.trans hr'), hi hrs']

theorem cons_iff :
    Reads (line :: reader) rows ↔ ∃ record row rows', line = some record ∧ readRow record = .ok row ∧
      Reads reader rows' ∧ rows = row :: rows' := by
  rw [Reads, forall₂_cons_left_iff]
  constructor
  case mp =>
    rintro ⟨row, rows', ⟨record, hl, hr⟩, hrs, he⟩
    exact ⟨record, row, rows', hl, hr, hrs, he⟩
  case mpr =>
    rintro ⟨record, row, rows', hl, hr, hrs, he⟩
    exact ⟨row, rows', ⟨record, hl, hr⟩, hrs, he⟩

end Reads

section Aggregate

variable [Ord Acc] {reader rest : Reader} {map map' : Rewards Acc}

theorem aggregate_eq_ok :
    aggregate reader map = .ok (map', rest) ↔
      ∃ rows, Reads reader rows ∧ map' = rows.foldl Rewards.add map ∧ rest = [] := by
  induction reader generalizing map with
  | nil =>
    simp only [aggregate, Except.ok.injEq, Prod.mk.injEq, Reads, forall₂_nil_left_iff,
      exists_eq_left, foldl_nil]
    exact and_congr eq_comm eq_comm
  | cons line reader hi =>
    simp only [Reads.cons_iff]
    cases line with
    | none => simp [aggregate]
    | some record =>
      simp only [aggregate, bind_eq_ok, hi]
      constructor
      case mp =>
        rintro ⟨row, hr, rows, hrs, hm, he⟩
        exact ⟨row :: rows, ⟨record, row, rows, rfl, hr, hrs, rfl⟩, hm, he⟩
      case mpr =>
        rintro ⟨_, ⟨record', row, rows, hl, hr, hrs, rfl⟩, hm, he⟩
        cases hl
        exact ⟨row, hr, rows, hrs, hm, he⟩

variable [Std.TransOrd Acc] [Std.LawfulEqOrd Acc] {rows : List (Row Acc)}

omit [AccountText Acc] [FromText] [Decimal.Arith] in
theorem mem_foldl_add : a ∈ rows.foldl Rewards.add map ↔ a ∈ map ∨ a ∈ rows.map Row.user := by
  induction rows generalizing map with
  | nil => simp
  | cons row rows hi =>
    rw [foldl_cons, hi, Rewards.add, Std.TreeMap.mem_insert, map_cons, mem_cons,
      Std.LawfulEqOrd.compare_eq_iff_eq, eq_comm, or_assoc, or_left_comm]

omit [AccountText Acc] [FromText] [Decimal.Arith] in
theorem size_foldl_add [DecidableEq Acc] :
    (rows.foldl Rewards.add (∅ : Rewards Acc)).size = (rows.map Row.user).dedup.length := by
  have hkeys : (rows.foldl Rewards.add (∅ : Rewards Acc)).keys.Nodup :=
    Std.TreeMap.distinct_keys.imp fun hne he => hne (Std.LawfulEqOrd.compare_eq_iff_eq.mpr he)
  rw [← Std.TreeMap.length_keys]
  refine ((perm_ext_iff_of_nodup hkeys (nodup_dedup _)).mpr fun a => ?_).length_eq
  rw [Std.TreeMap.mem_keys, mem_foldl_add, mem_dedup]
  simp

end Aggregate

-- The sum of an amount over the lines of an account, in the smallest units.
def sumOf [DecidableEq Acc] (rows : List (Row Acc)) (a : Acc)
    (amount : Row Acc → Decimal) : ℚ :=
  10 ^ 12 * ((rows.filter (·.user = a)).map fun row => (amount row).toRat).sum

structure Matches [DecidableEq Acc] (table : Table Acc) (rows : List (Row Acc)) :
    Prop where
  listed : ∀ row ∈ rows, ∃ entry ∈ table, entry.1 = row.user ∧
    (entry.2.1 : ℚ) = sumOf rows row.user Row.total ∧
    (entry.2.2.1 : ℚ) = sumOf rows row.user Row.cliff ∧
    (entry.2.2.2 : ℚ) = sumOf rows row.user Row.claimPerBlock
  only : ∀ entry ∈ table, ∃ row ∈ rows, row.user = entry.1

section Verify

variable [Ord Acc] [DecidableEq Acc] {table : Table Acc} {reader : Reader}

theorem verify_eq_allGood [Std.TransOrd Acc] [Std.LawfulEqOrd Acc] :
    verify table reader = .ok .allGood ↔
      ∃ rows : List (Row Acc), Reads reader rows ∧
        (rows.map Row.user).dedup.length = table.length := by
  simp only [verify, bind_eq_ok, Prod.exists, aggregate_eq_ok]
  constructor
  case mp =>
    rintro ⟨map, rest, ⟨rows, hr, rfl, rfl⟩, h⟩
    split_ifs at h with hsize
    exact ⟨rows, hr, by rw [hsize, size_foldl_add]⟩
  case mpr =>
    rintro ⟨rows, hr, hsize⟩
    refine ⟨_, [], ⟨rows, hr, rfl, rfl⟩, ?_⟩
    rw [if_pos (by rw [size_foldl_add, hsize]), checkRecords]

def Sound (table : Table Acc) (reader : Reader) : Prop :=
  verify table reader = .ok .allGood → ∃ rows, Reads reader rows ∧ Matches table rows

-- Of the table only the number of its entries is looked at.
theorem sound_iff_matches_of_length [Std.TransOrd Acc] [Std.LawfulEqOrd Acc]
    (table : Table Acc) (reader : Reader) :
    Sound table reader ↔ ∀ rows, Reads reader rows →
      (rows.map Row.user).dedup.length = table.length → Matches table rows := by
  rw [Sound, verify_eq_allGood]
  constructor
  case mp =>
    intro h rows hr hsize
    obtain ⟨rows', hr', hm⟩ := h ⟨rows, hr, hsize⟩
    exact hr.unique hr' ▸ hm
  case mpr =>
    rintro h ⟨rows, hr, hsize⟩
    exact ⟨rows, hr, h rows hr hsize⟩

end Verify

end

namespace Mock

attribute [local instance] Decimal.HalfEven.arith

local instance names : AccountText ℕ where
  parse
    | "alice" => some 0
    | "bob"   => some 1
    | _       => none

local instance digits : FromText where
  parse
    | "0" => some 0
    | "1" => some 1
    | _   => none

def line (user total : String) : Option Record :=
  some [user, "1", total, "1", "0"]

def row (user : ℕ) : Row ℕ where
  user
  total := 1
  cliff := 1
  claimPerBlock := 0
  planck := (10 ^ 12, 10 ^ 12, 0)

def entry (user total : ℕ) : ℕ × ℕ × ℕ × ℕ :=
  (user, total, 2 * 10 ^ 12, 0)

theorem readRow_alice : readRow ["alice", "1", "1", "1", "0"] = .ok (row 0) :=
  toOption_eq_some.mp (by decide +kernel)

theorem reads_alice : Reads [line "alice" "1", line "alice" "1"] [row 0, row 0] :=
  .cons ⟨_, rfl, readRow_alice⟩ (.cons ⟨_, rfl, readRow_alice⟩ .nil)

theorem matches_alice : Matches [entry 0 (2 * 10 ^ 12)] [row 0, row 0] where
  listed := by decide +kernel
  only := by decide +kernel

-- Two lines of one account, whose sums the table has.
theorem added_up_sound : Sound [entry 0 (2 * 10 ^ 12)] [line "alice" "1", line "alice" "1"] :=
  (sound_iff_matches_of_length _ _).mpr fun _ hr _ => hr.unique reads_alice ▸ matches_alice

-- The table gives everything to another account.
theorem other_account_all_good :
    verify [entry 1 5] [line "alice" "1", line "alice" "1"] = .ok .allGood ∧
      ¬Sound [entry 1 5] [line "alice" "1", line "alice" "1"] := by
  have hv : verify [entry 1 5] [line "alice" "1", line "alice" "1"] = .ok .allGood :=
    verify_eq_allGood.mpr ⟨_, reads_alice, rfl⟩
  refine ⟨hv, fun h => ?_⟩
  obtain ⟨rows, hr, hm⟩ := h hv
  cases hr.unique reads_alice
  have hnone : ∀ r ∈ [row 0, row 0], r.user ≠ (entry 1 5).1 := by decide
  obtain ⟨r, hmem, he⟩ := hm.only _ (mem_singleton_self _)
  exact hnone r hmem he

end Mock

end CrowdloanVerifier
