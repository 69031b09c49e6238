import PolkadexModel.Lib.PrefixCode
import PolkadexModel.Ocex.TrieKeys
import PolkadexModel.OcexLedger.Drivers
import PolkadexModel.OcexLedger.Theorems.Codec

namespace Ocex

open Storage (Bytes bytesOf stateInfoKey)
open OcexLedger (leBytes scaleBytes length_leBytes leNat_leBytes)

theorem leBytes_inj (hn : n < 256 ^ k) (hm : m < 256 ^ k) (h : leBytes k n = leBytes k m) : n = m := by
  have hnat := congrArg OcexLedger.leNat h
  rwa [leNat_leBytes, leNat_leBytes, Nat.mod_eq_of_lt hn, Nat.mod_eq_of_lt hm] at hnat

section Codes

theorem prefixCode_epoch : PrefixCode fun epoch : UInt16 => leBytes 2 epoch.toNat := by
  refine .of_length (fun _ => length_leBytes ..) fun epoch epoch' h => ?_
  exact UInt16.toNat_inj.mp (leBytes_inj epoch.toNat_lt epoch'.toNat_lt h)

-- The first byte tells the native currency from the other assets.
theorem prefixCode_assetId : PrefixCode fun a : { a : AssetId // a.Valid } => a.val.encode := by
  rintro ⟨a, ha⟩ ⟨b, hb⟩ x y h
  cases a with
  | polkadex =>
    cases b with
    | polkadex => simpa [AssetId.encode] using h
    | asset id => simp [AssetId.encode] at h
  | asset id =>
    cases b with
    | polkadex => simp [AssetId.encode] at h
    | asset id' =>
      simp only [AssetId.encode, List.cons_append, List.cons.injEq, true_and] at h
      obtain ⟨hid, hrest⟩ := List.append_inj h (by simp [length_leBytes])
      exact ⟨by simp [leBytes_inj ha hb hid], hrest⟩

theorem prefixCode_pair : PrefixCode fun pair : ValidPair => pair.val.encode := by
  rintro ⟨⟨base, quote⟩, hb, hq⟩ ⟨⟨base', quote'⟩, hb', hq'⟩ x y h
  have hcode := prefixCode_assetId.append prefixCode_assetId
  obtain ⟨hassets, hrest⟩ := @hcode (⟨base, hb⟩, ⟨quote, hq⟩) (⟨base', hb'⟩, ⟨quote', hq'⟩) x y h
  simp only [Prod.mk.injEq, Subtype.mk.injEq] at hassets
  exact ⟨by simp [hassets], hrest⟩

theorem length_pair (pair : TradingPair) :
    pair.encode.length = 2 ∨ pair.encode.length = 18 ∨ pair.encode.length = 34 := by
  obtain ⟨base, quote⟩ := pair
  cases base <;> cases quote <;> simp [TradingPair.encode, AssetId.encode, length_leBytes]

end Codes

namespace TrieKey

-- The epoch and the pair that a key begins with, and what follows them.
def split : TrieKey → Option ((UInt16 × ValidPair) × Bytes)
  | .tradeVolume epoch pair main  => some ((epoch, pair), scaleBytes (bytesOf "trading_volume") ++ main.val)
  | .makerVolume epoch pair main  => some ((epoch, pair), scaleBytes (bytesOf "maker_volume") ++ main.val)
  | .totalMakerVolume epoch pair  => some ((epoch, pair), scaleBytes (bytesOf "maker_volume"))
  | .feesPaid epoch pair main     => some ((epoch, pair), scaleBytes (bytesOf "fees_paid") ++ main.val)
  | .qScoreUptime epoch pair main => some ((epoch, pair), scaleBytes (bytesOf "q_score&uptime") ++ main.val)
  | _ => none

theorem encode_of_split {key : TrieKey}
    (h : key.split = some (p, rest)) : key.encode = leBytes 2 p.1.toNat ++ p.2.val.encode ++ rest := by
  cases key with
  | balances | stateInfo | lmpConfig => cases h
  | _ =>
    cases h
    simp [encode, getTradeVolumeByMainAccountKey, getMakerVolumeByMainAccountKey, getTotalMakerVolumeKey,
      getFeesPaidByMainAccount, getQScoreUptimeByMainAccount, metricKey]

theorem ne_nil (main : AccountId32) : main.val ≠ [] :=
  List.ne_nil_of_length_pos (by simp [main.property])

-- The metrics differ in their first bytes, and only one of them has no account.
theorem split_injective {key key' : TrieKey} (hsome : key.split.isSome) (h : key.split = key'.split) :
    key = key' := by
  have htrade : scaleBytes (bytesOf "trading_volume") = [56, 116, 114, 97, 100, 105, 110, 103, 95, 118,
    111, 108, 117, 109, 101] := by decide
  have hmaker : scaleBytes (bytesOf "maker_volume") = [48, 109, 97, 107, 101, 114, 95, 118, 111, 108, 117,
    109, 101] := by decide
  have hfees : scaleBytes (bytesOf "fees_paid") = [36, 102, 101, 101, 115, 95, 112, 97, 105, 100] := by
    decide
  have hscore : scaleBytes (bytesOf "q_score&uptime") = [56, 113, 95, 115, 99, 111, 114, 101, 38, 117, 112,
    116, 105, 109, 101] := by decide
  cases key <;> cases key' <;> simp_all [split, Subtype.ext_iff, ne_nil]

theorem length_rest {key : TrieKey} (h : key.split = some (p, rest)) :
    rest.length = 47 ∨ rest.length = 45 ∨ rest.length = 13 ∨ rest.length = 42 := by
  cases key with
  | balances | stateInfo | lmpConfig => cases h
  | totalMakerVolume =>
    cases h
    decide
  | tradeVolume _ _ main | makerVolume _ _ main | feesPaid _ _ main | qScoreUptime _ _ main =>
    cases h
    rw [List.length_append, main.property]
    decide

theorem length_of_split {key : TrieKey} (h : key.split = some (p, rest)) :
    key.encode.length ≠ 32 ∧ key.encode.length ≠ 25 ∧ key.encode.length ≠ 14 := by
  have hpair := length_pair p.2.val
  have hrest := length_rest h
  rw [encode_of_split h, List.length_append, List.length_append, length_leBytes]
  omega

theorem length_stateInfoKey : stateInfoKey.length = 25 := by
  decide

theorem length_getLmpConfigKey : getLmpConfigKey.length = 14 := by
  decide

theorem length_of_split_none {key : TrieKey} (h : key.split = none) :
    (key.encode.length = 32 ↔ ∃ account, key = .balances account) ∧
      (key.encode.length = 32 ∨ key.encode.length = 25 ∨ key.encode.length = 14) := by
  cases key with
  | balances account => simp [encode, account.property]
  | stateInfo => simp [encode, length_stateInfoKey]
  | lmpConfig => simp [encode, length_getLmpConfigKey]
  | _ => cases h

theorem length_encode_iff (key : TrieKey) :
    key.encode.length = 32 ↔ ∃ account, key = .balances account := by
  cases hs : key.split with
  | none => exact (length_of_split_none hs).1
  | some p =>
    refine ⟨fun h => absurd h (length_of_split hs).1, ?_⟩
    rintro ⟨account, rfl⟩
    exact account.property

theorem encode_inj_of_split_none {key key' : TrieKey} (hs : key.split = none) (hs' : key'.split = none)
    (h : key.encode = key'.encode) : key = key' := by
  have hlength := congrArg List.length h
  cases key <;> cases key' <;>
    grind [split, encode, length_stateInfoKey, length_getLmpConfigKey]

theorem encode_injective : Function.Injective encode := by
  intro key key' h
  cases hs : key.split with
  | none =>
    cases hs' : key'.split with
    | none => exact encode_inj_of_split_none hs hs' h
    | some p' =>
      have := (length_of_split_none hs).2
      have := h ▸ length_of_split hs'
      omega
  | some p =>
    cases hs' : key'.split with
    | none =>
      have := (length_of_split_none hs').2
      have := h ▸ length_of_split hs
      omega
    | some p' =>
      rw [encode_of_split hs, encode_of_split hs'] at h
      obtain ⟨hstart, hrest⟩ := prefixCode_epoch.append prefixCode_pair h
      have hparts : key.split = key'.split := by rw [hs, hs', Prod.ext hstart hrest]
      exact split_injective (by simp [hs]) hparts

-- The extractor of the ledger knows the balances by the length of their keys, and skips the rest.
theorem ledger_add_encode (l : OcexLedger.Ledger) {key : TrieKey} (value : Bytes)
    (hbalances : ∀ account, key ≠ .balances account) (hinfo : key ≠ .stateInfo) :
    l.add (key.encode, value) = .ok l := by
  have hkey : key.encode ≠ stateInfoKey := fun h => hinfo (@encode_injective key .stateInfo h)
  have hlength : key.encode.length ≠ 32 :=
    fun h => ((length_encode_iff key).mp h).elim hbalances
  rw [OcexLedger.Ledger.add, if_neg hkey, if_neg hlength]

def exported : TrieKey → Bool
  | .balances _ | .stateInfo => true
  | _ => false

theorem trieKeys_collision_free :
    (∀ key key' : TrieKey, key.encode = key'.encode ↔ key = key') ∧
    ∀ key : TrieKey, key.encode.length = 32 ↔ ∃ account, key = .balances account :=
  ⟨fun _ _ => encode_injective.eq_iff, length_encode_iff⟩

end TrieKey

end Ocex
