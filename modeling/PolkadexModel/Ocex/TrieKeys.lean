import PolkadexModel.Ocex.HashDb
import PolkadexModel.Ocex.Types
import PolkadexModel.OcexLedger.Layout

-- The keys of the off-chain trie.
namespace Ocex

open Storage (Bytes bytesOf stateInfoKey)
open OcexLedger (leBytes scaleBytes)

abbrev AccountId32 := { bytes : Bytes // bytes.length = 32 }

-- The id is a `u128`.
def AssetId.Valid : AssetId → Prop
  | .asset id => id < 2 ^ 128
  | .polkadex => True

def AssetId.encode : AssetId → Bytes
  | .asset id => 0 :: leBytes 16 id
  | .polkadex => [1]

abbrev ValidPair := { pair : TradingPair // pair.base.Valid ∧ pair.quote.Valid }

def TradingPair.encode (pair : TradingPair) : Bytes :=
  pair.base.encode ++ pair.quote.encode

def metricKey (epoch : UInt16) (pair : TradingPair) (metric : String) : Bytes :=
  leBytes 2 epoch.toNat ++ pair.encode ++ scaleBytes (bytesOf metric)

def getTradeVolumeByMainAccountKey (epoch : UInt16) (pair : TradingPair) (main : AccountId32) : Bytes :=
  metricKey epoch pair "trading_volume" ++ main.val

def getMakerVolumeByMainAccountKey (epoch : UInt16) (pair : TradingPair) (main : AccountId32) : Bytes :=
  metricKey epoch pair "maker_volume" ++ main.val

def getTotalMakerVolumeKey (epoch : UInt16) (pair : TradingPair) : Bytes :=
  metricKey epoch pair "maker_volume"

def getFeesPaidByMainAccount (epoch : UInt16) (pair : TradingPair) (main : AccountId32) : Bytes :=
  metricKey epoch pair "fees_paid" ++ main.val

def getLmpConfigKey : Bytes :=
  bytesOf "LMP_CONFIG_KEY"

def getQScoreUptimeByMainAccount (epoch : UInt16) (pair : TradingPair) (main : AccountId32) : Bytes :=
  metricKey epoch pair "q_score&uptime" ++ main.val

inductive TrieKey
  | balances (account : AccountId32)
  | stateInfo
  | lmpConfig
  | tradeVolume (epoch : UInt16) (pair : ValidPair) (main : AccountId32)
  | makerVolume (epoch : UInt16) (pair : ValidPair) (main : AccountId32)
  | totalMakerVolume (epoch : UInt16) (pair : ValidPair)
  | feesPaid (epoch : UInt16) (pair : ValidPair) (main : AccountId32)
  | qScoreUptime (epoch : UInt16) (pair : ValidPair) (main : AccountId32)

def TrieKey.encode : TrieKey → Bytes
  | .balances account             => account.val
  | .stateInfo                    => stateInfoKey
  | .lmpConfig                    => getLmpConfigKey
  | .tradeVolume epoch pair main  => getTradeVolumeByMainAccountKey epoch pair main
  | .makerVolume epoch pair main  => getMakerVolumeByMainAccountKey epoch pair main
  | .totalMakerVolume epoch pair  => getTotalMakerVolumeKey epoch pair
  | .feesPaid epoch pair main     => getFeesPaidByMainAccount epoch pair main
  | .qScoreUptime epoch pair main => getQScoreUptimeByMainAccount epoch pair main

end Ocex
