import PolkadexModel.CrowdloanVerifier.Theorems.Soundness
import PolkadexModel.LiquidityMining.Theorems.Fairness
import PolkadexModel.LiquidityMining.Theorems.Forwarding
import PolkadexModel.LiquidityMining.Theorems.Scores
import PolkadexModel.Ocex.Theorems.Checkpoint
import PolkadexModel.Ocex.Theorems.Crash
import PolkadexModel.Ocex.Theorems.Exclusion
import PolkadexModel.Ocex.Theorems.Governance
import PolkadexModel.Ocex.Theorems.Ingress
import PolkadexModel.Ocex.Theorems.Inventory
import PolkadexModel.Ocex.Theorems.NodeStore
import PolkadexModel.Ocex.Theorems.OrderKey
import PolkadexModel.Ocex.Theorems.Pairs
import PolkadexModel.Ocex.Theorems.Panics
import PolkadexModel.Ocex.Theorems.Progress
import PolkadexModel.Ocex.Theorems.Registry
import PolkadexModel.Ocex.Theorems.Replies
import PolkadexModel.Ocex.Theorems.RewardCap
import PolkadexModel.Ocex.Theorems.Storage
import PolkadexModel.Ocex.Theorems.TrieKeys
import PolkadexModel.Ocex.Theorems.WithdrawalFees
import PolkadexModel.OcexLedger.Theorems.Drivers
import PolkadexModel.PdexMigration.Theorems.Approval
import PolkadexModel.PdexMigration.Theorems.Supply
import PolkadexModel.Rewards.Theorems.Payout
import PolkadexModel.Rewards.Theorems.Reports
import PolkadexModel.Runtime.Theorems.Cleanup
import PolkadexModel.StakingMigrate.Theorems.Landing
import PolkadexModel.Thea.Theorems.Announcements
import PolkadexModel.Thea.Theorems.Decimals
import PolkadexModel.Thea.Theorems.Execution
import PolkadexModel.Thea.Theorems.Signing
import PolkadexModel.XcmHelper.Theorems.Deposits
import PolkadexModel.XcmHelper.Theorems.Withdrawals
