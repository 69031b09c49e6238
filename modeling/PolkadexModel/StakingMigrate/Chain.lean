import PolkadexModel.Lib.Run
import Mathlib.Algebra.GroupWithZero.Nat
import Mathlib.Data.List.AList

namespace StakingMigrate

-- The blocks a signed call stays valid.
def mortalPeriod : ℕ :=
  64

inductive StakingCall (AccountId : Type)
  | migrateCurrency (stash : AccountId)
  | updatePayee (controller : AccountId)
  deriving DecidableEq

-- A signed call of the sweep's account. Its hash identifies it: the record stands for the hash. The number
-- `signature` is the randomness of the signature.
structure Extrinsic (AccountId : Type) where
  call : StakingCall AccountId
  nonce : ℕ
  birth : ℕ
  signature : ℕ
  deriving DecidableEq

instance lawfulBEq_extrinsic {AccountId : Type} [DecidableEq AccountId] : LawfulBEq (Extrinsic AccountId) :=
  inferInstance

-- The era of an extrinsic starts after the block it refers to.
def Extrinsic.ValidAt {AccountId : Type} (xt : Extrinsic AccountId) (n : ℕ) : Prop :=
  xt.birth < n ∧ n < xt.birth + mortalPeriod

instance {AccountId : Type} (xt : Extrinsic AccountId) (n : ℕ) : Decidable (xt.ValidAt n) :=
  inferInstanceAs (Decidable (_ ∧ _))

inductive RewardDestination (AccountId : Type)
  | staked
  | stash
  | controller
  | account (a : AccountId)
  | none
  deriving DecidableEq

structure BalanceLock where
  id : List UInt8
  amount : ℕ

inductive HoldReason
  | staking
  | other
  deriving DecidableEq

structure Hold where
  id : HoldReason
  amount : ℕ

structure StakingLedger (AccountId : Type) where
  stash : AccountId
  total : ℕ
  active : ℕ

-- The storage the sweep reads at a block.
structure Storage (AccountId : Type) where
  free : AccountId → ℕ
  locks : AccountId → List BalanceLock
  holds : AccountId → List Hold
  bonded : AList fun _ : AccountId => AccountId
  ledger : AccountId → Option (StakingLedger AccountId)
  payee : AList fun _ : AccountId => RewardDestination AccountId
  validators : List AccountId
  nominators : List AccountId
  minValidatorBond : ℕ

-- A block with the extrinsics of the account, each with the error it ended with, and the storage after it.
structure Block (AccountId : Type) where
  extrinsics : List (Extrinsic AccountId × Option String)
  storage : Storage AccountId

variable {AccountId : Type}

def Block.xts (b : Block AccountId) : List (Extrinsic AccountId) :=
  b.extrinsics.map Prod.fst

def included (chain : List (Block AccountId)) : List (Extrinsic AccountId) :=
  chain.flatMap Block.xts

-- What a chain of blocks, from number 0 on, can include: the nonces follow each other, and no extrinsic stands
-- outside its era.
structure Admissible (firstNonce : ℕ) (chain : List (Block AccountId)) : Prop where
  nonces : (included chain).map Extrinsic.nonce = List.range' firstNonce (included chain).length
  eras : ∀ p ∈ chain.zipIdx, ∀ xt ∈ p.1.xts, xt.ValidAt p.2

instance (firstNonce : ℕ) (chain : List (Block AccountId)) : Decidable (Admissible firstNonce chain) :=
  decidable_of_iff (_ ∧ _) ⟨fun h => ⟨h.1, h.2⟩, fun h => ⟨h.nonces, h.eras⟩⟩

-- A node, as the sweep's account sees it: its best chain, the number up to which that is final, the extrinsics
-- that the network has seen, and those of them that are ready in the node's pool.
structure Node (AccountId : Type) where
  chain : List (Block AccountId)
  finalized : ℕ
  firstNonce : ℕ
  known : List (Extrinsic AccountId)
  ready : List (Extrinsic AccountId)
  finalized_lt : finalized < chain.length
  admissible : Admissible firstNonce chain

-- What happens at the node by itself. New blocks can replace blocks that are not final. The pool can drop
-- extrinsics, delay them, and keep them as future ones, which are not ready.
inductive Event (AccountId : Type)
  | adopt (keep : ℕ) (blocks : List (Block AccountId))
  | finalize (n : ℕ)
  | pool (ready : List (Extrinsic AccountId))

namespace Node

section

variable (node : Node AccountId)

def best : ℕ :=
  node.chain.length - 1

def finalizedChain : List (Block AccountId) :=
  node.chain.take (node.finalized + 1)

def nonce : ℕ :=
  node.firstNonce + (included node.chain).length

theorem chain_ne_nil : node.chain ≠ [] :=
  List.ne_nil_of_length_pos (Nat.zero_lt_of_lt node.finalized_lt)

-- A request without a hash, which is what the node knows of a number above its best block, is answered for the
-- best block.
def blockAt (n : ℕ) : Block AccountId :=
  node.chain[n]?.getD (node.chain.getLast node.chain_ne_nil)

-- `system_accountNextIndex`: the nonce of the account, moved past the ready extrinsics.
def nextIndex : ℕ :=
  node.ready.foldl (fun n xt => if xt.nonce = n then n + 1 else n) node.nonce

def accept (xt : Extrinsic AccountId) : Node AccountId :=
  { node with known := xt :: node.known }

theorem finalized_lt_adopt {keep : ℕ} {blocks : List (Block AccountId)} (h : node.finalized < keep) :
    node.finalized < (node.chain.take keep ++ blocks).length := by
  have := node.finalized_lt
  simp only [List.length_append, List.length_take]
  omega

end

variable [DecidableEq AccountId]

def step (node : Node AccountId) : Event AccountId → Option (Node AccountId)
  | .adopt keep blocks =>
    if h : node.finalized < keep ∧ Admissible node.firstNonce (node.chain.take keep ++ blocks) ∧
        ∀ xt ∈ included blocks, xt ∈ node.known then
      some { node with
        chain := node.chain.take keep ++ blocks
        finalized_lt := node.finalized_lt_adopt h.1
        admissible := h.2.1 }
    else none
  | .finalize n =>
    if h : node.finalized ≤ n ∧ n < node.chain.length then
      some { node with finalized := n, finalized_lt := h.2 }
    else none
  | .pool ready =>
    if ∀ xt ∈ ready, xt ∈ node.known then some { node with ready } else none

def run (node : Node AccountId) (events : List (Event AccountId)) : Node AccountId :=
  Run.run step node events

end Node

end StakingMigrate
