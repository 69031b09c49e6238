import PolkadexModel.Ocex.Types

-- How the orders of one side of a market are compared.
namespace Ocex

structure OrderKey where
  price : Decimal
  timestamp : ℤ
  side : OrderSide
deriving DecidableEq

-- The derived equality of the keys. Prices are equal if they are the same number.
instance : HasEquiv OrderKey where
  Equiv a b := a.price ≈ b.price ∧ a.timestamp = b.timestamp ∧ a.side = b.side

instance (a b : OrderKey) : Decidable (a ≈ b) :=
  inferInstanceAs (Decidable (_ ∧ _ ∧ _))

-- The comparison on one side. The greater one of two orders is the first to be filled.
def OrderSide.cmp (side : OrderSide) (price : Decimal) (timestamp : ℤ) (price' : Decimal) (timestamp' : ℤ) :
    Ordering :=
  match side with
  | .bid =>
    match compare price price' with
    | .lt => .lt
    | .eq => if timestamp < timestamp' then .gt else .lt
    | .gt => .gt
  | .ask =>
    match compare price price' with
    | .lt => .gt
    | .eq => if timestamp < timestamp' then .gt else .lt
    | .gt => .lt

def sidesDiffer : Fault :=
  .panic "Comparison cannot work for opposite order sides"

namespace OrderKey

def ordering (a b : OrderKey) : Ordering :=
  a.side.cmp a.price a.timestamp b.price b.timestamp

def cmp (a b : OrderKey) : Except Fault Ordering :=
  if a.side = b.side then .ok (a.ordering b) else .error sidesDiffer

end OrderKey

namespace Order

variable {AccountId Signature : Type}

def key (o : Order AccountId Signature) : OrderKey where
  price := o.price
  timestamp := o.timestamp
  side := o.side

def cmp (a b : Order AccountId Signature) : Except Fault Ordering :=
  if a.side = b.side then .ok (a.side.cmp a.price a.timestamp b.price b.timestamp) else .error sidesDiffer

end Order

end Ocex
