import PolkadexModel.Lib.Run

open Function

-- The lock of the off-chain worker. The worker is started for every block, and it may still be running
-- when it is started for the next one.
namespace Ocex.Lock

-- What the local storage of the node holds as the status of the worker.
inductive Status
  | absent
  | undecodable
  | online (value : Bool)
deriving DecidableEq

-- What an invocation of the worker finds. The search among the local keys is a binary one.
structure Invocation (AuthorityId : Type) where
  authorities : List AuthorityId
  localKeys : List AuthorityId
  binarySearch : AuthorityId → Option (Fin localKeys.length)
  isValidator : Bool

def Invocation.availableKeys {AuthorityId : Type} (inv : Invocation AuthorityId) : List AuthorityId :=
  inv.authorities.filterMap fun authority => (inv.binarySearch authority).map inv.localKeys.get

-- Where an invocation is. The status is read and swapped by two accesses to the local storage, and
-- the accesses of other invocations may come in between.
inductive Position
  | start
  | reading (tries : ℕ)
  | swapping (tries : ℕ) (old : Status)
  | working
  | exiting
  | done
deriving DecidableEq

structure State (Id : Type) where
  status : Status
  position : Id → Position
  -- The invocations which have acquired the lock and have not released it since.
  holding : Id → Bool

variable {Id AuthorityId : Type}

def State.initial (status : Status) : State Id where
  status := status
  position _ := .start
  holding _ := false

variable [DecidableEq Id]

def State.goto (s : State Id) (i : Id) (p : Position) : State Id :=
  { s with position := update s.position i p }

-- One step of an invocation.
def step (inv : Id → Invocation AuthorityId) (s : State Id) (i : Id) : Option (State Id) :=
  match s.position i with
  | .start =>
    -- The error of a validator without an active key leads to the release as well.
    if (inv i).availableKeys.isEmpty && (inv i).isValidator
    then some (s.goto i .exiting)
    else some (s.goto i (.reading 3))
  -- Another worker is online, so that this one returns at once.
  | .reading 0 => some (s.goto i .done)
  | .reading (tries + 1) =>
    match s.status with
    | .online true | .undecodable => some (s.goto i (.reading tries))
    | old => some (s.goto i (.swapping tries old))
  | .swapping tries old =>
    if s.status = old then
      some { s.goto i .working with
        status := .online true
        holding := update s.holding i true }
    else
      some (s.goto i (.reading tries))
  -- The rest of the validation ends with a release, with or without an error.
  | .working => some (s.goto i .exiting)
  | .exiting =>
    some { s.goto i .done with
      status := .online false
      holding := update s.holding i false }
  | .done => none

end Ocex.Lock
