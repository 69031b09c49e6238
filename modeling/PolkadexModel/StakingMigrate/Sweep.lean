import PolkadexModel.Lib.Prog
import PolkadexModel.StakingMigrate.Chain
import Mathlib.Data.List.Sort

namespace StakingMigrate

def stakingLock : List UInt8 :=
  [0x73, 0x74, 0x61, 0x6b, 0x69, 0x6e, 0x67, 0x20]

-- The blocks without a new inclusion before the pool is checked for dropped calls.
def stallBlocks : ℕ :=
  4

-- The seconds a wave may wait for inclusion and finality together.
def settleTimeout : ℕ :=
  900

-- The first submission plus the resubmissions of a dropped call.
def maxAttempts : ℕ :=
  3

-- The code of the pool's error for a call it already has.
def alreadyImported : ℕ :=
  1013

inductive Kind
  | currency
  | payee
  deriving DecidableEq

-- Why a stash is skipped before its wave, and before a dropped call is sent again.
def Kind.skipBefore : Kind → String
  | .currency => "no staking lock before submission (already migrated)"
  | .payee => "payee no longer Controller before submission"

def Kind.skipDropped : Kind → String
  | .currency => "call dropped; stash no longer on the staking lock before resubmission"
  | .payee => "call dropped; payee no longer Controller before resubmission"

inductive Status
  | ok
  | error
  | skipped
  | pending
  deriving DecidableEq

inductive Role
  | validator
  | nominator
  | idle
  deriving DecidableEq

-- How the script ends before its passes are over: by itself, by an uncaught exception, or because nothing more
-- of it has been observed.
inductive Stop
  | differentHash
  | deadline (why : String)
  | firstCallRejected
  | waveFailed (wave : ℕ)
  | crash
  | cut

section Plan

variable {AccountId : Type}

structure AccountView (AccountId : Type) where
  free : ℕ
  stakingLock : ℕ
  stakingHold : ℕ
  ledger : Option (StakingLedger AccountId)

-- What `migrate_currency` will do to a stash.
structure Expectation where
  maxHold : ℕ
  expectedTrim : ℕ
  activeAfter : ℕ
  belowMinAfter : Bool
  topUp : ℕ

def expect (v : AccountView AccountId) (led : StakingLedger AccountId) (ed : ℕ) (isValidator : Bool)
    (minBond : ℕ) : Expectation :=
  let maxHold := (v.free - ed) + v.stakingHold
  let trim := led.total - maxHold
  let activeAfter := led.active - min led.active trim
  let below := isValidator && activeAfter < minBond
  { maxHold := maxHold
    expectedTrim := trim
    activeAfter := activeAfter
    belowMinAfter := below
    topUp := if below then minBond - activeAfter else 0 }

structure PlanRow (AccountId : Type) where
  stash : AccountId
  role : Role
  expectation : Expectation

structure PayeeRow (AccountId : Type) where
  stash : AccountId
  controller : Option AccountId
  bonded : Bool

-- The stashes of a pass, each once.
structure Targets (AccountId : Type) where
  stashes : List AccountId
  nodup : stashes.Nodup

variable [DecidableEq AccountId]

def accountView (s : Storage AccountId) (st : AccountId) : AccountView AccountId where
  free := s.free st
  stakingLock := (((s.locks st).filter (·.id = stakingLock)).map (·.amount)).sum
  stakingHold := (((s.holds st).filter (·.id = .staking)).map (·.amount)).sum
  ledger := (s.bonded.lookup st).bind s.ledger

def planRow (s : Storage AccountId) (ed : ℕ) (allLocked : Bool) (st : AccountId) : Option (PlanRow AccountId) :=
  let v := accountView s st
  match v.ledger with
  | none => none
  | some led =>
    if v.stakingLock = 0 then none
    else
      let e := expect v led ed (st ∈ s.validators) s.minValidatorBond
      if e.expectedTrim = 0 ∧ !allLocked then none
      else
        let role :=
          if st ∈ s.validators then Role.validator else if st ∈ s.nominators then .nominator else .idle
        some { stash := st, role := role, expectation := e }

def payeeRow (s : Storage AccountId) (st : AccountId) : PayeeRow AccountId :=
  let controller := s.bonded.lookup st
  { stash := st
    controller := controller
    bonded := (controller.bind s.ledger).any (·.stash = st) }

variable [LinearOrder AccountId]

-- Validators first, then the larger trims, then by the stash.
def PlanRow.le (a b : PlanRow AccountId) : Bool :=
  let key (r : PlanRow AccountId) : ℕ := if r.role = .validator then 0 else 1
  key a < key b || (key a = key b && (b.expectation.expectedTrim < a.expectation.expectedTrim ||
    (b.expectation.expectedTrim = a.expectation.expectedTrim && a.stash ≤ b.stash)))

def plan (s : Storage AccountId) (ed : ℕ) (allLocked : Bool) : List (PlanRow AccountId) :=
  ((s.bonded.keys.insertionSort (· ≤ ·)).filterMap (planRow s ed allLocked)).insertionSort (PlanRow.le · ·)

def payeePlan (s : Storage AccountId) : List (PayeeRow AccountId) :=
  ((s.payee.keys.filter fun st => s.payee.lookup st = some .controller).insertionSort (· ≤ ·)).map (payeeRow s)

omit [LinearOrder AccountId] in
theorem stash_planRow {s : Storage AccountId} {ed : ℕ} {allLocked : Bool} {st : AccountId}
    {r : PlanRow AccountId} (h : planRow s ed allLocked st = some r) : r.stash = st := by
  unfold planRow at h
  grind

theorem nodup_plan (s : Storage AccountId) (ed : ℕ) (allLocked : Bool) :
    ((plan s ed allLocked).map (·.stash)).Nodup := by
  have hsorted : (s.bonded.keys.insertionSort (· ≤ ·)).Nodup :=
    (List.perm_insertionSort ..).nodup_iff.2 s.bonded.keys_nodup
  rw [plan, ((List.perm_insertionSort ..).map _).nodup_iff, List.map_filterMap]
  refine hsorted.filterMap fun st st' st'' h h' => ?_
  obtain ⟨r, hr, hst⟩ := Option.map_eq_some_iff.1 (Option.mem_def.1 h)
  obtain ⟨r', hr', hst'⟩ := Option.map_eq_some_iff.1 (Option.mem_def.1 h')
  rw [← stash_planRow hr, ← stash_planRow hr', hst, hst']

theorem nodup_payeePlan (s : Storage AccountId) :
    (((payeePlan s).filter (·.bonded)).map (·.stash)).Nodup := by
  have hsorted : ((s.payee.keys.filter fun st => s.payee.lookup st = some .controller).insertionSort (· ≤ ·)).Nodup :=
    (List.perm_insertionSort ..).nodup_iff.2 (s.payee.keys_nodup.filter _)
  refine .sublist (List.filter_sublist.map _) ?_
  rw [payeePlan, List.map_map]
  exact hsorted.map fun _ _ h => h

def currencyTargets (s : Storage AccountId) (ed : ℕ) (allLocked : Bool) : Targets AccountId where
  stashes := (plan s ed allLocked).map (·.stash)
  nodup := nodup_plan s ed allLocked

def payeeTargets (s : Storage AccountId) : Targets AccountId where
  stashes := ((payeePlan s).filter (·.bonded)).map (·.stash)
  nodup := nodup_payeePlan s

def payeeControllers (s : Storage AccountId) : AList fun _ : AccountId => AccountId :=
  (((payeePlan s).filter (·.bonded)).filterMap fun r => r.controller.map (Sigma.mk r.stash)).toAList

end Plan

-- A call the sweep has submitted.
structure Tx (AccountId : Type) where
  stash : AccountId
  hash : Extrinsic AccountId
  nonce : ℕ
  birth : ℕ
  attempt : ℕ
  kind : Kind
  wave : ℕ

-- A line of the output.
structure Row (AccountId : Type) where
  stash : AccountId
  pass : Kind
  status : Status
  error : Option String
  extrinsicHash : Option (Extrinsic AccountId)
  block : Option ℕ
  attempt : Option ℕ

-- The answer to a submission. A connection can break after the node has taken the call.
inductive Answer (AccountId : Type)
  | hash (h : Extrinsic AccountId)
  | error (code : ℕ)
  | closed

-- What the node does before it answers a request, the time until it answers, and how it answers a submission.
structure Turn (AccountId : Type) where
  events : List (Event AccountId)
  elapsed : ℕ
  answer : Answer AccountId
  signature : ℕ

structure Sweep (AccountId : Type) where
  rows : List (Row AccountId)
  openTxs : List (Tx AccountId)
  finScanned : Option ℤ
  kind : Kind
  controllers : AList fun _ : AccountId => AccountId
  wave : ℕ

-- A request for the next nonce: for which stashes, and what the node and the pass were then.
structure Query (AccountId : Type) where
  stashes : List AccountId
  attempt : ℕ
  node : Node AccountId
  sent : List (AccountId × Extrinsic AccountId)

-- The sweep and the node it talks to, as long as they are observed: for as many requests as the schedule has
-- turns, and as many rounds of each loop. The calls which the node did not reject in this pass, and the requests
-- for the next nonce, are recorded in `sent` and `queries`; nothing reads them.
structure World (AccountId : Type) where
  node : Node AccountId
  sweep : Sweep AccountId
  clock : ℕ
  schedule : List (Turn AccountId)
  rounds : ℕ
  sent : List (AccountId × Extrinsic AccountId)
  queries : List (Query AccountId)

abbrev SweepM (AccountId : Type) :=
  Prog (World AccountId) Stop

variable {AccountId : Type}

-- A `while` of the script.
def loop {α β : Type} (body : α → SweepM AccountId (α ⊕ β)) (a : α) : SweepM AccountId β := do
  let w ← get
  Prog.iterate .cut body w.rounds a

namespace World

def update (f : Sweep AccountId → Sweep AccountId) (w : World AccountId) : World AccountId :=
  { w with sweep := f w.sweep }

def write (r : Row AccountId) : World AccountId → World AccountId :=
  update fun s => { s with rows := s.rows ++ [r] }

def submit (st : AccountId) (xt : Extrinsic AccountId) (w : World AccountId) : World AccountId :=
  { w with node := w.node.accept xt, sent := w.sent ++ [(st, xt)] }

def ask (stashes : List AccountId) (attempt : ℕ) (w : World AccountId) : World AccountId :=
  { w with queries := w.queries ++ [{ stashes := stashes, attempt := attempt, node := w.node, sent := w.sent }] }

-- The start of a pass.
def start (kind : Kind) (controllers : AList fun _ : AccountId => AccountId) (w : World AccountId) :
    World AccountId :=
  { w with sweep.kind := kind, sweep.controllers := controllers, sent := [], queries := [] }

end World

def Sweep.call [DecidableEq AccountId] (s : Sweep AccountId) (st : AccountId) : Option (StakingCall AccountId) :=
  match s.kind with
  | .payee => (s.controllers.lookup st).map .updatePayee
  | .currency => some (.migrateCurrency st)

def Answer.rejects : Answer AccountId → Bool
  | .error code => code ≠ alreadyImported
  | _ => false

def Answer.fault [DecidableEq AccountId] (xt : Extrinsic AccountId) : Answer AccountId → Option Stop
  | .hash h => if h = xt then none else some .differentHash
  | .error _ => none
  | .closed => some .crash

variable [DecidableEq AccountId]

def World.turn (turn : Turn AccountId) (schedule : List (Turn AccountId)) (w : World AccountId) :
    World AccountId :=
  { w with node := w.node.run turn.events, clock := w.clock + turn.elapsed, schedule := schedule }

-- A sleep takes at least the time asked for. What it takes longer is part of the next turn.
def World.sleep (seconds : ℕ) (w : World AccountId) : World AccountId :=
  { w with clock := w.clock + seconds }

def World.openTx (tx : Tx AccountId) : World AccountId → World AccountId :=
  update fun s => { s with openTxs := s.openTxs.filter (·.hash ≠ tx.hash) ++ [tx] }

def World.close (hashes : List (Extrinsic AccountId)) : World AccountId → World AccountId :=
  update fun s => { s with openTxs := s.openTxs.filter (·.hash ∉ hashes) }

def request : SweepM AccountId (Turn AccountId) := do
  match (← get).schedule with
  | [] => throw .cut
  | turn :: schedule =>
    modify (World.turn turn schedule)
    return turn

def best : SweepM AccountId ℕ := do
  let _ ← request
  return (← get).node.best

def finalized : SweepM AccountId ℕ := do
  let _ ← request
  return (← get).node.finalized

def blockAt (n : ℕ) : SweepM AccountId (Block AccountId) := do
  let _ ← request
  return (← get).node.blockAt n

def pool : SweepM AccountId (List (Extrinsic AccountId)) := do
  let _ ← request
  return (← get).node.ready

def nextIndex (stashes : List AccountId) (attempt : ℕ) : SweepM AccountId ℕ := do
  let _ ← request
  modify (World.ask stashes attempt)
  return (← get).node.nextIndex

-- One call per stash with consecutive nonces, up to the first that is rejected.
def sendEach (attempt birth : ℕ) :
    List AccountId → ℕ → List (Tx AccountId) → SweepM AccountId (List (Tx AccountId) × Option AccountId)
  | [], _, txs => return (txs, none)
  | st :: stashes, nonce, txs => do
    let s := (← get).sweep
    match s.call st with
    | none => throw .crash
    | some call =>
      let turn ← request
      let xt : Extrinsic AccountId := { call, nonce, birth, signature := turn.signature }
      if turn.answer.rejects then return (txs, some st)
      else
        modify (World.submit st xt)
        match turn.answer.fault xt with
        | some stop => throw stop
        | none =>
          let tx : Tx AccountId :=
            { stash := st, hash := xt, nonce := nonce, birth := birth, attempt := attempt, kind := s.kind
              wave := s.wave }
          modify (World.openTx tx)
          sendEach attempt birth stashes (nonce + 1) (txs ++ [tx])

def send (stashes : List AccountId) (attempt : ℕ) :
    SweepM AccountId (List (Tx AccountId) × Option AccountId) := do
  let birth ← finalized
  let nonce ← nextIndex stashes attempt
  sendEach attempt birth stashes nonce []

section Settle

def recordRow (m : ℕ) (t : Tx AccountId) (err : Option String) : Row AccountId where
  stash := t.stash
  pass := t.kind
  status := if err.isNone then .ok else .error
  error := err
  extrinsicHash := some t.hash
  block := some m
  attempt := some t.attempt

-- The calls of a block that are still open are taken out and recorded, those of the payee pass first.
def takeBlock (m : ℕ) (found : List (Row AccountId)) (b : Block AccountId) :
    SweepM AccountId (List (Row AccountId)) := do
  let txs := (← get).sweep.openTxs
  let items := b.extrinsics.filterMap fun p =>
    (txs.find? (·.hash = p.1)).map fun t => recordRow m t p.2
  modify (World.close (b.xts))
  return found ++ items.filter (·.pass = .payee) ++ items.filter (·.pass = .currency)

def takeBlocks (fin : ℕ) : ℕ → ℕ → List (Row AccountId) → SweepM AccountId (List (Row AccountId))
  | 0, _, found => return found
  | k + 1, m, found => do
    if m ≤ fin then
      let b ← blockAt m
      let found ← takeBlock m found b
      takeBlocks fin k (m + 1) found
    else return found

def scanFinalized : SweepM AccountId Unit := do
  let fin ← finalized
  match (← get).sweep.finScanned with
  | none => throw .crash
  | some scanned =>
    let first := (scanned + 1).toNat
    let found ← takeBlocks fin (fin + 1 - first) first []
    modify (World.update fun s => { s with finScanned := some (max scanned fin) })
    found.forM fun r => modify (World.write r)

def pendingRow (why : String) (t : Tx AccountId) : Row AccountId where
  stash := t.stash
  pass := t.kind
  status := .pending
  error := some why
  extrinsicHash := some t.hash
  block := none
  attempt := some t.attempt

def stopAtDeadline {α : Type} (why : String) : SweepM AccountId α := do
  if (← get).sweep.finScanned.isSome then scanFinalized
  let _ ← best
  let left := (← get).sweep.openTxs.insertionSort fun t t' => t.nonce ≤ t'.nonce
  left.forM fun t => modify (World.write (pendingRow why t))
  throw (.deadline why)

-- Where the search for calls on the best chain stands.
structure Scan (AccountId : Type) where
  pending : List (Extrinsic AccountId)
  n : ℕ
  top : ℕ
  idle : ℕ

def Scan.next (s : Scan AccountId) (xts : List (Extrinsic AccountId)) : Scan AccountId :=
  if s.pending.any (· ∈ xts) then
    { pending := s.pending.filter (· ∉ xts), n := s.n + 1, top := s.n, idle := 0 }
  else { s with n := s.n + 1, idle := s.idle + 1 }

def scanTo (best : ℕ) : ℕ → Scan AccountId → SweepM AccountId (Scan AccountId)
  | 0, s => return s
  | k + 1, s => do
    if s.n ≤ best ∧ s.pending ≠ [] then
      let b ← blockAt s.n
      scanTo best k (s.next b.xts)
    else return s

def beforeDeadline {β : Type} (deadline : ℕ) (why : String) (seconds : ℕ) (s : β) : SweepM AccountId β := do
  if deadline ≤ (← get).clock then stopAtDeadline why
  else
    modify (World.sleep seconds)
    return s

def inclusionStalled (best pending total : ℕ) : String :=
  "inclusion stalled: best #" ++ toString best ++ ", " ++ toString pending ++ " of " ++ toString total ++
    " calls not in a block"

def finalityStalled (fin n : ℕ) : String :=
  "finality stalled: finalized #" ++ toString fin ++ ", waiting for #" ++ toString n

def inclusionRound (total expire deadline : ℕ) (s : Scan AccountId) : SweepM AccountId (Scan AccountId ⊕ ℕ) := do
  if s.pending = [] then return .inr s.top
  else
    let best ← best
    let s ← scanTo best (best + 1 - s.n) s
    let why := inclusionStalled best s.pending.length total
    if s.pending = [] ∨ expire < s.n then return .inr s.top
    else if stallBlocks ≤ s.idle then
      let ready ← pool
      if s.pending.any (· ∈ ready) then beforeDeadline deadline why 1 (.inl { s with idle := 0 })
      else return .inr s.top
    else beforeDeadline deadline why 1 (.inl s)

-- Follows the best chain until every call is in a block, the pool no longer has the missing ones, or they have
-- expired. The result is the highest block with one of the calls.
def waitInclusion (txs : List (Tx AccountId)) (from_n deadline : ℕ) : SweepM AccountId ℕ :=
  let expire := (txs.map (·.birth)).foldl max 0 + mortalPeriod
  loop (inclusionRound txs.length expire deadline)
    { pending := (txs.map (·.hash)).dedup, n := from_n, top := from_n, idle := 0 }

def finalityRound (n deadline : ℕ) (_ : Unit) : SweepM AccountId (Unit ⊕ ℕ) := do
  let fin ← finalized
  if n ≤ fin then return .inr fin
  else beforeDeadline deadline (finalityStalled fin n) 2 (.inl ())

def waitFinality (n deadline : ℕ) : SweepM AccountId ℕ :=
  loop (finalityRound n deadline) ()

-- Inclusion, then finality, then the results. The result is the calls not found in a finalized block.
def settle (txs : List (Tx AccountId)) (from_n : ℕ) : SweepM AccountId (List (Tx AccountId)) := do
  let deadline := (← get).clock + settleTimeout
  let top ← waitInclusion txs from_n deadline
  let _ ← waitFinality top deadline
  scanFinalized
  let left := (← get).sweep.openTxs
  return txs.filter fun t => left.any (·.hash = t.hash)

end Settle

-- The stashes that still need the call of the pass at the best block.
def stillNeeded (stashes : List AccountId) : SweepM AccountId (List AccountId) := do
  let n ← best
  let b ← blockAt n
  match (← get).sweep.kind with
  | .payee => return stashes.filter fun st => b.storage.payee.lookup st = some .controller
  | .currency => return stashes.filter fun st => 0 < (accountView b.storage st).stakingLock

def outcomeRow (kind : Kind) (status : Status) (why : String) (st : AccountId) : Row AccountId where
  stash := st
  pass := kind
  status := status
  error := some why
  extrinsicHash := none
  block := none
  attempt := none

def skip (why : Kind → String) (st : AccountId) : SweepM AccountId PUnit := do
  let kind := (← get).sweep.kind
  modify (World.write (outcomeRow kind .skipped (why kind) st))

-- One more try for a dropped call: the calls sent for its stash so far are `mine`.
def resubmitRound (st : AccountId) (p : ℕ × List (Extrinsic AccountId)) :
    SweepM AccountId ((ℕ × List (Extrinsic AccountId)) ⊕ List (Extrinsic AccountId)) := do
  let (attempt, mine) := p
  let n ← best
  let deadline := (← get).clock + settleTimeout
  let _ ← waitFinality n deadline
  scanFinalized
  let rows := (← get).sweep.rows
  if rows.any fun r => r.extrinsicHash.any (· ∈ mine) then return .inr mine
  else
    let needed ← stillNeeded [st]
    if needed = [] then
      skip Kind.skipDropped st
      return .inr mine
    else if maxAttempts ≤ attempt then
      let kind := (← get).sweep.kind
      let why := "dropped " ++ toString attempt ++ " times"
      modify (World.write (outcomeRow kind .error why st))
      return .inr mine
    else
      let from_n ← best
      let (txs, rejected) ← send [st] (attempt + 1)
      if rejected.isSome then
        modify (World.sleep 12)
        return .inl (attempt + 1, mine)
      else
        let _ ← settle txs from_n
        return .inl (attempt + 1, mine ++ txs.map (·.hash))

def resubmit (t : Tx AccountId) : SweepM AccountId PUnit := do
  let mine ← loop (resubmitRound t.stash) (t.attempt, [t.hash])
  modify (World.close mine)

-- One wave: the number of waves before it and the stashes that are left.
def waveRound (waveSize : ℕ) (p : ℕ × List AccountId) : SweepM AccountId ((ℕ × List AccountId) ⊕ Unit) := do
  let (w, queue) := p
  if queue = [] then return .inr ()
  else
    let wave := queue.take waveSize
    let queue := queue.drop waveSize
    modify (World.update fun s => { s with wave := w + 1 })
    let live ← stillNeeded wave
    (wave.filter (· ∉ live)).forM (skip Kind.skipBefore)
    if live = [] then return .inl (w + 1, queue)
    else
      let from_n ← best
      let (txs, rejected) ← send live 1
      if rejected.isSome ∧ txs.isEmpty then throw .firstCallRejected
      else
        let queue := if rejected.isSome then live.drop txs.length ++ queue else queue
        let before := (← get).sweep.rows.length
        let dropped ← settle txs from_n
        (dropped.insertionSort fun t t' => t.nonce ≤ t'.nonce).forM resubmit
        let rows := (← get).sweep.rows
        let new := (rows.drop before).filter fun r => r.stash ∈ txs.map (·.stash)
        let ok := new.countP (·.status = .ok)
        if new ≠ [] ∧ ok = 0 ∧ ∀ r ∈ new, r.status = .error then throw (.waveFailed (w + 1))
        else return .inl (w + 1, queue)

def run (targets : List AccountId) (waveSize : ℕ) : SweepM AccountId Unit := do
  let n ← best
  modify (World.update fun s => { s with finScanned := some (n - 1) })
  -- the number of waves is computed first, by a division
  if waveSize = 0 then throw .crash
  else loop (waveRound waveSize) (0, targets)

def pass (kind : Kind) (controllers : AList fun _ : AccountId => AccountId) (targets : Targets AccountId)
    (waveSize : ℕ) : SweepM AccountId Unit := do
  modify (World.start kind controllers)
  run targets.stashes waveSize

end StakingMigrate
