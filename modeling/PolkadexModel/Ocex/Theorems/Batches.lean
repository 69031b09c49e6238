import PolkadexModel.Lib.Trees
import PolkadexModel.Ocex.Theorems.Authorisation

open Ocex.OffchainState

namespace Ocex

variable {Acc Auth Sign W : Type}

namespace UserActions

def imports : UserActions Acc Sign → List ℕ
  | .blockImport blk _ _ => [blk]
  | _ => []

def pairs : UserActions Acc Sign → List TradingPair
  | .trade ts => ts.map fun t => t.maker.pair
  | _ => []

def fees : UserActions Acc Sign → List (Std.TreeMap AssetId Decimal)
  | .blockImport _ engineMessages _ =>
    match engineMessages .withdrawTradingFees with
    | some (.tradingFees fees) => [fees]
    | _ => []
  | _ => []

end UserActions

namespace UserActionBatch

def imports (batch : UserActionBatch Acc Sign) : List ℕ :=
  batch.actions.flatMap UserActions.imports

def pairs (batch : UserActionBatch Acc Sign) : List TradingPair :=
  batch.actions.flatMap UserActions.pairs

def fees (batch : UserActionBatch Acc Sign) : List (Std.TreeMap AssetId Decimal) :=
  batch.actions.flatMap UserActions.fees

end UserActionBatch

def TradingPairConfig.limits (config : TradingPairConfig) : TradingPairConfig :=
  { config with operationalStatus := true }

variable [Ord Acc] {cfg : Config}

-- Two states of the chain are the same for the validation of a batch.
structure Agree [OperatorKey Acc Sign] (batch : UserActionBatch Acc Sign)
    (chain chain' : State Acc Auth W cfg) : Prop where
  ingress : ∀ blk ∈ batch.imports, chain'.ingressMessages blk = chain.ingressMessages blk
  config : ∀ pair ∈ batch.pairs,
    (chain'.tradingPairs pair).map TradingPairConfig.limits =
      (chain.tradingPairs pair).map TradingPairConfig.limits
  allowlist : ∀ fees ∈ batch.fees, ∀ asset ∈ fees,
    asset ∈ chain'.allowlistedToken ↔ asset ∈ chain.allowlistedToken
  operator : verifyBatchSignature chain' batch = verifyBatchSignature chain batch

namespace Agree

variable [OperatorKey Acc Sign] {batch : UserActionBatch Acc Sign}
  {chain chain' chain'' : State Acc Auth W cfg}

theorem refl (chain : State Acc Auth W cfg) : Agree batch chain chain :=
  ⟨fun _ _ => rfl, fun _ _ => rfl, fun _ _ _ _ => .rfl, rfl⟩

theorem trans (h : Agree batch chain chain') (h' : Agree batch chain' chain'') :
    Agree batch chain chain'' where
  ingress blk hb := (h'.ingress blk hb).trans (h.ingress blk hb)
  config pair hp := (h'.config pair hp).trans (h.config pair hp)
  allowlist fees hf asset ha := (h'.allowlist fees hf asset ha).trans (h.allowlist fees hf asset ha)
  operator := h'.operator.trans h.operator

end Agree

section Reading

variable [DecidableEq Acc] [PalletAccounts Acc] [Decimal.Arith]
  {chain chain' : State Acc Auth W cfg}

omit [Ord Acc] in
-- The assets without fees are passed over.
theorem importTradingFees_congr {s : OffchainState Acc}
    (h : ∀ fees, message = some (.tradingFees fees) → ∀ asset ∈ fees, asset ∈ t' ↔ asset ∈ t) :
    s.importTradingFees t' message = s.importTradingFees t message := by
  match message with
  | none => rfl
  | some (.tradingFees fees) =>
    have hskip : ∀ asset, (decide (asset ∈ fees)) = false → ∀ s : OffchainState Acc,
        withdrawFees fees s asset = .ok s := by
      intro asset ha s
      simp [withdrawFees, Std.TreeMap.getElem?_eq_none (of_decide_eq_false ha)]
    have hfilter : t'.toList.filter (fun asset => decide (asset ∈ fees)) =
        t.toList.filter (fun asset => decide (asset ∈ fees)) :=
      Trees.filter_toList_congr fun asset ha => h fees rfl asset (of_decide_eq_true ha)
    simp only [importTradingFees]
    rw [← Except.foldlM_filter (fun asset _ => hskip asset), hfilter,
      Except.foldlM_filter (fun asset _ => hskip asset)]
  | some (.addLiquidityResult ..) | some (.removeLiquidityResult ..)
  | some (.removeLiquidityFailed ..) | some (.poolForceClosed ..) | some (.priceOracle ..) => rfl

omit [Ord Acc] in
theorem importMessage_congr (h : ∀ fees, engineMessages .withdrawTradingFees = some (.tradingFees fees) →
      ∀ asset ∈ fees, asset ∈ t' ↔ asset ∈ t) (acc : OffchainState Acc × List (EgressMessages Acc))
    (message : IngressMessages Acc) : OffchainState.importMessage t' engineMessages acc message =
      OffchainState.importMessage t engineMessages acc message := by
  cases message with
  | withdrawTradingFees => simp only [importMessage, importTradingFees_congr h]
  | _ => rfl

variable [Verify Acc Sign]

theorem settleTrade_congr {t : Trade Acc Sign}
    (h : (chain'.tradingPairs t.maker.pair).map TradingPairConfig.limits =
      (chain.tradingPairs t.maker.pair).map TradingPairConfig.limits) (s : OffchainState Acc) :
    settleTrade chain' s t = settleTrade chain s t := by
  have limits (config : TradingPairConfig) :
      s.processTrade t config {} {} = s.processTrade t config.limits {} {} := rfl
  simp only [settleTrade]
  cases hc : chain.tradingPairs t.maker.pair <;> cases hc' : chain'.tradingPairs t.maker.pair
  case none.none => rfl
  case some.some config config' =>
    simp only [hc, hc', Option.map_some, Option.some.injEq] at h
    exact (limits config').trans (h ▸ (limits config).symm)
  all_goals simp [hc, hc'] at h

variable [FromText] [OperatorKey Acc Sign]

theorem Agree.processBatch {batch : UserActionBatch Acc Sign}
    (h : Agree batch chain chain') (s : OffchainState Acc) (info : StateInfo) :
    Ocex.processBatch chain' s info batch = Ocex.processBatch chain s info batch := by
  have hactions (action : UserActions Acc Sign) (ha : action ∈ batch.actions)
      (b : BatchState Acc) : processAction chain' b action = processAction chain b action := by
    cases action with
    | trade ts =>
      have hts : trades chain' b.state ts = trades chain b.state ts := by
        refine Except.foldlM_congr (fun t ht s => settleTrade_congr (h.config _ ?_) s) b.state
        exact List.mem_flatMap.mpr ⟨_, ha, List.mem_map_of_mem ht⟩
      simp only [processAction, hts]
    | blockImport blk engineMessages prices =>
      have hblk : chain'.ingressMessages blk = chain.ingressMessages blk :=
        h.ingress blk (List.mem_flatMap.mpr ⟨_, ha, List.mem_cons_self⟩)
      have hmsg : ∀ acc message,
          importMessage chain'.allowlistedToken engineMessages acc message =
          importMessage chain.allowlistedToken engineMessages acc message :=
        importMessage_congr fun fees hf => h.allowlist fees
          (List.mem_flatMap.mpr ⟨_, ha, by simp [UserActions.fees, hf]⟩)
      simp only [processAction, importBlk, hblk]
      rw [Except.foldlM_congr (fun message _ acc => hmsg acc message)]
    | _ => rfl
  simp only [Ocex.processBatch]
  rw [Except.foldlM_congr hactions]

end Reading

-- A batch, and the state of the chain with which it is processed.
abbrev Input (Acc Auth Sign W : Type) [Ord Acc] (cfg : Config) :=
  State Acc Auth W cfg × UserActionBatch Acc Sign

section Runs

variable [DecidableEq Acc] [PalletAccounts Acc] [Decimal.Arith] [Verify Acc Sign]
  [FromText]

namespace Worker

def result (w : Worker Acc) (i : Input Acc Auth Sign W cfg) :
    Option (BatchState Acc) :=
  (processBatch i.1 w.state w.info i.2).toOption

def step (w : Worker Acc) (i : Input Acc Auth Sign W cfg) :
    Option (Worker Acc) :=
  (w.result i).map (commitBatch · i.2)

-- A list which every accepted batch contributes to, with the worker before the batch and its result.
def collect {α : Type} (f : Worker Acc → Input Acc Auth Sign W cfg →
    BatchState Acc → List α) :
    Worker Acc → List (Input Acc Auth Sign W cfg) → List α
  | _, [] => []
  | w, i :: is =>
    match w.result i with
    | none   => collect f w is
    | some b => f w i b ++ collect f (commitBatch b i.2) is

variable {α β : Type} {w : Worker Acc} {i : Input Acc Auth Sign W cfg}
  {is : List (Input Acc Auth Sign W cfg)} {b : BatchState Acc}
  {f : Worker Acc → Input Acc Auth Sign W cfg → BatchState Acc → List α}

theorem result_eq_some : w.result i = some b ↔ w.info.stid < i.2.stid ∧
    i.2.actions.foldlM (processAction i.1) { state := w.state, info := w.info } = .ok b := by
  rw [result, toOption_eq_some, processBatch, bind_eq_ok]
  by_cases hs : w.info.stid < i.2.stid <;> simp [check, hs]

theorem collect_map {h : β → α} (hf : ∀ w i b, w.result i = some b → f w i b = (g w i b).map h) :
    collect f w is = (collect g w is).map h := by
  induction is generalizing w with
  | nil => rfl
  | cons i is hi =>
    simp only [collect]
    cases hr : w.result i with
    | none => exact hi
    | some b => simp [hi, hf w i b hr]

theorem forall_mem_collect {p : α → Prop}
    (hf : ∀ w i b, w.result i = some b → ∀ a ∈ f w i b, p a) : ∀ a ∈ collect f w is, p a := by
  induction is generalizing w with
  | nil => simp [collect]
  | cons i is hi =>
    simp only [collect]
    cases hr : w.result i with
    | none => exact hi
    | some b =>
      intro a ha
      cases List.mem_append.mp ha with
      | inl ha => exact hf w i b hr a ha
      | inr ha => exact hi a ha

end Worker

end Runs

-- A withdrawal that was made for a request, and the states before and after it.
structure Execution (Acc Sign : Type) where
  request : WithdrawalRequest Acc Sign
  before : OffchainState Acc
  after : OffchainState Acc
  withdrawal : Withdrawal Acc

-- The request has decreased the balance of its account.
def Execution.Debits (e : Execution Acc Sign) : Prop :=
  e.after.getBalance e.request.main e.request.asset <
    e.before.getBalance e.request.main e.request.asset

instance (e : Execution Acc Sign) : Decidable e.Debits :=
  inferInstanceAs (Decidable (_ < _))

def WithdrawalRequest.signed (r : WithdrawalRequest Acc Sign) :
    WithdrawPayloadCallByUser × Sign :=
  (r.payload, r.signature)

-- The request of an action, with the number that its withdrawal gets.
def UserActions.request : UserActions Acc Sign →
    Option (WithdrawalRequest Acc Sign × ℕ)
  | .withdraw request        => some (request, 0)
  | .withdrawV1 request stid => some (request, stid)
  | _                        => none

def UserActionBatch.requests (batch : UserActionBatch Acc Sign) :
    List (WithdrawalRequest Acc Sign) :=
  batch.actions.filterMap fun action => action.request.map Prod.fst

section Generic

variable [DecidableEq Acc] [PalletAccounts Acc] [Decimal.Arith] [Verify Acc Sign]
  [FromText]

section Actions

variable {chain : State Acc Auth W cfg} {b b' : BatchState Acc}
  {action : UserActions Acc Sign} {actions : List (UserActions Acc Sign)}

def execute (s : OffchainState Acc) (r : WithdrawalRequest Acc Sign × ℕ) :
    Option (Execution Acc Sign) :=
  (Ocex.withdraw r.1 s r.2).toOption.map fun result => ⟨r.1, s, result.1, result.2⟩

def executions (chain : State Acc Auth W cfg) :
    BatchState Acc → List (UserActions Acc Sign) → List (Execution Acc Sign)
  | _, [] => []
  | b, action :: actions =>
    (action.request.bind (execute b.state)).toList ++
      (processAction chain b action).toOption.elim [] (executions chain · actions)

theorem execute_of_processAction (h : processAction chain b action = .ok b') :
    b'.withdrawals = b.withdrawals ++
      (action.request.bind (execute b.state)).toList.map (·.withdrawal) ∧
    (action.request.bind (execute b.state)).toList.map (·.request) =
      (action.request.map Prod.fst).toList := by
  cases action with
  | withdraw request | withdrawV1 request stid =>
    simp only [processAction, bind_eq_ok, pure_eq_ok] at h
    obtain ⟨⟨s', withdrawal⟩, hw, hb⟩ := h
    simp [UserActions.request, execute, hw, ← hb, Except.toOption]
  | trade | blockImport =>
    simp only [processAction, bind_eq_ok, pure_eq_ok] at h
    obtain ⟨_, _, hb⟩ := h
    simp [UserActions.request, ← hb]
  | reset | oneMinLMPReport =>
    cases h
    simp [UserActions.request]

theorem executions_of_foldlM (h : actions.foldlM (processAction chain) b = .ok b') :
    b'.withdrawals = b.withdrawals ++ (executions chain b actions).map (·.withdrawal) ∧
    (executions chain b actions).map (·.request) =
      actions.filterMap fun action => action.request.map Prod.fst := by
  induction actions generalizing b with
  | nil =>
    rw [foldlM_nil_eq_ok.mp h]
    simp [executions]
  | cons action actions hi =>
    obtain ⟨t, ht, h⟩ := foldlM_cons_eq_ok.mp h
    obtain ⟨hw, hr⟩ := execute_of_processAction ht
    obtain ⟨hw', hr'⟩ := hi h
    simp only [executions, ht, Except.toOption, Option.elim_some, List.map_append]
    refine ⟨by rw [hw', hw, List.append_assoc], ?_⟩
    rw [hr, hr']
    cases hreq : action.request <;> simp [hreq]

end Actions

namespace Worker

def executions (w : Worker Acc) (is : List (Input Acc Auth Sign W cfg)) :
    List (Execution Acc Sign) :=
  w.collect (fun w i _ => Ocex.executions i.1 { state := w.state, info := w.info } i.2.actions) is

def requests (w : Worker Acc) (is : List (Input Acc Auth Sign W cfg)) :
    List (WithdrawalRequest Acc Sign) :=
  w.collect (fun _ i _ => i.2.requests) is

def withdrawals (w : Worker Acc) (is : List (Input Acc Auth Sign W cfg)) :
    List (Withdrawal Acc) :=
  w.collect (fun _ _ b => b.withdrawals) is

variable {w : Worker Acc} {is : List (Input Acc Auth Sign W cfg)}

theorem withdrawals_eq : w.withdrawals is = (w.executions is).map (·.withdrawal) :=
  collect_map fun _ _ _ hr => by simpa using (executions_of_foldlM (result_eq_some.mp hr).2).1

theorem requests_eq : w.requests is = (w.executions is).map (·.request) :=
  collect_map fun _ _ _ hr => (executions_of_foldlM (result_eq_some.mp hr).2).2.symm

variable [DecidableEq Sign]

-- A signed request leads to one debit and one withdrawal at most.
def NoReplay (w : Worker Acc) (is : List (Input Acc Auth Sign W cfg)) : Prop :=
  ∀ signed, (w.executions is).countP (fun e => e.request.signed = signed ∧ e.Debits) ≤ 1 ∧
    (w.executions is).countP (fun e => e.request.signed = signed) ≤ 1

-- Nothing remembers the requests: they are replayed as often as the batches contain them.
theorem noReplay_iff (w : Worker Acc) (is : List (Input Acc Auth Sign W cfg)) :
    w.withdrawals is = (w.executions is).map (·.withdrawal) ∧
    (w.NoReplay is ↔ ((w.requests is).map WithdrawalRequest.signed).Nodup) := by
  refine ⟨withdrawals_eq, ?_⟩
  have hcount signed : (w.executions is).countP (fun e => e.request.signed = signed) =
      ((w.requests is).map WithdrawalRequest.signed).count signed := by
    simp [requests_eq, List.count, List.countP_map, Function.comp_def, beq_eq_decide]
  rw [List.nodup_iff_count_le_one]
  constructor
  · intro h signed
    exact hcount signed ▸ (h signed).2
  · intro h signed
    have hone := (hcount signed).trans_le (h signed)
    refine ⟨le_trans (List.countP_mono_left fun e _ he => ?_) hone, hone⟩
    simp only [decide_eq_true_eq] at he ⊢
    exact he.1

end Worker

end Generic

namespace Mock

attribute [local instance] Decimal.HalfEven.arith percent

def twoUnits : Worker Account where
  stored := .empty
  state := OffchainState.empty.setEntry 2 .polkadex two
  info := {}

def twice : List (Input Account ℕ Sig World config) :=
  [(unregistered, withdrawalBatch 2),
    (unregistered, { withdrawalBatch 2 with stid := 2, snapshotId := 2 })]

theorem withdrawal_replayed : (twoUnits.withdrawals twice).length = 2 ∧ ¬twoUnits.NoReplay twice := by
  refine ⟨by decide +kernel, fun h => ?_⟩
  have h := (h (request 2).signed).1
  revert h
  decide +kernel

end Mock

def Trade.orders (t : Trade Acc Sign) : List (Order Acc Sign) :=
  [t.maker, t.taker]

namespace Order

-- A market order to buy names the quantity that it pays. All others name the quantity of the base
-- asset.
def paysQuantity (o : Order Acc Sign) : Bool :=
  o.orderType = .market && o.side = .bid

def quantity (o : Order Acc Sign) : ℚ :=
  if o.paysQuantity then o.quoteOrderQty.toRat else o.qty.toRat

def executedBy (o : Order Acc Sign) (t : Trade Acc Sign) : ℚ :=
  if o.paysQuantity then t.price.toRat * t.amount.toRat else t.amount.toRat

def fill (o : Order Acc Sign) (ts : List (Trade Acc Sign)) : ℚ :=
  (ts.map fun t => (t.orders.countP fun o' => o'.id = o.id) * o.executedBy t).sum

def Accepts (o : Order Acc Sign) (price : Decimal) : Prop :=
  o.orderType = .limit →
    match o.side with
    | .bid => price ≤ o.price
    | .ask => o.price ≤ price

end Order

-- What is expected of a trade by itself.
structure Trade.Fair (t : Trade Acc Sign) : Prop where
  sides : t.maker.side ≠ t.taker.side
  amount_pos : 0 < t.amount
  price_pos : 0 < t.price
  limits : ∀ o ∈ t.orders, o.Accepts t.price

-- The trades were made according to the orders that were signed.
structure Respected [Verify Acc Sign] (ts : List (Trade Acc Sign)) : Prop where
  signed : ∀ t ∈ ts, ∀ o ∈ t.orders, o.verifySignature
  pair : ∀ t ∈ ts, t.maker.pair = t.taker.pair
  fair : ∀ t ∈ ts, t.Fair
  filled : ∀ t ∈ ts, ∀ o ∈ t.orders, o.fill ts ≤ o.quantity

-- The trade is fair, and what it executes is still left of all orders with one of its identifiers,
-- after the trades before it.
structure Trade.Admissible (before : List (Trade Acc Sign))
    (t : Trade Acc Sign) : Prop where
  fair : t.Fair
  left : ∀ t' ∈ before ++ [t], ∀ o ∈ t'.orders, o.id ∈ t.orders.map (·.id) →
    o.fill before + o.fill [t] ≤ o.quantity

section Fill

variable {o : Order Acc Sign} {t : Trade Acc Sign}
  {ts ts' : List (Trade Acc Sign)}

omit [Ord Acc]

theorem Order.fill_append : o.fill (ts ++ ts') = o.fill ts + o.fill ts' := by
  simp [fill]

theorem Order.fill_nonneg (h : ∀ t ∈ ts, t.Fair) : 0 ≤ o.fill ts := by
  refine List.sum_nonneg fun q hq => ?_
  obtain ⟨t, ht, hq⟩ := List.mem_map.mp hq
  have ha := Decimal.lt_iff.mp (h t ht).amount_pos
  have hp := Decimal.lt_iff.mp (h t ht).price_pos
  rw [Decimal.toRat_zero] at ha hp
  rw [← hq, executedBy]
  split_ifs <;> positivity

theorem Order.fill_eq_zero (h : o.id ∉ t.orders.map (·.id)) : o.fill [t] = 0 := by
  have hcount : (t.orders.countP fun o' => o'.id = o.id) = 0 := by
    rw [List.countP_eq_zero]
    intro o' ho' he
    exact h (List.mem_map.mpr ⟨o', ho', by simpa using he⟩)
  simp [fill, hcount]

theorem filled_append (hi : ∀ t ∈ ts, ∀ o ∈ t.orders, o.fill ts ≤ o.quantity)
    (ht : t.Admissible ts) : ∀ t' ∈ ts ++ [t], ∀ o ∈ t'.orders, o.fill (ts ++ [t]) ≤ o.quantity := by
  intro t' ht' o ho
  rw [Order.fill_append]
  by_cases hid : o.id ∈ t.orders.map (·.id)
  case pos => exact ht.left t' ht' o ho hid
  case neg =>
    have hmem : t' ∈ ts := by
      cases List.mem_append.mp ht' with
      | inl h => exact h
      | inr h => exact absurd (List.mem_map_of_mem (List.mem_singleton.mp h ▸ ho)) hid
    rw [Order.fill_eq_zero hid, add_zero]
    exact hi t' hmem o ho

theorem filled_of_admissible
    (h : ∀ before t after, ts = before ++ t :: after → t.Admissible before) :
    ∀ t ∈ ts, ∀ o ∈ t.orders, o.fill ts ≤ o.quantity := by
  induction ts using List.reverseRecOn with
  | nil => simp
  | append_singleton ts t hi =>
    refine filled_append (hi fun before t' after hts => ?_) (h ts t [] rfl)
    exact h before t' (after ++ [t]) (by simp [hts])

theorem admissible_of_filled (hf : ∀ t ∈ ts, t.Fair) (h : ∀ t ∈ ts, ∀ o ∈ t.orders, o.fill ts ≤ o.quantity)
 (hts : ts = before ++ t :: after) : t.Admissible before := by
  subst hts
  refine ⟨hf t (by simp), fun t' ht' o ho _ => ?_⟩
  have hle := h t' (by simp at ht' ⊢; grind) o ho
  have hafter : 0 ≤ o.fill after := Order.fill_nonneg fun t ht => hf t (by simp [ht])
  rw [List.append_cons, Order.fill_append, Order.fill_append] at hle
  linarith

end Fill

section Generic

variable [DecidableEq Acc] [PalletAccounts Acc] [Decimal.Arith] [Verify Acc Sign]
  [FromText]

def UserActionBatch.trades (batch : UserActionBatch Acc Sign) :
    List (Trade Acc Sign) :=
  batch.actions.flatMap fun
    | .trade ts => ts
    | _         => []

def Worker.trades (w : Worker Acc) (is : List (Input Acc Auth Sign W cfg)) :
    List (Trade Acc Sign) :=
  w.collect (fun _ i _ => i.2.trades) is

namespace Worker

variable {w : Worker Acc} {is : List (Input Acc Auth Sign W cfg)}

theorem verified_of_mem_trades : ∀ t ∈ w.trades is, ∃ config, t.verify config = .ok true := by
  refine forall_mem_collect fun w i b hr t ht => ?_
  obtain ⟨action, ha, ht⟩ := List.mem_flatMap.mp ht
  cases action with
  | trade ts =>
    obtain ⟨_, _, ho⟩ := exists_occurs (result_eq_some.mp hr).2 ha (List.mem_map_of_mem ht)
    cases ho with
    | trade _ _ _ h =>
      obtain ⟨config, _, hv, _⟩ := settleTrade_eq_ok h
      exact ⟨config, hv⟩
  | _ => simp at ht

end Worker

end Generic

namespace Mock

attribute [local instance] Decimal.HalfEven.arith percent

def tradeOf : Trade Account Sig where
  maker := { order 2 .ask with id := 1 }
  taker := { order 3 .bid with id := 2 }
  price := 1
  amount := 1

def twoTrades : UserActionBatch Account Sig where
  actions := [.trade [tradeOf, tradeOf]]
  stid := 1
  snapshotId := 1
  signature := (0, .withdrawal ⟨.polkadex, "1", 0, none⟩)

def marketOpen : State Account ℕ World config :=
  { State.genesis [] fun _ _ => 0 with
    tradingPairs := fun p => if p = pair then some (.ofPair pair.base pair.quote) else none }

def wealthy : Worker Account where
  stored := .empty
  state := OffchainState.empty
    |>.setEntry 2 pair.base two
    |>.setEntry 3 pair.quote two
  info := {}

end Mock

end Ocex
