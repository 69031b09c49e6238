import PolkadexModel.StakingMigrate.Sweep

open List

namespace StakingMigrate

variable {Acc : Type}

section Chain

theorem included_append (c₁ c₂ : List (Block Acc)) : included (c₁ ++ c₂) = included c₁ ++ included c₂ :=
  flatMap_append

namespace Admissible

variable {firstNonce : ℕ} {c₁ c₂ : List (Block Acc)}

theorem nonces_right (h : Admissible firstNonce (c₁ ++ c₂)) :
    (included c₂).map Extrinsic.nonce =
      List.range' (firstNonce + (included c₁).length) (included c₂).length := by
  have hnonces := h.nonces
  rw [included_append, map_append, length_append, ← range'_append_1] at hnonces
  exact (append_inj hnonces (by simp)).2

theorem nonces_left (h : Admissible firstNonce (c₁ ++ c₂)) :
    (included c₁).map Extrinsic.nonce = List.range' firstNonce (included c₁).length := by
  have hnonces := h.nonces
  rw [included_append, map_append, length_append, ← range'_append_1] at hnonces
  exact (append_inj hnonces (by simp)).1

theorem era_right (h : Admissible firstNonce (c₁ ++ c₂)) (hxt : xt ∈ included c₂) :
    c₁.length < xt.birth + mortalPeriod := by
  obtain ⟨b, hb, hxt⟩ := mem_flatMap.1 hxt
  obtain ⟨i, hi, rfl⟩ := mem_iff_getElem.1 hb
  have hvalid := h.eras (c₂[i], c₁.length + i) (by
    rw [mem_zipIdx_iff_getElem?]
    simp [hi]) xt hxt
  have := hvalid.2
  omega

end Admissible

end Chain

namespace Node

variable {node node' node'' : Node Acc} {xt : Extrinsic Acc}

def finalizedNonce (node : Node Acc) : ℕ :=
  node.firstNonce + (included node.finalizedChain).length

-- What is final stays so.
structure Extends (node node' : Node Acc) : Prop where
  firstNonce : node'.firstNonce = node.firstNonce
  stable : node.finalizedChain <+: node'.finalizedChain

theorem Extends.refl (node : Node Acc) : node.Extends node :=
  ⟨rfl, prefix_rfl⟩

theorem Extends.trans (h₁ : node.Extends node') (h₂ : node'.Extends node'') : node.Extends node'' :=
  ⟨h₂.firstNonce.trans h₁.firstNonce, h₁.stable.trans h₂.stable⟩

theorem extends_accept (node : Node Acc) (xt : Extrinsic Acc) : node.Extends (node.accept xt) :=
  ⟨rfl, prefix_rfl⟩

theorem length_finalizedChain (node : Node Acc) : node.finalizedChain.length = node.finalized + 1 := by
  have := node.finalized_lt
  simp only [finalizedChain, length_take]
  omega

theorem admissible_finalizedChain (node : Node Acc) :
    Admissible node.firstNonce (node.finalizedChain ++ node.chain.drop (node.finalized + 1)) := by
  rw [finalizedChain, take_append_drop]
  exact node.admissible

theorem nodup_nonces (node : Node Acc) : ((included node.finalizedChain).map Extrinsic.nonce).Nodup := by
  rw [node.admissible_finalizedChain.nonces_left]
  exact nodup_range'

-- An extrinsic that is final later either is so now, or still has a nonce and an era to come.
theorem mem_included_of_extends (h : node.Extends node') (hxt : xt ∈ included node'.finalizedChain) :
    xt ∈ included node.finalizedChain ∨
      node.finalizedNonce ≤ xt.nonce ∧ node.finalized + 1 < xt.birth + mortalPeriod := by
  obtain ⟨rest, hrest⟩ := h.stable
  have hadmissible := node'.admissible_finalizedChain
  rw [← hrest, append_assoc] at hadmissible
  rw [← hrest, included_append, mem_append] at hxt
  refine hxt.imp id fun hxt => ?_
  have hmem : xt ∈ included (rest ++ node'.chain.drop (node'.finalized + 1)) := by
    rw [included_append, mem_append]
    exact .inl hxt
  constructor
  case left =>
    have hnonce := mem_map_of_mem (f := Extrinsic.nonce) hmem
    rw [hadmissible.nonces_right, mem_range'_1] at hnonce
    rw [finalizedNonce, ← h.firstNonce]
    exact hnonce.1
  case right =>
    rw [← node.length_finalizedChain]
    exact hadmissible.era_right hmem

-- An extrinsic that is not final and can never be: its era is over, or its nonce is taken for good.
structure Dead (node : Node Acc) (xt : Extrinsic Acc) : Prop where
  not_included : xt ∉ included node.finalizedChain
  gone : xt.nonce < node.finalizedNonce ∨ xt.birth + mortalPeriod ≤ node.finalized + 1

theorem Dead.not_mem (h : node.Dead xt) (hext : node.Extends node') : xt ∉ included node'.finalizedChain := by
  intro hmem
  rcases mem_included_of_extends hext hmem with hmem | ⟨hnonce, hera⟩
  · exact h.not_included hmem
  · have := h.gone
    omega

theorem Dead.of_extends (h : node.Dead xt) (hext : node.Extends node') : node'.Dead xt := by
  refine ⟨h.not_mem hext, h.gone.imp (fun hnonce => ?_) fun hera => ?_⟩
  · obtain ⟨rest, hrest⟩ := hext.stable
    rw [finalizedNonce, ← hrest, included_append, length_append, hext.firstNonce]
    exact Nat.lt_of_lt_of_le hnonce (by rw [finalizedNonce]; omega)
  · have hlength := hext.stable.length_le
    rw [length_finalizedChain, length_finalizedChain] at hlength
    omega

instance [DecidableEq Acc] (node : Node Acc) (xt : Extrinsic Acc) : Decidable (node.Dead xt) :=
  decidable_of_iff (_ ∧ _) ⟨fun h => ⟨h.1, h.2⟩, fun h => ⟨h.not_included, h.gone⟩⟩

variable [DecidableEq Acc]

theorem extends_step (h : node.step e = some node') : node.Extends node' := by
  cases e with
  | adopt keep blocks =>
    simp only [step] at h
    split_ifs at h with hadopt
    cases h
    refine ⟨rfl, ?_⟩
    have hlt := node.finalized_lt
    have hkeep : node.finalized + 1 ≤ (node.chain.take keep).length := by
      simp only [length_take]
      omega
    refine ⟨[], ?_⟩
    simp only [finalizedChain, append_nil]
    rw [take_append_of_le_length hkeep, take_take, min_eq_left (by omega)]
  | finalize n =>
    simp only [step] at h
    split_ifs at h with hfinalize
    cases h
    exact ⟨rfl, take_prefix_take_left (Nat.succ_le_succ hfinalize.1)⟩
  | pool ready =>
    simp only [step] at h
    split_ifs at h
    cases h
    exact ⟨rfl, prefix_rfl⟩

theorem extends_run (node : Node Acc) (events : List (Event Acc)) : node.Extends (node.run events) := by
  induction events generalizing node with
  | nil => exact .refl node
  | cons e events ih =>
    refine .trans ?_ (ih _)
    rcases Run.exec_cases step node e with h | ⟨-, h⟩
    · exact extends_step h
    · rw [h]
      exact .refl node

end Node

-- The finalized extrinsics that the pass sent for a stash.
def landed [DecidableEq Acc] (node : Node Acc) (sent : List (Acc × Extrinsic Acc))
    (st : Acc) : List (Extrinsic Acc) :=
  (included node.finalizedChain).filter fun xt => (st, xt) ∈ sent

-- No two calls sent for a stash can both become final.
def Apart (node : Node Acc) (sent : List (Acc × Extrinsic Acc)) : Prop :=
  ∀ p ∈ sent, ∀ q ∈ sent, p.1 = q.1 → p.2.nonce = q.2.nonce ∨ node.Dead p.2 ∨ node.Dead q.2

namespace Apart

variable {node node' : Node Acc} {sent : List (Acc × Extrinsic Acc)}

theorem of_extends (h : Apart node sent) (hext : node.Extends node') : Apart node' sent :=
  fun p hp q hq hst => (h p hp q hq hst).imp id (Or.imp (·.of_extends hext) (·.of_extends hext))

-- New calls, each for another stash, stay apart if each of them takes the nonces of the earlier calls that can
-- still land.
theorem append (h : Apart node sent) (hnodup : (new.map Prod.fst).Nodup)
    (hnew : ∀ p ∈ sent, ∀ q ∈ new, p.1 = q.1 → p.2.nonce = q.2.nonce ∨ node.Dead p.2) :
    Apart node (sent ++ new) := by
  intro p hp q hq hst
  rcases mem_append.1 hp with hp | hp <;> rcases mem_append.1 hq with hq | hq
  · exact h p hp q hq hst
  · exact (hnew p hp q hq hst).imp id .inl
  · exact (hnew q hq p hp hst.symm).imp Eq.symm .inr
  · exact .inl (congrArg (·.2.nonce) (inj_on_of_nodup_map hnodup hp hq hst))

theorem length_landed_le [DecidableEq Acc] (h : Apart node sent) (st : Acc) :
    (landed node sent st).length ≤ 1 := by
  have hnodup : ((landed node sent st).map Extrinsic.nonce).Nodup :=
    .sublist (filter_sublist.map _) node.nodup_nonces
  have hsame : ∀ xt ∈ landed node sent st, ∀ xt' ∈ landed node sent st, xt.nonce = xt'.nonce := by
    intro xt hxt xt' hxt'
    simp only [landed, mem_filter, decide_eq_true_eq] at hxt hxt'
    rcases h _ hxt.2 _ hxt'.2 rfl with heq | hdead | hdead
    · exact heq
    · exact absurd hxt.1 hdead.not_included
    · exact absurd hxt'.1 hdead.not_included
  cases hl : landed node sent st with
  | nil => simp
  | cons xt l =>
    cases l with
    | nil => simp
    | cons xt' l =>
      have heq := hsame xt (by simp [hl]) xt' (by simp [hl])
      simp [hl, heq] at hnodup

end Apart

-- The calls sent before for the stashes of the query have the nonce that the node now gives, or are dead.
def Query.Safe (q : Query Acc) : Prop :=
  ∀ p ∈ q.sent, p.1 ∈ q.stashes → p.2.nonce = q.node.nextIndex ∨ q.node.Dead p.2

instance [DecidableEq Acc] (q : Query Acc) : Decidable q.Safe :=
  inferInstanceAs (Decidable (∀ p ∈ q.sent, p.1 ∈ q.stashes → _ ∨ _))

namespace World

-- The node goes on, and nothing is sent.
structure Waits (w w' : World Acc) : Prop where
  node : w.node.Extends w'.node
  sent : w'.sent = w.sent
  queries : w'.queries = w.queries

instance : IsPreorder (World Acc) Waits where
  refl _ := ⟨.refl _, rfl, rfl⟩
  trans _ _ _ h₁ h₂ := ⟨h₁.node.trans h₂.node, h₂.sent.trans h₁.sent, h₂.queries.trans h₁.queries⟩

-- The calls of the pass are apart, as long as its queries were safe.
def Good (w : World Acc) : Prop :=
  (∀ q ∈ w.queries, q.Safe) → Apart w.node w.sent

theorem Good.of_waits {w w' : World Acc} (h : w.Good) (hw : w.Waits w') : w'.Good := by
  intro hsafe
  rw [hw.queries] at hsafe
  rw [hw.sent]
  exact (h hsafe).of_extends hw.node

end World

open Prog

section Waiting

theorem waits_update (f : Sweep Acc → Sweep Acc) :
    Keeps World.Waits (modify (World.update f) : SweepM Acc _) :=
  .write fun _ => ⟨.refl _, rfl, rfl⟩

variable [DecidableEq Acc]

theorem waits_request : Keeps World.Waits (request : SweepM Acc _) := by
  refine Keeps.read.andThen fun w => ?_
  cases w.schedule with
  | nil => exact .stop _
  | cons turn schedule =>
    exact (Keeps.write fun w => ⟨w.node.extends_run turn.events, rfl, rfl⟩).andThen fun _ => .ret _

theorem waits_reading {α : Type} (f : World Acc → α) :
    Keeps World.Waits (do let _ ← request; return f (← get)) :=
  waits_request.andThen fun _ => Keeps.read.andThen fun _ => .ret _

theorem waits_best : Keeps World.Waits (best : SweepM Acc ℕ) :=
  waits_reading _

theorem waits_finalized : Keeps World.Waits (finalized : SweepM Acc ℕ) :=
  waits_reading _

theorem waits_blockAt (n : ℕ) : Keeps World.Waits (blockAt n : SweepM Acc _) :=
  waits_reading _

theorem waits_pool : Keeps World.Waits (pool : SweepM Acc _) :=
  waits_reading _

theorem waits_takeBlocks (fin k m : ℕ) (found : List (Row Acc)) :
    Keeps World.Waits (takeBlocks fin k m found) := by
  induction k generalizing m found with
  | zero => exact .ret _
  | succ k ih =>
    refine .branch ((waits_blockAt m).andThen fun b => .andThen ?_ fun found => ih (m + 1) found) (.ret _)
    exact Keeps.read.andThen fun _ => (waits_update _).andThen fun _ => .ret _

theorem waits_scanFinalized : Keeps World.Waits (scanFinalized : SweepM Acc Unit) := by
  refine waits_finalized.andThen fun fin => Keeps.read.andThen fun w => ?_
  cases w.sweep.finScanned with
  | none => exact .stop _
  | some scanned =>
    refine (waits_takeBlocks ..).andThen fun found => (waits_update _).andThen fun _ => ?_
    exact .each (fun _ => waits_update _) found

theorem waits_stopAtDeadline {α : Type} (why : String) : Keeps World.Waits (stopAtDeadline why : SweepM Acc α) := by
  refine Keeps.read.andThen fun w => .branch (waits_scanFinalized.andThen fun _ => ?_) ?_ <;>
    refine waits_best.andThen fun _ => Keeps.read.andThen fun w => ?_ <;>
    exact .andThen (.each (fun _ => waits_update _) _) fun _ => .stop _

omit [DecidableEq Acc] in
theorem waits_sleep (seconds : ℕ) : Keeps World.Waits (modify (World.sleep seconds) : SweepM Acc _) :=
  .write fun _ => ⟨.refl _, rfl, rfl⟩

theorem waits_beforeDeadline {β : Type} (deadline : ℕ) (why : String) (seconds : ℕ) (b : β) :
    Keeps World.Waits (beforeDeadline deadline why seconds b : SweepM Acc β) :=
  Keeps.read.andThen fun _ => .branch (waits_stopAtDeadline why) ((waits_sleep seconds).andThen fun _ => .ret b)

theorem waits_scanTo (n k : ℕ) (s : Scan Acc) : Keeps World.Waits (scanTo n k s) := by
  induction k generalizing s with
  | zero => exact .ret s
  | succ k ih => exact .branch ((waits_blockAt s.n).andThen fun b => ih _) (.ret s)

omit [DecidableEq Acc] in
theorem waits_loop {α β : Type} {body : α → SweepM Acc (α ⊕ β)} (h : ∀ a, Keeps World.Waits (body a)) (a : α) :
    Keeps World.Waits (loop body a) :=
  Keeps.read.andThen fun _ => .loop h _ a

theorem waits_waitInclusion (txs : List (Tx Acc)) (from_n deadline : ℕ) :
    Keeps World.Waits (waitInclusion txs from_n deadline) := by
  refine waits_loop (fun s => .branch (.ret _) (waits_best.andThen fun n => ?_)) _
  refine (waits_scanTo ..).andThen fun s => .branch (.ret _) (.branch ?_ (waits_beforeDeadline ..))
  exact waits_pool.andThen fun _ => .branch (waits_beforeDeadline ..) (.ret _)

theorem waits_waitFinality (n deadline : ℕ) : Keeps World.Waits (waitFinality n deadline : SweepM Acc ℕ) :=
  waits_loop (fun _ => waits_finalized.andThen fun _ => .branch (.ret _) (waits_beforeDeadline ..)) _

theorem waits_settle (txs : List (Tx Acc)) (from_n : ℕ) : Keeps World.Waits (settle txs from_n) := by
  refine Keeps.read.andThen fun _ => (waits_waitInclusion ..).andThen fun _ => ?_
  refine (waits_waitFinality ..).andThen fun _ => waits_scanFinalized.andThen fun _ => ?_
  exact Keeps.read.andThen fun _ => .ret _

theorem waits_stillNeeded (stashes : List Acc) : Keeps World.Waits (stillNeeded stashes) := by
  refine waits_best.andThen fun n => (waits_blockAt n).andThen fun b => Keeps.read.andThen fun w => ?_
  cases w.sweep.kind <;> exact .ret _

omit [DecidableEq Acc] in
theorem waits_skip (why : Kind → String) (st : Acc) : Keeps World.Waits (skip why st) :=
  Keeps.read.andThen fun _ => waits_update _

end Waiting

section Sending

theorem map_fst_zip_eq_take {α β : Type} (l : List α) (l' : List β) :
    (l.zip l').map Prod.fst = l.take l'.length := by
  rw [zip_eq_zip_take_min, map_fst_zip (by simp), min_comm, ← take_eq_take_min]

-- What a query and the calls sent after it have added: for the first stashes, with consecutive nonces.
structure Sends (stashes : List Acc) (q : Query Acc) (xts : List (Extrinsic Acc))
    (w w' : World Acc) : Prop where
  before : w.node.Extends q.node
  after : q.node.Extends w'.node
  earlier : q.sent = w.sent
  queries : w'.queries = w.queries ++ [q]
  sent : w'.sent = w.sent ++ stashes.zip xts
  nonces : xts.map Extrinsic.nonce = List.range' q.node.nextIndex xts.length

namespace Sends

variable {stashes : List Acc} {q : Query Acc} {xts : List (Extrinsic Acc)}
variable {w w' w'' : World Acc}

theorem andWaits (h : Sends stashes q xts w w') (hw : w'.Waits w'') : Sends stashes q xts w w'' where
  before := h.before
  after := h.after.trans hw.node
  earlier := h.earlier
  queries := hw.queries.trans h.queries
  sent := hw.sent.trans h.sent
  nonces := h.nonces

theorem andSubmit (h : Sends stashes q xts w w') (hlength : stashes.length = xts.length)
 (hnonce : xt.nonce = q.node.nextIndex + xts.length) :
    Sends (stashes ++ [st]) q (xts ++ [xt]) w (w'.submit st xt)  where
  before := h.before
  after := h.after.trans (w'.node.extends_accept xt)
  earlier := h.earlier
  queries := h.queries
  sent := by
    rw [World.submit, h.sent, append_assoc, zip_append hlength]
    rfl
  nonces := by
    rw [map_append, h.nonces, length_append, length_singleton, range'_1_concat]
    simp [hnonce]

theorem extend (h : Sends stashes q xts w w') (hlength : stashes.length = xts.length) (rest : List Acc) :
    Sends (stashes ++ rest) q xts w w' := by
  have hzip : (stashes ++ rest).zip xts = stashes.zip xts := by
    rw [← append_nil xts, zip_append hlength]
    simp
  exact { h with sent := by rw [hzip, h.sent] }

theorem mem_stashes (h : Sends stashes q xts w w') (hp : p ∈ w'.sent) :
    p ∈ w.sent ∨ p.1 ∈ stashes.take xts.length := by
  rw [h.sent, mem_append] at hp
  refine hp.imp id fun hp => ?_
  have hmem := mem_map_of_mem (f := Prod.fst) hp
  rwa [map_fst_zip_eq_take] at hmem

-- The calls stay apart if the earlier ones for the same stashes have the nonces of the new ones or are dead.
theorem good (h : Sends stashes q xts w w') (hnodup : stashes.Nodup)
    (hnew : q.Safe → ∀ p ∈ w.sent, ∀ p' ∈ stashes.zip xts, p.1 = p'.1 →
      p.2.nonce = p'.2.nonce ∨ q.node.Dead p.2) (hgood : w.Good) : w'.Good := by
  intro hsafe
  rw [h.queries] at hsafe
  have hold : Apart w'.node w.sent :=
    (hgood fun q hq => hsafe q (mem_append_left _ hq)).of_extends (h.before.trans h.after)
  rw [h.sent]
  refine hold.append ?_ fun p hp p' hp' hst => ?_
  · rw [map_fst_zip_eq_take]
    exact hnodup.sublist (take_sublist ..)
  · exact (hnew (hsafe q (by simp)) p hp p' hp' hst).imp id (·.of_extends h.after)

end Sends

-- What `send` returns: the calls that were not rejected, for the first stashes.
structure Returns (stashes : List Acc) (xts : List (Extrinsic Acc))
    (r : List (Tx Acc) × Option Acc) : Prop where
  stashes_eq : r.1.map (·.stash) = stashes.take xts.length
  length_eq : r.1.length = xts.length
  all : r.2 = none → xts.length = stashes.length

theorem Returns.of_done {done rest : List Acc} {xts : List (Extrinsic Acc)} {txs : List (Tx Acc)}
    {rejected : Option Acc} (hlength : done.length = xts.length) (htxs : txs.map (·.stash) = done)
    (hall : rejected = none → rest = []) : Returns (done ++ rest) xts (txs, rejected) where
  stashes_eq := by simp [htxs, ← hlength]
  length_eq := by rw [← hlength, ← htxs, length_map]
  all h := by simp [hall h, hlength]

variable [DecidableEq Acc]

-- The loop of `send`, after the calls `xts` for the stashes `done`.
theorem sendEach_spec (attempt birth : ℕ) (w₀ : World Acc) (q : Query Acc)
    (stashes done : List Acc) (xts : List (Extrinsic Acc)) (txs : List (Tx Acc))
    (hlength : done.length = xts.length) (htxs : txs.map (·.stash) = done) :
    Meets (Sends done q xts w₀) (sendEach attempt birth stashes (q.node.nextIndex + xts.length) txs)
      (fun r w => ∃ xts, Sends (done ++ stashes) q xts w₀ w ∧ Returns (done ++ stashes) xts r)
      (fun w => ∃ xts, Sends (done ++ stashes) q xts w₀ w) := by
  induction stashes generalizing done xts txs with
  | nil => exact .ret fun w h => ⟨xts, h.extend hlength [], .of_done hlength htxs fun _ => rfl⟩
  | cons st stashes ih =>
    have hstop : ∀ w, Sends done q xts w₀ w → ∃ xts, Sends (done ++ st :: stashes) q xts w₀ w :=
      fun w h => ⟨xts, h.extend hlength _⟩
    refine .andThen (.read fun w h => h) fun w => ?_
    dsimp only
    cases w.sweep.call st with
    | none => exact .stop hstop
    | some call =>
      refine (waits_request.stays (fun _ _ h hw => h.andWaits hw) hstop).andThen fun turn => ?_
      refine .branch (fun _ => .ret fun w h => ⟨xts, h.extend hlength _, ?_⟩) fun _ => ?_
      · exact .of_done hlength htxs fun h => by cases h
      generalize hxt : (⟨call, q.node.nextIndex + xts.length, birth, turn.signature⟩ : Extrinsic Acc) = xt
      have hnonce : xt.nonce = q.node.nextIndex + xts.length := by rw [← hxt]
      have hlength' : (done ++ [st]).length = (xts ++ [xt]).length := by simp [hlength]
      rw [append_cons done st stashes]
      refine Meets.andThen (Q := fun _ => Sends (done ++ [st]) q (xts ++ [xt]) w₀)
        (.write fun w h => h.andSubmit hlength hnonce) fun _ => ?_
      cases turn.answer.fault xt with
      | some stop => exact .stop fun w h => ⟨_, h.extend hlength' stashes⟩
      | none =>
        refine Meets.andThen (Q := fun _ => Sends (done ++ [st]) q (xts ++ [xt]) w₀)
          ((waits_update _).stays (fun _ _ h hw => h.andWaits hw) fun w h => ⟨_, h.extend hlength' stashes⟩) fun _ => ?_
        have hnext : q.node.nextIndex + xts.length + 1 = q.node.nextIndex + (xts ++ [xt]).length := by
          simp [Nat.add_assoc]
        rw [hnext]
        refine ih (done ++ [st]) (xts ++ [xt]) _ hlength' ?_
        rw [map_append, htxs, map_singleton]

theorem nextIndex_spec (stashes : List Acc) (attempt : ℕ) (w₀ : World Acc) :
    Meets w₀.Waits (nextIndex stashes attempt)
      (fun n w => ∃ q, (q.stashes = stashes ∧ n = q.node.nextIndex) ∧ Sends [] q [] w₀ w) w₀.Waits := by
  refine (waits_request.meets w₀).andThen fun _ => ?_
  refine Meets.andThen (Q := fun _ w => ∃ q, (q.stashes = stashes ∧ w.node = q.node) ∧ Sends [] q [] w₀ w)
    (.write fun w hw => ?_) fun _ => ?_
  · refine ⟨⟨stashes, attempt, w.node, w.sent⟩, ⟨rfl, rfl⟩, hw.node, .refl _, hw.sent, ?_, ?_, rfl⟩
    · rw [World.ask, hw.queries]
    · simp [World.ask, hw.sent]
  · refine .readThen fun w => .ret fun _ h => ?_
    obtain ⟨rfl, q, ⟨hq, hnode⟩, hsends⟩ := h
    exact ⟨q, ⟨hq, by rw [hnode]⟩, hsends⟩

theorem send_spec (stashes : List Acc) (attempt : ℕ) (w₀ : World Acc) :
    Meets w₀.Waits (send stashes attempt)
      (fun r w => ∃ q xts, q.stashes = stashes ∧ Sends stashes q xts w₀ w ∧ Returns stashes xts r)
      (fun w => w₀.Waits w ∨ ∃ q xts, q.stashes = stashes ∧ Sends stashes q xts w₀ w) := by
  refine (waits_finalized.stays (fun _ _ => Trans.trans) fun _ => .inl).andThen fun birth => ?_
  refine ((nextIndex_spec stashes attempt w₀).weaken (fun _ h => h) (fun _ _ h => h) fun _ => .inl).andThen fun n => ?_
  refine .some fun q => .given fun hq => ?_
  have hsend := sendEach_spec attempt birth w₀ q stashes [] [] [] rfl rfl
  rw [length_nil, Nat.add_zero, ← hq.2, nil_append] at hsend
  refine hsend.weaken (fun _ h => h) (fun r w h => ?_) fun w h => ?_
  · obtain ⟨xts, h, hr⟩ := h
    exact ⟨q, xts, hq.1, h, hr⟩
  · obtain ⟨xts, h⟩ := h
    exact .inr ⟨q, xts, hq.1, h⟩

end Sending

section Passes

-- What sending again for one stash does: the calls stay apart if the queries are safe.
structure Resends (st : Acc) (w w' : World Acc) : Prop where
  sent : ∀ p ∈ w'.sent, p ∈ w.sent ∨ p.1 = st
  good : w.Good → w'.Good

instance (st : Acc) : IsPreorder (World Acc) (Resends st) where
  refl _ := ⟨fun _ => .inl, id⟩
  trans _ _ _ h₁ h₂ := ⟨fun p hp => (h₂.sent p hp).elim (h₁.sent p) .inr, h₂.good ∘ h₁.good⟩

theorem resends_of_waits {st : Acc} (h : w.Waits w') : Resends st w w' :=
  ⟨fun _ hp => .inl (h.sent ▸ hp), (·.of_waits h)⟩

theorem resends_of_sends {st : Acc}
 (hq : q.stashes = [st]) (h : Sends [st] q xts w w') : Resends st w w'  where
  sent p hp := (h.mem_stashes hp).imp id fun hp => mem_singleton.1 (mem_of_mem_take hp)
  good := h.good (nodup_singleton st) fun hsafe p hp p' hp' hst => by
    -- the one new call has the nonce of the query
    obtain ⟨hst', hxt⟩ : p'.1 = st ∧ p'.2.nonce = q.node.nextIndex := by
      have hnonces := h.nonces
      cases xts with
      | nil => simp at hp'
      | cons xt xts =>
        simp only [zip_cons_cons, zip_nil_left, mem_singleton] at hp'
        simp only [map_cons, length_cons, range'_succ, cons.injEq] at hnonces
        exact ⟨by rw [hp'], by rw [hp']; exact hnonces.1⟩
    have hold := hsafe p (h.earlier ▸ hp) (by rw [hq, hst, hst']; simp)
    rwa [hxt]

theorem resends_of_keeps {α : Type} {m : SweepM Acc α} (h : Keeps World.Waits m) : Keeps (Resends st) m :=
  h.mono fun _ _ => resends_of_waits

variable [DecidableEq Acc]

theorem resends_send (st : Acc) (attempt : ℕ) : Keeps (Resends st) (send [st] attempt) := by
  refine ⟨fun w₀ => ⟨fun {w _ _} hw he => ?_, fun {w _ _} hw he => ?_⟩⟩
  · obtain ⟨q, xts, hq, h, -⟩ := (send_spec [st] attempt w).returns (refl w) he
    exact trans_of (Resends st) hw (resends_of_sends hq h)
  · rcases (send_spec [st] attempt w).stops (refl w) he with h | ⟨q, xts, hq, h⟩
    · exact trans_of (Resends st) hw (resends_of_waits h)
    · exact trans_of (Resends st) hw (resends_of_sends hq h)

theorem resends_resubmit (t : Tx Acc) : Keeps (Resends t.stash) (resubmit t) := by
  refine .andThen (Keeps.read.andThen fun _ => .loop (fun p => ?_) _ _) fun mine => resends_of_keeps (waits_update _)
  obtain ⟨attempt, mine⟩ := p
  refine (resends_of_keeps waits_best).andThen fun n => Keeps.read.andThen fun _ => ?_
  refine (resends_of_keeps (waits_waitFinality ..)).andThen fun _ => ?_
  refine (resends_of_keeps waits_scanFinalized).andThen fun _ => Keeps.read.andThen fun _ => ?_
  refine .branch (.ret _) ((resends_of_keeps (waits_stillNeeded _)).andThen fun needed => ?_)
  refine .branch ?skip (.branch ?give_up ?send)
  case skip => exact (resends_of_keeps (waits_skip ..)).andThen fun _ => .ret _
  case give_up => exact Keeps.read.andThen fun _ => (resends_of_keeps (waits_update _)).andThen fun _ => .ret _
  case send =>
    refine (resends_of_keeps waits_best).andThen fun from_n => ?_
    refine (resends_send t.stash (attempt + 1)).andThen fun r => ?_
    refine .branch ?rejected ((resends_of_keeps (waits_settle ..)).andThen fun _ => .ret _)
    case rejected => exact (resends_of_keeps (waits_sleep _)).andThen fun _ => .ret _

-- The invariant of the waves: nothing was sent for the stashes that are left.
structure Ahead (queue : List Acc) (w : World Acc) : Prop where
  nodup : queue.Nodup
  fresh : ∀ st ∈ queue, ∀ p ∈ w.sent, p.1 ≠ st
  good : w.Good

namespace Ahead

variable {queue queue' : List Acc} {w w' : World Acc}

omit [DecidableEq Acc]

theorem of_sublist (h : Ahead queue w) (hsub : queue'.Sublist queue) : Ahead queue' w :=
  ⟨h.nodup.sublist hsub, fun st hst => h.fresh st (hsub.subset hst), h.good⟩

theorem of_waits (h : Ahead queue w) (hw : w.Waits w') : Ahead queue w' :=
  ⟨h.nodup, fun st hst p hp => h.fresh st hst p (hw.sent ▸ hp), h.good.of_waits hw⟩

theorem of_resends (h : Ahead queue w) (hst : st ∉ queue) (hw : Resends st w w') : Ahead queue w' := by
  refine ⟨h.nodup, fun st' hst' p hp heq => ?_, hw.good h.good⟩
  rcases hw.sent p hp with hp | hp
  · exact h.fresh st' hst' p hp heq
  · exact hst (hp.symm.trans heq ▸ hst')

theorem of_sends
    (h : Ahead (live ++ rest) w) (hw : Sends live q xts w w') : Ahead (live.drop xts.length ++ rest) w' := by
  have hsub : (live.drop xts.length ++ rest).Sublist (live ++ rest) := (drop_sublist ..).append_right rest
  have hdisjoint : List.Disjoint (live.take xts.length) (live.drop xts.length ++ rest) := by
    have hnodup := h.nodup
    rw [← take_append_drop xts.length live, append_assoc] at hnodup
    exact disjoint_of_nodup_append hnodup
  refine ⟨h.nodup.sublist hsub, fun st hst p hp heq => ?_, hw.good ?_ ?_ h.good⟩
  · rcases hw.mem_stashes hp with hp | hp
    · exact h.fresh st (hsub.subset hst) p hp heq
    · exact hdisjoint (heq ▸ hp) hst
  · exact h.nodup.sublist (sublist_append_left ..)
  · intro _ p hp p' hp' heq
    exact absurd heq (h.fresh p'.1 (mem_append_left _ (of_mem_zip hp').1) p hp)

end Ahead

omit [DecidableEq Acc] in
theorem ahead_of_keeps {α : Type} {m : SweepM Acc α} {queue : List Acc} (h : Keeps World.Waits m) :
    Meets (Ahead queue) m (fun _ => Ahead queue) World.Good :=
  h.stays (fun _ _ h hw => h.of_waits hw) fun _ h => h.good

theorem ahead_send {live rest : List Acc} (attempt : ℕ) :
    Meets (Ahead (live ++ rest)) (send live attempt)
      (fun r w => ((r.2 = none → live.drop r.1.length = []) ∧ ∀ t ∈ r.1, t.stash ∉ live.drop r.1.length ++ rest) ∧
        Ahead (live.drop r.1.length ++ rest) w) World.Good := by
  refine ⟨fun {w r w'} hw he => ?_, fun {w e w'} hw he => ?_⟩
  · obtain ⟨q, xts, -, h, hr⟩ := (send_spec live attempt w).returns (refl w) he
    rw [hr.length_eq]
    refine ⟨⟨fun hnone => drop_eq_nil_of_le (hr.all hnone).ge, fun t ht => ?_⟩, hw.of_sends h⟩
    have hmem := mem_map_of_mem (f := Tx.stash) ht
    rw [hr.stashes_eq] at hmem
    have hnodup := hw.nodup
    rw [← take_append_drop xts.length live, append_assoc] at hnodup
    exact disjoint_of_nodup_append hnodup hmem
  · rcases (send_spec live attempt w).stops (refl w) he with h | ⟨q, xts, -, h⟩
    · exact hw.good.of_waits h
    · exact (hw.of_sends h).good

theorem ahead_stillNeeded (stashes : List Acc) :
    Meets (Ahead queue) (stillNeeded stashes) (fun live w => live.Sublist stashes ∧ Ahead queue w) World.Good := by
  refine (ahead_of_keeps waits_best).andThen fun n => (ahead_of_keeps (waits_blockAt n)).andThen fun b => ?_
  refine (ahead_of_keeps .read).andThen fun w => ?_
  cases w.sweep.kind <;> exact .ret fun _ h => ⟨filter_sublist, h⟩

theorem ahead_settle (txs : List (Tx Acc)) (from_n : ℕ) :
    Meets (Ahead queue) (settle txs from_n) (fun dropped w => dropped ⊆ txs ∧ Ahead queue w) World.Good := by
  refine (ahead_of_keeps .read).andThen fun w => (ahead_of_keeps (waits_waitInclusion ..)).andThen fun _ => ?_
  refine (ahead_of_keeps (waits_waitFinality ..)).andThen fun _ => ?_
  refine (ahead_of_keeps waits_scanFinalized).andThen fun _ => (ahead_of_keeps .read).andThen fun _ => ?_
  exact .ret fun _ h => ⟨filter_sublist.subset, h⟩

theorem ahead_resubmit {queue : List Acc} (txs : List (Tx Acc)) :
    Meets (fun w => (∀ t ∈ txs, t.stash ∉ queue) ∧ Ahead queue w) (txs.forM resubmit) (fun _ => Ahead queue)
      World.Good := by
  refine (Meets.each (I := fun txs w => (∀ t ∈ txs, t.stash ∉ queue) ∧ Ahead queue w) (fun t txs => ?_) txs).weaken
    (fun _ h => h) (fun _ _ h => h.2) fun _ h => h
  refine .given fun hmem => ?_
  have ht : t.stash ∉ queue := hmem t mem_cons_self
  have hstays : Meets (Ahead queue) (resubmit t) (fun _ => Ahead queue) World.Good :=
    (resends_resubmit t).stays (fun _ _ h hw => h.of_resends ht hw) fun _ h => h.good
  exact hstays.weaken (fun _ h => h) (fun _ _ h => ⟨fun t' ht' => hmem t' (mem_cons_of_mem _ ht'), h⟩)
    fun _ h => h

theorem ahead_waveRound (waveSize : ℕ) (p : ℕ × List Acc) :
    Meets (Ahead p.2) (waveRound waveSize p) (fun r => r.elim (fun p => Ahead p.2) fun _ => World.Good) World.Good := by
  obtain ⟨n, queue⟩ := p
  refine .branch (fun _ => .ret fun _ h => h.good) fun _ => ?_
  refine (ahead_of_keeps (waits_update _)).andThen fun _ => ?_
  refine (ahead_stillNeeded _).andThen fun live => .given fun hlive => ?_
  have hqueue : (live ++ queue.drop waveSize).Sublist queue := by
    conv_rhs => rw [← take_append_drop waveSize queue]
    exact hlive.append_right _
  refine (ahead_of_keeps (.each (waits_skip _) _)).andThen fun _ => .branch (fun _ => ?none) fun _ => ?some
  case none => exact .ret fun _ h => h.of_sublist (drop_sublist ..)
  case some =>
    refine (ahead_of_keeps waits_best).andThen fun from_n => ?_
    refine .andThen ((ahead_send 1).weaken (fun _ h => h.of_sublist hqueue) (fun _ _ h => h) fun _ h => h) fun r => ?_
    obtain ⟨txs, rejected⟩ := r
    refine .given fun hsent => .branch (fun _ => .stop fun _ h => h.good) fun _ => ?_
    -- the stashes without a call come first in the next wave
    have hnext : (if rejected.isSome then live.drop txs.length ++ queue.drop waveSize else queue.drop waveSize) =
        live.drop txs.length ++ queue.drop waveSize := by
      cases rejected with
      | none => simp [hsent.1 rfl]
      | some => rfl
    simp only [hnext]
    refine (ahead_of_keeps .read).andThen fun w => (ahead_settle txs from_n).andThen fun dropped => ?_
    refine .given fun hdropped => ?_
    have hmem : ∀ t ∈ dropped.insertionSort fun t t' => t.nonce ≤ t'.nonce,
        t.stash ∉ live.drop txs.length ++ queue.drop waveSize :=
      fun t ht => hsent.2 t (hdropped ((perm_insertionSort ..).mem_iff.1 ht))
    refine .andThen ((ahead_resubmit _).weaken (fun _ h => ⟨hmem, h⟩) (fun _ _ h => h) fun _ h => h) fun _ => ?_
    refine (ahead_of_keeps .read).andThen fun w => ?_
    exact .branch (fun _ => .stop fun _ h => h.good) fun _ => .ret fun _ h => h

theorem good_run (targets : Targets Acc) (waveSize : ℕ) :
    Meets (Ahead targets.stashes) (run targets.stashes waveSize) (fun _ => World.Good) World.Good := by
  refine (ahead_of_keeps waits_best).andThen fun n => ?_
  refine (ahead_of_keeps (waits_update _)).andThen fun _ => ?_
  refine .branch (fun _ => .stop fun _ h => h.good) fun _ => ?_
  refine (ahead_of_keeps .read).andThen fun w => ?_
  exact Meets.loop (I := fun p => Ahead p.2) (ahead_waveRound waveSize) (fun _ _ h => h.good) _ (0, targets.stashes)

theorem good_pass (kind : Kind) (controllers : AList fun _ : Acc => Acc) (targets : Targets Acc)
    (waveSize : ℕ) (w : World Acc) : ((pass kind controllers targets waveSize).final w).Good := by
  have hpass : Meets (fun _ => True) (pass kind controllers targets waveSize) (fun _ => World.Good) World.Good := by
    refine .andThen (.write fun w _ => ⟨targets.nodup, ?fresh, ?good⟩) fun _ => good_run targets waveSize
    case fresh =>
      intro _ _ p hp
      cases hp
    case good =>
      intro _ p hp
      cases hp
  exact hpass.final trivial

-- In every run of a pass in which each request for a nonce is safe, at most one call per stash becomes final,
-- whatever the node does then.
theorem pass_lands_once (kind : Kind) (controllers : AList fun _ : Acc => Acc)
    (targets : Targets Acc) (waveSize : ℕ) (w : World Acc)
    (h : ∀ q ∈ ((pass kind controllers targets waveSize).final w).queries, q.Safe) (events : List (Event Acc))
    (st : Acc) :
    (landed (((pass kind controllers targets waveSize).final w).node.run events)
      ((pass kind controllers targets waveSize).final w).sent st).length ≤ 1 :=
  ((good_pass kind controllers targets waveSize w h).of_extends (Node.extends_run _ events)).length_landed_le st

end Passes

namespace Mock

def storage (migrated : List ℕ) : Storage ℕ where
  free _ := 100
  locks st := if st ∈ migrated then [] else [⟨stakingLock, 100⟩]
  holds _ := []
  bonded := (AList.singleton 1 1).insert 2 2
  ledger st := some ⟨st, 100, 100⟩
  payee := ∅
  validators := []
  nominators := []
  minValidatorBond := 0

def genesis : Node ℕ where
  chain := [⟨[], storage []⟩]
  finalized := 0
  firstNonce := 0
  known := []
  ready := []
  finalized_lt := by decide
  admissible := by decide

def sweep : Sweep ℕ :=
  ⟨[], [], none, .currency, ∅, 0⟩

def start (schedule : List (Turn ℕ)) : World ℕ :=
  ⟨genesis, sweep, 0, schedule, 10, [], []⟩

def quiet (n : ℕ) : List (Turn ℕ) :=
  List.replicate n ⟨[], 1, .closed, 0⟩

def happens (events : List (Event ℕ)) : Turn ℕ :=
  ⟨events, 1, .closed, 0⟩

def accepts (xt : Extrinsic ℕ) : Turn ℕ :=
  ⟨[], 1, .hash xt, xt.signature⟩

def call (stash nonce birth signature : ℕ) : Extrinsic ℕ :=
  ⟨.migrateCurrency stash, nonce, birth, signature⟩

-- The first calls leave the ready ones of the pool, and four blocks without them follow.
def unready : Turn ℕ :=
  happens [.pool [], .adopt 1 (List.replicate 3 ⟨[], storage []⟩), .finalize 3]

def lands (xts : List (Extrinsic ℕ × Option String)) (migrated : List ℕ) (n : ℕ) : List (Event ℕ) :=
  [.adopt n [⟨xts, storage migrated⟩], .finalize n]

def targets (migrated : List ℕ) : Targets ℕ :=
  currencyTargets (storage migrated) 1 false

-- The call for the only stash is dropped and sent again.
def resubmitted : World ℕ :=
  (pass .currency ∅ (targets [2]) 50).final
    (start (quiet 6 ++ [accepts (call 1 0 0 0), unready] ++ quiet 19 ++ [accepts (call 1 0 3 1)]))

theorem resubmitted_lands_once :
    landed (resubmitted.node.run (lands [(call 1 0 3 1, none)] [1] 4)) resubmitted.sent 1 = [call 1 0 3 1] ∧
      (landed (resubmitted.node.run (lands [(call 1 0 3 1, none)] [1] 4)) resubmitted.sent 1).length ≤ 1 :=
  ⟨by decide +kernel,
    pass_lands_once .currency ∅ (targets [2]) 50 _ (by decide +kernel) (lands [(call 1 0 3 1, none)] [1] 4) 1⟩

-- The call for stash 1 is dropped, and the call for stash 2 waits for its nonce. Once the call for stash 1 has
-- been sent again, the one for stash 2 is ready, and the node gives the nonce after it.
def overtaken : World ℕ :=
  (pass .currency ∅ (targets []) 50).final
    (start (quiet 6 ++ [accepts (call 1 0 0 0), accepts (call 2 1 0 0), unready] ++ quiet 19 ++
      [accepts (call 1 0 3 1), happens (lands [(call 1 0 3 1, none)] [1] 4 ++ [.pool [call 2 1 0 0]])] ++ quiet 16 ++
      [accepts (call 2 2 4 2)]))

theorem two_calls_land :
    landed (overtaken.node.run (lands [(call 2 1 0 0, none), (call 2 2 4 2, some "Staking.AlreadyMigrated")] [1, 2] 5))
      overtaken.sent 2 = [call 2 1 0 0, call 2 2 4 2] := by
  decide +kernel

end Mock

end StakingMigrate
