import CryptixAtomic.Processor.TemplateOrder
import CryptixAtomic.Processor.Verification

/-!
# Block templates

A template is filled from batches that a selector hands out. The transactions of a batch are
ordered, validated against the virtual UTXO set and applied to a token state that all batches
share; at the end everything is sorted by subnetwork. Where that sort moves nothing the template
is sound exactly if no batch adds a second spend of an output, and neither is enforced.
-/
namespace CryptixAtomic.Processor

open Foundation Transition List

/-- What a template reads of the virtual state. The token state is the one attached to
the store. -/
structure VirtualState where
  daaScore : ℕ
  pastMedianTime : ℕ
  atomicState : AtomicConsensusState

inductive TemplateBuildMode
  | standard
  | infallible
  deriving DecidableEq

structure TemplateLoop where
  atomicState : AtomicConsensusState
  growth : AtomicBlockStateGrowth
  seenTxids : List Bytes32
  spentOutpoints : List TransactionOutpoint
  results : List (Except TxRuleError ℕ)

def TemplateLoop.reject (l : TemplateLoop) (e : TxRuleError) : TemplateLoop :=
  { l with results := l.results ++ [.error e] }

structure TemplateBuild where
  txs : List BlockTransaction
  calculatedFees : List ℕ
  atomicState : AtomicConsensusState
  growth : AtomicBlockStateGrowth
  hasRejections : Bool

def duplicateError : TxRuleError :=
  .invalidAtomicPayload "duplicate transaction in block template candidate set"

def duplicateTxids (txs : List BlockTransaction) : List Bytes32 :=
  (txs.map (·.tx.id)).filter fun id => 1 < (txs.map (·.tx.id)).count id

def selectedOf (txs : List BlockTransaction) (results : List (Except TxRuleError ℕ)) :
    List (BlockTransaction × ℕ) :=
  (txs.zip results).filterMap fun p => p.2.toOption.map fun fee => (p.1, fee)

def invalidOf (txs : List BlockTransaction) (results : List (Except TxRuleError ℕ)) :
    List Bytes32 :=
  ((txs.zip results).filter fun p => p.2.toOption.isNone).map fun p => p.1.tx.id

section Build

variable (blake2b : Blake2b) (params : AtomicParams) (v : ValidatorParams)
  (utxoFreeTxValidation : BlockTransaction → ℕ → ℕ → Except TxRuleError Unit)
  (vs : VirtualState) (view : UtxoView)

/-- The block of a template has no hash yet. -/
def VirtualState.creationContext : AtomicCreationContext := ⟨zero32, vs.daaScore, vs.pastMedianTime⟩

def validateBlockTemplateTransaction (btx : BlockTransaction) :
    Except TxRuleError ValidatedTransaction := do
  utxoFreeTxValidation btx vs.daaScore vs.pastMedianTime
  validateTransactionInUtxoContext blake2b params v view vs.daaScore .full btx

/-- One transaction of a batch. An id that occurs twice is rejected in both places. -/
def templateTx (duplicates : List Bytes32) (l : TemplateLoop) (btx : BlockTransaction) :
    TemplateLoop :=
  if btx.tx.id ∈ duplicates then l.reject duplicateError
  else
    match validateBlockTemplateTransaction blake2b params v utxoFreeTxValidation vs view btx with
    | .error e => l.reject e
    | .ok validated =>
      if btx.tx.id ∈ l.seenTxids then l.reject duplicateError
      else
        let l := { l with seenTxids := l.seenTxids ++ [btx.tx.id] }
        if btx.tx.inputs.any fun input => input.previousOutpoint ∈ l.spentOutpoints then
          l.reject .missingTxOutpoints
        else
          match (validateAndApplyAtomicStateTransitionWithGrowth blake2b params validated.ptx
              vs.daaScore vs.creationContext).run (l.atomicState, l.growth) with
          | .error e (atomicState, growth) =>
            { l with atomicState, growth }.reject (.invalidAtomicPayload e)
          | .ok _ (atomicState, growth) =>
            { l with
              atomicState
              growth
              spentOutpoints := l.spentOutpoints ++ btx.tx.spentOutpoints
              results := l.results ++ [.ok validated.calculatedFee] }

def validateBlockTemplateTransactionsInParallel (txs : List BlockTransaction)
    (atomicState : AtomicConsensusState) (growth : AtomicBlockStateGrowth) : TemplateLoop :=
  txs.foldl (templateTx blake2b params v utxoFreeTxValidation vs view (duplicateTxids txs))
    ⟨atomicState, growth, [], [], []⟩

/-- The first batch. Rejected ids are taken out of the list. -/
def firstBatch (batch : List BlockTransaction) : TemplateBuild :=
  let txs := orderBlockTemplateTransactions blake2b params view vs.daaScore vs.atomicState batch
  let l := validateBlockTemplateTransactionsInParallel blake2b params v utxoFreeTxValidation vs view
    txs vs.atomicState .default
  let invalid := invalidOf txs l.results
  { txs := txs.filter fun btx => btx.tx.id ∉ invalid
    calculatedFees := l.results.filterMap Except.toOption
    atomicState := l.atomicState
    growth := l.growth
    hasRejections := invalid ≠ [] }

/-- A later batch. It is ordered for the virtual state again, and applied to the state of
the template. -/
def nextBatch (b : TemplateBuild) (batch : List BlockTransaction) : TemplateBuild :=
  let txs := orderBlockTemplateTransactions blake2b params view vs.daaScore vs.atomicState batch
  let l := validateBlockTemplateTransactionsInParallel blake2b params v utxoFreeTxValidation vs view
    txs b.atomicState b.growth
  { txs := b.txs ++ (selectedOf txs l.results).map Prod.fst
    calculatedFees := b.calculatedFees ++ (selectedOf txs l.results).map Prod.snd
    atomicState := l.atomicState
    growth := l.growth
    hasRejections := invalidOf txs l.results ≠ [] }

/-- The loop asks for more as long as there are rejections. Behind the listed batches the
selector has none left, and an empty batch ends the loop. -/
def moreBatches : TemplateBuild → List (List BlockTransaction) → TemplateBuild
  | b, [] => b
  | b, batch :: batches =>
    if b.hasRejections then
      moreBatches (nextBatch blake2b params v utxoFreeTxValidation vs view b batch) batches
    else b

def sortBlockTemplateTransactionsAndFeesBySubnetwork (txs : List BlockTransaction)
    (calculatedFees : List ℕ) : List BlockTransaction × List ℕ :=
  ((txs.zip calculatedFees).insertionSort
    fun a b => a.1.tx.subnetworkId ≤ b.1.tx.subnetworkId).unzip

/-- The transactions of the template and their fees, unless the selector calls the
selection unsuccessful. -/
def buildBlockTemplate (mode : TemplateBuildMode) (isSuccessful : Bool)
    (batch : List BlockTransaction) (batches : List (List BlockTransaction)) :
    Option (List BlockTransaction × List ℕ) :=
  let b := moreBatches blake2b params v utxoFreeTxValidation vs view
    (firstBatch blake2b params v utxoFreeTxValidation vs view batch) batches
  if mode = .standard ∧ isSuccessful = false then none
  else some (sortBlockTemplateTransactionsAndFeesBySubnetwork b.txs b.calculatedFees)

/-- A batch that was asked for, and what the template took from it. -/
structure Round where
  handed : List BlockTransaction
  accepted : List BlockTransaction
  deriving DecidableEq

def moreRounds : TemplateBuild → List (List BlockTransaction) → List Round
  | _, [] => []
  | b, batch :: batches =>
    if b.hasRejections then
      let next := nextBatch blake2b params v utxoFreeTxValidation vs view b batch
      ⟨batch, next.txs.drop b.txs.length⟩ :: moreRounds next batches
    else []

def templateRounds (batch : List BlockTransaction) (batches : List (List BlockTransaction)) :
    List Round :=
  let first := firstBatch blake2b params v utxoFreeTxValidation vs view batch
  ⟨batch, first.txs⟩ :: moreRounds blake2b params v utxoFreeTxValidation vs view first batches

/-- The filter of block verification accepts all transactions in their order, and the fees
stand at the places of their transactions. -/
structure AcceptedInOrder (txs : List BlockTransaction) (fees : List ℕ) : Prop where
  valid : (validateTransactionsInParallel blake2b params v txs view vs.daaScore .full).map
    (fun p => (p.1.ptx.tx, p.2)) = (txs.map (·.tx)).zipIdx 1
  kept : (filterValidatedTransactionsByAtomicState blake2b params
    (validateTransactionsInParallel blake2b params v txs view vs.daaScore .full) vs.daaScore
    vs.creationContext vs.atomicState).1 =
      validateTransactionsInParallel blake2b params v txs view vs.daaScore .full
  fees : fees = (validateTransactionsInParallel blake2b params v txs view vs.daaScore .full).map
    fun p => p.1.calculatedFee

end Build

def InSubnetworkOrder (txs : List BlockTransaction) : Prop :=
  txs.Pairwise fun a b => a.tx.subnetworkId ≤ b.tx.subnetworkId

/-- No output is spent by transactions of both lists. -/
def Apart (earlier later : List BlockTransaction) : Prop :=
  ∀ x ∈ earlier, ∀ y ∈ later, ∀ o ∈ x.tx.spentOutpoints, o ∉ y.tx.spentOutpoints

/-- The virtual state with some transactions of the template applied. -/
structure Pending where
  j : JointState
  growth : AtomicBlockStateGrowth
  past : List Transaction
  taken : List TransactionOutpoint

def Pending.accept (g : Pending) (tx : Transaction) (daaScore : ℕ)
    (atomicState : AtomicConsensusState) (growth : AtomicBlockStateGrowth) : Pending where
  j := ⟨g.j.utxo.applyTransaction tx daaScore, atomicState⟩
  growth := growth
  past := tx :: g.past
  taken := g.taken ++ tx.spentOutpoints

/-- The two stores belong together, and what the view shows is unspent unless it was
taken. -/
structure Pending.Sound (view : UtxoView) (g : Pending) : Prop where
  bound : Bound g.j
  history : History g.past g.j.utxo
  kept : ∀ o e, view o = some e → o ∉ g.taken → g.j.utxo.lookup o = some e

/-- What validation in isolation, the hashes and the selector promise about a transaction that
is handed out: it is not one that the template already has. -/
structure Handed (past : List Transaction) (earlier : List BlockTransaction)
    (btx : BlockTransaction) : Prop where
  plain : btx.tx.isCoinbase = false
  inputs : btx.tx.inputs ≠ []
  known : ∀ tx ∈ past, tx.id = btx.tx.id → tx = btx.tx
  new : ∀ x ∈ earlier, x.tx.id ≠ btx.tx.id

section Runs

variable (blake2b : Blake2b) (params : AtomicParams) (v : ValidatorParams) (vs : VirtualState)
  (view : UtxoView)

/-- A transaction that is accepted after the pending ones. -/
structure Chosen (g : Pending) (btx : BlockTransaction) (validated : ValidatedTransaction)
    (g' : Pending) : Prop where
  valid : validateTransactionInUtxoContext blake2b params v view vs.daaScore .full btx =
    .ok validated
  unspent : validated.ptx.UnspentIn g.j.utxo
  new : ∀ tx ∈ g.past, tx.id ≠ btx.tx.id
  run : (validateAndApplyAtomicStateTransitionWithGrowth blake2b params validated.ptx vs.daaScore
    vs.creationContext).run (g.j.atomic, g.growth) = .ok () (g'.j.atomic, g'.growth)
  next : g' = g.accept btx.tx vs.daaScore g'.j.atomic g'.growth

inductive ChosenRun : Pending → List (BlockTransaction × ValidatedTransaction) → Pending → Prop
  | nil (g : Pending) : ChosenRun g [] g
  | cons {g m g' : Pending} {btx : BlockTransaction} {validated : ValidatedTransaction}
      {rest : List (BlockTransaction × ValidatedTransaction)}
      (step : Chosen blake2b params v vs view g btx validated m) (run : ChosenRun m rest g') :
      ChosenRun g ((btx, validated) :: rest) g'

variable {blake2b params v vs view} {g g' m : Pending}

variable {as : List (BlockTransaction × ValidatedTransaction)}

theorem ChosenRun.append {bs : List (BlockTransaction × ValidatedTransaction)}
    (h : ChosenRun blake2b params v vs view g as m)
    (h' : ChosenRun blake2b params v vs view m bs g') :
    ChosenRun blake2b params v vs view g (as ++ bs) g' := by
  induction h with
  | nil => exact h'
  | cons step _ ih => exact .cons step (ih h')

theorem ChosenRun.pending (h : ChosenRun blake2b params v vs view g as g') :
    (∀ tx ∈ g'.past, tx ∈ g.past ∨ ∃ x ∈ as.map Prod.fst, x.tx = tx) ∧
      ∀ o ∈ g'.taken, o ∈ g.taken ∨ ∃ x ∈ as.map Prod.fst, o ∈ x.tx.spentOutpoints := by
  induction h with
  | nil => exact ⟨fun _ => .inl, fun _ => .inl⟩
  | cons step _ ih =>
    rw [step.next] at ih
    simp only [map_cons, exists_mem_cons_iff]
    constructor
    · intro tx htx
      rcases ih.1 tx htx with htx | hx
      · rcases mem_cons.mp htx with rfl | htx
        · exact .inr (.inl rfl)
        · exact .inl htx
      · exact .inr (.inr hx)
    · intro o ho
      rcases ih.2 o ho with ho | hx
      · rcases mem_append.mp ho with ho | ho
        · exact .inl ho
        · exact .inr (.inl ho)
      · exact .inr (.inr hx)

theorem Chosen.sound {btx : BlockTransaction} {validated : ValidatedTransaction}
    (h : Chosen blake2b params v vs view g btx validated g') (hg : g.Sound view)
    (hplain : btx.tx.isCoinbase = false) : g'.Sound view := by
  have htx := (validateTransactionInUtxoContext_eq_ok h.valid).1
  have hfresh : ∀ i, g.j.utxo.lookup (btx.tx.outpoint i) = none := hg.history.fresh h.new
  have hspent : ∀ o ∈ btx.tx.spentOutpoints, ∃ e, g.j.utxo.lookup o = some e := by
    intro o ho
    rw [← htx] at ho
    obtain ⟨q, hq, rfl⟩ := exists_populated ho
    exact ⟨q.2, h.unspent q hq⟩
  obtain ⟨_, -, -, haccepts, -⟩ := (@withGrowth_eq_ok blake2b params _ _ _ _
    ⟨validated.ptx, vs.daaScore, vs.creationContext⟩ ()).mp h.run
  rw [h.next]
  constructor
  · have hbound := Bound.accepted hg.bound (by rwa [htx]) h.unspent (by rwa [htx]) haccepts
    rw [htx] at hbound
    exact hbound
  · exact hg.history.apply h.new hspent vs.daaScore
  · intro o e he ho
    have htaken : o ∉ g.taken ∧ o ∉ btx.tx.spentOutpoints := by
      simpa [Pending.accept, not_or] using ho
    exact lookup_apply_of_kept hfresh (hg.kept o e he htaken.1) htaken.2

theorem ChosenRun.filterAll (h : ChosenRun blake2b params v vs view g as g') (hg : g.Sound view)
    (hplain : ∀ a ∈ as, a.1.tx.isCoinbase = false) (f : FilterLoop) (start : ℕ)
    (hstate : f.atomicState = g.j.atomic) (hgrowth : f.growth = g.growth)
    (hseen : ∀ id ∈ f.seenTxids, ∃ tx ∈ g.past, tx.id = id)
    (hspent : ∀ o ∈ f.spentOutpoints, ∃ tx ∈ g.past, o ∈ tx.spentOutpoints) :
    FilterAll blake2b params vs.daaScore vs.creationContext f ((as.map Prod.snd).zipIdx start) := by
  induction h generalizing f start with
  | nil => exact .nil f
  | @cons g m g' btx validated rest step run ih =>
    have htx := (validateTransactionInUtxoContext_eq_ok step.valid).1
    have hm := step.sound hg (hplain _ mem_cons_self)
    have hpast : m.past = btx.tx :: g.past := by rw [step.next]; rfl
    have hrun := step.run
    rw [← hstate, ← hgrowth] at hrun
    have hnew : validated.ptx.tx.id ∉ f.seenTxids := by
      intro hid
      obtain ⟨tx, hmem, heq⟩ := hseen _ hid
      exact step.new tx hmem (heq.trans (by rw [htx]))
    have hunspent : ∀ o ∈ validated.ptx.tx.spentOutpoints, o ∉ f.spentOutpoints := by
      intro o ho hmem
      obtain ⟨tx, htxmem, hgone⟩ := hspent o hmem
      obtain ⟨q, hq, rfl⟩ := exists_populated ho
      have hlookup := step.unspent q hq
      rw [hg.history.gone tx htxmem _ hgone] at hlookup
      cases hlookup
    have hseen' : ∀ id ∈ f.seenTxids ++ [validated.ptx.tx.id], ∃ tx ∈ m.past, tx.id = id := by
      intro id hid
      rw [hpast]
      rcases mem_append.mp hid with hid | hid
      · obtain ⟨tx, htx, rfl⟩ := hseen id hid
        exact ⟨tx, mem_cons_of_mem _ htx, rfl⟩
      · rw [mem_singleton.mp hid]
        exact ⟨btx.tx, mem_cons_self, by rw [htx]⟩
    have hspent' : ∀ o ∈ f.spentOutpoints ++ validated.ptx.tx.spentOutpoints,
        ∃ tx ∈ m.past, o ∈ tx.spentOutpoints := by
      intro o ho
      rw [hpast]
      rcases mem_append.mp ho with ho | ho
      · obtain ⟨tx, htx, ho⟩ := hspent o ho
        exact ⟨tx, mem_cons_of_mem _ htx, ho⟩
      · exact ⟨btx.tx, mem_cons_self, htx ▸ ho⟩
    have hrest := ih hm (fun a ha => hplain a (mem_cons_of_mem _ ha))
      (f.accept (validated, start) m.j.atomic m.growth) (start + 1) rfl rfl hseen' hspent'
    exact FilterAll.cons hnew hunspent hrun hrest

theorem ChosenRun.validated (h : ChosenRun blake2b params v vs view g as g') :
    validateTransactionsInParallel blake2b params v (as.map Prod.fst) view vs.daaScore .full =
      (as.map Prod.snd).zipIdx 1 := by
  have hvalid : ∀ a ∈ as, validateTransactionInUtxoContext blake2b params v view vs.daaScore .full
      a.1 = .ok a.2 := by
    induction h with
    | nil => simp
    | cons step _ ih => exact forall_mem_cons.mpr ⟨step.valid, ih⟩
  unfold validateTransactionsInParallel
  generalize 1 = start
  clear h
  induction as generalizing start with
  | nil => rfl
  | cons a as ih =>
    rw [map_cons, map_cons, zipIdx_cons, zipIdx_cons, filterMap_cons,
      hvalid a mem_cons_self, ih (fun x hx => hvalid x (mem_cons_of_mem a hx))]
    rfl

end Runs

section Batch

variable {blake2b : Blake2b} {params : AtomicParams} {v : ValidatorParams}
  {utxoFreeTxValidation : BlockTransaction → ℕ → ℕ → Except TxRuleError Unit} {vs : VirtualState}
  {utxo : UtxoCollection} {g : Pending} {past : List Transaction}
  {earlier : List BlockTransaction} {duplicates : List Bytes32} {l : TemplateLoop}

/-- The state of a batch is that of the pending transactions, each of which is of the past, of
an earlier batch or seen in this one. -/
structure TemplateLoop.Follows (l : TemplateLoop) (past : List Transaction)
    (earlier : List BlockTransaction) (g : Pending) : Prop where
  atomicState : l.atomicState = g.j.atomic
  growth : l.growth = g.growth
  past : ∀ tx ∈ g.past, (tx ∈ past ∨ ∃ x ∈ earlier, x.tx = tx) ∨ tx.id ∈ l.seenTxids
  taken : ∀ o ∈ g.taken, (∃ x ∈ earlier, o ∈ x.tx.spentOutpoints) ∨ o ∈ l.spentOutpoints

theorem templateTx_cases (hhistory : History past utxo) (hg : g.Sound utxo.lookup)
    {btx : BlockTransaction} (hbtx : Handed past earlier btx) (hl : l.Follows past earlier g)
    {l' : TemplateLoop}
    (hstep : templateTx blake2b params v utxoFreeTxValidation vs utxo.lookup duplicates l btx =
      l') :
    (∃ e, l'.results = l.results ++ [.error e] ∧ l'.Follows past earlier g) ∨
    ∃ validated, l'.results = l.results ++ [.ok validated.calculatedFee] ∧
      (Apart earlier [btx] → ∃ g', Chosen blake2b params v vs utxo.lookup g btx validated g' ∧
        l'.Follows past earlier g') := by
  subst hstep
  unfold templateTx
  by_cases hdup : btx.tx.id ∈ duplicates
  · simp only [if_pos hdup]
    exact .inl ⟨_, rfl, hl.atomicState, hl.growth, hl.past, hl.taken⟩
  simp only [if_neg hdup]
  cases hvalid : validateBlockTemplateTransaction blake2b params v utxoFreeTxValidation vs
      utxo.lookup btx with
  | error e => exact .inl ⟨e, rfl, hl.atomicState, hl.growth, hl.past, hl.taken⟩
  | ok validated =>
    have hpast : ∀ tx ∈ g.past, (tx ∈ past ∨ ∃ x ∈ earlier, x.tx = tx) ∨
        tx.id ∈ l.seenTxids ++ [btx.tx.id] :=
      fun tx htx => (hl.past tx htx).imp_right (mem_append_left _)
    simp only
    split_ifs with hseen hspent
    · exact .inl ⟨_, rfl, hl.atomicState, hl.growth, hl.past, hl.taken⟩
    · exact .inl ⟨_, rfl, hl.atomicState, hl.growth, hpast, hl.taken⟩
    have hcontext : validateTransactionInUtxoContext blake2b params v utxo.lookup vs.daaScore .full
        btx = .ok validated := by
      rw [validateBlockTemplateTransaction, except_bind_eq_ok] at hvalid
      exact hvalid.choose_spec.2
    obtain ⟨htx, hview⟩ := validateTransactionInUtxoContext_eq_ok hcontext
    have hnew : ∀ tx ∈ g.past, tx.id ≠ btx.tx.id := by
      intro tx hmem
      rcases hl.past tx hmem with (hold | ⟨x, hx, rfl⟩) | hid
      · apply hhistory.new_id hbtx.known hbtx.inputs _ tx hold
        intro o ho
        rw [← htx] at ho
        obtain ⟨q, hq, rfl⟩ := exists_populated ho
        exact ⟨q.2, hview q hq⟩
      · exact hbtx.new x hx
      · exact fun heq => hseen (heq ▸ hid)
    have hfresh : ∀ i, g.j.utxo.lookup (validated.ptx.tx.outpoint i) = none := by
      rw [htx]
      exact hg.history.fresh hnew
    cases hrun : (validateAndApplyAtomicStateTransitionWithGrowth blake2b params validated.ptx
        vs.daaScore vs.creationContext).run (l.atomicState, l.growth) with
    | error e out =>
      obtain ⟨atomicState, growth⟩ := out
      rw [hl.atomicState, hl.growth] at hrun
      obtain ⟨rfl, rfl⟩ := withGrowth_error blake2b params validated.ptx vs.daaScore
        vs.creationContext (fun i _ => hg.bound.unlisted (hfresh i)) hrun
      exact .inl ⟨_, rfl, rfl, rfl, hpast, hl.taken⟩
    | ok u out =>
      obtain ⟨atomicState, growth⟩ := out
      rw [hl.atomicState, hl.growth] at hrun
      refine .inr ⟨validated, rfl, fun hapart => ?_⟩
      -- no input was taken by a pending transaction
      have hunspent : ∀ q ∈ validated.ptx.populatedInputs,
          g.j.utxo.lookup q.1.previousOutpoint = some q.2 := by
        intro q hq
        have hinput : q.1 ∈ btx.tx.inputs := htx ▸ (of_mem_zip hq).1
        apply hg.kept _ _ (hview q hq)
        intro hmem
        rcases hl.taken _ hmem with ⟨x, hx, ho⟩ | hinside
        · exact hapart x hx btx mem_cons_self _ ho (mem_map_of_mem hinput)
        · exact hspent (any_eq_true.mpr ⟨q.1, hinput, by simpa using hinside⟩)
      refine ⟨g.accept btx.tx vs.daaScore atomicState growth, ⟨hcontext, hunspent, hnew, hrun, rfl⟩,
        rfl, rfl, forall_mem_cons.mpr ⟨.inr (mem_append_right _ mem_cons_self), hpast⟩, ?_⟩
      intro o ho
      rcases mem_append.mp ho with ho | ho
      · exact (hl.taken o ho).imp_right (mem_append_left _)
      · exact .inr (mem_append_right _ ho)

/-- Every transaction has a result, and none whose id occurs twice is taken. -/
theorem foldl_results (view : UtxoView) (txs : List BlockTransaction) (l : TemplateLoop) :
    ∃ results, (txs.foldl (templateTx blake2b params v utxoFreeTxValidation vs view duplicates)
        l).results = l.results ++ results ∧
      Forall₂ (fun btx result => result.toOption.isSome → btx.tx.id ∉ duplicates) txs results := by
  induction txs generalizing l with
  | nil => exact ⟨[], by simp, .nil⟩
  | cons btx txs ih =>
    have hstep : ∃ result, (templateTx blake2b params v utxoFreeTxValidation vs view duplicates l
        btx).results = l.results ++ [result] ∧
          (result.toOption.isSome → btx.tx.id ∉ duplicates) := by
      unfold templateTx
      by_cases hdup : btx.tx.id ∈ duplicates
      · simp only [if_pos hdup]
        exact ⟨_, rfl, (by cases ·)⟩
      simp only [if_neg hdup]
      cases validateBlockTemplateTransaction blake2b params v utxoFreeTxValidation vs view btx with
      | error => exact ⟨_, rfl, (by cases ·)⟩
      | ok =>
        simp only
        split_ifs
        · exact ⟨_, rfl, (by cases ·)⟩
        · exact ⟨_, rfl, (by cases ·)⟩
        · split <;> exact ⟨_, rfl, fun _ => hdup⟩
    obtain ⟨result, hresult, hunique⟩ := hstep
    obtain ⟨results, hresults, hrest⟩ := ih _
    exact ⟨result :: results, by rw [foldl_cons, hresults, hresult]; simp, .cons hunique hrest⟩

variable {txs : List BlockTransaction} {results : List (Except TxRuleError ℕ)}

theorem foldl_templateTx (hhistory : History past utxo) (hg : g.Sound utxo.lookup)
    (hl : l.Follows past earlier g) (htxs : ∀ btx ∈ txs, Handed past earlier btx)
    (hresults : (txs.foldl (templateTx blake2b params v utxoFreeTxValidation vs utxo.lookup
      duplicates) l).results = l.results ++ results)
    (hapart : Apart earlier ((selectedOf txs results).map Prod.fst)) :
    ∃ chosen g', ChosenRun blake2b params v vs utxo.lookup g chosen g' ∧ g'.Sound utxo.lookup ∧
      selectedOf txs results = chosen.map (fun a => (a.1, a.2.calculatedFee)) ∧
      (txs.foldl (templateTx blake2b params v utxoFreeTxValidation vs utxo.lookup duplicates)
        l).Follows past earlier g' := by
  induction txs generalizing g l results with
  | nil => exact ⟨[], g, .nil g, hg, rfl, hl⟩
  | cons btx txs ih =>
    rw [forall_mem_cons] at htxs
    rw [foldl_cons] at hresults ⊢
    obtain ⟨more, hmore, -⟩ := @foldl_results blake2b params v utxoFreeTxValidation vs duplicates
      utxo.lookup txs
      (templateTx blake2b params v utxoFreeTxValidation vs utxo.lookup duplicates l btx)
    rcases templateTx_cases hhistory hg htxs.1 hl rfl with ⟨e, hstep, hfollows⟩ |
      ⟨validated, hstep, hchosen⟩
    · obtain rfl : results = .error e :: more := by
        rw [hmore, hstep, append_assoc] at hresults
        exact (append_cancel_left hresults).symm
      exact ih hg hfollows htxs.2 hmore hapart
    · obtain rfl : results = .ok validated.calculatedFee :: more := by
        rw [hmore, hstep, append_assoc] at hresults
        exact (append_cancel_left hresults).symm
      have hselected : selectedOf (btx :: txs) (.ok validated.calculatedFee :: more) =
          (btx, validated.calculatedFee) :: selectedOf txs more := rfl
      rw [hselected, map_cons] at hapart
      obtain ⟨m, hfirst, hfollows⟩ := hchosen fun x hx y hy => hapart x hx y (by
        rw [mem_singleton.mp hy]
        exact mem_cons_self)
      obtain ⟨chosen, g', hrun, hsound, hrest, hend⟩ := ih (hfirst.sound hg htxs.1.plain) hfollows
        htxs.2 hmore fun x hx y hy => hapart x hx y (mem_cons_of_mem _ hy)
      exact ⟨(btx, validated) :: chosen, g', .cons hfirst hrun, hsound,
        by rw [hselected, hrest, map_cons], hend⟩

theorem not_mem_invalidOf (h : Forall₂ (fun (btx : BlockTransaction) result =>
      result.toOption.isSome → btx.tx.id ∉ duplicateTxids txs) txs results)
    {p : BlockTransaction × Except TxRuleError ℕ} (hp : p ∈ txs.zip results)
    (hok : p.2.toOption.isSome) : p.1.tx.id ∉ invalidOf txs results := by
  intro hmem
  obtain ⟨q, hq, hid⟩ := mem_map.mp hmem
  obtain ⟨hq, hnone⟩ := mem_filter.mp hq
  have hne : p ≠ q := by
    rintro rfl
    simp_all
  have hids : (txs.zip results).map (fun p => p.1.tx.id) = txs.map (·.tx.id) := by
    have hmap := congrArg (List.map (·.tx.id)) (map_fst_zip h.length_eq.le)
    rwa [map_map] at hmap
  -- the id would occur twice in the batch
  have hsub : [p, q].Subperm (txs.zip results) := by
    apply Nodup.subperm
    · simpa using hne
    · intro x hx
      rcases mem_cons.mp hx with rfl | hx
      · exact hp
      · exact mem_singleton.mp hx ▸ hq
  obtain ⟨pair, hpair, hsublist⟩ := hsub
  have hcount := (hsublist.map fun p => p.1.tx.id).count_le p.1.tx.id
  rw [hids, (hpair.map fun p => p.1.tx.id).count_eq] at hcount
  have htwo : 1 < (txs.map (·.tx.id)).count p.1.tx.id := by
    simpa [hid, Nat.lt_iff_add_one_le] using hcount
  apply (forall₂_iff_zip.mp h).2 hp hok
  apply mem_filter.mpr
  constructor
  · rw [← hids]
    exact mem_map_of_mem hp
  · simpa using htwo

theorem filter_invalid (h : Forall₂ (fun (btx : BlockTransaction) result =>
      result.toOption.isSome → btx.tx.id ∉ duplicateTxids txs) txs results) :
    (txs.filter fun btx => btx.tx.id ∉ invalidOf txs results) =
      (selectedOf txs results).map Prod.fst := by
  have hzip : (txs.filter fun btx => btx.tx.id ∉ invalidOf txs results) =
      ((txs.zip results).map Prod.fst).filter fun btx => btx.tx.id ∉ invalidOf txs results := by
    rw [map_fst_zip h.length_eq.le]
  rw [hzip, selectedOf, map_filterMap, filter_map, ← filterMap_eq_filter, map_filterMap]
  apply filterMap_congr
  rintro ⟨btx, result⟩ hp
  cases result with
  | error =>
    have hmem : btx.tx.id ∈ invalidOf txs results := mem_map_of_mem (mem_filter.mpr ⟨hp, rfl⟩)
    simp [Option.guard, hmem, Except.toOption]
  | ok =>
    have hmem := not_mem_invalidOf h hp rfl
    simp [Option.guard, hmem, Except.toOption]

theorem filterMap_results (h : results.length = txs.length) :
    results.filterMap Except.toOption = (selectedOf txs results).map Prod.snd := by
  have hzip : results = (txs.zip results).map Prod.snd := (map_snd_zip h.le).symm
  rw [selectedOf, map_filterMap]
  conv_lhs => rw [hzip, filterMap_map]
  apply filterMap_congr
  rintro ⟨btx, result⟩ -
  cases result <;> rfl

/-- The template before the first batch. -/
def VirtualState.build (vs : VirtualState) : TemplateBuild := ⟨[], [], vs.atomicState, .default, true⟩

theorem firstBatch_eq (view : UtxoView) (batch : List BlockTransaction) :
    firstBatch blake2b params v utxoFreeTxValidation vs view batch =
      nextBatch blake2b params v utxoFreeTxValidation vs view vs.build batch := by
  obtain ⟨results, hresults, hall⟩ := @foldl_results blake2b params v utxoFreeTxValidation vs
    (duplicateTxids (orderBlockTemplateTransactions blake2b params view vs.daaScore vs.atomicState
      batch)) view _ ⟨vs.atomicState, .default, [], [], []⟩
  rw [nil_append, ← validateBlockTemplateTransactionsInParallel] at hresults
  subst hresults
  unfold firstBatch nextBatch VirtualState.build
  simp only [nil_append]
  rw [filter_invalid hall, filterMap_results hall.length_eq.symm]

end Batch

section Batches

variable {blake2b : Blake2b} {params : AtomicParams} {v : ValidatorParams}
  {utxoFreeTxValidation : BlockTransaction → ℕ → ℕ → Except TxRuleError Unit} {vs : VirtualState}
  {utxo : UtxoCollection} {past : List Transaction} {b : TemplateBuild} {g : Pending}
  {chosen : List (BlockTransaction × ValidatedTransaction)} {batch : List BlockTransaction}

/-- The template holds a run from the virtual state. -/
structure TemplateBuild.Holds (blake2b : Blake2b) (params : AtomicParams) (v : ValidatorParams)
    (vs : VirtualState) (utxo : UtxoCollection) (past : List Transaction) (b : TemplateBuild)
    (chosen : List (BlockTransaction × ValidatedTransaction)) (g : Pending) : Prop where
  run : ChosenRun blake2b params v vs utxo.lookup ⟨⟨utxo, vs.atomicState⟩, .default, past, []⟩
    chosen g
  sound : g.Sound utxo.lookup
  plain : ∀ a ∈ chosen, a.1.tx.isCoinbase = false
  txs : b.txs = chosen.map Prod.fst
  calculatedFees : b.calculatedFees = chosen.map fun a => a.2.calculatedFee
  atomicState : b.atomicState = g.j.atomic
  growth : b.growth = g.growth

theorem TemplateBuild.Holds.next (hhistory : History past utxo)
    (h : b.Holds blake2b params v vs utxo past chosen g)
    (hbatch : ∀ btx ∈ batch, Handed past b.txs btx)
    (hapart : Apart b.txs ((nextBatch blake2b params v utxoFreeTxValidation vs utxo.lookup b
      batch).txs.drop b.txs.length)) :
    ∃ chosen' g', (nextBatch blake2b params v utxoFreeTxValidation vs utxo.lookup b batch).Holds
      blake2b params v vs utxo past chosen' g' := by
  have hperm := @orderBlockTemplateTransactions_perm blake2b params utxo.lookup vs.daaScore
    vs.atomicState batch
  have hpending := h.run.pending
  rw [← h.txs] at hpending
  have hfollows : (⟨b.atomicState, b.growth, [], [], []⟩ : TemplateLoop).Follows past b.txs g :=
    ⟨h.atomicState, h.growth, fun tx htx => .inl (hpending.1 tx htx), fun o ho =>
      .inl ((hpending.2 o ho).resolve_left not_mem_nil)⟩
  rw [nextBatch, drop_left] at hapart
  obtain ⟨more, g', hrun, hsound, hselected, hend⟩ := foldl_templateTx hhistory h.sound hfollows
    (fun btx hbtx => hbatch btx (hperm.mem_iff.mp hbtx)) (nil_append _).symm hapart
  refine ⟨chosen ++ more, g', h.run.append hrun, hsound, forall_mem_append.mpr ⟨h.plain, ?_⟩, ?_,
    ?_, hend.atomicState, hend.growth⟩
  · intro a ha
    have hmem := hselected ▸ mem_map_of_mem ha
    obtain ⟨p, hp, hfee⟩ := mem_filterMap.mp hmem
    obtain ⟨fee, -, heq⟩ := Option.map_eq_some_iff.mp hfee
    rw [← congrArg Prod.fst heq]
    exact (hbatch p.1 (hperm.mem_iff.mp (of_mem_zip hp).1)).plain
  · rw [map_append, ← h.txs]
    apply congrArg (b.txs ++ ·)
    exact (congrArg (List.map Prod.fst) hselected).trans (by rw [map_map]; rfl)
  · rw [map_append, ← h.calculatedFees]
    apply congrArg (b.calculatedFees ++ ·)
    exact (congrArg (List.map Prod.snd) hselected).trans (by rw [map_map]; rfl)

/-- What the template takes from the first round is neither handed out again nor spent again
by what it takes from the second. -/
structure Round.Precedes (a b : Round) : Prop where
  once : ∀ x ∈ a.accepted, ∀ y ∈ b.handed, x.tx.id ≠ y.tx.id
  apart : Apart a.accepted b.accepted

theorem moreBatches_holds (hhistory : History past utxo) (batches : List (List BlockTransaction))
    (hhanded : ∀ r ∈ moreRounds blake2b params v utxoFreeTxValidation vs utxo.lookup b batches,
      ∀ btx ∈ r.handed, Handed past [] btx)
    (hrounds : (⟨[], b.txs⟩ :: moreRounds blake2b params v utxoFreeTxValidation vs utxo.lookup b
      batches).Pairwise Round.Precedes)
    (h : b.Holds blake2b params v vs utxo past chosen g) :
    ∃ chosen' g', (moreBatches blake2b params v utxoFreeTxValidation vs utxo.lookup b
      batches).Holds blake2b params v vs utxo past chosen' g' := by
  induction batches generalizing b chosen g with
  | nil => exact ⟨chosen, g, h⟩
  | cons batch batches ih =>
    rw [moreBatches]
    rw [moreRounds] at hhanded hrounds
    split_ifs at hhanded hrounds ⊢
    · rw [forall_mem_cons] at hhanded
      rw [pairwise_cons, forall_mem_cons, pairwise_cons] at hrounds
      obtain ⟨⟨hfirst, hold⟩, hnew, hrest⟩ := hrounds
      obtain ⟨chosen', g', hnext⟩ := h.next hhistory (fun btx hbtx =>
        { hhanded.1 btx hbtx with new := fun x hx => hfirst.once x hx btx hbtx }) hfirst.apart
      apply ih hhanded.2 _ hnext
      apply pairwise_cons.mpr ⟨fun r hr => ?_, hrest⟩
      have htxs : (nextBatch blake2b params v utxoFreeTxValidation vs utxo.lookup b batch).txs =
          b.txs ++ (nextBatch blake2b params v utxoFreeTxValidation vs utxo.lookup b
            batch).txs.drop b.txs.length := by
        simp [nextBatch]
      constructor
      · rw [htxs]
        exact forall_mem_append.mpr ⟨(hold r hr).once, (hnew r hr).once⟩
      · rw [htxs]
        exact forall_mem_append.mpr ⟨(hold r hr).apart, (hnew r hr).apart⟩
    · exact ⟨chosen, g, h⟩

theorem moreBatches_txs (view : UtxoView) (batches : List (List BlockTransaction))
    (hlength : b.txs.length = b.calculatedFees.length) :
    (moreBatches blake2b params v utxoFreeTxValidation vs view b batches).txs = b.txs ++
        (moreRounds blake2b params v utxoFreeTxValidation vs view b batches).flatMap (·.accepted) ∧
      (moreBatches blake2b params v utxoFreeTxValidation vs view b batches).txs.length =
        (moreBatches blake2b params v utxoFreeTxValidation vs view b batches).calculatedFees.length := by
  induction batches generalizing b with
  | nil => exact ⟨by simp [moreBatches, moreRounds], hlength⟩
  | cons batch batches ih =>
    rw [moreBatches, moreRounds]
    split_ifs
    · obtain ⟨htxs, hfees⟩ := ih (b := nextBatch blake2b params v utxoFreeTxValidation vs view b batch)
        (by simp [nextBatch, hlength])
      refine ⟨?_, hfees⟩
      rw [htxs, flatMap_cons, ← append_assoc]
      congr 1
      simp [nextBatch]
    · exact ⟨by simp, hlength⟩

theorem sort_of_sorted {txs : List BlockTransaction} {fees : List ℕ}
    (hlength : txs.length = fees.length) (h : InSubnetworkOrder txs) :
    sortBlockTemplateTransactionsAndFeesBySubnetwork txs fees = (txs, fees) := by
  unfold sortBlockTemplateTransactionsAndFeesBySubnetwork
  rw [Pairwise.insertionSort_eq, unzip_zip hlength]
  unfold InSubnetworkOrder at h
  rw [← map_fst_zip hlength.le, pairwise_map] at h
  exact h

end Batches

section Accepted

variable {blake2b : Blake2b} {params : AtomicParams} {povDaaScore : ℕ} {ctx : AtomicCreationContext}
  {f : FilterLoop} {ps : List (ValidatedTransaction × ℕ)}

theorem FilterAll.filtered (h : FilterAll blake2b params povDaaScore ctx f ps) :
    (ps.foldl (filterTx blake2b params povDaaScore ctx) f).filtered = f.filtered ++ ps := by
  induction h with
  | nil => simp
  | @cons f p ps atomicState growth hnew hunspent hrun hrest ih =>
    have hstep : filterTx blake2b params povDaaScore ctx f p = f.accept p atomicState growth := by
      have hany : (p.1.ptx.tx.inputs.any fun input =>
          input.previousOutpoint ∈ f.spentOutpoints) = false := by
        rw [any_eq_false]
        intro input hinput
        simpa using hunspent _ (mem_map_of_mem hinput)
      simp only [filterTx, if_neg hnew, hany, hrun]
      rfl
    rw [foldl_cons, hstep, ih]
    simp [FilterLoop.accept]

theorem FilterAll.apart (h : FilterAll blake2b params povDaaScore ctx f ps) :
    (∀ o ∈ f.spentOutpoints, ∀ p ∈ ps, o ∉ p.1.ptx.tx.spentOutpoints) ∧
      ps.Pairwise fun p q => ∀ o ∈ p.1.ptx.tx.spentOutpoints, o ∉ q.1.ptx.tx.spentOutpoints := by
  induction h with
  | nil => simp
  | @cons f p ps atomicState growth _ hunspent _ _ ih =>
    obtain ⟨hspent, hrest⟩ := ih
    constructor
    · intro o ho
      exact forall_mem_cons.mpr ⟨fun hmem => hunspent o hmem ho, hspent o (mem_append_left _ ho)⟩
    · exact pairwise_cons.mpr ⟨fun q hq o ho => hspent o (mem_append_right _ ho) q hq, hrest⟩

variable {v : ValidatorParams} {vs : VirtualState} {utxo : UtxoCollection}

theorem TemplateBuild.Holds.accepted {past : List Transaction} {b : TemplateBuild} {g : Pending}
    {chosen : List (BlockTransaction × ValidatedTransaction)}
    (h : b.Holds blake2b params v vs utxo past chosen g)
    (hstart : (⟨⟨utxo, vs.atomicState⟩, .default, past, []⟩ : Pending).Sound utxo.lookup) :
    AcceptedInOrder blake2b params v vs utxo.lookup b.txs b.calculatedFees := by
  have hvalidated := h.run.validated
  have hfilter := h.run.filterAll hstart h.plain ⟨vs.atomicState, .default, [], [], []⟩ 1 rfl rfl
    (by simp) (by simp)
  rw [h.txs, h.calculatedFees]
  constructor
  · apply validated_eq_zipIdx
    rw [hvalidated]
    simp
  · unfold filterValidatedTransactionsByAtomicState
    rw [mergeSort_validated, hvalidated]
    exact hfilter.filtered
  · have hfst : ((chosen.map Prod.snd).zipIdx 1).map Prod.fst = chosen.map Prod.snd :=
      zipIdx_map_fst 1 _
    have hfees := congrArg (List.map (·.calculatedFee)) hfst
    rw [map_map, map_map] at hfees
    rw [hvalidated]
    exact hfees.symm

theorem AcceptedInOrder.apart {view : UtxoView} {txs : List BlockTransaction} {fees : List ℕ}
    (h : AcceptedInOrder blake2b params v vs view txs fees) :
    txs.Pairwise fun x y => ∀ o ∈ x.tx.spentOutpoints, o ∉ y.tx.spentOutpoints := by
  have hkept := congrArg List.length h.kept
  unfold filterValidatedTransactionsByAtomicState at hkept
  rw [mergeSort_validated] at hkept
  have hall : FilterAll blake2b params vs.daaScore vs.creationContext
      ⟨vs.atomicState, .default, [], [], []⟩
      (validateTransactionsInParallel blake2b params v txs view vs.daaScore .full) := by
    apply filterAll_of_length
    rw [length_nil, zero_add]
    exact hkept.ge
  have htxs := congrArg (List.map Prod.fst) h.valid
  rw [map_map, zipIdx_map_fst] at htxs
  have hpairs : (txs.map (·.tx)).Pairwise fun x y => ∀ o ∈ x.spentOutpoints, o ∉ y.spentOutpoints := by
    rw [← htxs]
    exact pairwise_map.mpr hall.apart.2
  exact pairwise_map.mp hpairs

end Accepted

/-- Where the final sort moves nothing, the template is accepted exactly if no output is spent
by transactions that were taken from different batches. -/
theorem buildBlockTemplate_accepted {blake2b : Blake2b} {params : AtomicParams}
    {v : ValidatorParams}
    {utxoFreeTxValidation : BlockTransaction → ℕ → ℕ → Except TxRuleError Unit}
    {vs : VirtualState} {utxo : UtxoCollection} {past : List Transaction}
    {mode : TemplateBuildMode} {isSuccessful : Bool} {batch : List BlockTransaction}
    {batches : List (List BlockTransaction)} {txs : List BlockTransaction} {fees : List ℕ}
    {rounds : List Round}
    (hrounds : templateRounds blake2b params v utxoFreeTxValidation vs utxo.lookup batch batches =
      rounds)
    (hbound : Bound ⟨utxo, vs.atomicState⟩) (hhistory : History past utxo)
    (hhanded : ∀ r ∈ rounds, ∀ btx ∈ r.handed, btx.tx.isCoinbase = false ∧ btx.tx.inputs ≠ [] ∧
      ∀ tx ∈ past, tx.id = btx.tx.id → tx = btx.tx)
    (honce : rounds.Pairwise fun a b => ∀ x ∈ a.accepted, ∀ y ∈ b.handed, x.tx.id ≠ y.tx.id)
    (hsorted : InSubnetworkOrder (rounds.flatMap (·.accepted)))
    (h : buildBlockTemplate blake2b params v utxoFreeTxValidation vs utxo.lookup mode isSuccessful
      batch batches = some (txs, fees)) :
    AcceptedInOrder blake2b params v vs utxo.lookup txs fees ↔
      rounds.Pairwise fun a b => Apart a.accepted b.accepted := by
  have hstart : (⟨⟨utxo, vs.atomicState⟩, .default, past, []⟩ : Pending).Sound utxo.lookup :=
    ⟨hbound, hhistory, fun o e he _ => he⟩
  have hmore : moreRounds blake2b params v utxoFreeTxValidation vs utxo.lookup vs.build
      (batch :: batches) = rounds := by
    rw [← hrounds, templateRounds, firstBatch_eq]
    rfl
  obtain ⟨htxs, hlength⟩ := @moreBatches_txs blake2b params v utxoFreeTxValidation vs vs.build
    utxo.lookup (batch :: batches) rfl
  rw [hmore] at htxs
  have hbuild : ((moreBatches blake2b params v utxoFreeTxValidation vs utxo.lookup vs.build
      (batch :: batches)).txs, (moreBatches blake2b params v utxoFreeTxValidation vs utxo.lookup
        vs.build (batch :: batches)).calculatedFees) = (txs, fees) := by
    unfold buildBlockTemplate at h
    split_ifs at h
    rw [firstBatch_eq] at h
    rw [← sort_of_sorted hlength (htxs ▸ hsorted)]
    exact Option.some.inj h
  obtain ⟨rfl, rfl⟩ := Prod.mk.inj hbuild
  constructor
  · intro haccepted
    have hapart := haccepted.apart
    rw [htxs] at hapart
    exact (pairwise_flatMap.mp hapart).2
  · intro hapart
    have hempty : vs.build.Holds blake2b params v vs utxo past []
        ⟨⟨utxo, vs.atomicState⟩, .default, past, []⟩ :=
      ⟨.nil _, hstart, by simp, rfl, rfl, rfl, rfl⟩
    obtain ⟨chosen, g, hholds⟩ := moreBatches_holds hhistory (batch :: batches) (by
        rw [hmore]
        intro r hr btx hbtx
        obtain ⟨hplain, hinputs, hknown⟩ := hhanded r hr btx hbtx
        exact ⟨hplain, hinputs, hknown, by simp⟩) (by
        rw [hmore]
        apply pairwise_cons.mpr ⟨fun r _ => ⟨by simp [VirtualState.build],
          by simp [VirtualState.build, Apart]⟩, ?_⟩
        exact (honce.and hapart).imp fun hab => ⟨hab.1, hab.2⟩) hempty
    exact hholds.accepted hstart

section Samples

open AtomicConsensusState

def burnScript : ScriptPublicKey := ⟨0, [0x51]⟩

def createAssetTx (id : Bytes32) (spent : TransactionOutpoint) (script : ScriptPublicKey) :
    Transaction where
  id
  inputs := [⟨spent⟩]
  outputs := [⟨1000, script⟩]
  subnetworkId := subnetworkIdPayload
  payload := payloadHeader 0 ++ [1, 0, 0] ++ toLeBytes 16 0 ++ List.replicate 32 5 ++
    [1, 1, 0, 0, 65, 65, 0]

/-- A key is rewarded, and splits its reward into two outputs. -/
def splitChain : List ChainBlock := [⟨sampleBlock 200 [⟨1000000, keyScript⟩] [], [], 1⟩,
    ⟨sampleBlock 201 [] [⟨sampleId 7, [⟨⟨sampleId 200, 0⟩⟩], [⟨1000, keyScript⟩, ⟨1000, keyScript⟩],
      subnetworkFromByte 0, []⟩], [], 2⟩]

def sampleTemplate (j : JointState) (batch : List BlockTransaction)
    (batches : List (List BlockTransaction)) : Option (List BlockTransaction × List ℕ) :=
  buildBlockTemplate zeroHash sampleParams sampleValidator (fun _ _ _ => .ok ())
    ⟨3, 0, j.atomic⟩ j.utxo.lookup .standard true batch batches

def sampleReward : Transaction := rewardTx 200 [⟨1000000, keyScript⟩, ⟨1000000, keyScript⟩]

def rewardState : JointState := ⟨(∅ : UtxoCollection).applyTransaction sampleReward 1, .default⟩

theorem bound_rewardState : Bound rewardState :=
  Bound.coinbase Bound.genesis (by decide) rfl fun _ => rfl

theorem history_rewardState : History [sampleReward] rewardState.utxo :=
  @History.apply [] ∅ sampleReward History.empty (by simp) (by simp [sampleReward, rewardTx,
    Transaction.spentOutpoints]) 1

/-- A payment that pays more than it spends. -/
def overspendingTx : Transaction :=
  { nativeTx (sampleId 10) ⟨sampleId 200, 1⟩ keyScript with outputs := [⟨2000000, keyScript⟩] }

def rewardPayment : BlockTransaction := unlockedTx (nativeTx (sampleId 8) ⟨sampleId 200, 0⟩ keyScript)

def rewardCreation : BlockTransaction :=
  unlockedTx (createAssetTx (sampleId 9) ⟨sampleId 200, 1⟩ keyScript)

def rewardRounds : List Round :=
  [⟨[rewardPayment, unlockedTx overspendingTx], [rewardPayment]⟩, ⟨[rewardCreation], [rewardCreation]⟩]

/-- The rejected payment spends what the creation of the next batch spends; the third batch is
not asked for. -/
theorem rewardRounds_accepted :
    sampleTemplate rewardState [rewardPayment, unlockedTx overspendingTx] [[rewardCreation],
        [rewardPayment]] = some ([rewardPayment, rewardCreation], [999000, 999000]) ∧
      AcceptedInOrder zeroHash sampleParams sampleValidator ⟨3, 0, .default⟩ rewardState.utxo.lookup
        [rewardPayment, rewardCreation] [999000, 999000] := by
  have htemplate : sampleTemplate rewardState [rewardPayment, unlockedTx overspendingTx]
      [[rewardCreation], [rewardPayment]] =
        some ([rewardPayment, rewardCreation], [999000, 999000]) := by
    decide +kernel
  have hrounds : templateRounds zeroHash sampleParams sampleValidator (fun _ _ _ => .ok ())
      ⟨3, 0, .default⟩ rewardState.utxo.lookup [rewardPayment, unlockedTx overspendingTx]
      [[rewardCreation], [rewardPayment]] = rewardRounds := by
    decide +kernel
  apply And.intro htemplate
  apply (buildBlockTemplate_accepted hrounds bound_rewardState history_rewardState
    (by decide +kernel) (by decide +kernel) (by unfold InSubnetworkOrder; decide +kernel)
    htemplate).mpr
  unfold Apart
  decide +kernel

/-- After the split of the reward the creation is handed out before the native
transaction, and each spends one of the two outputs of the key. The template has them the
other way round, and then the creation would spend the last output of its owner. -/
theorem creation_before_native_refused :
    let batch := [unlockedTx (createAssetTx (sampleId 9) ⟨sampleId 7, 0⟩ burnScript),
      unlockedTx (nativeTx (sampleId 8) ⟨sampleId 7, 1⟩ burnScript)]
    ChainOk [] splitChain ∧
      ∃ j, advanceAll zeroHash sampleParams sampleValidator ⟨∅, .default⟩ splitChain = .ok j ∧
        sampleTemplate j batch [] = some (batch.reverse, [0, 0]) ∧
        (filterValidatedTransactionsByAtomicState zeroHash sampleParams
          (validateTransactionsInParallel zeroHash sampleParams sampleValidator batch.reverse
            j.utxo.lookup 3 .full) 3 ⟨zero32, 3, 0⟩ j.atomic).1.map (·.1.ptx.tx.id) =
          [sampleId 8] := by
  intro batch
  refine ⟨by decide +kernel, ?_⟩
  obtain ⟨j, hj, htest⟩ : ∃ j, advanceAll zeroHash sampleParams sampleValidator ⟨∅, .default⟩
      splitChain = .ok j ∧ (decide (sampleTemplate j batch [] = some (batch.reverse, [0, 0])) &&
        decide (((validateTransactionsInParallel zeroHash sampleParams sampleValidator batch.reverse
          j.utxo.lookup 3 .full).foldl (filterTx zeroHash sampleParams 3 ⟨zero32, 3, 0⟩)
            ⟨j.atomic, .default, [], [], []⟩).filtered.map (·.1.ptx.tx.id) = [sampleId 8])) =
          true :=
    exists_ok_of_any (by decide +kernel)
  rw [Bool.and_eq_true] at htest
  refine ⟨j, hj, of_decide_eq_true htest.1, ?_⟩
  unfold filterValidatedTransactionsByAtomicState
  rw [mergeSort_validated]
  exact of_decide_eq_true htest.2

end Samples

end CryptixAtomic.Processor
