import CryptixAtomic.Processor.MergesetRuns
import CryptixAtomic.Transition.Backing

/-!
# Verification of a block and its acceptance by its child

A block is verified against the state that its own mergeset left. When a child merges it as
selected parent, the transactions are validated again, without scripts and at the score of
the child, and applied to the same state. `selected_parent_accepted` says that all of them
are accepted, as long as scores fit the signed numbers of the sequence locks.
-/
namespace CryptixAtomic.Processor

open Foundation Transition UtxoProcessingContext List Option

inductive BlockRuleError
  | badUTXOCommitment (hash given expected : Bytes32)
  | badAcceptedIDMerkleRoot (hash given expected : Bytes32)
  | badCoinbaseTransaction
  | invalidTransactionsInUtxoContext (invalid total : ℕ)
  deriving DecidableEq

structure FilterLoop where
  atomicState : AtomicConsensusState
  growth : AtomicBlockStateGrowth
  seenTxids : List Bytes32
  spentOutpoints : List TransactionOutpoint
  filtered : List (ValidatedTransaction × ℕ)

def FilterLoop.accept (f : FilterLoop) (p : ValidatedTransaction × ℕ)
    (atomicState : AtomicConsensusState) (growth : AtomicBlockStateGrowth) : FilterLoop where
  atomicState := atomicState
  growth := growth
  seenTxids := f.seenTxids ++ [p.1.ptx.tx.id]
  spentOutpoints := f.spentOutpoints ++ p.1.ptx.tx.spentOutpoints
  filtered := f.filtered ++ [p]

section Filter

variable (blake2b : Blake2b) (params : AtomicParams)

/-- An id is seen even if the transaction is then rejected. -/
def filterTx (povDaaScore : ℕ) (ctx : AtomicCreationContext) (f : FilterLoop)
    (p : ValidatedTransaction × ℕ) : FilterLoop :=
  let tx := p.1.ptx.tx
  if tx.id ∈ f.seenTxids then f
  else if tx.inputs.any fun input => input.previousOutpoint ∈ f.spentOutpoints then
    { f with seenTxids := f.seenTxids ++ [tx.id] }
  else
    match (validateAndApplyAtomicStateTransitionWithGrowth blake2b params p.1.ptx povDaaScore
        ctx).run (f.atomicState, f.growth) with
    | .error _ (atomicState, growth) =>
      { f with atomicState, growth, seenTxids := f.seenTxids ++ [tx.id] }
    | .ok _ (atomicState, growth) => f.accept p atomicState growth

def filterValidatedTransactionsByAtomicState (validated : List (ValidatedTransaction × ℕ))
    (povDaaScore : ℕ) (ctx : AtomicCreationContext) (atomicState : AtomicConsensusState) :
    List (ValidatedTransaction × ℕ) × AtomicConsensusState :=
  let f := (validated.mergeSort fun p q => p.2 ≤ q.2).foldl
    (filterTx blake2b params povDaaScore ctx) ⟨atomicState, .default, [], [], []⟩
  (f.filtered, f.atomicState)

structure HeaderCommitments where
  utxoCommitment : Bytes32
  acceptedIdMerkleRoot : Bytes32

/-- The block is verified with the result `m` of its mergeset. The multiset hash, the
merkle root and the expected coinbase are parameters. -/
def verifyExpectedUtxoState (v : ValidatorParams) (calcMerkleRoot : List Bytes32 → Bytes32)
    (isExpectedCoinbase : Transaction → Bool) (utxoCommitment : Bytes32) (m : UtxoProcessingContext)
    (selectedParentView : UtxoView) (header : HeaderCommitments) (block : MergedBlock) :
    Except BlockRuleError Unit := do
  let hash := block.ctx.sourceBlockHash
  let daaScore := block.ctx.sourceBlockDaaScore
  let expectedCommitment := m.atomicState.headerCommitmentForState blake2b utxoCommitment
    (params.isPayloadHfActive daaScore)
  failIf (expectedCommitment ≠ header.utxoCommitment)
    (.badUTXOCommitment hash header.utxoCommitment expectedCommitment)
  let expectedRoot := calcMerkleRoot m.acceptedTxIds
  failIf (expectedRoot ≠ header.acceptedIdMerkleRoot)
    (.badAcceptedIDMerkleRoot hash header.acceptedIdMerkleRoot expectedRoot)
  failIf (isExpectedCoinbase block.coinbase = false) .badCoinbaseTransaction
  let validated := validateTransactionsInParallel blake2b params v block.txs
    (m.mergesetDiff.compose selectedParentView) daaScore .full
  let filtered := (filterValidatedTransactionsByAtomicState blake2b params validated daaScore
    block.ctx m.atomicState).1
  failIf (filtered.length < block.txs.length)
    (.invalidTransactionsInUtxoContext (block.txs.length - filtered.length) block.txs.length)

end Filter

section Filtered

variable {blake2b : Blake2b} {params : AtomicParams} {povDaaScore : ℕ} {ctx : AtomicCreationContext}

/-- A run of the filter that rejects nothing. -/
inductive FilterAll (blake2b : Blake2b) (params : AtomicParams) (povDaaScore : ℕ)
    (ctx : AtomicCreationContext) : FilterLoop → List (ValidatedTransaction × ℕ) → Prop
  | nil (f : FilterLoop) : FilterAll blake2b params povDaaScore ctx f []
  | cons {f : FilterLoop} {p : ValidatedTransaction × ℕ} {ps : List (ValidatedTransaction × ℕ)}
      {atomicState : AtomicConsensusState} {growth : AtomicBlockStateGrowth}
      (new : p.1.ptx.tx.id ∉ f.seenTxids)
      (unspent : ∀ o ∈ p.1.ptx.tx.spentOutpoints, o ∉ f.spentOutpoints)
      (run : (validateAndApplyAtomicStateTransitionWithGrowth blake2b params p.1.ptx povDaaScore
        ctx).run (f.atomicState, f.growth) = .ok () (atomicState, growth))
      (rest : FilterAll blake2b params povDaaScore ctx (f.accept p atomicState growth) ps) :
      FilterAll blake2b params povDaaScore ctx f (p :: ps)

theorem filterTx_cases (f : FilterLoop) (p : ValidatedTransaction × ℕ) :
    (filterTx blake2b params povDaaScore ctx f p).filtered = f.filtered ∨
      ∃ atomicState growth, p.1.ptx.tx.id ∉ f.seenTxids ∧
        (∀ o ∈ p.1.ptx.tx.spentOutpoints, o ∉ f.spentOutpoints) ∧
        (validateAndApplyAtomicStateTransitionWithGrowth blake2b params p.1.ptx povDaaScore
          ctx).run (f.atomicState, f.growth) = .ok () (atomicState, growth) ∧
        filterTx blake2b params povDaaScore ctx f p = f.accept p atomicState growth := by
  unfold filterTx
  simp only
  split_ifs with hseen hspent
  · exact .inl rfl
  · exact .inl rfl
  · cases hrun : (validateAndApplyAtomicStateTransitionWithGrowth blake2b params p.1.ptx
        povDaaScore ctx).run (f.atomicState, f.growth) with
    | error => exact .inl rfl
    | ok u out =>
      refine .inr ⟨out.1, out.2, hseen, ?_, rfl, rfl⟩
      intro o ho hmem
      obtain ⟨input, hinput, rfl⟩ := mem_map.mp ho
      exact hspent (any_eq_true.mpr ⟨input, hinput, by simpa using hmem⟩)

theorem length_filtered_le (ps : List (ValidatedTransaction × ℕ)) (f : FilterLoop) :
    (ps.foldl (filterTx blake2b params povDaaScore ctx) f).filtered.length ≤
      f.filtered.length + ps.length := by
  induction ps generalizing f with
  | nil => simp
  | cons p ps ih =>
    have hrest := ih (filterTx blake2b params povDaaScore ctx f p)
    rw [foldl_cons, length_cons]
    rcases filterTx_cases f p with hsame | ⟨atomicState, growth, -, -, -, haccept⟩
    · rw [hsame] at hrest
      omega
    · rw [haccept] at hrest ⊢
      have hlen : (f.accept p atomicState growth).filtered.length = f.filtered.length + 1 := by
        simp [FilterLoop.accept]
      omega

theorem filterAll_of_length {ps : List (ValidatedTransaction × ℕ)} {f : FilterLoop}
    (h : f.filtered.length + ps.length ≤
      (ps.foldl (filterTx blake2b params povDaaScore ctx) f).filtered.length) :
    FilterAll blake2b params povDaaScore ctx f ps := by
  induction ps generalizing f with
  | nil => exact .nil f
  | cons p ps ih =>
    rw [foldl_cons, length_cons] at h
    rcases filterTx_cases f p with hsame | ⟨atomicState, growth, hnew, hunspent, hrun, haccept⟩
    · have hle := @length_filtered_le blake2b params povDaaScore ctx ps
        (filterTx blake2b params povDaaScore ctx f p)
      rw [hsame] at hle
      omega
    · apply FilterAll.cons hnew hunspent hrun
      apply ih
      rw [haccept] at h
      have hlen : (f.accept p atomicState growth).filtered.length = f.filtered.length + 1 := by
        simp [FilterLoop.accept]
      omega

end Filtered

section Validation

variable {blake2b : Blake2b} {params : AtomicParams} {v : ValidatorParams}

theorem asI64_le {a b : ℕ} (h : a ≤ b) (hb : b < 2 ^ 63) : asI64 a ≤ asI64 b := by
  rw [asI64, asI64, if_pos (lt_of_le_of_lt h hb), if_pos hb]
  exact_mod_cast h

variable {view view' : UtxoView}

theorem lookupEntries_mono {inputs : List TransactionInput}
    {entries : List UtxoEntry} (h : lookupEntries view inputs = some entries)
    (hview : ∀ input ∈ inputs, ∀ e, view input.previousOutpoint = some e →
      view' input.previousOutpoint = some e) : lookupEntries view' inputs = some entries := by
  induction inputs generalizing entries with
  | nil => exact h
  | cons input inputs ih =>
    rw [forall_mem_cons] at hview
    rw [lookupEntries] at h
    split at h
    · rename_i e rest hentry hrest
      obtain rfl := some.inj h
      rw [lookupEntries, hview.1 e hentry, ih hrest hview.2]
    · cases h

theorem populate_mono {tx : Transaction} {ptx : PopulatedTransaction}
    (h : populate view tx = some ptx)
    (hview : ∀ input ∈ tx.inputs, ∀ e, view input.previousOutpoint = some e →
      view' input.previousOutpoint = some e) : populate view' tx = some ptx := by
  unfold populate at h ⊢
  split at h
  · cases h
  · rename_i entries hentries
    have hlater := lookupEntries_mono hentries hview
    obtain rfl := some.inj h
    split
    · rename_i hnone
      rw [hlater] at hnone
      cases hnone
    · rename_i entries' hentries'
      rw [hlater] at hentries'
      cases hentries'
      rfl

variable {ptx : PopulatedTransaction} {witness : TxWitness} {a b : ℕ}

theorem checkTransactionCoinbaseMaturity_mono (hab : a ≤ b)
    (h : checkTransactionCoinbaseMaturity v ptx a = .ok ()) :
    checkTransactionCoinbaseMaturity v ptx b = .ok () := by
  unfold checkTransactionCoinbaseMaturity at h ⊢
  split at h
  · cases h
  · rename_i hnone
    rw [find?_eq_none] at hnone
    have hlater : (ptx.populatedInputs.zipIdx.find? fun p => isImmature v b p.1.2) = none := by
      rw [find?_eq_none]
      intro p hp himmature
      apply hnone p hp
      simp only [isImmature, Bool.and_eq_true, decide_eq_true_eq] at himmature ⊢
      exact ⟨himmature.1, lt_of_le_of_lt hab himmature.2⟩
    rw [hlater]

theorem checkSequenceLock_mono (hab : asI64 a ≤ asI64 b)
    (h : checkSequenceLock ptx witness a = .ok ()) : checkSequenceLock ptx witness b = .ok () := by
  unfold checkSequenceLock at h ⊢
  split_ifs at h with hlocked
  rw [if_neg]
  intro hlater
  obtain ⟨p, hp, hlock⟩ := any_eq_true.mp hlater
  apply hlocked
  refine any_eq_true.mpr ⟨p, hp, ?_⟩
  simp only [isLocked, decide_eq_true_eq] at hlock ⊢
  exact ⟨hlock.1, hab.trans hlock.2⟩

/-- The scores of a block and of a child that takes it as selected parent: they grow, as
the signed numbers the sequence locks read, and lie on the same side of both activations. -/
structure ScoresFollow (params : AtomicParams) (v : ValidatorParams) (parent child : ℕ) : Prop where
  le : parent ≤ child
  fits : child < 2 ^ 63
  payload : params.isPayloadHfActive parent = params.isPayloadHfActive child
  storageMass : parent > v.storageMassActivationDaaScore ↔ child > v.storageMassActivationDaaScore

/-- All checks without scripts pass again at the later score, with the same fee. -/
theorem validatePopulatedTransaction_mono (hscores : ScoresFollow params v a b) {fee : ℕ}
    (h : validatePopulatedTransactionAndGetFee blake2b params v ptx witness a .full = .ok fee) :
    validatePopulatedTransactionAndGetFee blake2b params v ptx witness b .skipScriptChecks =
      .ok fee := by
  have hcontext : checkAtomicPayloadContext blake2b params ptx b =
      checkAtomicPayloadContext blake2b params ptx a := by
    rw [checkAtomicPayloadContext, checkAtomicPayloadContext, hscores.payload]
  have hmaturity := fun h => @checkTransactionCoinbaseMaturity_mono v ptx a b hscores.le h
  have hlocks := fun h =>
    @checkSequenceLock_mono ptx witness a b (asI64_le hscores.le hscores.fits) h
  by_cases hactive : b > v.storageMassActivationDaaScore
  · have hbefore := hscores.storageMass.mpr hactive
    simp only [validatePopulatedTransactionAndGetFee, ne_eq, reduceCtorEq, not_false_eq_true,
      true_and, if_pos hactive, if_pos hbefore, except_bind_eq_ok, except_pure_eq_ok,
      hcontext] at h ⊢
    obtain ⟨_, hmature, _, hpayload, totalIn, hin, totalOut, hout, _, hmass, _, hlock, _, -, _, -,
      rfl⟩ := h
    exact ⟨(), hmaturity hmature, (), hpayload, totalIn, hin, totalOut, hout, (), hmass, (),
      hlocks hlock, (), rfl⟩
  · have hbefore := mt hscores.storageMass.mp hactive
    simp only [validatePopulatedTransactionAndGetFee, ne_eq, reduceCtorEq, not_false_eq_true,
      true_and, if_neg hactive, if_neg hbefore, except_bind_eq_ok, except_pure_eq_ok,
      hcontext] at h ⊢
    obtain ⟨_, hmature, _, hpayload, totalIn, hin, totalOut, hout, _, hlock, _, -, _, -, rfl⟩ := h
    exact ⟨(), hmaturity hmature, (), hpayload, totalIn, hin, totalOut, hout, (), hlocks hlock,
      (), rfl⟩

theorem validateTransactionInUtxoContext_mono (hscores : ScoresFollow params v a b)
    {btx : BlockTransaction} {validated : ValidatedTransaction}
    (hview : ∀ input ∈ btx.tx.inputs, ∀ e, view input.previousOutpoint = some e →
      view' input.previousOutpoint = some e)
    (h : validateTransactionInUtxoContext blake2b params v view a .full btx = .ok validated) :
    validateTransactionInUtxoContext blake2b params v view' b .skipScriptChecks btx =
      .ok validated := by
  unfold validateTransactionInUtxoContext at h ⊢
  split at h
  · cases h
  · rename_i ptx hptx
    rw [populate_mono hptx hview]
    cases hfee : validatePopulatedTransactionAndGetFee blake2b params v ptx btx.witness a .full with
    | error =>
      rw [hfee] at h
      cases h
    | ok =>
      rw [hfee] at h
      simp only [validatePopulatedTransaction_mono hscores hfee]
      exact h

theorem validateTransactionsInParallel_mono (hscores : ScoresFollow params v a b)
    {txs : List BlockTransaction}
    (hview : ∀ btx ∈ txs, ∀ input ∈ btx.tx.inputs, ∀ e, view input.previousOutpoint = some e →
      view' input.previousOutpoint = some e)
    (hall : (validateTransactionsInParallel blake2b params v txs view a .full).length =
      txs.length) :
    validateTransactionsInParallel blake2b params v txs view' b .skipScriptChecks =
      validateTransactionsInParallel blake2b params v txs view a .full := by
  unfold validateTransactionsInParallel at hall ⊢
  have hlen : (txs.zipIdx 1).length = txs.length := length_zipIdx
  rw [← hlen, filterMap_length_eq_length] at hall
  apply filterMap_congr
  intro p hp
  have hbtx : p.1 ∈ txs := by
    obtain ⟨btx, i⟩ := p
    exact fst_mem_of_mem_zipIdx hp
  have hsome := hall p hp
  cases hvalid : validateTransactionInUtxoContext blake2b params v view a .full p.1 with
  | error =>
    rw [hvalid] at hsome
    cases hsome
  | ok =>
    rw [validateTransactionInUtxoContext_mono hscores (hview p.1 hbtx) hvalid]

end Validation

section Acceptance

variable {blake2b : Blake2b} {params : AtomicParams} {base : UtxoView}
  {ctx : AtomicCreationContext} {past all : List Transaction} {start utxo : UtxoCollection}
  {b : BlockLoop} {a c : ℕ}

/-- The token rules read the score for the activation only. -/
theorem withGrowth_score (h : params.isPayloadHfActive a = params.isPayloadHfActive c)
    (ptx : PopulatedTransaction) :
    validateAndApplyAtomicStateTransitionWithGrowth blake2b params ptx c ctx =
      validateAndApplyAtomicStateTransitionWithGrowth blake2b params ptx a ctx := by
  have hpayload : payloadOf params ptx c = payloadOf params ptx a := by
    rw [payloadOf, payloadOf, h]
  unfold validateAndApplyAtomicStateTransitionWithGrowth estimateAtomicStateGrowthForTx
    validateAndApplyAtomicStateTransition
  rw [hpayload]

theorem processTx_accepts {p : ValidatedTransaction × ℕ} {povDaaScore : ℕ}
    (h : LoopInv base past utxo b.diff b.atomicState)
    (hkept : b.Keeps start utxo) (hp : Candidate past start p)
    (hnew : p.1.ptx.tx.id ∉ b.acceptedTxIds)
    (hunspent : ∀ o ∈ p.1.ptx.tx.spentOutpoints, o ∉ b.acceptedSpentOutpoints)
    {atomicState : AtomicConsensusState} {growth : AtomicBlockStateGrowth}
    (hrun : (validateAndApplyAtomicStateTransitionWithGrowth blake2b params p.1.ptx povDaaScore
      ctx).run (b.atomicState, b.growth) = .ok () (atomicState, growth)) :
    ∃ diff, processTx blake2b params povDaaScore ctx b p =
        .ok (b.accept p diff atomicState growth) ∧
      TxAccepted blake2b params base povDaaScore ctx utxo b p (b.accept p diff atomicState growth) ∧
      ∀ tx ∈ past, tx.id ≠ p.1.ptx.tx.id := by
  have hspent : (p.1.ptx.tx.inputs.any fun input =>
      decide (input.previousOutpoint ∈ b.acceptedSpentOutpoints)) = false := by
    rw [List.any_eq_false]
    intro input hinput
    simpa using hunspent _ (List.mem_map_of_mem hinput)
  have hstep : processTx blake2b params povDaaScore ctx b p =
      (b.diff.addTransaction p.1.ptx.populatedInputs p.1.ptx.tx povDaaScore).map
        fun diff => b.accept p diff atomicState growth := by
    unfold processTx
    simp only [if_neg hnew, hspent, hrun, Bool.false_eq_true, if_false]
    cases b.diff.addTransaction p.1.ptx.populatedInputs p.1.ptx.tx povDaaScore <;> rfl
  cases hdiff : b.diff.addTransaction p.1.ptx.populatedInputs p.1.ptx.tx povDaaScore with
  | error =>
    rw [hdiff] at hstep
    rcases processTx_cases h hkept hp with hskip | ⟨b', hb', -⟩
    · rw [hstep] at hskip
      cases hskip
    · rw [hstep] at hb'
      cases hb'
  | ok diff =>
    rw [hdiff] at hstep
    refine ⟨diff, hstep, ?_⟩
    rcases processTx_cases h hkept hp with hskip | ⟨b', hb', haccepted, hfresh⟩
    · -- an accepted transaction is listed, so the loop cannot be where it was
      rw [hstep] at hskip
      have hids := congrArg (fun l : BlockLoop => l.acceptedTxIds.length) (Except.ok.inj hskip)
      simp [BlockLoop.accept] at hids
    · rw [hstep] at hb'
      obtain rfl := Except.ok.inj hb'
      exact ⟨haccepted, hfresh⟩

theorem processTxs_of_filterAll {ps : List (ValidatedTransaction × ℕ)} {f : FilterLoop}
    {coinbaseId : Bytes32} (hpayload : params.isPayloadHfActive a = params.isPayloadHfActive c)
    (hfilter : FilterAll blake2b params a ctx f ps)
    (h : LoopInv base past utxo b.diff b.atomicState) (hpast : ∀ tx ∈ past, tx ∈ all)
    (hkept : b.Keeps start utxo) (hps : ∀ p ∈ ps, p.1.ptx.tx ∈ all ∧ Candidate all start p)
    (hcoinbase : ∀ p ∈ ps, p.1.ptx.tx.id ≠ coinbaseId)
    (hstate : f.atomicState.content = b.atomicState.content) (hgrowth : f.growth = b.growth)
    (hseen : b.acceptedTxIds = coinbaseId :: f.seenTxids)
    (hspent : b.acceptedSpentOutpoints = f.spentOutpoints) :
    ∃ b', processTxs blake2b params c ctx b ps = .ok b' ∧ b'.acceptedTransactions =
        b.acceptedTransactions ++ ps.map (fun p => ⟨p.1.ptx.tx.id, p.2⟩) ∧
      b'.blockFee = b.blockFee + (ps.map fun p => p.1.calculatedFee).sum := by
  induction hfilter generalizing b past utxo with
  | nil => exact ⟨b, rfl, by simp, by simp⟩
  | @cons f p ps atomicState growth new unspent run rest ih =>
    rw [forall_mem_cons] at hps hcoinbase
    obtain ⟨⟨hmem, hp⟩, hps⟩ := hps
    have hnew : p.1.ptx.tx.id ∉ b.acceptedTxIds := by
      rw [hseen, mem_cons, not_or]
      exact ⟨hcoinbase.1, new⟩
    have hunspent : ∀ o ∈ p.1.ptx.tx.spentOutpoints, o ∉ b.acceptedSpentOutpoints := by
      rw [hspent]
      exact unspent
    obtain ⟨-, -, hnone⟩ := h.unspent hkept (hp.mono hpast) hunspent
    obtain ⟨t', hrun, hsame⟩ := @withGrowth_of_content blake2b params _ b.atomicState _
      ⟨p.1.ptx, a, ctx⟩ f.growth growth hstate (hstate ▸ h.bound.valid) (hstate ▸ h.bound.coherent)
      (fun i => hstate ▸ h.bound.unlisted (hnone i)) run
    rw [hgrowth, ← withGrowth_score hpayload] at hrun
    obtain ⟨diff, hstep, haccepted, hfresh⟩ :=
      processTx_accepts h hkept (hp.mono hpast) hnew hunspent hrun
    obtain ⟨b', hrest, hentries, hfee⟩ := @ih _ _ (b.accept p diff t' growth)
      (h.accepted haccepted hfresh) (forall_mem_cons.mpr ⟨hmem, hpast⟩) (haccepted.kept hkept) hps
      hcoinbase.2 hsame rfl (by simp [BlockLoop.accept, FilterLoop.accept, hseen])
      (by simp [BlockLoop.accept, FilterLoop.accept, hspent])
    refine ⟨b', ?_, ?_, ?_⟩
    · rw [processTxs, hstep]
      exact hrest
    · rw [hentries]
      simp [BlockLoop.accept]
    · rw [hfee]
      simp [BlockLoop.accept, Nat.add_assoc]

end Acceptance

section SelectedParent

variable {blake2b : Blake2b} {params : AtomicParams} {v : ValidatorParams} {view : UtxoView}
  {povDaaScore : ℕ} {flags : TxValidationFlags} {txs : List BlockTransaction}

/-- Validation keeps the order of the block, so that sorting by index does nothing. -/
theorem mergeSort_validated :
    (validateTransactionsInParallel blake2b params v txs view povDaaScore flags).mergeSort
        (fun p q => p.2 ≤ q.2) =
      validateTransactionsInParallel blake2b params v txs view povDaaScore flags := by
  apply mergeSort_of_pairwise
  have hindices : (txs.zipIdx 1).Pairwise fun p q => p.2 ≤ q.2 := by
    have hrange : (range' 1 txs.length).Pairwise (· ≤ ·) := pairwise_le_range' ..
    rw [← zipIdx_map_snd 1 txs, pairwise_map] at hrange
    exact hrange
  apply Pairwise.filterMap _ _ hindices
  intro p q hpq p' hp' q' hq'
  obtain ⟨_, -, rfl⟩ := map_eq_some_iff.mp hp'
  obtain ⟨_, -, rfl⟩ := map_eq_some_iff.mp hq'
  simpa using hpq

theorem validated_eq_zipIdx
    (hall : (validateTransactionsInParallel blake2b params v txs view povDaaScore flags).length =
      txs.length) :
    (validateTransactionsInParallel blake2b params v txs view povDaaScore flags).map
        (fun p => (p.1.ptx.tx, p.2)) = (txs.map (·.tx)).zipIdx 1 := by
  unfold validateTransactionsInParallel at hall ⊢
  have hlen : (txs.zipIdx 1).length = txs.length := length_zipIdx
  rw [← hlen, filterMap_length_eq_length] at hall
  rw [map_filterMap, zipIdx_map, ← filterMap_eq_map]
  apply filterMap_congr
  intro p hp
  have hsome := hall p hp
  cases hvalid : validateTransactionInUtxoContext blake2b params v view povDaaScore flags p.1 with
  | error =>
    rw [hvalid] at hsome
    cases hsome
  | ok =>
    have htx := (validateTransactionInUtxoContext_eq_ok hvalid).1
    simp only [Except.toOption, map_some, htx]
    rfl

/-- Later blocks of a mergeset add behind what the first has left. -/
theorem processBlocks_prefix {blocks : List MergedBlock} {m m' : UtxoProcessingContext}
    (h : processBlocks blake2b params v view povDaaScore m blocks = .ok m') :
    m.mergesetAcceptanceData <+: m'.mergesetAcceptanceData ∧
      m.mergesetFees <+: m'.mergesetFees := by
  induction blocks generalizing m with
  | nil =>
    obtain rfl := Except.ok.inj h
    exact ⟨prefix_rfl, prefix_rfl⟩
  | cons block blocks ih =>
    rw [processBlocks, except_bind_eq_ok] at h
    obtain ⟨mid, hblock, hrest⟩ := h
    rw [processBlock, except_bind_eq_ok] at hblock
    obtain ⟨b, -, hmid⟩ := hblock
    obtain rfl := Except.ok.inj hmid
    obtain ⟨hdata, hfees⟩ := ih hrest
    exact ⟨(prefix_append _ _).trans hdata, (prefix_append _ _).trans hfees⟩

theorem verified_filterAll {calcMerkleRoot : List Bytes32 → Bytes32}
    {isExpectedCoinbase : Transaction → Bool} {utxoCommitment : Bytes32}
    {m : UtxoProcessingContext} {header : HeaderCommitments} {block : MergedBlock}
    (h : verifyExpectedUtxoState blake2b params v calcMerkleRoot isExpectedCoinbase utxoCommitment m
      view header block = .ok ()) :
    (validateTransactionsInParallel blake2b params v block.txs (m.mergesetDiff.compose view)
        block.ctx.sourceBlockDaaScore .full).length = block.txs.length ∧
      FilterAll blake2b params block.ctx.sourceBlockDaaScore block.ctx
        ⟨m.atomicState, .default, [], [], []⟩
        (validateTransactionsInParallel blake2b params v block.txs (m.mergesetDiff.compose view)
          block.ctx.sourceBlockDaaScore .full) := by
  simp only [verifyExpectedUtxoState, except_bind_eq_ok, failIf_eq_ok,
    filterValidatedTransactionsByAtomicState, mergeSort_validated] at h
  obtain ⟨_, -, _, -, _, -, hfiltered⟩ := h
  have hle : (validateTransactionsInParallel blake2b params v block.txs
      (m.mergesetDiff.compose view) block.ctx.sourceBlockDaaScore .full).length ≤
        block.txs.length := by
    have hzip := length_filterMap_le (fun p : BlockTransaction × ℕ =>
      (validateTransactionInUtxoContext blake2b params v (m.mergesetDiff.compose view)
        block.ctx.sourceBlockDaaScore .full p.1).toOption.map fun validated => (validated, p.2))
      (block.txs.zipIdx 1)
    rwa [length_zipIdx] at hzip
  have hout := @length_filtered_le blake2b params block.ctx.sourceBlockDaaScore block.ctx
    (validateTransactionsInParallel blake2b params v block.txs (m.mergesetDiff.compose view)
      block.ctx.sourceBlockDaaScore .full) ⟨m.atomicState, .default, [], [], []⟩
  rw [length_nil, Nat.zero_add] at hout
  refine ⟨by omega, filterAll_of_length ?_⟩
  rw [length_nil]
  omega

end SelectedParent

section Child

variable {blake2b : Blake2b} {params : AtomicParams} {v : ValidatorParams} {j : JointState}
  {past : List Transaction} {c : ChainBlock} {score : ℕ}

/-- The mergeset `c` accepts its selected parent as it was validated at `score`: every
transaction of the block, with the same fee. -/
def AcceptsParent (blake2b : Blake2b) (params : AtomicParams) (v : ValidatorParams)
    (view : UtxoView) (state : AtomicConsensusState) (score : ℕ) (c : ChainBlock) : Prop :=
  ∃ validated m diff,
    validateTransactionsInParallel blake2b params v c.selectedParent.txs view score .full =
      validated ∧
    validated.map (fun p => (p.1.ptx.tx, p.2)) = (c.selectedParent.txs.map (·.tx)).zipIdx 1 ∧
    calculateUtxoState blake2b params v view state c = .ok m ∧
    UtxoDiff.empty.addTransaction [] c.selectedParent.coinbase c.povDaaScore = .ok diff ∧
    validateTransactionsInParallel blake2b params v c.selectedParent.txs (diff.compose view)
      c.povDaaScore .skipScriptChecks = validated ∧
    m.mergesetAcceptanceData.head? = some ⟨c.selectedParent.ctx.sourceBlockHash,
      ⟨c.selectedParent.coinbase.id, 0⟩ :: validated.map fun p => ⟨p.1.ptx.tx.id, p.2⟩⟩ ∧
    m.mergesetFees.head? = some (c.selectedParent.ctx.sourceBlockHash,
      (validated.map fun p => p.1.calculatedFee).sum)

theorem lookup_start {diff : UtxoDiff} {utxo : UtxoCollection} {tx : Transaction} {daaScore : ℕ}
    (hinputs : tx.inputs = []) (hfresh : ∀ i, utxo.lookup (tx.outpoint i) = none)
    (hshows : diff.Shows utxo.lookup (utxo.applyTransaction tx daaScore)) {o : TransactionOutpoint}
    {e : UtxoEntry} (he : utxo.lookup o = some e) : diff.compose utxo.lookup o = some e := by
  rw [← hshows]
  apply lookup_apply_of_kept hfresh he
  simp [Transaction.spentOutpoints, hinputs]

theorem calculateUtxoState_of_filterAll (hbound : Bound j) (hhistory : History past j.utxo)
    (hchain : ChainOk past [c]) (hscores : ScoresFollow params v score c.povDaaScore)
    (hall : (validateTransactionsInParallel blake2b params v c.selectedParent.txs j.utxo.lookup
      score .full).length = c.selectedParent.txs.length)
    (hfilter : FilterAll blake2b params score c.selectedParent.ctx ⟨j.atomic, .default, [], [], []⟩
      (validateTransactionsInParallel blake2b params v c.selectedParent.txs j.utxo.lookup score
        .full)) :
    AcceptsParent blake2b params v j.utxo.lookup j.atomic score c := by
  have hparent := hchain.isolated c mem_cons_self c.selectedParent mem_cons_self
  obtain ⟨diff, hdiff, hinv⟩ := exists_start blake2b params hbound hhistory hparent
    hchain.coinbase_new
  have hfresh := hhistory.fresh hchain.coinbase_new
  have hview : ∀ o e, j.utxo.lookup o = some e → diff.compose j.utxo.lookup o = some e :=
    fun o e he => lookup_start hparent.noInputs hfresh hinv.shows he
  have hsame := validateTransactionsInParallel_mono hscores
    (fun btx _ input _ e he => hview input.previousOutpoint e he) hall
  have hmem : ∀ btx ∈ c.selectedParent.txs, btx.tx ∈ past ++ chainTransactions [c] := by
    intro btx hbtx
    exact hchain.mem_chain mem_cons_self (mem_cons_of_mem _ (List.mem_map_of_mem hbtx))
  have hcoinbase : c.selectedParent.coinbase ∈ past ++ chainTransactions [c] :=
    hchain.mem_chain mem_cons_self mem_cons_self
  have hps := @MergedBlock.Isolated.candidates blake2b params v score (past ++ chainTransactions [c])
    (j.utxo.applyTransaction c.selectedParent.coinbase c.povDaaScore) c.selectedParent hparent
    hchain.ids hmem j.utxo.lookup (fun o e he => by rw [hinv.shows]; exact hview o e he) .full
  have hnotCoinbase : ∀ p ∈ validateTransactionsInParallel blake2b params v c.selectedParent.txs
      j.utxo.lookup score .full, p.1.ptx.tx.id ≠ c.selectedParent.coinbase.id := by
    intro p hp hid
    have hplain := (hps p hp).2.plain
    rw [hchain.ids _ (hps p hp).1 _ hcoinbase hid, hparent.coinbase] at hplain
    cases hplain
  have hpast : ∀ tx ∈ c.selectedParent.coinbase :: past, tx ∈ past ++ chainTransactions [c] := by
    rw [forall_mem_cons]
    exact ⟨hcoinbase, fun tx htx => mem_append_left _ htx⟩
  obtain ⟨b, hrun, hentries, hfee⟩ := @processTxs_of_filterAll blake2b params j.utxo.lookup
    c.selectedParent.ctx (c.selectedParent.coinbase :: past) (past ++ chainTransactions [c]) _ _
    (startContext diff c.selectedParent.coinbase.id j.atomic).openBlock score c.povDaaScore _ _
    c.selectedParent.coinbase.id hscores.payload hfilter hinv hpast
    (fun _ _ he _ => he) hps hnotCoinbase rfl rfl rfl rfl
  have hblock : processBlock blake2b params v j.utxo.lookup c.povDaaScore true
      (startContext diff c.selectedParent.coinbase.id j.atomic) c.selectedParent =
        .ok ((startContext diff c.selectedParent.coinbase.id j.atomic).closeBlock true
          c.selectedParent b) := by
    rw [processBlock]
    change (processTxs blake2b params c.povDaaScore c.selectedParent.ctx _
      (validateTransactionsInParallel blake2b params v c.selectedParent.txs
        (diff.compose j.utxo.lookup) c.povDaaScore .skipScriptChecks) >>= _) = _
    rw [hsame, hrun]
    rfl
  obtain ⟨m, -, -, -, hcomputed, -⟩ := calculateUtxoState_run blake2b params v hbound hhistory hchain
  have hparts := hcomputed
  simp only [calculateUtxoState, hdiff, hblock, except_bind_eq_ok, except_pure_eq_ok,
    Except.ok.injEq, exists_eq_left'] at hparts
  obtain ⟨last, hlast, hfinal⟩ := hparts
  obtain ⟨⟨moreData, hdata⟩, ⟨moreFees, hfees⟩⟩ := processBlocks_prefix hlast
  refine ⟨_, _, diff, rfl, validated_eq_zipIdx hall, hcomputed, hdiff, hsame, ?_, ?_⟩
  · rw [← hfinal]
    change last.mergesetAcceptanceData.head? = _
    rw [← hdata]
    simp [closeBlock, startContext, hentries, openBlock]
  · rw [← hfinal]
    change last.mergesetFees.head? = _
    rw [← hfees]
    simp [closeBlock, startContext, hfee, openBlock]

/-- A block verified at the end of a chain from genesis is accepted in full by every
child that takes it as selected parent. -/
theorem selected_parent_accepted {chain : List ChainBlock} {block child : ChainBlock}
    {mergeset : UtxoProcessingContext} {calcMerkleRoot : List Bytes32 → Bytes32}
    {isExpectedCoinbase : Transaction → Bool} {utxoCommitment : Bytes32}
    {header : HeaderCommitments} (hchain : ChainOk [] (chain ++ [block, child]))
    (hstate : advanceAll blake2b params v ⟨∅, .default⟩ chain = .ok j)
    (hmergeset : calculateUtxoState blake2b params v j.utxo.lookup j.atomic block = .ok mergeset)
    (hscore : child.selectedParent.ctx.sourceBlockDaaScore = block.povDaaScore)
    (hverified : verifyExpectedUtxoState blake2b params v calcMerkleRoot isExpectedCoinbase
      utxoCommitment mergeset j.utxo.lookup header child.selectedParent = .ok ())
    (hscores : ScoresFollow params v block.povDaaScore child.povDaaScore) :
    AcceptsParent blake2b params v (mergeset.mergesetDiff.compose j.utxo.lookup)
      mergeset.atomicState block.povDaaScore child := by
  obtain ⟨l, events, past, hrun, hbound, hhistory, hrest⟩ :=
    @exists_chainRun_append blake2b params v _ [] chain [block, child] Bound.genesis
      History.empty hchain
  obtain rfl : l = j := Except.ok.inj (hrun.advanceAll.symm.trans hstate)
  obtain ⟨m, diff, trace, utxo, hcomputed, -, hprocessed, hbound', hhistory', hchild, -⟩ :=
    calculateUtxoState_run blake2b params v hbound hhistory hrest
  obtain rfl := Except.ok.inj (hcomputed.symm.trans hmergeset)
  -- the view of the child is the set that the mergeset of the block has left
  have hview : m.mergesetDiff.compose l.utxo.lookup = utxo.lookup :=
    funext fun o => (hprocessed.shows o).symm
  obtain ⟨hall, hfilter⟩ := verified_filterAll hverified
  rw [hscore] at hall hfilter
  simp only [hview] at hall hfilter ⊢
  exact calculateUtxoState_of_filterAll hbound' hhistory' hchild hscores hall hfilter

end Child

section Samples

open AtomicConsensusState

/-- The reward of block 200, in a mergeset at the given score. -/
def rewarded (score : ℕ) : ChainBlock := ⟨sampleBlock 200 [⟨1000, keyScript⟩] [], [], score⟩

/-- Block 201 at the given score, which spends the reward without a relative lock. -/
def spending (score : ℕ) : MergedBlock := ⟨⟨sampleId 201, score, 0⟩, rewardTx 201 [],
    [⟨nativeTx (sampleId 8) ⟨sampleId 200, 0⟩ keyScript, ⟨[0], [], [], 0⟩⟩]⟩

/-- The verification of the block that spends the reward, after the mergeset `m`. -/
def verifySpending (score : ℕ) (m : UtxoProcessingContext) : Except BlockRuleError Unit :=
  verifyExpectedUtxoState zeroHash sampleParams sampleValidator (fun _ => zero32) (fun _ => true)
    zero32 m (∅ : UtxoCollection).lookup ⟨zero32, zero32⟩ (spending score)

/-- The block is verified, and accepted by its child one score later. -/
theorem spending_accepted :
    ∃ m, calculateUtxoState zeroHash sampleParams sampleValidator (∅ : UtxoCollection).lookup
        .default (rewarded 5) = .ok m ∧ verifySpending 5 m = .ok () ∧
      AcceptsParent zeroHash sampleParams sampleValidator
        (m.mergesetDiff.compose (∅ : UtxoCollection).lookup) m.atomicState 5
        ⟨spending 5, [], 6⟩ := by
  obtain ⟨m, hm, htest⟩ : ∃ m, calculateUtxoState zeroHash sampleParams sampleValidator
      (∅ : UtxoCollection).lookup .default (rewarded 5) = .ok m ∧
        (verifySpending 5 m).toOption.any (fun _ => true) = true :=
    exists_ok_of_any (by decide +kernel)
  obtain ⟨_, hverified, -⟩ := exists_ok_of_any htest
  refine ⟨m, hm, hverified, ?_⟩
  exact @selected_parent_accepted _ _ _ ⟨∅, .default⟩ [] (rewarded 5) ⟨spending 5, [], 6⟩ m _ _ _ _
    (by decide +kernel) rfl hm rfl hverified ⟨by decide, by decide, by decide, by decide⟩

/-- One score further than the largest signed number every lock is closed: the block is
verified, and its child accepts the coinbase alone. -/
theorem spending_refused : ChainOk [] [rewarded (2 ^ 63 - 1), ⟨spending (2 ^ 63 - 1), [], 2 ^ 63⟩] ∧
      sampleParams.isPayloadHfActive (2 ^ 63 - 1) = sampleParams.isPayloadHfActive (2 ^ 63) ∧
      (2 ^ 63 - 1 > sampleValidator.storageMassActivationDaaScore ↔
        2 ^ 63 > sampleValidator.storageMassActivationDaaScore) ∧
      ∃ m m', calculateUtxoState zeroHash sampleParams sampleValidator
          (∅ : UtxoCollection).lookup .default (rewarded (2 ^ 63 - 1)) = .ok m ∧
        verifySpending (2 ^ 63 - 1) m = .ok () ∧
        calculateUtxoState zeroHash sampleParams sampleValidator
          (m.mergesetDiff.compose (∅ : UtxoCollection).lookup) m.atomicState
          ⟨spending (2 ^ 63 - 1), [], 2 ^ 63⟩ = .ok m' ∧
        m'.mergesetAcceptanceData = [⟨sampleId 201, [⟨sampleId 201, 0⟩]⟩] := by
  refine ⟨by decide +kernel, by decide, by decide, ?_⟩
  obtain ⟨m, hm, htest⟩ : ∃ m, calculateUtxoState zeroHash sampleParams sampleValidator
      (∅ : UtxoCollection).lookup .default (rewarded (2 ^ 63 - 1)) = .ok m ∧
        ((verifySpending (2 ^ 63 - 1) m).toOption.any (fun _ => true) &&
        (calculateUtxoState zeroHash sampleParams sampleValidator
          (m.mergesetDiff.compose (∅ : UtxoCollection).lookup) m.atomicState
          ⟨spending (2 ^ 63 - 1), [], 2 ^ 63⟩).toOption.any fun m' =>
            decide (m'.mergesetAcceptanceData = [⟨sampleId 201, [⟨sampleId 201, 0⟩]⟩])) = true :=
    exists_ok_of_any (by decide +kernel)
  rw [Bool.and_eq_true] at htest
  obtain ⟨_, hverified, -⟩ := exists_ok_of_any htest.1
  obtain ⟨m', hm', hdata⟩ := exists_ok_of_any htest.2
  exact ⟨m, m', hm, hverified, hm', of_decide_eq_true hdata⟩

end Samples

end CryptixAtomic.Processor
