import CryptixAtomic.Processor.Ledger
import CryptixAtomic.Processor.Validation

/-!
# Mergeset processing

The state of a chain block is computed from that of its selected parent: first the coinbase
of the parent, then the transactions of the merged blocks in order, each validated
against the set as it stood before its block. Transactions that occur twice, spend
twice or break a token rule are skipped. The UTXO difference is written at the end.

`ChainOk` is what the earlier stages of the pipeline promise of a chain of mergesets.
-/
namespace CryptixAtomic.Processor

open Foundation Transition

/-- A block of a mergeset: where it stands, its coinbase and its other transactions. -/
structure MergedBlock where
  ctx : AtomicCreationContext
  coinbase : Transaction
  txs : List BlockTransaction
  deriving DecidableEq

def MergedBlock.tx? (block : MergedBlock) : ℕ → Option Transaction
  | 0 => some block.coinbase
  | i + 1 => (block.txs[i]?).map (·.tx)

structure AcceptedTxEntry where
  transactionId : Bytes32
  indexWithinBlock : ℕ
  deriving DecidableEq

structure MergesetBlockAcceptanceData where
  blockHash : Bytes32
  acceptedTransactions : List AcceptedTxEntry
  deriving DecidableEq

/-- What is collected over the blocks of a mergeset. The ids and outpoints are the two
sets against which later transactions are checked. -/
structure UtxoProcessingContext where
  mergesetDiff : UtxoDiff
  acceptedTxIds : List Bytes32
  acceptedSpentOutpoints : List TransactionOutpoint
  mergesetAcceptanceData : List MergesetBlockAcceptanceData
  mergesetFees : List (Bytes32 × ℕ)
  atomicState : AtomicConsensusState

/-- What is collected over the transactions of one block. -/
structure BlockLoop where
  diff : UtxoDiff
  acceptedTxIds : List Bytes32
  acceptedSpentOutpoints : List TransactionOutpoint
  atomicState : AtomicConsensusState
  growth : AtomicBlockStateGrowth
  blockFee : ℕ
  acceptedTransactions : List AcceptedTxEntry

/-- The input of one computation: the mergeset, selected parent first, and the score. -/
structure ChainBlock where
  selectedParent : MergedBlock
  others : List MergedBlock
  povDaaScore : ℕ
  deriving DecidableEq

def ChainBlock.blocks (c : ChainBlock) : List MergedBlock := c.selectedParent :: c.others

def BlockLoop.accept (b : BlockLoop) (p : ValidatedTransaction × ℕ) (diff : UtxoDiff)
    (atomicState : AtomicConsensusState) (growth : AtomicBlockStateGrowth) : BlockLoop where
  diff := diff
  acceptedTxIds := b.acceptedTxIds ++ [p.1.ptx.tx.id]
  acceptedSpentOutpoints := b.acceptedSpentOutpoints ++ p.1.ptx.tx.spentOutpoints
  atomicState := atomicState
  growth := growth
  blockFee := b.blockFee + p.1.calculatedFee
  acceptedTransactions := b.acceptedTransactions ++ [⟨p.1.ptx.tx.id, p.2⟩]

section Processing

variable (blake2b : Blake2b) (params : AtomicParams) (v : ValidatorParams)

/-- One validated transaction: skipped, or accepted at the end of the loop body. -/
def processTx (povDaaScore : ℕ) (ctx : AtomicCreationContext) (b : BlockLoop)
    (p : ValidatedTransaction × ℕ) : Except UtxoAlgebraError BlockLoop :=
  let ptx := p.1.ptx
  if ptx.tx.id ∈ b.acceptedTxIds then .ok b
  else if ptx.tx.inputs.any fun input => input.previousOutpoint ∈ b.acceptedSpentOutpoints then
    .ok b
  else
    match (validateAndApplyAtomicStateTransitionWithGrowth blake2b params ptx povDaaScore ctx).run
        (b.atomicState, b.growth) with
    | .error _ (atomicState, growth) => .ok { b with atomicState, growth }
    | .ok _ (atomicState, growth) => do
      let diff ← b.diff.addTransaction ptx.populatedInputs ptx.tx povDaaScore
      return b.accept p diff atomicState growth

def processTxs (povDaaScore : ℕ) (ctx : AtomicCreationContext) :
    BlockLoop → List (ValidatedTransaction × ℕ) → Except UtxoAlgebraError BlockLoop
  | b, [] => .ok b
  | b, p :: rest => do
    let b ← processTx blake2b params povDaaScore ctx b p
    processTxs povDaaScore ctx b rest

/-- The scripts of the selected parent were checked when it was verified itself. -/
def mergeFlags (isSelectedParent : Bool) : TxValidationFlags :=
  if isSelectedParent then .skipScriptChecks else .full

/-- The loop over one block starts with growth counters of its own. -/
def UtxoProcessingContext.openBlock (m : UtxoProcessingContext) : BlockLoop where
  diff := m.mergesetDiff
  acceptedTxIds := m.acceptedTxIds
  acceptedSpentOutpoints := m.acceptedSpentOutpoints
  atomicState := m.atomicState
  growth := .default
  blockFee := 0
  acceptedTransactions := []

/-- For the selected parent the coinbase is put in front. -/
def UtxoProcessingContext.closeBlock (m : UtxoProcessingContext) (isSelectedParent : Bool)
    (block : MergedBlock) (b : BlockLoop) : UtxoProcessingContext :=
  let accepted := if isSelectedParent then ⟨block.coinbase.id, 0⟩ :: b.acceptedTransactions
    else b.acceptedTransactions
  { mergesetDiff := b.diff
    acceptedTxIds := b.acceptedTxIds
    acceptedSpentOutpoints := b.acceptedSpentOutpoints
    mergesetAcceptanceData := m.mergesetAcceptanceData ++ [⟨block.ctx.sourceBlockHash, accepted⟩]
    mergesetFees := m.mergesetFees ++ [(block.ctx.sourceBlockHash, b.blockFee)]
    atomicState := b.atomicState }

/-- One merged block, validated against the set before it. -/
def processBlock (view : UtxoView) (povDaaScore : ℕ) (isSelectedParent : Bool)
    (m : UtxoProcessingContext) (block : MergedBlock) :
    Except UtxoAlgebraError UtxoProcessingContext := do
  let validated := validateTransactionsInParallel blake2b params v block.txs
    (m.mergesetDiff.compose view) povDaaScore (mergeFlags isSelectedParent)
  let b ← processTxs blake2b params povDaaScore block.ctx m.openBlock validated
  return m.closeBlock isSelectedParent block b

def processBlocks (view : UtxoView) (povDaaScore : ℕ) :
    UtxoProcessingContext → List MergedBlock → Except UtxoAlgebraError UtxoProcessingContext
  | m, [] => .ok m
  | m, block :: rest => do
    let m ← processBlock blake2b params v view povDaaScore false m block
    processBlocks view povDaaScore m rest

def startContext (diff : UtxoDiff) (coinbaseId : Bytes32) (selectedParentState :
    AtomicConsensusState) : UtxoProcessingContext where
  mergesetDiff := diff
  acceptedTxIds := [coinbaseId]
  acceptedSpentOutpoints := []
  mergesetAcceptanceData := []
  mergesetFees := []
  atomicState := selectedParentState.beginDeltaTracking

/-- The state of a chain block relative to its selected parent. An error is a panic of
the source, which unwraps the additions to the difference. -/
def calculateUtxoState (selectedParentView : UtxoView) (selectedParentState : AtomicConsensusState)
    (c : ChainBlock) : Except UtxoAlgebraError UtxoProcessingContext := do
  let diff ← UtxoDiff.empty.addTransaction [] c.selectedParent.coinbase c.povDaaScore
  let m ← processBlock blake2b params v selectedParentView c.povDaaScore true
    (startContext diff c.selectedParent.coinbase.id selectedParentState) c.selectedParent
  let m ← processBlocks blake2b params v selectedParentView c.povDaaScore m c.others
  return { m with acceptedTxIds := m.acceptedTxIds.mergeSort (· ≤ ·) }

section Observers

variable {A : Type} (observe : A → ValidatedTransaction × ℕ → A)

/-- The loop body, with something else kept up to date at each accepted transaction. -/
def processTxWith (povDaaScore : ℕ) (ctx : AtomicCreationContext) (b : BlockLoop) (a : A)
    (p : ValidatedTransaction × ℕ) : Except UtxoAlgebraError (BlockLoop × A) :=
  let ptx := p.1.ptx
  if ptx.tx.id ∈ b.acceptedTxIds then .ok (b, a)
  else if ptx.tx.inputs.any fun input => input.previousOutpoint ∈ b.acceptedSpentOutpoints then
    .ok (b, a)
  else
    match (validateAndApplyAtomicStateTransitionWithGrowth blake2b params ptx povDaaScore ctx).run
        (b.atomicState, b.growth) with
    | .error _ (atomicState, growth) => .ok ({ b with atomicState, growth }, a)
    | .ok _ (atomicState, growth) => do
      let diff ← b.diff.addTransaction ptx.populatedInputs ptx.tx povDaaScore
      return (b.accept p diff atomicState growth, observe a p)

def processTxsWith (povDaaScore : ℕ) (ctx : AtomicCreationContext) :
    BlockLoop → A → List (ValidatedTransaction × ℕ) → Except UtxoAlgebraError (BlockLoop × A)
  | b, a, [] => .ok (b, a)
  | b, a, p :: rest => do
    let (b, a) ← processTxWith blake2b params observe povDaaScore ctx b a p
    processTxsWith povDaaScore ctx b a rest

def processBlockWith (view : UtxoView) (povDaaScore : ℕ) (isSelectedParent : Bool)
    (m : UtxoProcessingContext) (a : A) (block : MergedBlock) :
    Except UtxoAlgebraError (UtxoProcessingContext × A) := do
  let validated := validateTransactionsInParallel blake2b params v block.txs
    (m.mergesetDiff.compose view) povDaaScore (mergeFlags isSelectedParent)
  let (b, a) ← processTxsWith blake2b params observe povDaaScore block.ctx m.openBlock a validated
  return (m.closeBlock isSelectedParent block b, a)

def processBlocksWith (view : UtxoView) (povDaaScore : ℕ) :
    UtxoProcessingContext → A → List MergedBlock →
      Except UtxoAlgebraError (UtxoProcessingContext × A)
  | m, a, [] => .ok (m, a)
  | m, a, block :: rest => do
    let (m, a) ← processBlockWith blake2b params v observe view povDaaScore false m a block
    processBlocksWith view povDaaScore m a rest

/-- The computation of a chain block with something else kept up to date, which has taken
note of the coinbase of the selected parent already. -/
def calculateUtxoStateWith (selectedParentView : UtxoView)
    (selectedParentState : AtomicConsensusState) (c : ChainBlock) (a : A) :
    Except UtxoAlgebraError (UtxoProcessingContext × A) := do
  let diff ← UtxoDiff.empty.addTransaction [] c.selectedParent.coinbase c.povDaaScore
  let (m, a) ← processBlockWith blake2b params v observe selectedParentView c.povDaaScore true
    (startContext diff c.selectedParent.coinbase.id selectedParentState) a c.selectedParent
  let (m, a) ← processBlocksWith blake2b params v observe selectedParentView c.povDaaScore m a
    c.others
  return ({ m with acceptedTxIds := m.acceptedTxIds.mergeSort (· ≤ ·) }, a)

end Observers

def advance (j : JointState) (c : ChainBlock) : Except UtxoAlgebraError JointState := do
  let m ← calculateUtxoState blake2b params v j.utxo.lookup j.atomic c
  return ⟨m.mergesetDiff.applyTo j.utxo, m.atomicState⟩

/-- The joint state after a chain of blocks, each the selected parent of the next. -/
def advanceAll : JointState → List ChainBlock → Except UtxoAlgebraError JointState
  | j, [] => .ok j
  | j, c :: rest => do
    let j ← advance blake2b params v j c
    advanceAll j rest

end Processing

/-- What body validation in isolation has checked of a block. -/
structure MergedBlock.Isolated (block : MergedBlock) : Prop where
  coinbase : block.coinbase.isCoinbase = true
  noInputs : block.coinbase.inputs = []
  plain : ∀ btx ∈ block.txs, btx.tx.isCoinbase = false
  inputs : ∀ btx ∈ block.txs, btx.tx.inputs ≠ []
  distinct : ∀ btx ∈ block.txs, btx.tx.spentOutpoints.Nodup

instance (block : MergedBlock) : Decidable block.Isolated := decidable_of_iff
    (block.coinbase.isCoinbase = true ∧ block.coinbase.inputs = [] ∧
      (∀ btx ∈ block.txs, btx.tx.isCoinbase = false) ∧ (∀ btx ∈ block.txs, btx.tx.inputs ≠ []) ∧
      ∀ btx ∈ block.txs, btx.tx.spentOutpoints.Nodup)
    ⟨fun ⟨coinbase, noInputs, plain, inputs, distinct⟩ =>
      ⟨coinbase, noInputs, plain, inputs, distinct⟩,
      fun h => ⟨h.coinbase, h.noInputs, h.plain, h.inputs, h.distinct⟩⟩

def MergedBlock.transactions (block : MergedBlock) : List Transaction :=
  block.coinbase :: block.txs.map (·.tx)

def chainTransactions (chain : List ChainBlock) : List Transaction :=
  chain.flatMap fun c => c.blocks.flatMap MergedBlock.transactions

def coinbaseBlueScore (tx : Transaction) : List UInt8 := tx.payload.take 8

/-- What the pipeline promises of a chain that follows the accepted transactions `past`: its
blocks passed validation in isolation, the hash that gives transactions their ids has no
collision among them, and the blue scores recorded in the coinbases of chain blocks, which
grow along the chain, are distinct. -/
structure ChainOk (past : List Transaction) (chain : List ChainBlock) : Prop where
  isolated : ∀ c ∈ chain, ∀ block ∈ c.blocks, block.Isolated
  ids : ∀ tx ∈ past ++ chainTransactions chain, ∀ tx' ∈ past ++ chainTransactions chain,
    tx.id = tx'.id → tx = tx'
  blueScores : (chain.map fun c => coinbaseBlueScore c.selectedParent.coinbase).Nodup
  pastScores : ∀ tx ∈ past, tx.isCoinbase = true → ∀ c ∈ chain,
    coinbaseBlueScore tx ≠ coinbaseBlueScore c.selectedParent.coinbase

instance (past : List Transaction) (chain : List ChainBlock) : Decidable (ChainOk past chain) :=
  decidable_of_iff ((∀ c ∈ chain, ∀ block ∈ c.blocks, block.Isolated) ∧
      (∀ tx ∈ past ++ chainTransactions chain, ∀ tx' ∈ past ++ chainTransactions chain,
        tx.id = tx'.id → tx = tx') ∧
      (chain.map fun c => coinbaseBlueScore c.selectedParent.coinbase).Nodup ∧
      ∀ tx ∈ past, tx.isCoinbase = true → ∀ c ∈ chain,
        coinbaseBlueScore tx ≠ coinbaseBlueScore c.selectedParent.coinbase)
    ⟨fun ⟨isolated, ids, blueScores, pastScores⟩ => ⟨isolated, ids, blueScores, pastScores⟩,
      fun h => ⟨h.isolated, h.ids, h.blueScores, h.pastScores⟩⟩

section Samples

open AtomicConsensusState

/-- A validator that leaves mass and scripts alone, without a maturity period. -/
def sampleValidator : ValidatorParams := ⟨0, 0, fun _ _ => .ok (), fun _ _ => .ok (), fun _ _ => .ok ()⟩

/-- A transaction in a block, its sequence locks disabled. -/
def unlockedTx (tx : Transaction) : BlockTransaction :=
  ⟨tx, ⟨tx.inputs.map fun _ => sequenceLockTimeDisabled, [], [], 0⟩⟩

def rewardTx (n : UInt8) (outputs : List TransactionOutput) : Transaction :=
  ⟨sampleId n, [], outputs, subnetworkIdCoinbase, List.replicate 8 n⟩

/-- A transaction of one input and one output on the native subnetwork. -/
def nativeTx (id : Bytes32) (spent : TransactionOutpoint) (script : ScriptPublicKey) :
    Transaction :=
  ⟨id, [⟨spent⟩], [⟨1000, script⟩], subnetworkFromByte 0, []⟩

/-- The block `n`, whose coinbase has the same id. -/
def sampleBlock (n : UInt8) (rewards : List TransactionOutput) (txs : List Transaction) :
    MergedBlock :=
  ⟨⟨sampleId n, 0, 0⟩, rewardTx n rewards, txs.map unlockedTx⟩

/-- A key is rewarded. -/
def rewardBlock : MergedBlock := sampleBlock 200 [⟨1000000000, keyScript⟩] []

/-- It creates a pool from its reward and buys one token. -/
def poolBlock : MergedBlock := sampleBlock 201 [] [(launchTx (sampleId 7) 208333507).tx]

def poolChain : List ChainBlock := [⟨rewardBlock, [], 1⟩, ⟨poolBlock, [], 2⟩]

theorem poolChain_ok : ChainOk [] poolChain := by decide +kernel

end Samples

end CryptixAtomic.Processor
