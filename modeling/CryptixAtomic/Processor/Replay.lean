import CryptixAtomic.Processor.Mergeset

/-!
# Replay from stored block data

A node that has lost its token state replays the acceptance data of its selected chain: it
finds the spent entries among the outputs of the replay or the removed entries of the stored
difference, and applies the transitions again. Processing starts the growth counters for every
merged block, replay once for the whole mergeset.
-/
namespace CryptixAtomic.Processor

open Foundation Transition

structure HeaderInfo where
  daaScore : ℕ
  timestamp : ℕ
  deriving DecidableEq

/-- What replay reads, with the texts of read errors. -/
structure BlockDataStores where
  selectedChain : ℕ → Except String Bytes32
  headers : Bytes32 → Except String HeaderInfo
  acceptanceData : Bytes32 → Except String (List MergesetBlockAcceptanceData)
  utxoDiffs : Bytes32 → Except String UtxoDiff
  blockTransactions : Bytes32 → Except String (List Transaction)

structure ReplayLoop where
  atomicState : AtomicConsensusState
  growth : AtomicBlockStateGrowth
  replayAddedUtxos : UtxoCollection
  replayedTransactions : ℕ

/-- An entry made by the replay is used up, one of the difference is not. -/
def takeEntry (removed added : UtxoCollection) (o : TransactionOutpoint) :
    Option (UtxoEntry × UtxoCollection) :=
  match added.lookup o with
  | some entry => some (entry, added.erase o)
  | none => (removed.lookup o).map fun entry => (entry, added)

def collectEntries (message : TransactionOutpoint → String) (removed : UtxoCollection) :
    UtxoCollection → List TransactionInput → Except String (List UtxoEntry × UtxoCollection)
  | added, [] => .ok ([], added)
  | added, input :: rest =>
    match takeEntry removed added input.previousOutpoint with
    | none => .error (message input.previousOutpoint)
    | some (entry, added) =>
      match collectEntries message removed added rest with
      | .error err => .error err
      | .ok (entries, added) => .ok (entry :: entries, added)

theorem collectEntries_length {message : TransactionOutpoint → String} {removed : UtxoCollection}
    {inputs : List TransactionInput} {added : UtxoCollection} {r : List UtxoEntry × UtxoCollection}
    (h : collectEntries message removed added inputs = .ok r) : inputs.length = r.1.length := by
  induction inputs generalizing added r with
  | nil =>
    cases h
    rfl
  | cons input inputs ih =>
    rw [collectEntries] at h
    split at h
    · cases h
    · split at h
      · cases h
      · rename_i hrest
        cases h
        simp [ih hrest]

section Replay

variable (blake2b : Blake2b) (params : AtomicParams) (stores : BlockDataStores)
  (blockHash : Bytes32) (povDaaScore : ℕ) (removed : UtxoCollection)

def replayTx (ctx : AtomicCreationContext) (loop : ReplayLoop) (tx : Transaction) :
    Except String ReplayLoop :=
  let txHex := hex32 tx.id
  let hash := hex32 blockHash
  let source := hex32 ctx.sourceBlockHash
  let message := fun outpoint : TransactionOutpoint =>
    s!"accepted tx `{txHex}` input `{outpoint}` has no replay-local or removed UTXO entry in block `{hash}` diff"
  match h : collectEntries message removed loop.replayAddedUtxos tx.inputs with
  | .error err => .error err
  | .ok (entries, added) =>
    let added := added.insertAll (tx.createdEntries povDaaScore)
    if tx.isCoinbase then .ok { loop with replayAddedUtxos := added }
    else
      match (validateAndApplyAtomicStateTransitionWithGrowth blake2b params
          ⟨tx, entries, collectEntries_length h⟩ povDaaScore ctx).run
            (loop.atomicState, loop.growth) with
      | .error err _ => .error
          s!"failed replaying Atomic transition for accepted tx `{txHex}` in block `{source}` while rebuilding `{hash}`: {err}"
      | .ok _ (atomicState, growth) =>
        .ok ⟨atomicState, growth, added, loop.replayedTransactions + 1⟩

/-- An entry of the acceptance data has to name a transaction of its block. -/
def replayAcceptedTx (ctx : AtomicCreationContext) (txs : List Transaction) (loop : ReplayLoop)
    (accepted : AcceptedTxEntry) : Except String ReplayLoop := do
  let hash := hex32 blockHash
  let source := hex32 ctx.sourceBlockHash
  let index := accepted.indexWithinBlock
  let tx ← okOr txs[index]?
    s!"accepted tx index `{index}` is out of bounds for block `{source}` while replaying `{hash}`"
  let acceptedId := hex32 accepted.transactionId
  let actualId := hex32 tx.id
  failIf (tx.id ≠ accepted.transactionId)
    s!"accepted tx id mismatch for block `{source}` index `{index}` while replaying `{hash}`: acceptance={acceptedId}, actual={actualId}"
  replayTx blake2b params blockHash povDaaScore removed ctx loop tx

def replayAcceptedTxs (ctx : AtomicCreationContext) (txs : List Transaction) :
    ReplayLoop → List AcceptedTxEntry → Except String ReplayLoop
  | loop, [] => .ok loop
  | loop, accepted :: rest => do
    let loop ← replayAcceptedTx blake2b params blockHash povDaaScore removed ctx txs loop accepted
    replayAcceptedTxs ctx txs loop rest

def replayAcceptedBlock (loop : ReplayLoop) (acceptedBlock : MergesetBlockAcceptanceData) :
    Except String ReplayLoop := do
  let hash := hex32 blockHash
  let source := hex32 acceptedBlock.blockHash
  let header ← (stores.headers acceptedBlock.blockHash).mapError fun err =>
    s!"accepted block `{source}` header unavailable while replaying `{hash}`: {err}"
  let ctx : AtomicCreationContext := ⟨acceptedBlock.blockHash, header.daaScore, header.timestamp⟩
  let txs ← (stores.blockTransactions acceptedBlock.blockHash).mapError fun err =>
    s!"accepted block `{source}` transaction list unavailable while replaying `{hash}`: {err}"
  replayAcceptedTxs blake2b params blockHash povDaaScore removed ctx txs loop
    acceptedBlock.acceptedTransactions

def replayAcceptedBlocks : ReplayLoop → List MergesetBlockAcceptanceData →
    Except String ReplayLoop
  | loop, [] => .ok loop
  | loop, acceptedBlock :: rest => do
    let loop ← replayAcceptedBlock blake2b params stores blockHash povDaaScore removed loop
      acceptedBlock
    replayAcceptedBlocks loop rest

/-- The state after a replay, and the number of transactions replayed. -/
def replayAtomicAcceptanceForBlock (atomicState : AtomicConsensusState) :
    Except String (AtomicConsensusState × ℕ) := do
  let hash := hex32 blockHash
  let acceptanceData ← (stores.acceptanceData blockHash).mapError fun err =>
    s!"block `{hash}` acceptance data unavailable: {err}"
  let utxoDiff ← (stores.utxoDiffs blockHash).mapError fun err =>
    s!"block `{hash}` UTXO diff unavailable: {err}"
  let loop ← replayAcceptedBlocks blake2b params stores blockHash povDaaScore utxoDiff.remove
    ⟨atomicState, .default, ∅, 0⟩ acceptanceData
  return (loop.atomicState, loop.replayedTransactions)

end Replay

section Chain

variable (blake2b : Blake2b) (params : AtomicParams) (stores : BlockDataStores)

/-- The loop over indices of the selected chain: the delta and the state hash of each
block, and the last state. -/
def replayChain : AtomicConsensusState → List ℕ →
    Except String (List (AtomicConsensusStateDelta × Bytes32) × AtomicConsensusState)
  | s, [] => .ok ([], s)
  | s, index :: rest => do
    let blockHash ← (stores.selectedChain index).mapError fun err =>
      s!"startup repair selected-chain index `{index}` unavailable during block-data replay: {err}"
    let hash := hex32 blockHash
    let header ← (stores.headers blockHash).mapError fun err =>
      s!"startup repair selected-chain block `{hash}` header unavailable during block-data replay: {err}"
    let replayed ← replayAtomicAcceptanceForBlock blake2b params stores blockHash header.daaScore
      s.beginDeltaTracking
    let taken := replayed.1.takeDelta
    let rebuilt ← replayChain taken.2 rest
    return ((taken.1, taken.2.canonicalHash blake2b) :: rebuilt.1, rebuilt.2)

end Chain

/-- The stores hold what a merged block is made of. -/
structure BlockStored (stores : BlockDataStores) (block : MergedBlock) : Prop where
  header : stores.headers block.ctx.sourceBlockHash =
    .ok ⟨block.ctx.sourceBlockDaaScore, block.ctx.sourceBlockTime⟩
  transactions : stores.blockTransactions block.ctx.sourceBlockHash = .ok block.transactions

/-- What was stored when a chain block was committed. -/
structure Committed (stores : BlockDataStores) (blockHash : Bytes32) (c : ChainBlock)
    (m : UtxoProcessingContext) : Prop where
  header : ∃ timestamp, stores.headers blockHash = .ok ⟨c.povDaaScore, timestamp⟩
  acceptanceData : stores.acceptanceData blockHash = .ok m.mergesetAcceptanceData
  utxoDiff : stores.utxoDiffs blockHash = .ok m.mergesetDiff
  merged : ∀ block ∈ c.blocks, BlockStored stores block

end CryptixAtomic.Processor
