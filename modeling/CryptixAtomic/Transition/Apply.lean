import CryptixAtomic.Transition.Operations

/-!
# The transition of the consensus state by one transaction

`validateAndApplyAtomicStateTransition` is the entry point of block processing. It
changes the state in place and does not undo anything when it fails, so it is an
action of `AtomicM`. The variant with growth limits also carries the counters of the
block that is being processed.
-/
namespace CryptixAtomic

open Foundation

structure AtomicStateGrowthLimits where
  maxNewAssets : ℕ
  maxNewBalanceKeys : ℕ
  maxNewNonceKeys : ℕ
  maxNewPools : ℕ
  maxNewAnchorOwnerKeys : ℕ

structure AtomicStateGrowth where
  newAssets : ℕ
  newBalanceKeys : ℕ
  newNonceKeys : ℕ
  newPools : ℕ
  newAnchorOwnerKeys : ℕ
  deriving DecidableEq

/-- Keys created so far by the block that is being processed. -/
structure AtomicBlockStateGrowth where
  used : AtomicStateGrowth
  deriving DecidableEq

namespace AtomicBlockStateGrowth

def default : AtomicBlockStateGrowth := ⟨⟨0, 0, 0, 0, 0⟩⟩

def ensureLimit (current delta limit : ℕ) (label : String) : Except String Unit :=
  let total := saturatingAdd 64 current delta
  failIf (total > limit)
    s!"atomic state growth limit exceeded for {label}: block would create `{total}`, limit is `{limit}`"

def ensureCanAdd (growth : AtomicBlockStateGrowth) (delta : AtomicStateGrowth)
    (limits : AtomicStateGrowthLimits) : Except String Unit := do
  ensureLimit growth.used.newAssets delta.newAssets limits.maxNewAssets "assets"
  ensureLimit growth.used.newBalanceKeys delta.newBalanceKeys limits.maxNewBalanceKeys
    "balance keys"
  ensureLimit growth.used.newNonceKeys delta.newNonceKeys limits.maxNewNonceKeys "nonce keys"
  ensureLimit growth.used.newPools delta.newPools limits.maxNewPools "liquidity pools"
  ensureLimit growth.used.newAnchorOwnerKeys delta.newAnchorOwnerKeys limits.maxNewAnchorOwnerKeys
    "anchor owner keys"

def commit (growth : AtomicBlockStateGrowth) (delta : AtomicStateGrowth) : AtomicBlockStateGrowth :=
  ⟨{ newAssets := saturatingAdd 64 growth.used.newAssets delta.newAssets
     newBalanceKeys := saturatingAdd 64 growth.used.newBalanceKeys delta.newBalanceKeys
     newNonceKeys := saturatingAdd 64 growth.used.newNonceKeys delta.newNonceKeys
     newPools := saturatingAdd 64 growth.used.newPools delta.newPools
     newAnchorOwnerKeys :=
       saturatingAdd 64 growth.used.newAnchorOwnerKeys delta.newAnchorOwnerKeys }⟩

end AtomicBlockStateGrowth

/-- The parameters of the processor that the token rules read. -/
structure AtomicParams where
  payloadHfActivationDaaScore : ℕ
  atomicStateGrowthLimits : AtomicStateGrowthLimits

def AtomicParams.isPayloadHfActive (params : AtomicParams) (povDaaScore : ℕ) : Bool :=
  povDaaScore ≥ params.payloadHfActivationDaaScore

namespace AtomicPayloadOp

def allowsLiquidityVaultOutput : AtomicPayloadOp → Bool
  | createLiquidityAsset _ | buyLiquidityExactIn _ | sellLiquidityExactIn _
  | claimLiquidityFees _ => true
  | _ => false

/-- The operations that move a pool to a new vault. -/
def spendsLiquidityVault : AtomicPayloadOp → Bool
  | buyLiquidityExactIn _ | sellLiquidityExactIn _ | claimLiquidityFees _ => true
  | _ => false

def isCreateLiquidity : AtomicPayloadOp → Bool
  | createLiquidityAsset _ => true
  | _ => false

/-- Creations count per owner, everything else per owner and asset. -/
def nonceKey (op : AtomicPayloadOp) (ownerId : Bytes32) : AtomicNonceKey :=
  match op.assetId? with
  | none => .owner ownerId
  | some assetId => .asset ownerId assetId

end AtomicPayloadOp

namespace Transition

section Anchors

variable (blake2b : Blake2b) (ptx : PopulatedTransaction)

def spentOwners : List Bytes32 :=
  ptx.populatedInputs.filterMap fun p => atomicOwnerIdFromScript blake2b p.2.scriptPublicKey

def createdOwners : List Bytes32 :=
  ptx.tx.outputs.filterMap fun output => atomicOwnerIdFromScript blake2b output.scriptPublicKey

/-- The owners whose anchors a transaction touches, in the order they are visited. -/
def anchorOwners : List Bytes32 :=
  (spentOwners blake2b ptx ++ createdOwners blake2b ptx).toFinset.sort (· ≤ ·)

def newAnchorCount (ownerId : Bytes32) (oldCount : ℕ) : ℕ :=
  saturatingAdd 64 (oldCount - (spentOwners blake2b ptx).count ownerId)
    ((createdOwners blake2b ptx).count ownerId)

def applyAnchorDeltasToAtomicState (s : AtomicConsensusState) : AtomicConsensusState :=
  (anchorOwners blake2b ptx).foldl (fun s ownerId =>
    s.setAnchorCount blake2b ownerId (newAnchorCount blake2b ptx ownerId (s.anchorCount ownerId))) s

def validateReplacementAnchor (s : AtomicConsensusState) (ownerId : Bytes32) : Except String Unit :=
  failIf (¬(s.anchorCount ownerId - (spentOwners blake2b ptx).count ownerId > 0 ∨
      ownerId ∈ createdOwners blake2b ptx))
    "auth owner would lose the final anchor UTXO without a replacement owner output"

end Anchors

section Checks

variable (blake2b : Blake2b) (s : AtomicConsensusState) (ptx : PopulatedTransaction)

def liquidityVaultOutputCount (tx : Transaction) : ℕ :=
  tx.outputs.countP fun output => isVaultScript output.scriptPublicKey

/-- Every spent vault entry has to be the vault of a known pool. -/
def collectSpentLiquidityVaultInputs :
    List (TransactionInput × UtxoEntry) → Except String (List (Bytes32 × TransactionOutpoint))
  | [] => .ok []
  | (input, entry) :: rest =>
    if isVaultScript entry.scriptPublicKey then do
      let outpoint := input.previousOutpoint
      let found ← s.liquidityAssetByVaultOutpoint outpoint
      let assetId ← okOr found s!"unknown LiquidityVault input outpoint `{outpoint}`"
      let spent ← collectSpentLiquidityVaultInputs rest
      return (assetId, outpoint) :: spent
    else collectSpentLiquidityVaultInputs rest

def resolveAtomicOwnerFromPopulatedTx (authInputIndex : ℕ) : Except String Bytes32 := do
  let auth ← okOr ptx.populatedInputs[authInputIndex]?
    s!"auth_input_index `{authInputIndex}` has no populated UTXO entry in contextual validation"
  okOr (atomicOwnerIdFromScript blake2b auth.2.scriptPublicKey)
    "auth input script public key is not a supported CAT owner authorization scheme (expected PubKey, PubKeyECDSA, or ScriptHash)"

/-- Who acts, and the nonce the action uses up. -/
structure Admission where
  ownerId : Bytes32
  nonceKey : AtomicNonceKey
  nextNonce : ℕ

variable (spentVaultInputs : List (Bytes32 × TransactionOutpoint))

/-- The checks on a token payload before its operation runs. -/
def admitPayload (parsed : ParsedAtomicPayload) : Except String Admission := do
  let ownerId ← resolveAtomicOwnerFromPopulatedTx blake2b ptx parsed.authInputIndex
  let nonceKey := parsed.op.nonceKey ownerId
  let ownerHex := hex32 nonceKey.ownerId
  let kind := nonceKey.scopeKind
  let scopeHex := hex32 nonceKey.scopeId
  let expectedNonce := s.nextNonce nonceKey
  let nonce := parsed.nonce
  failIf (nonce ≠ expectedNonce)
    s!"nonce baseline violation for owner `{ownerHex}` scope `{kind}` `{scopeHex}`: expected `{expectedNonce}`, got `{nonce}`"
  let nextNonce ← okOr (checkedAdd 64 expectedNonce 1)
    s!"nonce progression overflow for owner `{ownerHex}` scope `{kind}` `{scopeHex}`"
  failIf (spentVaultInputs ≠ [] ∧ parsed.op.spendsLiquidityVault = false)
    "spending a LiquidityVault input is only valid for buy/sell/claim liquidity ops"
  failIf (liquidityVaultOutputCount ptx.tx > 0 ∧ parsed.op.allowsLiquidityVaultOutput = false)
    "creating a LiquidityVault output is only valid for create/buy/sell/claim liquidity ops"
  failIf (parsed.op.isCreateLiquidity ∧ spentVaultInputs ≠ [])
    "create-liquidity must not spend any LiquidityVault input"
  validateReplacementAnchor blake2b ptx s ownerId
  return { ownerId, nonceKey, nextNonce }

/-- Without a token payload the vault script is off limits. -/
def checkPlain : Except String Unit :=
  failIf (spentVaultInputs ≠ [] ∨ liquidityVaultOutputCount ptx.tx > 0)
    "reserved LiquidityVault scripts require a CAT liquidity payload"

end Checks

section Transition

variable (blake2b : Blake2b) (params : AtomicParams) (ptx : PopulatedTransaction)
  (povDaaScore : ℕ) (ctx : AtomicCreationContext)

/-- The token payload of a transaction, if it has one at this score. -/
def payloadOf : Except String (Option ParsedAtomicPayload) :=
  if params.isPayloadHfActive povDaaScore = false ∨ ptx.tx.isPayload = false ∨
      ptx.tx.payload = [] then .ok none
  else parseAtomicPayload ptx.tx.payload

def validateAndApplyAtomicStateTransition : AtomicM Unit := do
  let s ← get
  let spentVaultInputs ← pureCheck (collectSpentLiquidityVaultInputs s ptx.populatedInputs)
  match ← pureCheck (payloadOf params ptx povDaaScore) with
  | none =>
    pureCheck (checkPlain ptx spentVaultInputs)
    modify (applyAnchorDeltasToAtomicState blake2b ptx)
  | some parsed =>
    let admitted ← pureCheck (admitPayload blake2b s ptx spentVaultInputs parsed)
    applyAtomicOpToState blake2b ptx admitted.ownerId parsed.op ctx
    modify fun s => s.setNextNonce blake2b admitted.nonceKey admitted.nextNonce
    modify (applyAnchorDeltasToAtomicState blake2b ptx)

end Transition

section Growth

variable (blake2b : Blake2b) (params : AtomicParams) (ptx : PopulatedTransaction) (povDaaScore : ℕ)

def countIf (c : Prop) [Decidable c] : ℕ := if c then 1 else 0

/-- The keys an operation may create, besides its nonce and anchors. -/
def opGrowth (s : AtomicConsensusState) (ownerId : Bytes32) (growth : AtomicStateGrowth) :
    AtomicPayloadOp → AtomicStateGrowth
  | .createAsset _ => { growth with newAssets := countIf (s.hasAsset ptx.tx.id = false) }
  | .createAssetWithMint op =>
    { growth with
      newAssets := countIf (s.hasAsset ptx.tx.id = false)
      newBalanceKeys := countIf (op.initialMintAmount > 0 ∧
        s.hasBalance ⟨ptx.tx.id, op.initialMintToOwnerId⟩ = false) }
  | .createLiquidityAsset op =>
    { growth with
      newAssets := countIf (s.hasAsset ptx.tx.id = false)
      newPools := countIf (s.hasAsset ptx.tx.id = false)
      newBalanceKeys := countIf (op.launchBuySompi > 0 ∧
        s.hasBalance ⟨ptx.tx.id, ownerId⟩ = false) }
  | .transfer op =>
    { growth with
      newBalanceKeys := countIf (op.amount > 0 ∧ ownerId ≠ op.toOwnerId ∧
        s.hasBalance ⟨op.assetId, op.toOwnerId⟩ = false) }
  | .mint op =>
    { growth with
      newBalanceKeys := countIf (op.amount > 0 ∧ s.hasBalance ⟨op.assetId, op.toOwnerId⟩ = false) }
  | .buyLiquidityExactIn op =>
    { growth with newBalanceKeys := countIf (s.hasBalance ⟨op.assetId, ownerId⟩ = false) }
  | .burn _ | .sellLiquidityExactIn _ | .claimLiquidityFees _ => growth

def estimateAtomicStateGrowthForTx (s : AtomicConsensusState) :
    Except String AtomicStateGrowth := do
  let newAnchorOwnerIds :=
    ((createdOwners blake2b ptx).filter fun ownerId => !s.hasAnchorCount ownerId).toFinset
  let growth : AtomicStateGrowth := ⟨0, 0, 0, 0, newAnchorOwnerIds.card⟩
  match ← payloadOf params ptx povDaaScore with
  | none => return growth
  | some parsed =>
    let ownerId ← resolveAtomicOwnerFromPopulatedTx blake2b ptx parsed.authInputIndex
    let newNonceKeys := countIf (s.hasNonce (parsed.op.nonceKey ownerId) = false)
    return opGrowth ptx s ownerId { growth with newNonceKeys } parsed.op

/-- The state and the growth counters of the block, changed together. -/
abbrev GrowthM := EStateM String (AtomicConsensusState × AtomicBlockStateGrowth)

def validateAndApplyAtomicStateTransitionWithGrowth (ctx : AtomicCreationContext) :
    GrowthM Unit := do
  let (s, growth) ← get
  let delta ← pureCheck (estimateAtomicStateGrowthForTx blake2b params ptx povDaaScore s)
  pureCheck (growth.ensureCanAdd delta params.atomicStateGrowthLimits)
  onFirst (validateAndApplyAtomicStateTransition blake2b params ptx povDaaScore ctx)
  modify fun (s, growth) => (s, growth.commit delta)

end Growth

end Transition
end CryptixAtomic
