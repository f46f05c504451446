import CryptixAtomic.Liquidity.Pool
import CryptixAtomic.Payload.Consensus
import CryptixAtomic.State.Delta

/-!
# Operations on the consensus state

An operation first works out, from the state and the transaction, all it is going to
write; this part can fail and writes nothing. Its outcome is an `OpEffect`: at most
one asset, then some balances. Only then are the mutators called, the one that can
fail first.
-/
namespace CryptixAtomic

open Foundation ConsensusMath

structure AtomicCreationContext where
  sourceBlockHash : Bytes32
  sourceBlockDaaScore : ℕ
  sourceBlockTime : ℕ
  deriving DecidableEq

/-- What an operation writes: `insert_atomic_asset_state`, then the `set_balance` calls. -/
structure OpEffect where
  asset : Option (Bytes32 × AtomicAssetState)
  balances : List (AtomicBalanceKey × ℕ)

def OpEffect.calls (effect : OpEffect) : List StateCall :=
  effect.asset.toList.map (fun write => .setAsset write.1 write.2) ++
    effect.balances.map fun write => .setBalance write.1 write.2

namespace Transition

section Checks

def vaultErrors : VaultErrors String where
  inputCount := "liquidity transition must have exactly one LiquidityVault input"
  mismatch expected got := s!"liquidity vault outpoint mismatch: expected `{expected}`, got `{got}`"
  outputCount := "liquidity transition must have exactly one LiquidityVault output"
  indexOverflow := "vault output index overflow"

def createVaultErrors : VaultErrors String := { vaultErrors with
    outputCount := "create-liquidity must have exactly one LiquidityVault output" }

def payoutErrors : PayoutErrors String where
  range index := s!"payout output index `{index}` out of range"
  value index expected got :=
    s!"payout output value mismatch at index `{index}`: expected `{expected}`, got `{got}`"
  scriptClass cls index := s!"payout script class `{cls}` at index `{index}` is not allowed"
  noOwner := "payout output owner id cannot be derived"
  owner := "payout output owner does not match configured fee recipient"

def recipientError : String := "invalid liquidity fee recipient address encoding"

def validateLiquidityUnlockTarget (target : ℕ) : Except String Unit :=
  failIf (target > maxSompi) s!"liquidity unlock target `{target}` exceeds MAX_SOMPI `{maxSompi}`"

def validateLiquidityClaimAuthorization (claimant recipient : Bytes32) : Except String Unit :=
  failIf (claimant ≠ recipient) "claim caller is not the configured liquidity fee recipient"

def validateLiquidityCreationParameters (decimals : UInt8) (maxSupply seedReserve : ℕ) :
    Except String Unit := do
  failIf (decimals ≠ liquidityTokenDecimals)
    s!"liquidity asset decimals must be `{liquidityTokenDecimals}`"
  failIf (¬(minLiquiditySupplyRaw ≤ maxSupply ∧ maxSupply ≤ maxLiquiditySupplyRaw))
    s!"liquidity asset max_supply must be in `{minLiquiditySupplyRaw}..={maxLiquiditySupplyRaw}`"
  failIf (seedReserve ≠ initialRealCpayReservesSompi)
    s!"liquidity asset seed_reserve_sompi must be `{initialRealCpayReservesSompi}`"

def validateLiquidityInvariants (assetId : Bytes32) (asset : AtomicAssetState) :
    Except String Unit :=
  if asset.assetClass ≠ .liquidity then .ok ()
  else do
    let assetHex := hex32 assetId
    let pool ← okOr asset.liquidity s!"liquidity state missing for asset `{assetHex}`"
    let vaultValue := pool.vaultValueSompi
    let realCpay := pool.realCpayReservesSompi
    let fees := pool.unclaimedFeeTotalSompi
    let circulating := asset.totalSupply
    let realToken := pool.realTokenReserves
    let maxSupply := asset.maxSupply
    failIf (asset.supplyMode ≠ .capped) "liquidity assets must always use capped supply mode"
    validateLiquidityCurveMode curveErrors pool.curveMode
    validateLiquidityCurveParameters curveErrors pool.curveMode
      pool.individualVirtualCpayReservesSompi pool.individualVirtualTokenMultiplierBps
    validateLiquidityUnlockTarget pool.unlockTargetSompi
    failIf (pool.unlockTargetSompi = 0 ∧ pool.unlocked = false)
      "liquidity lock disabled pools must be marked unlocked"
    failIf (pool.unlockTargetSompi > 0 ∧ realCpay ≥ pool.unlockTargetSompi ∧ pool.unlocked = false)
      s!"liquidity lock target reached for asset `{assetHex}` but pool is still locked"
    failIf (realCpay < minCpayReserveSompi)
      s!"real CPAY reserve floor violation for asset `{assetHex}`"
    failIf (realToken < minRealTokenReserve)
      s!"real token reserve floor violation for asset `{assetHex}`"
    failIf (pool.virtualCpayReservesSompi = 0 ∨ pool.virtualTokenReserves = 0)
      s!"virtual reserve invariant violation for asset `{assetHex}`"
    let expectedVault ← okOr (checkedAdd 64 realCpay fees) "vault invariant overflow"
    failIf (vaultValue ≠ expectedVault)
      s!"vault invariant violation for asset `{assetHex}`: vault_value `{vaultValue}` != real reserve `{realCpay}` + fees `{fees}`"
    let expectedTotal ← okOr (checkedAdd 128 circulating realToken) "supply invariant overflow"
    failIf (expectedTotal ≠ maxSupply)
      s!"supply invariant violation for asset `{assetHex}`: circulating `{circulating}` + real token reserves `{realToken}` != max `{maxSupply}`"

def resolveCreateLiquidityVaultOutput (ptx : PopulatedTransaction) : Except String (ℕ × ℕ) := do
  failIf (ptx.populatedInputs.any fun p => isVaultScript p.2.scriptPublicKey)
    "create-liquidity must not spend any LiquidityVault input"
  let found ← findCreatedVaultOutput createVaultErrors ptx.tx.outputs 0 none
  okOr found createVaultErrors.outputCount

end Checks

section Standard

variable (s : AtomicConsensusState)

def standardAsset (common : CreateAssetFields) (platformTag : List UInt8) (creator : Bytes32)
    (totalSupply : ℕ) (ctx : AtomicCreationContext) : AtomicAssetState where
  creatorOwnerId := creator
  assetClass := .standard
  tokenVersion := common.tokenVersion
  mintAuthorityOwnerId := common.mintAuthorityOwnerId
  decimals := common.decimals
  supplyMode := common.supplyMode
  maxSupply := common.maxSupply
  totalSupply
  name := common.name
  symbol := common.symbol
  metadata := common.metadata
  platformTag
  createdBlockHash := some ctx.sourceBlockHash
  createdDaaScore := some ctx.sourceBlockDaaScore
  createdAt := some ctx.sourceBlockTime
  liquidity := none

def createAsset (txId ownerId : Bytes32) (op : CreateAssetOp) (ctx : AtomicCreationContext) :
    Except String OpEffect := do
  let assetHex := hex32 txId
  failIf (s.hasAsset txId) s!"asset `{assetHex}` already exists"
  return { asset := some (txId, standardAsset op.toCreateAssetFields op.platformTag ownerId 0 ctx)
           balances := [] }

def createAssetWithMint (txId ownerId : Bytes32) (op : CreateAssetWithMintOp)
    (ctx : AtomicCreationContext) : Except String OpEffect := do
  let assetHex := hex32 txId
  failIf (s.hasAsset txId) s!"asset `{assetHex}` already exists"
  if op.initialMintAmount > 0 then
    failIf (op.supplyMode = .capped ∧ op.initialMintAmount > op.maxSupply)
      s!"initial mint exceeds cap for asset `{assetHex}`"
    let receiverKey : AtomicBalanceKey := ⟨txId, op.initialMintToOwnerId⟩
    let receiverAfter ← okOr (checkedAdd 128 (s.balance receiverKey) op.initialMintAmount)
      s!"balance overflow while create-and-mint asset `{assetHex}`"
    return { asset := some (txId, standardAsset op.toCreateAssetFields op.platformTag ownerId
               op.initialMintAmount ctx)
             balances := [(receiverKey, receiverAfter)] }
  else
    return { asset := some (txId, standardAsset op.toCreateAssetFields op.platformTag ownerId 0 ctx)
             balances := [] }

variable (ownerId : Bytes32)

def transfer (op : TransferOp) : Except String OpEffect := do
  let assetHex := hex32 op.assetId
  failIf (¬s.hasAsset op.assetId) s!"transfer references unknown asset `{assetHex}`"
  let fromKey : AtomicBalanceKey := ⟨op.assetId, ownerId⟩
  let toKey : AtomicBalanceKey := ⟨op.assetId, op.toOwnerId⟩
  if fromKey = toKey then
    let _ ← okOr (checkedSub (s.balance fromKey) op.amount)
      s!"insufficient balance for self-transfer of asset `{assetHex}`"
    return { asset := none, balances := [] }
  else
    let senderAfter ← okOr (checkedSub (s.balance fromKey) op.amount)
      s!"insufficient balance for transfer of asset `{assetHex}`"
    let receiverAfter ← okOr (checkedAdd 128 (s.balance toKey) op.amount)
      s!"balance overflow for transfer receiver in asset `{assetHex}`"
    return { asset := none, balances := [(fromKey, senderAfter), (toKey, receiverAfter)] }

def mint (op : MintOp) : Except String OpEffect := do
  let assetHex := hex32 op.assetId
  let ownerHex := hex32 ownerId
  let asset ← okOr (s.clonedAsset op.assetId) s!"mint references unknown asset `{assetHex}`"
  failIf (asset.assetClass = .liquidity) s!"legacy mint is invalid for liquidity asset `{assetHex}`"
  failIf (asset.mintAuthorityOwnerId ≠ ownerId)
    s!"owner `{ownerHex}` is not mint authority for asset `{assetHex}`"
  let newTotalSupply ← okOr (checkedAdd 128 asset.totalSupply op.amount)
    s!"supply overflow while minting asset `{assetHex}`"
  let cap := asset.maxSupply
  failIf (asset.supplyMode = .capped ∧ newTotalSupply > cap)
    s!"mint would exceed cap for asset `{assetHex}`: cap `{cap}`, attempted total `{newTotalSupply}`"
  let receiverKey : AtomicBalanceKey := ⟨op.assetId, op.toOwnerId⟩
  let receiverAfter ← okOr (checkedAdd 128 (s.balance receiverKey) op.amount)
    s!"balance overflow while minting asset `{assetHex}`"
  return { asset := some (op.assetId, { asset with totalSupply := newTotalSupply })
           balances := [(receiverKey, receiverAfter)] }

def burn (op : BurnOp) : Except String OpEffect := do
  let assetHex := hex32 op.assetId
  let asset ← okOr (s.clonedAsset op.assetId) s!"burn references unknown asset `{assetHex}`"
  failIf (asset.assetClass = .liquidity) s!"legacy burn is invalid for liquidity asset `{assetHex}`"
  let senderKey : AtomicBalanceKey := ⟨op.assetId, ownerId⟩
  let senderAfter ← okOr (checkedSub (s.balance senderKey) op.amount)
    s!"insufficient balance for burn in asset `{assetHex}`"
  let supplyAfter ← okOr (checkedSub asset.totalSupply op.amount)
    s!"supply underflow while burning asset `{assetHex}`"
  return { asset := some (op.assetId, { asset with totalSupply := supplyAfter })
           balances := [(senderKey, senderAfter)] }

end Standard

section Liquidity

/-- Buy with `cpayIn` sompi. The launch buy of a creation and the buy operation run the
same checks under different names. -/
def buyWith (name : String) (funds : PoolFunds) (feeBps cpayIn minTokenOut : ℕ) :
    Except String (ℕ × PoolFunds) := do
  let feeTrade ← calculateTradeFee errors cpayIn feeBps
  let netIn ← okOr (checkedSub cpayIn feeTrade) s!"{name} fee underflow"
  let trade ← cpmmBuy funds.realTokenReserves funds.virtualCpayReservesSompi
    funds.virtualTokenReserves netIn
  let tokenOut := trade.tokenOut
  failIf (tokenOut < minTokenOut)
    s!"{name} min_token_out violated: expected at least `{minTokenOut}`, got `{tokenOut}`"
  let canonical ← minGrossInputForTokenOut funds.realTokenReserves
    funds.virtualCpayReservesSompi funds.virtualTokenReserves tokenOut feeBps
  failIf (cpayIn ≠ canonical)
    s!"{name} CPAY input is not canonical: expected `{canonical}`, got `{cpayIn}`"
  failIf (tokenOut = 0) s!"{name} produced zero token_out"
  let realCpay ← okOr (checkedAdd 64 funds.realCpayReservesSompi netIn)
    s!"{name} real CPAY reserve overflow"
  let (feeRecipients, unclaimedFeeTotalSompi) ← applyFeeToPool feeErrors
    funds.feeRecipients funds.unclaimedFeeTotalSompi feeTrade
  return (tokenOut,
    { realCpayReservesSompi := realCpay
      realTokenReserves := trade.realTokenReserves
      virtualCpayReservesSompi := trade.virtualCpayReservesSompi
      virtualTokenReserves := trade.virtualTokenReserves
      unclaimedFeeTotalSompi
      feeRecipients })

def createdPool (op : CreateLiquidityAssetOp) (funds : PoolFunds)
    (vaultOutpoint : TransactionOutpoint) (vaultValueSompi : ℕ) : AtomicLiquidityPoolState where
  poolNonce := 1
  curveVersion := op.curveVersion
  curveMode := op.curveMode
  individualVirtualCpayReservesSompi := op.individualVirtualCpayReservesSompi
  individualVirtualTokenMultiplierBps := op.individualVirtualTokenMultiplierBps
  realCpayReservesSompi := funds.realCpayReservesSompi
  realTokenReserves := funds.realTokenReserves
  virtualCpayReservesSompi := funds.virtualCpayReservesSompi
  virtualTokenReserves := funds.virtualTokenReserves
  unclaimedFeeTotalSompi := funds.unclaimedFeeTotalSompi
  feeBps := op.feeBps
  feeRecipients := funds.feeRecipients
  vaultOutpoint
  vaultValueSompi
  unlockTargetSompi := op.liquidityUnlockTargetSompi
  unlocked := op.liquidityUnlockTargetSompi = 0 ∨
    funds.realCpayReservesSompi ≥ op.liquidityUnlockTargetSompi

def liquidityAsset (op : CreateLiquidityAssetOp) (creator : Bytes32) (totalSupply : ℕ)
    (pool : AtomicLiquidityPoolState) (ctx : AtomicCreationContext) : AtomicAssetState where
  creatorOwnerId := creator
  assetClass := .liquidity
  tokenVersion := op.tokenVersion
  mintAuthorityOwnerId := zero32
  decimals := op.decimals
  supplyMode := .capped
  maxSupply := op.maxSupply
  totalSupply
  name := op.name
  symbol := op.symbol
  metadata := op.metadata
  platformTag := op.platformTag
  createdBlockHash := some ctx.sourceBlockHash
  createdDaaScore := some ctx.sourceBlockDaaScore
  createdAt := some ctx.sourceBlockTime
  liquidity := some pool

/-- Reserves, supply and balance after the launch buy, if there is one. -/
structure Launch where
  totalSupply : ℕ
  funds : PoolFunds
  balances : List (AtomicBalanceKey × ℕ)

variable (blake2b : Blake2b) (s : AtomicConsensusState) (ptx : PopulatedTransaction)
  (ownerId : Bytes32)

def launch (op : CreateLiquidityAssetOp) (seeded : PoolFunds) : Except String Launch :=
  if op.launchBuySompi > 0 then do
    let assetHex := hex32 ptx.tx.id
    let (tokenOut, funds) ← buyWith "launch buy" seeded op.feeBps op.launchBuySompi
      op.launchBuyMinTokenOut
    let receiverKey : AtomicBalanceKey := ⟨ptx.tx.id, ownerId⟩
    let receiverAfter ← okOr (checkedAdd 128 (s.balance receiverKey) tokenOut)
      s!"balance overflow while launch-buy minting liquidity asset `{assetHex}`"
    return { totalSupply := tokenOut, funds, balances := [(receiverKey, receiverAfter)] }
  else .ok { totalSupply := 0, funds := seeded, balances := [] }

def createLiquidityAsset (op : CreateLiquidityAssetOp) (ctx : AtomicCreationContext) :
    Except String OpEffect := do
  let assetHex := hex32 ptx.tx.id
  failIf (s.hasAsset ptx.tx.id) s!"asset `{assetHex}` already exists"
  validateLiquidityCreationParameters op.decimals op.maxSupply op.seedReserveSompi
  validateLiquidityCurveMode curveErrors op.curveMode
  validateLiquidityCurveParameters curveErrors op.curveMode
    op.individualVirtualCpayReservesSompi op.individualVirtualTokenMultiplierBps
  validateLiquidityUnlockTarget op.liquidityUnlockTargetSompi
  let (vaultOutputIndex, vaultOutputValue) ← resolveCreateLiquidityVaultOutput ptx
  let expectedVaultValue ← okOr (checkedAdd 64 op.seedReserveSompi op.launchBuySompi)
    "vault value overflow on create"
  failIf (vaultOutputValue ≠ expectedVaultValue)
    s!"create liquidity vault output mismatch: expected `{expectedVaultValue}`, got `{vaultOutputValue}`"
  let feeRecipients ← buildFeeRecipientState recipientError blake2b op.recipients
  failIf (op.feeBps > 0 ∧ feeRecipients = []) "fee_bps > 0 requires at least one recipient"
  let virtualCpay ← initialVirtualCpayReservesSompiForCurve curveErrors op.curveMode
    op.individualVirtualCpayReservesSompi
  let virtualToken ← initialVirtualTokenReservesForCurve errors
    curveErrors op.maxSupply op.curveMode op.individualVirtualTokenMultiplierBps
  let launched ← launch s ptx ownerId op
    { realCpayReservesSompi := initialRealCpayReservesSompi
      realTokenReserves := op.maxSupply
      virtualCpayReservesSompi := virtualCpay
      virtualTokenReserves := virtualToken
      unclaimedFeeTotalSompi := 0
      feeRecipients }
  let pool := createdPool op launched.funds ⟨ptx.tx.id, vaultOutputIndex⟩ vaultOutputValue
  let asset := liquidityAsset op ownerId launched.totalSupply pool ctx
  validateLiquidityInvariants ptx.tx.id asset
  return { asset := some (ptx.tx.id, asset), balances := launched.balances }

def tradedPool (name : String) (assetId : Bytes32) (expectedPoolNonce : ℕ) :
    Except String (AtomicAssetState × AtomicLiquidityPoolState) := do
  let assetHex := hex32 assetId
  let asset ← okOr (s.clonedAsset assetId) s!"{name} references unknown asset `{assetHex}`"
  failIf (asset.assetClass ≠ .liquidity)
    s!"{name} is only valid for liquidity assets (`{assetHex}` is standard)"
  let pool ← okOr asset.liquidity s!"liquidity state missing for asset `{assetHex}`"
  let poolNonce := pool.poolNonce
  failIf (poolNonce ≠ expectedPoolNonce)
    s!"stale liquidity nonce for asset `{assetHex}`: expected `{poolNonce}`, got `{expectedPoolNonce}`"
  return (asset, pool)

def vaultTransition (pool : AtomicLiquidityPoolState) : Except String VaultTransition :=
  resolveLiquidityVaultTransition vaultErrors ptx.populatedInputs ptx.tx.outputs pool.vaultOutpoint

def buyLiquidityExactIn (op : BuyLiquidityExactInOp) : Except String OpEffect := do
  let assetHex := hex32 op.assetId
  let cpayIn := op.cpayInSompi
  let (asset, pool) ← tradedPool s "buy" op.assetId op.expectedPoolNonce
  let vault ← vaultTransition ptx pool
  let vaultDelta ← okOr (checkedSub vault.outputValue vault.inputValue)
    "buy requires vault_value to increase"
  failIf (vaultDelta ≠ cpayIn) s!"buy vault delta mismatch: expected `{cpayIn}`, got `{vaultDelta}`"
  let (tokenOut, funds) ← buyWith "buy" pool.funds pool.feeBps cpayIn op.minTokenOut
  let poolNonce ← okOr (checkedAdd 64 pool.poolNonce 1) "pool nonce overflow"
  let receiverKey : AtomicBalanceKey := ⟨op.assetId, ownerId⟩
  let receiverAfter ← okOr (checkedAdd 128 (s.balance receiverKey) tokenOut)
    s!"receiver balance overflow while buying liquidity asset `{assetHex}`"
  let totalSupply ← okOr (checkedAdd 128 asset.totalSupply tokenOut)
    s!"total_supply overflow while buying liquidity asset `{assetHex}`"
  let pool := ((pool.withFunds funds).unlockAtTarget).moved ptx.tx.id vault poolNonce
  let asset := { asset with totalSupply, liquidity := some pool }
  validateLiquidityInvariants op.assetId asset
  return { asset := some (op.assetId, asset), balances := [(receiverKey, receiverAfter)] }

def sellLiquidityExactIn (op : SellLiquidityExactInOp) : Except String OpEffect := do
  let assetHex := hex32 op.assetId
  let minCpayOut := op.minCpayOutSompi
  let (asset, pool) ← tradedPool s "sell" op.assetId op.expectedPoolNonce
  let target := pool.unlockTargetSompi
  failIf pool.sellLocked
    s!"liquidity sell locked for asset `{assetHex}` until real CPAY reserve reaches `{target}` sompi"
  let senderKey : AtomicBalanceKey := ⟨op.assetId, ownerId⟩
  let senderAfter ← okOr (checkedSub (s.balance senderKey) op.tokenIn)
    s!"insufficient balance for sell in liquidity asset `{assetHex}`"
  let totalSupply ← okOr (checkedSub asset.totalSupply op.tokenIn)
    s!"total_supply underflow while selling liquidity asset `{assetHex}`"
  let trade ← cpmmSell pool.realCpayReservesSompi pool.virtualCpayReservesSompi
    pool.virtualTokenReserves op.tokenIn
  let feeTrade ← calculateTradeFee errors trade.grossOut pool.feeBps
  let cpayOut ← okOr (checkedSub trade.grossOut feeTrade) "sell fee underflow"
  failIf (cpayOut = 0) "sell produced zero cpay_out"
  failIf (cpayOut < minCpayOut)
    s!"sell min_cpay_out violated: expected at least `{minCpayOut}`, got `{cpayOut}`"
  failIf (cpayOut < liquidityMinPayoutSompi)
    s!"sell payout `{cpayOut}` below liquidity_min_payout_sompi `{liquidityMinPayoutSompi}`"
  validatePayoutOutput payoutErrors blake2b ptx.tx.outputs op.cpayReceiveOutputIndex cpayOut none
  let vault ← vaultTransition ptx pool
  let vaultDelta ← okOr (checkedSub vault.inputValue vault.outputValue)
    "sell requires vault_value to decrease"
  failIf (vaultDelta ≠ cpayOut)
    s!"sell vault delta mismatch: expected `{cpayOut}`, got `{vaultDelta}`"
  let realTokenReserves ← okOr (checkedAdd 128 pool.realTokenReserves op.tokenIn)
    "sell real token reserve overflow"
  let (feeRecipients, unclaimedFeeTotalSompi) ← applyFeeToPool feeErrors
    pool.feeRecipients pool.unclaimedFeeTotalSompi feeTrade
  let poolNonce ← okOr (checkedAdd 64 pool.poolNonce 1) "pool nonce overflow"
  let funds : PoolFunds :=
    { realCpayReservesSompi := trade.realCpayReservesSompi
      realTokenReserves
      virtualCpayReservesSompi := trade.virtualCpayReservesSompi
      virtualTokenReserves := trade.virtualTokenReserves
      unclaimedFeeTotalSompi
      feeRecipients }
  let pool := (pool.withFunds funds).moved ptx.tx.id vault poolNonce
  let asset := { asset with totalSupply, liquidity := some pool }
  validateLiquidityInvariants op.assetId asset
  return { asset := some (op.assetId, asset), balances := [(senderKey, senderAfter)] }

def claimLiquidityFees (op : ClaimLiquidityFeesOp) : Except String OpEffect := do
  let assetHex := hex32 op.assetId
  let claimAmount := op.claimAmountSompi
  let (asset, pool) ← tradedPool s "claim" op.assetId op.expectedPoolNonce
  let target := pool.unlockTargetSompi
  failIf pool.sellLocked
    s!"liquidity fee claim locked for asset `{assetHex}` until curve reserve reaches `{target}` sompi"
  failIf (claimAmount < liquidityMinPayoutSompi)
    s!"claim amount `{claimAmount}` below liquidity_min_payout_sompi `{liquidityMinPayoutSompi}`"
  let recipientIndex := op.recipientIndex.toNat
  let recipient ← okOr pool.feeRecipients[recipientIndex]?
    s!"claim recipient_index `{recipientIndex}` out of range"
  let unclaimed := recipient.unclaimedSompi
  failIf (unclaimed < claimAmount)
    s!"claim amount `{claimAmount}` exceeds unclaimed recipient fees `{unclaimed}`"
  validateLiquidityClaimAuthorization ownerId recipient.ownerId
  validatePayoutOutput payoutErrors blake2b ptx.tx.outputs op.claimReceiveOutputIndex claimAmount
    (some recipient.ownerId)
  let vault ← vaultTransition ptx pool
  let vaultDelta ← okOr (checkedSub vault.inputValue vault.outputValue)
    "claim requires vault_value to decrease"
  failIf (vaultDelta ≠ claimAmount)
    s!"claim vault delta mismatch: expected `{claimAmount}`, got `{vaultDelta}`"
  let unclaimedFeeTotalSompi ← okOr (checkedSub pool.unclaimedFeeTotalSompi claimAmount)
    "claim unclaimed_fee_total underflow"
  let poolNonce ← okOr (checkedAdd 64 pool.poolNonce 1) "pool nonce overflow"
  let funds : PoolFunds := { pool.funds with
      unclaimedFeeTotalSompi
      feeRecipients := pool.feeRecipients.set recipientIndex
        { recipient with unclaimedSompi := unclaimed - claimAmount } }
  let pool := (pool.withFunds funds).moved ptx.tx.id vault poolNonce
  let asset := { asset with liquidity := some pool }
  validateLiquidityInvariants op.assetId asset
  return { asset := some (op.assetId, asset), balances := [] }

/-- Everything an operation is going to write. -/
def opEffect (ctx : AtomicCreationContext) : AtomicPayloadOp → Except String OpEffect
  | .createAsset op => createAsset s ptx.tx.id ownerId op ctx
  | .createAssetWithMint op => createAssetWithMint s ptx.tx.id ownerId op ctx
  | .createLiquidityAsset op => createLiquidityAsset blake2b s ptx ownerId op ctx
  | .transfer op => transfer s ownerId op
  | .mint op => mint s ownerId op
  | .burn op => burn s ownerId op
  | .buyLiquidityExactIn op => buyLiquidityExactIn s ptx ownerId op
  | .sellLiquidityExactIn op => sellLiquidityExactIn blake2b s ptx ownerId op
  | .claimLiquidityFees op => claimLiquidityFees blake2b s ptx ownerId op

end Liquidity

def applyAtomicOpToState (blake2b : Blake2b) (ptx : PopulatedTransaction) (ownerId : Bytes32)
    (op : AtomicPayloadOp) (ctx : AtomicCreationContext) : AtomicM Unit := do
  let effect ← pureCheck (opEffect blake2b (← get) ptx ownerId ctx op)
  StateCall.runAll blake2b effect.calls

end Transition
end CryptixAtomic
