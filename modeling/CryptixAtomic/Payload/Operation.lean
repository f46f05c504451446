import CryptixAtomic.Chain.Transaction

/-!
# Operations carried by a token payload

The consensus validator and the index each declare their own operation type with
the same nine variants and the same fields. The field records are shared here;
the two sum types stay separate and `AtomicPayloadOp.toTokenOp` relates them.

Amounts are natural numbers. Byte-sized version and mode fields stay octets.
-/
namespace CryptixAtomic

inductive SupplyMode
  | uncapped
  | capped
  deriving DecidableEq

/-- Fields common to both ways of creating a standard asset. -/
structure CreateAssetFields where
  tokenVersion : UInt8
  decimals : UInt8
  supplyMode : SupplyMode
  maxSupply : ℕ
  mintAuthorityOwnerId : Bytes32
  name : List UInt8
  symbol : List UInt8
  metadata : List UInt8
  deriving DecidableEq

structure CreateAssetOp extends CreateAssetFields where
  platformTag : List UInt8
  deriving DecidableEq

structure CreateAssetWithMintOp extends CreateAssetFields where
  initialMintAmount : ℕ
  initialMintToOwnerId : Bytes32
  platformTag : List UInt8
  deriving DecidableEq

structure TransferOp where
  assetId : Bytes32
  toOwnerId : Bytes32
  amount : ℕ
  deriving DecidableEq

structure MintOp where
  assetId : Bytes32
  toOwnerId : Bytes32
  amount : ℕ
  deriving DecidableEq

structure BurnOp where
  assetId : Bytes32
  amount : ℕ
  deriving DecidableEq

structure RecipientAddress where
  addressVersion : UInt8
  addressPayload : List UInt8
  deriving DecidableEq

/-- Optional trailing fields of a liquidity creation. -/
structure LiquidityCreateTail where
  platformTag : List UInt8
  liquidityUnlockTargetSompi : ℕ
  curveMode : UInt8
  individualVirtualCpayReservesSompi : ℕ
  individualVirtualTokenMultiplierBps : ℕ
  deriving DecidableEq

structure CreateLiquidityAssetOp extends LiquidityCreateTail where
  tokenVersion : UInt8
  curveVersion : UInt8
  decimals : UInt8
  maxSupply : ℕ
  name : List UInt8
  symbol : List UInt8
  metadata : List UInt8
  seedReserveSompi : ℕ
  feeBps : ℕ
  recipients : List RecipientAddress
  launchBuySompi : ℕ
  launchBuyMinTokenOut : ℕ
  deriving DecidableEq

structure BuyLiquidityExactInOp where
  assetId : Bytes32
  expectedPoolNonce : ℕ
  cpayInSompi : ℕ
  minTokenOut : ℕ
  deriving DecidableEq

structure SellLiquidityExactInOp where
  assetId : Bytes32
  expectedPoolNonce : ℕ
  tokenIn : ℕ
  minCpayOutSompi : ℕ
  cpayReceiveOutputIndex : ℕ
  deriving DecidableEq

structure ClaimLiquidityFeesOp where
  assetId : Bytes32
  expectedPoolNonce : ℕ
  recipientIndex : UInt8
  claimAmountSompi : ℕ
  claimReceiveOutputIndex : ℕ
  deriving DecidableEq

inductive AtomicPayloadOp
  | createAsset (op : CreateAssetOp)
  | transfer (op : TransferOp)
  | mint (op : MintOp)
  | burn (op : BurnOp)
  | createAssetWithMint (op : CreateAssetWithMintOp)
  | createLiquidityAsset (op : CreateLiquidityAssetOp)
  | buyLiquidityExactIn (op : BuyLiquidityExactInOp)
  | sellLiquidityExactIn (op : SellLiquidityExactInOp)
  | claimLiquidityFees (op : ClaimLiquidityFeesOp)
  deriving DecidableEq

structure ParsedAtomicPayload where
  authInputIndex : ℕ
  nonce : ℕ
  op : AtomicPayloadOp
  deriving DecidableEq

inductive TokenOpCode
  | createAsset
  | transfer
  | mint
  | burn
  | createAssetWithMint
  | createLiquidityAsset
  | buyLiquidityExactIn
  | sellLiquidityExactIn
  | claimLiquidityFees
  deriving DecidableEq

inductive TokenOp
  | createAsset (op : CreateAssetOp)
  | transfer (op : TransferOp)
  | mint (op : MintOp)
  | burn (op : BurnOp)
  | createAssetWithMint (op : CreateAssetWithMintOp)
  | createLiquidityAsset (op : CreateLiquidityAssetOp)
  | buyLiquidityExactIn (op : BuyLiquidityExactInOp)
  | sellLiquidityExactIn (op : SellLiquidityExactInOp)
  | claimLiquidityFees (op : ClaimLiquidityFeesOp)
  deriving DecidableEq

structure TokenOpHeader where
  op : TokenOpCode
  authInputIndex : ℕ
  nonce : ℕ
  deriving DecidableEq

structure ParsedTokenPayload where
  header : TokenOpHeader
  op : TokenOp
  deriving DecidableEq

namespace AtomicPayloadOp

def toTokenOp : AtomicPayloadOp → TokenOp
  | createAsset op => .createAsset op
  | transfer op => .transfer op
  | mint op => .mint op
  | burn op => .burn op
  | createAssetWithMint op => .createAssetWithMint op
  | createLiquidityAsset op => .createLiquidityAsset op
  | buyLiquidityExactIn op => .buyLiquidityExactIn op
  | sellLiquidityExactIn op => .sellLiquidityExactIn op
  | claimLiquidityFees op => .claimLiquidityFees op

def code : AtomicPayloadOp → TokenOpCode
  | createAsset _ => .createAsset
  | transfer _ => .transfer
  | mint _ => .mint
  | burn _ => .burn
  | createAssetWithMint _ => .createAssetWithMint
  | createLiquidityAsset _ => .createLiquidityAsset
  | buyLiquidityExactIn _ => .buyLiquidityExactIn
  | sellLiquidityExactIn _ => .sellLiquidityExactIn
  | claimLiquidityFees _ => .claimLiquidityFees

/-- The asset an operation refers to; creations refer to none. -/
def assetId? : AtomicPayloadOp → Option Bytes32
  | createAsset _ | createAssetWithMint _ | createLiquidityAsset _ => none
  | transfer op => some op.assetId
  | mint op => some op.assetId
  | burn op => some op.assetId
  | buyLiquidityExactIn op => some op.assetId
  | sellLiquidityExactIn op => some op.assetId
  | claimLiquidityFees op => some op.assetId

/-- The pool slot a trade or claim competes for. -/
def poolSlot? : AtomicPayloadOp → Option (Bytes32 × ℕ)
  | buyLiquidityExactIn op => some (op.assetId, op.expectedPoolNonce)
  | sellLiquidityExactIn op => some (op.assetId, op.expectedPoolNonce)
  | claimLiquidityFees op => some (op.assetId, op.expectedPoolNonce)
  | _ => none

end AtomicPayloadOp

/-- The index header and operation that correspond to a consensus payload. -/
def ParsedAtomicPayload.toToken (p : ParsedAtomicPayload) : ParsedTokenPayload :=
  { header := { op := p.op.code, authInputIndex := p.authInputIndex, nonce := p.nonce }
    op := p.op.toTokenOp }

end CryptixAtomic
