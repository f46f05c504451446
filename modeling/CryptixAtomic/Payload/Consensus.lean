import CryptixAtomic.Foundation.Reader
import CryptixAtomic.Liquidity.Curve
import CryptixAtomic.Payload.Operation

/-!
# The consensus payload parser

`parseAtomicPayload` decides whether a payload belongs to the token protocol and,
if so, whether it is well formed. Every early return carries the text the source
reports.
-/
namespace CryptixAtomic

open Foundation Reader

/-- The ASCII bytes of `CAT`. -/
def catMagic : List UInt8 := [67, 65, 84]
def catVersion : UInt8 := 1
def currentTokenVersion : UInt8 := 1
def currentLiquidityCurveVersion : UInt8 := 1
def maxTokenVersion : UInt8 := 99
def maxLiquidityCurveVersion : UInt8 := 99
def maxNameLen : ℕ := 32
def maxSymbolLen : ℕ := 10
def maxMetadataLen : ℕ := 256
def maxPlatformTagLen : ℕ := 50
def maxDecimals : UInt8 := 18
def maxLiquidityRecipients : ℕ := 2
def minLiquidityFeeBps : ℕ := 10
def maxLiquidityFeeBps : ℕ := 1000

/-- Slices compare lexicographically, after the address version. -/
def recipientOrderKey (recipient : RecipientAddress) : UInt8 ×ₗ List UInt8 :=
  toLex (recipient.addressVersion, recipient.addressPayload)

/-- A protocol version is supported when it lies in the reserved range and is the
current one. -/
def supportedVersion (current most version : UInt8) : Bool :=
  1 ≤ version && version ≤ most && version == current

namespace ConsensusPayload

abbrev Parser := Reader String

variable (e : String)

def takeU8 : Parser UInt8 := byte e
def takeU16Le : Parser ℕ := uintLe 2 e
def takeU64Le : Parser ℕ := uintLe 8 e
def takeU128Le : Parser ℕ := uintLe 16 e
def take32 : Parser Bytes32 := exactly 32 e

def takeVec (len : ℕ) (e : String) : Parser (List UInt8) := do
  let bytes ← exactly len e
  return bytes.val

def curveErrors : CurveErrors String := textCurveErrors "CAT liquidity curve mode"

def validateTokenVersion (version : UInt8) : Except String Unit :=
  failIf (¬supportedVersion currentTokenVersion maxTokenVersion version)
    s!"unsupported CAT token version `{version}`"

def validateLiquidityCurveVersion (version : UInt8) : Except String Unit :=
  failIf (¬supportedVersion currentLiquidityCurveVersion maxLiquidityCurveVersion version)
    s!"unsupported CAT liquidity curve version `{version}`"

def parseSupplyMode : Parser SupplyMode := do
  let raw ← takeU8 "truncated CAT supply mode"
  if raw = 0 then return .uncapped
  else if raw = 1 then return .capped
  else fail s!"invalid supply mode `{raw}`"

/-- Name, symbol and metadata: three lengths, then three strings. -/
def parseAssetTexts : Parser (List UInt8 × List UInt8 × List UInt8) := do
  let nameLen ← takeU8 "truncated CAT name length"
  let symbolLen ← takeU8 "truncated CAT symbol length"
  let metadataLen ← takeU16Le "truncated CAT metadata length"
  rejectIf (nameLen.toNat > maxNameLen ∨ symbolLen.toNat > maxSymbolLen ∨
    metadataLen > maxMetadataLen) "string field exceeds allowed length"
  let name ← takeVec nameLen.toNat "truncated CAT name"
  let symbol ← takeVec symbolLen.toNat "truncated CAT symbol"
  let metadata ← takeVec metadataLen "truncated CAT metadata"
  rejectIf (isUtf8 name = false ∨ isUtf8 symbol = false) "name/symbol must be valid utf-8"
  return (name, symbol, metadata)

def parseCreateAssetCommon : Parser CreateAssetFields := do
  let tokenVersion ← takeU8 "truncated CAT token version"
  check (validateTokenVersion tokenVersion)
  let decimals ← takeU8 "truncated CAT decimals"
  rejectIf (decimals > maxDecimals) s!"decimals `{decimals}` above max `{maxDecimals}`"
  let supplyMode ← parseSupplyMode
  let maxSupply ← takeU128Le "truncated CAT max_supply"
  let mintAuthorityOwnerId ← take32 "truncated CAT mint authority"
  let (name, symbol, metadata) ← parseAssetTexts
  rejectIf (supplyMode = .capped ∧ maxSupply = 0)
    "capped assets require non-zero max_supply"
  rejectIf (supplyMode = .uncapped ∧ maxSupply ≠ 0)
    "uncapped assets must encode max_supply=0"
  return { tokenVersion, decimals, supplyMode, maxSupply, mintAuthorityOwnerId, name, symbol,
           metadata }

def parsePlatformTag : Parser (List UInt8) := do
  let len ← takeU8 "truncated CAT platform tag length"
  rejectIf (len.toNat > maxPlatformTagLen)
    s!"platform_tag exceeds max `{maxPlatformTagLen}` bytes"
  let tag ← takeVec len.toNat "truncated CAT platform tag"
  rejectIf (isUtf8 tag = false) "platform_tag must be valid utf-8"
  return tag

def parseOptionalPlatformTagTail : Parser (List UInt8) := do
  if ← atEnd then return []
  else parsePlatformTag

/-- Curve mode and individual parameters at the very end of a liquidity creation. -/
def parseOptionalCurve : Parser (UInt8 × ℕ × ℕ) := do
  if ← atEnd then return (defaultCurveMode, 0, 0)
  else
    let mode ← takeU8 "truncated CAT liquidity curve mode"
    check (validateLiquidityCurveMode curveErrors mode)
    if mode = curveModeIndividual then
      let fixedCpay ← takeU64Le "truncated CAT individual liquidity fixed CPAY"
      let multiplier ← takeU16Le "truncated CAT individual liquidity multiplier"
      check (validateLiquidityCurveParameters curveErrors mode fixedCpay multiplier)
      return (mode, fixedCpay, multiplier)
    else
      check (validateLiquidityCurveParameters curveErrors mode 0 0)
      return (mode, 0, 0)

def parseOptionalLiquidityCreateTail : Parser LiquidityCreateTail := do
  if ← atEnd then
    return { platformTag := [], liquidityUnlockTargetSompi := 0, curveMode := defaultCurveMode,
             individualVirtualCpayReservesSompi := 0, individualVirtualTokenMultiplierBps := 0 }
  else
    let platformTag ← parsePlatformTag
    let unlockTarget ← takeU64Le "truncated CAT liquidity unlock target"
    rejectIf (unlockTarget > maxSompi)
      s!"liquidity unlock target exceeds MAX_SOMPI `{maxSompi}`"
    let (mode, fixedCpay, multiplier) ← parseOptionalCurve
    return { platformTag, liquidityUnlockTargetSompi := unlockTarget, curveMode := mode,
             individualVirtualCpayReservesSompi := fixedCpay,
             individualVirtualTokenMultiplierBps := multiplier }

def parseRecipientAddress : Parser RecipientAddress := do
  let addressVersion ← takeU8 "truncated CAT recipient address version"
  let expectedLen ← (if addressVersion = 0 then pure 32
    else if addressVersion = 1 then pure 33
    else if addressVersion = 8 then pure 32
    else fail s!"unsupported recipient address_version `{addressVersion}`" : Parser ℕ)
  let addressPayload ← takeVec expectedLen "truncated CAT recipient address payload"
  return { addressVersion, addressPayload }

/-- Fee rate, recipient count, and the recipients in canonical order. -/
def parseFeeRecipients : Parser (ℕ × List RecipientAddress) := do
  let feeBps ← takeU16Le "truncated CAT fee bps"
  rejectIf (¬(feeBps = 0 ∨ minLiquidityFeeBps ≤ feeBps ∧ feeBps ≤ maxLiquidityFeeBps))
    s!"fee_bps must be 0 or in {minLiquidityFeeBps}..={maxLiquidityFeeBps}, got `{feeBps}`"
  let count ← takeU8 "truncated CAT recipient count"
  rejectIf (count.toNat > maxLiquidityRecipients)
    s!"recipient_count above max `{maxLiquidityRecipients}`"
  rejectIf (feeBps = 0 ∧ count.toNat ≠ 0) "recipient_count must be 0 when fee_bps is 0"
  rejectIf (feeBps > 0 ∧ ¬(1 ≤ count.toNat ∧ count.toNat ≤ maxLiquidityRecipients))
    "recipient_count must be 1 or 2 when fee_bps > 0"
  let recipients ← times parseRecipientAddress count.toNat
  check (match recipients with
    | [first, second] => do
      failIf (first = second) "duplicate liquidity recipients are not allowed"
      failIf (recipientOrderKey first > recipientOrderKey second)
        "liquidity recipients must be canonically sorted"
    | _ => .ok ())
  return (feeBps, recipients)

def parseCreateAsset : Parser AtomicPayloadOp := do
  let common ← parseCreateAssetCommon
  let platformTag ← parseOptionalPlatformTagTail
  return .createAsset { common with platformTag }

def parseTransfer : Parser AtomicPayloadOp := do
  let assetId ← take32 "truncated CAT asset_id"
  let toOwnerId ← take32 "truncated CAT to_owner_id"
  let amount ← takeU128Le "truncated CAT transfer amount"
  rejectIf (amount = 0) "transfer amount must be non-zero"
  return .transfer { assetId, toOwnerId, amount }

def parseMint : Parser AtomicPayloadOp := do
  let assetId ← take32 "truncated CAT asset_id"
  let toOwnerId ← take32 "truncated CAT to_owner_id"
  let amount ← takeU128Le "truncated CAT mint amount"
  rejectIf (amount = 0) "mint amount must be non-zero"
  return .mint { assetId, toOwnerId, amount }

def parseBurn : Parser AtomicPayloadOp := do
  let assetId ← take32 "truncated CAT asset_id"
  let amount ← takeU128Le "truncated CAT burn amount"
  rejectIf (amount = 0) "burn amount must be non-zero"
  return .burn { assetId, amount }

def parseCreateAssetWithMint : Parser AtomicPayloadOp := do
  let common ← parseCreateAssetCommon
  let initialMintAmount ← takeU128Le "truncated CAT initial mint amount"
  let initialMintToOwnerId ← take32 "truncated CAT initial mint owner id"
  rejectIf (initialMintAmount = 0 ∧ initialMintToOwnerId ≠ zero32)
    "initial_mint_to_owner_id must be zero when initial_mint_amount is zero"
  rejectIf (initialMintAmount > 0 ∧ initialMintToOwnerId = zero32)
    "initial_mint_to_owner_id must be non-zero when initial_mint_amount is non-zero"
  let platformTag ← parseOptionalPlatformTagTail
  return .createAssetWithMint { common with initialMintAmount, initialMintToOwnerId, platformTag }

def parseCreateLiquidityAsset : Parser AtomicPayloadOp := do
  let tokenVersion ← takeU8 "truncated CAT token version"
  check (validateTokenVersion tokenVersion)
  let curveVersion ← takeU8 "truncated CAT liquidity curve version"
  check (validateLiquidityCurveVersion curveVersion)
  let decimals ← takeU8 "truncated CAT decimals"
  rejectIf (decimals ≠ liquidityTokenDecimals)
    s!"liquidity asset decimals must be `{liquidityTokenDecimals}`"
  let maxSupply ← takeU128Le "truncated CAT max_supply"
  rejectIf (¬(minLiquiditySupplyRaw ≤ maxSupply ∧ maxSupply ≤ maxLiquiditySupplyRaw))
    s!"liquidity asset max_supply must be in `{minLiquiditySupplyRaw}..={maxLiquiditySupplyRaw}`"
  let (name, symbol, metadata) ← parseAssetTexts
  let seedReserveSompi ← takeU64Le "truncated CAT seed reserve"
  rejectIf (seedReserveSompi ≠ minLiquiditySeedReserveSompi)
    s!"liquidity asset seed_reserve_sompi must be exactly `{minLiquiditySeedReserveSompi}`"
  let (feeBps, recipients) ← parseFeeRecipients
  let launchBuySompi ← takeU64Le "truncated CAT launch buy sompi"
  let launchBuyMinTokenOut ← takeU128Le "truncated CAT launch buy min token out"
  rejectIf (launchBuySompi = 0 ∧ launchBuyMinTokenOut ≠ 0)
    "launch_buy_min_token_out must be 0 when launch_buy_sompi is 0"
  rejectIf (launchBuySompi > 0 ∧ launchBuyMinTokenOut = 0)
    "launch_buy_min_token_out must be >0 when launch_buy_sompi is >0"
  let tail ← parseOptionalLiquidityCreateTail
  return .createLiquidityAsset
    { tail with tokenVersion, curveVersion, decimals, maxSupply, name, symbol, metadata,
                seedReserveSompi, feeBps, recipients, launchBuySompi, launchBuyMinTokenOut }

def parseBuyLiquidityExactIn : Parser AtomicPayloadOp := do
  let assetId ← take32 "truncated CAT asset_id"
  let expectedPoolNonce ← takeU64Le "truncated CAT expected_pool_nonce"
  rejectIf (expectedPoolNonce = 0) "buy expected_pool_nonce must be >= 1"
  let cpayInSompi ← takeU64Le "truncated CAT cpay in"
  let minTokenOut ← takeU128Le "truncated CAT min token out"
  rejectIf (cpayInSompi = 0) "buy cpay_in_sompi must be >0"
  rejectIf (minTokenOut = 0) "buy min_token_out must be >0"
  return .buyLiquidityExactIn { assetId, expectedPoolNonce, cpayInSompi, minTokenOut }

def parseSellLiquidityExactIn : Parser AtomicPayloadOp := do
  let assetId ← take32 "truncated CAT asset_id"
  let expectedPoolNonce ← takeU64Le "truncated CAT expected_pool_nonce"
  rejectIf (expectedPoolNonce = 0) "sell expected_pool_nonce must be >= 1"
  let tokenIn ← takeU128Le "truncated CAT token_in"
  let minCpayOutSompi ← takeU64Le "truncated CAT min cpay out"
  let cpayReceiveOutputIndex ← takeU16Le "truncated CAT cpay receive output index"
  rejectIf (tokenIn = 0) "sell token_in must be >0"
  rejectIf (minCpayOutSompi = 0) "sell min_cpay_out_sompi must be >0"
  return .sellLiquidityExactIn
    { assetId, expectedPoolNonce, tokenIn, minCpayOutSompi, cpayReceiveOutputIndex }

def parseClaimLiquidityFees : Parser AtomicPayloadOp := do
  let assetId ← take32 "truncated CAT asset_id"
  let expectedPoolNonce ← takeU64Le "truncated CAT expected_pool_nonce"
  rejectIf (expectedPoolNonce = 0) "claim expected_pool_nonce must be >= 1"
  let recipientIndex ← takeU8 "truncated CAT claim recipient index"
  let claimAmountSompi ← takeU64Le "truncated CAT claim amount"
  let claimReceiveOutputIndex ← takeU16Le "truncated CAT claim receive output index"
  rejectIf (claimAmountSompi = 0) "claim amount must be >0"
  return .claimLiquidityFees
    { assetId, expectedPoolNonce, recipientIndex, claimAmountSompi, claimReceiveOutputIndex }

/-- The operation body selected by an op byte that passed the `op > 8` check. -/
def parseOp (op : UInt8) : Parser AtomicPayloadOp :=
  if op = 0 then parseCreateAsset
  else if op = 1 then parseTransfer
  else if op = 2 then parseMint
  else if op = 3 then parseBurn
  else if op = 4 then parseCreateAssetWithMint
  else if op = 5 then parseCreateLiquidityAsset
  else if op = 6 then parseBuyLiquidityExactIn
  else if op = 7 then parseSellLiquidityExactIn
  else parseClaimLiquidityFees

def parsePayloadBody : Parser ParsedAtomicPayload := do
  let magic ← takeVec catMagic.length "truncated CAT magic"
  rejectIf (magic ≠ catMagic) "invalid CAT magic"
  let version ← takeU8 "truncated CAT version"
  rejectIf (version ≠ catVersion) s!"unsupported CAT version `{version}`"
  let op ← takeU8 "truncated CAT op"
  rejectIf (op > 8) s!"unsupported CAT op `{op}`"
  let flags ← takeU8 "truncated CAT flags"
  rejectIf (flags ≠ 0) s!"invalid CAT flags `{flags}`"
  let authInputIndex ← takeU16Le "truncated CAT auth_input_index"
  let nonce ← takeU64Le "truncated CAT nonce"
  rejectIf (nonce = 0) "nonce must be >= 1"
  let op ← parseOp op
  let done ← atEnd
  rejectIf (done = false) "unexpected trailing bytes"
  return { authInputIndex, nonce, op }

end ConsensusPayload

/-- `none` when the payload does not start with the token magic. -/
def parseAtomicPayload (payload : List UInt8) : Except String (Option ParsedAtomicPayload) :=
  if payload.length < catMagic.length ∨ payload.take catMagic.length ≠ catMagic then .ok none
  else (ConsensusPayload.parsePayloadBody payload 0).map fun r => some r.1

end CryptixAtomic
