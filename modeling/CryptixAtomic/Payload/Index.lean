import CryptixAtomic.Payload.Consensus

/-!
# The index payload parser

The index reads payloads with its own parser. It reports a reason code instead of
a text, and checks the fields of a trade only after reading all of them.
-/
namespace CryptixAtomic

open Foundation Reader

inductive NoopReason
  | none
  | badMagic
  | badVersion
  | badOp
  | badFlags
  | badLength
  | badUtf8
  | badAuthInput
  | badNonce
  | assetNotFound
  | assetAlreadyExists
  | unauthorizedMint
  | invalidAmount
  | insufficientBalance
  | balanceOverflow
  | supplyOverflow
  | supplyUnderflow
  | supplyCapExceeded
  | badSupplyMode
  | badDecimals
  | badMaxSupply
  | alreadyProcessed
  | internalMalformedAcceptance
  | badLiquidityFeeBps
  | badLiquidityRecipientCount
  | recipientEncodingInvalid
  | recipientDuplicate
  | recipientNotCanonical
  | badLaunchBuyFields
  | minOutViolation
  | zeroOutput
  | legacyOpForLiquidityAsset
  | nonceStale
  | vaultInputCount
  | vaultOutputCount
  | vaultOutpointMismatch
  | payoutScriptClassInvalid
  | historicalStateUnavailable
  | badPlatformTag
  | badLiquidityUnlockTarget
  | liquiditySellLocked
  | badTokenVersion
  | badLiquidityCurveVersion
  | badLiquidityCurveMode
  deriving DecidableEq

namespace IndexPayload

abbrev Parser := Reader NoopReason

def takeU8 : Parser UInt8 := fun bytes cursor =>
  if h : cursor + 1 ≤ bytes.length then .ok (bytes[cursor], cursor + 1) else .error .badLength

def takeU16Le : Parser ℕ := uintLe 2 .badLength
def takeU64Le : Parser ℕ := uintLe 8 .badLength
def takeU128Le : Parser ℕ := uintLe 16 .badLength
def take32 : Parser Bytes32 := exactly 32 .badLength

def takeVec (len : ℕ) : Parser (List UInt8) := do
  let bytes ← exactly len .badLength
  return bytes.val

/-- Every failed curve check is reported as a bad curve mode. -/
def curveErrors : CurveErrors NoopReason where
  unsupportedMode _ := .badLiquidityCurveMode
  fixedCpayRange _ := .badLiquidityCurveMode
  fixedCpayStep _ := .badLiquidityCurveMode
  multiplierRange _ := .badLiquidityCurveMode
  multiplierStep _ := .badLiquidityCurveMode
  notIndividual := .badLiquidityCurveMode

def validateTokenVersion (version : UInt8) : Except NoopReason Unit :=
  failIf (¬supportedVersion currentTokenVersion maxTokenVersion version) .badTokenVersion

def validateLiquidityCurveVersion (version : UInt8) : Except NoopReason Unit :=
  failIf (¬supportedVersion currentLiquidityCurveVersion maxLiquidityCurveVersion version)
    .badLiquidityCurveVersion

def validateLiquidityUnlockTarget (value : ℕ) : Except NoopReason Unit :=
  failIf (¬(value = 0 ∨ value ≤ maxSompi)) .badLiquidityUnlockTarget

def parseSupplyMode : Parser SupplyMode := do
  let raw ← takeU8
  if raw = 0 then return .uncapped
  else if raw = 1 then return .capped
  else fail .badSupplyMode

def parseAssetTexts : Parser (List UInt8 × List UInt8 × List UInt8) := do
  let nameLen ← takeU8
  let symbolLen ← takeU8
  let metadataLen ← takeU16Le
  rejectIf (nameLen.toNat > maxNameLen ∨ symbolLen.toNat > maxSymbolLen ∨
    metadataLen > maxMetadataLen) .badLength
  let name ← takeVec nameLen.toNat
  let symbol ← takeVec symbolLen.toNat
  let metadata ← takeVec metadataLen
  rejectIf (isUtf8 name = false ∨ isUtf8 symbol = false) .badUtf8
  return (name, symbol, metadata)

def parseCreateAssetCommon : Parser CreateAssetFields := do
  let tokenVersion ← takeU8
  check (validateTokenVersion tokenVersion)
  let decimals ← takeU8
  rejectIf (decimals > maxDecimals) .badDecimals
  let supplyMode ← parseSupplyMode
  let maxSupply ← takeU128Le
  let mintAuthorityOwnerId ← take32
  let (name, symbol, metadata) ← parseAssetTexts
  rejectIf (supplyMode = .capped ∧ maxSupply = 0) .badMaxSupply
  rejectIf (supplyMode = .uncapped ∧ maxSupply ≠ 0) .badMaxSupply
  return { tokenVersion, decimals, supplyMode, maxSupply, mintAuthorityOwnerId, name, symbol,
           metadata }

def parsePlatformTag : Parser (List UInt8) := do
  let len ← takeU8
  rejectIf (len.toNat > maxPlatformTagLen) .badPlatformTag
  let tag ← takeVec len.toNat
  rejectIf (isUtf8 tag = false) .badPlatformTag
  return tag

def parseOptionalPlatformTagTail : Parser (List UInt8) := do
  if ← atEnd then return []
  else parsePlatformTag

def parseOptionalCurve : Parser (UInt8 × ℕ × ℕ) := do
  if ← atEnd then return (defaultCurveMode, 0, 0)
  else
    let mode ← takeU8
    check (validateLiquidityCurveMode curveErrors mode)
    if mode = curveModeIndividual then
      let fixedCpay ← takeU64Le
      let multiplier ← takeU16Le
      check (validateLiquidityCurveParameters curveErrors mode fixedCpay multiplier)
      return (mode, fixedCpay, multiplier)
    else
      check (validateLiquidityCurveParameters curveErrors mode 0 0)
      return (mode, 0, 0)

def parseOptionalLiquidityCreateTail : Parser LiquidityCreateTail := do
  if ← atEnd then
    return { platformTag := [], liquidityUnlockTargetSompi := 0, curveMode := defaultCurveMode,
             individualVirtualCpayReservesSompi := 0, individualVirtualTokenMultiplierBps := 0 }
  else
    let platformTag ← parsePlatformTag
    let unlockTarget ← takeU64Le
    check (validateLiquidityUnlockTarget unlockTarget)
    let (mode, fixedCpay, multiplier) ← parseOptionalCurve
    return { platformTag, liquidityUnlockTargetSompi := unlockTarget, curveMode := mode,
             individualVirtualCpayReservesSompi := fixedCpay,
             individualVirtualTokenMultiplierBps := multiplier }

def parseRecipientAddress : Parser RecipientAddress := do
  let addressVersion ← takeU8
  let expectedLen ← (if addressVersion = 0 then pure 32
    else if addressVersion = 1 then pure 33
    else if addressVersion = 8 then pure 32
    else fail .recipientEncodingInvalid : Parser ℕ)
  let addressPayload ← takeVec expectedLen
  return { addressVersion, addressPayload }

def parseFeeRecipients : Parser (ℕ × List RecipientAddress) := do
  let feeBps ← takeU16Le
  rejectIf (¬(feeBps = 0 ∨ minLiquidityFeeBps ≤ feeBps ∧ feeBps ≤ maxLiquidityFeeBps))
    .badLiquidityFeeBps
  let count ← takeU8
  rejectIf (count.toNat > maxLiquidityRecipients) .badLiquidityRecipientCount
  rejectIf (feeBps = 0 ∧ count.toNat ≠ 0) .badLiquidityRecipientCount
  rejectIf (feeBps > 0 ∧ ¬(1 ≤ count.toNat ∧ count.toNat ≤ maxLiquidityRecipients))
    .badLiquidityRecipientCount
  let recipients ← times parseRecipientAddress count.toNat
  check (match recipients with
    | [first, second] => do
      failIf (first = second) .recipientDuplicate
      failIf (recipientOrderKey first > recipientOrderKey second) .recipientNotCanonical
    | _ => .ok ())
  return (feeBps, recipients)

def parseCreateAssetOp : Parser CreateAssetOp := do
  let common ← parseCreateAssetCommon
  let platformTag ← parseOptionalPlatformTagTail
  return { common with platformTag }

def parseTransferOp : Parser TransferOp := do
  let assetId ← take32
  let toOwnerId ← take32
  let amount ← takeU128Le
  rejectIf (amount = 0) .invalidAmount
  return { assetId, toOwnerId, amount }

def parseMintOp : Parser MintOp := do
  let assetId ← take32
  let toOwnerId ← take32
  let amount ← takeU128Le
  rejectIf (amount = 0) .invalidAmount
  return { assetId, toOwnerId, amount }

def parseBurnOp : Parser BurnOp := do
  let assetId ← take32
  let amount ← takeU128Le
  rejectIf (amount = 0) .invalidAmount
  return { assetId, amount }

def parseCreateAssetWithMintOp : Parser CreateAssetWithMintOp := do
  let common ← parseCreateAssetCommon
  let initialMintAmount ← takeU128Le
  let initialMintToOwnerId ← take32
  rejectIf (initialMintAmount = 0 ∧ initialMintToOwnerId ≠ zero32) .invalidAmount
  rejectIf (initialMintAmount > 0 ∧ initialMintToOwnerId = zero32) .invalidAmount
  let platformTag ← parseOptionalPlatformTagTail
  return { common with initialMintAmount, initialMintToOwnerId, platformTag }

def parseCreateLiquidityAssetOp : Parser CreateLiquidityAssetOp := do
  let tokenVersion ← takeU8
  check (validateTokenVersion tokenVersion)
  let curveVersion ← takeU8
  check (validateLiquidityCurveVersion curveVersion)
  let decimals ← takeU8
  rejectIf (decimals ≠ liquidityTokenDecimals) .badDecimals
  let maxSupply ← takeU128Le
  rejectIf (¬(minLiquiditySupplyRaw ≤ maxSupply ∧ maxSupply ≤ maxLiquiditySupplyRaw))
    .badMaxSupply
  let (name, symbol, metadata) ← parseAssetTexts
  let seedReserveSompi ← takeU64Le
  rejectIf (seedReserveSompi ≠ minLiquiditySeedReserveSompi) .invalidAmount
  let (feeBps, recipients) ← parseFeeRecipients
  let launchBuySompi ← takeU64Le
  let launchBuyMinTokenOut ← takeU128Le
  rejectIf (launchBuySompi = 0 ∧ launchBuyMinTokenOut ≠ 0) .badLaunchBuyFields
  rejectIf (launchBuySompi > 0 ∧ launchBuyMinTokenOut = 0) .badLaunchBuyFields
  let tail ← parseOptionalLiquidityCreateTail
  return { tail with tokenVersion, curveVersion, decimals, maxSupply, name, symbol, metadata,
                     seedReserveSompi, feeBps, recipients, launchBuySompi, launchBuyMinTokenOut }

def parseBuyLiquidityExactInOp : Parser BuyLiquidityExactInOp := do
  let assetId ← take32
  let expectedPoolNonce ← takeU64Le
  let cpayInSompi ← takeU64Le
  let minTokenOut ← takeU128Le
  rejectIf (expectedPoolNonce = 0) .badNonce
  rejectIf (cpayInSompi = 0) .invalidAmount
  rejectIf (minTokenOut = 0) .minOutViolation
  return { assetId, expectedPoolNonce, cpayInSompi, minTokenOut }

def parseSellLiquidityExactInOp : Parser SellLiquidityExactInOp := do
  let assetId ← take32
  let expectedPoolNonce ← takeU64Le
  let tokenIn ← takeU128Le
  let minCpayOutSompi ← takeU64Le
  let cpayReceiveOutputIndex ← takeU16Le
  rejectIf (expectedPoolNonce = 0) .badNonce
  rejectIf (tokenIn = 0) .invalidAmount
  rejectIf (minCpayOutSompi = 0) .minOutViolation
  return { assetId, expectedPoolNonce, tokenIn, minCpayOutSompi, cpayReceiveOutputIndex }

def parseClaimLiquidityFeesOp : Parser ClaimLiquidityFeesOp := do
  let assetId ← take32
  let expectedPoolNonce ← takeU64Le
  let recipientIndex ← takeU8
  let claimAmountSompi ← takeU64Le
  let claimReceiveOutputIndex ← takeU16Le
  rejectIf (expectedPoolNonce = 0) .badNonce
  rejectIf (claimAmountSompi = 0) .invalidAmount
  return { assetId, expectedPoolNonce, recipientIndex, claimAmountSompi, claimReceiveOutputIndex }

def opCode (raw : UInt8) : Except NoopReason TokenOpCode :=
  if raw = 0 then .ok .createAsset
  else if raw = 1 then .ok .transfer
  else if raw = 2 then .ok .mint
  else if raw = 3 then .ok .burn
  else if raw = 4 then .ok .createAssetWithMint
  else if raw = 5 then .ok .createLiquidityAsset
  else if raw = 6 then .ok .buyLiquidityExactIn
  else if raw = 7 then .ok .sellLiquidityExactIn
  else if raw = 8 then .ok .claimLiquidityFees
  else .error .badOp

def parseOp : TokenOpCode → Parser TokenOp
  | .createAsset => do return .createAsset (← parseCreateAssetOp)
  | .transfer => do return .transfer (← parseTransferOp)
  | .mint => do return .mint (← parseMintOp)
  | .burn => do return .burn (← parseBurnOp)
  | .createAssetWithMint => do return .createAssetWithMint (← parseCreateAssetWithMintOp)
  | .createLiquidityAsset => do return .createLiquidityAsset (← parseCreateLiquidityAssetOp)
  | .buyLiquidityExactIn => do return .buyLiquidityExactIn (← parseBuyLiquidityExactInOp)
  | .sellLiquidityExactIn => do return .sellLiquidityExactIn (← parseSellLiquidityExactInOp)
  | .claimLiquidityFees => do return .claimLiquidityFees (← parseClaimLiquidityFeesOp)

def parseAtomicTokenPayloadStrict : Parser ParsedTokenPayload := do
  let magic ← takeVec 3
  rejectIf (magic ≠ catMagic) .badMagic
  let version ← takeU8
  rejectIf (version ≠ catVersion) .badVersion
  let raw ← takeU8
  let op ← check (opCode raw)
  let flags ← takeU8
  rejectIf (flags ≠ 0) .badFlags
  let authInputIndex ← takeU16Le
  let nonce ← takeU64Le
  rejectIf (nonce = 0) .badNonce
  let header : TokenOpHeader := { op, authInputIndex, nonce }
  let op ← parseOp op
  let done ← atEnd
  rejectIf (done = false) .badLength
  return { header, op }

end IndexPayload

/-- `none` when the payload does not start with the token magic. -/
def parseAtomicTokenPayload (payload : List UInt8) :
    Option (Except NoopReason ParsedTokenPayload) :=
  if payload.length < catMagic.length then none
  else if payload.take 3 ≠ catMagic then none
  else some ((IndexPayload.parseAtomicTokenPayloadStrict payload 0).map Prod.fst)

end CryptixAtomic
