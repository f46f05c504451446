import CryptixAtomic.State.Normalized

/-!
# Decoding canonical bytes

A full state is a magic, then nonces, assets, balances and anchor counts, each with
its number of entries. The vault index is not stored but rebuilt, and the result has
to be in normal form. Assets written before texts and creation metadata existed are
read by a second reader when the first one fails.
-/
namespace CryptixAtomic

open Foundation Reader

namespace StateCodec

/-- The ASCII bytes of `CATCSG02`. -/
def stateMagic : List UInt8 := [67, 65, 84, 67, 83, 71, 48, 50]

/-- The ASCII bytes of `ROOT`. -/
def rootOnlyTag : List UInt8 := [82, 79, 79, 84]

def decodeRootOnlyCanonicalBytes (bytes : List UInt8) : Except String (Option Bytes32) :=
  if h : bytes.length = stateMagic.length + rootOnlyTag.length + 32 then
    if bytes.take stateMagic.length ≠ stateMagic then .error "invalid atomic consensus state magic"
    else if (bytes.drop stateMagic.length).take rootOnlyTag.length ≠ rootOnlyTag then .ok none
    else .ok (some ⟨bytes.drop (stateMagic.length + rootOnlyTag.length), by simp [h]⟩)
  else .ok none

abbrev StateReader := Reader String

def readBytes (len : ℕ) : StateReader (List UInt8) := do
  let bytes ← exactly len "truncated atomic consensus state"
  return bytes.val

def readExactMagic (magic : List UInt8) : StateReader Unit := do
  let actual ← readBytes magic.length
  rejectIf (actual ≠ magic) "invalid atomic consensus state magic"

def readHash32 : StateReader Bytes32 := exactly 32 "truncated atomic consensus state"
def readU8 : StateReader UInt8 := byte "truncated atomic consensus state"
def readU16 : StateReader ℕ := uintLe 2 "truncated atomic consensus state"
def readU32 : StateReader ℕ := uintLe 4 "truncated atomic consensus state"
def readU64 : StateReader ℕ := uintLe 8 "truncated atomic consensus state"
def readU128 : StateReader ℕ := uintLe 16 "truncated atomic consensus state"

/-- Lengths are 64-bit, and so is `usize` on the platforms a node runs on. -/
def readLen : StateReader ℕ := readU64

/-- A presence byte, then the value if there is one. -/
def readOptional {α : Type} (what : String) (read : StateReader α) : StateReader (Option α) := do
  let raw ← readU8
  if raw = 0 then return none
  else if raw = 1 then return some (← read)
  else fail s!"invalid {what} presence flag `{raw}`"

def readOptionalHash32 : StateReader (Option Bytes32) := readOptional "optional hash" readHash32
def readOptionalU64 : StateReader (Option ℕ) := readOptional "optional u64" readU64

/-- A byte string with its length in front, up to a limit. -/
def readText (what : String) (most : ℕ) : StateReader (List UInt8) := do
  let len ← readLen
  rejectIf (len > most) s!"{what} length `{len}` exceeds max"
  readBytes len

def readAssetClass : StateReader AtomicAssetClass := do
  let raw ← readU8
  if raw = 0 then return .standard
  else if raw = 1 then return .liquidity
  else fail s!"invalid atomic asset class `{raw}`"

def readSupplyMode : StateReader SupplyMode := do
  let raw ← readU8
  if raw = 0 then return .uncapped
  else if raw = 1 then return .capped
  else fail s!"invalid atomic supply mode `{raw}`"

def readTokenVersion : StateReader UInt8 := do
  let tokenVersion ← readU8
  check (StateCheck.validateTokenVersion tokenVersion)
  return tokenVersion

def readPlatformTag : StateReader (List UInt8) := do
  let platformTag ← readText "atomic platform tag" maxPlatformTagLen
  rejectIf (isUtf8 platformTag = false) "atomic platform tag must be valid utf-8"
  return platformTag

def readFeeRecipient : StateReader AtomicLiquidityFeeRecipientState := do
  let ownerId ← readHash32
  let addressVersion ← readU8
  let addressPayloadLen ← readLen
  let addressPayload ← readBytes addressPayloadLen
  let unclaimedSompi ← readU64
  return { ownerId, addressVersion, addressPayload, unclaimedSompi }

def readLiquidityPool : StateReader AtomicLiquidityPoolState := do
  let poolNonce ← readU64
  let curveVersion ← readU8
  check (StateCheck.validateLiquidityCurveVersion curveVersion)
  let curveMode ← readU8
  check (validateLiquidityCurveMode StateCheck.curveErrors curveMode)
  let individualVirtualCpayReservesSompi ← readU64
  let individualVirtualTokenMultiplierBps ← readU16
  check (validateLiquidityCurveParameters StateCheck.curveErrors curveMode
    individualVirtualCpayReservesSompi individualVirtualTokenMultiplierBps)
  let realCpayReservesSompi ← readU64
  let realTokenReserves ← readU128
  let virtualCpayReservesSompi ← readU64
  let virtualTokenReserves ← readU128
  let unclaimedFeeTotalSompi ← readU64
  let feeBps ← readU16
  let recipientCount ← readLen
  rejectIf (recipientCount > maxLiquidityRecipients)
    s!"atomic liquidity recipient count `{recipientCount}` exceeds max"
  let feeRecipients ← times readFeeRecipient recipientCount
  let transactionId ← readHash32
  let index ← readU32
  let vaultValueSompi ← readU64
  let unlockTargetSompi ← readU64
  let rawUnlocked ← readU8
  rejectIf (rawUnlocked ≠ 0 ∧ rawUnlocked ≠ 1)
    s!"invalid atomic liquidity unlocked flag `{rawUnlocked}`"
  return { poolNonce, curveVersion, curveMode, individualVirtualCpayReservesSompi
           individualVirtualTokenMultiplierBps, realCpayReservesSompi, realTokenReserves
           virtualCpayReservesSompi, virtualTokenReserves, unclaimedFeeTotalSompi, feeBps
           feeRecipients, vaultOutpoint := ⟨transactionId, index⟩, vaultValueSompi
           unlockTargetSompi, unlocked := rawUnlocked = 1 }

def readCurrentAtomicAsset : StateReader AtomicAssetState := do
  let creatorOwnerId ← readHash32
  let assetClass ← readAssetClass
  let tokenVersion ← readTokenVersion
  let mintAuthorityOwnerId ← readHash32
  let decimals ← readU8
  rejectIf (decimals > maxDecimals)
    s!"atomic decimals `{decimals}` above max `{maxDecimals}`"
  let supplyMode ← readSupplyMode
  let maxSupply ← readU128
  let totalSupply ← readU128
  let name ← readText "atomic name" maxNameLen
  let symbol ← readText "atomic symbol" maxSymbolLen
  let metadata ← readText "atomic metadata" maxMetadataLen
  rejectIf (isUtf8 name = false ∨ isUtf8 symbol = false)
    "atomic name/symbol must be valid utf-8"
  let platformTag ← readPlatformTag
  let createdBlockHash ← readOptionalHash32
  let createdDaaScore ← readOptionalU64
  let createdAt ← readOptionalU64
  let liquidity ← readOptional "atomic liquidity" readLiquidityPool
  return { creatorOwnerId, assetClass, tokenVersion, mintAuthorityOwnerId, decimals, supplyMode
           maxSupply, totalSupply, name, symbol, metadata, platformTag, createdBlockHash
           createdDaaScore, createdAt, liquidity }

def readLegacyAtomicAsset : StateReader AtomicAssetState := do
  let assetClass ← readAssetClass
  let tokenVersion ← readTokenVersion
  let mintAuthorityOwnerId ← readHash32
  let supplyMode ← readSupplyMode
  let maxSupply ← readU128
  let totalSupply ← readU128
  let platformTag ← readPlatformTag
  let liquidity ← readOptional "atomic liquidity" readLiquidityPool
  return { creatorOwnerId := zero32, assetClass, tokenVersion, mintAuthorityOwnerId
           decimals := 0, supplyMode, maxSupply, totalSupply, name := [], symbol := []
           metadata := [], platformTag, createdBlockHash := none, createdDaaScore := none
           createdAt := none, liquidity }

/-- The legacy layout is tried from the same place; if both fail, the first error counts. -/
def readAtomicAsset : StateReader AtomicAssetState :=
  fallback readCurrentAtomicAsset readLegacyAtomicAsset

def readNonceEntry : StateReader (AtomicNonceKey × ℕ) := do
  let ownerId ← readHash32
  let scopeKind ← readU8
  let scopeId ← readHash32
  let key : AtomicNonceKey := { ownerId, scopeKind, scopeId }
  check key.validate
  let value ← readU64
  return (key, value)

def readAssetEntry : StateReader (Bytes32 × AtomicAssetState) := do
  let assetId ← readHash32
  let asset ← readAtomicAsset
  return (assetId, asset)

def readBalanceEntry : StateReader (AtomicBalanceKey × ℕ) := do
  let assetId ← readHash32
  let ownerId ← readHash32
  let value ← readU128
  return (⟨assetId, ownerId⟩, value)

def readAnchorEntry : StateReader (Bytes32 × ℕ) := do
  let ownerId ← readHash32
  let value ← readU64
  return (ownerId, value)

/-- Read entries into a map and reject the first repeated key. -/
def readEntries {K V : Type} [DecidableEq K] (entry : StateReader (K × V)) (duplicate : String) :
    ℕ → FMap K V → StateReader (FMap K V)
  | 0, m => return m
  | n + 1, m => do
    let (key, value) ← entry
    rejectIf ((m.lookup key).isSome) duplicate
    readEntries entry duplicate n (m.insert key value)

/-- A section: the number of entries, then the entries. -/
def readMap {K V : Type} [DecidableEq K] (entry : StateReader (K × V)) (duplicate : String) :
    StateReader (FMap K V) := do
  let count ← readLen
  readEntries entry duplicate count ∅

def finish : StateReader Unit := do
  let done ← atEnd
  rejectIf (done = false) "unexpected trailing bytes in atomic consensus state"

/-- The four maps of a state, without index and root. -/
def readState : StateReader AtomicConsensusState := do
  readExactMagic stateMagic
  let nonces ← readMap readNonceEntry "duplicate atomic nonce key"
  let assets ← readMap readAssetEntry "duplicate atomic asset id"
  let balances ← readMap readBalanceEntry "duplicate atomic balance key"
  let anchorCounts ← readMap readAnchorEntry "duplicate atomic anchor owner id"
  finish
  return { AtomicConsensusState.default with
    nextNonces := .ofMap nonces
    assets := .ofMap assets
    balances := .ofMap balances
    anchorCounts := .ofMap anchorCounts }

end StateCodec

namespace AtomicConsensusState

open StateCodec

/-- Pools are listed in the order of the asset map; a disk-backed index is left alone. -/
def rebuildLiquidityVaultOutpointIndex (s : AtomicConsensusState) : AtomicConsensusState :=
  if s.isDiskBacked then s
  else { s with
    liquidityVaultOutpoints := .ofMap (s.assets.live.iter.foldl StateCheck.listVault ∅) }

def tryFromCanonicalBytes (blake2b : Blake2b) (bytes : List UInt8) :
    Except String AtomicConsensusState := do
  let rootOnly ← decodeRootOnlyCanonicalBytes bytes
  failIf rootOnly.isSome "root-only Atomic consensus state cannot be imported as a full state"
  let (state, _) ← readState bytes 0
  let state := state.rebuildLiquidityVaultOutpointIndex
  state.validateNormalized blake2b
  return { state with
    storedRoot := .fromStateMaps blake2b state.nextNonces.live state.assets.live
      state.balances.live state.anchorCounts.live }

variable {s : AtomicConsensusState}

theorem currentStore_of_readState {bytes : List UInt8} {cursor next : ℕ}
    (h : readState bytes cursor = .ok (s, next)) :
    s.currentStore = none := by
  obtain ⟨_, _, -, h⟩ := bind_eq_ok h
  obtain ⟨_, _, -, h⟩ := bind_eq_ok h
  obtain ⟨_, _, -, h⟩ := bind_eq_ok h
  obtain ⟨_, _, -, h⟩ := bind_eq_ok h
  obtain ⟨_, _, -, h⟩ := bind_eq_ok h
  obtain ⟨_, _, -, h⟩ := bind_eq_ok h
  cases h
  rfl

theorem tryFromCanonicalBytes_spec {blake2b : Blake2b} {bytes : List UInt8}
    (h : tryFromCanonicalBytes blake2b bytes = .ok s) :
    s.currentStore = none ∧ s.Normalized blake2b ∧
      s.storedRoot = .fromStateMaps blake2b s.nextNonces.live s.assets.live s.balances.live
        s.anchorCounts.live := by
  simp only [tryFromCanonicalBytes, except_bind_eq_ok, failIf_eq_ok, except_pure_eq_ok] at h
  obtain ⟨_, -, _, -, ⟨state, next⟩, hread, _, hnorm, rfl⟩ := h
  have hstore : state.rebuildLiquidityVaultOutpointIndex.currentStore = none := by
    have hnone := currentStore_of_readState hread
    unfold rebuildLiquidityVaultOutpointIndex
    split_ifs <;> exact hnone
  obtain ⟨hn, hc, hb, ha, hsupply, hv⟩ := (validateNormalized_eq_ok blake2b).mp hnorm
  exact ⟨hstore, ⟨hn, hc, hb, ha, hsupply, hv⟩, rfl⟩

end AtomicConsensusState
end CryptixAtomic
