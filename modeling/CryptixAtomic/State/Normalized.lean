import CryptixAtomic.Payload.Consensus
import CryptixAtomic.State.Store

/-!
# Normal form of the state

`validateNormalized` is the check that a decoded state has to pass; it only looks at
the maps held in memory. `Normalized` says the same in terms of the maps. The source
walks its hash maps in no particular order, the model in key order: which error is
found first may differ, whether there is one may not.
-/
namespace CryptixAtomic

open Foundation List Option FMap

namespace StateCheck

def curveErrors : CurveErrors String := textCurveErrors "atomic liquidity curve mode"

def validateTokenVersion (version : UInt8) : Except String Unit :=
  failIf (¬supportedVersion currentTokenVersion maxTokenVersion version)
    s!"unsupported atomic token version `{version}`"

def validateLiquidityCurveVersion (version : UInt8) : Except String Unit :=
  failIf (¬supportedVersion currentLiquidityCurveVersion maxLiquidityCurveVersion version)
    s!"unsupported atomic liquidity curve version `{version}`"

/-- Recipients are compared by address version, then by payload. -/
def orderKey (r : AtomicLiquidityFeeRecipientState) : UInt8 ×ₗ List UInt8 :=
  toLex (r.addressVersion, r.addressPayload)

variable (blake2b : Blake2b)

/-- The loop over the recipients, with the key of the previous one and the sum so far. -/
def sumFeeRecipients (assetHex : String) :
    List AtomicLiquidityFeeRecipientState → Option (UInt8 ×ₗ List UInt8) → ℕ → Except String ℕ
  | [], _, unclaimedSum => .ok unclaimedSum
  | r :: rest, previous, unclaimedSum => do
    let ownerId ← okOr
      (atomicOwnerIdFromAddressComponents blake2b r.addressVersion r.addressPayload)
      s!"liquidity asset `{assetHex}` has invalid fee recipient address"
    failIf (ownerId ≠ r.ownerId) s!"liquidity asset `{assetHex}` fee recipient owner mismatch"
    failIf (∃ key ∈ previous, orderKey r ≤ key)
      s!"liquidity asset `{assetHex}` fee recipients are duplicated or not canonically sorted"
    let unclaimedSum ← okOr (checkedAdd 64 unclaimedSum r.unclaimedSompi)
      s!"liquidity asset `{assetHex}` fee recipient total overflow"
    sumFeeRecipients assetHex rest (some (orderKey r)) unclaimedSum

/-- A zero rate goes without recipients, any other rate with one or two. -/
def validateFeeRate (assetHex : String) (pool : AtomicLiquidityPoolState) : Except String Unit :=
  if pool.feeBps = 0 then
    failIf (pool.feeRecipients ≠ []) s!"liquidity asset `{assetHex}` has recipients with zero fee_bps"
  else if minLiquidityFeeBps ≤ pool.feeBps ∧ pool.feeBps ≤ maxLiquidityFeeBps then
    failIf (pool.feeRecipients = [] ∨ pool.feeRecipients.length > maxLiquidityRecipients)
      s!"liquidity asset `{assetHex}` has invalid fee recipient count"
  else .error s!"liquidity asset `{assetHex}` has invalid fee_bps"

def validateFeeRecipientsNormalized (assetId : Bytes32) (pool : AtomicLiquidityPoolState) :
    Except String Unit := do
  let assetHex := hex32 assetId
  validateFeeRate assetHex pool
  let unclaimedSum ← sumFeeRecipients blake2b assetHex pool.feeRecipients none 0
  failIf (unclaimedSum ≠ pool.unclaimedFeeTotalSompi)
    s!"liquidity asset `{assetHex}` fee total invariant violation"

/-- The pool of a liquidity asset, without its place in the vault index. -/
def validatePoolNormalized (assetId : Bytes32) (asset : AtomicAssetState)
    (pool : AtomicLiquidityPoolState) : Except String Unit := do
  let assetHex := hex32 assetId
  failIf (asset.mintAuthorityOwnerId ≠ zero32)
    s!"liquidity asset `{assetHex}` has non-zero mint authority"
  failIf (asset.supplyMode ≠ .capped) s!"liquidity asset `{assetHex}` is not capped"
  failIf (pool.poolNonce = 0) s!"liquidity asset `{assetHex}` has zero pool nonce"
  validateLiquidityCurveVersion pool.curveVersion
  validateLiquidityCurveMode curveErrors pool.curveMode
  validateLiquidityCurveParameters curveErrors pool.curveMode
    pool.individualVirtualCpayReservesSompi pool.individualVirtualTokenMultiplierBps
  failIf (pool.unlockTargetSompi = 0 ∧ pool.unlocked = false)
    s!"liquidity asset `{assetHex}` has disabled lock but is not marked unlocked"
  failIf (pool.unlockTargetSompi > maxSompi)
    s!"liquidity asset `{assetHex}` unlock target exceeds MAX_SOMPI"
  failIf (pool.unlockTargetSompi > 0 ∧ pool.unlocked = false ∧
      pool.realCpayReservesSompi ≥ pool.unlockTargetSompi)
    s!"liquidity asset `{assetHex}` reached unlock target but is not marked unlocked"
  failIf (pool.realCpayReservesSompi = 0)
    s!"liquidity asset `{assetHex}` has zero real CPAY reserve"
  failIf (pool.realTokenReserves = 0) s!"liquidity asset `{assetHex}` has zero real token reserve"
  failIf (pool.virtualCpayReservesSompi = 0 ∨ pool.virtualTokenReserves = 0)
    s!"liquidity asset `{assetHex}` has zero virtual reserve"
  let expectedVaultValue ← okOr
    (checkedAdd 64 pool.realCpayReservesSompi pool.unclaimedFeeTotalSompi)
    s!"liquidity asset `{assetHex}` vault value overflow"
  failIf (pool.vaultValueSompi ≠ expectedVaultValue)
    s!"liquidity asset `{assetHex}` vault value invariant violation"
  let expectedSupply ← okOr (checkedAdd 128 asset.totalSupply pool.realTokenReserves)
    s!"liquidity asset `{assetHex}` supply invariant overflow"
  failIf (expectedSupply ≠ asset.maxSupply)
    s!"liquidity asset `{assetHex}` supply invariant violation"
  validateFeeRecipientsNormalized blake2b assetId pool

/-- Returns the expected vault index extended by the asset's pool. -/
def validateLiquidityAssetNormalized (assetId : Bytes32) (asset : AtomicAssetState)
    (expected : FMap TransactionOutpoint Bytes32) :
    Except String (FMap TransactionOutpoint Bytes32) := do
  let assetHex := hex32 assetId
  let pool ← okOr asset.liquidity s!"liquidity asset `{assetHex}` is missing pool state"
  validatePoolNormalized blake2b assetId asset pool
  let outpoint := pool.vaultOutpoint
  failIf (∃ previous ∈ expected.lookup pool.vaultOutpoint, previous ≠ assetId)
    s!"multiple liquidity assets share vault outpoint `{outpoint}`"
  return expected.insert pool.vaultOutpoint assetId

/-- What an asset must satisfy whatever its class. -/
def validateAssetFields (assetId : Bytes32) (asset : AtomicAssetState) : Except String Unit := do
  let assetHex := hex32 assetId
  let decimals := asset.decimals
  validateTokenVersion asset.tokenVersion
  failIf (asset.decimals > maxDecimals)
    s!"atomic asset `{assetHex}` decimals `{decimals}` above max `{maxDecimals}`"
  failIf (asset.name.length > maxNameLen) s!"atomic asset `{assetHex}` name exceeds max length"
  failIf (asset.symbol.length > maxSymbolLen)
    s!"atomic asset `{assetHex}` symbol exceeds max length"
  failIf (asset.metadata.length > maxMetadataLen)
    s!"atomic asset `{assetHex}` metadata exceeds max length"
  failIf (isUtf8 asset.name = false ∨ isUtf8 asset.symbol = false)
    s!"atomic asset `{assetHex}` name/symbol must be valid utf-8"
  let createdFlags :=
    [asset.createdBlockHash.isSome, asset.createdDaaScore.isSome, asset.createdAt.isSome]
  failIf (true ∈ createdFlags ∧ false ∈ createdFlags)
    s!"atomic asset `{assetHex}` has partial creation metadata"
  failIf (asset.platformTag.length > maxPlatformTagLen)
    s!"atomic asset `{assetHex}` platform tag exceeds max length"
  failIf (isUtf8 asset.platformTag = false)
    s!"atomic asset `{assetHex}` platform tag is not valid utf-8"
  match asset.supplyMode with
  | .uncapped =>
    failIf (asset.maxSupply ≠ 0) s!"uncapped asset `{assetHex}` has non-zero max_supply"
  | .capped =>
    failIf (asset.maxSupply = 0) s!"capped asset `{assetHex}` has zero max_supply"
    failIf (asset.totalSupply > asset.maxSupply)
      s!"asset `{assetHex}` total_supply exceeds max_supply"

/-- The loop over the assets builds the vault index they call for. -/
def validateAssets (totals : FMap Bytes32 ℕ) :
    List (Bytes32 × AtomicAssetState) → FMap TransactionOutpoint Bytes32 →
      Except String (FMap TransactionOutpoint Bytes32)
  | [], expected => .ok expected
  | (assetId, asset) :: rest, expected => do
    let assetHex := hex32 assetId
    let totalSupply := asset.totalSupply
    validateAssetFields assetId asset
    let balanceTotal := (totals.lookup assetId).getD 0
    failIf (balanceTotal ≠ asset.totalSupply)
      s!"asset `{assetHex}` balance total `{balanceTotal}` does not match total_supply `{totalSupply}`"
    match asset.assetClass with
    | .standard =>
      failIf asset.liquidity.isSome s!"standard asset `{assetHex}` has liquidity state"
      validateAssets totals rest expected
    | .liquidity =>
      failIf (asset.decimals ≠ 0) s!"liquidity asset `{assetHex}` has non-zero decimals"
      let expected ← validateLiquidityAssetNormalized blake2b assetId asset expected
      validateAssets totals rest expected

/-- The loop over the balances, with the sums per asset so far. -/
def sumBalances (assets : FMap Bytes32 AtomicAssetState) :
    List (AtomicBalanceKey × ℕ) → FMap Bytes32 ℕ → Except String (FMap Bytes32 ℕ)
  | [], totals => .ok totals
  | (key, amount) :: rest, totals => do
    let assetHex := hex32 key.assetId
    let ownerHex := hex32 key.ownerId
    failIf (amount = 0) s!"zero atomic balance for asset `{assetHex}` owner `{ownerHex}`"
    failIf ((assets.lookup key.assetId).isNone)
      s!"atomic balance references unknown asset `{assetHex}`"
    let total ← okOr (checkedAdd 128 ((totals.lookup key.assetId).getD 0) amount)
      s!"balance total overflow for asset `{assetHex}`"
    sumBalances assets rest (totals.insert key.assetId total)

def validateNonce (entry : AtomicNonceKey × ℕ) : Except String Unit := do
  let ownerHex := hex32 entry.1.ownerId
  let kind := entry.1.scopeKind
  let scopeHex := hex32 entry.1.scopeId
  entry.1.validate
  failIf (entry.2 < 2)
    s!"atomic nonce for owner `{ownerHex}` scope `{kind}` `{scopeHex}` is not normalized"

def validateAnchorCount (entry : Bytes32 × ℕ) : Except String Unit :=
  let ownerHex := hex32 entry.1
  failIf (entry.2 = 0) s!"zero atomic anchor count for owner `{ownerHex}`"

end StateCheck

open StateCheck in
def AtomicConsensusState.validateNormalized (blake2b : Blake2b) (s : AtomicConsensusState) :
    Except String Unit := do
  checkAll validateNonce s.nextNonces.live.iter
  checkAll validateAnchorCount s.anchorCounts.live.iter
  let totals ← sumBalances s.assets.live s.balances.live.iter ∅
  let expected ← validateAssets blake2b totals s.assets.live.iter ∅
  failIf (s.liquidityVaultOutpoints.live ≠ expected)
    "liquidity vault outpoint index is not normalized"

section Predicates

variable (blake2b : Blake2b)

/-- Fee recipients go with a fee rate, are sorted by address and hold all unclaimed fees. -/
structure FeesNormalized (pool : AtomicLiquidityPoolState) : Prop where
  rate : pool.feeBps = 0 ∧ pool.feeRecipients = [] ∨
    (minLiquidityFeeBps ≤ pool.feeBps ∧ pool.feeBps ≤ maxLiquidityFeeBps) ∧
      pool.feeRecipients ≠ [] ∧ pool.feeRecipients.length ≤ maxLiquidityRecipients
  owners : ∀ r ∈ pool.feeRecipients,
    atomicOwnerIdFromAddressComponents blake2b r.addressVersion r.addressPayload = some r.ownerId
  sorted : pool.feeRecipients.Pairwise fun a b => StateCheck.orderKey a < StateCheck.orderKey b
  total : (pool.feeRecipients.map (·.unclaimedSompi)).sum = pool.unclaimedFeeTotalSompi
  fits : pool.unclaimedFeeTotalSompi < 2 ^ 64

structure PoolNormalized (asset : AtomicAssetState) (pool : AtomicLiquidityPoolState) : Prop where
  mintAuthority : asset.mintAuthorityOwnerId = zero32
  capped : asset.supplyMode = .capped
  nonce : pool.poolNonce ≠ 0
  curveVersion :
    supportedVersion currentLiquidityCurveVersion maxLiquidityCurveVersion pool.curveVersion
  curve : CurveParams pool.curveMode pool.individualVirtualCpayReservesSompi
    pool.individualVirtualTokenMultiplierBps
  disabledLock : pool.unlockTargetSompi = 0 → pool.unlocked = true
  target : pool.unlockTargetSompi ≤ maxSompi
  locked : 0 < pool.unlockTargetSompi → pool.unlocked = false →
    pool.realCpayReservesSompi < pool.unlockTargetSompi
  realCpay : pool.realCpayReservesSompi ≠ 0
  realToken : pool.realTokenReserves ≠ 0
  virtualCpay : pool.virtualCpayReservesSompi ≠ 0
  virtualToken : pool.virtualTokenReserves ≠ 0
  vaultFits : pool.realCpayReservesSompi + pool.unclaimedFeeTotalSompi < 2 ^ 64
  vaultValue : pool.vaultValueSompi = pool.realCpayReservesSompi + pool.unclaimedFeeTotalSompi
  supplyFits : asset.totalSupply + pool.realTokenReserves < 2 ^ 128
  supply : asset.totalSupply + pool.realTokenReserves = asset.maxSupply
  fees : FeesNormalized blake2b pool

structure AssetNormalized (asset : AtomicAssetState) : Prop where
  version : supportedVersion currentTokenVersion maxTokenVersion asset.tokenVersion
  decimals : asset.decimals ≤ maxDecimals
  name : asset.name.length ≤ maxNameLen
  symbol : asset.symbol.length ≤ maxSymbolLen
  metadata : asset.metadata.length ≤ maxMetadataLen
  texts : isUtf8 asset.name ∧ isUtf8 asset.symbol
  created : asset.createdBlockHash.isSome = asset.createdDaaScore.isSome ∧
    asset.createdDaaScore.isSome = asset.createdAt.isSome
  tag : asset.platformTag.length ≤ maxPlatformTagLen
  tagText : isUtf8 asset.platformTag
  uncapped : asset.supplyMode = .uncapped → asset.maxSupply = 0
  capped : asset.supplyMode = .capped → asset.maxSupply ≠ 0 ∧ asset.totalSupply ≤ asset.maxSupply
  standard : asset.assetClass = .standard → asset.liquidity = none
  liquidity : asset.assetClass = .liquidity → asset.decimals = 0 ∧
    ∃ pool, asset.liquidity = some pool ∧ PoolNormalized blake2b asset pool

variable (balances : FMap AtomicBalanceKey ℕ)

def supplyOf (assetId : Bytes32) : ℕ :=
  balances.total fun key amount => if key.assetId = assetId then amount else 0

/-- The state as `validateNormalized` wants it. -/
structure AtomicConsensusState.Normalized (s : AtomicConsensusState) : Prop where
  nonces : ∀ key nonce, s.nextNonces.live.lookup key = some nonce → key.Valid ∧ 2 ≤ nonce
  anchors : ∀ ownerId count, s.anchorCounts.live.lookup ownerId = some count → count ≠ 0
  balances : ∀ key amount, s.balances.live.lookup key = some amount →
    amount ≠ 0 ∧ (s.assets.live.lookup key.assetId).isSome
  assets : ∀ assetId asset, s.assets.live.lookup assetId = some asset →
    AssetNormalized blake2b asset
  supply : ∀ assetId asset, s.assets.live.lookup assetId = some asset →
    supplyOf s.balances.live assetId = asset.totalSupply ∧ asset.totalSupply < 2 ^ 128
  vaults : ∀ outpoint assetId, s.liquidityVaultOutpoints.live.lookup outpoint = some assetId ↔
    ∃ asset, s.assets.live.lookup assetId = some asset ∧ asset.vaultOutpoint = some outpoint

end Predicates

variable {u : Unit}

namespace StateCheck

variable {assetId : Bytes32}

section Pools

variable (blake2b : Blake2b)

theorem sumFeeRecipients_eq_ok {assetHex : String} {rs : List AtomicLiquidityFeeRecipientState}
    {previous : Option (UInt8 ×ₗ List UInt8)} {acc out : ℕ} :
    sumFeeRecipients blake2b assetHex rs previous acc = .ok out ↔
      (∀ r ∈ rs, atomicOwnerIdFromAddressComponents blake2b r.addressVersion r.addressPayload =
        some r.ownerId) ∧
      (∀ key ∈ previous, ∀ r ∈ rs, key < orderKey r) ∧
      (rs.Pairwise fun a b => orderKey a < orderKey b) ∧
      (rs ≠ [] → acc + (rs.map (·.unclaimedSompi)).sum < 2 ^ 64) ∧
      acc + (rs.map (·.unclaimedSompi)).sum = out := by
  induction rs generalizing previous acc with
  | nil => simp [sumFeeRecipients]
  | cons r rs ih =>
    simp only [sumFeeRecipients, except_bind_eq_ok, okOr_eq_ok, failIf_eq_ok, checkedAdd_eq_some,
      ih]
    constructor
    · rintro ⟨ownerId, howner, -, hid, -, hprev, sum, ⟨hfit, rfl⟩, howners, hkeys, hsorted, hfits,
        rfl⟩
      have hid : ownerId = r.ownerId := by simpa using hid
      have hfirst : ∀ key ∈ previous, key < orderKey r := by
        intro key hkey
        by_contra hle
        exact hprev ⟨key, hkey, not_lt.mp hle⟩
      have hrest : ∀ x ∈ rs, orderKey r < orderKey x := hkeys _ rfl
      refine ⟨?_, ?_, ?_, ?_, ?_⟩
      · simpa [howner, hid] using howners
      · intro key hkey x hx
        rcases mem_cons.mp hx with rfl | hx
        · exact hfirst key hkey
        · exact (hfirst key hkey).trans (hrest x hx)
      · exact pairwise_cons.mpr ⟨hrest, hsorted⟩
      · intro _
        rcases rs with _ | ⟨x, xs⟩
        · simpa using hfit
        · have h := hfits (by simp)
          simp only [map_cons, sum_cons] at h ⊢
          omega
      · simp only [map_cons, sum_cons]
        omega
    · rintro ⟨howners, hkeys, hsorted, hfits, rfl⟩
      obtain ⟨hrest, hsorted⟩ := pairwise_cons.mp hsorted
      have hsum := hfits (by simp)
      simp only [map_cons, sum_cons] at hsum
      refine ⟨r.ownerId, howners r mem_cons_self, (), by simp, (), ?_, _,
        ⟨by omega, rfl⟩, fun x hx => howners x (mem_cons_of_mem _ hx), ?_, hsorted, ?_, ?_⟩
      · rintro ⟨key, hkey, hle⟩
        exact absurd (hkeys key hkey r mem_cons_self) (not_lt.mpr hle)
      · rintro key ⟨⟩ x hx
        exact hrest x hx
      · intro _
        omega
      · simp only [map_cons, sum_cons]
        omega

variable {pool : AtomicLiquidityPoolState} {u : Unit}

theorem validateFeeRate_eq_ok {assetHex : String} : validateFeeRate assetHex pool = .ok u ↔
      pool.feeBps = 0 ∧ pool.feeRecipients = [] ∨
        (minLiquidityFeeBps ≤ pool.feeBps ∧ pool.feeBps ≤ maxLiquidityFeeBps) ∧
          pool.feeRecipients ≠ [] ∧ pool.feeRecipients.length ≤ maxLiquidityRecipients := by
  unfold validateFeeRate
  split_ifs with hzero hrange
  · have hlow : minLiquidityFeeBps ≠ 0 := by decide
    simp [hzero, hlow]
  · simp [hzero, hrange]
  · simp [hzero, hrange]

theorem validateFeeRecipientsNormalized_eq_ok :
    validateFeeRecipientsNormalized blake2b assetId pool = .ok u ↔ FeesNormalized blake2b pool := by
  simp only [validateFeeRecipientsNormalized, except_bind_eq_ok, failIf_eq_ok,
    validateFeeRate_eq_ok, sumFeeRecipients_eq_ok, zero_add, not_not, exists_const]
  constructor
  · rintro ⟨hrate, sum, ⟨howners, -, hsorted, hfits, hsum⟩, rfl⟩
    have hfit : pool.unclaimedFeeTotalSompi < 2 ^ 64 := by
      by_cases hnil : pool.feeRecipients = []
      · simp [← hsum, hnil]
      · exact hsum ▸ hfits hnil
    exact ⟨hrate, howners, hsorted, hsum, hfit⟩
  · rintro ⟨hrate, howners, hsorted, hsum, hfit⟩
    exact ⟨hrate, _, ⟨howners, by simp, hsorted, fun _ => hsum ▸ hfit, hsum⟩, rfl⟩

theorem validatePoolNormalized_eq_ok {asset : AtomicAssetState} :
    validatePoolNormalized blake2b assetId asset pool = .ok u ↔
      PoolNormalized blake2b asset pool := by
  simp only [validatePoolNormalized, validateLiquidityCurveVersion, except_bind_eq_ok,
    failIf_eq_ok, okOr_eq_ok, checkedAdd_eq_some, validateLiquidityCurveMode_eq_ok,
    validateLiquidityCurveParameters_eq_ok, validateFeeRecipientsNormalized_eq_ok, exists_const,
    not_not, not_and, not_or, not_le, not_lt, gt_iff_lt, ge_iff_le, ne_eq, Bool.not_eq_false]
  constructor
  · rintro ⟨hmint, hcapped, hnonce, hversion, -, hcurve, hlock, htarget, hlocked, hcpay, htoken,
      ⟨hvcpay, hvtoken⟩, vault, ⟨hvaultFits, rfl⟩, hvault, supply, ⟨hsupplyFits, rfl⟩, hsupply, hfees⟩
    exact ⟨hmint, hcapped, hnonce, hversion, hcurve, hlock, htarget, hlocked, hcpay, htoken, hvcpay,
      hvtoken, hvaultFits, hvault, hsupplyFits, hsupply, hfees⟩
  · intro h
    have hmode : pool.curveMode = curveModeBasic ∨ pool.curveMode = curveModeAggressive ∨
        pool.curveMode = curveModeIndividual := by
      rcases h.curve with ⟨hmode | hmode, -⟩ | ⟨hmode, -⟩ <;> simp [hmode]
    exact ⟨h.mintAuthority, h.capped, h.nonce, h.curveVersion, hmode, h.curve, h.disabledLock,
      h.target, h.locked, h.realCpay, h.realToken, ⟨h.virtualCpay, h.virtualToken⟩, _,
      ⟨h.vaultFits, rfl⟩, h.vaultValue, _, ⟨h.supplyFits, rfl⟩, h.supply, h.fees⟩

end Pools

variable {assets : FMap Bytes32 AtomicAssetState} {totals : FMap Bytes32 ℕ}

section Assets

variable (blake2b : Blake2b)
variable {asset : AtomicAssetState} {entries : List (Bytes32 × AtomicAssetState)}

theorem validateAssetFields_eq_ok : validateAssetFields assetId asset = .ok u ↔
      supportedVersion currentTokenVersion maxTokenVersion asset.tokenVersion ∧
      asset.decimals ≤ maxDecimals ∧ asset.name.length ≤ maxNameLen ∧
      asset.symbol.length ≤ maxSymbolLen ∧ asset.metadata.length ≤ maxMetadataLen ∧
      (isUtf8 asset.name ∧ isUtf8 asset.symbol) ∧
      (asset.createdBlockHash.isSome = asset.createdDaaScore.isSome ∧
        asset.createdDaaScore.isSome = asset.createdAt.isSome) ∧
      asset.platformTag.length ≤ maxPlatformTagLen ∧ isUtf8 asset.platformTag ∧
      (asset.supplyMode = .uncapped → asset.maxSupply = 0) ∧
      (asset.supplyMode = .capped → asset.maxSupply ≠ 0 ∧ asset.totalSupply ≤ asset.maxSupply) := by
  have hflags : ∀ a b c : Bool, ¬(true ∈ [a, b, c] ∧ false ∈ [a, b, c]) ↔ a = b ∧ b = c := by
    decide
  cases hmode : asset.supplyMode <;>
    simp [validateAssetFields, validateTokenVersion, hmode, hflags, -mem_cons, and_assoc]

theorem assetNormalized_iff (assetId : Bytes32) :
    AssetNormalized blake2b asset ↔ validateAssetFields assetId asset = .ok () ∧
      (asset.assetClass = .standard → asset.liquidity = none) ∧
      (asset.assetClass = .liquidity → asset.decimals = 0 ∧
        ∃ pool, asset.liquidity = some pool ∧ PoolNormalized blake2b asset pool) := by
  rw [validateAssetFields_eq_ok]
  constructor
  · intro h
    exact ⟨⟨h.version, h.decimals, h.name, h.symbol, h.metadata, h.texts, h.created, h.tag,
      h.tagText, h.uncapped, h.capped⟩, h.standard, h.liquidity⟩
  · rintro ⟨⟨hversion, hdecimals, hname, hsymbol, hmetadata, htexts, hcreated, htag, htagText,
      huncapped, hcapped⟩, hstandard, hliquidity⟩
    exact ⟨hversion, hdecimals, hname, hsymbol, hmetadata, htexts, hcreated, htag, htagText,
      huncapped, hcapped, hstandard, hliquidity⟩

def listVault (expected : FMap TransactionOutpoint Bytes32)
    (entry : Bytes32 × AtomicAssetState) : FMap TransactionOutpoint Bytes32 :=
  match entry.2.vaultOutpoint with
  | some outpoint => expected.insert outpoint entry.1
  | none => expected

/-- Nothing listed under the asset's vault belongs to another asset. -/
def VaultUnclaimed (expected : FMap TransactionOutpoint Bytes32)
    (entry : Bytes32 × AtomicAssetState) : Prop :=
  ∀ outpoint, entry.2.vaultOutpoint = some outpoint →
    ∀ previous, expected.lookup outpoint = some previous → previous = entry.1

variable {expected : FMap TransactionOutpoint Bytes32}

theorem lookup_listVault {entry : Bytes32 × AtomicAssetState} (outpoint : TransactionOutpoint) :
    (listVault expected entry).lookup outpoint =
      if entry.2.vaultOutpoint = some outpoint then some entry.1 else expected.lookup outpoint := by
  unfold listVault
  cases hvault : entry.2.vaultOutpoint with
  | none => simp
  | some => simp [lookup_insert_ite, eq_comm]

variable {out : FMap TransactionOutpoint Bytes32}

theorem validateAssets_cons {rest : List (Bytes32 × AtomicAssetState)} :
    validateAssets blake2b totals ((assetId, asset) :: rest) expected = .ok out ↔
      AssetNormalized blake2b asset ∧ (totals.lookup assetId).getD 0 = asset.totalSupply ∧
      VaultUnclaimed expected (assetId, asset) ∧
      validateAssets blake2b totals rest (listVault expected (assetId, asset)) = .ok out := by
  rw [assetNormalized_iff blake2b assetId]
  cases hclass : asset.assetClass with
  | standard =>
    have hvault : asset.vaultOutpoint = none := by simp [AtomicAssetState.vaultOutpoint, hclass]
    simp [validateAssets, hclass, VaultUnclaimed, listVault, hvault, Unique.exists_iff,
      PUnit.default_eq_unit]
    tauto
  | liquidity =>
    cases hpool : asset.liquidity with
    | none => simp [validateAssets, validateLiquidityAssetNormalized, hclass, hpool]
    | some pool =>
      have hvault : asset.vaultOutpoint = some pool.vaultOutpoint := by
        simp [AtomicAssetState.vaultOutpoint, AtomicAssetState.poolOutpoint, hclass, hpool]
      simp [validateAssets, validateLiquidityAssetNormalized, hclass, hpool, VaultUnclaimed,
        listVault, hvault, Unique.exists_iff, PUnit.default_eq_unit, validatePoolNormalized_eq_ok,
        -Subtype.forall]
      tauto

theorem validateAssets_eq_ok : validateAssets blake2b totals entries expected = .ok out ↔
      (∀ e ∈ entries, AssetNormalized blake2b e.2 ∧ (totals.lookup e.1).getD 0 = e.2.totalSupply) ∧
      entries.foldl listVault expected = out ∧
      (∀ o id, expected.lookup o = some id → out.lookup o = some id) ∧
      ∀ e ∈ entries, ∀ o, e.2.vaultOutpoint = some o → out.lookup o = some e.1 := by
  induction entries generalizing expected with
  | nil =>
    simp only [validateAssets, foldl_nil, Except.ok.injEq, not_mem_nil, false_imp_iff,
      implies_true, true_and, and_true]
    exact ⟨fun h => ⟨h, fun o id ho => h ▸ ho⟩, fun h => h.1⟩
  | cons e rest ih =>
    obtain ⟨assetId, asset⟩ := e
    rw [validateAssets_cons, ih]
    simp only [forall_mem_cons, foldl_cons]
    constructor
    · rintro ⟨hnorm, htotal, hfree, hrest, hout, hkept, hlisted⟩
      refine ⟨⟨⟨hnorm, htotal⟩, hrest⟩, hout, ?_, ?_, hlisted⟩
      · intro o id ho
        apply hkept
        rw [lookup_listVault]
        split_ifs with hvault
        · rw [hfree o hvault id ho]
        · exact ho
      · intro o hvault
        apply hkept
        rw [lookup_listVault, if_pos hvault]
    · rintro ⟨⟨⟨hnorm, htotal⟩, hrest⟩, hout, hkept, hhead, hlisted⟩
      refine ⟨hnorm, htotal, ?_, hrest, hout, ?_, hlisted⟩
      · intro o hvault previous hprev
        have hsame := (hkept o previous hprev).symm.trans (hhead o hvault)
        exact some.inj hsame
      · intro o id ho
        rw [lookup_listVault] at ho
        split_ifs at ho with hvault
        · rw [← ho]
          exact hhead o hvault
        · exact hkept o id ho

variable {o : TransactionOutpoint}

theorem mem_of_lookup_vaults {id : Bytes32}
    (h : (entries.foldl listVault expected).lookup o = some id) :
    expected.lookup o = some id ∨ ∃ e ∈ entries, e.1 = id ∧ e.2.vaultOutpoint = some o := by
  induction entries generalizing expected with
  | nil => exact .inl h
  | cons e rest ih =>
    rcases ih h with hlisted | ⟨e', he', hid, hvault⟩
    · rw [lookup_listVault] at hlisted
      split_ifs at hlisted with hvault
      · exact .inr ⟨e, mem_cons_self, some.inj hlisted, hvault⟩
      · exact .inl hlisted
    · exact .inr ⟨e', mem_cons_of_mem _ he', hid, hvault⟩

theorem lookup_vaults_of_mem (expected : FMap TransactionOutpoint Bytes32)
    (h : (∃ id, expected.lookup o = some id) ∨ ∃ e ∈ entries, e.2.vaultOutpoint = some o) :
    ∃ id, (entries.foldl listVault expected).lookup o = some id := by
  induction entries generalizing expected with
  | nil => simpa using h
  | cons e rest ih =>
    apply ih
    by_cases hvault : e.2.vaultOutpoint = some o
    · exact .inl ⟨e.1, by rw [lookup_listVault, if_pos hvault]⟩
    · rcases h with ⟨id, hid⟩ | ⟨e', he', hvault'⟩
      · exact .inl ⟨id, by rw [lookup_listVault, if_neg hvault, hid]⟩
      · rcases mem_cons.mp he' with rfl | he'
        · exact absurd hvault' hvault
        · exact .inr ⟨e', he', hvault'⟩

theorem vaults_iff {index : FMap TransactionOutpoint Bytes32} :
    (assets.iter.foldl listVault ∅ = index ∧
      ∀ e ∈ assets.iter, ∀ o, e.2.vaultOutpoint = some o → index.lookup o = some e.1) ↔
    ∀ o id, index.lookup o = some id ↔
      ∃ asset, assets.lookup id = some asset ∧ asset.vaultOutpoint = some o := by
  constructor
  · rintro ⟨rfl, hlisted⟩ o id
    constructor
    · intro h
      rcases mem_of_lookup_vaults h with h | ⟨e, he, rfl, hvault⟩
      · simp at h
      · exact ⟨e.2, mem_iter.mp he, hvault⟩
    · rintro ⟨asset, hlook, hvault⟩
      exact hlisted (id, asset) (mem_iter.mpr hlook) o hvault
  · intro h
    have hlisted : ∀ e ∈ assets.iter, ∀ o, e.2.vaultOutpoint = some o → index.lookup o = some e.1 :=
      fun e he o hvault => (h o e.1).mpr ⟨e.2, mem_iter.mp he, hvault⟩
    have hsound : ∀ o id, (assets.iter.foldl listVault ∅).lookup o = some id →
        index.lookup o = some id := by
      intro o id hlook
      rcases mem_of_lookup_vaults hlook with hempty | ⟨e, he, rfl, hvault⟩
      · simp at hempty
      · exact hlisted e he o hvault
    refine ⟨Finmap.ext_lookup fun o => ?_, hlisted⟩
    cases hindex : index.lookup o with
    | none =>
      cases hfold : (assets.iter.foldl listVault ∅).lookup o with
      | none => rfl
      | some id => exact absurd (hsound o id hfold) (by simp [hindex])
    | some id =>
      -- the vault is claimed, and whatever asset the loop lists for it is the one in the index
      obtain ⟨asset, hlook, hvault⟩ := (h o id).mp hindex
      obtain ⟨id', hfold⟩ := lookup_vaults_of_mem ∅ (.inr ⟨(id, asset), mem_iter.mpr hlook, hvault⟩)
      have hsame := (hsound o id' hfold).symm.trans hindex
      rw [hfold, hsame]

end Assets

section Balances

def addBalance (totals : FMap Bytes32 ℕ) (entry : AtomicBalanceKey × ℕ) : FMap Bytes32 ℕ :=
  totals.insert entry.1.assetId ((totals.lookup entry.1.assetId).getD 0 + entry.2)

def amountOf (assetId : Bytes32) (entries : List (AtomicBalanceKey × ℕ)) : ℕ :=
  (entries.map fun e => if e.1.assetId = assetId then e.2 else 0).sum

theorem amountOf_iter (assetId : Bytes32) :
    amountOf assetId balances.iter = supplyOf balances assetId :=
  sum_iter (fun (key : AtomicBalanceKey) amount => if key.assetId = assetId then amount else 0)
    balances

variable {entries : List (AtomicBalanceKey × ℕ)}

theorem amountOf_eq_zero
    (h : ∀ e ∈ entries, e.1.assetId ≠ assetId) : amountOf assetId entries = 0 := by
  apply sum_eq_zero
  intro n hn
  obtain ⟨e, he, rfl⟩ := mem_map.mp hn
  exact if_neg (h e he)

theorem lookup_addBalance (totals : FMap Bytes32 ℕ) (entry : AtomicBalanceKey × ℕ)
    (assetId : Bytes32) : ((addBalance totals entry).lookup assetId).getD 0 =
      (totals.lookup assetId).getD 0 + if entry.1.assetId = assetId then entry.2 else 0 := by
  unfold addBalance
  rw [lookup_insert_ite]
  by_cases h : assetId = entry.1.assetId
  · subst h
    simp
  · simp [h, Ne.symm h]

theorem lookup_sums (entries : List (AtomicBalanceKey × ℕ)) (totals : FMap Bytes32 ℕ)
    (assetId : Bytes32) : ((entries.foldl addBalance totals).lookup assetId).getD 0 =
      (totals.lookup assetId).getD 0 + amountOf assetId entries := by
  induction entries generalizing totals with
  | nil => simp [amountOf]
  | cons e rest ih =>
    rw [foldl_cons, ih, lookup_addBalance]
    simp only [amountOf, map_cons, sum_cons]
    omega

/-- The sums only grow, so the loop overflows exactly when a final sum does. -/
theorem sumBalances_eq_ok {out : FMap Bytes32 ℕ} : sumBalances assets entries totals = .ok out ↔
      (∀ e ∈ entries, e.2 ≠ 0 ∧ (assets.lookup e.1.assetId).isSome) ∧
      (∀ e ∈ entries, (out.lookup e.1.assetId).getD 0 < 2 ^ 128) ∧
      entries.foldl addBalance totals = out := by
  induction entries generalizing totals with
  | nil => simp [sumBalances]
  | cons e rest ih =>
    obtain ⟨key, amount⟩ := e
    have hsum := lookup_sums ((key, amount) :: rest) totals key.assetId
    simp only [amountOf, map_cons, sum_cons, if_true] at hsum
    simp only [sumBalances, except_bind_eq_ok, failIf_eq_ok, okOr_eq_ok, checkedAdd_eq_some,
      exists_const, forall_mem_cons, isNone_iff_eq_none,
      ← isSome_iff_ne_none, ← ne_eq]
    constructor
    · rintro ⟨hne, hsome, total, ⟨hfit, rfl⟩, hloop⟩
      obtain ⟨hrest, hfits, hout⟩ := ih.mp hloop
      have hout' : ((key, amount) :: rest).foldl addBalance totals = out := hout
      refine ⟨⟨⟨hne, hsome⟩, hrest⟩, ⟨?_, hfits⟩, hout'⟩
      by_cases hmem : ∃ e ∈ rest, e.1.assetId = key.assetId
      · obtain ⟨e, he, hid⟩ := hmem
        exact hid ▸ hfits e he
      · have hzero := amountOf_eq_zero fun e he hid => hmem ⟨e, he, hid⟩
        rw [← hout', hsum]
        unfold amountOf at hzero
        omega
    · rintro ⟨⟨⟨hne, hsome⟩, hrest⟩, ⟨hfit, hfits⟩, hout⟩
      rw [← hout, hsum] at hfit
      exact ⟨hne, hsome, _, ⟨by omega, rfl⟩, ih.mpr ⟨hrest, hfits, hout⟩⟩

theorem lookup_totals (assetId : Bytes32) :
    ((balances.iter.foldl addBalance ∅).lookup assetId).getD 0 = supplyOf balances assetId := by
  rw [lookup_sums, amountOf_iter]
  simp

theorem supplyOf_lt {balances : FMap AtomicBalanceKey ℕ}
    (h : ∀ e ∈ balances.iter, supplyOf balances e.1.assetId < 2 ^ 128) (assetId : Bytes32) :
    supplyOf balances assetId < 2 ^ 128 := by
  by_cases hheld : ∃ e ∈ balances.iter, e.1.assetId = assetId
  · obtain ⟨e, he, rfl⟩ := hheld
    exact h e he
  · have hzero := amountOf_eq_zero fun e he hid => hheld ⟨e, he, hid⟩
    rw [amountOf_iter] at hzero
    simp [hzero]

end Balances

section Entries

theorem validateNonce_eq_ok {entry : AtomicNonceKey × ℕ} :
    validateNonce entry = .ok u ↔ entry.1.Valid ∧ 2 ≤ entry.2 := by
  simp only [validateNonce, except_bind_eq_ok, AtomicNonceKey.validate_eq_ok, failIf_eq_ok,
    exists_const, not_lt]

theorem validateAnchorCount_eq_ok {entry : Bytes32 × ℕ} :
    validateAnchorCount entry = .ok u ↔ entry.2 ≠ 0 := by
  simp [validateAnchorCount]

end Entries

end StateCheck

namespace AtomicConsensusState

open StateCheck

theorem validateNormalized_eq_ok (blake2b : Blake2b) {s : AtomicConsensusState} :
    s.validateNormalized blake2b = .ok u ↔ s.Normalized blake2b := by
  simp only [validateNormalized, except_bind_eq_ok, checkAll_eq_ok, failIf_eq_ok,
    sumBalances_eq_ok, validateAssets_eq_ok, validateNonce_eq_ok, validateAnchorCount_eq_ok,
    exists_const, not_not]
  constructor
  · rintro ⟨hnonces, hanchors, totals, ⟨hbalances, hfits, rfl⟩, expected,
      ⟨hassets, hindex, -, hlisted⟩, rfl⟩
    simp only [lookup_totals] at hfits hassets
    have hentry : ∀ id asset, s.assets.live.lookup id = some asset → _ :=
      fun id asset h => hassets (id, asset) (mem_iter.mpr h)
    exact
      { nonces := fun key nonce h => hnonces (key, nonce) (mem_iter.mpr h)
        anchors := fun ownerId count h => hanchors (ownerId, count) (mem_iter.mpr h)
        balances := fun key amount h => hbalances (key, amount) (mem_iter.mpr h)
        assets := fun id asset h => (hentry id asset h).1
        supply := fun id asset h =>
          ⟨(hentry id asset h).2, (hentry id asset h).2 ▸ supplyOf_lt hfits id⟩
        vaults := vaults_iff.mp ⟨hindex, hlisted⟩ }
  · intro h
    obtain ⟨hindex, hlisted⟩ := vaults_iff.mpr h.vaults
    refine ⟨fun e he => h.nonces e.1 e.2 (mem_iter.mp he),
      fun e he => h.anchors e.1 e.2 (mem_iter.mp he), _, ⟨?_, ?_, rfl⟩, _,
      ⟨?_, hindex, by simp, hlisted⟩, rfl⟩
    · exact fun e he => h.balances e.1 e.2 (mem_iter.mp he)
    · intro e he
      obtain ⟨asset, hasset⟩ := isSome_iff_exists.mp (h.balances e.1 e.2 (mem_iter.mp he)).2
      obtain ⟨hsupply, hfit⟩ := h.supply e.1.assetId asset hasset
      rwa [lookup_totals, hsupply]
    · intro e he
      have hlook := mem_iter.mp he
      rw [lookup_totals]
      exact ⟨h.assets e.1 e.2 hlook, (h.supply e.1 e.2 hlook).1⟩

end AtomicConsensusState
end CryptixAtomic
