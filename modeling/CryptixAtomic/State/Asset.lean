import CryptixAtomic.Payload.Operation

/-!
# Assets, pools and the keys of the consensus state

The records of the consensus token state. Sums of money and token amounts are
natural numbers; the width of each field shows where it is hashed or serialised.
-/
namespace CryptixAtomic

open Foundation

structure AtomicBalanceKey where
  assetId : Bytes32
  ownerId : Bytes32
  deriving DecidableEq

structure AtomicNonceKey where
  ownerId : Bytes32
  scopeKind : UInt8
  scopeId : Bytes32
  deriving DecidableEq

/-- Keys compare field by field. -/
instance : LinearOrder AtomicBalanceKey :=
  LinearOrder.lift' (fun k => toLex (k.assetId, k.ownerId)) (by
    rintro ⟨a, o⟩ ⟨a', o'⟩ h
    simpa using h)

instance : LinearOrder AtomicNonceKey :=
  LinearOrder.lift' (fun k => toLex (k.ownerId, toLex (k.scopeKind, k.scopeId))) (by
    rintro ⟨o, k, s⟩ ⟨o', k', s'⟩ h
    simpa using h)

def nonceScopeOwner : UInt8 := 0
def nonceScopeAsset : UInt8 := 1

namespace AtomicNonceKey

def owner (ownerId : Bytes32) : AtomicNonceKey := ⟨ownerId, nonceScopeOwner, zero32⟩
def asset (ownerId assetId : Bytes32) : AtomicNonceKey := ⟨ownerId, nonceScopeAsset, assetId⟩

variable (key : AtomicNonceKey)

def validate : Except String Unit :=
  let ownerHex := hex32 key.ownerId
  let scopeHex := hex32 key.scopeId
  let kind := key.scopeKind
  if key.scopeKind = nonceScopeOwner then
    failIf (key.scopeId ≠ zero32)
      s!"owner nonce scope for owner `{ownerHex}` has non-zero scope id `{scopeHex}`"
  else if key.scopeKind = nonceScopeAsset then
    failIf (key.scopeId = zero32) s!"asset nonce scope for owner `{ownerHex}` has zero asset id"
  else .error s!"atomic nonce for owner `{ownerHex}` has invalid scope kind `{kind}`"

def Valid : Prop :=
  key.scopeKind = nonceScopeOwner ∧ key.scopeId = zero32 ∨
    key.scopeKind = nonceScopeAsset ∧ key.scopeId ≠ zero32

@[simp] theorem validate_eq_ok (u : Unit) : key.validate = .ok u ↔ key.Valid := by
  unfold validate Valid
  by_cases h0 : key.scopeKind = nonceScopeOwner
  · simp [h0, show nonceScopeOwner ≠ nonceScopeAsset by decide]
  · by_cases h1 : key.scopeKind = nonceScopeAsset
    · simp [h1, show nonceScopeAsset ≠ nonceScopeOwner by decide]
    · simp [h0, h1]

end AtomicNonceKey

inductive AtomicAssetClass
  | standard
  | liquidity
  deriving DecidableEq

structure AtomicLiquidityFeeRecipientState where
  ownerId : Bytes32
  addressVersion : UInt8
  addressPayload : List UInt8
  unclaimedSompi : ℕ
  deriving DecidableEq

structure AtomicLiquidityPoolState where
  poolNonce : ℕ
  curveVersion : UInt8
  curveMode : UInt8
  individualVirtualCpayReservesSompi : ℕ
  individualVirtualTokenMultiplierBps : ℕ
  realCpayReservesSompi : ℕ
  realTokenReserves : ℕ
  virtualCpayReservesSompi : ℕ
  virtualTokenReserves : ℕ
  unclaimedFeeTotalSompi : ℕ
  feeBps : ℕ
  feeRecipients : List AtomicLiquidityFeeRecipientState
  vaultOutpoint : TransactionOutpoint
  vaultValueSompi : ℕ
  unlockTargetSompi : ℕ
  unlocked : Bool
  deriving DecidableEq

structure AtomicAssetState where
  creatorOwnerId : Bytes32
  assetClass : AtomicAssetClass
  tokenVersion : UInt8
  mintAuthorityOwnerId : Bytes32
  decimals : UInt8
  supplyMode : SupplyMode
  maxSupply : ℕ
  totalSupply : ℕ
  name : List UInt8
  symbol : List UInt8
  metadata : List UInt8
  platformTag : List UInt8
  createdBlockHash : Option Bytes32
  createdDaaScore : Option ℕ
  createdAt : Option ℕ
  liquidity : Option AtomicLiquidityPoolState
  deriving DecidableEq

namespace AtomicAssetState

def poolOutpoint (asset : AtomicAssetState) : Option TransactionOutpoint :=
  asset.liquidity.map (·.vaultOutpoint)

/-- The outpoint under which the vault index lists the asset. -/
def vaultOutpoint (asset : AtomicAssetState) : Option TransactionOutpoint :=
  if asset.assetClass = .liquidity then asset.poolOutpoint else none

/-- Pool state goes with the liquidity class. -/
def ClassConsistent (asset : AtomicAssetState) : Prop :=
  asset.assetClass = .liquidity ↔ asset.liquidity.isSome

theorem ClassConsistent.poolOutpoint_eq {asset : AtomicAssetState} (h : asset.ClassConsistent) :
    asset.poolOutpoint = asset.vaultOutpoint := by
  unfold vaultOutpoint
  split_ifs with hclass
  · rfl
  · have hnone : asset.liquidity = none := by
      rw [← Option.not_isSome_iff_eq_none]
      exact fun hsome => hclass (h.mpr hsome)
    simp [poolOutpoint, hnone]

end AtomicAssetState
end CryptixAtomic
