import CryptixAtomic.Foundation.EntrySum
import CryptixAtomic.Foundation.Overlay
import CryptixAtomic.State.Asset

/-!
# The state root

Every entry of the four state maps has a digest of its own. The root accumulator
keeps, per map, how many entries there are and the exclusive or of their digests;
the state hash is the digest of the accumulator.
-/
namespace CryptixAtomic

open Foundation

/-- The ASCII bytes of `cryptix-atomic-consensus-state-root-v2`. -/
def stateHashDomain : List UInt8 :=
  [99, 114, 121, 112, 116, 105, 120, 45, 97, 116, 111, 109, 105, 99, 45, 99, 111, 110, 115, 101,
   110, 115, 117, 115, 45, 115, 116, 97, 116, 101, 45, 114, 111, 111, 116, 45, 118, 50]

/-- The ASCII bytes of `cryptix-utxo-atomic-state-commitment-v1`. -/
def stateCommitmentDomain : List UInt8 :=
  [99, 114, 121, 112, 116, 105, 120, 45, 117, 116, 120, 111, 45, 97, 116, 111, 109, 105, 99, 45,
   115, 116, 97, 116, 101, 45, 99, 111, 109, 109, 105, 116, 109, 101, 110, 116, 45, 118, 49]

def rootAccumulatorVersion : UInt8 := 2

/-- Namespace tags: the ASCII codes of `n`, `a`, `b` and `c`. -/
def rootNamespaceNonce : UInt8 := 110
def rootNamespaceAsset : UInt8 := 97
def rootNamespaceBalance : UInt8 := 98
def rootNamespaceAnchor : UInt8 := 99

section EntryBytes

def hashLen (len : ℕ) : List UInt8 := toLeBytes 8 len

def assetClassToU8 : AtomicAssetClass → UInt8
  | .standard => 0
  | .liquidity => 1

def supplyModeToU8 : SupplyMode → UInt8
  | .uncapped => 0
  | .capped => 1

def hashOutpoint (o : TransactionOutpoint) : List UInt8 :=
  o.transactionId.val ++ toLeBytes 4 o.index

def hashFeeRecipient (r : AtomicLiquidityFeeRecipientState) : List UInt8 :=
  r.ownerId.val ++ [r.addressVersion] ++ hashLen r.addressPayload.length ++ r.addressPayload ++
    toLeBytes 8 r.unclaimedSompi

def hashLiquidityPool (pool : AtomicLiquidityPoolState) : List UInt8 :=
  toLeBytes 8 pool.poolNonce ++ [pool.curveVersion, pool.curveMode] ++
    toLeBytes 8 pool.individualVirtualCpayReservesSompi ++
    toLeBytes 2 pool.individualVirtualTokenMultiplierBps ++
    toLeBytes 8 pool.realCpayReservesSompi ++ toLeBytes 16 pool.realTokenReserves ++
    toLeBytes 8 pool.virtualCpayReservesSompi ++ toLeBytes 16 pool.virtualTokenReserves ++
    toLeBytes 8 pool.unclaimedFeeTotalSompi ++ toLeBytes 2 pool.feeBps ++
    hashLen pool.feeRecipients.length ++ pool.feeRecipients.flatMap hashFeeRecipient ++
    hashOutpoint pool.vaultOutpoint ++ toLeBytes 8 pool.vaultValueSompi ++
    toLeBytes 8 pool.unlockTargetSompi ++ [if pool.unlocked then 1 else 0]

/-- The hashed part of an asset: texts other than the platform tag, the creator and
the creation metadata do not enter the root. -/
def hashAsset (asset : AtomicAssetState) : List UInt8 :=
  [assetClassToU8 asset.assetClass, asset.tokenVersion] ++ asset.mintAuthorityOwnerId.val ++
    [supplyModeToU8 asset.supplyMode] ++ toLeBytes 16 asset.maxSupply ++
    toLeBytes 16 asset.totalSupply ++ hashLen asset.platformTag.length ++ asset.platformTag ++
    match asset.liquidity with
    | some pool => 1 :: hashLiquidityPool pool
    | none => [0]

end EntryBytes

section EntryHash

variable (blake2b : Blake2b)

def hashNonceEntry (key : AtomicNonceKey) (nonce : ℕ) : Bytes32 :=
  blake2b (stateHashDomain ++ [rootNamespaceNonce] ++ key.ownerId.val ++ [key.scopeKind] ++
    key.scopeId.val ++ toLeBytes 8 nonce)

def hashAssetEntry (assetId : Bytes32) (asset : AtomicAssetState) : Bytes32 :=
  blake2b (stateHashDomain ++ [rootNamespaceAsset] ++ assetId.val ++ hashAsset asset)

def hashBalanceEntry (key : AtomicBalanceKey) (amount : ℕ) : Bytes32 :=
  blake2b (stateHashDomain ++ [rootNamespaceBalance] ++ key.assetId.val ++ key.ownerId.val ++
    toLeBytes 16 amount)

def hashAnchorCountEntry (ownerId : Bytes32) (count : ℕ) : Bytes32 :=
  blake2b (stateHashDomain ++ [rootNamespaceAnchor] ++ ownerId.val ++ toLeBytes 8 count)

end EntryHash

/-- Count and exclusive or of the digests in each of the four namespaces. -/
structure AtomicConsensusRootAccumulator where
  version : UInt8
  nonces : EntrySum 32
  assets : EntrySum 32
  balances : EntrySum 32
  anchors : EntrySum 32
  deriving DecidableEq

namespace AtomicConsensusRootAccumulator

def default : AtomicConsensusRootAccumulator :=
  ⟨rootAccumulatorVersion, .empty, .empty, .empty, .empty⟩

def hashNamespace (tag : UInt8) (e : EntrySum 32) : List UInt8 :=
  [tag] ++ toLeBytes 8 e.count ++ e.xor.val

variable (blake2b : Blake2b)

def hash (root : AtomicConsensusRootAccumulator) : Bytes32 :=
  blake2b (stateHashDomain ++ [root.version] ++ hashNamespace rootNamespaceNonce root.nonces ++
    hashNamespace rootNamespaceAsset root.assets ++
    hashNamespace rootNamespaceBalance root.balances ++
    hashNamespace rootNamespaceAnchor root.anchors)

def applyNonce (root : AtomicConsensusRootAccumulator) (key : AtomicNonceKey)
    (oldValue newValue : Option ℕ) : AtomicConsensusRootAccumulator :=
  { root with
    nonces := root.nonces.applyEntry (oldValue.map (hashNonceEntry blake2b key))
      (newValue.map (hashNonceEntry blake2b key)) }

def applyAsset (root : AtomicConsensusRootAccumulator) (assetId : Bytes32)
    (oldValue newValue : Option AtomicAssetState) : AtomicConsensusRootAccumulator :=
  { root with
    assets := root.assets.applyEntry (oldValue.map (hashAssetEntry blake2b assetId))
      (newValue.map (hashAssetEntry blake2b assetId)) }

def applyBalance (root : AtomicConsensusRootAccumulator) (key : AtomicBalanceKey)
    (oldValue newValue : Option ℕ) : AtomicConsensusRootAccumulator :=
  { root with
    balances := root.balances.applyEntry (oldValue.map (hashBalanceEntry blake2b key))
      (newValue.map (hashBalanceEntry blake2b key)) }

def applyAnchorCount (root : AtomicConsensusRootAccumulator) (ownerId : Bytes32)
    (oldValue newValue : Option ℕ) : AtomicConsensusRootAccumulator :=
  { root with
    anchors := root.anchors.applyEntry (oldValue.map (hashAnchorCountEntry blake2b ownerId))
      (newValue.map (hashAnchorCountEntry blake2b ownerId)) }

variable (nonces : FMap AtomicNonceKey ℕ)

/-- The accumulator built from scratch over the four maps, one entry at a time.
Hash map iteration has no fixed order; `EntrySum.rebuild_eq_ofMap` shows that the
order does not matter. -/
def fromStateMaps (assets : FMap Bytes32 AtomicAssetState) (balances : FMap AtomicBalanceKey ℕ)
    (anchors : FMap Bytes32 ℕ) : AtomicConsensusRootAccumulator :=
  let root := nonces.iter.foldl (fun r e => r.applyNonce blake2b e.1 none (some e.2)) default
  let root := assets.iter.foldl (fun r e => r.applyAsset blake2b e.1 none (some e.2)) root
  let root := balances.iter.foldl (fun r e => r.applyBalance blake2b e.1 none (some e.2)) root
  anchors.iter.foldl (fun r e => r.applyAnchorCount blake2b e.1 none (some e.2)) root

theorem fromStateMaps_eq (assets : FMap Bytes32 AtomicAssetState)
    (balances : FMap AtomicBalanceKey ℕ) (anchors : FMap Bytes32 ℕ) :
    fromStateMaps blake2b nonces assets balances anchors =
      { version := rootAccumulatorVersion
        nonces := .ofMap (hashNonceEntry blake2b) nonces
        assets := .ofMap (hashAssetEntry blake2b) assets
        balances := .ofMap (hashBalanceEntry blake2b) balances
        anchors := .ofMap (hashAnchorCountEntry blake2b) anchors } := by
  -- each loop changes one of the four sums
  have hfold : ∀ {K V : Type} [LinearOrder K] [DecidableEq K] (digest : K → V → Bytes32) (m : FMap K V)
      (set : AtomicConsensusRootAccumulator → EntrySum 32 → AtomicConsensusRootAccumulator)
      (step : AtomicConsensusRootAccumulator → K × V → AtomicConsensusRootAccumulator)
      (r : AtomicConsensusRootAccumulator), set r .empty = r →
      (∀ s e, step (set r s) e = set r (s.applyEntry none (some (digest e.1 e.2)))) →
        m.iter.foldl step r = set r (.ofMap digest m) := by
    intro K V _ _ digest m set step r hempty hstep
    rw [← EntrySum.rebuild_eq_ofMap]
    nth_rewrite 1 [← hempty]
    exact List.foldl_hom (set r) hstep
  simp only [fromStateMaps]
  rw [hfold (hashNonceEntry blake2b) nonces fun r s => { r with nonces := s },
    hfold (hashAssetEntry blake2b) assets fun r s => { r with assets := s },
    hfold (hashBalanceEntry blake2b) balances fun r s => { r with balances := s },
    hfold (hashAnchorCountEntry blake2b) anchors fun r s => { r with anchors := s }]
  all_goals
    intros
    rfl

end AtomicConsensusRootAccumulator
end CryptixAtomic
