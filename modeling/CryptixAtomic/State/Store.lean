import CryptixAtomic.Foundation.Stateful
import CryptixAtomic.State.Root

/-!
# The consensus token state and its mutators

The state is a set of overlays over an optional persisted store. In memory there
is no store and the overlays are the maps themselves. Mutators that can fail keep
whatever they had changed when they fail, so they are actions of `AtomicM`, which
returns a state in either case.
-/
namespace CryptixAtomic

open Foundation

/-- What the persisted store answers to reads of the current state. -/
structure CurrentStore where
  nonces : FMap AtomicNonceKey ℕ
  assets : FMap Bytes32 AtomicAssetState
  balances : FMap AtomicBalanceKey ℕ
  anchorCounts : FMap Bytes32 ℕ
  vaults : FMap TransactionOutpoint Bytes32
  root : Option AtomicConsensusRootAccumulator

structure AtomicConsensusStateDelta where
  nonceChanges : List (Change AtomicNonceKey ℕ)
  assetChanges : List (Change Bytes32 AtomicAssetState)
  balanceChanges : List (Change AtomicBalanceKey ℕ)
  anchorCountChanges : List (Change Bytes32 ℕ)
  deriving DecidableEq

structure AtomicConsensusStateDeltaBuilder where
  nonces : FMap AtomicNonceKey (DeltaValue ℕ)
  assets : FMap Bytes32 (DeltaValue AtomicAssetState)
  balances : FMap AtomicBalanceKey (DeltaValue ℕ)
  anchorCounts : FMap Bytes32 (DeltaValue ℕ)
  deriving DecidableEq

namespace AtomicConsensusStateDeltaBuilder

def default : AtomicConsensusStateDeltaBuilder := ⟨∅, ∅, ∅, ∅⟩

/-- Changes leave the builder sorted by key. -/
def intoDelta (b : AtomicConsensusStateDeltaBuilder) : AtomicConsensusStateDelta :=
  { nonceChanges := changesOf b.nonces
    assetChanges := changesOf b.assets
    balanceChanges := changesOf b.balances
    anchorCountChanges := changesOf b.anchorCounts }

end AtomicConsensusStateDeltaBuilder

/-- Which asset's pool lives at an outpoint. -/
abbrev VaultIndex := Overlay TransactionOutpoint Bytes32

/-- Forget the outpoint of the pool an asset had before. -/
def VaultIndex.dropPool (v : VaultIndex) (backed : Bool) (oldValue : Option AtomicAssetState) :
    VaultIndex :=
  match oldValue.bind (·.poolOutpoint) with
  | some previous => v.write backed previous none
  | none => v

/-- Each overlay pairs a map of the source with its set of deleted keys. `storedRoot`
is the accumulator field; `rootAccumulator` below is the accessor of that name. -/
structure AtomicConsensusState where
  nextNonces : Overlay AtomicNonceKey ℕ
  assets : Overlay Bytes32 AtomicAssetState
  balances : Overlay AtomicBalanceKey ℕ
  anchorCounts : Overlay Bytes32 ℕ
  liquidityVaultOutpoints : VaultIndex
  storedRoot : AtomicConsensusRootAccumulator
  deltaTracking : Bool
  dirtyDelta : AtomicConsensusStateDeltaBuilder
  currentStore : Option CurrentStore

/-- Actions on the state that may fail and then keep the state they reached. -/
abbrev AtomicM := EStateM String AtomicConsensusState

namespace AtomicConsensusState

def default : AtomicConsensusState :=
  { nextNonces := .empty
    assets := .empty
    balances := .empty
    anchorCounts := .empty
    liquidityVaultOutpoints := .empty
    storedRoot := .default
    deltaTracking := false
    dirtyDelta := .default
    currentStore := none }

def rootOnly (root : AtomicConsensusRootAccumulator) : AtomicConsensusState :=
  { default with storedRoot := root }

variable (s : AtomicConsensusState)

def attachCurrentStore (store : CurrentStore) : AtomicConsensusState :=
  { s with currentStore := some store }

def isDiskBacked : Bool := s.currentStore.isSome

section Reads

variable (s : AtomicConsensusState)

def nonceOption (key : AtomicNonceKey) : Option ℕ :=
  s.nextNonces.read (s.currentStore.map (·.nonces)) key

def assetOption (assetId : Bytes32) : Option AtomicAssetState :=
  s.assets.read (s.currentStore.map (·.assets)) assetId

def balanceOption (key : AtomicBalanceKey) : Option ℕ :=
  s.balances.read (s.currentStore.map (·.balances)) key

def anchorCountOption (ownerId : Bytes32) : Option ℕ :=
  s.anchorCounts.read (s.currentStore.map (·.anchorCounts)) ownerId

/-- The asset the vault index lists under an outpoint. -/
def vaultOption (outpoint : TransactionOutpoint) : Option Bytes32 :=
  s.liquidityVaultOutpoints.read (s.currentStore.map (·.vaults)) outpoint

def nextNonce (key : AtomicNonceKey) : ℕ := (s.nonceOption key).getD 1
def hasNonce (key : AtomicNonceKey) : Bool := (s.nonceOption key).isSome
def clonedAsset (assetId : Bytes32) : Option AtomicAssetState := s.assetOption assetId
def hasAsset (assetId : Bytes32) : Bool := (s.assetOption assetId).isSome
def balance (key : AtomicBalanceKey) : ℕ := (s.balanceOption key).getD 0
def hasBalance (key : AtomicBalanceKey) : Bool := (s.balanceOption key).isSome
def anchorCount (ownerId : Bytes32) : ℕ := (s.anchorCountOption ownerId).getD 0
def hasAnchorCount (ownerId : Bytes32) : Bool := (s.anchorCountOption ownerId).isSome

end Reads

section VaultLookup

variable (s : AtomicConsensusState) (outpoint : TransactionOutpoint)

/-- A listed asset has to have its pool at the outpoint. -/
def confirmVault (assetId : Bytes32) : Except String (Option Bytes32) := do
  let assetHex := hex32 assetId
  let asset ← okOr (s.clonedAsset assetId)
    s!"liquidity vault index references missing asset `{assetHex}`"
  let pool ← okOr asset.liquidity
    s!"liquidity vault index references asset `{assetHex}` without liquidity state"
  failIf (asset.assetClass ≠ .liquidity ∨ pool.vaultOutpoint ≠ outpoint)
    s!"liquidity vault index mismatch for outpoint `{outpoint}`"
  return some assetId

/-- The search through the assets held in memory. -/
def scanVaults : List (Bytes32 × AtomicAssetState) → Option Bytes32 → Except String (Option Bytes32)
  | [], matched => .ok matched
  | (assetId, asset) :: rest, matched =>
    if asset.vaultOutpoint = some outpoint then do
      failIf matched.isSome s!"multiple liquidity assets share vault outpoint `{outpoint}`"
      scanVaults rest (some assetId)
    else scanVaults rest matched

def liquidityAssetByVaultOutpoint : Except String (Option Bytes32) :=
  match s.liquidityVaultOutpoints.live.lookup outpoint with
  | some assetId => s.confirmVault outpoint assetId
  | none =>
    if outpoint ∈ s.liquidityVaultOutpoints.deleted then .ok none
    else match s.currentStore.bind fun store => store.vaults.lookup outpoint with
      | some assetId => s.confirmVault outpoint assetId
      | none => scanVaults outpoint s.assets.live.iter none

end VaultLookup

section Root

variable (blake2b : Blake2b)

/-- The accumulator is recomputed from the maps, except over a store and when all
four maps are empty. -/
def rootAccumulator : AtomicConsensusRootAccumulator :=
  if s.currentStore.isSome ∨
      s.nextNonces.live.keys = ∅ ∧ s.assets.live.keys = ∅ ∧ s.balances.live.keys = ∅ ∧
        s.anchorCounts.live.keys = ∅ then
    s.storedRoot
  else
    .fromStateMaps blake2b s.nextNonces.live s.assets.live s.balances.live s.anchorCounts.live

def canonicalHash : Bytes32 := (s.rootAccumulator blake2b).hash blake2b

def headerCommitment (utxoCommitment atomicStateHash : Bytes32) (payloadHfActive : Bool) :
    Bytes32 :=
  if payloadHfActive = false then utxoCommitment
  else blake2b (stateCommitmentDomain ++ utxoCommitment.val ++ atomicStateHash.val)

def headerCommitmentForState (utxoCommitment : Bytes32) (payloadHfActive : Bool) : Bytes32 :=
  headerCommitment blake2b utxoCommitment (s.canonicalHash blake2b) payloadHfActive

end Root

section Tracking

def beginDeltaTracking : AtomicConsensusState :=
  { s with deltaTracking := true, dirtyDelta := .default }

def takeDelta : AtomicConsensusStateDelta × AtomicConsensusState :=
  (s.dirtyDelta.intoDelta, { s with deltaTracking := false, dirtyDelta := .default })

end Tracking

section Writes

variable (blake2b : Blake2b)

def setNonceValueWithoutDelta (key : AtomicNonceKey) (value : Option ℕ) : AtomicConsensusState :=
  { s with
    storedRoot := if s.isDiskBacked then
        s.storedRoot.applyNonce blake2b key (s.nonceOption key) value else s.storedRoot
    nextNonces := s.nextNonces.write s.isDiskBacked key value }

def setBalanceValueWithoutDelta (key : AtomicBalanceKey) (value : Option ℕ) :
    AtomicConsensusState :=
  { s with
    storedRoot := if s.isDiskBacked then
        s.storedRoot.applyBalance blake2b key (s.balanceOption key) value else s.storedRoot
    balances := s.balances.write s.isDiskBacked key value }

def setAnchorCountValueWithoutDelta (ownerId : Bytes32) (value : Option ℕ) : AtomicConsensusState :=
  { s with
    storedRoot := if s.isDiskBacked then
        s.storedRoot.applyAnchorCount blake2b ownerId (s.anchorCountOption ownerId) value
      else s.storedRoot
    anchorCounts := s.anchorCounts.write s.isDiskBacked ownerId value }

/-- The old entry leaves the index and the new one is inserted before the check that
it replaced no other asset. -/
def setVaultIndexForAssetChange (assetId : Bytes32)
    (oldValue newValue : Option AtomicAssetState) : AtomicM Unit := do
  modify fun s => { s with
    liquidityVaultOutpoints := s.liquidityVaultOutpoints.dropPool s.isDiskBacked oldValue }
  match newValue with
  | none => pure ()
  | some asset =>
    if asset.assetClass = .liquidity then
      match asset.liquidity with
      | none =>
        let assetHex := hex32 assetId
        throw s!"liquidity state missing for asset `{assetHex}`"
      | some pool =>
        let replaced := (← get).liquidityVaultOutpoints.live.lookup pool.vaultOutpoint
        modify fun s => { s with
          liquidityVaultOutpoints :=
            s.liquidityVaultOutpoints.write s.isDiskBacked pool.vaultOutpoint (some assetId) }
        let outpoint := pool.vaultOutpoint
        if replaced.any (· ≠ assetId) then
          throw s!"multiple liquidity assets share vault outpoint `{outpoint}`"
    else pure ()

/-- The root accumulator is updated first, the asset map last. -/
def setAssetValueWithoutDelta (assetId : Bytes32) (asset : Option AtomicAssetState) :
    AtomicM Unit := do
  let oldValue := (← get).assetOption assetId
  modify fun s => { s with
    storedRoot := if s.isDiskBacked then
        s.storedRoot.applyAsset blake2b assetId oldValue asset else s.storedRoot }
  setVaultIndexForAssetChange assetId oldValue asset
  modify fun s => { s with assets := s.assets.write s.isDiskBacked assetId asset }

def setNextNonce (key : AtomicNonceKey) (nonce : ℕ) : AtomicConsensusState :=
  let s := if s.deltaTracking then
      { s with dirtyDelta := { s.dirtyDelta with
          nonces := recordDelta s.dirtyDelta.nonces key (s.nonceOption key) (some nonce) } }
    else s
  s.setNonceValueWithoutDelta blake2b key (some nonce)

/-- Zero amounts are stored as absent entries. -/
def nonZero (amount : ℕ) : Option ℕ := if amount ≠ 0 then some amount else none

def setBalance (key : AtomicBalanceKey) (amount : ℕ) : AtomicConsensusState :=
  let s := if s.deltaTracking then
      { s with dirtyDelta := { s.dirtyDelta with
          balances := recordDelta s.dirtyDelta.balances key (s.balanceOption key)
            (nonZero amount) } }
    else s
  s.setBalanceValueWithoutDelta blake2b key (nonZero amount)

def setAnchorCount (ownerId : Bytes32) (count : ℕ) : AtomicConsensusState :=
  let s := if s.deltaTracking then
      { s with dirtyDelta := { s.dirtyDelta with
          anchorCounts := recordDelta s.dirtyDelta.anchorCounts ownerId
            (s.anchorCountOption ownerId) (nonZero count) } }
    else s
  s.setAnchorCountValueWithoutDelta blake2b ownerId (nonZero count)

def setAsset (assetId : Bytes32) (asset : AtomicAssetState) : AtomicM Unit := do
  modify fun s => if s.deltaTracking then
      { s with dirtyDelta := { s.dirtyDelta with
          assets := recordDelta s.dirtyDelta.assets assetId (s.assetOption assetId) (some asset) } }
    else s
  setAssetValueWithoutDelta blake2b assetId (some asset)

def applyAssetChanges (forward : Bool) : List (Change Bytes32 AtomicAssetState) → AtomicM Unit
  | [] => pure ()
  | c :: cs => do
    setAssetValueWithoutDelta blake2b c.key (c.value forward)
    applyAssetChanges forward cs

variable (delta : AtomicConsensusStateDelta)

/-- Install one side of every change of a delta: nonces, assets, balances, anchors. -/
def applyDelta (forward : Bool) : AtomicM Unit := do
  let deltaTracking := (← get).deltaTracking
  modify fun s => { s with deltaTracking := false }
  modify fun s => delta.nonceChanges.foldl
    (fun s c => s.setNonceValueWithoutDelta blake2b c.key (c.value forward)) s
  applyAssetChanges blake2b forward delta.assetChanges
  modify fun s => delta.balanceChanges.foldl
    (fun s c => s.setBalanceValueWithoutDelta blake2b c.key (c.value forward)) s
  modify fun s => delta.anchorCountChanges.foldl
    (fun s c => s.setAnchorCountValueWithoutDelta blake2b c.key (c.value forward)) s
  modify fun s => { s with
    deltaTracking
    dirtyDelta := if deltaTracking then .default else s.dirtyDelta }

def applyDeltaForward : AtomicM Unit :=
  applyDelta blake2b delta true

def applyDeltaRollback : AtomicM Unit :=
  applyDelta blake2b delta false

end Writes

end AtomicConsensusState
end CryptixAtomic
