import CryptixAtomic.Mempool.Pools
import CryptixAtomic.Payload.Mempool

/-!
# Token slots of pooled transactions

A token transaction competes for the nonce it uses and, when it trades, for the pool
nonce it expects. The mempool reserves both as slots, first come first served.
-/
namespace CryptixAtomic.Mempool

open Foundation

inductive AtomicMempoolSlot
  | nonce (ownerId : Bytes32) (scopeKind : UInt8) (scopeId : Bytes32) (nonce : ℕ)
  | liquidityPool (assetId : Bytes32) (poolNonce : ℕ)
  deriving DecidableEq

def atomicNonceScopeOwner : UInt8 := 0
def atomicNonceScopeAsset : UInt8 := 1

instance : ToString AtomicMempoolSlot where
  toString
    | .nonce ownerId scopeKind scopeId nonce =>
      let scope :=
        if scopeKind = atomicNonceScopeOwner then "owner"
        else if scopeKind = atomicNonceScopeAsset then "asset"
        else "unknown"
      s!"nonce:{scope}:{hex32 ownerId}:{hex32 scopeId}:{nonce}"
    | .liquidityPool assetId poolNonce => s!"liquidity-pool:{hex32 assetId}:{poolNonce}"

/-- What the pool with its books can answer; `panicked` is a failed assertion or
`unwrap`, which ends the process. -/
inductive PoolError
  | rule (error : RuleError)
  | rejectMissingOutpoint
  | invalidAtomicPayload (message : String)
  | rejectAtomicSlotConflict (id existingId : Bytes32) (slot : String)
  | rejectMempoolIsFull
  | panicked
  deriving DecidableEq

def isCatTransaction (tx : Transaction) : Bool := tx.isPayload && catMagic.isPrefixOf tx.payload

/-- The nonce slot and, for a trade, the pool slot of a parsed payload. -/
def slotsOf (ownerId : Bytes32) (parsed : ParsedAtomicMempoolPayload) : List AtomicMempoolSlot :=
  let nonceSlot :=
    match parsed.nonceScope with
    | .owner => AtomicMempoolSlot.nonce ownerId atomicNonceScopeOwner zero32 parsed.nonce
    | .asset assetId => .nonce ownerId atomicNonceScopeAsset assetId parsed.nonce
  nonceSlot :: (parsed.poolSlot.map fun slot => AtomicMempoolSlot.liquidityPool slot.1 slot.2).toList

def atomicMempoolSlots (blake2b : Blake2b) (mtx : MutableTransaction) :
    Except PoolError (List AtomicMempoolSlot) :=
  if isCatTransaction mtx.tx then
    match parseAtomicMempoolPayload mtx.tx.payload with
    | .error message => .error (.invalidAtomicPayload message)
    | .ok none => .ok []
    | .ok (some parsed) =>
      match mtx.entries[parsed.authInputIndex]? with
      | some (some entry) =>
        match atomicOwnerIdFromScript blake2b entry.scriptPublicKey with
        | some ownerId => .ok (slotsOf ownerId parsed)
        | none => .error (.invalidAtomicPayload
            "auth input script public key is not a supported CAT owner authorization scheme")
      | _ => .error .rejectMissingOutpoint
  else .ok []

/-- Every input has an entry, with the script that `script` gives for the spent output. -/
def MutableTransaction.Scripted (script : TransactionOutpoint → ScriptPublicKey)
    (mtx : MutableTransaction) : Prop :=
  mtx.entries.map (·.map UtxoEntry.scriptPublicKey) =
    mtx.tx.inputs.map fun input => some (script input.previousOutpoint)

instance decidableScripted (script : TransactionOutpoint → ScriptPublicKey)
    (mtx : MutableTransaction) : Decidable (mtx.Scripted script) :=
  inferInstanceAs (Decidable (_ = _))

/-- Of the entries only the scripts are read. -/
theorem atomicMempoolSlots_of_scripted (blake2b : Blake2b) {mtx mtx' : MutableTransaction}
    {script : TransactionOutpoint → ScriptPublicKey} (h : mtx.Scripted script)
    (h' : mtx'.Scripted script) (htx : mtx.tx = mtx'.tx) :
    atomicMempoolSlots blake2b mtx = atomicMempoolSlots blake2b mtx' := by
  have hentry : ∀ i : ℕ, mtx.entries[i]?.map (·.map UtxoEntry.scriptPublicKey) =
      mtx'.entries[i]?.map (·.map UtxoEntry.scriptPublicKey) := by
    intro i
    rw [← List.getElem?_map, ← List.getElem?_map, h, h', htx]
  unfold atomicMempoolSlots
  rw [htx]
  split_ifs with hcat
  · cases parseAtomicMempoolPayload mtx'.tx.payload with
    | error => rfl
    | ok parsed =>
      cases parsed with
      | none => rfl
      | some parsed =>
        have hauth := hentry parsed.authInputIndex
        dsimp only
        generalize mtx.entries[parsed.authInputIndex]? = entry at hauth ⊢
        generalize mtx'.entries[parsed.authInputIndex]? = entry' at hauth ⊢
        rcases entry with _ | _ | entry <;> rcases entry' with _ | _ | entry'
        all_goals simp_all
  · rfl

theorem isCat_of_mem_slots {blake2b : Blake2b} {mtx : MutableTransaction}
    {slots : List AtomicMempoolSlot} (h : atomicMempoolSlots blake2b mtx = .ok slots)
    (hne : slots ≠ []) : isCatTransaction mtx.tx = true := by
  by_contra hcat
  rw [atomicMempoolSlots, if_neg hcat] at h
  exact hne (Except.ok.inj h).symm

theorem atomicMempoolSlots_ne_panicked (blake2b : Blake2b) (mtx : MutableTransaction) :
    atomicMempoolSlots blake2b mtx ≠ .error .panicked := by
  intro h
  unfold atomicMempoolSlots at h
  split at h
  · split at h
    · cases h
    · cases h
    · split at h
      · split at h <;> cases h
      · cases h
  · cases h

/-- A pending slot of the same nonce scope or the same pool that is not later than
the incoming one. -/
def atomicSlotBlocksCapacityEviction : AtomicMempoolSlot → AtomicMempoolSlot → Bool
  | .nonce incomingOwner incomingScopeKind incomingScopeId incomingNonce,
    .nonce ownerId scopeKind scopeId nonce =>
    ownerId = incomingOwner && scopeKind = incomingScopeKind && scopeId = incomingScopeId &&
      nonce ≤ incomingNonce
  | .liquidityPool incomingAssetId incomingPoolNonce, .liquidityPool assetId poolNonce =>
    assetId = incomingAssetId && poolNonce ≤ incomingPoolNonce
  | _, _ => false

def atomicSlotsBlockCapacityEviction (incoming existing : List AtomicMempoolSlot) : Bool :=
  incoming.any fun incomingSlot =>
    existing.any fun existingSlot => atomicSlotBlocksCapacityEviction incomingSlot existingSlot

end CryptixAtomic.Mempool
