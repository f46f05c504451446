import CryptixAtomic.Foundation.KeyValue
import CryptixAtomic.Foundation.Reader
import CryptixAtomic.State.Store

/-!
# The persisted current state

The current state lies in six columns of the database. Moving it along a chain path
puts the writes of all deltas into one batch: nothing in the batch depends on what the
database holds. `CurrentStore.commit` says what a batch does to the typed contents, and
`Represents` ties these to the bytes.
-/
namespace CryptixAtomic

open Foundation List

section Keys

/-- The registry number of the store, then the tag of the column. -/
def atomicStateSubprefix (tag : UInt8) : List UInt8 := [32, tag]

def currentMetaSubprefix : UInt8 := 77
def currentNonceSubprefix : UInt8 := 110
def currentAssetSubprefix : UInt8 := 97
def currentBalanceSubprefix : UInt8 := 98
def currentAnchorSubprefix : UInt8 := 99
def currentVaultSubprefix : UInt8 := 118

/-- The ASCII bytes of `current-root`. -/
def currentRootKey : List UInt8 := [99, 117, 114, 114, 101, 110, 116, 45, 114, 111, 111, 116]

def encodeNonceKey (key : AtomicNonceKey) : List UInt8 :=
  key.ownerId.val ++ [key.scopeKind] ++ key.scopeId.val

def encodeBalanceKey (key : AtomicBalanceKey) : List UInt8 := key.assetId.val ++ key.ownerId.val

def encodeOutpointKey (o : TransactionOutpoint) : List UInt8 :=
  o.transactionId.val ++ toLeBytes 4 o.index

theorem bytes32_append_inj {a b : Bytes32} {s t : List UInt8} (h : a.val ++ s = b.val ++ t) :
    a = b ∧ s = t := by
  have hlength : a.val.length = b.val.length := a.property.trans b.property.symm
  obtain ⟨hab, hst⟩ := append_inj h hlength
  exact ⟨Subtype.ext hab, hst⟩

theorem encodeNonceKey_inj {j k : AtomicNonceKey} (h : encodeNonceKey j = encodeNonceKey k) :
    j = k := by
  obtain ⟨ownerId, scopeKind, scopeId⟩ := j
  obtain ⟨ownerId', scopeKind', scopeId'⟩ := k
  simp only [encodeNonceKey, append_assoc] at h
  obtain ⟨rfl, hrest⟩ := bytes32_append_inj h
  simp only [cons_append, nil_append, List.cons.injEq] at hrest
  obtain ⟨rfl, hscope⟩ := hrest
  rw [Subtype.ext hscope]

theorem encodeBalanceKey_inj {j k : AtomicBalanceKey}
    (h : encodeBalanceKey j = encodeBalanceKey k) :
    j = k := by
  obtain ⟨assetId, ownerId⟩ := j
  obtain ⟨assetId', ownerId'⟩ := k
  simp only [encodeBalanceKey] at h
  obtain ⟨rfl, hrest⟩ := bytes32_append_inj h
  rw [Subtype.ext hrest]

/-- Output indices are 32-bit words. -/
def TransactionOutpoint.Fits (o : TransactionOutpoint) : Prop := o.index < 2 ^ 32

theorem encodeOutpointKey_inj {j k : TransactionOutpoint} (hj : j.Fits) (hk : k.Fits)
    (h : encodeOutpointKey j = encodeOutpointKey k) : j = k := by
  obtain ⟨id, index⟩ := j
  obtain ⟨id', index'⟩ := k
  simp only [encodeOutpointKey] at h
  obtain ⟨rfl, hrest⟩ := bytes32_append_inj h
  have hvalue := congrArg Reader.fromLeBytes hrest
  rw [Reader.fromLeBytes_toLeBytes, Reader.fromLeBytes_toLeBytes] at hvalue
  have hindex : index = index' := by
    simp only [TransactionOutpoint.Fits] at hj hk
    omega
  rw [hindex]

end Keys

/-- Serialization of the values of the current state. Decoding gives back what was
encoded. -/
structure Bincode where
  u64 : Codec ℕ
  asset : Codec AtomicAssetState
  u128 : Codec ℕ
  hash : Codec Bytes32
  root : Codec AtomicConsensusRootAccumulator

namespace Bincode

variable (bincode : Bincode)

def nonceColumn : Column AtomicNonceKey ℕ where
  tag := atomicStateSubprefix currentNonceSubprefix
  fits _ := True
  encodeKey := encodeNonceKey
  encodeKey_injOn _ _ _ _ := encodeNonceKey_inj
  codec := bincode.u64

def assetColumn : Column Bytes32 AtomicAssetState where
  tag := atomicStateSubprefix currentAssetSubprefix
  fits _ := True
  encodeKey assetId := assetId.val
  encodeKey_injOn _ _ _ _ := Subtype.ext
  codec := bincode.asset

def balanceColumn : Column AtomicBalanceKey ℕ where
  tag := atomicStateSubprefix currentBalanceSubprefix
  fits _ := True
  encodeKey := encodeBalanceKey
  encodeKey_injOn _ _ _ _ := encodeBalanceKey_inj
  codec := bincode.u128

def anchorColumn : Column Bytes32 ℕ where
  tag := atomicStateSubprefix currentAnchorSubprefix
  fits _ := True
  encodeKey ownerId := ownerId.val
  encodeKey_injOn _ _ _ _ := Subtype.ext
  codec := bincode.u64

def vaultColumn : Column TransactionOutpoint Bytes32 where
  tag := atomicStateSubprefix currentVaultSubprefix
  fits := TransactionOutpoint.Fits
  encodeKey := encodeOutpointKey
  encodeKey_injOn _ _ := encodeOutpointKey_inj
  codec := bincode.hash

/-- The root is the only entry of its column. -/
def rootColumn : Column Unit AtomicConsensusRootAccumulator where
  tag := atomicStateSubprefix currentMetaSubprefix
  fits _ := True
  encodeKey _ := currentRootKey
  encodeKey_injOn _ _ _ _ _ := rfl
  codec := bincode.root

end Bincode

/-- A write to the current state, before it is encoded. -/
inductive CurrentOp
  | nonce (key : AtomicNonceKey) (value : Option ℕ)
  | asset (assetId : Bytes32) (value : Option AtomicAssetState)
  | balance (key : AtomicBalanceKey) (value : Option ℕ)
  | anchor (ownerId : Bytes32) (value : Option ℕ)
  | vault (outpoint : TransactionOutpoint) (value : Option Bytes32)
  | root (value : AtomicConsensusRootAccumulator)

namespace CurrentOp

def encode (bincode : Bincode) : CurrentOp → BatchOp
  | nonce key value => bincode.nonceColumn.writeOp key value
  | asset assetId value => bincode.assetColumn.writeOp assetId value
  | balance key value => bincode.balanceColumn.writeOp key value
  | anchor ownerId value => bincode.anchorColumn.writeOp ownerId value
  | vault outpoint value => bincode.vaultColumn.writeOp outpoint value
  | root value => bincode.rootColumn.writeOp () (some value)

def Fits : CurrentOp → Prop
  | vault outpoint _ => outpoint.Fits
  | _ => True

end CurrentOp

section Batches

/-- The vault of the old value goes, the asset is written, its new vault is listed. The
old value is the one the delta recorded. -/
def writeCurrentAssetChange (assetId : Bytes32) (oldValue newValue : Option AtomicAssetState) :
    List CurrentOp :=
  ((oldValue.bind (·.poolOutpoint)).map fun o => .vault o none).toList ++
    [.asset assetId newValue] ++
    ((newValue.bind (·.vaultOutpoint)).map fun o => .vault o (some assetId)).toList

def applyCurrentDeltaBatch (delta : AtomicConsensusStateDelta) (forward : Bool) :
    List CurrentOp :=
  delta.nonceChanges.map (fun c => .nonce c.key (c.value forward)) ++
    delta.assetChanges.flatMap (fun c =>
      writeCurrentAssetChange c.key (c.value !forward) (c.value forward)) ++
    delta.balanceChanges.map (fun c => .balance c.key (c.value forward)) ++
    delta.anchorCountChanges.map (fun c => .anchor c.key (c.value forward))

/-- Removed blocks are undone in the order given, then added blocks are applied. -/
def applyCurrentChainPathBatch {Block : Type} (getDelta : Block → AtomicConsensusStateDelta)
    (removed added : List Block) (newRoot : AtomicConsensusRootAccumulator) : List CurrentOp :=
  removed.flatMap (fun b => applyCurrentDeltaBatch (getDelta b) false) ++
    added.flatMap (fun b => applyCurrentDeltaBatch (getDelta b) true) ++ [.root newRoot]

end Batches

namespace CurrentStore

variable (store : CurrentStore)

def apply : CurrentOp → CurrentStore
  | .nonce key value => { store with nonces := store.nonces.assign key value }
  | .asset assetId value => { store with assets := store.assets.assign assetId value }
  | .balance key value => { store with balances := store.balances.assign key value }
  | .anchor ownerId value => { store with anchorCounts := store.anchorCounts.assign ownerId value }
  | .vault outpoint value => { store with vaults := store.vaults.assign outpoint value }
  | .root value => { store with root := some value }

def commit (batch : List CurrentOp) : CurrentStore :=
  batch.foldl apply store

theorem commit_append (vs ws : List CurrentOp) :
    store.commit (vs ++ ws) = (store.commit vs).commit ws :=
  foldl_append

/-- Reads of the database return what the typed store holds. -/
structure Represents (store : CurrentStore) (bincode : Bincode) (db : Database) : Prop where
  nonces : bincode.nonceColumn.Holds db fun k => store.nonces.lookup k
  assets : bincode.assetColumn.Holds db fun k => store.assets.lookup k
  balances : bincode.balanceColumn.Holds db fun k => store.balances.lookup k
  anchors : bincode.anchorColumn.Holds db fun k => store.anchorCounts.lookup k
  vaults : bincode.vaultColumn.Holds db fun k => store.vaults.lookup k
  root : bincode.rootColumn.Holds db fun _ => store.root

section Refinement

variable {bincode : Bincode} {db : Database} {store : CurrentStore}

theorem lookup_assign_eq_update {K V : Type} [DecidableEq K] (m : FMap K V) (k : K) (v : Option V) :
    (fun j => (m.assign k v).lookup j) = Function.update (fun j => m.lookup j) k v := by
  funext j
  rw [FMap.lookup_assign, Function.update_apply]

/-- The columns have different tags of one length, so a write touches one of them. -/
theorem Represents.apply (h : store.Represents bincode db) {op : CurrentOp} (hop : op.Fits) :
    (store.apply op).Represents bincode (db.apply (op.encode bincode)) := by
  obtain ⟨hn, ha, hb, hc, hv, hr⟩ := h
  cases op with
  | nonce key value =>
    refine ⟨?_, ha.frame rfl, hb.frame rfl, hc.frame rfl, hv.frame rfl, hr.frame rfl⟩
    have hwrite := hn.write (k := key) trivial value
    rwa [← lookup_assign_eq_update] at hwrite
  | asset assetId value =>
    refine ⟨hn.frame rfl, ?_, hb.frame rfl, hc.frame rfl, hv.frame rfl, hr.frame rfl⟩
    have hwrite := ha.write (k := assetId) trivial value
    rwa [← lookup_assign_eq_update] at hwrite
  | balance key value =>
    refine ⟨hn.frame rfl, ha.frame rfl, ?_, hc.frame rfl, hv.frame rfl, hr.frame rfl⟩
    have hwrite := hb.write (k := key) trivial value
    rwa [← lookup_assign_eq_update] at hwrite
  | anchor ownerId value =>
    refine ⟨hn.frame rfl, ha.frame rfl, hb.frame rfl, ?_, hv.frame rfl, hr.frame rfl⟩
    have hwrite := hc.write (k := ownerId) trivial value
    rwa [← lookup_assign_eq_update] at hwrite
  | vault outpoint value =>
    refine ⟨hn.frame rfl, ha.frame rfl, hb.frame rfl, hc.frame rfl, ?_, hr.frame rfl⟩
    have hwrite := hv.write hop value
    rwa [← lookup_assign_eq_update] at hwrite
  | root value =>
    rw [show CurrentOp.encode bincode (.root value) = bincode.rootColumn.writeOp () (some value)
      from rfl]
    refine ⟨hn.frame rfl, ha.frame rfl, hb.frame rfl, hc.frame rfl, hv.frame rfl, ?_⟩
    exact hr.write (k := ()) trivial (some value)

theorem Represents.commit (h : store.Represents bincode db) {batch : List CurrentOp}
    (hbatch : ∀ op ∈ batch, op.Fits) :
    (store.commit batch).Represents bincode (db.write (batch.map (·.encode bincode))) := by
  induction batch generalizing db store with
  | nil => exact h
  | cons op batch ih =>
    exact ih (h.apply (hbatch op mem_cons_self)) fun o ho => hbatch o (mem_cons_of_mem _ ho)

end Refinement

def empty : CurrentStore := ⟨∅, ∅, ∅, ∅, ∅, none⟩

theorem empty_represents (bincode : Bincode) : empty.Represents bincode ∅ := by
  constructor <;> intro k hk <;> rfl

end CurrentStore

section Countability

instance instCountableUInt8 : Countable UInt8 :=
  Function.Injective.countable (f := UInt8.toNat) fun _ _ h => UInt8.toNat_inj.mp h

deriving instance Countable for TransactionOutpoint
deriving instance Countable for SupplyMode
deriving instance Countable for AtomicAssetClass
deriving instance Countable for AtomicLiquidityFeeRecipientState
deriving instance Countable for AtomicLiquidityPoolState
deriving instance Countable for AtomicAssetState
deriving instance Countable for EntrySum
deriving instance Countable for AtomicConsensusRootAccumulator

/-- A serialization exists, as the persisted types are countable. -/
noncomputable def Bincode.sample : Bincode where
  u64 := .ofCountable ℕ
  asset := .ofCountable AtomicAssetState
  u128 := .ofCountable ℕ
  hash := .ofCountable Bytes32
  root := .ofCountable AtomicConsensusRootAccumulator

end Countability
end CryptixAtomic
