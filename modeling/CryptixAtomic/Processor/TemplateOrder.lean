import CryptixAtomic.Foundation.ReadyOrder
import CryptixAtomic.Processor.Validation

/-!
# The order of a block template

Before a batch of transactions is validated for a template, its token transactions are
put in an order in which each one finds the nonce, the pool nonce and the asset it refers
to. The others follow, and everything is sorted by subnetwork, stably. A batch with at
most one token transaction is left as it is.
-/
namespace CryptixAtomic

open Foundation List

def AtomicConsensusState.poolNonce (s : AtomicConsensusState) (assetId : Bytes32) : ℕ :=
  (((s.clonedAsset assetId).bind (·.liquidity)).map (·.poolNonce)).getD 1

namespace Processor

open Transition

structure AtomicTxOrderPriority where
  nonceKey : AtomicNonceKey
  nonce : ℕ
  poolAssetId : Bytes32
  poolNonce : ℕ
  txidBytes : Bytes32

/-- Priorities compare field by field. -/
instance : LinearOrder AtomicTxOrderPriority :=
  LinearOrder.lift' (fun p => toLex (p.nonceKey, toLex (p.nonce, toLex (p.poolAssetId,
    toLex (p.poolNonce, p.txidBytes))))) (by
    rintro ⟨a, b, c, d, e⟩ ⟨a', b', c', d', e'⟩ h
    simpa using h)

structure AtomicTxOrderInfo where
  priority : AtomicTxOrderPriority
  nonceKey : AtomicNonceKey
  nonce : ℕ
  pool : Option (Bytes32 × ℕ)
  createsAssetId : Option Bytes32
  referencesAssetId : Option Bytes32

def atomicOrderInfoForOp (ownerId : Bytes32) (nonce : ℕ) (txidBytes : Bytes32)
    (op : AtomicPayloadOp) : AtomicTxOrderInfo :=
  let nonceKey := op.nonceKey ownerId
  let pool := op.poolSlot?
  let (poolAssetId, poolNonce) := pool.getD (zero32, 0)
  { priority := ⟨nonceKey, nonce, poolAssetId, poolNonce, txidBytes⟩
    nonceKey
    nonce
    pool
    -- creations are the operations that refer to no asset
    createsAssetId := if op.assetId? = none then some txidBytes else none
    referencesAssetId := op.assetId? }

section Order

variable (blake2b : Blake2b) (params : AtomicParams) (view : UtxoView) (daaScore : ℕ)

def extractBlockTemplateAtomicOrderKey (tx : Transaction) :
    Except TxRuleError (Option AtomicTxOrderInfo) :=
  if params.isPayloadHfActive daaScore = false ∨ tx.isPayload = false ∨ tx.payload = [] then
    .ok none
  else match parseAtomicPayload tx.payload with
    | .error message => .error (.invalidAtomicPayload message)
    | .ok none => .ok none
    | .ok (some parsed) =>
      let authInputIndex := parsed.authInputIndex
      match tx.inputs[authInputIndex]? with
      | none => .error (.invalidAtomicPayload
          s!"auth_input_index `{authInputIndex}` has no transaction input in block-template ordering")
      | some input =>
        match view input.previousOutpoint with
        | none => .error .missingTxOutpoints
        | some entry =>
          match atomicOwnerIdFromScript blake2b entry.scriptPublicKey with
          | none => .error (.invalidAtomicPayload
              "auth input script public key is not a supported CAT owner authorization scheme (expected PubKey, PubKeyECDSA, or ScriptHash)")
          | some ownerId => .ok (some (atomicOrderInfoForOp ownerId parsed.nonce tx.id parsed.op))

def positionsWhere (items : List (ℕ × AtomicTxOrderInfo)) (p : AtomicTxOrderInfo → Bool) : List ℕ :=
  (List.range items.length).filter fun pos => items[pos]?.any fun item => p item.2

/-- The positions an item has to wait for: the previous nonce, the previous pool nonce,
and the creation of the asset, each unless the state has it already. -/
def atomicDependencies (items : List (ℕ × AtomicTxOrderInfo)) (s : AtomicConsensusState)
    (info : AtomicTxOrderInfo) : List ℕ :=
  (if info.nonce > s.nextNonce info.nonceKey then
    positionsWhere items fun parent => parent.nonceKey = info.nonceKey ∧
      parent.nonce = info.nonce - 1
  else []) ++
  (match info.pool with
  | some (assetId, poolNonce) =>
    if poolNonce > s.poolNonce assetId then
      positionsWhere items fun parent => parent.pool = some (assetId, poolNonce - 1)
    else []
  | none => []) ++
  match info.referencesAssetId with
  | some assetId =>
    if s.hasAsset assetId = false then
      positionsWhere items fun parent => parent.createsAssetId = some assetId
    else []
  | none => []

def atomicEdges (items : List (ℕ × AtomicTxOrderInfo)) (s : AtomicConsensusState) : List (ℕ × ℕ) :=
  items.zipIdx.flatMap fun item =>
    (atomicDependencies items s item.1.2).map fun parent => (parent, item.2)

def priorityAt (items : List (ℕ × AtomicTxOrderInfo)) (pos : ℕ) : WithBot AtomicTxOrderPriority :=
  items[pos]?.map fun item => item.2.priority

def orderAtomicIndices (items : List (ℕ × AtomicTxOrderInfo)) (s : AtomicConsensusState) : List ℕ :=
  if items.length ≤ 1 then items.map Prod.fst
  else
    (readyOrder (priorityAt items) items.length (atomicEdges items s)).filterMap
      fun pos => items[pos]?.map Prod.fst

variable (txs : List BlockTransaction)

def sortBlockTemplateTransactionsBySubnetwork : List BlockTransaction :=
  txs.insertionSort fun a b => a.tx.subnetworkId ≤ b.tx.subnetworkId

/-- A transaction without a key, or with a broken one, is not ordered. -/
def orderKey? (btx : BlockTransaction) : Option AtomicTxOrderInfo :=
  match extractBlockTemplateAtomicOrderKey blake2b params view daaScore btx.tx with
  | .ok key => key
  | .error _ => none

/-- The token transactions of a batch, with their indices. -/
def atomicItems : List (ℕ × AtomicTxOrderInfo) :=
  txs.zipIdx.filterMap fun p =>
    (orderKey? blake2b params view daaScore p.1).map fun info => (p.2, info)

def nonAtomicIndices : List ℕ :=
  (txs.zipIdx.filter fun p => (orderKey? blake2b params view daaScore p.1).isNone).map Prod.snd

def orderBlockTemplateTransactions (s : AtomicConsensusState) (txs : List BlockTransaction) :
    List BlockTransaction :=
  if txs.length ≤ 1 then txs
  else
    let items := atomicItems blake2b params view daaScore txs
    if items.length ≤ 1 then txs
    else
      let indices := orderAtomicIndices items s ++ nonAtomicIndices blake2b params view daaScore txs
      if indices.length = txs.length then
        sortBlockTemplateTransactionsBySubnetwork (indices.filterMap (txs[·]?))
      else txs

end Order

section Permutation

variable {blake2b : Blake2b} {params : AtomicParams} {view : UtxoView} {daaScore : ℕ}

theorem filterMap_getElem?_range {α : Type} (l : List α) :
    (List.range l.length).filterMap (l[·]?) = l := by
  have hmap : (List.range l.length).map (l[·]?) = l.map some := by
    apply ext_getElem?
    intro j
    rw [getElem?_map, getElem?_map]
    by_cases hj : j < l.length
    · simp [hj]
    · simp [hj]
  have hsome := congrArg (List.filterMap id) hmap
  rw [filterMap_map, filterMap_map] at hsome
  simp only [Function.comp_def, id] at hsome
  rw [hsome, filterMap_some]

theorem lt_of_mem_atomicEdges {items : List (ℕ × AtomicTxOrderInfo)} {s : AtomicConsensusState} :
    ∀ e ∈ atomicEdges items s, e.2 < items.length := by
  intro e he
  obtain ⟨item, hitem, he⟩ := mem_flatMap.mp he
  obtain ⟨parent, -, rfl⟩ := mem_map.mp he
  obtain ⟨info, pos⟩ := item
  have hget := (List.mem_zipIdx_iff_getElem?.mp hitem)
  exact (List.getElem?_eq_some_iff.mp hget).1

theorem orderAtomicIndices_perm (items : List (ℕ × AtomicTxOrderInfo)) (s : AtomicConsensusState) :
    (orderAtomicIndices items s).Perm (items.map Prod.fst) := by
  unfold orderAtomicIndices
  split_ifs
  · exact Perm.refl _
  · have hperm := (readyOrder_perm (priorityAt items) items.length (atomicEdges items s)
      lt_of_mem_atomicEdges).filterMap fun pos => items[pos]?.map Prod.fst
    have hall : (List.range items.length).filterMap (fun pos => items[pos]?.map Prod.fst) =
        items.map Prod.fst := by
      rw [← map_filterMap, filterMap_getElem?_range]
    rwa [hall] at hperm

theorem split_perm (key : BlockTransaction → Option AtomicTxOrderInfo)
    (txs : List BlockTransaction) (start : ℕ) :
    (((txs.zipIdx start).filterMap fun p => (key p.1).map fun info => (p.2, info)).map Prod.fst ++
      ((txs.zipIdx start).filter fun p => (key p.1).isNone).map Prod.snd).Perm
        (range' start txs.length) := by
  induction txs generalizing start with
  | nil => exact Perm.refl _
  | cons tx txs ih =>
    rw [zipIdx_cons, length_cons, range'_succ]
    cases hkey : key tx with
    | none =>
      rw [filterMap_cons_none (by simp [hkey]), filter_cons_of_pos (by simp [hkey])]
      exact perm_middle.trans ((ih (start + 1)).cons start)
    | some =>
      rw [filterMap_cons, filter_cons_of_neg (by simp [hkey])]
      simp only [hkey, Option.map_some]
      exact (ih (start + 1)).cons start

theorem indices_perm (s : AtomicConsensusState) (txs : List BlockTransaction) :
    (orderAtomicIndices (atomicItems blake2b params view daaScore txs) s ++
      nonAtomicIndices blake2b params view daaScore txs).Perm (List.range txs.length) := by
  apply ((orderAtomicIndices_perm _ s).append_right _).trans
  rw [range_eq_range']
  exact split_perm _ txs 0

theorem orderBlockTemplateTransactions_perm (s : AtomicConsensusState)
    (txs : List BlockTransaction) :
    (orderBlockTemplateTransactions blake2b params view daaScore s txs).Perm txs := by
  unfold orderBlockTemplateTransactions
  simp only
  split_ifs
  · exact Perm.refl _
  · exact Perm.refl _
  · have hall := (@indices_perm blake2b params view daaScore s txs).filterMap (txs[·]?)
    rw [filterMap_getElem?_range] at hall
    exact (perm_insertionSort _ _).trans hall
  · exact Perm.refl _

end Permutation

end Processor
end CryptixAtomic
