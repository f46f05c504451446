import CryptixAtomic.Chain.Utxo
import CryptixAtomic.Foundation.Stateful
import CryptixAtomic.Foundation.Traversal

/-!
# The transaction pool and the orphan pool

Each of the two pools stores its transactions by id and, for every id, the set of
transactions of the same pool that redeem its outputs. Removal collects everything chained
to a transaction, breadth first, and removes each collected id on its own.
-/
namespace CryptixAtomic.Mempool

open Foundation List FMap

/-- A transaction with the entries found so far for its inputs. -/
structure MutableTransaction where
  tx : Transaction
  entries : List (Option UtxoEntry)
  aligned : tx.inputs.length = entries.length
  deriving DecidableEq

def MutableTransaction.id (mtx : MutableTransaction) : Bytes32 := mtx.tx.id

/-- `mtx` spends some output of the transaction `id`. -/
def MutableTransaction.Spends (mtx : MutableTransaction) (id : Bytes32) : Prop :=
  ∃ input ∈ mtx.tx.inputs, input.previousOutpoint.transactionId = id

structure MempoolTransaction where
  mtx : MutableTransaction
  readyAtDaaScore : ℕ
  deriving DecidableEq

def MempoolTransaction.id (tx : MempoolTransaction) : Bytes32 := tx.mtx.id

abbrev TransactionIdSet := Finset Bytes32
abbrev TransactionsEdges := FMap Bytes32 TransactionIdSet
abbrev OutpointIndex := FMap TransactionOutpoint Bytes32

inductive RuleError
  | rejectMissingTransaction (id : Bytes32)
  | rejectMissingOrphanTransaction (id : Bytes32)
  | rejectMissingOrphanOutpoint (index : ℕ) (id : Bytes32) (outpoint : TransactionOutpoint)
  /-- The `unwrap` of a missing map entry, which panics. -/
  | unwrapOnNone
  deriving DecidableEq

/-- What both pools have: the stored transactions and the redeemers registered
for each of them. -/
structure Pool where
  all : FMap Bytes32 MempoolTransaction
  chained : TransactionsEdges

namespace Pool

variable (pool : Pool)

def has (id : Bytes32) : Bool := (pool.all.lookup id).isSome

/-- The stored transaction without its bookkeeping scores. -/
def mtxOf (id : Bytes32) : Option MutableTransaction := (pool.all.lookup id).map (·.mtx)

/-- The ids of the transactions in the pool whose outputs `mtx` spends. -/
def getParentTransactionIdsInPool (mtx : MutableTransaction) : TransactionIdSet :=
  ((mtx.tx.inputs.map fun input => input.previousOutpoint.transactionId).filter
    (pool.has ·)).toFinset

/-- The redeemers registered for a stored transaction that are stored as well. -/
def redeemers (id : Bytes32) : List Bytes32 :=
  match pool.all.lookup id with
  | none => []
  | some tx => ((pool.chained.lookup tx.id).elim [] sortKeys).filter (pool.has ·)

/-- All transactions directly and indirectly chained to `id`, in the order in
which the breadth-first search meets them. -/
def getRedeemerIdsInPool (id : Bytes32) : List Bytes32 :=
  breadthFirst pool.redeemers (pool.all.keys.card + 1) [id] []

end Pool

structure MempoolUtxoSet where
  poolUnspentOutputs : UtxoCollection
  outpointOwnerId : OutpointIndex

/-- Undo one spent input: its output becomes spendable again when the transaction
that created it is in the pool. -/
def MempoolUtxoSet.unspend (parentIds : TransactionIdSet) (utxoSet : MempoolUtxoSet)
    (spent : TransactionInput × Option UtxoEntry) : MempoolUtxoSet where
  poolUnspentOutputs :=
    match spent.2 with
    | some entry =>
      if spent.1.previousOutpoint.transactionId ∈ parentIds then
        utxoSet.poolUnspentOutputs.insert spent.1.previousOutpoint entry
      else utxoSet.poolUnspentOutputs
    | none => utxoSet.poolUnspentOutputs
  outpointOwnerId := utxoSet.outpointOwnerId.erase spent.1.previousOutpoint

def MempoolUtxoSet.removeTransaction (utxoSet : MempoolUtxoSet) (mtx : MutableTransaction)
    (parentIds : TransactionIdSet) : MempoolUtxoSet :=
  let unspent := (mtx.tx.inputs.zip mtx.entries).foldl (unspend parentIds) utxoSet
  { unspent with
    poolUnspentOutputs := (List.range mtx.tx.outputs.length).foldl
      (fun outputs i => outputs.erase (mtx.tx.outpoint i)) unspent.poolUnspentOutputs }

structure OrphanPool extends Pool where
  outpointOwnerId : OutpointIndex

namespace OrphanPool

/-- Take `id` out of the redeemers registered for a parent; an empty set of
redeemers is not kept. -/
def unchain (id : Bytes32) (chained : TransactionsEdges) (parent : Bytes32) : TransactionsEdges :=
  match chained.lookup parent with
  | some chains =>
    if chains.erase id = ∅ then chained.erase parent else chained.insert parent (chains.erase id)
  | none => chained

/-- Drop the owners of the spent outpoints. The error is the one of the last
input whose outpoint has no owner. -/
def disown (id : Bytes32) : ℕ → List TransactionInput → OutpointIndex →
    Option RuleError × OutpointIndex
  | _, [], owners => (none, owners)
  | i, input :: inputs, owners =>
    let outpoint := input.previousOutpoint
    let rest := disown id (i + 1) inputs (owners.erase outpoint)
    let missing : Option RuleError :=
      if (owners.lookup outpoint).isNone then some (.rejectMissingOrphanOutpoint i id outpoint)
      else none
    (rest.1.or missing, rest.2)

def removeSingleOrphan (id : Bytes32) : EStateM RuleError OrphanPool MempoolTransaction := do
  let pool ← get
  match pool.all.lookup id with
  | none => throw (.rejectMissingOrphanTransaction id)
  | some tx =>
    let rest : OrphanPool := { pool with all := pool.all.erase id }
    let parents := sortKeys (rest.getParentTransactionIdsInPool tx.mtx)
    let disowned := disown tx.id 0 tx.mtx.tx.inputs pool.outpointOwnerId
    set { rest with
      chained := (parents.foldl (unchain id) pool.chained).erase id
      outpointOwnerId := disowned.2 }
    match disowned.1 with
    | none => pure tx
    | some error => throw error

def removeOrphans : List Bytes32 → EStateM RuleError OrphanPool (List MempoolTransaction)
  | [] => pure []
  | id :: ids => do
    let tx ← removeSingleOrphan id
    let txs ← removeOrphans ids
    pure (tx :: txs)

def removeOrphan (id : Bytes32) (removeRedeemers : Bool) :
    EStateM RuleError OrphanPool (List MempoolTransaction) := do
  let pool ← get
  if pool.has id then
    removeOrphans (id :: if removeRedeemers then pool.getRedeemerIdsInPool id else [])
  else pure []

def removeRedeemersOf (id : Bytes32) : EStateM RuleError OrphanPool (List MempoolTransaction) := do
  let pool ← get
  removeOrphans (pool.getRedeemerIdsInPool id)

/-- Forget the entries that came from the outputs of `id`. -/
def clearEntries (id : Bytes32) (tx : MempoolTransaction) : MempoolTransaction := { tx with
    mtx :=
      { tx := tx.mtx.tx
        entries := List.zipWith (fun (input : TransactionInput) entry =>
            if input.previousOutpoint.transactionId = id then none else entry)
          tx.mtx.tx.inputs tx.mtx.entries
        aligned := by rw [length_zipWith, ← tx.mtx.aligned, Nat.min_self] } }

/-- Clear the orphan that spends the output `outpoint` of `id`, if there is one. -/
def clearAt (id : Bytes32) (pool : OrphanPool) (outpoint : TransactionOutpoint) : OrphanPool :=
  match pool.outpointOwnerId.lookup outpoint with
  | none => pool
  | some owner =>
    match pool.all.lookup owner with
    | none => pool
    | some orphan => { pool with all := pool.all.insert owner (clearEntries id orphan) }

def updateOrphansAfterTransactionRemoved (removed : MempoolTransaction) (removeRedeemers : Bool) :
    EStateM RuleError OrphanPool (List MempoolTransaction) := do
  if removeRedeemers then removeRedeemersOf removed.id
  else
    modify fun pool =>
      (List.range removed.mtx.tx.outputs.length).foldl
        (fun pool i => clearAt removed.id pool (removed.mtx.tx.outpoint i)) pool
    pure []

end OrphanPool

namespace Pool

variable {pool : Pool}

/-- `b` is registered as a redeemer of `a`, and both are in the pool. -/
def Redeems (pool : Pool) (a b : Bytes32) : Prop := b ∈ pool.redeemers a

def Chained (pool : Pool) : Bytes32 → Bytes32 → Prop := Relation.TransGen pool.Redeems

theorem has_iff_mtxOf {id : Bytes32} : pool.has id = true ↔ ∃ mtx, pool.mtxOf id = some mtx := by
  rw [has, mtxOf]
  cases pool.all.lookup id with
  | none | some => simp

theorem mtxOf_erase {pool pool' : Pool} {id : Bytes32} (h : pool'.all = pool.all.erase id)
    (k : Bytes32) : pool'.mtxOf k = if k = id then none else pool.mtxOf k := by
  rw [mtxOf, h, lookup_erase_ite, mtxOf]
  split_ifs <;> rfl

theorem has_of_mtxOf_eq {pool pool' : Pool} {k : Bytes32}
    (h : pool'.mtxOf k = pool.mtxOf k) : pool'.has k = pool.has k := by
  rw [Bool.eq_iff_iff, has_iff_mtxOf, has_iff_mtxOf, h]

theorem has_iff_mem_keys {id : Bytes32} : pool.has id = true ↔ id ∈ pool.all.keys := by
  rw [has, Finmap.lookup_isSome, Finmap.mem_keys]

theorem redeemers_nodup (id : Bytes32) : (pool.redeemers id).Nodup := by
  unfold redeemers
  cases pool.all.lookup id with
  | none => exact nodup_nil
  | some tx =>
    apply Nodup.filter
    cases pool.chained.lookup tx.id with
    | none => exact nodup_nil
    | some chains => exact (sortKeys_sorted chains).imp ne_of_lt

variable {a b : Bytes32}

theorem Redeems.has (h : pool.Redeems a b) : pool.has b = true := by
  unfold Redeems redeemers at h
  cases ha : pool.all.lookup a with
  | none => simp [ha] at h
  | some =>
    simp only [ha, mem_filter] at h
    exact h.2

theorem Redeems.has_left (h : pool.Redeems a b) : pool.has a = true := by
  unfold Redeems redeemers at h
  cases ha : pool.all.lookup a with
  | none => simp [ha] at h
  | some => simp [Pool.has, ha]

theorem Chained.has (h : pool.Chained a b) : pool.has b = true := by
  cases h with
  | single hedge | tail _ hedge => exact Redeems.has hedge

theorem Chained.has_left (h : pool.Chained a b) : pool.has a = true := by
  induction h using Relation.TransGen.head_induction_on with
  | single hedge | head hedge => exact Redeems.has_left hedge

theorem getRedeemerIdsInPool_spec (pool : Pool) (id : Bytes32) :
    (pool.getRedeemerIdsInPool id).Nodup ∧
      ∀ b, b ∈ pool.getRedeemerIdsInPool id ↔ pool.Chained id b := by
  have hnodes : ∀ a, ∀ b ∈ pool.redeemers a, b ∈ pool.all.keys := by
    intro a b hb
    exact has_iff_mem_keys.mp (Redeems.has hb)
  exact breadthFirst_spec redeemers_nodup hnodes (Nat.lt_succ_self _)

end Pool

end CryptixAtomic.Mempool
