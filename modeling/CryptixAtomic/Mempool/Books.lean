import CryptixAtomic.Mempool.Slots

/-!
# The transaction pool with its books

The transaction pool keeps seven structures in step by hand: the edges to parents and
to redeemers, the frontier of ready transactions, the estimated size, the owners of spent
outpoints, the outputs created and not spent in the pool, and the token slots. The fee, mass
and priority of a transaction are in `books`; the size estimate is a parameter.
-/
namespace CryptixAtomic.Mempool

open Foundation

inductive Priority
  | low
  | high
  deriving DecidableEq

/-- What a stored transaction carries beside its entries. -/
structure Booking where
  calculatedFee : Option ℕ
  calculatedComputeMass : Option ℕ
  mass : ℕ
  priority : Priority
  addedAtDaaScore : ℕ
  deriving DecidableEq

structure ValidatedTransaction extends MutableTransaction where
  calculatedFee : Option ℕ
  calculatedComputeMass : Option ℕ
  mass : ℕ

def MutableTransaction.isVerifiable (mtx : MutableTransaction) : Bool := mtx.entries.all (·.isSome)

def ValidatedTransaction.isFullyPopulated (vtx : ValidatedTransaction) : Bool :=
  vtx.isVerifiable && vtx.calculatedFee.isSome && vtx.calculatedComputeMass.isSome

/-- The order of the keys, by feerate, fee and id, only matters for the traversal of
the frontier. -/
structure FeerateTransactionKey where
  fee : ℕ
  mass : ℕ
  id : Bytes32
  deriving DecidableEq

/-- The key of a stored transaction; `none` when its fee or its mass is not set, which
panics. -/
def Booking.key (booking : Booking) (id : Bytes32) : Option FeerateTransactionKey :=
  match booking.calculatedFee with
  | none => none
  | some fee => if booking.mass = 0 then none else some ⟨fee, booking.mass, id⟩

structure Frontier where
  searchTree : Finset FeerateTransactionKey
  totalMass : ℕ

namespace Frontier

def empty : Frontier := ⟨∅, 0⟩

variable (frontier : Frontier)

def insert (key : FeerateTransactionKey) : Frontier :=
  if key ∈ frontier.searchTree then frontier
  else ⟨Insert.insert key frontier.searchTree, frontier.totalMass + key.mass⟩

def remove (key : FeerateTransactionKey) : Frontier :=
  if key ∈ frontier.searchTree then
    ⟨frontier.searchTree.erase key, frontier.totalMass - key.mass⟩
  else frontier

/-- The total mass is the sum over the frontier. -/
def Balanced : Prop :=
  frontier.totalMass = ∑ key ∈ frontier.searchTree, key.mass

variable {frontier : Frontier}

@[simp] theorem mem_insert {key key' : FeerateTransactionKey} :
    key' ∈ (frontier.insert key).searchTree ↔ key' = key ∨ key' ∈ frontier.searchTree := by
  unfold insert
  split_ifs with h
  · constructor
    · exact Or.inr
    · rintro (rfl | hmem)
      · exact h
      · exact hmem
  · exact Finset.mem_insert

@[simp] theorem mem_remove {key key' : FeerateTransactionKey} :
    key' ∈ (frontier.remove key).searchTree ↔ key' ≠ key ∧ key' ∈ frontier.searchTree := by
  unfold remove
  split_ifs with h
  · exact Finset.mem_erase
  · constructor
    · intro hmem
      exact ⟨fun heq => h (heq ▸ hmem), hmem⟩
    · exact fun hmem => hmem.2

theorem Balanced.insert (h : frontier.Balanced)
    (key : FeerateTransactionKey) : (frontier.insert key).Balanced := by
  unfold Frontier.insert
  split_ifs with hmem
  · exact h
  · unfold Balanced at h ⊢
    rw [Finset.sum_insert hmem, ← h, add_comm]

theorem Balanced.remove (h : frontier.Balanced)
    (key : FeerateTransactionKey) : (frontier.remove key).Balanced := by
  unfold Frontier.remove
  split_ifs with hmem
  · unfold Balanced at h ⊢
    have hsum := Finset.sum_erase_add frontier.searchTree FeerateTransactionKey.mass hmem
    dsimp only
    omega
  · exact h

end Frontier

/-- The score of an entry created in the mempool, `u64::MAX`. -/
def unacceptedDaaScore : ℕ := 2 ^ 64 - 1

/-- The entry an output has as long as its transaction is not accepted. -/
def pendingEntry (output : TransactionOutput) : UtxoEntry :=
  ⟨output.value, output.scriptPublicKey, unacceptedDaaScore, false⟩

def pendingEntries (tx : Transaction) : List (TransactionOutpoint × UtxoEntry) :=
  tx.outputs.zipIdx.map fun p => (tx.outpoint p.2, pendingEntry p.1)

def MempoolUtxoSet.empty : MempoolUtxoSet := ⟨∅, ∅⟩

def MempoolUtxoSet.addTransaction (utxoSet : MempoolUtxoSet) (mtx : MutableTransaction) :
    MempoolUtxoSet where
  poolUnspentOutputs :=
    (utxoSet.poolUnspentOutputs.eraseAll mtx.tx.spentOutpoints).insertAll (pendingEntries mtx.tx)
  outpointOwnerId :=
    utxoSet.outpointOwnerId.insertAll (mtx.tx.spentOutpoints.map fun outpoint => (outpoint, mtx.id))

structure BookedPool extends Pool where
  books : FMap Bytes32 Booking
  parents : TransactionsEdges
  atomicSlotOwners : FMap AtomicMempoolSlot Bytes32
  atomicSlotsByTx : FMap Bytes32 (List AtomicMempoolSlot)
  readyTransactions : Frontier
  estimatedSize : ℕ
  utxoSet : MempoolUtxoSet

namespace BookedPool

def empty : BookedPool := ⟨⟨∅, ∅⟩, ∅, ∅, ∅, ∅, Frontier.empty, 0, MempoolUtxoSet.empty⟩

def keyOf (pool : BookedPool) (id : Bytes32) : Option FeerateTransactionKey :=
  (pool.books.lookup id).bind (·.key id)

def parentsOf (pool : BookedPool) (id : Bytes32) : TransactionIdSet :=
  (pool.parents.lookup id).getD ∅

def redeemersOf (pool : BookedPool) (id : Bytes32) : TransactionIdSet :=
  (pool.chained.lookup id).getD ∅

/-- Fails on the first slot that is taken. -/
def checkAtomicSlotConflictsForSlots (pool : BookedPool) (id : Bytes32) :
    List AtomicMempoolSlot → Except PoolError Unit
  | [] => .ok ()
  | slot :: slots =>
    match pool.atomicSlotOwners.lookup slot with
    | some existingId => .error (.rejectAtomicSlotConflict id existingId (toString slot))
    | none => pool.checkAtomicSlotConflictsForSlots id slots

/-- Register `id` as a redeemer of one of its parents. -/
def chain (id : Bytes32) (chained : TransactionsEdges) (parent : Bytes32) : TransactionsEdges :=
  chained.insert parent (insert id ((chained.lookup parent).getD ∅))

def readyAfter (pool : BookedPool) (parents : TransactionIdSet) (booking : Booking)
    (id : Bytes32) : Except PoolError Frontier :=
  if parents = ∅ then
    match booking.key id with
    | none => .error .panicked
    | some key => .ok (pool.readyTransactions.insert key)
  else .ok pool.readyTransactions

variable (blake2b : Blake2b) (estimate : MutableTransaction → ℕ)

/-- The pool is given back only when the transaction is added: all checks come before
the first change. -/
def addMempoolTransaction (pool : BookedPool) (vtx : ValidatedTransaction) (priority : Priority)
    (virtualDaaScore transactionSize : ℕ) : Except PoolError BookedPool :=
  let mtx := vtx.toMutableTransaction
  let id := mtx.id
  let booking : Booking :=
    ⟨vtx.calculatedFee, vtx.calculatedComputeMass, vtx.mass, priority, virtualDaaScore⟩
  if pool.has id || !vtx.isFullyPopulated then .error .panicked
  else do
    let slots ← atomicMempoolSlots blake2b mtx
    pool.checkAtomicSlotConflictsForSlots id slots
    let parents := pool.getParentTransactionIdsInPool mtx
    let ready ← pool.readyAfter parents booking id
    return {
      all := pool.all.insert id ⟨mtx, virtualDaaScore⟩
      chained := (FMap.sortKeys parents).foldl (chain id) pool.chained
      books := pool.books.insert id booking
      parents := pool.parents.insert id parents
      atomicSlotOwners := pool.atomicSlotOwners.insertAll (slots.map fun slot => (slot, id))
      atomicSlotsByTx :=
        if slots = [] then pool.atomicSlotsByTx else pool.atomicSlotsByTx.insert id slots
      readyTransactions := ready
      estimatedSize := pool.estimatedSize + transactionSize
      utxoSet := pool.utxoSet.addTransaction mtx }

/-- Take `id` out of the redeemers registered for one of its parents. -/
def unchain (id : Bytes32) (chained : TransactionsEdges) (parent : Bytes32) : TransactionsEdges :=
  match chained.lookup parent with
  | some chains => chained.insert parent (chains.erase id)
  | none => chained

/-- Take `id` out of the redeemers of its parents. -/
def unlink (id : Bytes32) (pool : BookedPool) : BookedPool := { pool with
    chained :=
      (FMap.sortKeys (pool.parentsOf id)).foldl (unchain id) pool.chained }

/-- Drop the edges registered under `id`. -/
def cut (id : Bytes32) (pool : BookedPool) : BookedPool :=
  { pool with parents := pool.parents.erase id, chained := pool.chained.erase id }

/-- Take `id` out of the parents of one of its redeemers. A redeemer without
parents left is ready for a block template. -/
def release (id : Bytes32) (unblockedAtDaaScore : Option ℕ) (chain : Bytes32) :
    EStateM PoolError BookedPool Unit := do
  let pool ← get
  match pool.parents.lookup chain with
  | none => pure ()
  | some parents =>
    set { pool with parents := pool.parents.insert chain (parents.erase id) }
    if parents.erase id = ∅ then
      match pool.all.lookup chain, pool.keyOf chain with
      | some tx, some key =>
        modify fun pool =>
          { pool with
            all := pool.all.insert chain
              { tx with readyAtDaaScore := unblockedAtDaaScore.getD tx.readyAtDaaScore }
            readyTransactions := pool.readyTransactions.insert key }
      | _, _ => throw .panicked
    else pure ()

def releaseAll (id : Bytes32) (unblockedAtDaaScore : Option ℕ) :
    List Bytes32 → EStateM PoolError BookedPool Unit
  | [] => pure ()
  | chain :: chains => do
    release id unblockedAtDaaScore chain
    releaseAll id unblockedAtDaaScore chains

/-- Free a slot that `id` still owns. -/
def freeSlot (id : Bytes32) (owners : FMap AtomicMempoolSlot Bytes32) (slot : AtomicMempoolSlot) :
    FMap AtomicMempoolSlot Bytes32 :=
  if owners.lookup slot = some id then owners.erase slot else owners

/-- The pool without a stored transaction whose relations are gone. -/
def without (pool : BookedPool) (id : Bytes32) (tx : MempoolTransaction)
    (key : FeerateTransactionKey) : BookedPool :=
  let rest : BookedPool := { pool with
      all := pool.all.erase id
      books := pool.books.erase id
      atomicSlotsByTx := pool.atomicSlotsByTx.erase id
      atomicSlotOwners :=
        ((pool.atomicSlotsByTx.lookup id).getD []).foldl (freeSlot id) pool.atomicSlotOwners
      readyTransactions := pool.readyTransactions.remove key
      estimatedSize := pool.estimatedSize - estimate tx.mtx }
  { rest with
    utxoSet := pool.utxoSet.removeTransaction tx.mtx (rest.getParentTransactionIdsInPool tx.mtx) }

def takeOut (id : Bytes32) : EStateM PoolError BookedPool MempoolTransaction := do
  let pool ← get
  match pool.all.lookup id with
  | none => throw (.rule (.rejectMissingTransaction id))
  | some tx =>
    match pool.keyOf id with
    | none => throw .panicked
    | some key =>
      let rest := without estimate pool id tx key
      set rest
      if rest.all = ∅ ∧ rest.estimatedSize ≠ 0 then throw .panicked
      else pure tx

/-- Removes the transaction from all relational sets and from the UTXO set. -/
def removeTransaction (id : Bytes32) (unblockedAtDaaScore : Option ℕ) :
    EStateM PoolError BookedPool MempoolTransaction := do
  modify (unlink id)
  let pool ← get
  releaseAll id unblockedAtDaaScore (FMap.sortKeys (pool.redeemersOf id))
  modify (cut id)
  takeOut estimate id

/-- Whether the transaction is in the pool, and the pool with its new entries, fee and
mass. -/
def updateRevalidatedTransaction (pool : BookedPool) (vtx : ValidatedTransaction) :
    Bool × BookedPool :=
  match pool.all.lookup vtx.id, pool.books.lookup vtx.id with
  | some tx, some booking =>
    (true, { pool with
        all := pool.all.insert vtx.id { tx with mtx := vtx.toMutableTransaction }
        books := pool.books.insert vtx.id { booking with
            calculatedFee := vtx.calculatedFee
            calculatedComputeMass := vtx.calculatedComputeMass
            mass := vtx.mass }
        estimatedSize := pool.estimatedSize - estimate tx.mtx + estimate vtx.toMutableTransaction })
  | _, _ => (false, pool)

end BookedPool

structure BookedState where
  transactionPool : BookedPool
  orphanPool : OrphanPool

namespace BookedState

def onTransactions {α : Type} (x : EStateM PoolError BookedPool α) :
    EStateM PoolError BookedState α := fun m =>
  match x m.transactionPool with
  | .ok a pool => .ok a { m with transactionPool := pool }
  | .error e pool => .error e { m with transactionPool := pool }

def onOrphans {α : Type} (x : EStateM RuleError OrphanPool α) :
    EStateM PoolError BookedState α := fun m =>
  match x m.orphanPool with
  | .ok a pool => .ok a { m with orphanPool := pool }
  | .error e pool => .error (.rule e) { m with orphanPool := pool }

variable (estimate : MutableTransaction → ℕ)

/-- Remove the listed transactions, and after each one update the orphans that
descend from it. -/
def removeListed (removeRedeemers : Bool) (unblockedAtDaaScore : Option ℕ) :
    List Bytes32 → EStateM PoolError BookedState Unit
  | [] => pure ()
  | id :: ids => do
    let tx ← onTransactions (BookedPool.removeTransaction estimate id unblockedAtDaaScore)
    let _ ← onOrphans (OrphanPool.updateOrphansAfterTransactionRemoved tx removeRedeemers)
    removeListed removeRedeemers unblockedAtDaaScore ids

def removeTransactionWithUnblockedDaa (id : Bytes32) (removeRedeemers : Bool)
    (unblockedAtDaaScore : Option ℕ) : EStateM PoolError BookedState Unit := do
  let m ← get
  if m.orphanPool.has id then
    let _ ← onOrphans (OrphanPool.removeOrphan id true)
    pure ()
  else if m.transactionPool.has id then
    removeListed estimate removeRedeemers unblockedAtDaaScore
      (id :: if removeRedeemers then m.transactionPool.getRedeemerIdsInPool id else [])
  else pure ()

def removeTransaction (id : Bytes32) (removeRedeemers : Bool) : EStateM PoolError BookedState Unit :=
  removeTransactionWithUnblockedDaa estimate id removeRedeemers none

end BookedState
end CryptixAtomic.Mempool
