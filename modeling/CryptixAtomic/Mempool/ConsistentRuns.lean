import CryptixAtomic.Mempool.Insertion

/-!
# Every run of the mempool keeps the books consistent

A run starts from an empty pool and adds, removes and revalidates transactions in any
order; a removal takes the redeemers along or leaves them. `Reaches` are the states of such
runs. In each of them the pool is consistent.
-/
namespace CryptixAtomic.Mempool

open Foundation BookedPool List

namespace BookedPool

variable {estimate : MutableTransaction → ℕ} {pool : BookedPool}

theorem empty_consistent (estimate : MutableTransaction → ℕ) : empty.Consistent estimate := by
  have hnone : ∀ k, empty.mtxOf k = none := fun k => by simp [empty, Pool.mtxOf]
  have hspends : ∀ b a, ¬ empty.SpendsOutputOf b a := by
    rintro b a ⟨-, mtx, hmtx, -⟩
    rw [hnone] at hmtx
    cases hmtx
  constructor
  case keyed => simp [hnone]
  case keys => simp [empty, keyOf, Pool.has]
  case populated => simp [hnone]
  case registered => simp [empty, Pool.has]
  case parents =>
    intro a b
    rw [iff_false_right (hspends b a)]
    simp [empty, parentsOf]
  case redeemers => simp [empty, redeemersOf, parentsOf]
  case acyclic =>
    intro a hcycle
    cases hcycle with
    | single hedge | tail _ hedge => exact hspends _ _ hedge
  case frontier => simp [empty, Frontier.empty, keyOf]
  case totalMass => simp [empty, Frontier.empty, Frontier.Balanced]
  case size => simp [empty, totalSize]
  case owners => simp [empty, MempoolUtxoSet.empty, Spent, Pool.mtxOf]
  case unspent => simp [empty, MempoolUtxoSet.empty, createdEntry, Pool.mtxOf]
  case slots => simp [empty]
  case slotted => simp [empty]

theorem Consistent.redeems_iff (h : pool.Consistent estimate) (a b : Bytes32) :
    pool.Redeems a b ↔ pool.SpendsOutputOf b a := by
  have hsorted : b ∈ (pool.chained.lookup a).elim [] FMap.sortKeys ↔ pool.SpendsOutputOf b a := by
    rw [← h.parents, ← h.redeemers, redeemersOf]
    cases pool.chained.lookup a with
    | none => simp
    | some => exact FMap.mem_sortKeys
  unfold Pool.Redeems Pool.redeemers
  cases ha : pool.all.lookup a with
  | none =>
    constructor
    · intro hmem
      cases hmem
    · rintro ⟨hhas, -⟩
      simp [Pool.has, ha] at hhas
  | some tx =>
    have hid : tx.id = a := h.keyed a tx.mtx (by rw [Pool.mtxOf, ha]; rfl)
    dsimp only
    rw [mem_filter, hid, hsorted]
    constructor
    · exact And.left
    · intro hspends
      refine ⟨hspends, ?_⟩
      obtain ⟨-, mtx, hmtx, -⟩ := hspends
      exact Pool.has_iff_mtxOf.mpr ⟨mtx, hmtx⟩

theorem Consistent.chained_iff (h : pool.Consistent estimate) (a b : Bytes32) :
    pool.Chained a b ↔ pool.DescendsFrom b a := by
  have hswap : pool.Redeems = Function.swap pool.SpendsOutputOf := by
    funext x y
    exact propext (h.redeems_iff x y)
  rw [Pool.Chained, hswap, Relation.transGen_swap, DescendsFrom]

theorem Consistent.redeemers_spec (h : pool.Consistent estimate) {id : Bytes32}
    (hid : pool.has id = true) :
    (id :: pool.getRedeemerIdsInPool id).Nodup ∧
      (∀ k ∈ id :: pool.getRedeemerIdsInPool id, pool.has k = true) ∧
      ∀ k, k ∈ pool.getRedeemerIdsInPool id ↔ pool.DescendsFrom k id := by
  obtain ⟨hnodup, hmem⟩ := pool.getRedeemerIdsInPool_spec id
  have hdescends : ∀ k, k ∈ pool.getRedeemerIdsInPool id ↔ pool.DescendsFrom k id := by
    intro k
    rw [hmem, h.chained_iff]
  refine ⟨?_, ?_, hdescends⟩
  · rw [nodup_cons]
    refine ⟨?_, hnodup⟩
    rw [hdescends]
    exact h.acyclic id
  · intro k hk
    rcases mem_cons.mp hk with rfl | hk
    · exact hid
    · exact ((hmem k).mp hk).has

end BookedPool

namespace BookedState

variable {estimate : MutableTransaction → ℕ}

variable {m : BookedState}

theorem onTransactions_run {α : Type} {x : EStateM PoolError BookedPool α}
    {a : α} {pool : BookedPool} (h : x.run m.transactionPool = .ok a pool) :
    (onTransactions x).run m = .ok a { m with transactionPool := pool } := by
  change onTransactions x m = _
  unfold onTransactions
  rw [show x m.transactionPool = .ok a pool from h]

theorem onOrphans_keeps {α : Type} (x : EStateM RuleError OrphanPool α) :
    Keeps BookedState.transactionPool (onOrphans x) := by
  intro m
  change (finalState (onOrphans x m)).transactionPool = _
  unfold onOrphans
  cases x m.orphanPool <;> rfl

variable {inv : BookedPool → Prop}

theorem removeListed_keeps (hinv : KeptByRemoval estimate inv) (removeRedeemers : Bool)
    (unblockedAtDaaScore : Option ℕ) (ids : List Bytes32) (h : inv m.transactionPool)
    (hnodup : ids.Nodup) (hids : ∀ id ∈ ids, m.transactionPool.has id = true) :
    inv (finalState ((removeListed estimate removeRedeemers unblockedAtDaaScore ids).run
      m)).transactionPool := by
  induction ids generalizing m with
  | nil => exact h
  | cons id ids ih =>
    rw [nodup_cons] at hnodup
    obtain ⟨tx, pool', hrun, -, hmtx, hpool'⟩ :=
      hinv _ id h (hids id mem_cons_self) unblockedAtDaaScore
    rw [removeListed, finalState_bind_of_ok (onTransactions_run hrun)]
    have hkeeps := onOrphans_keeps
      (OrphanPool.updateOrphansAfterTransactionRemoved tx removeRedeemers)
      { m with transactionPool := pool' }
    -- the orphans are updated next; when this fails, the list is left where it is
    cases horphans : (onOrphans (OrphanPool.updateOrphansAfterTransactionRemoved tx
        removeRedeemers)).run { m with transactionPool := pool' } with
    | error e m' =>
      rw [horphans] at hkeeps
      rw [finalState_bind_of_error horphans, show m'.transactionPool = pool' from hkeeps]
      exact hpool'
    | ok txs m' =>
      rw [horphans] at hkeeps
      have hpool : m'.transactionPool = pool' := hkeeps
      rw [finalState_bind_of_ok horphans]
      apply ih
      · rw [hpool]
        exact hpool'
      · exact hnodup.2
      · intro k hk
        have hne : k ≠ id := fun heq => hnodup.1 (heq ▸ hk)
        have hsame : pool'.mtxOf k = m.transactionPool.mtxOf k := by rw [hmtx, if_neg hne]
        rw [hpool, Pool.has_of_mtxOf_eq hsame]
        exact hids k (mem_cons_of_mem id hk)

theorem removeTransactionWithUnblockedDaa_keeps (hinv : KeptByRemoval estimate inv)
    (hm : m.transactionPool.Consistent estimate) (h : inv m.transactionPool) (id : Bytes32)
    (removeRedeemers : Bool) (unblockedAtDaaScore : Option ℕ) :
    inv (finalState ((removeTransactionWithUnblockedDaa estimate id removeRedeemers
      unblockedAtDaaScore).run m)).transactionPool := by
  rw [removeTransactionWithUnblockedDaa, finalState_bind_of_ok (run_get m)]
  by_cases horphan : m.orphanPool.has id = true
  · rw [if_pos horphan, finalState_bind_of_forall m fun _ _ => rfl,
      onOrphans_keeps (OrphanPool.removeOrphan id true) m]
    exact h
  · rw [if_neg horphan]
    by_cases hpooled : m.transactionPool.has id = true
    · rw [if_pos hpooled]
      obtain ⟨hnodup, hhas, -⟩ := hm.redeemers_spec hpooled
      cases removeRedeemers with
      | true => exact removeListed_keeps hinv true unblockedAtDaaScore _ h hnodup hhas
      | false =>
        apply removeListed_keeps hinv false unblockedAtDaaScore _ h (nodup_singleton id)
        intro k hk
        rw [mem_singleton.mp hk]
        exact hpooled
    · rw [if_neg hpooled]
      exact h

section Runs

variable (blake2b : Blake2b) (estimate : MutableTransaction → ℕ) (valid : ValidatedTransaction → Prop)

/-- The states of a run from an empty transaction pool in which every transaction is `valid`.
Other parts of the mempool may change the orphans at any time. -/
inductive Reaches : BookedState → Prop
  | start (orphanPool : OrphanPool) : Reaches ⟨empty, orphanPool⟩
  | add {m : BookedState} {pool' : BookedPool} (vtx : ValidatedTransaction) (priority : Priority)
      (virtualDaaScore : ℕ) :
      Reaches m → valid vtx → m.transactionPool.Admissible vtx →
      m.transactionPool.addMempoolTransaction blake2b vtx priority virtualDaaScore
        (estimate vtx.toMutableTransaction) = .ok pool' →
      Reaches { m with transactionPool := pool' }
  | remove {m : BookedState} (id : Bytes32) (removeRedeemers : Bool)
      (unblockedAtDaaScore : Option ℕ) :
      Reaches m → Reaches (finalState ((removeTransactionWithUnblockedDaa estimate id
        removeRedeemers unblockedAtDaaScore).run m))
  | revalidate {m : BookedState} (vtx : ValidatedTransaction) :
      Reaches m → valid vtx → m.transactionPool.Revalidated vtx →
      Reaches { m with
        transactionPool := (m.transactionPool.updateRevalidatedTransaction estimate vtx).2 }
  | orphans {m : BookedState} (orphanPool : OrphanPool) :
      Reaches m → Reaches { m with orphanPool := orphanPool }

variable {blake2b estimate valid} in
theorem Reaches.consistent (h : Reaches blake2b estimate valid m) :
    m.transactionPool.Consistent estimate := by
  induction h with
  | start => exact empty_consistent estimate
  | add vtx priority virtualDaaScore _ _ hok hadd ih =>
    exact addMempoolTransaction_consistent ih hok hadd
  | remove id removeRedeemers unblockedAtDaaScore _ ih =>
    exact removeTransactionWithUnblockedDaa_keeps consistent_keptByRemoval ih ih id removeRedeemers
      unblockedAtDaaScore
  | revalidate vtx _ _ hok ih => exact updateRevalidatedTransaction_consistent ih hok
  | orphans orphanPool _ ih => exact ih

theorem booked_pool_consistent (m : BookedState) (h : Reaches blake2b estimate valid m) :
    m.transactionPool.Consistent estimate :=
  h.consistent

end Runs

def fundingId : Bytes32 := Bytes.fill 32 1
def creationId : Bytes32 := Bytes.fill 32 2

def ownerScript : ScriptPublicKey := ⟨0, 0x20 :: List.replicate 32 7 ++ [0xac]⟩

def funding : ValidatedTransaction where
  tx := ⟨fundingId, [⟨⟨Bytes.fill 32 4, 0⟩⟩], [⟨10, ownerScript⟩], Bytes.zeros 20, []⟩
  entries := [some ⟨11, ⟨0, []⟩, 0, false⟩]
  aligned := rfl
  calculatedFee := some 1
  calculatedComputeMass := some 1
  mass := 1

/-- Creates an asset with nonce 1 of the owner paid by `funding`. -/
def creation : ValidatedTransaction where
  tx := ⟨creationId, [⟨⟨fundingId, 0⟩⟩], [⟨9, ownerScript⟩], subnetworkIdPayload,
    [67, 65, 84, 1, 0, 0, 0, 0, 1, 0, 0, 0, 0, 0, 0, 0]⟩
  entries := [some ⟨10, ownerScript, unacceptedDaaScore, false⟩]
  aligned := rfl
  calculatedFee := some 1
  calculatedComputeMass := some 1
  mass := 1

def unitEstimate (_ : MutableTransaction) : ℕ := 1

def fixedDigest : Blake2b := fun _ => zero32

def addTo (pool : BookedPool) (vtx : ValidatedTransaction) : Except PoolError BookedPool :=
  pool.addMempoolTransaction fixedDigest vtx .low 0 (unitEstimate vtx.toMutableTransaction)

def fundedPool : BookedPool := (addTo .empty funding).toOption.getD .empty
def creationPool : BookedPool := (addTo fundedPool creation).toOption.getD .empty

theorem addTo_eq_ok {pool : BookedPool} {vtx : ValidatedTransaction}
    (h : (addTo pool vtx).isOk = true) :
    addTo pool vtx = .ok ((addTo pool vtx).toOption.getD .empty) := by
  cases hadd : addTo pool vtx with
  | ok => rfl
  | error => rw [hadd] at h; cases h

theorem fundedPool_eq : addTo .empty funding = .ok fundedPool := addTo_eq_ok (by decide +kernel)

theorem creationPool_eq : addTo fundedPool creation = .ok creationPool :=
  addTo_eq_ok (by decide +kernel)

theorem funding_admissible : empty.Admissible funding := by
  apply (empty_consistent unitEstimate).admissible
  · constructor
    · decide
    · decide
  all_goals decide

theorem fundedPool_consistent : fundedPool.Consistent unitEstimate :=
  addMempoolTransaction_consistent (empty_consistent unitEstimate)
    funding_admissible fundedPool_eq

theorem creation_admissible : fundedPool.Admissible creation := by
  apply fundedPool_consistent.admissible
  · constructor
    · decide
    · decide +kernel
  all_goals decide +kernel

def noOrphans : OrphanPool := ⟨⟨∅, ∅⟩, ∅⟩

/-- The payment is removed alone; the asset creation stays, now without parents. -/
def creationAlone : BookedState :=
  finalState ((removeTransactionWithUnblockedDaa unitEstimate fundingId false none).run
    ⟨creationPool, noOrphans⟩)

def spentScript (o : TransactionOutpoint) : ScriptPublicKey :=
  if o.transactionId = fundingId then ownerScript else ⟨0, []⟩

theorem creationPool_reached : Reaches fixedDigest unitEstimate (·.Scripted spentScript)
    ⟨creationPool, noOrphans⟩ := by
  have hfunded : Reaches fixedDigest unitEstimate (·.Scripted spentScript)
      ⟨fundedPool, noOrphans⟩ :=
    .add funding .low 0 (.start noOrphans) rfl funding_admissible fundedPool_eq
  exact .add creation .low 0 hfunded (by decide) creation_admissible creationPool_eq

theorem creationAlone_consistent :
    (creationAlone.transactionPool.has creationId = true ∧
      creationAlone.transactionPool.has fundingId = false ∧
      creationAlone.transactionPool.atomicSlotsByTx.lookup creationId ≠ none) ∧
      creationAlone.transactionPool.Consistent unitEstimate :=
  ⟨by decide +kernel,
    booked_pool_consistent _ _ _ _ (.remove fundingId false none creationPool_reached)⟩

end BookedState
end CryptixAtomic.Mempool
