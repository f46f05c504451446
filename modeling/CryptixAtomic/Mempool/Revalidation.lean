import CryptixAtomic.Foundation.Preserves
import CryptixAtomic.Mempool.Eviction
import CryptixAtomic.Processor.MempoolBatch

/-!
# Revalidation of pooled transactions

Transactions of high priority and token transactions are validated again from time to time,
in a topological order and in chunks bounded by the mass of a block. One that fails is
removed, with its redeemers unless only an outpoint is missing. A chunk does not see the token
transactions of the chunks before it, so a chain of nonces breaks where two chunks meet.
-/
namespace CryptixAtomic.Mempool

open Foundation Processor BookedPool List Option FMap

def MutableTransaction.clearEntries (mtx : MutableTransaction) : MutableTransaction where
  tx := mtx.tx
  entries := mtx.entries.map fun _ => none
  aligned := by rw [length_map, mtx.aligned]

/-- What revalidation asks of the consensus. -/
structure Consensus where
  blake2b : Blake2b
  params : AtomicParams
  rules : MempoolRules
  virtualState : VirtualState
  utxoView : UtxoView
  isReady : Bool

namespace Consensus

def validate (c : Consensus) (txs : List CandidateTransaction) :
    List CandidateTransaction × List (Except TxRuleError Unit) :=
  validateMempoolTransactionsInParallel c.blake2b c.params c.rules c.virtualState
    c.utxoView c.isReady txs

end Consensus

/-- The index at which the running mass reaches the bound. -/
def massPosition (maximumMass : ℕ) : List CandidateTransaction → ℕ → Option ℕ
  | [], _ => none
  | mtx :: rest, mass =>
    let mass := mass + mtx.calculatedComputeMass.getD 0
    if mass ≥ maximumMass then some 0 else (massPosition maximumMass rest mass).map (· + 1)

def chunkLength (maximumMass : ℕ) (txs : List CandidateTransaction) : ℕ :=
  match massPosition maximumMass txs 0 with
  | some i => max i 1
  | none => txs.length

def chunkLoop (maximumMass : ℕ) : ℕ → List CandidateTransaction → List (List CandidateTransaction)
  | 0, _ => []
  | _, [] => []
  | fuel + 1, txs =>
    let n := chunkLength maximumMass txs
    txs.take n :: chunkLoop maximumMass fuel (txs.drop n)

def transactionChunks (maximumMass : ℕ) (txs : List CandidateTransaction) :
    List (List CandidateTransaction) :=
  chunkLoop maximumMass txs.length txs

theorem chunkLength_pos {maximumMass : ℕ} {txs : List CandidateTransaction}
    (h : txs ≠ []) : 0 < chunkLength maximumMass txs := by
  unfold chunkLength
  split
  · omega
  · exact length_pos_iff.mpr h

variable {txs : List CandidateTransaction}

theorem flatten_chunkLoop {maximumMass fuel : ℕ}
    (h : txs.length ≤ fuel) : (chunkLoop maximumMass fuel txs).flatten = txs := by
  induction fuel generalizing txs with
  | zero =>
    obtain rfl := length_eq_zero_iff.mp (Nat.le_zero.mp h)
    rfl
  | succ fuel ih =>
    cases txs with
    | nil => rfl
    | cons mtx txs =>
      have hpos := @chunkLength_pos maximumMass (mtx :: txs) (by simp)
      have hlength := length_drop (i := chunkLength maximumMass (mtx :: txs)) (l := mtx :: txs)
      rw [chunkLoop, flatten_cons, ih (by omega), take_append_drop]
      simp

theorem flatten_transactionChunks (maximumMass : ℕ) (txs : List CandidateTransaction) :
    (transactionChunks maximumMass txs).flatten = txs :=
  flatten_chunkLoop le_rfl

namespace BookedPool

def needsRevalidation (pool : BookedPool) (id : Bytes32) : Bool :=
  match pool.all.lookup id, pool.books.lookup id with
  | some tx, some booking => booking.priority = .high || isCatTransaction tx.mtx.tx
  | _, _ => false

variable (witnessOf : Bytes32 → TxWitness)

/-- A stored transaction as it is handed to the consensus: its entries are cleared and
those of pooled outputs filled in. Signatures and sequences stand beside the pool. -/
def candidateOf (pool : BookedPool) (id : Bytes32) : Option CandidateTransaction :=
  match pool.all.lookup id, pool.books.lookup id with
  | some tx, some booking =>
    some
      { toMutableTransaction := pool.populateMempoolEntries tx.mtx.clearEntries
        witness := { witnessOf id with mass := booking.mass }
        calculatedFee := booking.calculatedFee
        calculatedComputeMass := booking.calculatedComputeMass }
  | _, _ => none

/-- The transactions to validate: those among the listed ones that no block has accepted. -/
def candidates (accepted : Bytes32 → Bool) (listing : List Bytes32) (pool : BookedPool) :
    List CandidateTransaction :=
  (listing.filter fun id => !accepted id).filterMap (pool.candidateOf witnessOf)

end BookedPool

def asValidated (mtx : CandidateTransaction) : ValidatedTransaction where
  toMutableTransaction := mtx.toMutableTransaction
  calculatedFee := mtx.calculatedFee
  calculatedComputeMass := mtx.calculatedComputeMass
  mass := mtx.witness.mass

namespace BookedState

variable (estimate : MutableTransaction → ℕ)

def settle (m : BookedState) (p : CandidateTransaction × Except TxRuleError Unit) : BookedState :=
  match p.2 with
  | .ok _ =>
    { m with
      transactionPool :=
        (m.transactionPool.updateRevalidatedTransaction estimate (asValidated p.1)).2 }
  | .error .missingTxOutpoints => finalState ((removeTransaction estimate p.1.id false).run m)
  | .error _ => finalState ((removeTransaction estimate p.1.id true).run m)

variable (c : Consensus) (maximumMass : ℕ) (witnessOf : Bytes32 → TxWitness)
  (accepted : Bytes32 → Bool)

def chunkResults (txs : List CandidateTransaction) :
    List (CandidateTransaction × Except TxRuleError Unit) :=
  (transactionChunks maximumMass txs).flatMap fun chunk =>
    (c.validate chunk).1.zip (c.validate chunk).2

/-- The ids come in the order in which the topological iteration yields them. -/
def revalidateHighPriorityTransactions (listing : List Bytes32) (m : BookedState) : BookedState :=
  (chunkResults c maximumMass (m.transactionPool.candidates witnessOf accepted listing)).foldl
    (settle estimate) m

end BookedState

variable {id : Bytes32} {vtx : ValidatedTransaction}

namespace BookedPool

variable {estimate : MutableTransaction → ℕ} {pool : BookedPool}

theorem has_updateRevalidatedTransaction (vtx : ValidatedTransaction) (k : Bytes32) :
    (updateRevalidatedTransaction estimate pool vtx).2.has k = pool.has k := by
  cases htx : pool.all.lookup vtx.id with
  | none => simp [updateRevalidatedTransaction, htx]
  | some =>
    cases hbooking : pool.books.lookup vtx.id with
    | none => simp [updateRevalidatedTransaction, htx, hbooking]
    | some =>
      rw [Bool.eq_iff_iff, Pool.has_iff_mtxOf, mtxOf_updateRevalidatedTransaction htx hbooking]
      split_ifs with heq
      · subst heq
        simp [Pool.has, htx]
      · rw [Pool.has_iff_mtxOf]

theorem Workable.update (h : pool.Workable estimate)
    (hfee : vtx.calculatedFee.isSome = true) (hmass : vtx.mass ≠ 0) :
    (updateRevalidatedTransaction estimate pool vtx).2.Workable estimate := by
  cases htx : pool.all.lookup vtx.id with
  | none =>
    rw [updateRevalidatedTransaction, htx]
    exact h
  | some tx =>
    cases hbooking : pool.books.lookup vtx.id with
    | none =>
      rw [updateRevalidatedTransaction, htx, hbooking]
      exact h
    | some booking =>
      have hmtxOf := @mtxOf_updateRevalidatedTransaction estimate pool vtx tx booking htx hbooking
      have hhas := @has_updateRevalidatedTransaction estimate pool vtx
      have hkeyOf : ∀ k, (pool.keyOf k).isSome = true →
          ((updateRevalidatedTransaction estimate pool vtx).2.keyOf k).isSome = true := by
        intro k hk
        rw [updateRevalidatedTransaction, htx, hbooking]
        dsimp only
        rw [keyOf, lookup_insert_ite]
        split_ifs
        · obtain ⟨fee, hfee⟩ := isSome_iff_exists.mp hfee
          simp [Booking.key, hfee, hmass]
        · exact hk
      have hparents : (updateRevalidatedTransaction estimate pool vtx).2.parents = pool.parents := by
        rw [updateRevalidatedTransaction, htx, hbooking]
      constructor
      · intro k m hk
        rw [hmtxOf] at hk
        split_ifs at hk with heq
        · rw [← some.inj hk, heq]
        · exact h.keyed k m hk
      · intro id hid
        rw [hparents] at hid
        rw [hhas]
        exact ⟨(h.listed id hid).1, hkeyOf id (h.listed id hid).2⟩
      · intro id hid
        rw [hhas] at hid
        exact hkeyOf id (h.keys id hid)
      · exact size_updateRevalidatedTransaction vtx h.size

theorem preserves_release (k id : Bytes32) (unblockedAtDaaScore : Option ℕ) (chain : Bytes32) :
    Preserves (fun pool : BookedPool => pool.has k = false)
      (release id unblockedAtDaaScore chain) := by
  intro pool hk
  cases hparents : pool.parents.lookup chain with
  | none => simpa [release, EStateM.run_bind, hparents, finalState] using hk
  | some parents =>
    by_cases hempty : parents.erase id = ∅
    · cases htx : pool.all.lookup chain with
      | none => simpa [release, EStateM.run_bind, hparents, hempty, htx, finalState] using hk
      | some =>
        cases hkey : pool.keyOf chain with
        | none => simpa [release, EStateM.run_bind, hparents, hempty, htx, hkey, finalState] using hk
        | some =>
          -- the released transaction is in the pool, so it is not the missing one
          have hne : k ≠ chain := by
            rintro rfl
            simp [Pool.has, htx] at hk
          have hk' : pool.all.lookup k = none := by simpa [Pool.has] using hk
          simp [release, EStateM.run_bind, hparents, hempty, htx, hkey, finalState, Pool.has, hne,
            hk']
    · simpa [release, EStateM.run_bind, hparents, hempty, finalState] using hk

theorem preserves_releaseAll (k id : Bytes32) (unblockedAtDaaScore : Option ℕ)
    (chains : List Bytes32) :
    Preserves (fun pool : BookedPool => pool.has k = false)
      (releaseAll id unblockedAtDaaScore chains) := by
  induction chains with
  | nil => exact preserves_pure ()
  | cons chain chains ih => exact (preserves_release k id _ chain).bind fun _ => ih

theorem preserves_takeOut (k id : Bytes32) :
    Preserves (fun pool : BookedPool => pool.has k = false) (takeOut estimate id) := by
  intro pool hk
  have hk' : pool.all.lookup k = none := by simpa [Pool.has] using hk
  cases htx : pool.all.lookup id with
  | none => simpa [takeOut, EStateM.run_bind, htx, finalState] using hk
  | some tx =>
    cases hkey : pool.keyOf id with
    | none => simpa [takeOut, EStateM.run_bind, htx, hkey, finalState] using hk
    | some key =>
      have hrest : (without estimate pool id tx key).has k = false := by
        simp [without, Pool.has, lookup_erase_ite, hk']
      rw [takeOut, finalState_bind_of_ok (run_get pool)]
      simp only [htx, hkey]
      rw [finalState_bind_of_ok (run_set pool (without estimate pool id tx key))]
      split_ifs
      · exact hrest
      · exact hrest

theorem preserves_removeTransaction (k id : Bytes32) (unblockedAtDaaScore : Option ℕ) :
    Preserves (fun pool : BookedPool => pool.has k = false)
      (removeTransaction estimate id unblockedAtDaaScore) := by
  unfold removeTransaction
  have hunlink : Preserves (fun pool : BookedPool => pool.has k = false)
      (modify (unlink id) : EStateM PoolError BookedPool PUnit) := fun _ h => h
  have hcut : Preserves (fun pool : BookedPool => pool.has k = false)
      (modify (cut id) : EStateM PoolError BookedPool PUnit) := fun _ h => h
  exact hunlink.bind fun _ => preserves_get.bind fun _ =>
    (preserves_releaseAll k id unblockedAtDaaScore _).bind fun _ =>
      hcut.bind fun _ => preserves_takeOut k id

end BookedPool

namespace BookedState

variable {estimate : MutableTransaction → ℕ}

def Gone (k : Bytes32) (m : BookedState) : Prop := m.transactionPool.has k = false

variable {k : Bytes32} {m : BookedState}
  {ps : List (CandidateTransaction × Except TxRuleError Unit)}

theorem preserves_onTransactions {α : Type} {x : EStateM PoolError BookedPool α}
    (h : Preserves (fun pool : BookedPool => pool.has k = false) x) :
    Preserves (Gone k) (onTransactions x) := by
  intro m hm
  have hpool := h m.transactionPool hm
  change Gone k (finalState (onTransactions x m))
  unfold onTransactions
  change (finalState (x m.transactionPool)).has k = false at hpool
  cases hx : x m.transactionPool with
  | ok | error =>
    rw [hx] at hpool
    exact hpool

theorem preserves_onOrphans {α : Type} (k : Bytes32) (x : EStateM RuleError OrphanPool α) :
    Preserves (Gone k) (onOrphans x) := by
  intro m hm
  have hkeeps := onOrphans_keeps x m
  rw [Gone, hkeeps]
  exact hm

theorem preserves_removeListed (k : Bytes32) (removeRedeemers : Bool)
    (unblockedAtDaaScore : Option ℕ) (ids : List Bytes32) :
    Preserves (Gone k) (removeListed estimate removeRedeemers unblockedAtDaaScore ids) := by
  induction ids with
  | nil => exact preserves_pure ()
  | cons id ids ih =>
    have hremove := preserves_onTransactions
      (@BookedPool.preserves_removeTransaction estimate k id unblockedAtDaaScore)
    exact hremove.bind fun tx => (preserves_onOrphans k _).bind fun _ => ih

theorem preserves_removeTransaction (k id : Bytes32) (removeRedeemers : Bool) :
    Preserves (Gone k) (removeTransaction estimate id removeRedeemers) := by
  unfold removeTransaction removeTransactionWithUnblockedDaa
  refine preserves_get.bind fun m => ?_
  split
  · exact (preserves_onOrphans k _).bind fun _ => preserves_pure ()
  · split
    · exact preserves_removeListed k removeRedeemers none _
    · exact preserves_pure ()

theorem Gone.settle (h : Gone k m) (p : CandidateTransaction × Except TxRuleError Unit) :
    Gone k (settle estimate m p) := by
  unfold BookedState.settle
  split
  · exact (has_updateRevalidatedTransaction _ k).trans h
  · exact preserves_removeTransaction k p.1.id false m h
  · exact preserves_removeTransaction k p.1.id true m h

theorem removeTransaction_gone (h : m.transactionPool.Workable estimate)
    (hid : m.transactionPool.has id = true) (horphan : m.orphanPool.has id ≠ true)
    (removeRedeemers : Bool) :
    Gone id (finalState ((removeTransaction estimate id removeRedeemers).run m)) := by
  obtain ⟨tx, pool', hrun, -, hmtx, -⟩ := workable_keptByRemoval _ id h hid none
  have hrest : Gone id ({ m with transactionPool := pool' } : BookedState) := by
    rw [Gone, ← Bool.not_eq_true, Pool.has_iff_mtxOf, hmtx, if_pos rfl]
    simp
  rw [removeTransaction, removeTransactionWithUnblockedDaa, finalState_bind_of_ok (run_get m),
    if_neg horphan, if_pos hid, removeListed, finalState_bind_of_ok (onTransactions_run hrun)]
  have hrun' : Preserves (Gone id) (do
      let _ ← onOrphans (OrphanPool.updateOrphansAfterTransactionRemoved tx removeRedeemers)
      removeListed estimate removeRedeemers none
        (if removeRedeemers then m.transactionPool.getRedeemerIdsInPool id else [])) :=
    (preserves_onOrphans id _).bind fun _ => preserves_removeListed id removeRedeemers none _
  exact hrun' _ hrest

/-- What validation leaves of a transaction: its fee is known and it has a mass. -/
def Priced (mtx : CandidateTransaction) : Prop :=
  mtx.calculatedFee.isSome = true ∧ mtx.witness.mass ≠ 0

theorem foldl_settle_has (hok : ∀ p ∈ ps, p.2 = .ok ()) (m : BookedState) (k : Bytes32) :
    (ps.foldl (settle estimate) m).transactionPool.has k = m.transactionPool.has k := by
  induction ps generalizing m with
  | nil => rfl
  | cons p ps ih =>
    rw [forall_mem_cons] at hok
    rw [foldl_cons, ih hok.2, settle, hok.1]
    exact has_updateRevalidatedTransaction _ k

theorem foldl_settle_gone (h : Gone k m) : Gone k (ps.foldl (settle estimate) m) := by
  induction ps generalizing m with
  | nil => exact h
  | cons p ps ih => exact ih (h.settle p)

theorem foldl_settle_removes (hpriced : ∀ p ∈ ps, Priced p.1)
    (hwork : m.transactionPool.Workable estimate)
    (hhas : ∀ p ∈ ps, m.transactionPool.has p.1.id = true)
    (horphan : ∀ p ∈ ps, m.orphanPool.has p.1.id ≠ true) (hbad : ∃ p ∈ ps, p.2 ≠ .ok ()) :
    ∃ p ∈ ps, Gone p.1.id (ps.foldl (settle estimate) m) := by
  induction ps generalizing m with
  | nil =>
    obtain ⟨p, hp, -⟩ := hbad
    cases hp
  | cons p ps ih =>
    rw [forall_mem_cons] at hpriced hhas horphan
    by_cases hok : p.2 = .ok ()
    · have hsettle : settle estimate m p =
          { m with
            transactionPool :=
              (m.transactionPool.updateRevalidatedTransaction estimate (asValidated p.1)).2 } := by
        rw [settle, hok]
      have hrest : ∃ q ∈ ps, q.2 ≠ .ok () := by
        obtain ⟨q, hq, hne⟩ := hbad
        rcases mem_cons.mp hq with rfl | hq
        · exact absurd hok hne
        · exact ⟨q, hq, hne⟩
      obtain ⟨q, hq, hgone⟩ := @ih (settle estimate m p) hpriced.2 (by
          rw [hsettle]
          exact hwork.update hpriced.1.1 hpriced.1.2)
        (by
          intro q hq
          rw [hsettle]
          exact (has_updateRevalidatedTransaction _ q.1.id).trans (hhas.2 q hq))
        (by
          intro q hq
          rw [hsettle]
          exact horphan.2 q hq)
        hrest
      exact ⟨q, mem_cons_of_mem p hq, hgone⟩
    · refine ⟨p, mem_cons_self, ?_⟩
      rw [foldl_cons]
      apply foldl_settle_gone
      unfold settle
      split
      · rename_i u hu
        exact absurd hu hok
      · exact removeTransaction_gone hwork hhas.1 horphan.1 false
      · exact removeTransaction_gone hwork hhas.1 horphan.1 true

end BookedState

namespace BookedPool

variable {estimate : MutableTransaction → ℕ} {pool : BookedPool} {witnessOf : Bytes32 → TxWitness}

theorem candidateOf_eq_some (h : pool.Consistent estimate)
    {mtx : CandidateTransaction} (hmtx : pool.candidateOf witnessOf id = some mtx) :
    mtx.id = id ∧ (∃ old, pool.mtxOf id = some old ∧ old.tx = mtx.tx) ∧
      ∃ booking, pool.books.lookup id = some booking ∧
        mtx.calculatedComputeMass = booking.calculatedComputeMass := by
  unfold candidateOf at hmtx
  split at hmtx
  · rename_i tx booking htx hbooking
    obtain rfl := some.inj hmtx
    have hold : pool.mtxOf id = some tx.mtx := by
      rw [Pool.mtxOf, htx]
      rfl
    exact ⟨h.keyed id tx.mtx hold, ⟨tx.mtx, hold, rfl⟩, booking, hbooking, rfl⟩
  · cases hmtx

theorem candidateOf_isSome {id : Bytes32} (h : pool.needsRevalidation id = true) :
    pool.has id = true ∧ ∃ mtx, pool.candidateOf witnessOf id = some mtx := by
  unfold needsRevalidation at h
  unfold candidateOf
  split at h
  · rename_i tx booking htx hbooking
    exact ⟨by simp [Pool.has, htx], _, rfl⟩
  · cases h

theorem filterMap_candidateOf_spec (h : pool.Consistent estimate) {ids : List Bytes32}
    (hnodup : ids.Nodup) :
    ((ids.filterMap (pool.candidateOf witnessOf)).map (·.id)).Nodup ∧
      (ids.filterMap (pool.candidateOf witnessOf)).Pairwise fun a b =>
        a.tx.spentOutpoints.Disjoint b.tx.spentOutpoints := by
  have hids : (ids.filterMap (pool.candidateOf witnessOf)).Pairwise fun a b => a.id ≠ b.id := by
    apply Pairwise.filterMap _ _ hnodup
    intro x y hne a ha b hb
    rw [(candidateOf_eq_some h ha).1, (candidateOf_eq_some h hb).1]
    exact hne
  refine ⟨pairwise_map.mpr hids, ?_⟩
  apply Pairwise.filterMap _ _ hnodup
  intro x y hne a ha b hb o hoa hob
  obtain ⟨-, ⟨old, hold, htx⟩, -⟩ := candidateOf_eq_some h ha
  obtain ⟨-, ⟨old', hold', htx'⟩, -⟩ := candidateOf_eq_some h hb
  exact hne (h.spent_unique ⟨old, hold, htx ▸ hoa⟩ ⟨old', hold', htx' ▸ hob⟩)

end BookedPool

namespace BookedState

variable {estimate : MutableTransaction → ℕ}

/-- All transactions of a chunk pass on their own, and no two of them conflict. -/
structure SoundChunk (c : Consensus) (chunk : List CandidateTransaction) : Prop where
  ids : (chunk.map (·.id)).Nodup
  disjoint : chunk.Pairwise fun a b => a.tx.spentOutpoints.Disjoint b.tx.spentOutpoints
  judged : ∀ mtx ∈ chunk, ∃ key, (judge c.blake2b c.params c.rules c.virtualState
    c.utxoView mtx).2 = .ok key

variable {c : Consensus}

variable {chunk : List CandidateTransaction}

theorem SoundChunk.sublist
    (h : SoundChunk c txs) (hsub : chunk.Sublist txs) : SoundChunk c chunk where
  ids := h.ids.sublist (hsub.map _)
  disjoint := h.disjoint.sublist hsub
  judged := fun mtx hmtx => h.judged mtx (hsub.subset hmtx)

theorem SoundChunk.validate_fst (h : SoundChunk c chunk) (hready : c.isReady = true) :
    (c.validate chunk).1 = chunk.map fun mtx =>
      (judge c.blake2b c.params c.rules c.virtualState c.utxoView mtx).1 := by
  rw [Consensus.validate, validateMempoolTransactionsInParallel, hready]
  simp only [if_neg (show ¬ true = false by simp), judgeBatch_of_disjoint h.ids h.disjoint,
    List.map_map]
  rfl

theorem SoundChunk.results_ok_iff (h : SoundChunk c chunk) (hready : c.isReady = true) :
    (∀ p ∈ (c.validate chunk).1.zip (c.validate chunk).2, p.2 = .ok ()) ↔
      BatchApplies c.blake2b c.params c.rules c.virtualState c.utxoView chunk := by
  rw [← Processor.results_ok_iff h.ids h.disjoint h.judged]
  have hsnd : ((c.validate chunk).1.zip (c.validate chunk).2).map Prod.snd =
      (c.validate chunk).2 := by
    apply map_snd_zip
    rw [h.validate_fst hready, length_map, Consensus.validate, Processor.length_results]
  have hvalidate : (c.validate chunk).2 = (Processor.validateMempoolTransactionsInParallel c.blake2b
      c.params c.rules c.virtualState c.utxoView true chunk).2 := by
    rw [Consensus.validate, hready]
  rw [← hvalidate]
  conv_rhs => rw [← hsnd]
  simp only [List.forall_mem_map]

theorem mem_chunkResults {maximumMass : ℕ} (h : SoundChunk c txs) (hready : c.isReady = true)
    {p : CandidateTransaction × Except TxRuleError Unit} (hp : p ∈ chunkResults c maximumMass txs) :
    ∃ mtx ∈ txs, p.1 = (judge c.blake2b c.params c.rules c.virtualState c.utxoView mtx).1 := by
  obtain ⟨chunk, hchunk, hp⟩ := mem_flatMap.mp hp
  have hsub : chunk.Sublist txs := by
    rw [← flatten_transactionChunks maximumMass txs]
    exact sublist_flatten_of_mem hchunk
  have hfst := (of_mem_zip hp).1
  rw [(h.sublist hsub).validate_fst hready] at hfst
  obtain ⟨mtx, hmtx, heq⟩ := mem_map.mp hfst
  exact ⟨mtx, hsub.subset hmtx, heq.symm⟩

/-- When all token and high-priority transactions of a sound mempool pass validation
together, revalidation removes none of them exactly when the token transitions of every
chunk apply to the virtual state without those of the other chunks. -/
theorem revalidation_keeps_iff (estimate : MutableTransaction → ℕ) (c : Consensus)
    (maximumMass : ℕ) (witnessOf : Bytes32 → TxWitness) (accepted : Bytes32 → Bool)
    (m : BookedState) (listing : List Bytes32) (hsound : m.Sound c.blake2b estimate)
    (hnodup : listing.Nodup)
    (hlisting : ∀ id, id ∈ listing ↔ m.transactionPool.needsRevalidation id = true)
    (hcompute : ∀ id booking, m.transactionPool.books.lookup id = some booking →
      ∃ mass, booking.calculatedComputeMass = some mass ∧ 0 < mass)
    (hoverall : ∀ ptx witness compute mass,
      c.rules.calcTxOverallMass ptx witness (some compute) = some mass → compute ≤ mass)
    (htogether : ∀ r ∈ (c.validate (listing.filterMap
      (m.transactionPool.candidateOf witnessOf))).2, r = .ok ()) :
    (∀ id ∈ listing, (revalidateHighPriorityTransactions estimate c maximumMass witnessOf accepted
      listing m).transactionPool.has id = true) ↔
    ∀ chunk ∈ transactionChunks maximumMass
        (m.transactionPool.candidates witnessOf accepted listing),
      BatchApplies c.blake2b c.params c.rules c.virtualState c.utxoView chunk := by
  have hconsistent := hsound.consistent
  have hpooled : ∀ id ∈ listing, m.transactionPool.has id = true := fun id hid =>
    (@BookedPool.candidateOf_isSome m.transactionPool witnessOf id ((hlisting id).mp hid)).1
  have hsub : (m.transactionPool.candidates witnessOf accepted listing).Sublist
      (listing.filterMap (m.transactionPool.candidateOf witnessOf)) :=
    filter_sublist.filterMap _
  cases hready : c.isReady with
  | false =>
    -- a batch that is not looked at passes only if it is empty
    have hempty : listing.filterMap (m.transactionPool.candidateOf witnessOf) = [] := by
      by_contra hne
      obtain ⟨mtx, hmtx⟩ := exists_mem_of_ne_nil _ hne
      have herror : (.error notReady : Except TxRuleError Unit) ∈
          (c.validate (listing.filterMap (m.transactionPool.candidateOf witnessOf))).2 := by
        rw [Consensus.validate, validateMempoolTransactionsInParallel, if_pos hready]
        exact mem_map.mpr ⟨mtx, hmtx, rfl⟩
      cases htogether _ herror
    have hnone : m.transactionPool.candidates witnessOf accepted listing = [] :=
      sublist_nil.mp (hempty ▸ hsub)
    rw [revalidateHighPriorityTransactions, hnone]
    constructor
    · intro _ chunk hchunk
      cases hchunk
    · exact fun _ => hpooled
  | true =>
    obtain ⟨hids, hdisjoint⟩ :=
      BookedPool.filterMap_candidateOf_spec hconsistent hnodup
    have hall : SoundChunk c (listing.filterMap (m.transactionPool.candidateOf witnessOf)) := by
      refine ⟨hids, hdisjoint, fun mtx hmtx => ?_⟩
      apply judge_ok_of_results hids hdisjoint _ hmtx
      rw [Consensus.validate, hready] at htogether
      exact htogether
    have hchunks := hall.sublist hsub
    have hiff : (∀ p ∈ chunkResults c maximumMass
          (m.transactionPool.candidates witnessOf accepted listing), p.2 = .ok ()) ↔
        ∀ chunk ∈ transactionChunks maximumMass
          (m.transactionPool.candidates witnessOf accepted listing),
          BatchApplies c.blake2b c.params c.rules c.virtualState c.utxoView chunk := by
      rw [chunkResults, forall_mem_flatMap]
      apply forall₂_congr
      intro chunk hchunk
      apply SoundChunk.results_ok_iff _ hready
      apply hchunks.sublist
      rw [← flatten_transactionChunks maximumMass
        (m.transactionPool.candidates witnessOf accepted listing)]
      exact sublist_flatten_of_mem hchunk
    -- a result is about a listed transaction, which is priced
    have hresult : ∀ p ∈ chunkResults c maximumMass
        (m.transactionPool.candidates witnessOf accepted listing),
        p.1.id ∈ listing ∧ Priced p.1 := by
      intro p hp
      obtain ⟨mtx, hmtx, heq⟩ := mem_chunkResults hchunks hready hp
      obtain ⟨id, hid, hof⟩ := mem_filterMap.mp (hsub.subset hmtx)
      obtain ⟨hmtxid, -, booking, hbooking, hmass⟩ := candidateOf_eq_some hconsistent hof
      obtain ⟨key, hkey⟩ := hchunks.judged mtx hmtx
      obtain ⟨hfee, ptx, hoverallmass⟩ := judge_ok_spec hkey
      obtain ⟨compute, hcompute, hpos⟩ := hcompute id booking hbooking
      rw [heq, judge_id, hmtxid]
      refine ⟨hid, hfee, ?_⟩
      rw [hmass, hcompute] at hoverallmass
      have hle := hoverall ptx mtx.witness compute _ hoverallmass
      omega
    rw [← hiff]
    constructor
    · intro hkept
      by_contra hbad
      push Not at hbad
      obtain ⟨p, hp, hgone⟩ := foldl_settle_removes (fun p hp => (hresult p hp).2)
        hconsistent.workable (fun p hp => hpooled _ (hresult p hp).1)
        (fun p hp horphan => by
          have hpool := hpooled _ (hresult p hp).1
          rw [hsound.apart _ horphan] at hpool
          cases hpool) hbad
      have hhas := hkept p.1.id (hresult p hp).1
      rw [revalidateHighPriorityTransactions, show _ = false from hgone] at hhas
      cases hhas
    · intro hok id hid
      rw [revalidateHighPriorityTransactions, foldl_settle_has hok]
      exact hpooled id hid

section Samples

open Transition AtomicConsensusState Processor

/-- The checks that an addition relies on. -/
def addable (pool : BookedPool) (vtx : ValidatedTransaction) : Bool := vtx.isVerifiable &&
  ((vtx.tx.inputs.zip vtx.entries).all fun spent =>
    !pool.has spent.1.previousOutpoint.transactionId ||
      decide (spent.2 = pool.createdEntry spent.1.previousOutpoint)) &&
  decide (vtx.mass ≠ 0) &&
  (vtx.tx.spentOutpoints.all fun o => decide (pool.utxoSet.outpointOwnerId.lookup o = none)) &&
  decide (∀ o ∈ pool.utxoSet.outpointOwnerId.keys, o.transactionId ≠ vtx.id) &&
  (vtx.tx.inputs.all fun input => decide (input.previousOutpoint.transactionId ≠ vtx.id)) &&
  decide (vtx.Scripted fun _ => keyScript)

def addAll : List (ValidatedTransaction × Priority) → BookedPool → Except PoolError BookedPool
  | [], pool => .ok pool
  | (vtx, priority) :: rest, pool =>
    if addable pool vtx then
      match pool.addMempoolTransaction zeroHash vtx priority 0
          (unitEstimate vtx.toMutableTransaction) with
      | .ok pool => addAll rest pool
      | .error e => .error e
    else .error .panicked

theorem admissible_of_addable {pool : BookedPool} (h : pool.Consistent unitEstimate)
    (hadd : addable pool vtx = true) :
    pool.Admissible vtx ∧ vtx.Scripted fun _ => keyScript := by
  simp only [addable, Bool.and_eq_true, List.all_eq_true, Bool.or_eq_true, Bool.not_eq_true',
    decide_eq_true_eq] at hadd
  obtain ⟨⟨⟨⟨⟨⟨hfull, hentries⟩, hmass⟩, hinputs⟩, houtputs⟩, hself⟩, hscripted⟩ := hadd
  refine ⟨h.admissible ?_ hmass hinputs houtputs hself, hscripted⟩
  refine ⟨hfull, fun spent hspent hhas => ?_⟩
  rcases hentries spent hspent with hno | heq
  · rw [hhas] at hno
    cases hno
  · exact heq

theorem addAll_reached {txs : List (ValidatedTransaction × Priority)} {pool pool' : BookedPool}
    (h : Reaches zeroHash unitEstimate (·.Scripted fun _ => keyScript) ⟨pool, noOrphans⟩)
    (hadd : addAll txs pool = .ok pool') :
    Reaches zeroHash unitEstimate (·.Scripted fun _ => keyScript) ⟨pool', noOrphans⟩ := by
  induction txs generalizing pool with
  | nil =>
    obtain rfl := Except.ok.inj hadd
    exact h
  | cons p txs ih =>
    obtain ⟨vtx, priority⟩ := p
    rw [addAll] at hadd
    split at hadd
    · rename_i haddable
      obtain ⟨hadmissible, hscripted⟩ := admissible_of_addable h.consistent haddable
      split at hadd
      · rename_i next hnext
        exact ih (.add vtx priority 0 h hscripted hadmissible hnext) hadd
      · cases hadd
    · cases hadd

def sixOutputs : UtxoCollection :=
  (∅ : UtxoCollection).applyTransaction (rewardTx 200 (List.replicate 6 ⟨1000000, keyScript⟩)) 1

/-- The creation of an asset with the given nonce of its owner. -/
def creationWithNonce (nonce : UInt8) (id : Bytes32) (spent : TransactionOutpoint) : Transaction where
  id
  inputs := [⟨spent⟩]
  outputs := [⟨1000, keyScript⟩]
  subnetworkId := subnetworkIdPayload
  payload := [67, 65, 84, 1, 0, 0, 0, 0, nonce, 0, 0, 0, 0, 0, 0, 0] ++ [1, 0, 0] ++
    toLeBytes 16 0 ++ List.replicate 32 5 ++ [1, 1, 0, 0, 65, 65, 0]

/-- A stored transaction of the largest standard mass that spends one of the outputs. -/
def storedTx (tx : Transaction) : ValidatedTransaction where
  tx
  entries := tx.inputs.map fun _ => some ⟨1000000, keyScript, 1, true⟩
  aligned := (length_map _).symm
  calculatedFee := some 999000
  calculatedComputeMass := some 100000
  mass := 100000

/-- Two creations of one owner with four payments between them. -/
def chainTxs : List (ValidatedTransaction × Priority) :=
  [(storedTx (creationWithNonce 1 (sampleId 11) ⟨sampleId 200, 0⟩), .high),
    (storedTx (nativeTx (sampleId 12) ⟨sampleId 200, 1⟩ keyScript), .high),
    (storedTx (nativeTx (sampleId 13) ⟨sampleId 200, 2⟩ keyScript), .high),
    (storedTx (nativeTx (sampleId 14) ⟨sampleId 200, 3⟩ keyScript), .high),
    (storedTx (nativeTx (sampleId 15) ⟨sampleId 200, 4⟩ keyScript), .high),
    (storedTx (creationWithNonce 2 (sampleId 16) ⟨sampleId 200, 5⟩), .low)]

def chainState : BookedState := ⟨((addAll chainTxs .empty).toOption.getD .empty), noOrphans⟩

def chainListing : List Bytes32 := [sampleId 11, sampleId 12, sampleId 13, sampleId 14, sampleId 15,
  sampleId 16]

def sampleConsensus : Consensus where
  blake2b := zeroHash
  params := sampleParams
  rules := sampleRules
  virtualState := ⟨3, 0, .default⟩
  utxoView := sixOutputs.lookup
  isReady := true

def unlocked (_ : Bytes32) : TxWitness := ⟨[sequenceLockTimeDisabled], [], [], 0⟩

theorem chainState_eq : addAll chainTxs .empty = .ok chainState.transactionPool := by
  have hok : (addAll chainTxs .empty).isOk = true := by decide +kernel
  rw [chainState]
  cases hadd : addAll chainTxs .empty with
  | ok => rfl
  | error =>
    rw [hadd] at hok
    cases hok

theorem chainState_sound : chainState.Sound zeroHash unitEstimate :=
  sound_of_reaches (addAll_reached (.start noOrphans) chainState_eq)

theorem chainListing_spec (id : Bytes32) :
    id ∈ chainListing ↔ chainState.transactionPool.needsRevalidation id = true := by
  constructor
  · have hall : ∀ id ∈ chainListing, chainState.transactionPool.needsRevalidation id = true := by
      decide +kernel
    exact hall id
  · intro hid
    have hkeys : ∀ id ∈ chainState.transactionPool.all.keys, id ∈ chainListing := by
      decide +kernel
    apply hkeys
    have hhas := (@BookedPool.candidateOf_isSome _ unlocked id hid).1
    rw [Finmap.mem_keys]
    exact Finmap.lookup_isSome.mp hhas

/-- Together the two creations pass; the second one is removed nevertheless, because it is
validated in a chunk of its own. -/
theorem second_creation_removed : chainState.Sound zeroHash unitEstimate ∧
    (∀ id, id ∈ chainListing ↔ chainState.transactionPool.needsRevalidation id = true) ∧
    (sampleConsensus.validate (chainListing.filterMap
      (chainState.transactionPool.candidateOf unlocked))).2 = List.replicate 6 (.ok ()) ∧
    sampleId 16 ∈ chainListing ∧
    (revalidateHighPriorityTransactions unitEstimate sampleConsensus 500000 unlocked (fun _ => false)
      chainListing chainState).transactionPool.has (sampleId 16) = false :=
  ⟨chainState_sound, chainListing_spec, by decide +kernel, by decide, by decide +kernel⟩

/-- With room for all of them in one chunk nothing is removed. -/
theorem chain_kept_iff :
    (∀ id ∈ chainListing, (revalidateHighPriorityTransactions unitEstimate sampleConsensus 1000000
      unlocked (fun _ => false) chainListing chainState).transactionPool.has id = true) ↔
    ∀ chunk ∈ transactionChunks 1000000
        (chainState.transactionPool.candidates unlocked (fun _ => false) chainListing),
      BatchApplies zeroHash sampleParams sampleRules ⟨3, 0, .default⟩ sixOutputs.lookup chunk := by
  apply revalidation_keeps_iff unitEstimate sampleConsensus 1000000 unlocked (fun _ => false)
    chainState chainListing chainState_sound (by decide +kernel) chainListing_spec
  · intro id booking hbooking
    have hall : ∀ id ∈ chainState.transactionPool.books.keys,
        (chainState.transactionPool.books.lookup id).any
          (fun booking => booking.calculatedComputeMass.any (0 < ·)) = true := by
      decide +kernel
    have hmem : id ∈ chainState.transactionPool.books.keys := by
      rw [Finmap.mem_keys, ← Finmap.lookup_isSome, hbooking]
      rfl
    have hany := hall id hmem
    rw [hbooking, Option.any_some, Option.any_eq_true] at hany
    obtain ⟨mass, hmass, hpos⟩ := hany
    exact ⟨mass, hmass, of_decide_eq_true hpos⟩
  · intro ptx witness compute mass hmass
    exact (some.inj hmass).le
  · decide +kernel

end Samples

end BookedState

end CryptixAtomic.Mempool
