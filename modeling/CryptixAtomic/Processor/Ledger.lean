import CryptixAtomic.Chain.Utxo
import CryptixAtomic.Transition.Vaults

/-!
# The UTXO set and the token state together

A `JointStep` changes both stores: the coinbase of a selected parent, an accepted
transaction, or the start of delta tracking for the next block. Transactions spend distinct
unspent outputs and their own outpoints are new.

`Bound` ties the stores together: every pool owns one unspent vault output, and every vault
output that no coinbase made is owned.
-/
namespace CryptixAtomic.Processor

open Foundation Transition List Option FMap Function

structure JointState where
  utxo : UtxoCollection
  atomic : AtomicConsensusState

inductive JointEvent
  | newBlock
  | coinbase (tx : Transaction) (daaScore : ℕ)
  | accepted (x : TxContext)

section Steps

variable (blake2b : Blake2b) (params : AtomicParams)

inductive JointStep : JointState → JointEvent → JointState → Prop
  | newBlock (j : JointState) :
      JointStep j .newBlock ⟨j.utxo, j.atomic.beginDeltaTracking⟩
  | coinbase {j : JointState} {tx : Transaction} {daaScore : ℕ}
      (reward : tx.isCoinbase = true) (noInputs : tx.inputs = [])
      (fresh : ∀ i, j.utxo.lookup (tx.outpoint i) = none) :
      JointStep j (.coinbase tx daaScore) ⟨j.utxo.applyTransaction tx daaScore, j.atomic⟩
  | accepted {j : JointState} {x : TxContext} {t : AtomicConsensusState}
      (plain : x.ptx.tx.isCoinbase = false) (unspent : x.ptx.UnspentIn j.utxo)
      (distinct : x.ptx.tx.spentOutpoints.Nodup)
      (fresh : ∀ i, j.utxo.lookup (x.ptx.tx.outpoint i) = none)
      (accepts : Accepts blake2b params j.atomic x t) :
      JointStep j (.accepted x) ⟨j.utxo.applyTransaction x.ptx.tx x.povDaaScore, t⟩

inductive JointRun : JointState → List JointEvent → JointState → Prop
  | nil (j : JointState) : JointRun j [] j
  | cons {j k l : JointState} {e : JointEvent} {es : List JointEvent}
      (step : JointStep blake2b params j e k) (rest : JointRun k es l) : JointRun j (e :: es) l

end Steps

variable {es : List JointEvent}

section Runs

variable {blake2b : Blake2b} {params : AtomicParams}

theorem JointRun.induct {P : JointState → Prop} {j k : JointState}
    (h : JointRun blake2b params j es k)
    (hstep : ∀ j e k, JointStep blake2b params j e k → P j → P k) (hj : P j) : P k := by
  induction h with
  | nil => exact hj
  | cons step rest ih => exact ih (hstep _ _ _ step hj)

theorem JointRun.append {j k l : JointState} {fs : List JointEvent}
    (h : JointRun blake2b params j es k) (h' : JointRun blake2b params k fs l) :
    JointRun blake2b params j (es ++ fs) l := by
  induction h with
  | nil => exact h'
  | cons step rest ih => exact .cons step (ih h')

theorem JointRun.split {j l : JointState} {fs : List JointEvent} {e : JointEvent}
    (h : JointRun blake2b params j (es ++ e :: fs) l) :
    ∃ k k', JointRun blake2b params j es k ∧ JointStep blake2b params k e k' ∧
      JointRun blake2b params k' fs l := by
  induction es generalizing j with
  | nil =>
    cases h with
    | cons step rest => exact ⟨j, _, .nil j, step, rest⟩
  | cons e' es ih =>
    cases h with
    | cons step rest =>
      obtain ⟨k, k', hfirst, hmid, hlast⟩ := ih rest
      exact ⟨k, k', .cons step hfirst, hmid, hlast⟩

theorem JointStep.unique {j k k' : JointState} {e : JointEvent}
    (h : JointStep blake2b params j e k) (h' : JointStep blake2b params j e k') : k = k' := by
  cases h with
  | newBlock | coinbase =>
    cases h'
    rfl
  | accepted plain unspent distinct fresh accepts =>
    cases h' with
    | accepted plain' unspent' distinct' fresh' accepts' =>
      rw [Accepts, accepts] at accepts'
      cases accepts'
      rfl

theorem JointRun.unique {j k k' : JointState}
    (h : JointRun blake2b params j es k) (h' : JointRun blake2b params j es k') : k = k' := by
  induction h with
  | nil =>
    cases h'
    rfl
  | cons step rest ih =>
    cases h' with
    | cons step' rest' =>
      obtain rfl := step.unique step'
      exact ih rest'

end Runs

section Lookups

variable {utxo : UtxoCollection} {tx : Transaction} {daaScore : ℕ}
variable {o : TransactionOutpoint}

theorem lookup_apply_of_kept (hfresh : ∀ i, utxo.lookup (tx.outpoint i) = none)
    {e : UtxoEntry} (ho : utxo.lookup o = some e) (hspent : o ∉ tx.spentOutpoints) :
    (utxo.applyTransaction tx daaScore).lookup o = some e := by
  have hcreated : o ∉ (tx.createdEntries daaScore).map Prod.fst := by
    intro hmem
    obtain ⟨e', he', rfl⟩ := mem_map.mp hmem
    obtain ⟨i, hi⟩ := tx.createdEntries_outpoint daaScore he'
    rw [hi, hfresh i] at ho
    cases ho
  rw [UtxoCollection.applyTransaction, lookup_insertAll_of_notMem _ hcreated,
    lookup_eraseAll, if_neg hspent, ho]

theorem lookup_apply_of_output {i : ℕ} {output : TransactionOutput}
    (h : tx.outputs[i]? = some output) :
    (utxo.applyTransaction tx daaScore).lookup (tx.outpoint i) =
      some ⟨output.value, output.scriptPublicKey, daaScore, tx.isCoinbase⟩ :=
  lookup_insertAll_of_mem _ (tx.nodup_createdEntries daaScore)
    ((tx.mem_createdEntries daaScore).mpr ⟨i, output, h, rfl⟩)

theorem lookup_apply_cases {e : UtxoEntry}
    (h : (utxo.applyTransaction tx daaScore).lookup o = some e) :
    (∃ i output, tx.outputs[i]? = some output ∧ o = tx.outpoint i ∧
      e = ⟨output.value, output.scriptPublicKey, daaScore, tx.isCoinbase⟩) ∨
    o ∉ tx.spentOutpoints ∧ utxo.lookup o = some e := by
  rcases lookup_insertAll_cases _ (tx.nodup_createdEntries daaScore) h with hnew | ⟨-, hold⟩
  · obtain ⟨i, output, houtput, he⟩ := (tx.mem_createdEntries daaScore).mp hnew
    obtain ⟨rfl, rfl⟩ := Prod.mk.inj he
    exact .inl ⟨i, output, houtput, rfl, rfl⟩
  · rw [lookup_eraseAll] at hold
    split_ifs at hold with hspent
    exact .inr ⟨hspent, hold⟩

variable {ptx : PopulatedTransaction}

theorem exists_populated (h : o ∈ ptx.tx.spentOutpoints) :
    ∃ p ∈ ptx.populatedInputs, p.1.previousOutpoint = o := by
  obtain ⟨input, hinput, rfl⟩ := mem_map.mp h
  have hfst : ptx.populatedInputs.map Prod.fst = ptx.tx.inputs :=
    map_fst_zip (le_of_eq ptx.aligned)
  rw [← hfst] at hinput
  obtain ⟨p, hp, rfl⟩ := mem_map.mp hinput
  exact ⟨p, hp, rfl⟩

theorem mem_spentOutpoints {p : TransactionInput × UtxoEntry}
    (h : p ∈ ptx.populatedInputs) : p.1.previousOutpoint ∈ ptx.tx.spentOutpoints :=
  mem_map_of_mem (of_mem_zip h).1

end Lookups

/-- Pools and vault outputs belong together. -/
structure Bound (j : JointState) : Prop where
  valid : PoolsValid j.atomic.assetOption
  coherent : j.atomic.content.Coherent
  vault : ∀ assetId p, j.atomic.pool assetId = some p →
    ∃ e, j.utxo.lookup p.vaultOutpoint = some e ∧ isVaultScript e.scriptPublicKey = true ∧
      e.amount = p.vaultValueSompi ∧ e.isCoinbase = false
  owned : ∀ o e, j.utxo.lookup o = some e → isVaultScript e.scriptPublicKey = true →
    e.isCoinbase = false → ∃ assetId p, j.atomic.pool assetId = some p ∧ p.vaultOutpoint = o

namespace Bound

theorem genesis : Bound ⟨∅, .default⟩ := by
  constructor
  · exact poolsValid_of_empty fun assetId => rfl
  · intro o assetId
    constructor
    · intro h
      cases h
    · intro h
      cases h
  · intro assetId p hp
    cases hp
  · intro o e he
    cases he

variable {j : JointState}
variable {assetId : Bytes32} {p : AtomicLiquidityPoolState}

theorem slotOf_of_pool (h : Bound j) (hp : j.atomic.pool assetId = some p) :
    j.atomic.content.ledger.slotOf AtomicAssetState.vaultOutpoint assetId =
      some p.vaultOutpoint := by
  obtain ⟨a, ha, hliquidity⟩ := pool_eq_some.mp hp
  have hconsistent := h.valid.consistent assetId a ha
  rw [Indexed.slotOf]
  change (j.atomic.assetOption assetId).bind _ = _
  rw [ha, bind_some, ← hconsistent.poolOutpoint_eq, AtomicAssetState.poolOutpoint,
    hliquidity, map_some]

theorem vault_unique (h : Bound j) {a b : Bytes32} {p q : AtomicLiquidityPoolState}
    (hp : j.atomic.pool a = some p) (hq : j.atomic.pool b = some q)
    (heq : p.vaultOutpoint = q.vaultOutpoint) : a = b := by
  have hslot := h.slotOf_of_pool hp
  rw [heq] at hslot
  exact h.coherent.unique hslot (h.slotOf_of_pool hq)

theorem unlisted (h : Bound j) {o : TransactionOutpoint} (ho : j.utxo.lookup o = none) :
    j.atomic.vaultOption o = none := by
  cases hlisted : j.atomic.vaultOption o with
  | none => rfl
  | some assetId =>
    have hslot := (h.coherent o assetId).mp hlisted
    obtain ⟨a, ha, hvault⟩ := bind_eq_some_iff.mp hslot
    rw [← (h.valid.consistent assetId a ha).poolOutpoint_eq] at hvault
    obtain ⟨p, hp, rfl⟩ := map_eq_some_iff.mp hvault
    obtain ⟨e, he, -⟩ := h.vault assetId p (pool_eq_some.mpr ⟨a, ha, hp⟩)
    rw [ho] at he
    cases he

variable {blake2b : Blake2b} {params : AtomicParams}

theorem not_spent (h : Bound j) {x : TxContext} (hp : j.atomic.pool assetId = some p)
    (unspent : x.ptx.UnspentIn j.utxo)
    (hother : ∀ q ∈ x.ptx.populatedInputs, isVaultScript q.2.scriptPublicKey = true →
      q.1.previousOutpoint ≠ p.vaultOutpoint) :
    p.vaultOutpoint ∉ x.ptx.tx.spentOutpoints := by
  intro hspent
  obtain ⟨q, hq, hqo⟩ := exists_populated hspent
  obtain ⟨e, he, hscript, -⟩ := h.vault assetId p hp
  have hentry := unspent q hq
  rw [hqo, he] at hentry
  rw [some.inj hentry] at hscript
  exact hother q hq hscript hqo

theorem spender (h : Bound j) {x : TxContext} {t : AtomicConsensusState}
    (accepts : Accepts blake2b params j.atomic x t)
    (unspent : x.ptx.UnspentIn j.utxo)
    (hp : j.atomic.pool assetId = some p) (hspent : p.vaultOutpoint ∈ x.ptx.tx.spentOutpoints) :
    ∃ payload, authorizedPayload blake2b params x = some payload ∧
      payload.1.op.poolSlot? = some (assetId, p.poolNonce) := by
  obtain ⟨q, hq, hqo⟩ := exists_populated hspent
  obtain ⟨e, he, hscript, -⟩ := h.vault assetId p hp
  have hentry := unspent q hq
  rw [hqo, he] at hentry
  rw [some.inj hentry] at hscript
  cases accepts.vaultStep with
  | apart noInput | created noInput =>
    rw [noInput q hq] at hscript
    cases hscript
  | @moved id old pool index payload authorized slot known input =>
    have hsame : p.vaultOutpoint = old.vaultOutpoint := hqo.symm.trans (input.only q hq hscript)
    obtain rfl := h.vault_unique hp known hsame
    obtain rfl := some.inj (hp.symm.trans known)
    exact ⟨payload, authorized, slot⟩

theorem coinbase (h : Bound j) {tx : Transaction} {daaScore : ℕ} (reward : tx.isCoinbase = true)
    (noInputs : tx.inputs = []) (fresh : ∀ i, j.utxo.lookup (tx.outpoint i) = none) :
    Bound ⟨j.utxo.applyTransaction tx daaScore, j.atomic⟩ := by
  have hspent : tx.spentOutpoints = [] := by simp [Transaction.spentOutpoints, noInputs]
  refine ⟨h.valid, h.coherent, ?_, ?_⟩
  · intro assetId p hp
    obtain ⟨e, he, hrest⟩ := h.vault assetId p hp
    exact ⟨e, lookup_apply_of_kept fresh he (by simp [hspent]), hrest⟩
  · intro o e he hscript hplain
    rcases lookup_apply_cases he with ⟨i, output, -, -, rfl⟩ | ⟨-, hold⟩
    · rw [reward] at hplain
      cases hplain
    · exact h.owned o e hold hscript hplain

theorem accepted (h : Bound j) {x : TxContext} {t : AtomicConsensusState}
    (plain : x.ptx.tx.isCoinbase = false)
    (unspent : x.ptx.UnspentIn j.utxo)
    (fresh : ∀ i, j.utxo.lookup (x.ptx.tx.outpoint i) = none)
    (accepts : Accepts blake2b params j.atomic x t) :
    Bound ⟨j.utxo.applyTransaction x.ptx.tx x.povDaaScore, t⟩ := by
  have hcoherent := accepts.coherent h.valid h.coherent fun i => h.unlisted (fresh i)
  refine ⟨accepts.poolsValid h.valid, hcoherent, ?_, ?_⟩
  · intro assetId p hp
    -- a pool that is not moved keeps its vault, and a pool at an output gets it
    have hstep : (∃ index, IsOnlyVaultOutput x.ptx.tx.outputs index p.vaultValueSompi ∧
        p.vaultOutpoint = x.ptx.tx.outpoint index) ∨
        j.atomic.pool assetId = some p ∧ ∀ q ∈ x.ptx.populatedInputs,
          isVaultScript q.2.scriptPublicKey = true → q.1.previousOutpoint ≠ p.vaultOutpoint := by
      cases accepts.vaultStep with
      | apart noInput noOutput pools =>
        rw [pools] at hp
        exact .inr ⟨hp, fun q hq hscript => absurd hscript (by simp [noInput q hq])⟩
      | @created pool index noInput output fresh' pools outpoint =>
        rw [pools, update_apply] at hp
        split_ifs at hp with hid
        · obtain rfl := some.inj hp
          exact .inl ⟨index, output, outpoint⟩
        · exact .inr ⟨hp, fun q hq hscript => absurd hscript (by simp [noInput q hq])⟩
      | @moved id old pool index payload authorized slot known input output pools outpoint =>
        rw [pools, update_apply] at hp
        split_ifs at hp with hid
        · obtain rfl := some.inj hp
          exact .inl ⟨index, output, outpoint⟩
        · refine .inr ⟨hp, fun q hq hscript hat => ?_⟩
          rw [input.only q hq hscript] at hat
          exact hid (h.vault_unique hp known hat.symm)
    rcases hstep with ⟨index, output, outpoint⟩ | ⟨hold, hother⟩
    · obtain ⟨out, hout, hscript, hvalue⟩ := output.found
      rw [outpoint, lookup_apply_of_output hout]
      exact ⟨_, rfl, hscript, hvalue, plain⟩
    · obtain ⟨e, he, hrest⟩ := h.vault assetId p hold
      exact ⟨e, lookup_apply_of_kept fresh he (h.not_spent hold unspent hother), hrest⟩
  · intro o e he hscript hplain
    rcases lookup_apply_cases he with ⟨i, out, hout, rfl, rfl⟩ | ⟨hspent, hold⟩
    · cases accepts.vaultStep with
      | apart noInput noOutput =>
        rw [noOutput out (mem_of_getElem? hout)] at hscript
        cases hscript
      | @created pool index noInput output fresh' pools outpoint =>
        refine ⟨x.ptx.tx.id, pool, ?_, ?_⟩
        · rw [pools, update_self]
        · rw [outpoint, output.only i out hout hscript]
      | @moved id old pool index payload authorized slot known input output pools outpoint =>
        refine ⟨id, pool, ?_, ?_⟩
        · rw [pools, update_self]
        · rw [outpoint, output.only i out hout hscript]
    · obtain ⟨assetId, p, hp, hat⟩ := h.owned o e hold hscript hplain
      refine ⟨assetId, p, ?_, hat⟩
      cases accepts.vaultStep with
      | apart noInput noOutput pools => rw [pools, hp]
      | @created pool index noInput output fresh' pools =>
        have hid : assetId ≠ x.ptx.tx.id := by
          rintro rfl
          rw [fresh'] at hp
          cases hp
        rw [pools, update_of_ne hid, hp]
      | @moved id old pool index payload authorized slot known input output pools =>
        have hid : assetId ≠ id := by
          rintro rfl
          obtain rfl := some.inj (hp.symm.trans known)
          -- the old vault of a moved pool is spent
          obtain ⟨q, hq, -, hqo⟩ := input.found
          rw [← hat, ← hqo] at hspent
          exact hspent (mem_spentOutpoints hq)
        rw [pools, update_of_ne hid, hp]

theorem step (h : Bound j) {e : JointEvent} {k : JointState}
    (hstep : JointStep blake2b params j e k) : Bound k := by
  cases hstep with
  | newBlock => exact ⟨h.valid, h.coherent, h.vault, h.owned⟩
  | coinbase reward noInputs fresh => exact h.coinbase reward noInputs fresh
  | accepted plain unspent distinct fresh accepts => exact h.accepted plain unspent fresh accepts

theorem run (h : Bound j) {k : JointState} (hrun : JointRun blake2b params j es k) : Bound k :=
  hrun.induct (fun _ _ _ step hj => hj.step step) h

end Bound

end CryptixAtomic.Processor
