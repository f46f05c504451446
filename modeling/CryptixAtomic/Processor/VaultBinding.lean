import CryptixAtomic.Processor.MergesetRuns

/-!
# Vaults along a chain

A chain of mergesets that starts without pools and without vault outputs keeps the two
stores bound to each other: pools own their vault outputs, one each, and the funds of a
pool move only with a buy, sell or claim of that pool.
-/
namespace CryptixAtomic.Processor

open Foundation Transition

/-- No pool is known, none is listed, and no unspent output has the vault script. -/
structure Poolless (j : JointState) : Prop where
  standard : ∀ assetId a, j.atomic.assetOption assetId = some a →
    a.assetClass ≠ .liquidity ∧ a.liquidity = none
  unlisted : ∀ o, j.atomic.vaultOption o = none
  noVault : ∀ o e, j.utxo.lookup o = some e → isVaultScript e.scriptPublicKey = false

/-- Every pool owns an unspent vault output with its funds, no two pools share one, and
every vault output of an ordinary transaction has exactly one owner. -/
structure VaultsBound (j : JointState) : Prop where
  vault : ∀ assetId p, j.atomic.pool assetId = some p →
    ∃ e, j.utxo.lookup p.vaultOutpoint = some e ∧ isVaultScript e.scriptPublicKey = true ∧
      e.amount = p.vaultValueSompi
  distinct : ∀ a b p q, j.atomic.pool a = some p → j.atomic.pool b = some q → a ≠ b →
    p.vaultOutpoint ≠ q.vaultOutpoint
  owned : ∀ o e, j.utxo.lookup o = some e → isVaultScript e.scriptPublicKey = true →
    e.isCoinbase = false →
    ∃! assetId, ∃ p, j.atomic.pool assetId = some p ∧ p.vaultOutpoint = o

/-- Every vault of a pool that the transaction spends is that of the pool it trades
with or claims from. -/
def SpendsOwnPool (blake2b : Blake2b) (params : AtomicParams) (j : JointState) (x : TxContext) :
    Prop :=
  ∀ assetId p, j.atomic.pool assetId = some p → p.vaultOutpoint ∈ x.ptx.tx.spentOutpoints →
    ∃ payload, authorizedPayload blake2b params x = some payload ∧
      payload.1.op.poolSlot? = some (assetId, p.poolNonce)

variable {j : JointState}

theorem Poolless.pool_eq_none (h : Poolless j) (assetId : Bytes32) :
    j.atomic.pool assetId = none := by
  cases hasset : j.atomic.assetOption assetId with
  | none => simp [AtomicConsensusState.pool, hasset]
  | some a => simp [AtomicConsensusState.pool, hasset, (h.standard assetId a hasset).2]

theorem Poolless.bound (h : Poolless j) : Bound j := by
  have hslot : ∀ assetId, j.atomic.content.ledger.slotOf AtomicAssetState.vaultOutpoint assetId =
      none := by
    intro assetId
    rw [Indexed.slotOf]
    change (j.atomic.assetOption assetId).bind _ = _
    cases hasset : j.atomic.assetOption assetId with
    | none => rfl
    | some a =>
      rw [Option.bind_some, AtomicAssetState.vaultOutpoint, if_neg (h.standard assetId a hasset).1]
  constructor
  · constructor
    · intro assetId a ha
      simp [AtomicAssetState.ClassConsistent, h.standard assetId a ha]
    · intro assetId a p ha hp
      rw [(h.standard assetId a ha).2] at hp
      cases hp
  · intro o assetId
    rw [hslot]
    change j.atomic.vaultOption o = some assetId ↔ _
    simp [h.unlisted o]
  · intro assetId p hp
    rw [h.pool_eq_none] at hp
    cases hp
  · intro o e he hscript
    rw [h.noVault o e he] at hscript
    cases hscript

theorem Bound.vaultsBound (h : Bound j) : VaultsBound j := by
  constructor
  · intro assetId p hp
    obtain ⟨e, he, hscript, hamount, -⟩ := h.vault assetId p hp
    exact ⟨e, he, hscript, hamount⟩
  · intro a b p q hp hq hne heq
    exact hne (h.vault_unique hp hq heq)
  · intro o e he hscript hplain
    obtain ⟨assetId, p, hp, hat⟩ := h.owned o e he hscript hplain
    refine ⟨assetId, ⟨p, hp, hat⟩, ?_⟩
    rintro other ⟨q, hq, hat'⟩
    exact h.vault_unique hq hp (hat'.trans hat.symm)

variable {blake2b : Blake2b} {params : AtomicParams} {v : ValidatorParams}

/-- Along every chain from a state without pools and vault outputs the vaults stay
bound, before and after each accepted transaction, and only a buy, sell or claim
spends the vault of a pool, namely its own. -/
theorem vaults_bound_along_chain {j : JointState} {past : List Transaction}
    {chain : List ChainBlock} (hstart : Poolless j) (hhistory : History past j.utxo)
    (hchain : ChainOk past chain) :
    ∃ l events, advanceAll blake2b params v j chain = .ok l ∧
      ChainRun blake2b params v j chain l events ∧ VaultsBound l ∧
      ∀ before x after, events = before ++ .accepted x :: after →
        ∃ k k', JointRun blake2b params j before k ∧
          JointStep blake2b params k (.accepted x) k' ∧
          JointRun blake2b params k' after l ∧
          VaultsBound k ∧ VaultsBound k' ∧ SpendsOwnPool blake2b params k x := by
  have hbound := hstart.bound
  obtain ⟨l, events, -, hrun, hfinal, -⟩ :=
    exists_chainRun hbound hhistory hchain
  refine ⟨l, events, hrun.advanceAll, hrun, hfinal.vaultsBound, ?_⟩
  rintro before x after rfl
  obtain ⟨k, k', hbefore, hstep, hafter⟩ := hrun.jointRun.split
  have hk := hbound.run hbefore
  refine ⟨k, k', hbefore, hstep, hafter, hk.vaultsBound, (hk.step hstep).vaultsBound, ?_⟩
  intro assetId p hp hspent
  cases hstep with
  | accepted plain unspent distinct fresh accepts => exact hk.spender accepts unspent hp hspent

open AtomicConsensusState in
/-- A chain that creates a pool, from genesis. -/
theorem poolChain_vaults_bound :
    ∃ l, advanceAll zeroHash sampleParams sampleValidator ⟨∅, default⟩ poolChain = .ok l ∧
      (l.atomic.pool (sampleId 7)).isSome ∧ VaultsBound l := by
  have hstart : Poolless ⟨∅, default⟩ := by
    constructor
    · intro assetId a ha
      cases ha
    · intro o
      rfl
    · intro o e he
      cases he
  obtain ⟨l, -, hl, -, hbound, -⟩ := @vaults_bound_along_chain zeroHash sampleParams
    sampleValidator ⟨∅, default⟩ [] poolChain hstart History.empty poolChain_ok
  have hpool : ((advanceAll zeroHash sampleParams sampleValidator ⟨∅, default⟩ poolChain).toOption.bind
      fun l => l.atomic.pool (sampleId 7)).isSome = true := by decide +kernel
  rw [hl] at hpool
  exact ⟨l, hl, hpool, hbound⟩

end CryptixAtomic.Processor
