import CryptixAtomic.Transition.Failure
import CryptixAtomic.Transition.Growth
import CryptixAtomic.Transition.Vaults

/-!
# Only the content of a state matters

A state may be held in memory or lie over a store, and may keep a record of its changes. As long
as its vault index is exact, the token rules see nothing but its content: a transaction has the
same outcome in two states of equal content, and leaves two such states.
-/
namespace CryptixAtomic

open Foundation List

namespace AtomicConsensusState

variable {s : AtomicConsensusState} {o : TransactionOutpoint}

theorem confirmVault_eq (hcoh : s.content.Coherent) {assetId : Bytes32}
    (h : s.vaultOption o = some assetId) : s.confirmVault o assetId = .ok (some assetId) := by
  obtain ⟨asset, hasset, hvault⟩ := Option.bind_eq_some_iff.mp ((hcoh o assetId).mp h)
  unfold AtomicAssetState.vaultOutpoint at hvault
  split_ifs at hvault with hclass
  obtain ⟨pool, hpool, hat⟩ := Option.map_eq_some_iff.mp hvault
  have hread : s.clonedAsset assetId = some asset := hasset
  simp [confirmVault, hread, hpool, hclass, hat, okOr, failIf]

theorem scanVaults_of_unlisted {l : List (Bytes32 × AtomicAssetState)}
    (h : ∀ e ∈ l, e.2.vaultOutpoint ≠ some o) : scanVaults o l none = .ok none := by
  induction l with
  | nil => rfl
  | cons e l ih =>
    rw [forall_mem_cons] at h
    rw [scanVaults, if_neg h.1]
    exact ih h.2

/-- Looking a vault up finds what the index lists, wherever the entry is stored. -/
theorem liquidityAssetByVaultOutpoint_eq (hcoh : s.content.Coherent) :
    s.liquidityAssetByVaultOutpoint o = .ok (s.vaultOption o) := by
  have hread : s.vaultOption o = s.liquidityVaultOutpoints.read _ o := rfl
  unfold liquidityAssetByVaultOutpoint
  cases hlive : s.liquidityVaultOutpoints.live.lookup o with
  | some assetId =>
    rw [Overlay.read_of_live hlive] at hread
    rw [hread]
    exact confirmVault_eq hcoh hread
  | none =>
    rw [Overlay.read, hlive, Option.none_or] at hread
    dsimp only
    split_ifs at hread ⊢ with hmem
    · rw [hread]
    · rw [Option.bind_map] at hread
      cases hstored : s.currentStore.bind fun store => store.vaults.lookup o with
      | some assetId =>
        replace hread := hread.trans hstored
        rw [hread]
        exact confirmVault_eq hcoh hread
      | none =>
        replace hread := hread.trans hstored
        rw [hread]
        apply scanVaults_of_unlisted
        intro e he hvault
        have hasset : s.assetOption e.1 = some e.2 := Overlay.read_of_live (FMap.mem_iter.mp he) _
        have hlisted := (hcoh o e.1).mpr (Option.bind_eq_some_iff.mpr ⟨e.2, hasset, hvault⟩)
        cases hread.symm.trans hlisted

/-- An exact index is determined by the assets. -/
theorem content_eq_of_reads {t : AtomicConsensusState} {c : Content} (hs : s.content.SameReads c)
    (ht : t.content.SameReads c) (hcoh : s.content.Coherent) (hcoh' : t.content.Coherent) :
    s.content = t.content := by
  have htable := hs.table.trans ht.table.symm
  apply Content.ext (hs.nonce.trans ht.nonce.symm) _ (hs.balance.trans ht.balance.symm)
    (hs.anchor.trans ht.anchor.symm)
  apply Indexed.ext htable
  funext o
  apply Option.ext
  intro assetId
  rw [hcoh, hcoh', Indexed.slotOf, Indexed.slotOf, htable]

end AtomicConsensusState

namespace Transition

open AtomicConsensusState

variable {blake2b : Blake2b} {params : AtomicParams} {s s' t : AtomicConsensusState}
  {ptx : PopulatedTransaction} {x : TxContext}

theorem collectSpent_congr (heq : s.content = s'.content) (hcoh : s.content.Coherent)
    (inputs : List (TransactionInput × UtxoEntry)) :
    collectSpentLiquidityVaultInputs s inputs = collectSpentLiquidityVaultInputs s' inputs := by
  have hvaults : s.vaultOption = s'.vaultOption := congrArg (·.ledger.index) heq
  induction inputs with
  | nil => rfl
  | cons p inputs ih =>
    simp only [collectSpentLiquidityVaultInputs, ih, liquidityAssetByVaultOutpoint_eq hcoh,
      liquidityAssetByVaultOutpoint_eq (heq ▸ hcoh), hvaults]

theorem admitPayload_congr (heq : s.content = s'.content)
    (spent : List (Bytes32 × TransactionOutpoint)) (parsed : ParsedAtomicPayload) :
    admitPayload blake2b s ptx spent parsed = admitPayload blake2b s' ptx spent parsed := by
  have hnonces : s.nonceOption = s'.nonceOption := congrArg Content.nonce heq
  have hanchors : s.anchorCountOption = s'.anchorCountOption := congrArg Content.anchor heq
  unfold admitPayload validateReplacementAnchor nextNonce anchorCount
  rw [hnonces, hanchors]

theorem opEffect_congr (heq : s.content = s'.content) (ownerId : Bytes32)
    (ctx : AtomicCreationContext) (op : AtomicPayloadOp) :
    opEffect blake2b s ptx ownerId ctx op = opEffect blake2b s' ptx ownerId ctx op := by
  have hassets : s.assetOption = s'.assetOption := congrArg (·.ledger.table) heq
  have hhas : s.hasAsset = s'.hasAsset := by
    unfold hasAsset
    rw [hassets]
  have hbalance : s.balance = s'.balance := by
    unfold balance
    rw [show s.balanceOption = s'.balanceOption from congrArg Content.balance heq]
  cases op <;> simp only [opEffect, createAsset, createAssetWithMint, createLiquidityAsset, launch,
    transfer, mint, burn, buyLiquidityExactIn, sellLiquidityExactIn, claimLiquidityFees, tradedPool,
    clonedAsset] <;>
  first
  | rw [hhas, hbalance]
  | rw [hassets, hbalance]
  | rw [hhas]
  | rw [hassets]

theorem estimate_congr (heq : s.content = s'.content) (povDaaScore : ℕ) :
    estimateAtomicStateGrowthForTx blake2b params ptx povDaaScore s =
      estimateAtomicStateGrowthForTx blake2b params ptx povDaaScore s' := by
  obtain ⟨hnonces, hledger, hbalances, hanchors⟩ := Content.mk.inj heq
  have hassets := (Indexed.mk.inj hledger).1
  unfold estimateAtomicStateGrowthForTx opGrowth hasAsset hasBalance hasNonce hasAnchorCount
  rw [hnonces, hassets, hbalances, hanchors]

/-- Both states are changed by the same calls. -/
theorem exists_calls_of_content (heq : s.content = s'.content) (hcoh : s.content.Coherent)
    (hfresh : ∀ i, s.vaultOption (x.ptx.tx.outpoint i) = none)
    (h : Accepts blake2b params s x t) :
    ∃ calls t', (StateCall.runAll blake2b calls).run s = .ok () t ∧
      (StateCall.runAll blake2b calls).run s' = .ok () t' ∧ Accepts blake2b params s' x t' := by
  have hcounts : ∀ ownerId, s'.anchorCount ownerId = s.anchorCount ownerId := by
    intro ownerId
    rw [anchorCount, anchorCount, show s.anchorCountOption = s'.anchorCountOption from
      congrArg Content.anchor heq]
  simp only [Accepts, validateAndApplyAtomicStateTransition, run_bind_eq_ok, run_get,
    EStateM.Result.ok.injEq, run_pureCheck_eq_ok] at h ⊢
  obtain ⟨_, _, ⟨rfl, rfl⟩, spent, _, ⟨hspent, rfl⟩, payload, _, ⟨hpayload, rfl⟩, h⟩ := h
  rw [collectSpent_congr heq hcoh] at hspent
  cases payload with
  | none =>
    simp only [run_bind_eq_ok, run_pureCheck_eq_ok, run_modify, EStateM.Result.ok.injEq] at h
    obtain ⟨_, _, ⟨hplain, rfl⟩, -, rfl⟩ := h
    refine ⟨anchorCalls blake2b x.ptx s, _, run_anchorCalls blake2b x.ptx fun _ => rfl,
      run_anchorCalls blake2b x.ptx hcounts, _, _, ⟨rfl, rfl⟩, spent, _, ⟨hspent, rfl⟩, none, _,
      ⟨hpayload, rfl⟩, ?_⟩
    simp only [run_bind_eq_ok, run_pureCheck_eq_ok, run_modify, EStateM.Result.ok.injEq]
    exact ⟨(), _, ⟨hplain, rfl⟩, trivial, rfl⟩
  | some parsed =>
    simp only [run_bind_eq_ok, run_pureCheck_eq_ok, applyAtomicOpToState, run_get, run_modify,
      EStateM.Result.ok.injEq] at h
    obtain ⟨a, _, ⟨hallowed, rfl⟩, _, m, ⟨_, _, ⟨rfl, rfl⟩, effect, _, ⟨heffect, rfl⟩, hrun⟩, _, _,
      ⟨-, rfl⟩, -, rfl⟩ := h
    rw [admitPayload_congr heq] at hallowed
    rw [opEffect_congr heq] at heffect
    rw [show s.vaultOption = s'.vaultOption from congrArg (·.ledger.index) heq] at hfresh
    obtain ⟨m', hrun'⟩ := run_effect blake2b
      (vaultFree_of_spec blake2b x.ptx x.ctx (fun i _ => hfresh i) (opEffect_spec heffect))
    refine ⟨_, _, run_tokenCalls blake2b x.ptx a (fun _ => rfl) hrun,
      run_tokenCalls blake2b x.ptx a hcounts hrun', _, _, ⟨rfl, rfl⟩, spent, _, ⟨hspent, rfl⟩,
      some parsed, _, ⟨hpayload, rfl⟩, ?_⟩
    simp only [run_bind_eq_ok, run_pureCheck_eq_ok, applyAtomicOpToState, run_get, run_modify,
      EStateM.Result.ok.injEq]
    exact ⟨a, _, ⟨hallowed, rfl⟩, (), m', ⟨_, _, ⟨rfl, rfl⟩, effect, _, ⟨heffect, rfl⟩, hrun'⟩, (),
      _, ⟨trivial, rfl⟩, trivial, rfl⟩

theorem withGrowth_of_content {growth growth' : AtomicBlockStateGrowth}
    (heq : s.content = s'.content) (hvalid : PoolsValid s.content.ledger.table)
    (hcoh : s.content.Coherent)
    (hfresh : ∀ i, s.content.ledger.index (x.ptx.tx.outpoint i) = none)
    (h : (validateAndApplyAtomicStateTransitionWithGrowth blake2b params x.ptx x.povDaaScore
      x.ctx).run (s, growth) = .ok () (t, growth')) :
    ∃ t', (validateAndApplyAtomicStateTransitionWithGrowth blake2b params x.ptx x.povDaaScore
        x.ctx).run (s', growth) = .ok () (t', growth') ∧ t.content = t'.content := by
  obtain ⟨delta, hdelta, hroom, haccepts, rfl⟩ := withGrowth_eq_ok.mp h
  obtain ⟨calls, t', hrun, hrun', haccepts'⟩ := exists_calls_of_content heq hcoh hfresh haccepts
  have hreads := sameReads_of_runAll blake2b hrun'
  rw [← heq] at hreads
  rw [estimate_congr heq] at hdelta
  refine ⟨t', withGrowth_eq_ok.mpr ⟨delta, hdelta, hroom, haccepts', rfl⟩,
    content_eq_of_reads (sameReads_of_runAll blake2b hrun) hreads
      (haccepts.coherent hvalid hcoh hfresh) ?_⟩
  rw [heq] at hvalid hcoh hfresh
  exact haccepts'.coherent hvalid hcoh hfresh

end Transition
end CryptixAtomic
