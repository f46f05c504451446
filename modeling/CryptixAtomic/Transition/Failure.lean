import CryptixAtomic.State.DeltaReplay
import CryptixAtomic.State.Normalized
import CryptixAtomic.Transition.Accepted

/-!
# Failed transitions

Block processing goes on after a rejected transaction, so a failed transition must not have
changed anything. All checks come before the first write, and the only write that can fail is
that of an asset whose vault outpoint is listed for another asset. The outpoint is an output
of the transaction itself, so this needs a second transaction with the same id.
-/
namespace CryptixAtomic

open Foundation AtomicConsensusState Option

variable {s : AtomicConsensusState}

namespace AtomicConsensusState

theorem lookup_of_dropPool {v : VaultIndex} {backed : Bool} {old : Option AtomicAssetState}
    {o : TransactionOutpoint} {assetId : Bytes32}
    (h : (v.dropPool backed old).live.lookup o = some assetId) :
    v.live.lookup o = some assetId := by
  unfold VaultIndex.dropPool at h
  cases hold : old.bind (·.poolOutpoint) with
  | none => simpa [hold] using h
  | some previous =>
    simp only [hold, Overlay.live_write] at h
    by_cases ho : o = previous
    · simp [ho] at h
    · simpa [ho] using h

variable {asset : AtomicAssetState}

theorem vaultFree_of_unlisted
    {pool : AtomicLiquidityPoolState} (assetId : Bytes32) (hpool : asset.liquidity = some pool)
    (hfree : s.vaultOption pool.vaultOutpoint = none) : s.VaultFree assetId (some asset) := by
  intro a ha hclass
  obtain rfl := some.inj ha
  refine ⟨pool, hpool, fun other hlive => ?_⟩
  have hread := Overlay.read_of_live (lookup_of_dropPool hlive) (s.currentStore.map (·.vaults))
  rw [vaultOption, hread] at hfree
  cases hfree

theorem vaultFree_of_standard (assetId : Bytes32) (hclass : asset.assetClass ≠ .liquidity) :
    s.VaultFree assetId (some asset) := by
  intro a ha hliquidity
  obtain rfl := some.inj ha
  exact absurd hliquidity hclass

end AtomicConsensusState

namespace Transition

section Frame

variable (blake2b : Blake2b) (params : AtomicParams) (ptx : PopulatedTransaction)
  (povDaaScore : ℕ) (ctx : AtomicCreationContext)

theorem vaultFree_of_spec {ownerId : Bytes32} {op : AtomicPayloadOp}
    {effect : OpEffect}
    (hfresh : ∀ i < ptx.tx.outputs.length, s.vaultOption (ptx.tx.outpoint i) = none)
    (spec : OpSpec blake2b s.view ptx ownerId ctx op effect) :
    ∀ write ∈ effect.asset, s.VaultFree write.1 (some write.2) := by
  intro write hwrite
  cases spec with
  | createAsset | createAssetUnminted | createAssetMinted =>
    obtain rfl := some.inj hwrite
    exact vaultFree_of_standard _ (by simp [standardAsset])
  | createLiquidityAsset op c valid =>
    obtain rfl := some.inj hwrite
    exact vaultFree_of_unlisted _ rfl (hfresh _ (isOnlyVaultOutput_of_created valid.vault).lt)
  | buyLiquidityExactIn op m valid | sellLiquidityExactIn op m valid
  | claimLiquidityFees op m valid =>
    obtain rfl := some.inj hwrite
    exact vaultFree_of_unlisted _ rfl
      (hfresh _ (resolveLiquidityVaultTransition_spec valid.vault).2.1.lt)
  | selfTransfer | transfer => cases hwrite
  | mint op asset known standard | burn op asset known standard =>
    obtain rfl := some.inj hwrite
    exact vaultFree_of_standard _ standard

theorem run_balances (s : AtomicConsensusState) (balances : List (AtomicBalanceKey × ℕ)) :
    ∃ t, (StateCall.runAll blake2b
      (balances.map fun write => .setBalance write.1 write.2)).run s = .ok () t := by
  induction balances generalizing s with
  | nil => exact ⟨s, rfl⟩
  | cons write balances ih =>
    obtain ⟨t, ht⟩ := ih (s.setBalance blake2b write.1 write.2)
    exact ⟨t, ht⟩

theorem run_effect {effect : OpEffect}
    (hfree : ∀ write ∈ effect.asset, s.VaultFree write.1 (some write.2)) :
    ∃ t, (StateCall.runAll blake2b effect.calls).run s = .ok () t := by
  cases hasset : effect.asset with
  | none =>
    obtain ⟨t, ht⟩ := run_balances blake2b s effect.balances
    exact ⟨t, by simpa [OpEffect.calls, hasset] using ht⟩
  | some write =>
    have haccepts : s.Accepts (StateCall.setAsset write.1 write.2).write :=
      hfree write (by simp [hasset])
    have hput := (@AtomicConsensusState.run_call_eq_ok blake2b s _
      (.setAsset write.1 write.2) ()).mpr ⟨haccepts, rfl⟩
    obtain ⟨t, ht⟩ := run_balances blake2b _ effect.balances
    refine ⟨t, ?_⟩
    simp only [OpEffect.calls, hasset, toList_some, List.map_cons, List.map_nil,
      List.singleton_append, StateCall.runAll, run_bind_eq_ok]
    exact ⟨(), _, hput, ht⟩

variable {e : String}

variable {t : AtomicConsensusState}

theorem rejected_cases
    (h : (validateAndApplyAtomicStateTransition blake2b params ptx povDaaScore ctx).run s =
      .error e t) :
    t = s ∨ ∃ ownerId op effect, OpSpec blake2b s.view ptx ownerId ctx op effect ∧
      (StateCall.runAll blake2b effect.calls).run s = .error e t := by
  simp only [validateAndApplyAtomicStateTransition, run_bind_eq_error, run_get,
    EStateM.Result.ok.injEq, run_pureCheck_eq_error, run_pureCheck_eq_ok, reduceCtorEq,
    false_or] at h
  obtain ⟨_, _, ⟨rfl, rfl⟩, ⟨-, rfl⟩ | ⟨spent, _, ⟨-, rfl⟩, ⟨-, rfl⟩ | ⟨payload, _, ⟨-, rfl⟩, h⟩⟩⟩ := h
  · exact .inl rfl
  · exact .inl rfl
  · cases payload with
    | none =>
      simp only [run_bind_eq_error, run_pureCheck_eq_error, run_modify, reduceCtorEq, and_false,
        exists_false, or_false] at h
      exact .inl h.2.symm
    | some =>
      simp only [run_bind_eq_error, run_pureCheck_eq_error, run_pureCheck_eq_ok, run_modify,
        reduceCtorEq, and_false, exists_false, or_false, applyAtomicOpToState, run_get,
        EStateM.Result.ok.injEq, false_or] at h
      rcases h with ⟨-, rfl⟩ | ⟨a, _, ⟨-, rfl⟩, _, _, ⟨rfl, rfl⟩, ⟨-, rfl⟩ |
        ⟨effect, _, ⟨heffect, rfl⟩, hrun⟩⟩
      · exact .inl rfl
      · exact .inl rfl
      · exact .inr ⟨_, _, effect, opEffect_spec heffect, hrun⟩

/-- A failed transition leaves the state as it was, unless its id is already that of a
listed vault. -/
theorem transition_error
    (hfresh : ∀ i < ptx.tx.outputs.length, s.vaultOption (ptx.tx.outpoint i) = none)
    (h : (validateAndApplyAtomicStateTransition blake2b params ptx povDaaScore ctx).run s =
      .error e t) : t = s := by
  rcases rejected_cases blake2b params ptx povDaaScore ctx h with rfl | ⟨_, _, effect, spec, hrun⟩
  · rfl
  · obtain ⟨m, hm⟩ := run_effect blake2b (vaultFree_of_spec blake2b ptx ctx hfresh spec)
    rw [hm] at hrun
    cases hrun

theorem withGrowth_error {growth growth' : AtomicBlockStateGrowth}
    (hfresh : ∀ i < ptx.tx.outputs.length, s.vaultOption (ptx.tx.outpoint i) = none)
    (h : (validateAndApplyAtomicStateTransitionWithGrowth blake2b params ptx povDaaScore ctx).run
      (s, growth) = .error e (t, growth')) : t = s ∧ growth' = growth := by
  simp only [validateAndApplyAtomicStateTransitionWithGrowth, run_bind_eq_error, run_get,
    EStateM.Result.ok.injEq, run_pureCheck_eq_error, run_pureCheck_eq_ok, run_onFirst_eq_error,
    run_modify, reduceCtorEq, false_or, and_false, exists_false, or_false] at h
  obtain ⟨_, _, ⟨rfl, rfl⟩, ⟨-, hsame⟩ | ⟨delta, _, ⟨-, rfl⟩, ⟨-, hsame⟩ | ⟨_, _, ⟨-, rfl⟩, hrun, hkeep⟩⟩⟩ := h
  · obtain ⟨rfl, rfl⟩ := Prod.mk.inj hsame
    exact ⟨rfl, rfl⟩
  · obtain ⟨rfl, rfl⟩ := Prod.mk.inj hsame
    exact ⟨rfl, rfl⟩
  · exact ⟨transition_error blake2b params ptx povDaaScore ctx hfresh hrun, hkeep.symm⟩

/-- A failed transition has no effect on the state or the growth counters. -/
theorem failed_transition_has_no_effect {s t : AtomicConsensusState}
    {growth growth' : AtomicBlockStateGrowth} {e : String}
    (hfresh : ∀ i < ptx.tx.outputs.length, s.vaultOption (ptx.tx.outpoint i) = none)
    (h : (validateAndApplyAtomicStateTransitionWithGrowth blake2b params ptx povDaaScore ctx).run
      (s, growth) = .error e (t, growth')) : t = s ∧ growth' = growth :=
  withGrowth_error blake2b params ptx povDaaScore ctx hfresh h

end Frame

section Samples

def keyScript : ScriptPublicKey := ⟨0, 0x20 :: (List.replicate 32 5 ++ [0xac])⟩

def vaultScript : ScriptPublicKey := ⟨0, [0x04, 0x43, 0x4C, 0x56, 0x31, 0x75, 0x51]⟩

def keyEntry : UtxoEntry := ⟨1000000000, keyScript, 0, false⟩

/-- A transaction that spends one output of a key and pays back to it. -/
def sampleTx (id : Bytes32) (payload : List UInt8) (outputs : List TransactionOutput) :
    PopulatedTransaction where
  tx :=
    { id, inputs := [⟨⟨sampleId 200, 0⟩⟩]
      outputs := outputs ++ [⟨1000, keyScript⟩]
      subnetworkId := subnetworkIdPayload, payload }
  entries := [keyEntry]
  aligned := rfl

/-- Magic, version, operation, flags, first input as authorization, nonce one. -/
def payloadHeader (op : UInt8) : List UInt8 := [67, 65, 84, 1, op, 0, 0, 0, 1, 0, 0, 0, 0, 0, 0, 0]

/-- A pool with a supply of a million tokens and no fee. -/
def createPoolPayload (launchBuy : ℕ) : List UInt8 :=
  payloadHeader 5 ++ [1, 1, 0] ++ toLeBytes 16 1000000 ++ [0, 0, 0, 0] ++
    toLeBytes 8 100000000 ++ [0, 0, 0] ++ toLeBytes 8 launchBuy ++ toLeBytes 16 (min launchBuy 1)

def sampleParams : AtomicParams where
  payloadHfActivationDaaScore := 0
  atomicStateGrowthLimits := ⟨100, 100, 100, 100, 100⟩

def sampleContext : AtomicCreationContext := ⟨zero32, 0, 0⟩

def launchTx (id : Bytes32) (launchBuy : ℕ) : PopulatedTransaction :=
  sampleTx id (createPoolPayload launchBuy) [⟨100000000 + launchBuy, vaultScript⟩]

def createPoolTx (id : Bytes32) : PopulatedTransaction := launchTx id 0

open AtomicConsensusState in
/-- The creation of a second pool at the vault of the first. -/
def sharedVaultRun : EStateM.Result String (AtomicConsensusState × AtomicBlockStateGrowth) Unit :=
  (validateAndApplyAtomicStateTransitionWithGrowth zeroHash sampleParams
    (createPoolTx (sampleId 7)) 0 sampleContext).run (onePoolState.beginDeltaTracking, .default)

open AtomicConsensusState in
/-- A transaction with the id of a listed vault is rejected only after its write is on
record: the state is in normal form before, and its delta has changed after. -/
theorem second_pool_at_a_vault_leaves_traces :
    onePoolState.beginDeltaTracking.validateNormalized zeroHash = .ok () ∧
      ∃ e t growth, (validateAndApplyAtomicStateTransitionWithGrowth zeroHash sampleParams
          (createPoolTx (sampleId 7)) 0 sampleContext).run
          (onePoolState.beginDeltaTracking, .default) = .error e (t, growth) ∧
        t.dirtyDelta ≠ onePoolState.beginDeltaTracking.dirtyDelta ∧
        t.vaultOption (sampleOutpoint 7) ≠
          onePoolState.beginDeltaTracking.vaultOption (sampleOutpoint 7) := by
  have hnormal : onePoolState.beginDeltaTracking.validateNormalized zeroHash = .ok () := by
    decide +kernel
  have hfailed : succeeded sharedVaultRun = false := by decide +kernel
  have hdelta : (finalState sharedVaultRun).1.dirtyDelta ≠
      onePoolState.beginDeltaTracking.dirtyDelta := by decide +kernel
  have hvault : (finalState sharedVaultRun).1.vaultOption (sampleOutpoint 7) ≠
      onePoolState.beginDeltaTracking.vaultOption (sampleOutpoint 7) := by decide +kernel
  obtain ⟨e, he⟩ := exists_error_of_not_succeeded hfailed
  exact ⟨hnormal, e, (finalState sharedVaultRun).1, (finalState sharedVaultRun).2, he, hdelta,
    hvault⟩

/-- The creation of a second pool whose vault output is one coin. -/
def unpaidVaultTx : PopulatedTransaction :=
  sampleTx (sampleId 8) (createPoolPayload 0) [⟨1, vaultScript⟩]

open AtomicConsensusState in
def unpaidVaultRun : EStateM.Result String (AtomicConsensusState × AtomicBlockStateGrowth) Unit :=
  (validateAndApplyAtomicStateTransitionWithGrowth zeroHash sampleParams unpaidVaultTx 0
    sampleContext).run (onePoolState.beginDeltaTracking, .default)

open AtomicConsensusState in
/-- It is rejected, and the first pool stays as it is. -/
theorem unpaid_vault_output_is_forgotten :
    ∃ e t growth, (validateAndApplyAtomicStateTransitionWithGrowth zeroHash sampleParams
        unpaidVaultTx 0 sampleContext).run (onePoolState.beginDeltaTracking, .default) =
          .error e (t, growth) ∧ t = onePoolState.beginDeltaTracking ∧ growth = .default := by
  have hfailed : succeeded unpaidVaultRun = false := by decide +kernel
  obtain ⟨e, he⟩ := exists_error_of_not_succeeded hfailed
  have hfresh : ∀ i < unpaidVaultTx.tx.outputs.length,
      onePoolState.beginDeltaTracking.vaultOption (unpaidVaultTx.tx.outpoint i) = none := by
    decide +kernel
  exact ⟨e, (finalState unpaidVaultRun).1, (finalState unpaidVaultRun).2, he,
    failed_transition_has_no_effect zeroHash sampleParams _ 0 sampleContext hfresh he⟩

end Samples

end Transition
end CryptixAtomic
