import CryptixAtomic.Transition.Growth

/-!
# Vaults and accepted transactions

A pool is bound to its vault, the output that holds its funds. An accepted transaction
either stays away from vaults and pools, or creates one pool at its only vault output, or moves
one pool from the vault it spends to its only vault output. `VaultStep` says so, and
`Accepts.coherent` that the vault index follows the pools.
-/
namespace CryptixAtomic

open Foundation StateCall List Option

/-- A write that leaves the assets alone. -/
def Write.IsPlain : Write → Prop
  | .asset _ _ => False
  | _ => True

theorem Content.ledger_putAll {ws : List Write} (c : Content) (h : ∀ w ∈ ws, w.IsPlain) :
    (c.putAll ws).ledger = c.ledger := by
  induction ws generalizing c with
  | nil => rfl
  | cons w ws ih =>
    refine (ih (c.put w) fun w' hw' => h w' (mem_cons_of_mem w hw')).trans ?_
    cases w with
    | asset => exact (h _ mem_cons_self).elim
    | nonce | balance | anchor => rfl

theorem AtomicConsensusState.content_of_runAll (blake2b : Blake2b) {s t : AtomicConsensusState}
    {calls : List StateCall} {u : Unit} (hcons : s.content.Consistent)
    (hwrites : ∀ call ∈ calls, call.write.Consistent)
    (h : (runAll blake2b calls).run s = .ok u t) :
    t.content = s.content.putAll (calls.map write) := by
  induction calls generalizing s with
  | nil =>
    simp only [runAll, run_pure, EStateM.Result.ok.injEq] at h
    rw [← h.2]
    rfl
  | cons call calls ih =>
    simp only [runAll, run_bind_eq_ok, run_call_eq_ok] at h
    obtain ⟨_, _, ⟨-, rfl⟩, hrest⟩ := h
    have hput : ((s.recorded call.write).put blake2b call.write).content =
        s.content.put call.write := by
      rw [content_put, content_recorded]
      rwa [content_recorded]
    have hcons' := hcons.put (hwrites call mem_cons_self)
    rw [← hput] at hcons'
    rw [ih hcons' (fun c hc => hwrites c (mem_cons_of_mem call hc)) hrest, hput]
    rfl

namespace Transition

section Writes

variable {blake2b : Blake2b} {v : LedgerView} {ptx : PopulatedTransaction} {ownerId : Bytes32}
  {ctx : AtomicCreationContext} {op : AtomicPayloadOp} {effect : OpEffect}

theorem OpSpec.vault_written (spec : OpSpec blake2b v ptx ownerId ctx op effect) :
    ∀ write ∈ effect.asset, ∀ o, write.2.vaultOutpoint = some o →
      ∃ i, o = ptx.tx.outpoint i := by
  have hplain : ∀ {a : AtomicAssetState} {o : TransactionOutpoint}, a.assetClass ≠ .liquidity →
      a.vaultOutpoint = some o → ∃ i, o = ptx.tx.outpoint i := by
    intro a o hclass ho
    rw [AtomicAssetState.vaultOutpoint, if_neg hclass] at ho
    cases ho
  have hpool : ∀ {a : AtomicAssetState} {p : AtomicLiquidityPoolState} {i : ℕ}
      {o : TransactionOutpoint}, a.liquidity = some p → p.vaultOutpoint = ptx.tx.outpoint i →
      a.vaultOutpoint = some o → ∃ i, o = ptx.tx.outpoint i := by
    intro a p i o hp hat ho
    rw [AtomicAssetState.vaultOutpoint] at ho
    split_ifs at ho
    rw [AtomicAssetState.poolOutpoint, hp, map_some, Option.some.injEq, hat] at ho
    exact ⟨i, ho.symm⟩
  intro write hwrite o ho
  cases spec with
  | createAsset | createAssetUnminted | createAssetMinted =>
    obtain rfl := some.inj hwrite
    exact hplain (by simp [standardAsset]) ho
  | createLiquidityAsset | buyLiquidityExactIn | sellLiquidityExactIn | claimLiquidityFees =>
    obtain rfl := some.inj hwrite
    exact hpool rfl rfl ho
  | selfTransfer | transfer => cases hwrite
  | mint op asset known standard | burn op asset known standard =>
    obtain rfl := some.inj hwrite
    exact hplain standard ho

end Writes

section Coherence

variable {blake2b : Blake2b} {params : AtomicParams} {s t : AtomicConsensusState} {x : TxContext}

theorem isPlain_anchorCalls (ptx : PopulatedTransaction) (s : AtomicConsensusState) :
    ∀ w ∈ (anchorCalls blake2b ptx s).map write, w.IsPlain := by
  intro w hw
  simp only [anchorCalls, List.map_map, List.mem_map] at hw
  obtain ⟨_, -, rfl⟩ := hw
  trivial

/-- The vault index follows the pools through an accepted transaction whose outpoints it
does not list yet. -/
theorem Accepts.coherent (h : Accepts blake2b params s x t) (hvalid : PoolsValid s.assetOption)
    (hcoh : s.content.Coherent) (hfresh : ∀ i, s.vaultOption (x.ptx.tx.outpoint i) = none) :
    t.content.Coherent := by
  obtain ⟨calls, hcalls, hrun⟩ := transition_spec blake2b params x.ptx x.povDaaScore x.ctx h
  have hcons : s.content.Consistent := hvalid.consistent
  cases hcalls with
  | plain =>
    have hplain := @isPlain_anchorCalls blake2b x.ptx s
    rw [Content.Coherent, AtomicConsensusState.content_of_runAll blake2b hcons (by
      intro call hcall
      cases call with
      | setAsset => exact (hplain _ (mem_map_of_mem hcall)).elim
      | _ => trivial) hrun, Content.ledger_putAll _ hplain]
    exact hcoh
  | @token spent parsed a effect payload collected admitted spec =>
    have hafter := spec.poolsValid hvalid
    -- after the asset come only balances, the nonce and anchors
    have hrest : ∀ w ∈ ((effect.balances.map fun write => setBalance write.1 write.2) ++
        .setNextNonce a.nonceKey a.nextNonce :: anchorCalls blake2b x.ptx s).map write,
        w.IsPlain := by
      intro w hw
      rw [map_append, map_cons, mem_append, mem_cons] at hw
      rcases hw with hw | rfl | hw
      · simp only [List.map_map, List.mem_map] at hw
        obtain ⟨_, -, rfl⟩ := hw
        trivial
      · trivial
      · exact isPlain_anchorCalls x.ptx s w hw
    have hplain : ∀ call ∈ (effect.balances.map fun write =>
        setBalance write.1 write.2) ++
        .setNextNonce a.nonceKey a.nextNonce :: anchorCalls blake2b x.ptx s,
        call.write.Consistent := by
      intro call hcall
      cases call with
      | setAsset => exact (hrest _ (mem_map_of_mem hcall)).elim
      | _ => trivial
    cases hasset : effect.asset with
    | none =>
      simp only [OpEffect.calls, hasset, toList_none, map_nil, nil_append] at hrun
      rw [Content.Coherent, AtomicConsensusState.content_of_runAll blake2b hcons hplain hrun,
        Content.ledger_putAll _ hrest]
      exact hcoh
    | some write =>
      simp only [OpEffect.calls, hasset, toList_some, map_cons, map_nil,
        cons_append, nil_append] at hrun
      have hwritten : (setAsset write.1 write.2).write.Consistent := by
        apply hafter.consistent write.1 write.2
        simp [OpEffect.assetAfter, hasset]
      rw [Content.Coherent, AtomicConsensusState.content_of_runAll blake2b hcons (by
        rw [forall_mem_cons]
        exact ⟨hwritten, hplain⟩) hrun]
      change (Content.putAll (s.content.put (.asset write.1 (some write.2))) _).ledger.Coherent _
      rw [Content.ledger_putAll _ hrest]
      apply Indexed.Coherent.write hcoh
      intro o ho k _ hk
      -- the outpoint is the transaction's own, and the index does not list it
      obtain ⟨i, rfl⟩ := spec.vault_written write (by simp [hasset]) o ho
      have hlisted : s.vaultOption (x.ptx.tx.outpoint i) = some k := (hcoh _ k).mpr hk
      rw [hfresh i] at hlisted
      cases hlisted

end Coherence

section Steps

/-- How an accepted transaction touches vaults and pools. -/
inductive VaultStep (blake2b : Blake2b) (params : AtomicParams) (s : AtomicConsensusState)
    (x : TxContext) (t : AtomicConsensusState) : Prop
  | apart (noInput : ∀ p ∈ x.ptx.populatedInputs, isVaultScript p.2.scriptPublicKey = false)
      (noOutput : ∀ output ∈ x.ptx.tx.outputs, isVaultScript output.scriptPublicKey = false)
      (pools : t.pool = s.pool)
  | created {pool : AtomicLiquidityPoolState} {index : ℕ}
      (noInput : ∀ p ∈ x.ptx.populatedInputs, isVaultScript p.2.scriptPublicKey = false)
      (output : IsOnlyVaultOutput x.ptx.tx.outputs index pool.vaultValueSompi)
      (fresh : s.pool x.ptx.tx.id = none)
      (pools : t.pool = Function.update s.pool x.ptx.tx.id (some pool))
      (outpoint : pool.vaultOutpoint = x.ptx.tx.outpoint index)
  | moved {assetId : Bytes32} {old pool : AtomicLiquidityPoolState} {index : ℕ}
      {payload : ParsedAtomicPayload × Bytes32}
      (authorized : authorizedPayload blake2b params x = some payload)
      (slot : payload.1.op.poolSlot? = some (assetId, old.poolNonce))
      (known : s.pool assetId = some old)
      (input : IsOnlyVaultInput x.ptx.populatedInputs old.vaultOutpoint)
      (output : IsOnlyVaultOutput x.ptx.tx.outputs index pool.vaultValueSompi)
      (pools : t.pool = Function.update s.pool assetId (some pool))
      (outpoint : pool.vaultOutpoint = x.ptx.tx.outpoint index)

theorem noVaultInput_of_collected {s : AtomicConsensusState}
    {inputs : List (TransactionInput × UtxoEntry)}
    (h : collectSpentLiquidityVaultInputs s inputs = .ok []) :
    ∀ p ∈ inputs, isVaultScript p.2.scriptPublicKey = false := by
  induction inputs with
  | nil => simp
  | cons p inputs ih =>
    obtain ⟨input, entry⟩ := p
    unfold collectSpentLiquidityVaultInputs at h
    split_ifs at h with hvault
    · simp only [except_bind_eq_ok, except_pure_eq_ok, reduceCtorEq, and_false, exists_false] at h
    · rw [forall_mem_cons]
      exact ⟨by simpa using hvault, ih h⟩

theorem noVaultOutput_of_count {tx : Transaction} (h : liquidityVaultOutputCount tx = 0) :
    ∀ output ∈ tx.outputs, isVaultScript output.scriptPublicKey = false := by
  intro output houtput
  have hnot := countP_eq_zero.mp h output houtput
  simpa using hnot

variable {blake2b : Blake2b} {params : AtomicParams} {s t : AtomicConsensusState} {x : TxContext}

theorem Accepts.vaultStep (h : Accepts blake2b params s x t) :
    VaultStep blake2b params s x t := by
  cases h.reads with
  | plain payload collected noVaultOutput nonces assets =>
    apply VaultStep.apart (noVaultInput_of_collected collected)
      (noVaultOutput_of_count noVaultOutput)
    rw [pool_eq_poolsOf, pool_eq_poolsOf, assets]
  | @token spent parsed a effect payload collected admitted spec nonces assets =>
    have hauth := authorizedPayload_of_token payload admitted.owner
    have hpools : t.pool = poolsOf (effect.assetAfter s.assetOption) := by
      rw [pool_eq_poolsOf, assets]
    -- operations that may not spend or create a vault
    have hapart : parsed.op.spendsLiquidityVault = false →
        parsed.op.allowsLiquidityVaultOutput = false →
        poolsOf (effect.assetAfter s.assetOption) = poolsOf s.assetOption →
        VaultStep blake2b params s x t := by
      intro hspends hallows hsame
      have hspent : spent = [] := by
        by_contra hne
        rw [admitted.vaultInput hne] at hspends
        cases hspends
      have hcount : liquidityVaultOutputCount x.ptx.tx = 0 := by
        by_contra hne
        rw [admitted.vaultOutput (Nat.pos_of_ne_zero hne)] at hallows
        cases hallows
      rw [hspent] at collected
      exact .apart (noVaultInput_of_collected collected) (noVaultOutput_of_count hcount)
        (hpools.trans hsame)
    have hwrite : ∀ {assetId : Bytes32} {b : AtomicAssetState}, effect.asset = some (assetId, b) →
        poolsOf (effect.assetAfter s.assetOption) =
          Function.update (poolsOf s.assetOption) assetId b.liquidity := by
      intro assetId b hasset
      rw [OpEffect.assetAfter, hasset]
      exact poolsOf_update s.assetOption assetId b
    have hread : ∀ {assetId : Bytes32} {a : Option AtomicAssetState}, s.view.asset assetId = a →
        poolsOf s.assetOption assetId = a.bind (·.liquidity) := by
      rintro assetId _ rfl
      rfl
    have hkeep : ∀ {assetId : Bytes32} {a : Option AtomicAssetState} {b : AtomicAssetState},
        s.view.asset assetId = a → effect.asset = some (assetId, b) →
        b.liquidity = a.bind (·.liquidity) →
        poolsOf (effect.assetAfter s.assetOption) = poolsOf s.assetOption := by
      intro assetId a b ha hasset hsame
      rw [hwrite hasset, hsame, ← hread ha, Function.update_eq_self]
    have hmoved : ∀ {assetId : Bytes32} {poolNonce : ℕ},
        parsed.op.poolSlot? = some (assetId, poolNonce) → VaultStep blake2b params s x t := by
      intro assetId poolNonce hslot
      obtain ⟨m, valid, -, hasset⟩ := spec.pool_moved hslot
      obtain ⟨hinput, houtput, -⟩ := resolveLiquidityVaultTransition_spec valid.vault
      have hread : s.assetOption assetId = some m.asset := valid.known
      exact VaultStep.moved hauth (by rw [hslot, valid.nonce])
          (pool_eq_some.mpr ⟨m.asset, hread, valid.pool⟩) hinput houtput
          (hpools.trans (hwrite hasset)) rfl
    obtain ⟨op, hop⟩ : ∃ op, parsed.op = op := ⟨_, rfl⟩
    rw [hop] at spec hapart hmoved
    cases spec with
    | createAsset op fresh | createAssetUnminted op fresh | createAssetMinted op fresh =>
      exact hapart rfl rfl (hkeep fresh rfl rfl)
    | createLiquidityAsset op c valid =>
      exact VaultStep.created valid.noVaultInput (isOnlyVaultOutput_of_created valid.vault)
          (hread valid.fresh) (hpools.trans (hwrite rfl)) rfl
    | selfTransfer | transfer => exact hapart rfl rfl rfl
    | mint op asset known | burn op asset known => exact hapart rfl rfl (hkeep known rfl rfl)
    | buyLiquidityExactIn | sellLiquidityExactIn | claimLiquidityFees => exact hmoved rfl

end Steps

end Transition
end CryptixAtomic
