import CryptixAtomic.Processor.SingleAcceptance
import CryptixAtomic.Processor.Supply
import CryptixAtomic.State.Reorg
import Mathlib.Data.FinEnum

/-!
# States along a chain

In every state that a chain leads to, the balances of all owners of an asset add up to its
supply, and the reserves of all pools are covered by the coins that are unspent. And a block
processed in memory is undone by its delta, for no vault outpoint passes from one pool to
another.
-/
namespace CryptixAtomic

open Foundation OpEffect AtomicPayloadOp AtomicConsensusState List

/-- The tokens of an asset that owners hold. -/
noncomputable def held (balance : AtomicBalanceKey → ℕ) (assetId : Bytes32) : ℕ :=
  ∑ᶠ ownerId, balance ⟨assetId, ownerId⟩

/-- The supply on record, which is zero before the asset exists. -/
def supply (asset : Bytes32 → Option AtomicAssetState) (assetId : Bytes32) : ℕ :=
  (asset assetId).elim 0 (·.totalSupply)

variable {assetId ownerId : Bytes32} {blake2b : Blake2b}

theorem held_update {f : AtomicBalanceKey → ℕ} {amount m n : ℕ}
    (h : amount + m = f ⟨assetId, ownerId⟩ + n) :
    held (Function.update f ⟨assetId, ownerId⟩ amount) assetId + m = held f assetId + n := by
  have hrow : (fun other => Function.update f ⟨assetId, ownerId⟩ amount ⟨assetId, other⟩) =
      Function.update (fun other => f ⟨assetId, other⟩) ownerId amount := by
    funext other
    simp [Function.update_apply]
  have : Finite Bytes32 := inferInstanceAs (Finite (List.Vector UInt8 32))
  have := Fintype.ofFinite Bytes32
  rw [held, held, hrow, finsum_eq_sum_of_fintype, finsum_eq_sum_of_fintype,
    Finset.sum_update_of_mem (Finset.mem_univ _), Finset.sdiff_singleton_eq_erase,
    ← Finset.add_sum_erase _ _ (Finset.mem_univ ownerId)]
  omega

/-- Without a handover, what was tracked in memory leads forward and back. -/
theorem AtomicConsensusState.Tracked.replays {S T : AtomicConsensusState}
    (hmem : S.currentStore = none) (hS : ∀ n, S.Sound blake2b n) (hT : ∀ n, Tracked blake2b S T n)
    (hno : Indexed.NoHandover AtomicAssetState.vaultOutpoint S.content.ledger T.content.ledger) :
    ForwardReaches blake2b T.takeDelta.1 S T.takeDelta.2 ∧
      RollbackReaches blake2b T.takeDelta.1 T.takeDelta.2 S := by
  have h := hT 0
  have hwrites : ∀ forward, ∀ w ∈ T.takeDelta.1.writes forward, w.Consistent :=
    h.tracks.writes_consistent (hS 0).consistent h.sound.consistent
  obtain ⟨hforward, hback⟩ := (h.tracks.replay_iff (hS 0).coherent h.sound.coherent).mpr hno
  constructor
  · obtain ⟨T', hrun, hsound, hc, hstore, hroot⟩ := applyDelta_sound (n := 0) (hS _) (hwrites true)
      (h.tracks.exclusive_forward h.sound.coherent hno)
    exact ⟨T', hrun, .of_content blake2b (hstore.trans h.store.symm) hsound.root
      (h.sound.retrack _ _).root (fun _ => (hroot hmem).trans (h.root hmem).symm)
      (hc.trans hforward)⟩
  · obtain ⟨S', hrun, hsound, hc, hstore, hroot⟩ := applyDelta_sound (n := 0) (s := T.takeDelta.2)
      ((hT _).sound.retrack _ _) (hwrites false) (h.tracks.exclusive_back (hS 0).coherent hno)
    exact ⟨S', hrun, .of_content blake2b (hstore.trans h.store) hsound.root (hS 0).root
      (fun _ => (hroot (h.store.trans hmem)).trans (h.root hmem)) (hc.trans hback)⟩

namespace Transition

/-- What an operation adds to the balances of its asset it adds to the supply. -/
theorem OpSpec.held_named {v : LedgerView} {ptx : PopulatedTransaction}
    {ctx : AtomicCreationContext} {op : AtomicPayloadOp} {effect : OpEffect}
    (spec : OpSpec blake2b v ptx ownerId ctx op effect) (hid : assetId = op.namedAsset ptx.tx.id) :
    held (effect.amountAfter v.balance) assetId + supply v.asset assetId =
      held v.balance assetId + supply (effect.assetAfter v.asset) assetId := by
  subst hid
  cases spec with
  | createAsset op fresh | createAssetUnminted op fresh =>
    simp [supply, amountAfter, assetAfter, namedAsset, assetId?, fresh, standardAsset]
  | createAssetMinted op fresh =>
    exact held_update (by simp [supply, assetAfter, namedAsset, assetId?, fresh, standardAsset])
  | createLiquidityAsset op c valid =>
    have hlaunch := valid.launch
    simp only [supply, assetAfter, namedAsset, assetId?, PoolCreation.newAsset, liquidityAsset,
      Option.getD_none, valid.fresh, Function.update_self, Option.elim]
    generalize c.launched = launched at hlaunch
    cases hlaunch with
    | skipped => rfl
    | bought => exact held_update (by simp)
  | selfTransfer => rfl
  | transfer op known other funded =>
    refine (held_update (n := supply v.asset op.assetId + op.amount) ?_).trans (held_update ?_)
    · simp [namedAsset, assetId?, other.symm]
      omega
    · simp [assetAfter, namedAsset, assetId?]
      omega
  | mint op asset known | burn op asset known standard funded supplied =>
    exact held_update (by simp [supply, assetAfter, namedAsset, assetId?, known]; omega)
  | buyLiquidityExactIn op m valid paid trade supplyFits hsupply
  | sellLiquidityExactIn op m valid unlocked funded trade minOut minPayout payout paid hsupply =>
    exact held_update (by
      simp [supply, assetAfter, namedAsset, assetId?, valid.known, PoolMove.newAsset]
      omega)
  | claimLiquidityFees op m valid unlocked minPayout recipientAt unclaimed authorized payout paid
    total funds hsupply =>
    simp [supply, amountAfter, assetAfter, namedAsset, assetId?, valid.known, PoolMove.newAsset,
      hsupply]

variable {params : AtomicParams} {S s t : AtomicConsensusState} {x : TxContext}

theorem Accepts.held (h : Accepts blake2b params s x t) (assetId : Bytes32) :
    held t.balance assetId + supply s.assetOption assetId =
      held s.balance assetId + supply t.assetOption assetId := by
  cases h.reads with
  | plain payload collected noVaultOutput nonces assets balances =>
    unfold AtomicConsensusState.balance
    rw [assets, balances]
  | @token spent parsed a effect payload collected admitted spec nonces assets balances =>
    by_cases hid : assetId = parsed.op.namedAsset x.ptx.tx.id
    · rw [balance_eq_amountAfter balances, assets]
      exact spec.held_named hid
    · have hframe := ownerFrame_of_spec spec assets balances fun key hkey => by
        rw [nonces, admitted.key, Function.update_of_ne hkey]
      have hsame : ∀ o, t.balance ⟨assetId, o⟩ = s.balance ⟨assetId, o⟩ := fun o =>
        congrArg (·.getD 0) (hframe.otherBalances ⟨assetId, o⟩ hid)
      simp only [CryptixAtomic.held, supply, hsame, hframe.otherAssets assetId hid]

theorem Accepts.exists_calls (h : Accepts blake2b params s x t)
    (hvalid : PoolsValid s.assetOption) : ∃ calls : List StateCall,
      (∀ call ∈ calls, call.write.Consistent) ∧
        (StateCall.runAll blake2b calls).run s = .ok () t := by
  obtain ⟨calls, hcalls, hrun⟩ := transition_spec blake2b params x.ptx x.povDaaScore x.ctx h
  refine ⟨calls, fun call hcall => ?_, hrun⟩
  cases call with
  | setAsset assetId asset =>
    cases hcalls with
    | plain => simp [anchorCalls] at hcall
    | @token _ _ _ effect payload collected admitted spec =>
      have hwrite : effect.asset = some (assetId, asset) := by
        simpa [OpEffect.calls, anchorCalls] using hcall
      exact (spec.poolsValid hvalid).consistent assetId asset (by simp [assetAfter, hwrite])
  | _ => trivial

end Transition

namespace Processor

open Transition

variable {params : AtomicParams} {v : ValidatorParams} {j k : JointState}
  {events : List JointEvent} {o : TransactionOutpoint}

/-- In every state that a chain from genesis leads to, the balances of all owners of an asset
add up to its supply. -/
theorem tokens_conserved {chain : List ChainBlock} (hchain : ChainOk [] chain)
    (hk : advanceAll blake2b params v ⟨∅, .default⟩ chain = .ok k) (assetId : Bytes32) :
    held k.atomic.balance assetId = supply k.atomic.assetOption assetId := by
  obtain ⟨l, events, -, hrun, -⟩ := exists_chainRun Bound.genesis History.empty hchain
  obtain rfl := Except.ok.inj (hrun.advanceAll.symm.trans hk)
  refine hrun.jointRun.induct (P := fun k => held k.atomic.balance assetId =
    supply k.atomic.assetOption assetId) ?_ finsum_zero
  intro j e k hstep hj
  cases hstep with
  | newBlock | coinbase => exact hj
  | accepted plain unspent distinct fresh accepts =>
    have hmoved := accepts.held assetId
    dsimp only
    omega

theorem poolChain_conserves_tokens : ∃ k,
    advanceAll zeroHash sampleParams sampleValidator ⟨∅, .default⟩ poolChain = .ok k ∧
      supply k.atomic.assetOption (sampleId 7) = 1 ∧
      held k.atomic.balance (sampleId 7) = supply k.atomic.assetOption (sampleId 7) := by
  obtain ⟨k, hk, hone⟩ := @exists_ok_of_any _ _
    (advanceAll zeroHash sampleParams sampleValidator ⟨∅, .default⟩ poolChain)
    (fun k => supply k.atomic.assetOption (sampleId 7) = 1) (by decide +kernel)
  exact ⟨k, hk, of_decide_eq_true hone, tokens_conserved poolChain_ok hk _⟩

/-- The coins a pool accounts for. -/
def reserves (pool : Option AtomicLiquidityPoolState) : ℕ :=
  pool.elim 0 fun p => p.realCpayReservesSompi + p.unclaimedFeeTotalSompi

/-- Vaults are apart, so taking away the coins of one pool leaves those of the others. -/
theorem reserves_le {pool : Bytes32 → Option AtomicLiquidityPoolState} {s : Finset Bytes32}
    {utxo : UtxoCollection} (hapart : ∀ a b p q, pool a = some p → pool b = some q →
      p.vaultOutpoint = q.vaultOutpoint → a = b)
    (hvault : ∀ a ∈ s, ∀ p, pool a = some p →
      ∃ e, utxo.lookup p.vaultOutpoint = some e ∧ e.amount = reserves (pool a)) :
    ∑ a ∈ s, reserves (pool a) ≤ nativeSupply utxo := by
  induction s using Finset.induction_on generalizing utxo with
  | empty => simp
  | insert a s ha ih =>
    rw [Finset.forall_mem_insert] at hvault
    rw [Finset.sum_insert ha]
    cases hp : pool a with
    | none => simpa [reserves] using ih hvault.2
    | some p =>
      obtain ⟨e, he, hamount⟩ := hvault.1 p hp
      have hrest := @ih (utxo.assign p.vaultOutpoint none) fun b hb q hq => by
        rw [FMap.lookup_assign, if_neg]
        · exact hvault.2 b hb q hq
        · intro hat
          exact ha (hapart a b p q hp hq hat.symm ▸ hb)
      have htotal := FMap.total_assign (fun _ e => e.amount) utxo p.vaultOutpoint none
      rw [he, FMap.weight_some, FMap.weight_none] at htotal
      unfold nativeSupply at hrest ⊢
      rw [← hp, ← hamount]
      omega

/-- In every state that a chain from genesis leads to, all pools together account for no more
coins than are unspent. -/
theorem pools_backed {chain : List ChainBlock} (hchain : ChainOk [] chain)
    (hk : advanceAll blake2b params v ⟨∅, .default⟩ chain = .ok k) (s : Finset Bytes32) :
    ∑ assetId ∈ s, reserves (k.atomic.pool assetId) ≤ nativeSupply k.utxo := by
  obtain ⟨l, _, _, hrun, hbound, -⟩ := exists_chainRun Bound.genesis History.empty hchain
  obtain rfl := Except.ok.inj (hrun.advanceAll.symm.trans hk)
  apply reserves_le fun _ _ _ _ => hbound.vault_unique
  intro a _ p hp
  obtain ⟨asset, ha, hpool⟩ := pool_eq_some.mp hp
  obtain ⟨e, he, -, hamount, -⟩ := hbound.vault a p hp
  rw [(hbound.valid.invariants a asset p ha hpool).vaultValue] at hamount
  exact ⟨e, he, by rw [hamount, hp]; rfl⟩

theorem poolChain_backed : ∃ k,
    advanceAll zeroHash sampleParams sampleValidator ⟨∅, .default⟩ poolChain = .ok k ∧
      reserves (k.atomic.pool (sampleId 7)) ≤ nativeSupply k.utxo := by
  obtain ⟨k, _, _, hrun, -⟩ := exists_chainRun Bound.genesis History.empty poolChain_ok
  exact ⟨k, hrun.advanceAll, by simpa using pools_backed poolChain_ok hrun.advanceAll {sampleId 7}⟩

/-- What successful setters keep, a run keeps that opens no block. -/
theorem JointRun.keeps {P : AtomicConsensusState → Prop}
    (hcalls : ∀ s t calls, P s → (∀ call ∈ calls, call.write.Consistent) →
      (StateCall.runAll blake2b calls).run s = .ok () t → P t)
    (h : JointRun blake2b params j events k) (hbound : Bound j) (hnew : .newBlock ∉ events)
    (hj : P j.atomic) : P k.atomic := by
  induction h with
  | nil => exact hj
  | cons step rest ih =>
    refine ih (hbound.step step) (not_mem_of_not_mem_cons hnew) ?_
    cases step with
    | newBlock => exact (hnew mem_cons_self).elim
    | coinbase => exact hj
    | accepted plain unspent distinct fresh accepts =>
      obtain ⟨calls, hcons, hrun⟩ := accepts.exists_calls hbound.valid
      exact hcalls _ _ calls hj hcons hrun

/-- A pool stays at its vault until a transaction spends it. -/
theorem JointRun.vault_kept (h : JointRun blake2b params j events k)
    (hunspent : ∀ tx ∈ eventTxs events, o ∉ tx.spentOutpoints)
    (hj : ∃ p, j.atomic.pool assetId = some p ∧ p.vaultOutpoint = o) :
    ∃ p, k.atomic.pool assetId = some p ∧ p.vaultOutpoint = o := by
  induction h with
  | nil => exact hj
  | cons step rest ih =>
    rw [← singleton_append, eventTxs_append, forall_mem_append] at hunspent
    refine ih hunspent.2 ?_
    cases step with
    | newBlock | coinbase => exact hj
    | accepted plain unspent distinct fresh accepts =>
      obtain ⟨p, hp, rfl⟩ := hj
      refine ⟨p, ?_, rfl⟩
      cases accepts.vaultStep with
      | apart noInput noOutput pools => rwa [pools]
      | created noInput output fresh' pools =>
        rw [pools, Function.update_of_ne, hp]
        rintro rfl
        cases hp.symm.trans fresh'
      | moved authorized slot known input output pools =>
        rw [pools, Function.update_of_ne, hp]
        rintro rfl
        cases hp.symm.trans known
        obtain ⟨q, hq, -, hat⟩ := input.found
        exact hunspent.1 _ mem_cons_self (hat ▸ mem_spentOutpoints hq)

theorem Bound.pool_of_slotOf (h : Bound j)
    (ho : j.atomic.content.ledger.slotOf AtomicAssetState.vaultOutpoint assetId = some o) :
    ∃ p, j.atomic.pool assetId = some p ∧ p.vaultOutpoint = o := by
  obtain ⟨a, ha, hvault⟩ := Option.bind_eq_some_iff.mp ho
  rw [← (h.valid.consistent assetId a ha).poolOutpoint_eq] at hvault
  obtain ⟨p, hp, hat⟩ := Option.map_eq_some_iff.mp hvault
  exact ⟨p, pool_eq_some.mpr ⟨a, ha, hp⟩, hat⟩

/-- The delta of a mergeset leads from the state before it to the state after it, for it hands
no vault outpoint from one pool to another. -/
theorem calculateUtxoState_delta {past : List Transaction} {c : ChainBlock}
    {m : UtxoProcessingContext} (hbound : Bound j) (hhistory : History past j.utxo)
    (hchain : ChainOk past [c])
    (hm : calculateUtxoState blake2b params v j.utxo.lookup j.atomic c = .ok m) :
    DeltaBetween m.atomicState.takeDelta.1 j.atomic.content m.atomicState.content := by
  obtain ⟨m, diff, trace, utxo, hcalc, -, hprocessed, hbound', hhistory', -⟩ :=
    calculateUtxoState_run blake2b params v hbound hhistory hchain
  obtain rfl := Except.ok.inj (hcalc.symm.trans hm)
  have hrun := hprocessed.jointRun
  have hconsistent : j.atomic.content.Consistent := hbound.valid.consistent
  have hrecords : Records j.atomic m.atomicState := by
    cases hrun with
    | cons step rest =>
      apply rest.keeps (fun _ _ _ h => h.runAll) (hbound.step step) (by simp [BlockTrace.events])
      cases step
      exact ⟨rfl, hconsistent, .default _⟩
  refine ⟨⟨hbound.coherent, hbound'.coherent⟩, ⟨hconsistent, hrecords.consistent⟩,
    ⟨_, rfl, hrecords.tracks⟩, ?_⟩
  -- an outpoint that is a vault after the block was spent by none of its transactions
  intro o a b ha hb
  obtain ⟨q, hq, rfl⟩ := hbound'.pool_of_slotOf hb
  obtain ⟨e, he, -⟩ := hbound'.vault b q hq
  obtain ⟨p, hp, hat⟩ := hrun.vault_kept (fun tx htx hspent => by
    rw [eventTxs_events] at htx
    rw [hhistory'.gone tx (by simp at htx ⊢; tauto) _ hspent] at he
    cases he) (hbound.pool_of_slotOf ha)
  exact hbound'.vault_unique hp hq hat

/-- No mergeset hands a vault outpoint from one pool to another. So every block processed in
memory can be undone: its delta leads from the state before it to the state after it, and
back. -/
theorem block_delta_replays {past : List Transaction} {c : ChainBlock} {m : UtxoProcessingContext}
    (hbound : Bound j) (hhistory : History past j.utxo) (hchain : ChainOk past [c])
    (hm : calculateUtxoState blake2b params v j.utxo.lookup j.atomic c = .ok m) :
    Indexed.NoHandover AtomicAssetState.vaultOutpoint j.atomic.content.ledger
        m.atomicState.content.ledger ∧
      (j.atomic.currentStore = none →
        ForwardReaches blake2b m.atomicState.takeDelta.1 j.atomic m.atomicState.takeDelta.2 ∧
          RollbackReaches blake2b m.atomicState.takeDelta.1 m.atomicState.takeDelta.2
            j.atomic) := by
  have hno := (calculateUtxoState_delta hbound hhistory hchain hm).quiet
  refine ⟨hno, fun hmem => ?_⟩
  obtain ⟨m, diff, trace, utxo, hcalc, -, hprocessed, -⟩ :=
    calculateUtxoState_run blake2b params v hbound hhistory hchain
  obtain rfl := Except.ok.inj (hcalc.symm.trans hm)
  have hrun := hprocessed.jointRun
  have hS : ∀ n, j.atomic.Sound blake2b n := fun n =>
    { coherent := hbound.coherent
      consistent := hbound.valid.consistent
      root := by simp [RootMaintained, hmem]
      fit := by simp [hmem] }
  refine Tracked.replays hmem hS ?_ hno
  cases hrun with
  | cons step rest =>
    refine rest.keeps (P := fun s => ∀ n, Tracked blake2b j.atomic s n)
      (fun s t calls h hcons hcalls n => ((h _).runAll hcons (by simp [hmem]) hcalls).1)
      (hbound.step step) (by simp [BlockTrace.events]) ?_
    cases step
    exact fun n => ⟨(hS n).retrack _ _, rfl, .default _, rfl, fun _ => rfl⟩

/-- The second block of the sample creates a pool: its delta has an asset to replay. -/
theorem pool_block_replays : ∃ c j m, poolChain[1]? = some c ∧
    advanceAll zeroHash sampleParams sampleValidator ⟨∅, .default⟩ (poolChain.take 1) = .ok j ∧
    calculateUtxoState zeroHash sampleParams sampleValidator j.utxo.lookup j.atomic c = .ok m ∧
    m.atomicState.takeDelta.1.assetChanges.map (·.key) = [sampleId 7] ∧
    ForwardReaches zeroHash m.atomicState.takeDelta.1 j.atomic m.atomicState.takeDelta.2 ∧
    RollbackReaches zeroHash m.atomicState.takeDelta.1 m.atomicState.takeDelta.2 j.atomic := by
  obtain ⟨j, _, _, hrun, hbound, hhistory, hrest⟩ := @exists_chainRun_append zeroHash sampleParams
    sampleValidator _ [] (poolChain.take 1) _ Bound.genesis History.empty poolChain_ok
  obtain ⟨j', hj, htest⟩ := @exists_ok_of_any _ _
    (advanceAll zeroHash sampleParams sampleValidator ⟨∅, .default⟩ (poolChain.take 1))
    (fun j => j.atomic.currentStore.isNone && (calculateUtxoState zeroHash sampleParams
      sampleValidator j.utxo.lookup j.atomic ⟨poolBlock, [], 2⟩).toOption.any fun m =>
        m.atomicState.takeDelta.1.assetChanges.map (·.key) = [sampleId 7]) (by decide +kernel)
  obtain rfl := Except.ok.inj (hrun.advanceAll.symm.trans hj)
  rw [Bool.and_eq_true, Option.isNone_iff_eq_none] at htest
  obtain ⟨m, hm, hkeys⟩ := exists_ok_of_any htest.2
  exact ⟨_, j, m, rfl, hj, hm, of_decide_eq_true hkeys,
    (block_delta_replays hbound hhistory hrest hm).2 htest.1⟩

end Processor
end CryptixAtomic
