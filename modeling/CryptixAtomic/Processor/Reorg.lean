import CryptixAtomic.Processor.ChainStates
import CryptixAtomic.Processor.UtxoCommitment

/-!
# Moving the persisted state to another chain

A batch for a chain path undoes the deltas of the removed blocks and applies those of the added
ones. Every delta was tracked while its block was processed, so it leads from the state of the
selected parent to that of the block and back, and the path ends where the direct path from
genesis does.
-/
namespace CryptixAtomic.Processor

open Foundation Transition AtomicAssetState AtomicConsensusState List

theorem Bound.of_content {j : JointState} {s : AtomicConsensusState} (h : Bound j)
    (hs : s.content = j.atomic.content) : Bound ⟨j.utxo, s⟩ := by
  have hassets : s.assetOption = j.atomic.assetOption := congrArg (·.ledger.table) hs
  have hpool : s.pool = j.atomic.pool := by
    funext assetId
    simp only [pool, hassets]
  exact ⟨hassets ▸ h.valid, (hs ▸ h.coherent : s.content.Coherent), by simpa [hpool] using h.vault,
    by simpa [hpool] using h.owned⟩

namespace MergesetTree

variable (tree : MergesetTree)

/-- The blocks from the first one, exclusive, up to the last one. -/
inductive Ascends : Bytes32 → List Bytes32 → Bytes32 → Prop
  | nil (b : Bytes32) : Ascends b [] b
  | cons {p b t : Bytes32} {path : List Bytes32} (above : b ≠ tree.genesis)
      (parent : tree.parent b = p) (rest : Ascends b path t) : Ascends p (b :: path) t

end MergesetTree

section Deltas

variable (blake2b : Blake2b) (params : AtomicParams) (v : ValidatorParams) (tree : MergesetTree)

/-- The delta was tracked while the block was processed on the state of its selected parent, in
memory or over a store. -/
def TrackedDelta (b : Bytes32) (delta : AtomicConsensusStateDelta) : Prop :=
  ∃ j s m, StateAt blake2b params v tree (tree.parent b) j ∧ s.content = j.atomic.content ∧
    calculateUtxoState blake2b params v j.utxo.lookup s (tree.mergeset b) = .ok m ∧
    m.atomicState.takeDelta.1 = delta

end Deltas

variable {blake2b : Blake2b} {params : AtomicParams} {v : ValidatorParams} {tree : MergesetTree}
  {b p t : Bytes32} {j k : JointState} {path : List Bytes32} {store : CurrentStore}

section Steps

variable {delta : AtomicConsensusStateDelta}

theorem TrackedDelta.between (hok : tree.Ok) (hb : b ≠ tree.genesis)
    (h : TrackedDelta blake2b params v tree b delta)
    (hj : StateAt blake2b params v tree (tree.parent b) j)
    (hk : StateAt blake2b params v tree b k) :
    DeltaBetween delta j.atomic.content k.atomic.content := by
  obtain ⟨l, s, m, hl, hs, hm, rfl⟩ := h
  obtain rfl := hl.unique hj
  obtain ⟨past, hhistory, hready⟩ := hl.ready hok hb
  obtain ⟨_, k', -, hk', -, -, -, halike⟩ := hl.step hok hb
  obtain rfl := hk'.unique hk
  obtain ⟨m', hm', -, hsame⟩ := halike s hs
  obtain rfl := Except.ok.inj (hm'.symm.trans hm)
  have hdelta := calculateUtxoState_delta ((hl.bound hok).of_content hs) hhistory hready hm
  rwa [hs, hsame] at hdelta

/-- Every block whose selected parent has a state has a delta. -/
theorem exists_trackedDeltas (hok : tree.Ok) : ∃ delta : Bytes32 → AtomicConsensusStateDelta,
    ∀ b j, b ≠ tree.genesis → StateAt blake2b params v tree (tree.parent b) j →
      TrackedDelta blake2b params v tree b (delta b) := by
  have hdelta : ∀ b, ∃ delta, ∀ j, b ≠ tree.genesis →
      StateAt blake2b params v tree (tree.parent b) j →
        TrackedDelta blake2b params v tree b delta := by
    intro b
    by_cases h : b ≠ tree.genesis ∧ ∃ j, StateAt blake2b params v tree (tree.parent b) j
    · obtain ⟨hb, j, hj⟩ := h
      obtain ⟨m, -, hm, -⟩ := hj.step hok hb
      exact ⟨_, fun _ _ _ => ⟨j, j.atomic, m, hj, rfl, hm, rfl⟩⟩
    · exact ⟨AtomicConsensusStateDeltaBuilder.default.intoDelta,
        fun j hb hj => absurd ⟨hb, j, hj⟩ h⟩
  choose delta hdelta using hdelta
  exact ⟨delta, hdelta⟩

/-- Vaults are unspent outputs, so their indices are small. -/
theorem StateAt.vault_fits (hok : tree.Ok)
    (hsmall : ∀ tx, tree.Known tx → tx.outputs.length ≤ 2 ^ 32)
    (hj : StateAt blake2b params v tree b j) {assetId : Bytes32} {o : TransactionOutpoint}
    (ho : j.atomic.content.ledger.slotOf vaultOutpoint assetId = some o) : o.Fits := by
  obtain ⟨pool, hpool, rfl⟩ := (hj.bound hok).pool_of_slotOf ho
  obtain ⟨e, he, -⟩ := (hj.bound hok).vault assetId pool hpool
  obtain ⟨tx, i, output, htx, houtput, hat, -⟩ := hj.minted hok _ e he
  have hindex := (List.getElem?_eq_some_iff.mp houtput).1
  have hlength := hsmall tx htx
  rw [hat]
  change i < 2 ^ 32
  omega

end Steps

section Paths

variable {delta : Bytes32 → AtomicConsensusStateDelta}

theorem MergesetTree.Ascends.content_commit (hok : tree.Ok) (hpath : tree.Ascends p path t)
    (hdelta : ∀ b ∈ path, TrackedDelta blake2b params v tree b (delta b))
    (hj : StateAt blake2b params v tree p j) (hstore : store.content = j.atomic.content) :
    ∃ k, StateAt blake2b params v tree t k ∧ (store.commit
      (path.flatMap fun b => applyCurrentDeltaBatch (delta b) true)).content =
        k.atomic.content := by
  induction hpath generalizing store j with
  | nil => exact ⟨j, hj, hstore⟩
  | cons above parent rest ih =>
    rw [forall_mem_cons] at hdelta
    subst parent
    obtain ⟨_, k, -, hk, -⟩ := hj.step hok above
    rw [flatMap_cons, CurrentStore.commit_append]
    exact ih hdelta.2 hk ((hdelta.1.between hok above hj hk).content_commit true hstore)

theorem MergesetTree.Ascends.content_undo (hok : tree.Ok) (hpath : tree.Ascends p path t)
    (hdelta : ∀ b ∈ path, TrackedDelta blake2b params v tree b (delta b))
    (hk : StateAt blake2b params v tree t k) (hstore : store.content = k.atomic.content) :
    ∃ j, StateAt blake2b params v tree p j ∧ (store.commit
      (path.reverse.flatMap fun b => applyCurrentDeltaBatch (delta b) false)).content =
        j.atomic.content := by
  induction hpath generalizing store k with
  | nil => exact ⟨k, hk, hstore⟩
  | @cons p b t path above parent rest ih =>
    rw [forall_mem_cons] at hdelta
    obtain ⟨l, hl, hundone⟩ := ih hdelta.2 hk hstore
    obtain ⟨j, -, -, hj, -⟩ := hdelta.1
    rw [reverse_cons, flatMap_append, CurrentStore.commit_append, flatMap_singleton, ← parent]
    exact ⟨j, hj, (hdelta.1.between hok above hj hl).content_commit false hundone⟩

theorem MergesetTree.Ascends.fits (hok : tree.Ok)
    (hsmall : ∀ tx, tree.Known tx → tx.outputs.length ≤ 2 ^ 32) (hpath : tree.Ascends p path t)
    (hdelta : ∀ b ∈ path, TrackedDelta blake2b params v tree b (delta b)) (forward : Bool) :
    ∀ b ∈ path, ∀ op ∈ applyCurrentDeltaBatch (delta b) forward, op.Fits := by
  induction hpath with
  | nil => simp
  | @cons p b t path above parent rest ih =>
    rw [forall_mem_cons] at hdelta ⊢
    refine ⟨?_, ih hdelta.2⟩
    obtain ⟨j, -, -, hj, -⟩ := hdelta.1
    obtain ⟨_, k, -, hk, -⟩ := hj.step hok above
    apply (hdelta.1.between hok above hj hk).fits
    intro side assetId o ho
    cases side with
    | true => exact hk.vault_fits hok hsmall ho
    | false => exact hj.vault_fits hok hsmall ho

/-- One batch for a chain path moves a database from the state of one block to that of the
other. -/
theorem represents_path (hok : tree.Ok)
    (hsmall : ∀ tx, tree.Known tx → tx.outputs.length ≤ 2 ^ 32) {A B C : Bytes32}
    {removed added : List Bytes32} (hremoved : tree.Ascends C removed.reverse A)
    (hadded : tree.Ascends C added B)
    (hdelta : ∀ b ∈ removed ++ added, TrackedDelta blake2b params v tree b (delta b))
    (hj : StateAt blake2b params v tree A j) {bincode : Bincode} {db : Database}
    (hdb : store.Represents bincode db) (hstore : store.content = j.atomic.content)
    (newRoot : AtomicConsensusRootAccumulator) :
    ∃ k, ∃ final : CurrentStore, StateAt blake2b params v tree B k ∧
      final.content = k.atomic.content ∧ final.root = some newRoot ∧ final.Represents bincode (db.write
        ((applyCurrentChainPathBatch delta removed added newRoot).map (·.encode bincode))) := by
  rw [forall_mem_append] at hdelta
  have hback : ∀ b ∈ removed.reverse, TrackedDelta blake2b params v tree b (delta b) := by
    simpa using hdelta.1
  obtain ⟨l, hl, hundone⟩ := hremoved.content_undo hok hback hj hstore
  rw [reverse_reverse] at hundone
  obtain ⟨k, hk, hdone⟩ := hadded.content_commit hok hdelta.2 hl hundone
  refine ⟨k, _, hk, ?_, ?_, hdb.commit ?_⟩
  · rw [applyCurrentChainPathBatch, CurrentStore.commit_append, CurrentStore.commit_append]
    exact hdone
  · rw [applyCurrentChainPathBatch, CurrentStore.commit_append]
    rfl
  · intro op hop
    simp only [applyCurrentChainPathBatch, List.mem_append, List.mem_flatMap,
      List.mem_singleton] at hop
    rcases hop with (⟨b, hb, hop⟩ | ⟨b, hb, hop⟩) | rfl
    · exact hremoved.fits hok hsmall hback false b (List.mem_reverse.mpr hb) op hop
    · exact hadded.fits hok hsmall hdelta.2 true b hb op hop
    · trivial

/-- A database that holds the state of block `A` and is moved along a chain path to block `B`
reads exactly like one that holds the state of genesis and is moved along the direct path to
`B`, namely like the state of `B`. -/
theorem reorg_eq_direct (hok : tree.Ok)
    (hsmall : ∀ tx, tree.Known tx → tx.outputs.length ≤ 2 ^ 32) {A B C : Bytes32}
    {removed added direct : List Bytes32} (hremoved : tree.Ascends C removed.reverse A)
    (hadded : tree.Ascends C added B) (hdirect : tree.Ascends tree.genesis direct B)
    (hdelta : ∀ b ∈ removed ++ added ++ direct, TrackedDelta blake2b params v tree b (delta b))
    (hj : StateAt blake2b params v tree A j) (bincode : Bincode) {db dbGenesis : Database}
    {store storeGenesis : CurrentStore} (hdb : store.Represents bincode db)
    (hstore : store.content = j.atomic.content)
    (hdbGenesis : storeGenesis.Represents bincode dbGenesis)
    (hgenesis : storeGenesis.content = AtomicConsensusState.default.content)
    (newRoot : AtomicConsensusRootAccumulator) :
    ∃ k, ∃ final : CurrentStore, StateAt blake2b params v tree B k ∧
      final.content = k.atomic.content ∧ final.root = some newRoot ∧
      final.Represents bincode (db.write
        ((applyCurrentChainPathBatch delta removed added newRoot).map (·.encode bincode))) ∧
      final.Represents bincode (dbGenesis.write
        ((applyCurrentChainPathBatch delta [] direct newRoot).map (·.encode bincode))) := by
  rw [forall_mem_append] at hdelta
  have hstart : StateAt blake2b params v tree tree.genesis ⟨∅, .default⟩ := ⟨[], .genesis, rfl⟩
  have hnone : tree.Ascends tree.genesis [].reverse tree.genesis := .nil _
  obtain ⟨k, final, hk, hcontent, hroot, hreorg⟩ :=
    represents_path hok hsmall hremoved hadded hdelta.1 hj hdb hstore newRoot
  obtain ⟨k', final', hk', hcontent', hroot', hfresh⟩ :=
    represents_path hok hsmall hnone hdirect hdelta.2 hstart hdbGenesis hgenesis newRoot
  obtain rfl := hk.unique hk'
  obtain rfl := CurrentStore.ext_content (hcontent.trans hcontent'.symm)
    (hroot.trans hroot'.symm)
  exact ⟨k, final, hk, hcontent, hroot, hreorg, hfresh⟩

end Paths

section Samples

/-- The database of the chain that creates the pool is moved to the fork, which creates the pool
again. -/
theorem poolTree_reorg : ∃ (delta : Bytes32 → AtomicConsensusStateDelta) (final : CurrentStore),
    (∀ b ∈ [sampleId 201, sampleId 202, sampleId 203],
      TrackedDelta zeroHash sampleParams sampleValidator poolTree b (delta b)) ∧
    (final.assets.lookup (sampleId 7)).isSome = true ∧
    final.Represents .sample (((∅ : Database).write
        ((applyCurrentChainPathBatch delta [] [sampleId 201, sampleId 202] .default).map
          (·.encode .sample))).write
        ((applyCurrentChainPathBatch delta [sampleId 202] [sampleId 203] .default).map
          (·.encode .sample))) ∧
    final.Represents .sample ((∅ : Database).write
      ((applyCurrentChainPathBatch delta [] [sampleId 201, sampleId 203] .default).map
        (·.encode .sample))) := by
  obtain ⟨delta, hdelta⟩ := @exists_trackedDeltas zeroHash sampleParams sampleValidator poolTree
    poolTree_ok
  have htracked : ∀ b ∈ [sampleId 201, sampleId 202, sampleId 203],
      TrackedDelta zeroHash sampleParams sampleValidator poolTree b (delta b) := by
    intro b hb
    have hparents : ∀ b ∈ [sampleId 201, sampleId 202, sampleId 203], b ≠ poolTree.genesis ∧
        ∃ e ∈ poolTreeChains, e.1 = poolTree.parent b := by
      decide +kernel
    obtain ⟨habove, e, he, hparent⟩ := hparents b hb
    obtain ⟨j, hj⟩ := (poolTree_chainTo he).exists_state poolTree_ok
    rw [hparent] at hj
    exact hdelta b j habove hj
  have hsmall : ∀ tx, poolTree.Known tx → tx.outputs.length ≤ 2 ^ 32 := by
    have hall : ∀ tx ∈ rewardBlock.coinbase :: poolBlock.transactions,
        tx.outputs.length ≤ 2 ^ 32 := by
      decide +kernel
    exact fun tx htx => hall tx (poolTree_known htx)
  have habove : ∀ b ∈ [sampleId 202, sampleId 203],
      poolTree.Ascends (sampleId 201) [b] b ∧
        poolTree.Ascends poolTree.genesis [sampleId 201, b] b := by
    intro b hb
    have hparents : ∀ b ∈ [sampleId 202, sampleId 203], b ≠ poolTree.genesis ∧
        poolTree.parent b = sampleId 201 := by
      decide +kernel
    have hlast : poolTree.Ascends (sampleId 201) [b] b :=
      .cons (hparents b hb).1 (hparents b hb).2 (.nil b)
    exact ⟨hlast, .cons (by decide) (by decide +kernel) hlast⟩
  have hstart : StateAt zeroHash sampleParams sampleValidator poolTree poolTree.genesis
      ⟨∅, .default⟩ := ⟨[], .genesis, rfl⟩
  have hnone : poolTree.Ascends poolTree.genesis [].reverse poolTree.genesis := .nil _
  have hempty := CurrentStore.empty_represents .sample
  have hmain := habove (sampleId 202) (by simp)
  have hremoved : poolTree.Ascends (sampleId 201) [sampleId 202].reverse (sampleId 202) := hmain.1
  have hfork := habove (sampleId 203) (by simp)
  obtain ⟨j, store, hj, hstore, -, hdb⟩ := represents_path poolTree_ok hsmall hnone hmain.2
    (fun b hb => htracked b (by simp at hb ⊢; tauto)) hstart hempty rfl .default
  obtain ⟨k, final, hk, hcontent, -, hreorg, hdirect⟩ := reorg_eq_direct poolTree_ok hsmall
    hremoved hfork.1 hfork.2 (fun b hb => htracked b (by simp at hb ⊢; tauto)) hj .sample hdb hstore
    hempty rfl .default
  refine ⟨delta, final, htracked, ?_, hreorg, hdirect⟩
  obtain ⟨chain, hchain, hk⟩ := hk
  have hone : ∀ e ∈ poolTreeChains, e.1 = sampleId 203 → e.2 = forkChain := by decide +kernel
  obtain rfl : chain = forkChain := hone _ (poolTree_chains hchain) rfl
  obtain ⟨l, hl, hcreated⟩ := @exists_ok_of_any _ _
    (advanceAll zeroHash sampleParams sampleValidator ⟨∅, .default⟩ forkChain)
    (fun l => (l.atomic.assetOption (sampleId 7)).isSome) (by decide +kernel)
  obtain rfl := Except.ok.inj (hk.symm.trans hl)
  have htable := congrFun (congrArg (·.ledger.table) hcontent) (sampleId 7)
  exact (congrArg Option.isSome htable).trans hcreated

end Samples

end CryptixAtomic.Processor
