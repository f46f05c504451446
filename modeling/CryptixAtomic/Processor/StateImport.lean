import CryptixAtomic.Processor.AnchorRebuild
import CryptixAtomic.State.History
import CryptixAtomic.State.OverlayCommit

/-!
# Importing the state of a pruning point

A syncing node gets the token state of its pruning point from a peer, as canonical bytes or as
a root, and then the UTXO set. The first import writes a full state to the current store. The
second one takes it from there, or counts the anchors of the UTXO set, and compares the
commitment of the header. The store itself moves on to the virtual state before it returns.
-/
namespace CryptixAtomic

open Foundation AtomicConsensusRootAccumulator

namespace AtomicConsensusState

open StateCodec

variable (blake2b : Blake2b)

def canonicalHashFromCanonicalBytes (bytes : List UInt8) : Except String Bytes32 := do
  match ← decodeRootOnlyCanonicalBytes bytes with
  | some stateHash => .ok stateHash
  | none => return (← tryFromCanonicalBytes blake2b bytes).canonicalHash blake2b

/-- The accumulator computed from the contents of the four maps. -/
def contentRoot (s : AtomicConsensusState) : AtomicConsensusRootAccumulator :=
  .fromStateMaps blake2b s.nextNonces.live s.assets.live s.balances.live s.anchorCounts.live

end AtomicConsensusState

namespace CurrentStore

open AtomicConsensusState

variable (blake2b : Blake2b)

/-- The columns read into memory, with the index rebuilt. -/
def load (store : CurrentStore) (root : AtomicConsensusRootAccumulator) : AtomicConsensusState :=
  rebuildLiquidityVaultOutpointIndex { AtomicConsensusState.default with
    storedRoot := root
    nextNonces := .ofMap store.nonces
    assets := .ofMap store.assets
    balances := .ofMap store.balances
    anchorCounts := .ofMap store.anchorCounts }

def materializeCurrentState (store : CurrentStore) (rootState : AtomicConsensusState) :
    Except String AtomicConsensusState := do
  let state := store.load (rootState.rootAccumulator blake2b)
  let expected := hex32 (rootState.canonicalHash blake2b)
  let actual := hex32 (state.canonicalHash blake2b)
  failIf (state.canonicalHash blake2b ≠ rootState.canonicalHash blake2b)
    s!"materialized current Atomic state root mismatch: expected {expected}, got {actual}"
  return state

end CurrentStore

namespace Processor

open AtomicConsensusState Transition

inductive PruningImportError
  | newPruningPointMissingAtomicState (pruningPoint : Bytes32)
  | atomicStateStoreError (message : String)
  | importedStateCommitmentMismatch (expected actual : Bytes32)
  | newPruningPointTxErrors
  | pruningImportRuleError (message : String)
  | panicked

structure PruningPointAtomicState where
  stateHash : Bytes32
  stateBytes : Option (List UInt8)

/-- What the imports read and write: the header and the body of the pruning point, its root
record, the current store and the two UTXO sets. -/
structure ImportNode where
  pruningPoint : Bytes32
  daaScore : ℕ
  utxoCommitment : Bytes32
  block : MergedBlock
  rootRecord : Option Bytes32
  current : CurrentStore
  pruningUtxoSet : List (TransactionOutpoint × UtxoEntry)
  virtualUtxoSet : UtxoCollection

section Imports

variable (blake2b : Blake2b) (params : AtomicParams) (v : ValidatorParams)

/-- Bytes of either form have to carry the announced hash; only a full state is kept. -/
def checkStateBytes (pruningPoint : String) (expectedHash : Bytes32) (bytes : List UInt8) :
    Except PruningImportError (Option AtomicConsensusState) := do
  let actualHash ← (canonicalHashFromCanonicalBytes blake2b bytes).mapError fun err =>
    .atomicStateStoreError s!"invalid pruning-point Atomic state bytes for `{pruningPoint}`: {err}"
  let expected := hex32 expectedHash
  let actual := hex32 actualHash
  failIf (actualHash ≠ expectedHash) (.atomicStateStoreError
    s!"full pruning-point Atomic state root mismatch for `{pruningPoint}`: expected {expected}, got {actual}")
  return (tryFromCanonicalBytes blake2b bytes).toOption

def decodeStateBytes (pruningPoint : String) (imported : PruningPointAtomicState) :
    Except PruningImportError (Option AtomicConsensusState) :=
  match imported.stateBytes with
  | some bytes => checkStateBytes blake2b pruningPoint imported.stateHash bytes
  | none => .ok none

def recordRoot (message : String) (existing : Option Bytes32) (stateHash : Bytes32) :
    Except PruningImportError Bytes32 :=
  match existing with
  | some root => do
    failIf (root ≠ stateHash) (.atomicStateStoreError message)
    return root
  | none => .ok stateHash

def importPruningPointAtomicState (imported : PruningPointAtomicState) (node : ImportNode) :
    Except PruningImportError ImportNode := do
  let pruningPoint := hex32 node.pruningPoint
  failIf (params.isPayloadHfActive node.daaScore = true ∧ imported.stateBytes = none)
    (.atomicStateStoreError
      s!"post-HF pruning point `{pruningPoint}` requires full Atomic state bytes, got root-only metadata")
  let fullState ← decodeStateBytes blake2b pruningPoint imported
  let root ← recordRoot
    s!"existing pruning-point atomic root for `{pruningPoint}` differs from imported root"
    node.rootRecord imported.stateHash
  return { node with
    rootRecord := some root
    current := (fullState.map (CurrentStore.replaceCurrentOverlay blake2b)).getD node.current }

/-- The state counted from the outputs of the UTXO set. -/
def reconstructAnchors (failed context : String) (node : ImportNode) :
    Except PruningImportError AtomicConsensusState :=
  (atomicAnchorStateFromUtxoIterator blake2b (node.pruningUtxoSet.map .ok) context).mapError
    fun err => .atomicStateStoreError s!"{failed}: {err}"

variable (node : ImportNode)

/-- The current store is used if its root has the recorded hash. -/
def postHfPruningPointAtomicState (multisetHash : Bytes32) :
    Except PruningImportError AtomicConsensusState := do
  let pruningPoint := hex32 node.pruningPoint
  let stateHash ← okOr node.rootRecord (.newPruningPointMissingAtomicState node.pruningPoint)
  let commitment := headerCommitment blake2b multisetHash stateHash true
  failIf (commitment ≠ node.utxoCommitment)
    (.importedStateCommitmentMismatch node.utxoCommitment commitment)
  match node.current.root.filter fun root => (rootOnly root).canonicalHash blake2b = stateHash with
  | some currentRoot =>
    (node.current.materializeCurrentState blake2b (rootOnly currentRoot)).mapError fun err =>
      .atomicStateStoreError
        s!"failed materializing imported post-HF pruning-point Atomic state for `{pruningPoint}`: {err}"
  | none => do
    let reconstructed ← reconstructAnchors blake2b
      s!"failed reconstructing post-HF pruning-point Atomic state from P2P UTXO set for `{pruningPoint}`"
      "post-HF pruning-point UTXO set" node
    let expected := hex32 stateHash
    let rebuilt := hex32 (reconstructed.canonicalHash blake2b)
    failIf (reconstructed.canonicalHash blake2b ≠ stateHash) (.atomicStateStoreError
      s!"post-HF pruning-point Atomic root cannot be reconstructed from P2P UTXO anchors alone for `{pruningPoint}`; expected {expected}, rebuilt {rebuilt}. A full Atomic state is required over the node sync protocol.")
    return reconstructed

def reconstructPreHfPruningPointAtomicState : Except PruningImportError AtomicConsensusState :=
  let pruningPoint := hex32 node.pruningPoint
  reconstructAnchors blake2b
    s!"failed reconstructing pre-HF pruning-point atomic state for `{pruningPoint}`"
    "pruning-point UTXO set" node

/-- Before the activation the root record is only written here. -/
def recordPreHfRoot (state : AtomicConsensusState) :
    Except PruningImportError (Option Bytes32) := do
  let pruningPoint := hex32 node.pruningPoint
  let root ← recordRoot
    s!"existing pre-HF pruning-point atomic root for `{pruningPoint}` differs from reconstructed root"
    node.rootRecord (state.canonicalHash blake2b)
  return some root

variable (virtualDaaScore : Except String ℕ)

/-- The virtual state over the pruning point as its only parent: the transactions of the
pruning point are accepted, and the outcome is written over the current store. -/
def calculateAndCommitVirtualState (state : AtomicConsensusState) (node : ImportNode) :
    Except PruningImportError ImportNode := do
  let povDaaScore ← virtualDaaScore.mapError .pruningImportRuleError
  let m ← (calculateUtxoState blake2b params v node.virtualUtxoSet.lookup state
    ⟨node.block, [], povDaaScore⟩).mapError fun _ => .panicked
  let diff ← (UtxoDiff.empty.withDiffInPlace m.mergesetDiff).mapError fun _ => .panicked
  let virtualState := m.atomicState.takeDelta.2
  return { node with
    current := node.current.commit (virtualState.writeCurrentOverlayBatch blake2b)
    virtualUtxoSet := diff.applyTo node.virtualUtxoSet }

/-- The import of the UTXO set, which has been written to the pruning UTXO set before. The
score of the virtual block is what the window manager answers. -/
def importPruningPointUtxoSet (multisetHash : Bytes32) (node : ImportNode) :
    Except PruningImportError ImportNode := do
  let payloadHfActive := params.isPayloadHfActive node.daaScore
  let state ← if payloadHfActive then postHfPruningPointAtomicState blake2b node multisetHash
    else reconstructPreHfPruningPointAtomicState blake2b node
  let commitment := state.headerCommitmentForState blake2b multisetHash payloadHfActive
  failIf (commitment ≠ node.utxoCommitment)
    (.importedStateCommitmentMismatch node.utxoCommitment commitment)
  let virtualUtxoSet := FMap.insertAll ∅ node.pruningUtxoSet
  let validated := validateTransactionsInParallel blake2b params v node.block.txs
    virtualUtxoSet.lookup node.daaScore .full
  failIf (validated.length < node.block.txs.length) .newPruningPointTxErrors
  let rootRecord ← if payloadHfActive then .ok node.rootRecord
    else recordPreHfRoot blake2b node state
  calculateAndCommitVirtualState blake2b params v virtualDaaScore state
    { node with rootRecord, virtualUtxoSet }

end Imports

end Processor

variable {bytes : List UInt8}

namespace AtomicConsensusState

variable {blake2b : Blake2b} {s t : AtomicConsensusState}

theorem Normalized.of_live (h : s.Normalized blake2b)
    (hnonces : t.nextNonces.live = s.nextNonces.live) (hassets : t.assets.live = s.assets.live)
    (hbalances : t.balances.live = s.balances.live)
    (hanchors : t.anchorCounts.live = s.anchorCounts.live)
    (hvaults : t.liquidityVaultOutpoints.live = s.liquidityVaultOutpoints.live) :
    t.Normalized blake2b := by
  obtain ⟨hn, hc, hb, ha, hsupply, hv⟩ := h
  constructor
  · rwa [hnonces]
  · rwa [hanchors]
  · rwa [hbalances, hassets]
  · rwa [hassets]
  · rwa [hbalances, hassets]
  · rwa [hvaults, hassets]

theorem vaults_of_tryFromCanonicalBytes (h : tryFromCanonicalBytes blake2b bytes = .ok s) :
    s.liquidityVaultOutpoints.live = s.assets.live.iter.foldl StateCheck.listVault ∅ := by
  simp only [tryFromCanonicalBytes, except_bind_eq_ok, except_pure_eq_ok] at h
  obtain ⟨_, -, _, -, ⟨state, next⟩, hread, _, -, rfl⟩ := h
  have hnone : state.isDiskBacked = false := by
    simp [isDiskBacked, currentStore_of_readState hread]
  simp [rebuildLiquidityVaultOutpointIndex, hnone, Overlay.ofMap]

theorem canonicalHash_of_tryFromCanonicalBytes {stateHash : Bytes32}
    (hhash : canonicalHashFromCanonicalBytes blake2b bytes = .ok stateHash)
    (h : tryFromCanonicalBytes blake2b bytes = .ok s) : s.canonicalHash blake2b = stateHash := by
  have hfull : StateCodec.decodeRootOnlyCanonicalBytes bytes = .ok none := by
    simp only [tryFromCanonicalBytes, except_bind_eq_ok, failIf_eq_ok] at h
    obtain ⟨rootOnly, hdecode, _, hroot, -⟩ := h
    cases rootOnly with
    | none => exact hdecode
    | some => exact absurd rfl hroot
  simp only [canonicalHashFromCanonicalBytes, hfull, h] at hhash
  cases hhash
  rfl

/-- A state in memory has the hash of its contents, if its stored root is theirs when it is
empty. -/
theorem canonicalHash_eq_contentRoot (hmem : s.currentStore = none)
    (hempty : s.MapsEmpty → s.storedRoot = .default) :
    s.canonicalHash blake2b = (s.contentRoot blake2b).hash blake2b := by
  rw [canonicalHash, contentRoot, ← logicalRoot_in_memory blake2b hmem]
  by_cases h : s.MapsEmpty
  · rw [rootAccumulator_of_mapsEmpty blake2b h, hempty h, logicalRoot_of_mapsEmpty blake2b hmem h]
  · rw [rootAccumulator_of_not_mapsEmpty blake2b hmem h]

end AtomicConsensusState

variable {s : AtomicConsensusState}

namespace CurrentStore

open AtomicConsensusState

variable {blake2b : Blake2b} {store : CurrentStore}

/-- The root of the store, if it has one, is that of its contents, which are in normal
form. -/
structure Faithful (blake2b : Blake2b) (store : CurrentStore) : Prop where
  root : ∀ root, store.root = some root → root = .fromStateMaps blake2b store.nonces store.assets
    store.balances store.anchorCounts
  normalized : ∀ root, (store.load root).Normalized blake2b

/-- Nothing was ever written, or only the state of genesis. -/
structure Fresh (store : CurrentStore) : Prop where
  nonces : store.nonces = ∅
  assets : store.assets = ∅
  balances : store.balances = ∅
  anchors : store.anchorCounts = ∅
  root : store.root = none ∨ store.root = some .default

theorem fromStateMaps_empty : fromStateMaps blake2b ∅ ∅ ∅ ∅ = .default := by
  simp [fromStateMaps, FMap.iter_empty]

theorem Fresh.faithful (h : store.Fresh) : store.Faithful blake2b where
  root := by
    intro root hroot
    rw [h.nonces, h.assets, h.balances, h.anchors, fromStateMaps_empty]
    rcases h.root with hnone | hdefault
    · rw [hnone] at hroot
      cases hroot
    · rw [hdefault] at hroot
      exact (Option.some.inj hroot).symm
  normalized := by
    intro root
    apply (Processor.PlainState.normalized .default).of_live
    · exact h.nonces
    · exact h.assets
    · exact h.balances
    · exact h.anchors
    · change store.assets.iter.foldl StateCheck.listVault ∅ = ∅
      rw [h.assets, FMap.iter_empty]
      rfl

theorem faithful_replaceCurrentOverlay (h : tryFromCanonicalBytes blake2b bytes = .ok s) :
    (replaceCurrentOverlay blake2b s).Faithful blake2b := by
  obtain ⟨hmem, hnormalized, hroot⟩ := tryFromCanonicalBytes_spec h
  have hvaults := vaults_of_tryFromCanonicalBytes h
  rw [replaceCurrentOverlay_eq]
  constructor
  · rintro root ⟨⟩
    rw [rootAccumulator]
    split_ifs
    · exact hroot
    · rfl
  · intro root
    exact hnormalized.of_live rfl rfl rfl rfl hvaults.symm

theorem materializeCurrentState_spec (h : store.Faithful blake2b)
    {root : AtomicConsensusRootAccumulator} (hroot : store.root = some root)
    (hs : store.materializeCurrentState blake2b (rootOnly root) = .ok s) :
    s.Normalized blake2b ∧
      (s.contentRoot blake2b).hash blake2b = (rootOnly root).canonicalHash blake2b ∧
      s = store.load root := by
  simp only [materializeCurrentState, except_bind_eq_ok, failIf_eq_ok, except_pure_eq_ok,
    exists_const] at hs
  have hload : store.load ((rootOnly root).rootAccumulator blake2b) = store.load root := by
    rw [rootAccumulator_of_mapsEmpty blake2b ⟨rfl, rfl, rfl, rfl⟩]
    rfl
  obtain ⟨-, rfl⟩ := hs
  rw [hload]
  constructor
  · exact h.normalized root
  constructor
  · rw [canonicalHash, rootAccumulator_of_mapsEmpty blake2b ⟨rfl, rfl, rfl, rfl⟩]
    exact congrArg (hash blake2b) (h.root root hroot).symm
  · rfl

end CurrentStore

namespace Processor

open AtomicConsensusState Transition

variable {blake2b : Blake2b} {params : AtomicParams} {v : ValidatorParams}

variable {node : ImportNode}

theorem reconstructAnchors_spec {failed context : String}
    (h : reconstructAnchors blake2b failed context node = .ok s) :
    s.Normalized blake2b ∧ s.canonicalHash blake2b = (s.contentRoot blake2b).hash blake2b ∧
      atomicAnchorStateFromUtxoIterator blake2b (node.pruningUtxoSet.map .ok) context = .ok s := by
  rw [reconstructAnchors, mapError_eq_ok] at h
  have hcounted := h
  simp only [atomicAnchorStateFromUtxoIterator, atomicAnchorStateFromUtxoIteratorInner,
    except_bind_eq_ok, except_pure_eq_ok] at hcounted
  obtain ⟨_, hadd, _, -, rfl⟩ := hcounted
  obtain ⟨hplain, -⟩ := addAnchors_eq_ok PlainState.default hadd
  exact ⟨hplain.normalized, canonicalHash_eq_contentRoot hplain.memory fun _ => hplain.root, h⟩

/-- What the first import leaves: the announced root, and the announced state or the store as
it was. -/
theorem importPruningPointAtomicState_spec {imported : PruningPointAtomicState} {node' : ImportNode}
    (h : importPruningPointAtomicState blake2b params imported node = .ok node') :
    ∃ current, node' = { node with rootRecord := some imported.stateHash, current } ∧
      (current = node.current ∨ ∃ bytes s, imported.stateBytes = some bytes ∧
        tryFromCanonicalBytes blake2b bytes = .ok s ∧ s.canonicalHash blake2b = imported.stateHash ∧
        current = CurrentStore.replaceCurrentOverlay blake2b s) := by
  simp only [importPruningPointAtomicState, except_bind_eq_ok, failIf_eq_ok, except_pure_eq_ok,
    exists_const] at h
  obtain ⟨-, full, hfull, root, hroot, rfl⟩ := h
  have hrecorded : root = imported.stateHash := by
    unfold recordRoot at hroot
    split at hroot
    · simp only [except_bind_eq_ok, failIf_eq_ok, except_pure_eq_ok, exists_const, not_not] at hroot
      exact hroot.2.symm.trans hroot.1
    · cases hroot
      rfl
  rw [hrecorded]
  refine ⟨_, rfl, ?_⟩
  unfold decodeStateBytes at hfull
  split at hfull
  · rename_i bytes hbytes
    simp only [checkStateBytes, except_bind_eq_ok, mapError_eq_ok, failIf_eq_ok, except_pure_eq_ok,
      exists_const, not_not] at hfull
    obtain ⟨_, hhash, rfl, rfl⟩ := hfull
    cases hdecode : tryFromCanonicalBytes blake2b bytes with
    | error => exact .inl rfl
    | ok s =>
      exact .inr ⟨bytes, s, hbytes, hdecode,
        canonicalHash_of_tryFromCanonicalBytes hhash hdecode, rfl⟩
  · cases hfull
    exact .inl rfl

/-- Where the state of the pruning point is taken from. -/
inductive TakenFrom (blake2b : Blake2b) (node : ImportNode) (s : AtomicConsensusState) : Prop
  | store (root : AtomicConsensusRootAccumulator) (hroot : node.current.root = some root)
      (hload : s = node.current.load root)
  | anchors (hcounted : atomicAnchorStateFromUtxoIterator blake2b (node.pruningUtxoSet.map .ok)
      "post-HF pruning-point UTXO set" = .ok s)

variable {multisetHash : Bytes32}

theorem postHfPruningPointAtomicState_spec (hstore : node.current.Faithful blake2b)
    (h : postHfPruningPointAtomicState blake2b node multisetHash = .ok s) :
    s.Normalized blake2b ∧
      headerCommitment blake2b multisetHash ((s.contentRoot blake2b).hash blake2b) true =
        node.utxoCommitment ∧
      TakenFrom blake2b node s := by
  simp only [postHfPruningPointAtomicState, except_bind_eq_ok, okOr_eq_ok, failIf_eq_ok,
    exists_const, not_not] at h
  obtain ⟨stateHash, -, hcommitment, h⟩ := h
  split at h
  · rename_i root hmatch
    obtain ⟨hroot, hhash⟩ := Option.filter_eq_some_iff.mp hmatch
    rw [mapError_eq_ok] at h
    obtain ⟨hnormalized, hcontent, hload⟩ :=
      CurrentStore.materializeCurrentState_spec hstore hroot h
    rw [hcontent, of_decide_eq_true hhash]
    exact ⟨hnormalized, hcommitment, .store root hroot hload⟩
  · simp only [except_bind_eq_ok, failIf_eq_ok, except_pure_eq_ok, exists_const, not_not] at h
    obtain ⟨_, hcounted, hhash, rfl⟩ := h
    obtain ⟨hnormalized, hcontent, hanchors⟩ := reconstructAnchors_spec hcounted
    rw [← hcontent, hhash]
    exact ⟨hnormalized, hcommitment, .anchors hanchors⟩

/-- The virtual state computed from a state, and the store it is written over. -/
def CommitsVirtual (blake2b : Blake2b) (params : AtomicParams) (v : ValidatorParams)
    (s : AtomicConsensusState) (node node' : ImportNode) : Prop :=
  ∃ povDaaScore m, calculateUtxoState blake2b params v
      (FMap.insertAll ∅ node.pruningUtxoSet : UtxoCollection).lookup s
      ⟨node.block, [], povDaaScore⟩ = .ok m ∧
    node'.current = node.current.commit (m.atomicState.takeDelta.2.writeCurrentOverlayBatch blake2b)

theorem importPruningPointUtxoSet_spec {virtualDaaScore : Except String ℕ} {node' : ImportNode}
    (hactive : params.isPayloadHfActive node.daaScore = true)
    (h : importPruningPointUtxoSet blake2b params v virtualDaaScore multisetHash node = .ok node') :
    ∃ s, postHfPruningPointAtomicState blake2b node multisetHash = .ok s ∧
      CommitsVirtual blake2b params v s node node' := by
  simp only [importPruningPointUtxoSet, hactive, if_true, except_bind_eq_ok, failIf_eq_ok,
    exists_const] at h
  obtain ⟨s, hs, -, -, _, -, h⟩ := h
  simp only [calculateAndCommitVirtualState, except_bind_eq_ok, mapError_eq_ok,
    except_pure_eq_ok] at h
  obtain ⟨povDaaScore, -, m, hm, diff, -, rfl⟩ := h
  exact ⟨s, hs, povDaaScore, m, hm, rfl⟩

theorem import_sound {imported : PruningPointAtomicState} {virtualDaaScore : Except String ℕ}
    {multisetHash : Bytes32} {node node₁ node₂ : ImportNode} (hfresh : node.current.Fresh)
    (hactive : params.isPayloadHfActive node.daaScore = true)
    (hstate : importPruningPointAtomicState blake2b params imported node = .ok node₁)
    (hutxo : importPruningPointUtxoSet blake2b params v virtualDaaScore multisetHash node₁ =
      .ok node₂) :
    ∃ s, s.validateNormalized blake2b = .ok () ∧
      headerCommitment blake2b multisetHash ((s.contentRoot blake2b).hash blake2b) true =
        node.utxoCommitment ∧
      TakenFrom blake2b node₁ s ∧ CommitsVirtual blake2b params v s node₁ node₂ := by
  obtain ⟨current, hnode, hcurrent⟩ := importPruningPointAtomicState_spec hstate
  have hfaithful : node₁.current.Faithful blake2b := by
    rw [hnode]
    rcases hcurrent with rfl | ⟨bytes, s, -, hdecoded, -, rfl⟩
    · exact hfresh.faithful
    · exact CurrentStore.faithful_replaceCurrentOverlay hdecoded
  have hscore : node₁.daaScore = node.daaScore := by rw [hnode]
  have hheader : node₁.utxoCommitment = node.utxoCommitment := by rw [hnode]
  rw [← hscore] at hactive
  obtain ⟨s, hs, hcommits⟩ := importPruningPointUtxoSet_spec hactive hutxo
  obtain ⟨hnormalized, hcommitment, htaken⟩ := postHfPruningPointAtomicState_spec hfaithful hs
  rw [hheader] at hcommitment
  exact ⟨s, (validateNormalized_eq_ok blake2b).mpr hnormalized, hcommitment, htaken, hcommits⟩

section Samples

/-- A fresh node at a pruning point after one anchor, whose body makes a second one. -/
def sampleImportNode : ImportNode where
  pruningPoint := sampleId 200
  daaScore := 1
  utxoCommitment := headerCommitment sumHash zero32 (storedAnchor.canonicalHash sumHash) true
  block := sampleBlock 200 [] [nativeTx (sampleId 8) ⟨sampleId 100, 0⟩ keyScript]
  rootRecord := none
  current := .empty
  pruningUtxoSet := [(⟨sampleId 100, 0⟩, ⟨1000, ⟨0, [0x51]⟩, 0, false⟩)]
  virtualUtxoSet := ∅

def sampleImported : PruningPointAtomicState :=
  ⟨storedAnchor.canonicalHash sumHash, some anchorBytes⟩

def sampleImports : Except PruningImportError (ImportNode × ImportNode) := do
  let node₁ ← importPruningPointAtomicState sumHash sampleParams sampleImported sampleImportNode
  let node₂ ← importPruningPointUtxoSet sumHash sampleParams sampleValidator (.ok 2) zero32 node₁
  return (node₁, node₂)

def storeCommitment (multisetHash : Bytes32) (store : CurrentStore) : Bytes32 :=
  headerCommitment sumHash multisetHash ((fromStateMaps sumHash
    store.nonces store.assets store.balances store.anchorCounts).hash sumHash) true

theorem exists_sampleImports {test : ImportNode × ImportNode → Bool}
    (h : sampleImports.toOption.any test = true) :
    ∃ node₁ node₂,
      importPruningPointAtomicState sumHash sampleParams sampleImported sampleImportNode =
        .ok node₁ ∧
      importPruningPointUtxoSet sumHash sampleParams sampleValidator (.ok 2) zero32 node₁ =
        .ok node₂ ∧
      test (node₁, node₂) = true := by
  obtain ⟨⟨node₁, node₂⟩, himports, htest⟩ := exists_ok_of_any h
  simp only [sampleImports, except_bind_eq_ok, except_pure_eq_ok, Prod.mk.injEq] at himports
  obtain ⟨_, hfirst, _, hsecond, rfl, rfl⟩ := himports
  exact ⟨_, _, hfirst, hsecond, htest⟩

theorem sampleImportNode_fresh : sampleImportNode.current.Fresh := ⟨rfl, rfl, rfl, rfl, .inl rfl⟩

/-- The decoded state with its anchor is taken for the pruning point. -/
theorem sampleImport_sound : ∃ node₁ node₂ s,
      importPruningPointAtomicState sumHash sampleParams sampleImported sampleImportNode =
        .ok node₁ ∧
      node₁.current.anchorCounts.lookup (sampleId 3) = some 1 ∧
      importPruningPointUtxoSet sumHash sampleParams sampleValidator (.ok 2) zero32 node₁ =
        .ok node₂ ∧
      s.validateNormalized sumHash = .ok () ∧
      headerCommitment sumHash zero32 ((s.contentRoot sumHash).hash sumHash) true =
        sampleImportNode.utxoCommitment ∧
      TakenFrom sumHash node₁ s ∧
      CommitsVirtual sumHash sampleParams sampleValidator s node₁ node₂ := by
  obtain ⟨node₁, node₂, hfirst, hsecond, htest⟩ := @exists_sampleImports
    (fun nodes => nodes.1.current.anchorCounts.lookup (sampleId 3) = some 1) (by decide +kernel)
  obtain ⟨s, hs⟩ := import_sound sampleImportNode_fresh (by decide +kernel) hfirst hsecond
  exact ⟨node₁, node₂, s, hfirst, of_decide_eq_true htest, hsecond, hs⟩

/-- Both imports succeed, and the store holds the anchor that the pruning point itself
makes: the commitment to its contents is not the one of the header. -/
theorem imported_store_moves_on : sampleImportNode.current.Fresh ∧
      sampleParams.isPayloadHfActive sampleImportNode.daaScore = true ∧
      ∃ node₁ node₂,
        importPruningPointAtomicState sumHash sampleParams sampleImported sampleImportNode =
          .ok node₁ ∧
        importPruningPointUtxoSet sumHash sampleParams sampleValidator (.ok 2) zero32 node₁ =
          .ok node₂ ∧
        storeCommitment zero32 node₂.current ≠ sampleImportNode.utxoCommitment := by
  obtain ⟨node₁, node₂, hfirst, hsecond, htest⟩ := @exists_sampleImports
    (fun nodes => storeCommitment zero32 nodes.2.current ≠ sampleImportNode.utxoCommitment)
    (by decide +kernel)
  exact ⟨sampleImportNode_fresh, by decide +kernel, node₁, node₂, hfirst, hsecond,
    of_decide_eq_true htest⟩

end Samples

end Processor
end CryptixAtomic
