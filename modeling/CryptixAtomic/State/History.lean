import CryptixAtomic.State.Codec
import CryptixAtomic.State.DeltaReplay

/-!
# The commitment along a history

A history starts from the empty state, a decoded state or a state over a store with a
consistent root, and goes on with setters, deltas and the tracking switches. The accumulator
describes the content of every reached state, except that a state in memory whose last entry
is gone falls back to the accumulator it was decoded with.
-/
namespace CryptixAtomic

open Foundation

/-- What can be done to a state between two commitments. -/
inductive HistoryStep
  | call (call : StateCall)
  | applyDelta (delta : AtomicConsensusStateDelta) (forward : Bool)
  | beginDeltaTracking
  | takeDelta

namespace HistoryStep

variable (blake2b : Blake2b)

def run : HistoryStep → AtomicM Unit
  | call c => c.run blake2b
  | applyDelta delta forward => AtomicConsensusState.applyDelta blake2b delta forward
  | beginDeltaTracking => modify AtomicConsensusState.beginDeltaTracking
  | takeDelta => modify fun s => s.takeDelta.2

/-- The state a step leaves behind, also when it fails. -/
def next (step : HistoryStep) (s : AtomicConsensusState) : AtomicConsensusState :=
  finalState ((step.run blake2b).run s)

def writes : HistoryStep → List Write
  | call c => [c.write]
  | applyDelta delta forward => delta.writes forward
  | beginDeltaTracking => []
  | takeDelta => []

/-- Every write of the step finds its vault free, and the counters have room for them. -/
def Fits (step : HistoryStep) (s : AtomicConsensusState) : Prop :=
  AtomicConsensusState.AcceptsAll blake2b s step.writes ∧ s.EntriesFit step.writes.length

end HistoryStep

structure CurrentStore.HoldsRoot (blake2b : Blake2b) (store : CurrentStore)
    (root : AtomicConsensusRootAccumulator) : Prop where
  stored : store.root = some root ∨ store.root = none ∧ root = .default
  content : root =
    .fromStateMaps blake2b store.nonces store.assets store.balances store.anchorCounts

namespace AtomicConsensusState

variable (blake2b : Blake2b)

/-- States of a history. In memory any step may be taken, over a store every write
must go through. A clone of a state is the state itself. -/
inductive Reachable : AtomicConsensusState → Prop
  | empty : Reachable default
  | decoded {bytes : List UInt8} {s : AtomicConsensusState}
      (h : tryFromCanonicalBytes blake2b bytes = .ok s) : Reachable s
  | attached {store : CurrentStore} {root : AtomicConsensusRootAccumulator}
      (h : store.HoldsRoot blake2b root) : Reachable ((rootOnly root).attachCurrentStore store)
  | step {s : AtomicConsensusState} (hs : Reachable s) (step : HistoryStep)
      (hfits : s.currentStore.isSome → step.Fits blake2b s) : Reachable (step.next blake2b s)

/-- All maps of a state in memory are empty, but its accumulator is not the empty one. -/
def Stale (s : AtomicConsensusState) : Prop :=
  s.currentStore = none ∧ s.MapsEmpty ∧ s.storedRoot ≠ .default

section Frames

theorem keeps_setVaultIndexForAssetChange (assetId : Bytes32)
    (oldValue newValue : Option AtomicAssetState) :
    Keeps currentStore (setVaultIndexForAssetChange assetId oldValue newValue) := by
  unfold setVaultIndexForAssetChange
  apply Keeps.bind
  · exact keeps_modify fun _ => rfl
  intro _
  cases newValue with
  | none => exact keeps_pure _
  | some asset =>
    dsimp only
    split_ifs
    · cases asset.liquidity with
      | none => exact keeps_throw _
      | some =>
        apply Keeps.bind keeps_get
        intro s
        apply Keeps.bind
        · exact keeps_modify fun _ => rfl
        intro _
        split_ifs
        · exact keeps_throw _
        · exact keeps_pure _
    · exact keeps_pure _

theorem keeps_setAssetValueWithoutDelta (assetId : Bytes32) (asset : Option AtomicAssetState) :
    Keeps currentStore (setAssetValueWithoutDelta blake2b assetId asset) := by
  unfold setAssetValueWithoutDelta
  apply Keeps.bind keeps_get
  intro s
  apply Keeps.bind
  · exact keeps_modify fun _ => rfl
  intro _
  apply Keeps.bind (keeps_setVaultIndexForAssetChange assetId _ asset)
  intro _
  exact keeps_modify fun _ => rfl

theorem keeps_applyAssetChanges (forward : Bool) (cs : List (Change Bytes32 AtomicAssetState)) :
    Keeps currentStore (applyAssetChanges blake2b forward cs) := by
  induction cs with
  | nil => exact keeps_pure _
  | cons c cs ih => exact (keeps_setAssetValueWithoutDelta blake2b _ _).bind fun _ => ih

theorem keeps_applyDelta (delta : AtomicConsensusStateDelta) (forward : Bool) :
    Keeps currentStore (applyDelta blake2b delta forward) := by
  unfold applyDelta
  apply Keeps.bind keeps_get
  intro s
  apply Keeps.bind
  · exact keeps_modify fun _ => rfl
  intro _
  -- the three loops that cannot fail are sequences of writes
  have hloop : ∀ (ws : List Write) (s : AtomicConsensusState),
      (s.putAll blake2b ws).currentStore = s.currentStore :=
    fun ws s => currentStore_putAll blake2b s ws
  apply Keeps.bind
  · apply keeps_modify
    intro s
    have h := hloop (delta.nonceChanges.map fun c => .nonce c.key (c.value forward)) s
    rwa [putAll_map] at h
  intro _
  apply Keeps.bind (keeps_applyAssetChanges blake2b forward _)
  intro _
  apply Keeps.bind
  · apply keeps_modify
    intro s
    have h := hloop (delta.balanceChanges.map fun c => .balance c.key (c.value forward)) s
    rwa [putAll_map] at h
  intro _
  apply Keeps.bind
  · apply keeps_modify
    intro s
    have h := hloop (delta.anchorCountChanges.map fun c => .anchor c.key (c.value forward)) s
    rwa [putAll_map] at h
  intro _
  exact keeps_modify fun _ => rfl

theorem keeps_run (step : HistoryStep) : Keeps currentStore (step.run blake2b) := by
  cases step with
  | call c =>
    cases c with
    | setAsset =>
      apply Keeps.bind
      · apply keeps_modify
        intro s
        split_ifs <;> rfl
      · exact fun _ => keeps_setAssetValueWithoutDelta blake2b _ _
    | setBalance =>
      apply keeps_modify
      intro s
      unfold setBalance setBalanceValueWithoutDelta
      dsimp only
      split_ifs <;> rfl
    | setNextNonce =>
      apply keeps_modify
      intro s
      unfold setNextNonce setNonceValueWithoutDelta
      dsimp only
      split_ifs <;> rfl
    | setAnchorCount =>
      apply keeps_modify
      intro s
      unfold setAnchorCount setAnchorCountValueWithoutDelta
      dsimp only
      split_ifs <;> rfl
  | applyDelta delta forward => exact keeps_applyDelta blake2b delta forward
  | beginDeltaTracking | takeDelta => exact keeps_modify fun _ => rfl

end Frames

section Roots

variable {blake2b}
variable {s : AtomicConsensusState}

theorem RootMaintained.putAll {ws : List Write}
    (h : s.RootMaintained blake2b) (hfit : s.currentStore.isSome → s.EntriesFit ws.length) :
    (s.putAll blake2b ws).RootMaintained blake2b := by
  induction ws generalizing s with
  | nil => exact h
  | cons w ws ih =>
    apply ih
    · exact h.put blake2b (fun hs => (hfit hs).mono (Nat.zero_le _)) w
    · intro hs
      rw [currentStore_put] at hs
      exact (hfit hs).put blake2b w

theorem RootMaintained.retrack (h : s.RootMaintained blake2b)
    (deltaTracking : Bool) (dirtyDelta : AtomicConsensusStateDeltaBuilder) :
    ({ s with deltaTracking, dirtyDelta } : AtomicConsensusState).RootMaintained blake2b := h

theorem acceptsAll_retrack (deltaTracking : Bool)
    (dirtyDelta : AtomicConsensusStateDeltaBuilder) {ws : List Write} :
    AcceptsAll blake2b { s with deltaTracking, dirtyDelta } ws ↔ AcceptsAll blake2b s ws := by
  induction ws generalizing s with
  | nil => rfl
  | cons w ws ih =>
    have hput : ({ s with deltaTracking, dirtyDelta } : AtomicConsensusState).put blake2b w =
        { s.put blake2b w with deltaTracking, dirtyDelta } := by
      cases w <;> rfl
    have hacc : ({ s with deltaTracking, dirtyDelta } : AtomicConsensusState).Accepts w ↔
        s.Accepts w := by
      cases w <;> rfl
    rw [AcceptsAll, AcceptsAll, hput, hacc, ih]

theorem EntriesFit.retrack {n : ℕ} (h : s.EntriesFit n)
    (deltaTracking : Bool) (dirtyDelta : AtomicConsensusStateDeltaBuilder) :
    ({ s with deltaTracking, dirtyDelta } : AtomicConsensusState).EntriesFit n :=
  ⟨h.nonces, h.assets, h.balances, h.anchors⟩

theorem RootMaintained.next {s : AtomicConsensusState} (h : s.RootMaintained blake2b)
    {step : HistoryStep} (hfits : s.currentStore.isSome → step.Fits blake2b s) :
    (step.next blake2b s).RootMaintained blake2b := by
  intro hstore
  have hkept : (step.next blake2b s).currentStore = s.currentStore := keeps_run blake2b step s
  rw [hkept] at hstore
  obtain ⟨hacc, hfit⟩ := hfits hstore
  suffices hroot : (step.next blake2b s).RootMaintained blake2b from hroot (hkept ▸ hstore)
  cases step with
  | call c =>
    have hrun : (c.run blake2b).run s = .ok () ((s.recorded c.write).put blake2b c.write) :=
      (run_call_eq_ok blake2b).mpr ⟨hacc.1, rfl⟩
    rw [HistoryStep.next, HistoryStep.run, hrun]
    have hrecorded : s.recorded c.write =
        { s with deltaTracking := s.deltaTracking
                 dirtyDelta := (s.recorded c.write).dirtyDelta } := by
      unfold recorded
      split <;> rfl
    rw [hrecorded]
    apply RootMaintained.put blake2b (h.retrack _ _)
    exact fun _ => (hfit.mono (Nat.zero_le _)).retrack _ _
  | applyDelta delta forward =>
    have hrun := (applyDelta_eq_ok blake2b (u := ())).mpr
      ⟨(acceptsAll_retrack false s.dirtyDelta).mpr hacc, rfl⟩
    rw [HistoryStep.next, HistoryStep.run, hrun]
    have hsuspended : (s.suspended.putAll blake2b (delta.writes forward)).RootMaintained blake2b :=
      RootMaintained.putAll (h.retrack _ _) fun _ => hfit.retrack _ _
    exact hsuspended.retrack _ _
  | beginDeltaTracking | takeDelta => exact h

theorem Reachable.rootMaintained (h : Reachable blake2b s) : s.RootMaintained blake2b := by
  induction h with
  | empty =>
    intro hstore
    cases hstore
  | decoded h =>
    intro hstore
    rw [(tryFromCanonicalBytes_spec h).1] at hstore
    cases hstore
  | @attached store root h =>
    intro _
    have hmaps : ((rootOnly root).attachCurrentStore store).logicalRoot blake2b =
        .fromStateMaps blake2b store.nonces store.assets store.balances store.anchorCounts := by
      simp [logicalRoot, logicalNonces, logicalAssets, logicalBalances, logicalAnchorCounts,
          attachCurrentStore, rootOnly, default, Overlay.merged_empty]
    rw [hmaps]
    exact h.content
  | step hs step hfits ih => exact ih.next hfits

end Roots

section Commitments

variable {blake2b}

/-- The accumulator describes the content exactly in the states that are not stale. -/
theorem rootAccumulator_eq_iff {s : AtomicConsensusState} (h : s.RootMaintained blake2b) :
    s.rootAccumulator blake2b = s.logicalRoot blake2b ↔ ¬s.Stale := by
  cases hstore : s.currentStore with
  | some =>
    have hsome : s.currentStore.isSome := by simp [hstore]
    have hfresh : ¬s.Stale := by
      rintro ⟨hmem, -⟩
      rw [hstore] at hmem
      cases hmem
    exact iff_of_true (rootAccumulator_of_store blake2b hsome h) hfresh
  | none =>
    by_cases hempty : s.MapsEmpty
    · rw [rootAccumulator_of_mapsEmpty blake2b hempty, logicalRoot_of_mapsEmpty blake2b hstore hempty]
      simp [Stale, hstore, hempty]
    · exact iff_of_true (rootAccumulator_of_not_mapsEmpty blake2b hstore hempty)
        fun hstale => hempty hstale.2.1

/-- Along any history the state hash is that of the accumulator rebuilt from the
content, except in stale states; so the header commitment of two states that are not
stale depends on their maps only, whatever their histories and backings. -/
theorem commitment_of_history {s : AtomicConsensusState} (hs : Reachable blake2b s) :
    (s.rootAccumulator blake2b = s.logicalRoot blake2b ↔ ¬s.Stale) ∧
    (¬s.Stale → s.canonicalHash blake2b = (s.logicalRoot blake2b).hash blake2b) ∧
    ∀ t, Reachable blake2b t → ¬s.Stale → ¬t.Stale → SameMaps s t →
      ∀ utxoCommitment payloadHfActive,
        s.headerCommitmentForState blake2b utxoCommitment payloadHfActive =
          t.headerCommitmentForState blake2b utxoCommitment payloadHfActive := by
  have hhash : ∀ u : AtomicConsensusState, Reachable blake2b u → ¬u.Stale →
      u.canonicalHash blake2b = (u.logicalRoot blake2b).hash blake2b := by
    intro u hu hfresh
    rw [canonicalHash, (rootAccumulator_eq_iff hu.rootMaintained).mpr hfresh]
  refine ⟨rootAccumulator_eq_iff hs.rootMaintained, hhash s hs, ?_⟩
  intro t ht hsf htf hmaps utxoCommitment payloadHfActive
  unfold headerCommitmentForState
  rw [hhash s hs hsf, hhash t ht htf, logicalRoot_congr blake2b hmaps]

end Commitments

section Samples

theorem sameMaps_of_live {s t : AtomicConsensusState} (hs : s.currentStore = none)
    (ht : t.currentStore = none)
    (h : s.nextNonces.live = t.nextNonces.live ∧ s.assets.live = t.assets.live ∧
      s.balances.live = t.balances.live ∧ s.anchorCounts.live = t.anchorCounts.live) :
    SameMaps s t := by
  obtain ⟨hn, ha, hb, hc⟩ := h
  constructor <;> funext k
  · rw [nonceOption_in_memory hs, nonceOption_in_memory ht, hn]
  · rw [assetOption_in_memory hs, assetOption_in_memory ht, ha]
  · rw [balanceOption_in_memory hs, balanceOption_in_memory ht, hb]
  · rw [anchorCountOption_in_memory hs, anchorCountOption_in_memory ht, hc]

instance (s : AtomicConsensusState) : Decidable s.MapsEmpty :=
  inferInstanceAs (Decidable (_ ∧ _ ∧ _ ∧ _))

/-- A toy hash that depends on every byte. -/
def sumHash : Blake2b := fun bytes => Bytes.fill 32 (bytes.foldl (· + ·) 0)

/-- The canonical bytes of a state with one anchor count. -/
def anchorBytes : List UInt8 :=
  StateCodec.stateMagic ++ toLeBytes 8 0 ++ toLeBytes 8 0 ++ toLeBytes 8 0 ++ toLeBytes 8 1 ++
    (sampleId 3).val ++ toLeBytes 8 1

/-- Once the only anchor of a decoded state is gone, the state is empty but keeps the
hash of the state it was decoded from. -/
theorem emptied_state_keeps_hash : ∃ s, tryFromCanonicalBytes sumHash anchorBytes = .ok s ∧
      (s.setAnchorCount sumHash (sampleId 3) 0).canonicalHash sumHash ≠
        ((s.setAnchorCount sumHash (sampleId 3) 0).logicalRoot sumHash).hash sumHash ∧
      SameMaps (s.setAnchorCount sumHash (sampleId 3) 0) default ∧
      (s.setAnchorCount sumHash (sampleId 3) 0).canonicalHash sumHash ≠
        default.canonicalHash sumHash := by
  obtain ⟨s, hdecoded, htest⟩ := exists_of_okAnd (tryFromCanonicalBytes sumHash anchorBytes)
    (fun s =>
      let emptied := s.setAnchorCount sumHash (sampleId 3) 0
      emptied.canonicalHash sumHash ≠ default.canonicalHash sumHash ∧ emptied.MapsEmpty)
    (by decide +kernel)
  have hmem : (s.setAnchorCount sumHash (sampleId 3) 0).currentStore = none :=
    (keeps_run sumHash (.call (.setAnchorCount (sampleId 3) 0)) s).trans
      (tryFromCanonicalBytes_spec hdecoded).1
  obtain ⟨hhash, hempty⟩ := of_decide_eq_true htest
  refine ⟨s, hdecoded, ?_, sameMaps_of_live hmem rfl hempty, hhash⟩
  rw [logicalRoot_of_mapsEmpty sumHash hmem hempty]
  exact hhash

/-- One anchor, counted over a store with nothing in it. -/
def storedAnchor : AtomicConsensusState :=
  ((rootOnly .default).attachCurrentStore ⟨∅, ∅, ∅, ∅, ∅, none⟩).setAnchorCount sumHash (sampleId 3) 1

/-- A state in memory and one over a store, with the same outcome. -/
theorem decoded_anchor_commits_alike : ∃ s, tryFromCanonicalBytes sumHash anchorBytes = .ok s ∧
      storedAnchor.currentStore.isSome ∧ ∀ utxoCommitment payloadHfActive,
        s.headerCommitmentForState sumHash utxoCommitment payloadHfActive =
          storedAnchor.headerCommitmentForState sumHash utxoCommitment payloadHfActive := by
  obtain ⟨s, hdecoded, htest⟩ := exists_of_okAnd (tryFromCanonicalBytes sumHash anchorBytes)
    (fun s => (s.nextNonces.live = ∅ ∧ s.assets.live = ∅ ∧ s.balances.live = ∅ ∧
      s.anchorCounts.live = storedAnchor.anchorCounts.live) ∧ ¬s.MapsEmpty) (by decide +kernel)
  obtain ⟨⟨hnonces, hassets, hbalances, hanchors⟩, hfull⟩ := of_decide_eq_true htest
  have hmem : s.currentStore = none := (tryFromCanonicalBytes_spec hdecoded).1
  have hstored : Reachable sumHash storedAnchor := by
    apply Reachable.step (.attached ⟨.inr ⟨rfl, rfl⟩, by decide +kernel⟩)
      (.call (.setAnchorCount (sampleId 3) 1))
    intro _
    constructor
    · exact ⟨trivial, trivial⟩
    · constructor <;> decide +kernel
  have hmaps : SameMaps s storedAnchor := by
    constructor <;> funext k
    · rw [nonceOption_in_memory hmem, hnonces]
      rfl
    · rw [assetOption_in_memory hmem, hassets]
      rfl
    · rw [balanceOption_in_memory hmem, hbalances]
      rfl
    · rw [anchorCountOption_in_memory hmem, hanchors]
      exact Option.or_none.symm
  obtain ⟨-, -, hsame⟩ := commitment_of_history (Reachable.decoded hdecoded)
  exact ⟨s, hdecoded, rfl, hsame storedAnchor hstored (fun hstale => hfull hstale.2.1)
    (fun hstale => nomatch hstale.1) hmaps⟩
end Samples

end AtomicConsensusState
end CryptixAtomic
